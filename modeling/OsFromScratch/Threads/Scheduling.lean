import OsFromScratch.Threads.Invariant

/-!
# Changes of context

What the scheduling routines do when the invariant holds. The last context of a CPU is put into a
queue, and the CPU goes on with the front of the ready queue, or with its goldfish.

## Main definitions

* `State.enqueue`, `State.resume` — a context is left and the next one is entered.
* `State.moveReady` — threads that wait in a queue become ready.
* `State.wake` — as many idle CPUs are woken up as there are ready threads.
* `Fits` — the code that a CPU may go on with.

## Main results

* `wakeIdle_eq` — the loop of `cpu::check_ready_and_wake`.
* `Sound.swapSelfToQueue_eq` — `swap_self_to_queue`.
* `Sound.advance`, `Sound.leave`, `Between.resume` — the invariant is preserved.
-/

namespace OsFromScratch.Threads

open Function

variable {s s' : State} {c c' : CpuId} {t x : ContextId} {q : Queue} {i : Instr}
    {l rest : List Instr}

/-! ### What the routines do -/

/-- The last context of a CPU is put into a queue. -/
def State.enqueue (s : State) (q : Queue) (c : CpuId) (t : ContextId) : State :=
  (s.setQueue q (s.queue q ++ [t])).setLastContext c none

/-- The CPU goes on with the front of the ready queue, or with its goldfish. -/
def State.resume (s : State) (c : CpuId) : State :=
  { s with
    lastContext := update s.lastContext c (s.queue .ready).head?
    queue := update s.queue .ready (s.queue .ready).tail
    stack := update s.stack c ((s.queue .ready).head?.getD (s.myGoldfish c)) }

/-- Threads become ready, and the rest of a queue goes on waiting. -/
def State.moveReady (s : State) (q : Queue) (ts waiting : List ContextId) : State :=
  (s.setQueue q waiting).setQueue .ready (s.queue .ready ++ ts)

/-- The CPUs that are woken up: the first idle ones, as many as there are ready threads. -/
def State.toWake (s : State) : List CpuId :=
  (s.cpuVec.filter s.isIdle).take (s.queue .ready).length

/-- The CPUs have been sent an interrupt and are no longer idle. -/
def State.wakeCpus (s : State) (cs : List CpuId) : State :=
  { s with
    isIdle := fun c => s.isIdle c && !cs.contains c
    ipi := fun c => s.ipi c || cs.contains c }

/-- As many idle CPUs are woken up as there are ready threads. -/
def State.wake (s : State) : State :=
  s.wakeCpus s.toWake

theorem wakeCpus_nil (s : State) : s.wakeCpus [] = s := by
  simp [State.wakeCpus]

theorem wakeCpus_cons (s : State) (c : CpuId) (cs : List CpuId) :
    { s with isIdle := update s.isIdle c false, ipi := update s.ipi c true }.wakeCpus cs =
      s.wakeCpus (c :: cs) := by
  simp only [State.wakeCpus, State.mk.injEq, true_and, and_true]
  constructor
  · funext c'
    by_cases hc : c' = c
    · simp [hc]
    · simp [hc]
  · funext c'
    by_cases hc : c' = c
    · simp [hc]
    · simp [hc]

/-- The loop of `cpu::check_ready_and_wake`. -/
theorem wakeIdle_eq {n : ℕ} {cs : List CpuId} (hcs : cs.Nodup) (s : State) :
    wakeIdle n cs s = s.wakeCpus ((cs.filter s.isIdle).take n) := by
  induction cs generalizing n s with
  | nil =>
    cases n <;> simp [wakeIdle, wakeCpus_nil]
  | cons c cs ih =>
    obtain ⟨hc, hcs⟩ := List.nodup_cons.mp hcs
    cases n with
    | zero => simp [wakeIdle, wakeCpus_nil]
    | succ n =>
      rw [wakeIdle]
      split_ifs with hidle
      · -- the CPU is not met again, so that the others are idle as before
        have hfilter : cs.filter (update s.isIdle c false) = cs.filter s.isIdle := by
          refine List.filter_congr fun c' hc' => ?_
          have hne : c' ≠ c := fun heq => hc (heq ▸ hc')
          rw [update_of_ne hne]
        rw [ih hcs, hfilter, wakeCpus_cons s c, List.filter_cons_of_pos hidle, List.take_succ_cons]
      · rw [ih hcs, List.filter_cons_of_neg hidle]

theorem checkReadyAndWake_eq (hcpus : s.cpuVec.Nodup) (hmode : s.InMode c .guarded) :
    checkReadyAndWake c s = some s.wake := by
  have hlocked : s.locked c = true := by simp [State.locked, hmode.1, hmode.2]
  rw [checkReadyAndWake, if_pos hlocked, wakeIdle_eq hcpus]
  rfl

/-- `add_to_ready_queue` of threads that wait in a queue. -/
theorem addToReadyQueue_eq (ts waiting : List ContextId) (hcpus : s.cpuVec.Nodup)
    (hmode : s.InMode c .guarded) (hq : q ≠ .ready) :
    addToReadyQueue c ts (s.setQueue q waiting) = some (s.moveReady q ts waiting).wake := by
  rw [addToReadyQueue]
  have hready : (s.setQueue q waiting).queue .ready = s.queue .ready := by
    simp [State.setQueue, hq.symm]
  rw [hready]
  exact checkReadyAndWake_eq (s := s.moveReady q ts waiting) hcpus hmode

theorem resume_cons {next : ContextId} {ts : List ContextId}
    (hready : s.queue .ready = next :: ts) :
    s.resume c = setcontext c next ((s.setLastContext c (some next)).setQueue .ready ts) := by
  simp [State.resume, setcontext, State.setLastContext, State.setQueue, hready]

theorem resume_nil (hready : s.queue .ready = []) (hlast : s.lastContext c = none) :
    s.resume c = setcontext c (s.myGoldfish c) s := by
  have hlast' : update s.lastContext c none = s.lastContext := by
    rw [← hlast, update_eq_self]
  have hqueue : update s.queue .ready [] = s.queue := by
    rw [← hready, update_eq_self]
  simp [State.resume, setcontext, hready, hlast', hqueue]

/-- `swap_self_to_queue`. The context that is saved is the one that the CPU executes. -/
theorem Sound.swapSelfToQueue_eq (h : Sound s) (hmode : s.InMode c .guarded)
    (hlast : s.lastContext c = some t) (hq : q = .ready → s.queue .ready ≠ []) :
    swapSelfToQueue q c s = some ((s.enqueue q c t).resume c) := by
  have hlocked : s.locked c = true := by simp [State.locked, hmode.1, hmode.2]
  have hstack := h.stack_of_last hlast
  have hsave (s' : State) (hcode : s'.code = s.code) (hs' : s'.stack = s.stack) (load : ContextId) :
      swapcontext c t load s' = setcontext c load s' := by
    have hcurrent : s'.current c = s'.code t := by rw [State.current, hs', hstack]
    rw [swapcontext, hcurrent, update_eq_self]
  have hqueue : (s.enqueue q c t).queue q = s.queue q ++ [t] := by
    simp [State.enqueue, State.setQueue, State.setLastContext]
  rw [swapSelfToQueue, if_pos hlocked, hlast]
  simp only [Option.bind_eq_bind, Option.bind_some]
  rw [← State.enqueue]
  cases hready : (s.enqueue q c t).queue .ready with
  | nil =>
    have hnone : (s.enqueue q c t).lastContext c = none := by
      simp [State.enqueue, State.setLastContext]
    rw [resume_nil hready hnone]
    change (((s.enqueue q c t).queue q).getLast?.bind fun back =>
      some (swapcontext c back _ (s.enqueue q c t))) = _
    rw [hqueue, List.getLast?_concat, Option.bind_some]
    exact congrArg some (hsave (s.enqueue q c t) rfl rfl _)
  | cons next ts =>
    rw [resume_cons hready]
    let taken := ((s.enqueue q c t).setLastContext c (some next)).setQueue .ready ts
    have hback : (taken.queue q).getLast? = some t := by
      by_cases hq' : q = .ready
      · -- the thread is not the only one in the ready queue
        subst hq'
        obtain ⟨first, others, hothers⟩ := List.exists_cons_of_ne_nil (hq rfl)
        rw [hqueue, hothers, List.cons_append, List.cons.injEq] at hready
        simp [taken, State.setQueue, ← hready.2]
      · have hsame : taken.queue q = (s.enqueue q c t).queue q := by
          simp [taken, State.setQueue, State.setLastContext, update_of_ne hq']
        rw [hsame, hqueue, List.getLast?_concat]
    change ((taken.queue q).getLast?.bind fun back => some (swapcontext c back next taken)) = _
    rw [hback, Option.bind_some]
    exact congrArg some (hsave taken rfl rfl next)

/-! ### The code that a CPU goes on with -/

/-- The code that a CPU may go on with. -/
structure Fits (s : State) (c : CpuId) (l : List Instr) : Prop where
  wellFormed : WellFormed l
  thread : s.alive (s.stack c) = true → ∀ i ∈ l, i.OfThread ∧ ∀ j, i = .join j → s.handle j = true
  goldfish : s.alive (s.stack c) = false → ∀ i ∈ l, i.OfGoldfish

namespace Sound

theorem fits_current (h : Sound s) (hc : c ∈ s.cpuVec) : Fits s c (s.current c) where
  wellFormed := h.wellFormed_current hc
  thread halive i hi :=
    ⟨(h.thread_code _ halive).2 i hi, fun j hj => h.join_handle _ j halive (hj ▸ hi)⟩
  goldfish hdead i hi := by
    rcases h.cases_stack hc with ⟨-, halive⟩ | ⟨-, hstack, -⟩
    · rw [halive] at hdead
      cases hdead
    · rw [State.current, hstack] at hi
      exact (h.goldfish_code c hc).2 i hi

theorem fits_tail (h : Sound s) (hc : c ∈ s.cpuVec) (hcode : s.current c = i :: rest)
    (hi : i.after ≠ none) : Fits s c rest := by
  have hfits := h.fits_current hc
  rw [hcode] at hfits
  exact ⟨(hfits.wellFormed.tail hi).1, fun halive j hj => hfits.thread halive j (.tail i hj),
    fun hdead j hj => hfits.goldfish hdead j (.tail i hj)⟩

theorem fits_throwCode (h : Sound s) (hc : c ∈ s.cpuVec) (hcode : s.current c = i :: rest)
    (hi : i.Throws) : Fits s c (throwCode rest) := by
  have hfits := h.fits_current hc
  rw [hcode] at hfits
  have hmem {j : Instr} (hj : j ∈ throwCode rest) :
      j = .guardUnlock ∨ j = .interruptEnable ∨ (∃ op, j = .ret op false) ∨ j ∈ rest := by
    rcases List.mem_cons.mp hj with hj | hj
    · exact Or.inl hj
    · rcases List.mem_cons.mp hj with hj | hj
      · exact Or.inr (Or.inl hj)
      · exact Or.inr (Or.inr (mem_unwind hj))
  have hgold : ¬ i.OfGoldfish := by
    cases i <;> first | exact hi.elim | exact fun h => h
  refine ⟨(hfits.wellFormed.throwCode hi).1, fun halive j hj => ?_, fun hdead => ?_⟩
  · rcases hmem hj with rfl | rfl | ⟨op, rfl⟩ | hj
    · exact ⟨trivial, by simp⟩
    · exact ⟨trivial, by simp⟩
    · exact ⟨trivial, by simp⟩
    · exact hfits.thread halive j (.tail i hj)
  · exact absurd (hfits.goldfish hdead i (.head _)) hgold

theorem fits_timerCode (h : Sound s) (hc : c ∈ s.cpuVec) (hmode : modeOf (s.current c) = .enabled) :
    Fits s c (timerCode ++ s.current c) := by
  have hfits := h.fits_current hc
  refine ⟨hfits.wellFormed.timerCode hmode, fun halive j hj => ?_, fun hdead j hj => ?_⟩
  · rcases List.mem_append.mp hj with hj | hj
    · simp only [timerCode, guarded, List.cons_append, List.nil_append, List.mem_cons,
        List.not_mem_nil, or_false] at hj
      rcases hj with rfl | rfl | rfl | rfl | rfl <;> exact ⟨trivial, by simp⟩
    · exact hfits.thread halive j hj
  · rcases List.mem_append.mp hj with hj | hj
    · simp only [timerCode, guarded, List.cons_append, List.nil_append, List.mem_cons,
        List.not_mem_nil, or_false] at hj
      rcases hj with rfl | rfl | rfl | rfl | rfl <;> trivial
    · exact hfits.goldfish hdead j hj

/-- A CPU goes on with other code. -/
theorem core_setCurrent (h : Sound s) (hc : c ∈ s.cpuVec) (hfits : Fits s c l) :
    Core (s.setCurrent c l) := by
  refine h.setCode (fun q => h.stack_not_mem_queue hc)
    (fun halive => ⟨hfits.wellFormed, hfits.thread halive⟩) fun c' hc' heq => ?_
  have hdead : s.alive (s.stack c) = false := heq ▸ h.goldfish_dead c' hc'
  rcases h.cases_stack hc with ⟨-, halive⟩ | ⟨hlast, hstack, -⟩
  · rw [halive] at hdead
    cases hdead
  · have hcc : c' = c := h.goldfish_inj c' hc' c hc (heq.trans hstack)
    exact ⟨hcc ▸ hlast, hfits.wellFormed, hfits.goldfish hdead⟩

/-- A CPU goes on with its context, and the other CPUs are where they are. -/
theorem advance (h : Sound s) (hc : c ∈ s.cpuVec) (hcore : Core s') (hcpus : s'.cpuVec = s.cpuVec)
    (hlast : s'.lastContext = s.lastContext) (hgold : s'.myGoldfish = s.myGoldfish)
    (hstack : s'.stack = s.stack) (hcode : ∀ x ≠ s.stack c, s'.code x = s.code x)
    (hmode : s'.InMode c (modeOf (s'.current c)))
    (hint : ∀ c' ≠ c, s'.interrupts c' = s.interrupts c')
    (hguard : ∀ c' ≠ c, s'.guard = some c' ↔ s.guard = some c') : Sound s' := by
  refine { hcore with guard_mem := fun c' hc' => ?_, onCpu := fun c' hc' => ?_ }
  · rw [hcpus]
    by_cases hne : c' = c
    · exact hne ▸ hc
    · exact h.guard_mem c' ((hguard c' hne).mp hc')
  · rw [hcpus] at hc'
    refine ⟨by rw [hstack, hlast, hgold, (h.onCpu c' hc').stack], ?_⟩
    by_cases hne : c' = c
    · exact hne ▸ hmode
    · have hx : s.stack c' ≠ s.stack c := fun heq => hne (h.stack_inj hc' hc heq)
      have hcurrent : s'.current c' = s.current c' := by
        rw [State.current, hstack, hcode _ hx, State.current]
      rw [hcurrent]
      exact (h.onCpu c' hc').mode.congr (hint c' hne) (hguard c' hne)

theorem current_setCurrent (s : State) (c : CpuId) (l : List Instr) :
    (s.setCurrent c l).current c = l := by
  simp [State.current, State.setCurrent]

theorem setCurrent_setCurrent (s : State) (c : CpuId) (l l' : List Instr) :
    (s.setCurrent c l).setCurrent c l' = s.setCurrent c l' := by
  simp only [State.setCurrent, update_idem]

theorem code_setCurrent_of_ne (s : State) (c : CpuId) (l : List Instr) (hx : x ≠ s.stack c) :
    (s.setCurrent c l).code x = s.code x :=
  update_of_ne hx _ _

/-- A CPU goes on with other code in the same mode. -/
theorem setCurrent (h : Sound s) (hc : c ∈ s.cpuVec) (hfits : Fits s c l)
    (hmode : modeOf l = modeOf (s.current c)) : Sound (s.setCurrent c l) := by
  refine h.advance hc (h.core_setCurrent hc hfits) rfl rfl rfl rfl
    (fun x hx => code_setCurrent_of_ne s c l hx) ?_ (fun _ _ => rfl) fun _ _ => Iff.rfl
  rw [current_setCurrent, hmode]
  exact (h.onCpu c hc).mode

/-- The mode of a CPU is the one in which its next instruction is executed. -/
theorem inMode (h : Sound s) (hc : c ∈ s.cpuVec) (hcode : s.current c = i :: rest) :
    s.InMode c i.before := by
  have hmode := (h.onCpu c hc).mode
  rwa [hcode] at hmode

/-- An instruction that is executed with the guard held, and keeps it. -/
theorem pop (h : Sound s) (hc : c ∈ s.cpuVec) (hcode : s.current c = i :: rest)
    (hi : i.before = .guarded) (hafter : i.after = some .guarded) :
    Sound (s.setCurrent c rest) ∧ (s.setCurrent c rest).InMode c .guarded := by
  have hne : i.after ≠ none := by simp [hafter]
  have hwf := h.wellFormed_current hc
  rw [hcode] at hwf
  have hrest : modeOf rest = .guarded := by
    have hmode := (hwf.tail hne).2
    rw [hafter, Option.some.injEq] at hmode
    exact hmode.symm
  refine ⟨h.setCurrent hc (h.fits_tail hc hcode hne) ?_, ?_⟩
  · rw [hrest, hcode]
    exact hi.symm
  · have hmode := h.inMode hc hcode
    rwa [hi] at hmode

/-- A CPU leaves the thread that it runs. -/
theorem leave (h : Sound s) (hmode : s.InMode c .guarded) (hlast : s.lastContext c = some t)
    (hjoin : ∀ i, q = .join i → s.alive i = true) : Between c (s.enqueue q c t) := by
  have hc := h.mem_of_last hlast
  have hcode : modeOf (s.code t) = .guarded := by
    have hcurrent := (h.onCpu c hc).mode
    rw [State.current, h.stack_of_last hlast] at hcurrent
    exact hcurrent.eq hmode
  refine { h.toQueue hlast hcode hjoin with
    mem := hc, last := ?_, mode := hmode, goldfish_guarded := ?_, onCpu := fun c' hc' hne => ?_ }
  · simp [State.enqueue, State.setLastContext]
  · exact h.saved_goldfish c hc (by simp [hlast])
  · refine ⟨?_, (h.onCpu c' hc').mode⟩
    simpa [State.enqueue, State.setLastContext, State.setQueue, hne] using (h.onCpu c' hc').stack

end Sound

theorem Between.guard_mem (h : Between c s) (hguard : s.guard = some c') : c' ∈ s.cpuVec := by
  have heq : c = c' := Option.some.inj (h.mode.2.symm.trans hguard)
  exact heq ▸ h.mem

/-- A CPU enters its goldfish. -/
theorem Between.enterGoldfish (h : Between c s) : Sound (setcontext c (s.myGoldfish c) s) := by
  refine { h.toCore with guard_mem := fun c' => h.guard_mem, onCpu := fun c' hc' => ?_ }
  by_cases hne : c' = c
  · subst hne
    refine ⟨by simp [setcontext, h.last], ?_⟩
    have hcurrent : (setcontext c' (s.myGoldfish c') s).current c' = s.code (s.myGoldfish c') := by
      simp [State.current, setcontext]
    rw [hcurrent, h.goldfish_guarded]
    exact h.mode
  · refine ⟨by simpa [setcontext, hne] using (h.onCpu c' hc' hne).stack, ?_⟩
    have hcurrent : (setcontext c (s.myGoldfish c) s).current c' = s.current c' := by
      simp [State.current, setcontext, hne]
    rw [hcurrent]
    exact (h.onCpu c' hc' hne).mode

/-- A CPU enters the next context. -/
theorem Between.resume (h : Between c s) : Sound (s.resume c) := by
  cases hready : s.queue .ready with
  | nil =>
    rw [resume_nil hready h.last]
    exact h.enterGoldfish
  | cons next ts =>
    rw [resume_cons hready]
    refine { h.fromReady h.mem h.last hready h.goldfish_guarded with
      guard_mem := fun c' => h.guard_mem, onCpu := fun c' hc' => ?_ }
    by_cases hne : c' = c
    · subst hne
      refine ⟨by simp [setcontext, State.setLastContext, State.setQueue], ?_⟩
      have hcurrent : (setcontext c' next ((s.setLastContext c' (some next)).setQueue .ready
          ts)).current c' =
          s.code next := by
        simp [State.current, setcontext, State.setLastContext, State.setQueue]
      rw [hcurrent, h.saved .ready next (hready ▸ List.mem_cons_self)]
      exact h.mode
    · refine ⟨?_, ?_⟩
      · simpa [setcontext, State.setLastContext, State.setQueue,
          hne] using (h.onCpu c' hc' hne).stack
      · have hcurrent : (setcontext c next ((s.setLastContext c (some next)).setQueue .ready
            ts)).current c' =
            s.current c' := by
          simp [State.current, setcontext, State.setLastContext, State.setQueue, hne]
        rw [hcurrent]
        exact (h.onCpu c' hc' hne).mode

/-- Threads that wait in a queue become ready. -/
theorem Sound.moveReady (ts waiting : List ContextId) (h : Sound s) (hq : q ≠ .ready)
    (hqueue : s.queue q = ts ++ waiting) : Sound (s.moveReady q ts waiting).wake :=
  { h.addReady hq hqueue with
    guard_mem := h.guard_mem
    onCpu := fun c hc => ⟨(h.onCpu c hc).stack, (h.onCpu c hc).mode⟩ }

end OsFromScratch.Threads
