import OsFromScratch.Threads.Steps

/-!
# Idle CPUs

A CPU that is idle runs no thread, and waits for an interrupt from another CPU or is about to. As
long as there is an idle CPU, there are as many CPUs that look for a thread as there are threads
that are ready: they have been sent an interrupt, or they execute `watch_suspend`.

The constructor of a CPU without a function marks the CPU as idle before it looks for a thread. When
there are threads that are ready, the CPU takes one of them and stays marked.

## Main definitions

* `IdleOk` — the invariant of a CPU.
* `Enough` — the CPUs that look for a thread are enough.
* `BootsEmpty` — no CPU is constructed without a function while there are threads that are ready.

## Main results

* `IdleOk.exec`, `Enough.exec` — the invariants are preserved by an instruction.
* `threadRunWith_idle` — idle CPUs, in the runs in which `BootsEmpty` holds.
* `threadRun_not_idle` — a CPU that runs a thread may be marked as idle.
-/

namespace OsFromScratch.Threads

open Function

variable {s s' : State} {c c' : CpuId} {t x : ContextId} {q : Queue} {i : Instr}
    {l rest : List Instr}
  {evs tr : List Event} {a : Action} {actions : List Action} {events : List (List Event)}

/-! ### One CPU -/

/-- The invariant of a CPU: what it executes while it is idle, and that it does not wait in vain. -/
structure IdleOk (s : State) (c : CpuId) : Prop where
  last : s.isIdle c = true → s.lastContext c = none
  sent : s.isIdle c = true → s.ipi c = false
  phase : s.isIdle c = true → .interruptEnableSuspend ∈ s.current c ∨ s.suspended c = true ∨
    s.current c = [.watchSuspend] ∧ s.queue .ready = []
  waits : .interruptEnableSuspend ∈ s.current c ∨ s.suspended c = true →
    s.isIdle c = true ∨ s.ipi c = true
  pending : s.ipi c = true → .interruptEnableSuspend ∈ s.current c ∨ s.suspended c = true
  shape : .interruptEnableSuspend ∈ s.current c → s.current c = idleCode ∨
    s.current c = idleCode.tail
  saved : s.lastContext c ≠ none → .interruptEnableSuspend ∉ s.code (s.myGoldfish c)

/-- What the steps of the other CPUs do to a CPU. They may wake it up. -/
structure Beside (s s' : State) (c : CpuId) : Prop where
  last : s'.lastContext c = s.lastContext c
  suspended : s'.suspended c = s.suspended c
  current : s'.current c = s.current c
  saved : s'.code (s'.myGoldfish c) = s.code (s.myGoldfish c)
  idle : s'.isIdle c = s.isIdle c ∧ s'.ipi c = s.ipi c ∨
    s.isIdle c = true ∧ s.current c ≠ [.watchSuspend] ∧ s'.isIdle c = false ∧ s'.ipi c = true
  ready : s.current c = [.watchSuspend] → s'.queue .ready = s.queue .ready

namespace IdleOk

theorem beside (h : IdleOk s c) (hb : Beside s s' c) : IdleOk s' c := by
  rcases hb.idle with ⟨hidle, hipi⟩ | ⟨hidle, hcurrent, hidle', hipi'⟩
  · refine ⟨fun hi => ?_, fun hi => ?_, fun hi => ?_, fun hw => ?_, fun hp => ?_, fun hs =>
      ?_, fun hl => ?_⟩
    · exact hb.last.trans (h.last (hidle.symm.trans hi))
    · exact hipi.trans (h.sent (hidle.symm.trans hi))
    · rw [hb.current, hb.suspended]
      refine (h.phase (hidle.symm.trans hi)).imp_right (Or.imp_right fun hready => ⟨hready.1, ?_⟩)
      exact (hb.ready hready.1).trans hready.2
    · rw [hb.current, hb.suspended] at hw
      rw [hidle, hipi]
      exact h.waits hw
    · rw [hb.current, hb.suspended]
      exact h.pending (hipi.symm.trans hp)
    · rw [hb.current] at hs ⊢
      exact h.shape hs
    · rw [hb.saved]
      exact h.saved (hb.last ▸ hl)
  · have hno : s'.isIdle c ≠ true := by simp [hidle']
    refine ⟨fun hi => absurd hi hno, fun hi => absurd hi hno, fun hi => absurd hi hno,
      fun _ => Or.inr hipi',
      fun _ => ?_, fun hs => ?_, fun hl => ?_⟩
    · rw [hb.current, hb.suspended]
      rcases h.phase hidle with hphase | hphase | hphase
      · exact Or.inl hphase
      · exact Or.inr hphase
      · exact absurd hphase.1 hcurrent
    · rw [hb.current] at hs ⊢
      exact h.shape hs
    · rw [hb.saved]
      exact h.saved (hb.last ▸ hl)

/-- A CPU that is not idle, and is not about to wait. -/
theorem of_busy (hidle : s.isIdle c = false) (hipi : s.ipi c =
    false) (hsuspended : s.suspended c = false)
    (hcurrent : .interruptEnableSuspend ∉ s.current c)
    (hsaved : s.lastContext c ≠ none → .interruptEnableSuspend ∉ s.code (s.myGoldfish c)) :
    IdleOk s c := by
  have hno : s.isIdle c ≠ true := by simp [hidle]
  refine ⟨fun hi => absurd hi hno, fun hi => absurd hi hno, fun hi => absurd hi hno, fun hw => ?_,
    fun hp => ?_, fun hs => absurd hs hcurrent, hsaved⟩
  · rw [hsuspended] at hw
    exact absurd (hw.resolve_right (by simp)) hcurrent
  · rw [hipi] at hp
    cases hp

/-- A CPU that runs a thread is not idle, and no interrupt has been sent to it. -/
theorem busy (h : IdleOk s c) (hsound : Sound s) (hsuspended : s.suspended c = false)
    (hlast : s.lastContext c = some (s.stack c)) :
    s.isIdle c = false ∧ s.ipi c = false ∧ .interruptEnableSuspend ∉ s.current c := by
  have hcurrent : .interruptEnableSuspend ∉ s.current c := fun hmem =>
    (hsound.thread_code _ (hsound.alive_of_last hlast)).2 _ hmem
  refine ⟨?_, ?_, hcurrent⟩
  · rw [← Bool.not_eq_true]
    intro hidle
    rw [h.last hidle] at hlast
    cases hlast
  · rw [← Bool.not_eq_true]
    intro hipi
    exact absurd ((h.pending hipi).resolve_right (by simp [hsuspended])) hcurrent

/-- A CPU that finds a thread in `watch_suspend` is not idle. -/
theorem not_idle (h : IdleOk s c) (hsuspended : s.suspended c = false) (hcode : s.current c =
    [.watchSuspend])
    (hready : s.queue .ready ≠ []) : s.isIdle c = false := by
  rw [← Bool.not_eq_true]
  intro hidle
  rcases h.phase hidle with hphase | hphase | hphase
  · simp [hcode] at hphase
  · rw [hsuspended] at hphase
    cases hphase
  · exact hready hphase.2

/-- A CPU that has left its context goes on with the next one. -/
theorem resume (hcore : Core s) (hidle : s.isIdle c = false) (hipi : s.ipi c = false)
    (hsuspended : s.suspended c = false)
    (hsaved : .interruptEnableSuspend ∉ s.code (s.myGoldfish c)) : IdleOk (s.resume c) c := by
  refine of_busy hidle hipi hsuspended (fun hmem => ?_) fun _ => hsaved
  have hcurrent : (s.resume c).current c =
      s.code ((s.queue .ready).head?.getD (s.myGoldfish c)) := by
    simp [State.current, State.resume]
  rw [hcurrent] at hmem
  cases hready : s.queue .ready with
  | nil =>
    rw [hready] at hmem
    exact hsaved hmem
  | cons x xs =>
    rw [hready] at hmem
    have hx : x ∈ s.queue .ready := hready ▸ List.mem_cons_self
    exact (hcore.thread_code x (hcore.alive_of_queue hx)).2 _ hmem

/-- A CPU goes on with code that is as far from waiting as the code before. -/
theorem setCurrent (h : IdleOk s c) (hsound : Sound s) (hc : c ∈ s.cpuVec)
    (hl : .interruptEnableSuspend ∈ l ↔ .interruptEnableSuspend ∈ s.current c)
    (hshape : .interruptEnableSuspend ∈ l → l = idleCode ∨ l = idleCode.tail)
    (hwatch : s.current c ≠ [.watchSuspend]) : IdleOk (s.setCurrent c l) c := by
  have hcurrent : (s.setCurrent c l).current c = l := Sound.current_setCurrent s c l
  refine ⟨h.last, h.sent, fun hi => ?_, fun hw => ?_, fun hp => ?_, fun hs => ?_, fun hl' => ?_⟩
  · rw [hcurrent, hl]
    exact (h.phase hi).imp_right (Or.imp_right fun hready => absurd hready.1 hwatch)
  · rw [hcurrent, hl] at hw
    exact h.waits hw
  · rw [hcurrent, hl]
    exact h.pending hp
  · rw [hcurrent] at hs ⊢
    exact hshape hs
  · have hne : s.myGoldfish c ≠ s.stack c := fun heq => by
      rcases hsound.cases_stack hc with ⟨-, halive⟩ | ⟨hlast, -⟩
      · rw [← heq, hsound.goldfish_dead c hc] at halive
        cases halive
      · exact hl' hlast
    have hcode : (s.setCurrent c l).code (s.myGoldfish c) = s.code (s.myGoldfish c) :=
      Sound.code_setCurrent_of_ne s c l hne
    exact fun hmem => h.saved hl' (hcode ▸ hmem)

end IdleOk

/-! ### The other CPUs -/

theorem wake_idle (s : State) (c : CpuId) :
    s.wake.isIdle c = s.isIdle c ∧ s.wake.ipi c = s.ipi c ∨
      s.isIdle c = true ∧ s.wake.isIdle c = false ∧ s.wake.ipi c = true := by
  by_cases hc : c ∈ s.toWake
  · have hidle : s.isIdle c = true := (List.mem_filter.mp (List.mem_of_mem_take hc)).2
    exact Or.inr ⟨hidle, by simp [State.wake, State.wakeCpus, hc], by
      simp [State.wake, State.wakeCpus, hc]⟩
  · exact Or.inl ⟨by simp [State.wake, State.wakeCpus, hc], by
      simp [State.wake, State.wakeCpus, hc]⟩

theorem construct_idle (s : State) (c : CpuId) :
    s.construct.isIdle c = s.isIdle c ∧ s.construct.ipi c = s.ipi c ∨
      s.isIdle c = true ∧ s.construct.isIdle c = false ∧ s.construct.ipi c = true :=
  wake_idle { s with
    maxId := s.maxId + 1
    code := update s.code s.maxId startCode
    alive := update s.alive s.maxId true
    handle := update s.handle s.maxId true
    localInfo := update s.localInfo s.maxId true
    queue := update s.queue .ready (s.queue .ready ++ [s.maxId]) } c

theorem construct_code_of_ne (s : State) (hx : x ≠ s.maxId) : s.construct.code x = s.code x :=
  update_of_ne hx _ _

theorem Sound.stack_ne_maxId (h : Sound s) (hc : c ∈ s.cpuVec) : s.stack c ≠ s.maxId := by
  rcases h.cases_stack hc with ⟨-, halive⟩ | ⟨-, hgold, -⟩
  · exact (h.alive_lt _ halive).2.ne
  · exact hgold ▸ h.goldfish_ne_maxId hc

/-- What an instruction does to the other CPUs. -/
theorem Effect.beside (h : Effect s c rest i evs s') (hsound : Sound s) (hc : c ∈ s.cpuVec)
    (hcode : s.current c = i :: rest) (hc' : c' ∈ s.cpuVec) (hne : c' ≠ c) : Beside s s' c' := by
  have hstack : s.stack c' ≠ s.stack c := fun heq => hne (hsound.stack_inj hc' hc heq)
  have hgold : s.myGoldfish c' ≠ s.stack c := fun heq => by
    rcases hsound.cases_stack hc with ⟨-, halive⟩ | ⟨-, hstack, -⟩
    · rw [← heq, hsound.goldfish_dead c' hc'] at halive
      cases halive
    · exact hne (hsound.goldfish_inj c' hc' c hc (heq.trans hstack))
  have hcurrent (l : List Instr) : (s.setCurrent c l).current c' = s.current c' :=
    Sound.code_setCurrent_of_ne s c l hstack
  have hsaved (l : List Instr) : (s.setCurrent c l).code (s.myGoldfish c') =
      s.code (s.myGoldfish c') :=
    Sound.code_setCurrent_of_ne s c l hgold
  -- no other CPU executes `watch_suspend` while the CPU holds the guard
  have hwatch (hi : i.before = .guarded) : s.current c' ≠ [.watchSuspend] := fun hw => by
    have hmode := hsound.inMode hc hcode
    have hmode' := hsound.inMode hc' hw
    rw [hi] at hmode
    exact hne (Option.some.inj (hmode'.2.symm.trans hmode.2))
  have hsame (l : List Instr) : Beside s (s.setCurrent c l) c' :=
    ⟨rfl, rfl, hcurrent l, hsaved l, Or.inl ⟨rfl, rfl⟩, fun _ => rfl⟩
  cases h with
  | suspend => exact { hsame rest with suspended := update_of_ne hne _ _ }
  | spin => exact ⟨rfl, rfl, rfl, rfl, Or.inl ⟨rfl, rfl⟩, fun _ => rfl⟩
  | refused => exact hsame (throwCode rest)
  | badAlloc => exact { hsame (throwCode rest) with }
  | @handOff m next waiting =>
    have hidle := wake_idle ((s.setCurrent c rest).moveReady (.mutex m) [next] waiting) c'
    exact ⟨rfl, rfl, hcurrent rest, hsaved rest, hidle.imp_right fun hw => ⟨hw.1, hwatch rfl, hw.2⟩,
      fun hw => absurd hw (hwatch rfl)⟩
  | blocks _ hi =>
    have hguarded := hi.guarded.1
    refine ⟨?_, rfl, ?_, hsaved rest, Or.inl ⟨rfl, rfl⟩, fun hw => absurd hw (hwatch hguarded)⟩
    · simp [State.resume, State.enqueue, State.setLastContext, State.setQueue,
        State.setCurrent, hne]
    · refine Eq.trans ?_ (hcurrent rest)
      simp [State.current, State.resume, State.enqueue, State.setLastContext, State.setQueue,
        State.setCurrent, hne]
  | @wakes _ q ts waiting _ _ hi =>
    have hidle := wake_idle ((s.setCurrent c rest).moveReady q ts waiting) c'
    exact ⟨rfl, rfl, hcurrent rest, hsaved rest,
      hidle.imp_right fun hw => ⟨hw.1, hwatch hi.guarded.1, hw.2⟩,
      fun hw => absurd hw (hwatch hi.guarded.1)⟩
  | construct hlast =>
    have hnew := (construct_code_of_ne (s.setCurrent c rest) (hsound.stack_ne_maxId hc')).trans
      (hcurrent rest)
    have hnew' := (construct_code_of_ne (s.setCurrent c rest) (hsound.goldfish_ne_maxId hc')).trans
      (hsaved rest)
    exact ⟨rfl, rfl, hnew, hnew', (construct_idle (s.setCurrent c rest) c').imp_right
      fun hw => ⟨hw.1, hwatch rfl, hw.2⟩, fun hw => absurd hw (hwatch rfl)⟩
  | exit hlast =>
    have hidle := wake_idle (s.moveReady (.join (s.stack c)) (s.queue (.join (s.stack c))) []) c'
    refine ⟨?_, rfl, ?_, hsaved [], hidle.imp_right fun hw => ⟨hw.1, hwatch rfl, hw.2⟩,
      fun hw => absurd hw (hwatch rfl)⟩
    · simp [State.resume, State.exit, State.moveReady, State.wake, State.wakeCpus,
        State.setQueue, hne]
    · refine Eq.trans ?_ (hcurrent [])
      simp [State.current, State.resume, State.exit, State.moveReady, State.wake, State.wakeCpus,
        State.setQueue, State.setCurrent, hne]
  | idle =>
    exact { hsame idleCode with idle := Or.inl ⟨update_of_ne hne _ _, rfl⟩ }
  | take =>
    refine ⟨update_of_ne hne _ _, rfl, ?_, rfl, Or.inl ⟨rfl, rfl⟩, fun hw => absurd hw (hwatch rfl)⟩
    simp [State.current, State.resume, hne]
  | _ => exact { hsame rest with }

/-- What a step does to the other CPUs. -/
theorem StepEffect.beside (h : StepEffect s a evs s') (hsound : Sound s) (hc : c ∈ s.cpuVec)
    (ha : a.cpu ≠ some c) : Beside s s' c := by
  have hwatch (hguard : s.guard = none) : s.current c ≠ [.watchSuspend] := fun hw => by
    have hmode := (hsound.inMode hc hw).2
    rw [hguard] at hmode
    cases hmode
  have hboot (c' : CpuId) (hne : c ≠ c') : (s.boot c').current c = s.current c ∧
      (s.boot c').code ((s.boot c').myGoldfish c) = s.code (s.myGoldfish c) := by
    have hgold : (s.boot c').myGoldfish c = s.myGoldfish c := update_of_ne hne _ _
    rw [hgold]
    exact ⟨update_of_ne (hsound.stack_ne_maxId hc) _ _,
      update_of_ne (hsound.goldfish_ne_maxId hc) _ _⟩
  have hcode {c' : CpuId} (hc' : c' ∈ s.cpuVec) (l : List Instr) (ha : some c' ≠ some c) :
      Beside s (s.setCurrent c' l) c := by
    have hne : c ≠ c' := fun heq => ha (congrArg some heq.symm)
    have hgold : s.myGoldfish c ≠ s.stack c' := fun heq => by
      rcases hsound.cases_stack hc' with ⟨-, halive⟩ | ⟨-, hstack, -⟩
      · rw [← heq, hsound.goldfish_dead c hc] at halive
        cases halive
      · exact hne (hsound.goldfish_inj c hc c' hc' (heq.trans hstack))
    exact ⟨rfl, rfl, Sound.code_setCurrent_of_ne s c' l fun heq =>
      hne (hsound.stack_inj hc hc' heq),
      Sound.code_setCurrent_of_ne s c' l hgold, Or.inl ⟨rfl, rfl⟩, fun _ => rfl⟩
  cases h with
  | bootSpin => exact ⟨rfl, rfl, rfl, rfl, Or.inl ⟨rfl, rfl⟩, fun _ => rfl⟩
  | @bootThread c' hc' hguard =>
    have hne : c ≠ c' := fun heq => ha (congrArg some heq.symm)
    obtain ⟨hcurrent, hsaved⟩ := hboot c' hne
    have hstack : (s.boot c').stack c ≠ (s.boot c').maxId := fun heq => by
      have heq : s.stack c = s.maxId + 1 := heq
      rcases hsound.cases_stack hc with ⟨-, halive⟩ | ⟨-, hgold, -⟩
      · exact absurd (heq ▸ (hsound.alive_lt _ halive).2) (by simp)
      · exact absurd (heq ▸ hgold ▸ hsound.goldfish_lt c hc) (by simp)
    have hgold : (s.boot c').myGoldfish c ≠ (s.boot c').maxId := fun heq => by
      have hold : (s.boot c').myGoldfish c = s.myGoldfish c := update_of_ne hne _ _
      have hlt := hsound.goldfish_lt c hc
      rw [← hold, heq] at hlt
      exact absurd hlt (Nat.not_lt.mpr (Nat.le_succ _))
    have hlast : update (s.boot c').construct.lastContext c'
        ((s.boot c').construct.queue .ready).head? c = s.lastContext c := update_of_ne hne _ _
    have hnew : (s.boot c').construct.current c = s.current c :=
      (construct_code_of_ne (s.boot c') hstack).trans hcurrent
    have hstack' : update (s.boot c').construct.stack c'
        (((s.boot c').construct.queue .ready).head?.getD
        ((s.boot c').construct.myGoldfish c')) c = s.stack c := update_of_ne hne _ _
    have hidle : update (s.boot c').construct.isIdle c' false c = (s.boot c').construct.isIdle c :=
      update_of_ne hne _ _
    have hidle' : (s.boot c').isIdle c = s.isIdle c := update_of_ne hne _ _
    have hipi : (s.boot c').ipi c = s.ipi c := update_of_ne hne _ _
    refine ⟨hlast, update_of_ne hne _ _, ?_, (construct_code_of_ne (s.boot c') hgold).trans hsaved,
      ?_,
      fun hw => absurd hw (hwatch hguard)⟩
    · exact (congrArg (s.boot c').construct.code hstack').trans hnew
    · rcases construct_idle (s.boot c') c with ⟨hi, hp⟩ | ⟨hi, hi', hp⟩
      · exact Or.inl ⟨hidle.trans (hi.trans hidle'), hp.trans hipi⟩
      · exact Or.inr ⟨hidle'.symm.trans hi, hwatch hguard, hidle.trans hi', hp⟩
  | @bootIdle c' hc' hguard =>
    have hne : c ≠ c' := fun heq => ha (congrArg some heq.symm)
    obtain ⟨hcurrent, hsaved⟩ := hboot c' hne
    have hstack : update (s.boot c').stack c' s.maxId c = s.stack c := update_of_ne hne _ _
    refine ⟨rfl, update_of_ne hne _ _, (congrArg (s.boot c').code hstack).trans hcurrent, hsaved,
      Or.inl ⟨?_, update_of_ne hne _ _⟩, fun _ => rfl⟩
    exact (update_of_ne hne _ _).trans (update_of_ne hne _ _)
  | run hc' _ hcode heffect =>
    exact heffect.beside hsound hc' hcode hc fun heq => ha (congrArg some heq.symm)
  | call hc' => exact hcode hc' _ ha
  | finish hc' => exact hcode hc' _ ha
  | timer hc' => exact hcode hc' _ ha
  | @ipi c' =>
    have hne : c ≠ c' := fun heq => ha (congrArg some heq.symm)
    exact ⟨rfl, update_of_ne hne _ _, rfl, rfl, Or.inl ⟨rfl, update_of_ne hne _ _⟩, fun _ => rfl⟩
  | dropThread => exact ⟨rfl, rfl, rfl, rfl, Or.inl ⟨rfl, rfl⟩, fun _ => rfl⟩

/-! ### The CPU that takes a step -/

/-- A CPU that runs a thread goes on with it. -/
theorem IdleOk.thread (h : IdleOk s c) (hsound : Sound s) (hsuspended : s.suspended c = false)
    (hlast : s.lastContext c = some (s.stack c))
    (hidle : s'.isIdle c = s.isIdle c ∧ s'.ipi c = s.ipi c ∨
      s.isIdle c = true ∧ s'.isIdle c = false ∧ s'.ipi c = true)
    (hsuspended' : s'.suspended c = s.suspended c)
      (hcurrent : .interruptEnableSuspend ∉ s'.current c)
    (hsaved : s'.code (s'.myGoldfish c) = s.code (s.myGoldfish c)) : IdleOk s' c := by
  obtain ⟨hno, hipi, -⟩ := h.busy hsound hsuspended hlast
  rcases hidle with ⟨hidle, hipi'⟩ | ⟨hidle, -⟩
  · exact of_busy (hidle.trans hno) (hipi'.trans hipi) (hsuspended'.trans hsuspended) hcurrent
      fun _ => hsaved ▸ h.saved (by simp [hlast])
  · rw [hno] at hidle
    cases hidle

/-- The invariant of the CPU is preserved by its instructions. -/
theorem IdleOk.exec (h : IdleOk s c) (hsound : Sound s) (hc : c ∈ s.cpuVec)
    (hsuspended : s.suspended c = false) (hcode : s.current c = i :: rest)
    (heffect : Effect s c rest i evs s') : IdleOk s' c := by
  have hwf := hsound.wellFormed_current hc
  rw [hcode] at hwf
  have hgo (hi : i ≠ .interruptEnableSuspend) (hi' : i ≠ .watchSuspend) :
      IdleOk (s.setCurrent c rest) c := by
    refine h.setCurrent hsound hc ?_ (fun hmem => ?_) ?_
    · rw [hcode, List.mem_cons, or_iff_right (Ne.symm hi)]
    · rcases h.shape (hcode ▸ List.mem_cons_of_mem i hmem) with hidle | hidle
      · rw [hcode] at hidle
        exact Or.inr (List.cons.inj hidle).2
      · rw [hcode] at hidle
        exact absurd (List.cons.inj hidle).1 hi
    · rw [hcode]
      exact fun heq => hi' (List.cons.inj heq).1
  have hgold (hlast : s.lastContext c = some (s.stack c)) :
      s.myGoldfish c ≠ s.stack c := fun heq => by
    have halive := hsound.alive_of_last hlast
    rw [← heq, hsound.goldfish_dead c hc] at halive
    cases halive
  have hsaved (hlast : s.lastContext c = some (s.stack c)) (l : List Instr) :
      (s.setCurrent c l).code (s.myGoldfish c) = s.code (s.myGoldfish c) :=
    Sound.code_setCurrent_of_ne s c l (hgold hlast)
  have hcurrent (l : List Instr) (hl : .interruptEnableSuspend ∉ l) :
      .interruptEnableSuspend ∉ (s.setCurrent c l).current c := by
    rwa [Sound.current_setCurrent]
  have hrest (hlast : s.lastContext c = some (s.stack c)) :
      .interruptEnableSuspend ∉ rest := fun hmem =>
    (h.busy hsound hsuspended hlast).2.2 (hcode ▸ List.mem_cons_of_mem i hmem)
  have hthrow (hlast : s.lastContext c = some (s.stack c)) :
      .interruptEnableSuspend ∉ throwCode rest := by
    simp only [throwCode, List.mem_cons, reduceCtorEq, false_or]
    intro hmem
    rcases mem_unwind hmem with ⟨op, hop⟩ | hmem
    · cases hop
    · exact hrest hlast hmem
  cases heffect with
  | interruptDisable => exact { hgo (by simp) (by simp) with }
  | interruptEnable => exact { hgo (by simp) (by simp) with }
  | suspend hlast =>
    have hmem : .interruptEnableSuspend ∈ s.current c := hcode ▸ List.mem_cons_self
    have hcurrent' : .interruptEnableSuspend ∉ rest := by
      rcases h.shape hmem with hidle | hidle
      · rw [hcode] at hidle
        cases (List.cons.inj hidle).1
      · rw [hcode] at hidle
        rw [(List.cons.inj hidle).2]
        simp
    refine ⟨h.last, h.sent, fun _ => Or.inr (Or.inl (update_self _ _ _)), fun _ =>
      h.waits (Or.inl hmem),
      fun _ => Or.inr (update_self _ _ _), fun hs => absurd hs (hcurrent rest hcurrent'),
      fun hl => absurd hlast hl⟩
  | spin => exact h
  | guardLock => exact { hgo (by simp) (by simp) with }
  | guardUnlock => exact { hgo (by simp) (by simp) with }
  | ret => exact { hgo (by simp) (by simp) with }
  | acquire => exact { hgo (by simp) (by simp) with }
  | own => exact { hgo (by simp) (by simp) with }
  | release => exact { hgo (by simp) (by simp) with }
  | refused hlast =>
    exact h.thread hsound hsuspended hlast (Or.inl ⟨rfl, rfl⟩) rfl
      (hcurrent (throwCode rest) (hthrow hlast)) (hsaved hlast (throwCode rest))
  | badAlloc hlast =>
    exact h.thread hsound hsuspended hlast (Or.inl ⟨rfl, rfl⟩) rfl
      (hcurrent (throwCode rest) (hthrow hlast)) (hsaved hlast (throwCode rest))
  | @handOff m next waiting hlast =>
    exact h.thread hsound hsuspended hlast
      (wake_idle ((s.setCurrent c rest).moveReady (.mutex m) [next] waiting) c) rfl
      (hcurrent rest (hrest hlast)) (hsaved hlast rest)
  | blocks hlast hi =>
    obtain ⟨hidle, hipi, -⟩ := h.busy hsound hsuspended hlast
    obtain ⟨hpop, hguarded⟩ := hsound.pop hc hcode hi.guarded.1 hi.guarded.2
    refine IdleOk.resume (hpop.leave hguarded hlast hi.alive).toCore hidle hipi hsuspended ?_
    exact fun hmem => h.saved (by simp [hlast]) (hsaved hlast rest ▸ hmem)
  | @wakes _ q ts waiting _ hlast hi =>
    exact h.thread hsound hsuspended hlast
      (wake_idle ((s.setCurrent c rest).moveReady q ts waiting) c) rfl
      (hcurrent rest (hrest hlast)) (hsaved hlast rest)
  | skips hi =>
    refine hgo ?_ ?_ <;> cases hi <;> simp
  | construct hlast =>
    have hnew := (construct_code_of_ne (s.setCurrent c rest) (hsound.stack_ne_maxId hc)).trans
      (Sound.current_setCurrent s c rest)
    have hnew' := (construct_code_of_ne (s.setCurrent c rest) (hsound.goldfish_ne_maxId hc)).trans
      (hsaved hlast rest)
    exact h.thread hsound hsuspended hlast (construct_idle (s.setCurrent c rest) c) rfl
      (fun hmem => hrest hlast ((congrArg (Instr.interruptEnableSuspend ∈ ·) hnew).mp hmem)) hnew'
  | exit hlast =>
    obtain ⟨hidle, hipi, -⟩ := h.busy hsound hsuspended hlast
    have hexit := (hsound.between_exit (hsound.inMode hc hcode) hlast).toCore
    have hw := wake_idle (s.moveReady (.join (s.stack c)) (s.queue (.join (s.stack c))) []) c
    rcases hw with ⟨hidle', hipi'⟩ | ⟨hidle', -⟩
    · exact IdleOk.resume hexit (hidle'.trans hidle) (hipi'.trans hipi) hsuspended
        fun hmem => h.saved (by simp [hlast]) (hsaved hlast [] ▸ hmem)
    · have hno : s.isIdle c = true := hidle'
      rw [hidle] at hno
      cases hno
  | idle hlast hready =>
    rw [hwf.eq_nil rfl] at hcode
    have hipi : s.ipi c = false := by
      rw [← Bool.not_eq_true]
      intro hipi
      have hpending := h.pending hipi
      rw [hcode, hsuspended] at hpending
      simp at hpending
    have hnew : (s.setCurrent c idleCode).current c = idleCode :=
        Sound.current_setCurrent s c idleCode
    refine ⟨fun _ => hlast, fun _ => hipi, fun _ => Or.inl ?_, fun _ =>
      Or.inl (update_self _ _ _), fun hp => ?_,
      fun _ => Or.inl hnew, fun hl => absurd hlast hl⟩
    · exact (congrArg (Instr.interruptEnableSuspend ∈ ·) hnew).mpr (by simp [idleCode])
    · exact absurd (hipi.symm.trans hp) (by simp)
  | take hlast hready =>
    rw [hwf.eq_nil rfl] at hcode
    have hmem : .interruptEnableSuspend ∉ s.current c := by simp [hcode]
    have hidle := h.not_idle hsuspended hcode hready
    have hipi : s.ipi c = false := by
      rw [← Bool.not_eq_true]
      intro hipi
      have hpending := h.pending hipi
      rw [hsuspended] at hpending
      exact hmem (hpending.resolve_right (by simp))
    have hcore := (hsound.between_take hc (hsound.inMode hc hcode)
      hlast (update s.toKill c none)).toCore
    refine IdleOk.resume hcore hidle hipi hsuspended fun hmem' => hmem ?_
    rwa [State.current, hsound.stack_of_idle hc hlast]

/-- No CPU is constructed without a function while there are threads that are ready. -/
def BootsEmpty (_tr : List Event) (s : State) : Action → Prop
  | .boot _ false => s.guard = none → s.queue .ready = []
  | _ => True

instance (tr : List Event) (s : State) (a : Action) : Decidable (BootsEmpty tr s a) :=
  match a with
  | .boot _ false => inferInstanceAs (Decidable (_ → _))
  | .boot _ true => isTrue trivial
  | .run _ _ | .call _ _ | .finish _ | .timer _ | .ipi _ | .dropThread _ => isTrue trivial

theorem StepEffect.mem_cpuVec (h : StepEffect s a evs s') (hc : c ∈ s'.cpuVec)
    (ha : a.cpu ≠ some c) :
    c ∈ s.cpuVec := by
  have hboot {c' : CpuId} (hmem : c ∈ s.cpuVec ++ [c']) (ha : some c' ≠ some c) : c ∈ s.cpuVec := by
    rcases List.mem_append.mp hmem with hmem | hmem
    · exact hmem
    · exact absurd (congrArg some (List.mem_singleton.mp hmem)).symm ha
  cases h with
  | bootThread => exact hboot hc ha
  | bootIdle => exact hboot hc ha
  | run _ _ _ heffect => cases heffect <;> exact hc
  | _ => exact hc

/-- The invariant of the CPU is preserved by the steps that it takes. -/
theorem IdleOk.step (h : ∀ c ∈ s.cpuVec, IdleOk s c) (hsound : Sound s) (hboots : BootsEmpty tr s a)
    (heffect : StepEffect s a evs s') (ha : a.cpu = some c) (hc : c ∈ s'.cpuVec) : IdleOk s' c := by
  cases heffect with
  | bootSpin => exact h c hc
  | @bootThread c' hnew hguard =>
    obtain rfl : c' = c := Option.some.inj ha
    have hboot := hsound.between_boot hnew hguard
    have hcore : Core { (s.boot c').construct with
        isIdle := update (s.boot c').construct.isIdle c' false } := { hboot.newThread with }
    have hidle : (s.boot c').isIdle c' = false := update_self _ _ _
    have hipi : (s.boot c').ipi c' = false := update_self _ _ _
    refine IdleOk.resume hcore (update_self _ _ _) ?_ (update_self _ _ _) ?_
    · rcases construct_idle (s.boot c') c' with ⟨-, hp⟩ | ⟨hi, -⟩
      · exact hp.trans hipi
      · rw [hidle] at hi
        cases hi
    · have hgold : (s.boot c').construct.code ((s.boot c').myGoldfish c') = [.watchSuspend] := by
        rw [construct_code_of_ne (s.boot c') (hboot.goldfish_ne_maxId hboot.mem)]
        simp [State.boot]
      exact fun hmem => by simpa using (congrArg (Instr.interruptEnableSuspend ∈ ·) hgold).mp hmem
  | @bootIdle c' hnew hguard =>
    obtain rfl : c' = c := Option.some.inj ha
    have hcurrent : (s.boot c').code (update (s.boot c').stack c' s.maxId c') =
        [.watchSuspend] := by
      rw [update_self]
      exact update_self _ _ _
    have hmem : .interruptEnableSuspend ∉ (s.boot c').code
        (update (s.boot c').stack c' s.maxId c') := by
      rw [hcurrent]
      simp
    have hlast := hsound.off c' hnew
    have hipi : (s.boot c').ipi c' = false := update_self _ _ _
    have hsuspended : (s.boot c').suspended c' = false := update_self _ _ _
    refine ⟨fun _ => hlast, fun _ => hipi, fun _ => Or.inr (Or.inr ⟨hcurrent, hboots hguard⟩),
      fun _ => Or.inl (update_self _ _ _), fun hp => ?_, fun hs => absurd hs hmem, fun hl =>
        absurd hlast hl⟩
    exact absurd (hipi.symm.trans hp) (by simp)
  | @run c' _ _ _ _ _ hc' hsuspended hcode heffect =>
    obtain rfl : c' = c := Option.some.inj ha
    exact (h c' hc').exec hsound hc' hsuspended hcode heffect
  | @call c' op hc' _ hcode =>
    obtain rfl : c' = c := Option.some.inj ha
    have hl : .interruptEnableSuspend ∉ op.callCode := by
      cases op <;> simp [Op.callCode, Op.code, guarded, lockCode]
    exact (h c' hc').setCurrent hsound hc' (by simp [hl, hcode]) (fun hmem => absurd hmem hl)
      (by simp [hcode])
  | @finish c' hc' _ hcode =>
    obtain rfl : c' = c := Option.some.inj ha
    have hl : .interruptEnableSuspend ∉ exitCode := by simp [exitCode]
    exact (h c' hc').setCurrent hsound hc' (by simp [hl, hcode]) (fun hmem => absurd hmem hl)
      (by simp [hcode])
  | @timer c' hc' _ hmode =>
    obtain rfl : c' = c := Option.some.inj ha
    have hold : .interruptEnableSuspend ∈ timerCode ++ s.current c' ↔
        .interruptEnableSuspend ∈ s.current c' := by
      simp [timerCode, guarded]
    have hno : .interruptEnableSuspend ∉ s.current c' := fun hmem => by
      rcases (h c' hc').shape hmem with hcode | hcode <;> rw [hcode] at hmode <;> cases hmode
    refine (h c' hc').setCurrent hsound hc' hold (fun hmem =>
      absurd (hold.mp hmem) hno) fun hw => ?_
    rw [hw] at hmode
    cases hmode
  | @ipi c' hc' hint hipi =>
    obtain rfl : c' = c := Option.some.inj ha
    have hmode := hsound.mode_enabled hc' hint
    have hno : .interruptEnableSuspend ∉ s.current c' := fun hmem => by
      rcases (h c' hc').shape hmem with hcode | hcode <;> rw [hcode] at hmode <;> cases hmode
    have hidle : s.isIdle c' = false := by
      rw [← Bool.not_eq_true]
      intro hidle
      rw [(h c' hc').sent hidle] at hipi
      cases hipi
    exact of_busy hidle (update_self _ _ _) (update_self _ _ _) hno (h c' hc').saved
  | dropThread => cases ha

/-! ### The number of the CPUs that look for a thread -/

/-- The CPUs that run no thread and are not idle: they have been sent an interrupt, or they execute
`watch_suspend`. -/
def State.awake (s : State) : List CpuId :=
  s.cpuVec.filter fun c => (s.lastContext c).isNone && !s.isIdle c

/-- As long as a CPU is idle, the CPUs that look for a thread are enough for the threads that are
ready. -/
def Enough (s : State) : Prop :=
  (∃ c ∈ s.cpuVec, s.isIdle c = true) → (s.queue .ready).length ≤ s.awake.length

theorem length_filter_eq_succ {cs : List CpuId} (hcs : cs.Nodup) (hc : c ∈ cs) {p p' : CpuId → Bool}
    (hp : p c = true) (hp' : p' c = false) (hother : ∀ c' ≠ c, p c' = p' c') :
    (cs.filter p).length = (cs.filter p').length + 1 := by
  have hperm := List.perm_cons_erase hc
  have hsame : (cs.erase c).filter p = (cs.erase c).filter p' :=
    List.filter_congr fun c' hc' => hother c' (hcs.mem_erase_iff.mp hc').1
  rw [(hperm.filter p).length_eq, (hperm.filter p').length_eq, List.filter_cons_of_pos hp,
    List.filter_cons_of_neg (by simp [hp']), hsame, List.length_cons]

/-- The loop of `check_ready_and_wake` wakes up enough CPUs, or all that are idle. -/
theorem enough_wake (hcpus : s.cpuVec.Nodup)
    (hlast : ∀ c ∈ s.cpuVec, s.isIdle c = true → s.lastContext c = none) : Enough s.wake := by
  rintro ⟨c, hc, hidle⟩
  have hnot : s.isIdle c = true ∧ c ∉ s.toWake := by
    simpa [State.wake, State.wakeCpus] using hidle
  have hlength : s.toWake.length = (s.queue .ready).length := by
    rw [State.toWake, List.length_take, Nat.min_eq_left]
    by_contra hlt
    refine hnot.2 ?_
    rw [State.toWake, List.take_of_length_le (Nat.not_le.mp hlt).le]
    exact List.mem_filter.mpr ⟨hc, hnot.1⟩
  have hsub : s.toWake ⊆ s.wake.awake := fun c' hc' => by
    obtain ⟨hmem, hidle'⟩ := List.mem_filter.mp (List.mem_of_mem_take hc')
    refine List.mem_filter.mpr ⟨hmem, ?_⟩
    simp [State.wake, State.wakeCpus, hc', hlast c' hmem hidle']
  have hnodup : s.toWake.Nodup := (hcpus.filter _).sublist (List.take_sublist _ _)
  exact hlength.symm.trans_le (hnodup.subperm hsub).length_le

namespace Enough

/-- A CPU that looks for a thread takes one. -/
theorem resume (h : Enough s) (hcpus : s.cpuVec.Nodup) (hc : c ∈ s.cpuVec)
    (hlast : s.lastContext c = none)
    (hidle : s.isIdle c = false) : Enough (s.resume c) := by
  intro hex
  have henough := h hex
  cases hready : s.queue .ready with
  | nil => simp [State.resume, hready]
  | cons x xs =>
    rw [hready, List.length_cons] at henough
    have hawake : s.awake.length = (s.resume c).awake.length + 1 := by
      refine length_filter_eq_succ hcpus hc ?_ ?_ fun c' hc' => ?_
      · simp [hlast, hidle]
      · simp [State.resume, hready]
      · simp [State.resume, hc']
    have hqueue : (s.resume c).queue .ready = xs := by simp [State.resume, hready]
    rw [hqueue]
    omega

/-- A thread leaves its CPU, and may be ready again. -/
theorem leave (h : Enough s) (hcpus : s.cpuVec.Nodup) (hc : c ∈ s.cpuVec)
    (hlast : s.lastContext c = some t) (hidle : s.isIdle c = false) : Enough (s.enqueue q c t) := by
  intro hex
  have henough := h hex
  have hawake : (s.enqueue q c t).awake.length = s.awake.length + 1 := by
    refine length_filter_eq_succ hcpus hc ?_ ?_ fun c' hc' => ?_
    · simp [State.enqueue, State.setQueue, State.setLastContext, hidle]
    · simp [hlast]
    · simp [State.enqueue, State.setQueue, State.setLastContext, hc']
  have hready : ((s.enqueue q c t).queue .ready).length ≤ (s.queue .ready).length + 1 := by
    by_cases hq : q = .ready
    · simp [State.enqueue, State.setQueue, State.setLastContext, hq]
    · simp [State.enqueue, State.setQueue, State.setLastContext, Ne.symm hq]
  omega

theorem exec (h : Enough s) (hok : ∀ c ∈ s.cpuVec, IdleOk s c) (hsound : Sound s)
    (hc : c ∈ s.cpuVec)
    (hsuspended : s.suspended c = false) (hcode : s.current c = i :: rest)
    (heffect : Effect s c rest i evs s') : Enough s' := by
  have hlast : ∀ c ∈ s.cpuVec, s.isIdle c = true → s.lastContext c = none := fun c hc =>
    (hok c hc).last
  have hbusy (hlast : s.lastContext c = some (s.stack c)) : s.isIdle c = false :=
    ((hok c hc).busy hsound hsuspended hlast).1
  cases heffect with
  | @handOff m next waiting =>
    exact enough_wake (s := (s.setCurrent c rest).moveReady (.mutex m) [next] waiting)
      hsound.cpus hlast
  | @blocks _ q _ hthread =>
    have hleft : Enough ((s.setCurrent c rest).enqueue q c (s.stack c)) :=
      leave (s := s.setCurrent c rest) h hsound.cpus hc hthread (hbusy hthread)
    exact hleft.resume hsound.cpus hc (update_self _ _ _) (hbusy hthread)
  | @wakes _ q ts waiting =>
    exact enough_wake (s := (s.setCurrent c rest).moveReady q ts waiting) hsound.cpus hlast
  | construct =>
    exact enough_wake (s := { s.setCurrent c rest with
      maxId := s.maxId + 1
      code := update (s.setCurrent c rest).code s.maxId startCode
      alive := update s.alive s.maxId true
      handle := update s.handle s.maxId true
      localInfo := update s.localInfo s.maxId true
      queue := update s.queue .ready (s.queue .ready ++ [s.maxId]) }) hsound.cpus hlast
  | exit hthread =>
    have hmoved := enough_wake (s := s.moveReady (.join (s.stack c))
      (s.queue (.join (s.stack c))) [])
      hsound.cpus hlast
    have hidle : (s.exit c (s.stack c)).isIdle c = false := by
      have hno := hbusy hthread
      simp [State.exit, State.moveReady, State.setQueue, State.wake, State.wakeCpus, hno]
    refine resume (fun hex => (hmoved hex).trans ?_) hsound.cpus hc (update_self _ _ _) hidle
    refine (Nat.le_succ _).trans (length_filter_eq_succ hsound.cpus hc ?_ ?_ fun c' hc' => ?_).ge
    · rw [hidle]
      simp [State.exit]
    · simp [State.moveReady, State.setQueue, State.wake, State.wakeCpus, hthread]
    · simp [State.exit, hc']
  | idle _ hready =>
    intro _
    simp [State.setCurrent, hready]
  | take hnone hready =>
    have hwf := hsound.wellFormed_current hc
    rw [hcode] at hwf
    rw [hwf.eq_nil rfl] at hcode
    exact resume (s := { s with toKill := update s.toKill c none }) h hsound.cpus hc hnone
      ((hok c hc).not_idle hsuspended hcode hready)
  | _ => exact h

/-- The number is enough after a step. -/
theorem step (h : Enough s) (hok : ∀ c ∈ s.cpuVec, IdleOk s c) (hsound : Sound s)
    (hboots : BootsEmpty tr s a) (heffect : StepEffect s a evs s') : Enough s' := by
  cases heffect with
  | @bootThread c hc hguard =>
    have hboot := hsound.between_boot hc hguard
    have hlast : ∀ c' ∈ (s.boot c).cpuVec, (s.boot c).isIdle c' = true →
        s.lastContext c' = none := by
      intro c' hc' hidle
      by_cases hne : c' = c
      · rw [hne]
        exact hsound.off c hc
      · have hold : (s.boot c).isIdle c' = s.isIdle c' := update_of_ne hne _ _
        have hmem : c' ∈ s.cpuVec := by simpa [State.boot, hne] using hc'
        exact (hok c' hmem).last (hold.symm.trans hidle)
    have hnew : Enough (s.boot c).construct := enough_wake (s := { s.boot c with
      maxId := (s.boot c).maxId + 1
      code := update (s.boot c).code (s.boot c).maxId startCode
      alive := update (s.boot c).alive (s.boot c).maxId true
      handle := update (s.boot c).handle (s.boot c).maxId true
      localInfo := update (s.boot c).localInfo (s.boot c).maxId true
      queue := update (s.boot c).queue .ready ((s.boot c).queue .ready ++ [(s.boot c).maxId]) })
      hboot.cpus hlast
    have hidle : (s.boot c).construct.isIdle c = false := by
      simp [State.construct, State.boot, State.wake, State.wakeCpus]
    have hsame : update (s.boot c).construct.isIdle c false = (s.boot c).construct.isIdle := by
      rw [← hidle, update_eq_self]
    rw [hsame]
    exact hnew.resume hboot.cpus hboot.mem hboot.last hidle
  | bootIdle _ hguard =>
    exact fun _ => (congrArg List.length (hboots hguard)).trans_le (Nat.zero_le _)
  | run hc hsuspended hcode heffect => exact h.exec hok hsound hc hsuspended hcode heffect
  | _ => exact h

end Enough

/-! ### Runs -/

/-- The invariants hold in every run in which no CPU is constructed without a function while there
are threads that are ready. -/
theorem ThreadRunWith.idleOk (hrun : ThreadRunWith BootsEmpty actions events s) :
    (∀ c ∈ s.cpuVec, IdleOk s c) ∧ Enough s := by
  refine hrun.invariant (I := fun _ s => (∀ c ∈ s.cpuVec, IdleOk s c) ∧ Enough s)
    ⟨fun _ hc => (by cases hc), fun _ => Nat.le_refl 0⟩ fun {_ _ a _ _} hsound h hboots heffect =>
      ⟨fun c hc => ?_, h.2.step h.1 hsound hboots heffect⟩
  by_cases ha : a.cpu = some c
  · exact IdleOk.step h.1 hsound hboots heffect ha hc
  · have hold := heffect.mem_cpuVec hc ha
    exact (h.1 c hold).beside (heffect.beside hsound hold ha)

/-- In every run in which no CPU is constructed without a function while there are threads that are
ready, a CPU that is idle runs no thread, and a timer interrupt preempts a thread when others are
ready. Either no CPU is suspended and idle without an interrupt that has been sent to it, or there
are at least as many CPUs that look for a thread as there are threads that are ready, and none of
them is suspended for good. -/
theorem threadRunWith_idle (hrun : ThreadRunWith BootsEmpty actions events s) :
    (∀ c ∈ s.cpuVec, s.isIdle c = true → s.lastContext c = none) ∧
    (∀ c alloc t rest evs s', Allowed s (.run c alloc) → s.current c = .timer :: rest →
      s.lastContext c = some t → s.queue .ready ≠ [] → step (.run c alloc) s = some (evs, s') →
      s'.lastContext c = (s.queue .ready).head? ∧ s'.queue .ready = (s.queue .ready).tail ++ [t]) ∧
    ((∀ c ∈ s.cpuVec, s.suspended c = true → s.isIdle c = true → s.ipi c = true) ∨
      (s.queue .ready).length ≤ s.awake.length) ∧
    ∀ c ∈ s.awake, s.suspended c = true → s.ipi c = true := by
  have hsound := threadRun_sound hrun.threadRun
  obtain ⟨hok, henough⟩ := hrun.idleOk
  refine ⟨fun c hc => (hok c hc).last, fun c alloc t rest evs s' hallowed hcode hlast hready
    hstep => ?_, ?_,
    fun c hc hsuspended => ?_⟩
  · have heffect := hsound.effect_of_step hallowed hstep
    cases heffect with
    | run hc _ hcode' heffect =>
      rw [hcode] at hcode'
      obtain ⟨rfl, rfl⟩ := List.cons.inj hcode'
      have hstack := hsound.stack_of_last hlast
      cases heffect with
      | blocks _ hi =>
        cases hi
        obtain ⟨x, xs, hqueue⟩ := List.exists_cons_of_ne_nil hready
        simp [State.resume, State.enqueue, State.setQueue, State.setLastContext,
          State.setCurrent, hqueue, hstack]
      | wakes _ hi => cases hi
      | skips hi =>
        cases hi with
        | timer h =>
          rcases h with hidle | hnone | hempty
          · rw [(hok c hc).last hidle] at hlast
            cases hlast
          · rw [hnone] at hlast
            cases hlast
          · exact absurd hempty hready
  · by_cases hex : ∃ c ∈ s.cpuVec, s.isIdle c = true
    · exact Or.inr (henough hex)
    · exact Or.inl fun c hc _ hidle => absurd ⟨c, hc, hidle⟩ hex
  · obtain ⟨hmem, hawake⟩ := List.mem_filter.mp hc
    refine ((hok c hmem).waits (Or.inr hsuspended)).resolve_left fun hidle => ?_
    simp [hidle] at hawake

/-- A CPU is constructed without a function and is suspended, and a thread is constructed. -/
def wokenUp : List Action :=
  [.boot 0 true] ++ runs 2 ++ [.boot 1 false] ++ List.replicate 3 (.run 1 .ok) ++
    [.call 0 .thread] ++ runs 6

/-- The other CPU has been sent an interrupt. -/
theorem threadRunWith_idle_wokenUp :
    ∃ events s, ThreadRunWith BootsEmpty wokenUp events s ∧ s.suspended 1 = true ∧
      s.queue .ready = [4] ∧
      s.ipi 1 = true := by
  obtain ⟨events, s, hrun, hcheck⟩ := ThreadRunWith.of_check
    (fun s a => decide (BootsEmpty [] s a)) (fun _ _ _ htest => of_decide_eq_true htest) wokenUp
    (fun _ s => s.suspended 1 && s.queue .ready = [4] && 1 ∈ s.awake) (by decide +kernel)
  simp only [Bool.and_eq_true, decide_eq_true_eq] at hcheck
  obtain ⟨⟨hsuspended, hready⟩, hawake⟩ := hcheck
  exact ⟨events, s, hrun, hsuspended, hready, (threadRunWith_idle hrun).2.2.2 1 hawake hsuspended⟩

/-- A CPU is constructed without a function while there is a thread that is ready. -/
def bootsLate : List Action :=
  [.boot 0 true] ++ runs 2 ++ [.call 0 .thread] ++ runs 6 ++ [.boot 1 false] ++
    List.replicate 2 (.run 1 .ok)

/-- A CPU that runs a thread may be marked as idle. -/
theorem threadRun_not_idle :
    ¬ ∀ actions events s c, ThreadRun actions events s → s.guard = none → c ∈ s.cpuVec →
      s.isIdle c = true → s.lastContext c = none := by
  intro hall
  obtain ⟨events, s, hrun, hcheck⟩ := ThreadRun.of_check bootsLate
    (fun _ s => s.guard = none && 1 ∈ s.cpuVec && s.isIdle 1 && s.lastContext 1 = some 3)
    (by decide +kernel)
  simp only [Bool.and_eq_true, decide_eq_true_eq] at hcheck
  obtain ⟨⟨⟨hguard, hcpu⟩, hidle⟩, hlast⟩ := hcheck
  have hnone := hall _ _ _ 1 hrun hguard hcpu hidle
  rw [hlast] at hnone
  cases hnone

end OsFromScratch.Threads
