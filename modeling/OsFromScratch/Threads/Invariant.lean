import OsFromScratch.Lib.Ownership
import OsFromScratch.Threads.Machine

/-!
# The invariant of the thread library

Every thread that has not finished is in one place: it is the last context of a CPU or it is in one
queue. A CPU executes its last context, or its goldfish if it has none. Contexts that are not
executed have been left with the guard held, and are entered again with the guard held.

A CPU between two contexts is described apart (`Between`): a context is left (`Sound.leave`), and
the next one is entered (`Between.resume`).

## Main definitions

* `State.place` — the places of the contexts.
* `State.InMode` — the mode of a CPU.
* `Core`, `Sound` — the invariant.
* `Between` — the invariant while a CPU is between two contexts.

## Main results

* `Sound.advance` — a CPU goes on with its context.
* `Core.addReady`, `Core.newThread` — threads become ready, and new threads.
* `Sound.leave`, `Between.resume` — a change of context.
-/

namespace OsFromScratch.Threads

open Function

variable {s s' : State} {c c' : CpuId} {t x : ContextId} {q : Queue} {l : List Instr}

/-! ### Places and modes -/

/-- The places of the contexts: the last contexts of the CPUs, and the queues. -/
def State.place (s : State) : CpuId ⊕ Queue → List ContextId
  | .inl c => (s.lastContext c).toList
  | .inr q => s.queue q

/-- The CPU executes in a mode. -/
def State.InMode (s : State) (c : CpuId) : Mode → Prop
  | .enabled => s.interrupts c = true ∧ s.guard ≠ some c
  | .disabled => s.interrupts c = false ∧ s.guard ≠ some c
  | .guarded => s.interrupts c = false ∧ s.guard = some c

theorem State.InMode.eq {m m' : Mode} (h : s.InMode c m) (h' : s.InMode c m') : m = m' := by
  cases m <;> cases m' <;> simp_all [State.InMode]

theorem State.InMode.congr {m : Mode} (h : s.InMode c m) (hint : s'.interrupts c = s.interrupts c)
    (hguard : s'.guard = some c ↔ s.guard = some c) : s'.InMode c m := by
  cases m <;> simpa only [State.InMode, hint, ne_eq, hguard] using h

/-- What the places and the code of the contexts are, whatever the CPUs execute. -/
structure Core (s : State) : Prop where
  cpus : s.cpuVec.Nodup
  places : Divided s.place {t | s.alive t = true}
  off : ∀ c ∉ s.cpuVec, s.lastContext c = none
  maxId_pos : 0 < s.maxId
  alive_lt : ∀ t, s.alive t = true → 0 < t ∧ t < s.maxId
  goldfish_lt : ∀ c ∈ s.cpuVec, s.myGoldfish c < s.maxId
  goldfish_dead : ∀ c ∈ s.cpuVec, s.alive (s.myGoldfish c) = false
  goldfish_inj : ∀ c ∈ s.cpuVec, ∀ c' ∈ s.cpuVec, s.myGoldfish c = s.myGoldfish c' → c = c'
  thread_code : ∀ t, s.alive t = true → WellFormed (s.code t) ∧ ∀ i ∈ s.code t, i.OfThread
  goldfish_code : ∀ c ∈ s.cpuVec, WellFormed (s.code (s.myGoldfish c)) ∧
    ∀ i ∈ s.code (s.myGoldfish c), i.OfGoldfish
  saved : ∀ q, ∀ t ∈ s.queue q, modeOf (s.code t) = .guarded
  saved_goldfish : ∀ c ∈ s.cpuVec, s.lastContext c ≠ none →
    modeOf (s.code (s.myGoldfish c)) = .guarded
  info : ∀ t, s.alive t = true → s.localInfo t = true
  join_dead : ∀ t, s.alive t = false → s.queue (.join t) = []
  join_handle : ∀ t i, s.alive t = true → .join i ∈ s.code t → s.handle i = true

/-- The CPU executes its last context, or its goldfish, in the mode of its code. -/
structure OnCpu (s : State) (c : CpuId) : Prop where
  stack : s.stack c = (s.lastContext c).getD (s.myGoldfish c)
  mode : s.InMode c (modeOf (s.current c))

/-- The invariant of the thread library. -/
structure Sound (s : State) : Prop extends Core s where
  guard_mem : ∀ c, s.guard = some c → c ∈ s.cpuVec
  onCpu : ∀ c ∈ s.cpuVec, OnCpu s c

/-- The invariant while a CPU is between two contexts, with the guard held. -/
structure Between (c : CpuId) (s : State) : Prop extends Core s where
  mem : c ∈ s.cpuVec
  last : s.lastContext c = none
  mode : s.InMode c .guarded
  goldfish_guarded : modeOf (s.code (s.myGoldfish c)) = .guarded
  onCpu : ∀ c' ∈ s.cpuVec, c' ≠ c → OnCpu s c'

theorem sound_init : Sound State.init where
  cpus := List.nodup_nil
  places := by
    refine ⟨fun p => ?_, fun p q x hx => ?_, fun x => ?_⟩
    · rcases p with c | q <;> exact List.nodup_nil
    · rcases p with c | q <;> cases hx
    · simp [State.init, State.place]
  off _ _ := rfl
  maxId_pos := by decide
  alive_lt _ h := by cases h
  goldfish_lt _ h := by cases h
  goldfish_dead _ h := by cases h
  goldfish_inj _ h := by cases h
  thread_code _ h := by cases h
  goldfish_code _ h := by cases h
  saved _ _ h := by cases h
  saved_goldfish _ h := by cases h
  info _ h := by cases h
  join_dead _ _ := rfl
  join_handle _ _ h := by cases h
  guard_mem _ h := by cases h
  onCpu _ h := by cases h

/-! ### Who is where -/

namespace Core

theorem alive_of_queue (h : Core s) (ht : t ∈ s.queue q) : s.alive t = true :=
  h.places.mem (p := .inr q) ht

theorem alive_of_last (h : Core s) (ht : s.lastContext c = some t) : s.alive t = true := by
  refine h.places.mem (p := .inl c) ?_
  simp [State.place, ht]

theorem mem_of_last (h : Core s) (ht : s.lastContext c = some t) : c ∈ s.cpuVec := by
  by_contra hc
  rw [h.off c hc] at ht
  cases ht

/-- A thread that a CPU runs is in no queue. -/
theorem not_mem_queue_of_last (h : Core s) (ht : s.lastContext c = some t) : t ∉ s.queue q := by
  intro hq
  have hp : t ∈ s.place (.inl c) := by simp [State.place, ht]
  have hcontra := h.places.disjoint (.inl c) (.inr q) t hp hq
  cases hcontra

theorem goldfish_not_mem_queue (h : Core s) (hc : c ∈ s.cpuVec) : s.myGoldfish c ∉ s.queue q := by
  intro hq
  have halive := h.alive_of_queue hq
  rw [h.goldfish_dead c hc] at halive
  cases halive

/-- A thread is run by one CPU. -/
theorem last_inj (h : Core s) (ht : s.lastContext c = some t) (ht' : s.lastContext c' = some t) :
    c = c' := by
  have hp : t ∈ s.place (.inl c) := by simp [State.place, ht]
  have hp' : t ∈ s.place (.inl c') := by simp [State.place, ht']
  exact Sum.inl_injective (h.places.disjoint _ _ t hp hp')

end Core

/-! ### Executing a context -/

namespace Sound

theorem stack_of_last (h : Sound s) (ht : s.lastContext c = some t) : s.stack c = t := by
  rw [(h.onCpu c (h.mem_of_last ht)).stack, ht]
  rfl

theorem stack_of_idle (h : Sound s) (hc : c ∈ s.cpuVec) (hlast : s.lastContext c = none) :
    s.stack c = s.myGoldfish c := by
  rw [(h.onCpu c hc).stack, hlast]
  rfl

/-- A CPU executes a thread that it runs, or its goldfish. -/
theorem cases_stack (h : Sound s) (hc : c ∈ s.cpuVec) :
    (s.lastContext c = some (s.stack c) ∧ s.alive (s.stack c) = true) ∨
      (s.lastContext c = none ∧ s.stack c = s.myGoldfish c ∧ s.alive (s.stack c) = false) := by
  cases hlast : s.lastContext c with
  | some t =>
    rw [h.stack_of_last hlast]
    exact Or.inl ⟨rfl, h.alive_of_last hlast⟩
  | none =>
    have hstack := h.stack_of_idle hc hlast
    exact Or.inr ⟨rfl, hstack, hstack ▸ h.goldfish_dead c hc⟩

theorem stack_not_mem_queue (h : Sound s) (hc : c ∈ s.cpuVec) : s.stack c ∉ s.queue q := by
  rcases h.cases_stack hc with ⟨hlast, -⟩ | ⟨-, hstack, -⟩
  · exact h.not_mem_queue_of_last hlast
  · rw [hstack]
    exact h.goldfish_not_mem_queue hc

/-- Two CPUs execute different contexts. -/
theorem stack_inj (h : Sound s) (hc : c ∈ s.cpuVec) (hc' : c' ∈ s.cpuVec)
    (heq : s.stack c = s.stack c') : c = c' := by
  rcases h.cases_stack hc with ⟨hlast, halive⟩ | ⟨-, hstack, halive⟩ <;>
    rcases h.cases_stack hc' with ⟨hlast', halive'⟩ | ⟨-, hstack', halive'⟩
  · exact h.last_inj hlast (heq ▸ hlast')
  · rw [heq, halive'] at halive
    cases halive
  · rw [heq, halive'] at halive
    cases halive
  · exact h.goldfish_inj c hc c' hc' (hstack ▸ hstack' ▸ heq)

/-- The code that a CPU executes. -/
theorem wellFormed_current (h : Sound s) (hc : c ∈ s.cpuVec) : WellFormed (s.current c) := by
  rcases h.cases_stack hc with ⟨-, halive⟩ | ⟨-, hstack, -⟩
  · exact (h.thread_code _ halive).1
  · rw [State.current, hstack]
    exact (h.goldfish_code c hc).1

/-- The goldfish executes nothing else than `watch_suspend` and interrupt handlers. -/
theorem last_ne_none (h : Sound s) (hc : c ∈ s.cpuVec) {i : Instr} (hi : i ∈ s.current c)
    (hgold : ¬ i.OfGoldfish) : ∃ t, s.lastContext c = some t ∧ s.stack c = t := by
  rcases h.cases_stack hc with ⟨hlast, -⟩ | ⟨-, hstack, -⟩
  · exact ⟨_, hlast, rfl⟩
  · rw [State.current, hstack] at hi
    exact absurd ((h.goldfish_code c hc).2 i hi) hgold

/-- A thread executes nothing of `watch_suspend`. -/
theorem last_eq_none (h : Sound s) (hc : c ∈ s.cpuVec) {i : Instr} (hi : i ∈ s.current c)
    (hthread : ¬ i.OfThread) : s.lastContext c = none ∧ s.stack c = s.myGoldfish c := by
  rcases h.cases_stack hc with ⟨-, halive⟩ | ⟨hlast, hstack, -⟩
  · exact absurd ((h.thread_code _ halive).2 i hi) hthread
  · exact ⟨hlast, hstack⟩

end Sound

/-! ### Changes of the code -/

namespace Core

/-- A context that is neither in a queue nor a goldfish that has been left has other code to
execute. -/
theorem setCode (h : Core s) (hqueue : ∀ q, x ∉ s.queue q)
    (hthread : s.alive x = true →
      WellFormed l ∧ ∀ i ∈ l, i.OfThread ∧ ∀ j, i = .join j → s.handle j = true)
    (hgold : ∀ c ∈ s.cpuVec, s.myGoldfish c = x →
      s.lastContext c = none ∧ WellFormed l ∧ ∀ i ∈ l, i.OfGoldfish) :
    Core { s with code := update s.code x l } := by
  refine { h with
    thread_code := ?_, goldfish_code := ?_, saved := ?_, saved_goldfish := ?_, join_handle := ?_ }
  · intro t ht
    by_cases htx : t = x
    · subst htx
      obtain ⟨hwf, hinstr⟩ := hthread ht
      simpa only [update_self] using ⟨hwf, fun i hi => (hinstr i hi).1⟩
    · simpa only [update_of_ne htx] using h.thread_code t ht
  · intro c hc
    by_cases hcx : s.myGoldfish c = x
    · simpa only [hcx, update_self] using (hgold c hc hcx).2
    · simpa only [update_of_ne hcx] using h.goldfish_code c hc
  · intro q t ht
    have htx : t ≠ x := fun heq => hqueue q (heq ▸ ht)
    simpa only [update_of_ne htx] using h.saved q t ht
  · intro c hc hlast
    have hcx : s.myGoldfish c ≠ x := fun heq => hlast (hgold c hc heq).1
    simpa only [update_of_ne hcx] using h.saved_goldfish c hc hlast
  · intro t i ht hi
    by_cases htx : t = x
    · subst htx
      simp only [update_self] at hi
      exact ((hthread ht).2 _ hi).2 i rfl
    · simp only [update_of_ne htx] at hi
      exact h.join_handle t i ht hi

/-! ### Changes of place -/

/-- The last context of a CPU is put into a queue. -/
theorem toQueue (h : Core s) (hlast : s.lastContext c =
    some t) (hmode : modeOf (s.code t) = .guarded)
    (hjoin : ∀ i, q = .join i → s.alive i = true) :
    Core ((s.setQueue q (s.queue q ++ [t])).setLastContext c none) := by
  refine { h with places := ?_, off := ?_, saved := ?_, saved_goldfish := ?_, join_dead := ?_ }
  · refine h.places.move (p := .inl c) (q := .inr q) (by simp) ?_ ?_
    · rintro (c' | q') hc hq
      · have hne : c' ≠ c := fun heq => hc (heq ▸ rfl)
        simp [State.place, State.setQueue, State.setLastContext, hne]
      · have hne : q' ≠ q := fun heq => hq (heq ▸ rfl)
        simp [State.place, State.setQueue, State.setLastContext, hne]
    · simp only [State.place, State.setQueue, State.setLastContext, update_self, hlast,
        Option.toList_none, Option.toList_some, List.nil_append]
      exact List.perm_append_comm
  · intro c' hc'
    have hne : c' ≠ c := fun heq => by
      rw [heq] at hc'
      exact hc' (h.mem_of_last hlast)
    simpa [State.setQueue, State.setLastContext, hne] using h.off c' hc'
  · intro q' t' ht'
    by_cases hq : q' = q
    · subst hq
      simp only [State.setQueue, State.setLastContext, update_self, List.mem_append,
        List.mem_singleton] at ht' ⊢
      rcases ht' with ht' | rfl
      · exact h.saved q' t' ht'
      · exact hmode
    · simp only [State.setQueue, State.setLastContext, update_of_ne hq] at ht' ⊢
      exact h.saved q' t' ht'
  · intro c' hc' hlast'
    by_cases hne : c' = c
    · subst hne
      simp [State.setLastContext] at hlast'
    · simp only [State.setQueue, State.setLastContext, update_of_ne hne] at hlast' ⊢
      exact h.saved_goldfish c' hc' hlast'
  · intro i hi
    have hne : Queue.join i ≠ q := fun heq => by
      have halive := hjoin i heq.symm
      rw [show s.alive i = false from hi] at halive
      cases halive
    simpa [State.setQueue, State.setLastContext, hne] using h.join_dead i hi

/-- The front of the ready queue becomes the last context of a CPU. -/
theorem fromReady {next : ContextId} {rest : List ContextId} (h : Core s) (hc : c ∈ s.cpuVec)
    (hlast : s.lastContext c = none) (hready : s.queue .ready = next :: rest)
    (hgold : modeOf (s.code (s.myGoldfish c)) = .guarded) :
    Core ((s.setLastContext c (some next)).setQueue .ready rest) := by
  refine { h with places := ?_, off := ?_, saved := ?_, saved_goldfish := ?_, join_dead := ?_ }
  · refine h.places.move (p := .inl c) (q := .inr .ready) (by simp) ?_ ?_
    · rintro (c' | q') hc hq
      · have hne : c' ≠ c := fun heq => hc (heq ▸ rfl)
        simp [State.place, State.setQueue, State.setLastContext, hne]
      · have hne : q' ≠ .ready := fun heq => hq (heq ▸ rfl)
        simp [State.place, State.setQueue, State.setLastContext, hne]
    · simp [State.place, State.setQueue, State.setLastContext, hlast, hready]
  · intro c' hc'
    have hne : c' ≠ c := fun heq => hc' (heq ▸ hc)
    simpa [State.setQueue, State.setLastContext, hne] using h.off c' hc'
  · intro q' t' ht'
    by_cases hq : q' = .ready
    · subst hq
      simp only [State.setQueue, State.setLastContext, update_self] at ht' ⊢
      exact h.saved .ready t' (hready ▸ List.mem_cons_of_mem next ht')
    · simp only [State.setQueue, State.setLastContext, update_of_ne hq] at ht' ⊢
      exact h.saved q' t' ht'
  · intro c' hc' hlast'
    by_cases hne : c' = c
    · exact hne ▸ hgold
    · simp only [State.setQueue, State.setLastContext, update_of_ne hne] at hlast' ⊢
      exact h.saved_goldfish c' hc' hlast'
  · intro i hi
    simpa [State.setQueue, State.setLastContext] using h.join_dead i hi

/-- Threads that wait in a queue become ready. -/
theorem addReady {ts rest : List ContextId} (h : Core s) (hq : q ≠ .ready)
    (hqueue : s.queue q = ts ++ rest) :
    Core ((s.setQueue q rest).setQueue .ready (s.queue .ready ++ ts)) := by
  refine { h with places := ?_, saved := ?_, join_dead := ?_ }
  · refine h.places.move (p := .inr q) (q := .inr .ready) (by simpa using hq) ?_ ?_
    · rintro (c' | q') hc hr
      · rfl
      · have hne : q' ≠ .ready := fun heq => hr (heq ▸ rfl)
        have hne' : q' ≠ q := fun heq => hc (heq ▸ rfl)
        simp [State.place, State.setQueue, hne, hne']
    · simp only [State.place, State.setQueue, update_self, update_of_ne hq, hqueue]
      calc rest ++ (s.queue .ready ++ ts)
          _ = (rest ++ s.queue .ready) ++ ts := (List.append_assoc _ _ _).symm
          _ |>.Perm (ts ++ (rest ++ s.queue .ready)) := List.perm_append_comm
          _ = ts ++ rest ++ s.queue .ready := (List.append_assoc _ _ _).symm
  · intro q' t' ht'
    by_cases hr : q' = .ready
    · subst hr
      simp only [State.setQueue, update_self, List.mem_append] at ht' ⊢
      rcases ht' with ht' | ht'
      · exact h.saved .ready t' ht'
      · exact h.saved q t' (hqueue ▸ List.mem_append_left rest ht')
    · by_cases hqq : q' = q
      · subst hqq
        simp only [State.setQueue, update_of_ne hr, update_self] at ht' ⊢
        exact h.saved q' t' (hqueue ▸ List.mem_append_right ts ht')
      · simp only [State.setQueue, update_of_ne hr, update_of_ne hqq] at ht' ⊢
        exact h.saved q' t' ht'
  · intro i hi
    have hempty := h.join_dead i hi
    by_cases hqi : .join i = q
    · subst hqi
      rw [hempty] at hqueue
      have hrest : rest = [] := (List.append_eq_nil_iff.mp hqueue.symm).2
      simp [State.setQueue, hrest]
    · simpa [State.setQueue, hqi] using hempty

/-! ### New contexts and threads that finish -/

theorem alive_maxId (h : Core s) : s.alive s.maxId = false := by
  cases halive : s.alive s.maxId with
  | false => rfl
  | true => exact absurd (h.alive_lt _ halive).2 (lt_irrefl _)

theorem maxId_not_mem_queue (h : Core s) : s.maxId ∉ s.queue q := by
  intro hq
  have halive := h.alive_of_queue hq
  rw [h.alive_maxId] at halive
  cases halive

theorem goldfish_ne_maxId (h : Core s) (hc : c ∈ s.cpuVec) : s.myGoldfish c ≠ s.maxId :=
  (h.goldfish_lt c hc).ne

/-- A new thread is ready. -/
theorem newThread (h : Core s) :
    Core { s with
      maxId := s.maxId + 1
      code := update s.code s.maxId startCode
      alive := update s.alive s.maxId true
      handle := update s.handle s.maxId true
      localInfo := update s.localInfo s.maxId true
      queue := update s.queue .ready (s.queue .ready ++ [s.maxId]) } := by
  have halive {t : ContextId} (ht : update s.alive s.maxId true t = true) :
      t = s.maxId ∨ t ≠ s.maxId ∧ s.alive t = true := by
    by_cases hne : t = s.maxId
    · exact Or.inl hne
    · rw [update_of_ne hne] at ht
      exact Or.inr ⟨hne, ht⟩
  have hdead {t : ContextId} (ht : update s.alive s.maxId true t = false) :
      t ≠ s.maxId ∧ s.alive t = false := by
    by_cases hne : t = s.maxId
    · rw [hne, update_self] at ht
      cases ht
    · rw [update_of_ne hne] at ht
      exact ⟨hne, ht⟩
  constructor
  case cpus => exact h.cpus
  case places =>
    refine h.places.change (p := .inr .ready) ?_ ?_ ?_ ?_
    · rintro (c | q) hq
      · rfl
      · have hne : q ≠ .ready := fun heq => hq (heq ▸ rfl)
        simp [State.place, hne]
    · simp only [State.place, update_self]
      refine List.nodup_append.mpr ⟨h.places.nodup (.inr .ready), List.nodup_singleton _, ?_⟩
      rintro t ht t' ht' rfl
      rw [List.mem_singleton.mp ht'] at ht
      exact h.maxId_not_mem_queue ht
    · intro t ht hold
      simp only [State.place, update_self, List.mem_append, List.mem_singleton] at ht
      rcases ht with ht | rfl
      · exact ht
      · exact absurd (show s.alive s.maxId = true from hold) (by simp [h.alive_maxId])
    · intro t
      simp only [Set.mem_ofPred_eq, State.place, update_self, List.mem_append, List.mem_singleton]
      constructor
      · intro ht
        rcases halive ht with rfl | ⟨-, ht⟩
        · exact Or.inr (Or.inr rfl)
        · by_cases hready : t ∈ s.queue .ready
          · exact Or.inr (Or.inl hready)
          · exact Or.inl ⟨ht, hready⟩
      · rintro (⟨ht, -⟩ | ht | rfl)
        · by_cases hne : t = s.maxId
          · rw [hne, update_self]
          · rw [update_of_ne hne, ht]
        · have hne : t ≠ s.maxId := fun heq => h.maxId_not_mem_queue (heq ▸ ht)
          rw [update_of_ne hne, h.alive_of_queue ht]
        · rw [update_self]
  case off => exact h.off
  case alive_lt =>
    intro t ht
    rcases halive ht with rfl | ⟨-, ht⟩
    · exact ⟨h.maxId_pos, Nat.lt_succ_self _⟩
    · exact ⟨(h.alive_lt t ht).1, Nat.lt_succ_of_lt (h.alive_lt t ht).2⟩
  case maxId_pos => exact Nat.succ_pos _
  case goldfish_lt => exact fun c hc => Nat.lt_succ_of_lt (h.goldfish_lt c hc)
  case goldfish_dead =>
    intro c hc
    simpa only [update_of_ne (h.goldfish_ne_maxId hc)] using h.goldfish_dead c hc
  case goldfish_inj => exact h.goldfish_inj
  case thread_code =>
    intro t ht
    rcases halive ht with rfl | ⟨hne, ht⟩
    · simp [startCode, WellFormed, Follows, Instr.after, Instr.before, Instr.Throws, Instr.OfThread]
    · simpa only [update_of_ne hne] using h.thread_code t ht
  case goldfish_code =>
    intro c hc
    simpa only [update_of_ne (h.goldfish_ne_maxId hc)] using h.goldfish_code c hc
  case saved =>
    intro q t ht
    have hcase : t = s.maxId ∨ t ∈ s.queue q := by
      by_cases hq : q = .ready
      · subst hq
        simp only [update_self, List.mem_append, List.mem_singleton] at ht
        exact ht.symm
      · simp only [update_of_ne hq] at ht
        exact Or.inr ht
    rcases hcase with rfl | hold
    · simp [startCode, modeOf, Instr.before]
    · have hne : t ≠ s.maxId := fun heq => h.maxId_not_mem_queue (heq ▸ hold)
      simpa only [update_of_ne hne] using h.saved q t hold
  case saved_goldfish =>
    intro c hc hlast
    simpa only [update_of_ne (h.goldfish_ne_maxId hc)] using h.saved_goldfish c hc hlast
  case info =>
    intro t ht
    rcases halive ht with rfl | ⟨hne, ht⟩
    · simp
    · simpa only [update_of_ne hne] using h.info t ht
  case join_dead =>
    intro t ht
    simpa using h.join_dead t (hdead ht).2
  case join_handle =>
    intro t i ht hi
    rcases halive ht with rfl | ⟨hne, ht⟩
    · simp [startCode] at hi
    · simp only [update_of_ne hne] at hi
      by_cases hnew : i = s.maxId
      · simp [hnew]
      · simpa only [update_of_ne hnew] using h.join_handle t i ht hi

/-- A new CPU has a goldfish. -/
theorem newGoldfish (h : Core s) (hc : c ∉ s.cpuVec) :
    Core { s with
      maxId := s.maxId + 1
      code := update s.code s.maxId [.watchSuspend]
      myGoldfish := update s.myGoldfish c s.maxId
      cpuVec := s.cpuVec ++ [c] } := by
  have hcases {c' : CpuId} (hc' : c' ∈ s.cpuVec ++ [c]) : c' = c ∨ c' ≠ c ∧ c' ∈ s.cpuVec := by
    rcases List.mem_append.mp hc' with hc' | hc'
    · exact Or.inr ⟨fun heq => hc (heq ▸ hc'), hc'⟩
    · exact Or.inl (List.mem_singleton.mp hc')
  have hne_of_alive {t : ContextId} (ht : s.alive t = true) : t ≠ s.maxId := fun heq => by
    rw [heq, h.alive_maxId] at ht
    cases ht
  constructor
  case cpus =>
    refine List.nodup_append.mpr ⟨h.cpus, List.nodup_singleton _, ?_⟩
    rintro c' hc' c'' hc'' rfl
    exact hc (List.mem_singleton.mp hc'' ▸ hc')
  case places => exact h.places
  case off => exact fun c' hc' => h.off c' fun hmem => hc' (List.mem_append_left _ hmem)
  case alive_lt => exact fun t ht => ⟨(h.alive_lt t ht).1, Nat.lt_succ_of_lt (h.alive_lt t ht).2⟩
  case maxId_pos => exact Nat.succ_pos _
  case goldfish_lt =>
    intro c' hc'
    rcases hcases hc' with rfl | ⟨hne, hc'⟩
    · simp
    · simpa only [update_of_ne hne] using Nat.lt_succ_of_lt (h.goldfish_lt c' hc')
  case goldfish_dead =>
    intro c' hc'
    rcases hcases hc' with rfl | ⟨hne, hc'⟩
    · simpa using h.alive_maxId
    · simpa only [update_of_ne hne] using h.goldfish_dead c' hc'
  case goldfish_inj =>
    intro c₁ hc₁ c₂ hc₂ heq
    rcases hcases hc₁ with rfl | ⟨hne₁, hold₁⟩ <;> rcases hcases hc₂ with rfl | ⟨hne₂, hold₂⟩
    · rfl
    · simp only [update_self, update_of_ne hne₂] at heq
      exact absurd heq.symm (h.goldfish_ne_maxId hold₂)
    · simp only [update_self, update_of_ne hne₁] at heq
      exact absurd heq (h.goldfish_ne_maxId hold₁)
    · simp only [update_of_ne hne₁, update_of_ne hne₂] at heq
      exact h.goldfish_inj c₁ hold₁ c₂ hold₂ heq
  case thread_code =>
    intro t ht
    simpa only [update_of_ne (hne_of_alive ht)] using h.thread_code t ht
  case goldfish_code =>
    intro c' hc'
    rcases hcases hc' with rfl | ⟨hne, hc'⟩
    · simp [WellFormed, Instr.after, Instr.OfGoldfish]
    · simpa only [update_of_ne hne, update_of_ne (h.goldfish_ne_maxId hc')]
        using h.goldfish_code c' hc'
  case saved =>
    intro q t ht
    simpa only [update_of_ne (hne_of_alive (h.alive_of_queue ht))] using h.saved q t ht
  case saved_goldfish =>
    intro c' hc' hlast
    rcases hcases hc' with rfl | ⟨hne, hc'⟩
    · exact absurd (h.off _ hc) hlast
    · simpa only [update_of_ne hne, update_of_ne (h.goldfish_ne_maxId hc')]
        using h.saved_goldfish c' hc' hlast
  case info => exact h.info
  case join_dead => exact h.join_dead
  case join_handle =>
    intro t i ht hi
    simp only [update_of_ne (hne_of_alive ht)] at hi
    exact h.join_handle t i ht hi

/-- A thread that nobody waits for any more finishes, and the CPU has no last context. -/
theorem die (h : Core s) (hlast : s.lastContext c = some t) (hjoin : s.queue (.join t) = []) :
    Core { s with
      alive := update s.alive t false
      localInfo := update s.localInfo t false
      lastContext := update s.lastContext c none } := by
  have halive {t' : ContextId} (ht : update s.alive t false t' = true) :
      t' ≠ t ∧ s.alive t' = true := by
    by_cases hne : t' = t
    · rw [hne, update_self] at ht
      cases ht
    · rw [update_of_ne hne] at ht
      exact ⟨hne, ht⟩
  refine { h with
    places := ?_, off := ?_, alive_lt := ?_, goldfish_dead := ?_, thread_code := ?_,
    saved_goldfish := ?_, info := ?_, join_dead := ?_, join_handle := ?_ }
  · refine h.places.change (p := .inl c) ?_ ?_ ?_ ?_
    · rintro (c' | q) hc'
      · have hne : c' ≠ c := fun heq => hc' (heq ▸ rfl)
        simp [State.place, hne]
      · rfl
    · simp [State.place]
    · simp [State.place]
    · intro t'
      simp only [Set.mem_ofPred_eq, State.place, update_self, hlast, Option.toList_none,
        Option.toList_some, List.mem_singleton, List.not_mem_nil, or_false]
      constructor
      · exact fun ht => (halive ht).symm
      · rintro ⟨ht, hne⟩
        rw [update_of_ne hne, ht]
  · intro c' hc'
    have hne : c' ≠ c := fun heq => by
      rw [heq] at hc'
      exact hc' (h.mem_of_last hlast)
    simpa only [update_of_ne hne] using h.off c' hc'
  · exact fun t' ht => h.alive_lt t' (halive ht).2
  · intro c' hc'
    by_cases hne : s.myGoldfish c' = t
    · simp only [hne, update_self]
    · simpa only [update_of_ne hne] using h.goldfish_dead c' hc'
  · exact fun t' ht => h.thread_code t' (halive ht).2
  · intro c' hc' hlast'
    by_cases hne : c' = c
    · subst hne
      simp at hlast'
    · simp only [update_of_ne hne] at hlast'
      exact h.saved_goldfish c' hc' hlast'
  · intro t' ht
    simpa only [update_of_ne (halive ht).1] using h.info t' (halive ht).2
  · intro t' ht
    by_cases hne : t' = t
    · exact hne ▸ hjoin
    · simp only [update_of_ne hne] at ht
      exact h.join_dead t' ht
  · exact fun t' i ht hi => h.join_handle t' i (halive ht).2 hi

/-- A thread object that nobody is about to read is destroyed. -/
theorem dropHandle {i : ContextId} (h : Core s) (hjoin : ∀ t < s.maxId, .join i ∉ s.code t) :
    Core { s with handle := update s.handle i false } := by
  refine { h with join_handle := ?_ }
  intro t j ht hj
  have hne : j ≠ i := fun heq => hjoin t (h.alive_lt t ht).2 (heq ▸ hj)
  simpa only [update_of_ne hne] using h.join_handle t j ht hj

end Core

end OsFromScratch.Threads
