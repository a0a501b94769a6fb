import OsFromScratch.Threads.Steps

/-!
# Interrupts, the guard and exceptions

The code of a thread is executed with interrupts enabled, by a CPU that does not hold the guard. The
context of a CPU changes only while it holds the guard. No assertion fails, and a call that throws
changes no queue and no mutex.

## Main definitions

* `SameQueues` — the queues, the mutexes and the threads are what they were.
* `Harmless` — the instructions of a call outside its guarded section.

## Main results

* `StepEffect.switch` — the context of a CPU changes with the guard held.
* `threadRun_discipline` — interrupts, the guard and exceptions in every run.
-/

namespace OsFromScratch.Threads

open Function

variable {s s' : State} {c c' : CpuId} {t x : ContextId} {q : Queue} {i : Instr}
    {l rest : List Instr}
  {evs : List Event} {a : Action} {actions : List Action} {events : List (List Event)}

/-! ### Changes of context -/

/-- The queues, the mutexes and the `shared_thread_info` objects are what they were. -/
structure SameQueues (s s' : State) : Prop where
  queue : s'.queue = s.queue
  owner : s'.owner = s.owner
  free : s'.free = s.free
  alive : s'.alive = s.alive

/-- The instructions of a call outside its guarded section. -/
def Harmless : Instr → Prop
  | .interruptDisable | .interruptEnable | .guardLock | .guardUnlock | .ret _ _ => True
  | _ => False

/-- The context of a CPU changes in an instruction that is executed with the guard held. -/
theorem Effect.switch (h : Effect s c rest i evs s') (hc' : s'.stack c' ≠ s.stack c') :
    c' = c ∧ i.before = .guarded ∧ s'.guard = s.guard ∧ s'.interrupts = s.interrupts := by
  have hresume {s₁ : State} (hstack : (s₁.resume c).stack c' ≠ s₁.stack c') : c' = c := by
    by_contra hne
    exact hstack (update_of_ne hne _ _)
  cases h with
  | blocks hlast hi => exact ⟨hresume hc', hi.guarded.1, rfl, rfl⟩
  | exit => exact ⟨hresume hc', rfl, rfl, rfl⟩
  | take => exact ⟨hresume hc', rfl, rfl, rfl⟩
  | _ => exact absurd rfl hc'

/-- The context of a CPU changes while the CPU holds the guard, with interrupts disabled. -/
theorem StepEffect.switch (h : StepEffect s a evs s') (hsound : Sound s) (hc : c ∈ s.cpuVec)
    (hstack : s'.stack c ≠ s.stack c) : s.InMode c .guarded ∧ s'.InMode c .guarded := by
  cases h with
  | bootThread hnew _ =>
    refine absurd (update_of_ne ?_ _ _) hstack
    rintro rfl
    exact hnew hc
  | bootIdle hnew _ =>
    refine absurd (update_of_ne ?_ _ _) hstack
    rintro rfl
    exact hnew hc
  | run hc' _ hcode heffect =>
    obtain ⟨rfl, hbefore, hguard, hint⟩ := heffect.switch hstack
    have hmode := hsound.inMode hc hcode
    rw [hbefore] at hmode
    exact ⟨hmode, hmode.congr (congrFun hint c) (by rw [hguard])⟩
  | _ => exact absurd rfl hstack

/-- A CPU enters its first context while it holds the guard, with interrupts disabled. -/
theorem StepEffect.first (h : StepEffect s a evs s') (hc : c ∉ s.cpuVec) (hc' : c ∈ s'.cpuVec) :
    s'.InMode c .guarded := by
  have hboot {c' : CpuId} (hmem : c ∈ s.cpuVec ++ [c']) : c = c' := by
    rcases List.mem_append.mp hmem with hmem | hmem
    · exact absurd hmem hc
    · exact List.mem_singleton.mp hmem
  cases h with
  | bootThread =>
    obtain rfl := hboot hc'
    exact ⟨update_self _ _ _, rfl⟩
  | bootIdle =>
    obtain rfl := hboot hc'
    exact ⟨update_self _ _ _, rfl⟩
  | run _ _ _ heffect =>
    cases heffect <;> exact absurd hc' hc
  | _ => exact absurd hc' hc

/-! ### Exceptions -/

/-- The instructions of a call outside its guarded section change no queue and no mutex. -/
theorem Effect.harmless (h : Effect s c rest i evs s') (hi : Harmless i) : SameQueues s s' := by
  cases h with
  | blocks _ hblocks => cases hblocks <;> exact hi.elim
  | wakes _ hwakes => cases hwakes <;> exact hi.elim
  | skips hskips => cases hskips <;> exact hi.elim
  | interruptDisable => exact ⟨rfl, rfl, rfl, rfl⟩
  | interruptEnable => exact ⟨rfl, rfl, rfl, rfl⟩
  | spin => exact ⟨rfl, rfl, rfl, rfl⟩
  | guardLock => exact ⟨rfl, rfl, rfl, rfl⟩
  | guardUnlock => exact ⟨rfl, rfl, rfl, rfl⟩
  | ret => exact ⟨rfl, rfl, rfl, rfl⟩
  | _ => exact hi.elim

/-- An exception is thrown with the guard given up and interrupts enabled. -/
theorem unwind_eq {code : List Instr} (h : Returns code) :
    ∃ op post, unwind code = .ret op false :: post := by
  induction code with
  | nil =>
    obtain ⟨op, ok, hmem⟩ := h
    cases hmem
  | cons i code ih =>
    obtain ⟨op, ok, hmem⟩ := h
    by_cases hi : ∃ op ok, i = .ret op ok
    · obtain ⟨op', ok', rfl⟩ := hi
      exact ⟨op', code, rfl⟩
    · have hcode : .ret op ok ∈ code := by
        rcases List.mem_cons.mp hmem with rfl | hmem
        · exact absurd ⟨op, ok, rfl⟩ hi
        · exact hmem
      obtain ⟨op', post, hunwind⟩ := ih ⟨op, ok, hcode⟩
      refine ⟨op', post, Eq.trans ?_ hunwind⟩
      cases i <;> first | rfl | exact absurd ⟨_, _, rfl⟩ hi

/-- `release_lock` throws without any change, and what is left of the call is harmless. -/
theorem StepEffect.refused {m : MutexId} (h : StepEffect s a evs s') (hsound : Sound s)
    (hevs : .act t (.refused m) ∈ evs) :
    SameQueues s s' ∧ ∃ c ∈ s.cpuVec, s.stack c = t ∧ ∃ op post,
      s'.current c = [.guardUnlock, .interruptEnable, .ret op false] ++ post := by
  cases h with
  | @run c alloc i rest evs s' hc hsuspended hcode heffect =>
    cases heffect with
    | refused hlast hm =>
      have ht := List.mem_singleton.mp hevs
      simp only [Event.act.injEq, Act.refused.injEq] at ht
      have hwf := hsound.wellFormed_current hc
      rw [hcode] at hwf
      obtain ⟨op, post, hunwind⟩ := unwind_eq (hwf.returns trivial)
      refine ⟨⟨rfl, rfl, rfl, rfl⟩, c, hc, ht.1.symm, op, post, ?_⟩
      rw [Sound.current_setCurrent, throwCode, hunwind]
      rfl
    | blocks _ hi => cases hi <;> simp at hevs
    | wakes _ hi => cases hi <;> simp at hevs
    | skips hi => cases hi <;> simp at hevs
    | _ => simp at hevs
  | _ => simp at hevs

/-! ### Runs -/

/-- In every run, the code of a thread is executed with interrupts enabled by a CPU that does not
hold the guard, also when a function of the library has returned or thrown. In a step that is
allowed no assertion fails, and a CPU changes its context, or enters the first one, only with the
guard held and interrupts disabled. When `release_lock` throws, no queue and no mutex has changed,
and what is left of the call, like what the call has executed before, changes none. -/
theorem threadRun_discipline (hrun : ThreadRun actions events s) :
    (∀ c ∈ s.cpuVec, ∀ i, (s.current c).head? = some i → (i = .user ∨ ∃ op ok, i = .ret op ok) →
      s.interrupts c = true ∧ s.guard ≠ some c) ∧
    ∀ a, Allowed s a → ∃ evs s', step a s = some (evs, s') ∧
      (∀ c ∈ s.cpuVec, s'.stack c ≠ s.stack c →
        (s.interrupts c = false ∧ s.guard = some c) ∧ s'.interrupts c = false ∧ s'.guard = some c) ∧
      (∀ c ∈ s'.cpuVec, c ∉ s.cpuVec → s'.interrupts c = false ∧ s'.guard = some c) ∧
      (∀ c alloc i, a = .run c alloc → (s.current c).head? = some i → Harmless i →
        SameQueues s s') ∧
      ∀ t m, .act t (.refused m) ∈ evs → SameQueues s s' ∧ ∃ c ∈ s.cpuVec, s.stack c = t ∧
        ∃ op post, s'.current c = [.guardUnlock, .interruptEnable, .ret op false] ++ post := by
  have hsound := threadRun_sound hrun
  refine ⟨fun c hc i hi huser => ?_, fun a hallowed => ?_⟩
  · obtain ⟨rest, hcode⟩ : ∃ rest, s.current c = i :: rest := by
      cases hcode : s.current c with
      | nil =>
        rw [hcode] at hi
        cases hi
      | cons j rest =>
        rw [hcode] at hi
        exact ⟨rest, congrArg (· :: rest) (Option.some.inj hi)⟩
    have hmode := hsound.inMode hc hcode
    rcases huser with rfl | ⟨op, ok, rfl⟩ <;> exact hmode
  · obtain ⟨evs, s', hstep, heffect⟩ := hsound.step_effect hallowed
    refine ⟨evs, s', hstep, fun c hc hstack => heffect.switch hsound hc hstack,
      fun c hc' hc => heffect.first hc hc', ?_, fun t m => heffect.refused hsound⟩
    rintro c alloc i rfl hi hharmless
    cases heffect with
    | run _ _ hcode heffect =>
      rw [hcode, List.head?_cons, Option.some.injEq] at hi
      exact heffect.harmless (hi ▸ hharmless)

/-- A thread unlocks a mutex that is free. -/
def unlockFree : List Action :=
  [.boot 0 true, .run 0 .ok, .run 0 .ok, .call 0 (.unlock 0), .run 0 .ok, .run 0 .ok, .run 0 .ok,
    .run 0 .ok, .run 0 .ok]

/-- After the exception interrupts are enabled and the guard is free. -/
theorem threadRun_discipline_unlockFree :
    ∃ events s, ThreadRun unlockFree events s ∧ s.current 0 = [.ret (.unlock 0) false, .user] ∧
      s.interrupts 0 = true ∧ s.guard ≠ some 0 := by
  obtain ⟨events, s, hthread, hcheck⟩ := ThreadRun.of_check unlockFree
    (fun _ s => 0 ∈ s.cpuVec && s.current 0 = [.ret (.unlock 0) false, .user]) (by decide +kernel)
  simp only [Bool.and_eq_true, decide_eq_true_eq] at hcheck
  obtain ⟨hcpu, hcode⟩ := hcheck
  refine ⟨events, s, hthread, hcode, (threadRun_discipline hthread).1 0
    hcpu (.ret (.unlock 0) false) ?_
    (Or.inr ⟨_, _, rfl⟩)⟩
  exact congrArg List.head? hcode

end OsFromScratch.Threads
