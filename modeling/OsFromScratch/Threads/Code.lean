import Mathlib.Data.List.Basic

/-!
# The code of the thread library

What a context still has to execute, as a list of instructions. An instruction is one of the
primitives of the infrastructure, an operation on the guard, or what a function of the library does
between two of them while it holds the guard.

A context executes with interrupts enabled, with interrupts disabled, or with interrupts disabled
and the guard held. Every instruction is made for one of these modes and leaves the CPU in one of
them.

## Main definitions

* `Op`, `Op.code` — the functions that a thread may call, and their code.
* `Instr` — the instructions.
* `Instr.before`, `Instr.after` — the modes before and after an instruction.
* `WellFormed` — every instruction of the code is executed in its mode.

## Main results

* `WellFormed.tail` — what is left after an instruction.
* `wellFormed_callCode`, `WellFormed.timerCode`, `WellFormed.throwCode` — calls, interrupts and
  exceptions.
-/

namespace OsFromScratch.Threads

/-- The object of a CPU. -/
abbrev CpuId := ℕ

/-- A `managed_uc`, by the number of those constructed before. -/
abbrev ContextId := ℕ

/-- A mutex. -/
abbrev MutexId := ℕ

/-- A condition variable. -/
abbrev CvId := ℕ

/-- The functions of the library that a thread may call. A thread object is known by the context of
its thread. -/
inductive Op
  | lock (m : MutexId)
  | unlock (m : MutexId)
  | wait (v : CvId) (m : MutexId)
  | signal (v : CvId)
  | broadcast (v : CvId)
  | thread
  | join (i : ContextId)
  | yield
deriving DecidableEq

/-- The instructions. -/
inductive Instr
  | interruptDisable
  | interruptEnable
  | interruptEnableSuspend
  | guardLock
  | guardUnlock
  /-- `mutex::lock` up to the end of the conditional. -/
  | acquire (m : MutexId)
  /-- `mutex::lock`: the owner is set. -/
  | own (m : MutexId)
  /-- `mutex::release_lock`. -/
  | releaseLock (m : MutexId)
  /-- `cv::wait`: `swap_self_to_queue(waiting_queue)`. -/
  | sleep (v : CvId)
  | signal (v : CvId)
  | broadcast (v : CvId)
  /-- `thread::construct_thread`. -/
  | constructThread
  | join (i : ContextId)
  | yield
  /-- `timer_interrupt_handler`. -/
  | timer
  /-- `wrapped_function` after `func` has returned. -/
  | exit
  /-- One round of the loop of `watch_suspend`. -/
  | watchSuspend
  /-- A function of the library returns to the code of the thread, or throws. -/
  | ret (op : Op) (ok : Bool)
  /-- The code of the thread. -/
  | user
deriving DecidableEq

/-! ### The functions of the library -/

/-- A section that is executed with interrupts disabled and the guard held. -/
def guarded (body : List Instr) : List Instr :=
  .interruptDisable :: .guardLock :: (body ++ [.guardUnlock, .interruptEnable])

/-- `mutex::lock`. -/
def lockCode (m : MutexId) : List Instr :=
  guarded [.acquire m, .own m]

/-- The code of a function of the library. -/
def Op.code : Op → List Instr
  | .lock m => lockCode m
  | .unlock m => guarded [.releaseLock m]
  | .wait v m => guarded [.releaseLock m, .sleep v] ++ lockCode m
  | .signal v => guarded [.signal v]
  | .broadcast v => guarded [.broadcast v]
  | .thread => guarded [.constructThread]
  | .join i => guarded [.join i]
  | .yield => guarded [.yield]

/-- What a thread executes when it calls a function of the library. -/
def Op.callCode (op : Op) : List Instr :=
  op.code ++ [.ret op true, .user]

/-- `timer_interrupt_handler`. -/
def timerCode : List Instr :=
  guarded [.timer]

/-- `wrapped_function` up to the call of `func`. -/
def startCode : List Instr :=
  [.guardUnlock, .interruptEnable, .user]

/-- `wrapped_function` after the call of `func`. -/
def exitCode : List Instr :=
  [.interruptDisable, .guardLock, .exit]

/-- `watch_suspend` when there are no ready threads, and its next round. -/
def idleCode : List Instr :=
  [.guardUnlock, .interruptEnableSuspend, .interruptDisable, .guardLock, .watchSuspend]

/-- An exception that is thrown in a function of the library leaves it. -/
def unwind : List Instr → List Instr
  | [] => []
  | .ret op _ :: rest => .ret op false :: rest
  | _ :: rest => unwind rest

/-- The function gives up the guard and enables interrupts, and throws. -/
def throwCode (rest : List Instr) : List Instr :=
  .guardUnlock :: .interruptEnable :: unwind rest

theorem mem_unwind {i : Instr} {code : List Instr} (h : i ∈ unwind code) :
    (∃ op, i = .ret op false) ∨ i ∈ code := by
  fun_induction unwind code with
  | case1 => cases h
  | case2 op ok rest =>
    rcases List.mem_cons.mp h with h | h
    · exact Or.inl ⟨op, h⟩
    · exact Or.inr (.tail _ h)
  | case3 j rest _ ih => exact (ih h).imp_right (.tail j)

/-! ### Modes -/

/-- How a CPU executes: with interrupts enabled, with interrupts disabled, or with interrupts
disabled and the guard held. -/
inductive Mode
  | enabled
  | disabled
  | guarded
deriving DecidableEq

/-- The mode in which an instruction is executed. -/
def Instr.before : Instr → Mode
  | .interruptDisable | .ret _ _ | .user => .enabled
  | .interruptEnable | .interruptEnableSuspend | .guardLock => .disabled
  | _ => .guarded

/-- The mode after an instruction, if its code goes on. -/
def Instr.after : Instr → Option Mode
  | .interruptEnable | .interruptEnableSuspend | .ret _ _ => some .enabled
  | .interruptDisable | .guardUnlock => some .disabled
  | .exit | .watchSuspend | .user => none
  | _ => some .guarded

/-- The instruction is not one of the loop of `watch_suspend`. -/
def Instr.OfThread : Instr → Prop
  | .interruptEnableSuspend | .watchSuspend => False
  | _ => True

/-- The instruction is one of the loop of `watch_suspend`, or of an interrupt handler. -/
def Instr.OfGoldfish : Instr → Prop
  | .interruptDisable | .interruptEnable | .interruptEnableSuspend | .guardLock | .guardUnlock
  | .timer | .watchSuspend => True
  | _ => False

/-- The instruction may throw. -/
def Instr.Throws : Instr → Prop
  | .releaseLock _ | .constructThread => True
  | _ => False

/-- The code returns from a function of the library. -/
def Returns (code : List Instr) : Prop :=
  ∃ op ok, .ret op ok ∈ code

/-- The mode in which code is executed. -/
def modeOf : List Instr → Mode
  | [] => .guarded
  | i :: _ => i.before

/-- The instruction `j` may be executed after `i`: in its mode, and the owner of a mutex is set just
after the conditional of `lock`, and a thread enters the queue of a condition variable just after it
has released a mutex. -/
def Follows (i j : Instr) : Prop :=
  i.after = some j.before ∧ (∀ m, i = .acquire m ↔ j = .own m) ∧
    ∀ v, j = .sleep v → ∃ m, i = .releaseLock m

/-- Every instruction is executed after one that it may follow, the code ends where it is replaced,
and an exception has a function to leave. -/
def WellFormed : List Instr → Prop
  | [] => False
  | [i] => i.after = none
  | i :: j :: rest => Follows i j ∧ (i.Throws → Returns (j :: rest)) ∧ WellFormed (j :: rest)

namespace WellFormed

variable {i j : Instr} {rest code : List Instr}

theorem ne_nil (h : WellFormed code) : code ≠ [] := by
  rintro rfl
  exact h

/-- What is left after an instruction that does not end the code. -/
theorem tail (h : WellFormed (i :: rest)) (hi : i.after ≠ none) :
    WellFormed rest ∧ i.after = some (modeOf rest) := by
  cases rest with
  | nil => exact absurd h hi
  | cons j rest => exact ⟨h.2.2, h.1.1⟩

/-- An instruction that ends the code is the last one. -/
theorem eq_nil (h : WellFormed (i :: rest)) (hi : i.after = none) : rest = [] := by
  cases rest with
  | nil => rfl
  | cons j rest =>
    have hafter := h.1.1
    rw [hi] at hafter
    cases hafter

/-- The owner of a mutex is set just after the conditional of `lock`. -/
theorem head_own (h : WellFormed (i :: rest)) (m : MutexId) :
    rest.head? = some (.own m) ↔ i = .acquire m := by
  cases rest with
  | nil =>
    constructor
    · rintro ⟨⟩
    · rintro rfl
      cases h
  | cons j rest =>
    rw [List.head?_cons, Option.some.injEq]
    exact (h.1.2.1 m).symm

/-- A thread enters the queue of a condition variable just after it has released a mutex. -/
theorem head_sleep {v : CvId} (h : WellFormed (i :: rest)) (hrest : rest.head? = some (.sleep v)) :
    ∃ m, i = .releaseLock m := by
  cases rest with
  | nil => cases hrest
  | cons j rest => exact h.1.2.2 v (Option.some.inj hrest)

theorem returns (h : WellFormed (i :: rest)) (hi : i.Throws) : Returns rest := by
  cases rest with
  | nil => cases i <;> first | exact hi.elim | cases h
  | cons j rest => exact h.2.1 hi

/-- An instruction may be executed before code that begins with interrupts enabled. -/
theorem cons_enabled (h : WellFormed code) (hmode : modeOf code = .enabled)
    (hi : i.after = some .enabled) (hthrow : ¬ i.Throws) : WellFormed (i :: code) := by
  cases code with
  | nil => exact h.elim
  | cons j rest =>
    have hj : j.before = .enabled := hmode
    refine ⟨⟨hi.trans (congrArg some hj.symm), fun m => ⟨?_, ?_⟩, ?_⟩, fun h => absurd h hthrow, h⟩
    · rintro rfl
      cases hi
    · rintro rfl
      cases hj
    · rintro v rfl
      cases hj

/-- An exception leaves the function that the code returns from, with interrupts enabled. -/
theorem unwind (h : WellFormed code) (hret : Returns code) :
    WellFormed (unwind code) ∧ modeOf (Threads.unwind code) = .enabled := by
  induction code with
  | nil => exact h.elim
  | cons i rest ih =>
    obtain ⟨op, ok, hmem⟩ := hret
    by_cases hi : ∃ op ok, i = .ret op ok
    · obtain ⟨op, ok, rfl⟩ := hi
      refine ⟨?_, rfl⟩
      cases rest with
      | nil => cases h
      | cons j rest =>
        refine ⟨⟨h.1.1, fun m => ⟨by simp, fun hj => ?_⟩, fun v hj => ?_⟩, fun h => h.elim, h.2.2⟩
        · simpa using (h.1.2.1 m).mpr hj
        · simpa using h.1.2.2 v hj
    · have hrest : .ret op ok ∈ rest := by
        rcases List.mem_cons.mp hmem with rfl | hmem
        · exact absurd ⟨op, ok, rfl⟩ hi
        · exact hmem
      have hunwind : Threads.unwind (i :: rest) = Threads.unwind rest := by
        cases i <;> first | rfl | exact absurd ⟨_, _, rfl⟩ hi
      have hafter : i.after ≠ none := fun hafter => by
        rw [h.eq_nil hafter] at hrest
        simp at hrest
      rw [hunwind]
      exact ih (h.tail hafter).1 ⟨op, ok, hrest⟩

/-- The code after an exception. -/
theorem throwCode (h : WellFormed (i :: rest)) (hi : i.Throws) :
    WellFormed (throwCode rest) ∧ modeOf (Threads.throwCode rest) = .guarded := by
  have hafter : i.after ≠ none := by
    cases i <;> first | exact hi.elim | simp [Instr.after]
  obtain ⟨hwf, hmode⟩ := (h.tail hafter).1.unwind (h.returns hi)
  refine ⟨⟨⟨rfl, by simp, by simp⟩, fun h => h.elim, ?_⟩, rfl⟩
  exact hwf.cons_enabled hmode rfl id

/-- Code that begins with interrupts enabled may be interrupted. -/
theorem timerCode (h : WellFormed code) (hmode : modeOf code = .enabled) :
    WellFormed (timerCode ++ code) := by
  have hlast : WellFormed (.interruptEnable :: code) := h.cons_enabled hmode rfl id
  exact ⟨⟨rfl, by simp, by simp⟩, fun h => h.elim, ⟨rfl, by simp, by simp⟩, fun h => h.elim,
    ⟨rfl, by simp, by simp⟩, fun h => h.elim, ⟨rfl, by simp, by simp⟩, fun h => h.elim, hlast⟩

/-- Code that is not executed with the guard held does not set the owner of a mutex first. -/
theorem head?_ne_own (hmode : modeOf code ≠ .guarded) (m : MutexId) :
    code.head? ≠ some (.own m) := by
  rcases code with - | ⟨i, rest⟩
  · simp
  · rw [List.head?_cons, ne_eq, Option.some.injEq]
    rintro rfl
    exact hmode rfl

end WellFormed

theorem modeOf_callCode (op : Op) : modeOf op.callCode = .enabled := by
  cases op <;> rfl

/-- A call of a function of the library. -/
theorem wellFormed_callCode (op : Op) : WellFormed op.callCode := by
  cases op <;>
    simp [Op.callCode, Op.code, lockCode, guarded, WellFormed, Follows, Instr.after, Instr.before,
      Instr.Throws, Returns]

end OsFromScratch.Threads
