import OsFromScratch.Threads.Mutexes

/-!
# The numbers of the contexts come round

A call of the constructor of `thread` that fails after the context has been allocated takes a number
and changes nothing else, so that there are runs that reach any number.

## Main definitions

* `failedThread` — a call of the constructor that fails.
* `firstThread` — a thread runs its own code, and nothing has happened yet.

## Main results

* `AtRest.failedThread` — the call takes a number and changes nothing else.
* `exists_threadRun_of_number` — a run that comes from any number on.
-/

namespace OsFromScratch.Threads

open Function

variable {s s' : State}

/-- CPU 0 executes the code of a thread, and no CPU holds the guard. -/
structure AtRest (s : State) : Prop where
  cpu : 0 ∈ s.cpuVec
  suspended : s.suspended 0 = false
  interrupts : s.interrupts 0 = true
  guard : s.guard = none
  current : s.current 0 = [.user]

/-- A call of the constructor of `thread` in which the allocation of the `shared_thread_info`
fails. -/
def failedThread : List Action :=
  [.call 0 .thread, .run 0 .ok, .run 0 .ok, .run 0 .noInfo, .run 0 .ok, .run 0 .ok, .run 0 .ok]

/-- The state while CPU 0 executes the library. -/
def State.during (s : State) (code : List Instr) (interrupts : Bool)
    (guard : Option CpuId) (maxId : ℕ) :
    State :=
  { s with
    code := update s.code (s.stack 0) code
    interrupts := update s.interrupts 0 interrupts
    guard := guard
    maxId := maxId }

theorem current_during (s : State) (code : List Instr) (b : Bool) (g : Option CpuId) (n : ℕ) :
    (s.during code b g n).current 0 = code :=
  update_self _ _ _

theorem setCurrent_during (s : State) (code code' : List Instr) (b : Bool)
    (g : Option CpuId) (n : ℕ) :
    (s.during code b g n).setCurrent 0 code' = s.during code' b g n := by
  simp only [State.during, State.setCurrent, update_idem]

/-- CPU 0 may execute an instruction, which leads to another state. -/
def Executes (s : State) (alloc : Alloc) (evs : List Event) (s' : State) : Prop :=
  Allowed s (.run 0 alloc) ∧ step (.run 0 alloc) s = some (evs, s')

/-- An instruction of CPU 0. -/
theorem AtRest.executes {code : List Instr} {b : Bool} {g : Option CpuId} {n : ℕ} {alloc : Alloc}
    {i : Instr} {evs : List Event} (h : AtRest s) (hi : i ≠ .user)
    (hexec : exec alloc 0 i (s.during code b g n) = some (evs, s')) :
    Executes (s.during (i :: code) b g n) alloc evs s' := by
  refine ⟨⟨h.cpu, h.suspended, ?_⟩, ?_⟩
  · rw [current_during]
    exact fun heq => hi (List.cons.inj heq).1
  · simp only [step, current_during, setCurrent_during]
    exact hexec

/-- The call takes a number and changes nothing else. -/
theorem AtRest.failedThread (h : AtRest s) :
    Runs step (fun _ => Allowed) s failedThread
      [[.act (s.stack 0) (.called .thread)], [], [], [.act (s.stack 0) .badAlloc], [], [],
        [.act (s.stack 0) (.returned .thread false)]] { s with maxId := s.maxId + 1 } := by
  have hcode : update s.code (s.stack 0) [.user] = s.code := by
    rw [← h.current, State.current, update_eq_self]
  have hinterrupts : update s.interrupts 0 true = s.interrupts := by
    rw [← h.interrupts, update_eq_self]
  have hbegin : s.setCurrent 0 (Op.callCode .thread) =
      s.during (Op.callCode .thread) true none s.maxId := by
    simp only [State.during, State.setCurrent, hinterrupts, ← h.guard]
  have hend : s.during [.user] true none (s.maxId + 1) = { s with maxId := s.maxId + 1 } := by
    simp only [State.during, hcode, hinterrupts, ← h.guard]
  have hcall : step (.call 0 .thread) s = some ([.act (s.stack 0) (.called .thread)],
      s.during (Op.callCode .thread) true none s.maxId) :=
    congrArg (fun s' => some ([Event.act (s.stack 0) (.called .thread)], s')) hbegin
  have hdisable (code : List Instr) (n : ℕ) :
      Executes (s.during (.interruptDisable :: code) true none n)
      .ok [] (s.during code false none n) :=
    h.executes (by simp) (by simp only [exec, State.during, update_idem])
  have hlock (code : List Instr) (n : ℕ) : Executes (s.during (.guardLock :: code) false none n)
      .ok [] (s.during code false (some 0) n) :=
    h.executes (by simp) rfl
  have hthrow (code : List Instr) (n : ℕ) :
      Executes (s.during (.constructThread :: code) false (some 0) n) .noInfo
        [.act (s.stack 0) .badAlloc] (s.during (throwCode code) false (some 0) (n + 1)) := by
    refine h.executes (by simp) ?_
    simp only [exec, State.during, State.setCurrent, State.current, update_idem, update_self]
  have hunlock (code : List Instr) (n : ℕ) : Executes
      (s.during (.guardUnlock :: code) false (some 0) n)
      .ok [] (s.during code false none n) :=
    h.executes (by simp) rfl
  have henable (code : List Instr) (n : ℕ) : Executes
      (s.during (.interruptEnable :: code) false none n)
      .ok [] (s.during code true none n) :=
    h.executes (by simp) (by simp only [exec, State.during, update_idem])
  have hret (n : ℕ) : Executes (s.during [.ret .thread false, .user] true none n) .ok
      [.act (s.stack 0) (.returned .thread false)] (s.during [.user] true none n) :=
    h.executes (by simp) rfl
  rw [← hend]
  exact .cons ⟨h.cpu, h.current, trivial⟩ hcall <| .cons (hdisable _ _).1 (hdisable _ _).2 <|
    .cons (hlock _ _).1 (hlock _ _).2 <| .cons (hthrow _ _).1 (hthrow _ _).2 <|
    .cons (hunlock _ _).1 (hunlock _ _).2 <| .cons (henable _ _).1 (henable _ _).2 <|
    .cons (hret _).1 (hret _).2 .nil

/-- Any number of such calls. -/
theorem AtRest.failedThreads (h : AtRest s) (n : ℕ) : ∃ actions events,
    Runs step (fun _ => Allowed) s actions events { s with maxId := s.maxId + n } ∧
      ∀ m, ∀ e ∈ events.flatten, ¬ Event.About m e := by
  induction n with
  | zero => exact ⟨[], [], .nil, by simp⟩
  | succ n ih =>
    obtain ⟨actions, events, hruns, hevents⟩ := ih
    have hrest : AtRest { s with maxId := s.maxId + n } := { h with }
    refine ⟨_, _, hruns.append hrest.failedThread, fun m e he => ?_⟩
    rw [List.flatten_append, List.mem_append] at he
    refine he.elim (hevents m e) fun he => ?_
    simp only [List.flatten_cons, List.flatten_nil, List.mem_append, List.mem_singleton,
      List.not_mem_nil, or_false, false_or] at he
    rcases he with rfl | rfl | rfl <;> exact id

/-! ### Runs that begin with any number -/

/-- CPU 0 starts a thread. -/
def firstThread : List Action :=
  [.boot 0 true, .run 0 .ok, .run 0 .ok]

/-- The state in which the first thread begins to execute its own code. -/
def State.first : State :=
  ((runAll step (fun s a => decide (Allowed s a)) firstThread State.init).map (·.2)).getD State.init

theorem first_atRest : AtRest State.first where
  cpu := by decide +kernel
  suspended := by decide +kernel
  interrupts := by decide +kernel
  guard := by decide +kernel
  current := by decide +kernel

theorem threadRun_first : ThreadRun firstThread [[.created 2], [], []] State.first := by
  have hevents : (runAll step (fun s a => decide (Allowed s a)) firstThread State.init).map (·.1) =
      some [[.created 2], [], []] := by
    decide +kernel
  obtain ⟨⟨events, s⟩, hrun, rfl⟩ := Option.map_eq_some_iff.mp hevents
  have hfirst : State.first = s := by
    rw [State.first, hrun, Option.map_some, Option.getD_some]
  rw [hfirst]
  exact Runs.of_runAll (fun _ _ _ hallowed => of_decide_eq_true hallowed) hrun

/-- A run that begins when any number of contexts have been constructed, with what has been tested
at its end. -/
theorem exists_threadRun_of_check (n : ℕ) (actions : List Action)
    (check : List (List Event) → State → Bool)
    (h : ((runAll step (fun s a => decide (Allowed s a)) actions
      { State.first with maxId := 3 + n }).any fun r => check r.1 r.2) = true) :
    ∃ before past events s, ThreadRun (before ++ actions) (past ++ events) s ∧
      (∀ m, ∀ e ∈ past.flatten, ¬ Event.About m e) ∧ check events s = true := by
  obtain ⟨⟨events, s⟩, hrun, hcheck⟩ := (Option.any_eq_true _ _).mp h
  obtain ⟨before, past, hbefore, hpast⟩ := first_atRest.failedThreads n
  have hmax : State.first.maxId = 3 := by decide +kernel
  rw [hmax] at hbefore
  have hruns : Runs step (fun _ => Allowed) { State.first with maxId := 3 + n } actions events s :=
    Runs.of_runAll (fun _ _ _ hallowed => of_decide_eq_true hallowed) hrun
  refine ⟨_, _, _, _, (Runs.append threadRun_first hbefore).append hruns, fun m e he => ?_, hcheck⟩
  rw [List.flatten_append, List.mem_append] at he
  refine he.elim (fun he => ?_) (hpast m e)
  have hcreated : e = .created 2 := by simpa using he
  rw [hcreated]
  exact id

end OsFromScratch.Threads
