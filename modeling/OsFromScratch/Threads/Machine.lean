import Mathlib.Logic.Function.Basic
import OsFromScratch.Lib.Runs
import OsFromScratch.Threads.Code

/-!
# The thread library

The CPUs, the contexts and the queues of the thread library, and the steps of the machine that runs
it. The members of the CPU objects, of the mutexes and of the `shared_thread_info` objects are
functions of the object. A function of the library has no value where one of its assertions fails,
or where it uses a null pointer or an object that has been freed.

Between two instructions of a CPU the other CPUs may execute any number of theirs, and a timer
interrupt may be delivered to a CPU whenever its interrupts are enabled. What a function does while
it holds the guard is one instruction up to the next change of context: nobody else touches the data
that the guard protects.

## Main definitions

* `State` — the CPUs, the contexts and the queues.
* `swapSelfToQueue`, `addToReadyQueue`, `checkReadyAndWake` — the scheduling routines.
* `constructThread`, `exitThread`, `watchSuspend`, `bootCpu` — how a thread begins and ends, the
  goldfish, and the constructor of a CPU.
* `exec` — the instructions.
* `Action`, `step`, `Allowed` — the steps of the machine.
* `Event`, `ThreadRun` — what happens in a run.
-/

namespace OsFromScratch.Threads

open Function

/-! ### The state -/

/-- The deques of contexts: `cpu::ready_queue`, the waiting queues of the mutexes and of the
condition variables, and the join queues of the threads. -/
inductive Queue
  | ready
  | mutex (m : MutexId)
  | cv (v : CvId)
  | join (i : ContextId)
deriving DecidableEq

/-- The state of the machine. The `shared_thread_info` of a thread is known by the context of the
thread. `handle` and `localInfo` are the references to it from the thread object and from the thread
that runs. -/
structure State where
  /-- The CPU that has set `cpu::guard`. -/
  guard : Option CpuId
  cpuVec : List CpuId
  /-- Interrupts are enabled on the CPU. -/
  interrupts : CpuId → Bool
  /-- The CPU is suspended until it receives an interrupt from another CPU. -/
  suspended : CpuId → Bool
  /-- An interrupt has been sent to the CPU and not been delivered yet. -/
  ipi : CpuId → Bool
  /-- The context on whose stack the CPU is executing. -/
  stack : CpuId → ContextId
  isIdle : CpuId → Bool
  myGoldfish : CpuId → ContextId
  lastContext : CpuId → Option ContextId
  toKill : CpuId → Option ContextId
  queue : Queue → List ContextId
  /-- What a context still has to execute. -/
  code : ContextId → List Instr
  /-- The number of the next `managed_uc`. -/
  maxId : ℕ
  owner : MutexId → UInt32
  free : MutexId → Bool
  alive : ContextId → Bool
  handle : ContextId → Bool
  localInfo : ContextId → Bool

/-- The machine before any CPU has been started. -/
def State.init : State where
  guard := none
  cpuVec := []
  interrupts _ := false
  suspended _ := false
  ipi _ := false
  stack _ := 0
  isIdle _ := false
  myGoldfish _ := 0
  lastContext _ := none
  toKill _ := none
  queue _ := []
  code _ := []
  maxId := 1
  owner _ := 0
  free _ := true
  alive _ := false
  handle _ := false
  localInfo _ := false

/-- `managed_uc::id`, which is taken from the counter `max_id` of 32 bits. -/
def idOf (t : ContextId) : UInt32 :=
  UInt32.ofNat t

namespace State

variable (s : State) (c : CpuId)

/-- The code that the CPU has to execute. -/
def current : List Instr :=
  s.code (s.stack c)

/-- The CPU has other code to execute. -/
def setCurrent (code : List Instr) : State :=
  { s with code := update s.code (s.stack c) code }

/-- The contents of a deque. -/
def setQueue (q : Queue) (ts : List ContextId) : State :=
  { s with queue := update s.queue q ts }

/-- The CPU runs a thread. -/
def setLastContext (t : Option ContextId) : State :=
  { s with lastContext := update s.lastContext c t }

end State

/-! ### Contexts -/

/-- `setcontext`. -/
def setcontext (c : CpuId) (load : ContextId) (s : State) : State :=
  { s with stack := update s.stack c load }

/-- `swapcontext`: what the CPU would execute next is saved. -/
def swapcontext (c : CpuId) (save load : ContextId) (s : State) : State :=
  setcontext c load { s with code := update s.code save (s.current c) }

/-! ### Scheduling -/

/-- The loop of `cpu::check_ready_and_wake`. A thread that is ready has a stack of 262144 bytes, so
that their number does not overflow the `int` that counts them. -/
def wakeIdle : ℕ → List CpuId → State → State
  | 0, _, s => s
  | _ + 1, [], s => s
  | unhandled + 1, c :: cs, s =>
    if s.isIdle c then
      wakeIdle unhandled cs { s with isIdle := update s.isIdle c false, ipi := update s.ipi c true }
    else
      wakeIdle (unhandled + 1) cs s

/-- `assert_interrupts_disabled()` and `assert(cpu::guard.load())`. -/
def State.locked (s : State) (c : CpuId) : Bool :=
  !s.interrupts c && s.guard.isSome

/-- `cpu::check_ready_and_wake`. -/
def checkReadyAndWake (c : CpuId) (s : State) : Option State :=
  if s.locked c then some (wakeIdle (s.queue .ready).length s.cpuVec s) else none

/-- `add_to_ready_queue`. -/
def addToReadyQueue (c : CpuId) (contexts : List ContextId) (s : State) : Option State :=
  checkReadyAndWake c (s.setQueue .ready (s.queue .ready ++ contexts))

/-- `swap_self_to_queue`. -/
def swapSelfToQueue (queue : Queue) (c : CpuId) (s : State) : Option State := do
  if s.locked c then
    let self ← s.lastContext c
    let s := (s.setQueue queue (s.queue queue ++ [self])).setLastContext c none
    match s.queue .ready with
    | next :: rest =>
      let s := (s.setLastContext c (some next)).setQueue .ready rest
      let back ← (s.queue queue).getLast?
      some (swapcontext c back next s)
    | [] =>
      let back ← (s.queue queue).getLast?
      some (swapcontext c back (s.myGoldfish c) s)
  else
    none

/-! ### Events -/

/-- What a thread does in a call of the library, or what is done to it there. -/
inductive Act
  | called (op : Op)
  | returned (op : Op) (ok : Bool)
  /-- The guarded section of `lock` begins. -/
  | requested (m : MutexId)
  /-- The guarded section of `lock` ends. -/
  | acquired (m : MutexId)
  | released (m : MutexId)
  /-- `release_lock` throws. -/
  | refused (m : MutexId)
  /-- The thread enters the queue of a condition variable. -/
  | queued (v : CvId)
  /-- The thread is removed from the queue of a condition variable. -/
  | woken (v : CvId)
  | signalled (v : CvId)
  | broadcasted (v : CvId)
  /-- The thread enters the join queue of another one. -/
  | joinQueued (i : ContextId)
  /-- The thread finds that another one has finished, or is removed from its join queue. -/
  | joined (i : ContextId)
  /-- A new thread is ready. -/
  | constructed
  /-- The constructor of a thread throws. -/
  | badAlloc
deriving DecidableEq

/-- What happens in a run. -/
inductive Event
  | created (t : ContextId)
  | act (t : ContextId) (a : Act)
  /-- The function of a thread returns. -/
  | functionReturned (t : ContextId)
  /-- The thread clears `alive`. -/
  | exited (t : ContextId)
  /-- A context is destroyed. -/
  | destroyed (t : ContextId)
deriving DecidableEq

/-! ### Threads -/

/-- What the allocations of `thread::construct_thread` do. An exception after the context has been
allocated destroys it, wherever it is thrown. -/
inductive Alloc
  | ok
  | noContext
  | noInfo
deriving DecidableEq

/-- A new context has been constructed. -/
def newContext (code : List Instr) (s : State) : State :=
  { s with maxId := s.maxId + 1, code := update s.code s.maxId code }

/-- `thread::construct_thread` when the allocations succeed. -/
def constructThread (c : CpuId) (s : State) : Option State :=
  let t := s.maxId
  let s := newContext startCode s
  addToReadyQueue c [t]
    { s with
      alive := update s.alive t true
      handle := update s.handle t true
      localInfo := update s.localInfo t true
      queue := update s.queue (.join t) [] }

/-- A reference to a `shared_thread_info` is gone. The last one destroys the contexts in the join
queue. -/
def dropInfo (i : ContextId) (s : State) : List Event × State :=
  if s.handle i || s.localInfo i then
    ([], s)
  else
    ((s.queue (.join i)).map .destroyed, s.setQueue (.join i) [])

/-- The end of `wrapped_function`: the CPU is set to the beginning of the ready queue, or goes to
sleep. -/
def setNext (c : CpuId) (s : State) : State :=
  match s.queue .ready with
  | next :: rest => setcontext c next ((s.setLastContext c (some next)).setQueue .ready rest)
  | [] => setcontext c (s.myGoldfish c) s

/-- `wrapped_function` after `func` has returned. The `shared_thread_info` is the one of the thread
on whose stack the function executes. -/
def exitThread (c : CpuId) (s : State) : Option (List Event × State) := do
  let t := s.stack c
  if s.localInfo t then
    let joiners := s.queue (.join t)
    let s := { s with alive := update s.alive t false }.setQueue (.join t) []
    let s ← addToReadyQueue c joiners s
    let dropped := dropInfo t { s with localInfo := update s.localInfo t false }
    let s := dropped.2
    let killed := (s.toKill c).toList
    let s := { s with
      toKill := update s.toKill c (s.lastContext c), lastContext := update s.lastContext c none }
    some (.exited t :: joiners.map (.act · (.joined t)) ++ dropped.1 ++ killed.map .destroyed,
      setNext c s)
  else
    none

/-- One round of the loop of `watch_suspend`. -/
def watchSuspend (c : CpuId) (s : State) : Option (List Event × State) :=
  if s.locked c then
    let killed := (s.toKill c).toList.map .destroyed
    let s := { s with toKill := update s.toKill c none }
    if s.lastContext c = none then
      match s.queue .ready with
      | next :: rest =>
        let s := ((s.setLastContext c (some next)).setQueue .ready rest).setCurrent c
          [.watchSuspend]
        some (killed, swapcontext c (s.myGoldfish c) next s)
      | [] => some (killed, { s with isIdle := update s.isIdle c true }.setCurrent c idleCode)
    else
      none
  else
    none

/-- `cpu::cpu`, which begins with a loop that waits for the guard. The CPU starts with interrupts
disabled. -/
def bootCpu (c : CpuId) (func : Bool) (s : State) : Option (List Event × State) :=
  if s.guard.isSome then
    some ([], s)
  else
    let goldfish := s.maxId
    let s := newContext [.watchSuspend] s
    let s := { s with
      guard := some c
      myGoldfish := update s.myGoldfish c goldfish
      toKill := update s.toKill c none
      lastContext := update s.lastContext c none
      isIdle := update s.isIdle c false
      interrupts := update s.interrupts c false
      suspended := update s.suspended c false
      ipi := update s.ipi c false
      cpuVec := s.cpuVec ++ [c] }
    if func then do
      let t := s.maxId
      let s ← constructThread c s
      let s := { s with isIdle := update s.isIdle c false }
      match s.queue .ready with
      | next :: rest =>
        some ([.created t],
          setcontext c next ((s.setQueue .ready rest).setLastContext c (some next)))
      | [] => none
    else
      some ([], setcontext c goldfish { s with isIdle := update s.isIdle c true })

/-! ### Instructions -/

/-- `mutex::release_lock`, with the code that it returns to. -/
def releaseLock (m : MutexId) (c : CpuId) (s : State) : Option (List Event × State) := do
  let t := s.stack c
  if s.free m then
    some ([.act t (.refused m)], s.setCurrent c (throwCode (s.current c)))
  else
    let self ← s.lastContext c
    if idOf self ≠ s.owner m then
      some ([.act t (.refused m)], s.setCurrent c (throwCode (s.current c)))
    else
      let s := { s with free := update s.free m true, owner := update s.owner m 0 }
      match s.queue (.mutex m) with
      | [] => some ([.act t (.released m)], s)
      | next :: rest =>
        let s := s.setQueue (.mutex m) rest
        let s ← addToReadyQueue c [next] { s with free := update s.free m false }
        some ([.act t (.released m)], s)

/-- An instruction of a CPU, in the state where the code of the CPU goes on after it. -/
def exec (alloc : Alloc) (c : CpuId) (i : Instr) (s : State) : Option (List Event × State) :=
  let t := s.stack c
  match i with
  | .interruptDisable => some ([], { s with interrupts := update s.interrupts c false })
  | .interruptEnable => some ([], { s with interrupts := update s.interrupts c true })
  | .interruptEnableSuspend =>
    some ([], { s with
      interrupts := update s.interrupts c true, suspended := update s.suspended c true })
  | .guardLock =>
    if s.guard.isSome then
      some ([], s.setCurrent c (.guardLock :: s.current c))
    else
      some ([], { s with guard := some c })
  | .guardUnlock => some ([], { s with guard := none })
  | .acquire m =>
    if s.free m then
      some ([.act t (.requested m)], { s with free := update s.free m false })
    else
      (swapSelfToQueue (.mutex m) c s).map ([.act t (.requested m)], ·)
  | .own m => do
    let self ← s.lastContext c
    some ([.act self (.acquired m)], { s with owner := update s.owner m (idOf self) })
  | .releaseLock m => releaseLock m c s
  | .sleep v => (swapSelfToQueue (.cv v) c s).map ([.act t (.queued v)], ·)
  | .signal v =>
    match s.queue (.cv v) with
    | [] => some ([.act t (.signalled v)], s)
    | next :: rest =>
      (addToReadyQueue c [next] (s.setQueue (.cv v) rest)).map
        ([.act t (.signalled v), .act next (.woken v)], ·)
  | .broadcast v =>
    (addToReadyQueue c (s.queue (.cv v)) (s.setQueue (.cv v) [])).map
      (.act t (.broadcasted v) :: (s.queue (.cv v)).map (.act · (.woken v)), ·)
  | .constructThread =>
    match alloc with
    | .ok => (constructThread c s).map ([.created s.maxId, .act t .constructed], ·)
    | .noContext => some ([.act t .badAlloc], s.setCurrent c (throwCode (s.current c)))
    | .noInfo =>
      some ([.act t .badAlloc],
        { s with maxId := s.maxId + 1 }.setCurrent c (throwCode (s.current c)))
  | .join i =>
    if s.handle i || s.localInfo i then
      if s.alive i then
        (swapSelfToQueue (.join i) c s).map ([.act t (.joinQueued i)], ·)
      else
        some ([.act t (.joined i)], s)
    else
      none
  | .yield =>
    if s.queue .ready ≠ [] then (swapSelfToQueue .ready c s).map ([], ·) else some ([], s)
  | .timer =>
    if !s.isIdle c && (s.lastContext c).isSome && s.queue .ready ≠ [] then
      (swapSelfToQueue .ready c s).map ([], ·)
    else
      some ([], s)
  | .exit => exitThread c s
  | .watchSuspend => watchSuspend c s
  | .ret op ok => some ([.act t (.returned op ok)], s)
  | .user => none

/-! ### Steps -/

/-- The steps of the machine. -/
inductive Action
  /-- The infrastructure calls the constructor of a CPU, with a function to run or without. -/
  | boot (c : CpuId) (func : Bool)
  /-- A CPU executes an instruction of the library. -/
  | run (c : CpuId) (alloc : Alloc)
  /-- The thread that a CPU runs calls a function of the library. -/
  | call (c : CpuId) (op : Op)
  /-- The function of the thread that a CPU runs returns. -/
  | finish (c : CpuId)
  /-- A timer interrupt is delivered to a CPU. -/
  | timer (c : CpuId)
  /-- An interrupt from another CPU is delivered to a CPU. -/
  | ipi (c : CpuId)
  /-- A thread object is destroyed. -/
  | dropThread (i : ContextId)
deriving DecidableEq

/-- A step of the machine. -/
def step (a : Action) (s : State) : Option (List Event × State) :=
  match a with
  | .boot c func => bootCpu c func s
  | .run c alloc =>
    match s.current c with
    | [] => none
    | i :: rest => exec alloc c i (s.setCurrent c rest)
  | .call c op => some ([.act (s.stack c) (.called op)], s.setCurrent c op.callCode)
  | .finish c => some ([.functionReturned (s.stack c)], s.setCurrent c exitCode)
  | .timer c => some ([], s.setCurrent c (timerCode ++ s.current c))
  | .ipi c =>
    some ([], { s with ipi := update s.ipi c false, suspended := update s.suspended c false })
  | .dropThread i => some (dropInfo i { s with handle := update s.handle i false })

/-- The steps that may be taken. A CPU is constructed once. A suspended CPU executes nothing, and
ignores timer interrupts. A thread joins a thread object that exists, and no thread object is
destroyed before the calls of `join` on it have read it. -/
def Allowed (s : State) : Action → Prop
  | .boot c _ => c ∉ s.cpuVec
  | .run c _ => c ∈ s.cpuVec ∧ s.suspended c = false ∧ s.current c ≠ [.user]
  | .call c op =>
    c ∈ s.cpuVec ∧ s.current c = [.user] ∧ match op with
      | .join i => s.handle i = true
      | _ => True
  | .finish c => c ∈ s.cpuVec ∧ s.current c = [.user]
  | .timer c => c ∈ s.cpuVec ∧ s.suspended c = false ∧ s.interrupts c = true
  | .ipi c => c ∈ s.cpuVec ∧ s.interrupts c = true ∧ s.ipi c = true
  | .dropThread i => s.handle i = true ∧ ∀ t < s.maxId, .join i ∉ s.code t

instance (s : State) (a : Action) : Decidable (Allowed s a) :=
  match a with
  | .boot _ _ => inferInstanceAs (Decidable (¬ _))
  | .run _ _ => inferInstanceAs (Decidable (_ ∧ _))
  | .call _ (.join _) => inferInstanceAs (Decidable (_ ∧ _ ∧ _))
  | .call _ (.lock _) => inferInstanceAs (Decidable (_ ∧ _ ∧ True))
  | .call _ (.unlock _) => inferInstanceAs (Decidable (_ ∧ _ ∧ True))
  | .call _ (.wait _ _) => inferInstanceAs (Decidable (_ ∧ _ ∧ True))
  | .call _ (.signal _) => inferInstanceAs (Decidable (_ ∧ _ ∧ True))
  | .call _ (.broadcast _) => inferInstanceAs (Decidable (_ ∧ _ ∧ True))
  | .call _ .thread => inferInstanceAs (Decidable (_ ∧ _ ∧ True))
  | .call _ .yield => inferInstanceAs (Decidable (_ ∧ _ ∧ True))
  | .finish _ => inferInstanceAs (Decidable (_ ∧ _))
  | .timer _ => inferInstanceAs (Decidable (_ ∧ _ ∧ _))
  | .ipi _ => inferInstanceAs (Decidable (_ ∧ _ ∧ _))
  | .dropThread _ => inferInstanceAs (Decidable (_ ∧ _))

/-- The steps `actions` lead from the machine before the start to `s`, with the events of every
step. -/
def ThreadRun (actions : List Action) (events : List (List Event)) (s : State) : Prop :=
  Runs step (fun _ => Allowed) State.init actions events s

end OsFromScratch.Threads
