import OsFromScratch.Lib.Runs
import OsFromScratch.Pager.Machine

/-!
# Runs of the pager

The pager starts in a state that satisfies the invariant, and every call preserves it. Here are the
consequences for runs in which the infrastructure keeps its promises, and no more is assumed: file
blocks may become accessible, and `vm_fault` may be called for any address.

## Main definitions

* `Promise` — the calls that the infrastructure may make.
* `PagerRun` — the runs of the pager.
* `blankMachine` — a machine for examples.

## Main results

* `vmInit_wellFormed`, `PagerRun.wellFormed` — the invariant holds in every state of a run.
-/

namespace OsFromScratch.Pager

open Function

variable {m n : ℕ} {s s' : State}

/-- The state after `vm_init` satisfies the invariant. -/
theorem vmInit_wellFormed (hm : 2 ≤ m) (n : ℕ) (physmem swapFile : ℕ → Contents)
    (files : Bytes → ℕ → Contents) (accessible : Bytes → ℕ → Bool) (garbage : ℕ → Contents) :
    WellFormed m n (vmInit m n physmem swapFile files accessible garbage) := by
  let s := vmInit m n physmem swapFile files accessible garbage
  have hnew (id : PageId) : s.pages id = .new := rfl
  have hlookup (key : Bytes × ℕ) : s.filenameBlockToVpage.lookup key = none := rfl
  have hblocks : Divided s.blockOwner (Set.Iio n) := by
    refine Divided.of_single (p := none) List.nodup_range (fun q hq => ?_) fun x => ?_
    · obtain ⟨id, rfl⟩ := Option.ne_none_iff_exists'.mp hq
      rfl
    · simp [State.blockOwner, s, vmInit]
  have hframes : Divided s.frameOwner (Set.Ico 1 m) := by
    refine Divided.of_single (p := none) List.nodup_range' (fun q hq => ?_) fun x => ?_
    · obtain ⟨id, rfl⟩ := Option.ne_none_iff_exists'.mp hq
      rfl
    · simp only [State.frameOwner, s, vmInit, Set.mem_Ico, List.mem_range'_1]
      omega
  have hmappings : Mappings n s.entryPage s := by
    refine ⟨fun id ptr => ?_, fun _ => List.nodup_nil, fun id h => absurd h Bool.false_ne_true,
      fun id _ h => absurd h (Nat.not_lt_zero id), fun _ _ => rfl, fun filename block id h => ?_,
      hblocks⟩
    · simp [VirtualPage.new, State.entryPage, State.mapped, s, vmInit]
    · rw [hlookup] at h
      simp at h
  have hsize : s.clockQueue.length + s.nextFreePPN.length + 1 = m := by
    simp only [s, vmInit, List.length_nil, List.length_range']
    omega
  have hall : Frames m s := by
    refine ⟨fun _ => rfl, fun id page h => ?_, List.nodup_nil, fun id => ?_, hframes, hsize, rfl,
      fun _ => by simp [s, vmInit], fun id h => absurd h Bool.false_ne_true⟩
    · rw [hnew] at h
      simp [VirtualPage.new] at h
    · simp [s, vmInit, VirtualPage.new, VirtualPage.frame]
  have hspaces : Spaces s := by
    refine ⟨fun pid h => ?_, fun _ _ => rfl, fun pid va id h => ?_, fun pid h => ?_⟩
    · simp [s, vmInit] at h
    · simp [s, vmInit, State.mapped] at h
    · simp [s, vmInit] at h
  refine ⟨⟨hmappings, hall, hspaces, fun id h => ?_⟩,
    ⟨fun id _ ptr h => ?_, fun _ _ _ => ⟨rfl, rfl⟩⟩⟩
  · simp [vmInit] at h
  · rw [hnew] at h
    simp [VirtualPage.new] at h

/-- What the infrastructure may do: it keeps its promises. -/
def Promise (_ : List Call) (s : State) (call : Call) : Prop :=
  call.Promised s

instance (s : State) : Decidable s.Running :=
  inferInstanceAs (Decidable (_ ∧ _))

/-- The promises of the infrastructure are kept; a change of the file blocks that can be accessed is
left out. -/
def promised (s : State) : Call → Bool
  | .create parent child order => child ∉ s.processTable ∧ order.Perm (s.mappings parent)
  | .switch pid => pid ∈ s.processTable
  | .map _ _ => s.Running
  | .destroy order => s.Running ∧ order.Perm (s.mappings s.currentPid)
  | .fault _ _ => s.Running
  | .load addr => s.Running ∧ InArena addr
  | .store addr _ => s.Running ∧ InArena addr
  | .setAccessible _ => false

theorem Call.promised_of {call : Call} (h : promised s call = true) : call.Promised s := by
  cases call with
  | setAccessible => exact absurd h Bool.false_ne_true
  | _ => simpa [promised, Call.Promised] using h

/-- A machine with `m` physical pages and `n` blocks in the swap file, whose memory and files are
zero. -/
def blankMachine (m n : ℕ) (accessible : Bytes → ℕ → Bool) : State :=
  vmInit m n (fun _ _ => 0) (fun _ _ => 0) (fun _ _ _ => 0) accessible fun _ _ => 0

/-- The runs of the pager. -/
abbrev PagerRun (Allowed : List Call → State → Call → Prop) :
    State → List Call → List Result → State → Prop :=
  Runs exec Allowed

/-- A run of the pager that has been computed. -/
theorem PagerRun.of_runAll {calls : List Call} {results : List Result}
    (h : runAll exec promised calls s = some (results, s')) :
    PagerRun Promise s calls results s' :=
  Runs.of_runAll (fun _ _ _ hcall => Call.promised_of hcall) h

/-- The invariant holds in every state of a run. -/
theorem PagerRun.wellFormed {Allowed : List Call → State → Call → Prop} {calls : List Call}
    {results : List Result} (hm : 2 ≤ m)
    (hallowed : ∀ calls s call, Allowed calls s call → call.Promised s)
    (hrun : PagerRun Allowed s calls results s') (h : WellFormed m n s) : WellFormed m n s' := by
  refine hrun.invariant (fun _ _ t => WellFormed m n t) h fun ht hcall hexec => ?_
  exact (Effect.of_exec ht hm (hallowed _ _ _ hcall) False.elim False.elim hexec).1

end OsFromScratch.Pager
