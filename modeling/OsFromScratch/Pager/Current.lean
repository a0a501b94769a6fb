import OsFromScratch.Pager.Runs

/-!
# The current process

The page table base register follows `vm_switch`. The first `vm_create` sets it as well, because
there is no process before it; the test that is meant to recognize the first call asks whether the
parent is managed, so that any later call for a parent that is not managed makes its child the
current process.

## Main definitions

* `latest` — the process that the last `vm_switch` has named, or the first one that was created.
* `Call.Scheduled` — what the infrastructure guarantees, in terms of the calls that it has made.
* `Call.Fathered` — the parent of a process is managed, except for the first one.

## Main results

* `pagerRun_current` — the page table base register follows `vm_switch` in a run of such calls.
* `pagerRun_current_stolen` — it does not otherwise.
-/

namespace OsFromScratch.Pager

open Function

variable {m n : ℕ} {s s' : State} {strict keep : Prop}

/-- The effect of a call on the process that is meant to run; the second component says that it has
not been destroyed. -/
def latestStep : Option (Pid × Bool) → Call → Option (Pid × Bool)
  | _, .switch pid => some (pid, true)
  | none, .create _ child _ => some (child, true)
  | some (pid, _), .destroy _ => some (pid, false)
  | current, _ => current

/-- The process that the last `vm_switch` has named, or, before any `vm_switch`, the first one that
was created. -/
def latest (calls : List Call) : Option (Pid × Bool) :=
  calls.foldl latestStep none

theorem latest_snoc (calls : List Call) (call : Call) :
    latest (calls ++ [call]) = latestStep (latest calls) call := by
  rw [latest, List.foldl_append]
  rfl

/-- What the infrastructure guarantees, in terms of the calls that it has made: the calls for the
running process are made while there is one. -/
def Call.Scheduled (calls : List Call) (s : State) : Call → Prop
  | .create parent child order => child ∉ s.processTable ∧ order.Perm (s.mappings parent)
  | .switch pid => pid ∈ s.processTable
  | .map _ _ => ∃ pid, latest calls = some (pid, true)
  | .destroy order => (∃ pid, latest calls = some (pid, true)) ∧
    order.Perm (s.mappings s.currentPid)
  | .fault _ _ => ∃ pid, latest calls = some (pid, true)
  | .load addr => (∃ pid, latest calls = some (pid, true)) ∧ InArena addr
  | .store addr _ => (∃ pid, latest calls = some (pid, true)) ∧ InArena addr
  | .setAccessible accessible => (Call.setAccessible accessible).Promised s

/-- The parent of a process is managed, or is the process itself, unless the process is the first
one. -/
def Call.Fathered (calls : List Call) (s : State) : Call → Prop
  | .create parent child _ => parent ∈ insert child s.processTable ↔ latest calls ≠ none
  | _ => True

/-- The current process and the page table base register are those of the process that is meant to
run. -/
def State.Follows (s : State) (calls : List Call) : Prop :=
  match latest calls with
  | none => s.processTable = ∅
  | some (pid, true) => s.currentPid = pid ∧ s.Running
  | some (pid, false) => s.currentPid = pid ∧ s.pageTableBaseRegister = none

theorem Call.Scheduled.promised {calls : List Call} {call : Call} (h : call.Scheduled calls s)
    (hfollows : s.Follows calls) : call.Promised s := by
  have hrunning (hlatest : ∃ pid, latest calls = some (pid, true)) : s.Running := by
    obtain ⟨pid, heq⟩ := hlatest
    rw [State.Follows, heq] at hfollows
    exact hfollows.2
  cases call with
  | create parent child order => exact h
  | switch pid => exact h
  | map theirFilename block => exact hrunning h
  | destroy order => exact ⟨hrunning h.1, h.2⟩
  | fault addr writeFlag => exact hrunning h
  | load addr => exact ⟨hrunning h.1, h.2⟩
  | store addr byte => exact ⟨hrunning h.1, h.2⟩
  | setAccessible accessible => exact h

/-! ### The current process after a call -/

/-- The processes and the current one are the same in two states. -/
structure SameProcesses (s s' : State) : Prop where
  table : s'.processTable = s.processTable
  current : s'.currentPid = s.currentPid
  register : s'.pageTableBaseRegister = s.pageTableBaseRegister

theorem SameProcesses.running (h : SameProcesses s s') (hrun : s.Running) : s'.Running := by
  rw [State.Running, h.table, h.current, h.register]
  exact hrun

theorem SameProcesses.follows (h : SameProcesses s s') {calls : List Call}
    (hfollows : s.Follows calls) : s'.Follows calls := by
  rw [State.Follows] at hfollows ⊢
  cases hlatest : latest calls with
  | none =>
    rw [hlatest] at hfollows
    exact h.table.trans hfollows
  | some current =>
    obtain ⟨pid, alive⟩ := current
    rw [hlatest] at hfollows
    cases alive with
    | true => exact ⟨h.current.trans hfollows.1, h.running hfollows.2⟩
    | false => exact ⟨h.current.trans hfollows.1, h.register.trans hfollows.2⟩

theorem Faulted.sameProcesses (h : Faulted strict keep s s') : SameProcesses s s' :=
  ⟨h.same.1, h.same.2.2.1, h.same.2.2.2.1⟩

theorem MapResult.sameProcesses {theirFilename block : ℕ} {result : Option ℕ}
    (h : MapResult strict keep m n s theirFilename block result s') : SameProcesses s s' := by
  cases h with
  | full => exact ⟨rfl, rfl, rfl⟩
  | noBlock => exact ⟨rfl, rfl, rfl⟩
  | zero tables => exact ⟨rfl, rfl, rfl⟩
  | @file i s₁ _ _ name _ _ _ hmoves _ hnone hsome =>
    have hreloc := hmoves.relocation
    have hs₁ : SameProcesses s s₁ := by
      obtain ⟨maps, heq⟩ := s.touchVA_eq s.currentPid
      refine ⟨?_, ?_, ?_⟩
      · rw [hreloc.processTable, heq]
      · rw [hreloc.currentPid, heq]
      · rw [hreloc.register, heq]
    cases name with
    | none =>
      rw [(hnone rfl).2]
      exact hs₁
    | some filename =>
      obtain ⟨-, tables, rfl⟩ := hsome filename rfl
      obtain ⟨-, -, htable, -, hpid⟩ := s₁.mapFile_maps ⟨s.currentPid, i⟩ filename block
      have hregister : (s₁.mapFile ⟨s.currentPid, i⟩ filename block).pageTableBaseRegister =
          s₁.pageTableBaseRegister := by
        rw [State.mapFile]
        split <;> rfl
      exact ⟨htable.trans hs₁.table, hpid.trans hs₁.current, hregister.trans hs₁.register⟩

/-- A call that does not concern the processes. -/
private theorem SameProcesses.follows_snoc (h : SameProcesses s s')
    {calls : List Call} {call : Call}
    (hfollows : s.Follows calls) (hlatest : latestStep (latest calls) call = latest calls) :
    s'.Follows (calls ++ [call]) := by
  rw [State.Follows, latest_snoc, hlatest]
  exact h.follows hfollows

private theorem Created.follows {calls : List Call} {parent child : Pid} {order : List (ℕ × PageId)}
    (h : Created parent child order s s')
    (hfathered : parent ∈ insert child s.processTable ↔ latest calls ≠ none)
    (hfollows : s.Follows calls) : s'.Follows (calls ++ [.create parent child order]) := by
  obtain ⟨count, t, -, hinherit, rfl⟩ := h
  obtain ⟨htable, -, hcurrent, hregister⟩ := hinherit.same
  have htable' : t.processTable = insert child s.processTable := htable
  have hcurrent' : t.currentPid = s.currentPid := hcurrent
  have hregister' : t.pageTableBaseRegister = s.pageTableBaseRegister := hregister
  rw [State.Follows] at hfollows ⊢
  rw [latest_snoc]
  cases hlatest : latest calls with
  | none =>
    rw [if_neg fun hmem => hfathered.mp hmem hlatest]
    refine ⟨rfl, ?_, rfl⟩
    rw [htable']
    exact Finset.mem_insert_self child _
  | some current =>
    obtain ⟨pid, alive⟩ := current
    rw [if_pos (hfathered.mpr (by rw [hlatest]; simp))]
    rw [hlatest] at hfollows
    cases alive with
    | true =>
      refine ⟨hcurrent'.trans hfollows.1, ?_, ?_⟩
      · rw [htable', hcurrent']
        exact Finset.mem_insert_of_mem hfollows.2.1
      · rw [hregister', hcurrent']
        exact hfollows.2.2
    | false => exact ⟨hcurrent'.trans hfollows.1, hregister'.trans hfollows.2⟩

/-- A call after which the process that is meant to run is the current one. -/
theorem Effect.follows {calls : List Call} {call : Call} {result : Result}
    (h : Effect strict keep m n s call result s') (hs : WellFormed m n s)
    (hcall : call.Scheduled calls s) (hfathered : call.Fathered calls s)
    (hfollows : s.Follows calls) : s'.Follows (calls ++ [call]) := by
  cases h with
  | @refuse parent child order tables hswap =>
    have hne : latest calls ≠ none := fun hnone => by
      -- without processes there is nothing to inherit
      rw [State.Follows, hnone] at hfollows
      have hnil : order = [] := by
        refine List.eq_nil_iff_forall_not_mem.mpr fun e he => ?_
        have hmapped : s.mapped parent e.1 = some e.2 := (State.mem_order hcall.2).mp he
        have hlive := hs.spaces.mem_processTable hmapped
        rw [hfollows] at hlive
        simp at hlive
      rw [hnil] at hswap
      simp [State.swapNeeded] at hswap
    obtain ⟨current, hlatest⟩ := Option.ne_none_iff_exists'.mp hne
    exact SameProcesses.follows_snoc ⟨rfl, rfl, rfl⟩ hfollows (by rw [hlatest]; rfl)
  | create _ hcreated => exact hcreated.follows hfathered hfollows
  | switch pid =>
    rw [State.Follows, latest_snoc]
    cases latest calls <;> exact ⟨rfl, hcall, rfl⟩
  | map hmap =>
    exact hmap.sameProcesses.follows_snoc hfollows (by cases latest calls <;> rfl)
  | @destroy order t hdrop =>
    obtain ⟨pid, hlatest⟩ := hcall.1
    rw [State.Follows, hlatest] at hfollows
    rw [State.Follows, latest_snoc, hlatest]
    obtain ⟨-, -, -, -, hcurrent, hregister, -⟩ := hdrop.same
    obtain ⟨maps, heq⟩ := s.touchVA_eq s.currentPid
    rw [heq] at hcurrent hregister
    refine ⟨hcurrent.trans hfollows.1, ?_⟩
    have hregister' : t.pageTableBaseRegister = some s.currentPid := hregister.trans hfollows.2.2
    have hcurrent' : t.currentPid = s.currentPid := hcurrent
    simp [State.retire, hregister', hcurrent', Option.filter]
  | fault hfaulted =>
    exact hfaulted.sameProcesses.follows_snoc hfollows (by cases latest calls <;> rfl)
  | load haccess =>
    exact haccess.faulted.sameProcesses.follows_snoc hfollows (by cases latest calls <;> rfl)
  | denied haccess =>
    exact haccess.faulted.sameProcesses.follows_snoc hfollows (by cases latest calls <;> rfl)
  | store haccess =>
    exact SameProcesses.follows_snoc { haccess.faulted.sameProcesses with } hfollows
      (by cases latest calls <;> rfl)
  | setAccessible accessible =>
    exact SameProcesses.follows_snoc ⟨rfl, rfl, rfl⟩ hfollows (by cases latest calls <;> rfl)

/-- In every run in which the parent of every process but the first one is managed, the current
process and the page table base register are those of the process that the last `vm_switch` has
named. -/
theorem pagerRun_current (hm : 2 ≤ m) (n : ℕ) (physmem swapFile : ℕ → Contents)
    (files : Bytes → ℕ → Contents) (accessible : Bytes → ℕ → Bool) (garbage : ℕ → Contents)
    {calls : List Call} {results : List Result}
    (hrun : PagerRun (fun calls s call => call.Scheduled calls s ∧ call.Fathered calls s)
      (vmInit m n physmem swapFile files accessible garbage) calls results
        s) : s.Follows calls := by
  have hinv : WellFormed m n s ∧ s.Follows calls := by
    refine hrun.invariant (fun calls _ t => WellFormed m n t ∧ t.Follows calls)
      ⟨vmInit_wellFormed hm n _ _ _ _ _, rfl⟩ ?_
    rintro calls results t t' call result ⟨hwf, hfollows⟩ ⟨hscheduled, hfathered⟩ hexec
    obtain ⟨hwf', heffect⟩ := Effect.of_exec hwf hm (hscheduled.promised hfollows)
      (fun hs : False => hs.elim) (fun hk : False => hk.elim) hexec
    exact ⟨hwf', heffect.follows hwf hscheduled hfathered hfollows⟩
  exact hinv.2

/-- The calls of the runs in which the register follows the processes. -/
private def Followed (calls : List Call) (s : State) (call : Call) : Prop :=
  call.Scheduled calls s ∧ call.Fathered calls s

theorem pagerRun_current_child : ∃ results s,
    PagerRun (fun calls s call => call.Scheduled calls s ∧ call.Fathered calls s)
      (blankMachine 2 1 fun _ _ => false) [.create 0 1 [], .create 1 2 [], .switch 2] results s ∧
    s.Follows [.create 0 1 [], .create 1 2 [], .switch 2] := by
  obtain ⟨⟨r₁, s₁⟩, h₁, ⟨r₂, s₂⟩, h₂, ⟨r₃, s₃⟩, h₃, htable₁, htable₂, hmappings⟩ :
      ∃ a, exec (.create 0 1 []) (blankMachine 2 1 fun _ _ => false) = some a ∧
      ∃ b, exec (.create 1 2 []) a.2 = some b ∧ ∃ c, exec (.switch 2) b.2 = some c ∧
        a.2.processTable = {1} ∧ b.2.processTable = {1, 2} ∧ a.2.mappings 1 = [] :=
    ⟨_, rfl, _, rfl, _, rfl, by decide +kernel, by decide +kernel, rfl⟩
  dsimp only at h₂ h₃ htable₁ htable₂ hmappings
  have hcall₁ : Followed [] (blankMachine 2 1 fun _ _ => false) (.create 0 1 []) := by
    refine ⟨⟨by decide, List.Perm.refl _⟩, ?_⟩
    simp [Call.Fathered, blankMachine, vmInit, latest]
  have hcall₂ : Followed [.create 0 1 []] s₁ (.create 1 2 []) := by
    simp [Followed, Call.Scheduled, Call.Fathered, htable₁, hmappings, latest, latestStep]
  have hcall₃ : Followed [.create 0 1 [], .create 1 2 []] s₂ (.switch 2) := by
    simp [Followed, Call.Scheduled, Call.Fathered, htable₂]
  have hrun : PagerRun Followed (blankMachine 2 1 fun _ _ => false)
      [.create 0 1 [], .create 1 2 [], .switch 2] [r₁, r₂, r₃] s₃ :=
    ((Runs.nil.snoc hcall₁ h₁).snoc hcall₂ h₂).snoc hcall₃ h₃
  exact ⟨_, s₃, hrun, pagerRun_current (by decide) 1 _ _ _ _ _ hrun⟩

theorem pagerRun_current_stolen : ∃ results s,
    PagerRun (fun calls s call => call.Scheduled calls s) (blankMachine 2 1 fun _ _ => false)
      [.create 0 1 [], .create 0 2 [], .map 0 0] results s ∧
    ¬s.Follows [.create 0 1 [], .create 0 2 [], .map 0 0] ∧ (s.mapped 2 0x600000000).isSome := by
  obtain ⟨⟨r₁, s₁⟩, h₁, ⟨r₂, s₂⟩, h₂, ⟨r₃, s₃⟩, h₃, htable, hmappings, hcurrent, hmapped⟩ :
      ∃ a, exec (.create 0 1 []) (blankMachine 2 1 fun _ _ => false) = some a ∧
      ∃ b, exec (.create 0 2 []) a.2 = some b ∧ ∃ c, exec (.map 0 0) b.2 = some c ∧
        2 ∉ a.2.processTable ∧ a.2.mappings 0 = [] ∧ c.2.currentPid = 2 ∧
        (c.2.mapped 2 0x600000000).isSome :=
    ⟨_, rfl, _, rfl, _, rfl, by decide +kernel, rfl, rfl, rfl⟩
  dsimp only at h₂ h₃ htable hmappings hcurrent hmapped
  have hcall₂ : (Call.create 0 2 []).Scheduled [.create 0 1 []] s₁ := by
    simp [Call.Scheduled, htable, hmappings]
  have hrun : PagerRun (fun calls s call => call.Scheduled calls s)
      (blankMachine 2 1 fun _ _ => false) [.create 0 1 [], .create 0 2 [],
        .map 0 0] [r₁, r₂, r₃] s₃ :=
    ((Runs.nil.snoc ⟨by decide, List.Perm.refl _⟩ h₁).snoc hcall₂ h₂).snoc ⟨1, rfl⟩ h₃
  refine ⟨_, s₃, hrun, fun hfollows => ?_, hmapped⟩
  have hone : s₃.currentPid = 1 := hfollows.1
  rw [hcurrent] at hone
  exact absurd hone (by decide)

end OsFromScratch.Pager
