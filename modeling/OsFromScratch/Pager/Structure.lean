import OsFromScratch.Pager.Registry
import OsFromScratch.Pager.SwapSpace

/-!
# The structure of the pager

As long as `vm_fault` is only called for accesses that the memory management unit does not allow,
and no file block becomes accessible or inaccessible, no assertion of the pager fails, and its
structures agree with each other.

## Main definitions

* `MmuFaults` — the calls of such runs.
* `State.Structured` — the structures agree with each other.

## Main results

* `pagerRun_structured` — the structures agree after every run, and no assertion fails.
-/

namespace OsFromScratch.Pager

open Function

variable {m n : ℕ} {s s' : State} {strict keep : Prop}

/-- The file blocks that can be accessed stay the same. -/
def Call.Fixed : Call → Prop
  | .setAccessible _ => False
  | _ => True

/-- `vm_fault` is called for accesses that are not allowed, and the file blocks that can be accessed
stay the same. -/
def MmuFaults (_ : List Call) (s : State) (call : Call) : Prop :=
  call.Promised s ∧ call.Refused s ∧ call.Fixed

instance (s : State) (call : Call) : Decidable (call.Refused s) :=
  match call with
  | .fault addr writeFlag => inferInstanceAs (Decidable
    (InArena addr → ∀ entry ∈ s.mmuEntry addr, entry.allows writeFlag = false))
  | .create _ _ _ | .switch _ | .map _ _ | .destroy _ | .load _ | .store _ _ | .setAccessible _ =>
    instDecidableTrue

/-- The same as a test. -/
def mmuFaults (s : State) (call : Call) : Bool :=
  promised s call && decide (call.Refused s)

/-- A run of this kind that has been computed. -/
theorem mmuRun_of_runAll {calls : List Call} {results : List Result}
    (h : runAll exec mmuFaults calls s = some (results, s')) :
    PagerRun MmuFaults s calls results s' := by
  refine Runs.of_runAll (fun _ t call hcall => ?_) h
  obtain ⟨hpromised, hrefused⟩ := Bool.and_eq_true_iff.mp hcall
  refine ⟨Call.promised_of hpromised, of_decide_eq_true hrefused, ?_⟩
  cases call with
  | setAccessible => exact absurd hpromised Bool.false_ne_true
  | _ => trivial

/-- The structures of the pager agree with each other. -/
structure State.Structured (s : State) : Prop where
  /-- The page table entries of a page that is mapped are what `updatePTEs` computes. -/
  entries : ∀ id ∈ s.mappedTo, ∀ ptr ∈ (s.pages id).affiliated,
    s.pte ptr = (s.pages id).entry (s.pte ptr)
  /-- A page has the page table entries of the processes and addresses that are mapped to it. -/
  affiliated : ∀ id ∈ s.mappedTo, (s.pages id).affiliated.Nodup ∧ ∀ ptr,
    ptr ∈ (s.pages id).affiliated ↔ ∃ va, s.mapped ptr.pid va = some id ∧ vaToPTE va ptr.pid = ptr
  /-- A swap backed page has a block for each of them, and cannot be written if there are
  several. -/
  swap : ∀ id ∈ s.mappedTo, (s.pages id).isSwap = true →
    (s.pages id).blocks.length = (s.pages id).affiliated.length ∧
    (1 < (s.pages id).affiliated.length →
      ∀ ptr ∈ (s.pages id).affiliated, (s.pte ptr).writeEnable = false)
  /-- A page is resident if it has a physical page. -/
  resident : ∀ id, (s.pages id).resident = true ↔ ∃ page, (s.pages id).physicalPage = some page
  /-- The queue holds the resident pages other than those on the physical page 0. -/
  queue : s.clockQueue.Nodup ∧ ∀ id, id ∈ s.clockQueue ↔ (s.pages id).resident = true ∧
    ∀ page ∈ (s.pages id).physicalPage, page.ppn ≠ 0

theorem WellFormed.structured (h : WellFormed m n s) : s.Structured := by
  have haff {id : PageId} {ptr : PtePtr} (hptr : ptr ∈ (s.pages id).affiliated) :
      s.mapped ptr.pid (pageAddr ptr.index) = some id := (h.mappings.attached id ptr).mp hptr
  refine ⟨fun id _ ptr hptr => ?_, fun id _ =>
    ⟨h.mappings.nodup id, fun ptr => ⟨fun hptr => ?_, ?_⟩⟩,
    fun id hid hswap => ?_, fun id => ?_, h.frames.queue_nodup, fun id => ?_⟩
  · obtain ⟨hread, hwrite, hppn⟩ := h.ptes.page id (Set.notMem_empty id) ptr hptr
    cases hpage : (s.pages id).physicalPage with
    | none => simp [VirtualPage.entry, hpage, ← hread, ← hwrite]
    | some page =>
      have hres : (s.pages id).resident = true := by rw [h.frames.resident, hpage]; rfl
      simp [VirtualPage.entry, hpage, ← hread, ← hwrite, ← hppn page hpage hres]
  · exact ⟨pageAddr ptr.index, haff hptr, vaToPTE_pageAddr ptr.index ptr.pid⟩
  · rintro ⟨va, hva, heq⟩
    obtain ⟨i, -, hentry, hpte⟩ := h.spaces.mem_entry hva
    rw [← heq, hpte]
    exact (h.mappings.attached id _).mpr hentry
  · obtain ⟨pid, va, hva⟩ := State.mem_mappedTo.mp hid
    obtain ⟨-, hlength, hshared⟩ := (h.vaConsistent hva).swap hswap
    exact ⟨hlength, hshared⟩
  · rw [h.frames.resident, Option.isSome_iff_exists]
  · constructor
    · intro hid
      obtain ⟨hres, page, hpage, hppn⟩ := h.frames.page_of_mem_queue hid
      exact ⟨hres, fun page' hpage' => Option.mem_unique hpage hpage' ▸ hppn⟩
    · rintro ⟨hres, hppn⟩
      rw [h.frames.resident, Option.isSome_iff_exists] at hres
      obtain ⟨page, hpage⟩ := hres
      rw [h.frames.mem_queue, VirtualPage.frame_eq_of_some hpage (hppn page hpage)]
      exact List.cons_ne_nil _ _

/-! ### File blocks stay accessible -/

theorem Inherit.accessible {child : Pid} {order : List (ℕ × PageId)}
    (h : Inherit child order s s') :
    s'.accessible = s.accessible := by
  induction h with
  | nil => rfl
  | zero _ _ _ _ ih => exact ih
  | share _ _ _ _ ih => exact ih

theorem State.accessible_mapFile (s : State) (ptr : PtePtr) (filename : Bytes) (block : ℕ) :
    (s.mapFile ptr filename block).accessible = s.accessible := by
  rw [State.mapFile]
  split <;> rfl

theorem State.accessible_touchVA (s : State) (pid : Pid) :
    (s.touchVA pid).accessible = s.accessible := by
  obtain ⟨maps, heq⟩ := s.touchVA_eq pid
  rw [heq]

theorem Effect.accessible {call : Call} {result : Result}
    (h : Effect strict keep m n s call result s') (hfixed : call.Fixed) :
    s'.accessible = s.accessible := by
  cases h with
  | refuse tables => rfl
  | create _ hcreated =>
    obtain ⟨count, t, -, hinherit, rfl⟩ := hcreated
    have ht : t.accessible = s.accessible := hinherit.accessible
    split_ifs <;> exact ht
  | switch pid => rfl
  | map hmap =>
    cases hmap with
    | full => rfl
    | noBlock => rfl
    | zero tables => rfl
    | @file i s₁ _ _ name _ _ _ hmoves _ hnone hsome =>
      have hs₁ := hmoves.relocation.accessible.trans (s.accessible_touchVA s.currentPid)
      cases name with
      | none => rw [(hnone rfl).2, hs₁]
      | some filename =>
        obtain ⟨-, tables, rfl⟩ := hsome filename rfl
        exact (s₁.accessible_mapFile ⟨s.currentPid, i⟩ filename _).trans hs₁
  | destroy hdrop =>
    obtain ⟨-, -, -, -, -, -, hacc, -⟩ := hdrop.same
    exact hacc.trans (s.accessible_touchVA s.currentPid)
  | fault hfaulted => exact hfaulted.same.2.2.2.2
  | load haccess => exact haccess.faulted.same.2.2.2.2
  | denied haccess => exact haccess.faulted.same.2.2.2.2
  | store haccess => exact haccess.faulted.same.2.2.2.2
  | setAccessible accessible => exact hfixed.elim

/-! ### Runs -/

/-- The blocks that can be accessed. -/
def accessibleKeys (accessible : Bytes → ℕ → Bool) (key : Bytes × ℕ) : Prop :=
  accessible key.1 key.2 = true

/-- No assertion fails if the pages for the blocks that can be accessed are registered. -/
theorem exec_ne_none (h : WellFormed m n s) (hm : 2 ≤ m)
    (hreg : Registered (accessibleKeys s.accessible) s) {call : Call} (hpromised : call.Promised s)
    (hrefused : call.Refused s) : exec call s ≠ none := by
  have hfault (addr : ℕ) (writeFlag : Bool) (hc : call = .fault addr writeFlag) :
      s.FaultOk (pageStart addr) writeFlag := by
    subst hc
    exact (hrefused.denied h hpromised).faultOk h
  obtain ⟨result, t, heffect, hexec, -, hqueued⟩ := exec_spec h hm hpromised hfault
    (fun _ : True => hrefused) (fun hk : False => hk.elim)
  have ht : Queued t := by
    by_cases hdestroy : ∃ order, call = .destroy order
    · obtain ⟨order, rfl⟩ := hdestroy
      cases heffect with
      | destroy hdrop hmappings hframes =>
        exact hdrop.queued h hmappings hframes hreg fun _ hkey => hkey
    · exact hqueued fun order heq => hdestroy ⟨order, heq⟩
  rw [(hexec ht).2]
  exact Option.some_ne_none _

/-- After every run, the structures of the pager agree with each other, and no assertion of a
further call fails. -/
theorem pagerRun_structured (hm : 2 ≤ m) (n : ℕ) (physmem swapFile : ℕ → Contents)
    (files : Bytes → ℕ → Contents) (accessible : Bytes → ℕ → Bool) (garbage : ℕ → Contents)
    {calls : List Call} {results : List Result}
    (hrun : PagerRun MmuFaults (vmInit m n physmem swapFile files accessible garbage)
      calls results s) :
    s.Structured ∧ s.Consistent ∧ ∀ call, MmuFaults calls s call → exec call s ≠ none := by
  have hinv : WellFormed m n s ∧ s.accessible = accessible ∧
      Registered (accessibleKeys accessible) s := by
    refine hrun.invariant (fun _ _ t => WellFormed m n t ∧ t.accessible = accessible ∧
      Registered (accessibleKeys accessible) t) ⟨vmInit_wellFormed hm n _ _ _ _ _, rfl, ?_⟩ ?_
    · rintro id - (haff | hframe)
      · exact absurd rfl haff
      · exact absurd rfl hframe
    · rintro calls results t t' call result ⟨hwf, hacc, hreg⟩ ⟨hpromised, -, hfixed⟩ hexec
      obtain ⟨hwf', heffect⟩ := Effect.of_exec hwf hm hpromised (fun hs : False => hs.elim)
        (fun hk : False => hk.elim) hexec
      refine ⟨hwf', (heffect.accessible hfixed).trans hacc,
        heffect.registered hwf hpromised hreg ?_⟩
      intro key hkey
      rw [hacc]
      exact Or.inl hkey
  obtain ⟨hwf, rfl, hreg⟩ := hinv
  exact ⟨hwf.structured, hwf.consistent, fun call hcall =>
    exec_ne_none hwf hm hreg hcall.1 hcall.2.1⟩

theorem pagerRun_structured_fork : ∃ results s, PagerRun MmuFaults
    (blankMachine 2 2 fun _ _ => true)
    [.create 0 1 [], .map 0 0, .fault 0x600000000 true, .create 1 2 [(0x600000000, 0)], .switch 2,
      .store 0x600000000 7, .map 0x600000000 0, .destroy [(0x600010000, 2), (0x600000000, 1)]]
    results s ∧ s.Structured ∧ s.Consistent ∧
      ∀ call, MmuFaults [] s call → exec call s ≠ none := by
  obtain ⟨⟨results, s⟩, hrun⟩ : ∃ r, runAll exec mmuFaults
      [.create 0 1 [], .map 0 0, .fault 0x600000000 true, .create 1 2 [(0x600000000, 0)], .switch 2,
        .store 0x600000000 7, .map 0x600000000 0, .destroy [(0x600010000, 2), (0x600000000, 1)]]
      (blankMachine 2 2 fun _ _ => true) =
      some r := Option.isSome_iff_exists.mp (by decide +kernel)
  have hpager := mmuRun_of_runAll hrun
  obtain ⟨hstructured, hconsistent, hnext⟩ := pagerRun_structured (by decide) 2 _ _ _ _ _ hpager
  exact ⟨results, s, hpager, hstructured, hconsistent, hnext⟩

end OsFromScratch.Pager
