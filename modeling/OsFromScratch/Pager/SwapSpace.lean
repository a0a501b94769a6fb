import Mathlib.Algebra.BigOperators.Group.List.Basic
import OsFromScratch.Pager.Runs

/-!
# The swap file

No block of the swap file is lost, and none belongs to two pages: the blocks that are free together
with those of the pages that are mapped are all blocks. A block is in use for each virtual address
that is mapped to a swap backed page, so that `vm_map` runs out of blocks exactly when there are as
many of these as there are blocks.

## Main definitions

* `State.mappedTo` — the pages that the virtual addresses of all processes are mapped to.
* `State.blocksInUse`, `State.swapMappings` — the blocks in use, and the number of addresses that
  are mapped to swap backed pages.

## Main results

* `pagerRun_swap_conserved` — the blocks are conserved in every run.
-/

namespace OsFromScratch.Pager

variable {m n : ℕ} {s s' : State} {id : PageId}

/-- The pages of all virtual addresses of all processes. -/
def State.mappedTo (s : State) : List PageId :=
  s.translateVA.entries.flatMap fun process => process.2.entries.map fun entry => entry.2

/-- The blocks of the swap backed pages that are mapped, each page counted once. -/
def State.blocksInUse (s : State) : List ℕ :=
  (s.mappedTo.dedup.filter fun id => (s.pages id).isSwap).flatMap fun id => (s.pages id).blocks

/-- The number of pairs of a process and an address that are mapped to swap backed pages. -/
def State.swapMappings (s : State) : ℕ :=
  s.mappedTo.countP fun id => (s.pages id).isSwap

theorem State.mem_mappedTo : id ∈ s.mappedTo ↔ ∃ pid va, s.mapped pid va = some id := by
  simp only [State.mappedTo, List.mem_flatMap, List.mem_map]
  constructor
  · rintro ⟨process, hprocess, entry, hentry, rfl⟩
    exact ⟨process.1, entry.1,
      State.mapped_iff_entries.mpr ⟨process, hprocess, entry, hentry, rfl, rfl, rfl⟩⟩
  · rintro ⟨pid, va, hva⟩
    obtain ⟨process, hprocess, entry, hentry, -, -, hid⟩ := State.mapped_iff_entries.mp hva
    exact ⟨process, hprocess, entry, hentry, hid⟩

/-- A swap backed page that has a block is mapped. -/
theorem WellFormed.mem_mappedTo (h : WellFormed m n s) (hswap : (s.pages id).isSwap = true)
    (hblocks : (s.pages id).blocks ≠ []) : id ∈ s.mappedTo := by
  have haff : (s.pages id).affiliated ≠ [] := by
    rw [ne_eq, ← List.length_eq_zero_iff, ← h.mappings.swap id hswap, List.length_eq_zero_iff]
    exact hblocks
  obtain ⟨ptr, hptr⟩ := List.exists_mem_of_ne_nil _ haff
  exact State.mem_mappedTo.mpr ⟨ptr.pid, _, (h.mappings.attached id ptr).mp hptr⟩

theorem VirtualPage.mem_swapBlocks {v : VirtualPage} {block : ℕ} :
    block ∈ v.swapBlocks ↔ v.isSwap = true ∧ block ∈ v.blocks := by
  rw [VirtualPage.swapBlocks]
  split_ifs with hswap <;> simp [hswap]

/-- The free blocks and those in use are all blocks, each once. -/
theorem WellFormed.blocks_perm (h : WellFormed m n s) :
    (s.nextFreeSwap ++ s.blocksInUse).Perm (List.range n) := by
  have hdivided := h.mappings.blocks
  have howner {id : PageId} {block : ℕ} (hswap : (s.pages id).isSwap = true)
      (hblock : block ∈ (s.pages id).blocks) : block ∈ s.blockOwner (some id) :=
    VirtualPage.mem_swapBlocks.mpr ⟨hswap, hblock⟩
  refine (List.perm_ext_iff_of_nodup (List.nodup_append.mpr ⟨hdivided.nodup none, ?_, ?_⟩)
    List.nodup_range).mpr fun block => ?_
  · refine List.nodup_flatMap.mpr ⟨fun id hid => ?_, ?_⟩
    · have hnodup := hdivided.nodup (some id)
      rw [State.blockOwner, VirtualPage.swapBlocks, if_pos (List.mem_filter.mp hid).2] at hnodup
      exact hnodup
    · refine ((List.nodup_dedup _).filter _).pairwise_of_forall_ne fun id hid id' hid' hne => ?_
      refine List.disjoint_left.mpr fun block hb hb' => hne ?_
      exact Option.some.inj (hdivided.disjoint (some id) (some id') block
        (howner (List.mem_filter.mp hid).2 hb) (howner (List.mem_filter.mp hid').2 hb'))
  · rintro block hfree block' hused rfl
    obtain ⟨id, hid, hblock⟩ := List.mem_flatMap.mp hused
    have heq := hdivided.disjoint none (some id) block hfree
      (howner (List.mem_filter.mp hid).2 hblock)
    simp at heq
  · rw [List.mem_range, ← Set.mem_Iio, hdivided.mem_iff, List.mem_append]
    constructor
    · rintro (hfree | hused)
      · exact ⟨none, hfree⟩
      · obtain ⟨id, hid, hblock⟩ := List.mem_flatMap.mp hused
        exact ⟨some id, howner (List.mem_filter.mp hid).2 hblock⟩
    · rintro ⟨owner, hblock⟩
      cases owner with
      | none => exact Or.inl hblock
      | some id =>
        obtain ⟨hswap, hmem⟩ := VirtualPage.mem_swapBlocks.mp hblock
        have hid := h.mem_mappedTo hswap (List.ne_nil_of_mem hmem)
        exact Or.inr (List.mem_flatMap.mpr
          ⟨id, List.mem_filter.mpr ⟨List.mem_dedup.mpr hid, hswap⟩, hmem⟩)

/-- A block is in use for every address that is mapped to a swap backed page. -/
theorem WellFormed.length_blocksInUse (h : WellFormed m n s) :
    s.blocksInUse.length = s.swapMappings := by
  rw [State.blocksInUse, List.length_flatMap, State.swapMappings,
    ← List.sum_map_count_dedup_filter_eq_countP]
  congr 1
  refine List.map_congr_left fun id hid => ?_
  rw [h.mappings.swap id (List.mem_filter.mp hid).2, h.mappings.length_affiliated h.spaces]
  rfl

theorem WellFormed.length_nextFreeSwap (h : WellFormed m n s) :
    s.nextFreeSwap.length + s.swapMappings = n := by
  rw [← h.length_blocksInUse, ← List.length_append, h.blocks_perm.length_eq, List.length_range]

/-- The conservation of the blocks of the swap file. -/
structure State.SwapConserved (n : ℕ) (s : State) : Prop where
  /-- The free blocks and the blocks of the pages that are mapped are `0, …, n - 1`, each once. -/
  blocks : (s.nextFreeSwap ++ s.blocksInUse).Perm (List.range n)
  /-- There are as many blocks in use as there are addresses that are mapped to swap. -/
  inUse : s.blocksInUse.length = s.swapMappings
  /-- No two pages share a block. -/
  unshared : ∀ id id' block, id ∈ s.mappedTo → id' ∈ s.mappedTo → (s.pages id).isSwap = true →
    (s.pages id').isSwap = true → block ∈ (s.pages id).blocks →
      block ∈ (s.pages id').blocks → id = id'
  /-- While the arena is not full, `vm_map` of a page of zeroes fails exactly if all blocks are in
  use. -/
  map : ∀ block next, s.Running → s.nextFreeVA s.currentPid = some next → next < vmArenaMaxaddr →
    ∃ result s', vmMap 0 block s = some (result, s') ∧ (result = none ↔ s.swapMappings = n)
  /-- Without processes, all blocks are free. -/
  free : s.processTable = ∅ → s.nextFreeSwap.Perm (List.range n)

theorem WellFormed.swapConserved (h : WellFormed m n s) (hm : 2 ≤ m) : s.SwapConserved n := by
  have hlength := h.length_nextFreeSwap
  refine ⟨h.blocks_perm, h.length_blocksInUse, fun id id' block _ _ hswap hswap' hb hb' => ?_,
    fun block next hrun hnext hlt => ?_, fun hempty => ?_⟩
  · exact Option.some.inj (h.mappings.blocks.disjoint (some id) (some id') block
      (VirtualPage.mem_swapBlocks.mpr ⟨hswap, hb⟩) (VirtualPage.mem_swapBlocks.mpr ⟨hswap', hb'⟩))
  · obtain ⟨result, s', heq, -, hresult⟩ :=
      vmMap_spec h hm hrun 0 block False fun hkeep : False => hkeep.elim
    refine ⟨result, s', heq, ?_⟩
    cases hresult with
    | full hfull =>
      rw [hnext, Option.some.injEq] at hfull
      rw [hfull] at hlt
      exact absurd hlt (by decide)
    | noBlock _ _ _ hnone =>
      rw [hnone, List.length_nil, Nat.zero_add] at hlength
      exact iff_of_true rfl hlength
    | zero tables _ _ _ hfree =>
      rw [hfree, List.length_cons] at hlength
      refine iff_of_false (by simp) ?_
      omega
    | file name hname => exact absurd rfl hname
  · have hnone : s.mappedTo = [] := by
      refine List.eq_nil_iff_forall_not_mem.mpr fun id hid => ?_
      obtain ⟨pid, va, hva⟩ := State.mem_mappedTo.mp hid
      have hpid := h.spaces.mem_processTable hva
      rw [hempty] at hpid
      simp at hpid
    have hperm := h.blocks_perm
    rwa [State.blocksInUse, hnone, List.dedup_nil, List.filter_nil, List.flatMap_nil,
      List.append_nil] at hperm

/-- In every run of the pager, the blocks of the swap file are conserved. -/
theorem pagerRun_swap_conserved (hm : 2 ≤ m) (n : ℕ) (physmem swapFile : ℕ → Contents)
    (files : Bytes → ℕ → Contents) (accessible : Bytes → ℕ → Bool) (garbage : ℕ → Contents)
    {calls : List Call} {results : List Result}
    (hrun : PagerRun Promise (vmInit m n physmem swapFile files accessible garbage)
      calls results s) :
    s.SwapConserved n :=
  (PagerRun.wellFormed hm (fun _ _ _ h => h) hrun
    (vmInit_wellFormed hm n physmem swapFile files accessible garbage)).swapConserved hm

theorem pagerRun_swap_conserved_fork : ∃ results s, PagerRun Promise
    (blankMachine 2 3 fun _ _ => false)
    [.create 0 1 [], .map 0 0, .store 0x600000000 7, .create 1 2 [(0x600000000, 0)],
      .map 0 0] results s ∧
    s.swapMappings = 3 ∧ s.SwapConserved 3 := by
  obtain ⟨⟨results, s⟩, hrun, hcount⟩ : ∃ r, runAll exec promised
      [.create 0 1 [], .map 0 0, .store 0x600000000 7, .create 1 2 [(0x600000000, 0)], .map 0 0]
      (blankMachine 2 3 fun _ _ => false) =
      some r ∧ r.2.swapMappings = 3 :=
    ⟨_, rfl, by decide +kernel⟩
  have hpager := PagerRun.of_runAll hrun
  exact ⟨results, s, hpager, hcount, pagerRun_swap_conserved (by decide) 3 _ _ _ _ _ hpager⟩

end OsFromScratch.Pager
