import OsFromScratch.FileServer.Refinement

/-!
# The list of free blocks

What `fs_init` and `check_disk_blocks_synced` of `filesystem.cpp` do with `free_disk_blocks`, for
any disk and any list. The self-check calls `fs_init` again, which adds the unreferenced blocks to
the list that is to be checked, so that it only finds out whether one of them is missing.

## Main definitions

* `checkDiskBlocksSynced` — `check_disk_blocks_synced`.
* `SelfCheckWorks` — the self-check finds out whether the list is right, and leaves it alone.

## Main results

* `fsInit_exact` — what `fs_init` does.
* `checkDiskBlocksSynced_eq_ok_iff` — when the self-check passes, and what it leaves behind.
* `selfCheckWorks_iff` — when the self-check works.
-/

namespace OsFromScratch.FileServer

variable {d : Disk}

/-! ### The start of the server -/

/-- For every disk, the traversal from the root ends, with a result or because an assertion or a
read fails. If it has a result, `fs_init` lists the blocks of the disk that are not referenced from
the tree in ascending order; if the disk holds a tree, it has one. -/
theorem fsInit_exact (d : Disk) :
    ((∃ blocksUsed, ∀ depth > fsDisksize, initialTraverseHelper d depth [] 0 = .ok blocksUsed) ∨
      ∀ depth > fsDisksize, initialTraverseHelper d depth [] 0 = .error .failed) ∧
    (∀ free, fsInitFrom d [] = .ok free → free.Pairwise (· < ·) ∧
      ∀ x, x ∈ free ↔ (x ≠ 0 ∧ x.toNat < fsDisksize) ∧ ¬Referenced d x) ∧
    (TreeImage d → ∃ free, fsInitFrom d [] = .ok free) :=
  ⟨initialTraverseHelper_ends d, fun _ h => fsInitFrom_nil h, fun h => h.exists_fsInitFrom⟩

theorem fsInit_exact_emptyDisk : ∃ free, fsInitFrom emptyDisk [] = .ok free ∧
    free.Pairwise (· < ·) ∧
    ∀ x, x ∈ free ↔ (x ≠ 0 ∧ x.toNat < fsDisksize) ∧ ¬Referenced emptyDisk x := by
  obtain ⟨-, hlist, htree⟩ := fsInit_exact emptyDisk
  obtain ⟨free, hfree⟩ := htree wellFormed_emptyDisk.treeImage
  exact ⟨free, hfree, hlist free hfree⟩

/-! ### The self-check -/

/-- `check_disk_blocks_synced`: the blocks in `free_disk_blocks` afterwards. -/
def checkDiskBlocksSynced (d : Disk) (freeDiskBlocks : List BlockNo) :
    Except Stop (List BlockNo) := do
  let oldFreeList := freeDiskBlocks.toFinset
  let freeDiskBlocks ← fsInitFrom d freeDiskBlocks
  let newFreeList := freeDiskBlocks.toFinset
  if oldFreeList = newFreeList then .ok freeDiskBlocks else .error .failed

/-- The block is one that should be free. -/
def Spare (d : Disk) (x : BlockNo) : Prop :=
  (x ≠ 0 ∧ x.toNat < fsDisksize) ∧ ¬Referenced d x

/-- The self-check passes if the list has the blocks that should be free and no others, and leaves
the list as it is when it passes. -/
def SelfCheckWorks (d : Disk) (free : List BlockNo) : Prop :=
  ((∃ free', checkDiskBlocksSynced d free = .ok free') ↔ ∀ x, x ∈ free ↔ Spare d x) ∧
    ∀ free', checkDiskBlocksSynced d free = .ok free' → free' = free

/-- The self-check passes if no block that should be free is missing in the list, and adds all of
these blocks to the list once more. -/
theorem checkDiskBlocksSynced_eq_ok_iff (h : TreeImage d) (free : List BlockNo) :
    ∃ spare, (∀ x, x ∈ spare ↔ Spare d x) ∧ ∀ free',
      checkDiskBlocksSynced d free = .ok free' ↔
        (∀ x, Spare d x → x ∈ free) ∧ free' = free ++ spare := by
  obtain ⟨spare, hspare⟩ := h.exists_fsInitFrom
  have hmem := (fsInitFrom_nil hspare).2
  refine ⟨spare, hmem, fun free' => ?_⟩
  have hinit : fsInitFrom d free = .ok (free ++ spare) := by
    rw [fsInitFrom_eq, hspare]
    rfl
  have hsame : free.toFinset = (free ++ spare).toFinset ↔ ∀ x, Spare d x → x ∈ free := by
    simp only [Finset.ext_iff, List.mem_toFinset, List.mem_append, hmem]
    exact forall_congr' fun x => ⟨fun hiff hx => hiff.mpr (Or.inr hx),
      fun hall => ⟨Or.inl, fun hx => hx.elim id hall⟩⟩
  have hcheck : checkDiskBlocksSynced d free =
      if free.toFinset = (free ++ spare).toFinset then .ok (free ++ spare) else .error .failed := by
    rw [checkDiskBlocksSynced, hinit]
    rfl
  rw [hcheck, ← hsame]
  split_ifs with heq
  · exact ⟨fun hok => ⟨heq, (Except.ok.inj hok).symm⟩, fun hr => congrArg Except.ok hr.2.symm⟩
  · exact iff_of_false (by simp) fun hr => heq hr.1

/-- The self-check works if a block that should be free is missing in the list, and if there is no
block that should be free and the list is empty. In all other cases it passes although the list has
other blocks, or adds blocks to it. -/
theorem selfCheckWorks_iff (h : TreeImage d) (free : List BlockNo) :
    SelfCheckWorks d free ↔
      (∃ x, Spare d x ∧ x ∉ free) ∨ ((∀ x, ¬Spare d x) ∧ free = []) := by
  obtain ⟨spare, hmem, hcheck⟩ := checkDiskBlocksSynced_eq_ok_iff h free
  have hempty : (∀ x, ¬Spare d x) ↔ spare = [] := by
    rw [List.eq_nil_iff_forall_not_mem]
    exact forall_congr' fun x => not_congr (hmem x).symm
  by_cases hall : ∀ x, Spare d x → x ∈ free
  · have hpass : checkDiskBlocksSynced d free = .ok (free ++ spare) := (hcheck _).mpr ⟨hall, rfl⟩
    rw [or_iff_right fun ⟨x, hx, hnot⟩ => hnot (hall x hx), hempty]
    constructor
    · rintro ⟨hexact, hsame⟩
      have hnil : spare = [] := List.append_right_eq_self.mp (hsame _ hpass)
      refine ⟨hnil, List.eq_nil_iff_forall_not_mem.mpr fun x hx => ?_⟩
      exact hempty.mpr hnil x ((hexact.mp ⟨_, hpass⟩ x).mp hx)
    · rintro ⟨hnil, rfl⟩
      have hnone := hempty.mpr hnil
      rw [hnil] at hpass
      refine ⟨iff_of_true ⟨_, hpass⟩ fun x => ?_, fun free' hok => ?_⟩
      · exact iff_of_false List.not_mem_nil (hnone x)
      · exact (Except.ok.inj (hpass.symm.trans hok)).symm
  · have hfail (free' : List BlockNo) : checkDiskBlocksSynced d free ≠ .ok free' := fun hok =>
      hall ((hcheck free').mp hok).1
    have hmissing : ∃ x, Spare d x ∧ x ∉ free := by
      by_contra hnot
      exact hall fun x hx => not_not.mp fun hxf => hnot ⟨x, hx, hxf⟩
    refine iff_of_true ⟨iff_of_false ?_ ?_, fun free' hok => absurd hok (hfail free')⟩
      (Or.inl hmissing)
    · exact fun ⟨free', hok⟩ => hfail free' hok
    · exact fun hexact => hall fun x => (hexact x).mpr

theorem selfCheckWorks_iff_emptyDisk : SelfCheckWorks emptyDisk [] ↔
    (∃ x, Spare emptyDisk x ∧ x ∉ ([] : List BlockNo)) ∨
      ((∀ x, ¬Spare emptyDisk x) ∧ ([] : List BlockNo) = []) :=
  selfCheckWorks_iff wellFormed_emptyDisk.treeImage []

/-- On an empty disk with the list that `fs_init` makes, the self-check passes, and every block is
in the list twice afterwards. -/
theorem not_selfCheckWorks_emptyDisk : ∃ free, WellFormed emptyDisk ∧ fsInit emptyDisk = some free ∧
    checkDiskBlocksSynced emptyDisk free = .ok (free ++ free) ∧ ¬SelfCheckWorks emptyDisk free := by
  obtain ⟨free, hfree⟩ := wellFormed_emptyDisk.treeImage.exists_fsInitFrom
  have hmem := (fsInitFrom_nil hfree).2
  have hone : (1 : BlockNo) ∈ free := by
    refine (hmem 1).mpr ⟨⟨by decide, by decide⟩, fun href => ?_⟩
    obtain ⟨b, hb, hx⟩ := wellFormed_emptyDisk.referenced_iff.mp href
    rw [linked_emptyDisk hb, refs_emptyDisk] at hx
    exact List.not_mem_nil hx
  have hcheck : checkDiskBlocksSynced emptyDisk free = .ok (free ++ free) := by
    rw [checkDiskBlocksSynced, fsInitFrom_eq, hfree]
    exact if_pos (by simp)
  refine ⟨free, wellFormed_emptyDisk, by rw [fsInit, hfree]; rfl, hcheck, fun hworks => ?_⟩
  have hnil := List.append_right_eq_self.mp (hworks.2 _ hcheck)
  rw [hnil] at hone
  exact List.not_mem_nil hone

end OsFromScratch.FileServer
