import OsFromScratch.FileServer.Tree
import OsFromScratch.Lib.Marking

/-!
# The start of the server

`fs_init` and `initial_traverse_helper` of `filesystem.cpp`: when the server starts, the tree on the
disk is traversed to find out which blocks are free. The traversal stops when an assertion fails,
and when it reads beyond the disk or beyond the block numbers of an inode. The recursion has a bound
here, which is never reached: every call but the first is made for a block that has not been used
before, and only those for blocks of the disk go on.

## Main definitions

* `initialTraverseHelper`, `fsInitFrom`, `fsInit` — `initial_traverse_helper` and `fs_init`.
* `Reached`, `Below`, `Referenced` — the inodes of the traversed tree, and the blocks that are
  referenced from them.
* `TreeImage` — the disk holds a tree in which no block is referenced twice.

## Main results

* `initialTraverseHelper_marks` — a traversal that ends normally collects the referenced blocks.
* `initialTraverseHelper_ends` — the traversal ends.
* `TreeImage.exists_traversal` — the traversal of a tree passes every assertion.
* `fsInitFrom_nil` — what `fs_init` leaves in the empty list.
* `exists_fsInit` — on a well-formed disk, `fs_init` lists the unused blocks.
-/

namespace OsFromScratch.FileServer

open Relation

/-- Why a traversal stops: an assertion or a read fails, or the bound on the recursion is
reached. -/
inductive Stop
  | failed
  | deep
  deriving DecidableEq

/-- `assert(!blocks_used.contains(block)); blocks_used.insert(block);` -/
def insertNew (blocksUsed : List BlockNo) (block : BlockNo) : Except Stop (List BlockNo) :=
  if block ∈ blocksUsed then .error .failed else .ok (block :: blocksUsed)

/-- `initial_traverse_helper`, with a bound on the depth of the recursion. -/
def initialTraverseHelper (d : Disk) :
    (depth : ℕ) → List BlockNo → BlockNo → Except Stop (List BlockNo)
  | 0, _, _ => .error .deep
  | depth + 1, blocksUsed, currentInodeBlock =>
    if currentInodeBlock.toNat < fsDisksize then
      let currentInode := FsInode.ofBlock (d currentInodeBlock)
      if 124 < currentInode.size.toNat then
        .error .failed
      else do
        let blocksUsed ← currentInode.used.foldlM insertNew blocksUsed
        if currentInode.type = fileType then
          .ok blocksUsed
        else if currentInode.type = dirType then
          currentInode.used.foldlM (fun blocksUsed block =>
            if block.toNat < fsDisksize then
              (Direntries.ofBlock (d block)).toList.foldlM (fun blocksUsed entry =>
                if entry.inodeBlock ≠ 0 then do
                  let blocksUsed ← insertNew blocksUsed entry.inodeBlock
                  initialTraverseHelper d depth blocksUsed entry.inodeBlock
                else
                  .ok blocksUsed) blocksUsed
            else
              .error .failed) blocksUsed
        else
          .error .failed
    else
      .error .failed

/-- The blocks that `fs_init` adds to `free_disk_blocks`. -/
def notUsed (blocksUsed : List BlockNo) : List BlockNo :=
  ((List.range' 1 (fsDisksize - 1)).map UInt32.ofNat).filter fun i => i ∉ blocksUsed

/-- `fs_init`: the blocks in `free_disk_blocks` afterwards, given those that are there before. -/
def fsInitFrom (d : Disk) (freeDiskBlocks : List BlockNo) : Except Stop (List BlockNo) := do
  let blocksUsed ← initialTraverseHelper d (fsDisksize + 1) [] 0
  .ok (freeDiskBlocks ++ notUsed blocksUsed)

/-- `fs_init` when the server starts: the blocks in `free_disk_blocks` afterwards. -/
def fsInit (d : Disk) : Option (List BlockNo) :=
  (fsInitFrom d []).toOption

variable {d : Disk} {b c x : BlockNo} {depth : ℕ} {blocksUsed blocksUsed' : List BlockNo}

/-! ### The tree that is traversed -/

/-- An inode has an entry for another one. -/
def Child (d : Disk) (b c : BlockNo) : Prop :=
  ∃ e ∈ entries d b, e.inodeBlock = c

/-- The inode is part of the tree that is traversed. -/
def Reached (d : Disk) (b : BlockNo) : Prop :=
  ReflTransGen (Child d) 0 b

/-- The block is referenced from the inode `b` or an inode below it. -/
def Below (d : Disk) (b x : BlockNo) : Prop :=
  ∃ c, ReflTransGen (Child d) b c ∧ x ∈ refs d c

/-- The block is referenced from the tree that is traversed. -/
def Referenced (d : Disk) (x : BlockNo) : Prop :=
  ∃ b, Reached d b ∧ x ∈ refs d b

theorem mem_refs_of_child (h : Child d b c) : c ∈ refs d b := by
  obtain ⟨e, he, rfl⟩ := h
  exact List.mem_append_right _ (List.mem_map_of_mem he)

theorem not_child_zero : ¬Child d b 0 := by
  rintro ⟨e, he, hzero⟩
  obtain ⟨-, y, -, he⟩ := mem_entries.mp he
  exact (mem_usedEntries.mp he).2 hzero

/-- What is below an inode: its own blocks, and its entries with what is below them. -/
theorem below_iff : Below d b x ↔ x ∈ (inodeAt d b).used ∨
    ∃ e ∈ entries d b, x = e.inodeBlock ∨ Below d e.inodeBlock x := by
  constructor
  · rintro ⟨c, hbc, hx⟩
    rcases ReflTransGen.cases_head hbc with rfl | ⟨c', ⟨e, he, rfl⟩, hc⟩
    · rcases List.mem_append.mp hx with hused | hentry
      · exact Or.inl hused
      · obtain ⟨e, he, rfl⟩ := List.mem_map.mp hentry
        exact Or.inr ⟨e, he, Or.inl rfl⟩
    · exact Or.inr ⟨e, he, Or.inr ⟨c, hc, hx⟩⟩
  · rintro (hused | ⟨e, he, rfl | ⟨c, hc, hx⟩⟩)
    · exact ⟨b, ReflTransGen.refl, List.mem_append_left _ hused⟩
    · exact ⟨b, ReflTransGen.refl, mem_refs_of_child ⟨e, he, rfl⟩⟩
    · exact ⟨c, ReflTransGen.head ⟨e, he, rfl⟩ hc, hx⟩

/-! ### The loops of the traversal -/

/-- The visit of a directory entry. -/
def visit (d : Disk) (depth : ℕ) (blocksUsed : List BlockNo) (entry : FsDirentry) :
    Except Stop (List BlockNo) := do
  let blocksUsed ← insertNew blocksUsed entry.inodeBlock
  initialTraverseHelper d depth blocksUsed entry.inodeBlock

/-- The visit of a block of a directory. -/
def visitBlock (d : Disk) (depth : ℕ) (blocksUsed : List BlockNo) (block : BlockNo) :
    Except Stop (List BlockNo) :=
  if block.toNat < fsDisksize then
    (usedEntries (direntriesAt d block)).foldlM (visit d depth) blocksUsed
  else
    .error .failed

theorem initialTraverseHelper_succ (hlt : b.toNat < fsDisksize)
    (hsize : (inodeAt d b).size.toNat ≤ 124) :
    initialTraverseHelper d (depth + 1) blocksUsed b =
      ((inodeAt d b).used.foldlM insertNew blocksUsed).bind fun blocksUsed =>
        if (inodeAt d b).type = fileType then .ok blocksUsed
        else if (inodeAt d b).type = dirType then
          (inodeAt d b).used.foldlM (visitBlock d depth) blocksUsed
        else .error .failed := by
  have hbody : visitBlock d depth = fun blocksUsed block =>
      if block.toNat < fsDisksize then
        (Direntries.ofBlock (d block)).toList.foldlM (fun blocksUsed entry =>
          if entry.inodeBlock ≠ 0 then do
            let blocksUsed ← insertNew blocksUsed entry.inodeBlock
            initialTraverseHelper d depth blocksUsed entry.inodeBlock
          else
            .ok blocksUsed) blocksUsed
      else
        .error .failed := by
    funext blocksUsed block
    rw [visitBlock, usedEntries, List.foldlM_filter]
    simp only [decide_eq_true_eq]
    rfl
  rw [initialTraverseHelper, if_pos hlt, hbody]
  exact if_neg (not_lt.mpr hsize)

/-! ### What is marked -/

theorem insertNew_marks : Marks insertNew fun block x => x = block := by
  intro blocksUsed block blocksUsed' hok x
  rw [insertNew] at hok
  split_ifs at hok with hmem
  obtain rfl := Except.ok.inj hok
  rw [List.mem_cons, or_comm]

theorem insertNew_of_notMem (h : x ∉ blocksUsed) :
    insertNew blocksUsed x = .ok (x :: blocksUsed) :=
  if_neg h

theorem insertNew_ne_deep : insertNew blocksUsed x ≠ .error .deep := by
  rw [insertNew]
  split_ifs <;> simp

theorem visit_marks (h : Marks (initialTraverseHelper d depth) (Below d)) :
    Marks (visit d depth) fun e x => x = e.inodeBlock ∨ Below d e.inodeBlock x := by
  intro blocksUsed e blocksUsed' hok x
  rw [visit] at hok
  cases hinsert : insertNew blocksUsed e.inodeBlock with
  | error stop =>
    rw [hinsert] at hok
    cases hok
  | ok used =>
    rw [hinsert] at hok
    rw [h used e.inodeBlock blocksUsed' hok x, insertNew_marks _ _ _ hinsert x, or_assoc]

theorem visitBlock_marks (h : Marks (initialTraverseHelper d depth) (Below d)) :
    Marks (visitBlock d depth) fun block x => ∃ e ∈ usedEntries (direntriesAt d block),
      x = e.inodeBlock ∨ Below d e.inodeBlock x := by
  intro blocksUsed block blocksUsed' hok x
  rw [visitBlock] at hok
  split_ifs at hok with hlt
  exact (visit_marks h).foldlM blocksUsed _ blocksUsed' hok x

/-- A traversal that ends normally has marked the blocks that are referenced below the inode. -/
theorem initialTraverseHelper_marks (d : Disk) (depth : ℕ) :
    Marks (initialTraverseHelper d depth) (Below d) := by
  induction depth with
  | zero =>
    intro blocksUsed b blocksUsed' hok
    cases hok
  | succ depth ih =>
    intro blocksUsed b blocksUsed' hok x
    by_cases hlt : b.toNat < fsDisksize
    swap
    · rw [initialTraverseHelper, if_neg hlt] at hok
      cases hok
    by_cases hsize : (inodeAt d b).size.toNat ≤ 124
    swap
    · rw [initialTraverseHelper, if_pos hlt] at hok
      cases (if_pos (not_le.mp hsize)).symm.trans hok
    rw [initialTraverseHelper_succ hlt hsize] at hok
    cases hfold : (inodeAt d b).used.foldlM insertNew blocksUsed with
    | error stop =>
      rw [hfold] at hok
      cases hok
    | ok used =>
      rw [hfold, Except.bind] at hok
      have hused := insertNew_marks.foldlM blocksUsed _ used hfold x
      simp only [exists_eq_right'] at hused
      rw [below_iff, ← or_assoc, ← hused]
      split_ifs at hok with hfile hdir
      · obtain rfl := Except.ok.inj hok
        rw [entries, if_pos hfile]
        simp
      · rw [(visitBlock_marks ih).foldlM used _ blocksUsed' hok x]
        refine or_congr_right ⟨?_, ?_⟩
        · rintro ⟨y, hy, e, he, hx⟩
          exact ⟨e, mem_entries.mpr ⟨hfile, y, hy, he⟩, hx⟩
        · rintro ⟨e, he, hx⟩
          obtain ⟨-, y, hy, he⟩ := mem_entries.mp he
          exact ⟨y, hy, e, he, hx⟩

/-! ### The end of the traversal -/

/-- The number of blocks of the disk other than block 0 among those that have been used. -/
noncomputable def usedCount (blocksUsed : List BlockNo) : ℕ :=
  {x | x ∈ blocksUsed ∧ x ≠ 0 ∧ x.toNat < fsDisksize}.ncard

theorem finite_range : {x : BlockNo | x ≠ 0 ∧ x.toNat < fsDisksize}.Finite :=
  Set.finite_of_ncard_ne_zero (by rw [ncard_range]; decide)

theorem usedCount_lt (blocksUsed : List BlockNo) : usedCount blocksUsed < fsDisksize := by
  have hle : usedCount blocksUsed ≤ {x : BlockNo | x ≠ 0 ∧ x.toNat < fsDisksize}.ncard :=
    Set.ncard_le_ncard (fun _ hx => hx.2) finite_range
  rw [ncard_range] at hle
  rw [fsDisksize_eq]
  omega

theorem usedCount_mono (h : blocksUsed ⊆ blocksUsed') :
    usedCount blocksUsed ≤ usedCount blocksUsed' :=
  Set.ncard_le_ncard (fun _ hx => ⟨h hx.1, hx.2⟩) (finite_range.subset fun _ hx => hx.2)

theorem usedCount_cons (hx : x ∉ blocksUsed) (h0 : x ≠ 0) (hlt : x.toNat < fsDisksize) :
    usedCount blocksUsed < usedCount (x :: blocksUsed) := by
  refine Set.ncard_lt_ncard ⟨fun y hy => ⟨List.mem_cons_of_mem x hy.1, hy.2⟩, fun hsub => ?_⟩
    (finite_range.subset fun _ hy => hy.2)
  exact hx (hsub ⟨List.mem_cons_self, h0, hlt⟩).1

/-- The bound on the recursion is not reached: for each level, there is a block that has been used
in addition. -/
theorem initialTraverseHelper_ne_deep (d : Disk) (depth : ℕ) :
    ∀ (blocksUsed : List BlockNo) (b : BlockNo), fsDisksize ≤ usedCount blocksUsed + depth →
      (b.toNat < fsDisksize → fsDisksize < usedCount blocksUsed + depth) →
      initialTraverseHelper d depth blocksUsed b ≠ .error .deep := by
  induction depth with
  | zero =>
    intro blocksUsed b hdepth
    have := usedCount_lt blocksUsed
    omega
  | succ depth ih =>
    intro blocksUsed b _ hdepth
    by_cases hlt : b.toNat < fsDisksize
    swap
    · rw [initialTraverseHelper, if_neg hlt]
      simp
    by_cases hsize : (inodeAt d b).size.toNat ≤ 124
    swap
    · rw [initialTraverseHelper, if_pos hlt]
      refine fun heq => ?_
      cases (if_pos (not_le.mp hsize)).symm.trans heq
    rw [initialTraverseHelper_succ hlt hsize]
    cases hfold : (inodeAt d b).used.foldlM insertNew blocksUsed with
    | error stop =>
      rintro ⟨⟩
      exact insertNew_marks.foldlM_ne_error (fun _ _ _ _ => insertNew_ne_deep) hfold
    | ok used =>
      have hmarks := initialTraverseHelper_marks d depth
      have hcount := usedCount_mono (insertNew_marks.foldlM.subset hfold)
      rw [Except.bind]
      split_ifs with hfile hdir
      · simp
      · refine (visitBlock_marks hmarks).foldlM_ne_error fun y _ used₁ hsub₁ => ?_
        rw [visitBlock]
        split_ifs with hy
        swap
        · simp
        refine (visit_marks hmarks).foldlM_ne_error fun e he used₂ hsub₂ => ?_
        have hcount₂ := usedCount_mono (List.Subset.trans hsub₁ hsub₂)
        rw [visit]
        by_cases hmem : e.inodeBlock ∈ used₂
        · rw [insertNew, if_pos hmem]
          rintro ⟨⟩
        rw [insertNew_of_notMem hmem]
        have hcons := usedCount_mono (List.subset_cons_self e.inodeBlock used₂)
        have hdepth' := hdepth hlt
        refine ih (e.inodeBlock :: used₂) e.inodeBlock (by omega) fun hinode => ?_
        have hnew := usedCount_cons hmem (mem_usedEntries.mp he).2 hinode
        omega
      · simp

/-- A larger bound on the recursion makes no difference. -/
theorem initialTraverseHelper_succ_eq (d : Disk) (depth : ℕ) :
    ∀ (blocksUsed : List BlockNo) (b : BlockNo),
      initialTraverseHelper d depth blocksUsed b ≠ .error .deep →
      initialTraverseHelper d (depth + 1) blocksUsed b =
        initialTraverseHelper d depth blocksUsed b := by
  induction depth with
  | zero => exact fun _ _ h => absurd rfl h
  | succ depth ih =>
    intro blocksUsed b h
    by_cases hlt : b.toNat < fsDisksize
    swap
    · rw [initialTraverseHelper, initialTraverseHelper, if_neg hlt, if_neg hlt]
    by_cases hsize : (inodeAt d b).size.toNat ≤ 124
    swap
    · rw [initialTraverseHelper, initialTraverseHelper, if_pos hlt, if_pos hlt]
      exact (if_pos (not_le.mp hsize)).trans (if_pos (not_le.mp hsize)).symm
    have hbody (blocksUsed : List BlockNo) (e : FsDirentry)
        (hne : visit d depth blocksUsed e ≠ .error .deep) :
        visit d (depth + 1) blocksUsed e = visit d depth blocksUsed e := by
      rw [visit] at hne ⊢
      rw [visit]
      cases hinsert : insertNew blocksUsed e.inodeBlock with
      | error stop => rfl
      | ok used =>
        rw [hinsert] at hne
        exact ih used e.inodeBlock hne
    have hblock (blocksUsed : List BlockNo) (y : BlockNo)
        (hne : visitBlock d depth blocksUsed y ≠ .error .deep) :
        visitBlock d (depth + 1) blocksUsed y = visitBlock d depth blocksUsed y := by
      rw [visitBlock] at hne ⊢
      rw [visitBlock]
      split_ifs at hne ⊢
      · exact foldlM_congr_of_ne_error hbody hne
      · rfl
    rw [initialTraverseHelper_succ hlt hsize] at h ⊢
    rw [initialTraverseHelper_succ hlt hsize]
    cases hfold : (inodeAt d b).used.foldlM insertNew blocksUsed with
    | error stop => rfl
    | ok used =>
      rw [hfold, Except.bind] at h
      rw [Except.bind, Except.bind]
      split_ifs at h ⊢
      · rfl
      · exact foldlM_congr_of_ne_error hblock h
      · rfl

/-- The traversal from the root ends, and the bound on the recursion makes no difference. -/
theorem initialTraverseHelper_ends (d : Disk) :
    (∃ blocksUsed, ∀ depth > fsDisksize, initialTraverseHelper d depth [] 0 = .ok blocksUsed) ∨
      ∀ depth > fsDisksize, initialTraverseHelper d depth [] 0 = .error .failed := by
  have hne (depth : ℕ) (hdepth : fsDisksize < depth) :
      initialTraverseHelper d depth [] 0 ≠ .error .deep :=
    initialTraverseHelper_ne_deep d depth [] 0 (by omega) fun _ => by omega
  have hsame (k : ℕ) : initialTraverseHelper d (fsDisksize + 1 + k) [] 0 =
      initialTraverseHelper d (fsDisksize + 1) [] 0 := by
    induction k with
    | zero => rfl
    | succ k ih =>
      rw [← ih]
      exact initialTraverseHelper_succ_eq d _ [] 0 (hne (fsDisksize + 1 + k) (by omega))
  have hsame' (depth : ℕ) (hdepth : fsDisksize < depth) : initialTraverseHelper d depth [] 0 =
      initialTraverseHelper d (fsDisksize + 1) [] 0 := by
    obtain ⟨k, rfl⟩ := Nat.exists_eq_add_of_le hdepth
    exact hsame k
  cases hresult : initialTraverseHelper d (fsDisksize + 1) [] 0 with
  | ok blocksUsed => exact Or.inl ⟨blocksUsed, fun depth hd => (hsame' depth hd).trans hresult⟩
  | error stop =>
    cases stop with
    | failed => exact Or.inr fun depth hd => (hsame' depth hd).trans hresult
    | deep => exact absurd hresult (hne _ (Nat.lt_succ_self _))

/-! ### Trees -/

/-- The disk holds a tree in which no block is referenced twice. -/
structure TreeImage (d : Disk) : Prop where
  type : ∀ b, Reached d b → (inodeAt d b).type = fileType ∨ (inodeAt d b).type = dirType
  size_le : ∀ b, Reached d b → (inodeAt d b).size.toNat ≤ 124
  inode_lt : ∀ b, Reached d b → b.toNat < fsDisksize
  block_lt : ∀ b, Reached d b → (inodeAt d b).type = dirType →
    ∀ x ∈ (inodeAt d b).used, x.toNat < fsDisksize
  refs_nodup : ∀ b, Reached d b → (refs d b).Nodup
  refs_disjoint : ∀ b b', Reached d b → Reached d b' → b ≠ b' → (refs d b).Disjoint (refs d b')

namespace TreeImage

theorem eq_of_mem_refs (h : TreeImage d) {b' : BlockNo} (hb : Reached d b) (hb' : Reached d b')
    (hx : x ∈ refs d b) (hx' : x ∈ refs d b') : b = b' := by
  by_contra hne
  exact h.refs_disjoint b b' hb hb' hne hx hx'

theorem singleParents (h : TreeImage d) : SingleParents (Child d) 0 where
  orphan _ := not_child_zero
  parent _ _ _ ha ha' hb hb' := h.eq_of_mem_refs ha ha' (mem_refs_of_child hb)
    (mem_refs_of_child hb')

/-- What is below an entry of an inode is not referenced from the inode itself. -/
theorem notMem_refs_of_below (h : TreeImage d) (hb : Reached d b) (hbc : Child d b c)
    (hx : Below d c x) : x ∉ refs d b := by
  obtain ⟨c', hcc', hx⟩ := hx
  intro hx'
  obtain rfl := h.eq_of_mem_refs ((hb.tail hbc).trans hcc') hb hx hx'
  exact h.singleParents.acyclic hb (TransGen.head' hbc hcc')

/-- Different entries of an inode have different blocks below them. -/
theorem eq_of_below (h : TreeImage d) (hb : Reached d b) {c c' : BlockNo} (hc : Child d b c)
    (hc' : Child d b c') (hx : Below d c x) (hx' : Below d c' x) : c = c' := by
  obtain ⟨a, ha, hx⟩ := hx
  obtain ⟨a', ha', hx'⟩ := hx'
  obtain rfl := h.eq_of_mem_refs ((hb.tail hc).trans ha) ((hb.tail hc').trans ha') hx hx'
  exact h.singleParents.sibling_eq hb hc hc' ha ha'

/-- The loops over the blocks of a directory and the entries of each block visit its used
entries. -/
theorem foldlM_visitBlock {xs : List BlockNo} (hxs : ∀ x ∈ xs, x.toNat < fsDisksize) :
    xs.foldlM (visitBlock d depth) blocksUsed =
      (xs.flatMap fun x => usedEntries (direntriesAt d x)).foldlM (visit d depth) blocksUsed := by
  induction xs generalizing blocksUsed with
  | nil => rfl
  | cons x xs ih =>
    obtain ⟨hx, hxs⟩ := List.forall_mem_cons.mp hxs
    rw [List.foldlM_cons, List.flatMap_cons, List.foldlM_append, visitBlock, if_pos hx]
    exact bind_congr fun used => ih hxs

/-- No assertion fails below an inode if nothing there has been used before. -/
theorem initialTraverseHelper_ne_failed (h : TreeImage d) (depth : ℕ) :
    ∀ (blocksUsed : List BlockNo) (b : BlockNo), Reached d b →
      (∀ x, Below d b x → x ∉ blocksUsed) →
      initialTraverseHelper d depth blocksUsed b ≠ .error .failed := by
  induction depth with
  | zero => exact fun _ _ _ _ => by simp [initialTraverseHelper]
  | succ depth ih =>
    intro blocksUsed b hb hnew
    have hrefs {x : BlockNo} (hx : x ∈ refs d b) : x ∉ blocksUsed :=
      hnew x ⟨b, ReflTransGen.refl, hx⟩
    obtain ⟨hused, hinodes, hdisj⟩ := List.nodup_append.mp (h.refs_nodup b hb)
    rw [initialTraverseHelper_succ (h.inode_lt b hb) (h.size_le b hb)]
    cases hfold : (inodeAt d b).used.foldlM insertNew blocksUsed with
    | error stop =>
      rintro ⟨⟩
      refine insertNew_marks.foldlM_ne_error_of_disjoint (fun y _ used hy => ?_) ?_ ?_ hfold
      · rw [insertNew_of_notMem (hy y rfl)]
        simp
      · exact hused.imp fun hne x hx hx' => hne (hx.symm.trans hx')
      · rintro y hy x rfl
        exact hrefs (List.mem_append_left _ hy)
    | ok used =>
      have hmem := insertNew_marks.foldlM blocksUsed _ used hfold
      rw [Except.bind]
      split_ifs with hfile hdir
      · simp
      swap
      · exact absurd ((h.type b hb).resolve_left hfile) hdir
      rw [foldlM_visitBlock (h.block_lt b hb hdir)]
      have hentries : ((inodeAt d b).used.flatMap fun x => usedEntries (direntriesAt d x)) =
          entries d b := by
        rw [entries, if_neg hfile]
      rw [hentries]
      refine (visit_marks (initialTraverseHelper_marks d depth)).foldlM_ne_error_of_disjoint
        (fun e he used₁ hused₁ => ?_) ?_ ?_
      · have hchild : Child d b e.inodeBlock := ⟨e, he, rfl⟩
        rw [visit, insertNew_of_notMem (hused₁ e.inodeBlock (Or.inl rfl))]
        refine ih (e.inodeBlock :: used₁) e.inodeBlock (hb.tail hchild) fun x hx hmem => ?_
        rcases List.mem_cons.mp hmem with rfl | hmem
        · exact h.notMem_refs_of_below hb hchild hx (mem_refs_of_child hchild)
        · exact hused₁ x (Or.inr hx) hmem
      · refine (List.pairwise_map.mp hinodes).imp_of_mem fun {e e'} he he' hne x hx hx' => ?_
        have hchild : Child d b e.inodeBlock := ⟨e, he, rfl⟩
        have hchild' : Child d b e'.inodeBlock := ⟨e', he', rfl⟩
        rcases hx with rfl | hx
        · rcases hx' with heq | hx'
          · exact hne heq
          · exact h.notMem_refs_of_below hb hchild' hx' (mem_refs_of_child hchild)
        · rcases hx' with rfl | hx'
          · exact h.notMem_refs_of_below hb hchild hx (mem_refs_of_child hchild')
          · exact hne (h.eq_of_below hb hchild hchild' hx hx')
      · intro e he x hx hxmem
        have hchild : Child d b e.inodeBlock := ⟨e, he, rfl⟩
        have hbelow : Below d b x := below_iff.mpr (Or.inr ⟨e, he, hx⟩)
        rcases (hmem x).mp hxmem with hold | ⟨y, hy, rfl⟩
        · exact hnew x hbelow hold
        · rcases hx with rfl | hx
          · exact hdisj _ hy _ (List.mem_map_of_mem he) rfl
          · exact h.notMem_refs_of_below hb hchild hx (List.mem_append_left _ hy)

/-- The traversal of a tree passes every assertion. -/
theorem exists_traversal (h : TreeImage d) :
    ∃ blocksUsed, initialTraverseHelper d (fsDisksize + 1) [] 0 = .ok blocksUsed := by
  rcases initialTraverseHelper_ends d with ⟨blocksUsed, hok⟩ | hfail
  · exact ⟨blocksUsed, hok _ (Nat.lt_succ_self _)⟩
  · exact absurd (hfail _ (Nat.lt_succ_self _))
      (h.initialTraverseHelper_ne_failed _ [] 0 ReflTransGen.refl (by simp))

end TreeImage

/-! ### Well-formed disks -/

theorem WellFormed.lookup_entry (hwf : WellFormed d) (hb : Linked d b) {e : FsDirentry}
    (he : e ∈ entries d b) : lookup d b (arrayStr e.name) = some e.inodeBlock :=
  (lookup_eq_some_iff (hwf.node b hb).names_nodup).mpr ⟨e, he, rfl, rfl⟩

/-- The inodes of a well-formed tree are those that are reached. -/
theorem WellFormed.reached_iff (hwf : WellFormed d) : Reached d b ↔ Linked d b := by
  constructor
  · intro h
    induction h with
    | refl => exact linked_root d
    | tail _ hchild ih =>
      obtain ⟨e, he, rfl⟩ := hchild
      exact ih.child (hwf.lookup_entry ih he)
  · rintro ⟨p, hp⟩
    induction p using List.reverseRecOn generalizing b with
    | nil =>
      obtain rfl := Option.some.inj hp
      exact ReflTransGen.refl
    | append_singleton p n ih =>
      rw [resolvePath, walk_concat, Option.bind_eq_some_iff] at hp
      obtain ⟨b', hp, hn⟩ := hp
      obtain ⟨e, he, rfl, -⟩ := lookup_eq_some hn
      exact (ih hp).tail ⟨e, he, rfl⟩

theorem WellFormed.referenced_iff (hwf : WellFormed d) : Referenced d x ↔ Used d x :=
  exists_congr fun _ => and_congr_left fun _ => hwf.reached_iff

theorem WellFormed.treeImage (hwf : WellFormed d) : TreeImage d where
  type b hb := (hwf.node b (hwf.reached_iff.mp hb)).type
  size_le b hb := (hwf.node b (hwf.reached_iff.mp hb)).size_le
  inode_lt _ hb := hwf.linked_lt (hwf.reached_iff.mp hb)
  block_lt b hb _ x hx :=
    ((hwf.node b (hwf.reached_iff.mp hb)).refs_range x (List.mem_append_left _ hx)).2
  refs_nodup b hb := (hwf.node b (hwf.reached_iff.mp hb)).refs_nodup
  refs_disjoint b b' hb hb' :=
    hwf.refs_disjoint b b' (hwf.reached_iff.mp hb) (hwf.reached_iff.mp hb')

/-! ### The free blocks -/

theorem mem_notUsed :
    x ∈ notUsed blocksUsed ↔ (x ≠ 0 ∧ x.toNat < fsDisksize) ∧ x ∉ blocksUsed := by
  rw [notUsed, List.mem_filter, decide_eq_true_eq, List.mem_map]
  refine and_congr_left fun _ => ?_
  simp only [List.mem_range'_1]
  constructor
  · rintro ⟨n, ⟨h1, hlt⟩, rfl⟩
    have hn : n < fsDisksize := by rw [fsDisksize_eq] at hlt ⊢; omega
    refine ⟨fun h0 => ?_, by rwa [toNat_ofNat_blockNo hn]⟩
    have h := toNat_ofNat_blockNo hn
    rw [h0, UInt32.toNat_zero] at h
    omega
  · rintro ⟨h0, hlt⟩
    refine ⟨x.toNat, ⟨?_, by rw [fsDisksize_eq] at hlt ⊢; omega⟩, UInt32.ofNat_toNat⟩
    by_contra hle
    exact h0 (UInt32.toNat_inj.mp (by simpa using hle))

/-- The free blocks are in ascending order. -/
theorem pairwise_notUsed (blocksUsed : List BlockNo) : (notUsed blocksUsed).Pairwise (· < ·) := by
  refine List.Pairwise.filter _ (List.pairwise_map.mpr ?_)
  refine List.Pairwise.imp_of_mem (fun {m n} hm hn hlt => ?_) (List.pairwise_lt_range' 1)
  rw [List.mem_range'_1] at hm hn
  rw [UInt32.lt_iff_toNat_lt, toNat_ofNat_blockNo (by simp at hm ⊢; omega),
    toNat_ofNat_blockNo (by simp at hn ⊢; omega)]
  exact hlt

theorem fsInitFrom_eq (d : Disk) (freeDiskBlocks : List BlockNo) : fsInitFrom d freeDiskBlocks =
    (fsInitFrom d []).map (freeDiskBlocks ++ ·) := by
  rw [fsInitFrom, fsInitFrom]
  cases initialTraverseHelper d (fsDisksize + 1) [] 0 with
  | error stop => rfl
  | ok blocksUsed => rfl

theorem TreeImage.exists_fsInitFrom (h : TreeImage d) : ∃ free, fsInitFrom d [] = .ok free := by
  obtain ⟨blocksUsed, hok⟩ := h.exists_traversal
  exact ⟨[] ++ notUsed blocksUsed, by rw [fsInitFrom, hok]; rfl⟩

/-- What `fs_init` leaves in the empty list. -/
theorem fsInitFrom_nil {free : List BlockNo} (h : fsInitFrom d [] = .ok free) :
    free.Pairwise (· < ·) ∧
      ∀ x, x ∈ free ↔ (x ≠ 0 ∧ x.toNat < fsDisksize) ∧ ¬Referenced d x := by
  rw [fsInitFrom] at h
  cases hhelper : initialTraverseHelper d (fsDisksize + 1) [] 0 with
  | error stop =>
    rw [hhelper] at h
    cases h
  | ok blocksUsed =>
    rw [hhelper] at h
    obtain rfl : [] ++ notUsed blocksUsed = free := Except.ok.inj h
    refine ⟨pairwise_notUsed blocksUsed, fun x => ?_⟩
    have hmarks := initialTraverseHelper_marks d _ [] 0 blocksUsed hhelper x
    rw [List.mem_nil_iff, false_or] at hmarks
    rw [List.nil_append, mem_notUsed, hmarks]
    rfl

/-- On a well-formed disk, `fs_init` lists the unused blocks. -/
theorem exists_fsInit (hwf : WellFormed d) :
    ∃ free, fsInit d = some free ∧ free.Nodup ∧ ∀ x, x ∈ free ↔ x ∈ unused d := by
  obtain ⟨free, hfree⟩ := hwf.treeImage.exists_fsInitFrom
  obtain ⟨hascending, hmem⟩ := fsInitFrom_nil hfree
  refine ⟨free, by rw [fsInit, hfree]; rfl, hascending.imp fun hlt => (UInt32.ne_of_lt hlt),
    fun x => ?_⟩
  rw [hmem, hwf.referenced_iff, and_assoc]
  rfl

end OsFromScratch.FileServer
