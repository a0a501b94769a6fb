import Mathlib.Data.FinEnum
import Mathlib.Data.Set.Card
import OsFromScratch.FileServer.Filesystem
import OsFromScratch.Lib.PathTree

/-!
# The tree on the disk

The file system that a disk image holds: the inode in block 0 is the root directory, a directory
lists the inodes of its entries, and a path of names leads from the root to an inode. A disk is
well formed when every block is referenced at most once from this tree and every inode of the
tree satisfies the conditions of the code.

## Main definitions

* `inodeAt`, `direntriesAt`, `entries`, `refs` — a block read as an inode or as directory entries,
  the used entries of a directory and the blocks that an inode refers to.
* `lookup`, `resolvePath`, `Linked` — the inode of a name in a directory, the inode at the end of a
  path, and the inodes that are part of the tree.
* `NodeOk`, `WellFormed` — well-formed inodes and disks.
* `Used`, `unused`, `footprint` — the blocks of the tree, the other blocks, and the blocks an inode
  consists of.

## Main results

* `WellFormed.isTree` — the inodes of a well-formed disk form a tree.
* `WellFormed.footprint_disjoint` — different inodes consist of different blocks.
* `Agree.lookup`, `Agree.refs`, `Agree.nodeOk` — an inode depends on its footprint only.
-/

namespace OsFromScratch.FileServer

/-! ### Inodes and directory entries -/

/-- A block read as an inode. -/
def inodeAt (d : Disk) (b : BlockNo) : FsInode :=
  FsInode.ofBlock (d b)

/-- A block read as directory entries. -/
def direntriesAt (d : Disk) (b : BlockNo) : Direntries :=
  Direntries.ofBlock (d b)

/-- The blocks that belong to an inode. -/
def FsInode.used (inode : FsInode) : List BlockNo :=
  inode.blocks.toList.take inode.size.toNat

/-- The used entries of a directory block. -/
def usedEntries (direntries : Direntries) : List FsDirentry :=
  direntries.toList.filter fun e => e.inodeBlock ≠ 0

/-- The used entries of a directory. -/
def entries (d : Disk) (b : BlockNo) : List FsDirentry :=
  if (inodeAt d b).type = fileType then []
  else (inodeAt d b).used.flatMap fun x => usedEntries (direntriesAt d x)

/-- The blocks that an inode refers to: its own blocks and the inodes of its entries. -/
def refs (d : Disk) (b : BlockNo) : List BlockNo :=
  (inodeAt d b).used ++ (entries d b).map FsDirentry.inodeBlock

theorem mem_usedEntries {direntries : Direntries} {e : FsDirentry} :
    e ∈ usedEntries direntries ↔ (∃ j : Fin 8, direntries.get j = e) ∧ e.inodeBlock ≠ 0 := by
  simp only [usedEntries, List.mem_filter, decide_eq_true_eq, and_congr_left_iff]
  intro _
  rw [Vector.mem_toList_iff, Vector.mem_iff_getElem]
  exact ⟨fun ⟨i, hi, h⟩ => ⟨⟨i, hi⟩, h⟩, fun ⟨j, h⟩ => ⟨j, j.isLt, h⟩⟩

theorem mem_entries {d : Disk} {b : BlockNo} {e : FsDirentry} :
    e ∈ entries d b ↔ (inodeAt d b).type ≠ fileType ∧
      ∃ x ∈ (inodeAt d b).used, e ∈ usedEntries (direntriesAt d x) := by
  rw [entries]
  split_ifs with h
  · simp [h]
  · simp [h]

/-! ### Looking up names -/

theorem FsDirentry.hasName_iff {e : FsDirentry} {name : Bytes} :
    e.hasName name = true ↔ e.inodeBlock ≠ 0 ∧ arrayStr e.name = name := by
  simp [FsDirentry.hasName]

theorem findName_eq_some {direntries : Direntries} {name : Bytes} {j : Fin 8}
    (h : findName direntries name = some j) : (direntries.get j).hasName name = true := by
  rw [findName] at h
  exact List.find?_some (p := fun j : Fin 8 => (direntries.get j).hasName name) h

theorem findName_eq_none {direntries : Direntries} {name : Bytes} :
    findName direntries name = none ↔ ∀ j : Fin 8, (direntries.get j).hasName name = false := by
  simp [findName, List.mem_finRange]

/-- The search of a directory for a name, as `searchDir` performs it on the disk `d`. -/
def searchBlocks (d : Disk) (name : Bytes) : ℕ → List BlockNo → Option DirSlot
  | _, [] => none
  | i, x :: xs =>
    match findName (direntriesAt d x) name with
    | some slot => some ⟨i, x, direntriesAt d x, slot⟩
    | none => searchBlocks d name (i + 1) xs

theorem searchBlocks_eq_some {d : Disk} {name : Bytes} {i : ℕ} {xs : List BlockNo} {s : DirSlot}
    (h : searchBlocks d name i xs = some s) :
    (∃ hk : i ≤ s.index ∧ s.index - i < xs.length, xs[s.index - i] = s.block) ∧
      s.direntries = direntriesAt d s.block ∧ (s.direntries.get s.slot).hasName name = true := by
  induction xs generalizing i with
  | nil => simp [searchBlocks] at h
  | cons x xs ih =>
    rw [searchBlocks] at h
    split at h
    · next slot hslot =>
      obtain rfl := Option.some.inj h
      exact ⟨⟨by simp, by simp⟩, rfl, findName_eq_some hslot⟩
    · obtain ⟨⟨⟨hle, hlt⟩, hx⟩, h2, h3⟩ := ih h
      refine ⟨⟨⟨by omega, by simp only [List.length_cons]; omega⟩, ?_⟩, h2, h3⟩
      have hsub : s.index - i = s.index - (i + 1) + 1 := by omega
      simp only [hsub, List.getElem_cons_succ, hx]

theorem searchBlocks_eq_none {d : Disk} {name : Bytes} {i : ℕ} {xs : List BlockNo} :
    searchBlocks d name i xs = none ↔
      ∀ x ∈ xs, ∀ j : Fin 8, ((direntriesAt d x).get j).hasName name = false := by
  induction xs generalizing i with
  | nil => simp [searchBlocks]
  | cons x xs ih =>
    rw [searchBlocks, List.forall_mem_cons, ← findName_eq_none]
    split
    · next slot hslot => simp [hslot]
    · next hnone => simp [hnone, ih]

/-- The slot of a name in a directory. -/
def lookupSlot (d : Disk) (b : BlockNo) (name : Bytes) : Option DirSlot :=
  if (inodeAt d b).type = fileType then none else searchBlocks d name 0 (inodeAt d b).used

/-- The inode of a name in a directory. -/
def lookup (d : Disk) (b : BlockNo) (name : Bytes) : Option BlockNo :=
  (lookupSlot d b name).map DirSlot.inodeBlock

/-- The inode at the end of a path. -/
def resolvePath (d : Disk) (p : Path) : Option BlockNo :=
  walk (lookup d) 0 p

/-- The inode is part of the tree. -/
def Linked (d : Disk) (b : BlockNo) : Prop :=
  ∃ p, resolvePath d p = some b

theorem lookupSlot_eq_some {d : Disk} {b : BlockNo} {name : Bytes} {s : DirSlot}
    (h : lookupSlot d b name = some s) :
    (inodeAt d b).type ≠ fileType ∧ (inodeAt d b).used[s.index]? = some s.block ∧
      s.direntries = direntriesAt d s.block ∧ s.inodeBlock ≠ 0 ∧
      arrayStr (s.direntries.get s.slot).name = name := by
  rw [lookupSlot, ite_eq_iff] at h
  simp only [reduceCtorEq, and_false, false_or] at h
  obtain ⟨⟨⟨_, hlt⟩, hx⟩, h2, h3⟩ := searchBlocks_eq_some h.2
  simp only [Nat.sub_zero] at hlt hx
  rw [FsDirentry.hasName_iff] at h3
  exact ⟨h.1, List.getElem?_eq_some_iff.mpr ⟨hlt, hx⟩, h2, h3.1, h3.2⟩

theorem DirSlot.mem_entries {d : Disk} {b : BlockNo} {name : Bytes} {s : DirSlot}
    (h : lookupSlot d b name = some s) : s.direntries.get s.slot ∈ entries d b := by
  obtain ⟨h1, h2, h3, h4, -⟩ := lookupSlot_eq_some h
  rw [FileServer.mem_entries]
  refine ⟨h1, s.block, List.mem_of_getElem? h2, mem_usedEntries.mpr ⟨⟨s.slot, by rw [h3]⟩, h4⟩⟩

theorem lookup_eq_some {d : Disk} {b c : BlockNo} {name : Bytes} (h : lookup d b name = some c) :
    ∃ e ∈ entries d b, e.inodeBlock = c ∧ arrayStr e.name = name := by
  obtain ⟨s, hs, rfl⟩ := Option.map_eq_some_iff.mp h
  exact ⟨_, DirSlot.mem_entries hs, rfl, (lookupSlot_eq_some hs).2.2.2.2⟩

theorem lookup_eq_none {d : Disk} {b : BlockNo} {name : Bytes} :
    lookup d b name = none ↔ ∀ e ∈ entries d b, arrayStr e.name ≠ name := by
  rw [lookup, Option.map_eq_none_iff, lookupSlot]
  split_ifs with h
  · simp [entries, h]
  · rw [searchBlocks_eq_none]
    constructor
    · intro hall e he heq
      obtain ⟨-, x, hx, he⟩ := mem_entries.mp he
      obtain ⟨⟨j, rfl⟩, h0⟩ := mem_usedEntries.mp he
      have := hall x hx j
      rw [← Bool.not_eq_true, FsDirentry.hasName_iff] at this
      exact this ⟨h0, heq⟩
    · intro hall x hx j
      rw [← Bool.not_eq_true, FsDirentry.hasName_iff]
      rintro ⟨h0, heq⟩
      exact hall _ (mem_entries.mpr ⟨h, x, hx, mem_usedEntries.mpr ⟨⟨j, rfl⟩, h0⟩⟩) heq

/-! ### Well-formed disks -/

/-- The conditions on one inode of the tree. -/
structure NodeOk (d : Disk) (b : BlockNo) : Prop where
  type : (inodeAt d b).type = fileType ∨ (inodeAt d b).type = dirType
  size_le : (inodeAt d b).size.toNat ≤ 124
  owner : Terminated (inodeAt d b).owner
  refs_range : ∀ x ∈ refs d b, x ≠ 0 ∧ x.toNat < fsDisksize
  refs_nodup : (refs d b).Nodup
  names_terminated : ∀ e ∈ entries d b, Terminated e.name
  names_nodup : ((entries d b).map fun e => arrayStr e.name).Nodup
  block_used : (inodeAt d b).type = dirType →
    ∀ x ∈ (inodeAt d b).used, usedEntries (direntriesAt d x) ≠ []

/-- A well-formed disk: the root directory is in block 0, every inode of the tree is well formed,
and no block is referenced twice. -/
structure WellFormed (d : Disk) : Prop where
  root : (inodeAt d 0).type = dirType
  node : ∀ b, Linked d b → NodeOk d b
  refs_disjoint : ∀ b b', Linked d b → Linked d b' → b ≠ b' → (refs d b).Disjoint (refs d b')

/-- The block is referenced from the tree. -/
def Used (d : Disk) (x : BlockNo) : Prop :=
  ∃ b, Linked d b ∧ x ∈ refs d b

/-- The blocks other than block 0 that are not referenced from the tree. -/
def unused (d : Disk) : Set BlockNo :=
  {x | x ≠ 0 ∧ x.toNat < fsDisksize ∧ ¬Used d x}

/-- The blocks an inode consists of. -/
def footprint (d : Disk) (b : BlockNo) : List BlockNo :=
  b :: (inodeAt d b).used

variable {d d' : Disk} {b b' c x : BlockNo}

/-- The number of blocks other than block 0. -/
theorem ncard_range : {x : BlockNo | x ≠ 0 ∧ x.toNat < fsDisksize}.ncard = 4095 := by
  have himage : {x : BlockNo | x ≠ 0 ∧ x.toNat < fsDisksize} =
      UInt32.ofNat '' (Set.Ico 1 4096) := by
    ext x
    simp only [fsDisksize_eq, Set.mem_ofPred_eq, Set.mem_image, Set.mem_Ico]
    constructor
    · rintro ⟨h0, hlt⟩
      refine ⟨x.toNat, ⟨?_, hlt⟩, UInt32.ofNat_toNat⟩
      by_contra hle
      exact h0 (UInt32.toNat_inj.mp (by simpa using hle))
    · rintro ⟨n, ⟨h1, hlt⟩, rfl⟩
      have hn : (UInt32.ofNat n).toNat = n := toNat_ofNat_blockNo hlt
      refine ⟨fun h0 => ?_, by rwa [hn]⟩
      rw [h0, UInt32.toNat_zero] at hn
      omega
  have hinj : Set.InjOn UInt32.ofNat (Set.Ico 1 4096) := by
    intro m hm n hn heq
    have h := congrArg UInt32.toNat heq
    rwa [toNat_ofNat_blockNo hm.2, toNat_ofNat_blockNo hn.2] at h
  rw [himage, hinj.ncard_image, Set.ncard_eq_toFinset_card', Set.toFinset_Ico, Nat.card_Ico]

theorem linked_root (d : Disk) : Linked d 0 :=
  ⟨[], rfl⟩

theorem Linked.child (h : Linked d b) {n : Bytes} (hc : lookup d b n = some c) :
    Linked d c := by
  obtain ⟨p, hp⟩ := h
  exact ⟨p ++ [n], walk_concat_eq_some.mpr ⟨b, hp, hc⟩⟩

theorem mem_refs_of_lookup {name : Bytes} (hc : lookup d b name = some c) : c ∈ refs d b := by
  obtain ⟨e, he, rfl, -⟩ := lookup_eq_some hc
  exact List.mem_append_right _ (List.mem_map_of_mem he)

/-- With distinct names, every entry is found by its name. -/
theorem lookup_eq_some_iff (h : ((entries d b).map fun e => arrayStr e.name).Nodup)
    {name : Bytes} : lookup d b name = some c ↔
      ∃ e ∈ entries d b, e.inodeBlock = c ∧ arrayStr e.name = name := by
  refine ⟨lookup_eq_some, ?_⟩
  rintro ⟨e, he, rfl, rfl⟩
  cases hl : lookup d b (arrayStr e.name) with
  | none => exact absurd rfl (lookup_eq_none.mp hl e he)
  | some c =>
    obtain ⟨e', he', rfl, hname⟩ := lookup_eq_some hl
    rw [List.inj_on_of_nodup_map h he' he hname]

theorem Linked.eq_root_or_used (h : Linked d b) : b = 0 ∨ Used d b := by
  obtain ⟨p, hp⟩ := h
  rcases List.eq_nil_or_concat' p with rfl | ⟨q, n, rfl⟩
  · exact Or.inl (Option.some.inj hp).symm
  · obtain ⟨b', hb', hn⟩ := walk_concat_eq_some.mp hp
    exact Or.inr ⟨b', ⟨q, hb'⟩, mem_refs_of_lookup hn⟩

namespace WellFormed

/-- The inodes of a well-formed disk form a tree. -/
theorem isTree (h : WellFormed d) : IsTree (lookup d) 0 where
  root_ne p b n hb hn :=
    ((h.node b ⟨p, hb⟩).refs_range 0 (mem_refs_of_lookup hn)).1 rfl
  edge_unique p q b b' n n' c hb hb' hn hn' := by
    have hbb : b = b' := by
      by_contra hne
      exact h.refs_disjoint b b' ⟨p, hb⟩ ⟨q, hb'⟩ hne (mem_refs_of_lookup hn)
        (mem_refs_of_lookup hn')
    subst hbb
    obtain ⟨e, he, rfl, rfl⟩ := lookup_eq_some hn
    obtain ⟨e', he', hc, rfl⟩ := lookup_eq_some hn'
    have hnodup := (List.nodup_append.mp (h.node b ⟨p, hb⟩).refs_nodup).2.1
    rw [List.inj_on_of_nodup_map hnodup he' he hc]
    exact ⟨rfl, rfl⟩

theorem used_range (h : WellFormed d) (hx : Used d x) : x ≠ 0 ∧ x.toNat < fsDisksize := by
  obtain ⟨b, hb, hx⟩ := hx
  exact (h.node b hb).refs_range x hx

theorem linked_lt (h : WellFormed d) (hb : Linked d b) : b.toNat < fsDisksize := by
  rcases hb.eq_root_or_used with rfl | hb
  · decide
  · exact (h.used_range hb).2

/-- A block is referenced from one inode of the tree only. -/
theorem eq_of_mem_refs (h : WellFormed d) (hb : Linked d b) (hb' : Linked d b')
    (hx : x ∈ refs d b) (hx' : x ∈ refs d b') : b = b' := by
  by_contra hne
  exact h.refs_disjoint b b' hb hb' hne hx hx'

/-- An inode of the tree is not a data or directory block. -/
theorem linked_notMem_used (h : WellFormed d) (hb : Linked d b) (hb' : Linked d b') :
    b ∉ (inodeAt d b').used := by
  intro hmem
  have hmem' : b ∈ refs d b' := List.mem_append_left _ hmem
  obtain ⟨p, hp⟩ := hb
  rcases List.eq_nil_or_concat' p with rfl | ⟨q, n, rfl⟩
  · obtain rfl : 0 = b := Option.some.inj hp
    exact ((h.node b' hb').refs_range 0 hmem').1 rfl
  · obtain ⟨b₁, hb₁, hn⟩ := walk_concat_eq_some.mp hp
    obtain rfl := h.eq_of_mem_refs ⟨q, hb₁⟩ hb' (mem_refs_of_lookup hn) hmem'
    obtain ⟨e, he, rfl, -⟩ := lookup_eq_some hn
    exact (List.nodup_append.mp (h.node b₁ hb').refs_nodup).2.2 _ hmem _
      (List.mem_map_of_mem he) rfl

theorem child_ne (h : WellFormed d) (hb : Linked d b) {name : Bytes}
    (hc : lookup d b name = some c) : c ≠ b := by
  rintro rfl
  obtain ⟨q, hq⟩ := hb
  have := h.isTree.walk_inj hq (walk_concat_eq_some.mpr ⟨_, hq, hc⟩)
  simp at this

/-- Different inodes of the tree consist of different blocks. -/
theorem footprint_disjoint (h : WellFormed d) (hb : Linked d b) (hb' : Linked d b')
    (hne : b ≠ b') (hx : x ∈ footprint d b) : x ∉ footprint d b' := by
  intro hx'
  rcases List.mem_cons.mp hx with rfl | hx <;> rcases List.mem_cons.mp hx' with rfl | hx'
  · exact hne rfl
  · exact h.linked_notMem_used hb hb' hx'
  · exact h.linked_notMem_used hb' hb hx
  · exact hne (h.eq_of_mem_refs hb hb' (List.mem_append_left _ hx) (List.mem_append_left _ hx'))

/-- The blocks of an inode of the tree are not unused. -/
theorem notMem_unused_of_mem_footprint (_h : WellFormed d) (hb : Linked d b)
    (hx : x ∈ footprint d b) : x ∉ unused d := by
  rintro ⟨h0, -, hx'⟩
  rcases List.mem_cons.mp hx with rfl | hx
  · exact hx' (hb.eq_root_or_used.resolve_left h0)
  · exact hx' ⟨b, hb, List.mem_append_left _ hx⟩

theorem footprint_lt (h : WellFormed d) (hb : Linked d b) (hx : x ∈ footprint d b) :
    x.toNat < fsDisksize := by
  rcases List.mem_cons.mp hx with rfl | hx
  · exact h.linked_lt hb
  · exact ((h.node b hb).refs_range x (List.mem_append_left _ hx)).2

end WellFormed

/-! ### Agreement on an inode -/

/-- The second disk agrees with the first one on the blocks that an inode consists of. -/
def Agree (d d' : Disk) (b : BlockNo) : Prop :=
  ∀ x ∈ footprint d b, d' x = d x

theorem searchBlocks_congr {name : Bytes} {i : ℕ} {xs : List BlockNo}
    (h : ∀ x ∈ xs, d' x = d x) : searchBlocks d' name i xs = searchBlocks d name i xs := by
  induction xs generalizing i with
  | nil => rfl
  | cons x xs ih =>
    obtain ⟨hx, hxs⟩ := List.forall_mem_cons.mp h
    rw [searchBlocks, searchBlocks, ih hxs, direntriesAt, direntriesAt, hx]

namespace Agree

theorem refl (d : Disk) (b : BlockNo) : Agree d d b := fun _ _ => rfl

theorem inodeAt (h : Agree d d' b) : inodeAt d' b = inodeAt d b := by
  rw [FileServer.inodeAt, h b (List.mem_cons_self ..), FileServer.inodeAt]

theorem footprint (h : Agree d d' b) : footprint d' b = footprint d b := by
  rw [FileServer.footprint, h.inodeAt, FileServer.footprint]

theorem of_mem_used (h : Agree d d' b) (hx : x ∈ (FileServer.inodeAt d b).used) : d' x = d x :=
  h x (List.mem_cons_of_mem _ hx)

theorem symm (h : Agree d d' b) : Agree d' d b := by
  intro x hx
  rw [h.footprint] at hx
  exact (h x hx).symm

theorem trans {d'' : Disk} (h : Agree d d' b) (h' : Agree d' d'' b) : Agree d d'' b := by
  intro x hx
  rw [h' x (by rwa [h.footprint]), h x hx]

theorem entries (h : Agree d d' b) : entries d' b = entries d b := by
  rw [FileServer.entries, FileServer.entries, h.inodeAt]
  split_ifs
  · rfl
  · refine List.flatMap_congr fun x hx => ?_
    rw [direntriesAt, direntriesAt, h.of_mem_used hx]

theorem refs (h : Agree d d' b) : refs d' b = refs d b := by
  rw [FileServer.refs, FileServer.refs, h.inodeAt, h.entries]

theorem lookupSlot (h : Agree d d' b) (name : Bytes) :
    lookupSlot d' b name = lookupSlot d b name := by
  rw [FileServer.lookupSlot, FileServer.lookupSlot, h.inodeAt]
  split_ifs
  · rfl
  · exact searchBlocks_congr fun x hx => h.of_mem_used hx

theorem lookup (h : Agree d d' b) : lookup d' b = lookup d b := by
  funext name
  rw [FileServer.lookup, FileServer.lookup, h.lookupSlot]

theorem nodeOk (h : Agree d d' b) (hok : NodeOk d b) : NodeOk d' b where
  type := by rw [h.inodeAt]; exact hok.type
  size_le := by rw [h.inodeAt]; exact hok.size_le
  owner := by rw [h.inodeAt]; exact hok.owner
  refs_range := by rw [h.refs]; exact hok.refs_range
  refs_nodup := by rw [h.refs]; exact hok.refs_nodup
  names_terminated := by rw [h.entries]; exact hok.names_terminated
  names_nodup := by rw [h.entries]; exact hok.names_nodup
  block_used := by
    rw [h.inodeAt]
    intro hd x hx
    rw [direntriesAt, h.of_mem_used hx]
    exact hok.block_used hd x hx

end Agree

/-- A disk that agrees with a well-formed one on every inode of the tree holds the same tree. -/
theorem resolvePath_congr (h : ∀ b, Linked d b → Agree d d' b) :
    resolvePath d' = resolvePath d := by
  funext p
  exact walk_congr (fun q b hb => (h b ⟨q, hb⟩).lookup) p

end OsFromScratch.FileServer
