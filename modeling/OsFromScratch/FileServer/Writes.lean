import OsFromScratch.FileServer.Abstraction

/-!
# The visible writes

The six disk writes of the server that change the tree, each as a change of one inode: a data block
of a file is overwritten, a file grows by a block, an entry is made in a new directory block or in
an unused slot, and an entry is removed with its directory block or by clearing its slot.

## Main results

* `nodeUpdate_overwrite`, `nodeUpdate_grow` — the writes of `FS_WRITEBLOCK`.
* `nodeUpdate_linkBlock`, `nodeUpdate_linkSlot` — the writes of `FS_CREATE`.
* `nodeUpdate_unlinkBlock`, `nodeUpdate_unlinkSlot` — the writes of `FS_DELETE`.
-/

namespace OsFromScratch.FileServer

open Function

variable {d d' : Disk} {b b' c x : BlockNo} {n : Bytes} {k : ℕ} {inode : FsInode}

/-! ### Block lists -/

namespace FsInode

theorem length_used (h : inode.size.toNat ≤ 124) : inode.used.length = inode.size.toNat := by
  rw [used, List.length_take, Vector.length_toList]
  omega

theorem toNat_size_add_one (h : inode.size.toNat < 124) :
    (inode.size + 1).toNat = inode.size.toNat + 1 := by
  rw [UInt32.toNat_add]
  simp only [UInt32.reduceToNat]
  omega

theorem toNat_size_sub_one (h : 0 < inode.size.toNat) :
    (inode.size - 1).toNat = inode.size.toNat - 1 := by
  rw [UInt32.toNat_sub_of_le]
  · rfl
  · rw [UInt32.le_iff_toNat_le]
    simp only [UInt32.reduceToNat]
    omega

/-- The inode with one more block. -/
def push (inode : FsInode) (x : BlockNo) (h : inode.size.toNat < 124) : FsInode :=
  { inode with blocks := inode.blocks.set inode.size.toNat x, size := inode.size + 1 }

theorem used_push (h : inode.size.toNat < 124) : (inode.push x h).used = inode.used ++ [x] := by
  have hlen : inode.size.toNat < inode.blocks.toList.length := by simpa using h
  simp only [used, push, toNat_size_add_one h, Vector.toList_set]
  rw [List.take_add_one, List.take_set_of_le (le_refl _), List.getElem?_set_self hlen]
  rfl

theorem used_removeBlock (hk : k < inode.size.toNat) (h : inode.size.toNat ≤ 124) :
    (removeBlock inode k).used = inode.used.eraseIdx k := by
  have hsize := toNat_size_sub_one (by omega : 0 < inode.size.toNat)
  refine List.ext_getElem? fun i => ?_
  simp only [used, removeBlock, hsize, List.getElem?_eraseIdx, List.getElem?_take,
    Vector.getElem?_toList, Vector.getElem?_ofFn]
  by_cases hi : i < inode.size.toNat - 1
  · have hi' : i < 124 := by omega
    rw [if_pos hi, dif_pos hi']
    by_cases hik : i < k
    · rw [dif_neg (by omega), if_pos hik, if_pos (by omega), Vector.getElem?_eq_getElem hi']
    · rw [dif_pos (by omega), if_neg hik, if_pos (by omega), Vector.getElem?_eq_getElem]
  · rw [if_neg hi, if_neg (by omega : ¬i < k), if_neg (by omega)]

end FsInode

/-! ### Entries -/

theorem usedEntries_set_perm {direntries : Direntries} {j : Fin 8} {e : FsDirentry}
    (hj : (direntries.get j).inodeBlock = 0) (he : e.inodeBlock ≠ 0) :
    (usedEntries (direntries.set j e j.isLt)).Perm (e :: usedEntries direntries) := by
  have hlen : j.val < direntries.toList.length := by simp
  have hsplit : direntries.toList = direntries.toList.take j ++
      direntries.get j :: direntries.toList.drop (j + 1) := by
    have hj : direntries.get j = direntries.toList[j.val] := (Vector.getElem_toList hlen).symm
    rw [hj, List.cons_getElem_drop_succ (h := hlen), List.take_append_drop]
  rw [usedEntries, usedEntries, Vector.toList_set, List.set_eq_take_append_cons_drop, if_pos hlen,
    List.filter_append, List.filter_cons_of_pos (by simpa using he)]
  conv_rhs => rw [hsplit, List.filter_append, List.filter_cons_of_neg (by simpa using hj)]
  exact List.perm_middle

theorem usedEntries_clear_perm {direntries : Direntries} {j : Fin 8} {e : FsDirentry}
    (hj : (direntries.get j).inodeBlock ≠ 0) (he : e.inodeBlock = 0) :
    (usedEntries direntries).Perm (direntries.get j ::
      usedEntries (direntries.set j e j.isLt)) := by
  have hset : (direntries.set j e j.isLt).get j = e := Vector.getElem_set_self j.isLt
  have hback : (direntries.set j e j.isLt).set j (direntries.get j) j.isLt = direntries := by
    rw [Vector.set_set]
    exact Vector.set_getElem_self j.isLt
  have h := usedEntries_set_perm (by rw [hset, he]) hj
  rwa [hback] at h

theorem usedEntries_newDirentries {name : Vector UInt8 60} (hc : c ≠ 0) :
    usedEntries (setEntry zeroDirentries 0 c name) = [⟨name, c⟩] := by
  simp only [usedEntries, setEntry, zeroDirentries, Vector.toList_set, Vector.toList_replicate]
  simp [List.replicate_succ, hc]

theorem entries_of_file (h : (inodeAt d b).type = fileType) : entries d b = [] :=
  if_pos h

theorem entries_of_not_file (h : (inodeAt d b).type ≠ fileType) :
    entries d b = (inodeAt d b).used.flatMap fun x => usedEntries (direntriesAt d x) :=
  if_neg h

/-- One more entry with a new name is found by that name, and the others as before. -/
theorem lookup_of_perm_cons {e : FsDirentry}
    (h' : ((entries d' b).map fun e => arrayStr e.name).Nodup)
    (hperm : (entries d' b).Perm (e :: entries d b)) :
    lookup d' b (arrayStr e.name) = some e.inodeBlock ∧ lookup d b (arrayStr e.name) = none ∧
      ∀ m, m ≠ arrayStr e.name → lookup d' b m = lookup d b m := by
  have hcons : (arrayStr e.name :: (entries d b).map fun e => arrayStr e.name).Nodup :=
    ((hperm.map _).nodup_iff).mp h'
  obtain ⟨hnot, h⟩ := List.nodup_cons.mp hcons
  refine ⟨?_, ?_, fun m hm => ?_⟩
  · exact (lookup_eq_some_iff h').mpr ⟨e, hperm.mem_iff.mpr (List.mem_cons_self ..), rfl, rfl⟩
  · exact lookup_eq_none.mpr fun e' he' heq => hnot (List.mem_map.mpr ⟨e', he', heq⟩)
  · ext c
    rw [lookup_eq_some_iff h', lookup_eq_some_iff h]
    constructor
    · rintro ⟨e', he', hc, rfl⟩
      rcases List.mem_cons.mp (hperm.mem_iff.mp he') with rfl | he'
      · exact absurd rfl hm
      · exact ⟨e', he', hc, rfl⟩
    · rintro ⟨e', he', hc, rfl⟩
      exact ⟨e', hperm.mem_iff.mpr (List.mem_cons_of_mem _ he'), hc, rfl⟩

/-! ### Writes into the footprint of an inode -/

/-- A write into the footprint of an inode leaves the other inodes alone. -/
theorem WellFormed.agree_update (hwf : WellFormed d) (hb : Linked d b) (hx : x ∈ footprint d b)
    (v : Block) (b' : BlockNo) (hb' : Linked d b') (hne : b' ≠ b) :
    Agree d (update d x v) b' := by
  intro y hy
  rw [update_of_ne]
  rintro rfl
  exact hwf.footprint_disjoint hb' hb hne hy hx

theorem inodeAt_update_of_mem_used (hwf : WellFormed d) (hb : Linked d b)
    (hx : x ∈ (inodeAt d b).used) (v : Block) : inodeAt (update d x v) b = inodeAt d b := by
  rw [inodeAt, inodeAt, update_of_ne]
  rintro rfl
  exact hwf.linked_notMem_used hb hb hx

@[simp] theorem inodeAt_update_self : inodeAt (update d b inode.toBlock) b = inode := by
  rw [inodeAt, update_self, FsInode.ofBlock_toBlock]

@[simp] theorem direntriesAt_update_self {direntries : Direntries} :
    direntriesAt (update d x direntries.toBlock) x = direntries := by
  rw [direntriesAt, update_self, Direntries.ofBlock_toBlock]

theorem map_update_eq_set {α β : Type*} [DecidableEq α] {l : List α} {a : α} (hl : l.Nodup)
    (hk : l[k]? = some a) (f : α → β) (v : β) : l.map (update f a v) = (l.map f).set k v := by
  obtain ⟨hlt, rfl⟩ := List.getElem?_eq_some_iff.mp hk
  rw [hl.map_update, if_pos (List.getElem_mem hlt), hl.idxOf_getElem]

theorem WellFormed.nodup_used (hwf : WellFormed d) (hb : Linked d b) :
    (inodeAt d b).used.Nodup :=
  (List.nodup_append.mp (hwf.node b hb).refs_nodup).1

/-! ### The writes of `FS_WRITEBLOCK` -/

/-- A data block of a file is overwritten. -/
theorem nodeUpdate_overwrite (hwf : WellFormed d) (hb : Linked d b)
    (hf : (inodeAt d b).type = fileType) (hk : (inodeAt d b).used[k]? = some x) (v : Block) :
    NodeUpdate d (update d x v) b [] none [] [] ∧
      nodeAt (update d x v) b =
        .file (arrayStr (inodeAt d b).owner) (((inodeAt d b).used.map d).set k v) := by
  have hx : x ∈ (inodeAt d b).used := List.mem_of_getElem? hk
  have hinode := inodeAt_update_of_mem_used hwf hb hx v
  have hf' : (inodeAt (update d x v) b).type = fileType := by rw [hinode, hf]
  refine ⟨?_, ?_⟩
  · exact
    { linked := hb
      agree := hwf.agree_update hb (List.mem_cons_of_mem _ hx) v
      type := by rw [hinode]
      owner := by rw [hinode]
      size_le := by rw [hinode]; exact (hwf.node b hb).size_le
      names_terminated := by simp [entries_of_file hf']
      names_nodup := by simp [entries_of_file hf']
      block_used := by simp [hf', fileType, dirType]
      perm := by rw [refs, refs, hinode, entries_of_file hf', entries_of_file hf]
      added_nodup := List.nodup_nil
      added_unused := by simp
      lookup_ne := fun m _ => by rw [lookup_of_file hf', lookup_of_file hf]
      lookup_eq := lookup_of_file hf'
      old := fun c hc => by simp [lookup_of_file hf] at hc
      new := fun c hc => by simp at hc }
  · rw [nodeAt_of_file hf', hinode]
    congr 1
    exact map_update_eq_set (hwf.nodup_used hb) hk d v

/-- A file grows by a block. -/
theorem nodeUpdate_grow (hwf : WellFormed d) (hb : Linked d b)
    (hf : (inodeAt d b).type = fileType) (hsize : (inodeAt d b).size.toNat < 124)
    (hx : x ∈ unused d) :
    NodeUpdate d (update d b ((inodeAt d b).push x hsize).toBlock) b [] none [x] [] ∧
      nodeAt (update d b ((inodeAt d b).push x hsize).toBlock) b =
        .file (arrayStr (inodeAt d b).owner) ((inodeAt d b).used.map d ++ [d x]) := by
  generalize hd' : update d b ((inodeAt d b).push x hsize).toBlock = d'
  have hinode : inodeAt d' b = (inodeAt d b).push x hsize := by
    rw [← hd', inodeAt_update_self]
  have hf' : (inodeAt d' b).type = fileType := by
    rw [hinode]
    exact hf
  have hother {y : BlockNo} (hy : y ≠ b) : d' y = d y := by
    rw [← hd', update_of_ne hy]
  refine ⟨?_, ?_⟩
  · exact
    { linked := hb
      agree := by
        rw [← hd']
        exact hwf.agree_update hb (List.mem_cons_self ..) _
      type := by rw [hinode]; rfl
      owner := by rw [hinode]; rfl
      size_le := by
        rw [hinode, FsInode.push, FsInode.toNat_size_add_one hsize]
        omega
      names_terminated := by simp [entries_of_file hf']
      names_nodup := by simp [entries_of_file hf']
      block_used := by simp [hf', fileType, dirType]
      perm := by
        rw [refs, refs, hinode, FsInode.used_push, entries_of_file hf', entries_of_file hf]
        simp
      added_nodup := List.nodup_singleton x
      added_unused := by simpa using hx
      lookup_ne := fun m _ => by rw [lookup_of_file hf', lookup_of_file hf]
      lookup_eq := lookup_of_file hf'
      old := fun c hc => by simp [lookup_of_file hf] at hc
      new := fun c hc => by simp at hc }
  · have hxb : x ≠ b := by
      rintro rfl
      exact notMem_unused_of_linked hb hx
    rw [nodeAt_of_file hf', hinode, FsInode.used_push, List.map_append]
    congr 1
    rw [List.map_singleton, hother hxb]
    congr 1
    refine List.map_congr_left fun y hy => hother ?_
    rintro rfl
    exact hwf.linked_notMem_used hb hb hy

/-! ### The writes of `FS_CREATE` -/

/-- An inode without blocks that is not part of the tree yet. -/
structure Fresh (d : Disk) (c : BlockNo) : Prop where
  unused : c ∈ unused d
  nodeOk : NodeOk d c
  refs : refs d c = []

theorem Fresh.agree (h : Fresh d c) (hx : x ≠ c) (v : Block) : Agree d (update d x v) c := by
  intro y hy
  rw [footprint, (List.append_eq_nil_iff.mp h.refs).1, List.mem_singleton] at hy
  rw [hy, update_of_ne hx.symm]

theorem Fresh.new (h : Fresh d c) (hx : x ≠ c) (v : Block) :
    NodeOk (update d x v) c ∧ FileServer.refs (update d x v) c = [] :=
  ⟨(h.agree hx v).nodeOk h.nodeOk, by rw [(h.agree hx v).refs, h.refs]⟩

/-- An entry is made in a new directory block. -/
theorem nodeUpdate_linkBlock (hwf : WellFormed d) (hb : Linked d b)
    (hdir : (inodeAt d b).type ≠ fileType) (hsize : (inodeAt d b).size.toNat < 124)
    (hx : x ∈ unused d) (hxc : x ≠ c) (hc : Fresh d c) {name : Vector UInt8 60}
    (hname : Terminated name) (hblock : direntriesAt d x = setEntry zeroDirentries 0 c name)
    (hnone : lookup d b (arrayStr name) = none) :
    NodeUpdate d (update d b ((inodeAt d b).push x hsize).toBlock) b (arrayStr name) (some c)
        [x, c] [] ∧
      nodeAt (update d b ((inodeAt d b).push x hsize).toBlock) b =
        .dir (arrayStr (inodeAt d b).owner)
          ((inodeAt d b).used.map (rowAt d) ++ [Table.newRow (arrayStr name)]) := by
  have hbc : b ≠ c := by
    rintro rfl
    exact notMem_unused_of_linked hb hc.unused
  have hnew := hc.new hbc ((inodeAt d b).push x hsize).toBlock
  have hagree := hwf.agree_update hb (List.mem_cons_self ..) ((inodeAt d b).push x hsize).toBlock
  have hinode : inodeAt (update d b ((inodeAt d b).push x hsize).toBlock) b =
      (inodeAt d b).push x hsize := inodeAt_update_self
  have hother {y : BlockNo} (hy : y ≠ b) :
      update d b ((inodeAt d b).push x hsize).toBlock y = d y := update_of_ne hy _ _
  generalize update d b ((inodeAt d b).push x hsize).toBlock = d' at *
  have hxb : x ≠ b := by
    rintro rfl
    exact notMem_unused_of_linked hb hx
  have hub {y : BlockNo} (hy : y ∈ (inodeAt d b).used) : y ≠ b := by
    rintro rfl
    exact hwf.linked_notMem_used hb hb hy
  have hdirs {y : BlockNo} (hy : y ≠ b) : direntriesAt d' y = direntriesAt d y := by
    rw [direntriesAt, hother hy, direntriesAt]
  have hdir' : (inodeAt d' b).type ≠ fileType := by
    rw [hinode]
    exact hdir
  have hentries : entries d' b = entries d b ++ [⟨name, c⟩] := by
    rw [entries_of_not_file hdir', entries_of_not_file hdir, hinode, FsInode.used_push,
      List.flatMap_append, List.flatMap_singleton, hdirs hxb, hblock,
      usedEntries_newDirentries hc.unused.1]
    refine congrArg (· ++ _) ?_
    exact List.flatMap_congr fun y hy => by rw [hdirs (hub hy)]
  have hperm : (entries d' b).Perm (⟨name, c⟩ :: entries d b) := by
    rw [hentries]
    exact List.perm_append_singleton _ _
  have hnames : ((entries d' b).map fun e => arrayStr e.name).Nodup := by
    rw [(hperm.map _).nodup_iff]
    refine List.nodup_cons.mpr ⟨fun hmem => ?_, (hwf.node b hb).names_nodup⟩
    obtain ⟨e, he, heq⟩ := List.mem_map.mp hmem
    exact lookup_eq_none.mp hnone e he heq
  obtain ⟨hl₁, -, hl₂⟩ := lookup_of_perm_cons hnames hperm
  have hrefs : (refs d' b ++ []).Perm (refs d b ++ [x, c]) := by
    rw [refs, refs, hinode, FsInode.used_push, hentries, List.perm_iff_count]
    intro y
    simp only [List.map_append, List.map_singleton, List.count_append, List.count_cons,
      List.count_nil]
    omega
  refine ⟨?_, ?_⟩
  · exact
    { linked := hb
      agree := hagree
      type := by rw [hinode]; rfl
      owner := by rw [hinode]; rfl
      size_le := by
        rw [hinode, FsInode.push, FsInode.toNat_size_add_one hsize]
        omega
      names_terminated := by
        intro e he
        rcases List.mem_cons.mp (hperm.mem_iff.mp he) with rfl | he
        · exact hname
        · exact (hwf.node b hb).names_terminated e he
      names_nodup := hnames
      block_used := by
        rw [hinode, FsInode.used_push]
        intro hd y hy
        rcases List.mem_append.mp hy with hy | hy
        · rw [hdirs (hub hy)]
          exact (hwf.node b hb).block_used hd y hy
        · rw [List.mem_singleton.mp hy, hdirs hxb, hblock, usedEntries_newDirentries hc.unused.1]
          simp
      perm := hrefs
      added_nodup := by simp [hxc]
      added_unused := by simp [hx, hc.unused]
      lookup_ne := hl₂
      lookup_eq := hl₁
      old := fun c' hc' => by simp [hnone] at hc'
      new := by
        rintro c' ⟨⟩
        exact ⟨by simp, hnew⟩ }
  · rw [nodeAt_of_not_file hdir', hinode, FsInode.used_push, List.map_append, List.map_singleton,
      List.map_congr_left (g := rowAt d) fun y hy => by rw [rowAt, hdirs (hub hy), rowAt]]
    have hrow : rowAt d' x = Table.newRow (arrayStr name) := by
      rw [rowAt, hdirs hxb, hblock, setEntry, zeroDirentries, Vector.toList_set,
        Vector.toList_replicate]
      simp [List.replicate_succ, slotName, Table.newRow, hc.unused.1]
    rw [hrow]
    rfl

/-- The entries of a directory around one of its blocks. -/
theorem entries_split (hdir : (inodeAt d b).type ≠ fileType)
    (hk : (inodeAt d b).used[k]? = some x) :
    entries d b =
      ((inodeAt d b).used.take k).flatMap (fun y => usedEntries (direntriesAt d y)) ++
        (usedEntries (direntriesAt d x) ++
          ((inodeAt d b).used.drop (k + 1)).flatMap fun y => usedEntries (direntriesAt d y)) := by
  obtain ⟨hlt, rfl⟩ := List.getElem?_eq_some_iff.mp hk
  have hsplit : (inodeAt d b).used.take k ++ (inodeAt d b).used[k] ::
      (inodeAt d b).used.drop (k + 1) = (inodeAt d b).used := by
    rw [List.cons_getElem_drop_succ, List.take_append_drop]
  rw [entries_of_not_file hdir]
  conv_lhs => rw [← hsplit, List.flatMap_append, List.flatMap_cons]

theorem notMem_take_drop {α : Type*} {l : List α} {a : α} (hl : l.Nodup) (hk : l[k]? = some a) :
    a ∉ l.take k ∧ a ∉ l.drop (k + 1) := by
  obtain ⟨hlt, rfl⟩ := List.getElem?_eq_some_iff.mp hk
  have hsplit : l.take k ++ l[k] :: l.drop (k + 1) = l := by
    rw [List.cons_getElem_drop_succ, List.take_append_drop]
  rw [← hsplit, List.nodup_append, List.nodup_cons] at hl
  exact ⟨fun h => hl.2.2 _ h _ (List.mem_cons_self ..) rfl, hl.2.1.1⟩

/-- The entries and slots of a directory after a write to one of its blocks. -/
theorem entries_update_block (hwf : WellFormed d) (hb : Linked d b)
    (hdir : (inodeAt d b).type ≠ fileType) (hk : (inodeAt d b).used[k]? = some x)
    (direntries : Direntries) :
    entries (update d x direntries.toBlock) b =
        ((inodeAt d b).used.take k).flatMap (fun y => usedEntries (direntriesAt d y)) ++
          (usedEntries direntries ++
            ((inodeAt d b).used.drop (k + 1)).flatMap fun y => usedEntries (direntriesAt d y)) ∧
      nodeAt (update d x direntries.toBlock) b =
        .dir (arrayStr (inodeAt d b).owner)
          (((inodeAt d b).used.map (rowAt d)).set k (direntries.toList.map slotName)) := by
  have hx : x ∈ (inodeAt d b).used := List.mem_of_getElem? hk
  have hinode := inodeAt_update_of_mem_used hwf hb hx direntries.toBlock
  have hdir' : (inodeAt (update d x direntries.toBlock) b).type ≠ fileType := by
    rw [hinode]
    exact hdir
  have hother {y : BlockNo} (hy : y ≠ x) :
      direntriesAt (update d x direntries.toBlock) y = direntriesAt d y := by
    rw [direntriesAt, update_of_ne hy, direntriesAt]
  obtain ⟨htake, hdrop⟩ := notMem_take_drop (hwf.nodup_used hb) hk
  refine ⟨?_, ?_⟩
  · rw [entries_split hdir' (by rwa [hinode]), hinode, direntriesAt_update_self]
    have hcongr {l : List BlockNo} (hl : x ∉ l) :
        l.flatMap (fun y => usedEntries (direntriesAt (update d x direntries.toBlock) y)) =
          l.flatMap fun y => usedEntries (direntriesAt d y) :=
      List.flatMap_congr fun y hy => by rw [hother (ne_of_mem_of_not_mem hy hl)]
    rw [hcongr htake, hcongr hdrop]
  · have hrow : rowAt (update d x direntries.toBlock) =
        update (rowAt d) x (direntries.toList.map slotName) := by
      funext y
      by_cases hy : y = x
      · rw [hy, update_self, rowAt, direntriesAt_update_self]
      · rw [update_of_ne hy, rowAt, hother hy, rowAt]
    rw [nodeAt_of_not_file hdir', hinode, hrow,
      map_update_eq_set (hwf.nodup_used hb) hk (rowAt d) (direntries.toList.map slotName)]

/-! ### Unused slots -/

theorem findUnused_eq_some {direntries : Direntries} {j : Fin 8}
    (h : findUnused direntries = some j) :
    (direntries.get j).inodeBlock = 0 ∧ ∀ i : Fin 8, i < j → (direntries.get i).inodeBlock ≠ 0 := by
  rw [findUnused, List.find?_eq_some_iff_getElem] at h
  obtain ⟨hj, i, hi, rfl, hlt⟩ := h
  refine ⟨by simpa using hj, fun i' hi' => ?_⟩
  have := hlt i'.val (by simpa [Fin.lt_def] using hi')
  simpa using this

theorem findUnused_eq_none {direntries : Direntries} :
    findUnused direntries = none ↔ ∀ j : Fin 8, (direntries.get j).inodeBlock ≠ 0 := by
  simp [findUnused, List.mem_finRange]

theorem none_mem_row {direntries : Direntries} :
    none ∈ direntries.toList.map slotName ↔ findUnused direntries ≠ none := by
  rw [Ne, findUnused_eq_none, not_forall]
  simp only [List.mem_map, slotName, ite_eq_left_iff, reduceCtorEq, imp_false, not_not]
  constructor
  · rintro ⟨e, he, h0⟩
    obtain ⟨i, hi, rfl⟩ := Vector.mem_iff_getElem.mp (Vector.mem_toList_iff.mp he)
    exact ⟨⟨i, hi⟩, h0⟩
  · rintro ⟨j, hj⟩
    exact ⟨direntries[j], Vector.mem_toList_iff.mpr (Vector.getElem_mem j.isLt), hj⟩

namespace Table

theorem enterRow_eq_set {row : List (Option Bytes)} {j : ℕ} (hj : row[j]? = some none)
    (hlt : ∀ i, i < j → row[i]? ≠ some none) : enterRow n row = row.set j (some n) := by
  induction row generalizing j with
  | nil => simp at hj
  | cons slot row ih =>
    cases j with
    | zero =>
      obtain rfl : slot = none := by simpa using hj
      rfl
    | succ j =>
      cases slot with
      | none => exact absurd rfl (hlt 0 (Nat.succ_pos j))
      | some m =>
        rw [enterRow, List.set_cons_succ, ih (by simpa using hj)]
        exact fun i hi => by simpa using hlt (i + 1) (Nat.succ_lt_succ hi)

theorem enter_eq_set {table : Table} {row : List (Option Bytes)} (hk : table[k]? = some row)
    (hrow : none ∈ row) (hlt : ∀ i r, i < k → table[i]? = some r → none ∉ r) :
    enter n table = table.set k (enterRow n row) := by
  induction table generalizing k with
  | nil => simp at hk
  | cons r table ih =>
    cases k with
    | zero =>
      obtain rfl : r = row := by simpa using hk
      rw [enter, if_pos hrow, List.set_cons_zero]
    | succ k =>
      rw [enter, if_neg (hlt 0 r (Nat.succ_pos k) rfl), List.set_cons_succ, ih (by simpa using hk)]
      exact fun i r' hi hr' => hlt (i + 1) r' (Nat.succ_lt_succ hi) (by simpa using hr')

end Table

/-- The slots of a directory after an entry has been made in its first unused slot. -/
theorem enter_rows {direntries : Direntries} {j : Fin 8} {name : Vector UInt8 60} {rows : Table}
    (hc : c ≠ 0) (hk : rows[k]? = some (direntries.toList.map slotName))
    (hj : findUnused direntries = some j)
    (hfirst : ∀ i r, i < k → rows[i]? = some r → none ∉ r) :
    rows.enter (arrayStr name) =
      rows.set k ((setEntry direntries j c name).toList.map slotName) := by
  obtain ⟨hj0, hlt⟩ := findUnused_eq_some hj
  rw [Table.enter_eq_set hk (none_mem_row.mpr (by simp [hj])) hfirst,
    Table.enterRow_eq_set (j := j.val), setEntry, Vector.toList_set, List.map_set]
  · simp [slotName, hc]
  · have hj0' : (direntries[j.val]).inodeBlock = 0 := hj0
    simp [slotName, hj0']
  · intro i hi
    have hi8 : i < 8 := hi.trans j.isLt
    have hne : (direntries[i]).inodeBlock ≠ 0 := hlt ⟨i, hi8⟩ hi
    simp [slotName, hi8, hne]

/-- An entry is made in an unused slot. -/
theorem nodeUpdate_linkSlot (hwf : WellFormed d) (hb : Linked d b)
    (hdir : (inodeAt d b).type ≠ fileType) (hk : (inodeAt d b).used[k]? = some x) {j : Fin 8}
    (hj : findUnused (direntriesAt d x) = some j) (hc : Fresh d c) {name : Vector UInt8 60}
    (hname : Terminated name) (hnone : lookup d b (arrayStr name) = none) :
    NodeUpdate d (update d x (setEntry (direntriesAt d x) j c name).toBlock) b (arrayStr name)
      (some c) [c] [] := by
  have hx : x ∈ (inodeAt d b).used := List.mem_of_getElem? hk
  have hxc : x ≠ c := by
    rintro rfl
    exact hwf.notMem_unused_of_mem_footprint hb (List.mem_cons_of_mem _ hx) hc.unused
  have hrow := usedEntries_set_perm (e := ⟨name, c⟩) (findUnused_eq_some hj).1 hc.unused.1
  have hentries := (entries_update_block hwf hb hdir hk
    (setEntry (direntriesAt d x) j c name)).1
  have hinode := inodeAt_update_of_mem_used hwf hb hx
    (setEntry (direntriesAt d x) j c name).toBlock
  have hnew := hc.new hxc (setEntry (direntriesAt d x) j c name).toBlock
  have hperm : (entries (update d x (setEntry (direntriesAt d x) j c name).toBlock) b).Perm
      (⟨name, c⟩ :: entries d b) := by
    rw [hentries, entries_split hdir hk]
    exact ((hrow.append_right _).append_left _).trans List.perm_middle
  have hnames : ((entries (update d x (setEntry (direntriesAt d x) j c name).toBlock) b).map
      fun e => arrayStr e.name).Nodup := by
    rw [(hperm.map _).nodup_iff]
    refine List.nodup_cons.mpr ⟨fun hmem => ?_, (hwf.node b hb).names_nodup⟩
    obtain ⟨e, he, heq⟩ := List.mem_map.mp hmem
    exact lookup_eq_none.mp hnone e he heq
  obtain ⟨hl₁, -, hl₂⟩ := lookup_of_perm_cons hnames hperm
  exact
    { linked := hb
      agree := hwf.agree_update hb (List.mem_cons_of_mem _ hx) _
      type := by rw [hinode]
      owner := by rw [hinode]
      size_le := by rw [hinode]; exact (hwf.node b hb).size_le
      names_terminated := by
        intro e he
        rcases List.mem_cons.mp (hperm.mem_iff.mp he) with rfl | he
        · exact hname
        · exact (hwf.node b hb).names_terminated e he
      names_nodup := hnames
      block_used := by
        rw [hinode]
        intro hd y hy
        by_cases hyx : y = x
        · rw [hyx, direntriesAt_update_self]
          intro hnil
          change usedEntries ((direntriesAt d x).set j ⟨name, c⟩) = [] at hnil
          rw [hnil] at hrow
          exact absurd hrow.length_eq (by simp)
        · rw [direntriesAt, update_of_ne hyx]
          exact (hwf.node b hb).block_used hd y hy
      perm := by
        rw [refs, refs, hinode, List.append_nil, List.append_assoc]
        exact ((hperm.map FsDirentry.inodeBlock).trans
          (List.perm_append_singleton _ _).symm).append_left _
      added_nodup := List.nodup_singleton c
      added_unused := by simpa using hc.unused
      lookup_ne := hl₂
      lookup_eq := hl₁
      old := fun c' hc' => by simp [hnone] at hc'
      new := by
        rintro c' ⟨⟩
        exact ⟨by simp, hnew⟩ }

/-! ### The writes of `FS_DELETE` -/

namespace Table

/-- A row after a name has been removed. -/
def clearRow (name : Bytes) (row : List (Option Bytes)) : List (Option Bytes) :=
  row.map fun slot => if slot = some name then none else slot

theorem clearRow_of_notMem {row : List (Option Bytes)} (h : some n ∉ row) :
    clearRow n row = row := by
  refine (List.map_congr_left fun slot hslot => ?_).trans (List.map_id' row)
  rw [if_neg]
  rintro rfl
  exact h hslot

/-- The table after a name has been removed that occurs in one row only. -/
theorem remove_split {pre post : Table} {row : List (Option Bytes)}
    (hother : ∀ r ∈ pre ++ post, some n ∉ r ∧ r.any Option.isSome = true) :
    remove n (pre ++ row :: post) =
      pre ++ ([clearRow n row].filter fun row => row.any Option.isSome) ++ post := by
  have hkeep {l : Table} (hl : ∀ r ∈ l, some n ∉ r ∧ r.any Option.isSome = true) :
      (l.map (clearRow n)).filter (fun row => row.any Option.isSome) = l := by
    rw [(List.map_congr_left fun r hr => clearRow_of_notMem (hl r hr).1).trans (List.map_id' l),
      List.filter_eq_self]
    exact fun r hr => (hl r hr).2
  have hpre := hkeep fun r hr => hother r (List.mem_append_left _ hr)
  have hpost := hkeep fun r hr => hother r (List.mem_append_right _ hr)
  change ((pre ++ row :: post).map (clearRow n)).filter _ = _
  rw [List.map_append, List.filter_append, hpre, List.map_cons, ← List.singleton_append,
    List.filter_append, hpost, List.append_assoc]

end Table

theorem mem_row_iff {direntries : Direntries} :
    some n ∈ direntries.toList.map slotName ↔
      ∃ e ∈ usedEntries direntries, arrayStr e.name = n := by
  simp only [usedEntries, List.mem_map, List.mem_filter, decide_eq_true_eq, slotName]
  constructor
  · rintro ⟨e, he, hn⟩
    split_ifs at hn with h0
    exact ⟨e, ⟨he, h0⟩, Option.some.inj hn⟩
  · rintro ⟨e, ⟨he, h0⟩, rfl⟩
    exact ⟨e, he, if_neg h0⟩

theorem any_isSome_row {direntries : Direntries} :
    (direntries.toList.map slotName).any Option.isSome = true ↔ usedEntries direntries ≠ [] := by
  rw [List.any_eq_true]
  constructor
  · rintro ⟨slot, hslot, hsome⟩
    obtain ⟨m, rfl⟩ := Option.isSome_iff_exists.mp hsome
    obtain ⟨e, he, -⟩ := mem_row_iff.mp hslot
    exact List.ne_nil_of_mem he
  · intro hne
    obtain ⟨e, he⟩ := List.exists_mem_of_ne_nil _ hne
    exact ⟨some (arrayStr e.name), mem_row_iff.mpr ⟨e, he, rfl⟩, rfl⟩

/-- What is known about an entry that is to be removed from a directory. -/
structure Removal (d : Disk) (b : BlockNo) (n : Bytes) (s : DirSlot) : Prop where
  linked : Linked d b
  slot : lookupSlot d b n = some s
  leaf : entries d s.inodeBlock = []

/-- The directory entries of a block after an entry has been cleared. -/
def clearEntry (s : DirSlot) : Direntries :=
  setEntry s.direntries s.slot 0 (s.direntries.get s.slot).name

/-- The entries of the directory without the one to be removed. -/
def restEntries (d : Disk) (b : BlockNo) (s : DirSlot) : List FsDirentry :=
  ((inodeAt d b).used.take s.index).flatMap (fun y => usedEntries (direntriesAt d y)) ++
    (usedEntries (clearEntry s) ++
      ((inodeAt d b).used.drop (s.index + 1)).flatMap fun y => usedEntries (direntriesAt d y))

namespace Removal

variable {s : DirSlot}

theorem lookup (h : Removal d b n s) : lookup d b n = some s.inodeBlock := by
  rw [FileServer.lookup, h.slot, Option.map_some]

theorem usedEntries_perm (h : Removal d b n s) :
    (usedEntries (direntriesAt d s.block)).Perm
      (s.direntries.get s.slot :: usedEntries (clearEntry s)) := by
  obtain ⟨-, -, hd, h0, -⟩ := lookupSlot_eq_some h.slot
  rw [← hd]
  exact usedEntries_clear_perm h0 rfl

theorem entries_perm (h : Removal d b n s) :
    (entries d b).Perm (s.direntries.get s.slot :: restEntries d b s) := by
  obtain ⟨hdir, hk, -, -, -⟩ := lookupSlot_eq_some h.slot
  rw [entries_split hdir hk]
  exact ((h.usedEntries_perm.append_right _).append_left _).trans List.perm_middle

/-- No other entry has the name. -/
theorem name_ne (h : Removal d b n s) (hwf : WellFormed d) {e : FsDirentry}
    (he : e ∈ restEntries d b s) : arrayStr e.name ≠ n := by
  obtain ⟨-, -, -, -, rfl⟩ := lookupSlot_eq_some h.slot
  have hnames := (hwf.node b h.linked).names_nodup
  rw [(h.entries_perm.map _).nodup_iff, List.map_cons, List.nodup_cons] at hnames
  exact fun heq => hnames.1 (List.mem_map.mpr ⟨e, he, heq⟩)

/-- No other entry of the block leads to the inode of the entry. -/
theorem inodeBlock_ne (h : Removal d b n s) (hwf : WellFormed d) {e : FsDirentry}
    (he : e ∈ usedEntries (clearEntry s)) : e.inodeBlock ≠ s.inodeBlock := by
  have hrefs := (List.nodup_append.mp (hwf.node b h.linked).refs_nodup).2.1
  rw [(h.entries_perm.map _).nodup_iff, List.map_cons, List.nodup_cons] at hrefs
  refine fun heq => hrefs.1 (List.mem_map.mpr ⟨e, ?_, heq⟩)
  exact List.mem_append_right _ (List.mem_append_left _ he)

/-- The test of `FS_DELETE` for a directory block in which nothing else is left. -/
theorem onlyTarget_iff (h : Removal d b n s) (hwf : WellFormed d) :
    onlyTarget s.direntries s.inodeBlock = true ↔ usedEntries (clearEntry s) = [] := by
  obtain ⟨-, -, hd, -, -⟩ := lookupSlot_eq_some h.slot
  have hperm := h.usedEntries_perm
  rw [← hd] at hperm
  rw [onlyTarget, Vector.all_eq_true, List.eq_nil_iff_forall_not_mem]
  simp only [Bool.or_eq_true, decide_eq_true_eq]
  constructor
  · intro hall e he
    obtain ⟨⟨j, rfl⟩, h0⟩ := mem_usedEntries.mp (hperm.mem_iff.mpr (List.mem_cons_of_mem _ he))
    exact (hall j.val j.isLt).elim h0 (h.inodeBlock_ne hwf he)
  · intro hnone j hj
    by_contra hne
    push Not at hne
    have hmem : s.direntries[j] ∈ usedEntries s.direntries :=
      mem_usedEntries.mpr ⟨⟨⟨j, hj⟩, rfl⟩, hne.1⟩
    rcases List.mem_cons.mp (hperm.mem_iff.mp hmem) with heq | hmem
    · exact hne.2 (by rw [heq]; rfl)
    · exact hnone _ hmem

/-- The slots of the directory after the removal. -/
theorem remove_rows (h : Removal d b n s) (hwf : WellFormed d) :
    Table.remove n ((inodeAt d b).used.map (rowAt d)) =
      ((inodeAt d b).used.take s.index).map (rowAt d) ++
        ([(clearEntry s).toList.map slotName].filter fun row => row.any Option.isSome) ++
        ((inodeAt d b).used.drop (s.index + 1)).map (rowAt d) := by
  obtain ⟨hdir, hk, hd, h0, hn⟩ := lookupSlot_eq_some h.slot
  obtain ⟨hlt, hx⟩ := List.getElem?_eq_some_iff.mp hk
  have hdirType := ((hwf.node b h.linked).type).resolve_left hdir
  have hsplit : (inodeAt d b).used = (inodeAt d b).used.take s.index ++
      s.block :: (inodeAt d b).used.drop (s.index + 1) := by
    rw [← hx, List.cons_getElem_drop_succ, List.take_append_drop]
  have hother (r : List (Option Bytes))
      (hr : r ∈ ((inodeAt d b).used.take s.index).map (rowAt d) ++
        ((inodeAt d b).used.drop (s.index + 1)).map (rowAt d)) :
      some n ∉ r ∧ r.any Option.isSome = true := by
    rw [← List.map_append, List.mem_map] at hr
    obtain ⟨y, hy, rfl⟩ := hr
    have hyu : y ∈ (inodeAt d b).used := by
      rw [hsplit, List.mem_append, List.mem_cons]
      rcases List.mem_append.mp hy with hy | hy
      · exact Or.inl hy
      · exact Or.inr (Or.inr hy)
    refine ⟨fun hmem => ?_, any_isSome_row.mpr ((hwf.node b h.linked).block_used hdirType y hyu)⟩
    obtain ⟨e, he, heq⟩ := mem_row_iff.mp hmem
    refine h.name_ne hwf ?_ heq
    rcases List.mem_append.mp hy with hy | hy
    · exact List.mem_append_left _ (List.mem_flatMap.mpr ⟨y, hy, he⟩)
    · exact List.mem_append_right _ (List.mem_append_right _ (List.mem_flatMap.mpr ⟨y, hy, he⟩))
  have hclear : Table.clearRow n (rowAt d s.block) = (clearEntry s).toList.map slotName := by
    rw [rowAt, ← hd, Table.clearRow, List.map_map]
    refine List.ext_getElem (by simp) fun i hi hi' => ?_
    have hi8 : i < 8 := by simpa using hi
    simp only [List.getElem_map, Function.comp_apply, Vector.getElem_toList]
    by_cases hij : s.slot.val = i
    · subst hij
      have h0' : (s.direntries[s.slot.val]).inodeBlock ≠ 0 := h0
      have hn' : arrayStr (s.direntries[s.slot.val]).name = n := hn
      simp [slotName, h0', hn', clearEntry, setEntry]
    · have hget : (clearEntry s)[i] = s.direntries[i] := by
        rw [clearEntry, setEntry, Vector.getElem_set_ne _ _ hij]
      rw [hget, if_neg]
      intro hslot
      have hmem : some n ∈ (clearEntry s).toList.map slotName := by
        rw [← hslot, ← hget]
        exact List.mem_map_of_mem (Vector.mem_toList_iff.mpr (Vector.getElem_mem hi8))
      obtain ⟨e, he, heq⟩ := mem_row_iff.mp hmem
      exact h.name_ne hwf (List.mem_append_right _ (List.mem_append_left _ he)) heq
  conv_lhs => rw [hsplit, List.map_append, List.map_cons]
  rw [Table.remove_split hother, hclear]

/-- What is common to the two ways of removing an entry. -/
theorem nodeUpdate (h : Removal d b n s) (hwf : WellFormed d)
    (hagree : ∀ b', Linked d b' → b' ≠ b → Agree d d' b')
    (htype : (inodeAt d' b).type = (inodeAt d b).type)
    (howner : (inodeAt d' b).owner = (inodeAt d b).owner)
    (hsize : (inodeAt d' b).size.toNat ≤ 124) (hentries : entries d' b = restEntries d b s)
    (hused : ∀ x ∈ (inodeAt d' b).used, usedEntries (direntriesAt d' x) ≠ [])
    {w : List BlockNo} (hperm : ((inodeAt d' b).used ++ w).Perm (inodeAt d b).used) :
    NodeUpdate d d' b n none [] (w ++ [s.inodeBlock]) := by
  obtain ⟨-, -, -, -, hn⟩ := lookupSlot_eq_some h.slot
  have hent := hentries ▸ h.entries_perm
  obtain ⟨-, hl₁, hl₂⟩ := lookup_of_perm_cons (hwf.node b h.linked).names_nodup hent
  rw [hn] at hl₁ hl₂
  exact
    { linked := h.linked
      agree := hagree
      type := htype
      owner := howner
      size_le := hsize
      names_terminated := fun e he => (hwf.node b h.linked).names_terminated e
        (hent.mem_iff.mpr (List.mem_cons_of_mem _ he))
      names_nodup := by
        have hnames := (hwf.node b h.linked).names_nodup
        rw [(hent.map _).nodup_iff, List.map_cons] at hnames
        exact hnames.of_cons
      block_used := fun _ => hused
      perm := by
        have h₂ := hent.map FsDirentry.inodeBlock
        rw [List.perm_iff_count] at hperm h₂ ⊢
        intro y
        have h₃ := hperm y
        have h₄ := h₂ y
        simp only [refs, DirSlot.inodeBlock, List.map_cons, List.count_append, List.count_cons,
          List.count_nil] at h₃ h₄ ⊢
        omega
      added_nodup := List.nodup_nil
      added_unused := by simp
      lookup_ne := fun m hm => (hl₂ m hm).symm
      lookup_eq := hl₁
      old := fun c hc => by
        rw [h.lookup] at hc
        obtain rfl := Option.some.inj hc
        exact ⟨rfl, h.leaf⟩
      new := fun c hc => by simp at hc }

end Removal

variable {s : DirSlot}

/-- An entry is removed by clearing its slot. -/
theorem nodeUpdate_unlinkSlot (h : Removal d b n s) (hwf : WellFormed d)
    (hkeep : usedEntries (clearEntry s) ≠ []) :
    NodeUpdate d (update d s.block (clearEntry s).toBlock) b n none [] [s.inodeBlock] ∧
      nodeAt (update d s.block (clearEntry s).toBlock) b =
        .dir (arrayStr (inodeAt d b).owner)
          (Table.remove n ((inodeAt d b).used.map (rowAt d))) ∧
      (Table.remove n ((inodeAt d b).used.map (rowAt d))).length = (inodeAt d b).used.length := by
  obtain ⟨hdir, hk, -, -, -⟩ := lookupSlot_eq_some h.slot
  have hx : s.block ∈ (inodeAt d b).used := List.mem_of_getElem? hk
  have hlt := (List.getElem?_eq_some_iff.mp hk).1
  have hinode := inodeAt_update_of_mem_used hwf h.linked hx (clearEntry s).toBlock
  have hdirType := ((hwf.node b h.linked).type).resolve_left hdir
  obtain ⟨hentries, hnode⟩ := entries_update_block hwf h.linked hdir hk (clearEntry s)
  have hrows : Table.remove n ((inodeAt d b).used.map (rowAt d)) =
      ((inodeAt d b).used.map (rowAt d)).set s.index ((clearEntry s).toList.map slotName) := by
    rw [h.remove_rows hwf, List.filter_singleton, any_isSome_row.mpr hkeep,
      List.set_eq_take_append_cons_drop, if_pos (by simpa using hlt), List.map_take, List.map_drop]
    simp
  refine ⟨h.nodeUpdate (w := []) hwf ?_ (by rw [hinode]) (by rw [hinode])
    (by rw [hinode]; exact (hwf.node b h.linked).size_le) hentries ?_ (by rw [hinode]; simp), ?_,
    by rw [hrows]; simp⟩
  · exact hwf.agree_update h.linked (List.mem_cons_of_mem _ hx) _
  · rw [hinode]
    intro y hy
    by_cases hyx : y = s.block
    · rwa [hyx, direntriesAt_update_self]
    · rw [direntriesAt, update_of_ne hyx]
      exact (hwf.node b h.linked).block_used hdirType y hy
  · rw [hnode, hrows]

/-- An entry is removed together with its directory block. -/
theorem nodeUpdate_unlinkBlock (h : Removal d b n s) (hwf : WellFormed d)
    (hdrop : usedEntries (clearEntry s) = []) :
    NodeUpdate d (update d b (removeBlock (inodeAt d b) s.index).toBlock) b n none []
        [s.block, s.inodeBlock] ∧
      nodeAt (update d b (removeBlock (inodeAt d b) s.index).toBlock) b =
        .dir (arrayStr (inodeAt d b).owner)
          (Table.remove n ((inodeAt d b).used.map (rowAt d))) ∧
      (Table.remove n ((inodeAt d b).used.map (rowAt d))).length + 1 =
        (inodeAt d b).used.length := by
  obtain ⟨hdir, hk, -, -, -⟩ := lookupSlot_eq_some h.slot
  obtain ⟨hlt, hx⟩ := List.getElem?_eq_some_iff.mp hk
  have hsize := (hwf.node b h.linked).size_le
  have hlt' : s.index < (inodeAt d b).size.toNat := by
    rwa [FsInode.length_used hsize] at hlt
  have hdirType := ((hwf.node b h.linked).type).resolve_left hdir
  have hagree := hwf.agree_update h.linked (List.mem_cons_self ..)
    (removeBlock (inodeAt d b) s.index).toBlock
  have hinode : inodeAt (update d b (removeBlock (inodeAt d b) s.index).toBlock) b =
      removeBlock (inodeAt d b) s.index := inodeAt_update_self
  have hother {y : BlockNo} (hy : y ∈ (inodeAt d b).used) :
      update d b (removeBlock (inodeAt d b) s.index).toBlock y = d y := by
    refine update_of_ne ?_ _ _
    rintro rfl
    exact hwf.linked_notMem_used h.linked h.linked hy
  generalize update d b (removeBlock (inodeAt d b) s.index).toBlock = d' at *
  have hused : (inodeAt d' b).used =
      (inodeAt d b).used.take s.index ++ (inodeAt d b).used.drop (s.index + 1) := by
    rw [hinode, FsInode.used_removeBlock hlt' hsize, List.eraseIdx_eq_take_drop_succ]
  have hsub {y : BlockNo} (hy : y ∈ (inodeAt d' b).used) : y ∈ (inodeAt d b).used := by
    rw [hused, List.mem_append] at hy
    exact hy.elim List.mem_of_mem_take List.mem_of_mem_drop
  have hdirs {y : BlockNo} (hy : y ∈ (inodeAt d' b).used) :
      direntriesAt d' y = direntriesAt d y := by
    rw [direntriesAt, hother (hsub hy), direntriesAt]
  have hdir' : (inodeAt d' b).type ≠ fileType := by
    rw [hinode]
    exact hdir
  have hrows : Table.remove n ((inodeAt d b).used.map (rowAt d)) =
      (inodeAt d' b).used.map (rowAt d) := by
    have hnone : ((clearEntry s).toList.map slotName).any Option.isSome = false :=
      Bool.eq_false_iff.mpr fun hany => any_isSome_row.mp hany hdrop
    rw [h.remove_rows hwf, List.filter_singleton, hnone, hused, List.map_append]
    simp
  refine ⟨h.nodeUpdate (w := [s.block]) hwf hagree (by rw [hinode]; rfl)
    (by rw [hinode]; rfl) ?_ ?_ ?_ ?_, ?_, ?_⟩
  · rw [hinode]
    exact (FsInode.toNat_size_sub_one (by omega)).trans_le (by omega)
  · rw [entries_of_not_file hdir', List.flatMap_congr fun y hy => by rw [hdirs hy], restEntries,
      hdrop, List.nil_append, hused, List.flatMap_append]
  · intro y hy
    rw [hdirs hy]
    exact (hwf.node b h.linked).block_used hdirType y (hsub hy)
  · have hsplit : (inodeAt d b).used.take s.index ++
        s.block :: (inodeAt d b).used.drop (s.index + 1) = (inodeAt d b).used := by
      rw [← hx, List.cons_getElem_drop_succ, List.take_append_drop]
    rw [hused]
    exact ((List.perm_append_singleton _ _).trans List.perm_middle.symm).trans
      (List.Perm.of_eq hsplit)
  · have howner : (inodeAt d' b).owner = (inodeAt d b).owner := by
      rw [hinode]
      rfl
    rw [nodeAt_of_not_file hdir', howner, hrows,
      List.map_congr_left fun y hy => by rw [rowAt, hdirs hy]]
    rfl
  · rw [hrows, List.length_map, hused, List.length_append, List.length_take, List.length_drop]
    omega

end OsFromScratch.FileServer
