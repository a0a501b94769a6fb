import OsFromScratch.FileServer.AbstractFs
import OsFromScratch.FileServer.NodeUpdate

/-!
# The abstract file system of a disk

The tree that can be read off a disk, and the number of blocks that are not referenced from it. A
path is resolved by the code and owned in the tree under the same conditions, and a change of one
inode of the disk is a change of one node of the tree.

## Main definitions

* `nodeAt`, `abs` — the node that an inode represents, and the abstract file system of a disk.
* `OwnedAlong` — all inodes on a path belong to a user.

## Main results

* `find_abs_eq_some` — the node at a path that a user may access.
* `find_abs_of_stuck` — where the code gives up, no node can be accessed.
* `SameTree.abs`, `NodeUpdate.abs_tree`, `NodeUpdate.ncard_unused` — the abstract file system after
  a write.
-/

namespace OsFromScratch.FileServer

open Function

/-- The name in a directory entry, if the entry is used. -/
def slotName (e : FsDirentry) : Option Bytes :=
  if e.inodeBlock = 0 then none else some (arrayStr e.name)

/-- The slots of a directory block. -/
def rowAt (d : Disk) (x : BlockNo) : List (Option Bytes) :=
  (direntriesAt d x).toList.map slotName

/-- The node that an inode represents. -/
def nodeAt (d : Disk) (b : BlockNo) : Node :=
  if (inodeAt d b).type = fileType then
    .file (arrayStr (inodeAt d b).owner) ((inodeAt d b).used.map d)
  else
    .dir (arrayStr (inodeAt d b).owner) ((inodeAt d b).used.map (rowAt d))

/-- The abstract file system of a disk. -/
noncomputable def abs (d : Disk) : AbstractFs where
  tree p := (resolvePath d p).map (nodeAt d)
  free := (unused d).ncard

/-- All inodes on the path other than the root belong to the user. -/
def OwnedAlong (d : Disk) (user : Bytes) (p : Path) : Prop :=
  ∀ q b, q <+: p → q ≠ [] → resolvePath d q = some b → arrayStr (inodeAt d b).owner = user

variable {d d' : Disk} {b b' c x : BlockNo} {n user : Bytes} {o : Option BlockNo}
  {added removed : List BlockNo} {p q : Path}

theorem nodeAt_of_file (h : (inodeAt d b).type = fileType) :
    nodeAt d b = .file (arrayStr (inodeAt d b).owner) ((inodeAt d b).used.map d) :=
  if_pos h

theorem nodeAt_of_not_file (h : (inodeAt d b).type ≠ fileType) :
    nodeAt d b = .dir (arrayStr (inodeAt d b).owner) ((inodeAt d b).used.map (rowAt d)) :=
  if_neg h

@[simp] theorem owner_nodeAt : (nodeAt d b).owner = arrayStr (inodeAt d b).owner := by
  rw [nodeAt]
  split_ifs <;> rfl

theorem Agree.rows (h : Agree d d' b) :
    (FileServer.inodeAt d' b).used.map (rowAt d') =
      (FileServer.inodeAt d b).used.map (rowAt d) := by
  rw [h.inodeAt]
  refine List.map_congr_left fun x hx => ?_
  rw [rowAt, rowAt, direntriesAt, direntriesAt, h.of_mem_used hx]

theorem Agree.nodeAt (h : Agree d d' b) : nodeAt d' b = nodeAt d b := by
  rw [FileServer.nodeAt, FileServer.nodeAt, h.rows, h.inodeAt]
  split_ifs
  · rw [List.map_congr_left fun x hx => h.of_mem_used hx]
  · rfl

theorem abs_tree_eq_some {node : Node} :
    (abs d).tree p = some node ↔ ∃ b, resolvePath d p = some b ∧ nodeAt d b = node :=
  Option.map_eq_some_iff

theorem abs_tree_of_resolve (h : resolvePath d p = some b) :
    (abs d).tree p = some (nodeAt d b) := by
  simp only [abs, h, Option.map_some]

theorem abs_tree_eq_none : (abs d).tree p = none ↔ resolvePath d p = none :=
  Option.map_eq_none_iff

/-! ### Paths -/

theorem owned_abs_iff : (abs d).Owned user p ↔ OwnedAlong d user p := by
  constructor
  · intro h q b hq hne hb
    rw [← owner_nodeAt]
    exact h q _ hq hne (abs_tree_of_resolve hb)
  · intro h q node hq hne hnode
    obtain ⟨b, hb, rfl⟩ := abs_tree_eq_some.mp hnode
    rw [owner_nodeAt]
    exact h q b hq hne hb

theorem find_abs_eq_some {node : Node} : (abs d).find user p = some node ↔
    ∃ b, resolvePath d p = some b ∧ OwnedAlong d user p ∧ nodeAt d b = node := by
  rw [AbstractFs.find, owned_abs_iff]
  split_ifs with h
  · simp [abs_tree_eq_some, h]
  · simp [h]

theorem find_abs_of_resolve (h : resolvePath d p = some b) (hu : OwnedAlong d user p) :
    (abs d).find user p = some (nodeAt d b) :=
  find_abs_eq_some.mpr ⟨b, h, hu, rfl⟩

theorem resolvePath_concat : resolvePath d (p ++ [n]) = (resolvePath d p).bind (lookup d · n) :=
  walk_concat p n

theorem resolvePath_concat_of (h : resolvePath d p = some b) :
    resolvePath d (p ++ [n]) = lookup d b n := by
  rw [resolvePath_concat, h, Option.bind_some]

/-- A path that extends an unresolvable one is unresolvable. -/
theorem resolvePath_append_eq_none (h : resolvePath d p = none) (r : Path) :
    resolvePath d (p ++ r) = none := by
  induction r using List.reverseRecOn with
  | nil => simpa using h
  | append_singleton r m ih => rw [← List.append_assoc, resolvePath_concat, ih, Option.bind_none]

theorem ownedAlong_nil : OwnedAlong d user [] := by
  rintro q b hq hne -
  exact absurd (List.prefix_nil.mp hq) hne

theorem OwnedAlong.of_prefix (h : OwnedAlong d user p) (hq : q <+: p) : OwnedAlong d user q :=
  fun r b hr => h r b (hr.trans hq)

theorem ownedAlong_concat (hb : resolvePath d (p ++ [n]) = some b) :
    OwnedAlong d user (p ++ [n]) ↔
      OwnedAlong d user p ∧ arrayStr (inodeAt d b).owner = user := by
  constructor
  · intro h
    exact ⟨h.of_prefix (List.prefix_append ..), h _ b (List.prefix_refl _) (by simp) hb⟩
  · rintro ⟨h, hu⟩ q c hq hne hc
    rcases List.prefix_concat_iff.mp hq with rfl | hq
    · rw [hb] at hc
      rwa [← Option.some.inj hc]
    · exact h q c hq hne hc

/-- The code gives up at the inode `b`, which it has reached over a path: it is a file or it has no
entry with the name, or, unless it is the root, it belongs to somebody else. -/
def Stuck (d : Disk) (user : Bytes) (b : BlockNo) (atRoot : Bool) (name : Bytes) : Prop :=
  (inodeAt d b).type = fileType ∨ (user ≠ arrayStr (inodeAt d b).owner ∧ atRoot = false) ∨
    lookup d b name = none

theorem lookup_of_file (h : (inodeAt d b).type = fileType) : lookup d b n = none :=
  lookup_eq_none.mpr (by simp [entries, h])

/-- Where the code gives up, no node can be accessed. -/
theorem find_abs_of_stuck {atRoot : Bool} (hb : resolvePath d p = some b)
    (hroot : atRoot = false → p ≠ []) (h : Stuck d user b atRoot n) (r : Path) :
    (abs d).find user (p ++ n :: r) = none := by
  have hassoc : p ++ n :: r = (p ++ [n]) ++ r := by simp
  by_contra hne
  obtain ⟨node, hnode⟩ := Option.ne_none_iff_exists'.mp hne
  obtain ⟨c, hc, hu, -⟩ := find_abs_eq_some.mp hnode
  have hlookup : lookup d b n ≠ none := by
    intro hl
    rw [hassoc, resolvePath_append_eq_none (by rw [resolvePath_concat_of hb, hl])] at hc
    exact absurd hc (by simp)
  rcases h with hf | ⟨ho, hr⟩ | hl
  · exact hlookup (lookup_of_file hf)
  · exact ho (hu p b (List.prefix_append ..) (hroot hr) hb).symm
  · exact hlookup hl

/-- Nobody but the owner can access a node. -/
theorem find_abs_of_owner_ne (hb : resolvePath d p = some b) (hp : p ≠ [])
    (ho : user ≠ arrayStr (inodeAt d b).owner) : (abs d).find user p = none := by
  by_contra hne
  obtain ⟨node, hnode⟩ := Option.ne_none_iff_exists'.mp hne
  obtain ⟨-, -, hu, -⟩ := find_abs_eq_some.mp hnode
  exact ho (hu p b (List.prefix_refl _) hp hb).symm

/-! ### Writes -/

theorem SameTree.abs (h : SameTree d d') : abs d' = abs d := by
  rw [FileServer.abs, FileServer.abs, h.unused, resolvePath_congr h]
  congr 1
  funext p
  cases hp : resolvePath d p with
  | none => rfl
  | some b => rw [Option.map_some, Option.map_some, (h b ⟨p, hp⟩).nodeAt]

theorem SameTree.ownedAlong (h : SameTree d d') (hu : OwnedAlong d user p) :
    OwnedAlong d' user p := by
  rw [← owned_abs_iff, h.abs, owned_abs_iff]
  exact hu

namespace NodeUpdate

/-- The tree after a change of one inode. -/
theorem abs_tree (h : NodeUpdate d d' b n o added removed) (hwf : WellFormed d)
    (hq : FileServer.resolvePath d q = some b) :
    (abs d').tree =
      update (update (abs d).tree q (some (nodeAt d' b))) (q ++ [n]) (o.map (nodeAt d')) := by
  funext p
  rw [abs, abs]
  simp only [h.resolvePath hwf hq p, update_apply]
  split_ifs with h1 h2
  · rfl
  · rw [h2, hq, Option.map_some]
  · cases hp : FileServer.resolvePath d p with
    | none => rfl
    | some b' =>
      have hne : b' ≠ b := by
        rintro rfl
        exact h2 (hwf.isTree.walk_inj hp hq)
      rw [Option.map_some, Option.map_some, (h.agree b' ⟨p, hp⟩ hne).nodeAt]

/-- The abstract file system after a change of one inode. -/
theorem abs_eq (h : NodeUpdate d d' b n o added removed) (hwf : WellFormed d)
    (hq : FileServer.resolvePath d q = some b) :
    abs d' = { ((abs d).setNode q (some (nodeAt d' b))).setNode (q ++ [n]) (o.map (nodeAt d')) with
      free := (unused d').ncard } :=
  AbstractFs.ext (h.abs_tree hwf hq) rfl

/-- The abstract file system after a change of one inode that concerns no entry. -/
theorem abs_eq_of_lookup (h : NodeUpdate d d' b n none added removed) (hwf : WellFormed d)
    (hq : FileServer.resolvePath d q = some b) (hn : lookup d b n = none) :
    abs d' = { (abs d).setNode q (some (nodeAt d' b)) with free := (unused d').ncard } := by
  have hnone : (abs d).tree (q ++ [n]) = none :=
    abs_tree_eq_none.mpr (by rw [resolvePath_concat_of hq, hn])
  refine AbstractFs.ext ?_ rfl
  rw [h.abs_tree hwf hq, Option.map_none]
  exact update_eq_self_iff.mpr (by rw [update_of_ne (by simp), hnone])

private theorem ncard_list {l : List BlockNo} (h : l.Nodup) : {x | x ∈ l}.ncard = l.length := by
  rw [← List.coe_toFinset, Set.ncard_coe_finset, List.toFinset_card_of_nodup h]

theorem nodup_lostBlocks (h : NodeUpdate d d' b n o added removed) (hwf : WellFormed d) :
    (lostBlocks d b n).Nodup := by
  rw [lostBlocks]
  split
  · next c hc =>
    exact (List.nodup_append.mp (hwf.node c (h.linked.child hc)).refs_nodup).1
  · exact List.nodup_nil

/-- What an inode no longer refers to, and the blocks lost with an entry, are different blocks. -/
theorem nodup_removed (h : NodeUpdate d d' b n o added removed) (hwf : WellFormed d) :
    (removed ++ lostBlocks d b n).Nodup := by
  have hnodup := h.perm.nodup_iff.mpr (h.refs_append_nodup hwf)
  refine List.nodup_append.mpr ⟨(List.nodup_append.mp hnodup).2.1, h.nodup_lostBlocks hwf, ?_⟩
  rintro x hxr y hxl rfl
  obtain ⟨c, hc, hxc⟩ := h.mem_lostBlocks.mp hxl
  have hlc := h.linked.child hc
  rcases List.mem_append.mp (h.perm.subset (List.mem_append_right _ hxr)) with hb | ha
  · exact hwf.refs_disjoint c b hlc h.linked (hwf.child_ne h.linked hc) hxc hb
  · exact (h.added_unused x ha).2.2 ⟨c, hlc, hxc⟩

/-- The number of unused blocks after a change of one inode. -/
theorem ncard_unused (h : NodeUpdate d d' b n o added removed) (hwf : WellFormed d) :
    (unused d').ncard + added.length =
      (unused d).ncard + removed.length + (lostBlocks d b n).length := by
  have hset : unused d' = (unused d \ {x | x ∈ added}) ∪ {x | x ∈ removed ++ lostBlocks d b n} := by
    ext x
    rw [h.mem_unused hwf]
    simp only [Set.mem_union, Set.mem_sdiff, Set.mem_ofPred_eq, List.mem_append]
  have hdisj : Disjoint (unused d \ {x | x ∈ added}) {x | x ∈ removed ++ lostBlocks d b n} := by
    rw [Set.disjoint_left]
    rintro x ⟨hx, hxa⟩ hxr
    rcases List.mem_append.mp hxr with hxr | hxl
    · rcases List.mem_append.mp (h.perm.subset (List.mem_append_right _ hxr)) with hb | ha
      · exact hx.2.2 ⟨b, h.linked, hb⟩
      · exact hxa ha
    · obtain ⟨c, hc, hxc⟩ := h.mem_lostBlocks.mp hxl
      exact hx.2.2 ⟨c, h.linked.child hc, hxc⟩
  have hsub : {x | x ∈ added} ⊆ unused d := h.added_unused
  have hcard := Set.ncard_sdiff_add_ncard_of_subset hsub
  rw [ncard_list h.added_nodup] at hcard
  rw [hset, Set.ncard_union_eq hdisj, ncard_list (h.nodup_removed hwf), List.length_append]
  omega

/-- The inodes on a path that the change does not cut off keep their owners. -/
theorem ownedAlong (h : NodeUpdate d d' b n o added removed) (hwf : WellFormed d)
    (hp : FileServer.resolvePath d p = some b') (hu : OwnedAlong d user p) :
    OwnedAlong d' user p := by
  obtain ⟨q, hq⟩ := h.linked
  intro r c hr hne hc
  rw [h.resolvePath hwf hq] at hc
  split_ifs at hc with hrq
  · -- a new inode is not on a path that was there before
    obtain ⟨t, rfl⟩ := hr
    have hnone : FileServer.resolvePath d r = none := by
      rw [hrq, resolvePath_concat_of hq]
      by_contra hne'
      obtain ⟨c', hc'⟩ := Option.ne_none_iff_exists'.mp hne'
      rw [(h.old c' hc').1] at hc
      exact absurd hc (by simp)
    rw [resolvePath_append_eq_none hnone] at hp
    exact absurd hp (by simp)
  · have howner : (inodeAt d' c).owner = (inodeAt d c).owner := by
      by_cases hcb : c = b
      · rw [hcb, h.owner]
      · rw [(h.agree c ⟨r, hc⟩ hcb).inodeAt]
    rw [howner]
    exact hu r c hr hne hc

end NodeUpdate

end OsFromScratch.FileServer
