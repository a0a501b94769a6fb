import OsFromScratch.FileServer.Create

/-!
# `FS_DELETE`

The program of `FS_DELETE`, verified against the protocol. The request has its effect with the one
write to the locked parent directory that unlinks the target. It then lets go of the parent, waits
until the readers of the target have left, and gives its blocks back.

## Main definitions

* `Ghost.deleting`, `Ghost.unlinked` — the ghost value before and after the target is unlinked.
* `Deletable` — a target that can be deleted.

## Main results

* `Inv.unlink` — the effect of the write that unlinks the target.
* `wp_freeTarget` — the readers are waited for before the blocks are freed.
* `wp_executeDelete` — the request keeps the protocol.
-/

namespace OsFromScratch.FileServer

open Function

variable {a₀ : AbstractFs} {i : ℕ} {req : Request} {b c x : BlockNo} {h t : Hold} {α : Type}
  {Q : α → Ghost → Prop} {d : Disk} {s : State} {η : List Entry} {gs : ℕ → Ghost} {p : Path}
  {limbo : List BlockNo} {r : FsDelete} {name : Bytes}

/-! ### What `FS_DELETE` does in the abstract file system -/

namespace AbstractFs

variable {a : AbstractFs} {user owner : Bytes} {table : Table} {node : Node}

theorem delete_of_find_none (h : a.find user p = none) : a.delete user p name = (a, none) := by
  simp only [delete, h]

theorem delete_of_tree_none (h : a.tree (p ++ [name]) = none) :
    a.delete user p name = (a, none) := by
  rw [delete]
  split
  · next heq => exact absurd (h.symm.trans heq) (by simp)
  · rfl

theorem delete_of_not (h : a.tree (p ++ [name]) = some node)
    (hno : ¬(node.owner = user ∧ node.Removable)) : a.delete user p name = (a, none) := by
  rw [delete]
  split
  · next heq =>
    obtain rfl := Option.some.inj (h.symm.trans heq)
    rw [if_neg hno]
  · rfl

theorem delete_eq (hfind : a.find user p = some (.dir owner table))
    (h : a.tree (p ++ [name]) = some node) (howner : node.owner = user)
    (hrem : node.Removable) : a.delete user p name =
      ({ (a.setNode p (some (.dir owner (table.remove name)))).setNode (p ++ [name]) none with
          free := a.free + (table.length - (table.remove name).length) + node.blocks + 1 },
        some none) := by
  simp only [delete, hfind, h, if_pos (And.intro howner hrem)]

end AbstractFs

theorem apply_delete {a : AbstractFs} (hlast : r.path.getLast? = some name) :
    a.apply (.delete r) = a.delete (cstr r.username) (r.path.dropLast.map cstr) (cstr name) := by
  simp only [AbstractFs.apply, hlast]

theorem goal_delete (r : FsDelete) :
    Goal (.delete r) (r.path.dropLast.map cstr) fun _ _ => none where
  fail d _ h := by
    have h' : (abs d).find (cstr r.username) (r.path.dropLast.map cstr) = none := h
    simp only [AbstractFs.apply]
    split
    · exact AbstractFs.delete_of_find_none h'
    · rfl
  fin d b resp _ _ _ hfin := absurd hfin (by simp)

/-! ### An empty disk -/

/-- A disk without used blocks has only the root directory. -/
theorem WellFormed.resolvePath_of_unused (hwf : WellFormed d) (hall : 4095 ≤ (unused d).ncard)
    (n : Bytes) (p : Path) : resolvePath d (p ++ [n]) = none := by
  have heq : unused d = {x : BlockNo | x ≠ 0 ∧ x.toNat < fsDisksize} :=
    Set.eq_of_subset_of_ncard_le (fun x hx => ⟨hx.1, hx.2.1⟩) (by rwa [ncard_range])
  by_contra hne
  obtain ⟨b, hb⟩ := Option.ne_none_iff_exists'.mp hne
  obtain ⟨b', hb', hn⟩ := walk_concat_eq_some.mp hb
  have hused : Used d b := ⟨b', ⟨p, hb'⟩, mem_refs_of_lookup hn⟩
  have hmem : b ∈ unused d := by
    rw [heq]
    exact hwf.used_range hused
  exact hmem.2.2 hused

/-! ### Targets that can be deleted -/

/-- The test of `FS_DELETE` on the inode of the target. -/
structure Deletable (user : Bytes) (inode : FsInode) : Prop where
  owner : arrayStr inode.owner = user
  leaf : inode.type = fileType ∨ inode.size.toNat = 0

/-- The test of `FS_DELETE` fails for the targets that can be deleted. -/
theorem not_test_iff {user : Bytes} {inode : FsInode}
    (htype : inode.type = fileType ∨ inode.type = dirType) :
    ¬(arrayStr inode.owner ≠ user ∨ (inode.type = dirType ∧ 0 < inode.size.toNat)) ↔
      Deletable user inode := by
  rw [not_or, not_not, not_and, Nat.pos_iff_ne_zero, not_not]
  constructor
  · rintro ⟨ho, hleaf⟩
    exact ⟨ho, htype.imp_right hleaf⟩
  · rintro ⟨ho, hleaf⟩
    refine ⟨ho, fun hdir => hleaf.resolve_left fun hf => ?_⟩
    exact absurd (hdir.symm.trans hf) (by decide)

/-- The targets that can be deleted are the nodes of the user that can be removed. -/
theorem deletable_iff {user : Bytes} (hok : NodeOk d b) :
    Deletable user (inodeAt d b) ↔ (nodeAt d b).owner = user ∧ (nodeAt d b).Removable := by
  have hlen := FsInode.length_used hok.size_le
  rw [owner_nodeAt]
  constructor
  · rintro ⟨ho, hleaf⟩
    refine ⟨ho, ?_⟩
    rw [nodeAt]
    split_ifs with hf
    · trivial
    · rw [hleaf.resolve_left hf] at hlen
      rw [List.eq_nil_of_length_eq_zero hlen]
      rfl
  · rintro ⟨ho, hrem⟩
    refine ⟨ho, ?_⟩
    rw [nodeAt] at hrem
    split_ifs at hrem with hf
    · exact Or.inl hf
    · rw [← hlen, List.map_eq_nil_iff.mp hrem]
      exact Or.inr rfl

theorem Deletable.blocks {user : Bytes} (h : Deletable user (inodeAt d b)) :
    (nodeAt d b).blocks = (inodeAt d b).used.length := by
  rw [nodeAt]
  split_ifs with hf
  · exact List.length_map _
  · rw [FsInode.used, h.leaf.resolve_left hf, List.take_zero]
    rfl

theorem Deletable.entries {user : Bytes} (h : Deletable user (inodeAt d b)) :
    entries d b = [] := by
  rw [FileServer.entries]
  split_ifs with hf
  · rfl
  · rw [FsInode.used, h.leaf.resolve_left hf, List.take_zero, List.flatMap_nil]

/-- The data blocks that `FS_DELETE` frees are all blocks of the target. -/
theorem Deletable.count {user : Bytes} {inode : FsInode} (h : Deletable user inode) :
    (if inode.type = fileType then inode.size.toNat else 0) = inode.size.toNat := by
  split_ifs with hf
  · rfl
  · exact (h.leaf.resolve_left hf).symm

/-! ### Unlinking -/

/-- The ghost value of a request that has locked a directory and one of its entries. -/
def Ghost.deleting (req : Request) (h t : Hold) (p : Path) : Ghost :=
  ⟨some req, none, ⟨[t.lock, h.lock], [(t.lock, t.mode), (h.lock, h.mode)],
    [(t.block, t.lock), (h.block, h.lock)]⟩, [t, h], some (p, h.block), [], [], none⟩

/-- The ghost value of a request that has cut off the entry. -/
def Ghost.unlinked (req : Request) (h t : Hold) (limbo : List BlockNo) : Ghost :=
  ⟨some req, some (some none), ⟨[t.lock, h.lock], [(t.lock, t.mode), (h.lock, h.mode)],
    [(t.block, t.lock), (h.block, h.lock)]⟩, [t, h], none, limbo, [], some t.block⟩

theorem Ghost.ok_unlinked (hreq : ∀ r, req ≠ .create r) : (Ghost.unlinked req h t limbo).Ok := by
  refine ⟨by simp [Ghost.unlinked], ?_, fun r hr => absurd (Option.some.inj hr) (hreq r)⟩
  simp only [Ghost.unlinked, List.mem_cons, Prod.mk.injEq, List.not_mem_nil, or_false]
  rintro k l (⟨rfl, -⟩ | ⟨rfl, -⟩)
  · exact Or.inr (Or.inl ⟨t, Or.inl rfl, rfl⟩)
  · exact Or.inr (Or.inl ⟨h, Or.inr rfl, rfl⟩)

/-- What a request knows about the directory and the entry that it has locked. -/
theorem Inv.at_deleting (hinv : Inv a₀ s η gs) (hg : gs i = Ghost.deleting req h t p) :
    resolvePath s.disk p = some h.block ∧ OwnedAlong s.disk (cstr req.username) p ∧
      Agree h.img s.disk h.block ∧ Agree t.img s.disk t.block := by
  have ht := hinv.thread i
  rw [hg] at ht
  obtain ⟨hres, hown, -⟩ := ht.pos p h.block rfl
  exact ⟨hres, hown, ht.agree h (by simp [Ghost.deleting]), ht.agree t (by simp [Ghost.deleting])⟩

/-- The write that unlinks the entry. -/
theorem wp_unlink {k : Unit → FsProg α} {v : Block} {n : Bytes} {w : List BlockNo}
    (hreq : ∀ r, req ≠ .create r) (hm : h.mode = .exclusive) (htm : t.mode = .upgrade) (hx : x ∈ footprint h.img h.block)
    (hn : lookup h.img h.block n = some t.block)
    (hu : ∀ s η gs, Inv a₀ s η gs → gs i = Ghost.deleting req h t p →
      NodeUpdate s.disk (update s.disk x v) h.block n none [] (w ++ [t.block]) ∧
        (abs s.disk).apply req = (abs (update s.disk x v), some none))
    (hk : ∀ q : Hold, q.block = h.block → q.lock = h.lock → q.mode = .exclusive →
      (fsProtocol a₀).wp i Q (k ())
        (Ghost.unlinked req q t (w ++ footprint t.img t.block))) :
    (fsProtocol a₀).wp i Q (diskWriteblock x v >>= k) (Ghost.deleting req h t p) := by
  refine wp_visibleWrite (h := h) (by simp [Ghost.deleting]) hm hx rfl rfl rfl
    fun s η gs hinv hg => ?_
  obtain ⟨hnode, happly⟩ := hu s η gs hinv hg
  obtain ⟨hres, -, hag, htag⟩ := hinv.at_deleting hg
  have hwf := hnode.wellFormed hinv.wf
  have hl := hnode.linked_self hinv.wf
  have hn' : lookup s.disk h.block n = some t.block := by rw [hag.lookup, hn]
  have hlost : lostBlocks s.disk h.block n = (inodeAt t.img t.block).used := by
    rw [lostBlocks, hn']
    exact congrArg FsInode.used htag.inodeAt
  have hlimbo : w ++ footprint t.img t.block = (w ++ [t.block]) ++ lostBlocks s.disk h.block n := by
    rw [hlost, footprint, List.append_assoc, List.singleton_append]
  have htag' : Agree t.img (update s.disk x v) t.block :=
    htag.trans (hnode.agree t.block (hnode.linked.child hn') (hinv.wf.child_ne hnode.linked hn'))
  refine ⟨n, none, [], w ++ [t.block],
    Ghost.unlinked req ⟨h.block, h.lock, h.mode, update s.disk x v, hwf, hl⟩ t
      (w ++ footprint t.img t.block),
    hnode, fun y => Iff.rfl, ?_, fun y => ?_, fun c' hc' => ?_, rfl, rfl, Ghost.ok_unlinked hreq,
    fun drained hdrained => ⟨?_, ?_, ?_, ?_, ?_⟩, ⟨some none, rfl, happly⟩, hk _ rfl rfl hm⟩
  · change (w ++ footprint t.img t.block).Nodup
    rw [hlimbo]
    exact hnode.nodup_removed hinv.wf
  · change y ∈ w ++ footprint t.img t.block ↔ _
    rw [hlimbo, List.mem_append]
  · obtain rfl := Option.some.inj (hn'.symm.trans hc')
    exact ⟨rfl, t, by simp [Ghost.deleting], rfl, by rw [htm]; simp⟩
  · simp only [Ghost.unlinked, List.mem_cons, List.not_mem_nil, or_false]
    rintro q (rfl | rfl)
    · exact htag'
    · exact Agree.refl _ _
  · simp only [Ghost.unlinked, List.mem_cons, List.not_mem_nil, or_false]
    rintro q (rfl | rfl)
    · exact Or.inr (hdrained _ rfl)
    · exact Or.inl hl
  · intro b hb
    obtain rfl := Option.some.inj hb
    refine ⟨fun hlinked => ?_, t, by simp [Ghost.unlinked], rfl, by rw [htm]; simp, fun y hy => ?_⟩
    · rcases (hnode.linked_iff hinv.wf).mp hlinked with ⟨-, hne⟩ | hnone
      · exact hne hn'
      · exact absurd hnone (by simp)
    · exact List.mem_append_right _ hy
  · simp [Ghost.unlinked]
  · simp [Ghost.unlinked]

/-! ### Freeing the target -/

/-- The parent is released, the readers of the target are waited for, and its blocks are freed. -/
theorem wp_freeTarget {user : Bytes} (hreq : ∀ r, req ≠ .create r) (hm : h.mode = .exclusive)
    (htm : t.mode = .upgrade) (hne : h.block ≠ t.block) (hdel : Deletable user (inodeAt t.img t.block)) :
    (fsProtocol a₀).wp i (Returns req)
      (freeTarget h.lock t.lock t.block (inodeAt t.img t.block))
      (Ghost.unlinked req h t (footprint t.img t.block)) := by
  let g₁ : Ghost := ⟨some req, some (some none),
    ⟨[t.lock, h.lock], [(t.lock, t.mode)], [(t.block, t.lock)]⟩, [t], none,
    footprint t.img t.block, [], some t.block⟩
  let g₂ : Ghost := ⟨some req, some (some none),
    ⟨[t.lock, h.lock], [(t.lock, .exclusive)], [(t.block, t.lock)]⟩, [t.exclusive], none,
    footprint t.img t.block, [], some t.block⟩
  have hreq' (r : FsCreate) : some req ≠ some (.create r) := fun hr =>
    hreq r (Option.some.inj hr)
  have hok₁ : g₁.Ok := ⟨by simp [g₁], by simp [g₁], fun r hr => absurd hr (hreq' r)⟩
  have hok₂ : g₂.Ok := ⟨by simp [g₂, Hold.exclusive], by simp [g₂, Hold.exclusive],
    fun r hr => absurd hr (hreq' r)⟩
  have hparent : [(t.lock, t.mode), (h.lock, h.mode)].Perm
      [(h.lock, .exclusive), (t.lock, t.mode)] := by
    rw [hm]
    exact List.Perm.swap ..
  have htarget : [(t.lock, t.mode)] = [(t.lock, .upgrade)] := by rw [htm]
  have hfree : (footprint t.img t.block).Perm
      (((inodeAt t.img t.block).used ++ [t.block]) ++ []) := by
    rw [List.append_nil]
    exact (List.perm_append_singleton ..).symm
  rw [freeTarget, atomically_bind]
  refine wp_unlock hparent rfl (List.cons_subset_cons _ (List.nil_subset _)) hok₁ rfl rfl
    (fun d drained ht => ?_) (fun _ _ _ _ _ => LinStep.keep rfl rfl) ?_
  · refine ht.forget (fun q hq => ?_) (by simp [g₁]) (fun b hb => ⟨hb, fun q hq hqb => ?_⟩) rfl rfl
      rfl
    · exact List.mem_cons.mpr (Or.inl (List.mem_singleton.mp hq))
    · obtain rfl := Option.some.inj hb
      rcases List.mem_cons.mp hq with rfl | hq
      · exact List.mem_singleton_self _
      · rw [List.mem_singleton.mp hq] at hqb
        exact absurd hqb hne
  · rw [atomically_bind]
    refine wp_upgradeToExclusive htarget rfl (fun _ => hok₂) rfl rfl rfl rfl
      (fun d drained ht => ht.exclusive rfl rfl rfl rfl rfl rfl rfl) ?_
    rw [atomically_bind]
    -- the readers have left: the lock object and the blocks of the target are given back
    refine wp_eraseLock (h := t.exclusive) hok₂ rfl rfl rfl rfl hreq' ?_
    rw [hdel.count]
    refine wp_withinBlocks t.nodeOk.size_le ?_
    rw [← FsInode.used, atomically_bind]
    refine wp_pushBack ⟨by simp, by simp, fun r hr => absurd hr (hreq' r)⟩ hfree rfl (by simp) ?_
    rw [atomically_bind]
    have hok₃ : (Ghost.released req [t.lock, h.lock] (some (some none))).Ok := Ghost.ok_released
    refine wp_unlock (w := []) (List.Perm.refl _) rfl (List.nil_subset _) hok₃ rfl rfl
      (fun d drained ht => ?_) (fun _ _ _ _ _ => LinStep.keep rfl rfl) ?_
    · exact ⟨by simp [Ghost.released], by simp [Ghost.released], by simp [Ghost.released],
        by simp [Ghost.released], by simp [Ghost.released]⟩
    · exact wp_dropAll (List.Perm.refl _) (Protocol.wp_ret.mpr rfl)

/-! ### The effect of unlinking -/

section Effect

variable {entry : DirSlot} (hinv : Inv a₀ s η gs)
  (hg : gs i = Ghost.deleting (.delete r) h t (r.path.dropLast.map cstr))
  (hslot : lookupSlot h.img h.block (cstr name) = some entry) (ht : t.block = entry.inodeBlock)
include hinv hg hslot ht

/-- The node that is to be deleted. -/
theorem Inv.tree_deleting : (abs s.disk).tree (r.path.dropLast.map cstr ++ [cstr name]) =
    some (nodeAt t.img t.block) := by
  obtain ⟨hres, -, hag, htag⟩ := hinv.at_deleting hg
  rw [abs_tree_of_resolve (b := t.block), htag.nodeAt]
  rw [resolvePath_concat_of hres, hag.lookup, lookup, hslot, ht, Option.map_some]

variable (hdel : Deletable (cstr r.username) (inodeAt t.img t.block))
include hdel

theorem Inv.removal_deleting : Removal s.disk h.block (cstr name) entry := by
  obtain ⟨hres, -, hag, htag⟩ := hinv.at_deleting hg
  refine ⟨⟨_, hres⟩, by rw [hag.lookupSlot, hslot], ?_⟩
  rw [← ht, htag.entries, hdel.entries]

/-- A change of the directory that removes the entry is the effect of the request. -/
theorem Inv.apply_deleting (hlast : r.path.getLast? = some name) {d' : Disk} {w : List BlockNo}
    (hu : NodeUpdate s.disk d' h.block (cstr name) none [] (w ++ [t.block]))
    (hnode : nodeAt d' h.block = .dir (arrayStr (inodeAt s.disk h.block).owner)
      (Table.remove (cstr name) ((inodeAt s.disk h.block).used.map (rowAt s.disk))))
    (hlen : (Table.remove (cstr name) ((inodeAt s.disk h.block).used.map (rowAt s.disk))).length +
      w.length = (inodeAt s.disk h.block).used.length) :
    (abs s.disk).apply (.delete r) = (abs d', some none) := by
  obtain ⟨hres, hown, hag, htag⟩ := hinv.at_deleting hg
  obtain ⟨howner, hrem⟩ := (deletable_iff t.nodeOk).mp hdel
  have hn : lookup s.disk h.block (cstr name) = some t.block := by
    rw [hag.lookup, lookup, hslot, ht, Option.map_some]
  have hdir : (inodeAt s.disk h.block).type ≠ fileType := by
    rw [hag.inodeAt]
    exact (lookupSlot_eq_some hslot).1
  have hfind : (abs s.disk).find (cstr r.username) (r.path.dropLast.map cstr) = some
      (.dir (arrayStr (inodeAt s.disk h.block).owner)
        ((inodeAt s.disk h.block).used.map (rowAt s.disk))) := by
    have hfind' := find_abs_of_resolve hres hown
    rwa [nodeAt_of_not_file hdir] at hfind'
  have hcard := hu.ncard_unused hinv.wf
  have hfree : (abs s.disk).free = (unused s.disk).ncard := rfl
  rw [lostBlocks, hn] at hcard
  simp only [htag.inodeAt, List.length_nil, List.length_append, List.length_singleton,
    add_zero] at hcard
  rw [apply_delete hlast, AbstractFs.delete_eq hfind (hinv.tree_deleting hg hslot ht) howner hrem,
    hu.abs_eq hinv.wf hres, hnode, Option.map_none, hcard, hdel.blocks, hfree, List.length_map]
  have hsum : (unused s.disk).ncard + ((inodeAt s.disk h.block).used.length -
      (Table.remove (cstr name) ((inodeAt s.disk h.block).used.map (rowAt s.disk))).length) +
      (inodeAt t.img t.block).used.length + 1 =
      (unused s.disk).ncard + (w.length + 1) + (inodeAt t.img t.block).used.length := by
    omega
  rw [hsum]

end Effect

/-! ### The program -/

/-- `FS_DELETE` gives up on a target that cannot be deleted. -/
theorem wp_deleteFails (hm : h.mode = .exclusive) (htm : t.mode = .upgrade)
    (hfail : ∀ s η gs, Inv a₀ s η gs → gs i = Ghost.deleting req h t p →
      (abs s.disk).apply req = (abs s.disk, none)) :
    (fsProtocol a₀).wp i (Returns req)
      (do
        atomically (.unlock .upgrade t.lock)
        atomically (.unlock .exclusive h.lock)
        dropPtrs [t.lock, h.lock]
        .ret none)
      (Ghost.deleting req h t p) := by
  let g₁ : Ghost := ⟨some req, some none,
    ⟨[t.lock, h.lock], [(h.lock, h.mode)], [(h.block, h.lock)]⟩, [h], none, [], [], none⟩
  have hok₁ : g₁.Ok := ⟨by simp [g₁], by simp [g₁], by simp [g₁]⟩
  have hok₂ : (Ghost.released req [t.lock, h.lock] (some none)).Ok := Ghost.ok_released
  have htarget : [(t.lock, t.mode), (h.lock, h.mode)].Perm
      [(t.lock, .upgrade), (h.lock, h.mode)] := by rw [htm]
  have hparent : [(h.lock, h.mode)].Perm [(h.lock, .exclusive)] := by rw [hm]
  rw [atomically_bind]
  refine wp_unlock htarget rfl (List.subset_cons_self ..) hok₁ rfl rfl (fun d drained ht => ?_)
    (fun s η gs hinv hg => LinStep.record rfl rfl rfl rfl (hfail s η gs hinv hg)) ?_
  · refine ht.forget (fun q hq => ?_) (by simp [g₁]) (by simp [g₁]) rfl rfl rfl
    exact List.mem_cons_of_mem _ hq
  · rw [atomically_bind]
    refine wp_unlock hparent rfl (List.nil_subset _) hok₂ rfl rfl (fun d drained ht => ?_)
      (fun _ _ _ _ _ => LinStep.keep rfl rfl) ?_
    · exact ⟨by simp [Ghost.released], by simp [Ghost.released], by simp [Ghost.released],
        by simp [Ghost.released], by simp [Ghost.released]⟩
    · exact wp_dropAll (List.Perm.refl _) (Protocol.wp_ret.mpr rfl)

/-- `FS_DELETE` with the parent and the target locked. -/
theorem wp_deleteLocked {entry : DirSlot} (hm : h.mode = .exclusive) (htm : t.mode = .upgrade)
    (hlast : r.path.getLast? = some name)
    (hslot : lookupSlot h.img h.block (cstr name) = some entry) (ht : t.block = entry.inodeBlock) :
    (fsProtocol a₀).wp i (Returns (.delete r))
      (do
        let buf ← diskReadblock entry.inodeBlock
        let targetInode := FsInode.ofBlock buf
        if arrayStr targetInode.owner ≠ cstr r.username ∨
            (targetInode.type = dirType ∧ 0 < targetInode.size.toNat) then
          atomically (.unlock .upgrade t.lock)
          atomically (.unlock .exclusive h.lock)
          dropPtrs [t.lock, h.lock]
          .ret none
        else if onlyTarget entry.direntries entry.inodeBlock then
          withinBlocks (inodeAt h.img h.block).size.toNat
          diskWriteblock h.block (removeBlock (inodeAt h.img h.block) entry.index).toBlock
          atomically (.pushBack [entry.block])
          freeTarget h.lock t.lock entry.inodeBlock targetInode
        else
          diskWriteblock entry.block
            (setEntry entry.direntries entry.slot 0 (entry.direntries.get entry.slot).name).toBlock
          freeTarget h.lock t.lock entry.inodeBlock targetInode)
      (Ghost.deleting (.delete r) h t (r.path.dropLast.map cstr)) := by
  have hlookup : lookup h.img h.block (cstr name) = some t.block := by
    rw [lookup, hslot, ht, Option.map_some]
  have hne : h.block ≠ t.block := (h.wf.child_ne h.linked hlookup).symm
  rw [← ht]
  refine wp_diskReadblock (h := t) (by simp [Ghost.deleting]) (List.mem_cons_self ..) ?_
  dsimp only
  rw [← inodeAt]
  by_cases htest : arrayStr (inodeAt t.img t.block).owner ≠ cstr r.username ∨
      ((inodeAt t.img t.block).type = dirType ∧ 0 < (inodeAt t.img t.block).size.toNat)
  · rw [if_pos htest]
    refine wp_deleteFails hm htm fun s η gs hinv hg => ?_
    have hno := mt (not_test_iff t.nodeOk.type).mpr (not_not.mpr htest)
    rw [apply_delete hlast, AbstractFs.delete_of_not (hinv.tree_deleting hg hslot ht)
      (mt (deletable_iff t.nodeOk).mpr hno)]
  · have hdel := (not_test_iff t.nodeOk.type).mp htest
    rw [if_neg htest]
    obtain ⟨hdir, hk, hdirent, h0, hname⟩ := lookupSlot_eq_some hslot
    have honly (s : State) (η : List Entry) (gs : ℕ → Ghost) (hinv : Inv a₀ s η gs)
        (hg : gs i = Ghost.deleting (.delete r) h t (r.path.dropLast.map cstr)) :
        onlyTarget entry.direntries t.block = true ↔ usedEntries (clearEntry entry) = [] := by
      rw [ht]
      exact (hinv.removal_deleting hg hslot ht hdel).onlyTarget_iff hinv.wf
    by_cases hlast' : onlyTarget entry.direntries t.block = true
    · rw [if_pos hlast']
      refine wp_withinBlocks h.nodeOk.size_le ?_
      refine wp_unlink (w := [entry.block]) (by simp) hm htm (List.mem_cons_self ..) hlookup
        (fun s η gs hinv hg => ?_) fun q hqb hql hqm => ?_
      · obtain ⟨-, -, hag, -⟩ := hinv.at_deleting hg
        obtain ⟨hu, hnode, hlen⟩ := nodeUpdate_unlinkBlock
          (hinv.removal_deleting hg hslot ht hdel) hinv.wf ((honly s η gs hinv hg).mp hlast')
        rw [← ht] at hu
        rw [← hag.inodeAt]
        exact ⟨hu, hinv.apply_deleting hg hslot ht hdel hlast (w := [entry.block]) hu hnode hlen⟩
      · rw [atomically_bind]
        refine wp_pushBack (Ghost.ok_unlinked (by simp)) (List.Perm.refl _) rfl
          (fun b hb k hk x hx hkb => ?_) ?_
        · obtain rfl := Option.some.inj hb
          rcases List.mem_cons.mp hk with rfl | hk
          · exact hx
          · rw [List.mem_singleton.mp hk, hqb] at hkb
            exact absurd hkb hne
        · rw [← hql]
          exact wp_freeTarget (by simp) hqm htm (by rwa [hqb]) hdel
    · rw [if_neg hlast']
      refine wp_unlink (w := []) (by simp) hm htm (mem_footprint_of_mem_used
        (List.mem_of_getElem? hk)) hlookup
        (fun s η gs hinv hg => ?_) fun q hqb hql hqm => ?_
      · obtain ⟨hu, hnode, hlen⟩ := nodeUpdate_unlinkSlot
          (hinv.removal_deleting hg hslot ht hdel) hinv.wf (mt (honly s η gs hinv hg).mpr hlast')
        rw [← ht] at hu
        exact ⟨hu, hinv.apply_deleting hg hslot ht hdel hlast (w := []) hu hnode hlen⟩
      · rw [← hql]
        exact wp_freeTarget (by simp) hqm htm (by rwa [hqb]) hdel

/-- `FS_DELETE` from the point where the target has been found in its parent. -/
theorem wp_deleteEntry {entry : DirSlot} (hm : h.mode = .upgrade)
    (hlast : r.path.getLast? = some name)
    (hslot : lookupSlot h.img h.block (cstr name) = some entry) :
    (fsProtocol a₀).wp i (Returns (.delete r))
      (deleteEntry r.username ⟨inodeAt h.img h.block, h.lock, h.block⟩ entry)
      (Ghost.work (.delete r) h (r.path.dropLast.map cstr) [] []) := by
  have hlookup : lookup h.img h.block (cstr name) = some entry.inodeBlock := by
    rw [lookup, hslot, Option.map_some]
  have hne := h.wf.child_ne h.linked hlookup
  rw [deleteEntry]
  dsimp only
  rw [atomically_bind]
  refine wp_getLockPtr (fun l => Ghost.ok_wanting hlookup) fun l hl => ?_
  have hll : h.lock ≠ l := hl h.block h.lock (by simp [Ghost.work]) hne.symm
  rw [atomically_bind]
  have howned : [(h.lock, h.mode)] = [(h.lock, .upgrade)] := by rw [hm]
  have hok : (Ghost.wanting (.delete r) h.exclusive [l, h.lock] (r.path.dropLast.map cstr)
    entry.inodeBlock l).Ok := Ghost.ok_wanting hlookup
  refine wp_upgradeToExclusive howned rfl (fun _ => hok) rfl rfl rfl rfl
    (fun d drained ht => ht.exclusive rfl rfl rfl rfl rfl rfl rfl) ?_
  rw [atomically_bind]
  refine wp_lock (c := entry.inodeBlock) (by simp) (by simp [Ghost.wanting])
    (Ghost.descends_wanting (h := h.exclusive) hlookup)
      (by simpa [Ghost.wanting, Hold.exclusive] using hll.symm) ?_ hok.hold
    (by simp [Ghost.wanting]) rfl rfl rfl fun s η gs hinv hg => ?_
  · simp only [Ghost.wanting, Hold.exclusive, List.mem_cons, Prod.mk.injEq, List.not_mem_nil,
      or_false, exists_eq_left]
    rintro k l' (⟨rfl, -⟩ | ⟨rfl, -⟩)
    · exact Or.inl rfl
    · exact Or.inr rfl
  · have ht := hinv.thread i
    rw [hg] at ht
    obtain ⟨hres, hown, -⟩ := ht.pos _ _ rfl
    have hag := ht.agree h.exclusive (by simp [Ghost.wanting])
    have hlinked : Linked s.disk entry.inodeBlock := by
      refine Linked.child (n := cstr name) ⟨_, hres⟩ ?_
      rw [hag.lookup]
      exact hlookup
    refine ⟨hlinked, hinv.wf, none, some (r.path.dropLast.map cstr, h.block),
      LinStep.keep rfl rfl, ?_, ?_⟩
    · rintro q b ⟨⟩
      refine ⟨hres, hown, h.exclusive, List.mem_cons_of_mem _ (List.mem_singleton_self _), rfl, ?_⟩
      exact Or.inl (by simp [Hold.exclusive])
    · exact wp_deleteLocked (h := h.exclusive)
        (t := ⟨entry.inodeBlock, l, .upgrade, s.disk, hinv.wf, hlinked⟩) rfl rfl hlast hslot rfl

/-- `FS_DELETE` keeps the protocol. -/
theorem wp_executeDelete (hlast : r.path.getLast? = some name) :
    (fsProtocol a₀).wp i (Returns (.delete r)) (executeDelete r) (Ghost.start (.delete r)) := by
  rw [executeDelete, hlast]
  dsimp only
  rw [atomically_bind]
  have hok : (Ghost.start (.delete r)).Ok :=
    ⟨by simp [Ghost.start], by simp [Ghost.start, Claims.none], by simp [Ghost.start]⟩
  refine wp_freeSize hok rfl fun s η gs hinv hg => ?_
  by_cases hsize : s.freeDiskBlocks.length = 4095
  · -- all blocks are free, so there is nothing to delete
    have hall : 4095 ≤ (unused s.disk).ncard := hsize ▸ hinv.blocks.length_le_ncard none
    refine ⟨some none, LinStep.record rfl rfl rfl rfl ?_, ?_⟩
    · rw [apply_delete hlast, AbstractFs.delete_of_tree_none]
      exact abs_tree_eq_none.mpr (hinv.wf.resolvePath_of_unused hall _ _)
    · rw [if_pos hsize]
      exact Protocol.wp_ret.mpr rfl
  · refine ⟨none, LinStep.keep rfl rfl, ?_⟩
    rw [if_neg hsize]
    refine wp_traverseFs (goal_delete r) (by simp) (Protocol.wp_ret.mpr rfl) fun h hm => ?_
    change (fsProtocol a₀).wp i _ _ (Ghost.work (.delete r) h (r.path.dropLast.map cstr) [] [])
    have hfails (hnone : lookup h.img h.block (cstr name) = none) (s : State) (η : List Entry)
        (gs : ℕ → Ghost) (hinv : Inv a₀ s η gs)
        (hg : gs i = Ghost.work (.delete r) h (r.path.dropLast.map cstr) [] []) :
        (abs s.disk).apply (.delete r) = (abs s.disk, none) := by
      rw [apply_delete hlast, AbstractFs.delete_of_tree_none]
      rw [hinv.tree_entry hg, hnone, Option.map_none]
    dsimp only
    by_cases hempty : (inodeAt h.img h.block).size.toNat = 0 ∨
        (inodeAt h.img h.block).type = fileType
    · rw [if_pos hempty]
      refine wp_fail hm (hfails ?_) (Protocol.wp_ret.mpr rfl)
      refine lookup_eq_none_of_entries ?_ _
      rw [entries]
      split_ifs with hf
      · rfl
      · rw [FsInode.used, hempty.resolve_right hf, List.take_zero, List.flatMap_nil]
    · rw [if_neg hempty]
      push Not at hempty
      refine wp_searchDir (by simp [Ghost.work]) (by simp) ?_
      have hsearch : searchBlocks h.img (cstr name) 0 ((inodeAt h.img h.block).used.drop 0) =
          lookupSlot h.img h.block (cstr name) := by
        rw [lookupSlot, if_neg hempty.2, List.drop_zero]
      rw [hsearch]
      cases hslot : lookupSlot h.img h.block (cstr name) with
      | none =>
        refine wp_fail hm (hfails ?_) (Protocol.wp_ret.mpr rfl)
        rw [lookup, hslot, Option.map_none]
      | some entry => exact wp_deleteEntry hm hlast hslot

end OsFromScratch.FileServer
