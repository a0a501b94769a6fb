import OsFromScratch.FileServer.Traversal

/-!
# `FS_READBLOCK` and `FS_WRITEBLOCK`

The programs of the two requests on files, verified against the protocol. A read has its effect when
the lock of the file is acquired; a write has its effect with the one disk write that makes it
visible, under the exclusive lock of the file.

## Main definitions

* `Returns` — the postcondition of a request.
* `Ghost.work` — the ghost value of a request that works on a locked inode.

## Main results

* `wp_executeReadblock`, `wp_executeWriteblock` — the two requests keep the protocol.
-/

namespace OsFromScratch.FileServer

open Function

variable {a₀ : AbstractFs} {i : ℕ} {req : Request} {b c x : BlockNo} {h : Hold} {α : Type}
  {Q : α → Ghost → Prop} {d : Disk} {s : State} {η : List Entry} {gs : ℕ → Ghost} {p : Path}
  {lin : Option Response} {limbo : List BlockNo} {priv : List (BlockNo × Block)}

/-- A request returns the response that the history records, and holds nothing any more. -/
def Returns (req : Request) (r : Response) (g : Ghost) : Prop :=
  g = Ghost.done req r

/-! ### Working on an inode -/

/-- The ghost value of a request that works on a locked inode, at the end of the path `p`. -/
def Ghost.work (req : Request) (h : Hold) (p : Path) (limbo : List BlockNo)
    (priv : List (BlockNo × Block)) : Ghost :=
  ⟨some req, none, ⟨[h.lock], [(h.lock, h.mode)], [(h.block, h.lock)]⟩, [h], some (p, h.block),
    limbo, priv, none⟩

theorem Ghost.ok_work (henters : ∀ r, req = .create r → limbo ≠ [] →
    (Ghost.work req h p limbo priv).Enters r h) : (Ghost.work req h p limbo priv).Ok :=
  ⟨by simp [Ghost.work], by simp [Ghost.work], fun r hr hne =>
    ⟨rfl, h, henters r (Option.some.inj hr) hne⟩⟩

/-- What a request knows about the inode that it works on. -/
theorem Inv.at_work (hinv : Inv a₀ s η gs) (hg : gs i = Ghost.work req h p limbo priv) :
    resolvePath s.disk p = some h.block ∧ OwnedAlong s.disk (cstr req.username) p ∧
      Agree h.img s.disk h.block := by
  have ht := hinv.thread i
  rw [hg] at ht
  obtain ⟨hres, hown, -⟩ := ht.pos p h.block rfl
  exact ⟨hres, hown, ht.agree h (by simp [Ghost.work])⟩

/-- The blocks that a request has taken are unused. -/
theorem Inv.limbo_work (hinv : Inv a₀ s η gs) (hg : gs i = Ghost.work req h p limbo priv)
    (hx : x ∈ limbo) : x ∈ unused s.disk :=
  hinv.mem_unused_of_limbo (i := i) (by rwa [hg])

/-- What a request has written to the blocks it has taken is still there. -/
theorem Inv.priv_work {v : Block} (hinv : Inv a₀ s η gs)
    (hg : gs i = Ghost.work req h p limbo priv) (hx : (x, v) ∈ priv) : s.disk x = v :=
  ((hinv.thread i).priv x v (by rwa [hg])).2

/-- The node that a request works on. -/
theorem Inv.find_work (hinv : Inv a₀ s η gs) (hg : gs i = Ghost.work req h p limbo priv) :
    (abs s.disk).find (cstr req.username) p = some (nodeAt h.img h.block) := by
  obtain ⟨hres, hown, hag⟩ := hinv.at_work hg
  rw [find_abs_of_resolve hres hown, hag.nodeAt]

/-- The inode with its lock made exclusive. -/
def Hold.exclusive (h : Hold) : Hold :=
  { h with mode := .exclusive }

/-- What a request knows about the disk stays when its lock becomes exclusive. -/
theorem ThreadInv.exclusive {g g' : Ghost} {drained : BlockNo → Prop} (ht : ThreadInv d drained g)
    (hholds : g.holds = [h]) (hholds' : g'.holds = [h.exclusive]) (hpos : g'.pos = g.pos)
    (hlimbo : g'.limbo = g.limbo) (hpriv : g'.priv = g.priv) (hdrain : g'.drain = g.drain)
    (hreq : g'.req = g.req) : ThreadInv d drained g' := by
  have huser : g'.user = g.user := by rw [Ghost.user, hreq, Ghost.user]
  obtain ⟨hag, hl, hd, hp, hw⟩ := ht
  rw [hholds] at hag hl hd hp
  simp only [List.mem_singleton, forall_eq, exists_eq_left] at hag hl hd hp
  refine ⟨?_, ?_, fun b hb => ?_, fun q b hq => ?_, ?_⟩
  · rw [hholds']
    exact List.forall_mem_singleton.mpr hag
  · rw [hholds']
    exact List.forall_mem_singleton.mpr hl
  · obtain ⟨hnl, heq, -, hfp⟩ := hd b (hdrain ▸ hb)
    rw [hholds', hlimbo]
    exact ⟨hnl, h.exclusive, List.mem_singleton_self _, heq, by simp [Hold.exclusive], hfp⟩
  · obtain ⟨hres, hown, heq, -⟩ := hp q b (hpos ▸ hq)
    rw [hholds', huser]
    exact ⟨hres, hown, h.exclusive, List.mem_singleton_self _, heq,
      Or.inl (by simp [Hold.exclusive])⟩
  · rw [hpriv, hlimbo]
    exact hw

/-- The lock of the inode becomes exclusive. -/
theorem wp_upgrade_work {k : Unit → FsProg α} (hm : h.mode = .upgrade)
    (hk : (fsProtocol a₀).wp i Q (k ()) (Ghost.work req h.exclusive p limbo priv)) :
    (fsProtocol a₀).wp i Q (.op (.upgradeToExclusive h.lock) k)
      (Ghost.work req h p limbo priv) := by
  have howned : (Ghost.work req h p limbo priv).claims.owned = [(h.lock, .upgrade)] := by
    rw [← hm]
    rfl
  have hok (hold : (Ghost.work req h p limbo priv).Ok) :
      (Ghost.work req h.exclusive p limbo priv).Ok := by
    refine Ghost.ok_work fun r hr hne => ?_
    obtain ⟨-, h', hmem, -, hpos, hdir, hname⟩ := hold.reserve r (congrArg some hr) hne
    obtain rfl := List.mem_singleton.mp hmem
    exact ⟨List.mem_singleton_self _, by simp [Hold.exclusive], hpos, hdir, hname⟩
  exact wp_upgradeToExclusive howned rfl hok rfl rfl rfl rfl
    (fun d drained ht => ht.exclusive rfl rfl rfl rfl rfl rfl rfl) hk

/-- The request fails, as the inode shows, and releases the lock. -/
theorem wp_fail {f : Unit → FsProg α} {m : LockMode} (hm : h.mode = m)
    (hfail : ∀ s η gs, Inv a₀ s η gs → gs i = Ghost.work req h p [] [] →
      (abs s.disk).apply req = (abs s.disk, none))
    (hf : (fsProtocol a₀).wp i Q (f ()) (Ghost.done req none)) :
    (fsProtocol a₀).wp i Q (release m h.lock >>= f) (Ghost.work req h p [] []) := by
  rw [← hm]
  exact wp_release (fun s η gs hinv hg => Or.inr ⟨rfl, none, rfl, hfail s η gs hinv hg⟩) hf

/-- The request has been decided, and releases the lock. -/
theorem wp_finish {f : Unit → FsProg α} {m : LockMode} {r : Response}
    {pos : Option (Path × BlockNo)} (hm : h.mode = m)
    (hf : (fsProtocol a₀).wp i Q (f ()) (Ghost.done req r)) :
    (fsProtocol a₀).wp i Q (release m h.lock >>= f) (Ghost.at req h [] (some r) pos) := by
  rw [← hm]
  exact wp_release (fun _ _ _ _ _ => Or.inl rfl) hf

/-- A block of the inode is written, and the request takes effect with it. -/
theorem wp_visible_work {k : Unit → FsProg α} {v : Block} (hm : h.mode = .exclusive)
    (hx : x ∈ footprint h.img h.block)
    (hu : ∀ s η gs, Inv a₀ s η gs → gs i = Ghost.work req h p limbo priv →
      ∃ n o added, NodeUpdate s.disk (update s.disk x v) h.block n o added [] ∧
        (∀ y, y ∈ added ↔ y ∈ limbo) ∧ lookup s.disk h.block n = none ∧
        (abs s.disk).apply req = (abs (update s.disk x v), some none))
    (hk : ∀ w : Hold, w.lock = h.lock → w.mode = .exclusive →
      (fsProtocol a₀).wp i Q (k ()) (Ghost.at req w [] (some (some none)) none)) :
    (fsProtocol a₀).wp i Q (diskWriteblock x v >>= k) (Ghost.work req h p limbo priv) := by
  refine wp_visibleWrite (h := h) (by simp [Ghost.work]) hm hx rfl rfl rfl
    fun s η gs hinv hg => ?_
  obtain ⟨n, o, added, hnode, hadded, hnone, happly⟩ := hu s η gs hinv hg
  have hwf := hnode.wellFormed hinv.wf
  have hl := hnode.linked_self hinv.wf
  refine ⟨n, o, added, [],
    Ghost.at req ⟨h.block, h.lock, h.mode, update s.disk x v, hwf, hl⟩ [] (some (some none)) none,
    hnode, hadded, List.nodup_nil, ?_, ?_, rfl, rfl, Ghost.ok_at, fun drained _ => ?_,
    ⟨some none, rfl, happly⟩, hk _ rfl hm⟩
  · simp [Ghost.at, lostBlocks, hnone]
  · simp [hnone]
  · refine ⟨?_, ?_, by simp [Ghost.at], by simp [Ghost.at], by simp [Ghost.at]⟩
    · simpa [Ghost.at] using Agree.refl _ _
    · simpa [Ghost.at] using Or.inl hl

/-! ### Reading -/

/-- The response to a read of a block of an inode. -/
def readResponse (block : ℕ) (d : Disk) (b : BlockNo) : Response :=
  if (inodeAt d b).type = fileType then ((inodeAt d b).used.map d)[block]?.map some else none

theorem goal_readblock (r : FsReadblock) :
    Goal (.readblock r) (r.path.map cstr) fun d b => some (readResponse r.block.toNat d b) where
  fail d _ h := by
    have h' : (abs d).find (cstr r.username) (r.path.map cstr) = none := h
    simp only [AbstractFs.apply, AbstractFs.readblock, h']
  fin d b resp _ hb ho hfin := by
    obtain rfl := Option.some.inj hfin
    have h' : (abs d).find (cstr r.username) (r.path.map cstr) = some (nodeAt d b) :=
      find_abs_of_resolve hb ho
    simp only [AbstractFs.apply, AbstractFs.readblock, h', nodeAt, readResponse]
    split_ifs <;> rfl

/-- `FS_READBLOCK` keeps the protocol. -/
theorem wp_executeReadblock {r : FsReadblock} (hpath : r.path ≠ [])
    (hblock : r.block.toNat < fsMaxfileblocks) :
    (fsProtocol a₀).wp i (Returns (.readblock r)) (executeReadblock r)
      (Ghost.start (.readblock r)) := by
  rw [executeReadblock, if_neg hpath, if_neg (not_le.mpr hblock)]
  refine wp_traverseFs (goal_readblock r) (by simp) (Protocol.wp_ret.mpr rfl) fun h hm => ?_
  dsimp only
  by_cases hdir : (inodeAt h.img h.block).type = dirType
  · have hr : readResponse r.block.toNat h.img h.block = none := by
      rw [readResponse, if_neg]
      rw [hdir]
      decide
    rw [if_pos hdir, hr]
    exact wp_finish hm (Protocol.wp_ret.mpr rfl)
  · have hfile := h.nodeOk.type.resolve_right hdir
    rw [if_neg hdir]
    by_cases hsize : (inodeAt h.img h.block).size.toNat ≤ r.block.toNat
    · have hr : readResponse r.block.toNat h.img h.block = none := by
        rw [readResponse, if_pos hfile, List.getElem?_eq_none, Option.map_none]
        rwa [List.length_map, h.length_used]
      rw [if_pos hsize, hr]
      exact wp_finish hm (Protocol.wp_ret.mpr rfl)
    · obtain ⟨hlt, hdrop, hmem⟩ := h.drop_used (not_le.mp hsize)
      have hr : readResponse r.block.toNat h.img h.block =
          some (some (h.img (inodeAt h.img h.block).blocks[r.block.toNat])) := by
        rw [readResponse, if_pos hfile, List.getElem?_map, ← List.head?_drop, hdrop]
        rfl
      rw [if_neg hsize, hr]
      refine wp_blockAt hlt (wp_diskReadblock (h := h) (by simp [Ghost.at])
        (mem_footprint_of_mem_used hmem) ?_)
      exact wp_finish hm (Protocol.wp_ret.mpr rfl)

/-! ### Writing -/

theorem goal_writeblock (r : FsWriteblock) :
    Goal (.writeblock r) (r.path.map cstr) fun _ _ => none where
  fail d _ h := by
    have h' : (abs d).find (cstr r.username) (r.path.map cstr) = none := h
    simp only [AbstractFs.apply, AbstractFs.writeblock, h']
    split <;> rfl
  fin d b resp _ _ _ hfin := absurd hfin (by simp)

theorem derefData_some_bind (buf : Block) (k : Block → FsProg α) :
    (derefData (some buf) >>= k) = k buf := rfl

/-- The effect of a write to the file that the request works on. -/
theorem Inv.apply_writeblock {r : FsWriteblock} {buf : Block} (hinv : Inv a₀ s η gs)
    (hg : gs i = Ghost.work (.writeblock r) h (r.path.map cstr) limbo priv)
    (hdata : r.data = some buf) (hf : (inodeAt h.img h.block).type = fileType) :
    (abs s.disk).apply (.writeblock r) =
      if r.block.toNat < (inodeAt h.img h.block).size.toNat then
        ((abs s.disk).setNode (r.path.map cstr)
          (some (.file (arrayStr (inodeAt h.img h.block).owner)
          (((inodeAt h.img h.block).used.map h.img).set r.block.toNat buf))), some none)
      else if r.block.toNat = (inodeAt h.img h.block).size.toNat ∧
          (inodeAt h.img h.block).size.toNat < fsMaxfileblocks ∧ 0 < (unused s.disk).ncard then
        ({ (abs s.disk).setNode (r.path.map cstr)
            (some (.file (arrayStr (inodeAt h.img h.block).owner)
              ((inodeAt h.img h.block).used.map h.img ++ [buf]))) with
            free := (unused s.disk).ncard - 1 }, some none)
      else
        (abs s.disk, none) := by
  have hfind : (abs s.disk).find (cstr r.username) (r.path.map cstr) =
      some (nodeAt h.img h.block) := hinv.find_work hg
  rw [nodeAt_of_file hf] at hfind
  simp only [AbstractFs.apply, hdata, AbstractFs.writeblock, hfind, List.length_map, h.length_used]
  rfl

/-- A file that the request works on is a file on the disk. -/
theorem Inv.work_eq (hinv : Inv a₀ s η gs) (hg : gs i = Ghost.work req h p limbo priv) :
    inodeAt s.disk h.block = inodeAt h.img h.block ∧ Linked s.disk h.block ∧
      (inodeAt h.img h.block).used.map s.disk = (inodeAt h.img h.block).used.map h.img := by
  obtain ⟨hres, -, hag⟩ := hinv.at_work hg
  exact ⟨hag.inodeAt, ⟨p, hres⟩, List.map_congr_left fun x hx => hag.of_mem_used hx⟩

/-- The effect of overwriting a block of the file that the request works on. -/
theorem Inv.overwrite {r : FsWriteblock} {buf : Block} (hinv : Inv a₀ s η gs)
    (hg : gs i = Ghost.work (.writeblock r) h (r.path.map cstr) [] [])
    (hdata : r.data = some buf) (hfile : (inodeAt h.img h.block).type = fileType)
    (hk : (inodeAt h.img h.block).used[r.block.toNat]? = some x) :
    ∃ n o added, NodeUpdate s.disk (update s.disk x buf) h.block n o added [] ∧
      (∀ y, y ∈ added ↔ y ∈ ([] : List BlockNo)) ∧ lookup s.disk h.block n = none ∧
      (abs s.disk).apply (.writeblock r) = (abs (update s.disk x buf), some none) := by
  obtain ⟨hinode, hlinked, hmap⟩ := hinv.work_eq hg
  obtain ⟨hres, -, -⟩ := hinv.at_work hg
  have hfile' : (inodeAt s.disk h.block).type = fileType := by rw [hinode, hfile]
  have hlt : r.block.toNat < (inodeAt h.img h.block).size.toNat := by
    rw [← h.length_used]
    exact (List.getElem?_eq_some_iff.mp hk).1
  obtain ⟨hu, hnode⟩ := nodeUpdate_overwrite hinv.wf hlinked hfile' (by rw [hinode]; exact hk) buf
  have hcard := hu.ncard_unused hinv.wf
  rw [lostBlocks, lookup_of_file hfile'] at hcard
  refine ⟨[], none, [], hu, by simp, lookup_of_file hfile', ?_⟩
  rw [hinv.apply_writeblock hg hdata hfile, if_pos hlt,
    hu.abs_eq_of_lookup hinv.wf hres (lookup_of_file hfile'), hnode, hinode, hmap]
  simp only [List.length_nil, add_zero] at hcard
  rw [hcard]
  rfl

/-- The effect of adding a block to the file that the request works on. -/
theorem Inv.grow {r : FsWriteblock} {buf : Block} (hinv : Inv a₀ s η gs)
    (hg : gs i = Ghost.work (.writeblock r) h (r.path.map cstr) [x] [(x, buf)])
    (hdata : r.data = some buf) (hfile : (inodeAt h.img h.block).type = fileType)
    (hsize : (inodeAt h.img h.block).size.toNat < 124)
    (hblock : r.block.toNat = (inodeAt h.img h.block).size.toNat) :
    ∃ n o added, NodeUpdate s.disk
        (update s.disk h.block ((inodeAt h.img h.block).push x hsize).toBlock) h.block
          n o added [] ∧
      (∀ y, y ∈ added ↔ y ∈ [x]) ∧ lookup s.disk h.block n = none ∧
      (abs s.disk).apply (.writeblock r) =
        (abs (update s.disk h.block ((inodeAt h.img h.block).push x hsize).toBlock),
          some none) := by
  obtain ⟨hinode, hlinked, hmap⟩ := hinv.work_eq hg
  obtain ⟨hres, -, -⟩ := hinv.at_work hg
  have hx : x ∈ unused s.disk := hinv.limbo_work hg (by simp)
  have hbuf : s.disk x = buf := hinv.priv_work hg (by simp)
  have hfile' : (inodeAt s.disk h.block).type = fileType := by rw [hinode, hfile]
  obtain ⟨hu, hnode⟩ := nodeUpdate_grow hinv.wf hlinked hfile' (by rw [hinode]; exact hsize) hx
  simp only [hinode] at hu hnode
  have hcard := hu.ncard_unused hinv.wf
  rw [lostBlocks, lookup_of_file hfile'] at hcard
  simp only [List.length_nil, List.length_singleton, add_zero] at hcard
  refine ⟨[], none, [x], hu, by simp, lookup_of_file hfile', ?_⟩
  rw [hinv.apply_writeblock hg hdata hfile, if_neg (by omega), if_pos ⟨hblock, hsize, by omega⟩,
    hu.abs_eq_of_lookup hinv.wf hres (lookup_of_file hfile'), hnode, hmap, hbuf, ← hcard]
  rfl

/-- `FS_WRITEBLOCK` overwrites a block. -/
theorem wp_overwrite {r : FsWriteblock} {buf : Block} (hm : h.mode = .upgrade)
    (hdata : r.data = some buf) (hfile : (inodeAt h.img h.block).type = fileType)
    (hlt : r.block.toNat < (inodeAt h.img h.block).size.toNat) :
    (fsProtocol a₀).wp i (Returns (.writeblock r))
      (do
        atomically (.upgradeToExclusive h.lock)
        let block ← blockAt (inodeAt h.img h.block) r.block.toNat
        let buf ← derefData r.data
        diskWriteblock block buf
        release .exclusive h.lock
        .ret (some none))
      (Ghost.work (.writeblock r) h (r.path.map cstr) [] []) := by
  obtain ⟨hk, hdrop, hmem⟩ := h.drop_used hlt
  have hget : (inodeAt h.img h.block).used[r.block.toNat]? =
      some (inodeAt h.img h.block).blocks[r.block.toNat] := by
    rw [← List.head?_drop, hdrop, List.head?_cons]
  rw [atomically_bind]
  refine wp_upgrade_work hm (wp_blockAt hk ?_)
  rw [hdata, derefData_some_bind]
  refine wp_visible_work (h := h.exclusive) rfl (mem_footprint_of_mem_used hmem)
    (fun s η gs hinv hg => hinv.overwrite hg hdata hfile hget) fun w hl hm' => ?_
  have hl' : h.lock = w.lock := hl.symm
  rw [hl']
  exact wp_finish hm' (Protocol.wp_ret.mpr rfl)

/-- `FS_WRITEBLOCK` adds a block. -/
theorem wp_grow {r : FsWriteblock} {buf : Block} (hm : h.mode = .upgrade)
    (hdata : r.data = some buf) (hfile : (inodeAt h.img h.block).type = fileType)
    (hsize : (inodeAt h.img h.block).size.toNat < 124)
    (hblock : r.block.toNat = (inodeAt h.img h.block).size.toNat) (hx : x.toNat < fsDisksize) :
    (fsProtocol a₀).wp i (Returns (.writeblock r))
      (do
        let inode ← setBlockAt (inodeAt h.img h.block) (inodeAt h.img h.block).size.toNat x
        let inode := { inode with size := inode.size + 1 }
        let buf ← derefData r.data
        diskWriteblock x buf
        atomically (.upgradeToExclusive h.lock)
        diskWriteblock h.block inode.toBlock
        release .exclusive h.lock
        .ret (some none))
      (Ghost.work (.writeblock r) h (r.path.map cstr) [x] []) := by
  rw [setBlockAt, dif_pos hsize, Prog.ret_bind, hdata, derefData_some_bind]
  refine wp_privateWrite hx (by simp [Ghost.work]) rfl (by simp [Ghost.work]) ?_
  rw [atomically_bind]
  refine wp_upgrade_work hm ?_
  refine wp_visible_work (h := h.exclusive) rfl (List.mem_cons_self ..)
    (fun s η gs hinv hg => hinv.grow hg hdata hfile hsize hblock) fun w hl hm' => ?_
  have hl' : h.lock = w.lock := hl.symm
  rw [hl']
  exact wp_finish hm' (Protocol.wp_ret.mpr rfl)

/-- `FS_WRITEBLOCK` keeps the protocol. -/
theorem wp_executeWriteblock {r : FsWriteblock} {buf : Block} (hpath : r.path ≠ [])
    (hblock : r.block.toNat < fsMaxfileblocks) (hdata : r.data = some buf) :
    (fsProtocol a₀).wp i (Returns (.writeblock r)) (executeWriteblock r)
      (Ghost.start (.writeblock r)) := by
  rw [executeWriteblock, if_neg hpath, if_neg (not_le.mpr hblock)]
  refine wp_traverseFs (goal_writeblock r) (by simp) (Protocol.wp_ret.mpr rfl) fun h hm => ?_
  change (fsProtocol a₀).wp i _ _ (Ghost.work (.writeblock r) h (r.path.map cstr) [] [])
  dsimp only
  by_cases hdir : (inodeAt h.img h.block).type = dirType
  · rw [if_pos hdir]
    refine wp_fail hm (fun s η gs hinv hg => ?_) (Protocol.wp_ret.mpr rfl)
    have hfind : (abs s.disk).find (cstr r.username) (r.path.map cstr) =
        some (nodeAt h.img h.block) := hinv.find_work hg
    rw [nodeAt_of_not_file (by rw [hdir]; decide)] at hfind
    simp only [AbstractFs.apply, hdata, AbstractFs.writeblock, hfind]
  · have hfile := h.nodeOk.type.resolve_right hdir
    rw [if_neg hdir]
    by_cases hlt : r.block < (inodeAt h.img h.block).size
    · rw [if_pos hlt]
      exact wp_overwrite hm hdata hfile (UInt32.lt_iff_toNat_lt.mp hlt)
    · have hle : (inodeAt h.img h.block).size.toNat ≤ r.block.toNat :=
        not_lt.mp fun h => hlt (UInt32.lt_iff_toNat_lt.mpr h)
      rw [if_neg hlt]
      by_cases heq : r.block = (inodeAt h.img h.block).size
      · have heq' : r.block.toNat = (inodeAt h.img h.block).size.toNat := by rw [heq]
        have hsize : (inodeAt h.img h.block).size.toNat < 124 := heq' ▸ hblock
        rw [if_pos heq, atomically_bind]
        refine wp_popFront (Ghost.ok_work (by simp)) rfl rfl rfl (by simp) (fun s η gs hinv hg hcard => ?_) ?_
          fun x _ hx _ => wp_grow hm hdata hfile hsize heq' hx
        · rw [hinv.apply_writeblock hg hdata hfile, if_neg (not_lt.mpr hle), if_neg]
          rintro ⟨-, -, hpos⟩
          rw [hcard] at hpos
          exact absurd hpos (lt_irrefl 0)
        · exact wp_finish hm (Protocol.wp_ret.mpr rfl)
      · rw [if_neg heq]
        refine wp_fail hm (fun s η gs hinv hg => ?_) (Protocol.wp_ret.mpr rfl)
        rw [hinv.apply_writeblock hg hdata hfile, if_neg (not_lt.mpr hle), if_neg]
        rintro ⟨heq', -, -⟩
        exact heq (UInt32.toNat_inj.mp heq')

end OsFromScratch.FileServer
