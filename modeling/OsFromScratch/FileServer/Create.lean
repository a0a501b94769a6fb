import OsFromScratch.FileServer.ReadWrite

/-!
# `FS_CREATE`

The program of `FS_CREATE`, verified against the protocol. The new inode, and the new directory
block where there is one, are written while they are not part of the tree; the request has its
effect with the last write, which enters the name into the locked directory.

## Main definitions

* `unusedSlot` — the first unused slot of a directory.

## Main results

* `scanBlocks_eq` — what the loop over the directory finds.
* `Inv.linkSlot`, `Inv.linkBlock` — the effect of the last write.
* `wp_executeCreate` — the request keeps the protocol.
-/

namespace OsFromScratch.FileServer

open Function

variable {a₀ : AbstractFs} {i : ℕ} {b c x : BlockNo} {h : Hold} {α : Type}
  {Q : α → Ghost → Prop} {d : Disk} {s : State} {η : List Entry} {gs : ℕ → Ghost} {p : Path}
  {limbo : List BlockNo} {priv : List (BlockNo × Block)} {r : FsCreate} {name : Bytes}

/-! ### The search for the name and an unused slot -/

/-- The first unused slot of a directory, from the block with index `k` on. -/
def unusedSlot (d : Disk) : ℕ → List BlockNo → Option DirSlot
  | _, [] => none
  | k, x :: xs =>
    (findUnused (direntriesAt d x)).map (fun slot => ⟨k, x, direntriesAt d x, slot⟩) <|>
      unusedSlot d (k + 1) xs

/-- The loop of `FS_CREATE` finds out whether the name is in use, and the first unused slot. -/
theorem scanBlocks_eq (d : Disk) (name : Bytes) (k : ℕ) (xs : List BlockNo)
    (spot : Option DirSlot) : scanBlocks d name k xs spot =
      if searchBlocks d name k xs = none then some (spot <|> unusedSlot d k xs) else none := by
  induction xs generalizing k spot with
  | nil => simp [scanBlocks, searchBlocks, unusedSlot]
  | cons x xs ih =>
    rw [scanBlocks, searchBlocks, unusedSlot]
    cases findName (direntriesAt d x) name with
    | some slot => rw [if_neg (by simp)]
    | none =>
      dsimp only
      rw [ih]
      congr 2
      cases spot <;> cases findUnused (direntriesAt d x) <;> rfl

theorem unusedSlot_eq_none {k : ℕ} {xs : List BlockNo} :
    unusedSlot d k xs = none ↔ ∀ x ∈ xs, findUnused (direntriesAt d x) = none := by
  induction xs generalizing k with
  | nil => simp [unusedSlot]
  | cons x xs ih =>
    rw [unusedSlot, List.forall_mem_cons, ← ih (k := k + 1)]
    cases findUnused (direntriesAt d x) with
    | none => simp
    | some slot => simp

theorem unusedSlot_eq_some {k : ℕ} {xs : List BlockNo} {spot : DirSlot}
    (h : unusedSlot d k xs = some spot) : k ≤ spot.index ∧
      xs[spot.index - k]? = some spot.block ∧ spot.direntries = direntriesAt d spot.block ∧
      findUnused spot.direntries = some spot.slot ∧
      ∀ j y, j < spot.index - k → xs[j]? = some y → findUnused (direntriesAt d y) = none := by
  induction xs generalizing k with
  | nil => simp [unusedSlot] at h
  | cons x xs ih =>
    rw [unusedSlot] at h
    cases hx : findUnused (direntriesAt d x) with
    | some slot =>
      rw [hx] at h
      obtain rfl := Option.some.inj h
      refine ⟨le_refl k, by simp, rfl, hx, fun j y hj => ?_⟩
      simp only [Nat.sub_self] at hj
      omega
    | none =>
      rw [hx] at h
      obtain ⟨hle, hget, hdir, hfind, hfirst⟩ := ih (k := k + 1) (by simpa using h)
      have hsub : spot.index - k = spot.index - (k + 1) + 1 := by omega
      rw [hsub, List.getElem?_cons_succ]
      refine ⟨by omega, hget, hdir, hfind, fun j y hj hy => ?_⟩
      cases j with
      | zero =>
        obtain rfl := Option.some.inj hy
        exact hx
      | succ j => exact hfirst j y (by omega) hy

/-- The slots of a directory are all in use where no unused slot is found. -/
theorem hasUnused_rows {xs : List BlockNo} {k : ℕ} :
    Table.HasUnused (xs.map (rowAt d)) ↔ unusedSlot d k xs ≠ none := by
  rw [Ne, unusedSlot_eq_none, Table.HasUnused, not_forall]
  constructor
  · rintro ⟨row, hrow, hnone⟩
    obtain ⟨x, hx, rfl⟩ := List.mem_map.mp hrow
    exact ⟨x, fun h => none_mem_row.mp hnone (h hx)⟩
  · rintro ⟨x, hx⟩
    obtain ⟨hx, hne⟩ := Classical.not_imp.mp hx
    exact ⟨rowAt d x, List.mem_map_of_mem hx, none_mem_row.mpr hne⟩

/-- The slots of a directory after a name has been entered into the first unused one. -/
theorem enter_unusedSlot {xs : List BlockNo} {spot : DirSlot} {entry : Vector UInt8 60}
    (hspot : unusedSlot d 0 xs = some spot) (hc : c ≠ 0) :
    Table.enter (arrayStr entry) (xs.map (rowAt d)) =
      (xs.map (rowAt d)).set spot.index
        ((setEntry spot.direntries spot.slot c entry).toList.map slotName) := by
  obtain ⟨-, hk, hdirent, hfind, hfirst⟩ := unusedSlot_eq_some hspot
  rw [Nat.sub_zero] at hk hfirst
  refine enter_rows hc ?_ hfind fun j row hj hrow hnone => ?_
  · rw [List.getElem?_map, hk, Option.map_some, rowAt, hdirent]
  · rw [List.getElem?_map] at hrow
    obtain ⟨y, hy, rfl⟩ := Option.map_eq_some_iff.mp hrow
    exact none_mem_row.mp hnone (hfirst j y hj hy)

/-! ### What `FS_CREATE` does in the abstract file system -/

namespace AbstractFs

variable {a : AbstractFs} {user owner : Bytes} {type : UInt8} {table : Table}

theorem create_of_find_none (h : a.find user p = none) : a.create user p name type = (a, none) := by
  simp only [create, h]

theorem create_of_file {contents : List Block} (h : a.find user p = some (.file owner contents)) :
    a.create user p name type = (a, none) := by
  simp only [create, h]

theorem create_of_exists (h : a.find user p = some (.dir owner table))
    (hname : a.tree (p ++ [name]) ≠ none) : a.create user p name type = (a, none) := by
  simp only [create, h, if_pos hname]

theorem create_of_free_eq_zero (h : a.free = 0) : a.create user p name type = (a, none) := by
  rw [create]
  split
  · split_ifs with h₁ h₂ h₃ h₄
    · rfl
    · omega
    · rfl
    · omega
    · rfl
  · rfl

/-- A directory without unused slots needs two free blocks and room for one more block. -/
theorem create_of_full (h : a.find user p = some (.dir owner table)) (hfull : ¬table.HasUnused)
    (hno : ¬(table.length < fsMaxfileblocks ∧ 2 ≤ a.free)) :
    a.create user p name type = (a, none) := by
  simp only [create, h, if_neg hfull, if_neg hno, ite_self]

theorem create_slot (h : a.find user p = some (.dir owner table))
    (hname : a.tree (p ++ [name]) = none) (hunused : table.HasUnused) (hfree : 0 < a.free) :
    a.create user p name type =
      ({ (a.setNode p (some (.dir owner (table.enter name)))).setNode (p ++ [name])
          (some (.empty type user)) with free := a.free - 1 }, some none) := by
  simp only [create, h, if_neg (not_not.mpr hname), if_pos hunused, if_pos hfree]

theorem create_block (h : a.find user p = some (.dir owner table))
    (hname : a.tree (p ++ [name]) = none) (hfull : ¬table.HasUnused)
    (hroom : table.length < fsMaxfileblocks) (hfree : 2 ≤ a.free) :
    a.create user p name type =
      ({ (a.setNode p (some (.dir owner (table ++ [Table.newRow name])))).setNode (p ++ [name])
          (some (.empty type user)) with free := a.free - 2 }, some none) := by
  simp only [create, h, if_neg (not_not.mpr hname), if_neg hfull, if_pos (And.intro hroom hfree)]

end AbstractFs

theorem apply_create {a : AbstractFs} (hlast : r.path.getLast? = some name) :
    a.apply (.create r) =
      a.create (cstr r.username) (r.path.dropLast.map cstr) (cstr name) r.type := by
  simp only [AbstractFs.apply, hlast]

theorem goal_create (r : FsCreate) :
    Goal (.create r) (r.path.dropLast.map cstr) fun _ _ => none where
  fail d _ h := by
    have h' : (abs d).find (cstr r.username) (r.path.dropLast.map cstr) = none := h
    simp only [AbstractFs.apply]
    split
    · exact AbstractFs.create_of_find_none h'
    · rfl
  fin d b resp _ _ _ hfin := absurd hfin (by simp)

/-! ### The effect of the last write -/

/-- An inode as `FS_CREATE` sets it up. -/
structure NewInode (type : UInt8) (user : Bytes) (inode : FsInode) : Prop where
  type : inode.type = type
  size : inode.size = 0
  terminated : Terminated inode.owner
  owner : arrayStr inode.owner = user

namespace NewInode

variable {type : UInt8} {user : Bytes} {inode : FsInode}

theorem used (h : NewInode type user inode) : inode.used = [] := by
  rw [FsInode.used, h.size]
  rfl

theorem fresh (h : NewInode type user inode) (htype : type = fileType ∨ type = dirType)
    (hc : c ∈ unused d) (hd : d c = inode.toBlock) : Fresh d c := by
  have hinode : inodeAt d c = inode := by rw [inodeAt, hd, FsInode.ofBlock_toBlock]
  have hentries : entries d c = [] := by
    rw [entries, hinode, h.used, List.flatMap_nil, ite_self]
  have hrefs : refs d c = [] := by rw [refs, hinode, h.used, hentries]; rfl
  refine ⟨hc, ?_, hrefs⟩
  exact
    { type := by rwa [hinode, h.type]
      size_le := by rw [hinode, h.size]; exact Nat.zero_le _
      owner := by rw [hinode]; exact h.terminated
      refs_range := by simp [hrefs]
      refs_nodup := by simp [hrefs]
      names_terminated := by simp [hentries]
      names_nodup := by simp [hentries]
      block_used := by simp [hinode, h.used] }

theorem nodeAt (h : NewInode type user inode) (hd : d c = inode.toBlock) :
    nodeAt d c = .empty type user := by
  have hinode : inodeAt d c = inode := by rw [inodeAt, hd, FsInode.ofBlock_toBlock]
  rw [FileServer.nodeAt, hinode, h.used, h.type, h.owner, Node.empty]
  rfl

end NewInode

/-- The directory that `FS_CREATE` works on. -/
theorem Inv.find_create (hinv : Inv a₀ s η gs)
    (hg : gs i = Ghost.work (.create r) h p limbo priv)
    (hdir : (inodeAt h.img h.block).type ≠ fileType) :
    (abs s.disk).find (cstr r.username) p =
      some (.dir (arrayStr (inodeAt h.img h.block).owner)
        ((inodeAt h.img h.block).used.map (rowAt h.img))) := by
  have hfind : (abs s.disk).find (cstr r.username) p = some (FileServer.nodeAt h.img h.block) :=
    hinv.find_work hg
  rw [hfind, nodeAt_of_not_file hdir]

/-- What is at the path of an entry of the directory that a request works on. -/
theorem Inv.tree_entry {req : Request} (hinv : Inv a₀ s η gs)
    (hg : gs i = Ghost.work req h p limbo priv) (n : Bytes) :
    (abs s.disk).tree (p ++ [n]) = (lookup h.img h.block n).map (FileServer.nodeAt s.disk) := by
  obtain ⟨hres, -, hag⟩ := hinv.at_work hg
  simp only [abs, resolvePath_concat_of hres, hag.lookup]

/-- The effect of entering a name into an unused slot. -/
theorem Inv.linkSlot {spot : DirSlot} {inode : FsInode} {entry : Vector UInt8 60}
    (hinv : Inv a₀ s η gs) (hlast : r.path.getLast? = some name)
    (hg : gs i = Ghost.work (.create r) h (r.path.dropLast.map cstr) [c] [(c, inode.toBlock)])
    (hdir : (inodeAt h.img h.block).type ≠ fileType)
    (hnone : lookup h.img h.block (cstr name) = none)
    (hspot : unusedSlot h.img 0 (inodeAt h.img h.block).used = some spot)
    (hnew : NewInode r.type (cstr r.username) inode)
    (htype : r.type = fileType ∨ r.type = dirType) (hentry : Terminated entry)
    (hname : arrayStr entry = cstr name) :
    ∃ n o added, NodeUpdate s.disk
        (update s.disk spot.block (setEntry spot.direntries spot.slot c entry).toBlock) h.block n o
        added [] ∧
      (∀ y, y ∈ added ↔ y ∈ [c]) ∧ lookup s.disk h.block n = none ∧
      (abs s.disk).apply (.create r) =
        (abs (update s.disk spot.block (setEntry spot.direntries spot.slot c entry).toBlock),
          some none) := by
  obtain ⟨hres, -, hag⟩ := hinv.at_work hg
  obtain ⟨hinode, hlinked, -⟩ := hinv.work_eq hg
  obtain ⟨-, hk, hdirent, hfind, -⟩ := unusedSlot_eq_some hspot
  have hcu : c ∈ unused s.disk := hinv.limbo_work hg (by simp)
  have hcd : s.disk c = inode.toBlock := hinv.priv_work hg (by simp)
  have hfresh := hnew.fresh htype hcu hcd
  have hmem := List.mem_of_getElem? hk
  have hdirent' : spot.direntries = direntriesAt s.disk spot.block := by
    rw [hdirent, direntriesAt, direntriesAt, hag.of_mem_used hmem]
  have hdir' : (inodeAt s.disk h.block).type ≠ fileType := by rwa [hinode]
  have hk' : (inodeAt s.disk h.block).used[spot.index]? = some spot.block := by rwa [hinode]
  have hxc : spot.block ≠ c := by
    rintro rfl
    rw [← hinode] at hmem
    exact hinv.wf.notMem_unused_of_mem_footprint hlinked (mem_footprint_of_mem_used hmem) hcu
  have hnone' : lookup s.disk h.block (cstr name) = none := by rw [hag.lookup, hnone]
  have hu := nodeUpdate_linkSlot hinv.wf hlinked hdir' hk' (by rw [← hdirent']; exact hfind)
    hfresh hentry (by rw [hname]; exact hnone')
  rw [← hdirent', hname] at hu
  have hnode := (entries_update_block hinv.wf hlinked hdir' hk'
    (setEntry spot.direntries spot.slot c entry)).2
  have hcard := hu.ncard_unused hinv.wf
  rw [lostBlocks, hnone'] at hcard
  simp only [List.length_nil, List.length_singleton, add_zero] at hcard
  refine ⟨cstr name, some c, [c], hu, by simp, hnone', ?_⟩
  have hfree : (abs s.disk).free = (unused s.disk).ncard := rfl
  rw [apply_create hlast, AbstractFs.create_slot (hinv.find_create hg hdir)
    (by rw [hinv.tree_entry hg, hnone]; rfl) (hasUnused_rows.mpr (by rw [hspot]; simp))
    (by rw [hfree]; omega), hu.abs_eq hinv.wf hres, hnode, hag.rows, Option.map_some,
    (hfresh.agree hxc _).nodeAt, hnew.nodeAt hcd, hfree, ← hcard, Nat.add_sub_cancel, hinode,
    ← hname, enter_unusedSlot hspot hfresh.unused.1]

/-- The effect of entering a name into a new directory block. -/
theorem Inv.linkBlock {inode : FsInode} {entry : Vector UInt8 60}
    (hinv : Inv a₀ s η gs) (hlast : r.path.getLast? = some name)
    (hg : gs i = Ghost.work (.create r) h (r.path.dropLast.map cstr) [x, c]
      [(c, inode.toBlock), (x, (setEntry zeroDirentries 0 c entry).toBlock)]) (hxc : x ≠ c)
    (hdir : (inodeAt h.img h.block).type ≠ fileType)
    (hnone : lookup h.img h.block (cstr name) = none)
    (hfull : unusedSlot h.img 0 (inodeAt h.img h.block).used = none)
    (hsize : (inodeAt h.img h.block).size.toNat < 124)
    (hnew : NewInode r.type (cstr r.username) inode)
    (htype : r.type = fileType ∨ r.type = dirType) (hentry : Terminated entry)
    (hname : arrayStr entry = cstr name) :
    ∃ n o added, NodeUpdate s.disk
        (update s.disk h.block ((inodeAt h.img h.block).push x hsize).toBlock) h.block n o
        added [] ∧
      (∀ y, y ∈ added ↔ y ∈ [x, c]) ∧ lookup s.disk h.block n = none ∧
      (abs s.disk).apply (.create r) =
        (abs (update s.disk h.block ((inodeAt h.img h.block).push x hsize).toBlock),
          some none) := by
  obtain ⟨hres, -, hag⟩ := hinv.at_work hg
  obtain ⟨hinode, hlinked, -⟩ := hinv.work_eq hg
  have hxu : x ∈ unused s.disk := hinv.limbo_work hg (by simp)
  have hcu : c ∈ unused s.disk := hinv.limbo_work hg (by simp)
  have hcd : s.disk c = inode.toBlock := hinv.priv_work hg (by simp)
  have hxd : direntriesAt s.disk x = setEntry zeroDirentries 0 c entry := by
    have hd : s.disk x = (setEntry zeroDirentries 0 c entry).toBlock := hinv.priv_work hg (by simp)
    rw [direntriesAt, hd, Direntries.ofBlock_toBlock]
  have hfresh := hnew.fresh htype hcu hcd
  have hbc : h.block ≠ c := by
    rintro rfl
    exact notMem_unused_of_linked hlinked hcu
  have hdir' : (inodeAt s.disk h.block).type ≠ fileType := by rwa [hinode]
  have hnone' : lookup s.disk h.block (cstr name) = none := by rw [hag.lookup, hnone]
  obtain ⟨hu, hnode⟩ := nodeUpdate_linkBlock hinv.wf hlinked hdir' (by rwa [hinode]) hxu hxc
    hfresh hentry hxd (by rw [hname]; exact hnone')
  rw [hag.rows] at hnode
  simp only [hinode, hname] at hu hnode
  have hcard := hu.ncard_unused hinv.wf
  rw [lostBlocks, hnone'] at hcard
  simp only [List.length_nil, List.length_cons, add_zero, zero_add, Nat.reduceAdd] at hcard
  refine ⟨cstr name, some c, [x, c], hu, by simp, hnone', ?_⟩
  have hfree : (abs s.disk).free = (unused s.disk).ncard := rfl
  rw [apply_create hlast, AbstractFs.create_block (hinv.find_create hg hdir)
    (by rw [hinv.tree_entry hg, hnone]; rfl) (mt hasUnused_rows.mp (not_not.mpr hfull))
    (by rwa [List.length_map, h.length_used]) (by rw [hfree]; omega), hu.abs_eq hinv.wf hres,
    hnode, Option.map_some, (hfresh.agree hbc _).nodeAt, hnew.nodeAt hcd, hfree, ← hcard,
    Nat.add_sub_cancel]

/-! ### The program -/

theorem copyString_bind {n : ℕ} {dst : Vector UInt8 n} {src : Bytes} (hlen : (cstr src).length < n)
    (k : Vector UInt8 n → FsProg α) : (copyString dst src >>= k) = k (strcpy dst (cstr src)) := by
  rw [copyString, if_pos hlen, Prog.ret_bind]

/-- What `FS_CREATE` has found out about the locked directory. -/
structure Creating (r : FsCreate) (h : Hold) (name : Bytes) (inode : FsInode) : Prop where
  last : r.path.getLast? = some name
  mode : h.mode = .upgrade
  dir : (inodeAt h.img h.block).type ≠ fileType
  free : lookup h.img h.block (cstr name) = none
  type : r.type = fileType ∨ r.type = dirType
  length : (cstr name).length < 60
  inode : NewInode r.type (cstr r.username) inode

theorem enters_work (hlast : r.path.getLast? = some name) (hm : h.mode = .upgrade)
    (hdir : (inodeAt h.img h.block).type ≠ fileType)
    (hnone : lookup h.img h.block (cstr name) = none) :
    (Ghost.work (.create r) h (r.path.dropLast.map cstr) limbo priv).Enters r h :=
  ⟨List.mem_singleton_self h, by simp [hm], rfl, hdir, name, hlast, hnone⟩

theorem Creating.ok {inode : FsInode} (hc : Creating r h name inode) :
    (Ghost.work (.create r) h (r.path.dropLast.map cstr) limbo priv).Ok := by
  refine Ghost.ok_work fun r' hr' _ => ?_
  obtain rfl := Request.create.inj hr'
  exact enters_work hc.last hc.mode hc.dir hc.free

/-- `FS_CREATE` makes an entry in an unused slot. -/
theorem wp_createInSlot {inode : FsInode} {spot : DirSlot} (hc : Creating r h name inode)
    (hspot : unusedSlot h.img 0 (inodeAt h.img h.block).used = some spot)
    (hlt : c.toNat < fsDisksize) :
    (fsProtocol a₀).wp i (Returns (.create r))
      (createInSlot ⟨inodeAt h.img h.block, h.lock, h.block⟩ name c inode spot)
      (Ghost.work (.create r) h (r.path.dropLast.map cstr) [c] []) := by
  obtain ⟨-, hk, -, -, -⟩ := unusedSlot_eq_some hspot
  have hmem := List.mem_of_getElem? hk
  rw [createInSlot, copyString_bind hc.length]
  refine wp_privateWrite hlt (by simp [Ghost.work]) rfl (by simp [Ghost.work]) ?_
  rw [atomically_bind]
  refine wp_upgrade_work hc.mode ?_
  refine wp_visible_work (h := h.exclusive) rfl (mem_footprint_of_mem_used hmem)
    (fun s η gs hinv hg => hinv.linkSlot hc.last hg hc.dir hc.free hspot hc.inode hc.type
      (terminated_strcpy _ hc.length) (arrayStr_strcpy _ hc.length (zero_notMem_cstr _)))
    fun w hl hm => ?_
  have hl' : h.lock = w.lock := hl.symm
  rw [hl']
  exact wp_finish hm (Protocol.wp_ret.mpr rfl)

/-- `FS_CREATE` makes an entry in a new directory block. -/
theorem wp_createInNewBlock {inode : FsInode} (hc : Creating r h name inode)
    (hfull : unusedSlot h.img 0 (inodeAt h.img h.block).used = none)
    (hlt : c.toNat < fsDisksize) :
    (fsProtocol a₀).wp i (Returns (.create r))
      (createInNewBlock ⟨inodeAt h.img h.block, h.lock, h.block⟩ name c inode)
      (Ghost.work (.create r) h (r.path.dropLast.map cstr) [c] []) := by
  have hrows : ¬Table.HasUnused ((inodeAt h.img h.block).used.map (rowAt h.img)) :=
    mt hasUnused_rows.mp (not_not.mpr hfull)
  have hlen : ((inodeAt h.img h.block).used.map (rowAt h.img)).length =
      (inodeAt h.img h.block).size.toNat := by rw [List.length_map, h.length_used]
  rw [createInNewBlock]
  by_cases hsize : (inodeAt h.img h.block).size.toNat = fsMaxfileblocks
  · rw [if_pos hsize, atomically_bind]
    refine wp_pushFront hc.ok rfl rfl rfl ?_
    refine wp_fail hc.mode (fun s η gs hinv hg => ?_) (Protocol.wp_ret.mpr rfl)
    rw [apply_create hc.last, AbstractFs.create_of_full (hinv.find_create hg hc.dir) hrows]
    rw [hlen, hsize]
    exact fun h => lt_irrefl _ h.1
  · have hsize' : (inodeAt h.img h.block).size.toNat < 124 :=
      lt_of_le_of_ne h.nodeOk.size_le hsize
    rw [if_neg hsize, atomically_bind]
    have hslots : ∀ h' ∈ [h], ¬Table.HasUnused
        ((inodeAt h'.img h'.block).used.map (rowAt h'.img)) :=
      List.forall_mem_singleton.mpr hrows
    refine wp_popFrontOr hc.ok rfl rfl rfl rfl rfl hslots (fun s η gs hinv hg hcard => ?_) ?_
      fun x _ hx hxc => ?_
    · rw [apply_create hc.last, AbstractFs.create_of_full (hinv.find_create hg hc.dir) hrows]
      rintro ⟨-, hfree⟩
      have hfree' : 2 ≤ (unused s.disk).ncard := hfree
      omega
    · exact wp_finish hc.mode (Protocol.wp_ret.mpr rfl)
    · dsimp only
      rw [copyString_bind hc.length]
      refine wp_privateWrite hx (by simp) rfl (by simp [Ghost.work]) ?_
      refine wp_privateWrite hlt (by simp) rfl (by simp [Ghost.work, hxc]) ?_
      rw [setBlockAt, dif_pos hsize', Prog.ret_bind, atomically_bind]
      refine wp_upgrade_work hc.mode ?_
      refine wp_visible_work (h := h.exclusive) rfl (List.mem_cons_self ..)
        (fun s η gs hinv hg => hinv.linkBlock hc.last hg hxc hc.dir hc.free hfull hsize' hc.inode
          hc.type (terminated_strcpy _ hc.length)
          (arrayStr_strcpy _ hc.length (zero_notMem_cstr _)))
        fun w hl hm => ?_
      have hl' : h.lock = w.lock := hl.symm
      rw [hl']
      exact wp_finish hm (Protocol.wp_ret.mpr rfl)

/-- `FS_CREATE` keeps the protocol. -/
theorem wp_executeCreate (hlast : r.path.getLast? = some name)
    (huser : (cstr r.username).length < 11) (hname : (cstr name).length < 60)
    (htype : r.type = fileType ∨ r.type = dirType) :
    (fsProtocol a₀).wp i (Returns (.create r)) (executeCreate r) (Ghost.start (.create r)) := by
  rw [executeCreate, hlast]
  dsimp only
  rw [atomically_bind]
  have hok : (Ghost.start (.create r)).Ok :=
    ⟨by simp [Ghost.start], by simp [Ghost.start, Claims.none], by simp [Ghost.start]⟩
  refine wp_freeEmpty hok rfl rfl rfl (fun s η gs hinv hg hcard => ?_) (Protocol.wp_ret.mpr rfl) ?_
  · rw [apply_create hlast, AbstractFs.create_of_free_eq_zero hcard]
  · rw [if_neg (by simp)]
    refine wp_traverseFs (goal_create r) (by simp) (Protocol.wp_ret.mpr rfl) fun h hm => ?_
    change (fsProtocol a₀).wp i _ _ (Ghost.work (.create r) h (r.path.dropLast.map cstr) [] [])
    dsimp only
    by_cases hfile : (inodeAt h.img h.block).type = fileType
    · rw [if_pos hfile]
      refine wp_fail hm (fun s η gs hinv hg => ?_) (Protocol.wp_ret.mpr rfl)
      have hfind : (abs s.disk).find (cstr r.username) (r.path.dropLast.map cstr) =
          some (FileServer.nodeAt h.img h.block) := hinv.find_work hg
      rw [nodeAt_of_file hfile] at hfind
      rw [apply_create hlast, AbstractFs.create_of_file hfind]
    · rw [if_neg hfile]
      refine wp_scanDir (by simp [Ghost.work]) (by simp) ?_
      have hlookup : searchBlocks h.img (cstr name) 0 (inodeAt h.img h.block).used =
          lookupSlot h.img h.block (cstr name) := by rw [lookupSlot, if_neg hfile]
      rw [scanBlocks_eq, List.drop_zero, hlookup]
      by_cases hslot : lookupSlot h.img h.block (cstr name) = none
      · have hnone : lookup h.img h.block (cstr name) = none := by
          rw [lookup, hslot, Option.map_none]
        rw [if_pos hslot]
        dsimp only
        rw [atomically_bind]
        have henters (r' : FsCreate) (hr' : Request.create r = .create r') :
            ∃ h', (Ghost.work (.create r) h (r.path.dropLast.map cstr) [] []).Enters r' h' := by
          obtain rfl := Request.create.inj hr'
          exact ⟨h, enters_work hlast hm hfile hnone⟩
        refine wp_popFront (Ghost.ok_work (by simp)) rfl rfl rfl henters
          (fun s η gs hinv hg hcard => ?_) ?_ fun c _ hc _ => ?_
        · rw [apply_create hlast, AbstractFs.create_of_free_eq_zero hcard]
        · exact wp_finish hm (Protocol.wp_ret.mpr rfl)
        · dsimp only
          rw [atomically_bind]
          refine wp_uninitInode fun garbage => ?_
          rw [copyString_bind huser]
          have hcreating : Creating r h name { garbage with
              size := 0, type := r.type, owner := strcpy garbage.owner (cstr r.username) } :=
            ⟨hlast, hm, hfile, hnone, htype, hname, rfl, rfl, terminated_strcpy _ huser,
              arrayStr_strcpy _ huser (zero_notMem_cstr _)⟩
          cases hspot : unusedSlot h.img 0 (inodeAt h.img h.block).used with
          | none => exact wp_createInNewBlock hcreating hspot hc
          | some spot => exact wp_createInSlot hcreating hspot hc
      · rw [if_neg hslot]
        refine wp_fail hm (fun s η gs hinv hg => ?_) (Protocol.wp_ret.mpr rfl)
        rw [apply_create hlast, AbstractFs.create_of_exists (hinv.find_create hg hfile)]
        rwa [hinv.tree_entry hg, Ne, Option.map_eq_none_iff, lookup, Option.map_eq_none_iff]

end OsFromScratch.FileServer
