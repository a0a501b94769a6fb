import OsFromScratch.FileServer.Rules

/-!
# Traversing the tree

`traverse_fs` goes down the tree with one lock held, and takes the lock of the next inode before it
releases the current one. At the moment it has a lock, the blocks of the locked inode decide
whether it will get further, so a traversal that is going to fail has failed then.

## Main definitions

* `scanBlocks` — the search of a directory for a name and an unused slot.
* `Ghost.at`, `Ghost.released` — the ghost value of a request with one lock, and without.
* `Arrived` — what is decided when the lock of an inode is acquired.

## Main results

* `wp_searchDir`, `wp_scanDir` — the loops over a directory.
* `wp_traverseFs` — `traverse_fs` returns the inode at the end of the path, locked, or nothing.
-/

namespace OsFromScratch.FileServer

open Function

variable {a₀ : AbstractFs} {g g' : Ghost} {i : ℕ} {req : Request} {b c x : BlockNo} {h : Hold}
  {α : Type} {Q : α → Ghost → Prop} {n name : Bytes} {d : Disk}

@[simp] theorem atomically_bind {o : Op} (k : o.Res → FsProg α) :
    (atomically o >>= k) = .op o k := rfl

/-! ### Loops over a directory -/

theorem mem_footprint_of_mem_used (hx : x ∈ (inodeAt d b).used) : x ∈ footprint d b :=
  List.mem_cons_of_mem _ hx

theorem Hold.nodeOk (h : Hold) : NodeOk h.img h.block :=
  h.wf.node h.block h.linked

theorem Hold.length_used (h : Hold) :
    (inodeAt h.img h.block).used.length = (inodeAt h.img h.block).size.toNat :=
  FsInode.length_used h.nodeOk.size_le

/-- The blocks of an inode from an index on. -/
theorem Hold.drop_used (h : Hold) {k : ℕ} (hk : k < (inodeAt h.img h.block).size.toNat) :
    ∃ hk' : k < 124, (inodeAt h.img h.block).used.drop k =
      (inodeAt h.img h.block).blocks[k] :: (inodeAt h.img h.block).used.drop (k + 1) ∧
      (inodeAt h.img h.block).blocks[k] ∈ (inodeAt h.img h.block).used := by
  have hk' : k < 124 := hk.trans_le h.nodeOk.size_le
  have hlen : k < (inodeAt h.img h.block).used.length := by rwa [h.length_used]
  have hget : (inodeAt h.img h.block).used[k] = (inodeAt h.img h.block).blocks[k] := by
    simp [FsInode.used]
  refine ⟨hk', ?_, ?_⟩
  · rw [← hget, List.cons_getElem_drop_succ]
  · rw [← hget]
    exact List.getElem_mem hlen

theorem wp_blockAt {inode : FsInode} {k : ℕ} (hk : k < 124) {f : BlockNo → FsProg α}
    (hf : (fsProtocol a₀).wp i Q (f inode.blocks[k]) g) :
    (fsProtocol a₀).wp i Q (blockAt inode k >>= f) g := by
  rw [blockAt, dif_pos hk]
  exact hf

theorem wp_withinBlocks {n : ℕ} (hn : n ≤ 124) {k : Unit → FsProg α}
    (hk : (fsProtocol a₀).wp i Q (k ()) g) : (fsProtocol a₀).wp i Q (withinBlocks n >>= k) g := by
  rw [withinBlocks, if_pos hn]
  exact hk

/-- The search of a locked directory. -/
theorem wp_searchDir (hh : h ∈ g.holds) {f : Option DirSlot → FsProg α} {m k : ℕ}
    (hmk : k + m = (inodeAt h.img h.block).size.toNat)
    (hf : (fsProtocol a₀).wp i Q
      (f (searchBlocks h.img (cstr name) k ((inodeAt h.img h.block).used.drop k))) g) :
    (fsProtocol a₀).wp i Q (searchDir (inodeAt h.img h.block) name m k >>= f) g := by
  induction m generalizing k with
  | zero =>
    rw [List.drop_eq_nil_of_le (by rw [h.length_used]; omega)] at hf
    exact hf
  | succ m ih =>
    obtain ⟨hk, hdrop, hmem⟩ := h.drop_used (k := k) (by omega)
    rw [hdrop, searchBlocks] at hf
    rw [searchDir, Prog.bind_assoc]
    refine wp_blockAt hk ?_
    rw [Prog.bind_assoc]
    refine wp_diskReadblock hh (mem_footprint_of_mem_used hmem) ?_
    dsimp only
    rw [← direntriesAt]
    cases hslot : findName (direntriesAt h.img (inodeAt h.img h.block).blocks[k]) (cstr name) with
    | some slot =>
      rw [hslot] at hf
      exact hf
    | none =>
      rw [hslot] at hf
      exact ih (by omega) hf

/-- The search of a directory for a name and an unused slot, as `scanDir` performs it on the
disk `d`. -/
def scanBlocks (d : Disk) (name : Bytes) :
    ℕ → List BlockNo → Option DirSlot → Option (Option DirSlot)
  | _, [], spot => some spot
  | i, x :: xs, spot =>
    match findName (direntriesAt d x) name with
    | some _ => none
    | none => scanBlocks d name (i + 1) xs
        (spot <|> (findUnused (direntriesAt d x)).map fun slot => ⟨i, x, direntriesAt d x, slot⟩)

/-- The search of a locked directory for a name and an unused slot. -/
theorem wp_scanDir (hh : h ∈ g.holds) {f : Option (Option DirSlot) → FsProg α} {m k : ℕ}
    {spot : Option DirSlot} (hmk : k + m = (inodeAt h.img h.block).size.toNat)
    (hf : (fsProtocol a₀).wp i Q
      (f (scanBlocks h.img (cstr name) k ((inodeAt h.img h.block).used.drop k) spot)) g) :
    (fsProtocol a₀).wp i Q (scanDir (inodeAt h.img h.block) name m k spot >>= f) g := by
  induction m generalizing k spot with
  | zero =>
    rw [List.drop_eq_nil_of_le (by rw [h.length_used]; omega)] at hf
    exact hf
  | succ m ih =>
    obtain ⟨hk, hdrop, hmem⟩ := h.drop_used (k := k) (by omega)
    rw [hdrop, scanBlocks] at hf
    rw [scanDir, Prog.bind_assoc]
    refine wp_blockAt hk ?_
    rw [Prog.bind_assoc]
    refine wp_diskReadblock hh (mem_footprint_of_mem_used hmem) ?_
    dsimp only
    rw [← direntriesAt]
    cases hslot : findName (direntriesAt h.img (inodeAt h.img h.block).blocks[k]) (cstr name) with
    | some slot =>
      rw [hslot] at hf
      exact hf
    | none =>
      rw [hslot] at hf
      exact ih (by omega) hf

/-! ### Pointers and locks of a traversal -/

/-- Several pointers are released. -/
theorem wp_dropPtrs {f : Unit → FsProg α} {ps w : List LockId} (hok : g.Ok)
    (hperm : g.claims.ptrs.Perm (ps ++ w)) (hnil : ps = [] → g.claims.ptrs = w)
    (howned : ∀ l m, (l, m) ∈ g.claims.owned → l ∈ w)
    (huses : ∀ k l, (k, l) ∈ g.claims.uses → l ∈ w)
    (hf : (fsProtocol a₀).wp i Q (f ())
      { g with claims := ⟨w, g.claims.owned, g.claims.uses⟩ }) :
    (fsProtocol a₀).wp i Q (dropPtrs ps >>= f) g := by
  induction ps generalizing g with
  | nil =>
    have hg : { g with claims := ⟨w, g.claims.owned, g.claims.uses⟩ } = g := by
      rw [← hnil rfl]
    rw [hg] at hf
    exact hf
  | cons p ps ih =>
    rw [dropPtrs, Prog.bind_assoc, atomically_bind]
    refine wp_dropPtr hperm
      (fun l m hl => List.mem_append_right _ (howned l m hl))
      (fun k l hl => List.mem_append_right _ (huses k l hl)) ?_ hok
    refine ih ⟨hok.hold, hok.uses, hok.reserve_congr id rfl rfl rfl rfl⟩ (List.Perm.refl _) ?_ howned huses hf
    rintro rfl
    rfl

/-- The ghost value of a request that holds one lock, with further pointers. -/
def Ghost.at (req : Request) (h : Hold) (extra : List LockId) (lin : Option Response)
    (pos : Option (Path × BlockNo)) : Ghost :=
  ⟨some req, lin, ⟨h.lock :: extra, [(h.lock, h.mode)], [(h.block, h.lock)]⟩, [h], pos, [], [],
    none⟩

/-- The ghost value of a request that holds only pointers. -/
def Ghost.released (req : Request) (ptrs : List LockId) (lin : Option Response) : Ghost :=
  ⟨some req, lin, ⟨ptrs, [], []⟩, [], none, [], [], none⟩

theorem Ghost.ok_released {ptrs : List LockId} {lin : Option Response} :
    (Ghost.released req ptrs lin).Ok :=
  ⟨by simp [released], by simp [released], by simp [released]⟩

theorem Ghost.ok_at {extra : List LockId} {lin : Option Response}
    {pos : Option (Path × BlockNo)} : (Ghost.at req h extra lin pos).Ok :=
  ⟨by simp [Ghost.at], by simp [Ghost.at], by simp [Ghost.at]⟩

/-- The ghost value after the lock has been released. -/
theorem ThreadInv.released {extra : List LockId} {lin lin' : Option Response}
    {pos : Option (Path × BlockNo)} {drained : BlockNo → Prop} :
    ThreadInv d drained (Ghost.at req h extra lin pos) →
      ThreadInv d drained (Ghost.released req (h.lock :: extra) lin') := fun _ =>
  ⟨by simp [Ghost.released], by simp [Ghost.released], by simp [Ghost.released],
    by simp [Ghost.released], by simp [Ghost.released]⟩

/-- The remaining pointers are released. -/
theorem wp_dropAll {f : Unit → FsProg α} {ps ptrs : List LockId} {lin : Option Response}
    (hperm : ptrs.Perm ps) (hf : (fsProtocol a₀).wp i Q (f ()) (Ghost.released req [] lin)) :
    (fsProtocol a₀).wp i Q (dropPtrs ps >>= f) (Ghost.released req ptrs lin) := by
  refine wp_dropPtrs (w := []) Ghost.ok_released ?_ ?_ ?_ ?_ hf
  · simpa [Ghost.released] using hperm
  · rintro rfl
    exact List.perm_nil.mp hperm
  · simp [Ghost.released]
  · simp [Ghost.released]

/-- The lock is released; that can decide the response. -/
theorem wp_unlock_at {k : Unit → FsProg α} {extra : List LockId} {lin lin' : Option Response}
    {pos : Option (Path × BlockNo)}
    (hlin : ∀ s η gs, Inv a₀ s η gs → gs i = Ghost.at req h extra lin pos →
      lin' = lin ∨ (lin = none ∧ ∃ r, lin' = some r ∧
        (abs s.disk).apply req = (abs s.disk, r)))
    (hk : (fsProtocol a₀).wp i Q (k ()) (Ghost.released req (h.lock :: extra) lin')) :
    (fsProtocol a₀).wp i Q (.op (.unlock h.mode h.lock) k) (Ghost.at req h extra lin pos) := by
  refine wp_unlock (w := []) (List.Perm.refl _) rfl (List.nil_subset _) Ghost.ok_released rfl rfl
    (fun d drained => ThreadInv.released) (fun s η gs hinv hg => ?_) hk
  rcases hlin s η gs hinv hg with hl | ⟨hl, r, hr, happly⟩
  · exact LinStep.keep hl rfl
  · exact LinStep.record hl rfl rfl hr happly

/-- The lock and the pointer of an `inode_lock_info` are released; that can decide the response. -/
theorem wp_release {f : Unit → FsProg α} {lin lin' : Option Response}
    {pos : Option (Path × BlockNo)}
    (hlin : ∀ s η gs, Inv a₀ s η gs → gs i = Ghost.at req h [] lin pos →
      lin' = lin ∨ (lin = none ∧ ∃ r, lin' = some r ∧
        (abs s.disk).apply req = (abs s.disk, r)))
    (hf : (fsProtocol a₀).wp i Q (f ()) (Ghost.released req [] lin')) :
    (fsProtocol a₀).wp i Q (release h.mode h.lock >>= f) (Ghost.at req h [] lin pos) := by
  rw [release, Prog.bind_assoc, atomically_bind]
  refine wp_unlock_at hlin ?_
  refine wp_dropPtr (w := []) (List.Perm.refl _) ?_ ?_ hf Ghost.ok_released
  · simp [Ghost.released]
  · simp [Ghost.released]

/-! ### Decisions on the way -/

/-- What a request does with the inode at the end of the path `p`: it fails if it cannot access the
inode, and `fin` is its response where the inode alone decides it. -/
structure Goal (req : Request) (p : Path) (fin : Disk → BlockNo → Option Response) : Prop where
  fail : ∀ d, WellFormed d → (abs d).find (cstr req.username) p = none →
    (abs d).apply req = (abs d, none)
  fin : ∀ d b r, WellFormed d → resolvePath d p = some b → OwnedAlong d (cstr req.username) p →
    fin d b = some r → (abs d).apply req = (abs d, r)

/-- What is decided when the lock of the inode `b` is acquired, which has been reached over the path
`q` with some components left. -/
def Arrived (user : Bytes) (T : LockMode) (fin : Disk → BlockNo → Option Response) (d : Disk)
    (b : BlockNo) (q : Path) : Path → Option Response → Option (Path × BlockNo) → Prop
  | name :: _, lin, pos =>
    (Stuck d user b (decide (q = [])) (cstr name) ∧ lin = some none ∧ pos = none) ∨
      (¬Stuck d user b (decide (q = [])) (cstr name) ∧ lin = none ∧ pos = some (q, b))
  | [], lin, pos =>
    (q ≠ [] ∧ user ≠ arrayStr (inodeAt d b).owner ∧ lin = some none ∧ pos = none) ∨
      ((q = [] ∨ user = arrayStr (inodeAt d b).owner) ∧ lin = fin d b ∧
        pos = if T = .shared then none else some (q, b))

variable {p q rest : Path} {fin : Disk → BlockNo → Option Response} {T : LockMode}

/-- The mode in which an inode on a path is locked. -/
def modeAt (T : LockMode) (rest : Path) : LockMode :=
  if rest = [] then T else .shared

/-- Whatever inode has been reached, its state at that moment settles what the traversal does
there. -/
theorem exists_arrived (hgoal : Goal req p fin) (hwf : WellFormed d)
    (hb : resolvePath d q = some b)
    (hown : ∀ q' n, q = q' ++ [n] → OwnedAlong d (cstr req.username) q')
    (hp : q ++ rest.map cstr = p) :
    ∃ lin pos, Arrived (cstr req.username) T fin d b q rest lin pos ∧
      (lin = none ∨ ∃ r, lin = some r ∧ (abs d).apply req = (abs d, r)) ∧
      ∀ q' b', pos = some (q', b') → q' = q ∧ b' = b ∧ OwnedAlong d (cstr req.username) q ∧
        (modeAt T rest ≠ .shared ∨ ∃ n c, lookup d b n = some c) := by
  have hownq (ho : q = [] ∨ cstr req.username = arrayStr (inodeAt d b).owner) :
      OwnedAlong d (cstr req.username) q := by
    rcases List.eq_nil_or_concat' q with rfl | ⟨q', n, rfl⟩
    · exact ownedAlong_nil
    · exact (ownedAlong_concat hb).mpr ⟨hown q' n rfl, (ho.resolve_left (by simp)).symm⟩
  cases rest with
  | nil =>
    obtain rfl : q = p := by simpa using hp
    by_cases ho : q = [] ∨ cstr req.username = arrayStr (inodeAt d b).owner
    · refine ⟨fin d b, if T = .shared then none else some (q, b), Or.inr ⟨ho, rfl, rfl⟩, ?_, ?_⟩
      · cases hf : fin d b with
        | none => exact Or.inl rfl
        | some r => exact Or.inr ⟨r, rfl, hgoal.fin d b r hwf hb (hownq ho) hf⟩
      · intro q' b' hpos
        split_ifs at hpos with hT
        obtain ⟨rfl, rfl⟩ := Prod.mk.inj (Option.some.inj hpos)
        exact ⟨rfl, rfl, hownq ho, Or.inl (by rwa [modeAt, if_pos rfl])⟩
    · push Not at ho
      refine ⟨some none, none, Or.inl ⟨ho.1, ho.2, rfl, rfl⟩, Or.inr ⟨none, rfl, ?_⟩, by simp⟩
      exact hgoal.fail d hwf (find_abs_of_owner_ne hb ho.1 ho.2)
  | cons name rest =>
    by_cases hst : Stuck d (cstr req.username) b (decide (q = [])) (cstr name)
    · refine ⟨some none, none, Or.inl ⟨hst, rfl, rfl⟩, Or.inr ⟨none, rfl, ?_⟩, by simp⟩
      refine hgoal.fail d hwf ?_
      rw [← hp, List.map_cons]
      exact find_abs_of_stuck hb (by simp) hst _
    · refine ⟨none, some (q, b), Or.inr ⟨hst, rfl, rfl⟩, Or.inl rfl, ?_⟩
      rintro q' b' ⟨⟩
      simp only [Stuck, not_or, not_and, decide_eq_false_iff_not, not_not] at hst
      obtain ⟨c, hc⟩ := Option.ne_none_iff_exists'.mp hst.2.2
      refine ⟨rfl, rfl, hownq ?_, Or.inr ⟨_, c, hc⟩⟩
      by_cases hq : q = []
      · exact Or.inl hq
      · exact Or.inr (by_contra fun hne => hq (hst.2.1 hne))

/-! ### The traversal -/

/-- The ghost value of a request that stands at a locked inode and has a pointer to the lock of one
of its entries. -/
def Ghost.wanting (req : Request) (h : Hold) (ptrs : List LockId) (q : Path) (c : BlockNo)
    (l : LockId) : Ghost :=
  ⟨some req, none, ⟨ptrs, [(h.lock, h.mode)], [(c, l), (h.block, h.lock)]⟩, [h],
    some (q, h.block), [], [], none⟩

theorem Ghost.ok_wanting {ptrs : List LockId} {l : LockId} (hc : lookup h.img h.block n = some c) :
    (Ghost.wanting req h ptrs q c l).Ok := by
  refine ⟨by simp [Ghost.wanting], ?_, by simp [Ghost.wanting]⟩
  simp only [Ghost.wanting, List.mem_cons, Prod.mk.injEq, List.not_mem_nil, or_false]
  rintro k l' (⟨rfl, -⟩ | ⟨rfl, -⟩)
  · exact Or.inr (Or.inr ⟨q, h.block, rfl, h, rfl, rfl, n, hc⟩)
  · exact Or.inr (Or.inl ⟨h, rfl, rfl⟩)

theorem Ghost.descends_wanting {ptrs : List LockId} {l : LockId}
    (hc : lookup h.img h.block n = some c) : (Ghost.wanting req h ptrs q c l).Descends c :=
  Or.inr ⟨h, List.mem_singleton_self h, q, n, rfl, rfl, hc⟩

/-- The traversal gives up. -/
theorem wp_giveUp {f : Option InodeLockInfo → FsProg α} {extra : List LockId} {m : LockMode}
    {pos : Option (Path × BlockNo)} (hm : h.mode = m)
    (hf : (fsProtocol a₀).wp i Q (f none) (Ghost.done req none)) :
    (fsProtocol a₀).wp i Q
      ((do
        atomically (.unlock m h.lock)
        dropPtrs (extra ++ [h.lock])
        .ret none) >>= f)
      (Ghost.at req h extra (some none) pos) := by
  rw [Prog.bind_assoc, atomically_bind, ← hm]
  refine wp_unlock_at (fun _ _ _ _ _ => Or.inl rfl) ?_
  rw [Prog.bind_assoc]
  exact wp_dropAll (List.perm_append_singleton _ _).symm hf

/-- The step from a locked inode down to one of its entries. -/
theorem wp_descend {k : Unit → FsProg α} {lc : LockId} {m : LockMode} (hgoal : Goal req p fin)
    (hm : h.mode = m) (hT : T ≠ .exclusive) (hc : lookup h.img h.block (cstr name) =
      some c) (hlc : h.lock ≠ lc)
    (hp : q ++ cstr name :: rest.map cstr = p)
    (hk : ∀ (hn : Hold) (lin : Option Response) (pos : Option (Path × BlockNo)),
      hn.block = c → hn.lock = lc → hn.mode = modeAt T rest →
      Arrived (cstr req.username) T fin hn.img c (q ++ [cstr name]) rest lin pos →
      (fsProtocol a₀).wp i Q (k ()) (Ghost.at req hn [h.lock] lin pos)) :
    (fsProtocol a₀).wp i Q
      (.op (.lock (modeAt T rest) lc) fun _ => .op (.unlock m h.lock) k)
      (Ghost.wanting req h [lc, h.lock] q c lc) := by
  subst hm
  have hcb : c ≠ h.block := h.wf.child_ne h.linked hc
  have hmode : modeAt T rest ≠ .exclusive := by
    rw [modeAt]
    split_ifs
    · exact hT
    · simp
  refine wp_lock (c := c) hmode (by simp [Ghost.wanting]) (Ghost.descends_wanting hc)
    (by simpa [Ghost.wanting] using Ne.symm hlc) ?_ ?_ (by simp [Ghost.wanting]) rfl rfl rfl
    fun s η gs hinv hg => ?_
  · intro b' l' hu
    simp only [Ghost.wanting, List.mem_cons, Prod.mk.injEq, List.not_mem_nil, or_false] at hu
    rcases hu with ⟨rfl, -⟩ | ⟨rfl, -⟩
    · exact Or.inl rfl
    · exact Or.inr ⟨h, by simp [Ghost.wanting], rfl⟩
  · simp [Ghost.wanting]
  · have ht := hinv.thread i
    rw [hg] at ht
    obtain ⟨hres, hown, -⟩ := ht.pos q h.block rfl
    have hag := ht.agree h (by simp [Ghost.wanting])
    have hres' : resolvePath s.disk (q ++ [cstr name]) = some c := by
      rw [resolvePath_concat_of hres, hag.lookup, hc]
    have hp' : (q ++ [cstr name]) ++ rest.map cstr = p := by simpa using hp
    obtain ⟨lin, pos, harr, hlin, hpos⟩ := exists_arrived (T := T) hgoal hinv.wf hres'
      (fun q' n hq => (List.append_inj' hq rfl).1 ▸ hown) hp'
    refine ⟨⟨_, hres'⟩, hinv.wf, lin, pos, ?_, ?_, ?_⟩
    · rcases hlin with hlin | ⟨r, hr, happly⟩
      · exact LinStep.keep hlin rfl
      · exact LinStep.record rfl rfl rfl hr happly
    · intro q' b' hq'
      obtain ⟨rfl, rfl, ho, hm⟩ := hpos q' b' hq'
      exact ⟨hres', ho, _, List.mem_cons_self .., rfl, hm⟩
    · have hok : (Ghost.at req ⟨c, lc, modeAt T rest, s.disk, hinv.wf, ⟨_, hres'⟩⟩ [h.lock] lin
        pos).Ok := Ghost.ok_at
      refine wp_unlock (w := [(lc, modeAt T rest)]) (List.Perm.swap _ _ _) rfl ?_ hok rfl rfl
        (fun d drained ht' => ?_) (fun _ _ _ _ _ => LinStep.keep rfl rfl) ?_
      · exact List.cons_subset_cons _ (List.nil_subset _)
      · refine ht'.forget (fun h' hh' => ?_) (fun q' b' hq' => ⟨hq', fun h' hh' hb' => ?_⟩)
          (fun b' hb' => absurd hb' (by simp [Ghost.at])) rfl rfl rfl
        · exact List.mem_cons.mpr (Or.inl (List.mem_singleton.mp hh'))
        · obtain ⟨-, rfl, -⟩ := hpos q' b' hq'
          simp only [Ghost.wanting, List.mem_cons, List.not_mem_nil, or_false] at hh'
          rcases hh' with rfl | rfl
          · exact List.mem_singleton_self _
          · exact absurd hb'.symm hcb
      · exact hk _ lin pos rfl rfl rfl harr

/-- The loop of `traverse_fs`. -/
theorem wp_traverseLoop {f : Option InodeLockInfo → FsProg α} (hgoal : Goal req p fin)
    (hT : T ≠ .exclusive) (hnone : (fsProtocol a₀).wp i Q (f none) (Ghost.done req none))
    (hsome : ∀ h : Hold, h.mode = T → (fsProtocol a₀).wp i Q
      (f (some ⟨inodeAt h.img h.block, h.lock, h.block⟩))
      (Ghost.at req h [] (fin h.img h.block) (if T = .shared then none else some (p, h.block))))
    {extra : List LockId} {lin : Option Response} {pos : Option (Path × BlockNo)}
    (hmode : h.mode = modeAt T rest)
    (harr : Arrived (cstr req.username) T fin h.img h.block q rest lin pos)
    (hp : q ++ rest.map cstr = p) (hq : rest = [] → q ≠ []) :
    (fsProtocol a₀).wp i Q (traverseLoop T req.username (decide (q = []))
      (inodeAt h.img h.block) h.block h.lock extra rest >>= f) (Ghost.at req h extra lin pos) := by
  induction rest generalizing q h extra lin pos with
  | nil =>
    obtain rfl : q = p := by simpa using hp
    rw [traverseLoop]
    rw [modeAt, if_pos rfl] at hmode
    rcases harr with ⟨-, hne, rfl, -⟩ | ⟨ho, rfl, rfl⟩
    · rw [if_pos hne]
      exact wp_giveUp hmode hnone
    · rw [if_neg (not_not.mpr (ho.resolve_left (hq rfl))), Prog.bind_assoc]
      refine wp_dropPtrs (w := [h.lock]) Ghost.ok_at ?_ ?_ ?_ ?_ (hsome h hmode)
      · exact (List.perm_append_singleton _ _).symm
      · rintro rfl
        rfl
      · simp [Ghost.at]
      · simp [Ghost.at]
  | cons name rest ih =>
    rw [traverseLoop]
    rw [modeAt, if_neg (by simp)] at hmode
    by_cases hst : (inodeAt h.img h.block).type = fileType ∨
        (cstr req.username ≠ arrayStr (inodeAt h.img h.block).owner ∧ decide (q = []) = false)
    · obtain ⟨-, rfl, -⟩ := harr.resolve_right fun hn => hn.1 (hst.elim Or.inl (Or.inr ∘ Or.inl))
      rw [if_pos hst]
      exact wp_giveUp hmode hnone
    · rw [if_neg hst, Prog.bind_assoc]
      refine wp_searchDir (h := h) (by simp [Ghost.at]) (by simp) ?_
      have hslot : searchBlocks h.img (cstr name) 0 ((inodeAt h.img h.block).used.drop 0) =
          lookupSlot h.img h.block (cstr name) := by
        rw [lookupSlot, if_neg (fun hf => hst (Or.inl hf)), List.drop_zero]
      rw [hslot]
      cases hlook : lookupSlot h.img h.block (cstr name) with
      | none =>
        have hl : lookup h.img h.block (cstr name) = none := by
          rw [lookup, hlook, Option.map_none]
        obtain ⟨-, rfl, -⟩ := harr.resolve_right fun hn => hn.1 (Or.inr (Or.inr hl))
        exact wp_giveUp hmode hnone
      | some entry =>
        have hl : lookup h.img h.block (cstr name) = some entry.inodeBlock := by
          rw [lookup, hlook, Option.map_some]
        obtain ⟨-, rfl, rfl⟩ := harr.resolve_left fun hn => by
          rcases hn.1 with hf | ho | hnone'
          · exact hst (Or.inl hf)
          · exact hst (Or.inr ho)
          · exact absurd (hl.symm.trans hnone') (by simp)
        have hcb := h.wf.child_ne h.linked hl
        dsimp only
        rw [Prog.bind_assoc, atomically_bind]
        refine wp_getLockPtr (fun l => Ghost.ok_wanting hl) fun lc hlc => ?_
        rw [Prog.bind_assoc]
        refine wp_dropPtrs (w := [lc, h.lock]) (Ghost.ok_wanting hl) ?_ ?_ ?_ ?_ ?_
        · have hperm : ([lc, h.lock] ++ extra).Perm (extra ++ [lc, h.lock]) :=
            List.perm_append_comm
          exact hperm
        · rintro rfl
          rfl
        · simp [Ghost.at]
        · simp only [Ghost.at, List.mem_cons, Prod.mk.injEq, List.not_mem_nil, or_false]
          rintro k l' (⟨-, rfl⟩ | ⟨-, rfl⟩)
          · exact Or.inl rfl
          · exact Or.inr rfl
        · change (fsProtocol a₀).wp i Q _ (Ghost.wanting req h [lc, h.lock] q entry.inodeBlock lc)
          rw [Prog.bind_assoc, atomically_bind]
          have hne : h.lock ≠ lc := hlc h.block h.lock (by simp [Ghost.at]) hcb.symm
          refine wp_descend hgoal hmode hT hl hne (by simpa using hp)
            fun hn lin pos hb hlk hm harr' => ?_
          subst hlk
          rw [← hb] at harr' ⊢
          change (fsProtocol a₀).wp i Q ((diskReadblock hn.block >>= fun buf => traverseLoop T
            req.username false (FsInode.ofBlock buf) hn.block hn.lock [h.lock] rest) >>= f) _
          rw [Prog.bind_assoc]
          refine wp_diskReadblock (h := hn) (by simp [Ghost.at]) (List.mem_cons_self ..) ?_
          have hp' : (q ++ [cstr name]) ++ rest.map cstr = p := by simpa using hp
          rw [← decide_eq_false (by simp : ¬q ++ [cstr name] = [])]
          exact ih hm harr' hp' (by simp)

/-- The lock of the root is acquired. -/
theorem wp_lockRoot {k : Unit → FsProg α} {l : LockId} (hgoal : Goal req p fin)
    (hT : T ≠ .exclusive) (hp : rest.map cstr = p)
    (hk : ∀ (h : Hold) (lin : Option Response) (pos : Option (Path × BlockNo)),
      h.block = 0 → h.lock = l → h.mode = modeAt T rest →
      Arrived (cstr req.username) T fin h.img 0 [] rest lin pos →
      (fsProtocol a₀).wp i Q (k ()) (Ghost.at req h [] lin pos)) :
    (fsProtocol a₀).wp i Q (.op (.lock (modeAt T rest) l) k)
      ⟨some req, none, ⟨[l], [], [(0, l)]⟩, [], none, [], [], none⟩ := by
  have hmode : modeAt T rest ≠ .exclusive := by
    rw [modeAt]
    split_ifs
    · exact hT
    · simp
  refine wp_lock (c := 0) hmode (by simp) (Or.inl ⟨rfl, rfl⟩) (by simp) (by simp) (by simp)
    (by simp) rfl rfl rfl fun s η gs hinv hg => ?_
  have hp' : [] ++ rest.map cstr = p := by simpa using hp
  obtain ⟨lin, pos, harr, hlin, hpos⟩ := exists_arrived (T := T) hgoal hinv.wf rfl
    (fun q' n hq => by simp at hq) hp'
  refine ⟨linked_root _, hinv.wf, lin, pos, ?_, ?_,
    hk ⟨0, l, modeAt T rest, s.disk, hinv.wf, linked_root _⟩ lin pos rfl rfl rfl harr⟩
  · rcases hlin with hlin | ⟨r, hr, happly⟩
    · exact LinStep.keep hlin rfl
    · exact LinStep.record rfl rfl rfl hr happly
  · intro q' b' hq'
    obtain ⟨rfl, rfl, ho, hm⟩ := hpos q' b' hq'
    exact ⟨rfl, ho, _, List.mem_cons_self .., rfl, hm⟩

/-- `traverse_fs` returns the inode at the end of the path, locked, or nothing; then the request has
failed. -/
theorem wp_traverseFs {f : Option InodeLockInfo → FsProg α} {path : Path}
    (hgoal : Goal req (path.map cstr) fin) (hT : T ≠ .exclusive)
    (hnone : (fsProtocol a₀).wp i Q (f none) (Ghost.done req none))
    (hsome : ∀ h : Hold, h.mode = T → (fsProtocol a₀).wp i Q
      (f (some ⟨inodeAt h.img h.block, h.lock, h.block⟩))
      (Ghost.at req h [] (fin h.img h.block)
        (if T = .shared then none else some (path.map cstr, h.block)))) :
    (fsProtocol a₀).wp i Q (traverseFs T path req.username >>= f) (Ghost.start req) := by
  rw [traverseFs, Prog.bind_assoc, atomically_bind]
  refine wp_getLockPtr (fun l => ⟨by simp [Ghost.start], ?_, by simp [Ghost.start]⟩) fun l _ => ?_
  · simp only [Ghost.start, Claims.none, List.mem_singleton, Prod.mk.injEq]
    rintro k l' ⟨rfl, -⟩
    exact Or.inl rfl
  · by_cases hpath : path = []
    · rw [if_pos hpath, Prog.bind_assoc, atomically_bind]
      have hmode : T = modeAt T path := by rw [modeAt, if_pos hpath]
      rw [hmode]
      refine wp_lockRoot hgoal hT rfl fun h lin pos hb hl hm harr => ?_
      subst hl hpath
      rw [← hb] at harr ⊢
      rw [Prog.bind_assoc]
      refine wp_diskReadblock (h := h) (by simp [Ghost.at]) (List.mem_cons_self ..) ?_
      rcases harr with ⟨hne, -⟩ | ⟨-, rfl, rfl⟩
      · exact absurd rfl hne
      · exact hsome h hm
    · rw [if_neg hpath, Prog.bind_assoc, atomically_bind]
      have hmode : LockMode.shared = modeAt T path := by rw [modeAt, if_neg hpath]
      rw [hmode]
      refine wp_lockRoot hgoal hT rfl fun h lin pos hb hl hm harr => ?_
      subst hl
      rw [← hb] at harr ⊢
      rw [Prog.bind_assoc]
      refine wp_diskReadblock (h := h) (by simp [Ghost.at]) (List.mem_cons_self ..) ?_
      exact wp_traverseLoop (q := []) hgoal hT hnone hsome hm harr rfl fun h => absurd h hpath

end OsFromScratch.FileServer
