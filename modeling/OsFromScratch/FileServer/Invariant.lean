import OsFromScratch.FileServer.Writes
import OsFromScratch.Lib.Ownership
import OsFromScratch.Lib.Protocol

/-!
# The invariant of the concurrent server

What holds between any two atomic steps, for any number of requests in flight. Every request has a
ghost value: the locks it holds, with an image of the disk on which the locked inode has not
changed since; where it stands on its path; the blocks it has taken from the free list or cut off
from the tree and not given back; and its response, once its fate is sealed. The history lists the
requests whose fate is sealed, in the order in which they take effect.

## Main definitions

* `Hold`, `Ghost` — the ghost value of a request.
* `Entry`, `Legal` — histories, and the abstract file system they lead to.
* `Ghost.Enters` — a `FS_CREATE` that stands at the directory where it enters the name.
* `Ghost.Ok`, `ThreadInv`, `HistInv`, `Inv` — the parts of the invariant, and all of it.

## Main results

* `Inv.compatible` — two requests hold one inode in compatible modes only.
* `Inv.linked_of_uses` — a request waits for locks of inodes in the tree only.
* `Inv.withLocks`, `Inv.withBlocks`, `Inv.withErased`, `Inv.withPrivate`, `Inv.withVisible` — what
  the steps of a request preserve.
-/

namespace OsFromScratch.FileServer

open Function

/-- A lock that a request holds. The blocks of the locked inode are those of the image, a disk
where the inode was part of the tree. -/
structure Hold where
  block : BlockNo
  lock : LockId
  mode : LockMode
  img : Disk
  wf : WellFormed img
  linked : Linked img block

/-- The ghost value of a request. -/
structure Ghost where
  /-- The request, if the thread has one. -/
  req : Option Request
  /-- The response, once it is decided. -/
  lin : Option Response
  /-- Pointers and locks. -/
  claims : Claims BlockNo
  holds : List Hold
  /-- The path that leads to a locked inode, while the request can still take effect there. -/
  pos : Option (Path × BlockNo)
  /-- The blocks that are neither in the tree nor in the free list because of this request. -/
  limbo : List BlockNo
  /-- What has been written to such blocks. -/
  priv : List (BlockNo × Block)
  /-- An inode that has been cut off from the tree while there may be readers in it. -/
  drain : Option BlockNo

/-- The ghost value of a thread without a request. -/
def Ghost.idle : Ghost :=
  ⟨none, none, .none, [], none, [], [], none⟩

/-- The ghost value of a request before its first step. -/
def Ghost.start (req : Request) : Ghost :=
  ⟨some req, none, .none, [], none, [], [], none⟩

/-- The ghost value of a request with the given response that holds nothing any more. -/
def Ghost.done (req : Request) (r : Response) : Ghost :=
  ⟨some req, some r, .none, [], none, [], [], none⟩

/-- The user who made the request. -/
def Ghost.user (g : Ghost) : Bytes :=
  (g.req.map fun req => cstr req.username).getD []

/-! ### Histories -/

/-- A request whose response is decided. It is `skipped` when it failed because it found the free
list empty while another request had blocks in limbo. -/
structure Entry where
  tid : ℕ
  req : Request
  resp : Response
  skipped : Bool

/-- The history leads from the abstract file system `a₀` to `a`. -/
inductive Legal (a₀ : AbstractFs) : List Entry → AbstractFs → Prop
  | nil : Legal a₀ [] a₀
  | apply {η : List Entry} {a : AbstractFs} (h : Legal a₀ η a) (i : ℕ) (req : Request)
      (hi : ∀ e ∈ η, e.tid ≠ i) :
      Legal a₀ (η ++ [⟨i, req, (a.apply req).2, false⟩]) (a.apply req).1
  | skip {η : List Entry} {a : AbstractFs} (h : Legal a₀ η a) (i : ℕ) (req : Request)
      (hi : ∀ e ∈ η, e.tid ≠ i) :
      Legal a₀ (η ++ [⟨i, req, none, true⟩]) a

/-- The response of a thread is the one that the history records. -/
structure LinOk (η : List Entry) (i : ℕ) (g : Ghost) : Prop where
  none : g.lin = none → ∀ e ∈ η, e.tid ≠ i
  some : ∀ r, g.lin = some r → ∃ e ∈ η, e.tid = i ∧ g.req = some e.req ∧ e.resp = r

/-- The history is legal and records the responses. -/
structure HistInv (a₀ : AbstractFs) (η : List Entry) (a : AbstractFs) (gs : ℕ → Ghost) : Prop where
  legal : Legal a₀ η a
  lin : ∀ i, LinOk η i (gs i)

variable {a₀ a : AbstractFs} {η η' : List Entry} {gs : ℕ → Ghost} {g g' : Ghost} {i j : ℕ}
  {req : Request} {r : Response}

theorem LinOk.congr (h : LinOk η i g) (hlin : g'.lin = g.lin) (hreq : g'.req = g.req) :
    LinOk η i g' := by
  refine ⟨fun hn => h.none (hlin ▸ hn), fun r hr => ?_⟩
  rw [hreq]
  exact h.some r (hlin ▸ hr)

theorem LinOk.append {e : Entry} (h : LinOk η j g) (hne : e.tid ≠ j) : LinOk (η ++ [e]) j g := by
  refine ⟨fun hn e' he' => ?_, fun r hr => ?_⟩
  · rcases List.mem_append.mp he' with he' | he'
    · exact h.none hn e' he'
    · exact List.mem_singleton.mp he' ▸ hne
  · obtain ⟨e', he', hrest⟩ := h.some r hr
    exact ⟨e', List.mem_append_left _ he', hrest⟩

namespace HistInv

/-- A step that decides nothing. -/
theorem keep (h : HistInv a₀ η a gs) (hlin : g'.lin = (gs i).lin) (hreq : g'.req = (gs i).req) :
    HistInv a₀ η a (update gs i g') := by
  refine ⟨h.legal, fun j => ?_⟩
  by_cases hj : j = i
  · subst hj
    rw [update_self]
    exact (h.lin j).congr hlin hreq
  · rw [update_of_ne hj]
    exact h.lin j

private theorem append {e : Entry} {a' : AbstractFs} (h : HistInv a₀ η a gs)
    (hlegal : Legal a₀ (η ++ [e]) a') (hlin : g'.lin = some e.resp) (hreq : g'.req = some e.req)
    (hi : e.tid = i) : HistInv a₀ (η ++ [e]) a' (update gs i g') := by
  refine ⟨hlegal, fun j => ?_⟩
  by_cases hj : j = i
  · subst hj
    rw [update_self]
    refine ⟨fun hn => by simp [hlin] at hn, fun r hr => ?_⟩
    rw [hlin] at hr
    exact ⟨e, List.mem_append_right _ (List.mem_singleton_self e), hi, hreq, Option.some.inj hr⟩
  · rw [update_of_ne hj]
    exact (h.lin j).append fun heq => hj (heq.symm.trans hi)

/-- A request takes effect. -/
theorem record (h : HistInv a₀ η a gs) {a' : AbstractFs} (hnone : (gs i).lin = none)
    (happly : a.apply req = (a', r)) (hlin : g'.lin = some r) (hreq : g'.req = some req) :
    HistInv a₀ (η ++ [⟨i, req, r, false⟩]) a' (update gs i g') := by
  obtain ⟨rfl, rfl⟩ : (a.apply req).1 = a' ∧ (a.apply req).2 = r := by simp [happly]
  exact h.append (h.legal.apply i req ((h.lin i).none hnone)) hlin hreq rfl

/-- A request fails without having taken effect. -/
theorem skip (h : HistInv a₀ η a gs) (hnone : (gs i).lin = none) (hlin : g'.lin = some none)
    (hreq : g'.req = some req) : HistInv a₀ (η ++ [⟨i, req, none, true⟩]) a (update gs i g') :=
  h.append (h.legal.skip i req ((h.lin i).none hnone)) hlin hreq rfl

end HistInv

/-! ### The parts of the invariant -/

/-- The request stands at the directory where it is going to enter a name that is not in use. -/
structure Ghost.Enters (g : Ghost) (r : FsCreate) (h : Hold) : Prop where
  mem : h ∈ g.holds
  mode : h.mode ≠ .shared
  pos : g.pos = some (r.path.dropLast.map cstr, h.block)
  dir : (inodeAt h.img h.block).type ≠ fileType
  name : ∃ name, r.path.getLast? = some name ∧ lookup h.img h.block (cstr name) = none

theorem Ghost.Enters.congr {g g' : Ghost} {r : FsCreate} {h : Hold} (he : g.Enters r h)
    (hholds : g'.holds = g.holds) (hpos : g'.pos = g.pos) : g'.Enters r h :=
  ⟨hholds ▸ he.mem, he.mode, hpos ▸ he.pos, he.dir, he.name⟩

/-- Every hold is backed by a lock, and every lock that is relied on is that of the root, of a held
inode, or of an entry of the inode where the request stands. A `FS_CREATE` has blocks in limbo only
while it is undecided and stands at the directory. -/
structure Ghost.Ok (g : Ghost) : Prop where
  hold : ∀ h ∈ g.holds, (h.block, h.lock) ∈ g.claims.uses ∧ (h.lock, h.mode) ∈ g.claims.owned
  uses : ∀ k l, (k, l) ∈ g.claims.uses → k = 0 ∨ (∃ h ∈ g.holds, h.block = k) ∨
    ∃ q b, g.pos = some (q, b) ∧ ∃ h ∈ g.holds, h.block = b ∧ ∃ n, lookup h.img b n = some k
  reserve : ∀ r, g.req = some (.create r) → g.limbo ≠ [] → g.lin = none ∧ ∃ h, g.Enters r h

theorem Ghost.Ok.reserve_congr (hok : g.Ok) (hlimbo : g'.limbo ≠ [] → g.limbo ≠ [])
    (hreq : g'.req = g.req) (hlin : g'.lin = g.lin) (hholds : g'.holds = g.holds)
    (hpos : g'.pos = g.pos) (r : FsCreate) (hr : g'.req = some (.create r)) (hne : g'.limbo ≠ []) :
    g'.lin = none ∧ ∃ h, g'.Enters r h := by
  obtain ⟨hnone, h, he⟩ := hok.reserve r (hreq ▸ hr) (hlimbo hne)
  exact ⟨hlin.trans hnone, h, he.congr hholds hpos⟩

/-- What a request knows about the disk. The inodes in `drained` are those that some request has cut
off from the tree and not freed yet. -/
structure ThreadInv (d : Disk) (drained : BlockNo → Prop) (g : Ghost) : Prop where
  agree : ∀ h ∈ g.holds, Agree h.img d h.block
  linked : ∀ h ∈ g.holds, Linked d h.block ∨ drained h.block
  drain : ∀ b, g.drain = some b → ¬Linked d b ∧
    ∃ h ∈ g.holds, h.block = b ∧ h.mode ≠ .shared ∧ ∀ x ∈ footprint h.img b, x ∈ g.limbo
  pos : ∀ q b, g.pos = some (q, b) → resolvePath d q = some b ∧ OwnedAlong d g.user q ∧
    ∃ h ∈ g.holds, h.block = b ∧ (h.mode ≠ .shared ∨ ∃ n c, lookup h.img b n = some c)
  priv : ∀ x v, (x, v) ∈ g.priv → x ∈ g.limbo ∧ d x = v

/-- The inodes that have been cut off from the tree and not been freed yet. -/
def Drained (gs : ℕ → Ghost) (b : BlockNo) : Prop :=
  ∃ j, (gs j).drain = some b

/-- The blocks in the free list and in the limbo of each request. -/
def place (free : List BlockNo) (gs : ℕ → Ghost) : Option ℕ → List BlockNo
  | none => free
  | some i => (gs i).limbo

/-- The invariant of the server. -/
structure Inv (a₀ : AbstractFs) (s : State) (η : List Entry) (gs : ℕ → Ghost) : Prop where
  locks : s.dataLocks.Inv fun i => (gs i).claims
  ok : ∀ i, (gs i).Ok
  wf : WellFormed s.disk
  blocks : Divided (place s.freeDiskBlocks gs) (unused s.disk)
  thread : ∀ i, ThreadInv s.disk (Drained gs) (gs i)
  hist : HistInv a₀ η (abs s.disk) gs

variable {s s' : State} {b c x : BlockNo} {h h' : Hold}

theorem drained_update (hdrain : g'.drain = (gs i).drain) :
    Drained (update gs i g') = Drained gs := by
  funext b
  simp only [Drained, eq_iff_iff]
  refine exists_congr fun j => ?_
  by_cases hj : j = i
  · rw [hj, update_self, hdrain]
  · rw [update_of_ne hj]

namespace Inv

/-- Two requests hold one inode in compatible modes only. -/
theorem compatible (hinv : Inv a₀ s η gs) (hij : i ≠ j) (hi : h ∈ (gs i).holds)
    (hj : h' ∈ (gs j).holds) (hb : h.block = h'.block) :
    SharedMutex.Compatible h.mode h'.mode := by
  obtain ⟨hu, ho⟩ := (hinv.ok i).hold h hi
  obtain ⟨hu', ho'⟩ := (hinv.ok j).hold h' hj
  rw [← hb] at hu'
  exact hinv.locks.compatible hij hu hu' ho ho'

/-- An inode that is held exclusively is held by nobody else. -/
theorem exclusive (hinv : Inv a₀ s η gs) (hi : h ∈ (gs i).holds) (hm : h.mode = .exclusive)
    (hj : h' ∈ (gs j).holds) (hij : j ≠ i) : h'.block ≠ h.block := by
  intro hb
  have := hinv.compatible (Ne.symm hij) hi hj hb.symm
  rw [hm] at this
  cases h'.mode <;> exact this

/-- A request stands in the tree. -/
theorem linked_of_pos (hinv : Inv a₀ s η gs) {q : Path} (hpos : (gs i).pos = some (q, b)) :
    Linked s.disk b :=
  ⟨q, ((hinv.thread i).pos q b hpos).1⟩

/-- A request waits for locks of inodes in the tree only. -/
theorem linked_of_uses (hinv : Inv a₀ s η gs) {l : LockId} (hu : (b, l) ∈ (gs i).claims.uses) :
    Linked s.disk b ∨ ∃ h ∈ (gs i).holds, h.block = b := by
  rcases (hinv.ok i).uses b l hu with rfl | hheld | ⟨q, b', hpos, h, hh, rfl, n, hn⟩
  · exact Or.inl (linked_root _)
  · exact Or.inr hheld
  · refine Or.inl ((hinv.linked_of_pos hpos).child (n := n) ?_)
    rwa [((hinv.thread i).agree h hh).lookup]

/-- The blocks of the locked inodes are not in the free list, and in limbo only where the inode is
drained. -/
theorem footprint_unused (hinv : Inv a₀ s η gs) (hh : h ∈ (gs i).holds)
    (hx : x ∈ footprint h.img h.block) (hun : x ∈ unused s.disk) :
    ∃ j, (gs j).drain = some h.block ∧ x ∈ (gs j).limbo := by
  have hag := (hinv.thread i).agree h hh
  rcases (hinv.thread i).linked h hh with hl | ⟨j, hj⟩
  · rw [← hag.footprint] at hx
    exact absurd hun (hinv.wf.notMem_unused_of_mem_footprint hl hx)
  · obtain ⟨-, h', hh', hb, -, hfp⟩ := (hinv.thread j).drain _ hj
    refine ⟨j, hj, hfp x ?_⟩
    -- both images agree with the disk on the inode
    have hag' := (hinv.thread j).agree h' hh'
    rw [hb] at hag'
    rwa [← hag'.footprint, hag.footprint]

/-! ### Steps -/

/-- A step keeps the invariant if it keeps its parts. -/
private theorem of_update (hinv : Inv a₀ s η gs)
    (hlocks : s'.dataLocks.Inv fun j => (update gs i g' j).claims) (hok : g'.Ok)
    (hwf : WellFormed s'.disk)
    (hblocks : Divided (place s'.freeDiskBlocks (update gs i g')) (unused s'.disk))
    (hself : ThreadInv s'.disk (Drained (update gs i g')) g')
    (hother : ∀ j, j ≠ i → ThreadInv s'.disk (Drained (update gs i g')) (gs j))
    (hhist : HistInv a₀ η' (abs s'.disk) (update gs i g')) : Inv a₀ s' η' (update gs i g') := by
  refine ⟨hlocks, fun j => ?_, hwf, hblocks, fun j => ?_, hhist⟩
  · by_cases hj : j = i
    · rw [hj, update_self]
      exact hok
    · rw [update_of_ne hj]
      exact hinv.ok j
  · by_cases hj : j = i
    · rw [hj, update_self]
      exact hself
    · rw [update_of_ne hj]
      exact hother j hj

private theorem claims_congr (hclaims : g'.claims = (gs i).claims) :
    (fun j => (update gs i g' j).claims) = fun j => (gs j).claims := by
  funext j
  by_cases hj : j = i
  · rw [hj, update_self, hclaims]
  · rw [update_of_ne hj]

private theorem place_congr (free : List BlockNo) (hlimbo : g'.limbo = (gs i).limbo) :
    place free (update gs i g') = place free gs := by
  funext p
  cases p with
  | none => rfl
  | some j =>
    by_cases hj : j = i
    · simp only [place, hj, update_self, hlimbo]
    · simp only [place, update_of_ne hj]

/-- A step that changes only the locks. -/
theorem withLocks (hinv : Inv a₀ s η gs) {t : LockTable BlockNo}
    (hlocks : t.Inv fun j => (update gs i g' j).claims) (hok : g'.Ok)
    (hlimbo : g'.limbo = (gs i).limbo) (hdrain : g'.drain = (gs i).drain)
    (hself : ThreadInv s.disk (Drained gs) g')
    (hhist : HistInv a₀ η' (abs s.disk) (update gs i g')) :
    Inv a₀ { s with dataLocks := t } η' (update gs i g') := by
  refine hinv.of_update hlocks hok hinv.wf ?_ ?_ (fun j hj => ?_) hhist
  · rw [place_congr _ hlimbo]
    exact hinv.blocks
  · rw [drained_update hdrain]
    exact hself
  · rw [drained_update hdrain]
    exact hinv.thread j

/-- A step that changes only the free list. -/
theorem withBlocks (hinv : Inv a₀ s η gs) {free : List BlockNo}
    (hblocks : Divided (place free (update gs i g')) (unused s.disk))
    (hclaims : g'.claims = (gs i).claims) (hok : g'.Ok) (hdrain : g'.drain = (gs i).drain)
    (hself : ThreadInv s.disk (Drained gs) g')
    (hhist : HistInv a₀ η' (abs s.disk) (update gs i g')) :
    Inv a₀ { s with freeDiskBlocks := free } η' (update gs i g') := by
  refine hinv.of_update ?_ hok hinv.wf hblocks ?_ (fun j hj => ?_) hhist
  · rw [claims_congr hclaims]
    exact hinv.locks
  · rw [drained_update hdrain]
    exact hself
  · rw [drained_update hdrain]
    exact hinv.thread j

/-- An inode that has been cut off is forgotten once its last reader has left. -/
theorem withErased (hinv : Inv a₀ s η gs) {t : LockTable BlockNo}
    (hlocks : t.Inv fun j => (update gs i g' j).claims) (hok : g'.Ok)
    (hlimbo : g'.limbo = (gs i).limbo) (hh : h ∈ (gs i).holds) (hm : h.mode = .exclusive)
    (hdrain : (gs i).drain = some h.block) (hself : ThreadInv s.disk (Drained gs) g')
    (hnone : g'.holds = [])
    (hhist : HistInv a₀ η (abs s.disk) (update gs i g')) :
    Inv a₀ { s with dataLocks := t } η (update gs i g') := by
  refine hinv.of_update hlocks hok hinv.wf ?_ ?_ (fun j hj => ?_) hhist
  · rw [place_congr _ hlimbo]
    exact hinv.blocks
  · refine ⟨hself.agree, fun h' hh' => ?_, hself.drain, hself.pos, hself.priv⟩
    rw [hnone] at hh'
    exact absurd hh' (List.not_mem_nil)
  · refine { hinv.thread j with linked := fun h' hh' => ?_ }
    refine ((hinv.thread j).linked h' hh').imp_right ?_
    rintro ⟨k, hk⟩
    have hki : k ≠ i := by
      rintro rfl
      exact hinv.exclusive hh hm hh' hj (Option.some.inj (hk.symm.trans hdrain))
    exact ⟨k, by rwa [update_of_ne hki]⟩

/-- Nobody else has a block that is in limbo. -/
theorem limbo_disjoint (hinv : Inv a₀ s η gs) (hi : x ∈ (gs i).limbo) (hj : x ∈ (gs j).limbo) :
    i = j :=
  Option.some.inj (hinv.blocks.disjoint (some i) (some j) x hi hj)

theorem mem_unused_of_limbo (hinv : Inv a₀ s η gs) (hi : x ∈ (gs i).limbo) : x ∈ unused s.disk :=
  hinv.blocks.mem (p := some i) hi

/-- A step that writes to a block in limbo. -/
theorem withPrivate (hinv : Inv a₀ s η gs) {v : Block} (hx : x ∈ (gs i).limbo)
    (hclaims : g'.claims = (gs i).claims) (hholds : g'.holds = (gs i).holds)
    (hpos : g'.pos = (gs i).pos) (hlimbo : g'.limbo = (gs i).limbo) (hdrain : (gs i).drain = none)
    (hdrain' : g'.drain = none) (hreq : g'.req = (gs i).req) (hlin : g'.lin = (gs i).lin)
    (hpriv : ∀ y w, (y, w) ∈ g'.priv → (y = x ∧ w = v) ∨ (y ≠ x ∧ (y, w) ∈ (gs i).priv)) :
    Inv a₀ { s with disk := update s.disk x v } η (update gs i g') := by
  have hxu := hinv.mem_unused_of_limbo hx
  have hsame := hinv.wf.private_write hxu v
  have huser : g'.user = (gs i).user := by rw [Ghost.user, hreq, Ghost.user]
  have hwrite {j : ℕ} {h : Hold} (hh : h ∈ (gs j).holds) :
      Agree h.img (update s.disk x v) h.block := by
    intro y hy
    have hag := (hinv.thread j).agree h hh
    rw [update_of_ne, hag y hy]
    rintro rfl
    obtain ⟨k, hk, hyk⟩ := hinv.footprint_unused hh hy hxu
    obtain rfl := hinv.limbo_disjoint hyk hx
    exact absurd (hk.symm.trans hdrain) (by simp)
  have hthread (j : ℕ) (hpriv : ∀ y w, (y, w) ∈ (gs j).priv → y ≠ x) :
      ThreadInv (update s.disk x v) (Drained gs) (gs j) := by
    refine ⟨fun h hh => hwrite hh, fun h hh => ?_, fun b hb => ?_, fun q b hq => ?_,
      fun y w hy => ?_⟩
    · rw [hsame.linked_iff]
      exact (hinv.thread j).linked h hh
    · rw [hsame.linked_iff]
      exact (hinv.thread j).drain b hb
    · rw [resolvePath_congr hsame]
      obtain ⟨h1, h2, h3⟩ := (hinv.thread j).pos q b hq
      exact ⟨h1, hsame.ownedAlong h2, h3⟩
    · rw [update_of_ne (hpriv y w hy)]
      exact (hinv.thread j).priv y w hy
  refine hinv.of_update ?_ ?_ (hsame.wellFormed hinv.wf) ?_ ?_ (fun j hj => ?_) ?_
  · rw [claims_congr hclaims]
    exact hinv.locks
  · refine ⟨?_, ?_, ?_⟩
    · rw [hholds, hclaims]
      exact (hinv.ok i).hold
    · rw [hholds, hclaims, hpos]
      exact (hinv.ok i).uses
    · exact (hinv.ok i).reserve_congr (fun hne => hlimbo ▸ hne) hreq hlin hholds hpos
  · rw [place_congr _ hlimbo, hsame.unused]
    exact hinv.blocks
  · rw [drained_update (hdrain'.trans hdrain.symm)]
    refine ⟨?_, ?_, fun b hb => ?_, ?_, fun y w hy => ?_⟩
    · rw [hholds]
      exact fun h hh => hwrite hh
    · rw [hholds]
      intro h hh
      rw [hsame.linked_iff]
      exact (hinv.thread i).linked h hh
    · exact absurd (hdrain'.symm.trans hb) (by simp)
    · rw [hholds, hpos, huser]
      intro q b hq
      rw [resolvePath_congr hsame]
      obtain ⟨h1, h2, h3⟩ := (hinv.thread i).pos q b hq
      exact ⟨h1, hsame.ownedAlong h2, h3⟩
    · rw [hlimbo]
      rcases hpriv y w hy with ⟨rfl, rfl⟩ | ⟨hne, hy⟩
      · exact ⟨hx, update_self ..⟩
      · obtain ⟨hy, hw⟩ := (hinv.thread i).priv y w hy
        exact ⟨hy, (update_of_ne hne ..).trans hw⟩
  · rw [drained_update (hdrain'.trans hdrain.symm)]
    refine hthread j fun y w hy => ?_
    rintro rfl
    exact hj (hinv.limbo_disjoint ((hinv.thread j).priv y w hy).1 hx)
  · rw [hsame.abs]
    exact hinv.hist.keep hlin hreq

/-- A step that changes an inode of the tree. The inode is locked exclusively, the blocks it gains
come out of limbo, and the blocks it loses go there; a child that is cut off is locked against
other requests that could cut it off. -/
theorem withVisible (hinv : Inv a₀ s η gs) {d : Disk} {n : Bytes} {o : Option BlockNo}
    {added removed : List BlockNo} (hh : h ∈ (gs i).holds) (hm : h.mode = .exclusive)
    (hu : NodeUpdate s.disk d h.block n o added removed)
    (hdisk : ∀ y ∈ unused s.disk, d y = s.disk y)
    (hlimbo : ∀ y, y ∈ added ↔ y ∈ (gs i).limbo) (hdrain : (gs i).drain = none)
    (hnodup : g'.limbo.Nodup)
    (hlimbo' : ∀ y, y ∈ g'.limbo ↔ y ∈ removed ∨ y ∈ lostBlocks s.disk h.block n)
    (hchild : ∀ c, lookup s.disk h.block n = some c →
      g'.drain = some c ∧ ∃ hc ∈ (gs i).holds, hc.block = c ∧ hc.mode ≠ .shared)
    (hclaims : g'.claims = (gs i).claims) (hok : g'.Ok)
    (hself : ThreadInv d (Drained (update gs i g')) g')
    (hhist : HistInv a₀ η' (abs d) (update gs i g')) :
    Inv a₀ { s with disk := d } η' (update gs i g') := by
  obtain ⟨p, hp⟩ := hu.linked
  have hdrained {b : BlockNo} (hb : Drained gs b) : Drained (update gs i g') b := by
    obtain ⟨k, hk⟩ := hb
    have hki : k ≠ i := by
      rintro rfl
      exact absurd (hdrain.symm.trans hk) (by simp)
    exact ⟨k, by rwa [update_of_ne hki]⟩
  refine hinv.of_update ?_ hok (hu.wellFormed hinv.wf) ?_ hself (fun j hj => ?_) hhist
  · rw [claims_congr hclaims]
    exact hinv.locks
  · have hi : place s.freeDiskBlocks (update gs i g') (some i) = g'.limbo := by
      simp only [place, update_self]
    refine hinv.blocks.change (p := some i) (fun q hq => ?_) ?_ (fun y hy hyu => ?_) fun y => ?_
    · cases q with
      | none => rfl
      | some k =>
        have hki : k ≠ i := fun heq => hq (congrArg some heq)
        simp only [place, update_of_ne hki]
    · rw [hi]
      exact hnodup
    · -- what the request now has in limbo was in the tree or in limbo before
      rw [hi, hlimbo'] at hy
      rcases hy with hy | hy
      · rcases List.mem_append.mp (hu.perm.subset (List.mem_append_right _ hy)) with hy | hy
        · exact absurd ⟨_, hu.linked, hy⟩ hyu.2.2
        · exact (hlimbo y).mp hy
      · obtain ⟨c, hc, hyc⟩ := hu.mem_lostBlocks.mp hy
        exact absurd ⟨c, hu.linked.child hc, hyc⟩ hyu.2.2
    · rw [hu.mem_unused hinv.wf, hi, hlimbo', hlimbo]
      rfl
  · have hne {h' : Hold} (hh' : h' ∈ (gs j).holds) : h'.block ≠ h.block :=
      hinv.exclusive hh hm hh' hj
    refine ⟨fun h' hh' => ?_, fun h' hh' => ?_, fun b hb => ?_, fun q b hq => ?_, fun y w hy => ?_⟩
    · have hag := (hinv.thread j).agree h' hh'
      rcases (hinv.thread j).linked h' hh' with hl | ⟨k, hk⟩
      · exact hag.trans (hu.agree _ hl (hne hh'))
      · -- the blocks of a drained inode are in limbo
        obtain ⟨-, h'', hh'', hb, -, hfp⟩ := (hinv.thread k).drain _ hk
        have hag' := (hinv.thread k).agree h'' hh''
        rw [hb] at hag'
        intro y hy
        have hy' : y ∈ footprint h''.img h'.block := by rwa [← hag'.footprint, hag.footprint]
        exact (hdisk y (hinv.mem_unused_of_limbo (hfp y hy'))).trans (hag y hy)
    · rcases (hinv.thread j).linked h' hh' with hl | hd
      · by_cases hc : lookup s.disk h.block n = some h'.block
        · exact Or.inr ⟨i, by rw [update_self]; exact (hchild _ hc).1⟩
        · exact Or.inl ((hu.linked_iff hinv.wf).mpr (Or.inl ⟨hl, hc⟩))
      · exact Or.inr (hdrained hd)
    · obtain ⟨hnl, h', hh', heq, hmode, hfp⟩ := (hinv.thread j).drain b hb
      refine ⟨fun hl => ?_, h', hh', heq, hmode, hfp⟩
      rcases (hu.linked_iff hinv.wf).mp hl with ⟨hl, -⟩ | ho
      · exact hnl hl
      · have hbi := (hlimbo b).mp (hu.new b ho).1
        have hbj : b ∈ (gs j).limbo := hfp b (List.mem_cons_self ..)
        exact hj (hinv.limbo_disjoint hbj hbi)
    · obtain ⟨hres, hown, h', hh', heq, hmode⟩ := (hinv.thread j).pos q b hq
      refine ⟨?_, hu.ownedAlong hinv.wf hres hown, h', hh', heq, hmode⟩
      rw [hu.resolvePath hinv.wf hp, if_neg, hres]
      rintro rfl
      rw [resolvePath_concat_of hp] at hres
      obtain ⟨-, hc, hhc, hcb, hcm⟩ := hchild b hres
      rcases hmode with hmode | ⟨m, c, hmc⟩
      · have hcompat := hinv.compatible (Ne.symm hj) hhc hh' (hcb.trans heq.symm)
        revert hcm hmode hcompat
        cases hc.mode <;> cases h'.mode <;> simp [SharedMutex.Compatible]
      · have hag := (hinv.thread j).agree h' hh'
        rw [heq] at hag
        rw [← hag.lookup, lookup_eq_none_of_entries (hu.old b hres).2] at hmc
        exact absurd hmc (by simp)
    · obtain ⟨hy, hw⟩ := (hinv.thread j).priv y w hy
      exact ⟨hy, (hdisk y (hinv.mem_unused_of_limbo hy)).trans hw⟩

end Inv

end OsFromScratch.FileServer
