import OsFromScratch.FileServer.Invariant

/-!
# The rules of the protocol

One rule for each kind of step that a request takes: what it has to know before the step, and what
its ghost value is afterwards. The interference of other requests is dealt with here once; the
programs are then verified with these rules as if they ran alone.

## Main definitions

* `FoundEmpty` — a step that finds the free list empty.
* `Ghost.Descends` — a request that waits for a lock on its way down the tree.
* `Guar`, `Adm`, `fsProtocol` — the protocol of the server.
* `LinStep` — what a step that does not change the tree may decide.

## Main results

* `wp_diskReadblock`, `wp_getLockPtr`, `wp_dropPtr`, `wp_lock`, `wp_unlock`,
  `wp_upgradeToExclusive`, `wp_eraseLock` — reading and locking.
* `wp_freeEmpty`, `wp_freeSize`, `wp_popFront`, `wp_popFrontOr`, `wp_pushFront`, `wp_pushBack` — the
  free list.
* `wp_privateWrite`, `wp_visibleWrite` — writing.
-/

namespace OsFromScratch.FileServer

open Function

/-- The step found the free list empty. -/
def FoundEmpty : (o : Op) → o.Res → Prop
  | .freeEmpty, r => r = true
  | .popFront, r => r = none
  | .popFrontOr _, r => r = none
  | _, _ => False

/-- How a step may extend the history: by nothing, or by the request of the thread. A request that
finds the free list empty fails; it is skipped only if another request has blocks in limbo. -/
def Guar (i : ℕ) (o : Op) (r : o.Res) (gs : ℕ → Ghost) (η η' : List Entry) : Prop :=
  (η' = η ∧ ¬FoundEmpty o r) ∨ ∃ e, η' = η ++ [e] ∧ e.tid = i ∧ (gs i).req = some e.req ∧
    (FoundEmpty o r → e.resp = none) ∧
    (e.skipped = true → FoundEmpty o r ∧ ∃ j, j ≠ i ∧ (gs j).limbo ≠ [])

/-- The request is about to go down to the inode `k`: from outside to the root, or to an entry of
the directory where it stands, whose lock is the only one it owns. -/
def Ghost.Descends (g : Ghost) (k : BlockNo) : Prop :=
  (k = 0 ∧ g.claims.owned = []) ∨ ∃ h ∈ g.holds, ∃ q n, g.claims.owned = [(h.lock, h.mode)] ∧
    g.pos = some (q, h.block) ∧ lookup h.img h.block n = some k

/-- Locks are acquired on the way down only, with a pointer from the table and by a thread that does
not own them; they are released by their owner, upgraded by a thread that owns no other lock, and
forgotten by their exclusive owner. A block is taken by a thread that has none, or by one that has
one and stands at a directory without unused slots. -/
def Adm : Op → Ghost → Prop
  | .lock mode l, g => mode ≠ .exclusive ∧ (∃ k, (k, l) ∈ g.claims.uses ∧ g.Descends k) ∧
      l ∉ g.claims.owned.map Prod.fst
  | .unlock mode l, g => (l, mode) ∈ g.claims.owned
  | .upgradeToExclusive l, g => g.claims.owned = [(l, .upgrade)]
  | .eraseLock b, g => ∃ l, (b, l) ∈ g.claims.uses ∧ (l, .exclusive) ∈ g.claims.owned
  | .freeEmpty, g | .popFront, g => g.limbo = []
  | .popFrontOr b, g => g.limbo = [b] ∧
      ∀ h ∈ g.holds, ¬Table.HasUnused ((inodeAt h.img h.block).used.map (rowAt h.img))
  | .pushFront b, g => g.limbo = [b]
  | _, _ => True

/-- The protocol of the server, started with the abstract file system `a₀`. -/
def fsProtocol (a₀ : AbstractFs) : Protocol Op Op.Res State where
  Ghost := Ghost
  Hist := List Entry
  Tag := Option Request
  tag := Ghost.req
  step := step
  inv := Inv a₀
  adm := Adm
  guar := Guar

/-- What a step that does not change the tree may decide: nothing, or a response that leaves the
abstract file system as it is. -/
def LinStep (a : AbstractFs) (g g' : Ghost) : Prop :=
  g'.req = g.req ∧ (g'.lin = g.lin ∨
    (g.lin = none ∧ ∃ req r, g.req = some req ∧ g'.lin = some r ∧ a.apply req = (a, r)))

variable {a₀ a : AbstractFs} {η η' : List Entry} {gs : ℕ → Ghost} {g g' : Ghost} {i j : ℕ}
  {req : Request} {r : Response} {s s' : State} {b c x : BlockNo} {h h' : Hold} {α : Type}
  {Q : α → Ghost → Prop}

theorem LinStep.keep (hlin : g'.lin = g.lin) (hreq : g'.req = g.req) : LinStep a g g' :=
  ⟨hreq, Or.inl hlin⟩

theorem LinStep.record (hnone : g.lin = none) (hreq : g.req = some req) (hreq' : g'.req = g.req)
    (hlin : g'.lin = some r) (happly : a.apply req = (a, r)) : LinStep a g g' :=
  ⟨hreq', Or.inr ⟨hnone, req, r, hreq, hlin, happly⟩⟩

theorem LinStep.hist (hl : LinStep a (gs i) g') (hist : HistInv a₀ η a gs) {o : Op} {d : o.Res}
    (ho : ¬FoundEmpty o d) :
    ∃ η', Guar i o d gs η η' ∧ HistInv a₀ η' a (update gs i g') := by
  rcases hl with ⟨hreq, hlin | ⟨hnone, req, r, hr, hlin, happly⟩⟩
  · exact ⟨η, Or.inl ⟨rfl, ho⟩, hist.keep hlin hreq⟩
  · refine ⟨_, Or.inr ⟨⟨i, req, r, false⟩, rfl, rfl, hr, fun hf => absurd hf ho, ?_⟩,
      hist.record hnone happly hlin (hreq.trans hr)⟩
    simp

/-! ### What a request knows -/

/-- What a request knows about the disk does not depend on its locks and its response. -/
theorem ThreadInv.congr {d : Disk} {drained : BlockNo → Prop} (ht : ThreadInv d drained g)
    (hholds : g'.holds = g.holds) (hpos : g'.pos = g.pos) (hlimbo : g'.limbo = g.limbo)
    (hpriv : g'.priv = g.priv) (hdrain : g'.drain = g.drain) (hreq : g'.req = g.req) :
    ThreadInv d drained g' := by
  have huser : g'.user = g.user := by rw [Ghost.user, hreq, Ghost.user]
  refine ⟨?_, ?_, ?_, ?_, ?_⟩
  · rw [hholds]
    exact ht.agree
  · rw [hholds]
    exact ht.linked
  · rw [hholds, hdrain, hlimbo]
    exact ht.drain
  · rw [hholds, hpos, huser]
    exact ht.pos
  · rw [hpriv, hlimbo]
    exact ht.priv

/-- A request may forget holds that it does not need any more. -/
theorem ThreadInv.forget {d : Disk} {drained : BlockNo → Prop} (ht : ThreadInv d drained g)
    (hholds : ∀ h ∈ g'.holds, h ∈ g.holds)
    (hpos : ∀ q b, g'.pos = some (q, b) → g.pos = some (q, b) ∧
      ∀ h ∈ g.holds, h.block = b → h ∈ g'.holds)
    (hdrain : ∀ b, g'.drain = some b → g.drain = some b ∧
      ∀ h ∈ g.holds, h.block = b → h ∈ g'.holds)
    (hlimbo : g'.limbo = g.limbo) (hpriv : g'.priv = g.priv) (hreq : g'.req = g.req) :
    ThreadInv d drained g' := by
  have huser : g'.user = g.user := by rw [Ghost.user, hreq, Ghost.user]
  refine ⟨fun h hh => ht.agree h (hholds h hh), fun h hh => ht.linked h (hholds h hh), ?_, ?_, ?_⟩
  · intro b hb
    obtain ⟨hb, hkeep⟩ := hdrain b hb
    obtain ⟨hl, h, hh, heq, hrest⟩ := ht.drain b hb
    rw [hlimbo]
    exact ⟨hl, h, hkeep h hh heq, heq, hrest⟩
  · intro q b hq
    obtain ⟨hq, hkeep⟩ := hpos q b hq
    obtain ⟨hl, hu, h, hh, heq, hrest⟩ := ht.pos q b hq
    rw [huser]
    exact ⟨hl, hu, h, hkeep h hh heq, heq, hrest⟩
  · rw [hpriv, hlimbo]
    exact ht.priv

/-- One step of a request. -/
theorem wp_step {o : Op} {k : o.Res → FsProg α} (hadm : Adm o g)
    (hstep : ∀ (s : State) (η : List Entry) (gs : ℕ → Ghost), Inv a₀ s η gs → gs i = g →
      ∀ (res : o.Res) (s' : State), step i o s = some (res, s') →
        ∃ (η' : List Entry) (g' : Ghost), Guar i o res gs η η' ∧ Inv a₀ s' η' (update gs i g') ∧
          g'.req = g.req ∧ (fsProtocol a₀).wp i Q (k res) g') :
    (fsProtocol a₀).wp i Q (.op o k) g :=
  Protocol.wp_op.mpr ⟨hadm, hstep⟩

/-! ### Reading -/

/-- A block of a locked inode is read. -/
theorem wp_diskReadblock {k : Block → FsProg α} (hh : h ∈ g.holds)
    (hx : x ∈ footprint h.img h.block) (hk : (fsProtocol a₀).wp i Q (k (h.img x)) g) :
    (fsProtocol a₀).wp i Q (diskReadblock x >>= k) g := by
  have hlt : x.toNat < fsDisksize := h.wf.footprint_lt h.linked hx
  rw [diskReadblock, if_pos hlt]
  refine wp_step trivial fun s η gs hinv hg res s' hs => ?_
  obtain ⟨rfl, rfl⟩ := Prod.mk.inj (Option.some.inj hs)
  refine ⟨η, g, Or.inl ⟨rfl, id⟩, ?_, rfl, ?_⟩
  · rw [← hg, update_eq_self]
    exact hinv
  · have hag := (hinv.thread i).agree h (hg ▸ hh)
    rw [hag x hx]
    exact hk

/-! ### Locks -/

private theorem claims_update (gs : ℕ → Ghost) (g' : Ghost) (j : ℕ) (hj : j ≠ i) :
    (update gs i g' j).claims = (gs j).claims := by
  rw [update_of_ne hj]

/-- A pointer to the lock of a block is fetched. Different blocks have different locks. -/
theorem wp_getLockPtr {k : LockId → FsProg α}
    (hok : ∀ l, Ghost.Ok { g with claims :=
      ⟨l :: g.claims.ptrs, g.claims.owned, (b, l) :: g.claims.uses⟩ })
    (hk : ∀ l, (∀ b' l', (b', l') ∈ g.claims.uses → b' ≠ b → l' ≠ l) →
      (fsProtocol a₀).wp i Q (k l) { g with claims :=
        ⟨l :: g.claims.ptrs, g.claims.owned, (b, l) :: g.claims.uses⟩ }) :
    (fsProtocol a₀).wp i Q (.op (.getLockPtr b) k) g := by
  refine wp_step trivial fun s η gs hinv hg l s' hs => ?_
  obtain ⟨t, ht, rfl⟩ : ∃ t, s.dataLocks.get i b = (l, t) ∧ s' = { s with dataLocks := t } := by
    obtain ⟨rfl, rfl⟩ := Prod.mk.inj (Option.some.inj hs)
    exact ⟨_, rfl, rfl⟩
  subst hg
  have hlocks : t.Inv (update (fun j => (gs j).claims) i
      ⟨l :: (gs i).claims.ptrs, (gs i).claims.owned, (b, l) :: (gs i).claims.uses⟩) :=
    hinv.locks.get ht (update_self ..) fun j hj => update_of_ne hj ..
  refine ⟨η, { gs i with claims :=
    ⟨l :: (gs i).claims.ptrs, (gs i).claims.owned, (b, l) :: (gs i).claims.uses⟩ },
    Or.inl ⟨rfl, id⟩, ?_, rfl, hk l fun b' l' hu hne heq => ?_⟩
  · refine hinv.withLocks ?_ (hok l) rfl rfl ((hinv.thread i).congr rfl rfl rfl rfl rfl rfl)
      (hinv.hist.keep rfl rfl)
    refine hinv.locks.get ht ?_ (claims_update gs _)
    rw [update_self]
  · have hthread := hlocks.thread i
    rw [update_self] at hthread
    have h₁ := (hthread.uses_table b l (List.mem_cons_self ..)).1
    have h₂ := (hthread.uses_table b' l' (List.mem_cons_of_mem _ hu)).1
    exact hne (hlocks.inj b' b l (heq ▸ h₂) h₁)

/-- A pointer is released. -/
theorem wp_dropPtr {k : Unit → FsProg α} {l : LockId} {w : List LockId}
    (hrest : g.claims.ptrs.Perm (l :: w))
    (howned : ∀ l' m, (l', m) ∈ g.claims.owned → l' ∈ w)
    (huses : ∀ k l', (k, l') ∈ g.claims.uses → l' ∈ w)
    (hk : (fsProtocol a₀).wp i Q (k ()) { g with claims := ⟨w, g.claims.owned, g.claims.uses⟩ })
    (hok : g.Ok) : (fsProtocol a₀).wp i Q (.op (.dropPtr l) k) g := by
  refine wp_step trivial fun s η gs hinv hg res s' hs => ?_
  obtain ⟨rfl, rfl⟩ := Prod.mk.inj (Option.some.inj hs)
  subst hg
  refine ⟨η, { gs i with claims := ⟨w, (gs i).claims.owned, (gs i).claims.uses⟩ },
    Or.inl ⟨rfl, id⟩, ?_, rfl, hk⟩
  refine hinv.withLocks ?_ ⟨hok.hold, hok.uses, hok.reserve_congr id rfl rfl rfl rfl⟩ rfl rfl
    ((hinv.thread i).congr rfl rfl rfl rfl rfl rfl) (hinv.hist.keep rfl rfl)
  refine hinv.locks.drop hrest howned huses ?_ (claims_update gs _)
  rw [update_self]

/-- The outcome of an operation on a lock. -/
private theorem onMutex_eq_some {l : LockId} {f : SharedMutex → Option SharedMutex} {u : Unit}
    (hs : onMutex l f s = some (u, s')) :
    ∃ t, s.dataLocks.onMutex l f = some t ∧ s' = { s with dataLocks := t } := by
  obtain ⟨t, ht, heq⟩ := Option.map_eq_some_iff.mp hs
  exact ⟨t, ht, (Prod.mk.inj heq).2.symm⟩

/-- A lock of an inode of the tree is acquired. The state of the tree at this moment can decide the
response. -/
theorem wp_lock {k : Unit → FsProg α} {l : LockId} {m : LockMode} (hm : m ≠ .exclusive)
    (huse : (c, l) ∈ g.claims.uses) (hdown : g.Descends c) (hnot : l ∉ g.claims.owned.map Prod.fst)
    (hheld : ∀ k l', (k, l') ∈ g.claims.uses → k = c ∨ ∃ h ∈ g.holds, h.block = k)
    (hok : ∀ h ∈ g.holds, (h.block, h.lock) ∈ g.claims.uses ∧ (h.lock, h.mode) ∈ g.claims.owned)
    (hptr : l ∈ g.claims.ptrs) (hdrain : g.drain = none) (hlimbo : g.limbo = []) (hpriv : g.priv = [])
    (hk : ∀ s η gs, Inv a₀ s η gs → gs i = g → ∃ (hl : Linked s.disk c) (hwf : WellFormed s.disk),
      ∃ lin pos, LinStep (abs s.disk) g { g with lin := lin } ∧
        (∀ q b, pos = some (q, b) → resolvePath s.disk q = some b ∧
          OwnedAlong s.disk g.user q ∧
          ∃ h ∈ (⟨c, l, m, s.disk, hwf, hl⟩ :: g.holds : List Hold), h.block = b ∧
            (h.mode ≠ .shared ∨ ∃ n c, lookup h.img b n = some c)) ∧
        (fsProtocol a₀).wp i Q (k ()) { g with
          claims := ⟨g.claims.ptrs, (l, m) :: g.claims.owned, g.claims.uses⟩
          holds := ⟨c, l, m, s.disk, hwf, hl⟩ :: g.holds
          lin := lin
          pos := pos }) :
    (fsProtocol a₀).wp i Q (.op (.lock m l) k) g := by
  refine wp_step ⟨hm, ⟨c, huse, hdown⟩, hnot⟩ fun s η gs hinv hg res s' hs => ?_
  obtain ⟨t, ht, rfl⟩ := onMutex_eq_some hs
  obtain ⟨hl, hwf, lin, pos, hlin, hpos, hwp⟩ := hk s η gs hinv hg
  subst hg
  let g' : Ghost := { gs i with
    claims := ⟨(gs i).claims.ptrs, (l, m) :: (gs i).claims.owned, (gs i).claims.uses⟩
    holds := ⟨c, l, m, s.disk, hwf, hl⟩ :: (gs i).holds
    lin := lin
    pos := pos }
  have hlin' : LinStep (abs s.disk) (gs i) g' := ⟨rfl, hlin.2⟩
  obtain ⟨η', hguar, hhist⟩ := hlin'.hist hinv.hist (o := .lock m l) (d := res) id
  refine ⟨η', g', hguar, hinv.withLocks ?_ ⟨?_, ?_, fun r _ hne => absurd hlimbo hne⟩ rfl rfl
    ⟨?_, ?_, ?_, hpos, ?_⟩ hhist, rfl, hwp⟩
  · refine hinv.locks.lock ht hptr hnot ?_ (claims_update gs _)
    rw [update_self]
  · intro h' hh'
    rcases List.mem_cons.mp hh' with rfl | hh'
    · exact ⟨huse, List.mem_cons_self ..⟩
    · exact ⟨(hok h' hh').1, List.mem_cons_of_mem _ (hok h' hh').2⟩
  · intro k' l' hu
    rcases hheld k' l' hu with rfl | ⟨h', hh', heq⟩
    · exact Or.inr (Or.inl ⟨_, List.mem_cons_self .., rfl⟩)
    · exact Or.inr (Or.inl ⟨h', List.mem_cons_of_mem _ hh', heq⟩)
  · intro h' hh'
    rcases List.mem_cons.mp hh' with rfl | hh'
    · exact Agree.refl _ _
    · exact (hinv.thread i).agree h' hh'
  · intro h' hh'
    rcases List.mem_cons.mp hh' with rfl | hh'
    · exact Or.inl hl
    · exact (hinv.thread i).linked h' hh'
  · intro b' hb'
    exact absurd (hdrain.symm.trans hb') (by simp)
  · intro x v hx
    exact absurd (hpriv ▸ hx) (List.not_mem_nil)

/-- A lock is released, and holds are forgotten with it. -/
theorem wp_unlock {k : Unit → FsProg α} {l : LockId} {m : LockMode}
    {w : List (LockId × LockMode)} (hrest : g.claims.owned.Perm ((l, m) :: w))
    (hclaims : g'.claims = ⟨g.claims.ptrs, w, g'.claims.uses⟩)
    (huses : g'.claims.uses ⊆ g.claims.uses) (hok : g'.Ok) (hlimbo : g'.limbo = g.limbo)
    (hdrain : g'.drain = g.drain)
    (hself : ∀ d drained, ThreadInv d drained g → ThreadInv d drained g')
    (hlin : ∀ s η gs, Inv a₀ s η gs → gs i = g → LinStep (abs s.disk) g g')
    (hk : (fsProtocol a₀).wp i Q (k ()) g') :
    (fsProtocol a₀).wp i Q (.op (.unlock m l) k) g := by
  have hmem : (l, m) ∈ g.claims.owned := hrest.mem_iff.mpr (List.mem_cons_self ..)
  refine wp_step hmem fun s η gs hinv hg res s' hs => ?_
  obtain ⟨t, ht, rfl⟩ := onMutex_eq_some hs
  have hl := hlin s η gs hinv hg
  subst hg
  obtain ⟨η', hguar, hhist⟩ := hl.hist hinv.hist (o := .unlock m l) (d := res) id
  refine ⟨η', g', hguar, hinv.withLocks ?_ hok hlimbo hdrain (hself _ _ (hinv.thread i)) hhist,
    hl.1, hk⟩
  have hunlock : t.Inv (update (fun j => (gs j).claims) i
      ⟨(gs i).claims.ptrs, w, (gs i).claims.uses⟩) :=
    hinv.locks.unlock ht hrest (update_self ..) fun j hj => update_of_ne hj ..
  have hsub : g'.claims.uses ⊆
      (update (fun j => (gs j).claims) i ⟨(gs i).claims.ptrs, w, (gs i).claims.uses⟩ i).uses := by
    rwa [update_self]
  refine hunlock.forget hsub ?_ fun j hj => ?_
  · rw [update_self, update_self, hclaims]
  · rw [update_of_ne hj, update_of_ne hj]

/-- An upgrade lock becomes exclusive. -/
theorem wp_upgradeToExclusive {k : Unit → FsProg α} {l : LockId}
    (howned : g.claims.owned = [(l, .upgrade)])
    (hclaims : g'.claims = ⟨g.claims.ptrs, [(l, .exclusive)], g.claims.uses⟩) (hok : g.Ok → g'.Ok)
    (hlimbo : g'.limbo = g.limbo) (hdrain : g'.drain = g.drain) (hlin : g'.lin = g.lin)
    (hreq : g'.req = g.req)
    (hself : ∀ d drained, ThreadInv d drained g → ThreadInv d drained g')
    (hk : (fsProtocol a₀).wp i Q (k ()) g') :
    (fsProtocol a₀).wp i Q (.op (.upgradeToExclusive l) k) g := by
  refine wp_step howned fun s η gs hinv hg res s' hs => ?_
  obtain ⟨t, ht, rfl⟩ := onMutex_eq_some hs
  subst hg
  refine ⟨η, g', Or.inl ⟨rfl, id⟩, hinv.withLocks ?_ (hok (hinv.ok i)) hlimbo hdrain
    (hself _ _ (hinv.thread i)) (hinv.hist.keep hlin hreq), hreq, hk⟩
  refine hinv.locks.upgradeToExclusive ht (by rw [howned]) ?_ (claims_update gs _)
  rw [update_self, hclaims]

/-- The lock of an inode that has been cut off is forgotten, with the hold on it. -/
theorem wp_eraseLock {k : Unit → FsProg α} (hok : g.Ok) (hholds : g.holds = [h])
    (hm : h.mode = .exclusive) (hdrain : g.drain = some h.block) (hpos : g.pos = none)
    (hreq : ∀ r, g.req ≠ some (.create r))
    (hk : (fsProtocol a₀).wp i Q (k ()) { g with
      claims := ⟨g.claims.ptrs, g.claims.owned, []⟩, holds := [], drain := none }) :
    (fsProtocol a₀).wp i Q (.op (.eraseLock h.block) k) g := by
  have hh : h ∈ g.holds := by simp [hholds]
  obtain ⟨huse, howned⟩ := hok.hold h hh
  refine wp_step ⟨h.lock, huse, hm ▸ howned⟩ fun s η gs hinv hg res s' hs => ?_
  obtain ⟨rfl, rfl⟩ := Prod.mk.inj (Option.some.inj hs)
  subst hg
  have ht := hinv.thread i
  have hnl := (ht.drain h.block hdrain).1
  refine ⟨η, { gs i with
    claims := ⟨(gs i).claims.ptrs, (gs i).claims.owned, []⟩, holds := [], drain := none },
    Or.inl ⟨rfl, id⟩, ?_, rfl, hk⟩
  refine hinv.withErased (h := h) ?_ ⟨by simp, by simp, fun r hr => absurd hr (hreq r)⟩ rfl hh hm hdrain
    ⟨by simp, by simp, by simp, by simp [hpos], ht.priv⟩ rfl (hinv.hist.keep rfl rfl)
  refine hinv.locks.erase (List.nil_subset (gs i).claims.uses) (by simp)
    (fun j hj l hu => ?_) ?_ (claims_update gs _)
  · -- nobody else is in the inode, and nobody can be waiting for it
    rcases hinv.linked_of_uses hu with hl | ⟨h', hh', heq⟩
    · exact hnl hl
    · exact hinv.exclusive hh hm hh' hj heq
  · rw [update_self]

/-! ### The free list -/

private theorem place_none (free : List BlockNo) (gs : ℕ → Ghost) : place free gs none = free := rfl

private theorem place_self (free : List BlockNo) (gs : ℕ → Ghost) (g' : Ghost) :
    place free (update gs i g') (some i) = g'.limbo := by
  simp only [place, update_self]

private theorem place_other (free free' : List BlockNo) (gs : ℕ → Ghost) (g' : Ghost)
    (p : Option ℕ) (hp : p ≠ none) (hpi : p ≠ some i) :
    place free' (update gs i g') p = place free gs p := by
  cases p with
  | none => exact absurd rfl hp
  | some j =>
    have hj : j ≠ i := fun heq => hpi (congrArg some heq)
    simp only [place, update_of_ne hj]

/-- Blocks pass between the free list and the limbo of a request. -/
theorem Inv.moveBlocks (hinv : Inv a₀ s η gs) {free : List BlockNo}
    (hperm : (free ++ g'.limbo).Perm (s.freeDiskBlocks ++ (gs i).limbo))
    (hclaims : g'.claims = (gs i).claims) (hok : g'.Ok) (hdrain : g'.drain = (gs i).drain)
    (hself : ThreadInv s.disk (Drained gs) g')
    (hhist : HistInv a₀ η' (abs s.disk) (update gs i g')) :
    Inv a₀ { s with freeDiskBlocks := free } η' (update gs i g') := by
  refine hinv.withBlocks ?_ hclaims hok hdrain hself hhist
  refine hinv.blocks.move (p := none) (q := some i) (by simp)
    (fun p hp hpi => place_other s.freeDiskBlocks free gs g' p hp hpi) ?_
  rw [place_self]
  exact hperm

/-- The fate of a request that finds the free list empty. -/
theorem Inv.hist_foundEmpty (hinv : Inv a₀ s η gs) (hfree : s.freeDiskBlocks = [])
    (hnone : (gs i).lin = none) (hreq : (gs i).req = some req)
    (hfail : (unused s.disk).ncard = (gs i).limbo.length →
      (abs s.disk).apply req = (abs s.disk, none))
    {w : Ghost} (hlin : w.lin = some none) (hreq' : w.req = (gs i).req) {o : Op} {d : o.Res}
    (ho : FoundEmpty o d) :
    ∃ η', Guar i o d gs η η' ∧ HistInv a₀ η' (abs s.disk) (update gs i w) := by
  by_cases hother : ∃ j, j ≠ i ∧ (gs j).limbo ≠ []
  · refine ⟨_, Or.inr ⟨⟨i, req, none, true⟩, rfl, rfl, hreq, fun _ => rfl, fun _ => ⟨ho, hother⟩⟩,
      hinv.hist.skip hnone hlin (hreq'.trans hreq)⟩
  · have hcard := hinv.blocks.ncard_eq (p := none) (q := some i) (by simp) fun p hp hpi => by
      cases p with
      | none => exact absurd rfl hp
      | some j =>
        by_contra hne
        exact hother ⟨j, fun heq => hpi (congrArg some heq), hne⟩
    rw [place_none, hfree, List.length_nil, zero_add] at hcard
    refine ⟨_, Or.inr ⟨⟨i, req, none, false⟩, rfl, rfl, hreq, fun _ => rfl, ?_⟩,
      hinv.hist.record hnone (hfail hcard) hlin (hreq'.trans hreq)⟩
    simp

/-- What a request knows about a block that it takes from the free list. -/
theorem Inv.of_free (hinv : Inv a₀ s η gs) (hx : x ∈ s.freeDiskBlocks) :
    x ≠ 0 ∧ x.toNat < fsDisksize ∧ x ∉ (gs i).limbo := by
  have hu := hinv.blocks.mem (p := none) hx
  refine ⟨hu.1, hu.2.1, fun hmem => ?_⟩
  exact absurd (hinv.blocks.disjoint none (some i) x hx hmem) (by simp)

/-- What a request knows about the disk does not depend on which more blocks it has in limbo. -/
theorem ThreadInv.moreLimbo {d : Disk} {drained : BlockNo → Prop} (ht : ThreadInv d drained g)
    (xs : List BlockNo) : ThreadInv d drained { g with limbo := xs ++ g.limbo } where
  agree := ht.agree
  linked := ht.linked
  drain b hb := by
    obtain ⟨hl, h, hh, heq, hm, hfp⟩ := ht.drain b hb
    exact ⟨hl, h, hh, heq, hm, fun x hx => List.mem_append_right _ (hfp x hx)⟩
  pos := ht.pos
  priv x v hx := ⟨List.mem_append_right _ (ht.priv x v hx).1, (ht.priv x v hx).2⟩

/-- The first free block is taken, if there is one. -/
theorem wp_popFront {k : Option BlockNo → FsProg α} (hok : g.Ok) (hnone : g.lin = none)
    (hreq : g.req = some req) (hlimbo : g.limbo = [])
    (henters : ∀ r, req = .create r → ∃ h, g.Enters r h)
    (hfail : ∀ (s : State) (η : List Entry) (gs : ℕ → Ghost), Inv a₀ s η gs → gs i = g →
      (unused s.disk).ncard = g.limbo.length → (abs s.disk).apply req = (abs s.disk, none))
    (hempty : (fsProtocol a₀).wp i Q (k none) { g with lin := some none })
    (hsome : ∀ x : BlockNo, x ≠ 0 → x.toNat < fsDisksize → x ∉ g.limbo →
      (fsProtocol a₀).wp i Q (k (some x)) { g with limbo := x :: g.limbo }) :
    (fsProtocol a₀).wp i Q (.op .popFront k) g := by
  refine wp_step hlimbo fun s η gs hinv hg res s' hs => ?_
  obtain ⟨rfl, rfl⟩ := Prod.mk.inj (Option.some.inj hs)
  have hf := hfail s η gs hinv hg
  subst hg
  cases hfree : s.freeDiskBlocks with
  | nil =>
    obtain ⟨η', hguar, hhist⟩ : ∃ η', Guar i .popFront none gs η η' ∧
        HistInv a₀ η' (abs s.disk) (update gs i { gs i with lin := some none }) :=
      hinv.hist_foundEmpty (o := .popFront) (d := none)
        (w := { gs i with lin := some none }) hfree hnone hreq hf rfl rfl rfl
    refine ⟨η', { gs i with lin := some none }, hguar, ?_, rfl, hempty⟩
    refine hinv.moveBlocks ?_ rfl ⟨hok.hold, hok.uses, fun r _ hne => absurd hlimbo hne⟩ rfl
      ((hinv.thread i).congr rfl rfl rfl rfl rfl rfl) hhist
    rw [hfree]
    rfl
  | cons x rest =>
    obtain ⟨h0, hlt, hnot⟩ := hinv.of_free (i := i) (x := x) (by simp [hfree])
    refine ⟨η, { gs i with limbo := x :: (gs i).limbo },
      Or.inl ⟨rfl, by simp [FoundEmpty]⟩, ?_, rfl, hsome x h0 hlt hnot⟩
    have hreserve (r : FsCreate) (hr : (gs i).req = some (.create r)) : ∃ h, (gs i).Enters r h :=
      henters r (Option.some.inj (hreq.symm.trans hr))
    refine hinv.moveBlocks ?_ rfl ⟨hok.hold, hok.uses, fun r hr _ => ⟨hnone,
      (hreserve r hr).imp fun h he => he.congr rfl rfl⟩⟩ rfl ((hinv.thread i).moreLimbo [x])
      (hinv.hist.keep rfl rfl)
    rw [hfree]
    exact List.perm_middle

/-- A further free block is taken; if there is none, the one in limbo is given back. -/
theorem wp_popFrontOr {k : Option BlockNo → FsProg α} (hok : g.Ok) (hnone : g.lin = none)
    (hreq : g.req = some req) (hlimbo : g.limbo = [c]) (hpriv : g.priv = [])
    (hdrain : g.drain = none)
    (hfull : ∀ h ∈ g.holds, ¬Table.HasUnused ((inodeAt h.img h.block).used.map (rowAt h.img)))
    (hfail : ∀ (s : State) (η : List Entry) (gs : ℕ → Ghost), Inv a₀ s η gs → gs i = g →
      (unused s.disk).ncard = 1 → (abs s.disk).apply req = (abs s.disk, none))
    (hempty : (fsProtocol a₀).wp i Q (k none) { g with lin := some none, limbo := [] })
    (hsome : ∀ x : BlockNo, x ≠ 0 → x.toNat < fsDisksize → x ≠ c →
      (fsProtocol a₀).wp i Q (k (some x)) { g with limbo := [x, c] }) :
    (fsProtocol a₀).wp i Q (.op (.popFrontOr c) k) g := by
  refine wp_step ⟨hlimbo, hfull⟩ fun s η gs hinv hg res s' hs => ?_
  have hf := hfail s η gs hinv hg
  subst hg
  have ht := hinv.thread i
  cases hfree : s.freeDiskBlocks with
  | nil =>
    simp only [step, hfree, Option.some.injEq, Prod.mk.injEq] at hs
    obtain ⟨rfl, rfl⟩ := hs
    obtain ⟨η', hguar, hhist⟩ : ∃ η', Guar i (.popFrontOr c) none gs η η' ∧
        HistInv a₀ η' (abs s.disk) (update gs i { gs i with lin := some none, limbo := [] }) :=
      hinv.hist_foundEmpty (o := .popFrontOr c) (d := none)
        (w := { gs i with lin := some none, limbo := [] }) hfree hnone hreq
        (by simpa only [hlimbo, List.length_singleton] using hf) rfl rfl rfl
    refine ⟨η', { gs i with lin := some none, limbo := [] }, hguar, ?_, rfl, hempty⟩
    refine hinv.moveBlocks ?_ rfl ⟨hok.hold, hok.uses, fun r _ hne => absurd rfl hne⟩ rfl
      ⟨ht.agree, ht.linked, by simp [hdrain], ht.pos, by simp [hpriv]⟩ hhist
    rw [hfree, hlimbo]
    rfl
  | cons x rest =>
    simp only [step, hfree, Option.some.injEq, Prod.mk.injEq] at hs
    obtain ⟨rfl, rfl⟩ := hs
    obtain ⟨h0, hlt, hnot⟩ := hinv.of_free (i := i) (x := x) (by simp [hfree])
    rw [hlimbo, List.mem_singleton] at hnot
    refine ⟨η, { gs i with limbo := [x, c] }, Or.inl ⟨rfl, by simp [FoundEmpty]⟩, ?_, rfl,
      hsome x h0 hlt hnot⟩
    have hmore := ht.moreLimbo [x]
    rw [hlimbo] at hmore
    have hne : (gs i).limbo ≠ [] := by simp [hlimbo]
    refine hinv.moveBlocks ?_ rfl ⟨hok.hold, hok.uses,
      hok.reserve_congr (fun _ => hne) rfl rfl rfl rfl⟩ rfl hmore (hinv.hist.keep rfl rfl)
    rw [hfree, hlimbo]
    exact List.perm_middle

/-- It is tested whether the free list is empty. -/
theorem wp_freeEmpty {k : Bool → FsProg α} (hok : g.Ok) (hnone : g.lin = none)
    (hreq : g.req = some req) (hlimbo : g.limbo = [])
    (hfail : ∀ (s : State) (η : List Entry) (gs : ℕ → Ghost), Inv a₀ s η gs → gs i = g →
      (unused s.disk).ncard = g.limbo.length → (abs s.disk).apply req = (abs s.disk, none))
    (hempty : (fsProtocol a₀).wp i Q (k true) { g with lin := some none })
    (hsome : (fsProtocol a₀).wp i Q (k false) g) :
    (fsProtocol a₀).wp i Q (.op .freeEmpty k) g := by
  refine wp_step hlimbo fun s η gs hinv hg res s' hs => ?_
  obtain ⟨rfl, rfl⟩ := Prod.mk.inj (Option.some.inj hs)
  have hf := hfail s η gs hinv hg
  subst hg
  cases hfree : s.freeDiskBlocks with
  | nil =>
    obtain ⟨η', hguar, hhist⟩ : ∃ η', Guar i .freeEmpty true gs η η' ∧
        HistInv a₀ η' (abs s.disk) (update gs i { gs i with lin := some none }) :=
      hinv.hist_foundEmpty (o := .freeEmpty) (d := true)
        (w := { gs i with lin := some none }) hfree hnone hreq hf rfl rfl rfl
    refine ⟨η', { gs i with lin := some none }, hguar, ?_, rfl, hempty⟩
    exact hinv.moveBlocks (List.Perm.refl _) rfl
      ⟨hok.hold, hok.uses, fun r _ hne => absurd hlimbo hne⟩ rfl ((hinv.thread i).congr rfl rfl rfl rfl rfl rfl) hhist
  | cons x rest =>
    refine ⟨η, gs i, Or.inl ⟨rfl, by simp [FoundEmpty]⟩, ?_, rfl, hsome⟩
    rw [update_eq_self]
    exact hinv

/-- The length of the free list is read. If it decides the response, the tree stays as it is. -/
theorem wp_freeSize {k : ℕ → FsProg α} (hok : g.Ok) (hlimbo : g.limbo = [])
    (hk : ∀ (s : State) (η : List Entry) (gs : ℕ → Ghost), Inv a₀ s η gs → gs i = g →
      ∃ lin, LinStep (abs s.disk) g { g with lin := lin } ∧
        (fsProtocol a₀).wp i Q (k s.freeDiskBlocks.length) { g with lin := lin }) :
    (fsProtocol a₀).wp i Q (.op .freeSize k) g := by
  refine wp_step trivial fun s η gs hinv hg res s' hs => ?_
  obtain ⟨rfl, rfl⟩ := Prod.mk.inj (Option.some.inj hs)
  obtain ⟨lin, hlin, hwp⟩ := hk s η gs hinv hg
  subst hg
  obtain ⟨η', hguar, hhist⟩ := hlin.hist hinv.hist (o := .freeSize)
    (d := s.freeDiskBlocks.length) id
  refine ⟨η', { gs i with lin := lin }, hguar, ?_, rfl, hwp⟩
  exact hinv.moveBlocks (List.Perm.refl _) rfl
    ⟨hok.hold, hok.uses, fun r _ hne => absurd hlimbo hne⟩ rfl ((hinv.thread i).congr rfl rfl rfl rfl rfl rfl) hhist

/-- The block in limbo is put back to the front of the free list. -/
theorem wp_pushFront {k : Unit → FsProg α} (hok : g.Ok) (hlimbo : g.limbo = [c])
    (hpriv : g.priv = []) (hdrain : g.drain = none)
    (hk : (fsProtocol a₀).wp i Q (k ()) { g with limbo := [] }) :
    (fsProtocol a₀).wp i Q (.op (.pushFront c) k) g := by
  refine wp_step hlimbo fun s η gs hinv hg res s' hs => ?_
  obtain ⟨rfl, rfl⟩ := Prod.mk.inj (Option.some.inj hs)
  subst hg
  have ht := hinv.thread i
  refine ⟨η, { gs i with limbo := [] }, Or.inl ⟨rfl, id⟩, ?_, rfl, hk⟩
  refine hinv.moveBlocks ?_ rfl ⟨hok.hold, hok.uses, fun r _ hne => absurd rfl hne⟩ rfl
    ⟨ht.agree, ht.linked, by simp [hdrain], ht.pos, by simp [hpriv]⟩ (hinv.hist.keep rfl rfl)
  rw [hlimbo, List.append_nil]
  exact (List.perm_append_singleton _ _).symm

/-- Blocks in limbo are put back to the end of the free list. -/
theorem wp_pushBack {k : Unit → FsProg α} {xs w : List BlockNo} (hok : g.Ok)
    (hlimbo : g.limbo.Perm (xs ++ w)) (hpriv : g.priv = [])
    (hdrain : ∀ b, g.drain = some b → ∀ h ∈ g.holds, ∀ x ∈ footprint h.img b, h.block = b →
      x ∈ w)
    (hk : (fsProtocol a₀).wp i Q (k ()) { g with limbo := w }) :
    (fsProtocol a₀).wp i Q (.op (.pushBack xs) k) g := by
  refine wp_step trivial fun s η gs hinv hg res s' hs => ?_
  obtain ⟨rfl, rfl⟩ := Prod.mk.inj (Option.some.inj hs)
  subst hg
  have ht := hinv.thread i
  refine ⟨η, { gs i with limbo := w }, Or.inl ⟨rfl, id⟩, ?_, rfl, hk⟩
  have hne (hw : w ≠ []) : (gs i).limbo ≠ [] := fun hnil =>
    hw (List.append_eq_nil_iff.mp (List.nil_perm.mp (hnil ▸ hlimbo))).2
  refine hinv.moveBlocks ?_ rfl ⟨hok.hold, hok.uses, hok.reserve_congr hne rfl rfl rfl rfl⟩ rfl
    ⟨ht.agree, ht.linked, fun b hb => ?_, ht.pos, by simp [hpriv]⟩ (hinv.hist.keep rfl rfl)
  · rw [List.append_assoc]
    exact hlimbo.symm.append_left _
  · obtain ⟨hl, h, hh, heq, hm, -⟩ := ht.drain b hb
    exact ⟨hl, h, hh, heq, hm, fun x hx => hdrain b hb h hh x hx heq⟩

/-- The value of an uninitialised inode is read. -/
theorem wp_uninitInode {k : FsInode → FsProg α} (hk : ∀ inode, (fsProtocol a₀).wp i Q (k inode) g) :
    (fsProtocol a₀).wp i Q (.op .uninitInode k) g := by
  refine wp_step trivial fun s η gs hinv hg res s' hs => ?_
  obtain ⟨rfl, rfl⟩ := Prod.mk.inj (Option.some.inj hs)
  refine ⟨η, g, Or.inl ⟨rfl, id⟩, ?_, rfl, hk _⟩
  rw [← hg, update_eq_self]
  exact ⟨hinv.locks, hinv.ok, hinv.wf, hinv.blocks, hinv.thread, hinv.hist⟩

/-! ### Writing -/

/-- A block in limbo is written. -/
theorem wp_privateWrite {k : Unit → FsProg α} {v : Block} (hlt : x.toNat < fsDisksize)
    (hx : x ∈ g.limbo) (hdrain : g.drain = none) (hpriv : ∀ y w, (y, w) ∈ g.priv → y ≠ x)
    (hk : (fsProtocol a₀).wp i Q (k ()) { g with priv := (x, v) :: g.priv }) :
    (fsProtocol a₀).wp i Q (diskWriteblock x v >>= k) g := by
  rw [diskWriteblock, if_pos hlt]
  refine wp_step trivial fun s η gs hinv hg res s' hs => ?_
  obtain ⟨rfl, rfl⟩ := Prod.mk.inj (Option.some.inj hs)
  subst hg
  refine ⟨η, { gs i with priv := (x, v) :: (gs i).priv }, Or.inl ⟨rfl, id⟩, ?_, rfl, hk⟩
  refine hinv.withPrivate hx rfl rfl rfl rfl hdrain hdrain rfl rfl fun y w hy => ?_
  rcases List.mem_cons.mp hy with heq | hy
  · exact Or.inl (Prod.mk.inj heq)
  · exact Or.inr ⟨hpriv y w hy, hy⟩

/-- An inode that is locked exclusively is changed, and the request takes effect with it. -/
theorem wp_visibleWrite {k : Unit → FsProg α} {v : Block} (hh : h ∈ g.holds)
    (hm : h.mode = .exclusive) (hx : x ∈ footprint h.img h.block) (hnone : g.lin = none)
    (hreq : g.req = some req) (hdrain : g.drain = none)
    (hk : ∀ (s : State) (η : List Entry) (gs : ℕ → Ghost), Inv a₀ s η gs → gs i = g →
      ∃ n o added removed, ∃ g' : Ghost,
        NodeUpdate s.disk (update s.disk x v) h.block n o added removed ∧
        (∀ y, y ∈ added ↔ y ∈ g.limbo) ∧ g'.limbo.Nodup ∧
        (∀ y, y ∈ g'.limbo ↔ y ∈ removed ∨ y ∈ lostBlocks s.disk h.block n) ∧
        (∀ c, lookup s.disk h.block n = some c →
          g'.drain = some c ∧ ∃ hc ∈ g.holds, hc.block = c ∧ hc.mode ≠ .shared) ∧
        g'.claims = g.claims ∧ g'.req = g.req ∧ g'.Ok ∧
        (∀ drained : BlockNo → Prop, (∀ c, g'.drain = some c → drained c) →
          ThreadInv (update s.disk x v) drained g') ∧
        (∃ r, g'.lin = some r ∧
          (abs s.disk).apply req = (abs (update s.disk x v), r)) ∧
        (fsProtocol a₀).wp i Q (k ()) g') :
    (fsProtocol a₀).wp i Q (diskWriteblock x v >>= k) g := by
  have hlt : x.toNat < fsDisksize := h.wf.footprint_lt h.linked hx
  rw [diskWriteblock, if_pos hlt]
  refine wp_step trivial fun s η gs hinv hg res s' hs => ?_
  obtain ⟨rfl, rfl⟩ := Prod.mk.inj (Option.some.inj hs)
  obtain ⟨n, o, added, removed, g', hu, hadd, hnodup, hlimbo, hchild, hclaims, hreq', hok, hself,
    ⟨r, hr, happly⟩, hwp⟩ := hk s η gs hinv hg
  subst hg
  refine ⟨η ++ [⟨i, req, r, false⟩], g', ?_, ?_, hreq', hwp⟩
  · exact Or.inr ⟨⟨i, req, r, false⟩, rfl, rfl, hreq, fun hf => absurd hf id, by simp⟩
  · refine hinv.withVisible hh hm hu (fun y hy => ?_) hadd hdrain hnodup hlimbo hchild hclaims hok
      (hself _ fun c hc => ⟨i, by rwa [update_self]⟩)
      (hinv.hist.record hnone happly hr (hreq'.trans hreq))
    -- the block that is written belongs to an inode of the tree
    rw [update_of_ne]
    rintro rfl
    rw [← ((hinv.thread i).agree h hh).footprint] at hx
    exact hinv.wf.notMem_unused_of_mem_footprint hu.linked hx hy

end OsFromScratch.FileServer
