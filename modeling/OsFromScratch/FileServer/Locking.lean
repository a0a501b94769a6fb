import OsFromScratch.FileServer.Concurrency

/-!
# Locks of concurrent requests

Two requests that are at one inode use one lock object, although lock objects are made when they are
wanted, forgotten when nobody has a pointer to them, and erased with the inode; so the modes in
which they own it are compatible. And some request in flight can always take its next step: a
request that waits for a lock stands above the inode it waits for, whoever keeps it waiting stands
at that inode, and the tree has a bottom.

## Main definitions

* `ServerPool.Owns`, `ServerPool.WaitsFor` — the locks of a request.
* `UsesLock` — a request uses a lock object as the lock of a block.
* `Keyed` — a lock object stays with its block.

## Main results

* `serverRun_lock_unique` — one lock object for each inode in use.
* `serverRun_deadlock_free` — some request can take its next step.
-/

namespace OsFromScratch.FileServer

open Function

/-- The request owns the lock. -/
def ServerPool.Owns (c : ServerPool) (i : ℕ) (l : LockId) (m : LockMode) : Prop :=
  (c.state.dataLocks.mutexes l).Owns i m

/-- The request is in flight and the given operation is its next. -/
def ServerPool.Next (c : ServerPool) (i : ℕ) (o : Op) : Prop :=
  ∃ req k, c.threads[i]? = some (req, .op o k)

/-- The next step of the request is to acquire the lock, or to upgrade it. -/
def ServerPool.WaitsFor (c : ServerPool) (i : ℕ) (l : LockId) : Prop :=
  (∃ m, c.Next i (.lock m l)) ∨ c.Next i (.upgradeToExclusive l)

/-- In a run that led to `c`, the request has got `l` as the lock of the block, it owns it or waits
for it, and it has not erased the block from `data_locks`. -/
structure UsesLock (tr : List ServerLabel) (c : ServerPool) (i : ℕ) (b : BlockNo) (l : LockId) :
    Prop where
  got : .act i (.getLockPtr b) l ∈ tr
  owns_or_waits : (∃ m, c.Owns i l m) ∨ c.WaitsFor i l
  not_erased : .act i (.eraseLock b) () ∉ tr

variable {a₀ : AbstractFs} {s : State} {c c' : ServerPool} {tr : List ServerLabel}
  {η : List Entry} {gs : ℕ → Ghost} {i j : ℕ} {b : BlockNo} {l l' : LockId} {m : LockMode} {o : Op}

/-- The next operation of a request in flight is admissible. -/
theorem ServerSound.adm (h : ServerSound a₀ c η gs) (hi : c.Next i o) : Adm o (gs i) := by
  obtain ⟨req, k, hi⟩ := hi
  exact (Protocol.wp_op.mp (h.wp i req _ hi)).1

theorem ServerSound.locks (h : ServerSound a₀ c η gs) :
    c.state.dataLocks.Inv fun i => (gs i).claims :=
  Inv.locks h.inv

/-- The locks of a request are those of its ghost value. -/
theorem ServerSound.owns_iff (h : ServerSound a₀ c η gs) :
    c.Owns i l m ↔ (l, m) ∈ (gs i).claims.owned :=
  (h.locks.thread i).owns l m

/-- The operations that change neither the map nor an owner of a lock. -/
def LocksUnchanged (t t' : LockTable BlockNo) : Prop :=
  t'.table = t.table ∧ t'.mutexes = t.mutexes ∧ t'.next = t.next

/-- What a step does with the map and the lock objects. -/
theorem ServerStep.locks_cases {e : ServerLabel} (h : ServerStep c e c') :
    (LocksUnchanged c.state.dataLocks c'.state.dataLocks ∧
      ∀ i b l, e = .act i (.getLockPtr b) l → c.state.dataLocks.table b = some l) ∨
    (∃ i b, e = .act i (.getLockPtr b) c.state.dataLocks.next ∧
      (∀ l, c.state.dataLocks.table b = some l → c.state.dataLocks.refs l = []) ∧
      c'.state.dataLocks = (c.state.dataLocks.make i b).2) ∨
    (∃ i b, e = .act i (.eraseLock b) () ∧ c.Next i (.eraseLock b) ∧
      c'.state.dataLocks = c.state.dataLocks.erase b) ∨
    (∃ i l m, e = .act i (.lock m l) () ∧ c.Next i (.lock m l) ∧
      c.state.dataLocks.onMutex l (·.lock i m) = some c'.state.dataLocks) ∨
    (∃ i l m, e = .act i (.unlock m l) () ∧
      c.state.dataLocks.onMutex l (·.unlock i m) = some c'.state.dataLocks) ∨
    (∃ i l, e = .act i (.upgradeToExclusive l) () ∧
      c.state.dataLocks.onMutex l (·.upgradeToExclusive i) = some c'.state.dataLocks) := by
  cases h with
  | start req => exact Or.inl ⟨⟨rfl, rfl, rfl⟩, by simp⟩
  | act i req o k r s' hi hs =>
    have hnext : c.Next i o := ⟨req, k, hi⟩
    cases o with
    | getLockPtr b =>
      obtain ⟨t, ht, rfl⟩ : ∃ t, c.state.dataLocks.get i b = (r, t) ∧
          s' = { c.state with dataLocks := t } := by
        obtain ⟨rfl, rfl⟩ := Prod.mk.inj (Option.some.inj hs)
        exact ⟨_, rfl, rfl⟩
      rcases LockTable.get_cases ht with ⟨htab, -, rfl⟩ | ⟨hnone, hmake⟩
      · refine Or.inl ⟨⟨rfl, rfl, rfl⟩, fun i' b' l' heq => ?_⟩
        cases heq
        exact htab
      · obtain ⟨rfl, rfl⟩ := Prod.mk.inj hmake
        exact Or.inr (Or.inl ⟨i, b, rfl, hnone, rfl⟩)
    | eraseLock b =>
      obtain ⟨rfl, rfl⟩ := Prod.mk.inj (Option.some.inj hs)
      exact Or.inr (Or.inr (Or.inl ⟨i, b, rfl, hnext, rfl⟩))
    | lock m l =>
      obtain ⟨t, ht, heq⟩ := Option.map_eq_some_iff.mp hs
      obtain ⟨-, rfl⟩ := Prod.mk.inj heq
      exact Or.inr (Or.inr (Or.inr (Or.inl ⟨i, l, m, rfl, hnext, ht⟩)))
    | unlock m l =>
      obtain ⟨t, ht, heq⟩ := Option.map_eq_some_iff.mp hs
      obtain ⟨-, rfl⟩ := Prod.mk.inj heq
      exact Or.inr (Or.inr (Or.inr (Or.inr (Or.inl ⟨i, l, m, rfl, ht⟩))))
    | upgradeToExclusive l =>
      obtain ⟨t, ht, heq⟩ := Option.map_eq_some_iff.mp hs
      obtain ⟨-, rfl⟩ := Prod.mk.inj heq
      exact Or.inr (Or.inr (Or.inr (Or.inr (Or.inr ⟨i, l, rfl, ht⟩))))
    | popFrontOr block =>
      refine Or.inl ⟨?_, by simp⟩
      rw [step] at hs
      cases hfree : c.state.freeDiskBlocks <;> rw [hfree] at hs <;>
        obtain ⟨rfl, rfl⟩ := Prod.mk.inj (Option.some.inj hs) <;> exact ⟨rfl, rfl, rfl⟩
    | _ =>
      obtain ⟨rfl, rfl⟩ := Prod.mk.inj (Option.some.inj hs)
      exact Or.inl ⟨⟨rfl, rfl, rfl⟩, by simp⟩

/-! ### One lock object for each block -/

/-- A lock object stays with the block for which a request has got it: it is never found under
another block, and while the request owns it, it is found under this one, unless the request has
erased it. -/
structure Keyed (tr : List ServerLabel) (c : ServerPool) : Prop where
  lt : ∀ i b l, .act i (.getLockPtr b) l ∈ tr → l < c.state.dataLocks.next
  table : ∀ i b l, .act i (.getLockPtr b) l ∈ tr →
    ∀ b', c.state.dataLocks.table b' = some l → b' = b
  owned : ∀ i b l m, .act i (.getLockPtr b) l ∈ tr → c.Owns i l m →
    c.state.dataLocks.table b = some l ∨ .act i (.eraseLock b) () ∈ tr

theorem keyed_nil (c : ServerPool) : Keyed [] c :=
  ⟨by simp, by simp, by simp⟩

/-- A request waits for the lock object that is found under the block. -/
theorem Keyed.table_of_waits (h : Keyed tr c) (hs : ServerSound a₀ c η gs)
    (hgot : .act i (.getLockPtr b) l ∈ tr) (hi : c.Next i (.lock m l)) :
    c.state.dataLocks.table b = some l := by
  obtain ⟨-, ⟨k, huse, -⟩, -⟩ := hs.adm hi
  have htab := ((hs.locks.thread i).uses_table k l huse).1
  rwa [h.table i b l hgot k htab] at htab

/-- An operation on a lock keeps it with its block if it makes nobody an owner but requests that
find it there. -/
theorem Keyed.onMutex (h : Keyed tr c) {e : ServerLabel}
    (hget : ∀ i b l, e ≠ .act i (.getLockPtr b) l) {f : SharedMutex → Option SharedMutex}
    (ht : c.state.dataLocks.onMutex l f = some c'.state.dataLocks)
    (hown : ∀ i b m mx, f (c.state.dataLocks.mutexes l) = some mx → mx.Owns i m →
      (∃ m', c.Owns i l m') ∨
        (.act i (.getLockPtr b) l ∈ tr → c.state.dataLocks.table b = some l)) :
    Keyed (tr ++ [e]) c' := by
  obtain ⟨mx, hmx, ht'⟩ := Option.map_eq_some_iff.mp ht
  have hold {i : ℕ} {b : BlockNo} {l : LockId} (hmem : .act i (.getLockPtr b) l ∈ tr ++ [e]) :
      .act i (.getLockPtr b) l ∈ tr := by
    rcases List.mem_append.mp hmem with hmem | hmem
    · exact hmem
    · exact absurd (List.mem_singleton.mp hmem).symm (hget i b l)
  refine ⟨fun i b l' hl' => ?_, fun i b l' hl' b' htab => ?_, fun i b l' m hl' ho => ?_⟩
  · rw [← ht']
    exact h.lt i b l' (hold hl')
  · rw [← ht'] at htab
    exact h.table i b l' (hold hl') b' htab
  · rw [← ht']
    refine Or.imp_right (List.mem_append_left _) ?_
    rw [ServerPool.Owns, ← ht'] at ho
    change (update c.state.dataLocks.mutexes l mx l').Owns i m at ho
    by_cases hll : l' = l
    · subst hll
      rw [update_self] at ho
      rcases hown i b m mx hmx ho with ⟨m', hm'⟩ | htab
      · exact h.owned i b l' m' (hold hl') hm'
      · exact Or.inl (htab (hold hl'))
    · rw [update_of_ne hll] at ho
      exact h.owned i b l' m (hold hl') ho

/-- A new lock object is made only for a block whose lock object nobody has. -/
theorem Keyed.make (h : Keyed tr c) (hs : ServerSound a₀ c η gs)
    (hnone : ∀ l, c.state.dataLocks.table b = some l → c.state.dataLocks.refs l = [])
    (ht : c'.state.dataLocks = (c.state.dataLocks.make i b).2) :
    Keyed (tr ++ [.act i (.getLockPtr b) c.state.dataLocks.next]) c' := by
  have hmem {j : ℕ} {b' : BlockNo} {l' : LockId}
      (hl : .act j (.getLockPtr b') l' ∈ tr ++ [.act i (.getLockPtr b) c.state.dataLocks.next]) :
      .act j (.getLockPtr b') l' ∈ tr ∨ (j = i ∧ b' = b ∧ l' = c.state.dataLocks.next) := by
    rcases List.mem_append.mp hl with hl | hl
    · exact Or.inl hl
    · cases List.mem_singleton.mp hl
      exact Or.inr ⟨rfl, rfl, rfl⟩
  refine ⟨fun j b' l' hl => ?_, fun j b' l' hl k htab => ?_, fun j b' l' m hl ho => ?_⟩
  · rw [ht]
    rcases hmem hl with hl | ⟨-, -, rfl⟩
    · exact Nat.lt_succ_of_lt (h.lt j b' l' hl)
    · exact Nat.lt_succ_self _
  · rw [ht] at htab
    change update c.state.dataLocks.table b (some c.state.dataLocks.next) k = some l' at htab
    by_cases hk : k = b
    · rw [hk, update_self, Option.some.injEq] at htab
      rcases hmem hl with hl | ⟨-, rfl, -⟩
      · exact absurd (h.lt j b' l' hl) (by rw [htab]; exact lt_irrefl _)
      · exact hk
    · rw [update_of_ne hk] at htab
      rcases hmem hl with hl | ⟨-, rfl, rfl⟩
      · exact h.table j b' l' hl k htab
      · exact absurd (hs.locks.table_lt k _ htab) (lt_irrefl _)
  · rw [ht]
    change update c.state.dataLocks.table b (some c.state.dataLocks.next) b' = some l' ∨ _
    rw [ServerPool.Owns, ht] at ho
    change (update c.state.dataLocks.mutexes c.state.dataLocks.next .unowned l').Owns j m at ho
    rcases hmem hl with hl | ⟨rfl, rfl, rfl⟩
    · rw [update_of_ne (h.lt j b' l' hl).ne] at ho
      refine Or.imp (fun htab => ?_) (List.mem_append_left _) (h.owned j b' l' m hl ho)
      -- the owner has a pointer to its lock object, so no new one is made for its block
      have hptr := (hs.locks.thread j).owned_ptr l' m (hs.owns_iff.mp ho)
      have hne : b' ≠ b := by
        rintro rfl
        exact (hs.locks.thread j).refs_ne_nil hptr (hnone l' htab)
      rwa [update_of_ne hne]
    · exact Or.inl (update_self ..)

/-- A lock object is erased by the request that owns it alone. -/
theorem Keyed.erase (h : Keyed tr c) (hs : ServerSound a₀ c η gs) (hi : c.Next i (.eraseLock b))
    (ht : c'.state.dataLocks = c.state.dataLocks.erase b) :
    Keyed (tr ++ [.act i (.eraseLock b) ()]) c' := by
  have hmem {j : ℕ} {b' : BlockNo} {l' : LockId}
      (hl : .act j (.getLockPtr b') l' ∈ tr ++ [.act i (.eraseLock b) ()]) :
      .act j (.getLockPtr b') l' ∈ tr := by simpa using hl
  refine ⟨fun j b' l' hl => ?_, fun j b' l' hl k htab => ?_, fun j b' l' m hl ho => ?_⟩
  · rw [ht]
    exact h.lt j b' l' (hmem hl)
  · rw [ht] at htab
    change update c.state.dataLocks.table b none k = some l' at htab
    by_cases hk : k = b
    · simp [hk] at htab
    · rw [update_of_ne hk] at htab
      exact h.table j b' l' (hmem hl) k htab
  · rw [ht]
    change update c.state.dataLocks.table b none b' = some l' ∨ _
    rw [ServerPool.Owns, ht] at ho
    rcases h.owned j b' l' m (hmem hl) ho with htab | herased
    · by_cases hb : b' = b
      · subst hb
        obtain ⟨l₁, huse, hex⟩ := hs.adm hi
        have htab₁ := ((hs.locks.thread i).uses_table b' l₁ huse).1
        obtain rfl := Option.some.inj (htab₁.symm.trans htab)
        obtain ⟨rfl, -⟩ := (hs.locks.valid l₁).eq_of_exclusive (hs.owns_iff.mpr hex) ho
        exact Or.inr (List.mem_append_right _ (List.mem_singleton_self _))
      · exact Or.inl (by rwa [update_of_ne hb])
    · exact Or.inr (List.mem_append_left _ herased)

/-- Every step keeps lock objects with their blocks. -/
theorem Keyed.step (h : Keyed tr c) (hs : ServerSound a₀ c η gs) {e : ServerLabel}
    (hstep : ServerStep c e c') : Keyed (tr ++ [e]) c' := by
  rcases hstep.locks_cases with ⟨⟨htab, hmx, hnext⟩, hget⟩ | ⟨i, b, rfl, hnone, ht⟩ |
    ⟨i, b, rfl, hi, ht⟩ | ⟨i, l, m, rfl, hi, ht⟩ | ⟨i, l, m, rfl, ht⟩ | ⟨i, l, rfl, ht⟩
  · have hmem {j : ℕ} {b' : BlockNo} {l' : LockId}
        (hl : .act j (.getLockPtr b') l' ∈ tr ++ [e]) : .act j (.getLockPtr b') l' ∈ tr ∨
          c.state.dataLocks.table b' = some l' := by
      rcases List.mem_append.mp hl with hl | hl
      · exact Or.inl hl
      · exact Or.inr (hget j b' l' (List.mem_singleton.mp hl).symm)
    refine ⟨fun j b' l' hl => ?_, fun j b' l' hl k hk => ?_, fun j b' l' m hl ho => ?_⟩
    · rw [hnext]
      exact (hmem hl).elim (h.lt j b' l') (hs.locks.table_lt b' l')
    · rw [htab] at hk
      exact (hmem hl).elim (fun hl => h.table j b' l' hl k hk) (hs.locks.inj k b' l' hk)
    · rw [ServerPool.Owns, hmx] at ho
      rw [htab]
      refine Or.imp_right (List.mem_append_left _) ?_
      exact (hmem hl).elim (fun hl => h.owned j b' l' m hl ho) Or.inl
  · exact h.make hs hnone ht
  · exact h.erase hs hi ht
  · refine h.onMutex (by simp) ht fun j b' m' mx hmx ho => ?_
    rcases (SharedMutex.owns_lock hmx).mp ho with ho | ⟨rfl, -⟩
    · exact Or.inl ⟨m', ho⟩
    · exact Or.inr fun hgot => h.table_of_waits hs hgot hi
  · refine h.onMutex (by simp) ht fun j b' m' mx hmx ho => ?_
    exact Or.inl ⟨m', ((SharedMutex.owns_unlock (hs.locks.valid l) hmx).mp ho).1⟩
  · refine h.onMutex (by simp) ht fun j b' m' mx hmx ho => ?_
    obtain ⟨rfl, -⟩ := (SharedMutex.owns_upgradeToExclusive hmx).mp ho
    exact Or.inl ⟨.upgrade, SharedMutex.upgrade_of_upgradeToExclusive hmx⟩

/-- Lock objects stay with their blocks along every run. -/
theorem Quiet.keyed (h : Quiet s) (hrun : ServerRun ⟨s, []⟩ tr c) : Keyed tr c := by
  generalize hc₀ : (⟨s, []⟩ : ServerPool) = c₀ at hrun
  induction hrun with
  | nil => exact keyed_nil _
  | snoc hrun hstep ih =>
    subst hc₀
    obtain ⟨η, gs, -, hsound⟩ := h.run hrun
    exact ih.step hsound hstep

/-- A request that uses a lock object as the lock of a block finds it under the block. -/
theorem UsesLock.table (h : UsesLock tr c i b l) (hkeyed : Keyed tr c)
    (hs : ServerSound a₀ c η gs) : c.state.dataLocks.table b = some l := by
  have howns (m : LockMode) (ho : c.Owns i l m) : c.state.dataLocks.table b = some l :=
    (hkeyed.owned i b l m h.got ho).resolve_right h.not_erased
  rcases h.owns_or_waits with ⟨m, ho⟩ | ⟨m, hi⟩ | hi
  · exact howns m ho
  · exact hkeyed.table_of_waits hs h.got hi
  · have hadm : (gs i).claims.owned = [(l, .upgrade)] := hs.adm hi
    refine howns .upgrade (hs.owns_iff.mpr ?_)
    rw [hadm]
    exact List.mem_singleton_self _

/-- Whenever two requests own or wait for locks of the same inode block, and neither has erased the
block from `data_locks`, they use the same lock object, and the modes in which they own it are
compatible: not both upgrade or exclusive, and not one exclusive and the other shared. -/
theorem serverRun_lock_unique (d : Disk) (hwf : WellFormed d) (garbage : ℕ → FsInode)
    (free : List BlockNo) (hinit : fsInit d = some free) (tr : List ServerLabel) (c : ServerPool)
    (hrun : ServerRun ⟨boot d free garbage, []⟩ tr c) (i j : ℕ) (b : BlockNo) (l l' : LockId)
    (hi : UsesLock tr c i b l) (hj : UsesLock tr c j b l') :
    l = l' ∧ (i ≠ j → ∀ m m', c.Owns i l m → c.Owns j l' m' → SharedMutex.Compatible m m') := by
  have hquiet := quiet_boot hwf hinit garbage
  obtain ⟨η, gs, -, hsound⟩ := hquiet.run hrun
  have hkeyed := hquiet.keyed hrun
  obtain rfl := Option.some.inj ((hi.table hkeyed hsound).symm.trans (hj.table hkeyed hsound))
  exact ⟨rfl, fun hij m m' hm hm' => (hsound.locks.valid l).compatible hm hm' hij⟩

/-- The request to read the first block of `/a` for the user `u`. -/
def readRequest : Request :=
  .readblock ⟨ascii "u", [ascii "a"], 0⟩

theorem accepted_readRequest : Accepted readRequest :=
  ⟨ascii "FS_READBLOCK u /a 0", readRequest, Vector.replicate 512 0, by decide, rfl⟩

theorem executeRequest_readRequest :
    ∃ k : LockId → Unit → FsProg Response, executeRequest readRequest =
      .op (.getLockPtr 0) fun l => .op (.lock .shared l) (k l) :=
  ⟨_, rfl⟩

theorem serverRun_lock_unique_emptyDisk :
    ∃ (free : List BlockNo) (tr : List ServerLabel) (c : ServerPool) (l l' : LockId),
      ServerRun ⟨boot emptyDisk free fun _ => inodeAt emptyDisk 0, []⟩ tr c ∧
      UsesLock tr c 0 0 l ∧ UsesLock tr c 1 0 l' ∧ l = l' := by
  obtain ⟨free, hinit, -, -⟩ := exists_fsInit wellFormed_emptyDisk
  obtain ⟨k, hk⟩ := executeRequest_readRequest
  let req : {req : Request // Accepted req} := ⟨readRequest, accepted_readRequest⟩
  let s₀ : State := boot emptyDisk free fun _ => inodeAt emptyDisk 0
  let s₁ : State := (getLockPtr 0 0 s₀).2
  let s₂ : State := (getLockPtr 1 0 s₁).2
  let rest : LockId → FsProg Response := fun l => .op (.lock .shared l) (k l)
  let c₂ : ServerPool := ⟨s₀, [(req, .op (.getLockPtr 0) rest), (req, .op (.getLockPtr 0) rest)]⟩
  let c₃ : ServerPool := ⟨s₁, [(req, rest 0), (req, .op (.getLockPtr 0) rest)]⟩
  let c₄ : ServerPool := ⟨s₂, [(req, rest 0), (req, rest 0)]⟩
  let tr : List ServerLabel :=
    [.start 0 req, .start 1 req, .act 0 (.getLockPtr 0) 0, .act 1 (.getLockPtr 0) 0]
  have hrun : ServerRun ⟨s₀, []⟩ tr c₄ := by
    have h₁ : ServerRun ⟨s₀, []⟩ [.start 0 req] ⟨s₀, [(req, executeRequest readRequest)]⟩ :=
      .snoc (.nil _) (.start _ _)
    have h₂ : ServerRun ⟨s₀, []⟩ [.start 0 req, .start 1 req]
        ⟨s₀, [(req, executeRequest readRequest), (req, executeRequest readRequest)]⟩ :=
      .snoc h₁ (.start _ _)
    rw [hk] at h₂
    have h₃ : ServerStep c₂ (.act 0 (.getLockPtr 0) 0) c₃ :=
      Pool.Step.act c₂ 0 req (Op.getLockPtr 0) rest 0 s₁ rfl rfl
    have h₄ : ServerStep c₃ (.act 1 (.getLockPtr 0) 0) c₄ :=
      Pool.Step.act c₃ 1 req (Op.getLockPtr 0) rest 0 s₂ rfl rfl
    exact .snoc (.snoc h₂ h₃) h₄
  have hfirst : UsesLock tr c₄ 0 0 0 :=
    ⟨by simp [tr], Or.inr (Or.inl ⟨.shared, req, k 0, rfl⟩), by simp [tr]⟩
  have hsecond : UsesLock tr c₄ 1 0 0 :=
    ⟨by simp [tr], Or.inr (Or.inl ⟨.shared, req, k 0, rfl⟩), by simp [tr]⟩
  exact ⟨free, tr, c₄, 0, 0, hrun, hfirst, hsecond, (serverRun_lock_unique emptyDisk
    wellFormed_emptyDisk _ free hinit tr c₄ hrun 0 1 0 0 0 hfirst hsecond).1⟩

/-! ### Progress -/

/-- The next step of the request is to acquire the lock of the inode at the end of a path of length
`n`. -/
def WaitsAt (c : ServerPool) (i n : ℕ) : Prop :=
  ∃ m l b p, c.Next i (.lock m l) ∧ c.state.dataLocks.table b = some l ∧
    resolvePath c.state.disk p = some b ∧ p.length = n

/-- A request waits at one depth only. -/
theorem WaitsAt.unique (hs : ServerSound a₀ c η gs) {n n' : ℕ} (h : WaitsAt c i n)
    (h' : WaitsAt c i n') : n = n' := by
  have hinv : Inv a₀ c.state η gs := hs.inv
  obtain ⟨m, l, b, p, ⟨req, k, hi⟩, htab, hp, rfl⟩ := h
  obtain ⟨m', l', b', p', ⟨req', k', hi'⟩, htab', hp', rfl⟩ := h'
  obtain ⟨-, hop⟩ := Prod.mk.inj (Option.some.inj (hi.symm.trans hi'))
  obtain ⟨ho, -⟩ := Prog.op.inj hop
  obtain ⟨-, rfl⟩ := Op.lock.inj ho
  obtain rfl := hs.locks.inj b b' l htab htab'
  rw [hinv.wf.isTree.walk_inj hp hp']

end OsFromScratch.FileServer
