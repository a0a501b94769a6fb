import OsFromScratch.FileServer.Locking

/-!
# Requests that fail

A request that is executed alone and returns no value leaves the disk and the free list, with its
order, as they were, and `FS_READBLOCK` always does. Nothing is written before a request has
passed its last test. Blocks are taken before, and every later exit gives them back where they were
taken from; the number of blocks that are still to be given back is carried along the program.

## Main definitions

* `Unchanged` — two states with the same disk and the same free list.
* `GivesBack` — a program that, if it fails, gives back the blocks that have been taken.

## Main results

* `GivesBack.popFront`, `GivesBack.popFrontOr`, `GivesBack.pushFront` — taking and giving back.
* `givesBack_executeRequest` — a failing request changes nothing.
* `serverRun_failed_unchanged` — this in every state that the server can reach.
-/

namespace OsFromScratch.FileServer

open Function Prog

/-- The disk and the free list, with its order, are the same. -/
structure Unchanged (s s' : State) : Prop where
  disk : s'.disk = s.disk
  free : s'.freeDiskBlocks = s.freeDiskBlocks

/-- If the program fails, the disk is as before and the blocks `taken` are again at the front of the
free list. -/
def GivesBack (i : ℕ) (taken : List BlockNo) (p : FsProg Response) : Prop :=
  ∀ s s', p.run step i s = .done none s' →
    s'.disk = s.disk ∧ s'.freeDiskBlocks = taken ++ s.freeDiskBlocks

variable {i : ℕ} {α : Type} {taken : List BlockNo} {p : FsProg Response} {s s' : State}

/-! ### Programs that only read -/

theorem Op.Reads.unchanged {o : Op} (ho : o.Reads) {r : o.Res}
    (h : step i o s = some (r, s')) : Unchanged s s' := by
  have hmutex {ptr : LockId} {f : SharedMutex → Option SharedMutex} {u : Unit}
      (h : onMutex ptr f s = some (u, s')) : Unchanged s s' := by
    obtain ⟨locks, -, heq⟩ := Option.map_eq_some_iff.mp h
    obtain ⟨-, rfl⟩ := Prod.mk.inj heq
    exact ⟨rfl, rfl⟩
  cases o with
  | diskWriteblock block buf => exact ho.elim
  | freeEmpty => exact ho.elim
  | popFront => exact ho.elim
  | popFrontOr block => exact ho.elim
  | pushFront block => exact ho.elim
  | pushBack blocks => exact ho.elim
  | lock mode ptr => exact hmutex h
  | unlock mode ptr => exact hmutex h
  | upgradeToExclusive ptr => exact hmutex h
  | _ =>
    obtain ⟨-, rfl⟩ := Prod.mk.inj (Option.some.inj h)
    exact ⟨rfl, rfl⟩

/-- A program that only reads changes neither the disk nor the free list. -/
theorem unchanged_of_only {p : FsProg α} {a : α} (hp : p.Only Op.Reads)
    (h : p.run step i s = .done a s') : Unchanged s s' := by
  refine hp.run (I := Unchanged s) (fun o s₁ r s₂ ho hs hI => ?_) ⟨rfl, rfl⟩ h
  have h₁₂ := ho.unchanged hs
  exact ⟨h₁₂.disk.trans hI.disk, h₁₂.free.trans hI.free⟩

namespace GivesBack

theorem of_only (hp : p.Only Op.Reads) : GivesBack i [] p := fun _ _ h =>
  ⟨(unchanged_of_only hp h).disk, (unchanged_of_only hp h).free⟩

/-- A program that cannot fail has nothing to give back. -/
theorem of_ends (hp : p.Ends (· ≠ none)) : GivesBack i taken p := fun _ _ h =>
  absurd rfl (hp.run h)

/-- Reading does not change what has to be given back. -/
theorem bind {q : FsProg α} {f : α → FsProg Response} (hq : q.Only Op.Reads)
    (hf : ∀ a, GivesBack i taken (f a)) : GivesBack i taken (q >>= f) := by
  intro s s' h
  obtain ⟨a, s₁, h₁, h₂⟩ := run_bind_eq_done.mp h
  have hsame := unchanged_of_only hq h₁
  obtain ⟨hdisk, hfree⟩ := hf a s₁ s' h₂
  exact ⟨hdisk.trans hsame.disk, by rw [hfree, hsame.free]⟩

/-! ### Taking and giving back blocks -/

theorem freeEmpty {f : Bool → FsProg Response} (hf : ∀ b, GivesBack i taken (f b)) :
    GivesBack i taken (atomically .freeEmpty >>= f) := by
  intro s s' h
  obtain ⟨r, s₁, hs, h⟩ := run_op_eq_done.mp h
  obtain ⟨rfl, rfl⟩ := Prod.mk.inj (Option.some.inj hs)
  exact hf _ _ _ h

/-- A block that has been taken has to be given back. -/
theorem popFront {f : Option BlockNo → FsProg Response} (hnone : GivesBack i [] (f none))
    (hsome : ∀ b, GivesBack i [b] (f (some b))) :
    GivesBack i [] (atomically .popFront >>= f) := by
  intro s s' h
  obtain ⟨r, s₁, hs, h⟩ := run_op_eq_done.mp h
  obtain ⟨rfl, rfl⟩ := Prod.mk.inj (Option.some.inj hs)
  cases hfree : s.freeDiskBlocks with
  | nil =>
    rw [hfree] at h
    exact hnone _ _ h
  | cons b bs =>
    rw [hfree] at h
    exact hsome b _ _ h

/-- When there is no second block, the first one is given back. -/
theorem popFrontOr {b : BlockNo} {f : Option BlockNo → FsProg Response}
    (hnone : GivesBack i [] (f none)) (hsome : ∀ b', GivesBack i [b, b'] (f (some b'))) :
    GivesBack i [b] (atomically (.popFrontOr b) >>= f) := by
  intro s s' h
  obtain ⟨r, s₁, hs, h⟩ := run_op_eq_done.mp h
  rw [step] at hs
  cases hfree : s.freeDiskBlocks with
  | nil =>
    rw [hfree] at hs
    obtain ⟨rfl, rfl⟩ := Prod.mk.inj (Option.some.inj hs)
    exact hnone _ _ h
  | cons b' bs =>
    rw [hfree] at hs
    obtain ⟨rfl, rfl⟩ := Prod.mk.inj (Option.some.inj hs)
    exact hsome b' _ _ h

theorem pushFront {b : BlockNo} {f : Unit → FsProg Response} (hf : GivesBack i [] (f ())) :
    GivesBack i [b] (atomically (.pushFront b) >>= f) := by
  intro s s' h
  obtain ⟨r, s₁, hs, h⟩ := run_op_eq_done.mp h
  obtain ⟨rfl, rfl⟩ := Prod.mk.inj (Option.some.inj hs)
  exact hf _ _ h

end GivesBack

/-! ### The requests -/

theorem givesBack_fail (mode : LockMode) (ptr : LockId) :
    GivesBack i [] (do release mode ptr; .ret none) :=
  .of_only (only_fail mode ptr)

theorem ends_finish (mode : LockMode) (ptr : LockId) (out : Option Block) :
    (do release mode ptr; .ret (some out) : FsProg Response).Ends (· ≠ none) :=
  .bind (fun _ => ends_ret.mpr (by simp)) _

theorem givesBack_executeWriteblock (req : FsWriteblock) :
    GivesBack i [] (executeWriteblock req) := by
  rw [executeWriteblock]
  split_ifs
  · exact .of_only trivial
  · exact .of_only trivial
  · refine .bind (only_traverseFs _ _ _) fun found => ?_
    split
    · exact .of_only trivial
    · split_ifs
      · exact givesBack_fail _ _
      · refine .of_ends (.bind (fun _ => .bind (fun _ =>
          .bind (fun _ => .bind (fun _ => ?_) _) _) _) _)
        exact ends_finish _ _ _
      · refine .popFront (givesBack_fail _ _) fun b =>
          .of_ends (.bind (fun _ => .bind (fun _ => ?_) _) _)
        exact .bind (fun _ => .bind (fun _ => .bind (fun _ => ends_finish _ _ _) _) _) _
      · exact givesBack_fail _ _

theorem ends_createInSlot (info : InodeLockInfo) (filename : Bytes) (newInodeBlock : BlockNo)
    (newInode : FsInode) (spot : DirSlot) :
    (createInSlot info filename newInodeBlock newInode spot).Ends (· ≠ none) := by
  refine .bind (fun _ => ?_) _
  exact .bind (fun _ => .bind (fun _ => .bind (fun _ => ends_finish _ _ _) _) _) _

/-- A new inode block has been taken; if there is no room for the entry, it is given back. -/
theorem givesBack_createInNewBlock (info : InodeLockInfo) (filename : Bytes)
    (newInodeBlock : BlockNo) (newInode : FsInode) :
    GivesBack i [newInodeBlock] (createInNewBlock info filename newInodeBlock newInode) := by
  rw [createInNewBlock]
  split_ifs
  · exact .pushFront (givesBack_fail _ _)
  · refine .popFrontOr (givesBack_fail _ _) fun b' => .of_ends (.bind (fun _ => ?_) _)
    refine .bind (fun _ => .bind (fun _ => .bind (fun _ => ?_) _) _) _
    exact .bind (fun _ => .bind (fun _ => ends_finish _ _ _) _) _

theorem givesBack_executeCreate (req : FsCreate) : GivesBack i [] (executeCreate req) := by
  rw [executeCreate]
  split
  · exact .of_only trivial
  · refine .freeEmpty fun empty => ?_
    split_ifs
    · exact .of_only trivial
    · refine .bind (only_traverseFs _ _ _) fun found => ?_
      split
      · exact .of_only trivial
      · split_ifs
        · exact givesBack_fail _ _
        · refine .bind (only_scanDir _ _ _ _ _) fun scanned => ?_
          split
          · exact givesBack_fail _ _
          · refine .popFront (givesBack_fail _ _) fun b => ?_
            refine .bind (only_perform trivial) fun garbage => ?_
            refine .bind (only_copyString _ _) fun owner => ?_
            dsimp only
            split
            · exact givesBack_createInNewBlock _ _ _ _
            · exact .of_ends (ends_createInSlot _ _ _ _ _)

theorem ends_freeTarget (parentPtr targetPtr : LockId) (target : BlockNo) (targetInode : FsInode) :
    (freeTarget parentPtr targetPtr target targetInode).Ends (· ≠ none) := by
  refine .bind (fun _ => .bind (fun _ => .bind (fun _ => .bind (fun _ => ?_) _) _) _) _
  exact .bind (fun _ => .bind (fun _ => .bind (fun _ => ends_ret.mpr (by simp)) _) _) _

theorem givesBack_deleteEntry (username : Bytes) (parent : InodeLockInfo) (entry : DirSlot) :
    GivesBack i [] (deleteEntry username parent entry) := by
  refine .bind (only_perform trivial) fun targetPtr => .bind (only_perform trivial) fun _ =>
    .bind (only_perform trivial) fun _ => .bind (only_diskReadblock _) fun buf => ?_
  dsimp only
  split_ifs
  · refine .bind (only_perform trivial) fun _ => .bind (only_perform trivial) fun _ => ?_
    exact .bind (only_dropPtrs _) fun _ => .of_only trivial
  · exact .of_ends (.bind (fun _ => .bind (fun _ =>
      .bind (fun _ => ends_freeTarget _ _ _ _) _) _) _)
  · exact .of_ends (.bind (fun _ => ends_freeTarget _ _ _ _) _)

theorem givesBack_executeDelete (req : FsDelete) : GivesBack i [] (executeDelete req) := by
  rw [executeDelete]
  split
  · exact .of_only trivial
  · refine .bind (only_perform trivial) fun size => ?_
    split_ifs
    · exact .of_only trivial
    · refine .bind (only_traverseFs _ _ _) fun found => ?_
      split
      · exact .of_only trivial
      · split_ifs
        · exact givesBack_fail _ _
        · refine .bind (only_searchDir _ _ _ _) fun entry => ?_
          split
          · exact givesBack_fail _ _
          · exact givesBack_deleteEntry _ _ _

/-- A failing request changes nothing. -/
theorem givesBack_executeRequest (req : Request) : GivesBack i [] (executeRequest req) := by
  cases req with
  | readblock r => exact .of_only (only_executeReadblock r)
  | writeblock r => exact givesBack_executeWriteblock r
  | create r => exact givesBack_executeCreate r
  | delete r => exact givesBack_executeDelete r

/-- In every state that the server can reach, a request that is executed alone and returns no value
leaves the disk and the free list, with its order, unchanged, and so does every `FS_READBLOCK`. When
no other request is in flight, the request returns. -/
theorem serverRun_failed_unchanged (d : Disk) (hwf : WellFormed d) (garbage : ℕ → FsInode)
    (free : List BlockNo) (hinit : fsInit d = some free) (tr : List ServerLabel) (c : ServerPool)
    (hrun : ServerRun ⟨boot d free garbage, []⟩ tr c) (req : Request) (hreq : Accepted req)
    (i : ℕ) :
    (∀ s', (executeRequest req).run step i c.state = .done none s' → Unchanged c.state s') ∧
      (∀ r resp s', req = .readblock r →
        (executeRequest req).run step i c.state = .done resp s' → Unchanged c.state s') ∧
      (c.Returned → ∃ resp s', (executeRequest req).run step i c.state = .done resp s') := by
  refine ⟨fun s' h => ?_, ?_, fun hret => ?_⟩
  · obtain ⟨hdisk, hfree⟩ := givesBack_executeRequest req c.state s' h
    exact ⟨hdisk, hfree⟩
  · rintro r resp s' rfl h
    exact unchanged_of_only (only_executeReadblock r) h
  · obtain ⟨resp, s', h, -⟩ := (quiet_of_serverRun hwf hinit hrun hret).execute hreq i
    exact ⟨resp, s', h⟩

/-- Reading a file that does not exist. -/
theorem serverRun_failed_unchanged_emptyDisk :
    ∃ (free : List BlockNo) (s' : State), fsInit emptyDisk = some free ∧
      (executeRequest readRequest).run step 0
        (boot emptyDisk free fun _ => inodeAt emptyDisk 0) = .done none s' ∧
      Unchanged (boot emptyDisk free fun _ => inodeAt emptyDisk 0) s' := by
  obtain ⟨free, hinit, -, -⟩ := exists_fsInit wellFormed_emptyDisk
  obtain ⟨resp, s', h, -, happly⟩ := (quiet_boot wellFormed_emptyDisk hinit
    fun _ => inodeAt emptyDisk 0).execute accepted_readRequest 0
  have hno : ¬Succeeds (abs emptyDisk) readRequest := by
    rintro ⟨owner, contents, htree, -⟩
    obtain ⟨b, hb, -⟩ := abs_tree_eq_some.mp htree
    exact absurd (resolvePath_emptyDisk hb).1 (by decide)
  have hresp : ((abs emptyDisk).apply readRequest).2 = resp := congrArg Prod.snd happly
  rw [not_not.mp (mt (apply_ne_none_iff accepted_readRequest.fits).mp hno)] at hresp
  subst hresp
  refine ⟨free, s', hinit, h, ?_⟩
  exact (serverRun_failed_unchanged emptyDisk wellFormed_emptyDisk (fun _ => inodeAt emptyDisk 0)
    free hinit [] _ (.nil _) readRequest accepted_readRequest 0).1 s' h

end OsFromScratch.FileServer
