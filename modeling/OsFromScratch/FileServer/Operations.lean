import OsFromScratch.FileServer.Filesystem

/-!
# The operations of the file system code

Which atomic operations the programs perform, whatever the state is. Until it changes something, a
request only reads blocks that are on the disk and moves from lock to lock; every block that is read
or written is on the disk.

## Main definitions

* `Op.Reads` — operations that change neither the disk nor the free list.
* `Op.OnDisk` — operations that read and write only blocks that are on the disk.
* `Op.Takes` — operations that depend on there being a free block.

## Main results

* `only_traverseFs`, `only_executeReadblock` — the traversal and `FS_READBLOCK` only read.
* `only_executeDelete` — `FS_DELETE` does not take blocks from the free list.
* `only_executeRequest` — the blocks that a request reads and writes are on the disk.
-/

namespace OsFromScratch.FileServer

open Prog

/-- The operation changes neither the disk nor the free list, and a block that it reads is on the
disk. -/
def Op.Reads : Op → Prop
  | .diskReadblock block => block.toNat < fsDisksize
  | .diskWriteblock _ _ | .freeEmpty | .popFront | .popFrontOr _ | .pushFront _ |
    .pushBack _ => False
  | _ => True

/-- The block that the operation reads or writes is on the disk. -/
def Op.OnDisk : Op → Prop
  | .diskReadblock block => block.toNat < fsDisksize
  | .diskWriteblock block _ => block.toNat < fsDisksize
  | _ => True

/-- The result of the operation depends on whether there is a free block. -/
def Op.Takes : Op → Prop
  | .freeEmpty | .popFront | .popFrontOr _ => True
  | _ => False

theorem Op.Reads.onDisk {o : Op} (h : o.Reads) : o.OnDisk := by
  cases o with
  | diskReadblock block => exact h
  | diskWriteblock block buf => exact h.elim
  | _ => trivial

theorem Op.Reads.not_takes {o : Op} (h : o.Reads) : ¬o.Takes := by
  cases o with
  | freeEmpty => exact h.elim
  | popFront => exact h.elim
  | popFrontOr block => exact h.elim
  | _ => exact id

/-! ### Reading -/

theorem only_dropPtrs (ptrs : List LockId) : (dropPtrs ptrs).Only Op.Reads := by
  induction ptrs with
  | nil => trivial
  | cons ptr ptrs ih => exact (only_perform trivial).bind fun _ => ih

theorem only_release (mode : LockMode) (ptr : LockId) : (release mode ptr).Only Op.Reads :=
  (only_perform trivial).bind fun _ => only_perform trivial

theorem only_diskReadblock (b : BlockNo) : (diskReadblock b).Only Op.Reads := by
  rw [diskReadblock]
  split_ifs with h
  · exact only_perform h
  · trivial

theorem only_blockAt (inode : FsInode) (i : ℕ) : (blockAt inode i).Only Op.Reads := by
  rw [blockAt]
  split_ifs <;> trivial

theorem only_searchDir (inode : FsInode) (name : Bytes) (n i : ℕ) :
    (searchDir inode name n i).Only Op.Reads := by
  induction n generalizing i with
  | zero => trivial
  | succ n ih =>
    refine (only_blockAt _ _).bind fun block => (only_diskReadblock _).bind fun buf => ?_
    dsimp only
    split
    · trivial
    · exact ih (i + 1)

theorem only_scanDir (inode : FsInode) (name : Bytes) (n i : ℕ) (spot : Option DirSlot) :
    (scanDir inode name n i spot).Only Op.Reads := by
  induction n generalizing i spot with
  | zero => trivial
  | succ n ih =>
    refine (only_blockAt _ _).bind fun block => (only_diskReadblock _).bind fun buf => ?_
    dsimp only
    split
    · trivial
    · exact ih (i + 1) _

/-- The ways in which `traverse_fs` gives up. -/
theorem only_giveUp (mode : LockMode) (ptr : LockId) (ptrs : List LockId) :
    (do atomically (.unlock mode ptr); dropPtrs ptrs; .ret none :
      FsProg (Option InodeLockInfo)).Only Op.Reads :=
  (only_perform trivial).bind fun _ => (only_dropPtrs _).bind fun _ => trivial

theorem only_traverseLoop (T : LockMode) (owner : Bytes) (atRoot : Bool) (inode : FsInode)
    (block : BlockNo) (lockPtr : LockId) (ptrs : List LockId) (path : Path) :
    (traverseLoop T owner atRoot inode block lockPtr ptrs path).Only Op.Reads := by
  induction path generalizing atRoot inode block lockPtr ptrs with
  | nil =>
    rw [traverseLoop]
    split_ifs
    · exact only_giveUp ..
    · exact (only_dropPtrs _).bind fun _ => trivial
  | cons name rest ih =>
    rw [traverseLoop]
    split
    · exact only_giveUp ..
    · refine (only_searchDir _ _ _ _).bind fun found => ?_
      split
      · exact only_giveUp ..
      · exact (only_perform trivial).bind fun childPtr => (only_dropPtrs _).bind fun _ =>
          (only_perform trivial).bind fun _ => (only_perform trivial).bind fun _ =>
          (only_diskReadblock _).bind fun buf => ih ..

theorem only_traverseFs (T : LockMode) (path : Path) (owner : Bytes) :
    (traverseFs T path owner).Only Op.Reads := by
  refine (only_perform trivial).bind fun lockPtr => ?_
  split_ifs
  · exact (only_perform trivial).bind fun _ => (only_diskReadblock _).bind fun _ => trivial
  · exact (only_perform trivial).bind fun _ => (only_diskReadblock _).bind fun _ =>
      only_traverseLoop ..

/-- A request that fails after it has looked at an inode. -/
theorem only_fail (mode : LockMode) (ptr : LockId) :
    (do release mode ptr; .ret none : FsProg Response).Only Op.Reads :=
  (only_release _ _).bind fun _ => trivial

theorem only_executeReadblock (req : FsReadblock) : (executeReadblock req).Only Op.Reads := by
  rw [executeReadblock]
  split_ifs
  · trivial
  · trivial
  · refine (only_traverseFs _ _ _).bind fun found => ?_
    split
    · trivial
    · split_ifs
      · exact only_fail ..
      · exact only_fail ..
      · exact (only_blockAt _ _).bind fun _ => (only_diskReadblock _).bind fun _ =>
          (only_release _ _).bind fun _ => trivial

/-! ### Deleting -/

/-- An operation of `FS_DELETE`. -/
def Op.Deletes (o : Op) : Prop :=
  o.OnDisk ∧ ¬o.Takes

theorem Op.Reads.deletes {o : Op} (h : o.Reads) : o.Deletes :=
  ⟨h.onDisk, h.not_takes⟩

theorem only_withinBlocks (n : ℕ) {A : Op → Prop} : (withinBlocks n).Only A := by
  rw [withinBlocks]
  split_ifs <;> trivial

theorem only_deleteWriteblock (b : BlockNo) (buf : Block) :
    (diskWriteblock b buf).Only Op.Deletes := by
  rw [diskWriteblock]
  split_ifs with h
  · exact only_perform ⟨h, id⟩
  · trivial

theorem only_freeTarget (parentPtr targetPtr : LockId) (target : BlockNo) (targetInode : FsInode) :
    (freeTarget parentPtr targetPtr target targetInode).Only Op.Deletes :=
  (only_perform ⟨trivial, id⟩).bind fun _ => (only_perform ⟨trivial, id⟩).bind fun _ =>
    (only_perform ⟨trivial, id⟩).bind fun _ => (only_withinBlocks _).bind fun _ =>
    (only_perform ⟨trivial, id⟩).bind fun _ => (only_perform ⟨trivial, id⟩).bind fun _ =>
    ((only_dropPtrs _).mono fun _ => Op.Reads.deletes).bind fun _ => trivial

theorem only_deleteEntry (username : Bytes) (parent : InodeLockInfo) (entry : DirSlot) :
    (deleteEntry username parent entry).Only Op.Deletes := by
  refine (only_perform ⟨trivial, id⟩).bind fun targetPtr => (only_perform ⟨trivial, id⟩).bind
    fun _ => (only_perform ⟨trivial, id⟩).bind fun _ =>
    ((only_diskReadblock _).mono fun _ => Op.Reads.deletes).bind fun buf => ?_
  dsimp only
  split_ifs
  · exact (only_perform ⟨trivial, id⟩).bind fun _ => (only_perform ⟨trivial, id⟩).bind fun _ =>
      ((only_dropPtrs _).mono fun _ => Op.Reads.deletes).bind fun _ => trivial
  · exact (only_withinBlocks _).bind fun _ => (only_deleteWriteblock _ _).bind fun _ =>
      (only_perform ⟨trivial, id⟩).bind fun _ => only_freeTarget ..
  · exact (only_deleteWriteblock _ _).bind fun _ => only_freeTarget ..

theorem only_executeDelete (req : FsDelete) : (executeDelete req).Only Op.Deletes := by
  rw [executeDelete]
  split
  · trivial
  · refine (only_perform ⟨trivial, id⟩).bind fun size => ?_
    split_ifs
    · trivial
    · refine ((only_traverseFs _ _ _).mono fun _ => Op.Reads.deletes).bind fun found => ?_
      split
      · trivial
      · split_ifs
        · exact (only_fail _ _).mono fun _ => Op.Reads.deletes
        · refine ((only_searchDir _ _ _ _).mono fun _ => Op.Reads.deletes).bind fun entry => ?_
          split
          · exact (only_fail _ _).mono fun _ => Op.Reads.deletes
          · exact only_deleteEntry ..

/-! ### Writing and creating -/

theorem only_diskWriteblock (b : BlockNo) (buf : Block) :
    (diskWriteblock b buf).Only Op.OnDisk :=
  (only_deleteWriteblock b buf).mono fun _ => And.left

theorem only_setBlockAt (inode : FsInode) (i : ℕ) (b : BlockNo) {A : Op → Prop} :
    (setBlockAt inode i b).Only A := by
  rw [setBlockAt]
  split_ifs <;> trivial

theorem only_copyString {n : ℕ} (dst : Vector UInt8 n) (src : Bytes) {A : Op → Prop} :
    (copyString dst src).Only A := by
  rw [copyString]
  split_ifs <;> trivial

theorem only_derefData (data : Option Block) {A : Op → Prop} : (derefData data).Only A := by
  cases data <;> trivial

/-- A request that releases what it holds and returns. -/
theorem only_finish (mode : LockMode) (ptr : LockId) (r : Response) :
    (do release mode ptr; .ret r : FsProg Response).Only Op.OnDisk :=
  ((only_release _ _).mono fun _ => Op.Reads.onDisk).bind fun _ => trivial

theorem only_executeWriteblock (req : FsWriteblock) : (executeWriteblock req).Only Op.OnDisk := by
  rw [executeWriteblock]
  split_ifs
  · trivial
  · trivial
  · refine ((only_traverseFs _ _ _).mono fun _ => Op.Reads.onDisk).bind fun found => ?_
    split
    · trivial
    · split_ifs
      · exact only_finish ..
      · exact (only_perform trivial).bind fun _ =>
          ((only_blockAt _ _).mono fun _ => Op.Reads.onDisk).bind fun _ =>
          (only_derefData _).bind fun _ => (only_diskWriteblock _ _).bind fun _ => only_finish ..
      · refine (only_perform trivial).bind fun taken => ?_
        split
        · exact only_finish ..
        · exact (only_setBlockAt _ _ _).bind fun _ => (only_derefData _).bind fun _ =>
            (only_diskWriteblock _ _).bind fun _ => (only_perform trivial).bind fun _ =>
            (only_diskWriteblock _ _).bind fun _ => only_finish ..
      · exact only_finish ..

theorem only_createInNewBlock (info : InodeLockInfo) (filename : Bytes) (newInodeBlock : BlockNo)
    (newInode : FsInode) :
    (createInNewBlock info filename newInodeBlock newInode).Only Op.OnDisk := by
  rw [createInNewBlock]
  split_ifs
  · exact (only_perform trivial).bind fun _ => only_finish ..
  · refine (only_perform trivial).bind fun taken => ?_
    split
    · exact only_finish ..
    · exact (only_copyString _ _).bind fun _ => (only_diskWriteblock _ _).bind fun _ =>
        (only_diskWriteblock _ _).bind fun _ => (only_setBlockAt _ _ _).bind fun _ =>
        (only_perform trivial).bind fun _ => (only_diskWriteblock _ _).bind fun _ => only_finish ..

theorem only_createInSlot (info : InodeLockInfo) (filename : Bytes) (newInodeBlock : BlockNo)
    (newInode : FsInode) (spot : DirSlot) :
    (createInSlot info filename newInodeBlock newInode spot).Only Op.OnDisk :=
  (only_copyString _ _).bind fun _ => (only_diskWriteblock _ _).bind fun _ =>
    (only_perform trivial).bind fun _ => (only_diskWriteblock _ _).bind fun _ => only_finish ..

theorem only_executeCreate (req : FsCreate) : (executeCreate req).Only Op.OnDisk := by
  rw [executeCreate]
  split
  · trivial
  · refine (only_perform trivial).bind fun empty => ?_
    split_ifs
    · trivial
    · refine ((only_traverseFs _ _ _).mono fun _ => Op.Reads.onDisk).bind fun found => ?_
      split
      · trivial
      · split_ifs
        · exact only_finish ..
        · refine ((only_scanDir _ _ _ _ _).mono fun _ => Op.Reads.onDisk).bind fun scanned => ?_
          split
          · exact only_finish ..
          · refine (only_perform trivial).bind fun taken => ?_
            split
            · exact only_finish ..
            · refine (only_perform trivial).bind fun garbage => (only_copyString _ _).bind
                fun owner => ?_
              dsimp only
              split
              · exact only_createInNewBlock ..
              · exact only_createInSlot ..

/-- The blocks that a request reads and writes are on the disk. -/
theorem only_executeRequest (req : Request) : (executeRequest req).Only Op.OnDisk := by
  cases req with
  | readblock r => exact (only_executeReadblock r).mono fun _ => Op.Reads.onDisk
  | writeblock r => exact only_executeWriteblock r
  | create r => exact only_executeCreate r
  | delete r => exact (only_executeDelete r).mono fun _ => And.left

end OsFromScratch.FileServer
