import OsFromScratch.FileServer.Layout
import OsFromScratch.Lib.Atomic
import OsFromScratch.Lib.LockTable

/-!
# The state of the file server and its atomic steps

The server's threads share the disk, the list of free blocks, the map from inode blocks to lock
objects and the lock objects themselves. One step is one call of `disk_readblock` or
`disk_writeblock`, one section under `internal_lock_free_list` or `internal_lock_map`, one lock
operation, or the release of one shared pointer.

The map holds weak pointers: `get_lock_ptr` finds the lock object of a block only while some
thread holds a shared pointer to it, and makes a new one otherwise. An `fs_inode` that the code
declares without initialiser starts with the next value of `garbage`, which is arbitrary.

## Main definitions

* `State` — the shared state.
* `Op`, `Op.Res` — the atomic operations and their results.
* `step` — the effect of an operation of a thread.
-/

namespace OsFromScratch.FileServer

open Function

/-- The contents of all disk blocks. -/
abbrev Disk : Type := BlockNo → Block

/-- The shared state of the server. -/
structure State where
  disk : Disk
  /-- `free_disk_blocks` -/
  freeDiskBlocks : List BlockNo
  /-- `data_locks`, from blocks to weak pointers, with the lock objects. -/
  dataLocks : LockTable BlockNo
  /-- What the next uninitialised inodes hold. -/
  garbage : ℕ → FsInode

/-- The atomic operations. -/
inductive Op
  /-- `disk_readblock` -/
  | diskReadblock (block : BlockNo)
  /-- `disk_writeblock` -/
  | diskWriteblock (block : BlockNo) (buf : Block)
  /-- `free_disk_blocks.empty()` -/
  | freeEmpty
  /-- `free_disk_blocks.size()` -/
  | freeSize
  /-- Take the first free block, if there is one. -/
  | popFront
  /-- Take the first free block; if there is none, give the block back. -/
  | popFrontOr (block : BlockNo)
  /-- `free_disk_blocks.push_front` -/
  | pushFront (block : BlockNo)
  /-- `free_disk_blocks.push_back` for each block of the list. -/
  | pushBack (blocks : List BlockNo)
  /-- `get_lock_ptr` -/
  | getLockPtr (block : BlockNo)
  /-- Release a shared pointer. -/
  | dropPtr (ptr : LockId)
  /-- `data_locks.erase` -/
  | eraseLock (block : BlockNo)
  /-- Acquire a lock. -/
  | lock (mode : LockMode) (ptr : LockId)
  /-- Release a lock. -/
  | unlock (mode : LockMode) (ptr : LockId)
  /-- Turn an upgrade lock into an exclusive one. -/
  | upgradeToExclusive (ptr : LockId)
  /-- The value of an uninitialised `fs_inode`. -/
  | uninitInode

/-- The result of an operation. -/
@[reducible] def Op.Res : Op → Type
  | .diskReadblock _ => Block
  | .freeEmpty => Bool
  | .freeSize => ℕ
  | .popFront => Option BlockNo
  | .popFrontOr _ => Option BlockNo
  | .getLockPtr _ => LockId
  | .uninitInode => FsInode
  | _ => Unit

/-- The section of `get_lock_ptr` under `internal_lock_map`. -/
def getLockPtr (i : ℕ) (block : BlockNo) (s : State) : LockId × State :=
  let (ptr, dataLocks) := s.dataLocks.get i block
  (ptr, { s with dataLocks := dataLocks })

/-- An operation on one lock object; blocked while the lock is. -/
def onMutex (ptr : LockId) (f : SharedMutex → Option SharedMutex) (s : State) :
    Option (Unit × State) :=
  (s.dataLocks.onMutex ptr f).map fun dataLocks => ((), { s with dataLocks := dataLocks })

/-- One operation of thread `i`; `none` while it has to wait. -/
def step (i : ℕ) : (o : Op) → State → Option (o.Res × State)
  | .diskReadblock block, s => some (s.disk block, s)
  | .diskWriteblock block buf, s => some ((), { s with disk := update s.disk block buf })
  | .freeEmpty, s => some (s.freeDiskBlocks.isEmpty, s)
  | .freeSize, s => some (s.freeDiskBlocks.length, s)
  | .popFront, s => some (s.freeDiskBlocks.head?,
    { s with freeDiskBlocks := s.freeDiskBlocks.tail })
  | .popFrontOr block, s =>
    match s.freeDiskBlocks with
    | [] => some (none, { s with freeDiskBlocks := [block] })
    | b :: bs => some (some b, { s with freeDiskBlocks := bs })
  | .pushFront block, s => some ((), { s with freeDiskBlocks := block :: s.freeDiskBlocks })
  | .pushBack blocks, s => some ((), { s with freeDiskBlocks := s.freeDiskBlocks ++ blocks })
  | .getLockPtr block, s => some (getLockPtr i block s)
  | .dropPtr ptr, s => some ((), { s with dataLocks := s.dataLocks.drop i ptr })
  | .eraseLock block, s => some ((), { s with dataLocks := s.dataLocks.erase block })
  | .lock mode ptr, s => onMutex ptr (·.lock i mode) s
  | .unlock mode ptr, s => onMutex ptr (·.unlock i mode) s
  | .upgradeToExclusive ptr, s => onMutex ptr (·.upgradeToExclusive i) s
  | .uninitInode, s => some (s.garbage 0, { s with garbage := fun n => s.garbage (n + 1) })

end OsFromScratch.FileServer
