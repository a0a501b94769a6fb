import OsFromScratch.FileServer.Machine

/-!
# The file system code

The four overloads of `execute_request` and `traverse_fs` of `filesystem.cpp`, as programs of the
atomic operations of `Machine`. Locks and shared pointers that the code releases in destructors
are released here at the same places and in the same order. Reading or writing a block beyond
the disk, indexing beyond an array, copying a string that does not fit and dereferencing the
null data pointer abort.

## Main definitions

* `traverseFs` — `traverse_fs`; its lock type is `LockMode.shared` or `LockMode.upgrade`.
* `executeReadblock`, `executeWriteblock`, `executeCreate`, `executeDelete` — the overloads of
  `execute_request`.
* `executeRequest` — `execute_request` on the variant.
-/

namespace OsFromScratch.FileServer

/-- A program of the file server. -/
abbrev FsProg (α : Type) : Type := Prog Op Op.Res α

/-- `optional<out_block>`: no value is an error, a null block is a success without data. -/
abbrev Response : Type := Option (Option Block)

/-- One atomic operation. -/
def atomically (o : Op) : FsProg o.Res :=
  .perform o

/-! ### Operations that can fail -/

/-- `disk_readblock`, which asserts that the block is on the disk. -/
def diskReadblock (block : BlockNo) : FsProg Block :=
  if block.toNat < fsDisksize then atomically (.diskReadblock block) else .abort

/-- `disk_writeblock`, which asserts that the block is on the disk. -/
def diskWriteblock (block : BlockNo) (buf : Block) : FsProg Unit :=
  if block.toNat < fsDisksize then atomically (.diskWriteblock block buf) else .abort

/-- `inode.blocks[i]` -/
def blockAt (inode : FsInode) (i : ℕ) : FsProg BlockNo :=
  if h : i < 124 then .ret inode.blocks[i] else .abort

/-- The inode after `inode.blocks[i] = block`. -/
def setBlockAt (inode : FsInode) (i : ℕ) (block : BlockNo) : FsProg FsInode :=
  if h : i < 124 then .ret { inode with blocks := inode.blocks.set i block } else .abort

/-- The bounds of a loop that accesses `inode.blocks[i]` for the `i` below `n`. -/
def withinBlocks (n : ℕ) : FsProg Unit :=
  if n ≤ 124 then .ret () else .abort

/-- `strcpy(dst, src.c_str())` -/
def copyString {n : ℕ} (dst : Vector UInt8 n) (src : Bytes) : FsProg (Vector UInt8 n) :=
  if (cstr src).length < n then .ret (strcpy dst (cstr src)) else .abort

/-- Release a shared pointer that may be null. -/
def dropPtrs (ptrs : List LockId) : FsProg Unit :=
  match ptrs with
  | [] => .ret ()
  | ptr :: ptrs => do
    atomically (.dropPtr ptr)
    dropPtrs ptrs

/-! ### Searching a directory -/

/-- The entry is used and has the given name (`strcmp` gives zero). -/
def FsDirentry.hasName (entry : FsDirentry) (name : Bytes) : Bool :=
  entry.inodeBlock ≠ 0 && arrayStr entry.name = name

/-- The first slot of a directory block whose used entry has the given name. -/
def findName (direntries : Direntries) (name : Bytes) : Option (Fin 8) :=
  (List.finRange 8).find? fun j => (direntries.get j).hasName name

/-- The first unused slot of a directory block. -/
def findUnused (direntries : Direntries) : Option (Fin 8) :=
  (List.finRange 8).find? fun j => (direntries.get j).inodeBlock = 0

/-- A slot of a directory: the index and the number of its block, the entries of the block and the
index of the slot among them. -/
structure DirSlot where
  index : ℕ
  block : BlockNo
  direntries : Direntries
  slot : Fin 8

/-- The inode block that the slot refers to. -/
def DirSlot.inodeBlock (s : DirSlot) : BlockNo :=
  (s.direntries.get s.slot).inodeBlock

/-- The loop over the blocks of a directory, from index `i` on with `n` blocks left, that stops at
the first entry with the given name. -/
def searchDir (inode : FsInode) (name : Bytes) : (n i : ℕ) → FsProg (Option DirSlot)
  | 0, _ => .ret none
  | n + 1, i => do
    let block ← blockAt inode i
    let buf ← diskReadblock block
    let direntries := Direntries.ofBlock buf
    match findName direntries (cstr name) with
    | some slot => .ret (some ⟨i, block, direntries, slot⟩)
    | none => searchDir inode name n (i + 1)

/-- The loop of `FS_CREATE` over the blocks of a directory: no value if the name is in use,
otherwise the first unused slot, if there is one. -/
def scanDir (inode : FsInode) (name : Bytes) :
    (n i : ℕ) → Option DirSlot → FsProg (Option (Option DirSlot))
  | 0, _, spot => .ret (some spot)
  | n + 1, i, spot => do
    let block ← blockAt inode i
    let buf ← diskReadblock block
    let direntries := Direntries.ofBlock buf
    let spot' := spot <|> (findUnused direntries).map fun slot => ⟨i, block, direntries, slot⟩
    match findName direntries (cstr name) with
    | some _ => .ret none
    | none => scanDir inode name n (i + 1) spot'

/-! ### Traversal -/

/-- `inode_lock_info`: an inode, the pointer to its lock, which is held, and its block. -/
structure InodeLockInfo where
  inode : FsInode
  lockPtr : LockId
  block : BlockNo

/-- The loop of `traverse_fs`. The current inode is locked in mode `T` when no component is left
and shared otherwise; `nextLockPtrs` is the pointer left in `next_lock_ptr`, if any. -/
def traverseLoop (T : LockMode) (owner : Bytes) (atRoot : Bool) (inode : FsInode)
    (block : BlockNo) (lockPtr : LockId) (nextLockPtrs : List LockId) :
    Path → FsProg (Option InodeLockInfo)
  | [] => do
    if cstr owner ≠ arrayStr inode.owner then
      atomically (.unlock T lockPtr)
      dropPtrs (nextLockPtrs ++ [lockPtr])
      .ret none
    else
      dropPtrs nextLockPtrs
      .ret (some ⟨inode, lockPtr, block⟩)
  | name :: rest => do
    if inode.type = fileType ∨ (cstr owner ≠ arrayStr inode.owner ∧ atRoot = false) then
      atomically (.unlock .shared lockPtr)
      dropPtrs (nextLockPtrs ++ [lockPtr])
      .ret none
    else
      match ← searchDir inode name inode.size.toNat 0 with
      | none =>
        atomically (.unlock .shared lockPtr)
        dropPtrs (nextLockPtrs ++ [lockPtr])
        .ret none
      | some entry =>
        let childPtr ← atomically (.getLockPtr entry.inodeBlock)
        dropPtrs nextLockPtrs
        atomically (.lock (if rest = [] then T else .shared) childPtr)
        atomically (.unlock .shared lockPtr)
        let buf ← diskReadblock entry.inodeBlock
        traverseLoop T owner false (FsInode.ofBlock buf) entry.inodeBlock childPtr [lockPtr] rest

/-- `traverse_fs` -/
def traverseFs (T : LockMode) (path : Path) (owner : Bytes) : FsProg (Option InodeLockInfo) := do
  let lockPtr ← atomically (.getLockPtr 0)
  if path = [] then
    atomically (.lock T lockPtr)
    let buf ← diskReadblock 0
    .ret (some ⟨FsInode.ofBlock buf, lockPtr, 0⟩)
  else
    atomically (.lock .shared lockPtr)
    let buf ← diskReadblock 0
    traverseLoop T owner true (FsInode.ofBlock buf) 0 lockPtr [] path

/-- Release the lock and the pointer of an `inode_lock_info`. -/
def release (mode : LockMode) (ptr : LockId) : FsProg Unit := do
  atomically (.unlock mode ptr)
  atomically (.dropPtr ptr)

/-! ### Reading -/

/-- `execute_request(FS_READBLOCK const&)` -/
def executeReadblock (req : FsReadblock) : FsProg Response := do
  if req.path = [] then
    .ret none
  else if fsMaxfileblocks ≤ req.block.toNat then
    .ret none
  else
    match ← traverseFs .shared req.path req.username with
    | none => .ret none
    | some info =>
      if info.inode.type = dirType then
        release .shared info.lockPtr
        .ret none
      else if info.inode.size.toNat ≤ req.block.toNat then
        release .shared info.lockPtr
        .ret none
      else
        let block ← blockAt info.inode req.block.toNat
        let out ← diskReadblock block
        release .shared info.lockPtr
        .ret (some (some out))

/-! ### Writing -/

/-- The contents to be written, behind a pointer. -/
def derefData (data : Option Block) : FsProg Block :=
  match data with
  | some buf => .ret buf
  | none => .abort

/-- `execute_request(FS_WRITEBLOCK const&)` -/
def executeWriteblock (req : FsWriteblock) : FsProg Response := do
  if req.path = [] then
    .ret none
  else if fsMaxfileblocks ≤ req.block.toNat then
    .ret none
  else
    match ← traverseFs .upgrade req.path req.username with
    | none => .ret none
    | some info =>
      if info.inode.type = dirType then
        release .upgrade info.lockPtr
        .ret none
      else if req.block < info.inode.size then
        atomically (.upgradeToExclusive info.lockPtr)
        let block ← blockAt info.inode req.block.toNat
        let buf ← derefData req.data
        diskWriteblock block buf
        release .exclusive info.lockPtr
        .ret (some none)
      else if req.block = info.inode.size then
        match ← atomically .popFront with
        | none =>
          release .upgrade info.lockPtr
          .ret none
        | some newBlock =>
          let inode ← setBlockAt info.inode info.inode.size.toNat newBlock
          let inode := { inode with size := inode.size + 1 }
          let buf ← derefData req.data
          diskWriteblock newBlock buf
          atomically (.upgradeToExclusive info.lockPtr)
          diskWriteblock info.block inode.toBlock
          release .exclusive info.lockPtr
          .ret (some none)
      else
        release .upgrade info.lockPtr
        .ret none

/-! ### Creating -/

/-- A zero-initialised array of directory entries. -/
def zeroDirentries : Direntries :=
  Vector.replicate 8 ⟨Vector.replicate 60 0, 0⟩

/-- The directory entries after an entry has been entered into a slot. -/
def setEntry (direntries : Direntries) (slot : Fin 8) (inodeBlock : BlockNo)
    (name : Vector UInt8 60) : Direntries :=
  direntries.set slot ⟨name, inodeBlock⟩

/-- `FS_CREATE` from the point where the new inode has been set up and no unused slot has been
found. -/
def createInNewBlock (info : InodeLockInfo) (filename : Bytes) (newInodeBlock : BlockNo)
    (newInode : FsInode) : FsProg Response := do
  if info.inode.size.toNat = fsMaxfileblocks then
    atomically (.pushFront newInodeBlock)
    release .upgrade info.lockPtr
    .ret none
  else
    match ← atomically (.popFrontOr newInodeBlock) with
    | none =>
      release .upgrade info.lockPtr
      .ret none
    | some newDirentriesBlock =>
      let name ← copyString zeroDirentries[0].name filename
      let newDirentries := setEntry zeroDirentries 0 newInodeBlock name
      diskWriteblock newDirentriesBlock newDirentries.toBlock
      diskWriteblock newInodeBlock newInode.toBlock
      let dirInode ← setBlockAt info.inode info.inode.size.toNat newDirentriesBlock
      let dirInode := { dirInode with size := dirInode.size + 1 }
      atomically (.upgradeToExclusive info.lockPtr)
      diskWriteblock info.block dirInode.toBlock
      release .exclusive info.lockPtr
      .ret (some none)

/-- `FS_CREATE` from the point where the new inode has been set up and an unused slot has been
found. -/
def createInSlot (info : InodeLockInfo) (filename : Bytes) (newInodeBlock : BlockNo)
    (newInode : FsInode) (spot : DirSlot) : FsProg Response := do
  let name ← copyString (spot.direntries.get spot.slot).name filename
  let direntries := setEntry spot.direntries spot.slot newInodeBlock name
  diskWriteblock newInodeBlock newInode.toBlock
  atomically (.upgradeToExclusive info.lockPtr)
  diskWriteblock spot.block direntries.toBlock
  release .exclusive info.lockPtr
  .ret (some none)

/-- `execute_request(FS_CREATE const&)` -/
def executeCreate (req : FsCreate) : FsProg Response := do
  match req.path.getLast? with
  | none => .ret none
  | some filename =>
    if ← atomically .freeEmpty then
      .ret none
    else
      match ← traverseFs .upgrade req.path.dropLast req.username with
      | none => .ret none
      | some info =>
        if info.inode.type = fileType then
          release .upgrade info.lockPtr
          .ret none
        else
          match ← scanDir info.inode filename info.inode.size.toNat 0 none with
          | none =>
            release .upgrade info.lockPtr
            .ret none
          | some spot =>
            match ← atomically .popFront with
            | none =>
              release .upgrade info.lockPtr
              .ret none
            | some newInodeBlock =>
              let garbage ← atomically .uninitInode
              let owner ← copyString garbage.owner req.username
              let newInode := { garbage with size := 0, type := req.type, owner := owner }
              match spot with
              | none => createInNewBlock info filename newInodeBlock newInode
              | some spot => createInSlot info filename newInodeBlock newInode spot

/-! ### Deleting -/

/-- The inode of a directory after the block at index `i` has been removed: the later blocks are
shifted over one at a time. -/
def removeBlock (inode : FsInode) (i : ℕ) : FsInode :=
  { inode with
    blocks := Vector.ofFn fun k =>
      if h : i ≤ k.val ∧ k.val + 1 < inode.size.toNat ∧ k.val + 1 < 124 then
        inode.blocks[k.val + 1]
      else
        inode.blocks[k.val]
    size := inode.size - 1 }

/-- Nothing but the target is left in the directory block. -/
def onlyTarget (direntries : Direntries) (target : BlockNo) : Bool :=
  direntries.all fun entry => entry.inodeBlock = 0 || entry.inodeBlock = target

/-- `FS_DELETE` after the entry has been unlinked: the readers of the target are waited for, its
lock is forgotten and its blocks are freed. -/
def freeTarget (parentPtr targetPtr : LockId) (target : BlockNo) (targetInode : FsInode) :
    FsProg Response := do
  atomically (.unlock .exclusive parentPtr)
  atomically (.upgradeToExclusive targetPtr)
  atomically (.eraseLock target)
  let count := if targetInode.type = fileType then targetInode.size.toNat else 0
  withinBlocks count
  atomically (.pushBack (targetInode.blocks.toList.take count ++ [target]))
  atomically (.unlock .exclusive targetPtr)
  dropPtrs [targetPtr, parentPtr]
  .ret (some none)

/-- `FS_DELETE` from the point where the target has been found in its parent. -/
def deleteEntry (username : Bytes) (parent : InodeLockInfo) (entry : DirSlot) :
    FsProg Response := do
  let target := entry.inodeBlock
  let targetPtr ← atomically (.getLockPtr target)
  atomically (.upgradeToExclusive parent.lockPtr)
  atomically (.lock .upgrade targetPtr)
  let buf ← diskReadblock target
  let targetInode := FsInode.ofBlock buf
  if arrayStr targetInode.owner ≠ cstr username ∨
      (targetInode.type = dirType ∧ 0 < targetInode.size.toNat) then
    atomically (.unlock .upgrade targetPtr)
    atomically (.unlock .exclusive parent.lockPtr)
    dropPtrs [targetPtr, parent.lockPtr]
    .ret none
  else if onlyTarget entry.direntries target then
    withinBlocks parent.inode.size.toNat
    diskWriteblock parent.block (removeBlock parent.inode entry.index).toBlock
    atomically (.pushBack [entry.block])
    freeTarget parent.lockPtr targetPtr target targetInode
  else
    diskWriteblock entry.block
      (setEntry entry.direntries entry.slot 0 (entry.direntries.get entry.slot).name).toBlock
    freeTarget parent.lockPtr targetPtr target targetInode

/-- `execute_request(FS_DELETE const&)` -/
def executeDelete (req : FsDelete) : FsProg Response := do
  match req.path.getLast? with
  | none => .ret none
  | some name =>
    let size ← atomically .freeSize
    if size = 4095 then
      .ret none
    else
      match ← traverseFs .upgrade req.path.dropLast req.username with
      | none => .ret none
      | some parent =>
        if parent.inode.size.toNat = 0 ∨ parent.inode.type = fileType then
          release .upgrade parent.lockPtr
          .ret none
        else
          match ← searchDir parent.inode name parent.inode.size.toNat 0 with
          | none =>
            release .upgrade parent.lockPtr
            .ret none
          | some entry => deleteEntry req.username parent entry

/-- `execute_request` -/
def executeRequest : Request → FsProg Response
  | .readblock req => executeReadblock req
  | .writeblock req => executeWriteblock req
  | .create req => executeCreate req
  | .delete req => executeDelete req

end OsFromScratch.FileServer
