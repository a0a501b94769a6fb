import Mathlib.Data.List.Infix
import OsFromScratch.FileServer.Filesystem

/-!
# The abstract file system

What the file server is for, without blocks, locks and directory entries on a disk: a tree of
files and directories with owners, and a number of free blocks. A directory remembers how its
names are distributed over blocks of slots, because that decides when it is full.

## Main definitions

* `Node`, `AbstractFs` — the nodes of the tree, and the whole state.
* `AbstractFs.find` — the node at a path that a user may access.
* `AbstractFs.apply` — the effect and the response of a request.

## Main results

* `AbstractFs.apply_of_none` — a request that fails changes nothing.
-/

namespace OsFromScratch.FileServer

open Function

/-- The slots of a directory, block by block; a slot holds a name or is unused. -/
abbrev Table : Type := List (List (Option Bytes))

namespace Table

/-- Enter a name into the first unused slot of a block. -/
def enterRow (name : Bytes) : List (Option Bytes) → List (Option Bytes)
  | [] => []
  | none :: row => some name :: row
  | some m :: row => some m :: enterRow name row

/-- Enter a name into the first unused slot. -/
def enter (name : Bytes) : Table → Table
  | [] => []
  | row :: table => if none ∈ row then enterRow name row :: table else row :: enter name table

/-- Some slot is unused. -/
def HasUnused (table : Table) : Prop :=
  ∃ row ∈ table, none ∈ row

/-- A block of slots with one name. -/
def newRow (name : Bytes) : List (Option Bytes) :=
  some name :: List.replicate 7 none

/-- Remove a name, and with it a block whose slots are all unused then. -/
def remove (name : Bytes) (table : Table) : Table :=
  (table.map fun row => row.map fun slot => if slot = some name then none else slot).filter
    fun row => row.any Option.isSome

end Table

/-- A node of the tree. -/
inductive Node
  | file (owner : Bytes) (contents : List Block)
  | dir (owner : Bytes) (table : Table)

namespace Node

/-- The owner of a node. -/
def owner : Node → Bytes
  | file owner _ => owner
  | dir owner _ => owner

/-- A file, or a directory without names. -/
def Removable : Node → Prop
  | file _ _ => True
  | dir _ table => table = []

/-- The blocks that hold the contents of a file. -/
def blocks : Node → ℕ
  | file _ contents => contents.length
  | dir _ _ => 0

/-- A file or directory as it is created. -/
def empty (type : UInt8) (owner : Bytes) : Node :=
  if type = fileType then file owner [] else dir owner []

end Node

/-- The state of the abstract file system: the node at each path and the number of free blocks. -/
@[ext] structure AbstractFs where
  tree : Path → Option Node
  free : ℕ

namespace AbstractFs

/-- Every node on the path other than the root belongs to the user. -/
def Owned (a : AbstractFs) (user : Bytes) (p : Path) : Prop :=
  ∀ q node, q <+: p → q ≠ [] → a.tree q = some node → node.owner = user

open Classical in
/-- The node at a path that the user may access. -/
noncomputable def find (a : AbstractFs) (user : Bytes) (p : Path) : Option Node :=
  if a.Owned user p then a.tree p else none

/-- The state with another node, or none, at a path. -/
def setNode (a : AbstractFs) (p : Path) (node : Option Node) : AbstractFs :=
  { a with tree := update a.tree p node }

open Classical in
/-- The effect of `FS_READBLOCK`. -/
noncomputable def readblock (a : AbstractFs) (user : Bytes) (p : Path) (block : ℕ) :
    AbstractFs × Response :=
  match a.find user p with
  | some (.file _ contents) => (a, contents[block]?.map some)
  | _ => (a, none)

open Classical in
/-- The effect of `FS_WRITEBLOCK`. -/
noncomputable def writeblock (a : AbstractFs) (user : Bytes) (p : Path) (block : ℕ) (buf : Block) :
    AbstractFs × Response :=
  match a.find user p with
  | some (.file owner contents) =>
    if block < contents.length then
      (a.setNode p (some (.file owner (contents.set block buf))), some none)
    else if block = contents.length ∧ contents.length < fsMaxfileblocks ∧ 0 < a.free then
      ({ a.setNode p (some (.file owner (contents ++ [buf]))) with free := a.free - 1 }, some none)
    else
      (a, none)
  | _ => (a, none)

open Classical in
/-- The effect of `FS_CREATE` with the parent directory `p`. -/
noncomputable def create (a : AbstractFs) (user : Bytes) (p : Path) (name : Bytes) (type : UInt8) :
    AbstractFs × Response :=
  match a.find user p with
  | some (.dir owner table) =>
    if a.tree (p ++ [name]) ≠ none then
      (a, none)
    else if table.HasUnused then
      if 0 < a.free then
        ({ (a.setNode p (some (.dir owner (table.enter name)))).setNode (p ++ [name])
            (some (.empty type user)) with free := a.free - 1 }, some none)
      else
        (a, none)
    else if table.length < fsMaxfileblocks ∧ 2 ≤ a.free then
      ({ (a.setNode p (some (.dir owner (table ++ [Table.newRow name])))).setNode (p ++ [name])
          (some (.empty type user)) with free := a.free - 2 }, some none)
    else
      (a, none)
  | _ => (a, none)

open Classical in
/-- The effect of `FS_DELETE` with the parent directory `p`. -/
noncomputable def delete (a : AbstractFs) (user : Bytes) (p : Path) (name : Bytes) :
    AbstractFs × Response :=
  match a.find user p, a.tree (p ++ [name]) with
  | some (.dir owner table), some node =>
    if node.owner = user ∧ node.Removable then
      ({ (a.setNode p (some (.dir owner (table.remove name)))).setNode (p ++ [name]) none with
          free := a.free + (table.length - (table.remove name).length) + node.blocks + 1 },
        some none)
    else
      (a, none)
  | _, _ => (a, none)

/-- The effect and the response of a request. Names end at their first NUL character. -/
noncomputable def apply (a : AbstractFs) : Request → AbstractFs × Response
  | .readblock r => a.readblock (cstr r.username) (r.path.map cstr) r.block.toNat
  | .writeblock r =>
    match r.data with
    | some buf => a.writeblock (cstr r.username) (r.path.map cstr) r.block.toNat buf
    | none => (a, none)
  | .create r =>
    match r.path.getLast? with
    | some name => a.create (cstr r.username) (r.path.dropLast.map cstr) (cstr name) r.type
    | none => (a, none)
  | .delete r =>
    match r.path.getLast? with
    | some name => a.delete (cstr r.username) (r.path.dropLast.map cstr) (cstr name)
    | none => (a, none)

/-- The states and responses of a sequence of requests. -/
noncomputable def applyAll (a : AbstractFs) : List Request → AbstractFs × List Response
  | [] => (a, [])
  | req :: reqs => (((a.apply req).1.applyAll reqs).1, (a.apply req).2 ::
      ((a.apply req).1.applyAll reqs).2)

/-- A request that fails changes nothing. -/
theorem apply_of_none (a : AbstractFs) (req : Request) (h : (a.apply req).2 = none) :
    (a.apply req).1 = a := by
  cases req with
  | readblock r =>
    simp only [apply, readblock] at h ⊢
    split <;> rfl
  | writeblock r =>
    simp only [apply] at h ⊢
    split at h
    · simp only [writeblock] at h ⊢
      split at h
      · split_ifs at h ⊢
        rfl
      · rfl
    · rfl
  | create r =>
    simp only [apply] at h ⊢
    split at h
    · simp only [create] at h ⊢
      split at h
      · split_ifs at h ⊢ <;> rfl
      · rfl
    · rfl
  | delete r =>
    simp only [apply] at h ⊢
    split at h
    · simp only [delete] at h ⊢
      split at h
      · split_ifs at h ⊢
        rfl
      · rfl
    · rfl

end AbstractFs

end OsFromScratch.FileServer
