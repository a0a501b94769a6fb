import OsFromScratch.Lib.ByteString

/-!
# Requests of the file server

The parameters of `fs_param.h` and the four requests of `request.h`, with the header text that
`request_string` writes for each of them.

## Main definitions

* `Request` — the variant of the four request structures.
* `pathToString`, `requestString` — the text of a path and of a request.
* `Request.Legal` — the requests a client may send: names, paths and block numbers within the
  limits of `fs_param.h`.
-/

namespace OsFromScratch.FileServer

/-- Size of a disk block (in bytes). -/
def fsBlocksize : ℕ := 512

/-- Maximum number of data blocks in a file or directory. -/
def fsMaxfileblocks : ℕ := 124

/-- Maximum length of a file or directory name. -/
def fsMaxfilename : ℕ := 59

/-- Maximum length of a full pathname. -/
def fsMaxpathname : ℕ := 128

/-- Maximum length of a user name. -/
def fsMaxusername : ℕ := 10

@[simp] theorem fsBlocksize_eq : fsBlocksize = 512 := rfl

@[simp] theorem fsMaxfileblocks_eq : fsMaxfileblocks = 124 := rfl

@[simp] theorem fsMaxfilename_eq : fsMaxfilename = 59 := rfl

@[simp] theorem fsMaxpathname_eq : fsMaxpathname = 128 := rfl

@[simp] theorem fsMaxusername_eq : fsMaxusername = 10 := rfl

/-- The contents of a disk block: `FS_BLOCKSIZE` bytes. -/
abbrev Block : Type := Vector UInt8 512

/-- A path, as the list of its components. -/
abbrev Path : Type := List Bytes

/-- The space that separates the fields of a header. -/
abbrev spaceChar : UInt8 := 32

/-- The slash that separates the components of a path. -/
abbrev slashChar : UInt8 := 47

/-- The inode type of a file, `'f'`. -/
abbrev fileType : UInt8 := 102

/-- The inode type of a directory, `'d'`. -/
abbrev dirType : UInt8 := 100

/-- `FS_READBLOCK` -/
structure FsReadblock where
  username : Bytes
  path : Path
  block : UInt32
  deriving DecidableEq

/-- `FS_WRITEBLOCK`; `data` is a pointer to the block to be written, null until it has been
received. -/
structure FsWriteblock where
  username : Bytes
  path : Path
  block : UInt32
  data : Option Block
  deriving DecidableEq

/-- `FS_CREATE` -/
structure FsCreate where
  username : Bytes
  path : Path
  type : UInt8
  deriving DecidableEq

/-- `FS_DELETE` -/
structure FsDelete where
  username : Bytes
  path : Path
  deriving DecidableEq

/-- The variant of the four requests. -/
inductive Request
  | readblock (r : FsReadblock)
  | writeblock (r : FsWriteblock)
  | create (r : FsCreate)
  | delete (r : FsDelete)
  deriving DecidableEq

namespace Request

/-- The user who makes the request. -/
def username : Request → Bytes
  | readblock r => r.username
  | writeblock r => r.username
  | create r => r.username
  | delete r => r.username

/-- The path the request is about. -/
def path : Request → Path
  | readblock r => r.path
  | writeblock r => r.path
  | create r => r.path
  | delete r => r.path

/-- The request with `data` as the block to be written, for a `FS_WRITEBLOCK`. -/
def setData (data : Option Block) : Request → Request
  | writeblock r => writeblock { r with data := data }
  | r => r

end Request

/-! ### The text of a request -/

/-- `path_to_string` -/
def pathToString (path : Path) : Bytes :=
  path.foldl (fun out node => out ++ slashChar :: node) []

/-- `request_string` -/
def requestString : Request → Bytes
  | .readblock r => ascii "FS_READBLOCK " ++ r.username ++ ascii " " ++ pathToString r.path ++
      ascii " " ++ toDecimal r.block.toNat
  | .writeblock r => ascii "FS_WRITEBLOCK " ++ r.username ++ ascii " " ++ pathToString r.path ++
      ascii " " ++ toDecimal r.block.toNat
  | .create r => ascii "FS_CREATE " ++ r.username ++ ascii " " ++ pathToString r.path ++
      ascii " " ++ [r.type]
  | .delete r => ascii "FS_DELETE " ++ r.username ++ ascii " " ++ pathToString r.path

theorem pathToString_eq_flatMap (path : Path) :
    pathToString path = path.flatMap (slashChar :: ·) := by
  have h (out : Bytes) : path.foldl (fun out node => out ++ slashChar :: node) out =
      out ++ path.flatMap (slashChar :: ·) := by
    induction path generalizing out with
    | nil => simp
    | cons node path ih => simp [ih]
  exact (h []).trans (List.nil_append _)

@[simp] theorem pathToString_nil : pathToString [] = [] := rfl

@[simp] theorem pathToString_cons (node : Bytes) (path : Path) :
    pathToString (node :: path) = slashChar :: (node ++ pathToString path) := by
  simp [pathToString_eq_flatMap]

/-- A path is written as a slash followed by its components joined by slashes. -/
theorem pathToString_eq_intercalate : {path : Path} → path ≠ [] →
    pathToString path = slashChar :: [slashChar].intercalate path
  | [], h => absurd rfl h
  | [node], _ => by simp
  | node :: node' :: path, _ => by
      rw [pathToString_cons, pathToString_eq_intercalate (List.cons_ne_nil node' path),
        List.intercalate_cons_cons]
      simp

theorem mem_pathToString {path : Path} {c : UInt8} (hc : c ∈ pathToString path) :
    c = slashChar ∨ ∃ node ∈ path, c ∈ node := by
  rw [pathToString_eq_flatMap, List.mem_flatMap] at hc
  obtain ⟨node, hnode, hc⟩ := hc
  rcases List.mem_cons.mp hc with rfl | hc
  · exact Or.inl rfl
  · exact Or.inr ⟨node, hnode, hc⟩

/-! ### Legal requests -/

/-- A user name that fits the owner field of an inode and a field of a header. -/
structure LegalUsername (username : Bytes) : Prop where
  length_le : username.length ≤ fsMaxusername
  no_space : spaceChar ∉ username
  no_nul : 0 ∉ username

/-- A path whose components can be names of directory entries. -/
structure LegalPath (path : Path) : Prop where
  ne_nil : path ≠ []
  node_ne_nil : ∀ node ∈ path, node ≠ []
  node_length_le : ∀ node ∈ path, node.length ≤ fsMaxfilename
  no_slash : ∀ node ∈ path, slashChar ∉ node
  no_space : ∀ node ∈ path, spaceChar ∉ node
  no_nul : ∀ node ∈ path, 0 ∉ node
  length_le : (pathToString path).length ≤ fsMaxpathname

/-- The requests a client may send. -/
structure Request.Legal (r : Request) : Prop where
  username : LegalUsername r.username
  path : LegalPath r.path
  readblock_le : ∀ q, r = .readblock q → q.block.toNat ≤ fsMaxfileblocks
  writeblock_le : ∀ q, r = .writeblock q → q.block.toNat ≤ fsMaxfileblocks
  create_type : ∀ q, r = .create q → q.type = fileType ∨ q.type = dirType

end OsFromScratch.FileServer
