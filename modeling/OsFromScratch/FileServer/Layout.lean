import OsFromScratch.FileServer.Request
import OsFromScratch.Lib.CharArray

/-!
# On-disk structures

The inode and the directory entry of `fs_server.h`, laid out over the 512 bytes of a block as the
compiler lays them out: no padding, words little-endian. An inode fills a block exactly, and so
do eight directory entries, which is why any block can be read as either.

## Main definitions

* `FsInode`, `FsDirentry`, `Direntries` — `fs_inode`, `fs_direntry` and the array of entries of one
  block.
* `FsInode.ofBlock`, `FsInode.toBlock`, `Direntries.ofBlock`, `Direntries.toBlock` — reading and
  writing a block through a structure.

## Main results

* `FsInode.ofBlock_toBlock`, `Direntries.ofBlock_toBlock` — a structure written to a block is read
  back.
-/

namespace OsFromScratch.FileServer

/-- Size of the disk (in blocks). -/
def fsDisksize : ℕ := 4096

/-- Number of directory entries in a block. -/
def fsDirentries : ℕ := 8

@[simp] theorem fsDisksize_eq : fsDisksize = 4096 := rfl

@[simp] theorem fsDirentries_eq : fsDirentries = 8 := rfl

/-- The number of a disk block. -/
abbrev BlockNo : Type := UInt32

theorem toNat_ofNat_blockNo {n : ℕ} (h : n < fsDisksize) : (UInt32.ofNat n).toNat = n :=
  UInt32.toNat_ofNat_of_lt' (h.trans (by decide))

/-- `fs_direntry`, with a name of `FS_MAXFILENAME + 1` characters; the entry is unused when
`inodeBlock` is zero. -/
structure FsDirentry where
  name : Vector UInt8 60
  inodeBlock : BlockNo
  deriving DecidableEq

/-- `fs_inode`, with an owner of `FS_MAXUSERNAME + 1` characters and `FS_MAXFILEBLOCKS` block
numbers. -/
structure FsInode where
  type : UInt8
  owner : Vector UInt8 11
  size : UInt32
  blocks : Vector BlockNo 124
  deriving DecidableEq

/-- The `FS_DIRENTRIES` directory entries of one block. -/
abbrev Direntries : Type := Vector FsDirentry 8

namespace FsInode

/-- A block read as an inode. -/
def ofBlock (b : Block) : FsInode where
  type := b[0]
  owner := Vector.ofFn fun i => b[1 + i.val]
  size := word b[12] b[13] b[14] b[15]
  blocks := Vector.ofFn fun i =>
    word b[16 + 4 * i.val] b[17 + 4 * i.val] b[18 + 4 * i.val] b[19 + 4 * i.val]

/-- An inode written to a block. -/
def toBlock (inode : FsInode) : Block :=
  Vector.ofFn fun k =>
    if k.val = 0 then inode.type
    else if h : k.val < 12 then inode.owner[k.val - 1]
    else if k.val < 16 then wordByte inode.size (k - 12)
    else wordByte inode.blocks[(k.val - 16) / 4] ((k - 16) % 4)

/-- The bytes of the block numbers of a written inode. -/
theorem getElem_toBlock (inode : FsInode) {i k : ℕ} (hi : i < 124) (hk : k < 4)
    (h : 16 + k + 4 * i < 512) : inode.toBlock[16 + k + 4 * i] = wordByte inode.blocks[i] k := by
  have hdiv : (16 + k + 4 * i - 16) / 4 = i := by omega
  have hmod : (16 + k + 4 * i - 16) % 4 = k := by omega
  simp only [toBlock, Vector.getElem_ofFn]
  rw [if_neg (by omega), dif_neg (by omega), if_neg (by omega)]
  simp only [hdiv, hmod]

/-- An inode written to a block is read back. -/
@[simp] theorem ofBlock_toBlock (inode : FsInode) : ofBlock inode.toBlock = inode := by
  have howner : (ofBlock inode.toBlock).owner = inode.owner := by
    refine Vector.ext fun i hi => ?_
    simp only [ofBlock, toBlock, Vector.getElem_ofFn]
    rw [if_neg (by omega), dif_pos (by omega)]
    simp
  have hblocks : (ofBlock inode.toBlock).blocks = inode.blocks := by
    refine Vector.ext fun i hi => ?_
    have hbyte (k : ℕ) (hk : k < 4) := inode.getElem_toBlock hi hk (by omega)
    have h := word_wordByte inode.blocks[i]
    rw [← hbyte 0 (by norm_num), ← hbyte 1 (by norm_num), ← hbyte 2 (by norm_num),
      ← hbyte 3 (by norm_num)] at h
    simpa only [ofBlock, Vector.getElem_ofFn] using h
  have hsize : (ofBlock inode.toBlock).size = inode.size := by
    simp only [ofBlock, toBlock, Vector.getElem_ofFn]
    exact word_wordByte inode.size
  have htype : (ofBlock inode.toBlock).type = inode.type := by
    simp only [ofBlock, toBlock, Vector.getElem_ofFn, if_true]
  generalize ofBlock inode.toBlock = e at howner hblocks hsize htype ⊢
  cases e
  cases inode
  simp only at howner hblocks hsize htype
  rw [howner, hblocks, hsize, htype]

end FsInode

namespace Direntries

/-- A block read as directory entries. -/
def ofBlock (b : Block) : Direntries :=
  Vector.ofFn fun j =>
    { name := Vector.ofFn fun i => b[64 * j.val + i.val]
      inodeBlock := word b[64 * j.val + 60] b[64 * j.val + 61] b[64 * j.val + 62]
        b[64 * j.val + 63] }

/-- Directory entries written to a block. -/
def toBlock (entries : Direntries) : Block :=
  Vector.ofFn fun k =>
    let entry := entries[k.val / 64]
    if h : k.val % 64 < 60 then entry.name[k.val % 64]
    else wordByte entry.inodeBlock (k.val % 64 - 60)

/-- The bytes of the entries of a written block. -/
theorem getElem_toBlock (entries : Direntries) {j k : ℕ} (hj : j < 8) (hk : k < 64)
    (h : 64 * j + k < 512) : entries.toBlock[64 * j + k] =
      if h : k < 60 then entries[j].name[k] else wordByte entries[j].inodeBlock (k - 60) := by
  have hdiv : (64 * j + k) / 64 = j := by omega
  have hmod : (64 * j + k) % 64 = k := by omega
  simp only [toBlock, Vector.getElem_ofFn, hdiv, hmod]

/-- Directory entries written to a block are read back. -/
@[simp] theorem ofBlock_toBlock (entries : Direntries) : ofBlock entries.toBlock = entries := by
  refine Vector.ext fun j hj => ?_
  have hname : (ofBlock entries.toBlock)[j].name = entries[j].name := by
    refine Vector.ext fun i hi => ?_
    simp only [ofBlock, Vector.getElem_ofFn]
    rw [entries.getElem_toBlock hj (by omega), dif_pos hi]
  have hinode : (ofBlock entries.toBlock)[j].inodeBlock = entries[j].inodeBlock := by
    simp only [ofBlock, Vector.getElem_ofFn]
    rw [entries.getElem_toBlock hj (by omega), entries.getElem_toBlock hj (by omega),
      entries.getElem_toBlock hj (by omega), entries.getElem_toBlock hj (by omega)]
    simpa using word_wordByte entries[j].inodeBlock
  generalize (ofBlock entries.toBlock)[j] = e at hname hinode ⊢
  cases e
  simp only at hname hinode
  rw [hname, hinode]

end Direntries

end OsFromScratch.FileServer
