import Mathlib.Data.List.AList
import Mathlib.Data.Finset.Insert
import Mathlib.Logic.Function.Basic
import OsFromScratch.Lib.ByteString

/-!
# Pages

The constants of `vm_arena.h`, the page table entries of `vm_pager.h`, the structures of `Page.h`,
and the state of the pager: its global maps and queues, the objects they refer to, and the physical
memory, the swap file and the files that the infrastructure gives it access to.

The `shared_ptr` and `weak_ptr` of the source are numbers of `VirtualPage` objects. An object exists
as long as a map refers to it; the queue of the clock algorithm, which holds weak pointers, does not
keep it alive.

## Main definitions

* `PageTableEntry`, `PhysicalPage`, `VirtualPage` — the structures of the source.
* `State` — the state of the pager.
* `VirtualPage.bits` — the access bits that `updatePTEs` computes.
* `updatePTEs` — `VirtualPage::updatePTEs`.
-/

namespace OsFromScratch.Pager

open Function

/-! ### Constants -/

/-- `VM_PAGESIZE` -/
def vmPagesize : ℕ := 65536

/-- `VM_ARENA_BASEADDR` -/
def vmArenaBaseaddr : ℕ := 0x600000000

/-- `VM_ARENA_SIZE` -/
def vmArenaSize : ℕ := 0x01000000

/-- `VM_ARENA_MAXADDR` -/
def vmArenaMaxaddr : ℕ := vmArenaBaseaddr + vmArenaSize

instance : NeZero vmPagesize := ⟨by decide⟩

/-! ### The structures -/

/-- A process identifier. -/
abbrev Pid : Type := ℕ

/-- A pointer to a `VirtualPage`. -/
abbrev PageId : Type := ℕ

/-- The contents of a page. -/
abbrev Contents : Type := Fin vmPagesize → UInt8

/-- `page_table_entry_t` -/
structure PageTableEntry where
  ppage : BitVec 20
  readEnable : Bool
  writeEnable : Bool
  deriving DecidableEq

/-- The entry lets a load or a store through. -/
def PageTableEntry.allows (entry : PageTableEntry) (writeFlag : Bool) : Bool :=
  if writeFlag then entry.writeEnable else entry.readEnable

/-- A pointer to a page table entry: the process, and the index in its page table. -/
structure PtePtr where
  pid : Pid
  index : ℕ
  deriving DecidableEq

/-- `PhysicalPage` -/
structure PhysicalPage where
  ppn : ℕ
  clocked : Bool
  dirty : Bool
  deriving DecidableEq

/-- `VirtualPage`. A page is swap backed, with one block reserved for each page table entry, of
which the first holds the data, or it is backed by one block of a file. -/
structure VirtualPage where
  affiliated : List PtePtr
  isSwap : Bool
  filename : Bytes
  blocks : List ℕ
  physicalPage : Option PhysicalPage
  resident : Bool

/-- A `VirtualPage` as `make_shared` makes it. -/
def VirtualPage.new : VirtualPage :=
  ⟨[], false, [], [], none, false⟩

/-- The state of the pager and of the memory and the files that it works with. -/
@[ext]
structure State where
  /-- The processes that have a page table in `process_table`. -/
  processTable : Finset Pid
  /-- The page table entries of each process. -/
  pageTables : Pid → ℕ → PageTableEntry
  /-- `translateVA` -/
  translateVA : AList fun _ : Pid => AList fun _ : ℕ => PageId
  /-- `next_free_VA` -/
  nextFreeVA : Pid → Option ℕ
  /-- `filename_block_to_vpage`; the two levels of the map are one here. -/
  filenameBlockToVpage : AList fun _ : Bytes × ℕ => PageId
  /-- `next_free_swap` -/
  nextFreeSwap : List ℕ
  /-- `next_free_PPN` -/
  nextFreePPN : List ℕ
  /-- `clock_queue` -/
  clockQueue : List PageId
  /-- `mem_pages_cap` -/
  memPagesCap : ℕ
  /-- `current_pid` -/
  currentPid : Pid
  /-- `page_table_base_register`, by the process whose page table it points to. -/
  pageTableBaseRegister : Option Pid
  /-- The `VirtualPage` objects. -/
  pages : PageId → VirtualPage
  /-- The next `VirtualPage` to be made. -/
  nextPage : PageId
  /-- `vm_physmem` -/
  physmem : ℕ → Contents
  /-- The swap file. -/
  swapFile : ℕ → Contents
  /-- The blocks of all files. -/
  files : Bytes → ℕ → Contents
  /-- The blocks of files that can be accessed at present. -/
  accessible : Bytes → ℕ → Bool
  /-- What failing reads leave in memory. -/
  garbage : ℕ → Contents

/-- The state with another value of a `VirtualPage`. -/
def State.setPage (s : State) (id : PageId) (v : VirtualPage) : State :=
  { s with pages := update s.pages id v }

/-- The page that a virtual address of a process is mapped to. -/
def State.mapped (s : State) (pid : Pid) (va : ℕ) : Option PageId :=
  (s.translateVA.lookup pid).bind fun vas => vas.lookup va

/-- Some map refers to the page, so that it can be locked through a weak pointer. -/
def State.Exists (s : State) (id : PageId) : Prop :=
  (∃ process ∈ s.translateVA.entries, ∃ entry ∈ process.2.entries, entry.2 = id) ∨
    ∃ entry ∈ s.filenameBlockToVpage.entries, entry.2 = id

instance (s : State) (id : PageId) : Decidable (s.Exists id) :=
  inferInstanceAs (Decidable (_ ∨ _))

/-- `VA_to_PTE`, where the page table is given by its process. -/
def vaToPTE (va : ℕ) (pid : Pid) : PtePtr :=
  ⟨pid, (va - vmArenaBaseaddr) / vmPagesize⟩

/-- The page table entry behind a pointer. -/
def State.pte (s : State) (ptr : PtePtr) : PageTableEntry :=
  s.pageTables ptr.pid ptr.index

/-! ### Page table entries -/

/-- The access bits that `updatePTEs` computes, first for reading and then for writing. -/
def VirtualPage.bits (v : VirtualPage) : Bool × Bool :=
  match v.resident, v.physicalPage with
  | true, some page =>
    if page.clocked then
      if v.isSwap = false ∨ v.affiliated.length = 1 then (true, page.dirty) else (true, false)
    else
      (false, false)
  | _, _ => (false, false)

/-- A page table entry after `updatePTEs` has been applied to its page: without a physical page the
number stays as it is. -/
def VirtualPage.entry (v : VirtualPage) (old : PageTableEntry) : PageTableEntry where
  ppage := (v.physicalPage.map fun page => BitVec.ofNat 20 page.ppn).getD old.ppage
  readEnable := v.bits.1
  writeEnable := v.bits.2

/-- What `updatePTEs` asserts, and dereferences: the page has page table entries, a resident page
has a physical page, and a swap backed page whose entries can be enabled has one block for each. -/
def VirtualPage.Updatable (v : VirtualPage) : Prop :=
  v.affiliated ≠ [] ∧ (v.resident = true → ∃ page ∈ v.physicalPage,
    page.clocked = true → v.isSwap = true → v.affiliated.length = v.blocks.length)

instance (v : VirtualPage) : Decidable v.Updatable :=
  inferInstanceAs (Decidable (_ ∧ (_ → _)))

/-- `VirtualPage::updatePTEs` -/
def updatePTEs (id : PageId) (s : State) : Option State :=
  let v := s.pages id
  if v.Updatable then
    some { s with pageTables := fun pid index =>
      if ⟨pid, index⟩ ∈ v.affiliated then v.entry (s.pageTables pid index)
      else s.pageTables pid index }
  else
    none

end OsFromScratch.Pager
