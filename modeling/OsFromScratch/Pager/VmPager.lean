import OsFromScratch.Pager.Page

/-!
# The pager

The functions of `vm_pager.cpp`. A function has no value where the code fails an assertion, follows
a null pointer or an iterator that is past the end, or does not terminate. The loops over an
`unordered_map` go through its entries in the order that the caller gives.

## Main definitions

* `State.Consistent`, `assertStructureConsistency` — `assert_structure_consistency`.
* `giveNewPpn`, `returnPpnRemoveFromClock`, `evictAndReplace` — the physical pages.
* `makeSwapToNullpage`, `removeFromFilenameBlock`, `translateFromOtherAddrSpace`.
* `vmInit`, `vmCreate`, `vmMap`, `vmSwitch`, `vmFault`, `vmDestroy` — the interface of the pager.
-/

namespace OsFromScratch.Pager

open Function

/-! ### Assertions -/

/-- The number of virtual addresses that are mapped to the page (`num_mapped_to`). -/
def State.numMappedTo (s : State) (id : PageId) : ℕ :=
  (s.translateVA.entries.flatMap fun process => process.2.entries.map fun entry => entry.2).count id

/-- What `assert_structure_consistency` asserts of the virtual address `va` of a process, which is
mapped to the page `id`. -/
@[mk_iff]
structure State.VaConsistent (s : State) (pid : Pid) (va : ℕ) (id : PageId) : Prop where
  process : pid ∈ s.processTable
  blocks : (s.pages id).blocks ≠ []
  not_available : ∃ next ∈ s.nextFreeVA pid, va < next
  swap : (s.pages id).isSwap = true →
    (∀ block ∈ (s.pages id).blocks, block ∉ s.nextFreeSwap) ∧
    (s.pages id).blocks.length = (s.pages id).affiliated.length ∧
    (1 < (s.pages id).affiliated.length →
      ∀ ptr ∈ (s.pages id).affiliated, (s.pte ptr).writeEnable = false)
  file : (s.pages id).isSwap = false → (s.pages id).blocks.length = 1
  resident : (s.pages id).resident = (s.pages id).physicalPage.isSome
  ppn : ∀ page ∈ (s.pages id).physicalPage, (s.pages id).resident = true →
    page.ppn ∉ s.nextFreePPN
  updatable : (s.pages id).Updatable
  attached : vaToPTE va pid ∈ (s.pages id).affiliated
  entries : ∀ ptr ∈ (s.pages id).affiliated,
    (s.pte ptr).readEnable = (s.pages id).bits.1 ∧ (s.pte ptr).writeEnable = (s.pages id).bits.2 ∧
    ∀ page ∈ (s.pages id).physicalPage, (s.pages id).resident = true →
      (s.pte ptr).ppage = BitVec.ofNat 20 page.ppn
  clock : ∀ page ∈ (s.pages id).physicalPage, (s.pages id).resident = true → page.ppn ≠ 0 →
    id ∈ s.clockQueue
  count : (s.pages id).affiliated.length = s.numMappedTo id

/-- `assert_structure_consistency`: all of its assertions hold. -/
@[mk_iff]
structure State.Consistent (s : State) : Prop where
  va : ∀ process ∈ s.translateVA.entries, ∀ entry ∈ process.2.entries,
    s.VaConsistent process.1 entry.1 entry.2
  clock_size : s.clockQueue.length + s.nextFreePPN.length + 1 = s.memPagesCap
  clock : ∀ id ∈ s.clockQueue, s.Exists id ∧ (s.pages id).resident = true ∧
    ∃ page ∈ (s.pages id).physicalPage, page.ppn ≠ 0

instance (s : State) (pid : Pid) (va : ℕ) (id : PageId) : Decidable (s.VaConsistent pid va id) :=
  decidable_of_iff' _ (State.vaConsistent_iff s pid va id)

instance (s : State) : Decidable s.Consistent :=
  decidable_of_iff' _ (State.consistent_iff s)

/-- The state, unless `assert_structure_consistency` fails. -/
def assertStructureConsistency (s : State) : Option State :=
  if s.Consistent then some s else none

/-! ### Files -/

/-- `file_read` of the data of a page into the physical page `ppn`: the result says whether it
succeeded. The swap file is always accessible. -/
def fileRead (v : VirtualPage) (ppn : ℕ) (s : State) : Option (Bool × State) :=
  match v.blocks with
  | [] => none
  | block :: _ =>
    if v.isSwap then
      some (true, { s with physmem := update s.physmem ppn (s.swapFile block) })
    else if s.accessible v.filename block then
      some (true, { s with physmem := update s.physmem ppn (s.files v.filename block) })
    else
      some (false, { s with
        physmem := update s.physmem ppn (s.garbage 0)
        garbage := fun n => s.garbage (n + 1) })

/-- `file_write` of the physical page `ppn` to the place of the data of a page. -/
def fileWrite (v : VirtualPage) (ppn : ℕ) (s : State) : Option State :=
  match v.blocks with
  | [] => none
  | block :: _ =>
    if v.isSwap then
      some { s with swapFile := update s.swapFile block (s.physmem ppn) }
    else if s.accessible v.filename block then
      some { s with
        files := update s.files v.filename (update (s.files v.filename) block (s.physmem ppn)) }
    else
      some s

/-! ### Physical pages -/

/-- `remove_from_filename_block` -/
def removeFromFilenameBlock (id : PageId) (s : State) : Option State :=
  match (s.pages id).blocks with
  | [] => none
  | block :: _ => some { s with
      filenameBlockToVpage := s.filenameBlockToVpage.erase ((s.pages id).filename, block) }

/-- `updatePTEs`, unless the page has no page table entries. -/
def updatePTEsIfAny (id : PageId) (s : State) : Option State :=
  if (s.pages id).affiliated = [] then some s else updatePTEs id s

/-- The loop of `evict_and_replace`, which ends with a page at the front of the queue that has not
been used since the clock passed it. The first argument bounds the number of iterations. -/
def clockLoop : ℕ → State → Option State
  | 0, _ => none
  | n + 1, s =>
    match s.clockQueue with
    | [] => none
    | front :: rest =>
      if s.Exists front then do
        let page ← (s.pages front).physicalPage
        if page.clocked then
          let s := s.setPage front
            { s.pages front with physicalPage := some { page with clocked := false } }
          let s ← updatePTEsIfAny front s
          clockLoop n { s with clockQueue := rest ++ [front] }
        else
          some s
      else
        none

/-- The page to be evicted, at the front of the queue, is written back and gives its physical page
to the replacement. -/
def replaceFront (replacement : PageId) (s : State) : Option State :=
  match s.clockQueue with
  | [] => none
  | toEvict :: rest => do
    let page ← (s.pages toEvict).physicalPage
    let s := { s with clockQueue := rest }
    let s ← (if page.dirty then fileWrite (s.pages toEvict) page.ppn s else some s)
    let s := s.setPage replacement
      { s.pages replacement with physicalPage := some ⟨page.ppn, true, false⟩ }
    let s ← updatePTEs replacement s
    let s := { s with clockQueue := s.clockQueue ++ [replacement] }
    let s := s.setPage toEvict { s.pages toEvict with resident := false, physicalPage := none }
    let s ← updatePTEsIfAny toEvict s
    if (s.pages toEvict).isSwap = false ∧ (s.pages toEvict).affiliated = [] then
      removeFromFilenameBlock toEvict s
    else
      some s

/-- `evict_and_replace` -/
def evictAndReplace (replacement : PageId) (s : State) : Option State := do
  let s ← clockLoop (s.clockQueue.length + 1) s
  replaceFront replacement s

/-- The part of `give_new_ppn` that finds a physical page. -/
def findPpn (id : PageId) (s : State) : Option State :=
  match s.nextFreePPN with
  | ppn :: rest =>
    some { s.setPage id { s.pages id with physicalPage := some ⟨ppn, true, false⟩ } with
      nextFreePPN := rest
      clockQueue := s.clockQueue ++ [id] }
  | [] => evictAndReplace id s

/-- `give_new_ppn` -/
def giveNewPpn (id : PageId) (s : State) : Option State := do
  let s ← findPpn id (s.setPage id { s.pages id with physicalPage := some ⟨0, false, false⟩ })
  some (s.setPage id { s.pages id with resident := true })

/-- `return_ppn_remove_from_clock` -/
def returnPpnRemoveFromClock (id : PageId) (s : State) : Option State := do
  let page ← (s.pages id).physicalPage
  if id ∈ s.clockQueue then
    let s := { s with
      nextFreePPN := s.nextFreePPN ++ [page.ppn]
      clockQueue := s.clockQueue.erase id }
    updatePTEs id (s.setPage id { s.pages id with resident := false, physicalPage := none })
  else
    none

/-! ### Virtual pages -/

/-- The effect of `translateVA[pid]`: an empty map is entered if there is none. -/
def State.touchVA (s : State) (pid : Pid) : State :=
  if pid ∈ s.translateVA then s else { s with translateVA := s.translateVA.insert pid ∅ }

/-- The effect of `translateVA[pid][va] = id`. -/
def State.setVA (s : State) (pid : Pid) (va : ℕ) (id : PageId) : State :=
  { s with
    translateVA := s.translateVA.insert pid (((s.translateVA.lookup pid).getD ∅).insert va id) }

/-- A new `VirtualPage`. -/
def State.makePage (s : State) (v : VirtualPage) : State :=
  { s with pages := update s.pages s.nextPage v, nextPage := s.nextPage + 1 }

/-- `make_swap_to_nullpage`; the result says whether a page has been made. -/
def makeSwapToNullpage (va : ℕ) (pid : Pid) (s : State) : Option (Bool × State) :=
  match s.nextFreeSwap with
  | [] => do
    let s ← assertStructureConsistency s
    some (false, s)
  | block :: rest =>
    if pid ∈ s.processTable then do
      let id := s.nextPage
      let s := (s.setVA pid va id).makePage
        { VirtualPage.new with
          blocks := [block], resident := true, physicalPage := some ⟨0, true, false⟩
          isSwap := true, affiliated := [vaToPTE va pid] }
      let s ← updatePTEs id { s with nextFreeSwap := rest }
      some (true, s)
    else
      none

/-- The test whether a resident page is on the physical page 0, which holds zeroes. -/
def VirtualPage.onNullPage (v : VirtualPage) : Option Bool :=
  if v.resident then v.physicalPage.map fun page => page.ppn = 0 else some false

/-! ### Faults -/

/-- The part of `vm_fault` that allocates a physical page and fills it; the result says whether the
contents could be read. -/
def bringIn (id : PageId) (s : State) : Option (Bool × State) := do
  let isNullPage := (s.pages id).resident
  let s ← giveNewPpn id s
  let page ← (s.pages id).physicalPage
  if isNullPage then
    some (true, { s with physmem := update s.physmem page.ppn fun _ => 0 })
  else
    fileRead (s.pages id) page.ppn s

/-- The end of `vm_fault` for a page in memory. -/
def allowAccess (id : PageId) (writeFlag : Bool) (s : State) : Option (Bool × State) := do
  let s := s.setPage id { s.pages id with resident := true }
  let page ← (s.pages id).physicalPage
  if page.dirty ∧ writeFlag ∧ ¬(1 < (s.pages id).blocks.length ∨ page.clocked = false) then
    none
  else
    let page := { page with dirty := page.dirty || writeFlag, clocked := true }
    let s ← updatePTEs id (s.setPage id { s.pages id with physicalPage := some page })
    let s ← assertStructureConsistency s
    some (true, s)

/-- The end of `vm_fault` after a failed read. -/
def giveUp (id : PageId) (s : State) : Option (Bool × State) := do
  let s ← (if (s.pages id).affiliated.length = 1 then removeFromFilenameBlock id s else some s)
  let s ← returnPpnRemoveFromClock id s
  let s ← assertStructureConsistency s
  some (false, s)

/-- The part of `vm_fault` that makes a page resident and accessible. -/
def pageIn (id : PageId) (writeFlag : Bool) (s : State) : Option (Bool × State) := do
  let onNullPage ← (s.pages id).onNullPage
  let (ok, s) ← (if (s.pages id).resident = false ∨
    onNullPage then bringIn id s else some (true, s))
  if ok then allowAccess id writeFlag s else giveUp id s

/-- `vm_fault(addr, false)` -/
def vmFaultRead (addr : ℕ) (s : State) : Option (Bool × State) :=
  let va := addr - addr % vmPagesize
  let s := s.touchVA s.currentPid
  match s.mapped s.currentPid va with
  | none => do
    let s ← assertStructureConsistency s
    some (false, s)
  | some id => pageIn id false s

/-- The contents of a page are copied to a physical page, unless the page has just been evicted from
it. -/
def copyContents (id : PageId) (ppn : ℕ) (s : State) : Option State :=
  if (s.pages id).resident then do
    let page ← (s.pages id).physicalPage
    some { s with physmem := update s.physmem ppn (s.physmem page.ppn) }
  else
    some s

/-- The part of `vm_fault` after a shared page has become readable: the current process gets a copy
of its own. -/
def copyOnWrite (va : ℕ) (id : PageId) (s : State) : Option State := do
  let base ← s.pageTableBaseRegister
  let ptr := vaToPTE va base
  let block ← (s.pages id).blocks.getLast?
  if ptr ∈ (s.pages id).affiliated then
    let new := s.nextPage
    let s := (s.setVA s.currentPid va new).makePage
      { VirtualPage.new with affiliated := [ptr], isSwap := true, blocks := [block] }
    let s := s.setPage id { s.pages id with
      affiliated := (s.pages id).affiliated.erase ptr
      blocks := (s.pages id).blocks.dropLast }
    let s ← giveNewPpn new s
    let page ← (s.pages new).physicalPage
    let s ← copyContents id page.ppn s
    let s := s.setPage new
      { s.pages new with physicalPage := some { page with dirty := true, clocked := true } }
    let s ← updatePTEs id s
    let s ← updatePTEs new s
    assertStructureConsistency s
  else
    none

/-- The first page table entry of a page allows reading. -/
def State.frontReadable (s : State) (id : PageId) : Option Bool :=
  (s.pages id).affiliated.head?.map fun ptr => (s.pte ptr).readEnable

/-- `vm_fault`; the result says whether it returns 0. -/
def vmFault (addr : ℕ) (writeFlag : Bool) (s : State) : Option (Bool × State) :=
  let va := addr - addr % vmPagesize
  let s := s.touchVA s.currentPid
  match s.mapped s.currentPid va with
  | none => do
    let s ← assertStructureConsistency s
    some (false, s)
  | some id =>
    if writeFlag ∧ 1 < (s.pages id).blocks.length then do
      let readable ← s.frontReadable id
      let (ok, s) ← (if readable then some (true, s) else vmFaultRead addr s)
      if ok then
        let s ← copyOnWrite va id s
        some (true, s)
      else
        some (false, s)
    else
      pageIn id writeFlag s

/-! ### File names -/

/-- The place in physical memory of an address of the current process, which is made readable first;
no place if that is not possible. -/
def locate (va : ℕ) (s : State) : Option (Option (ℕ × ℕ) × State) := do
  let block := va - va % vmPagesize
  let s := s.touchVA s.currentPid
  match s.mapped s.currentPid block with
  | none => some (none, s)
  | some id =>
    let readable ← s.frontReadable id
    let (ok, s) ← (if readable then some (true, s) else vmFaultRead va s)
    if ok then
      let id ← s.mapped s.currentPid block
      let page ← (s.pages id).physicalPage
      some (some (page.ppn, va % vmPagesize), s)
    else
      some (none, s)

/-- A byte of the physical memory. -/
def State.byte (s : State) (ppn offset : ℕ) : UInt8 :=
  s.physmem ppn (Fin.ofNat vmPagesize offset)

/-- The loop of `translate_from_other_addr_space`, which copies a string up to its NUL character.
The first argument is the end of the page where the string starts; the second bounds the number of
iterations. -/
def copyName (blockEnd : ℕ) : ℕ → (va ppn offset : ℕ) → (running : Bytes) → State →
    Option (Option Bytes × State)
  | 0, _, _, _, _, _ => none
  | n + 1, va, ppn, offset, running, s =>
    if s.byte ppn offset = 0 then
      some (some running, s)
    else do
      let running := running ++ [s.byte ppn offset]
      if blockEnd ≤ va + 1 then
        match ← locate (va + 1) s with
        | (none, s) => some (none, s)
        | (some (ppn, offset), s) => copyName blockEnd n (va + 1) ppn offset running s
      else
        copyName blockEnd n (va + 1) ppn (offset + 1) running s

/-- `translate_from_other_addr_space`. The loop ends before the string is longer than the rest of
the arena, because no address beyond it is mapped. -/
def translateFromOtherAddrSpace (theirFilename : ℕ) (s : State) :
    Option (Option Bytes × State) := do
  match ← locate theirFilename s with
  | (none, s) => some (none, s)
  | (some (ppn, offset), s) =>
    copyName (theirFilename - theirFilename % vmPagesize + vmPagesize)
      (vmArenaMaxaddr - theirFilename) theirFilename ppn offset [] s

/-! ### The interface -/

/-- `vm_init`, with what the infrastructure provides. -/
def vmInit (memoryPages swapBlocks : ℕ) (physmem : ℕ → Contents) (swapFile : ℕ → Contents)
    (files : Bytes → ℕ → Contents) (accessible : Bytes → ℕ → Bool) (garbage : ℕ → Contents) :
    State where
  processTable := ∅
  pageTables := fun _ _ => ⟨0, false, false⟩
  translateVA := ∅
  nextFreeVA := fun _ => none
  filenameBlockToVpage := ∅
  nextFreeSwap := List.range swapBlocks
  nextFreePPN := List.range' 1 (memoryPages - 1)
  clockQueue := []
  memPagesCap := memoryPages
  currentPid := 0
  pageTableBaseRegister := none
  pages := fun _ => .new
  nextPage := 0
  physmem := update physmem 0 fun _ => 0
  swapFile := swapFile
  files := files
  accessible := accessible
  garbage := garbage

/-- A swap backed page gets one more block of the swap file. -/
def reserveBlock (id : PageId) (s : State) : Option State :=
  if (s.pages id).isSwap then
    match s.nextFreeSwap with
    | [] => none
    | block :: free => some { s.setPage id
        { s.pages id with blocks := (s.pages id).blocks ++ [block] } with
      nextFreeSwap := free }
  else
    some s

/-- The loop of `vm_create` over the mappings of the parent. -/
def copyMappings (child : Pid) : List (ℕ × PageId) → State → Option State
  | [], s => some s
  | (va, id) :: rest, s => do
    let onNullPage ← (s.pages id).onNullPage
    if onNullPage then
      let (_, s) ← makeSwapToNullpage va child s
      copyMappings child rest s
    else
      let s ← reserveBlock id (s.setVA child va id)
      let s := s.setPage id
        { s.pages id with affiliated := (s.pages id).affiliated ++ [vaToPTE va child] }
      let s ← updatePTEs id s
      copyMappings child rest s

/-- The mappings of a process. -/
def State.mappings (s : State) (pid : Pid) : List (ℕ × PageId) :=
  ((s.translateVA.lookup pid).getD ∅).entries.map fun entry => (entry.1, entry.2)

/-- The effect of reading `next_free_VA[pid]`: a zero is entered if there is nothing. -/
def State.touchNextVA (s : State) (pid : Pid) : State :=
  if s.nextFreeVA pid = none then { s with nextFreeVA := update s.nextFreeVA pid (some 0) } else s

/-- The part of `vm_create` that gives the child the mappings of the parent. -/
def inherit (parent child : Pid) (order : List (ℕ × PageId)) (s : State) : Option State :=
  let s := s.touchNextVA parent
  copyMappings child order { s with nextFreeVA := update s.nextFreeVA child (s.nextFreeVA parent) }

/-- `vm_create`, with the order in which the mappings of the parent are visited; the result says
whether it returns 0. -/
def vmCreate (parent child : Pid) (order : List (ℕ × PageId)) (s : State) :
    Option (Bool × State) := do
  let s := if child ∈ s.processTable then s else { s with
    processTable := insert child s.processTable
    pageTables := update s.pageTables child fun _ => ⟨0, false, false⟩ }
  let s : State := { s with nextFreeVA := update s.nextFreeVA child (some vmArenaBaseaddr) }
  let swapNeeded := (order.filter fun entry => (s.pages entry.2).isSwap).length
  if parent ∈ s.translateVA ∧ s.nextFreeSwap.length < swapNeeded then
    some (false, { s with
      processTable := s.processTable.erase child
      nextFreeVA := update s.nextFreeVA child none })
  else
    let s ← (if parent ∈ s.translateVA then inherit parent child order s else some s)
    let s := if parent ∈ s.processTable then s else
      { s with currentPid := child, pageTableBaseRegister := some child }
    let s ← assertStructureConsistency s
    some (true, s)

/-- The part of `vm_map` that maps an address of the current process to a block of a file. -/
def mapFile (va : ℕ) (filename : Bytes) (block : ℕ) (s : State) : Option State := do
  let base ← s.pageTableBaseRegister
  match s.filenameBlockToVpage.lookup (filename, block) with
  | some id =>
    let s := s.setVA s.currentPid va id
    updatePTEs id (s.setPage id
      { s.pages id with affiliated := (s.pages id).affiliated ++ [vaToPTE va base] })
  | none =>
    let id := s.nextPage
    let s := (s.setVA s.currentPid va id).makePage
      { VirtualPage.new with filename, blocks := [block], affiliated := [vaToPTE va base] }
    updatePTEs id { s with
      filenameBlockToVpage := s.filenameBlockToVpage.insert (filename, block) id }

/-- The part of `vm_map` that maps an address of the current process; the result says whether it
succeeds. -/
def mapAddress (virtualAddr theirFilename block : ℕ) (s : State) : Option (Bool × State) :=
  if theirFilename ≠ 0 then do
    match ← translateFromOtherAddrSpace theirFilename s with
    | (none, s) => some (false, s)
    | (some ourFilename, s) =>
      let s ← mapFile virtualAddr ourFilename block s
      some (true, s)
  else
    makeSwapToNullpage virtualAddr s.currentPid s

/-- `vm_map`; the null pointer is 0 as a file name and no value as a result. -/
def vmMap (theirFilename block : ℕ) (s : State) : Option (Option ℕ × State) := do
  let s := s.touchNextVA s.currentPid
  let virtualAddr ← s.nextFreeVA s.currentPid
  if vmArenaMaxaddr ≤ virtualAddr then
    let s ← assertStructureConsistency s
    some (none, s)
  else
    let (ok, s) ← mapAddress virtualAddr theirFilename block s
    if ok then
      let s ← assertStructureConsistency { s with
        nextFreeVA := update s.nextFreeVA s.currentPid (some (virtualAddr + vmPagesize)) }
      some (some virtualAddr, s)
    else
      some (none, s)

/-- `vm_switch` -/
def vmSwitch (pid : Pid) (s : State) : Option State :=
  if pid ∈ s.processTable then
    assertStructureConsistency { s with currentPid := pid, pageTableBaseRegister := some pid }
  else
    none

/-- A swap backed page gives back one of its blocks of the swap file. -/
def releaseBlock (id : PageId) (s : State) : Option State :=
  if (s.pages id).isSwap then do
    let block ← (s.pages id).blocks.getLast?
    some { s.setPage id { s.pages id with blocks := (s.pages id).blocks.dropLast } with
      nextFreeSwap := s.nextFreeSwap ++ [block] }
  else
    some s

/-- A page without blocks gives back its physical page. -/
def releaseFrame (id : PageId) (s : State) : Option State := do
  let onNullPage ← (s.pages id).onNullPage
  if (s.pages id).resident ∧ onNullPage = false ∧ (s.pages id).blocks = [] then
    returnPpnRemoveFromClock id s
  else
    some s

/-- The loop of `vm_destroy` over the mappings of the current process. -/
def dropMappings : List (ℕ × PageId) → State → Option State
  | [], s => some s
  | (va, id) :: rest, s => do
    let s ← releaseBlock id s
    let s ← releaseFrame id s
    let base ← s.pageTableBaseRegister
    let ptr := vaToPTE va base
    if ptr ∈ (s.pages id).affiliated then
      let s ← updatePTEsIfAny id (s.setPage id
        { s.pages id with affiliated := (s.pages id).affiliated.erase ptr })
      dropMappings rest s
    else
      none

/-- `vm_destroy`, with the order in which the mappings are visited. The page table of the process is
freed, so that nothing can be reached through the page table base register any more. -/
def vmDestroy (order : List (ℕ × PageId)) (s : State) : Option State := do
  let s ← dropMappings order (s.touchVA s.currentPid)
  assertStructureConsistency { s with
    translateVA := s.translateVA.erase s.currentPid
    processTable := s.processTable.erase s.currentPid
    nextFreeVA := update s.nextFreeVA s.currentPid none
    pageTableBaseRegister := s.pageTableBaseRegister.filter fun pid => pid ≠ s.currentPid }

end OsFromScratch.Pager
