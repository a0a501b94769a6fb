import Mathlib.Data.List.Perm.Basic
import Mathlib.Order.Interval.Set.Defs
import OsFromScratch.Lib.Ownership
import OsFromScratch.Pager.VmPager

/-!
# The invariant of the pager

What holds of the state of the pager between two of its operations. Its parts are separate because
the operations pass through states in which only some of them hold: the loops of `vm_create` and
`vm_destroy` visit the mappings of a process one by one, and the page table entries of a page are
behind its state until `updatePTEs` is called.

## Main definitions

* `Mappings` — the pages agree with the virtual addresses that are mapped to them, and the blocks of
  the swap file are divided among them.
* `Frames` — the physical pages are divided among the pages, and the queue holds those that have
  one.
* `Spaces` — the processes and their valid addresses.
* `Queued` — every page in the queue still exists.
* `Ptes` — the page table entries are what `updatePTEs` computes.
* `Core`, `WellFormed` — all of them, without and with the page tables.

## Main results

* `Ptes.updatePTEs` — `updatePTEs` brings the page table entries of a page up to date.
* `WellFormed.consistent` — `assert_structure_consistency` finds nothing wrong.
-/

namespace OsFromScratch.Pager

open Function

/-! ### Addresses -/

/-- The address of a page of the arena. -/
def pageAddr (i : ℕ) : ℕ :=
  vmArenaBaseaddr + i * vmPagesize

theorem pageAddr_injective : Injective pageAddr := by
  intro i j h
  simp only [pageAddr, vmArenaBaseaddr, vmPagesize] at h
  omega

theorem vaToPTE_pageAddr (i : ℕ) (pid : Pid) : vaToPTE (pageAddr i) pid = ⟨pid, i⟩ := by
  simp [vaToPTE, pageAddr, vmPagesize]

/-- The page that a page table entry is for. -/
def State.entryPage (s : State) (ptr : PtePtr) : Option PageId :=
  s.mapped ptr.pid (pageAddr ptr.index)

theorem State.mapped_setVA (s : State) (pid : Pid) (va : ℕ) (id : PageId) (pid' : Pid) (va' : ℕ) :
    (s.setVA pid va id).mapped pid' va' =
      if pid' = pid ∧ va' = va then some id else s.mapped pid' va' := by
  unfold State.mapped State.setVA
  by_cases hpid : pid' = pid
  · subst hpid
    by_cases hva : va' = va
    · subst hva
      simp
    · rw [AList.lookup_insert, if_neg fun h => hva h.2]
      simp only [Option.bind_some]
      rw [AList.lookup_insert_ne hva]
      cases s.translateVA.lookup pid' with
      | none => rfl
      | some vas => rfl
  · rw [AList.lookup_insert_ne hpid, if_neg fun h => hpid h.1]

theorem State.mapped_touchVA (s : State) (pid : Pid) : (s.touchVA pid).mapped = s.mapped := by
  funext pid' va
  unfold State.touchVA State.mapped
  split_ifs with hpid
  · rfl
  · by_cases h : pid' = pid
    · subst h
      rw [AList.lookup_insert, AList.lookup_eq_none.mpr hpid]
      rfl
    · rw [AList.lookup_insert_ne h]

theorem State.entryPage_setVA (s : State) (pid : Pid) (i : ℕ) (id : PageId) :
    (s.setVA pid (pageAddr i) id).entryPage = update s.entryPage ⟨pid, i⟩ (some id) := by
  funext ⟨pid', j⟩
  rw [State.entryPage, State.mapped_setVA, update_apply]
  simp only [pageAddr_injective.eq_iff, PtePtr.mk.injEq]
  rfl

theorem State.mapped_iff_entries {s : State} {pid : Pid} {va : ℕ} {id : PageId} :
    s.mapped pid va = some id ↔
      ∃ process ∈ s.translateVA.entries, ∃ entry ∈ process.2.entries,
        process.1 = pid ∧ entry.1 = va ∧ entry.2 = id := by
  constructor
  · intro h
    obtain ⟨vas, hvas, hid⟩ := Option.bind_eq_some_iff.mp h
    exact ⟨⟨pid, vas⟩, AList.mem_lookup_iff.mp hvas, ⟨va, id⟩, AList.mem_lookup_iff.mp hid,
      rfl, rfl, rfl⟩
  · rintro ⟨⟨pid, vas⟩, hvas, ⟨va, id⟩, hid, rfl, rfl, rfl⟩
    exact Option.bind_eq_some_iff.mpr
      ⟨vas, AList.mem_lookup_iff.mpr hvas, AList.mem_lookup_iff.mpr hid⟩

theorem State.exists_iff {s : State} {id : PageId} :
    s.Exists id ↔ (∃ pid va, s.mapped pid va = some id) ∨
      ∃ key, s.filenameBlockToVpage.lookup key = some id := by
  refine or_congr ?_ ?_
  · constructor
    · rintro ⟨process, hprocess, entry, hentry, rfl⟩
      exact ⟨process.1, entry.1,
        State.mapped_iff_entries.mpr ⟨process, hprocess, entry, hentry, rfl, rfl, rfl⟩⟩
    · rintro ⟨pid, va, h⟩
      obtain ⟨process, hprocess, entry, hentry, -, -, hid⟩ := State.mapped_iff_entries.mp h
      exact ⟨process, hprocess, entry, hentry, hid⟩
  · constructor
    · rintro ⟨⟨key, id⟩, hentry, rfl⟩
      exact ⟨key, AList.mem_lookup_iff.mpr hentry⟩
    · rintro ⟨key, h⟩
      exact ⟨⟨key, id⟩, AList.mem_lookup_iff.mp h, rfl⟩

/-! ### The parts of the invariant -/

/-- The physical page of a page, other than the physical page 0. -/
def VirtualPage.frame (v : VirtualPage) : List ℕ :=
  ((v.physicalPage.map PhysicalPage.ppn).filter fun ppn => ppn ≠ 0).toList

/-- The blocks of the swap file that belong to a page. -/
def VirtualPage.swapBlocks (v : VirtualPage) : List ℕ :=
  if v.isSwap then v.blocks else []

/-- Who has which physical pages: those that nobody has are in `next_free_PPN`. -/
def State.frameOwner (s : State) : Option PageId → List ℕ
  | none => s.nextFreePPN
  | some id => (s.pages id).frame

/-- Who has which blocks of the swap file: those that nobody has are in `next_free_swap`. -/
def State.blockOwner (s : State) : Option PageId → List ℕ
  | none => s.nextFreeSwap
  | some id => (s.pages id).swapBlocks

/-- The pages agree with the virtual addresses that are mapped to them, as the function `M` gives
them, and the `n` blocks of the swap file are divided among them. -/
structure Mappings (n : ℕ) (M : PtePtr → Option PageId) (s : State) : Prop where
  attached : ∀ id ptr, ptr ∈ (s.pages id).affiliated ↔ M ptr = some id
  nodup : ∀ id, (s.pages id).affiliated.Nodup
  swap : ∀ id, (s.pages id).isSwap = true →
    (s.pages id).blocks.length = (s.pages id).affiliated.length
  file : ∀ id, (s.pages id).isSwap = false → id < s.nextPage → ∃ block,
    (s.pages id).blocks = [block]
  fresh : ∀ id, s.nextPage ≤ id → s.pages id = .new
  registry : ∀ filename block id, s.filenameBlockToVpage.lookup (filename, block) = some id →
    (s.pages id).isSwap = false ∧ (s.pages id).filename = filename ∧ (s.pages id).blocks = [block]
  blocks : Divided s.blockOwner (Set.Iio n)

/-- The physical pages other than 0 are divided among the pages, the queue holds those that have
one, and the physical page 0 is zero, at least if the page table entries can name all physical
pages. Pages on it have never been written, and a page of a file is only in memory if its block can
be accessed. -/
structure Frames (m : ℕ) (s : State) : Prop where
  resident : ∀ id, (s.pages id).resident = (s.pages id).physicalPage.isSome
  null_page : ∀ id, ∀ page ∈ (s.pages id).physicalPage, page.ppn = 0 →
    (s.pages id).isSwap = true ∧ (s.pages id).blocks.length ≤ 1 ∧
      page.clocked = true ∧ page.dirty = false
  queue_nodup : s.clockQueue.Nodup
  mem_queue : ∀ id, id ∈ s.clockQueue ↔ (s.pages id).frame ≠ []
  frames : Divided s.frameOwner (Set.Ico 1 m)
  size : s.clockQueue.length + s.nextFreePPN.length + 1 = m
  cap : s.memPagesCap = m
  zero : m ≤ 2 ^ 20 → s.physmem 0 = fun _ => 0
  loaded : ∀ id, (s.pages id).resident = true → (s.pages id).isSwap = false →
    ∀ block ∈ (s.pages id).blocks, s.accessible (s.pages id).filename block = true

/-- The processes that have mappings are managed, and their valid addresses are the pages of the
arena below `next_free_VA`. -/
structure Spaces (s : State) : Prop where
  live : ∀ pid ∈ s.translateVA, pid ∈ s.processTable
  unmanaged : ∀ pid, pid ∉ s.processTable → s.nextFreeVA pid = none
  aligned : ∀ pid va id, s.mapped pid va = some id → ∃ i, va = pageAddr i
  next : ∀ pid ∈ s.processTable, ∃ n ≤ 256, s.nextFreeVA pid = some (pageAddr n) ∧
    ∀ i, (s.entryPage ⟨pid, i⟩).isSome ↔ i < n

/-- Every page in the queue is mapped by some process or in the registry of file pages. -/
def Queued (s : State) : Prop :=
  ∀ id ∈ s.clockQueue, (s.pages id).affiliated ≠ [] ∨
    ∃ key, s.filenameBlockToVpage.lookup key = some id

/-- The page table entries of a page are what `updatePTEs` computes. -/
def State.UpToDate (s : State) (id : PageId) : Prop :=
  ∀ ptr ∈ (s.pages id).affiliated,
    (s.pte ptr).readEnable = (s.pages id).bits.1 ∧ (s.pte ptr).writeEnable = (s.pages id).bits.2 ∧
    ∀ page ∈ (s.pages id).physicalPage, (s.pages id).resident = true →
      (s.pte ptr).ppage = BitVec.ofNat 20 page.ppn

/-- The page table entries are what `updatePTEs` computes, except perhaps those of the pages in `E`,
and the entries of the processes in `L` for addresses that are not mapped allow nothing. -/
structure Ptes (E : Set PageId) (L : Set Pid) (M : PtePtr → Option PageId) (s : State) : Prop where
  page : ∀ id, id ∉ E → s.UpToDate id
  unmapped : ∀ ptr, ptr.pid ∈ L → M ptr = none →
    (s.pte ptr).readEnable = false ∧ (s.pte ptr).writeEnable = false

/-- What holds of the state of a pager with `m` physical pages and `n` blocks in the swap file,
apart from the page tables. -/
structure Core (m n : ℕ) (s : State) : Prop where
  mappings : Mappings n s.entryPage s
  frames : Frames m s
  spaces : Spaces s
  queued : Queued s

/-- The page tables are up to date, except perhaps for the pages in `E`. -/
def TablesUpToDate (E : Set PageId) (s : State) : Prop :=
  Ptes E {pid | pid ∈ s.processTable} s.entryPage s

/-- What holds of the state of a pager with `m` physical pages and `n` blocks in the swap file. -/
structure WellFormed (m n : ℕ) (s : State) : Prop extends Core m n s where
  ptes : TablesUpToDate ∅ s

/-! ### Page table entries -/

/-- The state with other page tables. -/
def State.withTables (s : State) (tables : Pid → ℕ → PageTableEntry) : State :=
  { s with pageTables := tables }

theorem Mappings.withTables {n : ℕ} {M : PtePtr → Option PageId} {s : State}
    (h : Mappings n M s) (tables : Pid → ℕ → PageTableEntry) : Mappings n M (s.withTables tables) :=
  { h with }

theorem Frames.withTables {m : ℕ} {s : State} (h : Frames m s)
    (tables : Pid → ℕ → PageTableEntry) : Frames m (s.withTables tables) :=
  { h with }

theorem Spaces.withTables {s : State} (h : Spaces s) (tables : Pid → ℕ → PageTableEntry) :
    Spaces (s.withTables tables) :=
  { h with }

theorem State.upToDate_of_affiliated_nil {s : State} {id : PageId}
    (h : (s.pages id).affiliated = []) : s.UpToDate id := by
  intro ptr hptr
  rw [h] at hptr
  simp at hptr

/-- `updatePTEs` brings the page table entries of a page up to date, and leaves the others as they
are. -/
theorem Ptes.updatePTEs {E : Set PageId} {L : Set Pid} {M : PtePtr → Option PageId} {s : State}
    (h : Ptes E L M s) (id : PageId)
    (hattached : ∀ id ptr, ptr ∈ (s.pages id).affiliated → M ptr = some id)
    (hid : (s.pages id).Updatable) :
    ∃ tables, Pager.updatePTEs id s = some (s.withTables tables) ∧
      Ptes (E \ {id}) L M (s.withTables tables) := by
  refine ⟨_, by rw [Pager.updatePTEs, if_pos hid]; rfl, ⟨fun id' hid' ptr hptr => ?_,
    fun ptr hptr hnone => ?_⟩⟩
  · have hpage : (s.withTables _).pages = s.pages := rfl
    by_cases heq : id' = id
    · subst heq
      simp only [State.pte, State.withTables, if_pos (show (⟨ptr.pid, ptr.index⟩ : PtePtr) ∈
        (s.pages id').affiliated from hptr)]
      refine ⟨rfl, rfl, fun page hpage hres => ?_⟩
      simp only [VirtualPage.entry]
      rw [show (s.pages id').physicalPage = some page from hpage]
      rfl
    · -- the entries of another page are not among those that are written
      have hnot : (⟨ptr.pid, ptr.index⟩ : PtePtr) ∉ (s.pages id).affiliated := fun hmem =>
        heq (Option.some.inj ((hattached id' ptr hptr).symm.trans (hattached id ptr hmem)))
      simp only [State.pte, State.withTables, if_neg hnot]
      exact h.page id' (fun hE => hid' ⟨hE, heq⟩) ptr hptr
  · have hnot : (⟨ptr.pid, ptr.index⟩ : PtePtr) ∉ (s.pages id).affiliated := fun hmem => by
      rw [hattached id ptr hmem] at hnone
      simp at hnone
    simp only [State.pte, State.withTables, if_neg hnot]
    exact h.unmapped ptr hptr hnone

/-! ### Consistency -/

theorem Spaces.mem_entry {s : State} (h : Spaces s) {pid : Pid} {va : ℕ} {id : PageId}
    (hva : s.mapped pid va = some id) :
    ∃ i, va = pageAddr i ∧ s.entryPage ⟨pid, i⟩ = some id ∧ vaToPTE va pid = ⟨pid, i⟩ := by
  obtain ⟨i, rfl⟩ := h.aligned pid va id hva
  exact ⟨i, rfl, hva, vaToPTE_pageAddr i pid⟩

theorem Spaces.mem_processTable {s : State} (h : Spaces s) {pid : Pid} {va : ℕ} {id : PageId}
    (hva : s.mapped pid va = some id) : pid ∈ s.processTable := by
  obtain ⟨vas, hvas, -⟩ := Option.bind_eq_some_iff.mp hva
  exact h.live pid (AList.lookup_isSome.mp (by rw [hvas]; rfl))

/-- The virtual addresses that are mapped to a page. -/
private def addressesOf (s : State) (id : PageId) : List (Pid × ℕ) :=
  s.translateVA.entries.flatMap fun process =>
    (process.2.entries.filter fun entry => entry.2 = id).map fun entry => (process.1, entry.1)

private theorem mem_addressesOf {s : State} {id : PageId} {pid : Pid} {va : ℕ} :
    (pid, va) ∈ addressesOf s id ↔ s.mapped pid va = some id := by
  rw [State.mapped_iff_entries]
  simp only [addressesOf, List.mem_flatMap, List.mem_map, List.mem_filter, decide_eq_true_eq,
    Prod.mk.injEq]
  constructor
  · rintro ⟨process, hprocess, entry, ⟨hentry, hid⟩, rfl, rfl⟩
    exact ⟨process, hprocess, entry, hentry, rfl, rfl, hid⟩
  · rintro ⟨process, hprocess, entry, hentry, rfl, rfl, hid⟩
    exact ⟨process, hprocess, entry, ⟨hentry, hid⟩, rfl, rfl⟩

private theorem nodup_addressesOf (s : State) (id : PageId) : (addressesOf s id).Nodup := by
  refine List.nodup_flatMap.mpr ⟨fun process _ => ?_, ?_⟩
  · have hkeys : (process.2.entries.map Sigma.fst).Nodup := process.2.nodupKeys
    refine List.Nodup.map_on ?_ ((hkeys.of_map _).filter _)
    intro a ha b hb hab
    exact List.inj_on_of_nodup_map hkeys (List.mem_of_mem_filter ha) (List.mem_of_mem_filter hb)
      (Prod.mk.inj hab).2
  · refine (List.nodupKeys_iff_pairwise.mp s.translateVA.nodupKeys).imp ?_
    intro a b hab
    simp only [List.disjoint_left, List.mem_map, Function.onFun]
    rintro x ⟨_, -, rfl⟩ ⟨_, -, hx⟩
    exact hab (Prod.mk.inj hx).1.symm

private theorem length_addressesOf (s : State) (id : PageId) :
    (addressesOf s id).length = s.numMappedTo id := by
  simp only [addressesOf, State.numMappedTo, List.length_flatMap, List.count_flatMap]
  congr 1
  refine List.map_congr_left fun process _ => ?_
  simp [List.count, List.countP_eq_length_filter, List.filter_map, Function.comp_def, beq_eq_decide]

theorem Mappings.length_affiliated {n : ℕ} {s : State} (h : Mappings n s.entryPage s)
    (hspaces : Spaces s) (id : PageId) :
    (s.pages id).affiliated.length = s.numMappedTo id := by
  have hinj : Injective fun ptr : PtePtr => (ptr.pid, pageAddr ptr.index) := by
    rintro ⟨pid, i⟩ ⟨pid', i'⟩ heq
    rw [Prod.mk.injEq, pageAddr_injective.eq_iff] at heq
    rw [PtePtr.mk.injEq]
    exact heq
  have hperm : ((s.pages id).affiliated.map fun ptr => (ptr.pid, pageAddr ptr.index)).Perm
      (addressesOf s id) := by
    refine (List.perm_ext_iff_of_nodup ((h.nodup id).map hinj) (nodup_addressesOf s id)).mpr ?_
    rintro ⟨pid, va⟩
    rw [mem_addressesOf, List.mem_map]
    constructor
    · rintro ⟨ptr, hptr, heq⟩
      rw [Prod.mk.injEq] at heq
      obtain ⟨rfl, rfl⟩ := heq
      exact (h.attached id ptr).mp hptr
    · intro hva
      obtain ⟨i, rfl, hentry, -⟩ := hspaces.mem_entry hva
      exact ⟨⟨pid, i⟩, (h.attached id _).mpr hentry, rfl⟩
  rw [← length_addressesOf, ← hperm.length_eq, List.length_map]

theorem VirtualPage.mem_frame {v : VirtualPage} {ppn : ℕ} :
    ppn ∈ v.frame ↔ ppn ≠ 0 ∧ ∃ page ∈ v.physicalPage, page.ppn = ppn := by
  cases h : v.physicalPage with
  | none => simp [VirtualPage.frame, h]
  | some page =>
    by_cases hppn : page.ppn = 0
    · simp [VirtualPage.frame, h, hppn, Option.filter]
      omega
    · simp [VirtualPage.frame, h, hppn, Option.filter]
      omega

theorem VirtualPage.frame_eq_nil_iff {v : VirtualPage} :
    v.frame = [] ↔ ∀ page ∈ v.physicalPage, page.ppn = 0 := by
  rw [List.eq_nil_iff_forall_not_mem]
  constructor
  · intro h page hpage
    by_contra hne
    exact h page.ppn (VirtualPage.mem_frame.mpr ⟨hne, page, hpage, rfl⟩)
  · intro h ppn hppn
    obtain ⟨hne, page, hpage, rfl⟩ := VirtualPage.mem_frame.mp hppn
    exact hne (h page hpage)

/-- The entries of a page that is mapped somewhere can be updated. -/
theorem Mappings.updatable {m n : ℕ} {M : PtePtr → Option PageId} {s : State} (h : Mappings n M s)
    (hframes : Frames m s) {id : PageId} (hid : (s.pages id).affiliated ≠ []) :
    (s.pages id).Updatable := by
  refine ⟨hid, fun hres => ?_⟩
  rw [hframes.resident, Option.isSome_iff_exists] at hres
  obtain ⟨page, hpage⟩ := hres
  exact ⟨page, hpage, fun _ hswap => (h.swap id hswap).symm⟩

/-- A swap backed page that is shared cannot be written. -/
theorem VirtualPage.bits_shared {v : VirtualPage} (hswap : v.isSwap = true)
    (hshared : 1 < v.affiliated.length) : v.bits.2 = false := by
  unfold VirtualPage.bits
  split
  · split_ifs with hclocked hone
    · rcases hone with hone | hone
      · simp [hswap] at hone
      · omega
    · rfl
    · rfl
  · rfl

theorem WellFormed.vaConsistent {m n : ℕ} {s : State} (h : WellFormed m n s) {pid : Pid} {va : ℕ}
    {id : PageId} (hva : s.mapped pid va = some id) : s.VaConsistent pid va id := by
  obtain ⟨i, rfl, hentry, hpte⟩ := h.spaces.mem_entry hva
  have hmem := (h.mappings.attached id ⟨pid, i⟩).mpr hentry
  have haff : (s.pages id).affiliated ≠ [] := List.ne_nil_of_mem hmem
  have hpid := h.spaces.mem_processTable hva
  have hlt : id < s.nextPage := by
    by_contra hge
    rw [h.mappings.fresh id (not_lt.mp hge)] at haff
    exact haff rfl
  have huptodate := h.ptes.page id (Set.notMem_empty id)
  refine ⟨hpid, ?_, ?_, fun hswap => ⟨?_, h.mappings.swap id hswap, ?_⟩, fun hfile => ?_,
    h.frames.resident id, fun page hpage _ hfree => ?_, h.mappings.updatable h.frames haff,
    hpte ▸ hmem, fun ptr hptr => huptodate ptr hptr, fun page hpage _ hppn => ?_,
    h.mappings.length_affiliated h.spaces id⟩
  · cases hswap : (s.pages id).isSwap with
    | false =>
      obtain ⟨block, hblock⟩ := h.mappings.file id hswap hlt
      simp [hblock]
    | true =>
      rw [ne_eq, ← List.length_eq_zero_iff, h.mappings.swap id hswap, List.length_eq_zero_iff]
      exact haff
  · obtain ⟨next, -, hnext, hvalid⟩ := h.spaces.next pid hpid
    refine ⟨pageAddr next, hnext, ?_⟩
    have hi := (hvalid i).mp (by rw [hentry]; rfl)
    simp only [pageAddr, vmPagesize]
    omega
  · intro block hblock hfree
    have howns : block ∈ s.blockOwner (some id) := by
      simpa [State.blockOwner, VirtualPage.swapBlocks, hswap] using hblock
    simpa using h.mappings.blocks.disjoint none (some id) block hfree howns
  · intro hshared ptr hptr
    rw [(huptodate ptr hptr).2.1]
    exact VirtualPage.bits_shared hswap hshared
  · obtain ⟨block, hblock⟩ := h.mappings.file id hfile hlt
    rw [hblock]
    rfl
  · have hne : page.ppn ≠ 0 := by
      have := h.frames.frames.mem (p := none) hfree
      simp only [Set.mem_Ico] at this
      omega
    simpa using h.frames.frames.disjoint none (some id) page.ppn hfree
      (VirtualPage.mem_frame.mpr ⟨hne, page, hpage, rfl⟩)
  · rw [h.frames.mem_queue]
    exact List.ne_nil_of_mem (VirtualPage.mem_frame.mpr ⟨hppn, page, hpage, rfl⟩)

theorem Frames.page_of_mem_queue {m : ℕ} {s : State} (h : Frames m s) {id : PageId}
    (hid : id ∈ s.clockQueue) :
    (s.pages id).resident = true ∧ ∃ page ∈ (s.pages id).physicalPage, page.ppn ≠ 0 := by
  have hframe := (h.mem_queue id).mp hid
  rw [ne_eq, VirtualPage.frame_eq_nil_iff] at hframe
  push Not at hframe
  obtain ⟨page, hpage, hppn⟩ := hframe
  refine ⟨?_, page, hpage, hppn⟩
  rw [h.resident, Option.isSome_iff_exists]
  exact ⟨page, hpage⟩

theorem Queued.exists {n : ℕ} {s : State} (h : Queued s) (hmappings : Mappings n s.entryPage s)
    {id : PageId} (hid : id ∈ s.clockQueue) : s.Exists id := by
  rw [State.exists_iff]
  refine (h id hid).imp_left fun haff => ?_
  obtain ⟨ptr, hptr⟩ := List.exists_mem_of_ne_nil _ haff
  exact ⟨ptr.pid, _, (hmappings.attached id ptr).mp hptr⟩

/-- All assertions of `assert_structure_consistency` hold. -/
theorem WellFormed.consistent {m n : ℕ} {s : State} (h : WellFormed m n s) : s.Consistent := by
  refine ⟨fun process hprocess entry hentry => h.vaConsistent (State.mapped_iff_entries.mpr
    ⟨process, hprocess, entry, hentry, rfl, rfl, rfl⟩), ?_, fun id hid =>
    ⟨h.queued.exists h.mappings hid, h.frames.page_of_mem_queue hid⟩⟩
  rw [h.frames.cap]
  exact h.frames.size

theorem WellFormed.assertStructureConsistency {m n : ℕ} {s : State} (h : WellFormed m n s) :
    assertStructureConsistency s = some s :=
  if_pos h.consistent

end OsFromScratch.Pager
