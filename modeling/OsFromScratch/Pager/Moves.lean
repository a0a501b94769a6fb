import Mathlib.Logic.Relation
import OsFromScratch.Pager.Invariant

/-!
# Moves of pages between memory and files

The changes that the pager makes to the places where pages are kept, without a change to what is
mapped: the hand of the clock turns, a page is evicted, a page is brought into memory, a page of
zeroes gets a physical page of its own, a page is marked as used, and a file cannot be read. Faults
are sequences of such moves.

## Main definitions

* `State.turnClock`, `State.evict`, `State.allocate`, `State.touch`, `State.failRead` — the changes.
* `Move` — one of the moves, made when it is possible.
* `Relocation` — only the places of pages differ between two states.

## Main results

* `Move.mappings`, `Move.frames`, `Move.spaces`, `Move.queued` — a move preserves the invariant.
-/

namespace OsFromScratch.Pager

open Function

/-! ### The changes -/

/-- The page has not been used since the hand of the clock passed it. -/
def VirtualPage.unclock (v : VirtualPage) : VirtualPage :=
  { v with physicalPage := v.physicalPage.map fun page => { page with clocked := false } }

/-- The page has been used since the hand of the clock passed it. -/
def State.clocked (s : State) (id : PageId) : Bool :=
  (s.pages id).physicalPage.any PhysicalPage.clocked

/-- The hand of the clock passes the pages that have been used, up to one that has not. -/
def State.turnClock (s : State) : State :=
  { s with
    pages := fun id =>
      if id ∈ s.clockQueue.takeWhile s.clocked then (s.pages id).unclock else s.pages id
    clockQueue := s.clockQueue.dropWhile s.clocked ++ s.clockQueue.takeWhile s.clocked }

/-- The contents of a page in its file. -/
def State.backing (s : State) (v : VirtualPage) : Contents :=
  if v.isSwap then s.swapFile (v.blocks.headD 0) else s.files v.filename (v.blocks.headD 0)

/-- A page is written back if it has been changed. -/
def State.writeBack (s : State) (id : PageId) : State :=
  match (s.pages id).physicalPage with
  | some page => if page.dirty then (fileWrite (s.pages id) page.ppn s).getD s else s
  | none => s

/-- A page gives up its physical page. A page of a file that is not mapped leaves the registry. -/
def State.evict (s : State) (id : PageId) : State :=
  { s with
    swapFile := (s.writeBack id).swapFile
    files := (s.writeBack id).files
    pages := update s.pages id { s.pages id with resident := false, physicalPage := none }
    clockQueue := s.clockQueue.erase id
    nextFreePPN := s.nextFreePPN ++ (s.pages id).frame
    filenameBlockToVpage :=
      if (s.pages id).isSwap = false ∧ (s.pages id).affiliated = [] then
        s.filenameBlockToVpage.erase ((s.pages id).filename, (s.pages id).blocks.headD 0)
      else
        s.filenameBlockToVpage }

/-- A page gets the first free physical page. -/
def State.allocate (s : State) (id : PageId) (page : PhysicalPage) (contents : Contents) : State :=
  { s with
    pages := update s.pages id { s.pages id with resident := true, physicalPage := some page }
    physmem := update s.physmem page.ppn contents
    clockQueue := s.clockQueue ++ [id]
    nextFreePPN := s.nextFreePPN.tail }

/-- A page in memory is used. -/
def State.touch (s : State) (id : PageId) (page : PhysicalPage) (writeFlag : Bool) : State :=
  s.setPage id { s.pages id with
    physicalPage := some { page with dirty := page.dirty || writeFlag, clocked := true } }

/-- A page of a file is read without success. If it is mapped once, it leaves the registry. -/
def State.failRead (s : State) (id : PageId) (ppn : ℕ) : State :=
  { s with
    physmem := update s.physmem ppn (s.garbage 0)
    garbage := fun k => s.garbage (k + 1)
    nextFreePPN := s.nextFreePPN.tail ++ [ppn]
    filenameBlockToVpage :=
      if (s.pages id).affiliated.length = 1 then
        s.filenameBlockToVpage.erase ((s.pages id).filename, (s.pages id).blocks.headD 0)
      else
        s.filenameBlockToVpage }

/-- The block of a page can be read. -/
def State.Readable (s : State) (id : PageId) : Prop :=
  (s.pages id).isSwap = true ∨
    s.accessible (s.pages id).filename ((s.pages id).blocks.headD 0) = true

/-- A move of pages between memory and files; the page tables change in a way that is left open. The
proposition `strict` says that a page of zeroes only gets a physical page of its own when it is
written, and `keep` that no page that is mapped leaves the registry. -/
inductive Move (strict keep : Prop) : State → State → Prop
  | turnClock {s : State} (tables : Pid → ℕ → PageTableEntry) (hfree : s.nextFreePPN = []) :
    Move strict keep s (s.turnClock.withTables tables)
  | evict {s : State} (tables : Pid → ℕ → PageTableEntry) {id : PageId} {rest : List PageId}
    (hfree : s.nextFreePPN = []) (hqueue : s.clockQueue = id :: rest) :
    Move strict keep s ((s.evict id).withTables tables)
  | fetch {s : State} (tables : Pid → ℕ → PageTableEntry) {id : PageId} {ppn : ℕ} {rest : List ℕ}
    (hfree : s.nextFreePPN = ppn :: rest) (hmapped : (s.pages id).affiliated ≠ [])
    (habsent : (s.pages id).physicalPage = none) (hread : s.Readable id) :
    Move strict keep s ((s.allocate id ⟨ppn, true, false⟩
      (s.backing (s.pages id))).withTables tables)
  | unzero {s : State} (tables : Pid → ℕ → PageTableEntry) {id : PageId} {ppn : ℕ} {rest : List ℕ}
    {page : PhysicalPage} {writeFlag : Bool} (hfree : s.nextFreePPN = ppn :: rest)
    (hmapped : (s.pages id).affiliated ≠ []) (hpage : (s.pages id).physicalPage = some page)
    (hppn : page.ppn = 0) (hstrict : strict → writeFlag = true) :
    Move strict keep s ((s.allocate id ⟨ppn, true, writeFlag⟩ fun _ => 0).withTables tables)
  | touch {s : State} (tables : Pid → ℕ → PageTableEntry) {id : PageId} {page : PhysicalPage}
    (writeFlag : Bool) (hmapped : (s.pages id).affiliated ≠ [])
    (hpage : (s.pages id).physicalPage = some page) (hppn : page.ppn ≠ 0) :
    Move strict keep s ((s.touch id page writeFlag).withTables tables)
  | failRead {s : State} (tables : Pid → ℕ → PageTableEntry) {id : PageId} {ppn : ℕ}
    {rest : List ℕ} (hfree : s.nextFreePPN = ppn :: rest) (hmapped : (s.pages id).affiliated ≠ [])
    (habsent : (s.pages id).physicalPage = none) (hread : ¬s.Readable id)
    (hkeep : keep → (s.pages id).affiliated.length ≠ 1) :
    Move strict keep s ((s.failRead id ppn).withTables tables)

/-! ### What stays the same -/

/-- Two states differ only in the places where pages are kept, in the page tables, and in pages that
have left the registry. -/
structure Relocation (s s' : State) : Prop where
  processTable : s'.processTable = s.processTable
  translateVA : s'.translateVA = s.translateVA
  nextFreeVA : s'.nextFreeVA = s.nextFreeVA
  nextFreeSwap : s'.nextFreeSwap = s.nextFreeSwap
  currentPid : s'.currentPid = s.currentPid
  register : s'.pageTableBaseRegister = s.pageTableBaseRegister
  nextPage : s'.nextPage = s.nextPage
  accessible : s'.accessible = s.accessible
  memPagesCap : s'.memPagesCap = s.memPagesCap
  page : ∀ id, ∃ page resident,
    s'.pages id = { s.pages id with physicalPage := page, resident := resident }
  registry : ∀ key id, s'.filenameBlockToVpage.lookup key = some id →
    s.filenameBlockToVpage.lookup key = some id

namespace Relocation

variable {s s' s'' : State}

theorem refl (s : State) : Relocation s s :=
  ⟨rfl, rfl, rfl, rfl, rfl, rfl, rfl, rfl, rfl, fun _ => ⟨_, _, rfl⟩, fun _ _ h => h⟩

theorem trans (h : Relocation s s') (h' : Relocation s' s'') : Relocation s s'' where
  processTable := h'.processTable.trans h.processTable
  translateVA := h'.translateVA.trans h.translateVA
  nextFreeVA := h'.nextFreeVA.trans h.nextFreeVA
  nextFreeSwap := h'.nextFreeSwap.trans h.nextFreeSwap
  currentPid := h'.currentPid.trans h.currentPid
  register := h'.register.trans h.register
  nextPage := h'.nextPage.trans h.nextPage
  accessible := h'.accessible.trans h.accessible
  memPagesCap := h'.memPagesCap.trans h.memPagesCap
  page id := by
    obtain ⟨page, resident, heq⟩ := h.page id
    obtain ⟨page', resident', heq'⟩ := h'.page id
    exact ⟨page', resident', by rw [heq', heq]⟩
  registry key id hkey := h.registry key id (h'.registry key id hkey)

theorem affiliated (h : Relocation s s') (id : PageId) :
    (s'.pages id).affiliated = (s.pages id).affiliated := by
  obtain ⟨page, resident, heq⟩ := h.page id
  rw [heq]

theorem isSwap (h : Relocation s s') (id : PageId) :
    (s'.pages id).isSwap = (s.pages id).isSwap := by
  obtain ⟨page, resident, heq⟩ := h.page id
  rw [heq]

theorem filename (h : Relocation s s') (id : PageId) :
    (s'.pages id).filename = (s.pages id).filename := by
  obtain ⟨page, resident, heq⟩ := h.page id
  rw [heq]

theorem blocks (h : Relocation s s') (id : PageId) :
    (s'.pages id).blocks = (s.pages id).blocks := by
  obtain ⟨page, resident, heq⟩ := h.page id
  rw [heq]

theorem mapped (h : Relocation s s') : s'.mapped = s.mapped := by
  funext pid va
  rw [State.mapped, State.mapped, h.translateVA]

theorem entryPage (h : Relocation s s') : s'.entryPage = s.entryPage := by
  funext ptr
  rw [State.entryPage, State.entryPage, h.mapped]

theorem readable (h : Relocation s s') (id : PageId) : s'.Readable id ↔ s.Readable id := by
  rw [State.Readable, State.Readable, h.isSwap, h.accessible, h.filename, h.blocks]

theorem spaces (h : Relocation s s') (hspaces : Spaces s) : Spaces s' where
  live pid hpid := by
    rw [h.processTable]
    exact hspaces.live pid (h.translateVA ▸ hpid)
  unmanaged pid hpid := by
    rw [h.nextFreeVA]
    exact hspaces.unmanaged pid (h.processTable ▸ hpid)
  aligned pid va id hva := hspaces.aligned pid va id (h.mapped ▸ hva)
  next pid hpid := by
    rw [h.nextFreeVA, h.entryPage]
    exact hspaces.next pid (h.processTable ▸ hpid)

theorem mappings (h : Relocation s s') {n : ℕ} {M : PtePtr → Option PageId}
    (hmappings : Mappings n M s) (hfresh : ∀ id, s.nextPage ≤ id → s'.pages id = s.pages id) :
    Mappings n M s' where
  attached id ptr := by
    rw [h.affiliated]
    exact hmappings.attached id ptr
  nodup id := by
    rw [h.affiliated]
    exact hmappings.nodup id
  swap id hswap := by
    rw [h.blocks, h.affiliated]
    exact hmappings.swap id (h.isSwap id ▸ hswap)
  file id hfile hlt := by
    rw [h.blocks]
    exact hmappings.file id (h.isSwap id ▸ hfile) (h.nextPage ▸ hlt)
  fresh id hid := by
    rw [h.nextPage] at hid
    rw [hfresh id hid, hmappings.fresh id hid]
  registry filename block id hlookup := by
    rw [h.isSwap, h.filename, h.blocks]
    exact hmappings.registry filename block id (h.registry _ _ hlookup)
  blocks := by
    have heq : s'.blockOwner = s.blockOwner := by
      funext owner
      cases owner with
      | none => exact h.nextFreeSwap
      | some id =>
        simp only [State.blockOwner, VirtualPage.swapBlocks]
        rw [h.isSwap, h.blocks]
    rw [heq]
    exact hmappings.blocks

end Relocation

/-! ### Physical pages -/

variable {m n : ℕ} {s : State} {id : PageId}

@[simp]
theorem VirtualPage.frame_unclock (v : VirtualPage) : v.unclock.frame = v.frame := by
  simp only [VirtualPage.frame, VirtualPage.unclock, Option.map_map]
  rfl

theorem VirtualPage.frame_eq_of_some {v : VirtualPage} {page : PhysicalPage}
    (h : v.physicalPage = some page) (hppn : page.ppn ≠ 0) : v.frame = [page.ppn] := by
  simp [VirtualPage.frame, h, hppn, Option.filter]

theorem Frames.pos_of_mem_free (h : Frames m s) {ppn : ℕ}
    (hppn : ppn ∈ s.nextFreePPN) : ppn ≠ 0 := by
  have := h.frames.mem (p := none) hppn
  simp only [Set.mem_Ico] at this
  omega

theorem State.turnClock_queue_perm (s : State) : s.turnClock.clockQueue.Perm s.clockQueue := by
  refine List.perm_append_comm.trans ?_
  rw [List.takeWhile_append_dropWhile]

theorem State.turnClock_page (s : State) (id : PageId) :
    s.turnClock.pages id = s.pages id ∨
      id ∈ s.clockQueue ∧ s.turnClock.pages id = (s.pages id).unclock := by
  by_cases hid : id ∈ s.clockQueue.takeWhile s.clocked
  · exact Or.inr ⟨(List.takeWhile_sublist _).mem hid, if_pos hid⟩
  · exact Or.inl (if_neg hid)

theorem State.relocation_turnClock (s : State) : Relocation s s.turnClock := by
  refine { Relocation.refl s with page := fun id => ?_ }
  rcases s.turnClock_page id with h | ⟨-, h⟩
  · exact ⟨_, _, h⟩
  · exact ⟨_, _, h⟩

theorem Frames.turnClock (h : Frames m s) : Frames m s.turnClock := by
  have hframe (id : PageId) : (s.turnClock.pages id).frame = (s.pages id).frame := by
    rcases s.turnClock_page id with heq | ⟨-, heq⟩ <;> simp [heq]
  have hreloc := s.relocation_turnClock
  refine ⟨fun id => ?_, fun id page hpage hppn => ?_, ?_, fun id => ?_, ?_, ?_, h.cap, h.zero,
    fun id hres => ?_⟩
  · rcases s.turnClock_page id with heq | ⟨-, heq⟩
    · rw [heq]
      exact h.resident id
    · simp [heq, VirtualPage.unclock, h.resident id]
  · -- pages on the physical page 0 are not in the queue, so that the hand does not pass them
    rcases s.turnClock_page id with heq | ⟨hid, heq⟩
    · rw [heq] at hpage ⊢
      exact h.null_page id page hpage hppn
    · rw [h.mem_queue, ← hframe, ne_eq, VirtualPage.frame_eq_nil_iff] at hid
      refine absurd (fun page' hpage' => ?_) hid
      rw [Option.mem_unique hpage' hpage]
      exact hppn
  · exact s.turnClock_queue_perm.nodup_iff.mpr h.queue_nodup
  · rw [s.turnClock_queue_perm.mem_iff, hframe]
    exact h.mem_queue id
  · have heq : s.turnClock.frameOwner = s.frameOwner := by
      funext owner
      cases owner with
      | none => rfl
      | some id => exact hframe id
    rw [heq]
    exact h.frames
  · rw [s.turnClock_queue_perm.length_eq]
    exact h.size
  · rw [hreloc.isSwap, hreloc.filename, hreloc.blocks]
    refine h.loaded id ?_
    rcases s.turnClock_page id with heq | ⟨-, heq⟩
    · rwa [heq] at hres
    · rwa [heq] at hres

theorem lookup_of_lookup_erase {α β : Type*} [DecidableEq α] {l : AList fun _ : α => β}
    {key key' : α} {x : β} (h : (l.erase key').lookup key = some x) : l.lookup key = some x := by
  by_cases heq : key = key'
  · rw [heq, AList.lookup_erase] at h
    simp at h
  · rwa [AList.lookup_erase_ne heq] at h

/-- Only the place of one page is changed. -/
private theorem update_place (pages : PageId → VirtualPage) (id : PageId)
    (place : Option PhysicalPage) (resident : Bool) (id' : PageId) :
    ∃ place' resident', update pages id
        { pages id with physicalPage := place, resident := resident } id' =
      { pages id' with physicalPage := place', resident := resident' } := by
  by_cases heq : id' = id
  · subst heq
    exact ⟨place, resident, update_self ..⟩
  · exact ⟨(pages id').physicalPage, (pages id').resident, update_of_ne heq ..⟩

theorem State.relocation_evict (s : State) (id : PageId) : Relocation s (s.evict id) := by
  refine { Relocation.refl s with
    page := update_place s.pages id none false, registry := fun key id' hkey => ?_ }
  simp only [State.evict] at hkey
  split_ifs at hkey with hdrop
  · exact lookup_of_lookup_erase hkey
  · exact hkey

theorem Frames.evict (h : Frames m s) (hid : id ∈ s.clockQueue) : Frames m (s.evict id) := by
  obtain ⟨-, page, hpage, hppn⟩ := h.page_of_mem_queue hid
  have hframe := VirtualPage.frame_eq_of_some hpage hppn
  have hself : (s.evict id).pages id =
      { s.pages id with resident := false, physicalPage := none } := by
    simp [State.evict]
  have hother (id' : PageId) (hne : id' ≠ id) : (s.evict id).pages id' = s.pages id' := by
    simp [State.evict, hne]
  refine ⟨fun id' => ?_, fun id' page' hpage' => ?_, h.queue_nodup.erase id, fun id' => ?_, ?_, ?_,
    h.cap, h.zero, fun id' hres => ?_⟩
  · by_cases hne : id' = id
    · subst hne
      rw [hself]
      rfl
    · rw [hother id' hne]
      exact h.resident id'
  · by_cases hne : id' = id
    · subst hne
      rw [hself] at hpage'
      simp at hpage'
    · rw [hother id' hne] at hpage' ⊢
      exact h.null_page id' page' hpage'
  · rw [show (s.evict id).clockQueue = s.clockQueue.erase id from rfl, h.queue_nodup.mem_erase_iff]
    by_cases hne : id' = id
    · subst hne
      simp [hself, VirtualPage.frame]
    · rw [hother id' hne, h.mem_queue]
      simp [hne]
  · refine h.frames.move (p := some id) (q := none) (by simp) (fun owner howner hnone => ?_) ?_
    · cases owner with
      | none => exact absurd rfl hnone
      | some id' =>
        rw [State.frameOwner, hother id' (fun heq => howner (heq ▸ rfl))]
        rfl
    · have hnil : (s.evict id).frameOwner (some id) = [] := by
        rw [State.frameOwner, hself]
        rfl
      rw [hnil, List.nil_append]
      exact List.perm_append_comm
  · have hlen := List.length_erase_of_mem hid
    have hpos := List.length_pos_of_mem hid
    simp only [State.evict, hframe, List.length_append, List.length_singleton, hlen]
    have := h.size
    omega
  · by_cases hne : id' = id
    · subst hne
      simp [hself] at hres
    · rw [hother id' hne] at hres ⊢
      exact h.loaded id' hres

theorem State.relocation_allocate (s : State) (id : PageId) (page : PhysicalPage)
    (contents : Contents) : Relocation s (s.allocate id page contents) := by
  exact { Relocation.refl s with page := update_place s.pages id (some page) true }

theorem Frames.allocate (h : Frames m s) {ppn : ℕ} {rest : List ℕ} {page : PhysicalPage}
    (contents : Contents) (hfree : s.nextFreePPN = ppn :: rest) (hpage : page.ppn = ppn)
    (hid : (s.pages id).frame = [])
    (hloaded : (s.pages id).isSwap = false → ∀ block ∈ (s.pages id).blocks,
      s.accessible (s.pages id).filename block = true) :
    Frames m (s.allocate id page contents) := by
  have hppn : ppn ≠ 0 := h.pos_of_mem_free (by rw [hfree]; exact List.mem_cons_self)
  have hself : (s.allocate id page contents).pages id =
      { s.pages id with resident := true, physicalPage := some page } := by
    simp [State.allocate]
  have hother (id' : PageId) (hne : id' ≠ id) :
      (s.allocate id page contents).pages id' = s.pages id' := by
    simp [State.allocate, hne]
  have hframe : ((s.allocate id page contents).pages id).frame = [ppn] := by
    rw [hself, ← hpage]
    exact VirtualPage.frame_eq_of_some rfl (hpage ▸ hppn)
  have hnot : id ∉ s.clockQueue := fun hmem => (h.mem_queue id).mp hmem hid
  refine ⟨fun id' => ?_, fun id' page' hpage' hzero => ?_, ?_, fun id' => ?_, ?_, ?_, h.cap, ?_,
    fun id' hres => ?_⟩
  · by_cases hne : id' = id
    · subst hne
      rw [hself]
      rfl
    · rw [hother id' hne]
      exact h.resident id'
  · by_cases hne : id' = id
    · subst hne
      rw [hself] at hpage'
      cases hpage'
      exact absurd (hpage.symm.trans hzero) hppn
    · rw [hother id' hne] at hpage' ⊢
      exact h.null_page id' page' hpage' hzero
  · exact List.nodup_append.mpr ⟨h.queue_nodup, List.nodup_singleton id, by
      rintro a ha b hb rfl
      rw [List.mem_singleton] at hb
      exact hnot (hb ▸ ha)⟩
  · rw [show (s.allocate id page contents).clockQueue = s.clockQueue ++ [id] from rfl,
      List.mem_append, List.mem_singleton]
    by_cases hne : id' = id
    · subst hne
      simp [hframe]
    · rw [hother id' hne, h.mem_queue]
      simp [hne]
  · refine h.frames.move (p := some id) (q := none) (by simp) (fun owner howner hnone => ?_) ?_
    · cases owner with
      | none => exact absurd rfl hnone
      | some id' =>
        rw [State.frameOwner, hother id' (fun heq => howner (heq ▸ rfl))]
        rfl
    · simp only [State.frameOwner, hframe, hid]
      simp [State.allocate, hfree]
  · have := h.size
    simp only [State.allocate, hfree, List.length_append, List.tail_cons, List.length_cons,
      List.length_nil] at this ⊢
    omega
  · simp only [State.allocate]
    rw [update_of_ne (by rw [hpage]; exact hppn.symm)]
    exact h.zero
  · by_cases hne : id' = id
    · subst hne
      rw [hself]
      exact hloaded
    · rw [hother id' hne] at hres ⊢
      exact h.loaded id' hres

theorem State.relocation_touch (s : State) (id : PageId) (page : PhysicalPage) (writeFlag : Bool) :
    Relocation s (s.touch id page writeFlag) := by
  exact { Relocation.refl s with page := update_place s.pages id _ (s.pages id).resident }

theorem Frames.touch (h : Frames m s) {page : PhysicalPage} (writeFlag : Bool)
    (hpage : (s.pages id).physicalPage = some page) (hppn : page.ppn ≠ 0) :
    Frames m (s.touch id page writeFlag) := by
  have hself : (s.touch id page writeFlag).pages id = { s.pages id with
      physicalPage := some { page with dirty := page.dirty || writeFlag, clocked := true } } := by
    simp [State.touch, State.setPage]
  have hother (id' : PageId) (hne : id' ≠ id) :
      (s.touch id page writeFlag).pages id' = s.pages id' := by
    simp [State.touch, State.setPage, hne]
  have hframe (id' : PageId) : ((s.touch id page writeFlag).pages id').frame =
      (s.pages id').frame := by
    by_cases hne : id' = id
    · subst hne
      have hplace : ((s.touch id' page writeFlag).pages id').physicalPage =
          some { page with dirty := page.dirty || writeFlag, clocked := true } := by
        rw [hself]
      have hnew := VirtualPage.frame_eq_of_some hplace hppn
      rw [hnew, VirtualPage.frame_eq_of_some hpage hppn]
    · rw [hother id' hne]
  have hreloc := s.relocation_touch id page writeFlag
  refine ⟨fun id' => ?_, fun id' page' hpage' hzero => ?_, h.queue_nodup, fun id' => ?_, ?_, h.size,
    h.cap, h.zero, fun id' hres => ?_⟩
  · by_cases hne : id' = id
    · subst hne
      rw [hself]
      simpa [hpage] using h.resident id'
    · rw [hother id' hne]
      exact h.resident id'
  · by_cases hne : id' = id
    · subst hne
      rw [hself] at hpage'
      cases hpage'
      exact absurd hzero hppn
    · rw [hother id' hne] at hpage' ⊢
      exact h.null_page id' page' hpage' hzero
  · rw [hframe]
    exact h.mem_queue id'
  · have heq : (s.touch id page writeFlag).frameOwner = s.frameOwner := by
      funext owner
      cases owner with
      | none => rfl
      | some id' => exact hframe id'
    rw [heq]
    exact h.frames
  · rw [hreloc.isSwap, hreloc.filename, hreloc.blocks]
    refine h.loaded id' ?_
    by_cases hne : id' = id
    · subst hne
      rwa [hself] at hres
    · rwa [hother id' hne] at hres

theorem State.relocation_failRead (s : State) (id : PageId) (ppn : ℕ) :
    Relocation s (s.failRead id ppn) := by
  refine { Relocation.refl s with registry := fun key id' hkey => ?_ }
  simp only [State.failRead] at hkey
  split_ifs at hkey with hdrop
  · exact lookup_of_lookup_erase hkey
  · exact hkey

theorem Frames.failRead (h : Frames m s) {ppn : ℕ} {rest : List ℕ}
    (hfree : s.nextFreePPN = ppn :: rest) : Frames m (s.failRead id ppn) := by
  have hppn : ppn ≠ 0 := h.pos_of_mem_free (by rw [hfree]; exact List.mem_cons_self)
  have hperm : (s.failRead id ppn).nextFreePPN.Perm s.nextFreePPN := by
    simp only [State.failRead, hfree, List.tail_cons]
    exact List.perm_append_singleton ppn rest
  refine ⟨h.resident, h.null_page, h.queue_nodup, h.mem_queue, ?_, ?_, h.cap, ?_, h.loaded⟩
  · refine ⟨fun owner => ?_, fun p q x hp hq => ?_, fun x => ?_⟩
    · cases owner with
      | none => exact hperm.nodup_iff.mpr (h.frames.nodup none)
      | some id' => exact h.frames.nodup (some id')
    · refine h.frames.disjoint p q x ?_ ?_
      · cases p with
        | none => exact hperm.mem_iff.mp hp
        | some id' => exact hp
      · cases q with
        | none => exact hperm.mem_iff.mp hq
        | some id' => exact hq
    · rw [h.frames.mem_iff]
      refine exists_congr fun owner => ?_
      cases owner with
      | none => exact hperm.mem_iff.symm
      | some id' => exact Iff.rfl
  · rw [hperm.length_eq]
    exact h.size
  · simp only [State.failRead]
    rw [update_of_ne hppn.symm]
    exact h.zero

/-! ### Pages in the queue -/

/-- A page of a file that is not mapped is in the registry under its own name and block. -/
theorem Queued.registered {M : PtePtr → Option PageId} (h : Queued s) (hmappings : Mappings n M s)
    (hid : id ∈ s.clockQueue) (hmapped : (s.pages id).affiliated = []) :
    s.filenameBlockToVpage.lookup ((s.pages id).filename, (s.pages id).blocks.headD 0) =
      some id := by
  obtain ⟨⟨filename, block⟩, hkey⟩ := (h id hid).resolve_left (not_not.mpr hmapped)
  obtain ⟨-, hfilename, hblock⟩ := hmappings.registry filename block id hkey
  rw [hfilename, hblock]
  exact hkey

theorem Queued.turnClock (h : Queued s) : Queued s.turnClock := by
  intro id hid
  rw [s.relocation_turnClock.affiliated]
  exact h id (s.turnClock_queue_perm.mem_iff.mp hid)

theorem Queued.evict {M : PtePtr → Option PageId} (h : Queued s) (hmappings : Mappings n M s)
    (hframes : Frames m s) (hid : id ∈ s.clockQueue) : Queued (s.evict id) := by
  intro id' hid'
  obtain ⟨hne, hmem⟩ := hframes.queue_nodup.mem_erase_iff.mp hid'
  rw [(s.relocation_evict id).affiliated]
  refine (h id' hmem).imp_right fun ⟨key, hkey⟩ => ⟨key, ?_⟩
  simp only [State.evict]
  split_ifs with hdrop
  · -- the entry that is removed is the one of the evicted page
    have hreg := h.registered hmappings hid hdrop.2
    rw [AList.lookup_erase_ne]
    · exact hkey
    · rintro rfl
      exact hne (Option.some.inj (hkey.symm.trans hreg))
  · exact hkey

theorem Queued.allocate (h : Queued s) {page : PhysicalPage} (contents : Contents)
    (hmapped : (s.pages id).affiliated ≠ []) : Queued (s.allocate id page contents) := by
  intro id' hid'
  rw [(s.relocation_allocate id page contents).affiliated]
  rcases List.mem_append.mp hid' with hmem | hmem
  · exact h id' hmem
  · rw [List.mem_singleton] at hmem
    exact Or.inl (hmem ▸ hmapped)

theorem Queued.touch (h : Queued s) {page : PhysicalPage} (writeFlag : Bool) :
    Queued (s.touch id page writeFlag) := by
  intro id' hid'
  rw [(s.relocation_touch id page writeFlag).affiliated]
  exact h id' hid'

theorem Queued.failRead {M : PtePtr → Option PageId} (h : Queued s) (hmappings : Mappings n M s)
    (hframes : Frames m s) (ppn : ℕ) (hread : ¬s.Readable id) : Queued (s.failRead id ppn) := by
  intro id' hid'
  refine (h id' hid').imp_right fun ⟨key, hkey⟩ => ⟨key, ?_⟩
  simp only [State.failRead]
  split_ifs with hdrop
  · -- the block of a page in the queue can be read, so that it is not the one that is removed
    rw [AList.lookup_erase_ne]
    · exact hkey
    · rintro rfl
      obtain ⟨hswap, hfilename, hblock⟩ := hmappings.registry _ _ _ hkey
      have hloaded := hframes.loaded id' (hframes.page_of_mem_queue hid').1 hswap _
        (by rw [hblock]; exact List.mem_singleton_self _)
      rw [hfilename] at hloaded
      exact hread (Or.inr hloaded)
  · exact hkey

/-! ### Moves preserve the invariant -/

theorem State.pages_of_fresh {M : PtePtr → Option PageId} (hmappings : Mappings n M s)
    (hmapped : (s.pages id).affiliated ≠ []) : id < s.nextPage := by
  by_contra hge
  rw [hmappings.fresh id (not_lt.mp hge)] at hmapped
  exact hmapped rfl

theorem Frames.not_fresh {M : PtePtr → Option PageId} (h : Frames m s) (hmappings : Mappings n M s)
    (hid : id ∈ s.clockQueue) : id < s.nextPage := by
  by_contra hge
  have hframe := (h.mem_queue id).mp hid
  rw [hmappings.fresh id (not_lt.mp hge)] at hframe
  exact hframe rfl

variable {strict keep : Prop} {s' : State}

theorem Move.relocation (h : Move strict keep s s') : Relocation s s' := by
  cases h with
  | turnClock tables => exact { s.relocation_turnClock with }
  | @evict tables id => exact { s.relocation_evict id with }
  | @fetch tables id ppn =>
    exact { s.relocation_allocate id ⟨ppn, true, false⟩ (s.backing (s.pages id)) with }
  | @unzero tables id ppn _ _ writeFlag =>
    exact { s.relocation_allocate id ⟨ppn, true, writeFlag⟩ fun _ => 0 with }
  | @touch tables id page writeFlag => exact { s.relocation_touch id page writeFlag with }
  | @failRead tables id ppn => exact { s.relocation_failRead id ppn with }

/-- Only pages that have been made are moved. -/
theorem Move.pages_fresh {M : PtePtr → Option PageId} (h : Move strict keep s s')
    (hmappings : Mappings n M s) (hframes : Frames m s) {id : PageId} (hid : s.nextPage ≤ id) :
    s'.pages id = s.pages id := by
  cases h with
  | turnClock tables =>
    refine (s.turnClock_page id).resolve_right fun h => ?_
    exact absurd (hframes.not_fresh hmappings h.1) (not_lt.mpr hid)
  | @evict tables id' rest _ hqueue =>
    have hlt := hframes.not_fresh hmappings (hqueue ▸ List.mem_cons_self : id' ∈ s.clockQueue)
    exact update_of_ne (lt_of_lt_of_le hlt hid).ne' ..
  | @fetch tables id' ppn rest _ hmapped =>
    have hlt := State.pages_of_fresh hmappings hmapped
    exact update_of_ne (lt_of_lt_of_le hlt hid).ne' ..
  | @unzero tables id' ppn rest _ _ _ hmapped =>
    have hlt := State.pages_of_fresh hmappings hmapped
    exact update_of_ne (lt_of_lt_of_le hlt hid).ne' ..
  | @touch tables id' page writeFlag hmapped =>
    have hlt := State.pages_of_fresh hmappings hmapped
    exact update_of_ne (lt_of_lt_of_le hlt hid).ne' ..
  | failRead => rfl

theorem Move.mappings {M : PtePtr → Option PageId} (h : Move strict keep s s')
    (hmappings : Mappings n M s)
    (hframes : Frames m s) : Mappings n M s' :=
  h.relocation.mappings hmappings fun _ hid => h.pages_fresh hmappings hframes hid

theorem State.loaded_of_readable {M : PtePtr → Option PageId} (hmappings : Mappings n M s)
    (hmapped : (s.pages id).affiliated ≠ []) (hread : s.Readable id)
    (hfile : (s.pages id).isSwap = false) {block : ℕ} (hblock : block ∈ (s.pages id).blocks) :
    s.accessible (s.pages id).filename block = true := by
  obtain ⟨block', heq⟩ := hmappings.file id hfile (State.pages_of_fresh hmappings hmapped)
  rcases hread with hswap | hacc
  · rw [hfile] at hswap
    simp at hswap
  · rw [heq, List.mem_singleton] at hblock
    rw [heq] at hacc
    rwa [hblock]

theorem Move.frames {M : PtePtr → Option PageId} (h : Move strict keep s s')
    (hmappings : Mappings n M s)
    (hframes : Frames m s) : Frames m s' := by
  cases h with
  | turnClock tables => exact hframes.turnClock.withTables tables
  | @evict tables id rest _ hqueue =>
    exact (hframes.evict (hqueue ▸ List.mem_cons_self)).withTables tables
  | @fetch tables id ppn rest hfree hmapped habsent hread =>
    refine (hframes.allocate _ hfree rfl ?_ fun hfile _ hblock =>
      State.loaded_of_readable hmappings hmapped hread hfile hblock).withTables tables
    rw [VirtualPage.frame, habsent]
    rfl
  | @unzero tables id ppn rest page _ hfree _ hpage hppn =>
    refine (hframes.allocate _ hfree rfl ?_ fun hfile _ _ => ?_).withTables tables
    · rw [VirtualPage.frame_eq_nil_iff]
      intro page' hpage'
      rw [Option.mem_unique hpage' hpage]
      exact hppn
    · rw [(hframes.null_page id page hpage hppn).1] at hfile
      simp at hfile
  | @touch tables id page writeFlag _ hpage hppn =>
    exact (hframes.touch writeFlag hpage hppn).withTables tables
  | @failRead tables id ppn rest hfree => exact (hframes.failRead hfree).withTables tables

theorem Move.spaces (h : Move strict keep s s') (hspaces : Spaces s) : Spaces s' :=
  h.relocation.spaces hspaces

theorem Move.queued {M : PtePtr → Option PageId} (h : Move strict keep s s')
    (hmappings : Mappings n M s)
    (hframes : Frames m s) (hqueued : Queued s) : Queued s' := by
  cases h with
  | turnClock tables => exact hqueued.turnClock
  | @evict tables id rest _ hqueue =>
    exact hqueued.evict hmappings hframes (hqueue ▸ List.mem_cons_self)
  | @fetch tables id ppn _ _ hmapped =>
    exact hqueued.allocate (s.backing (s.pages id)) hmapped
  | @unzero tables id ppn _ _ _ _ hmapped => exact hqueued.allocate (fun _ => 0) hmapped
  | touch tables writeFlag => exact hqueued.touch writeFlag
  | @failRead tables id ppn _ _ _ _ hread =>
    exact hqueued.failRead hmappings hframes ppn hread

theorem Core.withTables (h : Core m n s) (tables : Pid → ℕ → PageTableEntry) :
    Core m n (s.withTables tables) :=
  ⟨h.mappings.withTables tables, h.frames.withTables tables, h.spaces.withTables tables, h.queued⟩

theorem Move.core (h : Move strict keep s s') (hs : Core m n s) : Core m n s' where
  mappings := by
    rw [h.relocation.entryPage]
    exact h.mappings hs.mappings hs.frames
  frames := h.frames hs.mappings hs.frames
  spaces := h.spaces hs.spaces
  queued := h.queued hs.mappings hs.frames hs.queued

/-- A sequence of moves. -/
def Moves (strict keep : Prop) : State → State → Prop :=
  Relation.ReflTransGen (Move strict keep)

theorem Moves.core (h : Moves strict keep s s') (hs : Core m n s) : Core m n s' := by
  induction h with
  | refl => exact hs
  | tail _ hmove ih => exact hmove.core ih

theorem Moves.relocation (h : Moves strict keep s s') : Relocation s s' := by
  induction h with
  | refl => exact Relocation.refl s
  | tail _ hmove ih => exact ih.trans hmove.relocation

theorem Core.affiliated_ne_nil (h : Core m n s) {pid : Pid} {va : ℕ} {id : PageId}
    (hva : s.mapped pid va = some id) : (s.pages id).affiliated ≠ [] := by
  obtain ⟨i, -, hentry, -⟩ := h.spaces.mem_entry hva
  exact List.ne_nil_of_mem ((h.mappings.attached id _).mpr hentry)

theorem Core.blocks_ne_nil (h : Core m n s) (hmapped : (s.pages id).affiliated ≠ []) :
    (s.pages id).blocks ≠ [] := by
  cases hswap : (s.pages id).isSwap with
  | false =>
    obtain ⟨block, hblock⟩ :=
      h.mappings.file id hswap (State.pages_of_fresh h.mappings hmapped)
    simp [hblock]
  | true =>
    rw [ne_eq, ← List.length_eq_zero_iff, h.mappings.swap id hswap, List.length_eq_zero_iff]
    exact hmapped

end OsFromScratch.Pager
