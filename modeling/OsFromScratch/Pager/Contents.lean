import OsFromScratch.Lib.WriteBack
import OsFromScratch.Pager.Structure

/-!
# The contents of pages

The physical memory is a cache of the swap file and the files, whose lines are the pages in memory.
Moves of pages between memory and files are evictions from this cache, and new lines with the values
that are there already, so that they do not change the contents of any page.

## Main definitions

* `Place`, `VirtualPage.place`, `State.block` — the blocks of the swap file and of files.
* `State.cache` — the physical memory as a cache.
* `State.contents` — the contents of a page.
* `Coherent` — the invariant of the cache, with the pages in the registry that it rests on.

## Main results

* `Core.coherent_cache` — the cache is coherent if the pages in memory that have not been changed
  are the same as their blocks.
* `Coherent.contents_eq_view` — a mapped page has the current contents of its block.
* `Moves.coherent` — moves of pages do not change the contents.
-/

namespace OsFromScratch.Pager

open Function

variable {m n : ℕ} {s s' : State} {id : PageId} {ptr : PtePtr} {strict keep : Prop}

/-! ### Blocks -/

/-- A block of a file, or of the swap file. -/
abbrev Place : Type := (Bytes × ℕ) ⊕ ℕ

/-- The block that holds the data of a page that is not in memory. -/
def VirtualPage.place (v : VirtualPage) : Place :=
  if v.isSwap then .inr (v.blocks.headD 0) else .inl v.key

/-- The contents of a block. -/
def State.block (s : State) : Place → Contents
  | .inl key => s.files key.1 key.2
  | .inr block => s.swapFile block

/-- The physical memory as a cache of the blocks. A page of zeroes that has no physical page of its
own counts as changed, since its block does not hold zeroes. -/
def State.cache (s : State) : Cache PageId Place Contents where
  place id := (s.pages id).place
  line id :=
    if (s.pages id).blocks = [] then none
    else (s.pages id).physicalPage.map fun page =>
      (s.physmem page.ppn, page.dirty || decide (page.ppn = 0))
  backing := s.block

/-- The contents of a page, in the physical memory or in its block. -/
def State.contents (s : State) (id : PageId) : Contents :=
  s.cache.read id

theorem State.backing_eq (s : State) (v : VirtualPage) : s.backing v = s.block v.place := by
  rw [State.backing, VirtualPage.place]
  split_ifs <;> rfl

theorem Relocation.place (h : Relocation s s') (id : PageId) :
    (s'.pages id).place = (s.pages id).place := by
  rw [VirtualPage.place, VirtualPage.place, h.isSwap, h.blocks, h.key]

theorem State.line_of_some {page : PhysicalPage} (hblocks : (s.pages id).blocks ≠ [])
    (hpage : (s.pages id).physicalPage = some page) :
    s.cache.line id = some (s.physmem page.ppn, page.dirty || decide (page.ppn = 0)) := by
  rw [State.cache]
  simp [hblocks, hpage]

theorem State.line_of_none (hpage : (s.pages id).physicalPage = none) :
    s.cache.line id = none := by
  rw [State.cache]
  simp [hpage]

theorem State.line_isSome : (s.cache.line id).isSome ↔
    (s.pages id).blocks ≠ [] ∧ ∃ page, (s.pages id).physicalPage = some page := by
  simp only [State.cache]
  split_ifs with hblocks
  · simp [hblocks]
  · simp [hblocks, Option.isSome_iff_exists]

theorem State.contents_of_some {page : PhysicalPage} (hblocks : (s.pages id).blocks ≠ [])
    (hpage : (s.pages id).physicalPage = some page) : s.contents id = s.physmem page.ppn :=
  Cache.read_of_line (State.line_of_some hblocks hpage)

/-! ### Different pages -/

/-- A free physical page is not the one of a page. -/
theorem Frames.ne_of_free (h : Frames m s) {page : PhysicalPage} {ppn : ℕ}
    (hpage : (s.pages id).physicalPage = some page) (hfree : ppn ∈ s.nextFreePPN) :
    page.ppn ≠ ppn := by
  rintro rfl
  have hpos := h.pos_of_mem_free hfree
  have heq := h.frames.disjoint none (some id) page.ppn hfree
    (VirtualPage.mem_frame.mpr ⟨hpos, page, hpage, rfl⟩)
  simp at heq

/-- Two pages are not in the same physical page. -/
theorem Frames.eq_of_ppn (h : Frames m s) {id' : PageId} {page page' : PhysicalPage}
    (hpage : (s.pages id).physicalPage = some page)
    (hpage' : (s.pages id').physicalPage = some page') (hppn : page.ppn ≠ 0)
    (heq : page.ppn = page'.ppn) : id = id' :=
  Option.some.inj (h.frames.disjoint (some id) (some id') page.ppn
    (VirtualPage.mem_frame.mpr ⟨hppn, page, hpage, rfl⟩)
    (VirtualPage.mem_frame.mpr ⟨hppn, page', hpage', heq.symm⟩))

/-- The pages for the file blocks that can be accessed are registered. -/
def RegisteredOpen (s : State) : Prop :=
  Registered (accessibleKeys s.accessible) s

/-- The invariant of the cache, with the pages in the registry that it rests on. -/
structure Coherent (m n : ℕ) (s : State) : Prop extends Core m n s where
  registered : RegisteredOpen s
  clean : s.cache.Clean

/-- Two pages have the same block only if they are the same page; of a file, this takes a block that
can be accessed. -/
theorem Mappings.eq_of_place {M : PtePtr → Option PageId} (h : Mappings n M s)
    (hreg : RegisteredOpen s) {id' : PageId} (hblocks : (s.pages id).blocks ≠ [])
    (hblocks' : (s.pages id').blocks ≠ []) (hlive : (s.pages id).Live) (hlive' : (s.pages id').Live)
    (hread : s.Readable id) (hplace : (s.pages id').place = (s.pages id).place) : id' = id := by
  simp only [VirtualPage.place] at hplace
  cases hswap : (s.pages id).isSwap with
  | true =>
    cases hswap' : (s.pages id').isSwap with
    | false => simp [hswap, hswap'] at hplace
    | true =>
      simp only [hswap, hswap', if_true, Sum.inr.injEq] at hplace
      have howns {x : PageId} (hx : (s.pages x).blocks ≠ []) (hxs : (s.pages x).isSwap = true) :
          (s.pages x).blocks.headD 0 ∈ s.blockOwner (some x) := by
        obtain ⟨block, rest, heq⟩ := List.exists_cons_of_ne_nil hx
        simp [State.blockOwner, VirtualPage.swapBlocks, hxs, heq]
      exact Option.some.inj (h.blocks.disjoint (some id') (some id) _ (howns hblocks' hswap')
        (hplace ▸ howns hblocks hswap))
  | false =>
    cases hswap' : (s.pages id').isSwap with
    | true => simp [hswap, hswap'] at hplace
    | false =>
      simp only [hswap, hswap', Bool.false_eq_true, if_false, Sum.inl.injEq] at hplace
      have hacc : accessibleKeys s.accessible (s.pages id).key :=
        hread.resolve_left (by simp [hswap])
      exact hreg.unique hswap' hswap hlive' hlive hplace (hplace ▸ hacc)

theorem Core.live_of_blocks (h : Core m n s) (hblocks : (s.pages id).blocks ≠ [])
    {page : PhysicalPage} (hpage : (s.pages id).physicalPage = some page) : (s.pages id).Live := by
  by_cases hppn : page.ppn = 0
  · left
    obtain ⟨hswap, -⟩ := h.frames.null_page id page hpage hppn
    rwa [ne_eq, ← List.length_eq_zero_iff, ← h.mappings.swap id hswap, List.length_eq_zero_iff]
  · right
    rw [VirtualPage.frame_eq_of_some hpage hppn]
    exact List.cons_ne_nil _ _

theorem Core.readable_of_some (h : Core m n s) (hblocks : (s.pages id).blocks ≠ [])
    {page : PhysicalPage} (hpage : (s.pages id).physicalPage = some page) : s.Readable id := by
  cases hswap : (s.pages id).isSwap with
  | true => exact Or.inl hswap
  | false =>
    obtain ⟨block, rest, heq⟩ := List.exists_cons_of_ne_nil hblocks
    have hres : (s.pages id).resident = true := by rw [h.frames.resident, hpage]; rfl
    refine Or.inr (h.frames.loaded id hres hswap _ ?_)
    rw [heq]
    exact List.mem_cons_self

/-- No other page in memory has the block of a page. -/
theorem Core.alone (h : Core m n s) (hreg : RegisteredOpen s) (hblocks : (s.pages id).blocks ≠ [])
    (hlive : (s.pages id).Live) (hread : s.Readable id) : s.cache.Alone id := by
  intro id' hline hplace
  obtain ⟨hblocks', page, hpage⟩ := State.line_isSome.mp hline
  exact h.mappings.eq_of_place hreg hblocks hblocks' hlive (h.live_of_blocks hblocks' hpage) hread
    hplace

theorem Core.coherent_cache (h : Core m n s) (hreg : RegisteredOpen s) (hclean : s.cache.Clean) :
    s.cache.Coherent := by
  refine ⟨hclean, fun id id' hid hid' hplace => ?_⟩
  obtain ⟨hblocks', page', hpage'⟩ := State.line_isSome.mp hid'
  exact h.alone hreg hblocks' (h.live_of_blocks hblocks' hpage')
    (h.readable_of_some hblocks' hpage') id hid hplace

theorem Coherent.cache (h : Coherent m n s) : s.cache.Coherent :=
  h.coherent_cache h.registered h.clean

/-- A mapped page that can be read has the current contents of its block. -/
theorem Coherent.contents_eq_view (h : Coherent m n s) (hmapped : (s.pages id).affiliated ≠ [])
    (hread : s.Readable id) : s.contents id = s.cache.view (s.pages id).place :=
  h.cache.read_eq_view (h.alone h.registered (h.blocks_ne_nil hmapped) (Or.inl hmapped) hread)

/-! ### Moves -/

/-- The cache only depends on the blocks of pages, on what is in memory and on the blocks. -/
theorem State.cache_congr (hplace : ∀ id, (s'.pages id).place = (s.pages id).place)
    (hline : ∀ id, s'.cache.line id = s.cache.line id) (hblock : s'.block = s.block) :
    s'.cache = s.cache :=
  Cache.ext (funext hplace) (funext hline) hblock

theorem State.cache_turnClock (s : State) : s.turnClock.cache = s.cache := by
  refine State.cache_congr s.relocation_turnClock.place (fun id => ?_) rfl
  simp only [State.cache, s.relocation_turnClock.blocks]
  rcases s.turnClock_page id with heq | ⟨-, heq⟩
  · rw [heq]
    rfl
  · rw [heq, VirtualPage.unclock, Option.map_map]
    rfl

/-- A block after a page has been evicted. -/
theorem State.block_evict {page : PhysicalPage} (hblocks : (s.pages id).blocks ≠ [])
    (hpage : (s.pages id).physicalPage = some page) (hread : s.Readable id) (p : Place) :
    (s.evict id).block p =
      if p = (s.pages id).place ∧ page.dirty = true then s.physmem page.ppn else s.block p := by
  obtain ⟨block, rest, heq⟩ := List.exists_cons_of_ne_nil hblocks
  cases hdirty : page.dirty with
  | false => cases p <;> simp [State.block, State.evict, State.writeBack, hpage, hdirty]
  | true =>
    cases hswap : (s.pages id).isSwap with
    | true =>
      cases p with
      | inl key => simp [State.block, State.evict, State.writeBack, fileWrite, VirtualPage.place,
          hpage, hdirty, heq, hswap]
      | inr b => simp [State.block, State.evict, State.writeBack, fileWrite, VirtualPage.place,
          hpage, hdirty, heq, hswap, update_apply]
    | false =>
      have hacc : s.accessible (s.pages id).filename block = true := by
        have h := hread.resolve_left (by simp [hswap])
        rwa [heq] at h
      cases p with
      | inr b => simp [State.block, State.evict, State.writeBack, fileWrite, VirtualPage.place,
          hpage, hdirty, heq, hswap, hacc]
      | inl key =>
        obtain ⟨filename, b⟩ := key
        by_cases hname : filename = (s.pages id).filename
        · subst hname
          simp [State.block, State.evict, State.writeBack, fileWrite, VirtualPage.place,
            VirtualPage.key, hpage, hdirty, heq, hswap, hacc, update_apply]
        · simp [State.block, State.evict, State.writeBack, fileWrite, VirtualPage.place,
            VirtualPage.key, hpage, hdirty, heq, hswap, hacc, hname]

/-- An eviction from the physical memory is one from the cache. -/
theorem State.cache_evict {page : PhysicalPage} (hblocks : (s.pages id).blocks ≠ [])
    (hpage : (s.pages id).physicalPage = some page) (hppn : page.ppn ≠ 0) (hread : s.Readable id) :
    (s.evict id).cache = s.cache.evict id := by
  have hplace : (s.evict id).cache.place = s.cache.place :=
    funext (s.relocation_evict id).place
  have hline : (s.evict id).cache.line = update s.cache.line id none := by
    funext x
    by_cases hx : x = id
    · subst hx
      rw [update_self]
      exact State.line_of_none (by simp [State.evict])
    · rw [update_of_ne hx]
      have hpages : (s.evict id).pages x = s.pages x := update_of_ne hx ..
      simp only [State.cache, hpages]
      rfl
  have hbacking : (s.evict id).cache.backing = (s.cache.evict id).backing := by
    funext p
    refine (State.block_evict hblocks hpage hread p).trans ?_
    have hline' := State.line_of_some hblocks hpage
    simp [Cache.evict, hline', Cache.read_of_line hline', hppn]
    rfl
  exact Cache.ext hplace hline hbacking

/-- A page that gets a physical page gets a line. -/
theorem State.cache_allocate (hframes : Frames m s) {page : PhysicalPage}
    (hfree : page.ppn ∈ s.nextFreePPN) (hblocks : (s.pages id).blocks ≠ []) (contents : Contents) :
    (s.allocate id page contents).cache = s.cache.fill id contents page.dirty := by
  have hppn : page.ppn ≠ 0 := hframes.pos_of_mem_free hfree
  refine Cache.ext (funext (s.relocation_allocate id page contents).place) (funext fun x => ?_) rfl
  by_cases hx : x = id
  · subst hx
    have hself : (s.allocate x page contents).pages x =
        { s.pages x with resident := true, physicalPage := some page } := update_self ..
    have hpage : ((s.allocate x page contents).pages x).physicalPage = some page := by rw [hself]
    rw [Cache.fill_line_self, State.line_of_some (by rw [hself]; exact hblocks) hpage]
    simp [State.allocate, hppn]
  · have hother : (s.allocate id page contents).pages x = s.pages x := update_of_ne hx ..
    rw [Cache.fill_line_of_ne hx]
    simp only [State.cache, hother]
    split_ifs
    · rfl
    · cases hpage : (s.pages x).physicalPage with
      | none => rfl
      | some page' =>
        have hne := hframes.ne_of_free hpage hfree
        simp [State.allocate, update_of_ne hne]

/-- A page that is used keeps its contents. -/
theorem State.cache_touch {page : PhysicalPage} (hblocks : (s.pages id).blocks ≠ [])
    (hpage : (s.pages id).physicalPage = some page) (hppn : page.ppn ≠ 0) (writeFlag : Bool) :
    (s.touch id page writeFlag).cache =
      s.cache.fill id (s.contents id) (page.dirty || writeFlag) := by
  refine Cache.ext (funext (s.relocation_touch id page writeFlag).place) (funext fun x => ?_) rfl
  by_cases hx : x = id
  · subst hx
    have hself : (s.touch x page writeFlag).pages x = { s.pages x with
      physicalPage := some { page with dirty := page.dirty || writeFlag, clocked := true } } :=
      update_self ..
    rw [Cache.fill_line_self, State.contents_of_some hblocks hpage,
      State.line_of_some (by rw [hself]; exact hblocks) (by rw [hself])]
    simp [State.touch, State.setPage, hppn]
  · have hother : (s.touch id page writeFlag).pages x = s.pages x := update_of_ne hx ..
    rw [Cache.fill_line_of_ne hx]
    simp only [State.cache, hother]
    rfl

theorem State.cache_failRead (hframes : Frames m s) {ppn : ℕ} (hfree : ppn ∈ s.nextFreePPN)
    (id : PageId) : (s.failRead id ppn).cache = s.cache := by
  refine State.cache_congr (fun _ => rfl) (fun x => ?_) rfl
  have hpages : (s.failRead id ppn).pages x = s.pages x := rfl
  simp only [State.cache, hpages]
  split_ifs
  · rfl
  · cases hpage : (s.pages x).physicalPage with
    | none => rfl
    | some page =>
      have hne := hframes.ne_of_free hpage hfree
      simp [State.failRead, update_of_ne hne]

/-- A move of pages keeps the cache coherent and does not change what is in the blocks at present,
if the page table entries can name all physical pages and pages of zeroes are only moved to be
written. -/
theorem Move.coherent (h : Move True keep s s') (hm : m ≤ 2 ^ 20) (hs : Coherent m n s) :
    Coherent m n s' ∧ s'.cache.view = s.cache.view := by
  have hreg' : RegisteredOpen s' := by
    rw [RegisteredOpen, h.relocation.accessible]
    exact h.registered hs.toCore hs.registered fun _ hK => Or.inl hK
  have hcore' := h.core hs.toCore
  have hmappings := hs.mappings
  have hclose (hcoherent : s'.cache.Coherent) (hview : s'.cache.view = s.cache.view) :
      Coherent m n s' ∧ s'.cache.view = s.cache.view :=
    ⟨⟨hcore', hreg', hcoherent.clean⟩, hview⟩
  cases h with
  | turnClock tables =>
    have heq : (s.turnClock.withTables tables).cache = s.cache := s.cache_turnClock
    exact hclose (heq ▸ hs.cache) (by rw [heq])
  | @evict tables id rest hfree hqueue =>
    have hid : id ∈ s.clockQueue := hqueue ▸ List.mem_cons_self
    obtain ⟨-, page, hpage, hppn⟩ := hs.frames.page_of_mem_queue hid
    have hblocks := hs.queued.blocks_ne_nil hs.mappings hs.frames hid
    have heq : ((s.evict id).withTables tables).cache = s.cache.evict id :=
      State.cache_evict hblocks hpage hppn (hs.readable_of_some hblocks hpage)
    exact hclose (heq ▸ hs.cache.evict id) (by rw [heq, Cache.view_evict hs.cache])
  | @fetch tables id ppn rest hfree hmapped habsent hread =>
    have hblocks := hs.blocks_ne_nil hmapped
    have halone := hs.alone hs.registered hblocks (Or.inl hmapped) hread
    have hvalue : s.backing (s.pages id) = s.cache.read id := by
      rw [State.backing_eq, Cache.read_of_none (State.line_of_none habsent)]
      rfl
    have heq : ((s.allocate id ⟨ppn, true, false⟩ (s.backing (s.pages id))).withTables
        tables).cache = s.cache.fill id (s.cache.read id) false := by
      rw [← hvalue]
      exact State.cache_allocate hs.frames (hfree ▸ List.mem_cons_self) hblocks _
    have hclean : false = false → s.cache.read id = s.cache.backing (s.cache.place id) := fun _ =>
      Cache.read_of_none (State.line_of_none habsent)
    exact hclose (heq ▸ hs.cache.fill halone hclean)
      (by rw [heq, Cache.view_fill_read hs.cache halone hclean])
  | @unzero tables id ppn rest page writeFlag hfree hmapped hpage hppn hstrict =>
    have hblocks := hs.blocks_ne_nil hmapped
    have halone := hs.cache.alone (State.line_isSome.mpr ⟨hblocks, page, hpage⟩)
    have hzero : s.cache.read id = fun _ => 0 := by
      rw [← hs.frames.zero hm, ← hppn]
      exact State.contents_of_some hblocks hpage
    have heq : ((s.allocate id ⟨ppn, true, writeFlag⟩ fun _ => 0).withTables tables).cache =
        s.cache.fill id (s.cache.read id) writeFlag := by
      rw [hzero]
      exact State.cache_allocate hs.frames (hfree ▸ List.mem_cons_self) hblocks _
    have hclean : writeFlag = false → s.cache.read id = s.cache.backing (s.cache.place id) := by
      rw [hstrict trivial]
      exact fun h => absurd h (by simp)
    exact hclose (heq ▸ hs.cache.fill halone hclean)
      (by rw [heq, Cache.view_fill_read hs.cache halone hclean])
  | @touch tables id page writeFlag hmapped hpage hppn =>
    have hblocks := hs.blocks_ne_nil hmapped
    have halone := hs.cache.alone (State.line_isSome.mpr ⟨hblocks, page, hpage⟩)
    have heq : ((s.touch id page writeFlag).withTables tables).cache =
        s.cache.fill id (s.cache.read id) (page.dirty || writeFlag) :=
      State.cache_touch hblocks hpage hppn writeFlag
    have hclean : (page.dirty || writeFlag) = false →
        s.cache.read id = s.cache.backing (s.cache.place id) := by
      intro hclean
      have hline := State.line_of_some hblocks hpage
      rw [(Bool.or_eq_false_iff.mp hclean).1, decide_eq_false hppn] at hline
      rw [hs.cache.clean id _ hline, Cache.read_of_line hline]
    exact hclose (heq ▸ hs.cache.fill halone hclean)
      (by rw [heq, Cache.view_fill_read hs.cache halone hclean])
  | @failRead tables id ppn rest hfree =>
    have heq : ((s.failRead id ppn).withTables tables).cache = s.cache :=
      State.cache_failRead hs.frames (hfree ▸ List.mem_cons_self) id
    exact hclose (heq ▸ hs.cache) (by rw [heq])

theorem Moves.coherent (h : Moves True keep s s') (hm : m ≤ 2 ^ 20) (hs : Coherent m n s) :
    Coherent m n s' ∧ s'.cache.view = s.cache.view := by
  induction h with
  | refl => exact ⟨hs, rfl⟩
  | tail _ hmove ih =>
    obtain ⟨hcoherent, hview⟩ := hmove.coherent hm ih.1
    exact ⟨hcoherent, hview.trans ih.2⟩

end OsFromScratch.Pager
