import OsFromScratch.Pager.Attachment
import OsFromScratch.Pager.Clock

/-!
# Page faults

`vm_fault` brings a page into memory by a sequence of moves, and gives the process a copy of its own
when it writes to a page that it shares.

## Main definitions

* `State.split` — a process leaves a shared page for a new page.
* `Copy` — a process leaves a shared page for a copy of it.

## Main results

* `pageIn_spec` — a page is brought into memory.
* `copyOnWrite_spec` — a page is copied.
* `vmFault_spec` — what `vm_fault` does.
-/

namespace OsFromScratch.Pager

open Function

variable {m n : ℕ} {s : State} {id : PageId}

/-! ### Bringing a page into memory -/

/-- The page is used, and its page table entries are brought up to date. -/
theorem allowAccess_spec (h : Core m n s) (hptes : TablesUpToDate {id} s)
    (hmapped : (s.pages id).affiliated ≠ []) {page : PhysicalPage}
    (hpage : (s.pages id).physicalPage = some page) (hppn : page.ppn ≠ 0) (writeFlag : Bool)
    (hok : page.dirty = true → writeFlag = true →
      1 < (s.pages id).blocks.length ∨ page.clocked = false) :
    ∃ tables, allowAccess id writeFlag s =
        some (true, (s.touch id page writeFlag).withTables tables) ∧
      WellFormed m n ((s.touch id page writeFlag).withTables tables) := by
  have hres : (s.pages id).resident = true := by rw [h.frames.resident, hpage]; rfl
  have hsame : s.setPage id { s.pages id with resident := true } = s := by
    have hpg : ({ s.pages id with resident := true } : VirtualPage) = s.pages id := by
      rw [← hres]
    rw [hpg, State.setPage, update_eq_self]
  have hmove : Move False False s (s.touch id page writeFlag) :=
    Move.touch (s.touch id page writeFlag).pageTables writeFlag hmapped hpage hppn
  have hcore := hmove.core h
  have hreloc := s.relocation_touch id page writeFlag
  have hmapped' : ((s.touch id page writeFlag).pages id).affiliated ≠ [] := by
    rw [hreloc.affiliated]
    exact hmapped
  obtain ⟨tables, hupdate, hptes'⟩ := (hptes.setPage id _).updatePTEs id
    (fun x ptr hptr => (hcore.mappings.attached x ptr).mp hptr)
    (hcore.mappings.updatable hcore.frames hmapped')
  have hwf : WellFormed m n ((s.touch id page writeFlag).withTables tables) := by
    refine { hcore.withTables tables with ptes := hptes'.mono fun x hx => ?_ }
    rcases hx.1 with hx1 | hx1
    · exact hx.2 hx1
    · exact hx.2 hx1
  refine ⟨tables, ?_, hwf⟩
  rw [allowAccess]
  simp only [hsame]
  simp only [hpage, Option.bind_eq_bind, Option.bind_some]
  rw [if_neg fun hbad => hbad.2.2 (hok hbad.1 hbad.2.1)]
  refine (bind_of_eq_some hupdate).trans ?_
  exact bind_of_eq_some hwf.assertStructureConsistency

theorem returnPpnRemoveFromClock_eq {page : PhysicalPage}
    (hpage : (s.pages id).physicalPage = some page) (hmem : id ∈ s.clockQueue) :
    returnPpnRemoveFromClock id s = updatePTEs id (State.setPage
      { s with nextFreePPN := s.nextFreePPN ++ [page.ppn], clockQueue := s.clockQueue.erase id } id
      { s.pages id with resident := false, physicalPage := none }) := by
  rw [returnPpnRemoveFromClock]
  simp only [hpage, Option.bind_eq_bind, Option.bind_some, if_pos hmem]

/-- `giveUp` undoes the allocation. -/
theorem giveUp_spec {t : State} (h : Core m n t) {ppn : ℕ} {rest : List ℕ}
    {tables : Pid → ℕ → PageTableEntry} (hfree : t.nextFreePPN = ppn :: rest)
    (hmapped : (t.pages id).affiliated ≠ []) (habsent : (t.pages id).physicalPage = none)
    (hread : ¬t.Readable id) (hptes : TablesUpToDate {id}
      ((t.allocate id ⟨ppn, true, false⟩ (t.garbage 0)).withTables tables)) :
    ∃ tables', giveUp id { (t.allocate id ⟨ppn, true, false⟩ (t.garbage 0)).withTables tables with
        garbage := fun k => t.garbage (k + 1) } =
        some (false, (t.failRead id ppn).withTables tables') ∧
      WellFormed m n ((t.failRead id ppn).withTables tables') := by
  have hres : (t.pages id).resident = false := by rw [h.frames.resident, habsent]; rfl
  have hnot : id ∉ t.clockQueue := by
    rw [h.frames.mem_queue, VirtualPage.frame, habsent]
    simp
  have hmove : Move False False t (t.failRead id ppn) :=
    Move.failRead (t.failRead id ppn).pageTables hfree hmapped habsent hread False.elim
  have hcore := hmove.core h
  obtain ⟨block, blocks, hblocks⟩ := List.exists_cons_of_ne_nil (h.blocks_ne_nil hmapped)
  -- the state after the page has left the registry
  let s₁ : State := { (t.allocate id ⟨ppn, true, false⟩ (t.garbage 0)).withTables tables with
    garbage := fun k => t.garbage (k + 1)
    filenameBlockToVpage := (t.failRead id ppn).filenameBlockToVpage }
  have hself : s₁.pages id =
      { t.pages id with resident := true, physicalPage := some ⟨ppn, true, false⟩ } := by
    simp [s₁, State.allocate, State.withTables]
  have hremove : (if (t.pages id).affiliated.length = 1 then
      removeFromFilenameBlock id
        { (t.allocate id ⟨ppn, true, false⟩ (t.garbage 0)).withTables tables with
          garbage := fun k => t.garbage (k + 1) }
      else some { (t.allocate id ⟨ppn, true, false⟩ (t.garbage 0)).withTables tables with
        garbage := fun k => t.garbage (k + 1) }) = some s₁ := by
    split_ifs with hone
    · simp [removeFromFilenameBlock, s₁, State.failRead, State.allocate, State.withTables, hblocks,
        hone]
    · simp [s₁, State.failRead, hone, State.allocate, State.withTables]
  -- the state before the page table entries are updated
  let s₂ : State := { s₁ with
    nextFreePPN := s₁.nextFreePPN ++ [ppn]
    clockQueue := s₁.clockQueue.erase id }
  let s₃ := s₂.setPage id { s₂.pages id with resident := false, physicalPage := none }
  have hpages : s₃.pages = t.pages := by
    funext x
    by_cases hx : x = id
    · subst hx
      have hpage : t.pages x = { t.pages x with resident := false, physicalPage := none } := by
        rw [← hres, ← habsent]
      rw [hpage]
      simp [s₃, s₂, State.setPage, hself]
    · simp [s₃, s₂, s₁, State.setPage, State.allocate, State.withTables, hx]
  have hs₃ : s₃ = (t.failRead id ppn).withTables tables := by
    refine State.ext rfl rfl rfl rfl rfl rfl rfl ?_ rfl rfl rfl hpages rfl rfl rfl rfl rfl rfl
    simp only [s₃, s₂, s₁, State.setPage, State.allocate, State.withTables, State.failRead]
    rw [List.erase_append_right _ hnot, List.erase_cons_head, List.append_nil]
  have hptes₂ : Ptes {id} {pid | pid ∈ t.processTable} t.entryPage s₂ := { hptes with }
  have hptes₃ : Ptes {id} {pid | pid ∈ t.processTable} t.entryPage
      ((t.failRead id ppn).withTables tables) := by
    rw [← hs₃, ← Set.insert_eq_of_mem (Set.mem_singleton id)]
    exact hptes₂.setPage id _
  obtain ⟨tables', hupdate, hptes'⟩ := hptes₃.updatePTEs id
    (fun x ptr hptr => (h.mappings.attached x ptr).mp hptr)
    ⟨hmapped, fun hr => absurd (hres.symm.trans hr) Bool.false_ne_true⟩
  have hwf : WellFormed m n ((t.failRead id ppn).withTables tables') :=
    { hcore.withTables tables' with ptes := hptes'.mono (by simp) }
  refine ⟨tables', ?_, hwf⟩
  rw [giveUp]
  have haff : ((t.allocate id ⟨ppn, true, false⟩ (t.garbage 0)).withTables tables).pages id =
      s₁.pages id := rfl
  simp only [haff, hself]
  refine (bind_of_eq_some hremove).trans ?_
  have hreturn : returnPpnRemoveFromClock id s₁ =
      some ((t.failRead id ppn).withTables tables') := by
    have hmem : id ∈ s₁.clockQueue := by simp [s₁, State.allocate, State.withTables]
    rw [returnPpnRemoveFromClock_eq (by rw [hself]) hmem]
    exact (congrArg (updatePTEs id) hs₃).trans hupdate
  refine (bind_of_eq_some hreturn).trans ?_
  exact bind_of_eq_some hwf.assertStructureConsistency

/-- The state after a page has been read into the physical page that it has been given. -/
private theorem update_allocate {t : State} (page : PhysicalPage) (c c' : Contents)
    (tables : Pid → ℕ → PageTableEntry) :
    ({ (t.allocate id page c).withTables tables with
      physmem := update ((t.allocate id page c).withTables tables).physmem page.ppn c' } : State) =
    (t.allocate id page c').withTables tables := by
  simp [State.allocate, State.withTables]

private theorem touch_allocate {t : State} (ppn : ℕ) (c : Contents) (writeFlag : Bool) :
    (t.allocate id ⟨ppn, true, false⟩ c).touch id ⟨ppn, true, false⟩ writeFlag =
      t.allocate id ⟨ppn, true, writeFlag⟩ c := by
  simp [State.touch, State.allocate, State.setPage]

theorem fileRead_of_readable {ppn : ℕ} (hblocks : (s.pages id).blocks ≠ [])
    (hread : s.Readable id) :
    fileRead (s.pages id) ppn s =
      some (true, { s with physmem := update s.physmem ppn (s.backing (s.pages id)) }) := by
  obtain ⟨block, blocks, heq⟩ := List.exists_cons_of_ne_nil hblocks
  simp only [fileRead, heq, State.backing, List.headD_cons]
  rcases hread with hswap | hacc
  · simp [hswap]
  · rw [heq, List.headD_cons] at hacc
    split_ifs <;> rfl

theorem fileRead_of_not_readable {ppn : ℕ} (hblocks : (s.pages id).blocks ≠ [])
    (hread : ¬s.Readable id) :
    fileRead (s.pages id) ppn s = some (false, { s with
      physmem := update s.physmem ppn (s.garbage 0)
      garbage := fun k => s.garbage (k + 1) }) := by
  obtain ⟨block, blocks, heq⟩ := List.exists_cons_of_ne_nil hblocks
  simp only [State.Readable, heq, List.headD_cons, not_or] at hread
  simp [fileRead, heq, hread.1, hread.2]

/-- A page that is not in memory is read from its file. -/
theorem bringIn_absent (h : WellFormed m n s) (hm : 2 ≤ m) (hmapped : (s.pages id).affiliated ≠ [])
    (habsent : (s.pages id).physicalPage = none) :
    ∃ t ppn rest tables, Reclaim s t ∧ t.nextFreePPN = ppn :: rest ∧
      TablesUpToDate {id}
        ((t.allocate id ⟨ppn, true, false⟩ (t.physmem ppn)).withTables tables) ∧
      (s.Readable id → bringIn id s = some (true,
        (t.allocate id ⟨ppn, true, false⟩ (t.backing (t.pages id))).withTables tables)) ∧
      (¬s.Readable id → bringIn id s = some (false,
        { (t.allocate id ⟨ppn, true, false⟩ (t.garbage 0)).withTables tables with
          garbage := fun k => t.garbage (k + 1) })) := by
  have hnot : id ∉ s.clockQueue := by
    rw [h.frames.mem_queue, VirtualPage.frame, habsent]
    simp
  have hres : (s.pages id).resident = false := by rw [h.frames.resident, habsent]; rfl
  obtain ⟨t, ppn, rest, tables, hreclaim, hfree, heq, hptes⟩ :=
    giveNewPpn_eq h.toCore hm h.ptes hmapped hnot
  have hreloc := (hreclaim.moves False False).relocation
  let x := (t.allocate id ⟨ppn, true, false⟩ (t.physmem ppn)).withTables tables
  have hx : Relocation t x := { t.relocation_allocate id ⟨ppn, true, false⟩ (t.physmem ppn) with }
  have hself : x.pages id =
      { t.pages id with resident := true, physicalPage := some ⟨ppn, true, false⟩ } :=
    update_self ..
  have hblocks : (x.pages id).blocks ≠ [] := by
    rw [hx.blocks, hreloc.blocks]
    exact h.toCore.blocks_ne_nil hmapped
  have hread : x.Readable id ↔ s.Readable id := (hx.readable id).trans (hreloc.readable id)
  have hbacking : x.backing (x.pages id) = t.backing (t.pages id) := by
    rw [hself]
    rfl
  have hbring : bringIn id s = fileRead (x.pages id) ppn x := by
    rw [bringIn]
    refine (bind_of_eq_some heq).trans ?_
    have hplace : (x.pages id).physicalPage = some ⟨ppn, true, false⟩ := by rw [hself]
    refine (bind_of_eq_some hplace).trans ?_
    rw [hres]
    rfl
  refine ⟨t, ppn, rest, tables, hreclaim, hfree, ?_, fun hr => ?_, fun hr => ?_⟩
  · have hL : {pid | pid ∈ x.processTable} = {pid | pid ∈ s.processTable} := by
      rw [hx.processTable, hreloc.processTable]
    have hM : x.entryPage = s.entryPage := by rw [hx.entryPage, hreloc.entryPage]
    rw [TablesUpToDate, show ((t.allocate id ⟨ppn, true, false⟩
      (t.physmem ppn)).withTables tables) =
      x from rfl, hL, hM]
    exact hptes.mono (by simp)
  · rw [hbring, fileRead_of_readable hblocks (hread.mpr hr), hbacking]
    exact congrArg (fun y => some (true, y)) (update_allocate _ _ _ tables)
  · rw [hbring, fileRead_of_not_readable hblocks (fun hx => hr (hread.mp hx))]
    refine congrArg (fun y => some (false, y)) ?_
    simp [x, State.allocate, State.withTables]

/-- A page on the physical page 0 gets a physical page of its own, with zeroes. -/
theorem bringIn_null (h : WellFormed m n s) (hm : 2 ≤ m) (hmapped : (s.pages id).affiliated ≠ [])
    {page : PhysicalPage} (hpage : (s.pages id).physicalPage = some page) (hppn : page.ppn = 0) :
    ∃ t ppn rest tables, Reclaim s t ∧ t.nextFreePPN = ppn :: rest ∧
      TablesUpToDate {id} ((t.allocate id ⟨ppn, true, false⟩ fun _ => 0).withTables tables) ∧
      bringIn id s =
        some (true, (t.allocate id ⟨ppn, true, false⟩ fun _ => 0).withTables tables) := by
  have hnot : id ∉ s.clockQueue := by
    rw [h.frames.mem_queue, not_not, VirtualPage.frame_eq_nil_iff]
    intro page' hpage'
    rw [Option.mem_unique hpage' hpage]
    exact hppn
  have hres : (s.pages id).resident = true := by rw [h.frames.resident, hpage]; rfl
  obtain ⟨t, ppn, rest, tables, hreclaim, hfree, heq, hptes⟩ :=
    giveNewPpn_eq h.toCore hm h.ptes hmapped hnot
  have hreloc := (hreclaim.moves False False).relocation
  let x := (t.allocate id ⟨ppn, true, false⟩ fun _ => 0).withTables tables
  have hx : Relocation t x := { t.relocation_allocate id ⟨ppn, true, false⟩ fun _ => 0 with }
  refine ⟨t, ppn, rest, tables, hreclaim, hfree, ?_, ?_⟩
  · have hL : {pid | pid ∈ x.processTable} = {pid | pid ∈ s.processTable} := by
      rw [hx.processTable, hreloc.processTable]
    have hM : x.entryPage = s.entryPage := by rw [hx.entryPage, hreloc.entryPage]
    rw [TablesUpToDate, show ((t.allocate id ⟨ppn, true, false⟩ fun _ => 0).withTables tables) =
      x from rfl, hL, hM]
    have hempty : Ptes {id} {pid | pid ∈ s.processTable} s.entryPage _ := hptes.mono (by simp)
    exact { hempty with }
  · rw [bringIn]
    refine (bind_of_eq_some heq).trans ?_
    have hplace : (((t.allocate id ⟨ppn, true, false⟩ (t.physmem ppn)).withTables tables).pages
        id).physicalPage = some ⟨ppn, true, false⟩ := by
      simp [State.allocate, State.withTables]
    refine (bind_of_eq_some hplace).trans ?_
    rw [if_pos hres]
    exact congrArg (fun y => some (true, y)) (update_allocate _ _ _ tables)

/-- A fault on a page does not remove it from the registry: its block can be read, or it is mapped
to several addresses. -/
def State.Kept (s : State) (id : PageId) : Prop :=
  s.Readable id ∨ (s.pages id).affiliated.length ≠ 1

/-- A page in memory can be read again. -/
theorem Core.readable (h : Core m n s) {page : PhysicalPage}
    (hmapped : (s.pages id).affiliated ≠ []) (hpage : (s.pages id).physicalPage = some page) :
    s.Readable id := by
  have hres : (s.pages id).resident = true := by rw [h.frames.resident, hpage]; rfl
  obtain ⟨block, blocks, hblocks⟩ := List.exists_cons_of_ne_nil (h.blocks_ne_nil hmapped)
  cases hswap : (s.pages id).isSwap with
  | true => exact Or.inl hswap
  | false =>
    refine Or.inr (h.frames.loaded id hres hswap _ ?_)
    rw [hblocks]
    exact List.mem_cons_self

/-- `pageIn` brings a page into memory, unless its file cannot be read. -/
theorem pageIn_spec (h : WellFormed m n s) (hm : 2 ≤ m) (hmapped : (s.pages id).affiliated ≠ [])
    (writeFlag : Bool) {strict keep : Prop}
    (hstrict : strict → (∃ page ∈ (s.pages id).physicalPage, page.ppn = 0) → writeFlag = true)
    (hkeep : keep → s.Kept id)
    (hok : ∀ page ∈ (s.pages id).physicalPage, page.dirty = true → writeFlag = true →
      1 < (s.pages id).blocks.length ∨ page.clocked = false) :
    ∃ ok s', pageIn id writeFlag s = some (ok, s') ∧ WellFormed m n s' ∧ Moves strict keep s s' ∧
      (ok = true ↔ s.Readable id) ∧
      (ok = true → ∃ page, (s'.pages id).physicalPage = some page ∧ page.ppn ≠ 0 ∧
        page.clocked = true ∧ (writeFlag = true → page.dirty = true)) := by
  have htouch (x : State) (page : PhysicalPage) (tables : Pid → ℕ → PageTableEntry) :
      (((x.touch id page writeFlag).withTables tables).pages id).physicalPage =
        some { page with dirty := page.dirty || writeFlag, clocked := true } := by
    simp [State.touch, State.setPage, State.withTables]
  rw [pageIn]
  cases hplace : (s.pages id).physicalPage with
  | none =>
    have hres : (s.pages id).resident = false := by rw [h.frames.resident, hplace]; rfl
    have hnull : (s.pages id).onNullPage = some false := by simp [VirtualPage.onNullPage, hres]
    obtain ⟨t, ppn, rest, tables, hreclaim, hfree, hptes, hgood, hbad⟩ :=
      bringIn_absent h hm hmapped hplace
    have hmoves := hreclaim.moves strict keep
    have hcore := hmoves.core h.toCore
    have hreloc := hmoves.relocation
    have hnot : id ∉ s.clockQueue := by
      rw [h.frames.mem_queue, VirtualPage.frame, hplace]
      simp
    have hpage : t.pages id = s.pages id := hreclaim.page_eq hnot
    have hppn : ppn ≠ 0 := hcore.frames.pos_of_mem_free (by rw [hfree]; exact List.mem_cons_self)
    simp only [hnull, Option.bind_eq_bind, Option.bind_some, hres, true_or, if_true]
    by_cases hread : s.Readable id
    · -- the page is fetched and used
      have hfetch : Move strict keep t _ := Move.fetch tables hfree (hpage ▸ hmapped)
        (hpage ▸ hplace)
        ((hreloc.readable id).mpr hread)
      have hself : (((t.allocate id ⟨ppn, true, false⟩ (t.backing (t.pages id))).withTables
          tables).pages id).physicalPage = some ⟨ppn, true, false⟩ := by
        simp [State.allocate, State.withTables]
      have hmapped' : (((t.allocate id ⟨ppn, true, false⟩ (t.backing (t.pages id))).withTables
          tables).pages id).affiliated ≠ [] := by
        rw [hfetch.relocation.affiliated, hpage]
        exact hmapped
      obtain ⟨tables', hallow, hwf⟩ := allowAccess_spec (hfetch.core hcore) { hptes with } hmapped'
        hself hppn writeFlag (by simp)
      refine ⟨true, _, ?_, hwf, (hmoves.tail hfetch).tail
        (Move.touch tables' writeFlag hmapped' hself hppn), by simp [hread], fun _ => ?_⟩
      · exact (bind_of_eq_some (hgood hread)).trans hallow
      · exact ⟨_, htouch _ _ _, hppn, rfl, fun hw => by simp [hw]⟩
    · obtain ⟨tables', hgive, hwf⟩ := giveUp_spec hcore hfree (hpage ▸ hmapped) (hpage ▸ hplace)
        (fun hr => hread ((hreloc.readable id).mp hr)) { hptes with }
      refine ⟨false, _, (bind_of_eq_some (hbad hread)).trans hgive, hwf, hmoves.tail
        (Move.failRead tables' hfree (hpage ▸ hmapped) (hpage ▸ hplace)
          (fun hr => hread ((hreloc.readable id).mp hr))
          fun hk => hpage ▸ (hkeep hk).resolve_left hread), by simp [hread], by simp⟩
  | some page =>
    have hreadable := h.toCore.readable hmapped hplace
    have hres : (s.pages id).resident = true := by rw [h.frames.resident, hplace]; rfl
    have hnull : (s.pages id).onNullPage = some (decide (page.ppn = 0)) := by
      simp [VirtualPage.onNullPage, hres, hplace]
    simp only [hnull, Option.bind_eq_bind, Option.bind_some, hres, Bool.true_eq_false, false_or,
      decide_eq_true_eq]
    by_cases hzero : page.ppn = 0
    · -- the page gets a physical page of its own
      obtain ⟨t, ppn, rest, tables, hreclaim, hfree, hptes, hgood⟩ :=
        bringIn_null h hm hmapped hplace hzero
      have hmoves := hreclaim.moves strict keep
      have hcore := hmoves.core h.toCore
      have hnot : id ∉ s.clockQueue := by
        rw [h.frames.mem_queue, not_not, VirtualPage.frame_eq_nil_iff]
        intro page' hpage'
        rw [Option.mem_unique hpage' hplace]
        exact hzero
      have hpage : t.pages id = s.pages id := hreclaim.page_eq hnot
      have hppn : ppn ≠ 0 := hcore.frames.pos_of_mem_free (by rw [hfree]; exact List.mem_cons_self)
      have hunzero : Move False False t
          ((t.allocate id ⟨ppn, true, false⟩ fun _ => 0).withTables tables) :=
        Move.unzero tables hfree (hpage ▸ hmapped) (hpage ▸ hplace) hzero False.elim
      have hself : (((t.allocate id ⟨ppn, true, false⟩ fun _ => 0).withTables
          tables).pages id).physicalPage = some ⟨ppn, true, false⟩ := by
        simp [State.allocate, State.withTables]
      have hmapped' : (((t.allocate id ⟨ppn, true, false⟩ fun _ => 0).withTables
          tables).pages id).affiliated ≠ [] := by
        rw [hunzero.relocation.affiliated, hpage]
        exact hmapped
      obtain ⟨tables', hallow, hwf⟩ := allowAccess_spec (hunzero.core hcore) hptes hmapped' hself
        hppn writeFlag (by simp)
      rw [if_pos hzero]
      refine ⟨true, _, (bind_of_eq_some hgood).trans hallow, hwf, ?_, by simp [hreadable],
        fun _ => ?_⟩
      · have hfinal : Move strict keep t
            ((t.allocate id ⟨ppn, true, writeFlag⟩ fun _ => 0).withTables tables') :=
          Move.unzero tables' hfree (hpage ▸ hmapped) (hpage ▸ hplace) hzero
            fun hs => hstrict hs ⟨page, hplace, hzero⟩
        rw [← touch_allocate] at hfinal
        exact hmoves.tail hfinal
      · exact ⟨_, htouch _ _ _, hppn, rfl, fun hw => by simp [hw]⟩
    · rw [if_neg hzero]
      obtain ⟨tables', hallow, hwf⟩ := allowAccess_spec h.toCore
        (h.ptes.mono (Set.empty_subset {id})) hmapped hplace hzero writeFlag (hok page hplace)
      refine ⟨true, _, hallow, hwf, Relation.ReflTransGen.single
        (Move.touch tables' writeFlag hmapped hplace hzero), by simp [hreadable], fun _ => ?_⟩
      exact ⟨_, htouch _ _ _, hzero, rfl, fun hw => by simp [hw]⟩

/-! ### Copies -/

/-- An address is moved from a shared page to a new page, which gets a block of the shared page. -/
def State.split (s : State) (ptr : PtePtr) (id : PageId) (block : ℕ) : State :=
  { s.setVA ptr.pid (pageAddr ptr.index) s.nextPage with
    pages := update (update s.pages id { s.pages id with
        affiliated := (s.pages id).affiliated.erase ptr, blocks := (s.pages id).blocks.dropLast })
      s.nextPage { VirtualPage.new with affiliated := [ptr], isSwap := true, blocks := [block] }
    nextPage := s.nextPage + 1 }

/-- What a copy of a page is filled with, if the physical page `ppn` is used for it: a page that is
not in memory has just been evicted from there. -/
def State.copied (s : State) (id : PageId) (ppn : ℕ) : Contents :=
  match (s.pages id).physicalPage with
  | some page => s.physmem page.ppn
  | none => s.physmem ppn

/-- The current process leaves a shared page for a copy of it. -/
structure Copy (s s' : State) (ptr : PtePtr) (id : PageId) : Prop where
  current : ptr.pid = s.currentPid
  mapped : s.entryPage ptr = some id
  swap : (s.pages id).isSwap = true
  shared : 1 < (s.pages id).blocks.length
  readable : (s.pages id).bits.1 = true
  result : ∃ block t ppn rest tables, (s.pages id).blocks.getLast? = some block ∧
    Reclaim (s.split ptr id block) t ∧ t.nextFreePPN = ppn :: rest ∧
    s' = (t.allocate s.nextPage ⟨ppn, true, true⟩ (t.copied id ppn)).withTables tables

variable {ptr : PtePtr} {block : ℕ}

theorem State.entryPage_split (s : State) (ptr : PtePtr) (id : PageId) (block : ℕ) :
    (s.split ptr id block).entryPage = update s.entryPage ptr (some s.nextPage) :=
  s.entryPage_setVA ptr.pid ptr.index s.nextPage

theorem Mappings.split (h : Mappings n s.entryPage s) (hptr : s.entryPage ptr = some id)
    (hswap : (s.pages id).isSwap = true) (hblock : (s.pages id).blocks.getLast? = some block) :
    Mappings n (s.split ptr id block).entryPage (s.split ptr id block) := by
  -- the address is detached from the shared page and attached to the new one
  let v : VirtualPage := { s.pages id with
    affiliated := (s.pages id).affiliated.erase ptr, blocks := (s.pages id).blocks.dropLast }
  let x : State := { s with pages := update s.pages id v, nextFreeSwap := block :: s.nextFreeSwap }
  have hblocks : (s.pages id).blocks = (s.pages id).blocks.dropLast ++ [block] :=
    (List.dropLast_append_getLast? block hblock).symm
  have hx : Mappings n (update s.entryPage ptr none) x :=
    h.detach hptr rfl rfl rfl rfl rfl hblocks (by simp [hswap]) (List.Perm.refl _) rfl
  have hsplit : Mappings n (update (update s.entryPage ptr none) ptr (some x.nextPage))
      (s.split ptr id block) :=
    hx.add (update_self ..) rfl rfl rfl rfl (List.Perm.refl _) fun key y hkey => Or.inl hkey
  rwa [update_idem, show x.nextPage = s.nextPage from rfl, ← State.entryPage_split] at hsplit

theorem Frames.split (h : Frames m s) (hmappings : Mappings n s.entryPage s)
    (hswap : (s.pages id).isSwap = true) (hid : id < s.nextPage)
    (hshared : 1 < (s.pages id).blocks.length) : Frames m (s.split ptr id block) := by
  let v : VirtualPage := { s.pages id with
    affiliated := (s.pages id).affiliated.erase ptr, blocks := (s.pages id).blocks.dropLast }
  have hx : Frames m { s with pages := update s.pages id v } := by
    refine h.page ⟨rfl, rfl, rfl, rfl, rfl⟩ rfl rfl (h.resident id) (fun page hpage hppn => ?_)
      fun _ hfile => ?_
    · have := (h.null_page id page hpage hppn).2.1
      omega
    · rw [show v.isSwap = true from hswap] at hfile
      simp at hfile
  have hsame : SameMemory { s with pages := update s.pages id v } (s.split ptr id block) :=
    ⟨rfl, rfl, rfl, rfl, rfl⟩
  refine hx.page hsame rfl ?_ rfl (by simp [VirtualPage.new]) (by simp [VirtualPage.new])
  rw [show ({ s with pages := update s.pages id v } : State).pages s.nextPage = .new from
    (update_of_ne hid.ne' ..).trans (hmappings.fresh _ le_rfl)]
  rfl

/-- An address that is mapped is mapped to another page. -/
theorem Spaces.setVA (h : Spaces s) {new : PageId} (hptr : s.entryPage ptr = some id) :
    Spaces (s.setVA ptr.pid (pageAddr ptr.index) new) := by
  have hmapped : s.mapped ptr.pid (pageAddr ptr.index) = some id := hptr
  refine ⟨fun pid hpid => ?_, h.unmanaged, fun pid va x hva => ?_, fun pid hpid => ?_⟩
  · rcases (AList.mem_insert _).mp hpid with rfl | hold
    · exact h.mem_processTable hmapped
    · exact h.live pid hold
  · rw [State.mapped_setVA] at hva
    split_ifs at hva with heq
    · exact ⟨ptr.index, heq.2⟩
    · exact h.aligned pid va x hva
  · obtain ⟨count, hcount, hnext, hvalid⟩ := h.next pid hpid
    refine ⟨count, hcount, hnext, fun i => ?_⟩
    rw [State.entryPage_setVA, update_apply, ← hvalid]
    split_ifs with heq
    · rw [heq, hptr]
      rfl
    · rfl

theorem Core.split (h : Core m n s) (hptr : s.entryPage ptr = some id)
    (hswap : (s.pages id).isSwap = true) (hblock : (s.pages id).blocks.getLast? = some block)
    (hshared : 1 < (s.pages id).blocks.length) : Core m n (s.split ptr id block) where
  mappings := h.mappings.split hptr hswap hblock
  frames := h.frames.split h.mappings hswap (h.mappings.not_fresh hptr) hshared
  spaces := { h.spaces.setVA hptr with }
  queued := by
    intro x hx
    have hlt : x < s.nextPage := h.frames.not_fresh h.mappings hx
    refine (h.queued x hx).imp_left fun haff => ?_
    have hpage : (s.split ptr id block).pages x = update s.pages id { s.pages id with
        affiliated := (s.pages id).affiliated.erase ptr
        blocks := (s.pages id).blocks.dropLast } x := update_of_ne hlt.ne ..
    rw [hpage]
    by_cases heq : x = id
    · subst heq
      rw [update_self]
      have hmem := (h.mappings.attached x ptr).mpr hptr
      have hlen := h.mappings.swap x hswap
      rw [ne_eq, ← List.length_eq_zero_iff, List.length_erase_of_mem hmem]
      omega
    · rwa [update_of_ne heq]

theorem TablesUpToDate.split (h : TablesUpToDate ∅ s) :
    TablesUpToDate {s.nextPage, id} (s.split ptr id block) := by
  refine ⟨fun x hx => ?_, fun ptr' hL hnone => ?_⟩
  · simp only [Set.mem_insert_iff, Set.mem_singleton_iff, not_or] at hx
    have hpage : (s.split ptr id block).pages x = s.pages x :=
      (update_of_ne hx.1 ..).trans (update_of_ne hx.2 ..)
    have hold := h.page x (Set.notMem_empty x)
    rw [State.UpToDate, hpage]
    exact hold
  · rw [State.entryPage_split, update_apply] at hnone
    split_ifs at hnone
    exact h.unmapped ptr' hL hnone

/-- A page with addresses gets a free physical page. -/
theorem Core.allocate (h : Core m n s) {page : PhysicalPage} {rest : List ℕ} (contents : Contents)
    (hfree : s.nextFreePPN = page.ppn :: rest) (hid : (s.pages id).frame = [])
    (hmapped : (s.pages id).affiliated ≠ []) (hread : s.Readable id) :
    Core m n (s.allocate id page contents) where
  mappings := by
    have hreloc := s.relocation_allocate id page contents
    rw [hreloc.entryPage]
    refine hreloc.mappings h.mappings fun x hx => ?_
    exact update_of_ne (lt_of_lt_of_le (State.pages_of_fresh h.mappings hmapped) hx).ne' ..
  frames := h.frames.allocate contents hfree rfl hid fun hfile _ hblock =>
    State.loaded_of_readable h.mappings hmapped hread hfile hblock
  spaces := (s.relocation_allocate id page contents).spaces h.spaces
  queued := h.queued.allocate contents hmapped

/-- The code before `give_new_ppn` splits the page. -/
private theorem split_eq {va : ℕ} {i : ℕ} (hva : va = pageAddr i) (hptr : ptr = ⟨s.currentPid, i⟩)
    (hid : id < s.nextPage) :
    State.setPage ((s.setVA s.currentPid va s.nextPage).makePage
      { VirtualPage.new with affiliated := [ptr], isSwap := true, blocks := [block] }) id
      { ((s.setVA s.currentPid va s.nextPage).makePage
          { VirtualPage.new with
            affiliated := [ptr], isSwap := true, blocks := [block] }).pages id with
        affiliated := (((s.setVA s.currentPid va s.nextPage).makePage
          { VirtualPage.new with affiliated := [ptr], isSwap := true, blocks := [block] }).pages
            id).affiliated.erase ptr
        blocks := (((s.setVA s.currentPid va s.nextPage).makePage
          { VirtualPage.new with affiliated := [ptr], isSwap := true, blocks := [block] }).pages
            id).blocks.dropLast } = s.split ptr id block := by
  subst hva hptr
  have hpages : (((s.setVA s.currentPid (pageAddr i) s.nextPage).makePage
      { VirtualPage.new with affiliated := [⟨s.currentPid, i⟩], isSwap := true, blocks := [block] }
      ).pages id) = s.pages id := update_of_ne hid.ne ..
  rw [hpages]
  refine State.ext rfl rfl rfl rfl rfl rfl rfl rfl rfl rfl rfl ?_ rfl rfl rfl rfl rfl rfl
  exact update_comm hid.ne' ..

/-- After `give_new_ppn`, the contents of the shared page are copied. -/
private theorem copyContents_eq {t : State} {new : PageId} {ppn : ℕ}
    {tables : Pid → ℕ → PageTableEntry} (hframes : Frames m t) (hne : id ≠ new) :
    copyContents id ppn ((t.allocate new ⟨ppn, true, false⟩ (t.physmem ppn)).withTables tables) =
      some ((t.allocate new ⟨ppn, true, false⟩ (t.copied id ppn)).withTables tables) := by
  have hpage : ((t.allocate new ⟨ppn, true, false⟩ (t.physmem ppn)).withTables tables).pages id =
      t.pages id := update_of_ne hne ..
  rw [copyContents, hpage, hframes.resident]
  cases hplace : (t.pages id).physicalPage with
  | none => simp [State.copied, hplace]
  | some page =>
    simp only [Option.isSome_some, if_true, Option.bind_eq_bind, Option.bind_some, State.copied,
      hplace]
    simp [State.allocate, State.withTables]

/-- `copyOnWrite` gives the current process a copy of a shared page. -/
theorem copyOnWrite_spec (h : WellFormed m n s) (hm : 2 ≤ m)
    (hregister : s.pageTableBaseRegister = some s.currentPid) {va : ℕ}
    (hva : s.mapped s.currentPid va = some id) (hshared : 1 < (s.pages id).blocks.length)
    (hread : (s.pages id).bits.1 = true) :
    ∃ s' ptr, copyOnWrite va id s = some s' ∧ WellFormed m n s' ∧ Copy s s' ptr id ∧
      vaToPTE va s.currentPid = ptr ∧ va = pageAddr ptr.index := by
  obtain ⟨i, rfl, hptr, hpte⟩ := h.spaces.mem_entry hva
  have hid := h.mappings.not_fresh hptr
  have hswap : (s.pages id).isSwap = true := by
    by_contra hfile
    obtain ⟨block, hblock⟩ := h.mappings.file id (by simpa using hfile) hid
    rw [hblock] at hshared
    simp at hshared
  obtain ⟨block, hblock⟩ : ∃ block, (s.pages id).blocks.getLast? = some block := by
    refine Option.isSome_iff_exists.mp (List.getLast?_isSome.mpr ?_)
    rintro hnil
    simp [hnil] at hshared
  have hmem := (h.mappings.attached id _).mpr hptr
  have hsplit := h.toCore.split hptr hswap hblock hshared
  have hne : id ≠ s.nextPage := hid.ne
  -- the new page gets a physical page
  let x := s.split ⟨s.currentPid, i⟩ id block
  have hnew : x.pages s.nextPage =
      { VirtualPage.new with
        affiliated := [⟨s.currentPid, i⟩], isSwap := true, blocks := [block] } :=
    update_self ..
  have hnot : s.nextPage ∉ x.clockQueue := fun hq =>
    lt_irrefl _ (h.frames.not_fresh h.mappings hq)
  obtain ⟨t, ppn, rest, tables, hreclaim, hfree, hgive, hptes⟩ :=
    giveNewPpn_eq hsplit hm h.ptes.split (by rw [hnew]; simp) hnot
  have hmoves := hreclaim.moves False False
  have hreloc := hmoves.relocation
  have hcore := hmoves.core hsplit
  have hnew_t : t.pages s.nextPage = x.pages s.nextPage := hreclaim.page_eq hnot
  -- its contents are copied, and it is marked as written
  let y := t.allocate s.nextPage ⟨ppn, true, true⟩ (t.copied id ppn)
  have hy : Core m n y := by
    refine hcore.allocate _ hfree ?_ ?_ (Or.inl ?_) <;> rw [hnew_t, hnew]
    · rfl
    · simp
  have hrelocy := t.relocation_allocate s.nextPage ⟨ppn, true, true⟩ (t.copied id ppn)
  have hM : y.entryPage = x.entryPage := by rw [hrelocy.entryPage, hreloc.entryPage]
  have hL : {pid | pid ∈ y.processTable} = {pid | pid ∈ x.processTable} := by
    rw [hrelocy.processTable, hreloc.processTable]
  have hattached (z : PageId) (ptr : PtePtr) (hz : ptr ∈ (y.pages z).affiliated) :
      y.entryPage ptr = some z := (hy.mappings.attached z ptr).mp hz
  have hptes_y : Ptes {s.nextPage, id} {pid | pid ∈ y.processTable} y.entryPage
      (y.withTables tables) := by
    rw [hM, hL]
    refine ⟨fun z hz => ?_, hptes.unmapped⟩
    have hzn : z ≠ s.nextPage := fun heq => hz (Or.inl heq)
    have hpage : y.pages z = t.pages z := update_of_ne hzn ..
    have hpage' : ((t.allocate s.nextPage ⟨ppn, true, false⟩
        (t.physmem ppn)).withTables tables).pages
        z = t.pages z := update_of_ne hzn ..
    have hold := hptes.page z (by simpa using hz)
    rw [State.UpToDate, hpage'] at hold
    rw [State.UpToDate, show (y.withTables tables).pages = y.pages from rfl, hpage]
    exact hold
  -- the page table entries of both pages are updated
  have haff_id : (y.pages id).affiliated = (s.pages id).affiliated.erase ⟨s.currentPid, i⟩ := by
    rw [hrelocy.affiliated, hreloc.affiliated]
    simp [State.split, hne]
  have hid_mapped : (y.pages id).affiliated ≠ [] := by
    have hlen := h.mappings.swap id hswap
    rw [haff_id, ne_eq, ← List.length_eq_zero_iff, List.length_erase_of_mem hmem]
    omega
  have hnew_mapped : (y.pages s.nextPage).affiliated ≠ [] := by
    rw [hrelocy.affiliated, hnew_t, hnew]
    simp
  obtain ⟨tables₁, hupdate₁, hptes₁⟩ := hptes_y.updatePTEs id hattached
    (hy.mappings.updatable hy.frames hid_mapped)
  obtain ⟨tables₂, hupdate₂, hptes₂⟩ := hptes₁.updatePTEs s.nextPage hattached
    (hy.mappings.updatable hy.frames hnew_mapped)
  have hwf : WellFormed m n (y.withTables tables₂) := by
    refine { hy.withTables tables₂ with ptes := hptes₂.mono ?_ }
    rintro z ⟨⟨hz | hz, hz1⟩, hz2⟩
    · exact hz2 hz
    · exact hz1 hz
  refine ⟨y.withTables tables₂, ⟨s.currentPid, i⟩, ?_, hwf, ⟨rfl, hptr, hswap, hshared, hread,
    block, t, ppn, rest, tables₂, hblock, hreclaim, hfree, rfl⟩, hpte, rfl⟩
  rw [copyOnWrite]
  simp only [hregister, Option.bind_eq_bind, Option.bind_some, hblock, hpte, if_pos hmem]
  have hplace : (((t.allocate s.nextPage ⟨ppn, true, false⟩
      (t.physmem ppn)).withTables tables).pages
      s.nextPage).physicalPage = some ⟨ppn, true, false⟩ := by
    simp [State.allocate, State.withTables]
  have hdirty : State.setPage
      ((t.allocate s.nextPage ⟨ppn, true, false⟩ (t.copied id ppn)).withTables tables) s.nextPage
      { ((t.allocate s.nextPage ⟨ppn, true, false⟩ (t.copied id ppn)).withTables tables).pages
        s.nextPage with physicalPage := some { (⟨ppn, true, false⟩ : PhysicalPage) with
          dirty := true, clocked := true } } = y.withTables tables := by
    simp [y, State.allocate, State.withTables, State.setPage]
  rw [split_eq rfl rfl hid]
  refine (bind_of_eq_some hgive).trans ?_
  refine (bind_of_eq_some hplace).trans ?_
  refine (bind_of_eq_some (copyContents_eq hcore.frames hne)).trans ?_
  rw [hdirty]
  refine (bind_of_eq_some hupdate₁).trans ?_
  exact (bind_of_eq_some hupdate₂).trans hwf.assertStructureConsistency

/-! ### Faults -/

/-- The current process is managed, and its page table is the one that is used. -/
def State.Running (s : State) : Prop :=
  s.currentPid ∈ s.processTable ∧ s.pageTableBaseRegister = some s.currentPid

/-- The start of the page that an address is in. -/
def pageStart (addr : ℕ) : ℕ :=
  addr - addr % vmPagesize

theorem State.touchVA_of_mapped {pid : Pid} {va : ℕ} (hva : s.mapped pid va = some id) :
    s.touchVA pid = s := by
  obtain ⟨vas, hvas, -⟩ := Option.bind_eq_some_iff.mp hva
  have hpid : pid ∈ s.translateVA := AList.lookup_isSome.mp (by rw [hvas]; rfl)
  rw [State.touchVA, if_pos hpid]

theorem State.entryPage_touchVA (s : State) (pid : Pid) :
    (s.touchVA pid).entryPage = s.entryPage := by
  funext ptr
  rw [State.entryPage, s.mapped_touchVA]
  rfl

theorem State.touchVA_eq (s : State) (pid : Pid) :
    ∃ maps, s.touchVA pid = { s with translateVA := maps } := by
  rw [State.touchVA]
  split_ifs
  · exact ⟨s.translateVA, rfl⟩
  · exact ⟨_, rfl⟩

theorem WellFormed.touchVA (h : WellFormed m n s) {pid : Pid} (hpid : pid ∈ s.processTable) :
    WellFormed m n (s.touchVA pid) := by
  have hentry := s.entryPage_touchVA pid
  have hmapped := s.mapped_touchVA pid
  have hlive (pid' : Pid) (h' : pid' ∈ (s.touchVA pid).translateVA) : pid' ∈ s.processTable := by
    rw [State.touchVA] at h'
    split_ifs at h' with hold
    · exact h.spaces.live pid' h'
    · rcases (AList.mem_insert _).mp h' with rfl | h'
      · exact hpid
      · exact h.spaces.live pid' h'
  obtain ⟨maps, heq⟩ := s.touchVA_eq pid
  rw [heq] at hentry hmapped hlive ⊢
  refine ⟨⟨?_, { h.frames with }, ⟨hlive, h.spaces.unmanaged, ?_, ?_⟩, h.queued⟩, ?_⟩
  · rw [hentry]
    exact { h.mappings with }
  · rw [hmapped]
    exact h.spaces.aligned
  · rw [hentry]
    exact h.spaces.next
  · rw [TablesUpToDate, hentry]
    exact { h.ptes with }

/-- What a fault does: a sequence of moves, and perhaps a copy of the page that is written. -/
def Faulted (strict keep : Prop) (s s' : State) : Prop :=
  ∃ s₁, Moves strict keep (s.touchVA s.currentPid) s₁ ∧ (s' = s₁ ∨ ∃ ptr id, Copy s₁ s' ptr id)

/-- The page that an address is in can be accessed. -/
def State.Accessible (s : State) (va : ℕ) (writeFlag : Bool) : Prop :=
  ∃ id, s.mapped s.currentPid va = some id ∧ (s.pages id).bits.1 = true ∧
    (writeFlag = true → (s.pages id).bits.2 = true)

theorem VirtualPage.bits_eq {v : VirtualPage} {page : PhysicalPage} (hres : v.resident = true)
    (hpage : v.physicalPage = some page) (hclocked : page.clocked = true) :
    v.bits = (true, if v.isSwap = false ∨ v.affiliated.length = 1 then page.dirty else false) := by
  simp only [VirtualPage.bits, hres, hpage, hclocked, if_true]
  split_ifs <;> rfl

theorem WellFormed.pte_of_mapped (h : WellFormed m n s) (hptr : s.entryPage ptr = some id) :
    (s.pte ptr).readEnable = (s.pages id).bits.1 ∧
      (s.pte ptr).writeEnable = (s.pages id).bits.2 := by
  have hold := h.ptes.page id (Set.notMem_empty id) ptr ((h.mappings.attached id ptr).mpr hptr)
  exact ⟨hold.1, hold.2.1⟩

theorem State.frontReadable_eq (h : WellFormed m n s) (hmapped : (s.pages id).affiliated ≠ []) :
    s.frontReadable id = some (s.pages id).bits.1 := by
  obtain ⟨ptr, rest, heq⟩ := List.exists_cons_of_ne_nil hmapped
  have hmem : ptr ∈ (s.pages id).affiliated := heq ▸ List.mem_cons_self
  rw [State.frontReadable, heq, List.head?_cons, Option.map_some,
    (h.pte_of_mapped ((h.mappings.attached id ptr).mp hmem)).1]

/-- A page that cannot be read is neither on the physical page 0 nor used. -/
theorem WellFormed.not_clocked (h : WellFormed m n s) (hbits : (s.pages id).bits.1 = false)
    {page : PhysicalPage} (hpage : (s.pages id).physicalPage = some page) :
    page.clocked = false := by
  by_contra hclocked
  have hres : (s.pages id).resident = true := by rw [h.frames.resident, hpage]; rfl
  rw [VirtualPage.bits_eq hres hpage (by simpa using hclocked)] at hbits
  simp at hbits

/-- `vm_fault(addr, false)` for a page that cannot be read. -/
theorem vmFaultRead_spec (h : WellFormed m n s) (hm : 2 ≤ m) {addr : ℕ} {strict keep : Prop}
    (hva : s.mapped s.currentPid (pageStart addr) = some id)
    (hstrict : strict → (s.pages id).bits.1 = false) (hkeep : keep → s.Kept id) :
    ∃ ok s', vmFaultRead addr s = some (ok, s') ∧ WellFormed m n s' ∧ Moves strict keep s s' ∧
      (ok = true ↔ s.Readable id) ∧ (ok = true → (s'.pages id).bits.1 = true) := by
  have hmapped := h.toCore.affiliated_ne_nil hva
  obtain ⟨ok, s', heq, hwf, hmoves, hiff, hpost⟩ := pageIn_spec h hm hmapped false
    (fun hs ⟨page, hpage, hzero⟩ => by
      have hclocked := (h.frames.null_page id page hpage hzero).2.2.1
      rw [h.not_clocked (hstrict hs) hpage] at hclocked
      exact hclocked) hkeep
    (fun page _ _ hw => absurd hw Bool.false_ne_true)
  refine ⟨ok, s', ?_, hwf, hmoves, hiff, fun hok => ?_⟩
  · rw [vmFaultRead, State.touchVA_of_mapped hva]
    simp only [show s.mapped s.currentPid (addr - addr % vmPagesize) = some id from hva]
    exact heq
  · obtain ⟨page, hpage, -, hclocked, -⟩ := hpost hok
    have hres : (s'.pages id).resident = true := by rw [hwf.frames.resident, hpage]; rfl
    rw [VirtualPage.bits_eq hres hpage hclocked]

/-- What `vm_fault` asserts: a page that is written, has been written before and is not shared has
not been used since the hand of the clock passed it. -/
def State.FaultOk (s : State) (va : ℕ) (writeFlag : Bool) : Prop :=
  ∀ id, s.mapped s.currentPid va = some id → ∀ page ∈ (s.pages id).physicalPage,
    page.dirty = true → writeFlag = true → 1 < (s.pages id).blocks.length ∨ page.clocked = false

/-- The page table entry of an address does not allow the access. -/
def State.Denied (s : State) (va : ℕ) (writeFlag : Bool) : Prop :=
  ∀ id, s.mapped s.currentPid va = some id →
    if writeFlag then (s.pages id).bits.2 = false else (s.pages id).bits.1 = false

theorem State.Denied.faultOk (h : WellFormed m n s) {va : ℕ} {writeFlag : Bool}
    (hdenied : s.Denied va writeFlag) : s.FaultOk va writeFlag := by
  intro id hva page hpage hdirty hw
  have hbits := hdenied id hva
  rw [if_pos hw] at hbits
  by_contra hnot
  rw [not_or, Bool.not_eq_false] at hnot
  have hres : (s.pages id).resident = true := by rw [h.frames.resident, hpage]; rfl
  rw [VirtualPage.bits_eq hres hpage hnot.2] at hbits
  simp only [hdirty, ite_eq_right_iff, Bool.true_eq_false, imp_false, not_or] at hbits
  have hswap : (s.pages id).isSwap = true := by simpa using hbits.1
  have hlen := h.mappings.swap id hswap
  have hpos := List.length_pos_of_ne_nil (h.toCore.affiliated_ne_nil hva)
  omega

/-- After a copy, the current process can write to the address. -/
theorem Copy.accessible {s' : State} (h : Copy s s' ptr id) :
    s'.mapped s'.currentPid (pageAddr ptr.index) = some s.nextPage ∧
      (s'.pages s.nextPage).bits = (true, true) := by
  obtain ⟨block, t, ppn, rest, tables, -, hreclaim, -, rfl⟩ := h.result
  let y := t.allocate s.nextPage ⟨ppn, true, true⟩ (t.copied id ppn)
  have hreloc : Relocation (s.split ptr id block) y := (hreclaim.moves False False).relocation.trans
    (t.relocation_allocate s.nextPage ⟨ppn, true, true⟩ (t.copied id ppn))
  constructor
  · have hpid : y.currentPid = ptr.pid := hreloc.currentPid.trans h.current.symm
    have hentry : y.entryPage ptr = some s.nextPage := by
      rw [hreloc.entryPage, State.entryPage_split, update_self]
    rw [show ((y.withTables tables).currentPid) = ptr.pid from hpid]
    exact hentry
  · have hself : y.pages s.nextPage = { t.pages s.nextPage with
        resident := true, physicalPage := some ⟨ppn, true, true⟩ } := update_self ..
    have haff : (y.pages s.nextPage).affiliated = [ptr] := by
      rw [hreloc.affiliated]
      simp [State.split]
    have hres : (y.pages s.nextPage).resident = true := by rw [hself]
    have hplace : (y.pages s.nextPage).physicalPage = some ⟨ppn, true, true⟩ := by rw [hself]
    rw [show (y.withTables tables).pages = y.pages from rfl,
      VirtualPage.bits_eq hres hplace rfl, haff]
    simp

/-- A shared page that is written becomes readable first. -/
theorem readable_spec (h : WellFormed m n s) (hm : 2 ≤ m) {addr : ℕ} (strict : Prop) {keep : Prop}
    (hva : s.mapped s.currentPid (pageStart addr) = some id) (hkeep : keep → s.Kept id) :
    ∃ ok s', (if (s.pages id).bits.1 = true then some (true, s) else vmFaultRead addr s) =
      some (ok, s') ∧ WellFormed m n s' ∧ Moves strict keep s s' ∧ (ok = true ↔ s.Readable id) ∧
      (ok = true → (s'.pages id).bits.1 = true) := by
  split_ifs with hbits
  · obtain ⟨page, hpage⟩ : ∃ page, (s.pages id).physicalPage = some page := by
      refine Option.ne_none_iff_exists'.mp fun hnone => ?_
      simp [VirtualPage.bits, hnone] at hbits
    exact ⟨true, s, rfl, h, Relation.ReflTransGen.refl,
      iff_of_true rfl (h.toCore.readable (h.toCore.affiliated_ne_nil hva) hpage), fun _ => hbits⟩
  · exact vmFaultRead_spec h hm hva (fun _ => by simpa using hbits) hkeep

private theorem vmFault_shared (h : WellFormed m n s) (hm : 2 ≤ m)
    (hregister : s.pageTableBaseRegister = some s.currentPid) {addr : ℕ} (strict : Prop)
    {keep : Prop} (hva : s.mapped s.currentPid (pageStart addr) =
      some id) (hkeep : keep → s.Kept id)
    (hshared : 1 < (s.pages id).blocks.length) :
    ∃ ok s', vmFault addr true s = some (ok, s') ∧ WellFormed m n s' ∧ Faulted strict keep s s' ∧
      (ok = true ↔ s.Readable id) ∧ (ok = true → s'.Accessible (pageStart addr) true) := by
  obtain ⟨ok, s₁, heq, hwf, hmoves, hiff, hbits₁⟩ := readable_spec h hm strict hva hkeep
  have hreloc := hmoves.relocation
  have htouch := State.touchVA_of_mapped hva
  have hunfold : vmFault addr true s = Option.bind
      (if (s.pages id).bits.1 = true then some (true, s) else vmFaultRead addr s) fun r =>
      if r.1 = true then (copyOnWrite (pageStart addr) id r.2).bind fun s => some (true, s)
      else some (false, r.2) := by
    rw [vmFault, show addr - addr % vmPagesize = pageStart addr from rfl, htouch]
    simp only [hva, hshared, and_self, if_true,
      State.frontReadable_eq h (h.toCore.affiliated_ne_nil hva), Option.bind_eq_bind,
      Option.bind_some]
  rw [hunfold]
  cases ok with
  | false =>
    exact ⟨false, s₁, bind_of_eq_some heq, hwf, ⟨s₁, htouch.symm ▸ hmoves, Or.inl rfl⟩,
      hiff, by simp⟩
  | true =>
    have hva₁ : s₁.mapped s₁.currentPid (pageStart addr) = some id := by
      rw [hreloc.mapped, hreloc.currentPid]
      exact hva
    obtain ⟨s', ptr, hcopy, hwf', hrel, -, hstart⟩ := copyOnWrite_spec hwf hm
      (by rw [hreloc.register, hreloc.currentPid]; exact hregister) hva₁
      (by rw [hreloc.blocks]; exact hshared) (hbits₁ rfl)
    obtain ⟨hnew, hbits⟩ := hrel.accessible
    refine ⟨true, s', (bind_of_eq_some heq).trans (bind_of_eq_some hcopy), hwf',
      ⟨s₁, htouch.symm ▸ hmoves, Or.inr ⟨ptr, id, hrel⟩⟩, hiff, fun _ => ⟨_, hstart ▸ hnew, ?_⟩⟩
    rw [hbits]
    exact ⟨rfl, fun _ => rfl⟩

private theorem vmFault_own (h : WellFormed m n s) (hm : 2 ≤ m) {addr : ℕ} {writeFlag : Bool}
    {strict keep : Prop} (hva : s.mapped s.currentPid (pageStart addr) = some id)
    (hown : ¬(writeFlag = true ∧ 1 < (s.pages id).blocks.length))
    (hok : s.FaultOk (pageStart addr) writeFlag)
    (hstrict : strict → s.Denied (pageStart addr) writeFlag) (hkeep : keep → s.Kept id) :
    ∃ ok s', vmFault addr writeFlag s = some (ok, s') ∧ WellFormed m n s' ∧
      Faulted strict keep s s' ∧
      (ok = true ↔ s.Readable id) ∧ (ok = true → s'.Accessible (pageStart addr) writeFlag) := by
  have hmapped := h.toCore.affiliated_ne_nil hva
  have htouch := State.touchVA_of_mapped hva
  have hunfold : vmFault addr writeFlag s = pageIn id writeFlag s := by
    rw [vmFault, show addr - addr % vmPagesize = pageStart addr from rfl, htouch]
    simp only [hva, if_neg hown]
  have hnull : strict → (∃ page ∈ (s.pages id).physicalPage, page.ppn = 0) → writeFlag = true := by
    -- pages on the physical page 0 can be read
    rintro hs ⟨page, hpage, hzero⟩
    by_contra hw
    have hbits := hstrict hs id hva
    rw [if_neg hw] at hbits
    have hclocked := (h.frames.null_page id page hpage hzero).2.2.1
    rw [h.not_clocked hbits hpage] at hclocked
    exact Bool.false_ne_true hclocked
  obtain ⟨ok, s', heq, hwf, hmoves, hiff, hpost⟩ :=
    pageIn_spec h hm hmapped writeFlag hnull hkeep (hok id hva)
  have hreloc := hmoves.relocation
  refine ⟨ok, s', hunfold.trans heq, hwf, ⟨s', htouch.symm ▸ hmoves, Or.inl rfl⟩, hiff,
    fun htrue => ?_⟩
  obtain ⟨page, hpage, -, hclocked, hdirty⟩ := hpost htrue
  have hres : (s'.pages id).resident = true := by rw [hwf.frames.resident, hpage]; rfl
  refine ⟨id, ?_, ?_⟩
  · rw [hreloc.mapped, hreloc.currentPid]
    exact hva
  · rw [VirtualPage.bits_eq hres hpage hclocked]
    refine ⟨rfl, fun hw => ?_⟩
    have hone : (s'.pages id).isSwap = false ∨ (s'.pages id).affiliated.length = 1 := by
      cases hswap : (s'.pages id).isSwap with
      | false => exact Or.inl rfl
      | true =>
        have hlen := hwf.mappings.swap id hswap
        rw [hreloc.blocks, hreloc.affiliated] at hlen
        have hpos := List.length_pos_of_ne_nil hmapped
        have hle : ¬1 < (s.pages id).blocks.length := fun hlt => hown ⟨hw, hlt⟩
        rw [hreloc.affiliated]
        exact Or.inr (by omega)
    rw [if_pos hone]
    exact hdirty hw

/-- The result of `vm_fault`: it succeeds if the address is mapped to a page whose contents can be
had, and then the access is allowed. -/
theorem vmFault_spec (h : WellFormed m n s) (hm : 2 ≤ m) (hrun : s.Running) (addr : ℕ)
    (writeFlag : Bool) {strict keep : Prop} (hok : s.FaultOk (pageStart addr) writeFlag)
    (hstrict : strict → s.Denied (pageStart addr) writeFlag)
    (hkeep : keep → ∀ id, s.mapped s.currentPid (pageStart addr) = some id → s.Kept id) :
    ∃ ok s', vmFault addr writeFlag s = some (ok, s') ∧ WellFormed m n s' ∧
      Faulted strict keep s s' ∧
      (ok = true ↔ ∃ id, s.mapped s.currentPid (pageStart addr) = some id ∧ s.Readable id) ∧
      (ok = true → s'.Accessible (pageStart addr) writeFlag) := by
  obtain ⟨hpid, hregister⟩ := hrun
  cases hva : s.mapped s.currentPid (pageStart addr) with
  | none =>
    have hwf := h.touchVA hpid
    have hva' : (s.touchVA s.currentPid).mapped (s.touchVA s.currentPid).currentPid
        (pageStart addr) =
        none := by
      obtain ⟨maps, heq⟩ := s.touchVA_eq s.currentPid
      rw [State.mapped_touchVA, heq]
      exact hva
    refine ⟨false, s.touchVA s.currentPid, ?_, hwf, ⟨_, Relation.ReflTransGen.refl, Or.inl rfl⟩,
      by simp, by simp⟩
    obtain ⟨maps, heq⟩ := s.touchVA_eq s.currentPid
    rw [vmFault, show addr - addr % vmPagesize = pageStart addr from rfl]
    rw [heq] at hva' hwf ⊢
    simp only [hva']
    exact bind_of_eq_some hwf.assertStructureConsistency
  | some id =>
    have hpost : (∃ id', some id = some id' ∧ s.Readable id') ↔ s.Readable id := by simp
    rw [hpost]
    by_cases hcow : writeFlag = true ∧ 1 < (s.pages id).blocks.length
    · obtain ⟨rfl, hshared⟩ := hcow
      exact vmFault_shared h hm hregister strict hva (fun hk => hkeep hk id hva) hshared
    · exact vmFault_own h hm hva hcow hok hstrict fun hk => hkeep hk id hva

end OsFromScratch.Pager
