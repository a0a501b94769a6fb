import OsFromScratch.Pager.Names

/-!
# Mapping an address

`vm_map` maps the lowest address of the arena that is not valid to a page of zeroes, to the page of
a block of a file that other addresses are mapped to already, or to a new page of a file.

## Main definitions

* `Inside` — the parts of the invariant that the loops over the mappings of a process preserve.
* `State.addZero`, `State.attach`, `State.addFile` — an address is mapped.
* `MapResult` — the results of `vm_map`.

## Main results

* `makeSwapToNullpage_spec`, `mapFile_spec` — an address is mapped.
* `vmMap_spec` — what `vm_map` does.
-/

namespace OsFromScratch.Pager

open Function

variable {m n : ℕ} {M : PtePtr → Option PageId} {L : Set Pid} {s s' : State} {id : PageId}
  {ptr : PtePtr}

/-! ### Pages for addresses -/

/-- The parts of the invariant that the loops over the mappings of a process preserve: the addresses
that are mapped are those of `M`, and the processes that can run are in `L`. -/
structure Inside (m n : ℕ) (M : PtePtr → Option PageId) (L : Set Pid) (s : State) : Prop where
  mappings : Mappings n M s
  frames : Frames m s
  ptes : Ptes ∅ L M s

theorem WellFormed.inside (h : WellFormed m n s) :
    Inside m n s.entryPage {pid | pid ∈ s.processTable} s :=
  ⟨h.mappings, h.frames, h.ptes⟩

/-- A new page is made for an address, and its page table entry is written. -/
theorem Inside.add (h : Inside m n M L s) (hptr : M ptr = none) {v : VirtualPage}
    (hsame : SameMemory s s') (htables : s'.pageTables = s.pageTables)
    (hpages : s'.pages = update s.pages s.nextPage v) (hnext : s'.nextPage = s.nextPage + 1)
    (haff : v.affiliated = [ptr]) {block : ℕ} (hblock : v.blocks = [block])
    (hfree : (v.swapBlocks ++ s'.nextFreeSwap).Perm s.nextFreeSwap)
    (hregistry : ∀ key x, s'.filenameBlockToVpage.lookup key = some x →
      s.filenameBlockToVpage.lookup key = some x ∨
        x = s.nextPage ∧ v.isSwap = false ∧ key = (v.filename, block))
    (hresident : v.resident = v.physicalPage.isSome)
    (hplace : ∀ page ∈ v.physicalPage, v.isSwap = true ∧ page = ⟨0, true, false⟩) :
    ∃ tables, updatePTEs s.nextPage s' = some (s'.withTables tables) ∧
      Inside m n (update M ptr (some s.nextPage)) L (s'.withTables tables) := by
  have hmappings := h.mappings.add hptr hpages hnext haff hblock hfree hregistry
  have hnew : s.pages s.nextPage = .new := h.mappings.fresh _ le_rfl
  have hframe : v.frame = [] := by
    rw [VirtualPage.frame_eq_nil_iff]
    intro page hpage
    rw [(hplace page hpage).2]
  have hframes : Frames m s' := by
    refine h.frames.page hsame hpages (by rw [hframe, hnew]; rfl) hresident
      (fun page hpage _ => ?_) fun hres hfile => ?_
    · obtain ⟨hswap, rfl⟩ := hplace page hpage
      exact ⟨hswap, by rw [hblock]; rfl, rfl, rfl⟩
    · rw [hresident, Option.isSome_iff_exists] at hres
      obtain ⟨page, hpage⟩ := hres
      rw [(hplace page hpage).1] at hfile
      simp at hfile
  have hself : s'.pages s.nextPage = v := by rw [hpages, update_self]
  have hptes : Ptes {s.nextPage} L (update M ptr (some s.nextPage)) s' := by
    refine ⟨fun x hx => ?_, fun ptr' hL hnone => ?_⟩
    · have hold := h.ptes.page x (Set.notMem_empty x)
      rw [State.UpToDate, hpages, update_of_ne hx]
      simp only [State.pte, htables]
      exact hold
    · rw [update_apply] at hnone
      split_ifs at hnone
      simp only [State.pte, htables]
      exact h.ptes.unmapped ptr' hL hnone
  obtain ⟨tables, hupdate, hptes'⟩ := hptes.updatePTEs s.nextPage
    (fun x ptr' hx => (hmappings.attached x ptr').mp hx)
    (hmappings.updatable hframes (by rw [hself, haff]; simp))
  exact ⟨tables, hupdate, hmappings.withTables tables, hframes.withTables tables,
    hptes'.mono (by simp)⟩

/-- An address is attached to a page, and the page table entries of the page are written. -/
theorem Inside.attach (h : Inside m n M L s) (hptr : M ptr = none) (hid : id < s.nextPage)
    {extra : List ℕ} (hsame : SameMemory s s') (htables : s'.pageTables = s.pageTables)
    (hpages : s'.pages = update s.pages id { s.pages id with
      affiliated := (s.pages id).affiliated ++ [ptr], blocks := (s.pages id).blocks ++ extra })
    (hnext : s'.nextPage = s.nextPage)
    (hextra : extra.length = if (s.pages id).isSwap then 1 else 0)
    (hfree : (extra ++ s'.nextFreeSwap).Perm s.nextFreeSwap)
    (hregistry : s'.filenameBlockToVpage = s.filenameBlockToVpage)
    (hplace : ∀ page ∈ (s.pages id).physicalPage, page.ppn ≠ 0) :
    ∃ tables, updatePTEs id s' = some (s'.withTables tables) ∧
      Inside m n (update M ptr (some id)) L (s'.withTables tables) := by
  have hmappings := h.mappings.attach hptr hid hpages hnext hextra hfree hregistry
  have hframes : Frames m s' := by
    refine h.frames.page hsame hpages rfl (h.frames.resident id)
      (fun page hpage hzero => absurd hzero (hplace page hpage)) fun hres hfile => ?_
    have hnil : extra = [] := by
      rw [show (s.pages id).isSwap = false from hfile] at hextra
      exact List.length_eq_zero_iff.mp hextra
    simp only [hnil, List.append_nil]
    exact h.frames.loaded id hres hfile
  have hself : (s'.pages id).affiliated = (s.pages id).affiliated ++ [ptr] := by
    rw [hpages, update_self]
  have hptes : Ptes {id} L (update M ptr (some id)) s' := by
    refine ⟨fun x hx => ?_, fun ptr' hL hnone => ?_⟩
    · have hold := h.ptes.page x (Set.notMem_empty x)
      rw [State.UpToDate, hpages, update_of_ne hx]
      simp only [State.pte, htables]
      exact hold
    · rw [update_apply] at hnone
      split_ifs at hnone
      simp only [State.pte, htables]
      exact h.ptes.unmapped ptr' hL hnone
  obtain ⟨tables, hupdate, hptes'⟩ := hptes.updatePTEs id
    (fun x ptr' hx => (hmappings.attached x ptr').mp hx)
    (hmappings.updatable hframes (by rw [hself]; simp))
  exact ⟨tables, hupdate, hmappings.withTables tables, hframes.withTables tables,
    hptes'.mono (by simp)⟩

/-- An address is mapped to a new page of zeroes. -/
def State.addZero (s : State) (ptr : PtePtr) (block : ℕ) (rest : List ℕ) : State :=
  { s.setVA ptr.pid (pageAddr ptr.index) s.nextPage with
    pages := update s.pages s.nextPage { VirtualPage.new with
      blocks := [block], resident := true, physicalPage := some ⟨0, true, false⟩
      isSwap := true, affiliated := [ptr] }
    nextPage := s.nextPage + 1
    nextFreeSwap := rest }

/-- An address is mapped to a page that exists. -/
def State.attach (s : State) (ptr : PtePtr) (id : PageId) (extra rest : List ℕ) : State :=
  { s.setVA ptr.pid (pageAddr ptr.index) id with
    pages := update s.pages id { s.pages id with
      affiliated := (s.pages id).affiliated ++ [ptr], blocks := (s.pages id).blocks ++ extra }
    nextFreeSwap := rest }

/-- An address is mapped to a new page of a file. -/
def State.addFile (s : State) (ptr : PtePtr) (filename : Bytes) (block : ℕ) : State :=
  { s.setVA ptr.pid (pageAddr ptr.index) s.nextPage with
    pages := update s.pages s.nextPage
      { VirtualPage.new with filename, blocks := [block], affiliated := [ptr] }
    nextPage := s.nextPage + 1
    filenameBlockToVpage := s.filenameBlockToVpage.insert (filename, block) s.nextPage }

theorem makeSwapToNullpage_spec (h : Inside m n M L s) (hptr : M ptr = none)
    (hpid : ptr.pid ∈ s.processTable) {block : ℕ} {rest : List ℕ}
    (hfree : s.nextFreeSwap = block :: rest) :
    ∃ tables, makeSwapToNullpage (pageAddr ptr.index) ptr.pid s =
        some (true, (s.addZero ptr block rest).withTables tables) ∧
      Inside m n (update M ptr (some s.nextPage)) L
        ((s.addZero ptr block rest).withTables tables) := by
  have hsame : SameMemory s (s.addZero ptr block rest) := ⟨rfl, rfl, rfl, rfl, rfl⟩
  obtain ⟨tables, hupdate, hinside⟩ := h.add hptr hsame rfl rfl rfl rfl rfl
    (by rw [hfree]; exact List.Perm.refl _) (fun _ _ hkey => Or.inl hkey) rfl
    (fun page hpage => ⟨rfl, (Option.some.inj hpage).symm⟩)
  refine ⟨tables, ?_, hinside⟩
  rw [makeSwapToNullpage, hfree]
  simp only [if_pos hpid, vaToPTE_pageAddr]
  exact bind_of_eq_some hupdate

/-- The address is mapped to the page of the block of the file: the one in the registry, or a new
one. -/
def State.mapFile (s : State) (ptr : PtePtr) (filename : Bytes) (block : ℕ) : State :=
  match s.filenameBlockToVpage.lookup (filename, block) with
  | some id => s.attach ptr id [] s.nextFreeSwap
  | none => s.addFile ptr filename block

/-- The page of an address that is mapped to a block of a file. -/
def State.filePage (s : State) (filename : Bytes) (block : ℕ) : PageId :=
  (s.filenameBlockToVpage.lookup (filename, block)).getD s.nextPage

theorem mapFile_spec (h : Inside m n M L s) (hptr : M ptr = none) (hpid : ptr.pid = s.currentPid)
    (hregister : s.pageTableBaseRegister = some ptr.pid) (filename : Bytes) (block : ℕ) :
    ∃ tables, mapFile (pageAddr ptr.index) filename block s =
        some ((s.mapFile ptr filename block).withTables tables) ∧
      Inside m n (update M ptr (some (s.filePage filename block))) L
        ((s.mapFile ptr filename block).withTables tables) := by
  rw [mapFile, State.mapFile, State.filePage]
  simp only [hregister, Option.bind_eq_bind, Option.bind_some, vaToPTE_pageAddr, ← hpid]
  cases hlookup : s.filenameBlockToVpage.lookup (filename, block) with
  | some id =>
    obtain ⟨hfile, -, -⟩ := h.mappings.registry filename block id hlookup
    have hsame : SameMemory s (s.attach ptr id [] s.nextFreeSwap) := ⟨rfl, rfl, rfl, rfl, rfl⟩
    obtain ⟨tables, hupdate, hinside⟩ := h.attach hptr (h.mappings.registered_lt hlookup) hsame rfl
      rfl rfl (by simp [hfile]) (List.Perm.refl _) rfl fun page hpage hzero => by
        rw [(h.frames.null_page id page hpage hzero).1] at hfile
        simp at hfile
    refine ⟨tables, ?_, hinside⟩
    refine Eq.trans ?_ hupdate
    simp [State.attach, State.setPage, State.setVA]
  | none =>
    have hsame : SameMemory s (s.addFile ptr filename block) := ⟨rfl, rfl, rfl, rfl, rfl⟩
    have hregistry (key : Bytes × ℕ) (x : PageId)
        (hkey : (s.addFile ptr filename block).filenameBlockToVpage.lookup key = some x) :
        s.filenameBlockToVpage.lookup key = some x ∨
          x = s.nextPage ∧ false = false ∧ key = (filename, block) := by
      simp only [State.addFile] at hkey
      by_cases heq : key = (filename, block)
      · subst heq
        rw [AList.lookup_insert, Option.some.injEq] at hkey
        exact Or.inr ⟨hkey.symm, rfl, rfl⟩
      · rw [AList.lookup_insert_ne heq] at hkey
        exact Or.inl hkey
    exact h.add hptr hsame rfl rfl rfl rfl rfl (List.Perm.refl _) hregistry rfl
      (by simp [VirtualPage.new])

/-! ### The spaces -/

/-- The next address of the current process becomes valid. -/
def State.advance (s : State) (i : ℕ) : State :=
  { s with nextFreeVA := update s.nextFreeVA s.currentPid (some (pageAddr (i + 1))) }

theorem Spaces.next_eq (h : Spaces s) {pid : Pid} {i : ℕ} (hpid : pid ∈ s.processTable)
    (hnext : s.nextFreeVA pid = some (pageAddr i)) :
    i ≤ 256 ∧ ∀ j, (s.entryPage ⟨pid, j⟩).isSome ↔ j < i := by
  obtain ⟨count, hcount, hnext', hvalid⟩ := h.next pid hpid
  rw [hnext, Option.some.injEq] at hnext'
  rw [pageAddr_injective hnext']
  exact ⟨hcount, hvalid⟩

/-- The process gets one more valid address. -/
theorem Spaces.extend (h : Spaces s) {pid : Pid} {i : ℕ} (hpid : pid ∈ s.processTable)
    (hnext : s.nextFreeVA pid = some (pageAddr i)) (hi : i < 256)
    (htable : s'.processTable = s.processTable)
    (hmaps : s'.translateVA = (s.setVA pid (pageAddr i) id).translateVA)
    (hnext' : s'.nextFreeVA = update s.nextFreeVA pid (some (pageAddr (i + 1)))) : Spaces s' := by
  have hmapped : s'.mapped = (s.setVA pid (pageAddr i) id).mapped := by
    funext pid' va
    rw [State.mapped, State.mapped, hmaps]
  have hentry : s'.entryPage = update s.entryPage ⟨pid, i⟩ (some id) := by
    rw [← State.entryPage_setVA]
    funext ptr
    rw [State.entryPage, State.entryPage, hmapped]
  refine ⟨fun pid' hpid' => ?_, fun pid' hpid' => ?_, fun pid' va x hva => ?_, fun pid' hpid' => ?_⟩
  · rw [htable]
    rw [hmaps] at hpid'
    rcases (AList.mem_insert _).mp hpid' with rfl | hold
    · exact hpid
    · exact h.live pid' hold
  · rw [htable] at hpid'
    have hne : pid' ≠ pid := fun heq => hpid' (heq ▸ hpid)
    rw [hnext', update_of_ne hne]
    exact h.unmanaged pid' hpid'
  · rw [hmapped, State.mapped_setVA] at hva
    split_ifs at hva with heq
    · exact ⟨i, heq.2⟩
    · exact h.aligned pid' va x hva
  · rw [htable] at hpid'
    simp only [hnext', hentry, update_apply]
    by_cases heq : pid' = pid
    · subst heq
      obtain ⟨-, hvalid⟩ := h.next_eq hpid' hnext
      refine ⟨i + 1, hi, by simp, fun j => ?_⟩
      by_cases hj : j = i
      · simp [hj]
      · simp only [PtePtr.mk.injEq, hj, and_false, if_false]
        rw [hvalid]
        omega
    · obtain ⟨count, hcount, hold, hvalid⟩ := h.next pid' hpid'
      refine ⟨count, hcount, by rw [if_neg heq, hold], fun j => ?_⟩
      rw [if_neg fun hp => heq (PtePtr.mk.inj hp).1]
      exact hvalid j

theorem Queued.mono (h : Queued s) (hqueue : s'.clockQueue = s.clockQueue)
    (haff : ∀ x ∈ s.clockQueue, (s.pages x).affiliated ≠ [] → (s'.pages x).affiliated ≠ [])
    (hregistry : ∀ key x, s.filenameBlockToVpage.lookup key = some x →
      s'.filenameBlockToVpage.lookup key = some x) : Queued s' := by
  intro x hx
  rw [hqueue] at hx
  exact (h x hx).imp (haff x hx) fun ⟨key, hkey⟩ => ⟨key, hregistry key x hkey⟩

theorem Queued.addZero (h : Queued s) (hframes : Frames m s) (hmappings : Mappings n M s)
    (block : ℕ) (rest : List ℕ) : Queued (s.addZero ptr block rest) := by
  refine h.mono rfl (fun x hx haff => ?_) fun _ _ hkey => hkey
  have hne : x ≠ s.nextPage := (hframes.not_fresh hmappings hx).ne
  rw [show (s.addZero ptr block rest).pages x = s.pages x from update_of_ne hne ..]
  exact haff

theorem Queued.attach (h : Queued s) (extra rest : List ℕ) :
    Queued (s.attach ptr id extra rest) := by
  refine h.mono rfl (fun x _ haff => ?_) fun _ _ hkey => hkey
  by_cases heq : x = id
  · subst heq
    simp [State.attach]
  · rw [show (s.attach ptr id extra rest).pages x = s.pages x from update_of_ne heq ..]
    exact haff

theorem Queued.mapFile (h : Queued s) (hframes : Frames m s) (hmappings : Mappings n M s)
    (filename : Bytes) (block : ℕ) : Queued (s.mapFile ptr filename block) := by
  rw [State.mapFile]
  cases hlookup : s.filenameBlockToVpage.lookup (filename, block) with
  | some id => exact h.attach [] s.nextFreeSwap
  | none =>
    refine h.mono rfl (fun x hx haff => ?_) fun key x hkey => ?_
    · have hne : x ≠ s.nextPage := (hframes.not_fresh hmappings hx).ne
      rw [show (s.addFile ptr filename block).pages x = s.pages x from update_of_ne hne ..]
      exact haff
    · have hne : key ≠ (filename, block) := by
        rintro rfl
        rw [hlookup] at hkey
        simp at hkey
      simp only [State.addFile]
      rw [AList.lookup_insert_ne hne, hkey]

theorem State.mapFile_maps (s : State) (ptr : PtePtr) (filename : Bytes) (block : ℕ) :
    (s.mapFile ptr filename block).translateVA =
        (s.setVA ptr.pid (pageAddr ptr.index) (s.filePage filename block)).translateVA ∧
      (s.mapFile ptr filename block).entryPage =
        update s.entryPage ptr (some (s.filePage filename block)) ∧
      (s.mapFile ptr filename block).processTable = s.processTable ∧
      (s.mapFile ptr filename block).nextFreeVA = s.nextFreeVA ∧
      (s.mapFile ptr filename block).currentPid = s.currentPid := by
  rw [State.mapFile, State.filePage]
  cases s.filenameBlockToVpage.lookup (filename, block) with
  | some id => exact ⟨rfl, s.entryPage_setVA ptr.pid ptr.index id, rfl, rfl, rfl⟩
  | none => exact ⟨rfl, s.entryPage_setVA ptr.pid ptr.index s.nextPage, rfl, rfl, rfl⟩

/-! ### The results of `vm_map` -/

/-- The results of `vm_map` and the states that it leaves. -/
inductive MapResult (strict keep : Prop) (m n : ℕ) (s : State) (theirFilename block : ℕ) :
    Option ℕ → State → Prop
  | full (hnext : s.nextFreeVA s.currentPid = some (pageAddr 256)) :
    MapResult strict keep m n s theirFilename block none s
  | noBlock {i : ℕ} (hname : theirFilename = 0)
    (hnext : s.nextFreeVA s.currentPid = some (pageAddr i)) (hi : i < 256)
    (hfree : s.nextFreeSwap = []) : MapResult strict keep m n s theirFilename block none s
  | zero {i b : ℕ} {rest : List ℕ} (tables : Pid → ℕ → PageTableEntry) (hname : theirFilename = 0)
    (hnext : s.nextFreeVA s.currentPid = some (pageAddr i)) (hi : i < 256)
    (hfree : s.nextFreeSwap = b :: rest) : MapResult strict keep m n s theirFilename block
      (some (pageAddr i)) (((s.addZero ⟨s.currentPid, i⟩ b rest).advance i).withTables tables)
  | file {i : ℕ} {s₁ s' : State} {result : Option ℕ} (name : Option Bytes)
    (hname : theirFilename ≠ 0) (hnext : s.nextFreeVA s.currentPid = some (pageAddr i))
    (hi : i < 256) (hmoves : Moves strict keep (s.touchVA s.currentPid) s₁)
    (hread : ∀ bytes, (∀ t, Moves strict keep (s.touchVA s.currentPid) t → WellFormed m n t →
      t.Shows bytes) → name = readString bytes (vmArenaMaxaddr - theirFilename) theirFilename [])
    (hnone : name = none → result = none ∧ s' = s₁)
    (hsome : ∀ filename, name = some filename → result = some (pageAddr i) ∧ ∃ tables,
      s' = ((s₁.mapFile ⟨s.currentPid, i⟩ filename block).advance i).withTables tables) :
    MapResult strict keep m n s theirFilename block result s'

theorem Ptes.congr (h : Ptes ∅ L M s) (hM : s'.entryPage =
    M) (hL : {pid | pid ∈ s'.processTable} = L)
    (hpages : s'.pages = s.pages) (htables : s'.pageTables = s.pageTables) :
      TablesUpToDate ∅ s' := by
  rw [TablesUpToDate, hM, hL]
  refine ⟨fun x hx => ?_, fun ptr hptr hnone => ?_⟩
  · have hold := h.page x hx
    rw [State.UpToDate, hpages]
    simp only [State.pte, htables]
    exact hold
  · simp only [State.pte, htables]
    exact h.unmapped ptr hptr hnone

theorem vmMap_spec (h : WellFormed m n s) (hm : 2 ≤ m) (hrun : s.Running) (theirFilename block : ℕ)
    (strict : Prop) {keep : Prop}
    (hkeep : keep → theirFilename ≠ 0 → ∃ bytes,
      (∀ t, Moves strict keep (s.touchVA s.currentPid) t →
      WellFormed m n t → t.Shows bytes) ∧ (s.touchVA s.currentPid).NameKept bytes theirFilename) :
    ∃ result s', vmMap theirFilename block s = some (result, s') ∧ WellFormed m n s' ∧
      MapResult strict keep m n s theirFilename block result s' := by
  obtain ⟨i, hle, hnext, hvalid⟩ := h.spaces.next s.currentPid hrun.1
  have htouch : s.touchNextVA s.currentPid = s := by
    rw [State.touchNextVA, if_neg (by rw [hnext]; simp)]
  rw [vmMap, htouch]
  simp only [hnext, Option.bind_eq_bind, Option.bind_some]
  by_cases hfull : vmArenaMaxaddr ≤ pageAddr i
  · rw [if_pos hfull]
    have hi : i = 256 := by
      simp only [pageAddr, vmArenaMaxaddr, vmArenaBaseaddr, vmArenaSize, vmPagesize] at hfull
      omega
    exact ⟨none, s, bind_of_eq_some h.assertStructureConsistency, h, .full (hi ▸ hnext)⟩
  rw [if_neg hfull]
  have hi : i < 256 := by
    simp only [pageAddr, vmArenaMaxaddr, vmArenaBaseaddr, vmArenaSize, vmPagesize] at hfull
    omega
  have hadvance : pageAddr i + vmPagesize = pageAddr (i + 1) := by
    simp only [pageAddr, vmPagesize]
    omega
  have hunmapped : s.entryPage ⟨s.currentPid, i⟩ = none := by
    rw [← Option.not_isSome_iff_eq_none, hvalid]
    exact lt_irrefl i
  by_cases hname : theirFilename = 0
  · have haddress : mapAddress (pageAddr i) theirFilename block s =
        makeSwapToNullpage (pageAddr i) s.currentPid s := by
      rw [mapAddress, if_neg (not_not.mpr hname)]
    cases hfree : s.nextFreeSwap with
    | nil =>
      have hmake : makeSwapToNullpage (pageAddr i) s.currentPid s = some (false, s) := by
        rw [makeSwapToNullpage, hfree]
        exact bind_of_eq_some h.assertStructureConsistency
      exact ⟨none, s, bind_of_eq_some (haddress.trans hmake), h, .noBlock hname hnext hi hfree⟩
    | cons b rest =>
      obtain ⟨tables, hmake, hinside⟩ := makeSwapToNullpage_spec h.inside hunmapped hrun.1 hfree
      have hentry : (s.addZero ⟨s.currentPid, i⟩ b rest).entryPage =
          update s.entryPage ⟨s.currentPid, i⟩ (some s.nextPage) :=
        s.entryPage_setVA s.currentPid i s.nextPage
      have hwf : WellFormed m n
          (((s.addZero ⟨s.currentPid, i⟩ b rest).advance i).withTables tables) := by
        refine ⟨⟨?_, { hinside.frames with }, ?_, ?_⟩, ?_⟩
        · rw [show (((s.addZero ⟨s.currentPid, i⟩ b rest).advance i).withTables tables).entryPage =
            _ from hentry]
          exact { hinside.mappings with }
        · exact h.spaces.extend hrun.1 hnext hi rfl rfl rfl
        · exact h.queued.addZero h.frames h.mappings b rest
        · exact hinside.ptes.congr hentry rfl rfl rfl
      refine ⟨some (pageAddr i), _, ?_, hwf, .zero tables hname hnext hi hfree⟩
      refine (bind_of_eq_some (haddress.trans hmake)).trans ?_
      rw [if_pos rfl, hadvance]
      exact bind_of_eq_some hwf.assertStructureConsistency
  · obtain ⟨name, s₁, htranslate, hwf₁, hmoves, hread⟩ := translateFromOtherAddrSpace_spec h hm hrun
      theirFilename strict fun hk => hkeep hk hname
    have hreloc := hmoves.relocation
    have hpid₁ : s₁.currentPid = s.currentPid :=
      hreloc.currentPid.trans (s.currentPid_touchVA s.currentPid)
    have hrun₁ := hmoves.running hrun.touchVA
    have hentry₁ : s₁.entryPage = s.entryPage :=
      hreloc.entryPage.trans (s.entryPage_touchVA s.currentPid)
    have hnext₁ : s₁.nextFreeVA s₁.currentPid = some (pageAddr i) := by
      rw [hreloc.nextFreeVA, hpid₁]
      obtain ⟨maps, heq⟩ := s.touchVA_eq s.currentPid
      rw [heq]
      exact hnext
    cases name with
    | none =>
      refine ⟨none, s₁, ?_, hwf₁, .file none hname hnext hi hmoves hread (fun _ =>
        ⟨rfl, rfl⟩) (by simp)⟩
      have haddress : mapAddress (pageAddr i) theirFilename block s = some (false, s₁) := by
        rw [mapAddress, if_pos hname]
        exact bind_of_eq_some htranslate
      exact bind_of_eq_some haddress
    | some filename =>
      obtain ⟨tables, hmap, hinside⟩ := mapFile_spec hwf₁.inside (hentry₁ ▸ hunmapped)
        hpid₁.symm (by rw [hrun₁.2, hpid₁]) filename block
      obtain ⟨hmaps, hentry, htable, hnexts, hpid⟩ :=
          s₁.mapFile_maps ⟨s.currentPid, i⟩ filename block
      have hpid' : (s₁.mapFile ⟨s.currentPid, i⟩ filename block).currentPid = s.currentPid :=
        hpid.trans hpid₁
      have hwf : WellFormed m n
          (((s₁.mapFile ⟨s.currentPid, i⟩ filename block).advance i).withTables tables) := by
        refine ⟨⟨?_, { hinside.frames with }, ?_, ?_⟩, ?_⟩
        · rw [show (((s₁.mapFile ⟨s.currentPid, i⟩ filename block).advance i).withTables
            tables).entryPage = _ from hentry]
          exact { hinside.mappings with }
        · have hlive : s.currentPid ∈ s₁.processTable := by
            rw [← hpid₁]
            exact hrun₁.1
          refine hwf₁.spaces.extend hlive (by rw [← hpid₁]; exact hnext₁) hi htable hmaps ?_
          rw [← hnexts]
          exact congrArg (fun pid => update _ pid (some (pageAddr (i + 1)))) hpid'
        · exact hwf₁.queued.mapFile hwf₁.frames hwf₁.mappings filename block
        · exact hinside.ptes.congr hentry (by
            rw [show (((s₁.mapFile ⟨s.currentPid, i⟩ filename block).advance i).withTables
              tables).processTable = s₁.processTable from htable]) rfl rfl
      refine ⟨some (pageAddr i), _, ?_, hwf, .file (some filename) hname hnext hi hmoves
        hread (by simp)
        fun filename' heq => ⟨rfl, tables, by rw [Option.some.inj heq]⟩⟩
      have haddress : mapAddress (pageAddr i) theirFilename block s =
          some (true, (s₁.mapFile ⟨s.currentPid, i⟩ filename block).withTables tables) := by
        rw [mapAddress, if_pos hname]
        exact (bind_of_eq_some htranslate).trans (bind_of_eq_some hmap)
      refine (bind_of_eq_some haddress).trans ?_
      rw [if_pos rfl, hadvance]
      exact bind_of_eq_some hwf.assertStructureConsistency

end OsFromScratch.Pager
