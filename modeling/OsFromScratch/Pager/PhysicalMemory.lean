import OsFromScratch.Pager.SwapSpace

/-!
# Physical pages

A physical page other than 0 is free, or one page is in it, which is in the queue of the clock
algorithm. The physical page 0 holds zeroes, and pages that have never been written. This needs that
the 20 bits for a physical page in a page table entry are enough: with more physical pages, a
process comes to write the physical page 0.

## Main definitions

* `VirtualPage.OnZero` — the page is on the physical page 0.
* `Older` — no page comes to the physical page 0 after it has been made.
* `Written` — the page has been written in the run.
* `State.FramesOwned` — the physical pages have one owner each.

## Main results

* `pagerRun_frames_owned` — the physical pages have one owner each in every run.
* `pagerRun_null_page_written` — the physical page 0 is written if there are too many physical
  pages.
-/

namespace OsFromScratch.Pager

open Function

variable {m n : ℕ} {s s' s'' : State} {id : PageId} {ptr : PtePtr} {strict keep : Prop}

/-! ### Pages on the physical page 0 -/

/-- The page is on the physical page 0. -/
def VirtualPage.OnZero (v : VirtualPage) : Prop :=
  ∃ page ∈ v.physicalPage, page.ppn = 0

/-- Pages are made, and none that has been made before comes to the physical page 0. -/
structure Older (s s' : State) : Prop where
  nextPage : s.nextPage ≤ s'.nextPage
  page : ∀ id < s.nextPage, (s'.pages id).OnZero → (s.pages id).OnZero

namespace Older

theorem refl (s : State) : Older s s :=
  ⟨le_rfl, fun _ _ h => h⟩

theorem trans (h : Older s s') (h' : Older s' s'') : Older s s'' where
  nextPage := h.nextPage.trans h'.nextPage
  page id hid hzero := h.page id hid (h'.page id (hid.trans_le h.nextPage) hzero)

theorem congr (hpages : s'.pages = s.pages) (hnext : s'.nextPage = s.nextPage) : Older s s' :=
  ⟨hnext.ge, fun _ _ h => hpages ▸ h⟩

/-- One page changes, or is made. -/
theorem update {v : VirtualPage} (hpages : s'.pages = Function.update s.pages id v)
    (hnext : s.nextPage ≤ s'.nextPage)
    (hv : id < s.nextPage → v.OnZero → (s.pages id).OnZero) : Older s s' := by
  refine ⟨hnext, fun x hx hzero => ?_⟩
  rw [hpages] at hzero
  by_cases heq : x = id
  · rw [heq, update_self] at hzero
    rw [heq] at hx ⊢
    exact hv hx hzero
  · rwa [update_of_ne heq] at hzero

theorem touchVA (s : State) (pid : Pid) : Older s (s.touchVA pid) := by
  obtain ⟨maps, heq⟩ := s.touchVA_eq pid
  rw [heq]
  exact congr rfl rfl

/-- A page that gets a free physical page is not on the physical page 0. -/
theorem allocate (hframes : Frames m s) (page : PhysicalPage) {rest : List ℕ}
    (hfree : s.nextFreePPN = page.ppn :: rest) (contents : Contents)
    (tables : Pid → ℕ → PageTableEntry) :
    Older s ((s.allocate id page contents).withTables tables) := by
  refine update rfl le_rfl fun _ hzero => ?_
  obtain ⟨page', hpage', hppn⟩ := hzero
  have hpos : page.ppn ≠ 0 := hframes.pos_of_mem_free (by rw [hfree]; exact List.mem_cons_self)
  rw [← Option.some.inj hpage'] at hppn
  exact absurd hppn hpos

end Older

theorem Move.older (h : Move strict keep s s') (hframes : Frames m s) : Older s s' := by
  cases h with
  | turnClock tables =>
    refine ⟨le_rfl, fun x _ hzero => ?_⟩
    rcases s.turnClock_page x with heq | ⟨-, heq⟩
    · exact heq ▸ hzero
    · obtain ⟨page, hpage, hppn⟩ := hzero
      rw [show (s.turnClock.withTables tables).pages x = (s.pages x).unclock from heq] at hpage
      obtain ⟨old, hold, rfl⟩ := Option.map_eq_some_iff.mp hpage
      exact ⟨old, hold, hppn⟩
  | evict tables =>
    refine Older.update rfl le_rfl fun _ hzero => ?_
    obtain ⟨page, hpage, -⟩ := hzero
    exact absurd hpage (Option.not_mem_none page)
  | @fetch tables x ppn rest hfree =>
    exact Older.allocate hframes ⟨ppn, true, false⟩ hfree _ tables
  | @unzero tables x ppn rest page writeFlag hfree =>
    exact Older.allocate hframes ⟨ppn, true, writeFlag⟩ hfree _ tables
  | @touch tables x page writeFlag _ hpage hppn =>
    refine Older.update rfl le_rfl fun _ hzero => ⟨page, hpage, ?_⟩
    obtain ⟨page', hpage', hppn'⟩ := hzero
    rw [← Option.some.inj hpage'] at hppn'
    exact hppn'
  | failRead => exact Older.congr rfl rfl

theorem Moves.older (h : Moves strict keep s s') (hs : Core m n s) : Older s s' := by
  induction h with
  | refl => exact Older.refl s
  | tail hmoves hmove ih => exact ih.trans (hmove.older (Moves.core hmoves hs).frames)

theorem Copy.older (h : Copy s s' ptr id) (hs : Core m n s) : Older s s' := by
  obtain ⟨block, t, ppn, rest, tables, hblock, hreclaim, hfree, rfl⟩ := h.result
  have hsplit := hs.split h.mapped h.swap hblock h.shared
  have hmoves := hreclaim.moves False False
  have hshared : Older s (s.setPage id { s.pages id with
      affiliated := (s.pages id).affiliated.erase ptr
      blocks := (s.pages id).blocks.dropLast }) :=
    Older.update rfl le_rfl fun _ hzero => hzero
  have hnew : Older (s.setPage id { s.pages id with
      affiliated := (s.pages id).affiliated.erase ptr
      blocks := (s.pages id).blocks.dropLast }) (s.split ptr id block) :=
    Older.update rfl (Nat.le_succ _) fun hlt => absurd hlt (lt_irrefl s.nextPage)
  refine (hshared.trans hnew).trans ((hmoves.older hsplit).trans ?_)
  exact Older.allocate (hmoves.core hsplit).frames ⟨ppn, true, true⟩ hfree _ tables

theorem Faulted.older (h : Faulted strict keep s s') (hs : WellFormed m n s) (hrun : s.Running) :
    Older s s' := by
  obtain ⟨s₁, hmoves, hcopy⟩ := h
  have hcore := (hs.touchVA hrun.1).toCore
  have hfirst := (Older.touchVA s s.currentPid).trans (hmoves.older hcore)
  rcases hcopy with rfl | ⟨ptr, id, hcopy⟩
  · exact hfirst
  · exact hfirst.trans (hcopy.older (hmoves.core hcore))

theorem Older.addZero (s : State) (ptr : PtePtr) (block : ℕ) (rest : List ℕ)
    (tables : Pid → ℕ → PageTableEntry) : Older s ((s.addZero ptr block rest).withTables tables) :=
  Older.update rfl (Nat.le_succ _) fun hlt => absurd hlt (lt_irrefl s.nextPage)

theorem Older.attach (s : State) (ptr : PtePtr) (id : PageId) (extra rest : List ℕ)
    (tables : Pid → ℕ → PageTableEntry) :
    Older s ((s.attach ptr id extra rest).withTables tables) :=
  Older.update rfl le_rfl fun _ hzero => hzero

theorem Older.mapFile (s : State) (ptr : PtePtr) (filename : Bytes) (block : ℕ) :
    Older s (s.mapFile ptr filename block) := by
  rw [State.mapFile]
  cases s.filenameBlockToVpage.lookup (filename, block) with
  | some id => exact Older.attach s ptr id [] s.nextFreeSwap s.pageTables
  | none => exact Older.update rfl (Nat.le_succ _) fun hlt => absurd hlt (lt_irrefl s.nextPage)

theorem MapResult.older {theirFilename block : ℕ} {result : Option ℕ}
    (h : MapResult strict keep m n s theirFilename block result s') (hs : WellFormed m n s)
    (hrun : s.Running) : Older s s' := by
  cases h with
  | full => exact Older.refl s
  | noBlock => exact Older.refl s
  | @zero i b rest tables =>
    exact (Older.addZero s ⟨s.currentPid, i⟩ b rest tables).trans (Older.congr rfl rfl)
  | @file i s₁ _ _ name _ _ _ hmoves _ hnone hsome =>
    have hfirst := (Older.touchVA s s.currentPid).trans (hmoves.older (hs.touchVA hrun.1).toCore)
    cases name with
    | none =>
      rw [(hnone rfl).2]
      exact hfirst
    | some filename =>
      obtain ⟨-, tables, rfl⟩ := hsome filename rfl
      exact (hfirst.trans (Older.mapFile s₁ ⟨s.currentPid, i⟩ filename block)).trans
        (Older.congr rfl rfl)

theorem Inherit.older {child : Pid} {order : List (ℕ × PageId)} (h : Inherit child order s s') :
    Older s s' := by
  induction h with
  | nil s => exact Older.refl s
  | @zero s _ i _ _ _ block free tables _ _ _ _ ih =>
    exact (Older.addZero s ⟨child, i⟩ block free tables).trans ih
  | @share s _ i id _ extra free tables _ _ _ _ ih =>
    exact (Older.attach s ⟨child, i⟩ id extra free tables).trans ih

theorem Created.older {parent child : Pid} {order : List (ℕ × PageId)}
    (h : Created parent child order s s') : Older s s' := by
  obtain ⟨count, t, -, hinherit, rfl⟩ := h
  have hfirst : Older s (s.enroll child count) := Older.congr rfl rfl
  split_ifs
  · exact hfirst.trans hinherit.older
  · exact (hfirst.trans hinherit.older).trans (Older.congr rfl rfl)

theorem Drop.older {pid : Pid} {order : List (ℕ × PageId)} (h : Drop pid order s s') :
    Older s s' := by
  induction h with
  | nil s => exact Older.refl s
  | @cons s s' i id rest tables _ ih =>
    have hdetach : Older s ((s.detach ⟨pid, i⟩ id).withTables tables) := by
      refine Older.update rfl le_rfl fun _ hzero => ?_
      obtain ⟨page, hpage, hppn⟩ := hzero
      split_ifs at hpage with hreleased
      · exact absurd hpage (Option.not_mem_none page)
      · exact ⟨page, hpage, hppn⟩
    exact hdetach.trans ih

theorem Effect.older {call : Call} {result : Result} (h : Effect strict keep m n s call result s')
    (hs : WellFormed m n s) (hcall : call.Promised s) : Older s s' := by
  cases h with
  | refuse tables => exact Older.congr rfl rfl
  | create _ hcreated => exact hcreated.older
  | switch pid => exact Older.congr rfl rfl
  | map hmap => exact hmap.older hs hcall
  | destroy hdrop =>
    exact ((Older.touchVA s s.currentPid).trans hdrop.older).trans (Older.congr rfl rfl)
  | fault hfaulted => exact hfaulted.older hs hcall
  | load haccess => exact haccess.faulted.older hs hcall.1
  | denied haccess => exact haccess.faulted.older hs hcall.1
  | store haccess => exact (haccess.faulted.older hs hcall.1).trans (Older.congr rfl rfl)
  | setAccessible accessible => exact Older.congr rfl rfl

/-! ### Pages that have been written -/

/-- A process has stored a byte into the page in the run. -/
inductive Written (Allowed : List Call → State → Call → Prop) (init : State) (id : PageId) :
    List Call → List Result → State → Prop
  | store {calls : List Call} {results : List Result} {s s' : State} {addr : ℕ} {byte : UInt8}
    (hrun : PagerRun Allowed init calls results s) (hcall : Allowed calls s (.store addr byte))
    (hexec : exec (.store addr byte) s = some (.status true, s'))
    (hmapped : s'.mapped s'.currentPid (pageStart addr) = some id) :
    Written Allowed init id (calls ++ [.store addr byte]) (results ++ [.status true]) s'
  | later {calls : List Call} {results : List Result} {s s' : State} {call : Call} {result : Result}
    (hwritten : Written Allowed init id calls results s) (hcall : Allowed calls s call)
    (hexec : exec call s = some (result, s')) :
    Written Allowed init id (calls ++ [call]) (results ++ [result]) s'

/-- A page that has been written is not on the physical page 0. -/
theorem Written.not_onZero {init : State} {calls : List Call} {results : List Result}
    (h : Written Promise init id calls results s) (hm : 2 ≤ m) (hinit : WellFormed m n init) :
    WellFormed m n s ∧ id < s.nextPage ∧ ¬(s.pages id).OnZero := by
  induction h with
  | @store calls results s s' addr byte hrun hcall hexec hmapped =>
    have hs := PagerRun.wellFormed hm (fun _ _ _ h => h) hrun hinit
    obtain ⟨hs', heffect⟩ := Effect.of_exec hs hm hcall (fun h : False => h.elim)
      (fun h : False => h.elim) hexec
    refine ⟨hs', ?_, ?_⟩
    · obtain ⟨i, -, hentry, -⟩ := hs'.spaces.mem_entry hmapped
      exact hs'.mappings.not_fresh hentry
    · cases heffect with
      | @store _ ppn _ t haccess ht =>
        obtain ⟨x, page, hpage, hva, -, hwrite⟩ := haccess.page ppn rfl
        have hid : x = id := Option.some.inj (hva.symm.trans hmapped)
        subst hid
        obtain ⟨⟨hpos, -⟩, -⟩ := ht.ppn_of_writable hpage (hwrite rfl)
        rintro ⟨page', hpage', hzero⟩
        rw [Option.mem_unique hpage hpage'] at hpos
        exact absurd hzero (Nat.one_le_iff_ne_zero.mp hpos)
  | @later calls results s s' call result _ hcall hexec ih =>
    obtain ⟨hs, hlt, hnot⟩ := ih
    obtain ⟨hs', heffect⟩ := Effect.of_exec hs hm hcall (fun h : False => h.elim)
      (fun h : False => h.elim) hexec
    have holder := heffect.older hs hcall
    exact ⟨hs', hlt.trans_le holder.nextPage, fun hzero => hnot (holder.page id hlt hzero)⟩

/-! ### Owners -/

/-- The page exists, and is in the physical page `ppn`. -/
def State.Holds (s : State) (id : PageId) (ppn : ℕ) : Prop :=
  s.Exists id ∧ (s.pages id).resident = true ∧ ∃ page ∈ (s.pages id).physicalPage, page.ppn = ppn

/-- The physical pages have one owner each, and the physical page 0 is zero. The pages of which
`Stored` holds have been written. -/
structure State.FramesOwned (m : ℕ) (Stored : PageId → Prop) (s : State) : Prop where
  /-- A physical page is free, or one page is in it, which is once in the queue. -/
  owner : ∀ ppn, 1 ≤ ppn → ppn < m →
    s.nextFreePPN.count ppn = 1 ∧ (∀ id, ¬s.Holds id ppn) ∨
      s.nextFreePPN.count ppn = 0 ∧
        ∃ id, (∀ id', s.Holds id' ppn ↔ id' = id) ∧ s.clockQueue.count id = 1
  /-- No two pages share a physical page. -/
  unshared : ∀ id id' ppn, ppn ≠ 0 → s.Holds id ppn → s.Holds id' ppn → id = id'
  /-- A page table entry for the physical page 0 does not allow writing, and is the only one of a
  swap backed page that has never been written. -/
  null_entry : ∀ ptr, ptr.pid ∈ s.processTable → (s.pte ptr).ppage = 0 →
    (s.pte ptr).readEnable = true → (s.pte ptr).writeEnable = false ∧
      ∃ id, (∀ ptr', s.entryPage ptr' = some id ↔ ptr' = ptr) ∧ (s.pages id).isSwap = true ∧
        ¬Stored id
  /-- The physical page 0 is zero. -/
  zero : s.physmem 0 = fun _ => 0

theorem WellFormed.holds_iff (h : WellFormed m n s) {ppn : ℕ} (hppn : ppn ≠ 0) :
    s.Holds id ppn ↔ ppn ∈ s.frameOwner (some id) := by
  rw [State.frameOwner, VirtualPage.mem_frame]
  constructor
  · rintro ⟨-, -, hpage⟩
    exact ⟨hppn, hpage⟩
  · rintro ⟨-, page, hpage, rfl⟩
    have hframe : (s.pages id).frame ≠ [] := by
      rw [VirtualPage.frame_eq_of_some hpage hppn]
      simp
    refine ⟨?_, ?_, page, hpage, rfl⟩
    · have hqueued := h.queued id ((h.frames.mem_queue id).mpr hframe)
      refine State.exists_iff.mpr (hqueued.imp_left fun haff => ?_)
      obtain ⟨ptr, hptr⟩ := List.exists_mem_of_ne_nil _ haff
      exact ⟨ptr.pid, _, (h.mappings.attached id ptr).mp hptr⟩
    · rw [h.frames.resident, show (s.pages id).physicalPage = some page from hpage]
      rfl

/-- A page table entry that allows reading and names the physical page 0 is the one of a page on
it. -/
theorem WellFormed.null_entry (h : WellFormed m n s) (hm : m ≤ 2 ^ 20)
    (hlive : ptr.pid ∈ s.processTable) (hzero : (s.pte ptr).ppage = 0)
    (hread : (s.pte ptr).readEnable = true) : (s.pte ptr).writeEnable = false ∧
      ∃ id, (∀ ptr', s.entryPage ptr' = some id ↔ ptr' = ptr) ∧ (s.pages id).isSwap = true ∧
        (s.pages id).OnZero := by
  cases hentry : s.entryPage ptr with
  | none =>
    rw [(h.ptes.unmapped ptr hlive hentry).1] at hread
    exact absurd hread Bool.false_ne_true
  | some id =>
    have hptr := (h.mappings.attached id ptr).mpr hentry
    obtain ⟨hr, hw, hppage⟩ := h.ptes.page id (Set.notMem_empty id) ptr hptr
    rw [hr] at hread
    obtain ⟨page, hpage, hclocked⟩ := VirtualPage.page_of_bits hread
    have hres : (s.pages id).resident = true := by rw [h.frames.resident, hpage]; rfl
    have hppn : page.ppn = 0 := by
      by_contra hne
      have hlt := (h.frames.frames.mem (p := some id)
        (VirtualPage.mem_frame.mpr ⟨hne, page, hpage, rfl⟩)).2
      have hmod := congrArg BitVec.toNat ((hppage page hpage hres).symm.trans hzero)
      rw [BitVec.toNat_ofNat, Nat.mod_eq_of_lt (hlt.trans_le hm)] at hmod
      exact hne hmod
    obtain ⟨hswap, hblocks, -, hclean⟩ := h.frames.null_page id page hpage hppn
    refine ⟨?_, id, fun ptr' => ?_, hswap, page, hpage, hppn⟩
    · rw [hw, VirtualPage.bits_eq hres hpage hclocked, hclean, ite_self]
    · rw [h.mappings.swap id hswap] at hblocks
      obtain ⟨x, hx⟩ := List.length_eq_one_iff.mp
        (le_antisymm hblocks (List.length_pos_of_mem hptr))
      rw [hx, List.mem_singleton] at hptr
      rw [← h.mappings.attached, hx, List.mem_singleton, hptr]

theorem WellFormed.framesOwned (h : WellFormed m n s) (hm : m ≤ 2 ^ 20) {Stored : PageId → Prop}
    (hstored : ∀ id, Stored id → ¬(s.pages id).OnZero) : s.FramesOwned m Stored := by
  have hdivided := h.frames.frames
  refine ⟨fun ppn hpos hlt => ?_, fun id id' ppn hppn hid hid' => ?_,
    fun ptr hlive hzero hread => ?_, h.frames.zero hm⟩
  · have hne : ppn ≠ 0 := Nat.one_le_iff_ne_zero.mp hpos
    obtain ⟨owner, howner⟩ := (hdivided.mem_iff ppn).mp ⟨hpos, hlt⟩
    cases owner with
    | none =>
      refine Or.inl ⟨List.count_eq_one_of_mem (hdivided.nodup none) howner, fun id hid => ?_⟩
      have heq := hdivided.disjoint none (some id) ppn howner ((h.holds_iff hne).mp hid)
      simp at heq
    | some id =>
      refine Or.inr ⟨List.count_eq_zero.mpr fun hfree => ?_, id, fun id' => ?_, ?_⟩
      · have heq := hdivided.disjoint none (some id) ppn hfree howner
        simp at heq
      · rw [h.holds_iff hne]
        constructor
        · exact fun hid' => Option.some.inj (hdivided.disjoint (some id') (some id) ppn hid' howner)
        · rintro rfl
          exact howner
      · refine List.count_eq_one_of_mem h.frames.queue_nodup ((h.frames.mem_queue id).mpr ?_)
        exact List.ne_nil_of_mem howner
  · exact Option.some.inj (hdivided.disjoint (some id) (some id') ppn ((h.holds_iff hppn).mp hid)
      ((h.holds_iff hppn).mp hid'))
  · obtain ⟨hwrite, id, hown, hswap, honzero⟩ := h.null_entry hm hlive hzero hread
    exact ⟨hwrite, id, hown, hswap, fun hid => hstored id hid honzero⟩

/-- In every run of the pager, the physical pages have one owner each, and the physical page 0 is
zero, if the page table entries can name all physical pages. -/
theorem pagerRun_frames_owned (hm : 2 ≤ m) (hcap : m ≤ 2 ^ 20) (n : ℕ)
    (physmem swapFile : ℕ → Contents) (files : Bytes → ℕ → Contents)
    (accessible : Bytes → ℕ → Bool) (garbage : ℕ → Contents)
    {calls : List Call} {results : List Result}
    (hrun : PagerRun Promise (vmInit m n physmem swapFile files accessible garbage)
      calls results s) :
    s.FramesOwned m fun id => Written Promise
      (vmInit m n physmem swapFile files accessible garbage) id calls results s := by
  have hinit := vmInit_wellFormed hm n physmem swapFile files accessible garbage
  have hs := PagerRun.wellFormed hm (fun _ _ _ h => h) hrun hinit
  exact hs.framesOwned hcap fun id hid => (hid.not_onZero hm hinit).2.2

theorem pagerRun_frames_owned_evict : ∃ results s, PagerRun Promise
    (blankMachine 2 3 fun _ _ => false)
    [.create 0 1 [], .map 0 0, .map 0 0, .store 0x600000000 7, .load 0x600010000,
      .store 0x600010000 8] results s ∧
    s.clockQueue = [1] ∧ s.FramesOwned 2 fun id => Written Promise
      (blankMachine 2 3 fun _ _ => false) id
      [.create 0 1 [], .map 0 0, .map 0 0, .store 0x600000000 7, .load 0x600010000,
        .store 0x600010000 8] results s := by
  obtain ⟨⟨results, s⟩, hrun, hqueue⟩ : ∃ r, runAll exec promised
      [.create 0 1 [], .map 0 0, .map 0 0, .store 0x600000000 7, .load 0x600010000,
        .store 0x600010000 8] (blankMachine 2 3 fun _ _ => false) = some r ∧ r.2.clockQueue = [1] :=
    ⟨_, rfl, by decide +kernel⟩
  have hpager := PagerRun.of_runAll hrun
  exact ⟨results, s, hpager, hqueue,
    pagerRun_frames_owned (by decide) (by decide) 3 _ _ _ _ _ hpager⟩

/-! ### Too many physical pages -/

/-- There are no processes, the physical pages `free` are free, and there is one block in the swap
file. -/
private structure Idle (m : ℕ) (free : List ℕ) (s : State) : Prop where
  wellFormed : WellFormed m 1 s
  processTable : s.processTable = ∅
  nextFreePPN : s.nextFreePPN = free
  size : free.length + 1 = m

/-- The process 1 runs, and has one page. -/
private structure Busy (m : ℕ) (free : List ℕ) (id : PageId) (s : State) : Prop where
  wellFormed : WellFormed m 1 s
  processTable : s.processTable = {1}
  running : s.Running
  currentPid : s.currentPid = 1
  nextFreePPN : s.nextFreePPN = free
  lookup : s.translateVA.lookup 1 =
    some ((∅ : AList fun _ : ℕ => PageId).insert (pageAddr 0) id)
  swap : (s.pages id).isSwap = true

private theorem Busy.mapped {free : List ℕ} (h : Busy m free id s) :
    s.mapped s.currentPid (pageAddr 0) = some id := by
  rw [State.mapped, h.currentPid, h.lookup, Option.bind_some, AList.lookup_insert]

private theorem Busy.entryPage {free : List ℕ} (h : Busy m free id s) {x : PageId}
    (hptr : s.entryPage ptr = some x) : ptr = ⟨1, 0⟩ ∧ x = id := by
  obtain ⟨pid, i⟩ := ptr
  have hva : s.mapped pid (pageAddr i) = some x := hptr
  have hpid := h.wellFormed.spaces.mem_processTable hva
  rw [h.processTable, Finset.mem_singleton] at hpid
  rw [State.mapped, hpid, h.lookup, Option.bind_some] at hva
  by_cases heq : i = 0
  · rw [heq, AList.lookup_insert, Option.some.injEq] at hva
    exact ⟨by rw [hpid, heq], hva.symm⟩
  · rw [AList.lookup_insert_ne (pageAddr_injective.ne heq)] at hva
    simp at hva

private theorem Busy.affiliated {free : List ℕ} (h : Busy m free id s) :
    (s.pages id).affiliated = [⟨1, 0⟩] := by
  have hmem (ptr : PtePtr) : ptr ∈ (s.pages id).affiliated ↔ ptr ∈ [(⟨1, 0⟩ : PtePtr)] := by
    rw [h.wellFormed.mappings.attached, List.mem_singleton]
    constructor
    · exact fun hptr => (h.entryPage hptr).1
    · rintro rfl
      have hva := h.mapped
      rwa [h.currentPid] at hva
  exact List.perm_singleton.mp ((List.perm_ext_iff_of_nodup (h.wellFormed.mappings.nodup id)
    (List.nodup_singleton _)).mpr hmem)

private theorem Busy.unique {free : List ℕ} (h : Busy m free id s) {x : PageId}
    (hx : (s.pages x).affiliated ≠ []) : x = id := by
  obtain ⟨ptr, hptr⟩ := List.exists_mem_of_ne_nil _ hx
  exact (h.entryPage ((h.wellFormed.mappings.attached x ptr).mp hptr)).2

private theorem Idle.create {free : List ℕ} (h : Idle m free s) (hm : 2 ≤ m) :
    ∃ t, PagerRun Promise s [.create 0 1 []] [.status true] t ∧ WellFormed m 1 t ∧
      t.processTable = {1} ∧ t.Running ∧ t.currentPid = 1 ∧ t.nextFreePPN = free ∧
      t.translateVA.lookup 1 = none ∧ t.nextFreeVA 1 = some (pageAddr 0) ∧
      t.nextFreeSwap.length = 1 := by
  have hs := h.wellFormed
  have hnone (pid : Pid) : s.translateVA.lookup pid = none := by
    refine AList.lookup_eq_none.mpr fun hpid => ?_
    have hlive := hs.spaces.live pid hpid
    rw [h.processTable] at hlive
    simp at hlive
  have hmappings : s.mappings 0 = [] := by
    rw [State.mappings, hnone]
    rfl
  have hcall : (Call.create 0 1 []).Promised s :=
    ⟨by simp [h.processTable], by rw [hmappings]⟩
  obtain ⟨result, t, heffect, hwf, -, hqueued⟩ := exec_spec hs hm hcall
    (fun _ _ hc => by simp at hc) (fun hstrict : False => hstrict.elim) fun hkeep :
      False => hkeep.elim
  obtain ⟨ht, hexec⟩ := hwf (hqueued (by simp))
  cases heffect with
  | refuse tables hlt => exact absurd hlt (Nat.not_lt_zero _)
  | create _ hcreated =>
    refine ⟨t, Runs.nil.snoc hcall hexec, ht, ?_⟩
    obtain ⟨count, u, hcount, hinherit, rfl⟩ := hcreated
    cases hinherit
    have hzero : count = 0 := by
      refine Nat.eq_zero_of_not_pos fun hpos => ?_
      have hsome := (hcount 0).mpr hpos
      rw [State.entryPage, State.mapped, hnone] at hsome
      simp at hsome
    have hfree := (hs.swapConserved hm).free h.processTable
    subst hzero
    rw [if_neg (by simp [h.processTable])]
    refine ⟨?_, ⟨?_, rfl⟩, rfl, h.nextFreePPN, hnone 1, ?_, ?_⟩
    · simp [State.enroll, h.processTable]
    · simp [State.enroll]
    · simp [State.enroll]
    · exact hfree.length_eq.trans List.length_range

/-- If there is one page, on the physical page 0, and there are free physical pages, then the moves
give it the first one. -/
private theorem Moves.unzero {ppn : ℕ} {free : List ℕ} (h : Moves strict keep s s')
    (hsize : s.nextFreePPN = ppn :: free) (hfree : free ≠ []) (hpos : ppn ≠ 0)
    (hid : ∀ x, (s.pages x).affiliated ≠ [] → x = id)
    (hzero : (s.pages id).OnZero) :
    s'.nextFreePPN = ppn :: free ∧ (s'.pages id).OnZero ∨
      s'.nextFreePPN = free ∧ ∃ page, (s'.pages id).physicalPage = some page ∧ page.ppn = ppn := by
  induction h with
  | refl => exact Or.inl ⟨hsize, hzero⟩
  | @tail t u hmoves hmove ih =>
    have hne : t.nextFreePPN ≠ [] := by
      rcases ih with ⟨heq, -⟩ | ⟨heq, -⟩
      · rw [heq]
        exact List.cons_ne_nil _ _
      · rwa [heq]
    have hid' (x : PageId) (hx : (t.pages x).affiliated ≠ []) : x = id :=
      hid x (by rwa [(Moves.relocation hmoves).affiliated] at hx)
    have hsome : (t.pages id).physicalPage ≠ none := by
      rcases ih with ⟨-, page, hpage, -⟩ | ⟨-, page, hpage, -⟩
      · rw [show (t.pages id).physicalPage = some page from hpage]
        simp
      · rw [hpage]
        simp
    cases hmove with
    | turnClock tables hnil => exact absurd hnil hne
    | evict tables hnil => exact absurd hnil hne
    | @fetch tables x _ _ _ hmapped habsent => exact absurd (hid' x hmapped ▸ habsent) hsome
    | @failRead tables x _ _ _ hmapped habsent => exact absurd (hid' x hmapped ▸ habsent) hsome
    | @unzero tables x p rest page writeFlag hcons hmapped hpage hppn =>
      obtain rfl := hid' x hmapped
      rcases ih with ⟨heq, -⟩ | ⟨-, page', hpage', hppn'⟩
      · obtain ⟨rfl, rfl⟩ := List.cons.inj (hcons.symm.trans heq)
        refine Or.inr ⟨?_, ⟨p, true, writeFlag⟩, ?_, rfl⟩
        · simp [State.withTables, State.allocate, hcons]
        · simp [State.withTables, State.allocate]
      · rw [Option.mem_unique hpage hpage', hppn'] at hppn
        exact absurd hppn hpos
    | @touch tables x page writeFlag hmapped hpage hppn =>
      obtain rfl := hid' x hmapped
      rcases ih with ⟨-, page', hpage', hppn'⟩ | ⟨heq, page', hpage', hppn'⟩
      · rw [Option.mem_unique hpage' hpage] at hppn'
        exact absurd hppn' hppn
      · refine Or.inr ⟨heq, ⟨page.ppn, true, page.dirty || writeFlag⟩, ?_, ?_⟩
        · simp [State.withTables, State.touch, State.setPage]
        · rw [← hppn', Option.mem_unique hpage hpage']

private theorem Idle.map {free : List ℕ} (h : Idle m free s) (hm : 2 ≤ m) :
    ∃ id results t, PagerRun Promise s [.create 0 1 [], .map 0 0] results t ∧ Busy m free id t ∧
      (t.pages id).OnZero := by
  obtain ⟨s₁, hrun, hs₁, htable, hrunning, hpid, hfree, hmaps, hnext, hswap⟩ := h.create hm
  have hcall : (Call.map 0 0).Promised s₁ := hrunning
  obtain ⟨result, t, heffect, hwf, -, hqueued⟩ := exec_spec hs₁ hm hcall
    (fun _ _ hc => by simp at hc) (fun hstrict : False => hstrict.elim) fun hkeep :
      False => hkeep.elim
  obtain ⟨ht, hexec⟩ := hwf (hqueued (by simp))
  refine ⟨s₁.nextPage, _, t, hrun.snoc hcall hexec, ?_⟩
  cases heffect with
  | map hmap =>
    cases hmap with
    | full hfull =>
      rw [hpid, hnext, Option.some.injEq, pageAddr_injective.eq_iff] at hfull
      simp at hfull
    | noBlock _ _ _ hnone =>
      rw [hnone] at hswap
      simp at hswap
    | file _ hname => exact absurd rfl hname
    | @zero i b rest tables _ hi =>
      rw [hpid, hnext, Option.some.injEq, pageAddr_injective.eq_iff] at hi
      subst hi
      have hself : (((s₁.addZero ⟨s₁.currentPid, 0⟩ b rest).advance 0).withTables tables).pages
          s₁.nextPage = { VirtualPage.new with
            blocks := [b], resident := true, physicalPage := some ⟨0, true, false⟩
            isSwap := true, affiliated := [⟨s₁.currentPid, 0⟩] } := update_self ..
      refine ⟨⟨ht, htable, hrunning, hpid, hfree, ?_, ?_⟩, ?_⟩
      · refine (congrArg (fun pid => AList.lookup pid _) hpid.symm).trans ?_
        refine (AList.lookup_insert _).trans ?_
        rw [hpid, hmaps]
        rfl
      · rw [hself]
      · rw [hself]
        exact ⟨_, rfl, rfl⟩

private theorem Busy.store {ppn : ℕ} {free : List ℕ} (h : Busy m (ppn :: free) id s) (hm : 2 ≤ m)
    (hfree : free ≠ []) (hzero : (s.pages id).OnZero) (byte : UInt8) :
    ∃ page t, exec (.store vmArenaBaseaddr byte) s = some (.status true, t) ∧ Busy m free id t ∧
      (t.pages id).physicalPage = some page ∧ page.ppn = ppn ∧ (t.pages id).bits = (true, true) ∧
      t.physmem (ppn % 2 ^ 20) 0 = byte := by
  have hs := h.wellFormed
  have hpos : ppn ≠ 0 := hs.frames.pos_of_mem_free (by rw [h.nextFreePPN]; exact List.mem_cons_self)
  have hcall : (Call.store vmArenaBaseaddr byte).Promised s := ⟨h.running, by decide⟩
  have hva : s.mapped s.currentPid (pageStart vmArenaBaseaddr) = some id := h.mapped
  obtain ⟨result, t, heffect, hwf, -, hqueued⟩ := exec_spec hs hm hcall
    (fun _ _ hc => by simp at hc) (fun hstrict : False => hstrict.elim) fun hkeep :
      False => hkeep.elim
  obtain ⟨ht, hexec⟩ := hwf (hqueued (by simp))
  have htouch := State.touchVA_of_mapped hva
  cases heffect with
  | denied haccess =>
    have hnone := haccess.isSome.mpr ⟨id, hva, Or.inl h.swap⟩
    simp at hnone
  | @store _ p _ t haccess ht' =>
    obtain ⟨t', hmoves, hcopy⟩ := haccess.faulted
    rw [htouch] at hmoves
    have hreloc := hmoves.relocation
    have heq : t = t' := by
      rcases hcopy with heq | ⟨ptr, x, hcopy⟩
      · exact heq
      · -- the page is not shared
        have hshared := hcopy.shared
        have hentry := hcopy.mapped
        rw [hreloc.entryPage] at hentry
        rw [hreloc.blocks, (h.entryPage hentry).2, hs.mappings.swap id h.swap,
          h.affiliated] at hshared
        simp at hshared
    subst heq
    obtain ⟨x, page, hpage, hva', rfl, hwrite⟩ := haccess.page p rfl
    have hx : x = id := by
      rw [hreloc.mapped, hreloc.currentPid] at hva'
      exact Option.some.inj (hva'.symm.trans hva)
    subst hx
    obtain ⟨⟨hone, -⟩, -⟩ := ht'.ppn_of_writable hpage (hwrite rfl)
    have hmoved := (hmoves.unzero h.nextFreePPN hfree hpos (fun y hy =>
      h.unique hy) hzero).resolve_left
      fun hzero' => by
        obtain ⟨-, page', hpage', hppn'⟩ := hzero'
        rw [Option.mem_unique hpage hpage', hppn'] at hone
        simp at hone
    obtain ⟨hfree', page', hpage', rfl⟩ := hmoved
    obtain rfl := Option.mem_unique hpage hpage'
    refine ⟨page, _, hexec, ⟨ht, ?_, ?_, ?_, hfree', ?_, ?_⟩, hpage, rfl, ?_, ?_⟩
    · exact hreloc.processTable.trans h.processTable
    · exact haccess.faulted.running h.running
    · exact hreloc.currentPid.trans h.currentPid
    · refine Eq.trans ?_ h.lookup
      exact congrArg (AList.lookup 1) hreloc.translateVA
    · exact (hreloc.isSwap x).trans h.swap
    · exact Prod.ext (VirtualPage.bits_fst (hwrite rfl)) (hwrite rfl)
    · refine (congrFun (update_self ..) 0).trans ?_
      exact update_self ..

private theorem Busy.destroy {ppn : ℕ} {free : List ℕ} (h : Busy m free id s) (hm : 2 ≤ m)
    (hsize : free.length + 1 + 1 = m) {page : PhysicalPage}
      (hpage : (s.pages id).physicalPage = some page)
    (hppn : page.ppn = ppn) (hpos : ppn ≠ 0) :
    ∃ t, PagerRun Promise s [.destroy [(pageAddr 0, id)]] [.done] t ∧ Idle m (free ++ [ppn]) t := by
  have hs := h.wellFormed
  have hcall : (Call.destroy [(pageAddr 0, id)]).Promised s := by
    refine ⟨h.running, ?_⟩
    rw [State.mappings, h.currentPid, h.lookup]
    exact List.Perm.refl _
  obtain ⟨result, t, heffect, hwf, -⟩ := exec_spec hs hm hcall
    (fun _ _ hc => by simp at hc) (fun hstrict : False => hstrict.elim) fun hkeep :
      False => hkeep.elim
  have htouch := State.touchVA_of_mapped h.mapped
  cases heffect with
  | @destroy _ t hdrop hmappings hframes =>
    rw [htouch] at hdrop
    have hreleased (i : ℕ) : ((s.pages id).detach ⟨s.currentPid, i⟩).Released := by
      refine ⟨?_, ?_⟩
      · rw [VirtualPage.detach, if_pos h.swap, ← List.length_eq_zero_iff, List.length_dropLast,
          hs.mappings.swap id h.swap, h.affiliated]
        rfl
      · rw [VirtualPage.frame_detach, VirtualPage.frame_eq_of_some hpage (hppn ▸ hpos)]
        simp
    have hfree : t.retire.nextFreePPN = free ++ [ppn] ∧ t.retire.processTable = ∅ := by
      generalize hfirst : pageAddr 0 = first at hdrop
      cases hdrop with
      | @cons _ _ i _ _ tables hrest =>
        cases hrest
        refine ⟨?_, ?_⟩
        · simp only [State.retire, State.withTables, State.detach, if_pos (hreleased i)]
          rw [h.nextFreePPN, VirtualPage.frame_detach,
            VirtualPage.frame_eq_of_some hpage (hppn ▸ hpos), hppn]
        · simp [State.retire, State.withTables, State.detach, h.processTable, h.currentPid]
    have hqueued : Queued t.retire := by
      have hlength := hframes.size
      rw [hfree.1, List.length_append, List.length_singleton] at hlength
      have hnil : t.retire.clockQueue = [] := List.length_eq_zero_iff.mp (by omega)
      intro x hx
      rw [hnil] at hx
      simp at hx
    obtain ⟨ht, hexec⟩ := hwf hqueued
    exact ⟨t.retire, Runs.nil.snoc hcall hexec, ht, hfree.2, hfree.1, by simpa using hsize⟩

/-- One process after another writes one page, so that the free physical pages are used in turn. -/
private theorem Idle.turn (hm : 2 ≤ m) (first rest : List ℕ) :
    ∀ s, Idle m (first ++ rest) s → rest ≠ [] →
      ∃ calls results t, PagerRun Promise s calls results t ∧ Idle m (rest ++ first) t := by
  -- each process takes the first free physical page and returns it at the end
  induction first generalizing rest with
  | nil =>
    intro s h _
    exact ⟨[], [], s, .nil, by rwa [List.append_nil]⟩
  | cons ppn first ih =>
    intro s h hrest
    rw [List.cons_append] at h
    have hpos : ppn ≠ 0 := h.wellFormed.frames.pos_of_mem_free (by rw [h.nextFreePPN]; simp)
    obtain ⟨id, results₁, s₁, hrun₁, h₁, hzero⟩ := h.map hm
    obtain ⟨page, s₂, hexec, h₂, hpage, hppn, -⟩ := h₁.store hm (by simp [hrest]) hzero 0
    have hstore : (Call.store vmArenaBaseaddr 0).Promised s₁ := ⟨h₁.running, by decide⟩
    obtain ⟨s₃, hrun₃, h₃⟩ := h₂.destroy hm h.size hpage hppn hpos
    rw [List.append_assoc] at h₃
    obtain ⟨calls, results, t, hrun, ht⟩ := ih (rest ++ [ppn]) s₃ h₃ (by simp)
    refine ⟨_, _, t, ((hrun₁.snoc hstore hexec).append hrun₃).append hrun, ?_⟩
    rwa [List.append_assoc, List.singleton_append] at ht

private theorem idle_blankMachine (k : ℕ) (accessible : Bytes → ℕ → Bool) :
    Idle (k + 2) (List.range' 1 k ++ [k + 1]) (blankMachine (k + 2) 1 accessible) := by
  refine ⟨vmInit_wellFormed (Nat.le_add_left 2 k) 1 _ _ _ _ _, rfl, ?_, by simp⟩
  have hrange : List.range' 1 (k + 1) = List.range' 1 k ++ [k + 1] := by
    rw [List.range'_concat, one_mul, Nat.add_comm 1 k]
  exact hrange

/-- With more physical pages than the page table entries can name, a process writes the physical
page 0. -/
theorem pagerRun_null_page_written : ∃ calls results s,
    PagerRun Promise (blankMachine (2 ^ 20 + 1) 1 fun _ _ => false) calls results s ∧
      s.physmem 0 0 = 1 ∧ ¬s.FramesOwned (2 ^ 20 + 1) fun id =>
        Written Promise (blankMachine (2 ^ 20 + 1) 1 fun _ _ => false) id calls results s := by
  obtain ⟨k, hk⟩ : ∃ k, 2 ^ 20 = k + 1 := ⟨2 ^ 20 - 1, by norm_num⟩
  have hm : 2 ≤ k + 2 := Nat.le_add_left 2 k
  obtain ⟨calls, results, s, hrun, hs⟩ :=
    Idle.turn hm _ _ _ (idle_blankMachine k fun _ _ => false) (by simp)
  obtain ⟨id, results₁, s₁, hrun₁, h₁, hzero⟩ := hs.map hm
  have hfree : List.range' 1 k ≠ [] := by
    rw [ne_eq, ← List.length_eq_zero_iff, List.length_range']
    omega
  obtain ⟨page, s₂, hexec, h₂, hpage, hppn, -, hbyte⟩ := h₁.store hm hfree hzero 1
  have hstore : (Call.store vmArenaBaseaddr 1).Promised s₁ := ⟨h₁.running, by decide⟩
  rw [← hk, Nat.mod_self] at hbyte
  rw [hk]
  refine ⟨_, _, s₂, (hrun.append hrun₁).snoc hstore hexec, hbyte, fun howned => ?_⟩
  rw [howned.zero] at hbyte
  exact absurd hbyte (by decide)

end OsFromScratch.Pager
