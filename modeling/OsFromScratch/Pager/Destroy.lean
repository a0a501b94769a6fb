import OsFromScratch.Pager.Processes

/-!
# Destroying processes

`vm_destroy` removes the mappings of the current process one by one. A swap backed page gives back a
block for each, and its physical page with the last one. A page of a file stays where it is.

## Main definitions

* `State.detach` — an address is detached from its page.
* `Drop` — the mappings of a process are removed one by one.
* `State.retire` — the current process is not managed any more.

## Main results

* `Inside.detach` — the invariant is preserved when an address is detached.
* `vmDestroy_spec` — what `vm_destroy` does.
-/

namespace OsFromScratch.Pager

open Function

variable {m n : ℕ} {M : PtePtr → Option PageId} {L : Set Pid} {s s' : State} {id : PageId}
  {ptr : PtePtr}

/-! ### Detaching an address -/

/-- A page after one address has been detached from it, which gives back the last block if it is
backed by swap. -/
def VirtualPage.detach (v : VirtualPage) (ptr : PtePtr) : VirtualPage :=
  { v with
    affiliated := v.affiliated.erase ptr
    blocks := if v.isSwap then v.blocks.dropLast else v.blocks }

/-- The page gives back its physical page: there is nothing left that it could be mapped to. -/
def VirtualPage.Released (v : VirtualPage) : Prop :=
  v.blocks = [] ∧ v.frame ≠ []

instance (v : VirtualPage) : Decidable v.Released :=
  inferInstanceAs (Decidable (_ ∧ _))

/-- The blocks that a page gives back when an address is detached from it. -/
def VirtualPage.returned (v : VirtualPage) : List ℕ :=
  if v.isSwap then v.blocks.getLast?.toList else []

/-- An address is detached from its page. -/
def State.detach (s : State) (ptr : PtePtr) (id : PageId) : State :=
  let v := (s.pages id).detach ptr
  { s with
    pages := update s.pages id
      (if v.Released then { v with resident := false, physicalPage := none } else v)
    nextFreeSwap := s.nextFreeSwap ++ (s.pages id).returned
    nextFreePPN := s.nextFreePPN ++ (if v.Released then v.frame else [])
    clockQueue := if v.Released then s.clockQueue.erase id else s.clockQueue }

theorem VirtualPage.frame_detach (v : VirtualPage) (ptr : PtePtr) :
    (v.detach ptr).frame = v.frame := rfl

theorem Mappings.detach_state (h : Mappings n M s) (hptr : M ptr = some id) :
    Mappings n (update M ptr none) (s.detach ptr id) := by
  have hmem : ptr ∈ (s.pages id).affiliated := (h.attached id ptr).mpr hptr
  have hlast (hswap : (s.pages id).isSwap = true) :
      ∃ block, (s.pages id).blocks.getLast? = some block := by
    refine Option.ne_none_iff_exists'.mp fun hnone => ?_
    have hlen := h.swap id hswap
    rw [List.getLast?_eq_none_iff.mp hnone] at hlen
    exact List.ne_nil_of_mem hmem (List.length_eq_zero_iff.mp hlen.symm)
  have hreturned : (s.pages id).returned.length = if (s.pages id).isSwap then 1 else 0 := by
    rw [VirtualPage.returned]
    split_ifs with hswap
    · obtain ⟨block, hblock⟩ := hlast hswap
      rw [hblock]
      rfl
    · rfl
  let v := (s.pages id).detach ptr
  have hblocks : (s.pages id).blocks =
      (if v.Released then { v with resident := false, physicalPage := none } else v).blocks ++
        (s.pages id).returned := by
    have hv : (if v.Released then
        { v with resident := false, physicalPage := none } else v).blocks = v.blocks := by
      split_ifs <;> rfl
    rw [hv, VirtualPage.returned]
    simp only [v, VirtualPage.detach]
    split_ifs with hswap
    · obtain ⟨block, hblock⟩ := hlast hswap
      rw [hblock, Option.toList_some, List.dropLast_append_getLast? block hblock]
    · rw [List.append_nil]
  refine h.detach hptr rfl rfl ?_ ?_ ?_ hblocks hreturned List.perm_append_comm rfl
  all_goals split_ifs <;> rfl

theorem Frames.detach (h : Frames m s) (ptr : PtePtr) (id : PageId) :
    Frames m (s.detach ptr id) := by
  by_cases hreleased : ((s.pages id).detach ptr).Released
  · -- the physical page goes the way of an eviction
    have hmem : id ∈ s.clockQueue := (h.mem_queue id).mpr hreleased.2
    have hsame : SameMemory (s.evict id) (s.detach ptr id) := by
      refine ⟨?_, ?_, rfl, rfl, rfl⟩
      · simp only [State.detach, if_pos hreleased, State.evict]
      · simp only [State.detach, if_pos hreleased, State.evict, VirtualPage.frame_detach]
    have hpages : (s.detach ptr id).pages = update (s.evict id).pages id
        { (s.pages id).detach ptr with resident := false, physicalPage := none } := by
      simp only [State.detach, if_pos hreleased, State.evict, update_idem]
    refine (h.evict hmem).page hsame hpages ?_ rfl (by simp) (by simp)
    simp [State.evict, VirtualPage.frame]
  · have hsame : SameMemory s (s.detach ptr id) := by
      refine ⟨?_, ?_, rfl, rfl, rfl⟩
      · simp only [State.detach, if_neg hreleased]
      · simp only [State.detach, if_neg hreleased, List.append_nil]
    have hpages : (s.detach ptr id).pages = update s.pages id ((s.pages id).detach ptr) := by
      simp only [State.detach, if_neg hreleased]
    refine h.page hsame hpages rfl (h.resident id) (fun page hpage hzero => ?_) fun hres hfile => ?_
    · obtain ⟨hswap, hblocks, hclocked, hdirty⟩ := h.null_page id page hpage hzero
      refine ⟨hswap, ?_, hclocked, hdirty⟩
      simp only [VirtualPage.detach, hswap, if_true, List.length_dropLast]
      omega
    · have hfile' : (s.pages id).isSwap = false := hfile
      simp only [VirtualPage.detach, hfile', Bool.false_eq_true, if_false]
      exact h.loaded id hres hfile'

/-- The page tables stay up to date when an address of a process that does not run any more is
detached from its page. -/
private theorem Ptes.forget {E : Set PageId} (h : Ptes E L M s) (hptr : ptr.pid ∉ L) :
    Ptes E L (update M ptr none) s := by
  refine ⟨h.page, fun ptr' hptr' hnone => h.unmapped ptr' hptr' ?_⟩
  have hne : ptr' ≠ ptr := fun heq => hptr (heq ▸ hptr')
  rwa [update_of_ne hne] at hnone

theorem releaseFrame_eq (h : (s.pages id).resident = (s.pages id).physicalPage.isSome) :
    releaseFrame id s =
      if (s.pages id).Released then returnPpnRemoveFromClock id s else some s := by
  rw [releaseFrame, VirtualPage.onNullPage, h]
  cases hpage : (s.pages id).physicalPage with
  | none => simp [VirtualPage.Released, VirtualPage.frame, hpage]
  | some page =>
    by_cases hppn : page.ppn = 0
    · simp [VirtualPage.Released, VirtualPage.frame, hpage, hppn, Option.filter]
    · simp [VirtualPage.Released, VirtualPage.frame_eq_of_some hpage hppn, hppn]

/-- The part of the loop of `vm_destroy` that is concerned with blocks and physical pages. -/
private theorem release_spec (h : Inside m n M L s) (hptr : M ptr = some id) :
    ∃ t₁ t tables, releaseBlock id s = some t₁ ∧ releaseFrame id t₁ = some t ∧
      (t.pages id).affiliated = (s.pages id).affiliated ∧
      t.pageTableBaseRegister = s.pageTableBaseRegister ∧
      t.setPage id { t.pages id with affiliated := (s.pages id).affiliated.erase ptr } =
        (s.detach ptr id).withTables tables ∧
      Ptes {id} L M ((s.detach ptr id).withTables tables) := by
  have hmem : ptr ∈ (s.pages id).affiliated := (h.mappings.attached id ptr).mpr hptr
  let v : VirtualPage := { (s.pages id).detach ptr with affiliated := (s.pages id).affiliated }
  let t₁ : State := { s with
    pages := update s.pages id v, nextFreeSwap := s.nextFreeSwap ++ (s.pages id).returned }
  have hself : t₁.pages id = v := update_self ..
  have hblock : releaseBlock id s = some t₁ := by
    rw [releaseBlock]
    cases hswap : (s.pages id).isSwap with
    | false =>
      have hv : v = s.pages id := by
        simp only [v, VirtualPage.detach, if_neg (hswap ▸ Bool.false_ne_true)]
      have hreturned : (s.pages id).returned = [] := by simp [VirtualPage.returned, hswap]
      simp [t₁, hv, hreturned]
    | true =>
      obtain ⟨block, hlast⟩ : ∃ block, (s.pages id).blocks.getLast? = some block := by
        refine Option.ne_none_iff_exists'.mp fun hnone => ?_
        have hlen := h.mappings.swap id hswap
        rw [List.getLast?_eq_none_iff.mp hnone] at hlen
        exact List.ne_nil_of_mem hmem (List.length_eq_zero_iff.mp hlen.symm)
      simp [t₁, v, VirtualPage.detach, VirtualPage.returned, hswap, hlast, State.setPage]
  have hptes₁ : Ptes {id} L M t₁ := by
    rw [← Set.insert_eq_of_mem (Set.mem_singleton id)]
    exact { (h.ptes.setPage id v).mono (by simp) with }
  have hresident : (t₁.pages id).resident = (t₁.pages id).physicalPage.isSome := by
    rw [hself]
    exact h.frames.resident id
  have hframe := releaseFrame_eq hresident
  rw [hself] at hframe
  by_cases hreleased : v.Released
  · have hqueue : id ∈ t₁.clockQueue := (h.frames.mem_queue id).mpr hreleased.2
    obtain ⟨page, hpage, hppn⟩ := (h.frames.page_of_mem_queue hqueue).2
    let b : State := State.setPage { t₁ with
      nextFreePPN := t₁.nextFreePPN ++ [page.ppn], clockQueue := t₁.clockQueue.erase id } id
      { t₁.pages id with resident := false, physicalPage := none }
    have hb : b.pages id = { v with resident := false, physicalPage := none } := by
      simp only [b, State.setPage, update_self, hself]
    have hptes₂ : Ptes {id} L M b := by
      rw [← Set.insert_eq_of_mem (Set.mem_singleton id)]
      exact { (hptes₁.setPage id
        { t₁.pages id with resident := false, physicalPage := none }) with }
    have hattached (x : PageId) (ptr' : PtePtr) (hx : ptr' ∈ (b.pages x).affiliated) :
        M ptr' = some x := by
      refine (h.mappings.attached x ptr').mp ?_
      by_cases heq : x = id
      · subst heq
        rwa [hb] at hx
      · simpa [b, t₁, State.setPage, heq] using hx
    obtain ⟨tables, hupdate, hptes₃⟩ := hptes₂.updatePTEs id hattached (by
      rw [hb]
      exact ⟨List.ne_nil_of_mem hmem, fun hres => absurd hres Bool.false_ne_true⟩)
    have hdetach : (b.withTables tables).setPage id { (b.withTables tables).pages id with
        affiliated := (s.pages id).affiliated.erase ptr } =
          (s.detach ptr id).withTables tables := by
      have hreleased' : ((s.pages id).detach ptr).Released := hreleased
      rw [show (b.withTables tables).pages id = _ from hb]
      simp only [State.detach, if_pos hreleased', VirtualPage.frame_detach,
        VirtualPage.frame_eq_of_some hpage hppn]
      simp [b, t₁, v, State.setPage, State.withTables]
      rfl
    refine ⟨t₁, b.withTables tables, tables, hblock, ?_, ?_, rfl, hdetach, ?_⟩
    · rw [hframe, if_pos hreleased, returnPpnRemoveFromClock_eq (by rw [hself]; exact hpage) hqueue]
      exact hupdate
    · rw [show (b.withTables tables).pages id = _ from hb]
    · rw [← hdetach, ← Set.insert_eq_of_mem (Set.mem_singleton id)]
      exact (hptes₃.mono Set.sdiff_subset).setPage id _
  · have hdetach : t₁.setPage id { t₁.pages id with
        affiliated := (s.pages id).affiliated.erase ptr } =
        (s.detach ptr id).withTables s.pageTables := by
      have hreleased' : ¬((s.pages id).detach ptr).Released := hreleased
      simp only [State.detach, if_neg hreleased', hself, List.append_nil]
      simp [t₁, v, State.setPage, State.withTables]
      rfl
    refine ⟨t₁, t₁, s.pageTables, hblock, hframe.trans (if_neg hreleased), by rw [hself], rfl,
      hdetach, ?_⟩
    rw [← hdetach, ← Set.insert_eq_of_mem (Set.mem_singleton id)]
    exact hptes₁.setPage id _

/-- An address of a process that does not run any more is detached from its page. -/
theorem Inside.detach (h : Inside m n M L s) (hptr : M ptr = some id) (hL : ptr.pid ∉ L)
    (tables : Pid → ℕ → PageTableEntry)
    (hptes : Ptes {id} L M ((s.detach ptr id).withTables tables)) :
    ∃ tables', updatePTEsIfAny id ((s.detach ptr id).withTables tables) =
        some ((s.detach ptr id).withTables tables') ∧
      Inside m n (update M ptr none) L ((s.detach ptr id).withTables tables') := by
  have hmappings := (h.mappings.detach_state hptr).withTables tables
  have hframes := (h.frames.detach ptr id).withTables tables
  obtain ⟨tables', hupdate, hptes'⟩ := (hptes.forget hL).updatePTEsIfAny id
    (fun x ptr' hmem => (hmappings.attached x ptr').mp hmem)
    fun hmem => hmappings.updatable hframes hmem
  exact ⟨tables', hupdate, h.mappings.detach_state hptr |>.withTables tables',
    (h.frames.detach ptr id).withTables tables', hptes'.mono (by simp)⟩

/-! ### The mappings of a process -/

/-- The mappings of a process are removed one by one. -/
inductive Drop (pid : Pid) : List (ℕ × PageId) → State → State → Prop
  | nil (s : State) : Drop pid [] s s
  | cons {s s' : State} {i : ℕ} {id : PageId} {rest : List (ℕ × PageId)}
    {tables : Pid → ℕ → PageTableEntry}
    (hrest : Drop pid rest ((s.detach ⟨pid, i⟩ id).withTables tables) s') :
    Drop pid ((pageAddr i, id) :: rest) s s'

/-- What is mapped when the addresses of a list have been removed. -/
def without (pid : Pid) (order : List (ℕ × PageId)) (M : PtePtr → Option PageId) (ptr : PtePtr) :
    Option PageId :=
  if ptr.pid = pid ∧ pageAddr ptr.index ∈ order.map Prod.fst then none else M ptr

/-- The loop of `vm_destroy` removes the mappings. -/
theorem dropMappings_spec (pid : Pid) (order : List (ℕ × PageId)) :
    ∀ (M : PtePtr → Option PageId) (s : State), Inside m n M L s → pid ∉ L →
      s.pageTableBaseRegister = some pid →
      (∀ e ∈ order, ∃ i, e.1 = pageAddr i ∧ M ⟨pid, i⟩ = some e.2) → (order.map Prod.fst).Nodup →
      ∃ s', dropMappings order s = some s' ∧ Drop pid order s s' ∧
        Inside m n (without pid order M) L s' := by
  -- the addresses that are left are still mapped to their pages
  induction order with
  | nil =>
    intro M s h _ _ _ _
    have hM : without pid [] M = M := by
      funext ptr
      simp [without]
    exact ⟨s, rfl, .nil s, hM.symm ▸ h⟩
  | cons e rest ih =>
    intro M s h hL hregister hentries hnodup
    obtain ⟨va, id⟩ := e
    obtain ⟨i, rfl, hptr⟩ : ∃ i, va = pageAddr i ∧ M ⟨pid, i⟩ = some id :=
      hentries (va, id) List.mem_cons_self
    rw [List.map_cons, List.nodup_cons] at hnodup
    obtain ⟨t₁, t, tables, hblock, hframe, haff, hreg, hdetach, hptes⟩ := release_spec h hptr
    obtain ⟨tables', hupdate, hinside⟩ := h.detach hptr hL tables hptes
    have hentries' (e : ℕ × PageId) (he : e ∈ rest) :
        ∃ j, e.1 = pageAddr j ∧ update M ⟨pid, i⟩ none ⟨pid, j⟩ = some e.2 := by
      obtain ⟨j, hj, hmap⟩ := hentries e (List.mem_cons_of_mem _ he)
      have hij : j ≠ i := fun heq => hnodup.1 (List.mem_map.mpr ⟨e, he, hj.trans (heq ▸ rfl)⟩)
      exact ⟨j, hj, by rw [update_of_ne (by simp [hij]), hmap]⟩
    obtain ⟨s', hdrop, hrel, hinside'⟩ := ih (update M ⟨pid, i⟩ none)
      ((s.detach ⟨pid, i⟩ id).withTables tables') hinside hL hregister hentries' hnodup.2
    refine ⟨s', ?_, .cons hrel, ?_⟩
    · have hmem : (⟨pid, i⟩ : PtePtr) ∈ (t.pages id).affiliated := by
        rw [haff]
        exact (h.mappings.attached id _).mpr hptr
      rw [dropMappings]
      refine (bind_of_eq_some hblock).trans ((bind_of_eq_some hframe).trans ?_)
      simp only [hreg, hregister, Option.bind_eq_bind, Option.bind_some,
        vaToPTE_pageAddr, if_pos hmem]
      rw [haff, hdetach]
      exact (bind_of_eq_some hupdate).trans hdrop
    · have hM : without pid ((pageAddr i, id) :: rest) M =
          without pid rest (update M ⟨pid, i⟩ none) := by
        funext ⟨pid', j⟩
        simp only [without, List.map_cons, List.mem_cons, update_apply, PtePtr.mk.injEq,
          pageAddr_injective.eq_iff]
        by_cases hpid : pid' = pid
        · by_cases hj : j = i
          · simp [hpid, hj]
          · simp only [hj, false_or, and_false, if_false]
        · simp only [hpid, false_and, if_false]
      rw [hM]
      exact hinside'

namespace Drop

variable {pid : Pid} {order : List (ℕ × PageId)}

/-- Only blocks, physical pages and the queue are affected. -/
theorem same (h : Drop pid order s s') :
    s'.processTable = s.processTable ∧ s'.translateVA = s.translateVA ∧
      s'.nextFreeVA = s.nextFreeVA ∧ s'.filenameBlockToVpage = s.filenameBlockToVpage ∧
      s'.currentPid = s.currentPid ∧ s'.pageTableBaseRegister = s.pageTableBaseRegister ∧
      s'.accessible = s.accessible ∧ s'.nextPage = s.nextPage := by
  induction h with
  | nil => exact ⟨rfl, rfl, rfl, rfl, rfl, rfl, rfl, rfl⟩
  | cons _ ih => exact ih

end Drop

/-! ### The end of a process -/

/-- The current process is not managed any more. -/
def State.retire (s : State) : State :=
  { s with
    translateVA := s.translateVA.erase s.currentPid
    processTable := s.processTable.erase s.currentPid
    nextFreeVA := update s.nextFreeVA s.currentPid none
    pageTableBaseRegister := s.pageTableBaseRegister.filter fun pid => pid ≠ s.currentPid }

theorem State.mapped_retire (s : State) (pid : Pid) (va : ℕ) :
    s.retire.mapped pid va = if pid = s.currentPid then none else s.mapped pid va := by
  rw [State.mapped, State.retire]
  split_ifs with hpid
  · rw [hpid, AList.lookup_erase]
    rfl
  · rw [AList.lookup_erase_ne hpid]
    rfl

theorem Spaces.retire (h : Spaces s) : Spaces s.retire := by
  refine ⟨fun pid hpid => ?_, fun pid hpid => ?_, fun pid va id hva => ?_, fun pid hpid => ?_⟩
  · obtain ⟨hne, hmem⟩ := AList.mem_erase.mp hpid
    exact Finset.mem_erase.mpr ⟨hne, h.live pid hmem⟩
  · by_cases heq : pid = s.currentPid
    · subst heq
      exact update_self ..
    · refine (update_of_ne heq ..).trans (h.unmanaged pid fun hmem => hpid ?_)
      exact Finset.mem_erase.mpr ⟨heq, hmem⟩
  · rw [State.mapped_retire] at hva
    split_ifs at hva
    exact h.aligned pid va id hva
  · obtain ⟨hne, hmem⟩ := Finset.mem_erase.mp hpid
    obtain ⟨count, hcount, hnext, hvalid⟩ := h.next pid hmem
    refine ⟨count, hcount, (update_of_ne hne ..).trans hnext, fun i => ?_⟩
    rw [State.entryPage, State.mapped_retire, if_neg hne]
    exact hvalid i

/-- A state that passes `assert_structure_consistency` has no page in the queue that does not
exist. -/
theorem Queued.of_consistent (hmappings : Mappings n s.entryPage s) (hspaces : Spaces s)
    (h : s.Consistent) : Queued s := by
  intro id hid
  rcases State.exists_iff.mp (h.clock id hid).1 with ⟨pid, va, hva⟩ | hkey
  · obtain ⟨i, -, hentry, -⟩ := hspaces.mem_entry hva
    exact Or.inl (List.ne_nil_of_mem ((hmappings.attached id _).mpr hentry))
  · exact Or.inr hkey

/-- The result of `vm_destroy`: the mappings of the current process are removed, and all assertions
hold, unless there is a page in the queue that does not exist any more. -/
theorem vmDestroy_spec (h : WellFormed m n s) (hrun : s.Running) {order : List (ℕ × PageId)}
    (horder : order.Perm (s.mappings s.currentPid)) :
    ∃ t, Drop s.currentPid order (s.touchVA s.currentPid) t ∧
      vmDestroy order s = assertStructureConsistency t.retire ∧
      Mappings n t.retire.entryPage t.retire ∧ Frames m t.retire ∧
      (Queued t.retire → WellFormed m n t.retire) ∧
      (t.retire.Consistent → Queued t.retire) := by
  have hpid : (s.touchVA s.currentPid).currentPid = s.currentPid :=
      s.currentPid_touchVA s.currentPid
  have hwf := h.touchVA hrun.1
  have hinside : Inside m n s.entryPage {pid | pid ∈ s.processTable ∧ pid ≠ s.currentPid}
      (s.touchVA s.currentPid) := by
    refine ⟨s.entryPage_touchVA s.currentPid ▸ hwf.mappings, hwf.frames, hwf.ptes.page,
      fun ptr hptr hnone => ?_⟩
    refine hwf.ptes.unmapped ptr ?_ (by rwa [s.entryPage_touchVA])
    obtain ⟨maps, heq⟩ := s.touchVA_eq s.currentPid
    rw [heq]
    exact hptr.1
  obtain ⟨t, hloop, hdrop, hinside'⟩ := dropMappings_spec s.currentPid order s.entryPage
    (s.touchVA s.currentPid) hinside (fun hmem => hmem.2 rfl)
    (hrun.touchVA.2.trans (congrArg some hpid)) (fun e he => by
      have hmapped : s.mapped s.currentPid e.1 = some e.2 := (State.mem_order horder).mp he
      obtain ⟨i, hi, hentry, -⟩ := h.spaces.mem_entry hmapped
      exact ⟨i, hi, hentry⟩) ((horder.map _).nodup_iff.mpr (s.nodup_mappings s.currentPid))
  obtain ⟨htable, hmaps, hnext, -, hcurrent, -, -, -⟩ := hdrop.same
  have hcurrent' : t.currentPid = s.currentPid := hcurrent.trans hpid
  have htouch : (s.touchVA s.currentPid).processTable = s.processTable ∧
      (s.touchVA s.currentPid).nextFreeVA = s.nextFreeVA := by
    obtain ⟨maps, heq⟩ := s.touchVA_eq s.currentPid
    rw [heq]
    exact ⟨rfl, rfl⟩
  have hmapped : t.mapped = s.mapped := by
    rw [← s.mapped_touchVA s.currentPid]
    funext pid va
    rw [State.mapped, State.mapped, hmaps]
  have hspaces : Spaces t := by
    refine ⟨fun pid hp => ?_, fun pid hp => ?_, fun pid va id hva => ?_, fun pid hp => ?_⟩
    · rw [htable]
      exact hwf.spaces.live pid (hmaps ▸ hp)
    · rw [hnext]
      exact hwf.spaces.unmanaged pid (htable ▸ hp)
    · exact h.spaces.aligned pid va id (hmapped ▸ hva)
    · have hentry : t.entryPage = s.entryPage := by
        funext ptr
        rw [State.entryPage, hmapped]
        rfl
      rw [htable, htouch.1] at hp
      rw [hnext, htouch.2, hentry]
      exact h.spaces.next pid hp
  have hM : without s.currentPid order s.entryPage = t.retire.entryPage := by
    funext ptr
    rw [State.entryPage, State.mapped_retire, hcurrent', hmapped, without]
    by_cases hp : ptr.pid = s.currentPid
    · rw [if_pos hp]
      split_ifs with hin
      · rfl
      · refine Option.eq_none_iff_forall_ne_some.mpr fun id hid => hin ⟨hp, ?_⟩
        exact List.mem_map.mpr ⟨(_, id), (State.mem_order horder).mpr (hp ▸ hid), rfl⟩
    · rw [if_neg hp, if_neg fun hin => hp hin.1]
      rfl
  have hL : {pid | pid ∈ s.processTable ∧ pid ≠ s.currentPid} =
      {pid | pid ∈ t.retire.processTable} := by
    ext pid
    rw [Set.mem_ofPred_eq, Set.mem_ofPred_eq, State.retire, Finset.mem_erase, hcurrent',
      htable, htouch.1, and_comm]
  rw [hM, hL] at hinside'
  have hmappings : Mappings n t.retire.entryPage t.retire := { hinside'.mappings with }
  have hframes : Frames m t.retire := { hinside'.frames with }
  refine ⟨t, hdrop, ?_, hmappings, hframes, fun hqueued => ?_,
    Queued.of_consistent hmappings hspaces.retire⟩
  · rw [vmDestroy]
    exact bind_of_eq_some hloop
  · exact .of_inside ⟨hmappings, hframes, { hinside'.ptes with }⟩ hspaces.retire hqueued

end OsFromScratch.Pager
