import OsFromScratch.Pager.Memory

/-!
# Copies of processes

`vm_create` gives the child the mappings of the parent, or it has no effect. It takes one block of
the swap file for every page of the parent that is backed by swap, and leaves the pages that exist
as they are.

## Main definitions

* `Undisturbed` — the pages that exist keep what they hold and where it is.
* `Forked` — what a successful `vm_create` does.

## Main results

* `Inherit.undisturbed`, `Inherit.nextFreeSwap` — the loop over the mappings of the parent.
* `Inherit.data` — the child has the data of the parent.
* `vmCreate_all_or_nothing` — `vm_create` succeeds if and only if there are enough blocks.
-/

namespace OsFromScratch.Pager

open Function

variable {m n : ℕ} {s s' t : State} {id : PageId} {ptr : PtePtr}

/-! ### The pages that exist -/

theorem State.physicalPage_attach (s : State) (ptr : PtePtr) (id : PageId) (extra rest : List ℕ)
    (x : PageId) : ((s.attach ptr id extra rest).pages x).physicalPage =
      (s.pages x).physicalPage := by
  by_cases hx : x = id
  · subst hx
    simp [State.attach]
  · simp [State.attach, hx]

theorem State.resident_attach (s : State) (ptr : PtePtr) (id : PageId) (extra rest : List ℕ)
    (x : PageId) : ((s.attach ptr id extra rest).pages x).resident = (s.pages x).resident := by
  by_cases hx : x = id
  · subst hx
    simp [State.attach]
  · simp [State.attach, hx]

/-- The pages that have been made keep what they hold, where it is, and whether it has been used or
changed. The blocks of files keep their contents. -/
structure Undisturbed (s s' : State) : Prop where
  made : s.nextPage ≤ s'.nextPage
  physicalPage : ∀ id < s.nextPage, (s'.pages id).physicalPage = (s.pages id).physicalPage
  resident : ∀ id < s.nextPage, (s'.pages id).resident = (s.pages id).resident
  place : ∀ id < s.nextPage, (s'.pages id).place = (s.pages id).place
  contents : ∀ id < s.nextPage, s'.contents id = s.contents id
  files : ∀ key, s'.cache.view (.inl key) = s.cache.view (.inl key)
  physmem : s'.physmem = s.physmem
  block : s'.block = s.block
  clockQueue : s'.clockQueue = s.clockQueue
  nextFreePPN : s'.nextFreePPN = s.nextFreePPN

namespace Undisturbed

theorem refl (s : State) : Undisturbed s s :=
  ⟨le_rfl, fun _ _ => rfl, fun _ _ => rfl, fun _ _ => rfl, fun _ _ => rfl, fun _ => rfl, rfl, rfl,
    rfl, rfl⟩

theorem trans (h : Undisturbed s t) (h' : Undisturbed t s') : Undisturbed s s' where
  made := h.made.trans h'.made
  physicalPage id hid :=
    (h'.physicalPage id (hid.trans_le h.made)).trans (h.physicalPage id hid)
  resident id hid := (h'.resident id (hid.trans_le h.made)).trans (h.resident id hid)
  place id hid := (h'.place id (hid.trans_le h.made)).trans (h.place id hid)
  contents id hid := (h'.contents id (hid.trans_le h.made)).trans (h.contents id hid)
  files key := (h'.files key).trans (h.files key)
  physmem := h'.physmem.trans h.physmem
  block := h'.block.trans h.block
  clockQueue := h'.clockQueue.trans h.clockQueue
  nextFreePPN := h'.nextFreePPN.trans h.nextFreePPN

/-- A new page of zeroes. -/
theorem addZero (hnew : s.pages s.nextPage = .new) (ptr : PtePtr) (block : ℕ) (free : List ℕ)
    (tables : Pid → ℕ → PageTableEntry) :
    Undisturbed s ((s.addZero ptr block free).withTables tables) := by
  let t := (s.addZero ptr block free).withTables tables
  have hold (id : PageId) (hid : id < s.nextPage) : t.pages id = s.pages id :=
    update_of_ne hid.ne ..
  have hcache : t.cache =
      (s.cache.relocate s.nextPage (.inr block)).fill s.nextPage (s.physmem 0) true :=
    s.cache_addZero ptr block free
  refine ⟨Nat.le_succ _, fun id hid => ?_, fun id hid => ?_, fun id hid => ?_, fun id hid => ?_,
    fun key => ?_, rfl, rfl, rfl, rfl⟩
  · exact congrArg VirtualPage.physicalPage (hold id hid)
  · exact congrArg VirtualPage.resident (hold id hid)
  · exact congrArg VirtualPage.place (hold id hid)
  · change t.cache.read id = s.cache.read id
    rw [hcache]
    exact Cache.read_congr (Cache.fill_line_of_ne hid.ne) (update_of_ne hid.ne ..) rfl
  · have hplace : (s.cache.relocate s.nextPage (.inr block)).place s.nextPage ≠ .inl key := by
      simp [Cache.relocate]
    change t.cache.view (.inl key) = s.cache.view (.inl key)
    rw [hcache, Cache.view_fill_of_ne hplace, Cache.view_relocate (State.line_of_new hnew)]

/-- A new page of a file. -/
theorem addFile (hnew : s.pages s.nextPage = .new) (ptr : PtePtr) (filename : Bytes) (block : ℕ) :
    Undisturbed s (s.addFile ptr filename block) := by
  have hold (id : PageId) (hid : id < s.nextPage) :
      (s.addFile ptr filename block).pages id = s.pages id := update_of_ne hid.ne ..
  have hcache := State.cache_addFile hnew ptr filename block
  refine ⟨Nat.le_succ _, fun id hid => ?_, fun id hid => ?_, fun id hid => ?_, fun id hid => ?_,
    fun key => ?_, rfl, rfl, rfl, rfl⟩
  · exact congrArg VirtualPage.physicalPage (hold id hid)
  · exact congrArg VirtualPage.resident (hold id hid)
  · exact congrArg VirtualPage.place (hold id hid)
  · change (s.addFile ptr filename block).cache.read id = s.cache.read id
    rw [hcache]
    exact Cache.read_congr rfl (update_of_ne hid.ne ..) rfl
  · rw [hcache, Cache.view_relocate (State.line_of_new hnew)]

/-- One more address of a page. -/
theorem attach (hblocks : (s.pages id).blocks ≠ []) (ptr : PtePtr) (extra free : List ℕ)
    (tables : Pid → ℕ → PageTableEntry) :
    Undisturbed s ((s.attach ptr id extra free).withTables tables) := by
  let t := (s.attach ptr id extra free).withTables tables
  have hcache : t.cache = s.cache := State.cache_attach hblocks ptr extra free
  refine ⟨le_rfl, fun x _ => ?_, fun x _ => ?_, fun x _ => ?_, fun x _ => ?_, fun key => ?_, rfl,
    rfl, rfl, rfl⟩
  · exact s.physicalPage_attach ptr id extra free x
  · exact s.resident_attach ptr id extra free x
  · exact congrArg (fun c : Cache PageId Place Contents => c.place x) hcache
  · exact congrArg (fun c : Cache PageId Place Contents => c.read x) hcache
  · exact congrArg (fun c : Cache PageId Place Contents => c.view (.inl key)) hcache

/-- The pages that exist are the same for the processes. -/
theorem cell (h : Undisturbed s s') (hid : id < s.nextPage) :
    (s'.pages id).cell (s'.contents id) = (s.pages id).cell (s.contents id) := by
  rw [h.contents id hid]
  exact VirtualPage.cell_of_place (h.place id hid) _

end Undisturbed

namespace Inherit

variable {child : Pid} {order : List (ℕ × PageId)}

theorem undisturbed (h : Inherit child order s s') (hready : Inheritable order s) :
    Undisturbed s s' :=
  h.relates Undisturbed.refl Undisturbed.trans
    (fun _ ptr block free tables hnew => .addZero hnew ptr block free tables)
    (fun _ ptr _ extra free tables hid => .attach hid ptr extra free tables) hready

/-- One block of the swap file is taken for every page that is backed by swap. -/
theorem nextFreeSwap (h : Inherit child order s s') (hready : Inheritable order s) :
    s'.nextFreeSwap = s.nextFreeSwap.drop (s.swapNeeded order) := by
  induction h with
  | nil => rfl
  | @zero s s' i id rest page block free tables hpage hppn hfree _ ih =>
    let t := (s.addZero ⟨child, i⟩ block free).withTables tables
    have hne (x : PageId) (hx : x ≠ s.nextPage) : t.pages x = s.pages x := update_of_ne hx ..
    have hcount : t.swapNeeded rest = s.swapNeeded rest := State.swapNeeded_congr fun e he =>
      congrArg VirtualPage.isSwap (hne e.2 (hready.lt (List.mem_cons_of_mem _ he)).ne)
    rw [ih (hready.addZero ⟨child, i⟩ block free tables), s.swapNeeded_cons,
      if_pos (hready.null id page hpage hppn), hfree, Nat.add_comm, List.drop_succ_cons]
    exact congrArg free.drop hcount
  | @share s s' i id rest extra free tables _ hextra hfree _ ih =>
    let t := (s.attach ⟨child, i⟩ id extra free).withTables tables
    have hcount : t.swapNeeded rest = s.swapNeeded rest :=
      State.swapNeeded_congr fun e _ => s.isSwap_attach ⟨child, i⟩ id extra free e.2
    rw [ih (hready.attach ⟨child, i⟩ extra free tables), s.swapNeeded_cons, ← hextra, hfree,
      List.drop_length_add_append]
    exact congrArg free.drop hcount

/-- The other addresses of the child stay as they are. -/
theorem mapped_of_notMem (h : Inherit child order s s') {va : ℕ} (hva : va ∉ order.map Prod.fst) :
    s'.mapped child va = s.mapped child va := by
  have hset (s : State) (i : ℕ) (id : PageId) (hne : va ≠ pageAddr i) :
      (s.setVA child (pageAddr i) id).mapped child va = s.mapped child va := by
    rw [State.mapped_setVA, if_neg fun heq => hne heq.2]
  induction h with
  | nil => rfl
  | @zero s _ i _ _ _ _ _ _ _ _ _ _ ih =>
    rw [List.map_cons, List.mem_cons, not_or] at hva
    exact (ih hva.2).trans (hset s i s.nextPage hva.1)
  | @share s _ i id _ _ _ _ _ _ _ _ ih =>
    rw [List.map_cons, List.mem_cons, not_or] at hva
    exact (ih hva.2).trans (hset s i id hva.1)

/-- The child has the data of the parent. -/
theorem data (h : Inherit child order s s') (hready : Inheritable order s)
    (hnodup : (order.map Prod.fst).Nodup) : ∀ e ∈ order, ∃ id, s'.mapped child e.1 = some id ∧
      s'.contents id = s.contents e.2 ∧ (s'.pages id).cell = (s.pages e.2).cell := by
  -- an address that has been entered keeps its page, which stays the same
  have hhead {s t s' : State} {i : ℕ} {x : PageId} {rest : List (ℕ × PageId)}
      (hrest : Inherit child rest t s') (hready : Inheritable rest t)
      (hnotin : pageAddr i ∉ rest.map Prod.fst) (ht : t.mapped child = (s.setVA child (pageAddr i)
        x).mapped child) (hx : x < t.nextPage) :
      ∃ id, s'.mapped child (pageAddr i) = some id ∧ s'.contents id = t.contents x ∧
        (s'.pages id).cell = (t.pages x).cell := by
    have hsame := hrest.undisturbed hready
    refine ⟨x, ?_, hsame.contents x hx, funext (VirtualPage.cell_of_place (hsame.place x hx))⟩
    rw [hrest.mapped_of_notMem hnotin, ht, State.mapped_setVA, if_pos ⟨rfl, rfl⟩]
  induction h with
  | nil => simp
  | @zero s s' i id rest page block free tables hpage hppn hfree hrest ih =>
    obtain ⟨hnotin, hnodup'⟩ := List.nodup_cons.mp (List.map_cons ▸ hnodup)
    let t := (s.addZero ⟨child, i⟩ block free).withTables tables
    have hready' : Inheritable rest t := hready.addZero ⟨child, i⟩ block free tables
    have hsame : Undisturbed s t := .addZero (hready.fresh _ le_rfl) ⟨child, i⟩ block free tables
    refine List.forall_mem_cons.mpr ⟨?_, fun e he => ?_⟩
    · have hself : t.pages s.nextPage = { VirtualPage.new with
          blocks := [block], resident := true, physicalPage := some ⟨0, true, false⟩
          isSwap := true, affiliated := [⟨child, i⟩] } := update_self ..
      obtain ⟨x, hx, hc, hcell⟩ := hhead (s := s) hrest hready' hnotin rfl (Nat.lt_succ_self _)
      refine ⟨x, hx, hc.trans ?_, hcell.trans (funext fun c => ?_)⟩
      · rw [State.contents_of_some (hready.blocks (pageAddr i, id) List.mem_cons_self) hpage, hppn,
          State.contents_of_some (by rw [hself]; simp) (by rw [hself])]
        rfl
      · rw [hself, VirtualPage.cell, VirtualPage.cell, if_pos rfl,
          if_pos (hready.null id page hpage hppn)]
    · have hlt : e.2 < s.nextPage := hready.lt (List.mem_cons_of_mem _ he)
      obtain ⟨x, hx, hc, hcell⟩ := ih hready' hnodup' e he
      exact ⟨x, hx, hc.trans (hsame.contents e.2 hlt),
        hcell.trans (funext (VirtualPage.cell_of_place (hsame.place e.2 hlt)))⟩
  | @share s s' i id rest extra free tables hplace hextra hfree hrest ih =>
    obtain ⟨hnotin, hnodup'⟩ := List.nodup_cons.mp (List.map_cons ▸ hnodup)
    let t := (s.attach ⟨child, i⟩ id extra free).withTables tables
    have hready' : Inheritable rest t := hready.attach ⟨child, i⟩ extra free tables
    have hsame : Undisturbed s t :=
      .attach (hready.blocks _ List.mem_cons_self) ⟨child, i⟩ extra free tables
    have hold (e : ℕ × PageId) (he : e ∈ (pageAddr i, id) :: rest) :
        t.contents e.2 = s.contents e.2 ∧ (t.pages e.2).cell = (s.pages e.2).cell :=
      ⟨hsame.contents e.2 (hready.lt he),
        funext (VirtualPage.cell_of_place (hsame.place e.2 (hready.lt he)))⟩
    refine List.forall_mem_cons.mpr ⟨?_, fun e he => ?_⟩
    · have hid : id < s.nextPage := hready.lt (e := (pageAddr i, id)) List.mem_cons_self
      obtain ⟨hc, hcell⟩ := hold (pageAddr i, id) List.mem_cons_self
      obtain ⟨x, hx, hc', hcell'⟩ := hhead (s := s) hrest hready' hnotin rfl hid
      exact ⟨x, hx, hc'.trans hc, hcell'.trans hcell⟩
    · obtain ⟨hc, hcell⟩ := hold e (List.mem_cons_of_mem _ he)
      obtain ⟨x, hx, hc', hcell'⟩ := ih hready' hnodup' e he
      exact ⟨x, hx, hc'.trans hc, hcell'.trans hcell⟩

end Inherit

/-! ### The result of `vm_create` -/

/-- What a successful `vm_create` does: the child has the valid addresses and the data of the
parent, and nothing changes for the pages and the processes that exist, but for the permission to
write. -/
structure Forked (parent child : Pid) (s s' : State) : Prop where
  undisturbed : Undisturbed s s'
  managed : s'.processTable = insert child s.processTable
  nextFreeSwap : s'.nextFreeSwap = s.nextFreeSwap.drop (s.swapNeeded (s.mappings parent))
  valid : ∀ va, (s'.mapped child va).isSome ↔ (s.mapped parent va).isSome
  nextFreeVA : s'.nextFreeVA child = s.nextFreeVA parent
  data : ∀ va id, s.mapped parent va = some id →
    ∃ id', s'.mapped child va = some id' ∧ s'.contents id' = s.contents id
  other : ∀ pid ≠ child, s'.mapped pid = s.mapped pid ∧ s'.nextFreeVA pid = s.nextFreeVA pid
  readable : ∀ ptr : PtePtr, ptr.pid ∈ s.processTable →
    (s'.pte ptr).readEnable = (s.pte ptr).readEnable
  current : s'.currentPid = s.currentPid ∧ s'.pageTableBaseRegister = s.pageTableBaseRegister

/-- The number of swap blocks that are needed does not depend on the order of the mappings. -/
theorem State.swapNeeded_perm {order order' : List (ℕ × PageId)} (h : order.Perm order') :
    s.swapNeeded order = s.swapNeeded order' :=
  (h.filter _).length_eq

/-- Whether a page can be read depends on where it is, and on nothing else. -/
theorem VirtualPage.bits_fst_congr {v v' : VirtualPage} (hresident : v'.resident = v.resident)
    (hpage : v'.physicalPage = v.physicalPage) : v'.bits.1 = v.bits.1 := by
  rw [VirtualPage.bits, VirtualPage.bits, hresident, hpage]
  split
  · split_ifs <;> rfl
  · rfl

/-- The permission to read is the same where the page is the same and stays where it is. -/
theorem WellFormed.readEnable_eq (h : WellFormed m n s) (h' : WellFormed m n s')
    (hsame : Undisturbed s s') (hmapped : s'.mapped ptr.pid = s.mapped ptr.pid)
    (hptr : ptr.pid ∈ s.processTable) (hptr' : ptr.pid ∈ s'.processTable) :
    (s'.pte ptr).readEnable = (s.pte ptr).readEnable := by
  have hentry : s'.entryPage ptr = s.entryPage ptr := congrFun hmapped (pageAddr ptr.index)
  cases hid : s.entryPage ptr with
  | none =>
    rw [(h.ptes.unmapped ptr hptr hid).1, (h'.ptes.unmapped ptr hptr' (hentry.trans hid)).1]
  | some id =>
    have hlt : id < s.nextPage := h.mappings.not_fresh hid
    rw [(h.pte_of_mapped hid).1, (h'.pte_of_mapped (hentry.trans hid)).1]
    exact VirtualPage.bits_fst_congr (hsame.resident id hlt) (hsame.physicalPage id hlt)

/-- A child has been created from a parent that is managed. -/
theorem Created.forked {parent child : Pid} {order : List (ℕ × PageId)}
    (h : Created parent child order s s') (hs : WellFormed m n s) (hs' : WellFormed m n s')
    (hparent : parent ∈ s.processTable) (hchild : child ∉ s.processTable)
    (horder : order.Perm (s.mappings parent)) : Forked parent child s s' := by
  obtain ⟨count, t, hvalid, hinherit, rfl⟩ := h
  rw [if_pos (Finset.mem_insert_of_mem hparent)] at hs' ⊢
  have hready : Inheritable order (s.enroll child count) := { hs.inheritable horder with }
  have hsame : Undisturbed s t := { hinherit.undisturbed hready with }
  obtain ⟨htable, hnext, hpid, hregister⟩ := hinherit.same
  have hother (pid : Pid) (hne : pid ≠ child) : t.mapped pid = s.mapped pid :=
    hinherit.mapped_of_ne hne
  have hnodup : (order.map Prod.fst).Nodup :=
    (horder.map Prod.fst).nodup_iff.mpr (s.nodup_mappings parent)
  refine ⟨hsame, htable, ?_, fun va => ?_, ?_, fun va id hva => ?_, fun pid hne =>
    ⟨hother pid hne, ?_⟩,
    fun ptr hptr => ?_, hpid, hregister⟩
  · rw [← State.swapNeeded_perm horder]
    exact hinherit.nextFreeSwap hready
  · exact hinherit.valid hs.spaces hchild horder va
  · obtain ⟨count', -, hnext', hvalid'⟩ := hs.spaces.next parent hparent
    have hcount : count = count' :=
      eq_of_forall_lt_iff fun i => (hvalid i).symm.trans (hvalid' i)
    rw [hnext, hnext', ← hcount]
    exact update_self ..
  · obtain ⟨id', hid', hcontents, -⟩ :=
      hinherit.data hready hnodup (va, id) ((State.mem_order horder).mpr hva)
    exact ⟨id', hid', hcontents⟩
  · rw [hnext]
    exact update_of_ne hne ..
  · have hne : ptr.pid ≠ child := fun heq => hchild (heq ▸ hptr)
    exact hs.readEnable_eq hs' hsame (hother ptr.pid hne) hptr
      (htable ▸ Finset.mem_insert_of_mem hptr)

/-- In every state of a run, `vm_create` succeeds for a parent that is managed and a pid that is not
in use if and only if there are enough free blocks in the swap file; otherwise nothing changes but
the page table of the child, which is not managed. -/
theorem vmCreate_all_or_nothing (hm : 2 ≤ m) (n : ℕ) (physmem swapFile : ℕ → Contents)
    (files : Bytes → ℕ → Contents) (accessible : Bytes → ℕ → Bool) (garbage : ℕ → Contents)
    {calls : List Call} {results : List Result}
    (hrun : PagerRun Promise (vmInit m n physmem swapFile files accessible garbage)
      calls results s) {parent child : Pid} {order : List (ℕ × PageId)}
    (hparent : parent ∈ s.processTable) (hchild : child ∉ s.processTable)
    (horder : order.Perm (s.mappings parent)) :
    ∃ ok s', vmCreate parent child order s = some (ok, s') ∧
      (ok = false ↔ s.nextFreeSwap.length < s.swapNeeded (s.mappings parent)) ∧
      (ok = false → s' = s.emptyTable child) ∧ (ok = true → Forked parent child s s') := by
  have hs : WellFormed m n s := hrun.wellFormed hm (fun _ _ _ h => h)
    (vmInit_wellFormed hm n physmem swapFile files accessible garbage)
  rw [← State.swapNeeded_perm horder]
  rcases vmCreate_spec hs hchild horder with ⟨hlt, heq, -⟩ | ⟨hge, s', heq, hs', hcreated⟩
  · exact ⟨false, _, heq, iff_of_true rfl hlt, fun _ => rfl, fun h => absurd h Bool.false_ne_true⟩
  · exact ⟨true, s', heq, iff_of_false (by simp) (not_lt.mpr hge), fun h => absurd h (by simp),
      fun _ => hcreated.forked hs hs' hparent hchild horder⟩

/-- A process with a page that it has written, a page of zeroes and a page that it shares. -/
theorem vmCreate_all_or_nothing_mixed : ∃ results s, PagerRun Promise
    (blankMachine 2 7 fun _ _ => false)
    [.create 0 1 [], .map 0 0, .store 0x600000000 7, .create 1 2 [(0x600000000, 0)], .map 0 0,
      .map 0 0, .store 0x600010000 8] results s ∧
    s.nextFreeSwap.length = 3 ∧ s.swapNeeded (s.mappings 1) = 3 ∧
    ∃ ok s', vmCreate 1 3 (s.mappings 1) s = some (ok, s') ∧
      (ok = false ↔ s.nextFreeSwap.length < s.swapNeeded (s.mappings 1)) ∧
      (ok = false → s' = s.emptyTable 3) ∧ (ok = true → Forked 1 3 s s') := by
  obtain ⟨⟨results, s⟩, hrun, hfree, hneeded, hparent, hchild⟩ : ∃ r, runAll exec promised
      [.create 0 1 [], .map 0 0, .store 0x600000000 7, .create 1 2 [(0x600000000, 0)], .map 0 0,
        .map 0 0, .store 0x600010000 8] (blankMachine 2 7 fun _ _ => false) = some r ∧
      r.2.nextFreeSwap.length = 3 ∧ r.2.swapNeeded (r.2.mappings 1) = 3 ∧
      1 ∈ r.2.processTable ∧ 3 ∉ r.2.processTable :=
    ⟨_, rfl, by decide +kernel⟩
  have hpager := PagerRun.of_runAll hrun
  exact ⟨results, s, hpager, hfree, hneeded,
    vmCreate_all_or_nothing (by decide) 7 _ _ _ _ _ hpager hparent hchild (List.Perm.refl _)⟩

end OsFromScratch.Pager
