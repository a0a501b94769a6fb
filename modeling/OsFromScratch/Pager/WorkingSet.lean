import OsFromScratch.Lib.ClockQueue
import OsFromScratch.Pager.Eviction
import OsFromScratch.Pager.Lookup

/-!
# Working sets

The clock keeps what is being used: a page that has been brought into memory is evicted only after
as many other pages have been used as the memory holds besides it. A working set that fits into the
memory is read in once, whatever was in the memory before, in whatever order it is used and by
however many processes.

## Main definitions

* `State.dial` — the queue, with the marks of the pages.
* `Call.uses` — the pages that a call uses.
* `Uses` — the infrastructure may make a call, and it uses pages of a set.

## Main results

* `pageIn_reaches`, `vmFault_reaches`, `translate_reaches` — what happens to the queue.
* `exec_reaches` — a call makes the clock go on, or takes pages out of the queue.
* `pagerRun_conservative` — how many pages are used before a page is evicted again.
-/

namespace OsFromScratch.Pager

open Function
open ClockQueue (Reaches Guarded keys mark)

variable {m n : ℕ} {s s' t : State} {id : PageId} {ptr : PtePtr} {W : Finset PageId}

/-! ### The dial of the clock -/

/-- The pages of the queue, in the order in which the hand of the clock reaches them, each with the
mark that says whether it has been used since it was passed. -/
def State.dial (s : State) : List (PageId × Bool) :=
  s.clockQueue.map fun id => (id, s.clocked id)

@[simp]
theorem State.keys_dial (s : State) : keys s.dial = s.clockQueue := by
  simp [keys, State.dial, Function.comp_def]

theorem State.clocked_congr {id : PageId}
    (h : (s'.pages id).physicalPage = (s.pages id).physicalPage) :
    s'.clocked id = s.clocked id := by
  rw [State.clocked, h, State.clocked]

/-- Pages are taken out of the queue. -/
theorem State.dial_sublist (hqueue : s'.clockQueue.Sublist s.clockQueue)
    (hpages : ∀ id ∈ s'.clockQueue, (s'.pages id).physicalPage = (s.pages id).physicalPage) :
    s'.dial.Sublist s.dial := by
  have hdial : s'.dial = s'.clockQueue.map fun id => (id, s.clocked id) :=
    List.map_congr_left fun id hid => by rw [State.clocked_congr (hpages id hid)]
  rw [hdial]
  exact hqueue.map _

theorem State.dial_congr (hqueue : s'.clockQueue = s.clockQueue)
    (hpages : ∀ id ∈ s.clockQueue, (s'.pages id).physicalPage = (s.pages id).physicalPage) :
    s'.dial = s.dial := by
  rw [State.dial, State.dial, hqueue]
  exact List.map_congr_left fun id hid => by rw [State.clocked_congr (hpages id hid)]

/-- A page changes, but not its place. -/
theorem State.dial_of_update {v : VirtualPage} (hqueue : s'.clockQueue = s.clockQueue)
    (hpages : s'.pages = update s.pages id v)
    (hplace : id ∈ s.clockQueue → v.physicalPage = (s.pages id).physicalPage) :
    s'.dial = s.dial := by
  refine State.dial_congr hqueue fun x hx => ?_
  rw [hpages]
  by_cases heq : x = id
  · subst heq
    rw [update_self]
    exact hplace hx
  · rw [update_of_ne heq]

@[simp]
theorem State.dial_withTables (s : State) (tables : Pid → ℕ → PageTableEntry) :
    (s.withTables tables).dial = s.dial := rfl

theorem State.dial_touchVA (s : State) (pid : Pid) : (s.touchVA pid).dial = s.dial := by
  obtain ⟨maps, heq⟩ := s.touchVA_eq pid
  rw [heq]
  rfl

theorem State.dial_allocate (hout : id ∉ s.clockQueue) (ppn : ℕ) (dirty : Bool)
    (contents : Contents) :
    (s.allocate id ⟨ppn, true, dirty⟩ contents).dial = s.dial ++ [(id, true)] := by
  have hself : (s.allocate id ⟨ppn, true, dirty⟩ contents).clocked id = true := by
    simp [State.clocked, State.allocate]
  rw [State.dial, show (s.allocate id ⟨ppn, true, dirty⟩ contents).clockQueue =
    s.clockQueue ++ [id] from rfl, List.map_append, List.map_singleton, hself]
  refine congrArg (· ++ _) (List.map_congr_left fun x hx => ?_)
  have hne : x ≠ id := fun heq => hout (heq ▸ hx)
  rw [State.clocked_congr (s := s)]
  exact congrArg VirtualPage.physicalPage (update_of_ne hne ..)

/-- A page is marked as used. -/
theorem State.dial_mark (hqueue : s'.clockQueue = s.clockQueue) (hself : s'.clocked id = true)
    (hother : ∀ x ≠ id, s'.pages x = s.pages x) : s'.dial = mark id s.dial := by
  rw [State.dial, hqueue, mark, State.dial, List.map_map]
  refine List.map_congr_left fun x _ => ?_
  by_cases heq : x = id
  · subst heq
    simp [hself]
  · simp [State.clocked, hother x heq, heq]

/-! ### The hand of the clock -/

theorem State.clocked_turnClock (s : State) (id : PageId) :
    s.turnClock.clocked id =
      if id ∈ s.clockQueue.takeWhile s.clocked then false else s.clocked id := by
  rw [State.clocked, State.turnClock]
  dsimp only
  split_ifs
  · rw [VirtualPage.unclock]
    cases (s.pages id).physicalPage <;> rfl
  · rfl

/-- The hand of the clock turns. -/
theorem State.reaches_turnClock (s : State) (hnodup : s.clockQueue.Nodup) (c : ℕ) :
    Reaches W c s.dial s.turnClock.dial := by
  let passed := s.clockQueue.takeWhile s.clocked
  let behind := s.clockQueue.dropWhile s.clocked
  have hsplit : passed ++ behind = s.clockQueue := List.takeWhile_append_dropWhile
  have hdisjoint : passed.Disjoint behind :=
    (List.nodup_append'.mp (hsplit.symm ▸ hnodup)).2.2
  have hdial : s.dial = (passed.map fun id => (id, s.clocked id)) ++
      behind.map fun id => (id, s.clocked id) := by
    rw [← List.map_append, hsplit]
    rfl
  have hturned : s.turnClock.dial = (behind.map fun id => (id, s.clocked id)) ++
      (passed.map fun id => (id, s.clocked id)).map fun e => (e.1, false) := by
    rw [State.dial, show s.turnClock.clockQueue = behind ++ passed from rfl, List.map_append,
      List.map_map]
    congr 1
    · refine List.map_congr_left fun x hx => ?_
      rw [State.clocked_turnClock, if_neg fun hmem => hdisjoint hmem hx]
    · refine List.map_congr_left fun x hx => ?_
      rw [State.clocked_turnClock, if_pos hx]
      rfl
  rw [hdial, hturned]
  refine Reaches.turn (fun e he => ?_) _
  obtain ⟨x, hx, rfl⟩ := List.mem_map.mp he
  have hclocked : s.clocked x = true := List.mem_takeWhile_imp hx
  exact hclocked

/-- The hand stops at a page that is not marked. -/
theorem State.clocked_front {victim : PageId} {rest : List PageId}
    (hqueue : s.turnClock.clockQueue = victim :: rest) : s.turnClock.clocked victim = false := by
  obtain ⟨ahead, behind, hsplit, -, ⟨-, hclocked, -⟩ | ⟨-, -, hall⟩⟩ :=
    State.turnClock_split hqueue
  · rw [State.clocked_turnClock, hclocked, ite_self]
  · rw [State.clocked_turnClock, hall, if_pos]
    rw [hsplit]
    exact List.mem_append_right _ List.mem_cons_self

theorem Reclaim.mem_queue (h : Reclaim s t) {x : PageId} (hx : x ∈ t.clockQueue) :
    x ∈ s.clockQueue := by
  rcases h with ⟨-, rfl⟩ | ⟨-, victim, rest, hqueue, rfl⟩
  · exact hx
  · exact s.turnClock_queue_perm.mem_iff.mp (List.mem_of_mem_erase hx)

/-- A physical page is found for a page that is going to be used. -/
theorem Reclaim.reaches (h : Reclaim s t) (hframes : Frames m s) (hid : id ∈ W)
    (hout : id ∉ s.clockQueue) : Reaches W (m - 1) s.dial t.dial := by
  rcases h with ⟨-, rfl⟩ | ⟨hfree, victim, rest, hqueue, rfl⟩
  · exact .refl
  · have hnodup : (victim :: rest).Nodup := hqueue ▸ hframes.turnClock.queue_nodup
    have hlength : s.turnClock.clockQueue.length + 1 = m := by
      have hsize := hframes.turnClock.size
      rwa [show s.turnClock.nextFreePPN = [] from hfree] at hsize
    have hrest : (s.turnClock.evict victim).dial =
        rest.map fun x => (x, s.turnClock.clocked x) := by
      rw [State.dial, show (s.turnClock.evict victim).clockQueue =
        s.turnClock.clockQueue.erase victim from rfl, hqueue, List.erase_cons_head]
      refine List.map_congr_left fun x hx => ?_
      have hne : x ≠ victim := fun heq => (List.nodup_cons.mp hnodup).1 (heq ▸ hx)
      rw [State.clocked_congr (s := s.turnClock)]
      exact congrArg VirtualPage.physicalPage (update_of_ne hne ..)
    have hdial : s.turnClock.dial = (victim, false) :: (s.turnClock.evict victim).dial := by
      rw [hrest, State.dial, hqueue, List.map_cons, State.clocked_front hqueue]
    have hturn : Reaches W (m - 1) s.dial s.turnClock.dial :=
      s.reaches_turnClock hframes.queue_nodup (m - 1)
    rw [hdial] at hturn
    refine hturn.tail (.evict hid ?_ ?_)
    · rw [← hdial, State.keys_dial, s.turnClock_queue_perm.mem_iff]
      exact hout
    · rw [← hdial, State.dial, List.length_map]
      omega

/-! ### Faults -/

/-- The state that a computation ends with. -/
theorem eq_of_some_pair {α : Type*} {a b : α} (h : some (a, s) = some (b, s')) : s' = s :=
  (Prod.mk.inj (Option.some.inj h)).2.symm

theorem updatePTEs_dial (h : updatePTEs id s = some s') : s'.dial = s.dial := by
  obtain ⟨⟨tables, rfl⟩, -⟩ := updatePTEs_pte h
  rfl

theorem assertStructureConsistency_eq (h : assertStructureConsistency s = some s') : s' = s := by
  rw [assertStructureConsistency] at h
  split_ifs at h
  exact (Option.some.inj h).symm

/-- The end of a fault marks the page. -/
theorem allowAccess_dial {writeFlag ok : Bool} (h : allowAccess id writeFlag s = some (ok, s')) :
    s'.dial = mark id s.dial := by
  rw [allowAccess] at h
  obtain ⟨page, -, h⟩ := Option.bind_eq_some_iff.mp h
  split_ifs at h
  obtain ⟨s₁, hupdate, h⟩ := Option.bind_eq_some_iff.mp h
  obtain ⟨s₂, hassert, hend⟩ := Option.bind_eq_some_iff.mp h
  obtain rfl := eq_of_some_pair hend
  rw [assertStructureConsistency_eq hassert, updatePTEs_dial hupdate]
  refine State.dial_mark (s := s) rfl (by simp [State.clocked, State.setPage]) fun x hx => ?_
  exact (update_of_ne hx ..).trans (update_of_ne hx ..)

/-- A page gets a physical page and is used. -/
private theorem allocate_reaches (hid : id ∈ W) (hout : id ∉ t.clockQueue) (capacity : ℕ)
    {ppn : ℕ} {contents : Contents} {tables : Pid → ℕ → PageTableEntry} {writeFlag ok : Bool}
    (h : allowAccess id writeFlag ((t.allocate id ⟨ppn, true, false⟩ contents).withTables tables) =
      some (ok, s')) : Reaches W capacity t.dial s'.dial := by
  have henter : ClockQueue.Step W capacity t.dial (t.dial ++ [(id, true)]) :=
    .enter hid (by rwa [State.keys_dial])
  rw [allowAccess_dial h, State.dial_withTables, State.dial_allocate hout]
  exact (Relation.ReflTransGen.single henter).tail (.use _ hid)

/-- A page is brought into memory, or its file cannot be read. -/
theorem pageIn_reaches (h : WellFormed m n s) (hm : 2 ≤ m) (hmapped : (s.pages id).affiliated ≠ [])
    (hid : id ∈ W) {writeFlag ok : Bool} (heq : pageIn id writeFlag s = some (ok, s')) :
    Reaches W (m - 1) s.dial s'.dial := by
  rw [pageIn] at heq
  obtain ⟨onNullPage, hnull, heq⟩ := Option.bind_eq_some_iff.mp heq
  obtain ⟨⟨good, s₁⟩, hbring, hend⟩ := Option.bind_eq_some_iff.mp heq
  dsimp only at hend
  cases hplace : (s.pages id).physicalPage with
  | none =>
    have hres : (s.pages id).resident = false := by rw [h.frames.resident, hplace]; rfl
    have hout : id ∉ s.clockQueue := by
      rw [h.frames.mem_queue, VirtualPage.frame, hplace]
      simp
    obtain ⟨t, ppn, rest, tables, hreclaim, hfree, hptes, hgood, hbad⟩ :=
      bringIn_absent h hm hmapped hplace
    have hturn := hreclaim.reaches h.frames hid hout
    have hout' : id ∉ t.clockQueue := fun hmem => hout (hreclaim.mem_queue hmem)
    rw [if_pos (Or.inl hres)] at hbring
    by_cases hread : s.Readable id
    · obtain ⟨rfl, rfl⟩ := Prod.mk.inj (Option.some.inj ((hgood hread).symm.trans hbring))
      exact hturn.trans (allocate_reaches hid hout' _ hend)
    · -- the page leaves the queue again
      obtain ⟨rfl, rfl⟩ := Prod.mk.inj (Option.some.inj ((hbad hread).symm.trans hbring))
      have hmoves := hreclaim.moves False False
      have hpage : t.pages id = s.pages id := hreclaim.page_eq hout
      obtain ⟨tables', hgive, -⟩ := giveUp_spec (hmoves.core h.toCore) hfree (hpage ▸ hmapped)
        (hpage ▸ hplace) (fun hr => hread ((hmoves.relocation.readable id).mp hr)) { hptes with }
      rw [if_neg Bool.false_ne_true, hgive] at hend
      obtain rfl := eq_of_some_pair hend
      exact hturn
  | some page =>
    have hres : (s.pages id).resident = true := by rw [h.frames.resident, hplace]; rfl
    have hnull' : onNullPage = decide (page.ppn = 0) := by
      rw [VirtualPage.onNullPage, if_pos hres, hplace] at hnull
      exact (Option.some.inj hnull).symm
    subst hnull'
    simp only [hres, Bool.true_eq_false, false_or, decide_eq_true_eq] at hbring
    by_cases hzero : page.ppn = 0
    · have hout : id ∉ s.clockQueue := by
        rw [h.frames.mem_queue, not_not, VirtualPage.frame_eq_nil_iff]
        intro page' hpage'
        rw [Option.mem_unique hpage' hplace]
        exact hzero
      obtain ⟨t, ppn, rest, tables, hreclaim, -, -, hgood⟩ := bringIn_null h hm hmapped hplace hzero
      rw [if_pos hzero, hgood] at hbring
      obtain ⟨rfl, rfl⟩ := Prod.mk.inj (Option.some.inj hbring)
      have hout' : id ∉ t.clockQueue := fun hmem => hout (hreclaim.mem_queue hmem)
      exact (hreclaim.reaches h.frames hid hout).trans (allocate_reaches hid hout' _ hend)
    · rw [if_neg hzero] at hbring
      obtain ⟨rfl, rfl⟩ := Prod.mk.inj (Option.some.inj hbring)
      rw [if_pos rfl] at hend
      rw [allowAccess_dial hend]
      exact .single (.use _ hid)

/-- A page of the current process is made readable. -/
theorem readable_reaches (h : WellFormed m n s) (hm : 2 ≤ m) {addr : ℕ}
    (hva : s.mapped s.currentPid (pageStart addr) = some id) (hid : id ∈ W) {ok : Bool}
    (heq : (if (s.pages id).bits.1 = true then some (true, s) else vmFaultRead addr s) =
      some (ok, s')) : Reaches W (m - 1) s.dial s'.dial := by
  split_ifs at heq
  · obtain rfl := eq_of_some_pair heq
    exact .refl
  · rw [vmFaultRead, State.touchVA_of_mapped hva] at heq
    simp only [show s.mapped s.currentPid (addr - addr % vmPagesize) = some id from hva] at heq
    exact pageIn_reaches h hm (h.toCore.affiliated_ne_nil hva) hid heq

/-- The current process gets a copy of its own. -/
theorem Copy.reaches (h : Copy s s' ptr id) (hs : WellFormed m n s) (hnew : s.nextPage ∈ W) :
    Reaches W (m - 1) s.dial s'.dial := by
  obtain ⟨block, t, ppn, rest, tables, hblock, hreclaim, -, rfl⟩ := h.result
  have hid := hs.mappings.not_fresh h.mapped
  have hcore := hs.toCore.split h.mapped h.swap hblock h.shared
  have hout : s.nextPage ∉ s.clockQueue := fun hmem =>
    lt_irrefl _ (hs.frames.not_fresh hs.mappings hmem)
  have hdial : (s.split ptr id block).dial = s.dial := by
    refine State.dial_congr rfl fun x hx => ?_
    have hne : x ≠ s.nextPage := fun heq => hout (heq ▸ hx)
    refine (congrArg VirtualPage.physicalPage (update_of_ne hne ..)).trans ?_
    by_cases heq : x = id
    · subst heq
      rw [update_self]
    · rw [update_of_ne heq]
  have hout' : s.nextPage ∉ t.clockQueue := fun hmem => hout (hreclaim.mem_queue hmem)
  rw [← hdial]
  refine (hreclaim.reaches hcore.frames hnew hout).tail ?_
  rw [State.dial_withTables, State.dial_allocate hout']
  exact .enter hnew (by rwa [State.keys_dial])

/-! ### Calls -/

/-- The pages that an access of the current process uses: the page that the address is mapped to,
unless it is a page of zeroes that is only read, and the copy that a write to a shared page
makes. -/
def State.accessed (s : State) (addr : ℕ) (writeFlag : Bool) : Set PageId :=
  {x | ∃ id, s.mapped s.currentPid (pageStart addr) = some id ∧
    (x = id ∧ (∀ page ∈ (s.pages id).physicalPage, page.ppn = 0 → writeFlag = true) ∨
      x = s.nextPage ∧ writeFlag = true ∧ 1 < (s.pages id).blocks.length)}

/-- The pages that a string of the current process is read from. -/
def State.stringPages (s : State) (bytes : ℕ → Option UInt8) (start : ℕ) : Set PageId :=
  {x | ∃ k, (∀ j < k, ∃ c, bytes (start + j) = some c ∧ c ≠ 0) ∧
    s.mapped s.currentPid (pageStart (start + k)) = some x}

/-- The pages that a call uses. -/
def Call.uses (s : State) : Call → Set PageId
  | .map theirFilename _ =>
    {x | theirFilename ≠ 0 ∧ x ∈ s.stringPages (s.memory.byte s.currentPid) theirFilename}
  | .fault addr writeFlag => s.accessed addr writeFlag
  | .load addr => s.accessed addr false
  | .store addr _ => s.accessed addr true
  | _ => ∅

/-- A call of `vm_fault` for an access that is not allowed. -/
theorem vmFault_reaches (h : WellFormed m n s) (hm : 2 ≤ m) (hrun : s.Running) {addr : ℕ}
    {writeFlag ok : Bool} (hdenied : s.Denied (pageStart addr) writeFlag)
    (hW : ∀ x ∈ s.accessed addr writeFlag, x ∈ W) (heq : vmFault addr writeFlag s = some (ok, s')) :
    Reaches W (m - 1) s.dial s'.dial := by
  rw [vmFault, show addr - addr % vmPagesize = pageStart addr from rfl] at heq
  cases hva : s.mapped s.currentPid (pageStart addr) with
  | none =>
    have hva' : (s.touchVA s.currentPid).mapped (s.touchVA s.currentPid).currentPid
        (pageStart addr) = none := by
      rw [State.mapped_touchVA, State.currentPid_touchVA]
      exact hva
    simp only [hva'] at heq
    obtain ⟨t, hassert, hend⟩ := Option.bind_eq_some_iff.mp heq
    obtain rfl := eq_of_some_pair hend
    rw [assertStructureConsistency_eq hassert, State.dial_touchVA]
  | some id =>
    have hmapped := h.toCore.affiliated_ne_nil hva
    have hid : id ∈ W := by
      refine hW id ⟨id, hva, Or.inl ⟨rfl, fun page hpage hzero => ?_⟩⟩
      -- a page of zeroes can be read
      by_contra hw
      have hbits := hdenied id hva
      rw [if_neg hw] at hbits
      have hclocked := (h.frames.null_page id page hpage hzero).2.2.1
      rw [h.not_clocked hbits hpage] at hclocked
      exact Bool.false_ne_true hclocked
    rw [State.touchVA_of_mapped hva] at heq
    simp only [hva] at heq
    split_ifs at heq with hcow
    · obtain ⟨rfl, hshared⟩ := hcow
      have hnew : s.nextPage ∈ W := hW _ ⟨id, hva, Or.inr ⟨rfl, rfl, hshared⟩⟩
      simp only [State.frontReadable_eq h hmapped, Option.bind_eq_bind, Option.bind_some] at heq
      obtain ⟨⟨good, s₁⟩, hread, hend⟩ := Option.bind_eq_some_iff.mp heq
      have hfirst := readable_reaches h hm hva hid hread
      obtain ⟨good', s₁', hread', hwf, hmoves, -, hbits⟩ :=
        readable_spec h hm False hva (fun hkeep : False => hkeep.elim)
      obtain ⟨rfl, rfl⟩ := Prod.mk.inj (Option.some.inj (hread.symm.trans hread'))
      dsimp only at hend
      split_ifs at hend with hgood
      · have hreloc := hmoves.relocation
        have hva₁ : s₁.mapped s₁.currentPid (pageStart addr) = some id := by
          rw [hreloc.mapped, hreloc.currentPid]
          exact hva
        obtain ⟨t, ptr, hcopy, -, hrel, -⟩ := copyOnWrite_spec hwf hm
          (by rw [hreloc.register, hreloc.currentPid]; exact hrun.2) hva₁
          (by rw [hreloc.blocks]; exact hshared) (hbits hgood)
        rw [hcopy] at hend
        obtain rfl := eq_of_some_pair hend
        exact hfirst.trans (hrel.reaches hwf (hreloc.nextPage ▸ hnew))
      · obtain rfl := eq_of_some_pair hend
        exact hfirst
    · exact pageIn_reaches h hm hmapped hid heq

/-- The page table entry allows the access, or `vm_fault` is called. -/
theorem access_reaches (h : WellFormed m n s) (hm : 2 ≤ m) (hrun : s.Running) {addr : ℕ}
    (haddr : InArena addr) {writeFlag : Bool} (hW : ∀ x ∈ s.accessed addr writeFlag, x ∈ W)
    {place : Option ℕ} (heq : access addr writeFlag s = some (place, s')) :
    Reaches W (m - 1) s.dial s'.dial := by
  obtain ⟨entry, hentry, -⟩ := h.allows_iff hrun haddr writeFlag
  rw [access] at heq
  simp only [hentry, Option.bind_eq_bind, Option.bind_some] at heq
  split_ifs at heq with hallows
  · obtain rfl := eq_of_some_pair heq
    exact .refl
  · have hrefused : (Call.fault addr writeFlag).Refused s := fun _ entry' hentry' => by
      rw [hentry, Option.mem_some_iff] at hentry'
      rw [← hentry']
      simpa using hallows
    obtain ⟨⟨ok, s₁⟩, hfault, hend⟩ := Option.bind_eq_some_iff.mp heq
    have hfaulted := vmFault_reaches h hm hrun (hrefused.denied h hrun) hW hfault
    dsimp only at hend
    split_ifs at hend with hok
    · obtain ⟨entry', -, hend⟩ := Option.bind_eq_some_iff.mp hend
      split_ifs at hend
      obtain rfl := eq_of_some_pair hend
      exact hfaulted
    · obtain rfl := eq_of_some_pair hend
      exact hfaulted

/-! ### File names -/

theorem State.mem_stringPages {bytes : ℕ → Option UInt8} {va : ℕ} {x : PageId}
    (h : s.mapped s.currentPid (pageStart va) = some x) : x ∈ s.stringPages bytes va :=
  ⟨0, by simp, h⟩

theorem State.stringPages_succ {bytes : ℕ → Option UInt8} {va : ℕ} {c : UInt8}
    (hc : bytes va = some c) (hne : c ≠ 0) : s.stringPages bytes (va + 1) ⊆
      s.stringPages bytes va := by
  rintro x ⟨k, hbytes, hx⟩
  refine ⟨k + 1, fun j hj => ?_, by rwa [← Nat.add_assoc, Nat.add_right_comm]⟩
  cases j with
  | zero => exact ⟨c, hc, hne⟩
  | succ j =>
    rw [← Nat.add_assoc, Nat.add_right_comm]
    exact hbytes j (Nat.lt_of_succ_lt_succ hj)

theorem State.stringPages_congr {bytes : ℕ → Option UInt8} {va : ℕ} (hmapped : s'.mapped = s.mapped)
    (hcurrent : s'.currentPid = s.currentPid) :
    s'.stringPages bytes va = s.stringPages bytes va := by
  rw [State.stringPages, hmapped, hcurrent, State.stringPages]

theorem locate_reaches (h : WellFormed m n s) (hm : 2 ≤ m) {va : ℕ}
    (hW : ∀ x, s.mapped s.currentPid (pageStart va) = some x → x ∈ W) {place : Option (ℕ × ℕ)}
    (heq : locate va s = some (place, s')) : Reaches W (m - 1) s.dial s'.dial := by
  rw [locate, show va - va % vmPagesize = pageStart va from rfl] at heq
  cases hva : s.mapped s.currentPid (pageStart va) with
  | none =>
    have hva' : (s.touchVA s.currentPid).mapped (s.touchVA s.currentPid).currentPid (pageStart va) =
        none := by
      rw [State.mapped_touchVA, State.currentPid_touchVA]
      exact hva
    simp only [hva'] at heq
    obtain rfl := eq_of_some_pair heq
    rw [State.dial_touchVA]
  | some id =>
    rw [State.touchVA_of_mapped hva] at heq
    simp only [hva, State.frontReadable_eq h (h.toCore.affiliated_ne_nil hva), Option.bind_eq_bind,
      Option.bind_some] at heq
    obtain ⟨⟨ok, s₁⟩, hread, hend⟩ := Option.bind_eq_some_iff.mp heq
    have hfirst := readable_reaches h hm hva (hW id hva) hread
    dsimp only at hend
    split_ifs at hend
    · obtain ⟨x, -, hend⟩ := Option.bind_eq_some_iff.mp hend
      obtain ⟨page, -, hend⟩ := Option.bind_eq_some_iff.mp hend
      obtain rfl := eq_of_some_pair hend
      exact hfirst
    · obtain rfl := eq_of_some_pair hend
      exact hfirst

/-- The loop of `translate_from_other_addr_space` uses the pages that the string runs into. -/
theorem copyName_reaches (hm : 2 ≤ m) (bytes : ℕ → Option UInt8) (start fuel : ℕ)
    {name : Option Bytes} : ∀ (s : State) (va ppn : ℕ) (running : Bytes), WellFormed m n s →
      s.Running → s.At va ppn → start ≤ va →
      (∀ t, Moves True False s t → WellFormed m n t → t.Shows bytes) →
      (∀ x ∈ s.stringPages bytes va, x ∈ W) →
      copyName (pageStart start + vmPagesize) fuel va ppn (va % vmPagesize) running s =
        some (name, s') → Reaches W (m - 1) s.dial s'.dial := by
  -- the bytes that are read are those of the string, whatever is moved on the way
  induction fuel with
  | zero => intro s va ppn running _ _ _ _ _ _ heq; exact absurd heq (by simp [copyName])
  | succ fuel ih =>
    intro s va ppn running h hrun hat hstart hshows hW heq
    rw [copyName] at heq
    have hbyte := hat.bytes (hshows s .refl h)
    split_ifs at heq with hzero hend
    · obtain rfl := eq_of_some_pair heq
      exact .refl
    · have hW' (x : PageId) (hx : x ∈ s.stringPages bytes (va + 1)) : x ∈ W :=
        hW x (State.stringPages_succ hbyte hzero hx)
      obtain ⟨place, s₁, hlocate, hwf₁, hmoves, -, hplace⟩ :=
        locate_spec h hm hrun (va + 1) True (fun hkeep : False => hkeep.elim)
      rw [hat.touchVA] at hmoves
      have hfirst := locate_reaches h hm (fun x hx => hW' x (State.mem_stringPages hx)) hlocate
      simp only [hlocate, Option.bind_eq_bind, Option.bind_some] at heq
      cases place with
      | none =>
        obtain rfl := eq_of_some_pair heq
        exact hfirst
      | some place =>
        obtain ⟨hoffset, hat₁⟩ := hplace place.1 place.2 rfl
        have hreloc := hmoves.relocation
        dsimp only at heq
        rw [hoffset] at heq
        refine hfirst.trans (ih s₁ (va + 1) place.1 _ hwf₁ (hmoves.running hrun) hat₁ (by omega)
          (fun t ht hwf => hshows t (hmoves.trans ht) hwf) (fun x hx => ?_) heq)
        exact hW' x (State.stringPages_congr hreloc.mapped hreloc.currentPid ▸ hx)
    · have hW' (x : PageId) (hx : x ∈ s.stringPages bytes (va + 1)) : x ∈ W :=
        hW x (State.stringPages_succ hbyte hzero hx)
      obtain ⟨hat₁, hoffset⟩ := hat.succ hstart (not_le.mp hend)
      rw [hoffset] at heq
      exact ih s (va + 1) ppn _ h hrun hat₁ (by omega) hshows hW' heq

/-- `translate_from_other_addr_space` uses the pages that the file name is read from. -/
theorem translate_reaches (h : WellFormed m n s) (hm : 2 ≤ m) (hm' : m ≤ 2 ^ 20)
    (hcoherent : Coherent m n s) (hrun : s.Running) {start : ℕ}
    (hW : ∀ x ∈ s.stringPages (s.memory.byte s.currentPid) start, x ∈ W) {name : Option Bytes}
    (heq : translateFromOtherAddrSpace start s = some (name, s')) :
    Reaches W (m - 1) s.dial s'.dial := by
  obtain ⟨place, s₁, hlocate, hwf₁, hmoves, -, hplace⟩ :=
    locate_spec h hm hrun start True (fun hkeep : False => hkeep.elim)
  have hfirst := locate_reaches h hm (fun x hx => hW x (State.mem_stringPages hx)) hlocate
  rw [translateFromOtherAddrSpace] at heq
  simp only [hlocate, Option.bind_eq_bind, Option.bind_some] at heq
  cases place with
  | none =>
    obtain rfl := eq_of_some_pair heq
    exact hfirst
  | some place =>
    obtain ⟨hoffset, hat₁⟩ := hplace place.1 place.2 rfl
    have hreloc := hmoves.relocation
    have hmapped : s₁.mapped = s.mapped := hreloc.mapped.trans (s.mapped_touchVA s.currentPid)
    have hcurrent : s₁.currentPid = s.currentPid :=
      hreloc.currentPid.trans (s.currentPid_touchVA s.currentPid)
    dsimp only at heq
    rw [hoffset] at heq
    refine hfirst.trans (copyName_reaches hm (s.memory.byte s.currentPid) start _ s₁ start place.1
      [] hwf₁ (hmoves.running hrun.touchVA) hat₁ le_rfl (fun t ht _ => ?_) (fun x hx => ?_) heq)
    · have hshows := (hcoherent.touchVA hrun h).shows hm' (hmoves.trans ht)
      rwa [s.memory_touchVA, s.currentPid_touchVA] at hshows
    · exact hW x (State.stringPages_congr hmapped hcurrent ▸ hx)

/-! ### Mappings -/

theorem WellFormed.not_mem_queue (h : WellFormed m n s) : s.nextPage ∉ s.clockQueue :=
  fun hmem => lt_irrefl _ (h.frames.not_fresh h.mappings hmem)

theorem mapFile_dial (h : WellFormed m n s) {va block : ℕ} {filename : Bytes}
    (heq : mapFile va filename block s = some s') : s'.dial = s.dial := by
  rw [mapFile] at heq
  obtain ⟨base, -, heq⟩ := Option.bind_eq_some_iff.mp heq
  split at heq
  · rw [updatePTEs_dial heq]
    exact State.dial_of_update (s := s) rfl rfl fun _ => rfl
  · rw [updatePTEs_dial heq]
    exact State.dial_of_update (s := s) rfl rfl fun hmem => absurd hmem h.not_mem_queue

theorem makeSwapToNullpage_dial (h : WellFormed m n s) {va : ℕ} {pid : Pid} {ok : Bool}
    (heq : makeSwapToNullpage va pid s = some (ok, s')) : s'.dial = s.dial := by
  rw [makeSwapToNullpage] at heq
  split at heq
  · obtain ⟨t, hassert, hend⟩ := Option.bind_eq_some_iff.mp heq
    obtain rfl := eq_of_some_pair hend
    rw [assertStructureConsistency_eq hassert]
  · split_ifs at heq
    obtain ⟨t, hupdate, hend⟩ := Option.bind_eq_some_iff.mp heq
    obtain rfl := eq_of_some_pair hend
    rw [updatePTEs_dial hupdate]
    exact State.dial_of_update (s := s) rfl rfl fun hmem => absurd hmem h.not_mem_queue

theorem mapAddress_reaches (h : WellFormed m n s) (hm : 2 ≤ m) (hm' : m ≤ 2 ^ 20)
    (hcoherent : Coherent m n s) (hrun : s.Running) {va theirFilename block : ℕ}
    (hW : ∀ x ∈ (Call.map theirFilename block).uses s, x ∈ W) {ok : Bool}
    (heq : mapAddress va theirFilename block s = some (ok, s')) :
    Reaches W (m - 1) s.dial s'.dial := by
  rw [mapAddress] at heq
  split_ifs at heq with hname
  · obtain ⟨name, s₁, htranslate, hwf₁, -⟩ := translateFromOtherAddrSpace_spec h hm hrun
      theirFilename True (fun hkeep : False => hkeep.elim)
    have hfirst := translate_reaches h hm hm' hcoherent hrun (fun x hx => hW x ⟨hname, hx⟩)
      htranslate
    simp only [htranslate, Option.bind_eq_bind, Option.bind_some] at heq
    cases name with
    | none =>
      obtain rfl := eq_of_some_pair heq
      exact hfirst
    | some filename =>
      obtain ⟨t, hmap, hend⟩ := Option.bind_eq_some_iff.mp heq
      obtain rfl := eq_of_some_pair hend
      rwa [mapFile_dial hwf₁ hmap]
  · rw [makeSwapToNullpage_dial h heq]

theorem vmMap_reaches (h : WellFormed m n s) (hm : 2 ≤ m) (hm' : m ≤ 2 ^ 20)
    (hcoherent : Coherent m n s) (hrun : s.Running) {theirFilename block : ℕ}
    (hW : ∀ x ∈ (Call.map theirFilename block).uses s, x ∈ W) {result : Option ℕ}
    (heq : vmMap theirFilename block s = some (result, s')) :
    Reaches W (m - 1) s.dial s'.dial := by
  obtain ⟨i, -, hnext, -⟩ := h.spaces.next s.currentPid hrun.1
  have htouch : s.touchNextVA s.currentPid = s := by
    rw [State.touchNextVA, if_neg (by rw [hnext]; simp)]
  rw [vmMap, htouch] at heq
  simp only [hnext, Option.bind_eq_bind, Option.bind_some] at heq
  split_ifs at heq
  · obtain ⟨t, hassert, hend⟩ := Option.bind_eq_some_iff.mp heq
    obtain rfl := eq_of_some_pair hend
    rw [assertStructureConsistency_eq hassert]
  · obtain ⟨⟨ok, s₁⟩, hmap, hend⟩ := Option.bind_eq_some_iff.mp heq
    have hfirst := mapAddress_reaches h hm hm' hcoherent hrun hW hmap
    dsimp only at hend
    split_ifs at hend
    · obtain ⟨t, hassert, hend⟩ := Option.bind_eq_some_iff.mp hend
      obtain rfl := eq_of_some_pair hend
      rw [assertStructureConsistency_eq hassert]
      exact hfirst
    · obtain rfl := eq_of_some_pair hend
      exact hfirst

/-! ### Processes -/

/-- The pages that a child gets are not moved. -/
theorem Inherit.dial {child : Pid} {order : List (ℕ × PageId)} (h : Inherit child order s s')
    (hlt : ∀ x ∈ s.clockQueue, x < s.nextPage) : s'.dial = s.dial := by
  induction h with
  | nil s => rfl
  | @zero s s' i id rest page block free tables _ _ _ _ ih =>
    have hfirst : ((s.addZero ⟨child, i⟩ block free).withTables tables).dial = s.dial :=
      State.dial_of_update (s := s) rfl rfl fun hmem => absurd (hlt _ hmem) (lt_irrefl _)
    exact (ih fun x hx => Nat.lt_succ_of_lt (hlt x hx)).trans hfirst
  | @share s s' i id rest extra free tables _ _ _ _ ih =>
    have hfirst : ((s.attach ⟨child, i⟩ id extra free).withTables tables).dial = s.dial :=
      State.dial_of_update (s := s) rfl rfl fun _ => rfl
    exact (ih hlt).trans hfirst

/-- The pages that are destroyed leave the queue. -/
theorem Drop.dial {pid : Pid} {order : List (ℕ × PageId)} (h : Drop pid order s s')
    (hnodup : s.clockQueue.Nodup) : s'.dial.Sublist s.dial := by
  induction h with
  | nil s => exact .refl _
  | @cons s s' i id rest tables _ ih =>
    let v := (s.pages id).detach ⟨pid, i⟩
    have hqueue : (s.detach ⟨pid, i⟩ id).clockQueue.Sublist s.clockQueue := by
      change (if v.Released then s.clockQueue.erase id else s.clockQueue).Sublist s.clockQueue
      split_ifs
      · exact List.erase_sublist
      · exact .refl _
    have hfirst : ((s.detach ⟨pid, i⟩ id).withTables tables).dial.Sublist s.dial := by
      refine State.dial_sublist hqueue fun x hx => ?_
      change x ∈ (if v.Released then s.clockQueue.erase id else s.clockQueue) at hx
      change (update s.pages id _ x).physicalPage = _
      by_cases heq : x = id
      · subst heq
        rw [update_self]
        split_ifs at hx ⊢ with hreleased
        · exact absurd hx (hnodup.not_mem_erase)
        · rfl
      · rw [update_of_ne heq]
    exact (ih (hqueue.nodup hnodup)).trans hfirst

/-- A call makes the clock go on, or it takes pages out of the queue. -/
theorem exec_reaches (h : WellFormed m n s) (hm : 2 ≤ m) (hm' : m ≤ 2 ^ 20)
    (hcoherent : Coherent m n s) {calls : List Call} {call : Call} {result : Result}
    (hcall : Coherently calls s call) (hW : ∀ x ∈ call.uses s, x ∈ W)
    (hexec : exec call s = some (result, s')) :
    Reaches W (m - 1) s.dial s'.dial ∨
      (∃ order, call = .destroy order) ∧ s'.dial.Sublist s.dial := by
  obtain ⟨hpromised, hrefused, -⟩ := hcall
  obtain ⟨-, heffect⟩ := Effect.of_exec h hm hpromised (fun hstrict : False => hstrict.elim)
    (fun hkeep : False => hkeep.elim) hexec
  cases call with
  | create parent child order =>
    refine Or.inl ?_
    cases heffect with
    | refuse tables => exact .refl
    | create _ hcreated =>
      obtain ⟨count, t, -, hinherit, rfl⟩ := hcreated
      have hdial := hinherit.dial fun x hx => h.frames.not_fresh h.mappings hx
      split_ifs
      · rw [hdial]
        exact .refl
      · change Reaches W (m - 1) s.dial t.dial
        rw [hdial]
        exact .refl
  | switch pid =>
    cases heffect with
    | switch => exact Or.inl .refl
  | map theirFilename block =>
    obtain ⟨r, hmap, hend⟩ := Option.map_eq_some_iff.mp hexec
    obtain ⟨-, rfl⟩ := Prod.mk.inj hend
    exact Or.inl (vmMap_reaches h hm hm' hcoherent hpromised hW hmap)
  | destroy order =>
    refine Or.inr ⟨⟨order, rfl⟩, ?_⟩
    cases heffect with
    | destroy hdrop =>
      rw [← s.dial_touchVA s.currentPid]
      refine hdrop.dial ?_
      obtain ⟨maps, heq⟩ := s.touchVA_eq s.currentPid
      rw [heq]
      exact h.frames.queue_nodup
  | fault addr writeFlag =>
    obtain ⟨r, hfault, hend⟩ := Option.map_eq_some_iff.mp hexec
    obtain ⟨-, rfl⟩ := Prod.mk.inj hend
    exact Or.inl (vmFault_reaches h hm hpromised (hrefused.denied h hpromised) hW hfault)
  | load addr =>
    obtain ⟨r, haccess, hend⟩ := Option.map_eq_some_iff.mp hexec
    obtain ⟨-, rfl⟩ := Prod.mk.inj hend
    exact Or.inl (access_reaches h hm hpromised.1 hpromised.2 hW haccess)
  | store addr byte =>
    obtain ⟨⟨place, t⟩, haccess, hend⟩ := Option.map_eq_some_iff.mp hexec
    obtain ⟨-, rfl⟩ := Prod.mk.inj hend
    have hreaches := access_reaches h hm hpromised.1 hpromised.2 hW haccess
    cases place with
    | none => exact Or.inl hreaches
    | some ppn => exact Or.inl hreaches
  | setAccessible accessible =>
    cases heffect with
    | setAccessible => exact Or.inl .refl

/-! ### Runs -/

/-- The infrastructure may make the call, and the pages that it uses are in a set. -/
def Uses (W : Finset PageId) (calls : List Call) (s : State) (call : Call) : Prop :=
  Coherently calls s call ∧ ∀ x ∈ call.uses s, x ∈ W

/-- What holds of a page that was not in memory at first, as long as the pages that are used fit
into the memory together. -/
theorem Uses.guarded {calls : List Call} {call : Call} {result : Result} {p : PageId}
    (hcall : Uses W calls s call) (hm : 2 ≤ m) (hm' : m ≤ 2 ^ 20) (hW : W.card < m)
    (h : (WellFormed m n s ∧ Coherent m n s) ∧ Guarded W p s.dial)
    (hexec : exec call s = some (result, s')) :
    ((WellFormed m n s' ∧ Coherent m n s') ∧ Guarded W p s'.dial) ∧
      (p ∈ s.clockQueue → p ∈ s'.clockQueue ∨ ∃ order, call = .destroy order) := by
  obtain ⟨⟨hs, hcoherent⟩, hguarded⟩ := h
  have hrun : PagerRun Coherently s [call] [result] s' := Runs.nil.snoc hcall.1 hexec
  have hs' := hrun.coherent hm hm' hs hcoherent
  rcases exec_reaches hs hm hm' hcoherent hcall.1 hcall.2 hexec with hreaches | ⟨hdestroy, hsub⟩
  · obtain ⟨hguarded', hstay⟩ := hguarded.reaches (Nat.le_sub_one_of_lt hW) hreaches
    rw [State.keys_dial, State.keys_dial] at hstay
    exact ⟨⟨hs', hguarded'⟩, fun hp => Or.inl (hstay hp)⟩
  · exact ⟨⟨hs', hguarded.sublist hsub⟩, fun _ => Or.inr hdestroy⟩

end OsFromScratch.Pager
