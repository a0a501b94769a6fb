import OsFromScratch.Pager.Mapping

/-!
# Creating processes

`vm_create` gives a new process the mappings of its parent, and `vm_switch` makes a process the
current one.

## Main definitions

* `Inherit` — the mappings of the parent are given to the child one by one.
* `Created` — a child has got the mappings of its parent.

## Main results

* `vmSwitch_spec`, `vmCreate_spec` — what the two functions do.
-/

namespace OsFromScratch.Pager

open Function

variable {m n : ℕ} {M : PtePtr → Option PageId} {L : Set Pid} {s s' : State} {id : PageId}
  {ptr : PtePtr}

/-! ### The current process -/

theorem vmSwitch_spec (h : WellFormed m n s) {pid : Pid} (hpid : pid ∈ s.processTable) :
    vmSwitch pid s = some { s with currentPid := pid, pageTableBaseRegister := some pid } ∧
      WellFormed m n { s with currentPid := pid, pageTableBaseRegister := some pid } := by
  have hwf : WellFormed m n { s with currentPid := pid, pageTableBaseRegister := some pid } :=
    ⟨⟨{ h.mappings with }, { h.frames with }, { h.spaces with }, h.queued⟩, { h.ptes with }⟩
  refine ⟨?_, hwf⟩
  rw [vmSwitch, if_pos hpid]
  exact hwf.assertStructureConsistency

/-! ### The mappings of a child -/

/-- The mappings of a list are given to a child one by one. -/
inductive Inherit (child : Pid) : List (ℕ × PageId) → State → State → Prop
  | nil (s : State) : Inherit child [] s s
  | zero {s s' : State} {i : ℕ} {id : PageId} {rest : List (ℕ × PageId)} {page : PhysicalPage}
    {block : ℕ} {free : List ℕ} {tables : Pid → ℕ → PageTableEntry}
    (hpage : (s.pages id).physicalPage = some page) (hppn : page.ppn = 0)
    (hfree : s.nextFreeSwap = block :: free)
    (hrest : Inherit child rest ((s.addZero ⟨child, i⟩ block free).withTables tables) s') :
    Inherit child ((pageAddr i, id) :: rest) s s'
  | share {s s' : State} {i : ℕ} {id : PageId} {rest : List (ℕ × PageId)} {extra free : List ℕ}
    {tables : Pid → ℕ → PageTableEntry}
    (hplace : ∀ page ∈ (s.pages id).physicalPage, page.ppn ≠ 0)
    (hextra : extra.length = if (s.pages id).isSwap then 1 else 0)
    (hfree : s.nextFreeSwap = extra ++ free)
    (hrest : Inherit child rest ((s.attach ⟨child, i⟩ id extra free).withTables tables) s') :
    Inherit child ((pageAddr i, id) :: rest) s s'

/-- The number of mappings of a list that are backed by swap. -/
def State.swapNeeded (s : State) (order : List (ℕ × PageId)) : ℕ :=
  (order.filter fun entry => (s.pages entry.2).isSwap).length

theorem State.swapNeeded_congr {order : List (ℕ × PageId)}
    (h : ∀ e ∈ order, (s'.pages e.2).isSwap = (s.pages e.2).isSwap) :
    s'.swapNeeded order = s.swapNeeded order := by
  rw [State.swapNeeded, State.swapNeeded, List.filter_congr h]

theorem State.swapNeeded_cons (s : State) (va : ℕ) (id : PageId) (order : List (ℕ × PageId)) :
    s.swapNeeded ((va, id) :: order) =
      (if (s.pages id).isSwap then 1 else 0) + s.swapNeeded order := by
  simp only [State.swapNeeded, List.filter_cons]
  split_ifs
  · rw [List.length_cons, Nat.add_comm]
  · rw [Nat.zero_add]

theorem State.entryPage_addZero (s : State) (ptr : PtePtr) (block : ℕ) (rest : List ℕ) :
    (s.addZero ptr block rest).entryPage = update s.entryPage ptr (some s.nextPage) :=
  s.entryPage_setVA ptr.pid ptr.index s.nextPage

theorem State.entryPage_attach (s : State) (ptr : PtePtr) (id : PageId) (extra rest : List ℕ) :
    (s.attach ptr id extra rest).entryPage = update s.entryPage ptr (some id) :=
  s.entryPage_setVA ptr.pid ptr.index id

theorem State.isSwap_attach (s : State) (ptr : PtePtr) (id : PageId) (extra rest : List ℕ)
    (x : PageId) : ((s.attach ptr id extra rest).pages x).isSwap = (s.pages x).isSwap := by
  by_cases hx : x = id
  · subst hx
    simp [State.attach]
  · simp [State.attach, hx]

private theorem reserveBlock_attach (i : ℕ) (child : Pid) {extra free : List ℕ}
    (hextra : extra.length = if (s.pages id).isSwap then 1 else 0)
    (hfree : s.nextFreeSwap = extra ++ free) :
    ∃ t, reserveBlock id (s.setVA child (pageAddr i) id) = some t ∧
      t.setPage id { t.pages id with affiliated := (t.pages id).affiliated ++ [⟨child, i⟩] } =
        s.attach ⟨child, i⟩ id extra free := by
  rw [reserveBlock, show (s.setVA child (pageAddr i) id).pages = s.pages from rfl]
  cases hswap : (s.pages id).isSwap with
  | true =>
    rw [hswap, if_pos rfl, List.length_eq_one_iff] at hextra
    obtain ⟨block, rfl⟩ := hextra
    rw [if_pos rfl, show (s.setVA child (pageAddr i) id).nextFreeSwap = block :: free from hfree]
    refine ⟨_, rfl, ?_⟩
    simp [State.attach, State.setPage, State.setVA, hswap]
  | false =>
    rw [hswap] at hextra
    have hnil : extra = [] := List.length_eq_zero_iff.mp hextra
    subst hnil
    refine ⟨_, rfl, ?_⟩
    simp [State.attach, State.setPage, State.setVA, hswap, hfree]

theorem Frames.onNullPage (h : Frames m s) (id : PageId) :
    ∃ b, (s.pages id).onNullPage = some b ∧
      (b = true ↔ ∃ page ∈ (s.pages id).physicalPage, page.ppn = 0) := by
  rw [VirtualPage.onNullPage, h.resident]
  cases (s.pages id).physicalPage with
  | none => exact ⟨false, rfl, by simp⟩
  | some page => exact ⟨_, rfl, by simp⟩

/-- The loop of `vm_create` gives the mappings to the child. -/
theorem copyMappings_spec (child : Pid) (order : List (ℕ × PageId)) :
    ∀ s : State, Inside m n s.entryPage L s → Queued s → child ∈ s.processTable →
      (∀ e ∈ order, e.2 < s.nextPage ∧ ∃ i, e.1 = pageAddr i ∧ s.entryPage ⟨child, i⟩ = none) →
      (order.map Prod.fst).Nodup → s.swapNeeded order ≤ s.nextFreeSwap.length →
      ∃ s', copyMappings child order s = some s' ∧ Inherit child order s s' ∧
        Inside m n s'.entryPage L s' ∧ Queued s' := by
  -- every mapping takes a block if it is backed by swap, so that there are enough for the rest
  induction order with
  | nil => exact fun s h hqueued _ _ _ _ => ⟨s, rfl, .nil s, h, hqueued⟩
  | cons e rest ih =>
    intro s h hqueued hchild hentries hnodup hswap
    obtain ⟨va, id⟩ := e
    obtain ⟨hid, i, hva, hnone⟩ := hentries (va, id) List.mem_cons_self
    have hva' : va = pageAddr i := hva
    subst hva'
    have hnotin : ∀ e ∈ rest, e.1 ≠ pageAddr i := by
      intro e he heq
      rw [List.map_cons, List.nodup_cons] at hnodup
      exact hnodup.1 (List.mem_map.mpr ⟨e, he, heq⟩)
    have hnodup' : (rest.map Prod.fst).Nodup := (List.nodup_cons.mp hnodup).2
    obtain ⟨b, hnull, hb⟩ := h.frames.onNullPage id
    rw [s.swapNeeded_cons] at hswap
    -- what is needed for the rest after an entry of the child has been written
    have hrest (t : State) (x : PageId) (hentry : t.entryPage =
        update s.entryPage ⟨child, i⟩ (some x))
        (hnext : s.nextPage ≤ t.nextPage) : ∀ e ∈ rest, e.2 < t.nextPage ∧
          ∃ j, e.1 = pageAddr j ∧ t.entryPage ⟨child, j⟩ = none := by
      intro e he
      obtain ⟨hlt, j, hj, hnone'⟩ := hentries e (List.mem_cons_of_mem _ he)
      have hij : j ≠ i := fun heq => hnotin e he (heq ▸ hj)
      refine ⟨lt_of_lt_of_le hlt hnext, j, hj, ?_⟩
      rw [hentry, update_of_ne (by simp [hij])]
      exact hnone'
    rw [copyMappings, hnull]
    simp only [Option.bind_eq_bind, Option.bind_some]
    by_cases hbt : b = true
    · obtain ⟨page, hpage, hppn⟩ := hb.mp hbt
      have hisSwap := (h.frames.null_page id page hpage hppn).1
      rw [if_pos hisSwap] at hswap
      obtain ⟨block, free, hfree⟩ := List.exists_cons_of_length_pos
        (show 0 < s.nextFreeSwap.length by omega)
      obtain ⟨tables, hmake, hinside⟩ := makeSwapToNullpage_spec h hnone hchild hfree
      let t := (s.addZero ⟨child, i⟩ block free).withTables tables
      have hentry : t.entryPage = update s.entryPage ⟨child, i⟩ (some s.nextPage) :=
        s.entryPage_addZero ⟨child, i⟩ block free
      have hpages (e : ℕ × PageId) (he : e ∈ rest) : (t.pages e.2).isSwap =
          (s.pages e.2).isSwap := by
        have hne : e.2 ≠ s.nextPage := (hentries e (List.mem_cons_of_mem _ he)).1.ne
        rw [show t.pages e.2 = s.pages e.2 from update_of_ne hne ..]
      have hcount : t.swapNeeded rest ≤ t.nextFreeSwap.length := by
        rw [State.swapNeeded_congr hpages, show t.nextFreeSwap = free from rfl]
        rw [hfree, List.length_cons] at hswap
        omega
      obtain ⟨s', hcopy, hinherit, hinside', hqueued'⟩ := ih t (hentry ▸ hinside)
        (hqueued.addZero h.frames h.mappings block free) hchild
        (hrest t s.nextPage hentry (Nat.le_succ _)) hnodup' hcount
      rw [if_pos hbt]
      exact ⟨s', (bind_of_eq_some hmake).trans hcopy, .zero hpage hppn hfree hinherit, hinside',
        hqueued'⟩
    · have hplace : ∀ page ∈ (s.pages id).physicalPage, page.ppn ≠ 0 := fun page hpage hppn =>
        hbt (hb.mpr ⟨page, hpage, hppn⟩)
      obtain ⟨extra, free, hextra, hfree⟩ : ∃ extra free : List ℕ,
          extra.length = (if (s.pages id).isSwap then 1 else 0) ∧ s.nextFreeSwap = extra ++ free :=
        ⟨s.nextFreeSwap.take _, s.nextFreeSwap.drop _,
          List.length_take_of_le (le_trans (Nat.le_add_right _ _) hswap),
          (List.take_append_drop _ _).symm⟩
      have hsame : SameMemory s (s.attach ⟨child, i⟩ id extra free) := ⟨rfl, rfl, rfl, rfl, rfl⟩
      obtain ⟨tables, hupdate, hinside⟩ := h.attach hnone hid hsame rfl rfl rfl hextra
        (by rw [hfree]; exact List.Perm.refl _) rfl hplace
      obtain ⟨t₀, hreserve, hattach⟩ := reserveBlock_attach i child hextra hfree
      let t := (s.attach ⟨child, i⟩ id extra free).withTables tables
      have hentry : t.entryPage = update s.entryPage ⟨child, i⟩ (some id) :=
        s.entryPage_attach ⟨child, i⟩ id extra free
      have hpages (e : ℕ × PageId) (_ : e ∈ rest) : (t.pages e.2).isSwap = (s.pages e.2).isSwap :=
        s.isSwap_attach ⟨child, i⟩ id extra free e.2
      have hcount : t.swapNeeded rest ≤ t.nextFreeSwap.length := by
        rw [State.swapNeeded_congr hpages, show t.nextFreeSwap = free from rfl]
        rw [hfree, List.length_append, hextra] at hswap
        omega
      obtain ⟨s', hcopy, hinherit, hinside', hqueued'⟩ := ih t (hentry ▸ hinside)
        (hqueued.attach extra free) hchild (hrest t id hentry le_rfl) hnodup' hcount
      rw [if_neg hbt]
      refine ⟨s', ?_, .share hplace hextra hfree hinherit, hinside', hqueued'⟩
      refine (bind_of_eq_some hreserve).trans ?_
      simp only [vaToPTE_pageAddr]
      rw [hattach]
      exact (bind_of_eq_some hupdate).trans hcopy

namespace Inherit

variable {child : Pid} {order : List (ℕ × PageId)}

/-- The processes themselves stay the same. -/
theorem same (h : Inherit child order s s') :
    s'.processTable = s.processTable ∧ s'.nextFreeVA = s.nextFreeVA ∧
      s'.currentPid = s.currentPid ∧ s'.pageTableBaseRegister = s.pageTableBaseRegister := by
  induction h with
  | nil => exact ⟨rfl, rfl, rfl, rfl⟩
  | zero _ _ _ _ ih => exact ih
  | share _ _ _ _ ih => exact ih

/-- Only the child gets mappings. -/
theorem mapped_of_ne (h : Inherit child order s s') {pid : Pid} (hpid : pid ≠ child) :
    s'.mapped pid = s.mapped pid := by
  have hset (s : State) (va : ℕ) (id : PageId) : (s.setVA child va id).mapped pid =
      s.mapped pid := by
    funext va'
    rw [State.mapped_setVA, if_neg fun heq => hpid heq.1]
  induction h with
  | nil => rfl
  | @zero s _ i => exact ‹_ = _›.trans (hset s (pageAddr i) s.nextPage)
  | @share s _ i id => exact ‹_ = _›.trans (hset s (pageAddr i) id)

theorem mem_translateVA (h : Inherit child order s s') {pid : Pid} (hpid : pid ∈ s'.translateVA) :
    pid ∈ s.translateVA ∨ pid = child := by
  induction h with
  | nil => exact Or.inl hpid
  | zero _ _ _ _ ih =>
    rcases ih hpid with hold | hnew
    · exact ((AList.mem_insert _).mp hold).symm
    · exact Or.inr hnew
  | share _ _ _ _ ih =>
    rcases ih hpid with hold | hnew
    · exact ((AList.mem_insert _).mp hold).symm
    · exact Or.inr hnew

/-- The child gets the addresses of the list. -/
theorem mapped_isSome (h : Inherit child order s s') (va : ℕ) :
    (s'.mapped child va).isSome ↔ (s.mapped child va).isSome ∨ va ∈ order.map Prod.fst := by
  have hset (s : State) (i : ℕ) (id : PageId) : ((s.setVA child (pageAddr i) id).mapped child
      va).isSome ↔ (s.mapped child va).isSome ∨ va = pageAddr i := by
    rw [State.mapped_setVA]
    by_cases hva : va = pageAddr i
    · simp [hva]
    · simp [hva]
  induction h with
  | nil => simp
  | @zero s _ i _ _ _ _ _ _ _ _ _ _ ih =>
    refine ih.trans ?_
    rw [List.map_cons, List.mem_cons, ← or_assoc, ← hset s i s.nextPage]
    rfl
  | @share s _ i id _ _ _ _ _ _ _ _ ih =>
    refine ih.trans ?_
    rw [List.map_cons, List.mem_cons, ← or_assoc, ← hset s i id]
    rfl

end Inherit

/-! ### The pages of a parent -/

/-- The pages of a list have blocks, the pages that have not been made are new, and those on the
physical page 0 are backed by swap. -/
structure Inheritable (order : List (ℕ × PageId)) (s : State) : Prop where
  blocks : ∀ e ∈ order, (s.pages e.2).blocks ≠ []
  fresh : ∀ id, s.nextPage ≤ id → s.pages id = .new
  null : ∀ id, ∀ page ∈ (s.pages id).physicalPage, page.ppn = 0 → (s.pages id).isSwap = true

namespace Inheritable

variable {va : ℕ} {rest : List (ℕ × PageId)}

theorem lt (h : Inheritable rest s) {e : ℕ × PageId} (he : e ∈ rest) : e.2 < s.nextPage := by
  by_contra hle
  exact h.blocks e he (by rw [h.fresh e.2 (not_lt.mp hle)]; rfl)

theorem addZero (h : Inheritable ((va, id) :: rest) s) (ptr : PtePtr) (block : ℕ) (free : List ℕ)
    (tables : Pid → ℕ → PageTableEntry) :
    Inheritable rest ((s.addZero ptr block free).withTables tables) := by
  let t := (s.addZero ptr block free).withTables tables
  have hne (x : PageId) (hx : x ≠ s.nextPage) : t.pages x = s.pages x := update_of_ne hx ..
  refine ⟨fun e he => ?_, fun x hx => ?_, fun x => ?_⟩
  · rw [hne e.2 (h.lt (List.mem_cons_of_mem _ he)).ne]
    exact h.blocks e (List.mem_cons_of_mem _ he)
  · exact (hne x (Nat.lt_of_succ_le hx).ne').trans (h.fresh x (Nat.le_of_succ_le hx))
  · by_cases heq : x = s.nextPage
    · subst heq
      simp [State.withTables, State.addZero]
    · rw [hne x heq]
      exact h.null x

theorem attach (h : Inheritable ((va, id) :: rest) s) (ptr : PtePtr) (extra free : List ℕ)
    (tables : Pid → ℕ → PageTableEntry) :
    Inheritable rest ((s.attach ptr id extra free).withTables tables) := by
  let t := (s.attach ptr id extra free).withTables tables
  have hid : (s.pages id).blocks ≠ [] := h.blocks _ List.mem_cons_self
  have hlt : id < s.nextPage := h.lt (e := (va, id)) List.mem_cons_self
  have hne (x : PageId) (hx : x ≠ id) : t.pages x = s.pages x := update_of_ne hx ..
  refine ⟨fun e he => ?_, fun x hx => ?_, fun x => ?_⟩
  · by_cases heq : e.2 = id
    · rw [heq, show t.pages id = { s.pages id with
        affiliated := (s.pages id).affiliated ++ [ptr]
        blocks := (s.pages id).blocks ++ extra } from update_self ..]
      simp [hid]
    · rw [hne _ heq]
      exact h.blocks e (List.mem_cons_of_mem _ he)
  · exact (hne x (hlt.trans_le hx).ne').trans (h.fresh x hx)
  · by_cases heq : x = id
    · subst heq
      simpa [t, State.withTables, State.attach] using h.null x
    · rw [hne x heq]
      exact h.null x

end Inheritable

/-- What relates a state to the next one whenever a child gets a mapping relates it to the one in
which the child has got all of them. -/
theorem Inherit.relates {R : State → State → Prop} (hrefl : ∀ s, R s s)
    (htrans : ∀ {s t u}, R s t → R t u → R s u)
    (hzero : ∀ s ptr block free tables, s.pages s.nextPage = .new →
      R s ((s.addZero ptr block free).withTables tables))
    (hshare : ∀ s ptr id extra free tables, (s.pages id).blocks ≠ [] →
      R s ((s.attach ptr id extra free).withTables tables))
    {child : Pid} {order : List (ℕ × PageId)} (h : Inherit child order s s')
    (hready : Inheritable order s) : R s s' := by
  induction h with
  | nil => exact hrefl _
  | @zero s s' i id rest page block free tables _ _ _ _ ih =>
    exact htrans (hzero s ⟨child, i⟩ block free tables (hready.fresh _ le_rfl))
      (ih (hready.addZero ⟨child, i⟩ block free tables))
  | @share s s' i id rest extra free tables _ _ _ _ ih =>
    exact htrans (hshare s ⟨child, i⟩ id extra free tables (hready.blocks _ List.mem_cons_self))
      (ih (hready.attach ⟨child, i⟩ extra free tables))

/-! ### The result of `vm_create` -/

/-- A process is managed, with an empty page table. -/
def State.enroll (s : State) (child : Pid) (count : ℕ) : State :=
  { s with
    processTable := insert child s.processTable
    pageTables := update s.pageTables child fun _ => ⟨0, false, false⟩
    nextFreeVA := update s.nextFreeVA child (some (pageAddr count)) }

theorem State.mem_mappings {pid : Pid} {va : ℕ} :
    (va, id) ∈ s.mappings pid ↔ s.mapped pid va = some id := by
  simp only [State.mappings, List.mem_map, Prod.mk.injEq, State.mapped]
  cases hlookup : s.translateVA.lookup pid with
  | none => simp [EmptyCollection.emptyCollection]
  | some vas =>
    rw [Option.bind_some, Option.getD_some, ← Option.mem_def, AList.mem_lookup_iff]
    constructor
    · rintro ⟨⟨va', id'⟩, hentry, rfl, rfl⟩
      exact hentry
    · exact fun hentry => ⟨⟨va, id⟩, hentry, rfl, rfl⟩

theorem State.nodup_mappings (s : State) (pid : Pid) : ((s.mappings pid).map Prod.fst).Nodup := by
  rw [State.mappings, List.map_map]
  exact AList.keys_nodup _

/-- The mappings of a process are visited in some order. -/
theorem State.mem_order {pid : Pid} {order : List (ℕ × PageId)}
    (horder : order.Perm (s.mappings pid))
    {va : ℕ} : (va, id) ∈ order ↔ s.mapped pid va = some id :=
  horder.mem_iff.trans State.mem_mappings

/-- A child can inherit the pages of its parent. -/
theorem WellFormed.inheritable (h : WellFormed m n s) {parent : Pid} {order : List (ℕ × PageId)}
    (horder : order.Perm (s.mappings parent)) : Inheritable order s := by
  refine ⟨fun e he => ?_, h.mappings.fresh, fun id page hpage hppn =>
    (h.frames.null_page id page hpage hppn).1⟩
  have hmapped : s.mapped parent e.1 = some e.2 := (State.mem_order horder).mp he
  exact h.toCore.blocks_ne_nil (h.toCore.affiliated_ne_nil hmapped)

/-- The page table of a process that is not managed makes no difference. -/
theorem WellFormed.update_pageTables (h : WellFormed m n s) {child : Pid}
    (hchild : child ∉ s.processTable) (table : ℕ → PageTableEntry) :
    WellFormed m n (s.withTables (update s.pageTables child table)) := by
  have hpte (ptr : PtePtr) (hne : ptr.pid ≠ child) :
      (s.withTables (update s.pageTables child table)).pte ptr = s.pte ptr := by
    simp only [State.pte, State.withTables]
    rw [update_of_ne hne]
  refine { h.toCore.withTables _ with ptes := ⟨fun x hx ptr hptr => ?_, fun ptr hptr hnone => ?_⟩ }
  · have hmapped : s.mapped ptr.pid (pageAddr ptr.index) = some x :=
        (h.mappings.attached x ptr).mp hptr
    rw [hpte ptr fun heq => hchild (heq ▸ h.spaces.mem_processTable hmapped)]
    exact h.ptes.page x hx ptr hptr
  · rw [hpte ptr fun heq => hchild (heq ▸ hptr)]
    exact h.ptes.unmapped ptr hptr hnone

theorem Inside.enroll (h : WellFormed m n s) {child : Pid} (hchild : child ∉ s.processTable)
    (count : ℕ) : Inside m n (s.enroll child count).entryPage
      {pid | pid ∈ (s.enroll child count).processTable} (s.enroll child count) := by
  have hwf := h.update_pageTables hchild fun _ => ⟨0, false, false⟩
  refine ⟨{ h.mappings with }, { h.frames with }, hwf.ptes.page, fun ptr hptr hnone => ?_⟩
  rcases Finset.mem_insert.mp hptr with heq | hold
  · rw [show (s.enroll child count).pte ptr = ⟨0, false, false⟩ by
      simp [State.pte, State.enroll, heq]]
    exact ⟨rfl, rfl⟩
  · exact hwf.ptes.unmapped ptr hold hnone

/-- The child gets the mappings of the parent, and its valid addresses. -/
def Created (parent child : Pid) (order : List (ℕ × PageId)) (s s' : State) : Prop :=
  ∃ count t, (∀ i, (s.entryPage ⟨parent, i⟩).isSome ↔ i < count) ∧
    Inherit child order (s.enroll child count) t ∧
    s' = if parent ∈ insert child s.processTable then t
      else { t with currentPid := child, pageTableBaseRegister := some child }

theorem Spaces.not_mapped (h : Spaces s) {pid : Pid} (hpid : pid ∉ s.processTable) (va : ℕ) :
    s.mapped pid va = none := by
  refine Option.eq_none_iff_forall_ne_some.mpr fun id hva => ?_
  exact hpid (h.mem_processTable hva)

/-- The child has the valid addresses of the parent. -/
theorem Inherit.valid {parent child : Pid} {order : List (ℕ × PageId)} {count : ℕ}
    (hinherit : Inherit child order (s.enroll child count) s') (h : Spaces s)
    (hchild : child ∉ s.processTable) (horder : order.Perm (s.mappings parent)) (va : ℕ) :
    (s'.mapped child va).isSome ↔ (s.mapped parent va).isSome := by
  rw [hinherit.mapped_isSome va, show (s.enroll child count).mapped child va = s.mapped child va
    from rfl, h.not_mapped hchild va, Option.isSome_iff_exists (x := s.mapped parent va)]
  simp only [Option.isSome_none, Bool.false_eq_true, false_or, List.mem_map]
  constructor
  · rintro ⟨⟨va', id⟩, he, rfl⟩
    exact ⟨id, (State.mem_order horder).mp he⟩
  · rintro ⟨id, hid⟩
    exact ⟨(va, id), (State.mem_order horder).mpr hid, rfl⟩

/-- The spaces of the processes after a child has got the mappings of its parent. -/
theorem Spaces.inherit (h : Spaces s) {parent child : Pid} {order : List (ℕ × PageId)} {count : ℕ}
    (hchild : child ∉ s.processTable) (horder : order.Perm (s.mappings parent))
      (hcount : count ≤ 256)
    (hvalid : ∀ i, (s.entryPage ⟨parent, i⟩).isSome ↔ i < count)
    (hinherit : Inherit child order (s.enroll child count) s') : Spaces s' := by
  obtain ⟨htable, hnext, -, -⟩ := hinherit.same
  have hother (pid : Pid) (hpid : pid ≠ child) : s'.mapped pid = s.mapped pid :=
    hinherit.mapped_of_ne hpid
  have hself := hinherit.valid h hchild horder
  refine ⟨fun pid hpid => ?_, fun pid hpid => ?_, fun pid va id hva => ?_, fun pid hpid => ?_⟩
  · rw [htable]
    rcases hinherit.mem_translateVA hpid with hold | rfl
    · exact Finset.mem_insert_of_mem (h.live pid hold)
    · exact Finset.mem_insert_self _ _
  · rw [htable] at hpid
    have hne : pid ≠ child := fun heq => hpid (heq ▸ Finset.mem_insert_self _ _)
    rw [hnext, show (s.enroll child count).nextFreeVA pid =
      s.nextFreeVA pid from update_of_ne hne ..]
    exact h.unmanaged pid fun hold => hpid (Finset.mem_insert_of_mem hold)
  · by_cases hpid : pid = child
    · subst hpid
      obtain ⟨id', hid'⟩ := Option.isSome_iff_exists.mp ((hself va).mp (by rw [hva]; rfl))
      exact h.aligned parent va id' hid'
    · rw [hother pid hpid] at hva
      exact h.aligned pid va id hva
  · rw [htable] at hpid
    rw [hnext]
    by_cases heq : pid = child
    · subst heq
      exact ⟨count, hcount, update_self .., fun i => (hself (pageAddr i)).trans (hvalid i)⟩
    · have hold := (Finset.mem_insert.mp hpid).resolve_left heq
      obtain ⟨k, hk, hnextk, hvalidk⟩ := h.next pid hold
      refine ⟨k, hk, (update_of_ne heq ..).trans hnextk, fun i => ?_⟩
      rw [State.entryPage, hother pid heq]
      exact hvalidk i

theorem WellFormed.of_inside (h : Inside m n s.entryPage {pid | pid ∈ s.processTable} s)
    (hspaces : Spaces s) (hqueued : Queued s) : WellFormed m n s :=
  ⟨⟨h.mappings, h.frames, hspaces, hqueued⟩, h.ptes⟩

private theorem vmCreate_inherit (h : WellFormed m n s) {parent child : Pid}
    {order : List (ℕ × PageId)} (hchild : child ∉ s.processTable)
    (horder : order.Perm (s.mappings parent)) (hswap : s.swapNeeded order ≤ s.nextFreeSwap.length) :
    ∃ count t, (∀ i, (s.entryPage ⟨parent, i⟩).isSome ↔ i < count) ∧
      Inherit child order (s.enroll child count) t ∧ WellFormed m n t ∧
      (if parent ∈ s.translateVA then inherit parent child order (s.enroll child 0)
        else some (s.enroll child 0)) = some t := by
  by_cases hparent : parent ∈ s.translateVA
  · have hlive := h.spaces.live parent hparent
    have hne : parent ≠ child := fun heq => hchild (heq ▸ hlive)
    obtain ⟨count, hcount, hnext, hvalid⟩ := h.spaces.next parent hlive
    have hentries (e : ℕ × PageId) (he : e ∈ order) : e.2 < (s.enroll child count).nextPage ∧
        ∃ i, e.1 = pageAddr i ∧ (s.enroll child count).entryPage ⟨child, i⟩ = none := by
      have hmapped : s.mapped parent e.1 = some e.2 := (State.mem_order horder).mp he
      obtain ⟨i, hi, hentry, -⟩ := h.spaces.mem_entry hmapped
      exact ⟨h.mappings.not_fresh hentry, i, hi, h.spaces.not_mapped hchild (pageAddr i)⟩
    obtain ⟨t, hcopy, hinherit, hinside, hqueued⟩ := copyMappings_spec child order
      (s.enroll child count) (Inside.enroll h hchild count) h.queued (Finset.mem_insert_self _ _)
      hentries ((horder.map _).nodup_iff.mpr (s.nodup_mappings parent)) hswap
    have hspaces := h.spaces.inherit hchild horder hcount hvalid hinherit
    have hL : {pid | pid ∈ (s.enroll child count).processTable} = {pid | pid ∈ t.processTable} := by
      rw [hinherit.same.1]
    refine ⟨count, t, hvalid, hinherit, .of_inside (hL ▸ hinside) hspaces hqueued, ?_⟩
    have hnext' : (s.enroll child 0).nextFreeVA parent = some (pageAddr count) :=
      (update_of_ne hne ..).trans hnext
    rw [if_pos hparent, inherit, State.touchNextVA, if_neg (by rw [hnext']; simp), hnext', ← hcopy]
    simp [State.enroll]
  · have hnone (va : ℕ) : s.mapped parent va = none := by
      rw [State.mapped, AList.lookup_eq_none.mpr hparent]
      rfl
    have hnil : order = [] := by
      refine List.eq_nil_iff_forall_not_mem.mpr fun e he => ?_
      have hmapped : s.mapped parent e.1 = some e.2 := (State.mem_order horder).mp he
      rw [hnone e.1] at hmapped
      simp at hmapped
    have hvalid (i : ℕ) : (s.entryPage ⟨parent, i⟩).isSome ↔ i < 0 := by
      simp [State.entryPage, hnone]
    subst hnil
    refine ⟨0, s.enroll child 0, hvalid, .nil _, .of_inside (Inside.enroll h hchild 0)
      (h.spaces.inherit hchild horder (Nat.zero_le _) hvalid (.nil _)) h.queued, if_neg hparent⟩

/-- The page table of a process is empty. -/
def State.emptyTable (s : State) (pid : Pid) : State :=
  s.withTables (update s.pageTables pid fun _ => ⟨0, false, false⟩)

/-- `vm_create` fails if there are not enough free blocks in the swap file for the mappings of the
parent, without an effect on the processes that are managed; otherwise the child gets them. -/
theorem vmCreate_spec (h : WellFormed m n s) {parent child : Pid} {order : List (ℕ × PageId)}
    (hchild : child ∉ s.processTable) (horder : order.Perm (s.mappings parent)) :
    (s.nextFreeSwap.length < s.swapNeeded order ∧
      vmCreate parent child order s = some (false, s.emptyTable child) ∧
        WellFormed m n (s.emptyTable child)) ∨
    (s.swapNeeded order ≤ s.nextFreeSwap.length ∧ ∃ s',
      vmCreate parent child order s = some (true, s') ∧ WellFormed m n s' ∧
        Created parent child order s s') := by
  have hstart : (if child ∈ s.processTable then s else { s with
      processTable := insert child s.processTable
      pageTables := update s.pageTables child fun _ => ⟨0, false, false⟩ }) =
      { s with
        processTable := insert child s.processTable
        pageTables := update s.pageTables child fun _ => ⟨0, false, false⟩ } := if_neg hchild
  have henroll : ({ s with
      processTable := insert child s.processTable
      pageTables := update s.pageTables child fun _ => ⟨0, false, false⟩
      nextFreeVA := update s.nextFreeVA child (some vmArenaBaseaddr) } : State) =
      s.enroll child 0 := by
    simp [State.enroll, pageAddr]
  rw [vmCreate, hstart]
  simp only [henroll]
  rcases lt_or_ge s.nextFreeSwap.length (s.swapNeeded order) with hlt | hge
  · refine Or.inl ⟨hlt, ?_, h.update_pageTables hchild _⟩
    have hparent : parent ∈ s.translateVA := by
      by_contra hnot
      have hnil : s.mappings parent = [] := by
        rw [State.mappings, AList.lookup_eq_none.mpr hnot]
        rfl
      rw [(hnil ▸ horder : order.Perm []).eq_nil] at hlt
      simp [State.swapNeeded] at hlt
    rw [if_pos ⟨hparent, hlt⟩, Option.some.injEq, Prod.mk.injEq]
    have hnext : update s.nextFreeVA child none = s.nextFreeVA :=
      update_eq_self_iff.mpr (h.spaces.unmanaged child hchild).symm
    refine ⟨rfl, ?_⟩
    simp only [State.emptyTable, State.withTables, Finset.erase_insert hchild, update_idem, hnext]
  · obtain ⟨count, t, hvalid, hinherit, hwf, heq⟩ := vmCreate_inherit h hchild horder hge
    have htable : t.processTable = insert child s.processTable := hinherit.same.1
    have hwf' : WellFormed m n (if parent ∈ t.processTable then t
        else { t with currentPid := child, pageTableBaseRegister := some child }) := by
      split_ifs
      · exact hwf
      · exact ⟨⟨{ hwf.mappings with }, { hwf.frames with }, { hwf.spaces with }, hwf.queued⟩,
          { hwf.ptes with }⟩
    refine Or.inr ⟨hge, _, ?_, hwf', count, t, hvalid, hinherit, by rw [htable]⟩
    rw [if_neg fun hbad => absurd hbad.2 (not_lt.mpr hge)]
    refine (bind_of_eq_some heq).trans ?_
    exact bind_of_eq_some hwf'.assertStructureConsistency

end OsFromScratch.Pager
