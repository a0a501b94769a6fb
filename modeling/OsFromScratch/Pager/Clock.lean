import OsFromScratch.Lib.Runs
import OsFromScratch.Pager.Moves

/-!
# Physical pages from the clock

`give_new_ppn` takes a free physical page, or evicts a page to get one. The loop of
`evict_and_replace` turns the clock up to the first page that has not been used; if all pages have
been used, that is the page at the front of the queue after a full turn.

## Main results

* `clockLoop_eq` — the loop of `evict_and_replace` turns the clock.
* `evictAndReplace_eq` — `evict_and_replace` evicts the page at the front of the queue after that.
* `giveNewPpn_eq` — `give_new_ppn` allocates a physical page, after an eviction if there is no free
  one.
-/

namespace OsFromScratch.Pager

open Function

variable {m n : ℕ} {E : Set PageId} {L : Set Pid} {M : PtePtr → Option PageId} {s : State}

/-! ### The loop -/

@[simp]
theorem State.withTables_self (s : State) : s.withTables s.pageTables = s := rfl

@[simp]
theorem State.withTables_withTables (s : State) (tables tables' : Pid → ℕ → PageTableEntry) :
    (s.withTables tables).withTables tables' = s.withTables tables' := rfl

/-- The entries of a page that has just been passed by the hand of the clock can be updated, if
there are any. -/
theorem Ptes.updatePTEsIfAny (h : Ptes E L M s) (id : PageId) (hattached : ∀ id ptr,
    ptr ∈ (s.pages id).affiliated → M ptr = some id)
    (hid : (s.pages id).affiliated ≠ [] → (s.pages id).Updatable) :
    ∃ tables, Pager.updatePTEsIfAny id s = some (s.withTables tables) ∧
      Ptes (E \ {id}) L M (s.withTables tables) := by
  rw [Pager.updatePTEsIfAny]
  split_ifs with hnil
  · refine ⟨s.pageTables, rfl, ⟨fun id' hid' => ?_, h.unmapped⟩⟩
    by_cases heq : id' = id
    · rw [heq]
      exact State.upToDate_of_affiliated_nil hnil
    · exact h.page id' fun hE => hid' ⟨hE, heq⟩
  · exact h.updatePTEs id hattached (hid hnil)

/-- The page tables are up to date except for one page, after that page has changed. -/
theorem Ptes.setPage (h : Ptes E L M s) (id : PageId) (v : VirtualPage) :
    Ptes (insert id E) L M (s.setPage id v) := by
  refine ⟨fun id' hid' => ?_, h.unmapped⟩
  have hne : id' ≠ id := fun heq => hid' (heq ▸ Set.mem_insert id E)
  have hpage : (s.setPage id v).pages id' = s.pages id' := update_of_ne hne ..
  have hold := h.page id' fun hE => hid' (Set.mem_insert_of_mem id hE)
  rw [State.UpToDate, hpage]
  exact hold

theorem Ptes.mono {E' : Set PageId} (h : Ptes E L M s) (hsub : E ⊆ E') : Ptes E' L M s :=
  ⟨fun id hid => h.page id fun hE => hid (hsub hE), h.unmapped⟩

/-- The hand of the clock passes one page. -/
private def passFront (s : State) (front : PageId) (rest : List PageId) : State :=
  { s.setPage front (s.pages front).unclock with clockQueue := rest ++ [front] }

private theorem passFront_clocked {front : PageId} {rest : List PageId} (id : PageId) :
    (passFront s front rest).clocked id = if id = front then false else s.clocked id := by
  by_cases heq : id = front
  · subst heq
    simp only [State.clocked, passFront, State.setPage, VirtualPage.unclock, update_self, if_true]
    cases (s.pages id).physicalPage <;> rfl
  · simp [State.clocked, passFront, State.setPage, heq]

private theorem takeWhile_passFront {front : PageId} {rest : List PageId} (hnot : front ∉ rest) :
    (rest ++ [front]).takeWhile (passFront s front rest).clocked = rest.takeWhile s.clocked ∧
      (rest ++ [front]).dropWhile (passFront s front rest).clocked =
        rest.dropWhile s.clocked ++ [front] := by
  have hend : (passFront s front rest).clocked front = false := by
    rw [passFront_clocked, if_pos rfl]
  have hrest (id : PageId) (hid : id ∈ rest) : (passFront s front rest).clocked id =
      s.clocked id := by
    have hne : id ≠ front := fun heq => hnot (heq ▸ hid)
    rw [passFront_clocked, if_neg hne]
  generalize (passFront s front rest).clocked = p at hend hrest
  clear hnot
  induction rest with
  | nil => simp [hend]
  | cons x rest ih =>
    have hx := hrest x List.mem_cons_self
    obtain ⟨htake, hdrop⟩ := ih fun id hid => hrest id (List.mem_cons_of_mem x hid)
    cases hclocked : s.clocked x with
    | true => simp [hx, hclocked, htake, hdrop]
    | false => simp [hx, hclocked]

private theorem turnClock_passFront {front : PageId} {rest : List PageId}
    (hqueue : s.clockQueue = front :: rest) (hnot : front ∉ rest)
      (hclocked : s.clocked front = true) :
    (passFront s front rest).turnClock = s.turnClock := by
  obtain ⟨htake, hdrop⟩ := takeWhile_passFront (s := s) hnot
  have htake' : s.clockQueue.takeWhile s.clocked = front :: rest.takeWhile s.clocked := by
    rw [hqueue, List.takeWhile_cons, if_pos hclocked]
  have hdrop' : s.clockQueue.dropWhile s.clocked = rest.dropWhile s.clocked := by
    rw [hqueue, List.dropWhile_cons, if_pos hclocked]
  have hqueue' : (passFront s front rest).clockQueue = rest ++ [front] := rfl
  have hpages : (passFront s front rest).turnClock.pages = s.turnClock.pages := by
    funext id
    simp only [State.turnClock]
    rw [hqueue', htake, htake']
    by_cases heq : id = front
    · subst heq
      have hout : id ∉ rest.takeWhile s.clocked := fun hmem =>
        hnot ((List.takeWhile_sublist _).mem hmem)
      rw [if_neg hout, if_pos List.mem_cons_self]
      exact update_self ..
    · have hpage : (passFront s front rest).pages id = s.pages id := update_of_ne heq ..
      simp only [hpage, List.mem_cons, heq, false_or]
  have hturned : (passFront s front rest).turnClock.clockQueue = s.turnClock.clockQueue := by
    simp only [State.turnClock]
    rw [hqueue', htake, hdrop, htake', hdrop', List.append_assoc, List.singleton_append]
  exact State.ext rfl rfl rfl rfl rfl rfl rfl hturned rfl rfl rfl hpages rfl rfl rfl rfl rfl rfl

/-- The loop of `evict_and_replace` turns the clock. -/
theorem clockLoop_eq (fuel : ℕ) :
    ∀ s : State, (s.clockQueue.takeWhile s.clocked).length < fuel → s.clockQueue ≠ [] →
      s.clockQueue.Nodup → (∀ id ∈ s.clockQueue, s.Exists id) →
      (∀ id ∈ s.clockQueue, (s.pages id).physicalPage.isSome) →
      (∀ id ptr, ptr ∈ (s.pages id).affiliated → M ptr = some id) → Ptes E L M s →
      ∃ tables, clockLoop fuel s = some (s.turnClock.withTables tables) ∧
        Ptes E L M (s.turnClock.withTables tables) := by
  -- each iteration passes one of the used pages at the front
  induction fuel with
  | zero => intro s hfuel; exact absurd hfuel (Nat.not_lt_zero _)
  | succ fuel ih =>
    intro s hfuel hne hnodup hexists hsome hattached hptes
    obtain ⟨front, rest, hqueue⟩ := List.exists_cons_of_ne_nil hne
    have hmem : front ∈ s.clockQueue := hqueue ▸ List.mem_cons_self
    have hnot : front ∉ rest := (List.nodup_cons.mp (hqueue ▸ hnodup)).1
    obtain ⟨page, hpage⟩ := Option.isSome_iff_exists.mp (hsome front hmem)
    rw [clockLoop, hqueue]
    simp only [if_pos (hexists front hmem), hpage, Option.bind_eq_bind, Option.bind_some]
    by_cases hclocked : page.clocked = true
    · have hclk : s.clocked front = true := by simp [State.clocked, hpage, hclocked]
      have hunclock : (s.pages front).unclock =
          { s.pages front with physicalPage := some { page with clocked := false } } := by
        simp [VirtualPage.unclock, hpage]
      have haff (id : PageId) : ((s.setPage front (s.pages front).unclock).pages id).affiliated =
          (s.pages id).affiliated := by
        by_cases heq : id = front
        · subst heq
          simp [State.setPage, VirtualPage.unclock]
        · simp [State.setPage, heq]
      have hattached' (id : PageId) (ptr : PtePtr)
          (hptr : ptr ∈ ((s.setPage front (s.pages front).unclock).pages id).affiliated) :
          M ptr = some id :=
        hattached id ptr (haff id ▸ hptr)
      rw [if_pos hclocked, ← hunclock]
      obtain ⟨tables, hupdate, hptes'⟩ := (hptes.setPage front _).updatePTEsIfAny front hattached'
        fun haff => ⟨haff, fun _ => ⟨{ page with clocked := false }, by
          simp [State.setPage, hunclock], fun h => absurd h Bool.false_ne_true⟩⟩
      rw [hupdate, Option.bind_some]
      let next := (passFront s front rest).withTables tables
      have hperm : next.clockQueue.Perm s.clockQueue := by
        rw [hqueue]
        exact List.perm_append_singleton front rest
      have hfuel' : (next.clockQueue.takeWhile next.clocked).length < fuel := by
        have htake : next.clockQueue.takeWhile next.clocked = rest.takeWhile s.clocked :=
          (takeWhile_passFront hnot).1
        rw [hqueue, List.takeWhile_cons, if_pos hclk, List.length_cons] at hfuel
        rw [htake]
        omega
      have hsome' (id : PageId) (hid : id ∈ next.clockQueue) :
          (next.pages id).physicalPage.isSome := by
        by_cases heq : id = front
        · subst heq
          simp [next, passFront, State.withTables, State.setPage, hunclock]
        · have hold := hsome id (hperm.mem_iff.mp hid)
          simpa [next, passFront, State.withTables, State.setPage, heq] using hold
      have hptes'' : Ptes E L M next := by
        refine ⟨fun id hid => hptes'.page id ?_, hptes'.unmapped⟩
        rintro ⟨h1 | h1, h2⟩
        · exact h2 h1
        · exact hid h1
      have hloop := ih next hfuel' (by simp [next, passFront, State.withTables])
        (hperm.nodup_iff.mpr hnodup) (fun id hid => hexists id (hperm.mem_iff.mp hid)) hsome'
        hattached' hptes''
      have hturn := turnClock_passFront hqueue hnot hclk
      obtain ⟨tables', hloop, hptes'⟩ := hloop
      have heq : next.turnClock.withTables tables' = s.turnClock.withTables tables' := by
        rw [← hturn]
        rfl
      exact ⟨tables', heq ▸ hloop, heq ▸ hptes'⟩
    · have hclk : s.clocked front = false := by simp [State.clocked, hpage, hclocked]
      have hturn : s.turnClock = s := by
        simp [State.turnClock, hqueue, hclk]
        rw [← hqueue]
      rw [if_neg hclocked]
      exact ⟨s.pageTables, by rw [hturn]; rfl, by rw [hturn]; exact hptes⟩

/-! ### Page table entries -/

/-- The entry lets nothing through. -/
def PageTableEntry.Disabled (entry : PageTableEntry) : Prop :=
  entry.readEnable = false ∧ entry.writeEnable = false

/-- The entries of a list of pages are disabled, and no others are changed. -/
structure Disables (l : List PageId) (s s' : State) : Prop where
  disabled : ∀ x ∈ l, ∀ ptr ∈ (s.pages x).affiliated, (s'.pte ptr).Disabled
  other : ∀ ptr, (∀ x ∈ l, ptr ∉ (s.pages x).affiliated) → s'.pte ptr = s.pte ptr

/-- The entries of a page are computed, and no others are changed. -/
theorem updatePTEs_pte {s' : State} {id : PageId} (h : Pager.updatePTEs id s = some s') :
    (∃ tables, s' = s.withTables tables) ∧
      (∀ ptr ∈ (s.pages id).affiliated, s'.pte ptr = (s.pages id).entry (s.pte ptr)) ∧
      ∀ ptr ∉ (s.pages id).affiliated, s'.pte ptr = s.pte ptr := by
  rw [Pager.updatePTEs] at h
  split_ifs at h
  rw [Option.some.injEq] at h
  subst h
  exact ⟨⟨_, rfl⟩, fun ptr hptr => if_pos hptr, fun ptr hptr => if_neg hptr⟩

theorem updatePTEsIfAny_pte {s' : State} {id : PageId}
    (h : Pager.updatePTEsIfAny id s = some s') :
    (∃ tables, s' = s.withTables tables) ∧
      (∀ ptr ∈ (s.pages id).affiliated, s'.pte ptr = (s.pages id).entry (s.pte ptr)) ∧
      ∀ ptr ∉ (s.pages id).affiliated, s'.pte ptr = s.pte ptr := by
  rw [Pager.updatePTEsIfAny] at h
  split_ifs at h with hnil
  · rw [Option.some.injEq] at h
    subst h
    exact ⟨⟨s.pageTables, rfl⟩, by simp [hnil], fun _ _ => rfl⟩
  · exact updatePTEs_pte h

/-- The entries of a page that cannot be used are disabled. -/
theorem VirtualPage.entry_disabled {v : VirtualPage}
    (h : ∀ page ∈ v.physicalPage, v.resident = true → page.clocked = false) (old : PageTableEntry) :
    (v.entry old).Disabled := by
  have hbits : v.bits = (false, false) := by
    rw [VirtualPage.bits]
    split
    · rename_i page hresident hpage
      rw [h page hpage hresident]
      rfl
    · rfl
  exact ⟨congrArg Prod.fst hbits, congrArg Prod.snd hbits⟩

/-- The loop of `evict_and_replace` disables the entries of the pages that it passes. -/
theorem clockLoop_disables (fuel : ℕ) : ∀ {s s' : State}, clockLoop fuel s = some s' →
    s.clockQueue.Nodup → Disables (s.clockQueue.takeWhile s.clocked) s s' := by
  -- an entry that has been disabled stays so, since no page that is passed can be used after that
  induction fuel with
  | zero => intro s s' h; exact absurd h (by simp [clockLoop])
  | succ fuel ih =>
    intro s s' h hnodup
    rw [clockLoop] at h
    cases hqueue : s.clockQueue with
    | nil => simp [hqueue] at h
    | cons front rest =>
      have hnot : front ∉ rest := (List.nodup_cons.mp (hqueue ▸ hnodup)).1
      simp only [hqueue] at h
      split_ifs at h
      obtain ⟨page, hpage, h⟩ := Option.bind_eq_some_iff.mp h
      split_ifs at h with hclocked
      · have hclk : s.clocked front = true := by simp [State.clocked, hpage, hclocked]
        have hunclock : (s.pages front).unclock =
            { s.pages front with physicalPage := some { page with clocked := false } } := by
          simp [VirtualPage.unclock, hpage]
        rw [← hunclock] at h
        obtain ⟨s₁, hupdate, h⟩ := Option.bind_eq_some_iff.mp h
        obtain ⟨⟨tables, rfl⟩, hself, hother⟩ := updatePTEsIfAny_pte hupdate
        let next := (passFront s front rest).withTables tables
        have hperm : next.clockQueue.Perm s.clockQueue := by
          rw [hqueue]
          exact List.perm_append_singleton front rest
        have haff (x : PageId) : (next.pages x).affiliated = (s.pages x).affiliated := by
          by_cases heq : x = front
          · subst heq
            simp [next, passFront, State.withTables, State.setPage, VirtualPage.unclock]
          · simp [next, passFront, State.withTables, State.setPage, heq]
        have hfront : ((s.setPage front (s.pages front).unclock).pages front) =
            (s.pages front).unclock := update_self ..
        obtain ⟨hdisabled, hrest⟩ := ih (s := next) h (hperm.nodup_iff.mpr hnodup)
        rw [show next.clockQueue.takeWhile next.clocked = rest.takeWhile s.clocked from
          (takeWhile_passFront hnot).1] at hdisabled hrest
        simp only [haff] at hdisabled hrest
        rw [List.takeWhile_cons, if_pos hclk]
        refine ⟨fun x hx ptr hptr => ?_, fun ptr hptr => ?_⟩
        · by_cases hlater : ∃ y ∈ rest.takeWhile s.clocked, ptr ∈ (s.pages y).affiliated
          · obtain ⟨y, hy, hptr'⟩ := hlater
            exact hdisabled y hy ptr hptr'
          · have hxf : x = front := (List.mem_cons.mp hx).resolve_right fun hxr =>
              hlater ⟨x, hxr, hptr⟩
            subst hxf
            rw [hrest ptr fun y hy hptr' => hlater ⟨y, hy, hptr'⟩]
            refine (hself ptr (by rw [hfront]; exact hptr)).symm ▸ ?_
            rw [hfront, hunclock]
            exact VirtualPage.entry_disabled (by simp) _
        · rw [hrest ptr fun y hy => hptr y (List.mem_cons_of_mem _ hy)]
          exact hother ptr (by rw [hfront]; exact hptr front List.mem_cons_self)
      · have hclk : s.clocked front = false := by simp [State.clocked, hpage, hclocked]
        rw [Option.some.injEq] at h
        subst h
        rw [List.takeWhile_cons, if_neg (by simp [hclk])]
        exact ⟨fun x hx => absurd hx List.not_mem_nil, fun _ _ => rfl⟩

/-- A file is written without an effect on the page tables and the pages. -/
theorem fileWrite_pageTables {s' : State} {v : VirtualPage} {ppn : ℕ}
    (h : fileWrite v ppn s = some s') : s'.pageTables = s.pageTables ∧ s'.pages = s.pages := by
  rw [fileWrite] at h
  split at h
  · simp at h
  · split_ifs at h <;> (rw [Option.some.injEq] at h; subst h; exact ⟨rfl, rfl⟩)

/-- The victim's entries are disabled, and no others are changed but those of the replacement. -/
theorem replaceFront_pte {s' : State} {replacement victim : PageId} {rest : List PageId}
    (h : replaceFront replacement s = some s') (hqueue : s.clockQueue = victim :: rest)
    (hne : replacement ≠ victim) :
    (∀ ptr ∈ (s.pages victim).affiliated, (s'.pte ptr).Disabled) ∧
      ∀ ptr, ptr ∉ (s.pages replacement).affiliated → ptr ∉ (s.pages victim).affiliated →
        s'.pte ptr = s.pte ptr := by
  rw [replaceFront, hqueue] at h
  obtain ⟨page, hpage, h⟩ := Option.bind_eq_some_iff.mp h
  obtain ⟨s₁, hwrite, h⟩ := Option.bind_eq_some_iff.mp h
  have hsame : s₁.pageTables = s.pageTables ∧ s₁.pages = s.pages := by
    split_ifs at hwrite
    · have hsame := fileWrite_pageTables hwrite
      exact hsame
    · rw [Option.some.injEq] at hwrite
      subst hwrite
      exact ⟨rfl, rfl⟩
  obtain ⟨s₂, hupdate₂, h⟩ := Option.bind_eq_some_iff.mp h
  obtain ⟨⟨tables₂, rfl⟩, -, hother₂⟩ := updatePTEs_pte hupdate₂
  obtain ⟨s₄, hupdate₄, h⟩ := Option.bind_eq_some_iff.mp h
  obtain ⟨⟨tables₄, rfl⟩, hself₄, hother₄⟩ := updatePTEsIfAny_pte hupdate₄
  -- the last step only changes the registry
  have hlast : s'.pageTables = tables₄ := by
    split_ifs at h
    · rw [removeFromFilenameBlock] at h
      split at h
      · simp at h
      · rw [Option.some.injEq] at h
        subst h
        rfl
    · rw [Option.some.injEq] at h
      subst h
      rfl
  have hpte (ptr : PtePtr) : s'.pte ptr = tables₄ ptr.pid ptr.index := by rw [State.pte, hlast]
  simp only [State.setPage, State.withTables, hsame.2, update_self, update_of_ne hne.symm]
    at hother₂ hself₄ hother₄
  refine ⟨fun ptr hptr => ?_, fun ptr hrepl hptr => ?_⟩
  · have heq : s'.pte ptr = _ := (hpte ptr).trans (hself₄ ptr hptr)
    rw [heq]
    exact VirtualPage.entry_disabled (by simp) _
  · have heq₂ : tables₂ ptr.pid ptr.index = s₁.pte ptr := hother₂ ptr hrepl
    have heq₄ : tables₄ ptr.pid ptr.index = tables₂ ptr.pid ptr.index := hother₄ ptr hptr
    rw [hpte, heq₄, heq₂, State.pte, hsame.1, State.pte]

/-! ### Eviction -/

/-- Writing a page back changes only the files. -/
private theorem fileWrite_eq {victim : PageId} {page : PhysicalPage} (rest : List PageId)
    (hpage : (s.pages victim).physicalPage = some page) (hblocks : (s.pages victim).blocks ≠ []) :
    (if page.dirty = true then fileWrite (s.pages victim) page.ppn { s with clockQueue := rest }
      else some { s with clockQueue := rest }) =
    some { s with
      clockQueue := rest
      swapFile := (s.writeBack victim).swapFile
      files := (s.writeBack victim).files } := by
  obtain ⟨block, blocks, heq⟩ := List.exists_cons_of_ne_nil hblocks
  simp only [State.writeBack, hpage, fileWrite, heq]
  split_ifs <;> rfl

/-- The state after `replaceFront`, up to the page tables. -/
def State.replaced (s : State) (replacement victim : PageId) (ppn : ℕ) : State :=
  { s.evict victim with
    pages := update (s.evict victim).pages replacement
      { s.pages replacement with physicalPage := some ⟨ppn, true, false⟩ }
    nextFreePPN := []
    clockQueue := (s.evict victim).clockQueue ++ [replacement] }

private theorem writeBack_congr {s' : State} {id : PageId} (hpage : s'.pages id = s.pages id)
    (hphysmem : s'.physmem = s.physmem) (hswap : s'.swapFile = s.swapFile)
    (hfiles : s'.files = s.files) (haccessible : s'.accessible = s.accessible) :
    (s'.writeBack id).swapFile = (s.writeBack id).swapFile ∧
      (s'.writeBack id).files = (s.writeBack id).files := by
  cases hplace : (s.pages id).physicalPage with
  | none => simp [State.writeBack, hpage, hplace, hswap, hfiles]
  | some page =>
    by_cases hdirty : page.dirty = true
    · cases hblocks : (s.pages id).blocks with
      | nil => simp [State.writeBack, fileWrite, hpage, hplace, hdirty, hblocks, hswap, hfiles]
      | cons block blocks =>
        simp only [State.writeBack, fileWrite, hpage, hplace, hdirty, hblocks, hphysmem,
          hswap, hfiles, haccessible, if_true]
        by_cases hisSwap : (s.pages id).isSwap = true
        · simp [hisSwap]
        · cases hacc : s.accessible (s.pages id).filename block <;> simp [hisSwap, hswap, hfiles]
    · simp [State.writeBack, hpage, hplace, hdirty, hswap, hfiles]

private theorem replaced_withTables (replacement victim : PageId) (ppn : ℕ)
    (tables tables' : Pid → ℕ → PageTableEntry) :
    ((s.withTables tables).replaced replacement victim ppn).withTables tables' =
      (s.replaced replacement victim ppn).withTables tables' := by
  have hwrite : ((s.withTables tables).writeBack victim).swapFile = (s.writeBack victim).swapFile ∧
      ((s.withTables tables).writeBack victim).files = (s.writeBack victim).files :=
    writeBack_congr rfl rfl rfl rfl rfl
  exact State.ext rfl rfl rfl rfl rfl rfl rfl rfl rfl rfl rfl rfl rfl rfl hwrite.1 hwrite.2 rfl rfl

private theorem replaceFront_eq {replacement victim : PageId} {rest : List PageId}
    {page : PhysicalPage} (hqueue : s.clockQueue = victim :: rest)
    (hpage : (s.pages victim).physicalPage = some page) (hblocks : (s.pages victim).blocks ≠ [])
    (hfree : s.nextFreePPN = []) (hne : replacement ≠ victim)
    (hmapped : (s.pages replacement).affiliated ≠ [])
    (hlength : (s.pages replacement).isSwap = true →
      (s.pages replacement).affiliated.length = (s.pages replacement).blocks.length)
    (hattached : ∀ id ptr, ptr ∈ (s.pages id).affiliated → M ptr = some id)
    (hptes : Ptes (insert replacement E) L M s) :
    ∃ tables, replaceFront replacement s =
        some ((s.replaced replacement victim page.ppn).withTables tables) ∧
      Ptes (insert replacement E) L M ((s.replaced replacement victim
        page.ppn).withTables tables) := by
  -- the victim is written back, and the replacement gets its physical page
  let s₁ : State := { s with
    clockQueue := rest
    swapFile := (s.writeBack victim).swapFile
    files := (s.writeBack victim).files }
  let s₂ := s₁.setPage replacement
    { s₁.pages replacement with physicalPage := some ⟨page.ppn, true, false⟩ }
  have haff₂ (id : PageId) : (s₂.pages id).affiliated = (s.pages id).affiliated := by
    by_cases heq : id = replacement
    · subst heq
      simp [s₂, s₁, State.setPage]
    · simp [s₂, s₁, State.setPage, heq]
  have hptes₁ : Ptes (insert replacement E) L M s₁ := { hptes with }
  have hptes₂ : Ptes (insert replacement E) L M s₂ := by
    have h := hptes₁.setPage replacement
      { s₁.pages replacement with physicalPage := some ⟨page.ppn, true, false⟩ }
    rwa [Set.insert_eq_of_mem (Set.mem_insert replacement E)] at h
  obtain ⟨tables₂, hupdate₂, hptes₂'⟩ := hptes₂.updatePTEs replacement
    (fun id ptr hptr => hattached id ptr (haff₂ id ▸ hptr)) ⟨by rw [haff₂]; exact hmapped, fun _ =>
      ⟨⟨page.ppn, true, false⟩, by
      simp [s₂, State.setPage], by simpa [s₂, s₁, State.setPage] using hlength⟩⟩
  -- the victim loses it
  let s₃ : State := { s₂.withTables tables₂ with clockQueue := rest ++ [replacement] }
  let s₄ := s₃.setPage victim { s₃.pages victim with resident := false, physicalPage := none }
  have hvictim : s₂.pages victim = s.pages victim := update_of_ne hne.symm ..
  have haff₄ (id : PageId) : (s₄.pages id).affiliated = (s.pages id).affiliated := by
    rw [← haff₂]
    by_cases heq : id = victim
    · subst heq
      simp [s₄, s₃, State.setPage, State.withTables]
    · simp [s₄, s₃, State.setPage, State.withTables, heq]
  have hptes₃ : Ptes (insert replacement E) L M s₃ :=
    { hptes₂'.mono Set.sdiff_subset with }
  obtain ⟨tables, hupdate₄, hptes₄⟩ := (hptes₃.setPage victim _).updatePTEsIfAny victim
    (fun id ptr hptr => hattached id ptr (haff₄ id ▸ hptr))
    fun haff => ⟨haff, fun hres => absurd hres (by simp [State.setPage])⟩
  have hptes₄' : Ptes (insert replacement E) L M (s₄.withTables tables) :=
    hptes₄.mono fun id hid => hid.1.resolve_left hid.2
  have hpages : s₄.pages = (s.replaced replacement victim page.ppn).pages := by
    simp only [s₄, s₃, s₂, s₁, State.setPage, State.withTables, State.replaced, State.evict]
    rw [update_comm hne]
    simp [update_of_ne hne.symm]
  have hqueue' : (s.evict victim).clockQueue = rest := by simp [State.evict, hqueue]
  have hself₄ : (s₄.withTables tables).pages victim =
      { s.pages victim with resident := false, physicalPage := none } := by
    rw [← hvictim]
    exact update_self ..
  refine ⟨tables, ?_, ?_⟩
  · rw [replaceFront, hqueue]
    simp only [hpage, Option.bind_eq_bind, Option.bind_some]
    rw [fileWrite_eq rest hpage hblocks, Option.bind_some, hupdate₂, Option.bind_some]
    refine (bind_of_eq_some hupdate₄).trans ?_
    change (if ((s₄.withTables tables).pages victim).isSwap = false ∧
        ((s₄.withTables tables).pages victim).affiliated = [] then
      removeFromFilenameBlock victim (s₄.withTables tables) else some (s₄.withTables tables)) = _
    obtain ⟨block, blocks, hcons⟩ := List.exists_cons_of_ne_nil hblocks
    rw [hself₄]
    split_ifs with hdrop
    · simp only [removeFromFilenameBlock, hself₄, hcons]
      refine congrArg some (State.ext rfl rfl rfl rfl ?_ rfl ?_ ?_ rfl rfl rfl hpages
        rfl rfl rfl rfl
        rfl rfl)
      · have hdrop' : (s.pages victim).isSwap = false ∧ (s.pages victim).affiliated = [] := hdrop
        simp only [State.replaced, State.evict, State.withTables, if_pos hdrop', hcons]
        rfl
      · exact hfree
      · simp only [State.replaced, State.withTables, hqueue']
        rfl
    · refine congrArg some (State.ext rfl rfl rfl rfl ?_ rfl ?_ ?_ rfl rfl rfl hpages
        rfl rfl rfl rfl
        rfl rfl)
      · have hdrop' : ¬((s.pages victim).isSwap = false ∧ (s.pages victim).affiliated = []) := hdrop
        simp only [State.replaced, State.evict, State.withTables, if_neg hdrop']
        rfl
      · exact hfree
      · simp only [State.replaced, State.withTables, hqueue']
        rfl
  · refine ⟨fun id hid ptr hptr => ?_, hptes₄'.unmapped⟩
    have hold := hptes₄'.page id hid ptr
    rw [show (s₄.withTables tables).pages = (s.replaced replacement victim page.ppn).pages from
      hpages] at hold
    exact hold hptr

/-! ### Allocation -/

private theorem while_congr {α : Type*} {p q : α → Bool} {l : List α} (h : ∀ x ∈ l, p x = q x) :
    l.takeWhile p = l.takeWhile q ∧ l.dropWhile p = l.dropWhile q := by
  induction l with
  | nil => exact ⟨rfl, rfl⟩
  | cons x l ih =>
    have hx := h x List.mem_cons_self
    obtain ⟨htake, hdrop⟩ := ih fun y hy => h y (List.mem_cons_of_mem x hy)
    simp only [List.takeWhile_cons, List.dropWhile_cons, hx, htake, hdrop, and_self]

theorem State.clocked_setPage {id x : PageId} {v : VirtualPage} (hx : x ≠ id) :
    (s.setPage id v).clocked x = s.clocked x := by
  simp [State.clocked, State.setPage, hx]

/-- The clock does not touch a page that is not in the queue. -/
theorem State.turnClock_setPage {id : PageId} (v : VirtualPage) (hid : id ∉ s.clockQueue) :
    (s.setPage id v).turnClock = s.turnClock.setPage id v := by
  have hclocked (x : PageId) (hx : x ∈ s.clockQueue) : (s.setPage id v).clocked x =
      s.clocked x :=
    State.clocked_setPage fun heq => hid (heq ▸ hx)
  obtain ⟨htake, hdrop⟩ := while_congr hclocked
  have hpages : (s.setPage id v).turnClock.pages = (s.turnClock.setPage id v).pages := by
    funext x
    simp only [State.turnClock]
    rw [show (s.setPage id v).clockQueue = s.clockQueue from rfl, htake]
    by_cases heq : x = id
    · subst heq
      have hout : x ∉ s.clockQueue.takeWhile s.clocked := fun hmem =>
        hid ((List.takeWhile_sublist _).mem hmem)
      simp [hout, State.setPage]
    · simp [State.setPage, heq]
  have hqueue : (s.setPage id v).turnClock.clockQueue = s.turnClock.clockQueue := by
    simp only [State.turnClock]
    rw [show (s.setPage id v).clockQueue = s.clockQueue from rfl, htake, hdrop]
  exact State.ext rfl rfl rfl rfl rfl rfl rfl hqueue rfl rfl rfl hpages rfl rfl rfl rfl rfl rfl

/-- A state with a free physical page, which is obtained by an eviction if there is no free one. -/
def Reclaim (s t : State) : Prop :=
  s.nextFreePPN ≠ [] ∧ t = s ∨
    s.nextFreePPN = [] ∧ ∃ victim rest, s.turnClock.clockQueue = victim :: rest ∧
      t = s.turnClock.evict victim

theorem Reclaim.moves {t : State} (h : Reclaim s t) (strict keep : Prop) :
    Moves strict keep s t := by
  rcases h with ⟨-, rfl⟩ | ⟨hfree, victim, rest, hqueue, rfl⟩
  · exact Relation.ReflTransGen.refl
  · refine (Relation.ReflTransGen.single (Move.turnClock s.pageTables hfree)).tail ?_
    exact Move.evict (s := s.turnClock.withTables s.pageTables) s.pageTables hfree hqueue

/-- A page that is not in the queue stays where it is. -/
theorem Reclaim.page_eq {t : State} (h : Reclaim s t) {id : PageId} (hid : id ∉ s.clockQueue) :
    t.pages id = s.pages id := by
  rcases h with ⟨-, rfl⟩ | ⟨-, victim, rest, hqueue, rfl⟩
  · rfl
  · have hmem : victim ∈ s.clockQueue :=
      s.turnClock_queue_perm.mem_iff.mp (hqueue ▸ List.mem_cons_self)
    have hne : id ≠ victim := fun heq => hid (heq ▸ hmem)
    refine (update_of_ne hne ..).trans ?_
    exact (s.turnClock_page id).resolve_right fun h => hid h.1

theorem Queued.blocks_ne_nil (h : Queued s) (hmappings : Mappings n M s) (hframes : Frames m s)
    {id : PageId} (hid : id ∈ s.clockQueue) : (s.pages id).blocks ≠ [] := by
  cases hswap : (s.pages id).isSwap with
  | false =>
    obtain ⟨block, hblock⟩ := hmappings.file id hswap (hframes.not_fresh hmappings hid)
    simp [hblock]
  | true =>
    rcases h id hid with haff | ⟨⟨filename, block⟩, hkey⟩
    · rw [ne_eq, ← List.length_eq_zero_iff, hmappings.swap id hswap, List.length_eq_zero_iff]
      exact haff
    · rw [(hmappings.registry filename block id hkey).1] at hswap
      simp at hswap

/-- The page has an empty `PhysicalPage`, which `give_new_ppn` gives it before it looks for a free
one. -/
def State.withEmptyPage (s : State) (id : PageId) : State :=
  s.setPage id { s.pages id with physicalPage := some ⟨0, false, false⟩ }

/-- `evict_and_replace` turns the clock and evicts the page at the front of the queue, whose
physical page goes to the replacement. The entries of this page and of the pages that the clock has
passed are disabled. -/
theorem evictAndReplace_eq (h : Core m n s) (hm : 2 ≤ m) (hptes : Ptes E L s.entryPage s)
    {id : PageId} (hmapped : (s.pages id).affiliated ≠ []) (hid : id ∉ s.clockQueue)
    (hfree : s.nextFreePPN = []) :
    ∃ victim rest page tables, s.turnClock.clockQueue = victim :: rest ∧
      (s.turnClock.pages victim).physicalPage = some page ∧ page.ppn ≠ 0 ∧
      evictAndReplace id (s.withEmptyPage id) = some (((s.turnClock.withEmptyPage id).replaced id
        victim page.ppn).withTables tables) ∧
      Ptes (insert id E) L s.entryPage (((s.turnClock.withEmptyPage id).replaced id victim
        page.ppn).withTables tables) ∧
      (∀ x ∈ victim :: s.clockQueue.takeWhile s.clocked, ∀ ptr ∈ (s.pages x).affiliated,
        (tables ptr.pid ptr.index).Disabled) ∧
      ∀ ptr, (∀ x ∈ id :: victim :: s.clockQueue.takeWhile s.clocked,
        ptr ∉ (s.pages x).affiliated) → tables ptr.pid ptr.index = s.pte ptr := by
  obtain ⟨hmappings, hframes, -, hqueued⟩ := h
  let s₀ := s.withEmptyPage id
  have hne : s.clockQueue ≠ [] := by
    intro hnil
    have := hframes.size
    rw [hnil, hfree] at this
    simp only [List.length_nil] at this
    omega
  have hattached₀ (x : PageId) (ptr : PtePtr) (hptr : ptr ∈ (s₀.pages x).affiliated) :
      s.entryPage ptr = some x := by
    refine (hmappings.attached x ptr).mp ?_
    by_cases heq : x = id
    · subst heq
      simpa [s₀, State.withEmptyPage, State.setPage] using hptr
    · simpa [s₀, State.withEmptyPage, State.setPage, heq] using hptr
  have hsome₀ (x : PageId) (hx : x ∈ s₀.clockQueue) : (s₀.pages x).physicalPage.isSome := by
    have hxid : x ≠ id := fun heq => hid (heq ▸ hx)
    have hres := (hframes.page_of_mem_queue hx).1
    rw [hframes.resident] at hres
    simpa [s₀, State.withEmptyPage, State.setPage, hxid] using hres
  obtain ⟨tables₀, hloop, hptes₀⟩ := clockLoop_eq (s₀.clockQueue.length + 1) s₀
    (Nat.lt_succ_of_le (List.takeWhile_sublist _).length_le) hne hframes.queue_nodup
    (fun x hx => hqueued.exists hmappings hx) hsome₀ hattached₀ (hptes.setPage id _)
  -- the clock does not touch the replacement, which is not in the queue
  let u := s.turnClock
  have hother : u.pages id = s.pages id := if_neg fun hmem =>
    hid ((List.takeWhile_sublist _).mem hmem)
  have hturn : s₀.turnClock = u.withEmptyPage id := by
    rw [State.withEmptyPage, hother]
    exact State.turnClock_setPage _ hid
  have hu := hframes.turnClock
  have hreloc := s.relocation_turnClock
  obtain ⟨victim, rest, hqueue⟩ : ∃ victim rest, u.clockQueue = victim :: rest :=
    List.exists_cons_of_ne_nil fun hnil => hne (List.nil_perm.mp (hnil ▸ s.turnClock_queue_perm))
  have hvictim : victim ∈ u.clockQueue := hqueue ▸ List.mem_cons_self
  have hvictim' : victim ∈ s.clockQueue := s.turnClock_queue_perm.mem_iff.mp hvictim
  have hvid : id ≠ victim := fun heq => hid (heq ▸ hvictim')
  obtain ⟨-, page, hpage, hppn⟩ := hu.page_of_mem_queue hvictim
  have hblocks : (u.pages victim).blocks ≠ [] := by
    rw [hreloc.blocks]
    exact hqueued.blocks_ne_nil hmappings hframes hvictim'
  let s₁ := (u.withEmptyPage id).withTables tables₀
  rw [hturn] at hloop hptes₀
  have hvictim₁ : s₁.pages victim = u.pages victim := update_of_ne hvid.symm ..
  have hid₁ : s₁.pages id = { u.pages id with physicalPage := some ⟨0, false, false⟩ } :=
    update_self ..
  have hattached₁ (x : PageId) (ptr : PtePtr) (hptr : ptr ∈ (s₁.pages x).affiliated) :
      s.entryPage ptr = some x := by
    refine hattached₀ x ptr (s₀.relocation_turnClock.affiliated x ▸ ?_)
    rw [hturn]
    exact hptr
  obtain ⟨tables, hreplace, hptes₁⟩ := replaceFront_eq (s := s₁) hqueue (hvictim₁ ▸ hpage)
    (hvictim₁ ▸ hblocks) hfree hvid (by rw [hid₁, hother]; exact hmapped)
    (by rw [hid₁, hother]; exact fun hswap => (hmappings.swap id hswap).symm) hattached₁ hptes₀
  -- the entries of the pages that are passed are disabled by the loop, and those of the victim last
  have hclocked₀ (x : PageId) (hx : x ∈ s.clockQueue) : s₀.clocked x = s.clocked x :=
    State.clocked_setPage fun heq => hid (heq ▸ hx)
  have htake : s₀.clockQueue.takeWhile s₀.clocked = s.clockQueue.takeWhile s.clocked :=
    (while_congr hclocked₀).1
  have hdisables := clockLoop_disables _ hloop hframes.queue_nodup
  rw [htake] at hdisables
  have haff₀ (x : PageId) : (s₀.pages x).affiliated = (s.pages x).affiliated := by
    by_cases heq : x = id
    · subst heq
      simp [s₀, State.withEmptyPage, State.setPage]
    · simp [s₀, State.withEmptyPage, State.setPage, heq]
  have haff₁ (x : PageId) : (s₁.pages x).affiliated = (s.pages x).affiliated := by
    rw [← haff₀, ← s₀.relocation_turnClock.affiliated, hturn]
    rfl
  obtain ⟨hvictims, hothers⟩ := replaceFront_pte hreplace hqueue hvid
  simp only [haff₁] at hvictims hothers
  have hout (x : PageId) (hx : x ∈ s.clockQueue) (ptr : PtePtr)
      (hptr : ptr ∈ (s.pages x).affiliated) : ptr ∉ (s.pages id).affiliated := fun hptr' => by
    have heq := ((hmappings.attached x ptr).mp hptr).symm.trans
      ((hmappings.attached id ptr).mp hptr')
    exact hid (Option.some.inj heq ▸ hx)
  rw [replaced_withTables] at hreplace hptes₁
  refine ⟨victim, rest, page, tables, hqueue, hpage, hppn, (bind_of_eq_some hloop).trans hreplace,
    hptes₁, fun x hx ptr hptr => ?_, fun ptr hptr => ?_⟩
  · by_cases hv : ptr ∈ (s.pages victim).affiliated
    · exact hvictims ptr hv
    · have hpassed : x ∈ s.clockQueue.takeWhile s.clocked :=
        (List.mem_cons.mp hx).resolve_left fun heq => hv (heq ▸ hptr)
      have hxq : x ∈ s.clockQueue := (List.takeWhile_sublist _).mem hpassed
      have hsame : tables ptr.pid ptr.index = tables₀ ptr.pid ptr.index :=
        hothers ptr (hout x hxq ptr hptr) hv
      rw [hsame]
      exact hdisables.disabled x hpassed ptr ((haff₀ x).symm ▸ hptr)
  · obtain ⟨hnew, hv, hpassed⟩ := List.forall_mem_cons.mp hptr |>.imp_right List.forall_mem_cons.mp
    have hsame : tables ptr.pid ptr.index = tables₀ ptr.pid ptr.index := hothers ptr hnew hv
    rw [hsame]
    exact hdisables.other ptr fun x hx => (haff₀ x).symm ▸ hpassed x hx

/-- `give_new_ppn` allocates the first free physical page, after an eviction if there is none; the
contents of the physical page stay as they are. -/
theorem giveNewPpn_eq (h : Core m n s) (hm : 2 ≤ m) (hptes : Ptes E L s.entryPage s) {id : PageId}
    (hmapped : (s.pages id).affiliated ≠ []) (hid : id ∉ s.clockQueue) :
    ∃ t ppn rest tables, Reclaim s t ∧ t.nextFreePPN = ppn :: rest ∧
      giveNewPpn id s = some ((t.allocate id ⟨ppn, true, false⟩
        (t.physmem ppn)).withTables tables) ∧
      Ptes (insert id E) L s.entryPage
        ((t.allocate id ⟨ppn, true, false⟩ (t.physmem ppn)).withTables tables) := by
  rw [giveNewPpn]
  cases hfree : s.nextFreePPN with
  | cons ppn rest =>
    refine ⟨s, ppn, rest, s.pageTables, Or.inl ⟨by simp [hfree], rfl⟩, hfree, ?_, ?_⟩
    · have hfind : findPpn id (s.setPage id
          { s.pages id with physicalPage := some ⟨0, false, false⟩ }) =
          some { s.setPage id { s.pages id with physicalPage := some ⟨ppn, true, false⟩ } with
            nextFreePPN := rest
            clockQueue := s.clockQueue ++ [id] } := by
        rw [findPpn, show (s.setPage id _).nextFreePPN = ppn :: rest from hfree]
        simp [State.setPage]
      refine (bind_of_eq_some hfind).trans (congrArg some ?_)
      simp [State.allocate, State.withTables, State.setPage, hfree]
    · have h := hptes.setPage id { s.pages id with
        resident := true, physicalPage := some ⟨ppn, true, false⟩ }
      exact { h with }
  | nil =>
    obtain ⟨victim, rest, page, tables, hqueue, hpage, hppn, hevict, hptes₁, -⟩ :=
      evictAndReplace_eq h hm hptes hmapped hid hfree
    let u := s.turnClock
    let s₁ := u.withEmptyPage id
    have hvid : id ≠ victim := fun heq =>
      hid (s.turnClock_queue_perm.mem_iff.mp (by rw [heq, hqueue]; exact List.mem_cons_self))
    have hvictim₁ : s₁.pages victim = u.pages victim := update_of_ne hvid.symm ..
    have hid₁ : s₁.pages id = { u.pages id with physicalPage := some ⟨0, false, false⟩ } :=
      update_self ..
    have hframe : (u.pages victim).frame = [page.ppn] := VirtualPage.frame_eq_of_some hpage hppn
    have hresult : ((s₁.replaced id victim page.ppn).withTables tables).setPage id
          { (s₁.replaced id victim page.ppn).pages id with resident := true } =
        ((u.evict victim).allocate id ⟨page.ppn, true, false⟩
          ((u.evict victim).physmem page.ppn)).withTables tables := by
      have hwrite := writeBack_congr hvictim₁ rfl rfl rfl rfl
      refine State.ext rfl rfl rfl rfl ?_ rfl ?_ ?_ rfl rfl rfl ?_ rfl ?_ hwrite.1 hwrite.2 rfl rfl
      · simp only [State.replaced, State.evict, State.setPage, State.withTables, State.allocate,
          hvictim₁]
        rfl
      · simp [State.replaced, State.allocate, State.withTables, State.setPage, State.evict, hframe,
          show u.nextFreePPN = [] from hfree]
      · rfl
      · funext x
        simp only [State.replaced, State.allocate, State.withTables, State.setPage, State.evict,
          hvictim₁, update_self, update_idem, update_of_ne hvid, hid₁]
        by_cases hx : x = id
        · subst hx
          simp
        · by_cases hxv : x = victim
          · subst hxv
            simp [hx]
          · simp [hx, hxv, s₁, State.withEmptyPage, State.setPage]
      · exact (update_eq_self page.ppn s.physmem).symm
    refine ⟨u.evict victim, page.ppn, [], tables,
      Or.inr ⟨hfree, victim, rest, hqueue, rfl⟩, ?_, ?_, ?_⟩
    · simp only [State.evict, hframe]
      rw [show u.nextFreePPN = [] from hfree, List.nil_append]
    · have hfind : findPpn id (s.withEmptyPage id) =
          some ((s₁.replaced id victim page.ppn).withTables tables) := by
        rw [findPpn, show (s.withEmptyPage id).nextFreePPN = [] from hfree]
        exact hevict
      rw [← hresult]
      exact bind_of_eq_some hfind
    · rw [← hresult]
      have h := hptes₁.setPage id
        { (s₁.replaced id victim page.ppn).pages id with resident := true }
      rwa [Set.insert_eq_of_mem (Set.mem_insert id E)] at h

end OsFromScratch.Pager
