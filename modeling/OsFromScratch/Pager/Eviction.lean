import OsFromScratch.Pager.Coherence

/-!
# Evictions

`evict_and_replace` gives the pages in the queue a second chance: its victim is the first one that
has not been used since the hand of the clock passed it, or the one at the front if all have been
used. The victim is written back if it has been changed. Then its block holds its contents, as long
as there is no other page in memory for the same block.

## Main definitions

* `Replaces` — the states in which `evict_and_replace` is called.
* `SecondChance` — what it does.
* `State.EvictsFor` — what it is for: the block of the victim holds its contents in the end.

## Main results

* `Core.secondChance` — what `evict_and_replace` does.
* `Coherent.saved` — the block of the victim holds its contents if the cache of the blocks is
  coherent.
* `evictAndReplace_secondChance` — both for the states of runs.
-/

namespace OsFromScratch.Pager

open Function

variable {m n : ℕ} {E : Set PageId} {L : Set Pid} {s s' t : State} {id : PageId} {ptr : PtePtr}

/-- The pages for which `vm_fault` asks for a physical page, with the states in which it does: a
mapped page that has none of its own, or a copy that is going to be made of a shared page. -/
inductive Replaces (s : State) : PageId → State → Prop
  | fault {id : PageId} (hmapped : (s.pages id).affiliated ≠ []) (hout : id ∉ s.clockQueue) :
    Replaces s id s
  | copy {ptr : PtePtr} {id : PageId} {block : ℕ} (hptr : s.entryPage ptr = some id)
    (hswap : (s.pages id).isSwap = true) (hshared : 1 < (s.pages id).blocks.length)
    (hblock : (s.pages id).blocks.getLast? = some block) :
    Replaces s s.nextPage (s.split ptr id block)

/-- A page of the queue is evicted, between the pages ahead of it and those behind it, and another
page gets its physical page. -/
structure SecondChance (s : State) (replacement : PageId) (s' : State) (victim : PageId)
    (ahead behind passed : List PageId) (page : PhysicalPage) : Prop where
  queue : s.clockQueue = ahead ++ victim :: behind
  choice : (∀ x ∈ ahead, s.clocked x = true) ∧ s.clocked victim = false ∧ passed = ahead ∨
    ahead = [] ∧ (∀ x ∈ s.clockQueue, s.clocked x = true) ∧ passed = s.clockQueue
  place : (s.pages victim).physicalPage = some page
  turned : s'.clockQueue = behind ++ ahead ++ [replacement]
  pages : ∀ x, s'.pages x =
    if x = replacement then { s.pages x with physicalPage := some ⟨page.ppn, true, false⟩ }
    else if x = victim then { s.pages x with resident := false, physicalPage := none }
    else if x ∈ passed then (s.pages x).unclock
    else s.pages x
  disabled : ∀ x ∈ victim :: passed, ∀ ptr ∈ (s.pages x).affiliated, (s'.pte ptr).Disabled
  entries : ∀ ptr, (∀ x ∈ replacement :: victim :: passed, ptr ∉ (s.pages x).affiliated) →
    s'.pte ptr = s.pte ptr
  block : ∀ p, s'.block p =
    if p = (s.pages victim).place ∧ page.dirty = true then s.contents victim else s.block p
  memory : s'.physmem = s.physmem

/-- The clock stops at the first page that has not been used, or goes round once. -/
theorem State.turnClock_split {victim : PageId} {rest : List PageId}
    (hqueue : s.turnClock.clockQueue = victim :: rest) :
    ∃ ahead behind, s.clockQueue = ahead ++ victim :: behind ∧ rest = behind ++ ahead ∧
      ((∀ x ∈ ahead, s.clocked x = true) ∧ s.clocked victim = false ∧
        s.clockQueue.takeWhile s.clocked = ahead ∨
      ahead = [] ∧ (∀ x ∈ s.clockQueue, s.clocked x = true) ∧
        s.clockQueue.takeWhile s.clocked = s.clockQueue) := by
  have hall (x : PageId) (hx : x ∈ s.clockQueue.takeWhile s.clocked) : s.clocked x = true :=
    List.mem_takeWhile_imp hx
  have happend := List.takeWhile_append_dropWhile (p := s.clocked) (l := s.clockQueue)
  rw [State.turnClock] at hqueue
  cases hdrop : s.clockQueue.dropWhile s.clocked with
  | nil =>
    rw [hdrop, List.append_nil] at happend
    rw [hdrop, List.nil_append, happend] at hqueue
    exact ⟨[], rest, hqueue, (List.append_nil rest).symm,
      Or.inr ⟨rfl, fun x hx => hall x (happend.symm ▸ hx), happend⟩⟩
  | cons front behind =>
    rw [hdrop, List.cons_append, List.cons.injEq] at hqueue
    obtain ⟨rfl, rfl⟩ := hqueue
    have hfront : s.clocked front = false := by
      have hnot := List.head_dropWhile_not s.clocked (l := s.clockQueue) (by rw [hdrop]; simp)
      simpa [hdrop] using hnot
    exact ⟨_, behind, by rw [← hdrop]; exact happend.symm, rfl, Or.inl ⟨hall, hfront, rfl⟩⟩

/-- `evict_and_replace` evicts one page, and writes it back if it has been changed. -/
theorem Core.secondChance (h : Core m n s) (hm : 2 ≤ m) (hptes : Ptes E L s.entryPage s)
    (hmapped : (s.pages id).affiliated ≠ []) (hid : id ∉ s.clockQueue)
      (hfree : s.nextFreePPN = []) :
    ∃ s', evictAndReplace id (s.withEmptyPage id) = some s' ∧
      ∃ victim ahead behind passed page,
        SecondChance s id s' victim ahead behind passed page := by
  obtain ⟨victim, rest, page', tables, hqueue, hpage', -, hevict, -, hdisabled, hentries⟩ :=
    evictAndReplace_eq h hm hptes hmapped hid hfree
  obtain ⟨ahead, behind, hsplit, rfl, hchoice⟩ := State.turnClock_split hqueue
  have hvictim : victim ∈ s.clockQueue := by
    rw [hsplit]
    exact List.mem_append_right _ List.mem_cons_self
  have hvid : victim ≠ id := fun heq => hid (heq ▸ hvictim)
  obtain ⟨-, page, hpage, -⟩ := h.frames.page_of_mem_queue hvictim
  have hblocks := h.queued.blocks_ne_nil h.mappings h.frames hvictim
  have hread := h.readable_of_some hblocks hpage
  -- the page that the victim has is only marked as not used
  have hsame : page'.ppn = page.ppn ∧ page'.dirty = page.dirty := by
    rcases s.turnClock_page victim with heq | ⟨-, heq⟩
    · rw [heq, hpage, Option.some.injEq] at hpage'
      subst hpage'
      exact ⟨rfl, rfl⟩
    · rw [heq, VirtualPage.unclock, hpage, Option.map_some, Option.some.injEq] at hpage'
      subst hpage'
      exact ⟨rfl, rfl⟩
  let u := s.turnClock.withEmptyPage id
  have hu : u.pages victim = s.turnClock.pages victim := update_of_ne hvid ..
  have hplace : (u.pages victim).place = (s.pages victim).place := by
    rw [hu, s.relocation_turnClock.place]
  have hblock (p : Place) : (u.evict victim).block p =
      if p = (s.pages victim).place ∧ page.dirty = true then s.contents victim else s.block p := by
    have hblocks' : (u.pages victim).blocks ≠ [] := by
      rw [hu, s.relocation_turnClock.blocks]
      exact hblocks
    have hread' : u.Readable victim := by
      rw [State.Readable, hu]
      exact (s.relocation_turnClock.readable victim).mpr hread
    rw [State.block_evict hblocks' (hu ▸ hpage') hread' p, hplace, hsame.1, hsame.2,
      State.contents_of_some hblocks hpage]
    rfl
  refine ⟨_, hevict, victim, ahead, behind, s.clockQueue.takeWhile s.clocked, page, hsplit, hchoice,
    hpage, ?_, fun x => ?_, hdisabled, hentries, hblock, rfl⟩
  · have hvictim_queue : u.clockQueue.erase victim = behind ++ ahead := by
      rw [show u.clockQueue = s.turnClock.clockQueue from rfl, hqueue, List.erase_cons_head]
    exact congrArg (· ++ [id]) hvictim_queue
  · change update (update u.pages victim _) id _ x = _
    by_cases hx : x = id
    · have hturn : s.turnClock.pages id = s.pages id := if_neg fun hmem =>
        hid ((List.takeWhile_sublist _).mem hmem)
      have hself : u.pages id = { s.pages id with physicalPage := some ⟨0, false, false⟩ } := by
        rw [← hturn]
        exact update_self ..
      rw [if_pos hx, hx, update_self, hself, hsame.1]
    · rw [if_neg hx, update_of_ne hx]
      by_cases hxv : x = victim
      · rw [if_pos hxv, hxv, update_self, hu]
        have hreloc := s.turnClock_page victim
        rcases hreloc with heq | ⟨-, heq⟩
        · rw [heq]
        · rw [heq]
          rfl
      · rw [if_neg hxv, update_of_ne hxv, show u.pages x = s.turnClock.pages x from
          update_of_ne hx ..]
        rfl

/-- The block of the victim holds its contents afterwards. -/
theorem Coherent.saved (h : Coherent m n s) {victim : PageId} {ahead behind passed : List PageId}
    {page : PhysicalPage} (hchance : SecondChance s id s' victim ahead behind passed page) :
    s'.block (s.pages victim).place = s.contents victim := by
  have hvictim : victim ∈ s.clockQueue := by
    rw [hchance.queue]
    exact List.mem_append_right _ List.mem_cons_self
  obtain ⟨-, page', hpage', hppn⟩ := h.frames.page_of_mem_queue hvictim
  have hpage := hchance.place
  have heq := Option.mem_unique hpage' hpage
  subst heq
  have hblocks := h.queued.blocks_ne_nil h.mappings h.frames hvictim
  rw [hchance.block]
  split_ifs with hdirty
  · rfl
  · -- a page that has not been changed agrees with its block
    have hclean : page'.dirty = false := by simpa using hdirty
    have hline := State.line_of_some hblocks hpage
    rw [hclean, decide_eq_false hppn] at hline
    rw [State.contents_of_some hblocks hpage]
    exact h.clean victim _ hline

/-! ### Runs -/

/-- `evict_and_replace` gives the pages a second chance, and the block of the victim holds its
contents afterwards. -/
def State.EvictsFor (s : State) (replacement : PageId) : Prop :=
  ∃ s', evictAndReplace replacement (s.withEmptyPage replacement) = some s' ∧
    ∃ victim ahead behind passed page,
      SecondChance s replacement s' victim ahead behind passed page ∧
      s'.block (s.pages victim).place = s.contents victim

theorem Replaces.core (h : Replaces s id t) (hs : WellFormed m n s) : Core m n t ∧
    (∃ E, Ptes E {pid | pid ∈ t.processTable} t.entryPage t) ∧ (t.pages id).affiliated ≠ [] ∧
    id ∉ t.clockQueue ∧ t.nextFreePPN = s.nextFreePPN := by
  cases h with
  | fault hmapped hout => exact ⟨hs.toCore, ⟨_, hs.ptes⟩, hmapped, hout, rfl⟩
  | copy hptr hswap hshared hblock =>
    exact ⟨hs.toCore.split hptr hswap hblock hshared, ⟨_, hs.ptes.split⟩, by simp [State.split],
      fun hq => lt_irrefl _ (hs.frames.not_fresh hs.mappings hq), rfl⟩

theorem Replaces.coherent (h : Replaces s id t) (hs : Coherent m n s) : Coherent m n t := by
  cases h with
  | fault => exact hs
  | copy hptr hswap hshared hblock => exact hs.split hptr hswap hshared hblock

/-- In every state of a run in which no block of a file becomes accessible while a page for it is in
use that is not in the registry, `evict_and_replace` gives the pages a second chance and saves what
the victim holds. -/
theorem evictAndReplace_secondChance (hm : 2 ≤ m) (hm' : m ≤ 2 ^ 20) (n : ℕ)
    (physmem swapFile : ℕ → Contents) (files : Bytes → ℕ → Contents)
    (accessible : Bytes → ℕ → Bool) (garbage : ℕ → Contents) {calls : List Call}
    {results : List Result}
    (hrun : PagerRun Coherently (vmInit m n physmem swapFile files accessible garbage)
      calls results s) (hreplaces : Replaces s id t) (hfree : s.nextFreePPN = []) :
    t.EvictsFor id := by
  obtain ⟨hs, hcoherent⟩ := hrun.coherent hm hm'
    (vmInit_wellFormed hm n physmem swapFile files accessible garbage)
    (vmInit_coherent hm n physmem swapFile files accessible garbage)
  obtain ⟨hcore, ⟨E, hptes⟩, hmapped, hout, heq⟩ := hreplaces.core hs
  obtain ⟨t', hevict, victim, ahead, behind, passed, page, hchance⟩ :=
    hcore.secondChance hm hptes hmapped hout (heq.trans hfree)
  exact ⟨t', hevict, victim, ahead, behind, passed, page, hchance,
    (hreplaces.coherent hcoherent).saved hchance⟩

/-- A page that has been written is evicted for a page of zeroes. -/
theorem evictAndReplace_secondChance_written : ∃ results s, PagerRun Coherently
    (blankMachine 2 2 fun _ _ => false)
    [.create 0 1 [], .map 0 0, .store 0x600000000 7, .map 0 0] results s ∧ Replaces s 1 s ∧
    s.nextFreePPN = [] ∧ s.EvictsFor 1 := by
  obtain ⟨⟨results, s⟩, hrun, hfree, hmapped, hout⟩ : ∃ r,
      runAll exec mmuFaults [.create 0 1 [], .map 0 0, .store 0x600000000 7, .map 0 0]
        (blankMachine 2 2 fun _ _ => false) = some r ∧
      r.2.nextFreePPN = [] ∧ (r.2.pages 1).affiliated ≠ [] ∧ 1 ∉ r.2.clockQueue :=
    ⟨_, rfl, by decide +kernel⟩
  have hpager := (mmuRun_of_runAll hrun).coherently
  have hreplaces : Replaces s 1 s := .fault hmapped hout
  exact ⟨results, s, hpager, hreplaces, hfree,
    evictAndReplace_secondChance (by decide) (by decide) 2 _ _ _ _ _ hpager hreplaces hfree⟩

/-- A page that lost its place in the registry in a failed read, and another one that has been made
for the same block and written, are both in memory: the second one is evicted and written back, and
then the block does not hold the contents of the first one. -/
theorem not_evictAndReplace_saved : ¬ ∀ (calls : List Call) (results : List Result) (s t : State)
    (id : PageId), PagerRun Proper (blankMachine 3 1 fun _ _ => false) calls results s →
    Replaces s id t → s.nextFreePPN = [] → t.EvictsFor id := by
  have hcomputed : ((runAll exec mmuFaults
      [.create 0 1 [], .map 0 0, .map 0x600000000 0, .load 0x600010000]
      (blankMachine 3 1 fun _ _ => false)).any fun r =>
      (runAll exec mmuFaults [.map 0x600000000 0, .store 0x600020000 5, .load 0x600010000,
        .store 0x600000000 0] { r.2 with accessible := fun _ _ => true }).any fun r' =>
      r'.2.nextFreePPN = [] ∧ (r'.2.pages 2).affiliated ≠ [] ∧ r'.2.clockQueue = [1, 0] ∧
      r'.2.clocked 1 = false ∧ (r'.2.pages 1).physicalPage.any PhysicalPage.dirty = false ∧
      r'.2.block (r'.2.pages 1).place 0 ≠ r'.2.contents 1 0) = true := by decide +kernel
  obtain ⟨r, hrun, hcomputed⟩ := (Option.any_eq_true ..).mp hcomputed
  obtain ⟨r', hrun', hcomputed⟩ := (Option.any_eq_true ..).mp hcomputed
  obtain ⟨hfree, hmapped, hqueue, hclocked, hclean, hdiffer⟩ := of_decide_eq_true hcomputed
  have hpager := PagerRun.of_opened hrun hrun'
  intro hclaim
  obtain ⟨t', -, victim, ahead, behind, passed, page, hchance, hsaved⟩ :=
    hclaim _ _ r'.2 r'.2 2 hpager (.fault hmapped (by rw [hqueue]; decide)) hfree
  -- the victim is the first page, which has not been changed
  have hvictim : victim = 1 := by
    have hsplit := hchance.queue
    rw [hqueue] at hsplit
    cases ahead with
    | nil => exact ((List.cons.injEq ..).mp hsplit).1.symm
    | cons x ahead =>
      have hx : x = 1 := ((List.cons.injEq ..).mp hsplit).1.symm
      rcases hchance.choice with ⟨hall, -⟩ | ⟨hnil, -⟩
      · have hused := hall x List.mem_cons_self
        rw [hx, hclocked] at hused
        exact absurd hused Bool.false_ne_true
      · exact absurd hnil (List.cons_ne_nil _ _)
  subst hvictim
  have hdirty : page.dirty = false := by
    rw [hchance.place] at hclean
    exact hclean
  rw [hchance.block, if_neg (by simp [hdirty])] at hsaved
  exact hdiffer (congrFun hsaved 0)

end OsFromScratch.Pager
