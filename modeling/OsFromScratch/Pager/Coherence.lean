import OsFromScratch.Pager.Contents

/-!
# Coherence along runs

Every call keeps the cache of the blocks coherent, as long as no block of a file becomes accessible
while a page for it is in use that has lost its place in the registry. Without the last condition
two pages can be in memory for the same block.

## Main definitions

* `Call.KeepsRegistered` — no such block becomes accessible.
* `Coherently` — the calls of the infrastructure, with this condition.

## Main results

* `Effect.coherent` — a call keeps the cache coherent.
* `PagerRun.coherent` — the cache is coherent after every run.
-/

namespace OsFromScratch.Pager

open Function

variable {m n : ℕ} {s s' : State} {id : PageId} {ptr : PtePtr} {strict keep : Prop}

/-! ### What calls do to the cache -/

theorem State.cache_touchVA (s : State) (pid : Pid) : (s.touchVA pid).cache = s.cache := by
  obtain ⟨maps, heq⟩ := s.touchVA_eq pid
  rw [heq]
  rfl

/-- A page that has not been made has no line. -/
theorem State.line_of_new (hnew : s.pages id = .new) : s.cache.line id = none :=
  State.line_of_none (by rw [hnew]; rfl)

/-- Only one page is changed. -/
theorem State.line_of_ne {v : VirtualPage} (hpages : s'.pages = update s.pages id v)
    (hphysmem : s'.physmem = s.physmem) {x : PageId} (hx : x ≠ id) :
    s'.cache.line x = s.cache.line x := by
  simp only [State.cache, hpages, hphysmem, update_of_ne hx]

theorem State.place_update {v : VirtualPage} (hpages : s'.pages = update s.pages id v) :
    s'.cache.place = update s.cache.place id v.place := by
  funext x
  simp only [State.cache, hpages]
  by_cases hx : x = id
  · subst hx
    rw [update_self, update_self]
  · rw [update_of_ne hx, update_of_ne hx]

/-- A new page of zeroes. -/
theorem State.cache_addZero (s : State) (ptr : PtePtr) (block : ℕ) (rest : List ℕ) :
    (s.addZero ptr block rest).cache =
      (s.cache.relocate s.nextPage (.inr block)).fill s.nextPage (s.physmem 0) true := by
  have hpages : (s.addZero ptr block rest).pages = update s.pages s.nextPage _ := rfl
  refine Cache.ext (State.place_update hpages) (funext fun x => ?_) rfl
  by_cases hx : x = s.nextPage
  · subst hx
    rw [Cache.fill_line_self]
    simp [State.cache, State.addZero, VirtualPage.new, State.setVA]
  · rw [Cache.fill_line_of_ne hx]
    exact State.line_of_ne hpages rfl hx

/-- A new page of a file. -/
theorem State.cache_addFile (hnew : s.pages s.nextPage = .new) (ptr : PtePtr) (filename : Bytes)
    (block : ℕ) : (s.addFile ptr filename block).cache =
      s.cache.relocate s.nextPage (.inl (filename, block)) := by
  have hpages : (s.addFile ptr filename block).pages = update s.pages s.nextPage _ := rfl
  refine Cache.ext (State.place_update hpages) (funext fun x => ?_) rfl
  by_cases hx : x = s.nextPage
  · subst hx
    refine (State.line_of_none ?_).trans (State.line_of_new hnew).symm
    simp [State.addFile, VirtualPage.new]
  · exact State.line_of_ne hpages rfl hx

/-- The first block of a page holds its data, so that others can be added. -/
theorem VirtualPage.place_append {v v' : VirtualPage} (hblocks : v.blocks ≠ [])
    (hswap : v'.isSwap = v.isSwap) (hfilename : v'.filename = v.filename) {extra : List ℕ}
    (heq : v'.blocks = v.blocks ++ extra) : v'.place = v.place := by
  obtain ⟨block, rest, hcons⟩ := List.exists_cons_of_ne_nil hblocks
  simp [VirtualPage.place, VirtualPage.key, hswap, hfilename, heq, hcons]

/-- One page is changed, but not its first block and its place in memory. -/
theorem State.cache_of_same {v : VirtualPage} (hpages : s'.pages = update s.pages id v)
    (hphysmem : s'.physmem = s.physmem) (hblock : s'.block = s.block)
    (hplace : v.place = (s.pages id).place) (hpage : v.physicalPage = (s.pages id).physicalPage)
    (hnil : v.blocks = [] ↔ (s.pages id).blocks = []) : s'.cache = s.cache := by
  refine Cache.ext ?_ (funext fun x => ?_) hblock
  · rw [State.place_update hpages, hplace]
    exact update_eq_self id s.cache.place
  · by_cases hx : x = id
    · subst hx
      simp only [State.cache, hpages, hphysmem, update_self, hnil, hpage]
    · exact State.line_of_ne hpages hphysmem hx

theorem State.cache_attach (hblocks : (s.pages id).blocks ≠ []) (ptr : PtePtr)
    (extra rest : List ℕ) : (s.attach ptr id extra rest).cache = s.cache :=
  have hpages : (s.attach ptr id extra rest).pages = update s.pages id _ := rfl
  State.cache_of_same hpages rfl rfl (VirtualPage.place_append hblocks rfl rfl rfl) rfl
    (by simp [hblocks])

/-- A page of which an address is detached keeps its place, unless it has no blocks any more. -/
theorem State.cache_detach (s : State) (ptr : PtePtr) (id : PageId) :
    (s.detach ptr id).cache = s.cache ∨
      ((s.pages id).detach ptr).blocks = [] ∧ ∃ p, (s.detach ptr id).cache =
        (s.cache.drop id).relocate id p := by
  let v := (s.pages id).detach ptr
  have hself : (s.detach ptr id).pages id =
      if v.Released then { v with resident := false, physicalPage := none } else v := update_self ..
  by_cases hnil : v.blocks = []
  · obtain ⟨w, hpages⟩ : ∃ w, (s.detach ptr id).pages = update s.pages id w := ⟨_, rfl⟩
    refine Or.inr ⟨hnil, w.place, Cache.ext (State.place_update hpages) (funext fun x => ?_) rfl⟩
    by_cases hx : x = id
    · subst hx
      have hblocks : ((s.detach ptr x).pages x).blocks = [] := by
        rw [hself]
        split_ifs <;> exact hnil
      simp [State.cache, hblocks, Cache.relocate, Cache.drop]
    · have hline : ((s.cache.drop id).relocate id w.place).line x = s.cache.line x :=
        update_of_ne hx ..
      rw [hline]
      exact State.line_of_ne hpages rfl hx
  · have hpages : (s.detach ptr id).pages = update s.pages id v := by
      simp only [State.detach]
      rw [if_neg fun hreleased => hnil hreleased.1]
    obtain ⟨extra, hextra⟩ : ∃ extra, (s.pages id).blocks = v.blocks ++ extra := by
      rw [show v.blocks = if (s.pages id).isSwap then (s.pages id).blocks.dropLast
        else (s.pages id).blocks from rfl]
      split_ifs
      · obtain ⟨extra, hextra⟩ := List.dropLast_prefix (s.pages id).blocks
        exact ⟨extra, hextra.symm⟩
      · exact ⟨[], (List.append_nil _).symm⟩
    have hne : (s.pages id).blocks ≠ [] := by
      rw [hextra]
      simp [hnil]
    have hplace : (s.pages id).place = v.place := VirtualPage.place_append hnil rfl rfl hextra
    exact Or.inl (State.cache_of_same hpages rfl rfl hplace.symm rfl (by simp [hnil, hne]))

/-- A copy of a shared page is going to be made. -/
theorem State.cache_split (hnew : s.pages s.nextPage = .new) (hswap : (s.pages id).isSwap = true)
    (hshared : 1 < (s.pages id).blocks.length) (ptr : PtePtr) (block : ℕ) :
    (s.split ptr id block).cache = s.cache.relocate s.nextPage (.inr block) := by
  let v : VirtualPage := { s.pages id with
    affiliated := (s.pages id).affiliated.erase ptr, blocks := (s.pages id).blocks.dropLast }
  let t : State := { s with pages := update s.pages id v }
  have hid : s.nextPage ≠ id := by
    rintro rfl
    rw [hnew] at hswap
    exact absurd hswap Bool.false_ne_true
  have hne : v.blocks ≠ [] := by
    rw [ne_eq, ← List.length_eq_zero_iff, List.length_dropLast]
    omega
  have ht : t.cache = s.cache := by
    obtain ⟨extra, hextra⟩ := List.dropLast_prefix (s.pages id).blocks
    have hplace : (s.pages id).place = v.place :=
      VirtualPage.place_append hne rfl rfl hextra.symm
    have hblocks : (s.pages id).blocks ≠ [] := by
      intro hnil
      rw [hnil] at hshared
      simp at hshared
    have hpages : t.pages = update s.pages id v := rfl
    exact State.cache_of_same hpages rfl rfl hplace.symm rfl (by simp [hne, hblocks])
  rw [← ht]
  have hpages : (s.split ptr id block).pages = update t.pages s.nextPage _ := rfl
  refine Cache.ext (State.place_update hpages) (funext fun x => ?_) rfl
  by_cases hx : x = s.nextPage
  · subst hx
    refine (State.line_of_none ?_).trans (State.line_of_new ?_).symm
    · simp [State.split, VirtualPage.new]
    · exact (update_of_ne hid ..).trans hnew
  · exact State.line_of_ne hpages rfl hx

/-- A byte is stored in a page that is in memory. -/
theorem State.cache_poke (hframes : Frames m s) {page : PhysicalPage}
    (hblocks : (s.pages id).blocks ≠ []) (hpage : (s.pages id).physicalPage = some page)
    (hppn : page.ppn ≠ 0) (hdirty : page.dirty = true) (offset : ℕ) (byte : UInt8) :
    (s.poke page.ppn offset byte).cache = s.cache.fill id
      (update (s.contents id) (Fin.ofNat vmPagesize offset) byte) true := by
  refine Cache.ext rfl (funext fun x => ?_) rfl
  by_cases hx : x = id
  · subst hx
    rw [Cache.fill_line_self, State.contents_of_some hblocks hpage]
    refine (State.line_of_some (s := s.poke page.ppn offset byte) hblocks hpage).trans ?_
    simp [State.poke, hdirty]
  · rw [Cache.fill_line_of_ne hx]
    simp only [State.cache]
    change (if (s.pages x).blocks = [] then none else Option.map _ (s.pages x).physicalPage) = _
    split_ifs
    · rfl
    · cases hpage' : (s.pages x).physicalPage with
      | none => rfl
      | some page' =>
        have hne : page'.ppn ≠ page.ppn := fun heq =>
          hx (hframes.eq_of_ppn hpage' hpage (heq ▸ hppn) heq)
        simp [State.poke, update_of_ne hne]

/-! ### Calls keep the cache clean -/

theorem Created.clean {parent child : Pid} {order : List (ℕ × PageId)}
    (h : Created parent child order s s') (hs : WellFormed m n s)
    (horder : order.Perm (s.mappings parent)) (hclean : s.cache.Clean) : s'.cache.Clean := by
  obtain ⟨count, t, -, hinherit, rfl⟩ := h
  have ht : t.cache.Clean := by
    refine hinherit.relates (R := fun s t => s.cache.Clean → t.cache.Clean) (fun _ => id)
      (fun hst htu => htu ∘ hst) ?_ ?_ { hs.inheritable horder with } hclean
    · intro s ptr block free tables hnew hclean
      have hcache : ((s.addZero ptr block free).withTables tables).cache = _ :=
        s.cache_addZero ptr block free
      rw [hcache]
      exact (hclean.relocate (State.line_of_new hnew) _).fill_dirty _ _
    · intro s ptr id extra free tables hblocks hclean
      have hcache : ((s.attach ptr id extra free).withTables tables).cache = s.cache :=
        State.cache_attach hblocks ptr extra free
      rwa [hcache]
  split_ifs
  · exact ht
  · exact ht

theorem Drop.clean {pid : Pid} {order : List (ℕ × PageId)} (h : Drop pid order s s')
    (hclean : s.cache.Clean) : s'.cache.Clean := by
  induction h with
  | nil => exact hclean
  | @cons s s' i id rest tables _ ih =>
    refine ih ?_
    have hdetach : (s.detach ⟨pid, i⟩ id).cache.Clean := by
      rcases s.cache_detach ⟨pid, i⟩ id with heq | ⟨-, p, heq⟩
      · rwa [heq]
      · rw [heq]
        exact (hclean.drop id).relocate (update_self ..) p
    exact hdetach

/-- A copy of a shared page is going to be made. -/
theorem Coherent.split (hs : Coherent m n s) {block : ℕ} (hptr : s.entryPage ptr = some id)
    (hswap : (s.pages id).isSwap = true) (hshared : 1 < (s.pages id).blocks.length)
    (hblock : (s.pages id).blocks.getLast? = some block) :
    Coherent m n (s.split ptr id block) where
  toCore := hs.toCore.split hptr hswap hblock hshared
  registered := hs.registered.split hswap ptr block
  clean := by
    have hnew : s.pages s.nextPage = .new := hs.mappings.fresh _ le_rfl
    rw [State.cache_split hnew hswap hshared]
    exact hs.clean.relocate (State.line_of_new hnew) _

theorem Copy.coherent (h : Copy s s' ptr id) (hm : m ≤ 2 ^ 20) (hs : Coherent m n s)
    (hs' : Core m n s') : Coherent m n s' := by
  have hkeep : Keeping (accessibleKeys s.accessible) False s := fun _ hK => Or.inl hK
  have hreg : RegisteredOpen s' := by
    rw [RegisteredOpen, h.same.2.2.2.2]
    exact hs.registered.copy hs.toCore hkeep h
  refine ⟨hs', hreg, ?_⟩
  obtain ⟨block, t, ppn, rest, tables, hblock, hreclaim, hfree, rfl⟩ := h.result
  have ht := ((hreclaim.moves True False).coherent hm (hs.split h.mapped h.swap h.shared hblock)).1
  have hblocks : (t.pages s.nextPage).blocks ≠ [] := by
    rw [(hreclaim.moves True False).relocation.blocks]
    simp [State.split]
  have hcache : (t.allocate s.nextPage ⟨ppn, true, true⟩ (t.copied id ppn)).cache = _ :=
    State.cache_allocate ht.frames (hfree ▸ List.mem_cons_self) hblocks _
  change (t.allocate s.nextPage ⟨ppn, true, true⟩ (t.copied id ppn)).cache.Clean
  rw [hcache]
  exact ht.clean.fill_dirty _ _

theorem WellFormed.coherent (h : WellFormed m n s) (hreg : RegisteredOpen s)
    (hclean : s.cache.Clean) : Coherent m n s :=
  ⟨h.toCore, hreg, hclean⟩

theorem Coherent.touchVA (h : Coherent m n s) (hrun : s.Running) (hs : WellFormed m n s) :
    Coherent m n (s.touchVA s.currentPid) := by
  refine ((hs.touchVA hrun.1).coherent ?_ ?_)
  · rw [RegisteredOpen, s.accessible_touchVA]
    exact h.registered.touchVA s.currentPid
  · rw [s.cache_touchVA]
    exact h.clean

theorem Faulted.coherent (h : Faulted True keep s s') (hm : m ≤ 2 ^ 20) (hrun : s.Running)
    (hs : WellFormed m n s) (hcoherent : Coherent m n s) (hs' : WellFormed m n s') :
    Coherent m n s' := by
  obtain ⟨s₁, hmoves, hcopy⟩ := h
  have h₁ := (hmoves.coherent hm (hcoherent.touchVA hrun hs)).1
  rcases hcopy with rfl | ⟨ptr, id, hcopy⟩
  · exact h₁
  · exact hcopy.coherent hm h₁ hs'.toCore

theorem MapResult.clean {theirFilename block : ℕ} {result : Option ℕ}
    (h : MapResult True keep m n s theirFilename block result s') (hm : m ≤ 2 ^ 20)
    (hrun : s.Running) (hs : WellFormed m n s) (hcoherent : Coherent m n s) :
    s'.cache.Clean := by
  cases h with
  | full => exact hcoherent.clean
  | noBlock => exact hcoherent.clean
  | @zero i b rest tables =>
    change (s.addZero ⟨s.currentPid, i⟩ b rest).cache.Clean
    rw [State.cache_addZero]
    have hnew := State.line_of_new (hs.mappings.fresh _ le_rfl)
    exact (hcoherent.clean.relocate hnew _).fill_dirty _ _
  | @file i s₁ _ _ name _ _ _ hmoves _ hnone hsome =>
    have h₁ := (hmoves.coherent hm (hcoherent.touchVA hrun hs)).1
    cases name with
    | none =>
      rw [(hnone rfl).2]
      exact h₁.clean
    | some filename =>
      obtain ⟨-, tables, rfl⟩ := hsome filename rfl
      change (s₁.mapFile ⟨s.currentPid, i⟩ filename block).cache.Clean
      rw [State.mapFile]
      cases hlookup : s₁.filenameBlockToVpage.lookup (filename, block) with
      | some id =>
        obtain ⟨-, -, hblock⟩ := h₁.mappings.registry filename block id hlookup
        simp only
        rw [State.cache_attach (by rw [hblock]; exact List.cons_ne_nil _ _)]
        exact h₁.clean
      | none =>
        have hnew : s₁.pages s₁.nextPage = .new := h₁.mappings.fresh _ le_rfl
        simp only
        rw [State.cache_addFile hnew]
        exact h₁.clean.relocate (State.line_of_new hnew) _

/-- A store makes the line of a page dirty. -/
theorem WellFormed.cache_poke (hs : WellFormed m n s) (hm : m ≤ 2 ^ 20)
    {page : PhysicalPage} (hpage : page ∈ (s.pages id).physicalPage)
    (hwrite : (s.pages id).bits.2 = true) (offset : ℕ) (byte : UInt8) :
    (s.poke (page.ppn % 2 ^ 20) offset byte).cache = s.cache.fill id
      (update (s.contents id) (Fin.ofNat vmPagesize offset) byte) true := by
  obtain ⟨⟨hpos, hlt⟩, hdirty, -⟩ := hs.ppn_of_writable hpage hwrite
  have hppn : page.ppn ≠ 0 := by omega
  have hid : id ∈ s.clockQueue := by
    rw [hs.frames.mem_queue, VirtualPage.frame_eq_of_some hpage hppn]
    exact List.cons_ne_nil _ _
  rw [Nat.mod_eq_of_lt (by omega)]
  exact State.cache_poke hs.frames (hs.queued.blocks_ne_nil hs.mappings hs.frames hid) hpage hppn
    hdirty offset byte

/-! ### Runs -/

/-- No block of a file becomes accessible while a page for it is in use that is not in the
registry. -/
def Call.KeepsRegistered (s : State) : Call → Prop
  | .setAccessible accessible => Registered (accessibleKeys accessible) s
  | _ => True

/-- A call keeps the cache coherent. -/
theorem Effect.coherent {call : Call} {result : Result}
    (h : Effect True keep m n s call result s') (hm : m ≤ 2 ^ 20) (hs : WellFormed m n s)
    (hs' : WellFormed m n s') (hcall : call.Promised s) (hkeeps : call.KeepsRegistered s)
    (hcoherent : Coherent m n s) : Coherent m n s' := by
  have hreg : RegisteredOpen s' := by
    by_cases hfixed : call.Fixed
    · rw [RegisteredOpen, h.accessible hfixed]
      exact h.registered hs hcall hcoherent.registered fun _ hK => Or.inl hK
    · cases h with
      | setAccessible accessible =>
        have hnew : Registered (accessibleKeys accessible) s := hkeeps
        exact hnew.congr rfl rfl
      | _ => exact absurd trivial hfixed
  refine ⟨hs'.toCore, hreg, ?_⟩
  have hclean := hcoherent.clean
  cases h with
  | refuse tables => exact hclean
  | create _ hcreated => exact hcreated.clean hs hcall.2 hclean
  | switch pid => exact hclean
  | map hmap => exact hmap.clean hm hcall hs hcoherent
  | destroy hdrop =>
    refine hdrop.clean ?_
    rw [s.cache_touchVA]
    exact hclean
  | fault hfaulted => exact (hfaulted.coherent hm hcall hs hcoherent hs').clean
  | load haccess => exact (haccess.faulted.coherent hm hcall.1 hs hcoherent hs').clean
  | denied haccess => exact (haccess.faulted.coherent hm hcall.1 hs hcoherent hs').clean
  | @store addr ppn byte t haccess hwf =>
    obtain ⟨id, page, hpage, -, rfl, hwrite⟩ := haccess.page ppn rfl
    have ht := haccess.faulted.coherent hm hcall.1 hs hcoherent hwf
    rw [hwf.cache_poke hm hpage (hwrite rfl)]
    exact ht.clean.fill_dirty _ _
  | setAccessible accessible => exact hclean

/-- The infrastructure keeps its promises, calls `vm_fault` for accesses that are not allowed, and
makes no block accessible that has a page in use outside the registry. -/
def Coherently (_ : List Call) (s : State) (call : Call) : Prop :=
  call.Promised s ∧ call.Refused s ∧ call.KeepsRegistered s

/-- The infrastructure keeps its promises, and calls `vm_fault` for accesses that are not
allowed. -/
def Proper (_ : List Call) (s : State) (call : Call) : Prop :=
  call.Promised s ∧ call.Refused s

/-- Runs in which the accessible blocks stay the same. -/
theorem PagerRun.proper {calls : List Call} {results : List Result}
    (h : PagerRun MmuFaults s calls results s') : PagerRun Proper s calls results s' :=
  Runs.mono (fun _ _ _ hcall => ⟨hcall.1, hcall.2.1⟩) h

/-- A run that has been computed, in which all file blocks become accessible. -/
theorem PagerRun.of_opened {calls calls' : List Call} {results results' : List Result} {t : State}
    (h : runAll exec mmuFaults calls s = some (results, t))
    (h' : runAll exec mmuFaults calls' { t with accessible := fun _ _ => true } =
      some (results', s')) :
    PagerRun Proper s (calls ++ [.setAccessible fun _ _ => true] ++ calls')
      (results ++ [.done] ++ results') s' := by
  have hcall : Proper calls t (.setAccessible fun _ _ => true) :=
    ⟨fun _ _ _ _ _ => rfl, trivial⟩
  exact ((mmuRun_of_runAll h).proper.snoc hcall rfl).append (mmuRun_of_runAll h').proper

theorem Call.Fixed.keepsRegistered {call : Call} (h : call.Fixed) : call.KeepsRegistered s := by
  cases call with
  | setAccessible => exact False.elim h
  | _ => trivial

theorem PagerRun.coherently {calls : List Call} {results : List Result}
    (h : PagerRun MmuFaults s calls results s') : PagerRun Coherently s calls results s' :=
  Runs.mono (fun _ _ _ hcall => ⟨hcall.1, hcall.2.1, hcall.2.2.keepsRegistered⟩) h

theorem vmInit_coherent (hm : 2 ≤ m) (n : ℕ) (physmem swapFile : ℕ → Contents)
    (files : Bytes → ℕ → Contents) (accessible : Bytes → ℕ → Bool) (garbage : ℕ → Contents) :
    Coherent m n (vmInit m n physmem swapFile files accessible garbage) := by
  refine (vmInit_wellFormed hm n _ _ _ _ _).coherent ?_ fun id contents hline => ?_
  · rintro id - (haff | hframe)
    · exact absurd rfl haff
    · exact absurd rfl hframe
  · rw [State.line_of_new rfl] at hline
    cases hline

/-- The cache is coherent after every run. -/
theorem PagerRun.coherent {calls : List Call} {results : List Result} (hm : 2 ≤ m)
    (hm' : m ≤ 2 ^ 20) (hrun : PagerRun Coherently s calls results s') (hs : WellFormed m n s)
    (hcoherent : Coherent m n s) : WellFormed m n s' ∧ Coherent m n s' := by
  refine hrun.invariant (fun _ _ t => WellFormed m n t ∧ Coherent m n t) ⟨hs, hcoherent⟩ ?_
  rintro calls results t t' call result ⟨ht, hc⟩ ⟨hpromised, hrefused, hkeeps⟩ hexec
  have hkeep : False → call.Keeps True False m n t := False.elim
  obtain ⟨ht', heffect⟩ := Effect.of_exec ht hm hpromised (fun _ => hrefused) hkeep hexec
  exact ⟨ht', heffect.coherent hm' ht ht' hpromised hkeeps hc⟩

end OsFromScratch.Pager
