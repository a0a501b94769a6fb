import OsFromScratch.Pager.Runs

/-!
# The registry of file pages

A page of a file that is mapped or in memory is the one that the registry has for its block. A read
that fails can end this, when it removes the page from the registry while an address is still mapped
to it. So it holds for the blocks that can be accessed, as long as these stay the same, and for all
blocks, as long as no page is removed in this way.

## Main definitions

* `VirtualPage.key` — the file and the block of a page.
* `Registered K` — the pages for the blocks in `K` that are mapped or in memory are in the registry.

## Main results

* `Effect.registered` — the calls preserve it.
* `Drop.queued` — `vm_destroy` leaves no page in the queue that does not exist any more.
-/

namespace OsFromScratch.Pager

open Function

variable {m n : ℕ} {s s' : State} {id : PageId} {ptr : PtePtr} {strict keep : Prop}
  {K : Bytes × ℕ → Prop}

/-- The file and the block of a page that is backed by a file. -/
def VirtualPage.key (v : VirtualPage) : Bytes × ℕ :=
  (v.filename, v.blocks.headD 0)

/-- The page is mapped or in memory. -/
def VirtualPage.Live (v : VirtualPage) : Prop :=
  v.affiliated ≠ [] ∨ v.frame ≠ []

/-- The pages of file blocks in `K` that are mapped or in memory are in the registry. -/
def Registered (K : Bytes × ℕ → Prop) (s : State) : Prop :=
  ∀ id, (s.pages id).isSwap = false → (s.pages id).Live → K (s.pages id).key →
    s.filenameBlockToVpage.lookup (s.pages id).key = some id

/-- A page that is mapped loses its place in the registry only if its block is not in `K`. -/
def Keeping (K : Bytes × ℕ → Prop) (keep : Prop) (s : State) : Prop :=
  ∀ key, K key → s.accessible key.1 key.2 = true ∨ keep

theorem Relocation.key (h : Relocation s s') (id : PageId) : (s'.pages id).key =
    (s.pages id).key := by
  rw [VirtualPage.key, VirtualPage.key, h.filename, h.blocks]

theorem Mappings.key_eq {M : PtePtr → Option PageId} (h : Mappings n M s) {key : Bytes × ℕ}
    (hkey : s.filenameBlockToVpage.lookup key = some id) : (s.pages id).key = key := by
  obtain ⟨-, hfilename, hblock⟩ := h.registry key.1 key.2 id hkey
  rw [VirtualPage.key, hfilename, hblock]
  rfl

/-- Two pages of one block are the same if they are registered. -/
theorem Registered.unique (h : Registered K s) {id' : PageId} (hfile : (s.pages id).isSwap = false)
    (hfile' : (s.pages id').isSwap = false) (hlive : (s.pages id).Live)
      (hlive' : (s.pages id').Live)
    (hkey : (s.pages id).key = (s.pages id').key) (hK : K (s.pages id).key) : id = id' := by
  have hid := h id hfile hlive hK
  rw [hkey, h id' hfile' hlive' (hkey ▸ hK)] at hid
  exact (Option.some.inj hid).symm

/-! ### Moves -/

/-- A change of the places where pages are kept. -/
private theorem Registered.relocate (h : Registered K s) (hreloc : Relocation s s')
    (hlive : ∀ id, (s'.pages id).frame ≠ [] → (s.pages id).Live)
    (hregistry : ∀ id, (s.pages id).isSwap = false → (s'.pages id).Live → K (s.pages id).key →
      s.filenameBlockToVpage.lookup (s.pages id).key = some id →
      s'.filenameBlockToVpage.lookup (s.pages id).key = some id) : Registered K s' := by
  intro id hfile hlive' hK
  rw [hreloc.isSwap] at hfile
  rw [hreloc.key] at hK ⊢
  have hold : (s.pages id).Live := by
    rcases hlive' with haff | hframe
    · exact Or.inl (hreloc.affiliated id ▸ haff)
    · exact hlive id hframe
  exact hregistry id hfile hlive' hK (h id hfile hold hK)

private theorem Registered.allocate (h : Registered K s) (page : PhysicalPage) (contents : Contents)
    (hmapped : (s.pages id).affiliated ≠ []) : Registered K (s.allocate id page contents) := by
  refine h.relocate (s.relocation_allocate id page contents) (fun x hx =>
    ?_) fun _ _ _ _ hold => hold
  by_cases heq : x = id
  · exact Or.inl (heq ▸ hmapped)
  · rw [show (s.allocate id page contents).pages x = s.pages x from update_of_ne heq ..] at hx
    exact Or.inr hx

theorem Move.registered (h : Move strict keep s s') (hs : Core m n s) (hreg : Registered K s)
    (hkeep : Keeping K keep s) : Registered K s' := by
  cases h with
  | turnClock tables =>
    refine hreg.relocate { s.relocation_turnClock with } (fun x hx => Or.inr ?_) fun _ _ _
      _ hold => hold
    rcases s.turnClock_page x with heq | ⟨-, heq⟩
    · exact heq ▸ hx
    · have hframe : s.turnClock.pages x = (s.pages x).unclock := heq
      rw [show ((s.turnClock.withTables tables).pages x) = s.turnClock.pages x from rfl, hframe,
        VirtualPage.frame_unclock] at hx
      exact hx
  | @evict tables x rest hfree hqueue =>
    have hx : x ∈ s.clockQueue := hqueue ▸ List.mem_cons_self
    have hself : ((s.evict x).withTables tables).pages x =
        { s.pages x with resident := false, physicalPage := none } := update_self ..
    refine hreg.relocate { s.relocation_evict x with } (fun y hy => Or.inr ?_)
      fun y hfile hlive hK hold => ?_
    · have hne : y ≠ x := by
        rintro rfl
        rw [hself] at hy
        exact hy rfl
      rw [show ((s.evict x).withTables tables).pages y = s.pages y from update_of_ne hne ..] at hy
      exact hy
    · simp only [State.withTables, State.evict]
      split_ifs with hdrop
      · -- the page that is evicted is the one that the registry has for its block
        rw [AList.lookup_erase_ne]
        · exact hold
        · intro hkey
          have hxreg := hs.queued.registered hs.mappings hx hdrop.2
          rw [← show (s.pages y).key = _ from hkey, hold, Option.some.injEq] at hxreg
          subst hxreg
          rcases hlive with haff | hframe
          · rw [hself] at haff
            exact haff hdrop.2
          · rw [hself] at hframe
            exact hframe rfl
      · exact hold
  | @fetch tables x ppn rest _ hmapped =>
    exact hreg.allocate ⟨ppn, true, false⟩ (s.backing (s.pages x)) hmapped
  | @unzero tables x ppn rest page writeFlag _ hmapped =>
    exact hreg.allocate ⟨ppn, true, writeFlag⟩ (fun _ => 0) hmapped
  | @touch tables x page writeFlag hmapped =>
    refine hreg.relocate { s.relocation_touch x page writeFlag with } (fun y hy => ?_)
      fun _ _ _ _ hold => hold
    by_cases heq : y = x
    · exact Or.inl (heq ▸ hmapped)
    · rw [show ((s.touch x page writeFlag).withTables tables).pages y = s.pages y from
        update_of_ne heq ..] at hy
      exact Or.inr hy
  | @failRead tables x ppn rest _ hmapped _ hread hlength =>
    refine hreg.relocate { s.relocation_failRead x ppn with } (fun _ hy => Or.inr hy)
      fun y hfile hlive hK hold => ?_
    simp only [State.withTables, State.failRead]
    split_ifs with hone
    · -- the block that cannot be read is not in `K`
      rw [AList.lookup_erase_ne]
      · exact hold
      · intro hkey
        rcases hkeep _ hK with hacc | hk
        · rw [show (s.pages y).key = _ from hkey] at hacc
          exact hread (Or.inr hacc)
        · exact hlength hk hone
    · exact hold

theorem Moves.registered (h : Moves strict keep s s') (hs : Core m n s) (hreg : Registered K s)
    (hkeep : Keeping K keep s) : Registered K s' := by
  induction h with
  | refl => exact hreg
  | tail hmoves hmove ih =>
    refine hmove.registered (Moves.core hmoves hs) ih fun key hK => ?_
    rw [(Moves.relocation hmoves).accessible]
    exact hkeep key hK

/-! ### Pages that are made, copied and mapped -/

theorem Registered.congr (h : Registered K s) (hpages : s'.pages = s.pages)
    (hregistry : s'.filenameBlockToVpage = s.filenameBlockToVpage) : Registered K s' := by
  intro id
  rw [hpages, hregistry]
  exact h id

theorem Registered.touchVA (h : Registered K s) (pid : Pid) : Registered K (s.touchVA pid) := by
  obtain ⟨maps, heq⟩ := s.touchVA_eq pid
  rw [heq]
  exact h

/-- Only a swap backed page is changed. -/
theorem Registered.update_swap (h : Registered K s) {v : VirtualPage}
    (hpages : s'.pages = update s.pages id v) (hswap : v.isSwap = true)
    (hregistry : s'.filenameBlockToVpage = s.filenameBlockToVpage) : Registered K s' := by
  intro x hfile
  by_cases hx : x = id
  · rw [hpages, hx, update_self, hswap] at hfile
    simp at hfile
  · rw [hpages, update_of_ne hx] at hfile ⊢
    rw [hregistry]
    exact h x hfile

theorem Registered.split (h : Registered K s) (hswap : (s.pages id).isSwap = true) (ptr : PtePtr)
    (block : ℕ) : Registered K (s.split ptr id block) := by
  have hshared : Registered K (s.setPage id { s.pages id with
      affiliated := (s.pages id).affiliated.erase ptr, blocks := (s.pages id).blocks.dropLast }) :=
    h.update_swap rfl hswap rfl
  exact hshared.update_swap rfl rfl rfl

theorem Registered.copy (h : Registered K s) (hs : Core m n s) (hkeep : Keeping K keep s)
    (hcopy : Copy s s' ptr id) : Registered K s' := by
  obtain ⟨block, t, ppn, rest, tables, hblock, hreclaim, hfree, rfl⟩ := hcopy.result
  have hsplit := hs.split hcopy.mapped hcopy.swap hblock hcopy.shared
  have hmoves := hreclaim.moves False keep
  have hnew : (t.pages s.nextPage).isSwap = true := by
    rw [hmoves.relocation.isSwap]
    simp [State.split]
  exact (hmoves.registered hsplit (h.split hcopy.swap ptr block) hkeep).update_swap rfl hnew rfl

theorem Keeping.congr (h : Keeping K keep s) (haccessible : s'.accessible = s.accessible) :
    Keeping K keep s' := by
  intro key hK
  rw [haccessible]
  exact h key hK

theorem Faulted.registered (h : Faulted strict keep s s') (hs : WellFormed m n s) (hrun : s.Running)
    (hreg : Registered K s) (hkeep : Keeping K keep s) : Registered K s' := by
  obtain ⟨s₁, hmoves, hcopy⟩ := h
  have hcore := (hs.touchVA hrun.1).toCore
  have hkeep' : Keeping K keep (s.touchVA s.currentPid) := by
    obtain ⟨maps, heq⟩ := s.touchVA_eq s.currentPid
    exact hkeep.congr (by rw [heq])
  have hreg₁ := hmoves.registered hcore (hreg.touchVA s.currentPid) hkeep'
  rcases hcopy with rfl | ⟨ptr, id, hcopy⟩
  · exact hreg₁
  · exact hreg₁.copy (hmoves.core hcore) (hkeep'.congr hmoves.relocation.accessible) hcopy

theorem Registered.addZero (h : Registered K s) (ptr : PtePtr) (block : ℕ) (rest : List ℕ) :
    Registered K (s.addZero ptr block rest) :=
  h.update_swap rfl rfl rfl

/-- An address is attached to a page that is live already. -/
theorem Registered.attach (h : Registered K s) (ptr : PtePtr) (extra rest : List ℕ)
    (hid : (s.pages id).isSwap = false → extra = [] ∧
      ((s.pages id).Live ∨ s.filenameBlockToVpage.lookup (s.pages id).key = some id)) :
    Registered K (s.attach ptr id extra rest) := by
  intro x hfile hlive hK
  by_cases hx : x = id
  · subst hx
    have hself : (s.attach ptr x extra rest).pages x = { s.pages x with
        affiliated := (s.pages x).affiliated ++ [ptr], blocks := (s.pages x).blocks ++ extra } :=
      update_self ..
    rw [hself] at hfile hK ⊢
    obtain ⟨rfl, hold⟩ := hid hfile
    have hkey : (VirtualPage.key { s.pages x with
        affiliated := (s.pages x).affiliated ++ [ptr], blocks := (s.pages x).blocks ++ [] }) =
        (s.pages x).key := by
      simp only [VirtualPage.key, List.append_nil]
    rw [hkey] at hK ⊢
    rcases hold with hlive' | hlookup
    · exact h x hfile hlive' hK
    · exact hlookup
  · have hpage : (s.attach ptr id extra rest).pages x = s.pages x := update_of_ne hx ..
    rw [hpage] at hfile hlive hK ⊢
    exact h x hfile hlive hK

theorem Registered.mapFile (h : Registered K s) (hmappings : Mappings n s.entryPage s)
    (ptr : PtePtr) (filename : Bytes) (block : ℕ) :
      Registered K (s.mapFile ptr filename block) := by
  rw [State.mapFile]
  cases hlookup : s.filenameBlockToVpage.lookup (filename, block) with
  | some id =>
    refine h.attach ptr [] s.nextFreeSwap fun hfile => ⟨rfl, Or.inr ?_⟩
    rw [hmappings.key_eq hlookup, hlookup]
  | none =>
    intro x hfile hlive hK
    by_cases hx : x = s.nextPage
    · subst hx
      have hself : (s.addFile ptr filename block).pages s.nextPage = { VirtualPage.new with
          filename, blocks := [block], affiliated := [ptr] } := update_self ..
      rw [hself]
      exact AList.lookup_insert _
    · have hpage : (s.addFile ptr filename block).pages x = s.pages x := update_of_ne hx ..
      rw [hpage] at hfile hlive hK ⊢
      have hold := h x hfile hlive hK
      have hne : (s.pages x).key ≠ (filename, block) := fun heq => by
        rw [heq, hlookup] at hold
        simp at hold
      exact (AList.lookup_insert_ne hne).trans hold

theorem MapResult.registered {theirFilename block : ℕ} {result : Option ℕ}
    (h : MapResult strict keep m n s theirFilename block result s') (hs : WellFormed m n s)
    (hrun : s.Running) (hreg : Registered K s) (hkeep : Keeping K keep s) : Registered K s' := by
  cases h with
  | full => exact hreg
  | noBlock => exact hreg
  | @zero i b rest tables => exact (hreg.addZero ⟨s.currentPid, i⟩ b rest).congr rfl rfl
  | @file i s₁ _ _ name _ _ _ hmoves _ hnone hsome =>
    have hcore := (hs.touchVA hrun.1).toCore
    have hkeep' : Keeping K keep (s.touchVA s.currentPid) := by
      obtain ⟨maps, heq⟩ := s.touchVA_eq s.currentPid
      exact hkeep.congr (by rw [heq])
    have hreg₁ := hmoves.registered hcore (hreg.touchVA s.currentPid) hkeep'
    cases name with
    | none =>
      rw [(hnone rfl).2]
      exact hreg₁
    | some filename =>
      obtain ⟨-, tables, rfl⟩ := hsome filename rfl
      exact (hreg₁.mapFile (hmoves.core hcore).mappings ⟨s.currentPid, i⟩
        filename block).congr rfl rfl

/-! ### Processes -/

theorem Inherit.registered {child : Pid} {order : List (ℕ × PageId)}
    (h : Inherit child order s s') (hreg : Registered K s)
    (hmapped : ∀ e ∈ order, e.2 < s.nextPage ∧ (s.pages e.2).Live) : Registered K s' := by
  -- the pages of the list stay mapped while the child gets them
  induction h with
  | nil => exact hreg
  | @zero s s' i id rest page block free tables _ _ _ _ ih =>
    refine ih ((hreg.addZero ⟨child, i⟩ block free).congr rfl rfl) fun e he => ?_
    obtain ⟨hlt, hlive⟩ := hmapped e (List.mem_cons_of_mem _ he)
    refine ⟨Nat.lt_succ_of_lt hlt, ?_⟩
    rw [show ((s.addZero ⟨child, i⟩ block free).withTables tables).pages e.2 = s.pages e.2 from
      update_of_ne hlt.ne ..]
    exact hlive
  | @share s s' i id rest extra free tables _ hextra _ _ ih =>
    refine ih ((hreg.attach ⟨child, i⟩ extra free fun hfile => ⟨?_, Or.inl ?_⟩).congr rfl rfl)
      fun e he => ?_
    · rw [hfile] at hextra
      exact List.length_eq_zero_iff.mp hextra
    · exact (hmapped _ List.mem_cons_self).2
    · obtain ⟨hlt, hlive⟩ := hmapped e (List.mem_cons_of_mem _ he)
      refine ⟨hlt, ?_⟩
      by_cases heq : e.2 = id
      · rw [show ((s.attach ⟨child, i⟩ id extra free).withTables tables).pages e.2 =
          { s.pages id with
            affiliated := (s.pages id).affiliated ++ [⟨child, i⟩]
            blocks := (s.pages id).blocks ++ extra } by
            simp [State.withTables, State.attach, heq]]
        exact Or.inl (by simp)
      · rw [show ((s.attach ⟨child, i⟩ id extra free).withTables tables).pages e.2 =
          s.pages e.2 from
          update_of_ne heq ..]
        exact hlive

theorem Created.registered {parent child : Pid} {order : List (ℕ × PageId)}
    (h : Created parent child order s s') (hs : WellFormed m n s)
    (horder : order.Perm (s.mappings parent)) (hreg : Registered K s) : Registered K s' := by
  obtain ⟨count, t, -, hinherit, rfl⟩ := h
  have ht : Registered K t := by
    refine hinherit.registered (hreg.congr rfl rfl) fun e he => ?_
    have hmapped : s.mapped parent e.1 = some e.2 := (State.mem_order horder).mp he
    obtain ⟨i, -, hentry, -⟩ := hs.spaces.mem_entry hmapped
    exact ⟨hs.mappings.not_fresh hentry, Or.inl (hs.toCore.affiliated_ne_nil hmapped)⟩
  split_ifs
  · exact ht
  · exact ht.congr rfl rfl

theorem Registered.detach (h : Registered K s) (ptr : PtePtr) (id : PageId) :
    Registered K (s.detach ptr id) := by
  intro x hfile hlive hK
  by_cases hx : x = id
  · subst hx
    let v := (s.pages x).detach ptr
    have hself : (s.detach ptr x).pages x =
        if v.Released then { v with resident := false, physicalPage := none } else v :=
          update_self ..
    have hfile' : (s.pages x).isSwap = false := by
      rw [hself] at hfile
      split_ifs at hfile <;> exact hfile
    have hkey : ((s.detach ptr x).pages x).key = (s.pages x).key := by
      rw [hself]
      split_ifs <;> simp [VirtualPage.key, v, VirtualPage.detach, hfile']
    have hlive' : (s.pages x).Live := by
      rw [hself] at hlive
      split_ifs at hlive with hreleased
      · exact Or.inr hreleased.2
      · refine hlive.imp_left fun haff hnil => haff ?_
        rw [show v.affiliated = (s.pages x).affiliated.erase ptr from rfl, hnil]
        rfl
    rw [hkey] at hK ⊢
    exact h x hfile' hlive' hK
  · have hpage : (s.detach ptr id).pages x = s.pages x := update_of_ne hx ..
    rw [hpage] at hfile hlive hK ⊢
    exact h x hfile hlive hK

theorem Drop.registered {pid : Pid} {order : List (ℕ × PageId)} (h : Drop pid order s s')
    (hreg : Registered K s) : Registered K s' := by
  induction h with
  | nil => exact hreg
  | @cons s s' i id rest tables _ ih => exact ih ((hreg.detach ⟨pid, i⟩ id).congr rfl rfl)

/-- The calls preserve the registry of the pages for the blocks in `K`. -/
theorem Effect.registered {call : Call} {result : Result}
    (h : Effect strict keep m n s call result s')
    (hs : WellFormed m n s) (hcall : call.Promised s) (hreg : Registered K s)
    (hkeep : Keeping K keep s) : Registered K s' := by
  cases h with
  | refuse tables => exact hreg.congr rfl rfl
  | create _ hcreated => exact hcreated.registered hs hcall.2 hreg
  | switch pid => exact hreg.congr rfl rfl
  | map hmap => exact hmap.registered hs hcall hreg hkeep
  | destroy hdrop => exact (hdrop.registered (hreg.touchVA s.currentPid)).congr rfl rfl
  | fault hfaulted => exact hfaulted.registered hs hcall hreg hkeep
  | load haccess => exact haccess.faulted.registered hs hcall.1 hreg hkeep
  | denied haccess => exact haccess.faulted.registered hs hcall.1 hreg hkeep
  | store haccess => exact (haccess.faulted.registered hs hcall.1 hreg hkeep).congr rfl rfl
  | setAccessible accessible => exact hreg.congr rfl rfl

/-! ### The queue after the end of a process -/

/-- A swap backed page in the queue has blocks. -/
private theorem Drop.blocks_ne_nil {pid : Pid} {order : List (ℕ × PageId)} (h : Drop pid order s s')
    (hs : ∀ id, (s.pages id).isSwap = true → (s.pages id).blocks = [] → (s.pages id).frame = []) :
    ∀ id, (s'.pages id).isSwap = true → (s'.pages id).blocks = [] → (s'.pages id).frame = [] := by
  -- a page without blocks has given back its physical page
  induction h with
  | nil => exact hs
  | @cons s s' i id rest tables _ ih =>
    refine ih fun x hswap hblocks => ?_
    by_cases hx : x = id
    · subst hx
      let v := (s.pages x).detach ⟨pid, i⟩
      have hself : ((s.detach ⟨pid, i⟩ x).withTables tables).pages x =
          if v.Released then { v with resident := false, physicalPage := none } else v :=
        update_self ..
      rw [hself] at hblocks ⊢
      split_ifs at hblocks ⊢ with hreleased
      · rfl
      · by_contra hframe
        exact hreleased ⟨hblocks, hframe⟩
    · rw [show ((s.detach ⟨pid, i⟩ id).withTables tables).pages x = s.pages x from
        update_of_ne hx ..] at hswap hblocks ⊢
      exact hs x hswap hblocks

/-- If the pages of the blocks that can be accessed are registered, then no page in the queue
vanishes with the process. -/
theorem Drop.queued {order : List (ℕ × PageId)}
    (h : Drop s.currentPid order (s.touchVA s.currentPid) s') (hs : WellFormed m n s)
    (hmappings : Mappings n s'.retire.entryPage s'.retire) (hframes : Frames m s'.retire)
    (hreg : Registered K s) (hK : ∀ key, s.accessible key.1 key.2 = true → K key) :
    Queued s'.retire := by
  obtain ⟨maps, htouch⟩ := s.touchVA_eq s.currentPid
  have hblocks := h.blocks_ne_nil fun id hswap hnil => by
    rw [htouch] at hswap hnil ⊢
    by_contra hframe
    exact hs.queued.blocks_ne_nil hs.mappings hs.frames ((hs.frames.mem_queue id).mpr hframe) hnil
  have haccessible : s'.retire.accessible = s.accessible := by
    obtain ⟨-, -, -, -, -, -, hacc, -⟩ := h.same
    rw [htouch] at hacc
    exact hacc
  intro id hid
  have hframe := (hframes.mem_queue id).mp hid
  cases hswap : (s'.retire.pages id).isSwap with
  | true =>
    refine Or.inl fun hnil => hframe (hblocks id hswap ?_)
    rw [← List.length_eq_zero_iff, show (s'.pages id).blocks.length = _ from
      hmappings.swap id hswap, hnil]
    rfl
  | false =>
    obtain ⟨block, hblock⟩ := hmappings.file id hswap (hframes.not_fresh hmappings hid)
    have hreg' : Registered K s'.retire := (h.registered (hreg.touchVA s.currentPid)).congr rfl rfl
    refine Or.inr ⟨_, hreg' id hswap (Or.inr hframe) (hK _ ?_)⟩
    have hacc := hframes.loaded id (hframes.page_of_mem_queue hid).1 hswap block
      (by rw [hblock]; exact List.mem_singleton_self block)
    rw [haccessible] at hacc
    rw [VirtualPage.key, hblock]
    exact hacc

end OsFromScratch.Pager
