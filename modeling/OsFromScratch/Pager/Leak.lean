import OsFromScratch.Pager.Registry
import OsFromScratch.Pager.SwapSpace

/-!
# Entries of the registry

A page of a file leaves the registry when it is evicted while no address is mapped to it. A page
that loses its last mapping in `vm_destroy` while it is not in memory is never evicted again, so
that its entry remains for ever. Otherwise every entry is for a page that is mapped or in memory.

## Main definitions

* `Anchored` — every entry of the registry is for a page that is mapped or in memory.
* `Call.Retains` — `vm_destroy` does not remove the last mapping of a page that is not in memory.
* `State.NoLeak` — the registry does not leak.

## Main results

* `pagerRun_registry_bounded` — the registry does not leak in a run of such calls.
* `pagerRun_registry_leaks` — it does otherwise.
-/

namespace OsFromScratch.Pager

open Function

variable {m n : ℕ} {s s' : State} {id : PageId} {ptr : PtePtr} {strict keep : Prop}

/-- Every entry of the registry is for a page that is mapped or in memory. -/
def Anchored (s : State) : Prop :=
  ∀ key id, s.filenameBlockToVpage.lookup key = some id → (s.pages id).Live

theorem Anchored.congr (h : Anchored s) (hpages : s'.pages = s.pages)
    (hregistry : s'.filenameBlockToVpage = s.filenameBlockToVpage) : Anchored s' := by
  intro key id
  rw [hpages, hregistry]
  exact h key id

/-- One page changes that stays live or is not in the registry. -/
theorem Anchored.update (h : Anchored s) {v : VirtualPage} (hpages : s'.pages = update s.pages id v)
    (hregistry : ∀ key x, s'.filenameBlockToVpage.lookup key = some x →
      x = id ∧ v.Live ∨ x ≠ id ∧ s.filenameBlockToVpage.lookup key = some x) : Anchored s' := by
  intro key x hkey
  rw [hpages]
  rcases hregistry key x hkey with ⟨rfl, hlive⟩ | ⟨hne, hold⟩
  · rwa [update_self]
  · rw [update_of_ne hne]
    exact h key x hold

/-! ### Moves and faults -/

private theorem Anchored.update_live (h : Anchored s) {v : VirtualPage}
    (hpages : s'.pages = Function.update s.pages id v) (hlive : v.Live)
    (hregistry : s'.filenameBlockToVpage = s.filenameBlockToVpage) : Anchored s' := by
  refine h.update hpages fun key x hkey => ?_
  by_cases hx : x = id
  · exact Or.inl ⟨hx, hlive⟩
  · exact Or.inr ⟨hx, hregistry ▸ hkey⟩

theorem Move.anchored (h : Move strict keep s s') (hs : Core m n s) (ha : Anchored s) :
    Anchored s' := by
  cases h with
  | turnClock tables =>
    intro key x hkey
    have hold := ha key x hkey
    rcases s.turnClock_page x with heq | ⟨-, heq⟩
    · rw [show (s.turnClock.withTables tables).pages x = s.pages x from heq]
      exact hold
    · rw [show (s.turnClock.withTables tables).pages x = (s.pages x).unclock from heq,
        VirtualPage.Live, VirtualPage.frame_unclock]
      exact hold
  | @evict tables x rest hfree hqueue =>
    refine ha.update rfl fun key y hkey => ?_
    have hold := (s.relocation_evict x).registry key y hkey
    by_cases hy : y = x
    · subst hy
      refine Or.inl ⟨rfl, Or.inl fun hnil => ?_⟩
      -- a page that is not mapped leaves the registry
      have hfile := (hs.mappings.registry key.1 key.2 y hold).1
      simp only [State.withTables, State.evict] at hkey
      rw [if_pos ⟨hfile, hnil⟩, ← hs.mappings.key_eq hold] at hkey
      exact absurd ((AList.lookup_erase _ _).symm.trans hkey) (by simp)
    · exact Or.inr ⟨hy, hold⟩
  | @fetch tables x ppn rest _ hmapped => exact ha.update_live rfl (Or.inl hmapped) rfl
  | @unzero tables x ppn rest page writeFlag _ hmapped =>
    exact ha.update_live rfl (Or.inl hmapped) rfl
  | @touch tables x page writeFlag hmapped => exact ha.update_live rfl (Or.inl hmapped) rfl
  | @failRead tables x ppn =>
    exact fun key y hkey => ha key y ((s.relocation_failRead x ppn).registry key y hkey)

theorem Moves.anchored (h : Moves strict keep s s') (hs : Core m n s) (ha : Anchored s) :
    Anchored s' := by
  induction h with
  | refl => exact ha
  | tail hmoves hmove ih => exact hmove.anchored (Moves.core hmoves hs) ih

theorem Anchored.touchVA (h : Anchored s) (pid : Pid) : Anchored (s.touchVA pid) := by
  obtain ⟨maps, heq⟩ := s.touchVA_eq pid
  rw [heq]
  exact h

theorem Copy.anchored (h : Copy s s' ptr id) (hs : Core m n s) (ha : Anchored s) : Anchored s' := by
  obtain ⟨block, t, ppn, rest, tables, hblock, hreclaim, -, rfl⟩ := h.result
  have hsplit := hs.split h.mapped h.swap hblock h.shared
  have hsplit_anchored : Anchored (s.split ptr id block) := by
    intro key x hkey
    have hlt : x ≠ s.nextPage := (hs.mappings.registered_lt hkey).ne
    have hne : x ≠ id := fun heq => by
      have hfile := (hs.mappings.registry key.1 key.2 x hkey).1
      rw [heq, h.swap] at hfile
      simp at hfile
    rw [show (s.split ptr id block).pages x = s.pages x from
      (update_of_ne hlt ..).trans (update_of_ne hne ..)]
    exact ha key x hkey
  have hmoves := hreclaim.moves False False
  have hnew : (t.pages s.nextPage).affiliated ≠ [] := by
    rw [hmoves.relocation.affiliated]
    simp [State.split]
  exact (hmoves.anchored hsplit hsplit_anchored).update_live rfl (Or.inl hnew) rfl

theorem Faulted.anchored (h : Faulted strict keep s s') (hs : WellFormed m n s) (hrun : s.Running)
    (ha : Anchored s) : Anchored s' := by
  obtain ⟨s₁, hmoves, hcopy⟩ := h
  have hcore := (hs.touchVA hrun.1).toCore
  have ha₁ := hmoves.anchored hcore (ha.touchVA s.currentPid)
  rcases hcopy with rfl | ⟨ptr, id, hcopy⟩
  · exact ha₁
  · exact hcopy.anchored (hmoves.core hcore) ha₁

/-! ### Mappings -/

theorem Anchored.addZero (h : Anchored s) (ptr : PtePtr) (block : ℕ) (rest : List ℕ) :
    Anchored (s.addZero ptr block rest) :=
  h.update_live rfl (Or.inl (List.cons_ne_nil _ _)) rfl

theorem Anchored.attach (h : Anchored s) (ptr : PtePtr) (id : PageId) (extra rest : List ℕ) :
    Anchored (s.attach ptr id extra rest) :=
  h.update_live rfl (Or.inl (by simp)) rfl

theorem Anchored.mapFile (h : Anchored s) (ptr : PtePtr) (filename : Bytes) (block : ℕ)
    (hlt : ∀ key x, s.filenameBlockToVpage.lookup key = some x → x < s.nextPage) :
    Anchored (s.mapFile ptr filename block) := by
  rw [State.mapFile]
  cases s.filenameBlockToVpage.lookup (filename, block) with
  | some id => exact h.attach ptr id [] s.nextFreeSwap
  | none =>
    refine h.update rfl fun key x hkey => ?_
    simp only [State.addFile] at hkey
    by_cases heq : key = (filename, block)
    · rw [heq, AList.lookup_insert, Option.some.injEq] at hkey
      exact Or.inl ⟨hkey.symm, Or.inl (List.cons_ne_nil _ _)⟩
    · rw [AList.lookup_insert_ne heq] at hkey
      exact Or.inr ⟨(hlt key x hkey).ne, hkey⟩

theorem MapResult.anchored {theirFilename block : ℕ} {result : Option ℕ}
    (h : MapResult strict keep m n s theirFilename block result s') (hs : WellFormed m n s)
    (hrun : s.Running) (ha : Anchored s) : Anchored s' := by
  cases h with
  | full => exact ha
  | noBlock => exact ha
  | @zero i b rest tables => exact (ha.addZero ⟨s.currentPid, i⟩ b rest).congr rfl rfl
  | @file i s₁ _ _ name _ _ _ hmoves _ hnone hsome =>
    have hcore := (hs.touchVA hrun.1).toCore
    have ha₁ := hmoves.anchored hcore (ha.touchVA s.currentPid)
    cases name with
    | none =>
      rw [(hnone rfl).2]
      exact ha₁
    | some filename =>
      obtain ⟨-, tables, rfl⟩ := hsome filename rfl
      exact (ha₁.mapFile ⟨s.currentPid, i⟩ filename block fun key x hkey =>
        (hmoves.core hcore).mappings.registered_lt hkey).congr rfl rfl

theorem Inherit.anchored {child : Pid} {order : List (ℕ × PageId)} (h : Inherit child order s s')
    (ha : Anchored s) : Anchored s' := by
  induction h with
  | nil => exact ha
  | @zero s _ i _ _ _ block free tables _ _ _ _ ih =>
    exact ih ((ha.addZero ⟨child, i⟩ block free).congr rfl rfl)
  | @share s _ i id _ extra free tables _ _ _ _ ih =>
    exact ih ((ha.attach ⟨child, i⟩ id extra free).congr rfl rfl)

/-! ### The end of a process -/

/-- `vm_destroy` does not remove the last mapping of a page of a file that is not in memory, as long
as the page is in the registry. -/
def Call.Retains (s : State) : Call → Prop
  | .destroy _ => ∀ va id, s.mapped s.currentPid va = some id →
    s.filenameBlockToVpage.lookup (s.pages id).key = some id → (s.pages id).resident = true ∨
      ∃ pid va', pid ≠ s.currentPid ∧ s.mapped pid va' = some id
  | _ => True

/-- A page of a file keeps its physical page, and the mappings of other processes. -/
theorem Drop.file_page {pid : Pid} {order : List (ℕ × PageId)} (h : Drop pid order s s')
    (hfile : (s.pages id).isSwap = false) (hblocks : (s.pages id).blocks ≠ []) :
    (s'.pages id).frame = (s.pages id).frame ∧
      ∀ ptr, ptr.pid ≠ pid → ptr ∈ (s.pages id).affiliated → ptr ∈ (s'.pages id).affiliated := by
  induction h with
  | nil => exact ⟨rfl, fun _ _ hptr => hptr⟩
  | @cons s s' i x rest tables _ ih =>
    by_cases hx : id = x
    · subst hx
      have hnot : ¬((s.pages id).detach ⟨pid, i⟩).Released := fun hreleased => by
        have hnil := hreleased.1
        simp only [VirtualPage.detach, hfile, Bool.false_eq_true, if_false] at hnil
        exact hblocks hnil
      have hself : ((s.detach ⟨pid, i⟩ id).withTables tables).pages id =
          (s.pages id).detach ⟨pid, i⟩ := (update_self ..).trans (if_neg hnot)
      obtain ⟨hframe, hother⟩ := ih (by rw [hself]; exact hfile)
        (by rw [hself]; simp only [VirtualPage.detach, hfile, Bool.false_eq_true, if_false]
            exact hblocks)
      rw [hself] at hframe hother
      refine ⟨hframe, fun ptr hpid hptr => hother ptr hpid ?_⟩
      have hne : ptr ≠ ⟨pid, i⟩ := fun heq => hpid (heq ▸ rfl)
      exact (List.mem_erase_of_ne hne).mpr hptr
    · have hpage : ((s.detach ⟨pid, i⟩ x).withTables tables).pages id = s.pages id :=
        update_of_ne hx ..
      rw [← hpage]
      exact ih (hpage ▸ hfile) (hpage ▸ hblocks)

theorem Drop.anchored {order : List (ℕ × PageId)}
    (h : Drop s.currentPid order (s.touchVA s.currentPid) s') (hs : WellFormed m n s)
    (ha : Anchored s) (hretains : (Call.destroy order).Retains s) : Anchored s' := by
  obtain ⟨maps, htouch⟩ := s.touchVA_eq s.currentPid
  have hpages : (s.touchVA s.currentPid).pages = s.pages := by rw [htouch]
  have hregistry : s'.filenameBlockToVpage = s.filenameBlockToVpage := by
    obtain ⟨-, -, -, hreg, -⟩ := h.same
    rw [hreg, htouch]
  intro key id hkey
  rw [hregistry] at hkey
  obtain ⟨hfile, -, hblock⟩ := hs.mappings.registry key.1 key.2 id hkey
  have hfile' : ((s.touchVA s.currentPid).pages id).isSwap = false := by
    rw [hpages]
    exact hfile
  obtain ⟨hframe, hother⟩ := h.file_page hfile' (by rw [hpages, hblock]; exact List.cons_ne_nil _ _)
  rw [hpages] at hframe hother
  by_cases hres : (s.pages id).frame = []
  · -- the page is not in memory, so that another process is mapped to it
    have hnot : (s.pages id).resident ≠ true := fun hr => by
      rw [hs.frames.resident, Option.isSome_iff_exists] at hr
      obtain ⟨page, hpage⟩ := hr
      have hzero := VirtualPage.frame_eq_nil_iff.mp hres page hpage
      rw [(hs.frames.null_page id page hpage hzero).1] at hfile
      simp at hfile
    obtain ⟨ptr, hptr⟩ := List.exists_mem_of_ne_nil _
      ((ha key id hkey).resolve_right (not_not.mpr hres))
    by_cases hpid : ptr.pid = s.currentPid
    · have hmapped := (hs.mappings.attached id ptr).mp hptr
      obtain ⟨pid, va, hne, hva⟩ := (hretains (pageAddr ptr.index) id (hpid ▸ hmapped)
        (hs.mappings.key_eq hkey ▸ hkey)).resolve_left hnot
      obtain ⟨i, -, hentry, -⟩ := hs.spaces.mem_entry hva
      exact Or.inl (List.ne_nil_of_mem
        (hother ⟨pid, i⟩ hne ((hs.mappings.attached id _).mpr hentry)))
    · exact Or.inl (List.ne_nil_of_mem (hother ptr hpid hptr))
  · exact Or.inr (hframe ▸ hres)

theorem Effect.anchored {call : Call} {result : Result}
    (h : Effect strict keep m n s call result s')
    (hs : WellFormed m n s) (hcall : call.Promised s) (hretains : call.Retains s)
      (ha : Anchored s) :
    Anchored s' := by
  cases h with
  | refuse tables => exact ha.congr rfl rfl
  | create _ hcreated =>
    obtain ⟨count, t, -, hinherit, rfl⟩ := hcreated
    have ht : Anchored t := hinherit.anchored (ha.congr rfl rfl)
    split_ifs
    · exact ht
    · exact ht.congr rfl rfl
  | switch pid => exact ha.congr rfl rfl
  | map hmap => exact hmap.anchored hs hcall ha
  | destroy hdrop => exact (hdrop.anchored hs ha hretains).congr rfl rfl
  | fault hfaulted => exact hfaulted.anchored hs hcall ha
  | load haccess => exact haccess.faulted.anchored hs hcall.1 ha
  | denied haccess => exact haccess.faulted.anchored hs hcall.1 ha
  | store haccess => exact (haccess.faulted.anchored hs hcall.1 ha).congr rfl rfl
  | setAccessible accessible => exact ha.congr rfl rfl

/-! ### The size of the registry -/

/-- The pages of files that are mapped, each counted once. -/
def State.mappedFilePages (s : State) : List PageId :=
  s.mappedTo.dedup.filter fun id => (s.pages id).isSwap = false

/-- The registry of a pager with `m` physical pages does not leak. -/
structure State.NoLeak (m : ℕ) (s : State) : Prop where
  entries : ∀ entry ∈ s.filenameBlockToVpage.entries,
    entry.2 ∈ s.mappedTo ∨ (s.pages entry.2).resident = true
  size : s.filenameBlockToVpage.entries.length ≤ s.mappedFilePages.length + (m - 1)

theorem WellFormed.noLeak (h : WellFormed m n s) (ha : Anchored s) : s.NoLeak m := by
  have hlookup {entry : (_ : Bytes × ℕ) × PageId}
      (hentry : entry ∈ s.filenameBlockToVpage.entries) :
      s.filenameBlockToVpage.lookup entry.1 = some entry.2 := AList.mem_lookup_iff.mpr hentry
  have hplace {entry : (_ : Bytes × ℕ) × PageId} (hentry : entry ∈ s.filenameBlockToVpage.entries) :
      entry.2 ∈ s.mappedTo ∨ entry.2 ∈ s.clockQueue := by
    refine (ha entry.1 entry.2 (hlookup hentry)).imp (fun haff => ?_) (h.frames.mem_queue _).mpr
    obtain ⟨ptr, hptr⟩ := List.exists_mem_of_ne_nil _ haff
    exact State.mem_mappedTo.mpr ⟨ptr.pid, _, (h.mappings.attached _ ptr).mp hptr⟩
  refine ⟨fun entry hentry => (hplace hentry).imp_right fun hq => (h.frames.page_of_mem_queue hq).1,
    ?_⟩
  -- different entries are for different pages, which are mapped or in the queue
  have hnodup : (s.filenameBlockToVpage.entries.map Sigma.snd).Nodup := by
    have hkeys : (s.filenameBlockToVpage.entries.map Sigma.fst).Nodup :=
      s.filenameBlockToVpage.nodupKeys
    refine List.Nodup.map_on (fun a ha b hb hab => ?_) hkeys.of_map
    have hkey := h.mappings.key_eq (hlookup ha)
    rw [hab, h.mappings.key_eq (hlookup hb)] at hkey
    exact List.inj_on_of_nodup_map hkeys ha hb hkey.symm
  have hsub : s.filenameBlockToVpage.entries.map Sigma.snd ⊆ s.mappedFilePages ++ s.clockQueue := by
    intro id hid
    obtain ⟨entry, hentry, rfl⟩ := List.mem_map.mp hid
    have hfile := (h.mappings.registry _ _ _ (hlookup hentry)).1
    refine List.mem_append.mpr ((hplace hentry).imp_left fun hmapped => ?_)
    exact List.mem_filter.mpr ⟨List.mem_dedup.mpr hmapped, decide_eq_true hfile⟩
  have hlength := (List.subperm_of_subset hnodup hsub).length_le
  rw [List.length_map, List.length_append] at hlength
  have hsize := h.frames.size
  omega

/-- The registry does not leak in a run in which no `vm_destroy` removes the last mapping of a page
of a file that is not in memory. -/
theorem pagerRun_registry_bounded (hm : 2 ≤ m) (n : ℕ) (physmem swapFile : ℕ → Contents)
    (files : Bytes → ℕ → Contents) (accessible : Bytes → ℕ → Bool) (garbage : ℕ → Contents)
    {calls : List Call} {results : List Result}
    (hrun : PagerRun (fun _ s call => call.Promised s ∧ call.Retains s)
      (vmInit m n physmem swapFile files accessible garbage) calls results s) : s.NoLeak m := by
  have hinv : WellFormed m n s ∧ Anchored s := by
    refine hrun.invariant (fun _ _ t => WellFormed m n t ∧ Anchored t)
      ⟨vmInit_wellFormed hm n _ _ _ _ _, fun key id hkey => by simp [vmInit] at hkey⟩ ?_
    rintro calls results t t' call result ⟨hwf, ha⟩ ⟨hpromised, hretains⟩ hexec
    obtain ⟨hwf', heffect⟩ := Effect.of_exec hwf hm hpromised (fun hs : False => hs.elim)
      (fun hk : False => hk.elim) hexec
    exact ⟨hwf', heffect.anchored hwf hpromised hretains ha⟩
  exact hinv.1.noLeak hinv.2

/-- All pages of files that `vm_destroy` removes a mapping of are in memory or not in the
registry. -/
private def retains (s : State) : Call → Bool
  | .destroy _ => (s.mappings s.currentPid).all fun entry =>
    decide (s.filenameBlockToVpage.lookup (s.pages entry.2).key = some entry.2 →
      (s.pages entry.2).resident = true)
  | _ => true

private theorem retains_of {call : Call} (h : retains s call = true) : call.Retains s := by
  cases call with
  | destroy order =>
    intro va id hva hkey
    exact Or.inl (of_decide_eq_true (List.all_eq_true.mp h (va,
      id) (State.mem_mappings.mpr hva)) hkey)
  | _ => trivial

theorem pagerRun_registry_bounded_destroy : ∃ results s, PagerRun
    (fun _ s call => call.Promised s ∧ call.Retains s)
    (blankMachine 2 1 fun _ _ => true)
    [.create 0 1 [], .map 0 0, .store 0x600000000 102, .map 0x600000000 0, .load 0x600010000,
      .destroy [(0x600000000, 0), (0x600010000, 1)]] results s ∧ s.NoLeak 2 := by
  obtain ⟨⟨results, s⟩, hrun⟩ : ∃ r, runAll exec (fun s call => promised s call && retains s call)
      [.create 0 1 [], .map 0 0, .store 0x600000000 102, .map 0x600000000 0, .load 0x600010000,
        .destroy [(0x600000000, 0), (0x600010000, 1)]]
      (blankMachine 2 1 fun _ _ => true) =
      some r := Option.isSome_iff_exists.mp (by decide +kernel)
  have hpager : PagerRun (fun _ s call => call.Promised s ∧ call.Retains s) _ _ results s :=
    Runs.of_runAll (fun _ t call hcall => by
      obtain ⟨hpromised, hretains⟩ := Bool.and_eq_true_iff.mp hcall
      exact ⟨Call.promised_of hpromised, retains_of hretains⟩) hrun
  exact ⟨results, s, hpager, pagerRun_registry_bounded (by decide) 1 _ _ _ _ _ hpager⟩

theorem pagerRun_registry_leaks : ∃ results s, PagerRun Promise
    (blankMachine 2 1 fun _ _ => true)
    [.create 0 1 [], .map 0 0, .store 0x600000000 102, .map 0x600000000 0,
      .destroy [(0x600000000, 0), (0x600010000, 1)]] results s ∧
    ¬∀ entry ∈ s.filenameBlockToVpage.entries,
      entry.2 ∈ s.mappedTo ∨ (s.pages entry.2).resident = true := by
  obtain ⟨⟨results, s⟩, hrun, hleak⟩ : ∃ r, runAll exec promised
      [.create 0 1 [], .map 0 0, .store 0x600000000 102, .map 0x600000000 0,
        .destroy [(0x600000000, 0), (0x600010000, 1)]]
      (blankMachine 2 1 fun _ _ => true) =
      some r ∧ ¬∀ entry ∈ r.2.filenameBlockToVpage.entries,
        entry.2 ∈ r.2.mappedTo ∨ (r.2.pages entry.2).resident = true :=
    ⟨_, rfl, by decide +kernel⟩
  exact ⟨results, s, PagerRun.of_runAll hrun, hleak⟩

end OsFromScratch.Pager
