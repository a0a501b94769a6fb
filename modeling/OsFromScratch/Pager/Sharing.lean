import OsFromScratch.Pager.Refinement

/-!
# Pages of files are shared

The addresses that have been mapped to the same block of a file have the same page, as long as no
read fails for a page that is mapped at a single address: such a page is removed from the registry
while it is still mapped, so that the next address for the block gets another page.

## Main definitions

* `State.SharesPages` — the addresses of a block have one page, and pages in the queue exist.
* `Call.KeepsMapped` — no failing read removes a page from the registry.

## Main results

* `pagerRun_shared` — pages are shared in every state of a run without such a read.
-/

namespace OsFromScratch.Pager

open Function

variable {m n : ℕ} {s s' : State} {id : PageId}

/-- The addresses of a block of a file have one page, and every page in the queue exists. -/
structure State.SharesPages (s : State) : Prop where
  single : ∀ pid va pid' va' key, s.memory.cells pid va = some (.file key) →
    s.memory.cells pid' va' = some (.file key) → s.mapped pid va = s.mapped pid' va'
  exist : ∀ id ∈ s.clockQueue, s.Exists id

/-- No failing read removes a page from the registry while it is mapped: the page of a file that is
accessed, or that the name of a file runs into, can be read, unless it is mapped several times. -/
def Call.KeepsMapped (s : State) : Call → Prop
  | .map theirFilename _ => theirFilename ≠ 0 →
    s.NameKept (s.memory.byte s.currentPid) theirFilename
  | .fault addr _ => ∀ id, s.mapped s.currentPid (pageStart addr) = some id → s.Kept id
  | .load addr => ∀ id, s.mapped s.currentPid (pageStart addr) = some id → s.Kept id
  | .store addr _ => ∀ id, s.mapped s.currentPid (pageStart addr) = some id → s.Kept id
  | _ => True

/-- The calls of runs without failing reads of this kind. -/
def Retaining (calls : List Call) (s : State) (call : Call) : Prop :=
  Proper calls s call ∧ call.KeepsMapped s

theorem Call.KeepsMapped.keeps {call : Call} (h : call.KeepsMapped s) (hm : m ≤ 2 ^ 20)
    (hs : WellFormed m n s) (hcoherent : Coherent m n s) (hcall : call.Promised s) :
    call.Keeps True True m n s := by
  cases call with
  | map theirFilename block =>
    intro hname
    have hstart := hcoherent.touchVA hcall hs
    refine ⟨s.memory.byte s.currentPid, fun t ht _ => ?_, fun k id hbytes hva => ?_⟩
    · have hshows := hstart.shows hm ht
      rwa [s.memory_touchVA, s.currentPid_touchVA] at hshows
    · rw [State.mapped_touchVA, State.currentPid_touchVA] at hva
      have hkept := h hname k id hbytes hva
      obtain ⟨maps, heq⟩ := s.touchVA_eq s.currentPid
      rw [heq]
      exact hkept
  | fault addr writeFlag => exact h
  | load addr => exact h
  | store addr byte => exact h
  | _ => trivial

/-- An address shows a block of a file if its page is for the block. -/
theorem State.cells_eq_file {pid : Pid} {va : ℕ} {key : Bytes × ℕ} :
    s.memory.cells pid va = some (.file key) ↔
      ∃ id, s.mapped pid va = some id ∧ (s.pages id).isSwap = false ∧ (s.pages id).key = key := by
  refine Option.map_eq_some_iff.trans (exists_congr fun id => and_congr_right fun _ => ?_)
  cases hswap : (s.pages id).isSwap with
  | true => simp [VirtualPage.cell, hswap]
  | false => simp [VirtualPage.cell, hswap]

/-- Registered pages are shared. -/
theorem WellFormed.sharesPages (hs : WellFormed m n s) (hreg : Registered (fun _ => True) s) :
    s.SharesPages := by
  refine ⟨fun pid va pid' va' key hcell hcell' => ?_, fun id hid => ?_⟩
  · obtain ⟨id, hva, hfile, hkey⟩ := State.cells_eq_file.mp hcell
    obtain ⟨id', hva', hfile', hkey'⟩ := State.cells_eq_file.mp hcell'
    rw [hva, hva', hreg.unique hfile hfile' (Or.inl (hs.affiliated_ne_nil hva))
      (Or.inl (hs.affiliated_ne_nil hva')) (hkey.trans hkey'.symm) trivial]
  · exact hs.queued.exists hs.mappings hid

/-- In every run without a read that fails for a page that is mapped at a single address, the
addresses of a block of a file have one page, every page in the queue exists, the calls do what the
memory of the processes says, so that a store at one of the addresses is seen at the others, and no
assertion of a further call fails. -/
theorem pagerRun_shared (hm : 2 ≤ m) (hm' : m ≤ 2 ^ 20) (n : ℕ) (physmem swapFile : ℕ → Contents)
    (files : Bytes → ℕ → Contents) (accessible : Bytes → ℕ → Bool) (garbage : ℕ → Contents)
    {calls : List Call} {results : List Result}
    (hrun : PagerRun Retaining (vmInit m n physmem swapFile files accessible garbage)
      calls results s) :
    s.SharesPages ∧ Steps Memory.Step (.initial files accessible) calls results s.memory ∧
      ∀ call, Proper calls s call → exec call s ≠ none := by
  have hstart := vmInit_wellFormed hm n physmem swapFile files accessible garbage
  have hcoherent := vmInit_coherent hm n physmem swapFile files accessible garbage
  have hregistered : Registered (fun _ => True)
      (vmInit m n physmem swapFile files accessible garbage) := by
    rintro id - (haff | hframe)
    · exact absurd rfl haff
    · exact absurd rfl hframe
  have hstep {calls : List Call} {t t' : State} {call : Call} {result : Result}
      (ht : WellFormed m n t ∧ Coherent m n t ∧ Registered (fun _ => True) t)
      (hcall : Retaining calls t call) (hexec : exec call t = some (result, t')) :
      (WellFormed m n t' ∧ Coherent m n t' ∧ Registered (fun _ => True) t') ∧
        t.memory.Step call result t'.memory := by
    obtain ⟨hwf, hc, hreg⟩ := ht
    obtain ⟨⟨hpromised, hrefused⟩, hmapped⟩ := hcall
    have hkeeps : call.KeepsRegistered t := by
      cases call with
      | setAccessible accessible => exact fun id hfile hlive _ => hreg id hfile hlive trivial
      | _ => trivial
    have hcoherently : Coherently calls t call := ⟨hpromised, hrefused, hkeeps⟩
    obtain ⟨hwf', hc', hnext⟩ := hc.step hwf hm hm' hcoherently hexec
    have hkeep : True → call.Keeps True True m n t := fun _ => hmapped.keeps hm' hwf hc hpromised
    obtain ⟨-, heffect⟩ := Effect.of_exec hwf hm hpromised (fun _ => hrefused) hkeep hexec
    exact ⟨⟨hwf', hc', heffect.registered hwf hpromised hreg fun _ _ => Or.inr trivial⟩, hnext⟩
  obtain ⟨⟨hs, hc, hreg⟩, hsteps⟩ := hrun.refines State.memory
    (fun t => WellFormed m n t ∧ Coherent m n t ∧ Registered (fun _ => True) t)
    ⟨hstart, hcoherent, hregistered⟩ hstep
  rw [vmInit_memory] at hsteps
  exact ⟨hs.sharesPages hreg, hsteps, fun call hcall =>
    exec_ne_none hs hm hc.registered hcall.1 hcall.2⟩

instance (s : State) (id : PageId) : Decidable (s.Kept id) :=
  inferInstanceAs (Decidable ((_ ∨ _) ∨ _))

/-- A test for calls that keep their pages: no other page of the process could be removed either. -/
def retaining (s : State) (call : Call) : Bool :=
  mmuFaults s call && match call with
    | .create _ _ _ | .switch _ | .destroy _ | .setAccessible _ => true
    | .map _ _ | .fault _ _ | .load _ | .store _ _ =>
      (s.mappings s.currentPid).all fun entry => s.Kept entry.2

theorem Retaining.of_test (calls : List Call) {call : Call} (h : retaining s call = true) :
    Retaining calls s call := by
  obtain ⟨hfaults, hkept⟩ := Bool.and_eq_true_iff.mp h
  obtain ⟨hpromised, hrefused⟩ := Bool.and_eq_true_iff.mp hfaults
  refine ⟨⟨Call.promised_of hpromised, of_decide_eq_true hrefused⟩, ?_⟩
  have hall (hall : ((s.mappings s.currentPid).all fun entry => s.Kept entry.2) = true) (va : ℕ)
      (id : PageId) (hva : s.mapped s.currentPid va = some id) : s.Kept id :=
    of_decide_eq_true (List.all_eq_true.mp hall (va, id) (State.mem_mappings.mpr hva))
  cases call with
  | map theirFilename block => exact fun _ k id _ hva => hall hkept _ id hva
  | fault addr writeFlag => exact fun id hva => hall hkept _ id hva
  | load addr => exact fun id hva => hall hkept _ id hva
  | store addr byte => exact fun id hva => hall hkept _ id hva
  | _ => trivial

/-- A process and its child have the page of a file, which cannot be read at first. Afterwards the
parent finds what the child stores. -/
theorem pagerRun_shared_unreadable : ∃ calls s,
    PagerRun Retaining (blankMachine 3 2 fun _ _ => false)
    calls [.status true, .address (some 0x600000000), .address (some 0x600010000), .status true,
      .done, .byte none, .done, .status true, .done, .byte (some 5)] s ∧
    s.SharesPages ∧
    Steps Memory.Step (.initial (fun _ _ _ => 0) fun _ _ => false) calls
      [.status true, .address (some 0x600000000), .address (some 0x600010000), .status true, .done,
        .byte none, .done, .status true, .done, .byte (some 5)] s.memory ∧
    ∀ call, Proper calls s call → exec call s ≠ none := by
  have hcomputed : ((runAll exec retaining
      [.create 0 1 [], .map 0 0, .map 0x600000000 0,
        .create 1 2 [(0x600000000, 0), (0x600010000, 1)], .switch 2, .load 0x600010000]
      (blankMachine 3 2 fun _ _ => false)).any fun r =>
      (runAll exec retaining [.store 0x600010000 5, .switch 1, .load 0x600010000]
        { r.2 with accessible := fun _ _ => true }).any fun r' =>
        r.1 = [.status true, .address (some 0x600000000), .address (some 0x600010000),
          .status true, .done, .byte none] ∧
        r'.1 = [.status true, .done, .byte (some 5)]) = true := by decide +kernel
  obtain ⟨⟨results, t⟩, hrun, hcomputed⟩ := (Option.any_eq_true ..).mp hcomputed
  obtain ⟨⟨results', s⟩, hrun', hcomputed⟩ := (Option.any_eq_true ..).mp hcomputed
  obtain ⟨rfl, rfl⟩ := of_decide_eq_true hcomputed
  have hopen (calls : List Call) : Retaining calls t (.setAccessible fun _ _ => true) :=
    ⟨⟨fun _ _ _ _ _ => rfl, trivial⟩, trivial⟩
  have hbefore := Runs.of_runAll (fun calls _ _ => Retaining.of_test calls) hrun
  have hpager := (hbefore.snoc (hopen _) rfl).append
    (Runs.of_runAll (fun calls _ _ => Retaining.of_test _) hrun')
  exact ⟨_, s, hpager, pagerRun_shared (by decide) (by decide) 2 _ _ _ _ _ hpager⟩

/-- The page of a block loses its place in the registry when a file name is looked up in it, which
fails; after that, another page is made for the same block. -/
theorem not_pagerRun_shared : ¬ ∀ (calls : List Call) (results : List Result) (s : State),
    PagerRun Proper (blankMachine 3 1 fun _ _ => false) calls results s → s.SharesPages := by
  have hcomputed : ((runAll exec mmuFaults
      [.create 0 1 [], .map 0 0, .map 0x600000000 0, .map 0x600010000 0]
      (blankMachine 3 1 fun _ _ => false)).any fun r =>
      (runAll exec mmuFaults [.map 0x600000000 0] { r.2 with accessible := fun _ _ => true }).any
      fun r' => r'.2.mapped 1 0x600010000 = some 1 ∧ r'.2.mapped 1 0x600020000 = some 2 ∧
        (r'.2.pages 1).isSwap = false ∧ (r'.2.pages 2).isSwap = false ∧
        (r'.2.pages 1).key = (r'.2.pages 2).key) = true := by decide +kernel
  obtain ⟨r, hrun, hcomputed⟩ := (Option.any_eq_true ..).mp hcomputed
  obtain ⟨⟨results, s⟩, hrun', hcomputed⟩ := (Option.any_eq_true ..).mp hcomputed
  obtain ⟨hva, hva', hfile, hfile', hkey⟩ := of_decide_eq_true hcomputed
  intro hclaim
  have hshares := hclaim _ _ s (PagerRun.of_opened hrun hrun')
  have hcell : s.memory.cells 1 0x600010000 = some (.file (s.pages 1).key) :=
    State.cells_eq_file.mpr ⟨1, hva, hfile, rfl⟩
  have hcell' : s.memory.cells 1 0x600020000 = some (.file (s.pages 1).key) :=
    State.cells_eq_file.mpr ⟨2, hva', hfile', hkey.symm⟩
  have hsame := hshares.single 1 0x600010000 1 0x600020000 _ hcell hcell'
  rw [hva, hva', Option.some.injEq] at hsame
  exact absurd hsame (by decide)

end OsFromScratch.Pager
