import Mathlib.Data.Set.Card
import OsFromScratch.Lib.Mirror
import OsFromScratch.Pager.Current
import OsFromScratch.Pager.Refinement

/-!
# The physical memory is transparent

How much physical memory there is cannot be seen by programs. Two machines with the same files and
as many blocks of swap, one with two physical pages and the other with a million, give the same
results: whether `vm_create` and `vm_map` find the blocks that they need depends on the memory of
the processes alone.

## Main definitions

* `Memory.ownPages`, `Memory.ownPagesOf` — the addresses at which the processes have pages of their
  own.
* `Memory.Fits` — whether a call finds the blocks that it needs.
* `ByProgram` — the calls are made by programs, and those of `vm_fault` by their accesses.
* `Call.Like` — the same request of a program.
* `Twins` — two machines with the same memory.

## Main results

* `Effect.fits` — when `vm_create` and `vm_map` fail.
* `Memory.Step.eq_of_like` — what a program is answered is determined by the memory.
* `pagerRun_transparent` — machines that differ in their physical memory cannot be told apart.
-/

namespace OsFromScratch.Pager

open Function

variable {m n : ℕ} {s s' : State} {id : PageId} {strict keep : Prop} {M M' M₁ M₂ : Memory}

/-! ### The blocks that the processes need -/

namespace Memory

/-- The addresses at which the processes have pages of their own. -/
def ownPages (M : Memory) : Set (Pid × ℕ) :=
  {a | ∃ contents, M.cells a.1 a.2 = some (.own contents)}

/-- The addresses at which a process has pages of its own. -/
def ownPagesOf (M : Memory) (pid : Pid) : Set ℕ :=
  {va | ∃ contents, M.cells pid va = some (.own contents)}

/-- A call that needs blocks of the swap file succeeds if they are left, of `n` blocks. -/
def Fits (n : ℕ) (M : Memory) : Call → Result → Prop
  | .create parent _ _, result =>
    result = .status true ↔ M.ownPages.ncard + (M.ownPagesOf parent).ncard ≤ n
  | .map theirFilename _, result => theirFilename = 0 →
    (result = .address none ↔ M.ownPages.ncard = n ∨ ∀ va, ¬M.Next M.current va)
  | _, _ => True

end Memory

/-- A page of its own is one that is backed by swap. -/
theorem State.memory_own {pid : Pid} {va : ℕ} :
    (∃ contents, s.memory.cells pid va = some (.own contents)) ↔
      ∃ id, s.mapped pid va = some id ∧ (s.pages id).isSwap = true := by
  simp only [State.memory, Option.map_eq_some_iff]
  constructor
  · rintro ⟨contents, id, hid, hcell⟩
    refine ⟨id, hid, ?_⟩
    by_contra hswap
    rw [VirtualPage.cell, if_neg hswap] at hcell
    cases hcell
  · rintro ⟨id, hid, hswap⟩
    exact ⟨s.contents id, id, hid, if_pos hswap⟩

/-- The addresses of all processes that are mapped to swap backed pages. -/
def State.swapAddresses (s : State) : List (Pid × ℕ) :=
  s.translateVA.entries.flatMap fun process =>
    (process.2.entries.filter fun entry => (s.pages entry.2).isSwap).map fun entry =>
      (process.1, entry.1)

theorem State.mem_swapAddresses {a : Pid × ℕ} : a ∈ s.swapAddresses ↔ a ∈ s.memory.ownPages := by
  rw [Memory.ownPages, Set.mem_ofPred_eq, State.memory_own]
  simp only [State.swapAddresses, State.mapped_iff_entries, List.mem_flatMap, List.mem_map,
    List.mem_filter]
  constructor
  · rintro ⟨process, hprocess, entry, ⟨hentry, hswap⟩, rfl⟩
    exact ⟨entry.2, ⟨process, hprocess, entry, hentry, rfl, rfl, rfl⟩, hswap⟩
  · rintro ⟨id, ⟨process, hprocess, entry, hentry, hpid, hva, rfl⟩, hswap⟩
    exact ⟨process, hprocess, entry, ⟨hentry, hswap⟩, Prod.ext hpid hva⟩

theorem State.nodup_swapAddresses (s : State) : s.swapAddresses.Nodup := by
  refine List.nodup_flatMap.mpr ⟨fun process _ => ?_, ?_⟩
  · have hkeys : (process.2.entries.map Sigma.fst).Nodup := process.2.nodupKeys
    refine List.Nodup.map_on ?_ ((hkeys.of_map _).filter _)
    intro a ha b hb hab
    exact List.inj_on_of_nodup_map hkeys (List.mem_of_mem_filter ha) (List.mem_of_mem_filter hb)
      (Prod.mk.inj hab).2
  · refine (List.nodupKeys_iff_pairwise.mp s.translateVA.nodupKeys).imp ?_
    intro a b hab
    simp only [List.disjoint_left, List.mem_map, Function.onFun]
    rintro x ⟨_, -, rfl⟩ ⟨_, -, hx⟩
    exact hab (Prod.mk.inj hx).1.symm

/-- There is a block in use for each page that a process has of its own. -/
theorem State.swapMappings_eq (s : State) : s.swapMappings = s.memory.ownPages.ncard := by
  have hset : s.memory.ownPages = ↑s.swapAddresses.toFinset := by
    ext a
    rw [List.coe_toFinset, Set.mem_ofPred_eq, State.mem_swapAddresses]
  rw [hset, Set.ncard_coe_finset, List.toFinset_card_of_nodup s.nodup_swapAddresses,
    State.swapMappings, State.mappedTo, State.swapAddresses, List.length_flatMap,
    List.countP_flatMap]
  congr 1
  refine List.map_congr_left fun process _ => ?_
  simp [List.countP_eq_length_filter, List.filter_map, Function.comp_def]

/-- A child needs a block for each page that its parent has of its own. -/
theorem State.swapNeeded_eq {pid : Pid} {order : List (ℕ × PageId)}
    (horder : order.Perm (s.mappings pid)) :
    s.swapNeeded order = (s.memory.ownPagesOf pid).ncard := by
  have hnodup : (order.map Prod.fst).Nodup :=
    (horder.map Prod.fst).nodup_iff.mpr (s.nodup_mappings pid)
  let addresses := (order.filter fun entry => (s.pages entry.2).isSwap).map Prod.fst
  have haddresses : addresses.Nodup := (List.filter_sublist.map _).nodup hnodup
  have hset : s.memory.ownPagesOf pid = ↑addresses.toFinset := by
    ext va
    rw [List.coe_toFinset, Set.mem_ofPred_eq, Memory.ownPagesOf, Set.mem_ofPred_eq,
      State.memory_own]
    simp only [addresses, List.mem_map, List.mem_filter, Prod.exists, exists_and_right,
      exists_eq_right, State.mem_order horder]
  rw [hset, Set.ncard_coe_finset, List.toFinset_card_of_nodup haddresses, List.length_map]
  rfl

/-- The calls fail when there are no blocks left, and for no other reason. -/
theorem Effect.fits {call : Call} {result : Result}
    (h : Effect strict keep m n s call result s') (hs : WellFormed m n s)
    (hcall : call.Promised s) : s.memory.Fits n call result := by
  have hlength := hs.length_nextFreeSwap
  rw [State.swapMappings_eq] at hlength
  cases h with
  | refuse tables hswap =>
    rw [State.swapNeeded_eq hcall.2] at hswap
    refine iff_of_false (by simp) ?_
    omega
  | create hswap =>
    rw [State.swapNeeded_eq hcall.2] at hswap
    refine iff_of_true rfl ?_
    omega
  | map hmap =>
    intro hname
    cases hmap with
    | full hnext =>
      exact iff_of_true rfl (Or.inr fun va hva =>
        lt_irrefl _ ((hs.spaces.memory_next hcall.1 hnext).mp hva).1)
    | noBlock _ _ _ hfree =>
      rw [hfree, List.length_nil, Nat.zero_add] at hlength
      exact iff_of_true rfl (Or.inl hlength)
    | @zero i b rest tables _ hnext hi hfree =>
      rw [hfree, List.length_cons] at hlength
      refine iff_of_false (by simp) ?_
      rintro (hfull | hfull)
      · omega
      · exact hfull _ ((hs.spaces.memory_next hcall.1 hnext).mpr ⟨hi, rfl⟩)
    | file name hne => exact absurd hname hne
  | _ => trivial

/-! ### The requests of programs -/

/-- The same request of a program. The order in which the pager visits the pages of a process may be
another one. -/
inductive Call.Like : Call → Call → Prop
  | create (parent child : Pid) (order order' : List (ℕ × PageId)) :
    Like (.create parent child order) (.create parent child order')
  | switch (pid : Pid) : Like (.switch pid) (.switch pid)
  | map (theirFilename block : ℕ) : Like (.map theirFilename block) (.map theirFilename block)
  | destroy (order order' : List (ℕ × PageId)) : Like (.destroy order) (.destroy order')
  | load (addr : ℕ) : Like (.load addr) (.load addr)
  | store (addr : ℕ) (byte : UInt8) : Like (.store addr byte) (.store addr byte)

namespace Memory

theorem Next.unique {pid : Pid} {va va' : ℕ} (h : M.Next pid va) (h' : M.Next pid va') :
    va = va' := by
  obtain ⟨i, -, rfl, hnone, hbelow⟩ := h
  obtain ⟨j, -, rfl, hnone', hbelow'⟩ := h'
  rcases lt_trichotomy i j with hlt | rfl | hlt
  · exact absurd hnone (hbelow' i hlt)
  · rfl
  · exact absurd hnone' (hbelow j hlt)

/-- What `vm_map` does. -/
theorem Step.map_spec {theirFilename block : ℕ} {result : Result}
    (h : M.Step (.map theirFilename block) result M') (hfits : M.Fits n (.map theirFilename block)
      result) :
    (result = .address none ∧ M' = M ∧ ((∀ va, ¬M.Next M.current va) ∨
      if theirFilename = 0 then M.ownPages.ncard = n else M.name theirFilename = none)) ∨
    ∃ va, result = .address (some va) ∧ M.Next M.current va ∧
      if theirFilename = 0 then
        M.ownPages.ncard ≠ n ∧ M' = M.map M.current va (.own fun _ => 0)
      else ∃ filename, M.name theirFilename = some filename ∧
        M' = M.map M.current va (.file (filename, block)) := by
  cases h with
  | full hfull => exact Or.inl ⟨rfl, rfl, Or.inl hfull⟩
  | noBlock =>
    rw [if_pos rfl]
    exact Or.inl ⟨rfl, rfl, ((hfits rfl).mp rfl).symm⟩
  | noName hname hnone =>
    rw [if_neg hname]
    exact Or.inl ⟨rfl, rfl, Or.inr hnone⟩
  | zero hva =>
    refine Or.inr ⟨_, rfl, hva, ?_⟩
    rw [if_pos rfl]
    refine ⟨fun heq => ?_, rfl⟩
    have hnone := (hfits rfl).mpr (Or.inl heq)
    cases hnone
  | file hname hva hsome =>
    refine Or.inr ⟨_, rfl, hva, ?_⟩
    rw [if_neg hname]
    exact ⟨_, hsome, rfl⟩

/-- What a program is answered, and what its request does, is determined by the memory. -/
theorem Step.eq_of_like {call call' : Call} {result result' : Result} (h : M.Step call result M₁)
    (h' : M.Step call' result' M₂) (hfits : M.Fits n call result) (hfits' : M.Fits n call' result')
    (hlike : call.Like call') : result' = result ∧ M₂ = M₁ := by
  cases hlike with
  | create parent child order order' =>
    have hiff : result' = .status true ↔ result = .status true := hfits'.trans hfits.symm
    cases h with
    | refuse =>
      cases h' with
      | refuse => exact ⟨rfl, rfl⟩
      | create => cases hiff.mp rfl
    | create =>
      cases h' with
      | refuse => cases hiff.mpr rfl
      | create => exact ⟨rfl, rfl⟩
  | switch => cases h; cases h'; exact ⟨rfl, rfl⟩
  | map theirFilename block =>
    rcases h.map_spec hfits with ⟨rfl, rfl, hnone⟩ | ⟨va, rfl, hva, hsome⟩
    · rcases h'.map_spec hfits' with ⟨rfl, rfl, -⟩ | ⟨va', -, hva', hsome'⟩
      · exact ⟨rfl, rfl⟩
      · refine absurd (hnone.resolve_left fun hfull => hfull va' hva') ?_
        split_ifs at hsome' ⊢
        · exact hsome'.1
        · obtain ⟨filename, hname, -⟩ := hsome'
          rw [hname]
          exact Option.some_ne_none filename
    · rcases h'.map_spec hfits' with ⟨-, -, hnone'⟩ | ⟨va', rfl, hva', hsome'⟩
      · refine absurd (hnone'.resolve_left fun hfull => hfull va hva) ?_
        split_ifs at hsome ⊢
        · exact hsome.1
        · obtain ⟨filename, hname, -⟩ := hsome
          rw [hname]
          exact Option.some_ne_none filename
      · obtain rfl := hva.unique hva'
        refine ⟨rfl, ?_⟩
        split_ifs at hsome hsome'
        · exact hsome'.2.trans hsome.2.symm
        · obtain ⟨filename, hname, rfl⟩ := hsome
          obtain ⟨filename', hname', rfl⟩ := hsome'
          obtain rfl := Option.some.inj (hname.symm.trans hname')
          rfl
  | destroy => cases h; cases h'; exact ⟨rfl, rfl⟩
  | load => cases h; cases h'; exact ⟨rfl, rfl⟩
  | store addr byte =>
    cases h with
    | denied hnone =>
      cases h' with
      | denied => exact ⟨rfl, rfl⟩
      | store hsome =>
        rw [hnone] at hsome
        cases hsome
    | store hsome =>
      cases h' with
      | denied hnone =>
        rw [hnone] at hsome
        cases hsome
      | store => exact ⟨rfl, rfl⟩

/-- The page table base register after a call. -/
def register (M : Memory) (old : Option Pid) : Call → Result → Option Pid
  | .create parent child _, .status true =>
    if parent ∈ insert child M.processes then old else some child
  | .switch pid, _ => some pid
  | .destroy _, _ => old.filter fun pid => pid ≠ M.current
  | _, _ => old

theorem register_of_like {call call' : Call} (h : call.Like call') {old : Option Pid}
    {result : Result} : M.register old call' result = M.register old call result := by
  cases h with
  | create =>
    cases result with
    | status ok => cases ok <;> rfl
    | _ => rfl
  | _ => rfl

end Memory

theorem Effect.register {call : Call} {result : Result}
    (h : Effect strict keep m n s call result s') :
    s'.pageTableBaseRegister = s.memory.register s.pageTableBaseRegister call result := by
  cases h with
  | refuse tables => rfl
  | @create parent child _ _ _ hcreated =>
    obtain ⟨count, t, -, hinherit, rfl⟩ := hcreated
    have hregister : t.pageTableBaseRegister = s.pageTableBaseRegister := hinherit.same.2.2.2
    change _ = if parent ∈ insert child s.processTable then _ else _
    split_ifs
    · exact hregister
    · rfl
  | switch pid => rfl
  | map hmap => exact hmap.sameProcesses.register
  | @destroy _ t hdrop =>
    obtain ⟨-, -, -, -, hcurrent, hregister, -⟩ := hdrop.same
    obtain ⟨maps, heq⟩ := s.touchVA_eq s.currentPid
    rw [heq] at hcurrent hregister
    change t.pageTableBaseRegister.filter (fun pid => pid ≠ t.currentPid) = _
    rw [hcurrent, hregister]
    rfl
  | fault hfaulted => exact hfaulted.sameProcesses.register
  | load haccess => exact haccess.faulted.sameProcesses.register
  | denied haccess => exact haccess.faulted.sameProcesses.register
  | store haccess => exact haccess.faulted.sameProcesses.register
  | setAccessible accessible => rfl

/-! ### Two machines -/

/-- The infrastructure keeps its promises, and calls `vm_fault` for the accesses of programs
only. -/
def ByProgram (calls : List Call) (s : State) (call : Call) : Prop :=
  MmuFaults calls s call ∧ ∀ addr writeFlag, call ≠ .fault addr writeFlag

theorem PagerRun.byProgram {calls : List Call} {results : List Result}
    (h : PagerRun MmuFaults s calls results s')
    (hnot : ∀ call ∈ calls, ∀ addr writeFlag, call ≠ .fault addr writeFlag) :
    PagerRun ByProgram s calls results s' := by
  induction h with
  | nil => exact .nil
  | snoc _ hcall hexec ih =>
    refine (ih fun call hmem => hnot call (List.mem_append_left _ hmem)).snoc ⟨hcall, ?_⟩ hexec
    exact hnot _ (List.mem_append_right _ (List.mem_singleton_self _))

/-- What a request of a program does. -/
theorem ByProgram.step {calls : List Call} {call : Call} {result : Result}
    (hcall : ByProgram calls s call) (hm : 2 ≤ m) (hmax : m ≤ 2 ^ 20) (hs : WellFormed m n s)
    (hcoherent : Coherent m n s) (hexec : exec call s = some (result, s')) :
    WellFormed m n s' ∧ Coherent m n s' ∧ s.memory.Step call result s'.memory ∧
      s.memory.Fits n call result ∧
      s'.pageTableBaseRegister = s.memory.register s.pageTableBaseRegister call result := by
  obtain ⟨⟨hpromised, hrefused, hfixed⟩, -⟩ := hcall
  have hcoherently : Coherently calls s call := ⟨hpromised, hrefused, hfixed.keepsRegistered⟩
  obtain ⟨hs', hcoherent', hstep⟩ := hcoherent.step hs hm hmax hcoherently hexec
  obtain ⟨-, heffect⟩ := Effect.of_exec hs hm hpromised (fun hstrict : False => hstrict.elim)
    (fun hkeep : False => hkeep.elim) hexec
  exact ⟨hs', hcoherent', hstep, heffect.fits hs hpromised, heffect.register⟩

/-- Two machines with the same memory. -/
structure Twins (m m' n : ℕ) (s s' : State) : Prop where
  wellFormed : WellFormed m n s
  wellFormed' : WellFormed m' n s'
  coherent : Coherent m n s
  coherent' : Coherent m' n s'
  memory : s'.memory = s.memory
  register : s'.pageTableBaseRegister = s.pageTableBaseRegister

/-- A request that one machine can be made can be made of the other. -/
theorem Twins.exists_like {m' : ℕ} (h : Twins m m' n s s') {calls : List Call}
    {call : Call} (hcall : ByProgram calls s call) (calls' : List Call) :
    ∃ call', call.Like call' ∧ ByProgram calls' s' call' := by
  obtain ⟨⟨hpromised, -, hfixed⟩, hnot⟩ := hcall
  have htable : s'.processTable = s.processTable := congrArg Memory.processes h.memory
  have hcurrent : s'.currentPid = s.currentPid := congrArg Memory.current h.memory
  have hrunning (hrun : s.Running) : s'.Running := by
    rw [State.Running, htable, hcurrent, h.register]
    exact hrun
  have hby (call' : Call) (hpromised' : call'.Promised s') (hrefused : call'.Refused s')
      (hfixed' : call'.Fixed) (hnot' : ∀ addr writeFlag, call' ≠ .fault addr writeFlag) :
      ByProgram calls' s' call' := ⟨⟨hpromised', hrefused, hfixed'⟩, hnot'⟩
  cases call with
  | create parent child order =>
    refine ⟨_, .create parent child order (s'.mappings parent), hby _ ⟨?_, .refl _⟩ trivial trivial
      (by simp)⟩
    rw [htable]
    exact hpromised.1
  | switch pid =>
    refine ⟨_, .switch pid, hby _ ?_ trivial trivial (by simp)⟩
    change pid ∈ s'.processTable
    rw [htable]
    exact hpromised
  | map theirFilename block =>
    exact ⟨_, .map theirFilename block, hby _ (hrunning hpromised) trivial trivial (by simp)⟩
  | destroy order =>
    exact ⟨_, .destroy order (s'.mappings s'.currentPid),
      hby _ ⟨hrunning hpromised.1, .refl _⟩ trivial trivial (by simp)⟩
  | fault addr writeFlag => exact absurd rfl (hnot addr writeFlag)
  | load addr =>
    exact ⟨_, .load addr, hby _ ⟨hrunning hpromised.1, hpromised.2⟩ trivial trivial (by simp)⟩
  | store addr byte =>
    exact ⟨_, .store addr byte, hby _ ⟨hrunning hpromised.1, hpromised.2⟩ trivial trivial (by simp)⟩
  | setAccessible accessible => exact hfixed.elim

/-- The machines give the same results. -/
theorem Twins.mirrors {m' : ℕ} (hm : 2 ≤ m) (hmax : m ≤ 2 ^ 20) (hm' : 2 ≤ m')
    (hmax' : m' ≤ 2 ^ 20) (n : ℕ) :
    Mirrors exec ByProgram exec ByProgram (Twins m m' n) Call.Like where
  answers {calls calls' s s' call result s₁} h hcall _ := by
    obtain ⟨call', hlike, hcall'⟩ := h.exists_like hcall calls'
    refine ⟨call', hlike, hcall', Option.isSome_iff_ne_none.mpr ?_⟩
    exact exec_ne_none h.wellFormed' hm' h.coherent'.registered hcall'.1.1 hcall'.1.2.1
  agrees {calls calls' s s' call call' result result' s₁ s₁'} h hlike hcall hexec hcall'
      hexec' := by
    obtain ⟨hwf, hcoherent, hstep, hfits, hregister⟩ :=
      hcall.step hm hmax h.wellFormed h.coherent hexec
    obtain ⟨hwf', hcoherent', hstep', hfits', hregister'⟩ :=
      hcall'.step hm' hmax' h.wellFormed' h.coherent' hexec'
    rw [h.memory] at hstep' hfits'
    obtain ⟨rfl, hmemory⟩ := hstep.eq_of_like hstep' hfits hfits' hlike
    refine ⟨rfl, hwf, hwf', hcoherent, hcoherent', hmemory, ?_⟩
    rw [hregister, hregister', h.memory, h.register, Memory.register_of_like hlike]

/-- Programs cannot tell how much physical memory there is, what it contains at first, and what the
swap file contains. Whatever a machine can be asked, a machine with another physical memory and with
as many blocks of swap can be asked as well, and it gives the same results: after them the memory of
the processes is the same. -/
theorem pagerRun_transparent {m' : ℕ} (hm : 2 ≤ m) (hmax : m ≤ 2 ^ 20) (hm' : 2 ≤ m')
    (hmax' : m' ≤ 2 ^ 20) (n : ℕ) (files : Bytes → ℕ → Contents) (accessible : Bytes → ℕ → Bool)
    (physmem physmem' swapFile swapFile' garbage garbage' : ℕ → Contents)
    {calls : List Call} {results : List Result}
    (hrun : PagerRun ByProgram (vmInit m n physmem swapFile files accessible garbage)
      calls results s) :
    (∃ calls' s', List.Forall₂ Call.Like calls calls' ∧ PagerRun ByProgram
      (vmInit m' n physmem' swapFile' files accessible garbage') calls' results s') ∧
    ∀ calls' results' s', List.Forall₂ Call.Like calls calls' → PagerRun ByProgram
      (vmInit m' n physmem' swapFile' files accessible garbage') calls' results' s' →
      results' = results ∧ s'.memory = s.memory := by
  have hmirrors := Twins.mirrors hm hmax hm' hmax' n
  have hstart : Twins m m' n (vmInit m n physmem swapFile files accessible garbage)
      (vmInit m' n physmem' swapFile' files accessible garbage') :=
    { wellFormed := vmInit_wellFormed hm n physmem swapFile files accessible garbage
      wellFormed' := vmInit_wellFormed hm' n physmem' swapFile' files accessible garbage'
      coherent := vmInit_coherent hm n physmem swapFile files accessible garbage
      coherent' := vmInit_coherent hm' n physmem' swapFile' files accessible garbage'
      memory := by rw [vmInit_memory, vmInit_memory]
      register := rfl }
  refine ⟨hmirrors.exists_runs hstart hrun, fun calls' results' s' hlike hrun' => ?_⟩
  obtain ⟨hresults, htwins⟩ := hmirrors.agree hstart hrun hrun' hlike
  exact ⟨hresults, htwins.memory⟩

/-- A machine with one page for all processes has to write the first page of this program to the
swap file; a machine with eight pages gives the same results. -/
theorem pagerRun_transparent_evict : ∃ calls s, PagerRun ByProgram
    (blankMachine 9 2 fun _ _ => false) calls [.status true, .address (some 0x600000000),
      .address (some 0x600010000), .status true, .status true, .byte (some 1)] s := by
  have hcomputed : ((runAll exec mmuFaults
      [.create 0 1 [], .map 0 0, .map 0 0, .store 0x600000000 1, .store 0x600010000 2,
        .load 0x600000000] (blankMachine 2 2 fun _ _ => false)).any fun r =>
      r.1 = [.status true, .address (some 0x600000000), .address (some 0x600010000), .status true,
        .status true, .byte (some 1)]) = true := by decide +kernel
  obtain ⟨⟨results, s⟩, hrun, hresults⟩ := (Option.any_eq_true ..).mp hcomputed
  obtain rfl := of_decide_eq_true hresults
  have hprogram := (mmuRun_of_runAll hrun).byProgram (by simp)
  obtain ⟨⟨calls', s', -, hrun'⟩, -⟩ := pagerRun_transparent (by decide) (by decide)
    (by decide : 2 ≤ 9) (by decide) 2 _ _ _ _ _ _ _ _ hprogram
  exact ⟨calls', s', hrun'⟩

end OsFromScratch.Pager
