import OsFromScratch.Pager.Destroy

/-!
# The machine

The calls that the infrastructure makes to the pager, and the loads and stores of the current
process. The memory management unit looks an address up in the page table that the page table base
register points to. An access that the entry does not allow calls `vm_fault`, and is made again if
that returns 0.

## Main definitions

* `State.mmuEntry`, `access` — the memory management unit.
* `Call`, `exec` — a call of the pager, a load or a store.
* `Call.Promised` — what the infrastructure guarantees when it makes a call.
* `Effect` — what a call does.

## Main results

* `access_spec` — an access reaches the page that the address is mapped to, if its contents can be
  had.
* `Effect.of_exec` — the effects of the calls.
* `exec_isSome` — no assertion fails.
-/

namespace OsFromScratch.Pager

open Function

variable {m n : ℕ} {s s' : State} {id : PageId} {ptr : PtePtr}

/-! ### The memory management unit -/

/-- The page table entry for an address. -/
def State.mmuEntry (s : State) (addr : ℕ) : Option PageTableEntry :=
  s.pageTableBaseRegister.map fun pid => s.pte (vaToPTE addr pid)

/-- An access of the current process, with the physical page that it reaches, or none if `vm_fault`
fails. There is no value if the entry does not allow the access after a fault that has been
handled. -/
def access (addr : ℕ) (writeFlag : Bool) (s : State) : Option (Option ℕ × State) := do
  let entry ← s.mmuEntry addr
  if entry.allows writeFlag then
    some (some entry.ppage.toNat, s)
  else
    let (ok, s) ← vmFault addr writeFlag s
    if ok then
      let entry ← s.mmuEntry addr
      if entry.allows writeFlag then some (some entry.ppage.toNat, s) else none
    else
      some (none, s)

/-- A byte is stored in the physical memory. -/
def State.poke (s : State) (ppn offset : ℕ) (byte : UInt8) : State :=
  { s with physmem :=
      update s.physmem ppn (update (s.physmem ppn) (Fin.ofNat vmPagesize offset) byte) }

/-- The address is in the arena. -/
def InArena (addr : ℕ) : Prop :=
  vmArenaBaseaddr ≤ addr ∧ addr < vmArenaMaxaddr

instance (addr : ℕ) : Decidable (InArena addr) :=
  inferInstanceAs (Decidable (_ ∧ _))

/-! ### Calls -/

/-- A call of the pager, with the order in which a loop goes through the mappings of a process, a
load or a store of the current process, or a change of the file blocks that can be accessed. -/
inductive Call
  | create (parent child : Pid) (order : List (ℕ × PageId))
  | switch (pid : Pid)
  | map (theirFilename block : ℕ)
  | destroy (order : List (ℕ × PageId))
  | fault (addr : ℕ) (writeFlag : Bool)
  | load (addr : ℕ)
  | store (addr : ℕ) (byte : UInt8)
  | setAccessible (accessible : Bytes → ℕ → Bool)

/-- What a call returns: whether it succeeds, the address of a new page, or the byte that is
loaded. -/
inductive Result
  | done
  | status (ok : Bool)
  | address (addr : Option ℕ)
  | byte (value : Option UInt8)
  deriving DecidableEq

/-- A call is made. -/
def exec : Call → State → Option (Result × State)
  | .create parent child order, s =>
    (vmCreate parent child order s).map fun r => (.status r.1, r.2)
  | .switch pid, s => (vmSwitch pid s).map fun s => (.done, s)
  | .map theirFilename block, s =>
    (vmMap theirFilename block s).map fun r => (.address r.1, r.2)
  | .destroy order, s => (vmDestroy order s).map fun s => (.done, s)
  | .fault addr writeFlag, s => (vmFault addr writeFlag s).map fun r => (.status r.1, r.2)
  | .load addr, s => (access addr false s).map fun r =>
    (.byte (r.1.map fun ppn => r.2.byte ppn (addr % vmPagesize)), r.2)
  | .store addr byte, s => (access addr true s).map fun r =>
    (.status r.1.isSome, r.1.elim r.2 fun ppn => r.2.poke ppn (addr % vmPagesize) byte)
  | .setAccessible accessible, s => some (.done, { s with accessible })

/-- What the infrastructure guarantees when it makes a call: the pid of a new process is not in use,
a process that is switched to is managed, the other calls are made for a current process that is
managed and has been switched to, and a block of a file that is in memory remains accessible. -/
def Call.Promised (s : State) : Call → Prop
  | .create parent child order => child ∉ s.processTable ∧ order.Perm (s.mappings parent)
  | .switch pid => pid ∈ s.processTable
  | .map _ _ => s.Running
  | .destroy order => s.Running ∧ order.Perm (s.mappings s.currentPid)
  | .fault _ _ => s.Running
  | .load addr => s.Running ∧ InArena addr
  | .store addr _ => s.Running ∧ InArena addr
  | .setAccessible accessible => ∀ id, (s.pages id).resident = true → (s.pages id).isSwap = false →
    ∀ block ∈ (s.pages id).blocks, accessible (s.pages id).filename block = true

/-- A fault is an access that the page table entry does not allow. -/
def Call.Refused (s : State) : Call → Prop
  | .fault addr writeFlag => InArena addr → ∀ entry ∈ s.mmuEntry addr,
    entry.allows writeFlag = false
  | _ => True

/-! ### Accesses -/

theorem InArena.pageStart {addr : ℕ} (h : InArena addr) (pid : Pid) :
    ∃ i, Pager.pageStart addr = pageAddr i ∧ vaToPTE addr pid = ⟨pid, i⟩ := by
  obtain ⟨hlo, -⟩ := h
  refine ⟨(addr - vmArenaBaseaddr) / vmPagesize, ?_, rfl⟩
  simp only [Pager.pageStart, pageAddr, vmArenaBaseaddr, vmPagesize] at hlo ⊢
  omega

/-- Only addresses of the arena are mapped. -/
theorem Spaces.inArena {id : PageId} (h : Spaces s) {pid : Pid} {addr : ℕ}
    (hva : s.mapped pid (pageStart addr) = some id) : InArena addr := by
  obtain ⟨i, hi, -, -⟩ := h.mem_entry hva
  have hmax := h.lt_maxaddr hva
  simp only [InArena, pageStart, pageAddr, vmArenaMaxaddr, vmArenaBaseaddr, vmArenaSize,
    vmPagesize] at hi hmax ⊢
  omega

/-- A page that can be written can be read. -/
theorem VirtualPage.bits_fst {v : VirtualPage} (h : v.bits.2 = true) : v.bits.1 = true := by
  unfold VirtualPage.bits at h ⊢
  split at h
  · split_ifs at h ⊢
    all_goals simp_all
  · simp at h

theorem VirtualPage.page_of_bits {v : VirtualPage} (h : v.bits.1 = true) :
    ∃ page, v.physicalPage = some page ∧ page.clocked = true := by
  cases hpage : v.physicalPage with
  | none => simp [VirtualPage.bits, hpage] at h
  | some page =>
    refine ⟨page, rfl, ?_⟩
    by_contra hclocked
    rw [VirtualPage.bits, hpage] at h
    split at h <;> simp_all

/-- The page table entry that is used for an address allows what the page that the address is mapped
to allows. -/
theorem WellFormed.allows_iff (h : WellFormed m n s) (hrun : s.Running) {addr : ℕ}
    (haddr : InArena addr) (writeFlag : Bool) :
    ∃ entry, s.mmuEntry addr = some entry ∧ (entry.allows writeFlag = true ↔
      ∃ id, s.mapped s.currentPid (pageStart addr) = some id ∧
        (if writeFlag then (s.pages id).bits.2 else (s.pages id).bits.1) = true) := by
  obtain ⟨i, hstart, hpte⟩ := haddr.pageStart s.currentPid
  refine ⟨s.pte ⟨s.currentPid, i⟩, ?_, ?_⟩
  · rw [State.mmuEntry, hrun.2, Option.map_some, hpte]
  · rw [hstart]
    cases hva : s.mapped s.currentPid (pageAddr i) with
    | none =>
      have hbits := h.ptes.unmapped ⟨s.currentPid, i⟩ hrun.1 hva
      cases writeFlag <;> simp [PageTableEntry.allows, hbits]
    | some id =>
      have hbits := h.pte_of_mapped (show s.entryPage ⟨s.currentPid, i⟩ = some id from hva)
      cases writeFlag <;> simp [PageTableEntry.allows, hbits]

theorem Call.Refused.denied (h : WellFormed m n s) (hrun : s.Running) {addr : ℕ} {writeFlag : Bool}
    (hrefused : (Call.fault addr writeFlag).Refused s) : s.Denied (pageStart addr) writeFlag := by
  intro id hva
  have haddr : InArena addr := h.spaces.inArena hva
  obtain ⟨entry, hentry, hiff⟩ := h.allows_iff hrun haddr writeFlag
  have hnot : ¬_ := mt hiff.mpr (by rw [hrefused haddr entry hentry]; exact Bool.false_ne_true)
  have hbits := fun hb => hnot ⟨id, hva, hb⟩
  cases writeFlag <;> simpa using hbits

/-- What an access does: it reaches the page that the address is mapped to, if its contents can be
had; otherwise it fails. -/
structure Access (strict keep : Prop) (s : State) (addr : ℕ) (writeFlag : Bool) (place : Option ℕ)
    (s' : State) : Prop where
  faulted : Faulted strict keep s s'
  isSome : place.isSome ↔ ∃ id, s.mapped s.currentPid (pageStart addr) = some id ∧ s.Readable id
  page : ∀ ppn ∈ place, ∃ id, ∃ page ∈ (s'.pages id).physicalPage,
    s'.mapped s'.currentPid (pageStart addr) = some id ∧ ppn = page.ppn % 2 ^ 20 ∧
    (writeFlag = true → (s'.pages id).bits.2 = true)

/-- A copy of a page is not made for another process. -/
theorem Copy.same (h : Copy s s' ptr id) : s'.processTable = s.processTable ∧
    s'.nextFreeVA = s.nextFreeVA ∧ s'.currentPid = s.currentPid ∧
    s'.pageTableBaseRegister = s.pageTableBaseRegister ∧ s'.accessible = s.accessible := by
  obtain ⟨block, t, ppn, rest, tables, -, hreclaim, -, rfl⟩ := h.result
  have hreloc := (hreclaim.moves False False).relocation
  exact ⟨hreloc.processTable, hreloc.nextFreeVA, hreloc.currentPid, hreloc.register,
    hreloc.accessible⟩

theorem Faulted.same {strict keep : Prop} (h : Faulted strict keep s s') :
    s'.processTable = s.processTable ∧ s'.nextFreeVA = s.nextFreeVA ∧ s'.currentPid = s.currentPid ∧
    s'.pageTableBaseRegister = s.pageTableBaseRegister ∧ s'.accessible = s.accessible := by
  obtain ⟨s₁, hmoves, hcopy⟩ := h
  have hreloc := hmoves.relocation
  have hfirst : s₁.processTable = s.processTable ∧ s₁.nextFreeVA = s.nextFreeVA ∧
      s₁.currentPid = s.currentPid ∧ s₁.pageTableBaseRegister = s.pageTableBaseRegister ∧
      s₁.accessible = s.accessible := by
    obtain ⟨maps, heq⟩ := s.touchVA_eq s.currentPid
    rw [hreloc.processTable, hreloc.nextFreeVA, hreloc.currentPid, hreloc.register,
      hreloc.accessible, heq]
    exact ⟨rfl, rfl, rfl, rfl, rfl⟩
  rcases hcopy with rfl | ⟨ptr, id, hcopy⟩
  · exact hfirst
  · obtain ⟨h₁, h₂, h₃, h₄, h₅⟩ := hcopy.same
    rw [h₁, h₂, h₃, h₄, h₅]
    exact hfirst

theorem Faulted.running {strict keep : Prop} (h : Faulted strict keep s s') (hrun : s.Running) :
    s'.Running := by
  obtain ⟨htable, -, hpid, hregister, -⟩ := h.same
  rw [State.Running, htable, hpid, hregister]
  exact hrun

/-- An access that the page table entry allows reaches the page that the address is mapped to. -/
private theorem place_of_accessible (h : WellFormed m n s) (hrun : s.Running) {addr : ℕ}
    (haddr : InArena addr) (writeFlag : Bool)
      (hva : s.mapped s.currentPid (pageStart addr) = some id)
    (hread : (s.pages id).bits.1 = true) :
    ∃ entry, s.mmuEntry addr = some entry ∧
      ∃ page ∈ (s.pages id).physicalPage, entry.ppage.toNat = page.ppn % 2 ^ 20 ∧
        entry.allows writeFlag = if writeFlag then (s.pages id).bits.2 else true := by
  obtain ⟨i, hstart, hpte⟩ := haddr.pageStart s.currentPid
  have hptr : s.entryPage ⟨s.currentPid, i⟩ = some id := by
    rw [hstart] at hva
    exact hva
  obtain ⟨page, hpage, -⟩ := VirtualPage.page_of_bits hread
  have hres : (s.pages id).resident = true := by rw [h.frames.resident, hpage]; rfl
  have huptodate := h.ptes.page id (Set.notMem_empty id) ⟨s.currentPid, i⟩
    ((h.mappings.attached id _).mpr hptr)
  refine ⟨s.pte ⟨s.currentPid, i⟩, ?_, page, hpage, ?_, ?_⟩
  · rw [State.mmuEntry, hrun.2, Option.map_some, hpte]
  · rw [huptodate.2.2 page hpage hres, BitVec.toNat_ofNat]
  · rw [PageTableEntry.allows, huptodate.1, huptodate.2.1, hread]

theorem access_spec (h : WellFormed m n s) (hm : 2 ≤ m) (hrun : s.Running) {addr : ℕ}
    (haddr : InArena addr) (writeFlag : Bool) (strict : Prop) {keep : Prop}
    (hkeep : keep → ∀ id, s.mapped s.currentPid (pageStart addr) = some id → s.Kept id) :
    ∃ place s', access addr writeFlag s = some (place, s') ∧ WellFormed m n s' ∧
      Access strict keep s addr writeFlag place s' := by
  obtain ⟨entry, hentry, hallows⟩ := h.allows_iff hrun haddr writeFlag
  rw [access]
  simp only [hentry, Option.bind_eq_bind, Option.bind_some]
  cases hentry_allows : entry.allows writeFlag with
  | true =>
    obtain ⟨id, hva, hbits⟩ := hallows.mp hentry_allows
    have hread : (s.pages id).bits.1 = true := by
      cases writeFlag
      · exact hbits
      · exact VirtualPage.bits_fst hbits
    obtain ⟨entry', hentry', page, hpage, hppn, -⟩ :=
      place_of_accessible h hrun haddr writeFlag hva hread
    rw [hentry, Option.some.injEq] at hentry'
    subst hentry'
    have htouch := State.touchVA_of_mapped hva
    refine ⟨some entry.ppage.toNat, s, rfl, h, ⟨s, ?_, Or.inl rfl⟩, iff_of_true rfl ⟨id, hva, ?_⟩,
      fun ppn hmem => ⟨id, page, hpage, hva, ?_, fun hw => ?_⟩⟩
    · rw [htouch]
      exact Relation.ReflTransGen.refl
    · exact h.toCore.readable (h.toCore.affiliated_ne_nil hva) hpage
    · rw [← hppn]
      exact (Option.some.inj hmem).symm
    · rwa [hw, if_pos rfl] at hbits
  | false =>
    have hrefused : (Call.fault addr writeFlag).Refused s := fun _ entry' hentry' => by
      rw [hentry, Option.mem_some_iff] at hentry'
      rw [← hentry', hentry_allows]
    have hdenied := hrefused.denied h hrun
    obtain ⟨ok, s', hfault, hwf, hfaulted, hok, haccess⟩ := vmFault_spec h hm hrun addr writeFlag
      (hdenied.faultOk h) (fun _ : strict => hdenied) hkeep
    have hrun' := hfaulted.running hrun
    simp only [Bool.false_eq_true, if_false]
    cases ok with
    | false =>
      exact ⟨none, s', bind_of_eq_some hfault, hwf, hfaulted, by simpa using hok, by simp⟩
    | true =>
      obtain ⟨id, hva, hread, hwrite⟩ := haccess rfl
      obtain ⟨entry', hentry', page, hpage, hppn, hallows'⟩ :=
        place_of_accessible hwf hrun' haddr writeFlag hva hread
      have hpass : entry'.allows writeFlag = true := by
        rw [hallows']
        split_ifs with hw
        · exact hwrite hw
        · rfl
      refine ⟨some entry'.ppage.toNat, s', (bind_of_eq_some hfault).trans ?_, hwf, hfaulted, ?_,
        fun ppn hmem => ⟨id, page, hpage, hva, ?_, hwrite⟩⟩
      · simp [hentry', hpass]
      · exact iff_of_true rfl (hok.mp rfl)
      · rw [← hppn]
        exact (Option.some.inj hmem).symm

/-! ### Stores -/

/-- A page that can be written is not on the physical page 0. -/
theorem WellFormed.ppn_of_writable (h : WellFormed m n s) {page : PhysicalPage}
    (hpage : page ∈ (s.pages id).physicalPage) (hwrite : (s.pages id).bits.2 = true) :
    page.ppn ∈ Set.Ico 1 m ∧ page.dirty = true ∧
      ((s.pages id).isSwap = true → (s.pages id).affiliated.length = 1) := by
  have hread := VirtualPage.bits_fst hwrite
  obtain ⟨page', hpage', hclocked⟩ := VirtualPage.page_of_bits hread
  have heq := Option.mem_unique hpage hpage'
  subst heq
  have hres : (s.pages id).resident = true := by rw [h.frames.resident, hpage]; rfl
  rw [VirtualPage.bits_eq hres hpage hclocked] at hwrite
  have hone : (s.pages id).isSwap = false ∨ (s.pages id).affiliated.length = 1 := by
    by_contra hnot
    rw [if_neg hnot] at hwrite
    exact Bool.false_ne_true hwrite
  rw [if_pos hone] at hwrite
  refine ⟨?_, hwrite, fun hswap => hone.resolve_left (by simp [hswap])⟩
  have hppn : page.ppn ≠ 0 := fun hzero => by
    have hclean := (h.frames.null_page id page hpage hzero).2.2.2
    exact absurd (hclean.symm.trans hwrite) Bool.false_ne_true
  exact h.frames.frames.mem (p := some id) (VirtualPage.mem_frame.mpr ⟨hppn, page, hpage, rfl⟩)

/-- A store into a page that can be written does not change the physical page 0, if the page table
entries can name all physical pages. -/
theorem WellFormed.poke (h : WellFormed m n s) {ppn : ℕ} (hppn : m ≤ 2 ^ 20 → ppn ≠ 0) (offset : ℕ)
    (byte : UInt8) : WellFormed m n (s.poke ppn offset byte) := by
  have hzero (hm : m ≤ 2 ^ 20) : (s.poke ppn offset byte).physmem 0 = fun _ => 0 :=
    (update_of_ne (hppn hm).symm ..).trans (h.frames.zero hm)
  exact ⟨⟨{ h.mappings with }, { h.frames with zero := hzero }, { h.spaces with }, h.queued⟩,
    { h.ptes with }⟩

/-! ### The effects of calls -/

/-- No page of a file loses its place in the registry while it is mapped: the block of a page that
is accessed, or that a file name is read from, can be read, unless the page is mapped several
times. -/
def Call.Keeps (strict keep : Prop) (m n : ℕ) (s : State) : Call → Prop
  | .map theirFilename _ => theirFilename ≠ 0 → ∃ bytes,
    (∀ t, Moves strict keep (s.touchVA s.currentPid) t → WellFormed m n t → t.Shows bytes) ∧
      (s.touchVA s.currentPid).NameKept bytes theirFilename
  | .fault addr _ => ∀ id, s.mapped s.currentPid (pageStart addr) = some id → s.Kept id
  | .load addr => ∀ id, s.mapped s.currentPid (pageStart addr) = some id → s.Kept id
  | .store addr _ => ∀ id, s.mapped s.currentPid (pageStart addr) = some id → s.Kept id
  | _ => True

/-- What the calls do. -/
inductive Effect (strict keep : Prop) (m n : ℕ) (s : State) : Call → Result → State → Prop
  | refuse {parent child : Pid} {order : List (ℕ × PageId)} (tables : Pid → ℕ → PageTableEntry)
    (hswap : s.nextFreeSwap.length < s.swapNeeded order) :
    Effect strict keep m n s (.create parent child order) (.status false) (s.withTables tables)
  | create {parent child : Pid} {order : List (ℕ × PageId)} {s' : State}
    (hswap : s.swapNeeded order ≤ s.nextFreeSwap.length)
    (hcreated : Created parent child order s s') :
    Effect strict keep m n s (.create parent child order) (.status true) s'
  | switch (pid : Pid) : Effect strict keep m n s (.switch pid) .done
    { s with currentPid := pid, pageTableBaseRegister := some pid }
  | map {theirFilename block : ℕ} {result : Option ℕ} {s' : State}
    (hmap : MapResult strict keep m n s theirFilename block result s') :
    Effect strict keep m n s (.map theirFilename block) (.address result) s'
  | destroy {order : List (ℕ × PageId)} {t : State}
    (hdrop : Drop s.currentPid order (s.touchVA s.currentPid) t)
    (hmappings : Mappings n t.retire.entryPage t.retire) (hframes : Frames m t.retire) :
    Effect strict keep m n s (.destroy order) .done t.retire
  | fault {addr : ℕ} {writeFlag ok : Bool} {s' : State} (hfaulted : Faulted strict keep s s') :
    Effect strict keep m n s (.fault addr writeFlag) (.status ok) s'
  | load {addr : ℕ} {place : Option ℕ} {s' : State}
    (haccess : Access strict keep s addr false place s') :
    Effect strict keep m n s (.load addr)
      (.byte (place.map fun ppn => s'.byte ppn (addr % vmPagesize))) s'
  | denied {addr : ℕ} {byte : UInt8} {s' : State}
    (haccess : Access strict keep s addr true none s') :
    Effect strict keep m n s (.store addr byte) (.status false) s'
  | store {addr ppn : ℕ} {byte : UInt8} {s' : State}
    (haccess : Access strict keep s addr true (some ppn) s') (hwf : WellFormed m n s') :
    Effect strict keep m n s (.store addr byte) (.status true)
      (s'.poke ppn (addr % vmPagesize) byte)
  | setAccessible (accessible : Bytes → ℕ → Bool) :
    Effect strict keep m n s (.setAccessible accessible) .done { s with accessible }

/-- `vm_fault` fails an assertion if a page is written that can be written already. -/
theorem faultOk_of_vmFault (h : WellFormed m n s) {addr : ℕ} {writeFlag : Bool}
    (hfault : (vmFault addr writeFlag s).isSome) : s.FaultOk (pageStart addr) writeFlag := by
  intro id hva page (hpage : (s.pages id).physicalPage = some page) hdirty hw
  by_contra hnot
  obtain ⟨hown, hclocked⟩ := not_or.mp hnot
  have hres : (s.pages id).resident = true := by rw [h.frames.resident, hpage]; rfl
  have hppn : page.ppn ≠ 0 := fun hzero => by
    have hclean := (h.frames.null_page id page hpage hzero).2.2.2
    exact absurd (hclean.symm.trans hdirty) Bool.false_ne_true
  have hnone : vmFault addr writeFlag s = none := by
    rw [vmFault, show addr - addr % vmPagesize = pageStart addr from rfl,
      State.touchVA_of_mapped hva]
    simp only [hva]
    rw [if_neg fun hcow => hown hcow.2, pageIn, VirtualPage.onNullPage, if_pos hres, hpage]
    simp only [Option.map_some, Option.bind_eq_bind, Option.bind_some]
    rw [if_neg (by simp [hres, hppn]), Option.bind_some, if_pos rfl, allowAccess]
    simp [State.setPage, hpage, hdirty, hw, hown, hclocked]
  rw [hnone] at hfault
  simp at hfault

/-- A call has its effect, and no assertion fails unless `vm_destroy` leaves a page in the queue
that does not exist any more. -/
theorem exec_spec (h : WellFormed m n s) (hm : 2 ≤ m) {call : Call} (hcall : call.Promised s)
    {strict keep : Prop} (hfault : ∀ addr writeFlag, call = .fault addr writeFlag →
      s.FaultOk (pageStart addr) writeFlag)
    (hstrict : strict → call.Refused s) (hkeep : keep → call.Keeps strict keep m n s) :
    ∃ result s', Effect strict keep m n s call result s' ∧
      (Queued s' → WellFormed m n s' ∧ exec call s = some (result, s')) ∧
      (exec call s ≠ none → Queued s') ∧ ((∀ order, call ≠ .destroy order) → Queued s') := by
  have hall {result : Result} {s' : State} (heffect : Effect strict keep m n s call result s')
      (hwf : WellFormed m n s') (hexec : exec call s = some (result, s')) :
      ∃ result s', Effect strict keep m n s call result s' ∧
        (Queued s' → WellFormed m n s' ∧ exec call s = some (result, s')) ∧
        (exec call s ≠ none → Queued s') ∧ ((∀ order, call ≠ .destroy order) → Queued s') :=
    ⟨result, s', heffect, fun _ => ⟨hwf, hexec⟩, fun _ => hwf.queued, fun _ => hwf.queued⟩
  cases call with
  | create parent child order =>
    obtain ⟨hchild, horder⟩ := hcall
    rcases vmCreate_spec h hchild horder with ⟨hlt, heq, hwf⟩ | ⟨hge, s', heq, hwf, hcreated⟩
    · exact hall (.refuse _ hlt) hwf (by rw [exec, heq]; rfl)
    · exact hall (.create hge hcreated) hwf (by rw [exec, heq]; rfl)
  | switch pid =>
    obtain ⟨heq, hwf⟩ := vmSwitch_spec h hcall
    exact hall (.switch pid) hwf (by rw [exec, heq]; rfl)
  | map theirFilename block =>
    obtain ⟨result, s', heq, hwf, hmap⟩ := vmMap_spec h hm hcall theirFilename block strict hkeep
    exact hall (.map hmap) hwf (by rw [exec, heq]; rfl)
  | destroy order =>
    obtain ⟨hrun, horder⟩ := hcall
    obtain ⟨t, hdrop, heq, hmappings, hframes, hwf, hqueued⟩ := vmDestroy_spec h hrun horder
    refine ⟨.done, t.retire, .destroy hdrop hmappings hframes, fun hq => ⟨hwf hq, ?_⟩,
      fun hsome => hqueued ?_,
      fun hne => absurd rfl (hne order)⟩
    · rw [exec, heq, (hwf hq).assertStructureConsistency]
      rfl
    · by_contra hnot
      rw [exec, heq, assertStructureConsistency, if_neg hnot] at hsome
      exact hsome rfl
  | fault addr writeFlag =>
    obtain ⟨ok, s', heq, hwf, hfaulted, -, -⟩ := vmFault_spec h hm hcall addr writeFlag
      (hfault addr writeFlag rfl) (fun hs => (hstrict hs).denied h hcall) hkeep
    exact hall (.fault hfaulted) hwf (by rw [exec, heq]; rfl)
  | load addr =>
    obtain ⟨hrun, haddr⟩ := hcall
    obtain ⟨place, s', heq, hwf, haccess⟩ := access_spec h hm hrun haddr false strict hkeep
    exact hall (.load haccess) hwf (by rw [exec, heq]; rfl)
  | store addr byte =>
    obtain ⟨hrun, haddr⟩ := hcall
    obtain ⟨place, s', heq, hwf, haccess⟩ := access_spec h hm hrun haddr true strict hkeep
    cases place with
    | none => exact hall (.denied haccess) hwf (by rw [exec, heq]; rfl)
    | some ppn =>
      obtain ⟨id, page, hpage, -, rfl, hwrite⟩ := haccess.page ppn rfl
      obtain ⟨⟨hpos, hlt⟩, -⟩ := hwf.ppn_of_writable hpage (hwrite rfl)
      refine hall (.store haccess hwf) (hwf.poke (fun hm' => ?_) _ byte) (by rw [exec, heq]; rfl)
      rw [Nat.mod_eq_of_lt (by omega)]
      omega
  | setAccessible accessible =>
    refine hall (.setAccessible accessible) ?_ rfl
    exact ⟨⟨{ h.mappings with }, { h.frames with loaded := hcall }, { h.spaces with }, h.queued⟩,
      { h.ptes with }⟩

/-- The effect of a call that has a value. -/
theorem Effect.of_exec (h : WellFormed m n s) (hm : 2 ≤ m) {call : Call} (hcall : call.Promised s)
    {strict keep : Prop} (hstrict : strict → call.Refused s)
    (hkeep : keep → call.Keeps strict keep m n s) {result : Result}
    (hexec : exec call s = some (result, s')) :
    WellFormed m n s' ∧ Effect strict keep m n s call result s' := by
  have hfault (addr : ℕ) (writeFlag : Bool) (hc : call = .fault addr writeFlag) :
      s.FaultOk (pageStart addr) writeFlag := by
    subst hc
    refine faultOk_of_vmFault h (Option.isSome_iff_ne_none.mpr fun hnone => ?_)
    rw [exec, hnone] at hexec
    simp at hexec
  obtain ⟨result', t, heffect, hwf, hqueued, -⟩ := exec_spec h hm hcall hfault hstrict hkeep
  obtain ⟨hwf', heq⟩ := hwf (hqueued (by rw [hexec]; simp))
  rw [hexec, Option.some.injEq, Prod.mk.injEq] at heq
  obtain ⟨rfl, rfl⟩ := heq
  exact ⟨hwf', heffect⟩

end OsFromScratch.Pager
