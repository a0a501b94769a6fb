import OsFromScratch.Pager.Fault

/-!
# File names in the arena

`translate_from_other_addr_space` reads a string from the pages of the current process. Each page is
made readable before it is read, which may evict the pages before it.

## Main definitions

* `readString` — the string at an address, given the bytes that the process can read.
* `State.Shows` — a state shows these bytes.

## Main results

* `locate_spec` — a page is made readable.
* `translateFromOtherAddrSpace_spec` — the string is read.
-/

namespace OsFromScratch.Pager

open Function

variable {m n : ℕ} {s : State}

/-! ### Addresses -/

/-- Mapped addresses are below the end of the arena. -/
theorem Spaces.lt_maxaddr (h : Spaces s) {pid : Pid} {va : ℕ} {id : PageId}
    (hva : s.mapped pid (pageStart va) = some id) : va < vmArenaMaxaddr := by
  obtain ⟨i, hstart, hentry, -⟩ := h.mem_entry hva
  obtain ⟨count, hcount, -, hvalid⟩ := h.next pid (h.mem_processTable hva)
  have hi := (hvalid i).mp (by rw [hentry]; rfl)
  simp only [pageStart, pageAddr, vmArenaMaxaddr, vmArenaBaseaddr, vmArenaSize,
    vmPagesize] at hstart ⊢
  omega

/-! ### Strings -/

/-- The string at an address up to its NUL character, given the bytes that can be read. The first
argument bounds its length. -/
def readString (bytes : ℕ → Option UInt8) : ℕ → ℕ → Bytes → Option Bytes
  | 0, _, _ => none
  | n + 1, va, running =>
    match bytes va with
    | none => none
    | some c => if c = 0 then some running else readString bytes n (va + 1) (running ++ [c])

/-- The current process can read these bytes at present: those of the pages that are in memory are
there, and the others can be had. -/
def State.Shows (s : State) (bytes : ℕ → Option UInt8) : Prop :=
  (∀ va id page, s.mapped s.currentPid (pageStart va) = some id →
    (s.pages id).physicalPage = some page → bytes va = some (s.byte page.ppn (va % vmPagesize))) ∧
  ∀ va, (∃ id, s.mapped s.currentPid (pageStart va) = some id ∧ s.Readable id) ↔ (bytes va).isSome

/-- An address is in the physical page `ppn`. -/
def State.At (s : State) (va ppn : ℕ) : Prop :=
  ∃ id page, s.mapped s.currentPid (pageStart va) = some id ∧
    (s.pages id).physicalPage = some page ∧ page.ppn = ppn

theorem Moves.running {strict keep : Prop} {s' : State} (h : Moves strict keep s s')
    (hrun : s.Running) :
    s'.Running := by
  have hreloc := h.relocation
  rw [State.Running, hreloc.currentPid, hreloc.processTable, hreloc.register]
  exact hrun

theorem State.Running.touchVA (hrun : s.Running) : (s.touchVA s.currentPid).Running := by
  obtain ⟨maps, heq⟩ := s.touchVA_eq s.currentPid
  rw [heq]
  exact hrun

theorem State.currentPid_touchVA (s : State) (pid : Pid) : (s.touchVA pid).currentPid =
    s.currentPid := by
  obtain ⟨maps, heq⟩ := s.touchVA_eq pid
  rw [heq]

/-- The page of an address is made readable and found in memory, unless it is not mapped or its file
cannot be read. -/
theorem locate_spec (h : WellFormed m n s) (hm : 2 ≤ m) (hrun : s.Running) (va : ℕ) (strict : Prop)
    {keep : Prop} (hkeep : keep → ∀ id, s.mapped s.currentPid (pageStart va) =
      some id → s.Kept id) :
    ∃ place s', locate va s = some (place, s') ∧ WellFormed m n s' ∧
      Moves strict keep (s.touchVA s.currentPid) s' ∧
      (place.isSome ↔ ∃ id, s.mapped s.currentPid (pageStart va) = some id ∧ s.Readable id) ∧
      ∀ ppn offset, place = some (ppn, offset) → offset = va % vmPagesize ∧ s'.At va ppn := by
  have hwf := h.touchVA hrun.1
  cases hva : s.mapped s.currentPid (pageStart va) with
  | none =>
    refine ⟨none, s.touchVA s.currentPid, ?_, hwf, Relation.ReflTransGen.refl, by simp, by simp⟩
    have hva' : (s.touchVA s.currentPid).mapped (s.touchVA s.currentPid).currentPid (pageStart va) =
        none := by
      rw [State.mapped_touchVA, State.currentPid_touchVA]
      exact hva
    rw [locate, show va - va % vmPagesize = pageStart va from rfl]
    simp only [hva']
  | some id =>
    have hpost : (∃ id', some id = some id' ∧ s.Readable id') ↔ s.Readable id := by simp
    rw [hpost]
    obtain ⟨ok, s', heq, hwf', hmoves, hiff, hbits⟩ := readable_spec h hm strict hva fun hk =>
      hkeep hk id hva
    have hreloc := hmoves.relocation
    have htouch := State.touchVA_of_mapped hva
    have hva' : s'.mapped s'.currentPid (pageStart va) = some id := by
      rw [hreloc.mapped, hreloc.currentPid]
      exact hva
    have hunfold : locate va s = Option.bind
        (if (s.pages id).bits.1 = true then some (true, s) else vmFaultRead va s) fun r =>
        if r.1 = true then do
          let id ← r.2.mapped r.2.currentPid (pageStart va)
          let page ← (r.2.pages id).physicalPage
          some (some (page.ppn, va % vmPagesize), r.2)
        else some (none, r.2) := by
      rw [locate, show va - va % vmPagesize = pageStart va from rfl, htouch]
      simp only [hva, State.frontReadable_eq h (h.toCore.affiliated_ne_nil hva),
        Option.bind_eq_bind, Option.bind_some]
    rw [hunfold, htouch]
    cases ok with
    | false =>
      refine ⟨none, s', bind_of_eq_some heq, hwf', hmoves, ?_, by simp⟩
      simpa using hiff
    | true =>
      have hread := hbits rfl
      obtain ⟨page, hpage⟩ : ∃ page, (s'.pages id).physicalPage = some page := by
        refine Option.ne_none_iff_exists'.mp fun hnone => ?_
        simp [VirtualPage.bits, hnone] at hread
      refine ⟨some (page.ppn, va % vmPagesize), s', ?_, hwf', hmoves, ?_, ?_⟩
      · refine (bind_of_eq_some heq).trans ?_
        refine (bind_of_eq_some hva').trans ?_
        exact bind_of_eq_some hpage
      · simpa using hiff
      · rintro ppn offset hplace
        simp only [Option.some.injEq, Prod.mk.injEq] at hplace
        obtain ⟨rfl, rfl⟩ := hplace
        exact ⟨rfl, id, page, hva', hpage, rfl⟩

/-! ### The loop -/

theorem State.At.touchVA {va ppn : ℕ} (h : s.At va ppn) : s.touchVA s.currentPid = s := by
  obtain ⟨id, page, hva, -, -⟩ := h
  exact State.touchVA_of_mapped hva

theorem State.At.lt_maxaddr {va ppn : ℕ} (h : s.At va ppn) (hspaces : Spaces s) :
    va < vmArenaMaxaddr := by
  obtain ⟨id, page, hva, -, -⟩ := h
  exact hspaces.lt_maxaddr hva

theorem State.At.bytes {va ppn : ℕ} {bytes : ℕ → Option UInt8} (h : s.At va ppn)
    (hshows : s.Shows bytes) : bytes va = some (s.byte ppn (va % vmPagesize)) := by
  obtain ⟨id, page, hva, hpage, rfl⟩ := h
  exact hshows.1 va id page hva hpage

/-- The next address is in the same physical page, if it is in the same page. -/
theorem State.At.succ {start va ppn : ℕ} (h : s.At va ppn) (hstart : start ≤ va)
    (hend : va + 1 < pageStart start + vmPagesize) :
    s.At (va + 1) ppn ∧ va % vmPagesize + 1 = (va + 1) % vmPagesize := by
  obtain ⟨id, page, hva, hpage, hppn⟩ := h
  have hsame : pageStart (va + 1) = pageStart va := by
    simp only [pageStart, vmPagesize] at hend ⊢
    omega
  refine ⟨⟨id, page, hsame ▸ hva, hpage, hppn⟩, ?_⟩
  simp only [pageStart, vmPagesize] at hend ⊢
  omega

theorem readString_of_none {bytes : ℕ → Option UInt8} {fuel va : ℕ} {running : Bytes}
    (h : bytes va = none) : readString bytes fuel va running = none := by
  cases fuel with
  | zero => rfl
  | succ fuel => rw [readString, h]

/-- No page that the string at an address runs into leaves the registry. -/
def State.NameKept (s : State) (bytes : ℕ → Option UInt8) (va : ℕ) : Prop :=
  ∀ k id, (∀ j < k, ∃ c, bytes (va + j) = some c ∧ c ≠ 0) →
    s.mapped s.currentPid (pageStart (va + k)) = some id → s.Kept id

theorem State.NameKept.succ {bytes : ℕ → Option UInt8} {va : ℕ} {c : UInt8}
    (h : s.NameKept bytes va) (hc : bytes va = some c) (hne : c ≠ 0) :
      s.NameKept bytes (va + 1) := by
  intro k id hbytes hid
  refine h (k + 1) id (fun j hj => ?_) (by rwa [← Nat.add_assoc, Nat.add_right_comm])
  cases j with
  | zero => exact ⟨c, hc, hne⟩
  | succ j =>
    rw [← Nat.add_assoc, Nat.add_right_comm]
    exact hbytes j (Nat.lt_of_succ_lt_succ hj)

theorem Relocation.kept {s' : State} (h : Relocation s s') (id : PageId) :
    s'.Kept id ↔ s.Kept id := by
  rw [State.Kept, State.Kept, h.readable, h.affiliated]

theorem Relocation.nameKept {s' : State} (h : Relocation s s') {bytes : ℕ → Option UInt8} {va : ℕ}
    (hs : s.NameKept bytes va) : s'.NameKept bytes va := by
  intro k id hbytes hid
  rw [h.mapped, h.currentPid] at hid
  exact (h.kept id).mpr (hs k id hbytes hid)

/-- The loop of `translate_from_other_addr_space` reads the string at an address, in any page from
the first one on. -/
theorem copyName_spec (hm : 2 ≤ m) (strict keep : Prop) (start fuel : ℕ) :
    ∀ (s : State) (va ppn : ℕ) (running : Bytes), WellFormed m n s → s.Running → s.At va ppn →
      va + fuel = vmArenaMaxaddr → start ≤ va →
      (keep → ∃ bytes, (∀ t, Moves strict keep s t → WellFormed m n t → t.Shows bytes) ∧
        s.NameKept bytes va) →
      ∃ name s', copyName (pageStart start + vmPagesize) fuel va ppn (va % vmPagesize) running s =
          some (name, s') ∧ WellFormed m n s' ∧ Moves strict keep s s' ∧
        ∀ bytes, (∀ t, Moves strict keep s t → WellFormed m n t → t.Shows bytes) →
          name = readString bytes fuel va running := by
  -- the pages that are made readable on the way can only have moved
  induction fuel with
  | zero =>
    intro s va ppn running h hrun hat hfuel hstart hkeep
    have := hat.lt_maxaddr h.spaces
    omega
  | succ fuel ih =>
    intro s va ppn running h hrun hat hfuel hstart hkeep
    rw [copyName]
    by_cases hzero : s.byte ppn (va % vmPagesize) = 0
    · rw [if_pos hzero]
      refine ⟨some running, s, rfl, h, Relation.ReflTransGen.refl, fun bytes hshows => ?_⟩
      have hbyte := hat.bytes (hshows s Relation.ReflTransGen.refl h)
      rw [readString, hbyte]
      simp [hzero]
    · rw [if_neg hzero]
      have hread (bytes : ℕ → Option UInt8)
          (hshows : ∀ t, Moves strict keep s t → WellFormed m n t → t.Shows bytes) :
          readString bytes (fuel + 1) va running =
            readString bytes fuel (va + 1) (running ++ [s.byte ppn (va % vmPagesize)]) := by
        have hbyte := hat.bytes (hshows s Relation.ReflTransGen.refl h)
        rw [readString, hbyte]
        simp [hzero]
      have hkeep' (hk : keep) : ∃ bytes,
          (∀ t, Moves strict keep s t → WellFormed m n t → t.Shows bytes) ∧
            s.NameKept bytes (va + 1) := by
        obtain ⟨bytes, hshows, hname⟩ := hkeep hk
        exact ⟨bytes, hshows, hname.succ (hat.bytes (hshows s Relation.ReflTransGen.refl h)) hzero⟩
      by_cases hend : pageStart start + vmPagesize ≤ va + 1
      · simp only [if_pos hend]
        obtain ⟨place, s₁, hlocate, hwf₁, hmoves₁, hiff, hplace⟩ :=
          locate_spec h hm hrun (va + 1) strict fun hk id hid => by
            obtain ⟨bytes, -, hname⟩ := hkeep' hk
            exact hname 0 id (by simp) hid
        rw [hat.touchVA] at hmoves₁
        cases place with
        | none =>
          refine ⟨none, s₁, bind_of_eq_some hlocate, hwf₁, hmoves₁, fun bytes hshows => ?_⟩
          have hnone : bytes (va + 1) = none := by
            have h2 := (hshows s Relation.ReflTransGen.refl h).2 (va + 1)
            rw [← hiff] at h2
            simpa using h2
          rw [hread bytes hshows, readString_of_none hnone]
        | some place =>
          obtain ⟨hoffset, hat₁⟩ := hplace place.1 place.2 rfl
          obtain ⟨name, s', hcopy, hwf', hmoves', hname⟩ := ih s₁ (va + 1) place.1
            (running ++ [s.byte ppn (va % vmPagesize)]) hwf₁ (hmoves₁.running hrun) hat₁ (by omega)
            (by omega) fun hk => by
              obtain ⟨bytes, hshows, hname⟩ := hkeep' hk
              exact ⟨bytes, fun t ht hwf => hshows t (hmoves₁.trans ht) hwf,
                hmoves₁.relocation.nameKept hname⟩
          refine ⟨name, s', ?_, hwf', hmoves₁.trans hmoves', fun bytes hshows => ?_⟩
          · refine (bind_of_eq_some hlocate).trans ?_
            rw [← hoffset] at hcopy
            exact hcopy
          · rw [hread bytes hshows]
            exact hname bytes fun t ht hwf => hshows t (hmoves₁.trans ht) hwf
      · simp only [if_neg hend]
        obtain ⟨hat₁, hoffset⟩ := hat.succ hstart (not_le.mp hend)
        obtain ⟨name, s', hcopy, hwf', hmoves', hname⟩ := ih s (va + 1) ppn
          (running ++ [s.byte ppn (va % vmPagesize)]) h hrun hat₁ (by omega) (by omega) hkeep'
        refine ⟨name, s', ?_, hwf', hmoves', fun bytes hshows => ?_⟩
        · rw [← hoffset] at hcopy
          exact hcopy
        · rw [hread bytes hshows]
          exact hname bytes hshows

/-- `translate_from_other_addr_space` reads the string that the process has at an address. -/
theorem translateFromOtherAddrSpace_spec (h : WellFormed m n s) (hm : 2 ≤ m) (hrun : s.Running)
    (start : ℕ) (strict : Prop) {keep : Prop}
    (hkeep : keep → ∃ bytes, (∀ t, Moves strict keep (s.touchVA s.currentPid) t → WellFormed m n t →
      t.Shows bytes) ∧ (s.touchVA s.currentPid).NameKept bytes start) :
    ∃ name s', translateFromOtherAddrSpace start s = some (name, s') ∧ WellFormed m n s' ∧
      Moves strict keep (s.touchVA s.currentPid) s' ∧
      ∀ bytes, (∀ t, Moves strict keep (s.touchVA s.currentPid) t → WellFormed m n t →
        t.Shows bytes) →
        name = readString bytes (vmArenaMaxaddr - start) start [] := by
  have hreadable (id : PageId) : (s.touchVA s.currentPid).Readable id ↔ s.Readable id := by
    obtain ⟨maps, heq⟩ := s.touchVA_eq s.currentPid
    rw [heq]
    exact Iff.rfl
  have hfirst (hk : keep) (id : PageId) (hid : s.mapped s.currentPid (pageStart start) = some id) :
      s.Kept id := by
    obtain ⟨bytes, -, hname⟩ := hkeep hk
    have hkept := hname 0 id (by simp) (by rwa [State.mapped_touchVA, State.currentPid_touchVA])
    obtain ⟨maps, heq⟩ := s.touchVA_eq s.currentPid
    rw [heq] at hkept
    exact hkept
  obtain ⟨place, s₁, hlocate, hwf₁, hmoves₁, hiff, hplace⟩ :=
    locate_spec h hm hrun start strict hfirst
  rw [translateFromOtherAddrSpace]
  cases place with
  | none =>
    refine ⟨none, s₁, bind_of_eq_some hlocate, hwf₁, hmoves₁, fun bytes hshows => ?_⟩
    have hnone : bytes start = none := by
      have h1 := (hshows s₁ hmoves₁ hwf₁).2 start
      have h0 := (hshows _ Relation.ReflTransGen.refl (h.touchVA hrun.1)).2 start
      rw [State.mapped_touchVA, State.currentPid_touchVA] at h0
      simp only [hreadable] at h0
      rw [← hiff] at h0
      simpa using h0
    rw [readString_of_none hnone]
  | some place =>
    obtain ⟨hoffset, hat₁⟩ := hplace place.1 place.2 rfl
    have hlt := hat₁.lt_maxaddr hwf₁.spaces
    obtain ⟨name, s', hcopy, hwf', hmoves', hname⟩ := copyName_spec hm strict keep start
      (vmArenaMaxaddr - start) s₁ start place.1 [] hwf₁ (hmoves₁.running hrun.touchVA)
        hat₁ (by omega)
      le_rfl fun hk => by
        obtain ⟨bytes, hshows, hname⟩ := hkeep hk
        exact ⟨bytes, fun t ht hwf => hshows t (hmoves₁.trans ht) hwf,
          hmoves₁.relocation.nameKept hname⟩
    refine ⟨name, s', ?_, hwf', hmoves₁.trans hmoves', fun bytes hshows => ?_⟩
    · refine (bind_of_eq_some hlocate).trans ?_
      rw [← hoffset] at hcopy
      exact hcopy
    · exact hname bytes fun t ht hwf => hshows t (hmoves₁.trans ht) hwf

end OsFromScratch.Pager
