import OsFromScratch.Pager.Memory

/-!
# Lookups of file names

`translate_from_other_addr_space` returns the string that the current process would read itself, and
what the processes would read stays the same.

## Main definitions

* `CString` — a string with its NUL character.
* `State.reads` — what a process would read at an address.
* `State.LooksUp` — what the lookup of a name does.

## Main results

* `Coherent.reads_eq` — a process reads its memory.
* `translateFromOtherAddrSpace_reads` — the lookup of a name in the states of runs.
-/

namespace OsFromScratch.Pager

open Function

variable {m n : ℕ} {s s' t : State} {bytes : ℕ → Option UInt8} {va fuel : ℕ} {running : Bytes}

/-! ### Strings -/

/-- A string is at an address, followed by a NUL character. -/
def CString (bytes : ℕ → Option UInt8) : ℕ → Bytes → Prop
  | va, [] => bytes va = some 0
  | va, c :: str => bytes va = some c ∧ c ≠ 0 ∧ CString bytes (va + 1) str

theorem not_cstring_of_none (h : bytes va = none) (str : Bytes) : ¬CString bytes va str := by
  cases str with
  | nil => simp [CString, h]
  | cons c str => simp [CString, h]

theorem cstring_of_zero (h : bytes va = some 0) {str : Bytes} :
    CString bytes va str ↔ str = [] := by
  cases str with
  | nil => simp [CString, h]
  | cons c str =>
    refine iff_of_false ?_ (List.cons_ne_nil c str)
    rintro ⟨hc, hne, -⟩
    rw [h, Option.some.injEq] at hc
    exact hne hc.symm

theorem cstring_of_ne {c : UInt8} (h : bytes va = some c) (hc : c ≠ 0) {str : Bytes} :
    CString bytes va str ↔ ∃ rest, str = c :: rest ∧ CString bytes (va + 1) rest := by
  cases str with
  | nil => simp [CString, h, hc]
  | cons d str =>
    simp only [CString, h, Option.some.injEq, List.cons.injEq]
    constructor
    · rintro ⟨rfl, -, hstr⟩
      exact ⟨str, ⟨rfl, rfl⟩, hstr⟩
    · rintro ⟨rest, ⟨rfl, rfl⟩, hrest⟩
      exact ⟨rfl, hc, hrest⟩

/-- The string that is read is the one at the address, if it does not run into the end of the
addresses. -/
theorem readString_eq_some (hend : ∀ a, va + fuel ≤ a → bytes a = none) {name : Bytes} :
    readString bytes fuel va running = some name ↔
      ∃ str, name = running ++ str ∧ CString bytes va str := by
  induction fuel generalizing va running with
  | zero => simp [readString, not_cstring_of_none (hend va le_rfl)]
  | succ fuel ih =>
    rw [readString]
    cases hbyte : bytes va with
    | none => simp [not_cstring_of_none hbyte]
    | some c =>
      by_cases hc : c = 0
      · simp [cstring_of_zero (hbyte.trans (congrArg some hc)), hc, eq_comm]
      · simp only [if_neg hc]
        rw [ih fun a ha => hend a (by omega)]
        simp only [cstring_of_ne hbyte hc]
        constructor
        · rintro ⟨str, rfl, hstr⟩
          exact ⟨c :: str, by simp, str, rfl, hstr⟩
        · rintro ⟨str, rfl, rest, rfl, hrest⟩
          exact ⟨rest, by simp, hrest⟩

/-- No string is read if an address before the NUL character cannot be read. -/
theorem readString_eq_none (hend : ∀ a, va + fuel ≤ a → bytes a = none) :
    readString bytes fuel va running = none ↔
      ∃ k, bytes (va + k) = none ∧ ∀ j < k, ∃ c, bytes (va + j) = some c ∧ c ≠ 0 := by
  induction fuel generalizing va running with
  | zero => exact iff_of_true rfl ⟨0, hend va le_rfl, by simp⟩
  | succ fuel ih =>
    rw [readString]
    cases hbyte : bytes va with
    | none => exact iff_of_true rfl ⟨0, hbyte, by simp⟩
    | some c =>
      by_cases hc : c = 0
      · simp only [if_pos hc]
        refine iff_of_false (by simp) ?_
        rintro ⟨k, hk, hbefore⟩
        cases k with
        | zero => simp [hbyte] at hk
        | succ k =>
          obtain ⟨d, hd, hne⟩ := hbefore 0 (Nat.succ_pos k)
          rw [Nat.add_zero, hbyte, Option.some.injEq] at hd
          exact hne (hd ▸ hc)
      · simp only [if_neg hc]
        rw [ih fun a ha => hend a (by omega)]
        constructor
        · rintro ⟨k, hk, hbefore⟩
          refine ⟨k + 1, by rwa [← Nat.add_assoc, Nat.add_right_comm], fun j hj => ?_⟩
          cases j with
          | zero => exact ⟨c, hbyte, hc⟩
          | succ j =>
            rw [← Nat.add_assoc, Nat.add_right_comm]
            exact hbefore j (Nat.lt_of_succ_lt_succ hj)
        · rintro ⟨k, hk, hbefore⟩
          cases k with
          | zero => simp [hbyte] at hk
          | succ k =>
            refine ⟨k, by rwa [← Nat.add_assoc, Nat.add_right_comm] at hk, fun j hj => ?_⟩
            have hlater := hbefore (j + 1) (Nat.succ_lt_succ hj)
            rwa [← Nat.add_assoc, Nat.add_right_comm] at hlater

/-! ### What processes read -/

/-- What a process would read at an address, if it were the current one. -/
def State.reads (s : State) (pid : Pid) (addr : ℕ) : Option UInt8 :=
  if InArena addr then
    ((vmSwitch pid s).bind (access addr false)).bind fun r =>
      r.1.map fun ppn => r.2.byte ppn (addr % vmPagesize)
  else
    none

theorem State.byte_of_not_mapped {pid : Pid} {addr : ℕ}
    (h : s.mapped pid (pageStart addr) = none) : s.memory.byte pid addr = none := by
  simp [Memory.byte, State.memory, h]

/-- A process reads its memory. -/
theorem Coherent.reads_eq (h : Coherent m n s) (hs : WellFormed m n s) (hm : 2 ≤ m)
    (hm' : m ≤ 2 ^ 20) (pid : Pid) (addr : ℕ) : s.reads pid addr = s.memory.byte pid addr := by
  rw [State.reads]
  split_ifs with haddr
  · by_cases hpid : pid ∈ s.processTable
    · obtain ⟨hswitch, hwf⟩ := vmSwitch_spec hs hpid
      have hcoherent : Coherent m n { s with
          currentPid := pid, pageTableBaseRegister := some pid } :=
        hwf.coherent h.registered h.clean
      obtain ⟨t, hload, -⟩ := exec_load hwf hm hm' hcoherent ⟨hpid, rfl⟩ haddr
      rw [hswitch, Option.bind_some]
      rw [exec, Option.map_eq_some_iff] at hload
      obtain ⟨⟨place, u⟩, haccess, hresult⟩ := hload
      rw [Prod.mk.injEq, Result.byte.injEq] at hresult
      rw [haccess, Option.bind_some]
      exact hresult.1
    · have hswitch : vmSwitch pid s = none := if_neg hpid
      rw [hswitch, State.byte_of_not_mapped (hs.spaces.not_mapped hpid _)]
      rfl
  · refine (State.byte_of_not_mapped (Option.eq_none_iff_forall_ne_some.mpr fun id hva => ?_)).symm
    exact haddr (hs.spaces.inArena hva)

/-- The bytes that the current process sees are those that lookups find, whatever is moved. -/
theorem Coherent.shows (h : Coherent m n s) (hm : m ≤ 2 ^ 20) {keep : Prop}
    (hmoves : Moves True keep s t) : t.Shows (s.memory.byte s.currentPid) := by
  have ht := (hmoves.coherent hm h).1
  have hcurrent : t.currentPid = s.currentPid := hmoves.relocation.currentPid
  rw [← hmoves.memory hm h, ← hcurrent]
  refine ⟨fun va id page hva hpage => ?_, fun va => (t.byte_isSome t.currentPid va).symm⟩
  have hblocks := ht.blocks_ne_nil (ht.affiliated_ne_nil hva)
  rw [ht.byte_eq hva (ht.readable_of_some hblocks hpage), State.contents_of_some hblocks hpage]
  rfl

/-! ### Lookups -/

/-- `translate_from_other_addr_space` returns the string that the current process would read at an
address, or nothing if a byte of it is not mapped or cannot be read; it does not change what the
processes would read. -/
def State.LooksUp (s : State) (start : ℕ) : Prop :=
  ∃ name s', translateFromOtherAddrSpace start s = some (name, s') ∧
    (∀ str, name = some str ↔ CString (s.reads s.currentPid) start str) ∧
    (name = none ↔ ∃ k, (¬∃ id, s.mapped s.currentPid (pageStart (start + k)) = some id ∧
      s.Readable id) ∧ ∀ j < k, ∃ c, s.reads s.currentPid (start + j) = some c ∧ c ≠ 0) ∧
    s'.reads = s.reads

theorem Coherent.lookup (h : Coherent m n s) (hs : WellFormed m n s) (hm : 2 ≤ m)
    (hm' : m ≤ 2 ^ 20) (hrun : s.Running) (start : ℕ) :
    ∃ name s', translateFromOtherAddrSpace start s = some (name, s') ∧ WellFormed m n s' ∧
      Coherent m n s' ∧ s'.memory = s.memory ∧
      name = readString (s.memory.byte s.currentPid) (vmArenaMaxaddr - start) start [] := by
  obtain ⟨name, s', heq, hwf, hmoves, hname⟩ := translateFromOtherAddrSpace_spec hs hm hrun start
    True (fun h : False => h.elim)
  have hstart := h.touchVA hrun hs
  refine ⟨name, s', heq, hwf, (hmoves.coherent hm' hstart).1,
    (hmoves.memory hm' hstart).trans (s.memory_touchVA _), hname _ fun t ht _ => ?_⟩
  have hshows := hstart.shows hm' ht
  rwa [s.memory_touchVA, s.currentPid_touchVA] at hshows

/-- Names are looked up in every state of a run in which no block of a file becomes accessible while
a page for it is in use that is not in the registry. -/
theorem translateFromOtherAddrSpace_reads (hm : 2 ≤ m) (hm' : m ≤ 2 ^ 20) (n : ℕ)
    (physmem swapFile : ℕ → Contents) (files : Bytes → ℕ → Contents)
    (accessible : Bytes → ℕ → Bool) (garbage : ℕ → Contents) {calls : List Call}
    {results : List Result}
    (hrun : PagerRun Coherently (vmInit m n physmem swapFile files accessible garbage)
      calls results s) (hrunning : s.Running) (start : ℕ) :
    s.LooksUp start := by
  obtain ⟨hs, hcoherent⟩ := hrun.coherent hm hm'
    (vmInit_wellFormed hm n physmem swapFile files accessible garbage)
    (vmInit_coherent hm n physmem swapFile files accessible garbage)
  obtain ⟨name, s', heq, hwf, hcoherent', hmemory, rfl⟩ :=
    hcoherent.lookup hs hm hm' hrunning start
  have hreads : s.reads = s.memory.byte :=
    funext fun pid => funext fun addr => hcoherent.reads_eq hs hm hm' pid addr
  have hreads' : s'.reads = s'.memory.byte :=
    funext fun pid => funext fun addr => hcoherent'.reads_eq hwf hm hm' pid addr
  have hend (a : ℕ) (ha : start + (vmArenaMaxaddr - start) ≤ a) :
      s.memory.byte s.currentPid a = none := by
    refine State.byte_of_not_mapped (Option.eq_none_iff_forall_ne_some.mpr fun id hva => ?_)
    have := hs.spaces.lt_maxaddr hva
    omega
  rw [State.LooksUp, hreads]
  refine ⟨_, s', heq, fun str => ?_, ?_, hreads'.trans (congrArg Memory.byte hmemory)⟩
  · rw [readString_eq_some hend]
    simp
  · rw [readString_eq_none hend]
    simp only [← State.byte_isSome, Option.not_isSome_iff_eq_none]

/-- The name `a` is looked up in a page that has been written. -/
theorem translateFromOtherAddrSpace_reads_a : ∃ results s, PagerRun Coherently
    (blankMachine 2 1 fun _ _ => false) [.create 0 1 [], .map 0 0,
      .store 0x600000000 97] results s ∧
    s.LooksUp 0x600000000 := by
  obtain ⟨⟨results, s⟩, hrun, hrunning⟩ : ∃ r,
      runAll exec mmuFaults [.create 0 1 [], .map 0 0, .store 0x600000000 97]
        (blankMachine 2 1 fun _ _ => false) = some r ∧ r.2.Running :=
    ⟨_, rfl, by decide +kernel⟩
  have hpager := (mmuRun_of_runAll hrun).coherently
  exact ⟨results, s, hpager,
    translateFromOtherAddrSpace_reads (by decide) (by decide) 1 _ _ _ _ _ hpager hrunning _⟩

/-- There are two pages for the same block: one that lost its place in the registry in a failed
read, and one that has been written. The lookup of a name evicts a third page; then a load from the
first page evicts the second one, which is written back, and reads what has been written. -/
theorem not_translateFromOtherAddrSpace_reads : ¬ ∀ (calls : List Call) (results : List Result)
    (s : State), PagerRun Proper (blankMachine 3 1 fun _ _ => false) calls results s → s.Running →
    ∀ start, s.LooksUp start := by
  have hcomputed : ((runAll exec mmuFaults
      [.create 0 1 [], .map 0 0, .map 0x600000000 0, .load 0x600010000]
      (blankMachine 3 1 fun _ _ => false)).any fun r =>
      (runAll exec mmuFaults [.map 0x600000000 0, .map 0x600000000 1, .map 0x600000000 2,
        .load 0x600030000, .store 0x600020000 5] { r.2 with accessible := fun _ _ => true }).any
      fun r' => r'.2.Running ∧ (translateFromOtherAddrSpace 0x600040000 r'.2).any fun q =>
        q.2.reads 1 0x600010000 ≠ r'.2.reads 1 0x600010000) = true := by decide +kernel
  obtain ⟨r, hrun, hcomputed⟩ := (Option.any_eq_true ..).mp hcomputed
  obtain ⟨r', hrun', hcomputed⟩ := (Option.any_eq_true ..).mp hcomputed
  obtain ⟨hrunning, hlookup⟩ := of_decide_eq_true hcomputed
  intro hclaim
  obtain ⟨name, s', heq, -, -, hreads⟩ :=
    hclaim _ _ r'.2 (PagerRun.of_opened hrun hrun') hrunning 0x600040000
  rw [heq] at hlookup
  have hne : s'.reads 1 0x600010000 ≠ r'.2.reads 1 0x600010000 := of_decide_eq_true hlookup
  exact hne (by rw [hreads])

end OsFromScratch.Pager
