import OsFromScratch.Lib.Fairness
import OsFromScratch.Threads.GuardSections
import OsFromScratch.Threads.Idle
import OsFromScratch.Threads.ReadyQueue

/-!
# Every thread that is ready is run

The machine runs for ever. A CPU that can execute an instruction again and again does so, where
waiting for the guard is no instruction, and a CPU that accepts timer interrupts again and again
receives them. Then every thread that is ready is run by a CPU, even if no thread ever yields.

As long as no CPU begins to run a thread, the CPUs that run one keep it. Such a CPU enables
interrupts again and again, since the guarded sections end and the guard is free again and again.
The handler of the next timer interrupt finds the thread that is ready.

## Main definitions

* `CanRun` — a CPU can execute an instruction.
* `FairRun` — the infinite runs of the machine.
* `eventsAt`, `dispatchedAt` — what happens at a moment, and the threads that the CPUs begin to run.

## Main results

* `FairRun.guard_free` — the guard is free again and again.
* `FairRun.accepts` — a CPU that runs a thread accepts interrupts again and again.
* `FairRun.exists_dispatched` — when a thread is ready, a CPU begins to run a thread.
* `fairRun_ready` — every thread that is ready is run.
-/

namespace OsFromScratch.Threads

open Filter Function

variable {s s' : State} {c : CpuId} {t x : ContextId} {i : Instr} {rest : List Instr}
  {evs : List Event} {a : Action} {actions : List Action} {events : List (List Event)}
  {σ : ℕ → State} {acts : ℕ → Option Action} {k K : ℕ}

/-- A CPU can execute an instruction, other than one that waits for the guard. -/
def CanRun (s : State) (c : CpuId) : Prop :=
  c ∈ s.cpuVec ∧ s.suspended c = false ∧ s.current c ≠ [.user] ∧
    ((s.current c).head? = some .guardLock → s.guard = none)

/-- An infinite run of the machine. No CPU is constructed without a function while there are threads
that are ready. -/
structure FairRun (σ : ℕ → State) (acts : ℕ → Option Action) : Prop where
  start : ∃ actions events, ThreadRunWith BootsEmpty actions events (σ 0)
  forever : Forever step (fun s a => Allowed s a ∧ BootsEmpty [] s a) σ acts
  /-- A CPU that can execute an instruction again and again does so. -/
  runs : ∀ c, StronglyFair (fun k => CanRun (σ k) c)
    fun k => CanRun (σ k) c ∧ ∃ alloc, acts k = some (.run c alloc)
  /-- A CPU that accepts timer interrupts again and again receives them. -/
  timers : ∀ c, StronglyFair (fun k => Allowed (σ k) (.timer c)) fun k => acts k = some (.timer c)

/-- What happens at a moment. -/
def eventsAt (σ : ℕ → State) (acts : ℕ → Option Action) (k : ℕ) : List Event :=
  ((acts k).bind fun a => step a (σ k)).elim [] Prod.fst

/-- The threads that the CPUs begin to run at a moment. -/
def dispatchedAt (σ : ℕ → State) (acts : ℕ → Option Action) (k : ℕ) : List ContextId :=
  (acts k).elim [] fun a => dispatched a (σ k) (σ (k + 1))

/-! ### CPUs that run a thread -/

theorem dispatchedAt_of_act (h : acts k = some a) :
    dispatchedAt σ acts k = dispatched a (σ k) (σ (k + 1)) := by
  rw [dispatchedAt, h, Option.elim_some]

/-- A CPU begins to run a thread. -/
theorem last_of_mem_dispatched (hx : x ∈ dispatched a s s') :
    ∃ c, a.cpu = some c ∧ s'.lastContext c = some x := by
  cases ha : a.cpu with
  | none =>
    rw [dispatched, ha] at hx
    cases hx
  | some c =>
    have hone : dispatched a s s' =
        if s'.lastContext c = s.lastContext c then [] else (s'.lastContext c).toList := by
      rw [dispatched, ha]
    rw [hone] at hx
    split_ifs at hx
    · cases hx
    · exact ⟨c, rfl, Option.mem_toList.mp hx⟩

theorem Effect.suspended_last (h : Effect s c rest i evs s') {c' : CpuId}
    (hc' : s'.suspended c' = true) :
    s.suspended c' = true ∨ c' = c ∧ s'.lastContext c' = none := by
  cases h with
  | suspend hlast =>
    by_cases heq : c' = c
    · exact Or.inr ⟨heq, heq ▸ hlast⟩
    · exact Or.inl ((update_of_ne heq _ _).symm.trans hc')
  | _ => exact Or.inl hc'

/-- A CPU that is suspended runs no thread. -/
theorem StepEffect.suspended_last (h : StepEffect s a evs s') (hsound : Sound s)
    (hlast : ∀ c, s.suspended c = true → s.lastContext c = none) (hc : s'.suspended c = true) :
    s'.lastContext c = none := by
  by_cases hmem : c ∈ s'.cpuVec
  · by_cases ha : a.cpu = some c
    · cases h with
      | bootSpin => exact hlast c hc
      | bootThread =>
        obtain rfl := Option.some.inj ha
        simp [State.resume, State.construct, State.boot, State.wake, State.wakeCpus] at hc
      | bootIdle =>
        obtain rfl := Option.some.inj ha
        simp [setcontext, State.boot] at hc
      | run _ hsuspended _ heffect =>
        obtain rfl := Option.some.inj ha
        rcases heffect.suspended_last hc with hold | ⟨-, hnone⟩
        · rw [hold] at hsuspended
          cases hsuspended
        · exact hnone
      | ipi =>
        obtain rfl := Option.some.inj ha
        simp at hc
      | _ => exact hlast c hc
    · have hbeside := h.beside hsound (h.mem_cpuVec hmem ha) ha
      rw [hbeside.last]
      exact hlast c (hbeside.suspended ▸ hc)
  · exact (hsound.step h).off c hmem

theorem ThreadRun.suspended_last (hrun : ThreadRun actions events s) :
    ∀ c, s.suspended c = true → s.lastContext c = none :=
  (hrun.invariant (I := fun _ s => ∀ c, s.suspended c = true → s.lastContext c = none)
    (fun _ h => by cases h) fun hsound h heffect _ hc => heffect.suspended_last hsound h hc).2

/-- A CPU that goes on with the next context runs a thread if others are left. -/
theorem last_resume_ne_none (h : (s.resume c).queue .ready ≠ []) :
    (s.resume c).lastContext c ≠ none := by
  refine fun hnone => h ?_
  have hhead : (s.queue .ready).head? = none := by simpa [State.resume] using hnone
  simp [State.resume, List.head?_eq_none_iff.mp hhead]

theorem Effect.busy (h : Effect s c rest i evs s')
    (hbusy : s.queue .ready ≠ [] → ∃ c, s.lastContext c ≠ none) (hready : s'.queue .ready ≠ []) :
    ∃ c, s'.lastContext c ≠ none := by
  have hruns {t : ContextId} (hlast : s.lastContext c = some t) : ∃ c, s.lastContext c ≠ none :=
    ⟨c, by rw [hlast]; exact Option.some_ne_none t⟩
  cases h with
  | blocks => exact ⟨_, last_resume_ne_none hready⟩
  | exit => exact ⟨_, last_resume_ne_none hready⟩
  | take => exact ⟨_, last_resume_ne_none hready⟩
  | handOff hlast => exact hruns hlast
  | wakes hlast => exact hruns hlast
  | construct hlast => exact hruns hlast
  | _ => exact hbusy hready

/-- When a thread is ready, a CPU runs a thread. -/
theorem ThreadRun.busy (hrun : ThreadRun actions events s) (hready : s.queue .ready ≠ []) :
    ∃ c t, s.lastContext c = some t := by
  have hbusy : s.queue .ready ≠ [] → ∃ c, s.lastContext c ≠ none := by
    refine (hrun.invariant (I := fun _ s => s.queue .ready ≠ [] → ∃ c, s.lastContext c ≠ none)
      (fun h => absurd rfl h) fun _ hbusy heffect hready => ?_).2
    cases heffect with
    | bootThread => exact ⟨_, last_resume_ne_none hready⟩
    | run _ _ _ heffect => exact heffect.busy hbusy hready
    | _ => exact hbusy hready
  obtain ⟨c, hc⟩ := hbusy hready
  obtain ⟨t, ht⟩ := Option.ne_none_iff_exists'.mp hc
  exact ⟨c, t, ht⟩

/-- A CPU stops running a thread without beginning to run another one if none is ready. -/
theorem Effect.last_cases (h : Effect s c rest i evs s') (hready : s'.queue .ready ≠ []) :
    s'.lastContext c = s.lastContext c ∨ s'.lastContext c ≠ none := by
  cases h with
  | blocks => exact Or.inr (last_resume_ne_none hready)
  | exit => exact Or.inr (last_resume_ne_none hready)
  | take => exact Or.inr (last_resume_ne_none hready)
  | _ => exact Or.inl rfl

/-- As long as threads are ready and no CPU begins to run one, the CPUs that run a thread keep
it. -/
theorem StepEffect.last_eq (h : StepEffect s a evs s') (hsound : Sound s)
    (hready : s.queue .ready ≠ []) (hnone : dispatched a s s' = []) {c : CpuId} {t : ContextId}
    (hlast : s.lastContext c = some t) : s'.lastContext c = some t := by
  by_cases ha : a.cpu = some c
  · obtain ⟨new, hnew⟩ := h.ready hsound
    have hready' : s'.queue .ready ≠ [] := by
      rw [hnone, List.nil_append] at hnew
      rw [← hnew]
      exact List.append_ne_nil_of_left_ne_nil hready new
    by_contra hne
    have hgone : s'.lastContext c = none := by
      rw [dispatched, ha] at hnone
      simp only at hnone
      rwa [if_neg fun heq => hne (heq.trans hlast), Option.toList_eq_nil_iff] at hnone
    have hchanged : s'.lastContext c ≠ s.lastContext c := by simp [hgone, hlast]
    cases h with
    | bootThread =>
      obtain rfl := Option.some.inj ha
      exact last_resume_ne_none hready' hgone
    | run _ _ _ heffect =>
      obtain rfl := Option.some.inj ha
      exact (heffect.last_cases hready').elim hchanged fun hsome => hsome hgone
    | _ => exact hchanged rfl
  · rw [(h.beside hsound (hsound.mem_of_last hlast) ha).last, hlast]

/-! ### The guard -/

namespace FairRun

theorem reached (h : FairRun σ acts) (k : ℕ) :
    ∃ actions events, ThreadRunWith BootsEmpty actions events (σ k) := by
  refine h.forever.invariant (fun s => ∃ actions events, ThreadRunWith BootsEmpty actions events s)
    h.start ?_ k
  rintro s t a evs ⟨actions, events, hrun⟩ ⟨hallowed, hboots⟩ hstep
  exact ⟨_, _, hrun.snoc hallowed hboots hstep⟩

theorem threadRun (h : FairRun σ acts) (k : ℕ) :
    ∃ actions events, ThreadRun actions events (σ k) := by
  obtain ⟨actions, events, hrun⟩ := h.reached k
  exact ⟨actions, events, hrun.threadRun⟩

theorem sound (h : FairRun σ acts) (k : ℕ) : Sound (σ k) := by
  obtain ⟨actions, events, hrun⟩ := h.threadRun k
  exact threadRun_sound hrun

theorem shortSections (h : FairRun σ acts) (k : ℕ) : ShortSections (σ k) := by
  obtain ⟨actions, events, hrun⟩ := h.threadRun k
  exact hrun.shortSections

/-- Nothing is done at a moment, or a step is taken. -/
theorem cases_step (h : FairRun σ acts) (k : ℕ) : acts k = none ∧ σ (k + 1) = σ k ∨
    ∃ a, acts k = some a ∧ Allowed (σ k) a ∧
      StepEffect (σ k) a (eventsAt σ acts k) (σ (k + 1)) := by
  cases hact : acts k with
  | none => exact Or.inl ⟨rfl, h.forever.stays k hact⟩
  | some a =>
    obtain ⟨⟨hallowed, -⟩, evs, hstep⟩ := h.forever.moves k a hact
    have hevs : eventsAt σ acts k = evs := by
      rw [eventsAt, hact, Option.bind_some, hstep, Option.elim_some]
    exact Or.inr ⟨a, rfl, hallowed, hevs ▸ (h.sound k).effect_of_step hallowed hstep⟩

/-- The CPU that holds the guard can execute an instruction. -/
theorem canRun_of_guard (h : FairRun σ acts) (hguard : (σ k).guard = some c) :
    CanRun (σ k) c := by
  obtain ⟨hc, hsuspended, huser⟩ := (h.shortSections k).allowed (h.sound k) hguard .ok
  refine ⟨hc, hsuspended, huser, fun hhead => ?_⟩
  obtain ⟨rest, hcode⟩ := List.head?_eq_some_iff.mp hhead
  exact absurd hguard ((h.sound k).inMode hc hcode).2

/-- As long as a CPU holds the guard, each of its instructions counts. -/
theorem left_step (h : FairRun σ acts) (hguard : (σ k).guard = some c)
    (hheld : (σ (k + 1)).guard ≠ none) :
    (σ (k + 1)).guard = some c ∧ (σ (k + 1)).left c ≤ (σ k).left c ∧
      ((∃ alloc, acts k = some (.run c alloc)) → (σ (k + 1)).left c < (σ k).left c) := by
  rcases h.cases_step k with ⟨hnone, heq⟩ | ⟨a, hact, -, heffect⟩
  · rw [heq, hnone]
    exact ⟨hguard, le_rfl, by simp⟩
  · rw [hact]
    by_cases ha : ∃ alloc, a = .run c alloc
    · obtain ⟨alloc, rfl⟩ := ha
      cases heffect with
      | run _ _ hcode heffect =>
        obtain ⟨hnext, hlt⟩ :=
          ((h.shortSections k).run (h.sound k) hguard hcode heffect).resolve_left hheld
        exact ⟨hnext, hlt.le, fun _ => hlt⟩
    · have hsame := (h.sound k).undisturbed hguard heffect fun alloc heq => ha ⟨alloc, heq⟩
      refine ⟨hsame.guard.trans hguard, hsame.left.le, ?_⟩
      rintro ⟨alloc, heq⟩
      exact absurd ⟨alloc, Option.some.inj heq⟩ ha

/-- The guard is free again and again. -/
theorem guard_free (h : FairRun σ acts) : ∃ᶠ k in atTop, (σ k).guard = none := by
  by_contra hnot
  obtain ⟨K, hK⟩ := eventually_atTop.mp (not_frequently.mp hnot)
  obtain ⟨c, hc⟩ := Option.ne_none_iff_exists'.mp (hK K le_rfl)
  have hheld : ∀ k ≥ K, (σ k).guard = some c := fun k hk => by
    induction k, hk using Nat.le_induction with
    | base => exact hc
    | succ k hk ih => exact (h.left_step ih (hK (k + 1) (Nat.le_succ_of_le hk))).1
  have hstep (k : ℕ) (hk : k ≥ K) := h.left_step (hheld k hk) (hK (k + 1) (Nat.le_succ_of_le hk))
  have hlast := (h.runs c).eventually_not (fun k => (σ k).left c) (fun k hk => (hstep k hk).2.1)
    fun k hk hrun => (hstep k hk).2.2 hrun.2
  obtain ⟨K', hK'⟩ := eventually_atTop.mp hlast
  exact hK' (max K K') (le_max_right K K') (h.canRun_of_guard (hheld _ (le_max_left K K')))

end FairRun

/-! ### Interrupts -/

/-- A bound on the instructions that are left before a CPU enables interrupts. -/
def State.phase (s : State) (c : CpuId) : ℕ :=
  match modeOf (s.current c) with
  | .guarded => s.left c + 1
  | .disabled => if (s.current c).head? = some .guardLock then 6 else 1
  | .enabled => 0

theorem Sound.modeOf_of_guard (h : Sound s) (hguard : s.guard = some c) :
    modeOf (s.current c) = .guarded := by
  have hmode := (h.onCpu c (h.guard_mem c hguard)).mode
  cases hm : modeOf (s.current c) with
  | guarded => rfl
  | enabled => exact absurd hguard (hm ▸ hmode).2
  | disabled => exact absurd hguard (hm ▸ hmode).2

theorem phase_of_guard (h : Sound s) (hguard : s.guard = some c) : s.phase c = s.left c + 1 := by
  rw [State.phase, h.modeOf_of_guard hguard]

/-- The instruction gives up the guard. -/
theorem Effect.unlocks (h : Effect s c rest i evs s') (hguard : s.guard = some c)
    (hnone : s'.guard = none) : i = .guardUnlock ∧ s'.current c = rest := by
  have hheld (heq : s'.guard = s.guard) : i = .guardUnlock ∧ s'.current c = rest := by
    rw [hnone, hguard] at heq
    cases heq
  cases h with
  | guardUnlock => exact ⟨rfl, update_self ..⟩
  | guardLock => cases hnone
  | _ => exact hheld rfl

/-- An instruction of a CPU that does not accept interrupts. -/
theorem ShortSections.phase_run (h : ShortSections s) (hsound : Sound s) (hsound' : Sound s')
    (hc : c ∈ s.cpuVec) (hcode : s.current c = i :: rest) (heffect : Effect s c rest i evs s')
    (hoff : s.interrupts c = false) (hoff' : s'.interrupts c = false) :
    s'.phase c ≤ s.phase c ∧ (CanRun s c → s'.phase c < s.phase c) := by
  have hmode := hsound.inMode hc hcode
  have hguarded (hguard : s.guard = some c) : s'.phase c < s.phase c := by
    rw [phase_of_guard hsound hguard]
    rcases h.run hsound hguard hcode heffect with hnone | ⟨hheld, hlt⟩
    · obtain ⟨rfl, hrest⟩ := heffect.unlocks hguard hnone
      have hchain : (s.current c).IsChain Instr.Next := h.chain _
      have hwf := hsound.wellFormed_current hc
      rw [hcode] at hchain hwf
      have hpos := left_pos s c
      cases rest with
      | nil => cases hwf
      | cons j l =>
        rcases (List.isChain_cons_cons.mp hchain).1 with rfl | rfl
        · simp [State.phase, hrest, modeOf, Instr.before, hpos]
        · simp [State.phase, hrest, modeOf, Instr.before, hpos]
    · rw [phase_of_guard hsound' hheld]
      exact Nat.succ_lt_succ hlt
  cases hm : i.before with
  | enabled =>
    rw [hm] at hmode
    rw [hmode.1] at hoff
    cases hoff
  | guarded =>
    rw [hm] at hmode
    exact ⟨(hguarded hmode.2).le, fun _ => hguarded hmode.2⟩
  | disabled =>
    cases heffect with
    | spin hguard =>
      refine ⟨le_rfl, fun hrun => absurd (hrun.2.2.2 ?_) hguard⟩
      rw [hcode, List.head?_cons]
    | guardLock =>
      have hlt : ({ s.setCurrent c rest with guard := some c } : State).phase c < s.phase c := by
        rw [phase_of_guard hsound' rfl, State.phase, hcode]
        exact Nat.lt_succ_of_le (Nat.succ_le_succ (left_le _ c))
      exact ⟨hlt.le, fun _ => hlt⟩
    | interruptEnable => simp at hoff'
    | suspend => simp at hoff'
    | blocks _ hi => rw [hi.guarded.1] at hm; cases hm
    | wakes _ hi => rw [hi.guarded.1] at hm; cases hm
    | skips hi => cases hi <;> cases hm
    | _ => cases hm

/-- A step of another CPU, or none. -/
theorem Sound.phase_beside (h : Sound s) (hsound' : Sound s') (heffect : StepEffect s a evs s')
    (hc : c ∈ s.cpuVec) (ha : a.cpu ≠ some c) : s'.phase c = s.phase c := by
  have hbeside := heffect.beside h hc ha
  by_cases hguard : s.guard = some c
  · have hsame := h.undisturbed hguard heffect fun alloc heq => ha (heq ▸ rfl)
    rw [phase_of_guard h hguard, phase_of_guard hsound' (hsame.guard.trans hguard), hsame.left]
  · have hmode := (h.onCpu c hc).mode
    rw [State.phase, State.phase, hbeside.current]
    cases hm : modeOf (s.current c) with
    | guarded =>
      rw [hm] at hmode
      exact absurd hmode.2 hguard
    | _ => rfl

/-- A step while a CPU does not accept interrupts. -/
theorem StepEffect.phase (h : StepEffect s a evs s') (hsound : Sound s) (hshort : ShortSections s)
    (hallowed : Allowed s a) (hc : c ∈ s.cpuVec) (hoff : s.interrupts c = false)
    (hoff' : s'.interrupts c = false) :
    s'.phase c ≤ s.phase c ∧
      (CanRun s c ∧ (∃ alloc, a = .run c alloc) → s'.phase c < s.phase c) := by
  have hsound' := hsound.step h
  have henabled {code : List Instr} (hcode : s.current c = code) :
      modeOf code ≠ .enabled := fun hm => by
    have hmode := (hsound.onCpu c hc).mode
    rw [hcode, hm] at hmode
    rw [hmode.1] at hoff
    cases hoff
  by_cases ha : a.cpu = some c
  · cases h with
    | bootSpin => exact absurd (Option.some.inj ha ▸ hc) hallowed
    | bootThread hnew => exact absurd (Option.some.inj ha ▸ hc) hnew
    | bootIdle hnew => exact absurd (Option.some.inj ha ▸ hc) hnew
    | run _ _ hcode heffect =>
      obtain rfl := Option.some.inj ha
      obtain ⟨hle, hlt⟩ := hshort.phase_run hsound hsound' hc hcode heffect hoff hoff'
      exact ⟨hle, fun hrun => hlt hrun.1⟩
    | call _ _ hcode =>
      obtain rfl := Option.some.inj ha
      exact absurd rfl (henabled hcode)
    | finish _ _ hcode =>
      obtain rfl := Option.some.inj ha
      exact absurd rfl (henabled hcode)
    | timer _ _ hmode =>
      obtain rfl := Option.some.inj ha
      exact absurd hmode (henabled rfl)
    | ipi => exact ⟨le_rfl, by simp⟩
    | dropThread => cases ha
  · refine ⟨(hsound.phase_beside hsound' h hc ha).le, ?_⟩
    rintro ⟨-, alloc, rfl⟩
    exact absurd rfl ha

namespace FairRun

/-- A CPU that runs a thread is not suspended. -/
theorem awake (h : FairRun σ acts) (hlast : (σ k).lastContext c = some t) :
    c ∈ (σ k).cpuVec ∧ (σ k).suspended c = false := by
  obtain ⟨actions, events, hrun⟩ := h.threadRun k
  refine ⟨(h.sound k).mem_of_last hlast, ?_⟩
  rw [← Bool.not_eq_true]
  intro hsuspended
  have hnone := hrun.suspended_last c hsuspended
  rw [hlast] at hnone
  cases hnone

/-- A CPU does not wait for the guard for ever, so that its instructions lower every rank that they
can lower. -/
theorem rank_lowered (h : FairRun σ acts) (rank : State → ℕ)
    (hcan : ∀ k ≥ K, c ∈ (σ k).cpuVec ∧ (σ k).suspended c = false)
    (hstep : ∀ k ≥ K, ∀ a evs, Allowed (σ k) a → StepEffect (σ k) a evs (σ (k + 1)) →
      rank (σ (k + 1)) ≤ rank (σ k) ∧ (CanRun (σ k) c ∧ (∃ alloc, a = .run c alloc) →
        rank (σ (k + 1)) < rank (σ k))) : ∃ k ≥ K, (σ k).current c = [.user] := by
  by_contra! huser
  have hrank (k : ℕ) (hk : k ≥ K) : rank (σ (k + 1)) ≤ rank (σ k) ∧
      (CanRun (σ k) c ∧ (∃ alloc, acts k = some (.run c alloc)) →
        rank (σ (k + 1)) < rank (σ k)) := by
    rcases h.cases_step k with ⟨hnone, heq⟩ | ⟨a, hact, hallowed, heffect⟩
    · rw [heq, hnone]
      exact ⟨le_rfl, by simp⟩
    · simp only [hact, Option.some.injEq]
      exact hstep k hk a _ hallowed heffect
  have hend := (h.runs c).eventually_not (fun k => rank (σ k)) (fun k hk => (hrank k hk).1)
    fun k hk => (hrank k hk).2
  -- whenever the guard is free, the CPU can execute an instruction
  obtain ⟨K', hK'⟩ := eventually_atTop.mp hend
  obtain ⟨k, hk, hfree⟩ := frequently_atTop.mp h.guard_free (max K K')
  have hk' : k ≥ K := le_of_max_le_left hk
  obtain ⟨hc, hsuspended⟩ := hcan k hk'
  exact hK' k (le_of_max_le_right hk) ⟨hc, hsuspended, huser k hk', fun _ => hfree⟩

/-- A CPU that keeps running a thread accepts timer interrupts again and again. -/
theorem accepts (h : FairRun σ acts) (hlast : ∀ k ≥ K, (σ k).lastContext c = some t) :
    ∃ᶠ k in atTop, Allowed (σ k) (.timer c) := by
  by_contra hnot
  obtain ⟨K', hK'⟩ := eventually_atTop.mp (not_frequently.mp hnot)
  have hoff (k : ℕ) (hk : k ≥ max K K') : (σ k).interrupts c = false := by
    obtain ⟨hc, hsuspended⟩ := h.awake (hlast k (le_of_max_le_left hk))
    rw [← Bool.not_eq_true]
    exact fun hint => hK' k (le_of_max_le_right hk) ⟨hc, hsuspended, hint⟩
  obtain ⟨k, hk, huser⟩ := h.rank_lowered (State.phase · c)
    (fun k hk => h.awake (hlast k (le_of_max_le_left hk)))
    fun k hk a evs hallowed heffect => heffect.phase (h.sound k) (h.shortSections k) hallowed
      (h.awake (hlast k (le_of_max_le_left hk))).1 (hoff k hk) (hoff (k + 1) (Nat.le_succ_of_le hk))
  have hint := ((h.sound k).inMode (h.awake (hlast k (le_of_max_le_left hk))).1 huser).1
  rw [hoff k hk] at hint
  cases hint

end FairRun

/-! ### The handler of a timer interrupt -/

/-- The handler of a timer interrupt has not come to the ready queue yet. -/
inductive Pending : List Instr → Prop
  | called {l : List Instr} : Pending (.interruptDisable :: .guardLock :: .timer :: l)
  | disabled {l : List Instr} : Pending (.guardLock :: .timer :: l)
  | guarded {l : List Instr} : Pending (.timer :: l)

theorem Pending.tail (h : Pending (i :: rest)) (hi : i ≠ .timer) :
    Pending rest ∧ rest.idxOf .timer < (i :: rest).idxOf .timer := by
  cases h with
  | called => exact ⟨.disabled, by simp⟩
  | disabled => exact ⟨.guarded, by simp⟩
  | guarded => exact absurd rfl hi

/-- The handler is called. -/
theorem StepEffect.timer_current (h : StepEffect s (.timer c) evs s') :
    s'.current c = timerCode ++ s.current c := by
  cases h with
  | timer => exact update_self ..

/-- An instruction of the handler, if the thread is not preempted. -/
theorem Effect.pending (h : Effect s c rest i evs s') (hpending : Pending (i :: rest))
    (hsound : Sound s) (hidle : s.isIdle c = false) (hready : s.queue .ready ≠ [])
    (hlast : s.lastContext c = some t) (hlast' : s'.lastContext c = some t) :
    i ≠ .timer ∧ s'.current c = rest ∨ i = .guardLock ∧ s.guard ≠ none ∧ s' = s := by
  cases hpending with
  | called =>
    cases h with
    | interruptDisable => exact Or.inl ⟨by simp, update_self ..⟩
    | blocks _ hi => cases hi
    | wakes _ hi => cases hi
    | skips hi => cases hi
  | disabled =>
    cases h with
    | spin hguard => exact Or.inr ⟨rfl, hguard, rfl⟩
    | guardLock => exact Or.inl ⟨by simp, update_self ..⟩
    | blocks _ hi => cases hi
    | wakes _ hi => cases hi
    | skips hi => cases hi
  | guarded =>
    cases h with
    | blocks hself hi =>
      -- the thread is put at the end of the ready queue, and the CPU goes on with the first one
      obtain ⟨new, hqueue, hhead⟩ := hi.ready (hsound.not_mem_queue_of_last hself) rest
      obtain rfl := Option.some.inj (hself.symm.trans hlast)
      rw [← hqueue] at hhead
      exact absurd ((update_self ..).symm.trans hlast') hhead
    | wakes _ hi => cases hi
    | skips hi =>
      cases hi with
      | timer hno =>
        rcases hno with hno | hno | hno
        · rw [hidle] at hno
          cases hno
        · rw [hlast] at hno
          cases hno
        · exact absurd hno hready

/-- A step while the handler of a timer interrupt has not come to the ready queue, if the thread is
not preempted. -/
theorem StepEffect.pending (h : StepEffect s a evs s') (hpending : Pending (s.current c))
    (hsound : Sound s) (hallowed : Allowed s a) (hidle : s.isIdle c = false)
    (hready : s.queue .ready ≠ []) (hlast : s.lastContext c = some t)
    (hlast' : s'.lastContext c = some t) :
    Pending (s'.current c) ∧ (s'.current c).idxOf .timer ≤ (s.current c).idxOf .timer ∧
      (CanRun s c ∧ (∃ alloc, a = .run c alloc) →
        (s'.current c).idxOf .timer < (s.current c).idxOf .timer) := by
  have hc := hsound.mem_of_last hlast
  by_cases ha : a.cpu = some c
  · cases h with
    | bootSpin => exact absurd (Option.some.inj ha ▸ hc) hallowed
    | bootThread hnew => exact absurd (Option.some.inj ha ▸ hc) hnew
    | bootIdle hnew => exact absurd (Option.some.inj ha ▸ hc) hnew
    | run _ _ hcode heffect =>
      obtain rfl := Option.some.inj ha
      rw [hcode] at hpending ⊢
      rcases heffect.pending hpending hsound hidle hready hlast hlast' with
        ⟨hi, hrest⟩ | ⟨rfl, hguard, rfl⟩
      · obtain ⟨hnext, hlt⟩ := hpending.tail hi
        rw [hrest]
        exact ⟨hnext, hlt.le, fun _ => hlt⟩
      · rw [hcode]
        refine ⟨hpending, le_rfl, fun hrun => absurd (hrun.1.2.2.2 ?_) hguard⟩
        rw [hcode, List.head?_cons]
    | call _ _ hcode =>
      obtain rfl := Option.some.inj ha
      rw [hcode] at hpending
      cases hpending
    | finish _ _ hcode =>
      obtain rfl := Option.some.inj ha
      rw [hcode] at hpending
      cases hpending
    | @timer c' _ _ hmode =>
      obtain rfl : c = c' := (Option.some.inj ha).symm
      have hnew : (s.setCurrent c (timerCode ++ s.current c)).current c =
          timerCode ++ s.current c := update_self ..
      rw [hnew]
      cases hcode : s.current c with
      | nil =>
        rw [hcode] at hpending
        cases hpending
      | cons i rest =>
        -- interrupts are enabled, so that the handler has not begun to execute
        rw [hcode] at hpending hmode
        cases hpending with
        | called => exact ⟨.called, by simp [timerCode, guarded], by simp⟩
        | disabled => cases hmode
        | guarded => cases hmode
    | ipi => exact ⟨hpending, le_rfl, by simp⟩
    | dropThread => cases ha
  · rw [(h.beside hsound hc ha).current]
    refine ⟨hpending, le_rfl, ?_⟩
    rintro ⟨-, alloc, rfl⟩
    exact absurd rfl ha

namespace FairRun

/-- The ready queue after a moment. -/
theorem ready_step (h : FairRun σ acts) (k : ℕ) :
    ∃ new, (σ k).queue .ready ++ new = dispatchedAt σ acts k ++ (σ (k + 1)).queue .ready := by
  rcases h.cases_step k with ⟨hact, heq⟩ | ⟨a, hact, -, heffect⟩
  · exact ⟨[], by rw [dispatchedAt, hact, heq, List.append_nil, Option.elim_none, List.nil_append]⟩
  · rw [dispatchedAt_of_act hact]
    exact heffect.ready (h.sound k)

/-- If no CPU begins to run a thread, the threads that are ready stay so, and the CPUs that run one
keep it. -/
theorem keeps (h : FairRun σ acts) (hready : (σ K).queue .ready ≠ [])
    (hlast : (σ K).lastContext c = some t) (hnone : ∀ k ≥ K, dispatchedAt σ acts k = [])
    (hk : k ≥ K) : (σ k).queue .ready ≠ [] ∧ (σ k).lastContext c = some t := by
  induction k, hk using Nat.le_induction with
  | base => exact ⟨hready, hlast⟩
  | succ k hk ih =>
    obtain ⟨new, hnew⟩ := h.ready_step k
    rw [hnone k hk, List.nil_append] at hnew
    refine ⟨hnew ▸ List.append_ne_nil_of_left_ne_nil ih.1 new, ?_⟩
    rcases h.cases_step k with ⟨-, heq⟩ | ⟨a, hact, -, heffect⟩
    · exact heq ▸ ih.2
    · exact heffect.last_eq (h.sound k) ih.1 ((dispatchedAt_of_act hact).symm.trans (hnone k hk))
        ih.2

/-- A CPU that runs a thread is not idle. -/
theorem isIdle_eq (h : FairRun σ acts) (hlast : (σ k).lastContext c = some t) :
    (σ k).isIdle c = false := by
  obtain ⟨actions, events, hrun⟩ := h.reached k
  rw [← Bool.not_eq_true]
  intro hidle
  have hno := (hrun.idleOk.1 c ((h.sound k).mem_of_last hlast)).last hidle
  rw [hlast] at hno
  cases hno

/-- When a timer interrupt is delivered while a thread is ready, a CPU begins to run a thread. -/
theorem preempts (h : FairRun σ acts) (htimer : acts K = some (.timer c))
    (hkeeps : ∀ k ≥ K, (σ k).queue .ready ≠ [] ∧ (σ k).lastContext c = some t) : False := by
  have hpending (k : ℕ) (hk : k ≥ K + 1) : Pending ((σ k).current c) := by
    induction k, hk using Nat.le_induction with
    | base =>
      rcases h.cases_step K with ⟨hno, -⟩ | ⟨a, hact, -, heffect⟩
      · rw [htimer] at hno
        cases hno
      · obtain rfl : .timer c = a := Option.some.inj (htimer.symm.trans hact)
        rw [heffect.timer_current]
        exact .called
    | succ k hk ih =>
      rcases h.cases_step k with ⟨-, heq⟩ | ⟨a, -, hallowed, heffect⟩
      · rwa [heq]
      · obtain ⟨hready, hlast⟩ := hkeeps k (Nat.le_of_succ_le hk)
        exact (heffect.pending ih (h.sound k) hallowed (h.isIdle_eq hlast) hready hlast
          (hkeeps (k + 1) (Nat.le_succ_of_le (Nat.le_of_succ_le hk))).2).1
  obtain ⟨k, hk, huser⟩ := h.rank_lowered (K := K + 1) (fun s => (s.current c).idxOf .timer)
    (fun k hk => h.awake (hkeeps k (Nat.le_of_succ_le hk)).2) fun k hk a evs hallowed heffect => by
      obtain ⟨hready, hlast⟩ := hkeeps k (Nat.le_of_succ_le hk)
      exact (heffect.pending (hpending k hk) (h.sound k) hallowed (h.isIdle_eq hlast) hready hlast
        (hkeeps (k + 1) (Nat.le_succ_of_le (Nat.le_of_succ_le hk))).2).2
  have hno := hpending k hk
  rw [huser] at hno
  cases hno

/-- When a thread is ready, a CPU begins to run a thread. -/
theorem exists_dispatched (h : FairRun σ acts) (hready : (σ K).queue .ready ≠ []) :
    ∃ k ≥ K, dispatchedAt σ acts k ≠ [] := by
  by_contra! hnone
  obtain ⟨actions, events, hrun⟩ := h.threadRun K
  obtain ⟨c, t, hlast⟩ := hrun.busy hready
  have hkeeps (k : ℕ) (hk : k ≥ K) := h.keeps hready hlast hnone hk
  have haccepts := h.accepts fun k hk => (hkeeps k hk).2
  obtain ⟨K', hK', htimer⟩ := frequently_atTop.mp (h.timers c haccepts) K
  exact h.preempts htimer fun k hk => hkeeps k (hK'.trans hk)

/-- A thread that is ready stays so until a CPU begins to run it. -/
theorem exists_run (h : FairRun σ acts) (hx : x ∈ (σ K).queue .ready) :
    ∃ k ≥ K, x ∈ dispatchedAt σ acts k ∧ ∀ j ≥ K, j ≤ k → x ∈ (σ j).queue .ready :=
  exists_taken (fun k _ => h.ready_step k) hx fun hmem => frequently_atTop.mpr fun k => by
    obtain ⟨j, hj, hne⟩ := h.exists_dispatched (List.ne_nil_of_mem (hmem _ (le_max_left K k)))
    exact ⟨j, (le_max_right K k).trans hj, hne⟩

/-- The CPU that begins to run a thread. -/
theorem last_of_dispatchedAt (hx : x ∈ dispatchedAt σ acts k) :
    ∃ c, (σ (k + 1)).lastContext c = some x := by
  cases hact : acts k with
  | none =>
    rw [dispatchedAt, hact] at hx
    cases hx
  | some a =>
    rw [dispatchedAt_of_act hact] at hx
    obtain ⟨c, -, hlast⟩ := last_of_mem_dispatched hx
    exact ⟨c, hlast⟩

end FairRun

/-- In every fair run, every thread that is ready is run by a CPU at some moment, even if no thread
ever calls the library. -/
theorem fairRun_ready (h : FairRun σ acts) (hx : x ∈ (σ K).queue .ready) :
    ∃ k > K, ∃ c ∈ (σ k).cpuVec, (σ k).lastContext c = some x ∧ (σ k).stack c = x := by
  obtain ⟨k, hk, hmem, -⟩ := h.exists_run hx
  obtain ⟨c, hlast⟩ := FairRun.last_of_dispatchedAt hmem
  have hsound := h.sound (k + 1)
  exact ⟨k + 1, Nat.lt_succ_of_le hk, c, hsound.mem_of_last hlast, hlast,
    hsound.stack_of_last hlast⟩

/-- A run after which every CPU is suspended is fair if nothing is done any more. -/
theorem exists_fairRun (hstart : ThreadRunWith BootsEmpty actions events s) {as : List Action}
    {es : List (List Event)}
    (hrun : Runs step (fun _ s a => Allowed s a ∧ BootsEmpty [] s a) s as es s')
    (hstopped : ∀ c ∈ s'.cpuVec, s'.suspended c = true) :
    ∃ σ, FairRun σ (as[·]?) ∧ σ 0 = s ∧ ∀ k ≥ as.length, σ k = s' := by
  obtain ⟨σ, hforever, hinit, hend⟩ := hrun.exists_forever
  have hnot {possible done : ℕ → Prop}
      (hawake : ∀ k, possible k → ∃ c ∈ (σ k).cpuVec, (σ k).suspended c = false) :
      StronglyFair possible done := fun hpossible => by
    obtain ⟨k, hk, hk'⟩ := frequently_atTop.mp hpossible as.length
    obtain ⟨c, hc, hsuspended⟩ := hawake k hk'
    rw [hend k hk] at hc hsuspended
    rw [hstopped c hc] at hsuspended
    cases hsuspended
  exact ⟨σ, ⟨hinit ▸ ⟨actions, events, hstart⟩, hforever,
    fun c => hnot fun k h => ⟨c, h.1, h.2.1⟩, fun c => hnot fun k h => ⟨c, h.1, h.2.1⟩⟩, hinit,
    hend⟩

/-- A fair run that has been computed, with what has been tested where it begins and at its end. -/
theorem FairRun.of_check (start later : List Action) (check : State → State → Bool)
    (h : ((runAll step (fun s a => decide (Allowed s a) && decide (BootsEmpty [] s a)) start
      State.init).any fun r =>
        (runAll step (fun s a => decide (Allowed s a ∧ BootsEmpty [] s a)) later r.2).any
          fun r' => r'.2.cpuVec.all r'.2.suspended && check r.2 r'.2) = true) :
    ∃ σ s', FairRun σ (later[·]?) ∧ (∀ k ≥ later.length, σ k = s') ∧ check (σ 0) s' = true := by
  obtain ⟨events, s, hstart, hnext⟩ := ThreadRunWith.of_check
    (fun s a => decide (BootsEmpty [] s a)) (fun _ _ _ htest => of_decide_eq_true htest) start
    (fun _ s => (runAll step (fun s a => decide (Allowed s a ∧ BootsEmpty [] s a)) later s).any
      fun r => r.2.cpuVec.all r.2.suspended && check s r.2) h
  obtain ⟨⟨es, s'⟩, hrun, hend⟩ := (Option.any_eq_true _ _).mp hnext
  obtain ⟨hstopped, hcheck⟩ := (Bool.and_eq_true _ _).mp hend
  have hrun' : Runs step (fun _ s a => Allowed s a ∧ BootsEmpty [] s a) s later es s' :=
    Runs.of_runAll (fun _ _ _ hallowed => of_decide_eq_true hallowed) hrun
  obtain ⟨σ, hfair, hinit, hlater⟩ := exists_fairRun hstart hrun'
    fun c hc => List.all_eq_true.mp hstopped c hc
  exact ⟨σ, s', hfair, hlater, hinit ▸ hcheck⟩

/-- A timer interrupt preempts the first thread. The other one finishes, then the first one, and the
CPU is suspended. -/
def preempted : List Action :=
  [.timer 0] ++ runs 5 ++ [.finish 0] ++ runs 5 ++ [.finish 0] ++ runs 6

/-- The other thread is run though the first one does not yield. -/
theorem fairRun_ready_preempted :
    ∃ σ acts, FairRun σ acts ∧ 3 ∈ (σ 0).queue .ready ∧
      ∃ k > 0, ∃ c ∈ (σ k).cpuVec, (σ k).lastContext c = some 3 ∧ (σ k).stack c = 3 := by
  obtain ⟨σ, s', hfair, -, hready⟩ := FairRun.of_check constructOther preempted
    (fun s _ => decide (3 ∈ s.queue .ready)) (by decide +kernel)
  have hmem : 3 ∈ (σ 0).queue .ready := of_decide_eq_true hready
  exact ⟨σ, _, hfair, hmem, fairRun_ready hfair hmem⟩

end OsFromScratch.Threads
