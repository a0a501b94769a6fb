import OsFromScratch.Threads.Steps

/-!
# The places of the contexts

Every thread that has been created and has not finished is in one place exactly once. A context that
has finished is destroyed, or is about to be destroyed by one CPU, and no CPU executes a context
that is destroyed.

## Main definitions

* `Accounted` — the threads that have been created, that have finished and that have been destroyed.

## Main results

* `Accounted.step` — the threads are accounted for after a step.
* `StepEffect.destroyed` — a context is destroyed after it has finished, while no CPU executes it.
* `threadRun_places` — the places of the contexts in every run.
-/

namespace OsFromScratch.Threads

open Function

variable {s s' : State} {c c' : CpuId} {t x : ContextId} {q : Queue} {i : Instr}
    {l rest : List Instr}
  {evs tr tr' : List Event} {a : Action} {actions : List Action} {events : List (List Event)}

/-- The event is neither the beginning nor the end of a thread or of a context. -/
def Event.Plain : Event → Prop
  | .act _ _ | .functionReturned _ => True
  | _ => False

/-- The threads that have been created, that have finished and that have been destroyed. -/
structure Accounted (tr : List Event) (s : State) : Prop where
  alive : ∀ t, s.alive t = true ↔ .created t ∈ tr ∧ .exited t ∉ tr
  created_lt : ∀ t, .created t ∈ tr → t < s.maxId
  exited : ∀ t, .exited t ∈ tr → .created t ∈ tr
  destroyed : ∀ t, .destroyed t ∈ tr → .exited t ∈ tr
  killed : Divided (fun c => (s.toKill c).toList) {t | .exited t ∈ tr ∧ .destroyed t ∉ tr}
  off : ∀ c ∉ s.cpuVec, s.toKill c = none

namespace Accounted

theorem init : Accounted [] State.init where
  alive t := by simp [State.init]
  created_lt _ h := by cases h
  exited _ h := by cases h
  destroyed _ h := by cases h
  killed := ⟨fun _ => List.nodup_nil, fun _ _ _ h => (by cases h), fun _ => by simp [State.init]⟩
  off _ _ := rfl

/-- Only the set of the events matters. -/
theorem congr (h : Accounted tr s) (hmem : ∀ e, e ∈ tr' ↔ e ∈ tr) : Accounted tr' s := by
  refine ⟨fun t => ?_, fun t => ?_, fun t => ?_, fun t => ?_, ?_, h.off⟩
  · rw [hmem, hmem]
    exact h.alive t
  · rw [hmem]
    exact h.created_lt t
  · rw [hmem, hmem]
    exact h.exited t
  · rw [hmem, hmem]
    exact h.destroyed t
  · refine ⟨h.killed.nodup, h.killed.disjoint, fun t => ?_⟩
    rw [← h.killed.mem_iff, Set.mem_ofPred_eq, Set.mem_ofPred_eq, hmem, hmem]

/-- Events that begin and end nothing. -/
theorem plain (h : Accounted tr s) (hevs : ∀ e ∈ evs, e.Plain) (halive : s'.alive = s.alive)
    (hkill : s'.toKill = s.toKill) (hmax : s.maxId ≤ s'.maxId) (hcpus : ∀ c ∈ s.cpuVec,
      c ∈ s'.cpuVec) :
    Accounted (tr ++ evs) s' := by
  have hcreated (t : ContextId) : .created t ∈ tr ++ evs ↔ .created t ∈ tr := by
    rw [List.mem_append]
    exact ⟨fun h => h.elim id fun he => (hevs _ he).elim, Or.inl⟩
  have hexited (t : ContextId) : .exited t ∈ tr ++ evs ↔ .exited t ∈ tr := by
    rw [List.mem_append]
    exact ⟨fun h => h.elim id fun he => (hevs _ he).elim, Or.inl⟩
  have hdestroyed (t : ContextId) : .destroyed t ∈ tr ++ evs ↔ .destroyed t ∈ tr := by
    rw [List.mem_append]
    exact ⟨fun h => h.elim id fun he => (hevs _ he).elim, Or.inl⟩
  refine ⟨fun t => ?_, fun t ht => ?_, fun t => ?_, fun t => ?_, ?_, fun c hc => ?_⟩
  · rw [halive, hcreated, hexited]
    exact h.alive t
  · exact (h.created_lt t ((hcreated t).mp ht)).trans_le hmax
  · rw [hcreated, hexited]
    exact h.exited t
  · rw [hexited, hdestroyed]
    exact h.destroyed t
  · rw [hkill]
    refine ⟨h.killed.nodup, h.killed.disjoint, fun t => ?_⟩
    rw [← h.killed.mem_iff, Set.mem_ofPred_eq, Set.mem_ofPred_eq, hexited, hdestroyed]
  · rw [hkill]
    exact h.off c fun hmem => hc (hcpus c hmem)

/-- A new thread. -/
theorem create (h : Accounted tr s) (ht : s.maxId ≤ t) (hmax : t < s'.maxId)
    (halive : s'.alive = update s.alive t true) (hkill : s'.toKill = s.toKill)
    (hcpus : ∀ c ∈ s.cpuVec, c ∈ s'.cpuVec) : Accounted (tr ++ [.created t]) s' := by
  have hnew : .created t ∉ tr := fun hmem => absurd (h.created_lt t hmem) (Nat.not_lt.mpr ht)
  have hexited (x : ContextId) : .exited x ∈ tr ++ [.created t] ↔ .exited x ∈ tr := by simp
  have hdestroyed (x : ContextId) : .destroyed x ∈ tr ++ [.created t] ↔ .destroyed x ∈ tr := by simp
  have hcreated (x : ContextId) : .created x ∈ tr ++ [.created t] ↔ .created x ∈ tr ∨
      x = t := by simp
  refine ⟨fun x => ?_, fun x hx => ?_, fun x hx => ?_, fun x hx => ?_, ?_, fun c hc => ?_⟩
  · rw [halive, hexited, hcreated]
    by_cases hxt : x = t
    · subst hxt
      simpa using fun hmem => hnew (h.exited x hmem)
    · rw [update_of_ne hxt, h.alive, or_iff_left hxt]
  · rcases (hcreated x).mp hx with hx | rfl
    · exact ((h.created_lt x hx).trans_le ht).trans hmax
    · exact hmax
  · exact (hcreated x).mpr (Or.inl (h.exited x ((hexited x).mp hx)))
  · exact (hexited x).mpr (h.destroyed x ((hdestroyed x).mp hx))
  · rw [hkill]
    refine ⟨h.killed.nodup, h.killed.disjoint, fun x => ?_⟩
    rw [← h.killed.mem_iff, Set.mem_ofPred_eq, Set.mem_ofPred_eq, hexited, hdestroyed]
  · rw [hkill]
    exact h.off c fun hmem => hc (hcpus c hmem)

/-- A CPU destroys the context that has finished on it. -/
theorem kill (h : Accounted tr s) (c : CpuId) :
    Accounted (tr ++ (s.toKill c).toList.map .destroyed)
      { s with toKill := update s.toKill c none } := by
  have hcreated (x : ContextId) :
      .created x ∈ tr ++ (s.toKill c).toList.map .destroyed ↔ .created x ∈ tr := by simp
  have hexited (x : ContextId) :
      .exited x ∈ tr ++ (s.toKill c).toList.map .destroyed ↔ .exited x ∈ tr := by simp
  have hdestroyed (x : ContextId) : .destroyed x ∈ tr ++ (s.toKill c).toList.map .destroyed ↔
      .destroyed x ∈ tr ∨ x ∈ (s.toKill c).toList := by simp
  refine ⟨fun x => ?_, fun x hx => h.created_lt x ((hcreated x).mp hx), fun x => ?_,
    fun x hx => ?_, ?_,
    fun c' hc' => ?_⟩
  · rw [hcreated, hexited]
    exact h.alive x
  · rw [hcreated, hexited]
    exact h.exited x
  · rw [hexited]
    rcases (hdestroyed x).mp hx with hx | hx
    · exact h.destroyed x hx
    · exact (h.killed.mem (p := c) hx).1
  · refine h.killed.change (p := c) (fun c' hc' => by simp [hc']) (by simp) (by simp) fun x => ?_
    rw [Set.mem_ofPred_eq, Set.mem_ofPred_eq, hexited, hdestroyed]
    simp only [update_self, Option.toList_none, List.not_mem_nil, or_false, not_or, and_assoc]
  · by_cases hne : c' = c
    · simp [hne]
    · simpa [hne] using h.off c' hc'

/-- A thread finishes on a CPU. -/
theorem die (h : Accounted tr s) (hc : c ∈ s.cpuVec) (hkill : s.toKill c = none)
    (ht : s.alive t = true) :
    Accounted (tr ++ [.exited t])
      { s with alive := update s.alive t false, toKill := update s.toKill c (some t) } := by
  obtain ⟨htcreated, htexited⟩ := (h.alive t).mp ht
  have hcreated (x : ContextId) : .created x ∈ tr ++ [.exited t] ↔ .created x ∈ tr := by simp
  have hexited (x : ContextId) : .exited x ∈ tr ++ [.exited t] ↔ .exited x ∈ tr ∨ x = t := by simp
  have hdestroyed (x : ContextId) : .destroyed x ∈ tr ++ [.exited t] ↔ .destroyed x ∈ tr := by simp
  refine ⟨fun x => ?_, fun x hx => h.created_lt x ((hcreated x).mp hx), fun x hx => ?_,
    fun x hx => ?_,
    ?_, fun c' hc' => ?_⟩
  · rw [hcreated, hexited]
    by_cases hxt : x = t
    · simp [hxt]
    · rw [or_iff_left hxt]
      simpa [hxt] using h.alive x
  · rw [hcreated]
    rcases (hexited x).mp hx with hx | rfl
    · exact h.exited x hx
    · exact htcreated
  · exact (hexited x).mpr (Or.inl (h.destroyed x ((hdestroyed x).mp hx)))
  · refine h.killed.change (p := c) (fun c' hc' => by simp [hc']) (by simp) ?_ fun x => ?_
    · intro x hx hold
      simp only [update_self, Option.toList_some, List.mem_singleton] at hx
      exact absurd (hx ▸ hold.1) htexited
    · rw [Set.mem_ofPred_eq, Set.mem_ofPred_eq, hexited, hdestroyed]
      simp only [update_self, hkill, Option.toList_none, Option.toList_some, List.mem_singleton,
        List.not_mem_nil, not_false_iff, and_true]
      constructor
      · rintro ⟨hx | hx, hnot⟩
        · exact Or.inl ⟨hx, hnot⟩
        · exact Or.inr hx
      · rintro (⟨hx, hnot⟩ | rfl)
        · exact ⟨Or.inl hx, hnot⟩
        · exact ⟨Or.inr rfl, fun hmem => htexited (h.destroyed _ hmem)⟩
  · have hne : c' ≠ c := fun heq => hc' (heq ▸ hc)
    simpa [hne] using h.off c' hc'

theorem exec (h : Accounted tr s) (hsound : Sound s) (hc : c ∈ s.cpuVec)
    (heffect : Effect s c rest i evs s') : Accounted (tr ++ evs) s' := by
  have hplain {s' : State} {evs : List Event} (hevs : ∀ e ∈ evs,
      e.Plain) (halive : s'.alive = s.alive)
      (hkill : s'.toKill = s.toKill) (hmax : s'.maxId = s.maxId) (hcpus : s'.cpuVec = s.cpuVec) :
      Accounted (tr ++ evs) s' :=
    h.plain hevs halive hkill hmax.ge fun c hc => hcpus ▸ hc
  cases heffect with
  | blocks _ hi =>
    refine hplain ?_ rfl rfl rfl rfl
    cases hi <;> simp [Event.Plain]
  | wakes _ hi =>
    refine hplain ?_ rfl rfl rfl rfl
    cases hi <;> simp [Event.Plain]
  | skips hi =>
    refine hplain ?_ rfl rfl rfl rfl
    cases hi <;> simp [Event.Plain]
  | construct =>
    have hnew : Accounted (tr ++ [.created s.maxId]) (s.setCurrent c rest).construct :=
      h.create le_rfl (Nat.lt_succ_self _) rfl rfl fun c hc => hc
    rw [show ∀ a b : Event, tr ++ [a, b] = tr ++ [a] ++ [b] by simp]
    exact hnew.plain (by simp [Event.Plain]) rfl rfl le_rfl fun c hc => hc
  | badAlloc _ hmax => exact h.plain (by simp [Event.Plain]) rfl rfl hmax fun c hc => hc
  | exit hlast =>
    have hdead := (h.kill c).die hc (update_self _ _ _) (hsound.alive_of_last hlast)
    have hkill : update (update s.toKill c none) c (some (s.stack c)) =
        update s.toKill c (some (s.stack c)) := update_idem _ _ _
    have hall : Accounted (tr ++ (s.toKill c).toList.map .destroyed ++ [.exited (s.stack c)] ++
        (s.queue (.join (s.stack c))).map (.act · (.joined (s.stack c))))
        ((s.exit c (s.stack c)).resume c) :=
      hdead.plain (by simp [Event.Plain]) rfl hkill.symm le_rfl fun c hc => hc
    refine hall.congr fun e => ?_
    simp only [List.mem_append, List.mem_cons, List.not_mem_nil, or_false]
    tauto
  | idle => exact { h.kill c with }
  | take => exact { h.kill c with }
  | _ => exact hplain (by simp [Event.Plain]) rfl rfl rfl rfl

/-- The threads are accounted for after a step. -/
theorem step (h : Accounted tr s) (hsound : Sound s) (heffect : StepEffect s a evs s') :
    Accounted (tr ++ evs) s' := by
  have hboot {c : CpuId} (hc : c ∉ s.cpuVec) : update s.toKill c none = s.toKill := by
    rw [← h.off c hc, update_eq_self]
  cases heffect with
  | bootSpin => simpa using h
  | bootThread hc =>
    exact h.create (Nat.le_succ _) (Nat.lt_succ_self _) rfl (hboot hc)
      fun c hc => List.mem_append_left _ hc
  | bootIdle hc =>
    exact h.plain (by simp) rfl (hboot hc) (Nat.le_succ _) fun c hc => List.mem_append_left _ hc
  | run hc _ _ heffect => exact h.exec hsound hc heffect
  | _ => exact h.plain (by simp [Event.Plain]) rfl rfl le_rfl fun c hc => hc

end Accounted

/-- The goldfish of the CPUs are not threads. -/
def GoldfishApart (tr : List Event) (s : State) : Prop :=
  ∀ c ∈ s.cpuVec, .created (s.myGoldfish c) ∉ tr

theorem GoldfishApart.step (h : GoldfishApart tr s) (hsound : Sound s) (hacc : Accounted tr s)
    (heffect : StepEffect s a evs s') : GoldfishApart (tr ++ evs) s' := by
  have hkeep {s' : State} {evs : List Event} (hevs : ∀ t, .created t ∈ evs → s.maxId ≤ t)
      (hcpus : s'.cpuVec = s.cpuVec) (hgold : s'.myGoldfish = s.myGoldfish) :
      GoldfishApart (tr ++ evs) s' := by
    intro c hc
    rw [hcpus] at hc
    rw [hgold, List.mem_append, not_or]
    exact ⟨h c hc, fun hmem => absurd (hsound.goldfish_lt c hc) (Nat.not_lt.mpr (hevs _ hmem))⟩
  have hboot {c c' : CpuId} {evs : List Event} (hevs : ∀ t, .created t ∈ evs → s.maxId < t)
      (hc' : c' ∈ s.cpuVec ++ [c]) : .created (update s.myGoldfish c s.maxId c') ∉ tr ++ evs := by
    rw [List.mem_append, not_or]
    by_cases hne : c' = c
    · rw [hne, update_self]
      exact ⟨fun hmem => lt_irrefl _ (hacc.created_lt _ hmem), fun hmem =>
        lt_irrefl _ (hevs _ hmem)⟩
    · have hold : c' ∈ s.cpuVec := by simpa [hne] using hc'
      rw [update_of_ne hne]
      refine ⟨h c' hold, fun hmem => ?_⟩
      exact absurd (hsound.goldfish_lt c' hold) (Nat.not_lt.mpr (hevs _ hmem).le)
  cases heffect with
  | bootThread hc =>
    exact fun c' hc' => hboot (by simp) hc'
  | bootIdle hc => exact fun c' hc' => hboot (by simp) hc'
  | run hc _ _ heffect =>
    cases heffect with
    | blocks _ hi => exact hkeep (by cases hi <;> simp) rfl rfl
    | wakes _ hi => exact hkeep (by cases hi <;> simp) rfl rfl
    | skips hi => exact hkeep (by cases hi <;> simp) rfl rfl
    | _ => exact hkeep (by simp) rfl rfl
  | _ => exact hkeep (by simp) rfl rfl

/-- The context that a CPU executes has not finished. -/
theorem Accounted.stack_ne (h : Accounted tr s) (hgold : GoldfishApart tr s) (hsound : Sound s)
    (hc : c ∈ s.cpuVec) (ht : .exited t ∈ tr) : s.stack c ≠ t := by
  rintro rfl
  rcases hsound.cases_stack hc with ⟨-, halive⟩ | ⟨-, hstack, -⟩
  · exact ((h.alive _).mp halive).2 ht
  · rw [hstack] at ht
    exact hgold c hc (h.exited _ ht)

/-! ### Runs -/

/-- A context is destroyed after it has finished. -/
theorem StepEffect.destroyed (h : StepEffect s a evs s') (hacc : Accounted tr s)
    (ht : .destroyed t ∈ evs) : .exited t ∈ tr := by
  have hkilled {c : CpuId} (hmem : t ∈ s.toKill c) : .exited t ∈ tr :=
    (hacc.killed.mem (p := c) (Option.mem_toList.mpr hmem)).1
  cases h with
  | run _ _ _ heffect =>
    cases heffect with
    | blocks _ hi => cases hi <;> simp at ht
    | wakes _ hi => cases hi <;> simp at ht
    | skips hi => cases hi <;> simp at ht
    | exit => exact hkilled (by simpa using ht)
    | idle => exact hkilled (by simpa using ht)
    | take => exact hkilled (by simpa using ht)
    | _ => simp at ht
  | _ => simp at ht

/-- The threads are accounted for in every run. -/
theorem ThreadRun.accounted (hrun : ThreadRun actions events s) : Accounted events.flatten s :=
  (hrun.invariant (I := Accounted) Accounted.init fun hsound h heffect => h.step hsound heffect).2

/-- In every run each thread that has been created and has not finished is in one place exactly
once: it is the last context of one CPU, which executes it, or it is in one queue. Each thread that
has finished is destroyed, or it is the context that one CPU is about to destroy. A context is
destroyed only after it has finished, and no CPU executes it before or after the step. -/
theorem threadRun_places (hrun : ThreadRun actions events s) :
    Divided s.place {t | .created t ∈ events.flatten ∧ .exited t ∉ events.flatten} ∧
    (∀ c t, s.lastContext c = some t → c ∈ s.cpuVec ∧ s.stack c = t) ∧
    Divided (fun c => (s.toKill c).toList)
      {t | .exited t ∈ events.flatten ∧ .destroyed t ∉ events.flatten} ∧
    ∀ a evs s', Allowed s a → step a s = some (evs, s') → ∀ t, .destroyed t ∈ evs →
      .exited t ∈ events.flatten ∧ (∀ c ∈ s.cpuVec, s.stack c ≠ t) ∧ ∀ c ∈ s'.cpuVec,
        s'.stack c ≠ t := by
  have hacc := hrun.accounted
  obtain ⟨hsound, -, hgold⟩ :=
    hrun.invariant (I := fun tr s => Accounted tr s ∧ GoldfishApart tr s)
      ⟨Accounted.init, fun _ h => by cases h⟩
      fun hsound h heffect => ⟨h.1.step hsound heffect, h.2.step hsound h.1 heffect⟩
  have halive : {t | s.alive t = true} =
      {t | .created t ∈ events.flatten ∧ .exited t ∉ events.flatten} := by
    ext t
    exact hacc.alive t
  refine ⟨halive ▸ hsound.places, fun c t hlast =>
    ⟨hsound.mem_of_last hlast, hsound.stack_of_last hlast⟩,
    hacc.killed, fun a evs s' hallowed hstep t ht => ?_⟩
  have heffect := hsound.effect_of_step hallowed hstep
  have hexited := heffect.destroyed hacc ht
  refine ⟨hexited, fun c hc => hacc.stack_ne hgold hsound hc hexited, fun c hc => ?_⟩
  exact (hacc.step hsound heffect).stack_ne (hgold.step hsound hacc heffect)
    (hsound.step heffect) hc
    (List.mem_append_left evs hexited)

/-- A thread creates another one and joins it, and the other one finishes. -/
def joinOther : List Action :=
  [.boot 0 true, .run 0 .ok, .run 0 .ok, .call 0 .thread] ++ List.replicate 6 (.run 0 .ok) ++
    [.call 0 (.join 3), .run 0 .ok, .run 0 .ok, .run 0 .ok, .run 0 .ok, .run 0 .ok, .finish 0,
      .run 0 .ok, .run 0 .ok, .run 0 .ok]

/-- The other thread has finished, and the first one runs again. -/
theorem threadRun_places_joinOther :
    ∃ events s, ThreadRun joinOther events s ∧ s.toKill 0 = some 3 ∧ s.stack 0 = 2 := by
  obtain ⟨events, s, hthread, hcheck⟩ := ThreadRun.of_check joinOther
    (fun _ s => s.toKill 0 = some 3 && s.lastContext 0 = some 2) (by decide +kernel)
  simp only [Bool.and_eq_true, decide_eq_true_eq] at hcheck
  obtain ⟨hkill, hlast⟩ := hcheck
  exact ⟨events, s, hthread, hkill, ((threadRun_places hthread).2.1 0 2 hlast).2⟩

end OsFromScratch.Threads
