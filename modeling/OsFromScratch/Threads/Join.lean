import OsFromScratch.Threads.History
import OsFromScratch.Threads.Places

/-!
# Joining threads

A call of `join` returns when the function of the thread has returned. The thread that finishes
makes the threads ready that wait for it, and a call of `join` after that does not wait.

## Main definitions

* `Joins` — the threads that have finished or been joined.

## Main results

* `Joins.step` — the invariant is preserved by a step.
* `threadRun_join` — `join` in every run.
-/

namespace OsFromScratch.Threads

open Function

variable {s s' : State} {c c' : CpuId} {t x : ContextId} {q : Queue} {i : Instr}
    {l rest : List Instr}
  {evs tr : List Event} {a : Action} {actions : List Action} {events : List (List Event)}

/-- The function of a thread that finishes has returned, and a thread that has been joined has
finished. -/
structure Joins (tr : List Event) (s : State) : Prop where
  exit : ∀ t, .exit ∈ s.code t → .functionReturned t ∈ tr
  exited : ∀ t, .exited t ∈ tr → .functionReturned t ∈ tr
  joined : ∀ t i, .act t (.joined i) ∈ tr → .exited i ∈ tr
  handle : ∀ i, s.handle i = true → s.alive i = true ∨ .exited i ∈ tr

namespace Joins

theorem init : Joins [] State.init where
  exit _ h := by cases h
  exited _ h := by cases h
  joined _ _ h := by cases h
  handle _ h := by cases h

/-- Steps in which no thread begins, finishes or is joined. -/
theorem plain (h : Joins tr s) (hexit : ∀ t, .exit ∈ s'.code t → .exit ∈ s.code t ∨
    .functionReturned t ∈ evs)
    (hexited : ∀ t, .exited t ∉ evs) (hjoined : ∀ t i, .act t (.joined i) ∈ evs → .exited i ∈ tr)
    (hhandle : ∀ i, s'.handle i = true → s'.alive i = true ∨ s.handle i = true ∧
      s'.alive i = s.alive i) :
    Joins (tr ++ evs) s' := by
  refine ⟨fun t ht => ?_, fun t ht => ?_, fun t i hti => ?_, fun i hi => ?_⟩
  · rcases hexit t ht with ht | ht
    · exact List.mem_append_left _ (h.exit t ht)
    · exact List.mem_append_right _ ht
  · have hold : .exited t ∈ tr := (List.mem_append.mp ht).resolve_right (hexited t)
    exact List.mem_append_left _ (h.exited t hold)
  · rcases List.mem_append.mp hti with hti | hti
    · exact List.mem_append_left _ (h.joined t i hti)
    · exact List.mem_append_left _ (hjoined t i hti)
  · rcases hhandle i hi with halive | ⟨hold, halive⟩
    · exact Or.inl halive
    · rw [halive]
      exact (h.handle i hold).imp_right (List.mem_append_left _)

/-- The code of a context after a CPU has gone on with other code. -/
theorem exit_of_setCurrent (hl : .exit ∈ l → .exit ∈ s.current c ∨
    .functionReturned (s.stack c) ∈ evs)
    (ht : .exit ∈ (s.setCurrent c l).code t) : .exit ∈ s.code t ∨ .functionReturned t ∈ evs := by
  by_cases htc : t = s.stack c
  · subst htc
    have hnew : (s.setCurrent c l).code (s.stack c) = l := Sound.current_setCurrent s c l
    rw [hnew] at ht
    exact hl ht
  · rw [Sound.code_setCurrent_of_ne s c l htc] at ht
    exact Or.inl ht

theorem exec (h : Joins tr s) (hsound : Sound s) (hc : c ∈ s.cpuVec)
    (hcode : s.current c = i :: rest)
    (heffect : Effect s c rest i evs s') : Joins (tr ++ evs) s' := by
  have hgo {evs : List Event} {t : ContextId} (ht : .exit ∈ (s.setCurrent c rest).code t) :
      .exit ∈ s.code t ∨ .functionReturned t ∈ evs :=
    exit_of_setCurrent (fun hl => Or.inl (hcode ▸ List.mem_cons_of_mem i hl)) ht
  have hthrow {evs : List Event} {t : ContextId}
      (ht : .exit ∈ (s.setCurrent c (throwCode rest)).code t) :
      .exit ∈ s.code t ∨ .functionReturned t ∈ evs := by
    refine exit_of_setCurrent (fun hl => Or.inl ?_) ht
    rw [hcode]
    simp only [throwCode, List.mem_cons, reduceCtorEq, false_or] at hl
    rcases mem_unwind hl with ⟨op, hop⟩ | hl
    · cases hop
    · exact List.mem_cons_of_mem i hl
  have hhandle {s' : State} (hh : s'.handle = s.handle) (ha : s'.alive = s.alive) (i : ContextId)
      (hi : s'.handle i = true) : s'.alive i = true ∨ s.handle i = true ∧ s'.alive i = s.alive i :=
    Or.inr ⟨hh ▸ hi, congrFun ha i⟩
  cases heffect with
  | spin => exact h.plain (fun t ht => Or.inl ht) (by simp) (by simp) (hhandle rfl rfl)
  | refused => exact h.plain (fun t => hthrow) (by simp) (by simp) (hhandle rfl rfl)
  | badAlloc => exact h.plain (fun t => hthrow) (by simp) (by simp) (hhandle rfl rfl)
  | blocks _ hi =>
    refine h.plain (fun t => hgo) ?_ ?_ (hhandle rfl rfl) <;> cases hi <;> simp
  | wakes _ hi =>
    refine h.plain (fun t => hgo) ?_ ?_ (hhandle rfl rfl) <;> cases hi <;> simp
  | skips hi =>
    cases hi with
    | @join i hdead =>
      refine h.plain (fun t => hgo) (by simp) (fun t j htj => ?_) (hhandle rfl rfl)
      have hj : j = i := by
        simp only [List.mem_singleton, Event.act.injEq, Act.joined.injEq] at htj
        exact htj.2
      have halive := hsound.alive_of_last (hsound.last_of_head hc hcode id)
      have hhandle := ((hsound.fits_current hc).thread halive _
        (hcode ▸ List.mem_cons_self)).2 i rfl
      rw [hj]
      refine (h.handle i hhandle).resolve_left ?_
      rw [hdead]
      simp
    | _ => exact h.plain (fun t => hgo) (by simp) (by simp) (hhandle rfl rfl)
  | construct hlast =>
    refine h.plain (fun t ht => ?_) (by simp) (by simp) fun j hj => ?_
    · by_cases hnew : t = s.maxId
      · subst hnew
        have hstart : (s.setCurrent c rest).construct.code s.maxId = startCode := update_self _ _ _
        rw [hstart] at ht
        simp [startCode] at ht
      · have hold : (s.setCurrent c rest).construct.code t = (s.setCurrent c rest).code t :=
          update_of_ne hnew _ _
        exact hgo (hold ▸ ht)
    · by_cases hnew : j = s.maxId
      · subst hnew
        exact Or.inl (update_self _ _ _)
      · have hold : (s.setCurrent c rest).construct.handle j = s.handle j := update_of_ne hnew _ _
        exact Or.inr ⟨hold ▸ hj, update_of_ne hnew _ _⟩
  | exit hlast =>
    have hexit : .functionReturned (s.stack c) ∈ tr :=
      h.exit _ ((hcode ▸ List.mem_cons_self : Instr.exit ∈ s.current c))
    have hexited : Event.exited (s.stack c) ∈ tr ++ (.exited (s.stack c) ::
        (s.queue (.join (s.stack c))).map (.act · (.joined (s.stack c))) ++
          (s.toKill c).toList.map .destroyed) := by simp
    refine ⟨fun t ht => ?_, fun t ht => ?_, fun t j htj => ?_, fun j hj => ?_⟩
    · by_cases htc : t = s.stack c
      · rw [htc]
        exact List.mem_append_left _ hexit
      · have hold : ((s.exit c (s.stack c)).resume c).code t = s.code t := update_of_ne htc _ _
        exact List.mem_append_left _ (h.exit t (hold ▸ ht))
    · have hmem : .exited t ∈ tr ∨ t = s.stack c := by simpa using ht
      rcases hmem with ht | htc
      · exact List.mem_append_left _ (h.exited t ht)
      · rw [htc]
        exact List.mem_append_left _ hexit
    · have hmem : .act t (.joined j) ∈ tr ∨ t ∈ s.queue (.join (s.stack c)) ∧ s.stack c = j := by
        simpa using htj
      rcases hmem with htj | ⟨-, rfl⟩
      · exact List.mem_append_left _ (h.joined t j htj)
      · exact hexited
    · by_cases hjc : j = s.stack c
      · rw [hjc]
        exact Or.inr hexited
      · have halive : ((s.exit c (s.stack c)).resume c).alive j = s.alive j := update_of_ne hjc _ _
        rw [halive]
        exact (h.handle j hj).imp_right (List.mem_append_left _)
  | idle =>
    refine h.plain (fun t ht => exit_of_setCurrent (l := idleCode) (fun hl => ?_) ht)
      (by simp) (by simp)
      (hhandle rfl rfl)
    simp [idleCode] at hl
  | take =>
    exact h.plain (fun t ht => Or.inl ht) (by simp) (by simp) (hhandle rfl rfl)
  | _ => exact h.plain (fun t => hgo) (by simp) (by simp) (hhandle rfl rfl)

/-- The invariant is preserved by a step. -/
theorem step (h : Joins tr s) (hsound : Sound s) (heffect : StepEffect s a evs s') :
    Joins (tr ++ evs) s' := by
  have hhandle {s' : State} (hh : s'.handle = s.handle) (ha : s'.alive = s.alive) (i : ContextId)
      (hi : s'.handle i = true) : s'.alive i = true ∨ s.handle i = true ∧ s'.alive i = s.alive i :=
    Or.inr ⟨hh ▸ hi, congrFun ha i⟩
  have hboot {c : CpuId} {t : ContextId} (ht : .exit ∈ (s.boot c).code t) : .exit ∈ s.code t := by
    by_cases hnew : t = s.maxId
    · subst hnew
      have hgold : (s.boot c).code s.maxId = [.watchSuspend] := update_self _ _ _
      rw [hgold] at ht
      simp at ht
    · have hold : (s.boot c).code t = s.code t := update_of_ne hnew _ _
      exact hold ▸ ht
  cases heffect with
  | bootSpin => exact h.plain (fun t ht => Or.inl ht) (by simp) (by simp) (hhandle rfl rfl)
  | @bootThread c =>
    refine h.plain (fun t ht => ?_) (by simp) (by simp) fun j hj => ?_
    · by_cases hnew : t = s.maxId + 1
      · subst hnew
        have hstart : (s.boot c).construct.code (s.maxId + 1) = startCode := update_self _ _ _
        have ht' : .exit ∈ (s.boot c).construct.code (s.maxId + 1) := ht
        rw [hstart] at ht'
        simp [startCode] at ht'
      · have hold : (s.boot c).construct.code t = (s.boot c).code t := update_of_ne hnew _ _
        have ht' : .exit ∈ (s.boot c).construct.code t := ht
        exact Or.inl (hboot (hold ▸ ht'))
    · by_cases hnew : j = s.maxId + 1
      · subst hnew
        exact Or.inl (update_self _ _ _)
      · have hold : (s.boot c).construct.handle j = s.handle j := update_of_ne hnew _ _
        exact Or.inr ⟨hold ▸ hj, update_of_ne hnew _ _⟩
  | @bootIdle c =>
    have hcode {t : ContextId} (ht : .exit ∈ (s.boot c).code t) : .exit ∈ s.code t := hboot ht
    exact h.plain (fun t ht => Or.inl (hcode ht)) (by simp) (by simp) (hhandle rfl rfl)
  | run hc _ hcode heffect => exact h.exec hsound hc hcode heffect
  | @call c op =>
    refine h.plain (fun t => exit_of_setCurrent fun hl => ?_) (by simp) (by simp) (hhandle rfl rfl)
    cases op <;> simp [Op.callCode, Op.code, guarded, lockCode] at hl
  | @finish c =>
    exact h.plain (fun t => exit_of_setCurrent fun _ => Or.inr (by simp)) (by simp) (by simp)
      (hhandle rfl rfl)
  | @timer c =>
    refine h.plain (fun t => exit_of_setCurrent fun hl => Or.inl ?_) (by simp) (by simp)
      (hhandle rfl rfl)
    simpa [timerCode, guarded] using hl
  | ipi => exact h.plain (fun t ht => Or.inl ht) (by simp) (by simp) (hhandle rfl rfl)
  | @dropThread i =>
    refine h.plain (fun t ht => Or.inl ht) (by simp) (by simp) fun j hj => ?_
    by_cases hji : j = i
    · have hgone : update s.handle i false j = false := by rw [hji, update_self]
      exact absurd (hgone.symm.trans hj) (by simp)
    · have hold : update s.handle i false j = s.handle j := update_of_ne hji _ _
      exact Or.inr ⟨hold.symm.trans hj, rfl⟩

end Joins

theorem ThreadRun.joins (hrun : ThreadRun actions events s) : Joins events.flatten s :=
  (hrun.invariant (I := Joins) Joins.init fun hsound h heffect => h.step hsound heffect).2

/-! ### Joining -/

/-- A call of `join` that returns. -/
theorem StepEffect.returned {op : Op} (h : StepEffect s a evs s')
    (hevs : .act t (.returned op true) ∈ evs) :
    ∃ c ∈ s.cpuVec, s.stack c = t ∧ ∃ rest, s.current c = .ret op true :: rest := by
  cases h with
  | @run c _ i rest _ _ hc _ hcode heffect =>
    cases heffect with
    | @ret op' ok =>
      simp only [List.mem_singleton, Event.act.injEq, Act.returned.injEq] at hevs
      obtain ⟨rfl, rfl, rfl⟩ := hevs
      exact ⟨c, hc, rfl, rest, hcode⟩
    | blocks _ hi => cases hi <;> simp at hevs
    | wakes _ hi => cases hi <;> simp at hevs
    | skips hi => cases hi <;> simp at hevs
    | _ => simp at hevs
  | _ => simp at hevs

/-- The threads that wait for the one that finishes become ready, and the CPU goes on with the first
one that is ready. -/
theorem exit_queue (s : State) (c : CpuId) (t : ContextId) :
    (((s.exit c t).resume c).lastContext c).toList ++ ((s.exit c t).resume c).queue .ready =
        s.queue .ready ++ s.queue (.join t) ∧
      ((s.exit c t).resume c).queue (.join t) = [] ∧
      ∀ q, q ≠ .ready → q ≠ .join t → ((s.exit c t).resume c).queue q = s.queue q := by
  refine ⟨?_, ?_, fun q hready hjoin => ?_⟩
  · have hqueue : (s.exit c t).queue .ready = s.queue .ready ++ s.queue (.join t) := by
      simp [State.exit, State.moveReady, State.wake, State.wakeCpus, State.setQueue]
    simp only [State.resume, update_self, hqueue]
    cases s.queue .ready ++ s.queue (.join t) <;> rfl
  · simp [State.resume, State.exit, State.moveReady, State.wake, State.wakeCpus, State.setQueue]
  · simp [State.resume, State.exit, State.moveReady, State.wake, State.wakeCpus,
      State.setQueue, hready, hjoin]

/-- In every run `join` returns only after the function of the thread has returned. A call whose
guarded section is executed after the thread has finished does not wait. A thread that finishes
makes ready, in order, the threads that have entered its join queue and not left it, and no others;
nobody waits there afterwards. The thread object does not matter. -/
theorem threadRun_join (hrun : ThreadRun actions events s) :
    (∀ a evs s' t i, Allowed s a → step a s = some (evs, s') →
      .act t (.returned (.join i) true) ∈ evs → .functionReturned i ∈ events.flatten) ∧
    (∀ c alloc i rest evs s', Allowed s (.run c alloc) → s.current c = .join i :: rest →
      step (.run c alloc) s = some (evs, s') → .exited i ∈ events.flatten →
      evs = [.act (s.stack c) (.joined i)] ∧ s' = s.setCurrent c rest) ∧
    (∀ c alloc rest evs s', Allowed s (.run c alloc) → s.current c = .exit :: rest →
      step (.run c alloc) s = some (evs, s') →
      evs = .exited (s.stack c) ::
        (waiting (.join (s.stack c)) events.flatten).map (.act · (.joined (s.stack c))) ++
          (s.toKill c).toList.map .destroyed ∧
      (s'.lastContext c).toList ++ s'.queue .ready =
        s.queue .ready ++ waiting (.join (s.stack c)) events.flatten ∧
      s'.queue (.join (s.stack c)) = [] ∧
      ∀ q, q ≠ .ready → q ≠ .join (s.stack c) → s'.queue q = s.queue q) ∧
    ∀ i, .exited i ∈ events.flatten → s.queue (.join i) = [] := by
  have hsound := threadRun_sound hrun
  have hdead {i : ContextId} (hi : .exited i ∈ events.flatten) : s.alive i = false := by
    rw [← Bool.not_eq_true]
    exact fun halive => ((hrun.accounted.alive i).mp halive).2 hi
  refine ⟨fun a evs s' t i hallowed hstep hreturned => ?_,
    fun c alloc i rest evs s' hallowed hcode hstep hi => ?_,
    fun c alloc rest evs s' hallowed hcode hstep => ?_, fun i hi => hsound.join_dead i (hdead hi)⟩
  · obtain ⟨c, hc, rfl, rest, hcode⟩ := (hsound.effect_of_step hallowed hstep).returned hreturned
    obtain ⟨before, hacts⟩ := hrun.acts_of_ret hc hcode
    have hjoined : .act (s.stack c) (.joined i) ∈ events.flatten := by
      refine mem_of_mem_acts ?_
      rw [hacts]
      simp [due, Op.code, guarded, Instr.due]
    exact hrun.joins.exited i (hrun.joins.joined _ i hjoined)
  · have heffect := hsound.effect_of_step hallowed hstep
    cases heffect with
    | run _ _ hcode' heffect =>
      rw [hcode] at hcode'
      obtain ⟨rfl, rfl⟩ := List.cons.inj hcode'
      cases heffect with
      | blocks _ hblocks =>
        cases hblocks with
        | join halive =>
          rw [hdead hi] at halive
          cases halive
      | wakes _ hwakes => cases hwakes
      | skips hskips =>
        cases hskips
        exact ⟨rfl, rfl⟩
  · have heffect := hsound.effect_of_step hallowed hstep
    rw [← hrun.queue_eq (q := .join (s.stack c)) trivial]
    cases heffect with
    | run _ _ hcode' heffect =>
      rw [hcode] at hcode'
      obtain ⟨rfl, rfl⟩ := List.cons.inj hcode'
      cases heffect with
      | exit => exact ⟨rfl, exit_queue s c (s.stack c)⟩
      | blocks _ hblocks => cases hblocks
      | wakes _ hwakes => cases hwakes
      | skips hskips => cases hskips

/-- The thread that joins another one returns from `join` after that one has finished. -/
theorem threadRun_join_joinOther :
    ∃ events s, ThreadRun (joinOther ++ runs 2) events s ∧
      s.current 0 = [.ret (.join 3) true, .user] ∧ .functionReturned 3 ∈ events.flatten := by
  obtain ⟨events, s, hthread, hcheck⟩ := ThreadRun.of_check (joinOther ++ runs 2)
    (fun _ s => Allowed s (.run 0 .ok) && s.current 0 =
      [.ret (.join 3) true, .user] && s.stack 0 = 2)
    (by decide +kernel)
  simp only [Bool.and_eq_true, decide_eq_true_eq] at hcheck
  obtain ⟨⟨hallowed, hcode⟩, hstack⟩ := hcheck
  have hstep : step (.run 0 .ok) s = some ([.act 2 (.returned (.join 3) true)],
      s.setCurrent 0 [.user]) := by
    simp only [step, hcode, exec, ← hstack]
    rfl
  exact ⟨events, s, hthread, hcode,
    (threadRun_join hthread).1 _ _ _ 2 3 hallowed hstep List.mem_cons_self⟩

end OsFromScratch.Threads
