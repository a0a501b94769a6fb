import OsFromScratch.Threads.HandOff
import OsFromScratch.Threads.History

/-!
# Condition variables

A thread that waits on a condition variable releases the mutex and enters the queue of the condition
variable while it holds the guard, so that nobody acquires the mutex or wakes up threads in between.
It is woken up by a call of `signal` or `broadcast`, in the order of the queue, and returns with the
mutex held again.

## Main definitions

* `Event.OutsideOf` — an event of another thread that does not hold the guard.
* `Sleeping` — the invariant of a thread that is about to enter the queue of a condition variable.
* `Holding` — a thread whose last act was to acquire a mutex holds it.
* `ConditionStep` — what the instructions of the condition variables do.

## Main results

* `threadRunWith_condition` — condition variables, in the runs in which nobody releases a mutex of
  another thread.
* `threadRun_not_condition` — a thread does not hold the mutex in every run when it returns from
  `wait`.
-/

namespace OsFromScratch.Threads

open Function

variable {s s' : State} {c c' : CpuId} {t x : ContextId} {q : Queue} {i : Instr}
    {l rest : List Instr}
  {evs tr : List Event} {a : Action} {actions : List Action} {events : List (List Event)}
  {m : MutexId} {v : CvId} {handed : List ContextId}

/-! ### From the release of the mutex to the queue -/

/-- The event belongs to another thread, which does not hold the guard. -/
def Event.OutsideOf (t : ContextId) : Event → Prop
  | .act x (.called _) | .act x (.returned _ _) | .functionReturned x => x ≠ t
  | _ => False

/-- The steps of the other CPUs do not change what a CPU that holds the guard executes, and they are
taken outside the guarded sections. -/
theorem StepEffect.outsideOf (h : StepEffect s a evs s') (hsound : Sound s)
    (hguard : s.guard = some c)
    (ha : a.cpu ≠ some c) :
    s'.stack c = s.stack c ∧ s'.current c = s.current c ∧ ∀ e ∈ evs, e.OutsideOf (s.stack c) := by
  have hc := hsound.guard_mem c hguard
  have hother {c' : CpuId} (hc' : c' ∈ s.cpuVec) (ha : some c' ≠ some c) : s.stack c' ≠ s.stack c :=
    fun heq => ha (congrArg some (hsound.stack_inj hc' hc heq))
  have hkeep {c' : CpuId} (hc' : c' ∈ s.cpuVec) (ha : some c' ≠ some c) (l : List Instr) :
      (s.setCurrent c' l).current c = s.current c :=
    Sound.code_setCurrent_of_ne s c' l (hother hc' ha).symm
  have hfree : s.guard ≠ none := by simp [hguard]
  cases h with
  | bootSpin => exact ⟨rfl, rfl, by simp⟩
  | bootThread _ hnone => exact absurd hnone hfree
  | bootIdle _ hnone => exact absurd hnone hfree
  | @run c' alloc i rest evs s' hc' _ hcode heffect =>
    -- the instruction is not executed with the guard held
    have hmode := hsound.inMode hc' hcode
    have hunguarded : i.before ≠ .guarded := fun hbefore => by
      rw [hbefore] at hmode
      have hheld : s.guard = some c' := hmode.2
      exact ha (hheld.symm.trans hguard)
    cases heffect with
    | interruptDisable => exact ⟨rfl, hkeep hc' ha rest, by simp⟩
    | interruptEnable => exact ⟨rfl, hkeep hc' ha rest, by simp⟩
    | suspend => exact ⟨rfl, hkeep hc' ha rest, by simp⟩
    | spin => exact ⟨rfl, rfl, by simp⟩
    | guardLock hnone => exact absurd hnone hfree
    | ret => exact ⟨rfl, hkeep hc' ha rest, by simpa [Event.OutsideOf] using hother hc' ha⟩
    | blocks _ hi => exact absurd hi.guarded.1 hunguarded
    | wakes _ hi => exact absurd hi.guarded.1 hunguarded
    | skips hi => cases hi <;> exact absurd rfl hunguarded
    | _ => exact absurd rfl hunguarded
  | call hc' =>
    exact ⟨rfl, hkeep hc' ha _, by simpa [Event.OutsideOf] using hother hc' ha⟩
  | finish hc' =>
    exact ⟨rfl, hkeep hc' ha _, by simpa [Event.OutsideOf] using hother hc' ha⟩
  | timer hc' => exact ⟨rfl, hkeep hc' ha _, by simp⟩
  | ipi => exact ⟨rfl, rfl, by simp⟩
  | dropThread => exact ⟨rfl, rfl, by simp⟩

/-- Only a CPU itself takes the guard. -/
theorem StepEffect.guard_of_ne (h : StepEffect s a evs s') (ha : a.cpu ≠ some c)
    (hguard : s'.guard = some c) : s.guard = some c := by
  cases h with
  | bootThread => exact absurd hguard ha
  | bootIdle => exact absurd hguard ha
  | run _ _ _ heffect =>
    cases heffect with
    | guardLock => exact absurd hguard ha
    | guardUnlock => cases hguard
    | _ => exact hguard
  | _ => exact hguard

/-- A context that is about to enter the queue of a condition variable is not entered. -/
theorem Core.head_resume (h : Core s) (hc : c ∈ s.cpuVec)
    (hready : ∀ x ∈ s.queue .ready, (s.code x).head? ≠ some (.sleep v)) :
    ((s.resume c).current c).head? ≠ some (.sleep v) := by
  have hstack : (s.resume c).current c =
      s.code ((s.queue .ready).head?.getD (s.myGoldfish c)) := by
    simp [State.current, State.resume]
  rw [hstack]
  cases hqueue : s.queue .ready with
  | nil =>
    intro hhead
    exact (h.goldfish_code c hc).2 _ (List.mem_of_mem_head? hhead)
  | cons x xs => exact hready x (hqueue ▸ List.mem_cons_self)

/-- A thread that is about to enter the queue of a condition variable has released a mutex, and
nobody has executed a guarded section since. -/
def Sleeping (tr : List Event) (s : State) : Prop :=
  ∀ c ∈ s.cpuVec, ∀ v, (s.current c).head? = some (.sleep v) → ∃ m before after,
    tr = before ++ .act (s.stack c) (.released m) :: after ∧ ∀ e ∈ after, e.OutsideOf (s.stack c)

theorem Sleeping.exec (hsound : Sound s) (hheads : QueueHeads s)
    (hc : c ∈ s.cpuVec) (hcode : s.current c = i :: rest) (heffect : Effect s c rest i evs s')
    (hhead : (s'.current c).head? = some (.sleep v)) : ∃ m before after,
      tr ++ evs = before ++ .act (s'.stack c) (.released m) :: after ∧
        ∀ e ∈ after, e.OutsideOf (s'.stack c) := by
  have hwf := hsound.wellFormed_current hc
  rw [hcode] at hwf
  have hrest (hi : ∀ m, i ≠ .releaseLock m) : rest.head? ≠ some (.sleep v) := fun hrest => by
    obtain ⟨m, rfl⟩ := hwf.head_sleep hrest
    exact hi m rfl
  have hcurrent (l : List Instr) : (s.setCurrent c l).current c = l :=
      Sound.current_setCurrent s c l
  have hgo (hi : ∀ m, i ≠ .releaseLock m) : ((s.setCurrent c rest).current c).head? ≠ some
      (.sleep v) := by
    rw [hcurrent]
    exact hrest hi
  have hold {x : ContextId} {q : Queue} (l : List Instr) (hx : x ∈ s.queue q) :
      ((s.setCurrent c l).code x).head? ≠ some (.sleep v) := by
    have hne : x ≠ s.stack c := fun heq => hsound.stack_not_mem_queue hc (heq ▸ hx)
    rw [Sound.code_setCurrent_of_ne s c l hne]
    exact hheads.sleep q x hx v
  cases heffect with
  | release => exact ⟨_, tr, [], rfl, by simp⟩
  | handOff => exact ⟨_, tr, [], rfl, by simp⟩
  | spin =>
    rw [hcode] at hhead
    cases hhead
  | refused =>
    rw [hcurrent] at hhead
    cases hhead
  | badAlloc =>
    have hthrow : (throwCode rest).head? = some (.sleep v) :=
      (congrArg List.head? (hcurrent (throwCode rest))).symm.trans hhead
    cases hthrow
  | @blocks _ q _ hlast hi =>
    have hi' : ∀ m, i ≠ .releaseLock m := by
      rintro m rfl
      cases hi
    obtain ⟨hpop, hguarded⟩ := hsound.pop hc hcode hi.guarded.1 hi.guarded.2
    have hleft := (hpop.leave hguarded hlast hi.alive).toCore
    refine absurd hhead (hleft.head_resume hc fun x hx => ?_)
    rcases mem_queue_enqueue hx with hx | ⟨-, rfl⟩
    · exact hold rest hx
    · exact hgo hi'
  | wakes hlast hi =>
    refine absurd hhead (hgo ?_)
    rintro m rfl
    cases hi
  | skips hi =>
    refine absurd hhead (hgo ?_)
    rintro m rfl
    cases hi
  | construct hlast =>
    have hne : s.stack c ≠ s.maxId := (hsound.alive_lt _ (hsound.alive_of_last hlast)).2.ne
    have hkeep : (s.setCurrent c rest).construct.current c = (s.setCurrent c rest).current c :=
      update_of_ne hne _ _
    rw [hkeep] at hhead
    exact absurd hhead (hgo (by simp))
  | exit hlast =>
    have hguarded := hsound.inMode hc hcode
    refine absurd hhead ((hsound.between_exit hguarded hlast).toCore.head_resume hc fun x hx => ?_)
    have hmem : x ∈ s.queue .ready ∨ x ∈ s.queue (.join (s.stack c)) := by
      simpa [State.exit, State.moveReady, State.wake, State.wakeCpus, State.setQueue] using hx
    rcases hmem with hx | hx <;> exact hold [] hx
  | idle =>
    have hidle : idleCode.head? = some (.sleep v) :=
      (congrArg List.head? (hcurrent idleCode)).symm.trans hhead
    cases hidle
  | take hlast =>
    have hcore := (hsound.between_take hc (hsound.inMode hc hcode)
      hlast (update s.toKill c none)).toCore
    exact absurd hhead (hcore.head_resume hc fun x hx => hheads.sleep .ready x hx v)
  | _ => exact absurd hhead (hgo (by simp))

/-- The invariant is preserved by a step. -/
theorem Sleeping.step (h : Sleeping tr s) (hsound : Sound s) (hheads : QueueHeads s)
    (heffect : StepEffect s a evs s') : Sleeping (tr ++ evs) s' := by
  intro c hc v hhead
  have hguard : s'.guard = some c := by
    have hmode := ((hsound.step heffect).onCpu c hc).mode
    cases hcode : s'.current c with
    | nil =>
      rw [hcode] at hhead
      cases hhead
    | cons i rest =>
      rw [hcode, List.head?_cons, Option.some.injEq] at hhead
      subst hhead
      rw [hcode] at hmode
      exact hmode.2
  by_cases ha : a.cpu = some c
  · cases heffect with
    | bootSpin =>
      rw [List.append_nil]
      exact h c hc v hhead
    | @bootThread c' hc' hnone =>
      obtain rfl : c' = c := Option.some.inj ha
      have hboot := hsound.between_boot hc' hnone
      have hcore : Core { (s.boot c').construct with
          isIdle := update (s.boot c').construct.isIdle c' false } := { hboot.newThread with }
      refine absurd hhead (hcore.head_resume hboot.mem fun x hx => ?_)
      have hmem : x ∈ s.queue .ready ∨ x = s.maxId + 1 := by
        simpa [State.construct, State.boot, State.wake, State.wakeCpus] using hx
      rcases hmem with hx | rfl
      · have hlt := (hsound.alive_lt x (hsound.alive_of_queue hx)).2
        have hcode : (s.boot c').construct.code x = s.code x :=
          (update_of_ne (hlt.trans (Nat.lt_succ_self _)).ne _ _).trans (update_of_ne hlt.ne _ _)
        exact fun heq => hheads.sleep .ready x hx v ((congrArg List.head? hcode).symm.trans heq)
      · have hcode : (s.boot c').construct.code (s.maxId + 1) = startCode := update_self _ _ _
        exact fun heq => by cases (congrArg List.head? hcode).symm.trans heq
    | @bootIdle c' hc' hnone =>
      obtain rfl : c' = c := Option.some.inj ha
      have hstack : (s.boot c').code (update (s.boot c').stack c' s.maxId c') =
          [.watchSuspend] := by
        rw [update_self]
        exact update_self _ _ _
      cases (congrArg List.head? hstack).symm.trans hhead
    | @run c' _ _ _ _ _ hc' _ hcode heffect =>
      obtain rfl : c' = c := Option.some.inj ha
      exact Sleeping.exec hsound hheads hc' hcode heffect hhead
    | @call c' _ hc' _ hcode =>
      obtain rfl : c' = c := Option.some.inj ha
      exact absurd hguard (hsound.inMode hc' hcode).2
    | @finish c' hc' _ hcode =>
      obtain rfl : c' = c := Option.some.inj ha
      exact absurd hguard (hsound.inMode hc' hcode).2
    | @timer c' hc' _ henabled =>
      obtain rfl : c' = c := Option.some.inj ha
      have hmode := (hsound.onCpu c' hc').mode
      rw [henabled] at hmode
      exact absurd hguard hmode.2
    | ipi =>
      rw [List.append_nil]
      exact h c hc v hhead
    | dropThread => cases ha
  · have hguard' := heffect.guard_of_ne ha hguard
    obtain ⟨hstack, hcurrent, hevs⟩ := heffect.outsideOf hsound hguard' ha
    rw [hcurrent] at hhead
    obtain ⟨m, before, after, rfl, hafter⟩ := h c (hsound.guard_mem c hguard') v hhead
    rw [hstack]
    refine ⟨m, before, after ++ evs, by simp, fun e he => ?_⟩
    rcases List.mem_append.mp he with he | he
    · exact hafter e he
    · exact hevs e he

/-- The invariant holds in every run. -/
theorem ThreadRun.sleeping (hrun : ThreadRun actions events s) : Sleeping events.flatten s :=
  (hrun.invariant (I := fun tr s => QueueHeads s ∧ Sleeping tr s)
    ⟨⟨fun _ _ h => (by cases h), fun _ _ h => (by cases h)⟩, fun _ h => (by cases h)⟩
    fun hsound h heffect => ⟨h.1.step hsound heffect, h.2.step hsound h.1 heffect⟩).2.2

/-! ### The mutex after `wait` -/

/-- What a step does to the threads that hold a mutex. -/
theorem StepEffect.holders (h : StepEffect s a evs s') (hsound : Sound s)
    (hok : MutexOk tr s m handed)
    (hright : Rightful tr s a) :
    (holders m (tr ++ evs) = holders m tr ∧ ∀ t, .act t (.acquired m) ∉ evs) ∨
    (∃ t, evs = [.act t (.acquired m)] ∧ holders m tr = []) ∨
    ∃ t, evs = [.act t (.released m)] ∧ holders m tr = [t] := by
  have hsame {evs : List Event} (hkeep : ∀ e ∈ evs, ∀ ts, Event.hold m ts e = ts) (hnot : ∀ t,
      .act t (.acquired m) ∉ evs) :
      (Threads.holders m (tr ++ evs) = Threads.holders m tr ∧ ∀ t, .act t (.acquired m) ∉ evs) ∨
      (∃ t, evs = [.act t (.acquired m)] ∧ Threads.holders m tr = []) ∨
      ∃ t, evs = [.act t (.released m)] ∧ Threads.holders m tr = [t] :=
    Or.inl ⟨holders_append_of_keep hkeep, hnot⟩
  cases h with
  | run hc _ hcode heffect =>
    cases heffect with
    | @own m' hlast =>
      by_cases hm : m' = m
      · subst hm
        exact Or.inr (Or.inl ⟨_, rfl, (hok.handed_of_own hsound hcode hlast).2.2.2⟩)
      · exact hsame (by simp [Event.hold, hm]) (by simp [Ne.symm hm])
    | @release m' hlast hfree howner =>
      by_cases hm : m' = m
      · subst hm
        exact Or.inr (Or.inr ⟨_, rfl, hright _ (by simp [hcode]) hfree howner⟩)
      · exact hsame (by simp [Event.hold, hm]) (by simp)
    | @handOff m' _ _ hlast hfree howner =>
      by_cases hm : m' = m
      · subst hm
        exact Or.inr (Or.inr ⟨_, rfl, hright _ (by simp [hcode]) hfree howner⟩)
      · exact hsame (by simp [Event.hold, hm]) (by simp)
    | blocks _ hi => cases hi <;> exact hsame (by simp [Event.hold]) (by simp)
    | wakes _ hi => cases hi <;> exact hsame (by simp [Event.hold]) (by simp)
    | skips hi => cases hi <;> exact hsame (by simp [Event.hold]) (by simp)
    | exit =>
      refine hsame ?_ (by simp)
      rw [List.forall_mem_append, List.forall_mem_cons, List.forall_mem_map, List.forall_mem_map]
      exact ⟨⟨fun _ => rfl, fun _ _ _ => rfl⟩, fun _ _ _ => rfl⟩
    | _ => exact hsame (by simp [Event.hold]) (by simp)
  | _ => exact hsame (by simp [Event.hold]) (by simp)

/-- A thread whose last act was to acquire a mutex holds it. -/
def Holding (tr : List Event) : Prop :=
  ∀ t m before, acts t tr = before ++ [.acquired m] → holders m tr = [t]

theorem Holding.step (h : Holding tr) (hsound : Sound s) (hok : ∀ m, ∃ handed,
    MutexOk tr s m handed)
    (hright : Rightful tr s a) (heffect : StepEffect s a evs s') : Holding (tr ++ evs) := by
  intro t m before hacts
  rw [acts_append] at hacts
  obtain ⟨handed, hok⟩ := hok m
  rcases heffect.holders hsound hok hright with ⟨hsame, hnot⟩ | ⟨x, rfl, hnone⟩ | ⟨x, rfl, hheld⟩
  · rw [hsame]
    rcases List.eq_nil_or_concat' (acts t evs) with hnil | ⟨bs, b, hlast⟩
    · rw [hnil, List.append_nil] at hacts
      exact h t m before hacts
    · rw [hlast, ← List.append_assoc] at hacts
      obtain ⟨-, hb⟩ := List.append_inj' hacts rfl
      obtain rfl := List.singleton_inj.mp hb
      have hmem : .acquired m ∈ acts t evs := by simp [hlast]
      exact absurd (mem_of_mem_acts hmem) (hnot t)
  · have hhold : holders m (tr ++ [.act x (.acquired m)]) = [x] := by
      simp only [holders, List.foldl_append] at hnone ⊢
      simp [hnone, Event.hold]
    rw [hhold]
    by_cases hx : t = x
    · rw [hx]
    · rw [acts_act_of_ne hx, List.append_nil] at hacts
      rw [h t m before hacts] at hnone
      cases hnone
  · by_cases hx : t = x
    · rw [acts_act_self (by simp) hx] at hacts
      have hb := (List.append_inj' hacts rfl).2
      simp at hb
    · rw [acts_act_of_ne hx, List.append_nil] at hacts
      rw [h t m before hacts, List.cons.injEq] at hheld
      exact absurd hheld.1 hx

theorem ThreadRunWith.holding (hrun : ThreadRunWith Rightful actions events s) :
    Holding events.flatten := by
  refine (hrun.invariant (I := fun tr s => (∀ m, ∃ handed, MutexOk tr s m handed) ∧ Holding tr)
    ⟨fun m => ⟨_, MutexOk.init m⟩, fun t m before h => ?_⟩ fun hsound h hright heffect =>
      ⟨fun m => ?_, h.2.step hsound h.1 hright heffect⟩).2
  · simp [acts] at h
  · obtain ⟨_, hok⟩ := h.1 m
    exact hok.step hsound hright heffect

/-! ### Condition variables -/

/-- What the instructions of the condition variables do. A thread enters the queue just after it has
released the mutex. A call of `signal` wakes up the first thread in the queue, and a call of
`broadcast` all of them in order. A thread that returns from `wait` has been woken up and holds the
mutex. -/
structure ConditionStep (tr : List Event) (s : State) (c : CpuId) (i : Instr) (evs : List Event)
    (s' : State) : Prop where
  sleep : ∀ v, i = .sleep v → evs = [.act (s.stack c) (.queued v)] ∧
    ∃ m past before after, acts (s.stack c) tr = past ++ [.called (.wait v m), .released m] ∧
      tr = before ++ .act (s.stack c) (.released m) :: after ∧ ∀ e ∈ after, e.OutsideOf (s.stack c)
  signal : ∀ v, i = .signal v →
    evs = .act (s.stack c) (.signalled v) :: ((s.queue (.cv v)).take 1).map (.act · (.woken v)) ∧
    s'.queue = update (update s.queue (.cv v) ((s.queue (.cv v)).drop 1)) .ready
      (s.queue .ready ++ (s.queue (.cv v)).take 1)
  broadcast : ∀ v, i = .broadcast v →
    evs = .act (s.stack c) (.broadcasted v) :: (s.queue (.cv v)).map (.act · (.woken v)) ∧
    s'.queue = update (update s.queue (.cv v) []) .ready (s.queue .ready ++ s.queue (.cv v))
  returns : ∀ v m, i = .ret (.wait v m) true →
    (∃ past, acts (s.stack c) tr = past ++ [.called (.wait v m), .released m, .queued v, .woken v,
      .requested m, .acquired m]) ∧
    holders m tr = [s.stack c] ∧ s.free m = false ∧ s.owner m = idOf (s.stack c)

/-- A call that is about to enter the queue of a condition variable. -/
theorem Call.queued {op : Op} {now bs : List Act} (h : Call op (now ++ .queued v :: bs)) :
    ∃ m, now = [.called (.wait v m), .released m] := by
  generalize hall : now ++ .queued v :: bs = all at h
  have hmem : Act.queued v ∈ all := by simp [← hall]
  cases h with
  | done op =>
    cases op with
    | wait v' m =>
      obtain rfl : v = v' := by simpa [due, Op.callCode, Op.code, guarded, lockCode,
        Instr.due] using hmem
      have hcall : now ++ .queued v :: bs = [.called (.wait v m), .released m] ++ .queued v ::
          [.woken v, .requested m, .acquired m, .returned (.wait v m) true] := hall
      exact ⟨m, ((List.append_cons_inj_of_notMem (by simp) (by simp)).mp hcall.symm).1.symm⟩
    | _ => simp [due, Op.callCode, Op.code, guarded, lockCode, Instr.due] at hmem
  | _ => simp at hmem

/-- A thread that is about to enter the queue of a condition variable has called `wait` and released
the mutex. -/
theorem ThreadRun.sleep (hrun : ThreadRun actions events s) (hc : c ∈ s.cpuVec)
    (hcode : s.current c = .sleep v :: rest) : ∃ m past before after,
      acts (s.stack c) events.flatten = past ++ [.called (.wait v m), .released m] ∧
      events.flatten = before ++ .act (s.stack c) (.released m) :: after ∧
      ∀ e ∈ after, e.OutsideOf (s.stack c) := by
  have hlast := (threadRun_sound hrun).last_of_head hc hcode id
  have hin := hrun.progress (.inl c) (s.stack c) (by simp [State.place, hlast])
  rw [← State.current, hcode] at hin
  obtain ⟨past, now, op, hacts, hcall⟩ := hin.resolve_left (by simp [Instr.due])
  obtain ⟨m, rfl⟩ := hcall.queued
  obtain ⟨m', before, after, htr, hafter⟩ := hrun.sleeping c hc v (by simp [hcode])
  -- what the thread has done last is to release the mutex
  have hnil : acts (s.stack c) after = [] := acts_eq_nil fun e he => by
    have hout := hafter e he
    cases e with
    | act x b =>
      cases b with
      | called => exact if_neg hout
      | returned => exact if_neg hout
      | _ => exact hout.elim
    | _ => rfl
  have hm : past ++ [.called (.wait v m)] ++ [.released m] =
      acts (s.stack c) before ++ [.released m'] := by
    rw [List.append_assoc, ← List.singleton_append,
      ← acts_act_self (b := .released m') (by simp) rfl]
    rw [htr, acts_append, acts_cons, hnil, List.append_nil] at hacts
    exact hacts.symm
  obtain rfl : m = m' := by simpa using (List.append_inj' hm rfl).2
  exact ⟨m, past, before, after, hacts, htr, hafter⟩

/-- The thread that returns from `wait` holds the mutex. -/
theorem MutexOk.held (h : MutexOk tr s m handed) (hhold : holders m tr = [t]) :
    s.free m = false ∧ s.owner m = idOf t := by
  obtain ⟨-, -, -, -, hnone⟩ | ⟨hbusy, -, x, hx, hid, -⟩ | ⟨-, -, hnone, -⟩ := h.state
  · rw [hnone] at hhold
    cases hhold
  · rw [hx, List.cons.injEq] at hhold
    exact ⟨hbusy, hhold.1 ▸ hid⟩
  · rw [hnone] at hhold
    cases hhold

/-- Threads are woken up by the instructions of `signal` and `broadcast`. -/
theorem StepEffect.woken (h : StepEffect s a evs s') (hx : .act x (.woken v) ∈ evs) :
    ∃ c alloc, a = .run c alloc ∧
      ((s.current c).head? = some (.signal v) ∨ (s.current c).head? = some (.broadcast v)) := by
  cases h with
  | @run c alloc _ _ _ _ _ _ hcode heffect =>
    refine ⟨c, alloc, rfl, ?_⟩
    rw [hcode]
    cases heffect with
    | blocks _ hi => cases hi <;> simp at hx
    | wakes _ hi =>
      cases hi with
      | signal =>
        simp only [List.mem_cons, Event.act.injEq, Act.woken.injEq, List.not_mem_nil, or_false,
          reduceCtorEq, and_false, false_or] at hx
        rw [hx.2]
        exact Or.inl rfl
      | broadcast =>
        simp only [List.mem_cons, List.mem_map, Event.act.injEq, Act.woken.injEq, reduceCtorEq,
          and_false, false_or] at hx
        obtain ⟨-, -, -, rfl⟩ := hx
        exact Or.inr rfl
    | skips hi => cases hi <;> simp at hx
    | _ => simp at hx
  | _ => simp at hx

/-- In every run in which nobody releases a mutex of another thread, the queue of a condition
variable has the threads that wait, in order, the instructions of the condition variables do what
they are for, and nothing else wakes up the threads. -/
theorem threadRunWith_condition (hrun : ThreadRunWith Rightful actions events s) :
    (∀ v, s.queue (.cv v) = waiting (.cv v) events.flatten) ∧
    (∀ c alloc i rest evs s', Allowed s (.run c alloc) → s.current c = i :: rest →
      step (.run c alloc) s = some (evs, s') → ConditionStep events.flatten s c i evs s') ∧
    ∀ a evs s' x v, Allowed s a → step a s = some (evs, s') → .act x (.woken v) ∈ evs →
      ∃ c alloc, a = .run c alloc ∧
        ((s.current c).head? = some (.signal v) ∨ (s.current c).head? = some (.broadcast v)) := by
  have hthread := hrun.threadRun
  have hsound := threadRun_sound hthread
  refine ⟨fun v => hthread.queue_eq trivial, fun c alloc i rest evs s' hallowed hcode hstep => ?_,
    fun a evs s' x v hallowed hstep hx => (hsound.effect_of_step hallowed hstep).woken hx⟩
  have heffect := hsound.effect_of_step hallowed hstep
  cases heffect with
  | @run _ _ i' rest' _ _ hc _ hcode' heffect =>
    rw [hcode] at hcode'
    obtain ⟨rfl, rfl⟩ := List.cons.inj hcode'
    refine ⟨?_, ?_, ?_, ?_⟩
    · rintro v rfl
      refine ⟨?_, hthread.sleep hc hcode⟩
      cases heffect with
      | blocks _ hi =>
        cases hi
        rfl
      | wakes _ hi => cases hi
      | skips hi => cases hi
    · rintro v rfl
      cases heffect with
      | blocks _ hi => cases hi
      | wakes _ hi =>
        cases hi with
        | signal hqueue =>
          rw [hqueue]
          exact ⟨rfl, rfl⟩
      | skips hi =>
        cases hi with
        | signal hqueue =>
          rw [hqueue, List.take_nil, List.drop_nil, List.append_nil, ← hqueue, update_eq_self,
            update_eq_self]
          exact ⟨by rw [hqueue]; rfl, rfl⟩
    · rintro v rfl
      cases heffect with
      | blocks _ hi => cases hi
      | wakes _ hi =>
        cases hi with
        | broadcast => exact ⟨rfl, rfl⟩
      | skips hi => cases hi
    · rintro v m rfl
      obtain ⟨past, hacts⟩ := hthread.acts_of_ret hc hcode
      obtain ⟨handed, hok⟩ := hrun.mutexOk m
      have hhold := hrun.holding (s.stack c) m (past ++ [.called (.wait v m), .released m,
        .queued v, .woken v,
        .requested m]) (hacts.trans (by rw [List.append_assoc]; rfl))
      exact ⟨⟨past, hacts⟩, hhold, hok.held hhold⟩

/-- A thread waits on a condition variable and is woken up. -/
def waitSignal : List Action :=
  [.boot 0 true] ++ runs 2 ++ [.call 0 (.lock 0)] ++ runs 7 ++ [.call 0 .thread] ++ runs 6 ++
    [.call 0 (.wait 0 0)] ++ runs 6 ++ [.call 0 (.signal 0)] ++ runs 6 ++
      [.call 0 .yield] ++ runs 11

/-- The thread is about to return from `wait`, and holds the mutex. -/
theorem threadRunWith_condition_waitSignal :
    ∃ events s, ThreadRunWith Rightful waitSignal events s ∧
      s.current 0 = [.ret (.wait 0 0) true, .user] ∧ holders 0 events.flatten = [s.stack 0] := by
  obtain ⟨events, s, hthread, hcheck⟩ := ThreadRun.of_check waitSignal
    (fun _ s => s.maxId ≤ 2 ^ 32 && Allowed s (.run 0 .ok) &&
      s.current 0 = [.ret (.wait 0 0) true, .user])
    (by decide +kernel)
  simp only [Bool.and_eq_true, decide_eq_true_eq] at hcheck
  obtain ⟨⟨hids, hallowed⟩, hcode⟩ := hcheck
  have hrun := hthread.rightful hids
  obtain ⟨evs, s', hstep, -⟩ := (threadRun_sound hthread).step_effect hallowed
  have hreturns := ((threadRunWith_condition hrun).2.1 0 .ok _ _ evs s' hallowed hcode
    hstep).returns 0 0 rfl
  exact ⟨events, s, hrun, hcode, hreturns.2.1⟩

/-- Thread 2 waits on a condition variable and acquires the mutex again, and before it returns
thread `2 ^ 32 + 2`, which has the same number, unlocks it. -/
def stolen : List Action :=
  [.call 0 (.lock 0)] ++ runs 7 ++ [.call 0 .thread] ++ runs 6 ++ [.call 0 (.wait 0 0)] ++ runs 6 ++
    [.call 0 (.signal 0)] ++ runs 6 ++ [.call 0 .yield] ++ runs 11 ++ [.timer 0] ++ runs 6 ++
    [.call 0 (.unlock 0)] ++ runs 6 ++ [.call 0 .yield] ++ runs 5

/-- A thread does not hold the mutex in every run when it returns from `wait`. -/
theorem threadRun_not_condition :
    ¬ ∀ actions events s c v m rest, ThreadRun actions events s → c ∈ s.cpuVec →
      s.current c = .ret (.wait v m) true :: rest → s.free m = false := by
  intro hall
  obtain ⟨before, past, events, s, hrun, -, hcheck⟩ := exists_threadRun_of_check (2 ^ 32 - 1) stolen
    (fun _ s => 0 ∈ s.cpuVec && s.current 0 = [.ret (.wait 0 0) true, .user] && s.free 0 = true)
    (by decide +kernel)
  simp only [Bool.and_eq_true, decide_eq_true_eq] at hcheck
  obtain ⟨⟨hcpu, hcode⟩, hfree⟩ := hcheck
  have hheld := hall _ _ _ 0 0 0 [.user] hrun hcpu hcode
  rw [hfree] at hheld
  cases hheld

end OsFromScratch.Threads
