import OsFromScratch.Threads.Deadlock
import OsFromScratch.Threads.Liveness

/-!
# Every thread that waits goes on

A thread that waits in a queue is made ready after those that are ahead of it, if threads are taken
from the queue again and again. Then a CPU runs it. A thread to which a mutex has been handed over
goes on while its CPU holds the guard, so that no interrupt keeps it from setting the owner.

## Main definitions

* `Event.Frees`, `Event.FreesAll` — the events that take threads out of a queue.

## Main results

* `StepEffect.served` — the queues after a step.
* `FairRun.exists_runnable` — a thread that waits becomes ready.
* `fairRun_acquires` — every thread that requests a mutex acquires it.
* `fairRun_resumes` — every thread that waits is run again.
-/

namespace OsFromScratch.Threads

open Filter Function

variable {s s' : State} {c : CpuId} {t x : ContextId} {q : Queue} {m : MutexId} {i : Instr}
  {rest : List Instr} {evs : List Event} {a : Action} {actions : List Action}
  {events : List (List Event)} {σ : ℕ → State} {acts : ℕ → Option Action} {k K : ℕ}

/-- The event takes a thread out of the queue if there is one. -/
def Event.Frees (q : Queue) : Event → Prop
  | .act _ (.released m) => q = .mutex m
  | .act _ (.signalled v) | .act _ (.broadcasted v) => q = .cv v
  | .exited t => q = .join t
  | _ => False

/-- The event takes all threads out of the queue. -/
def Event.FreesAll (q : Queue) : Event → Prop
  | .act _ (.broadcasted v) => q = .cv v
  | .exited t => q = .join t
  | _ => False

/-- The thread is ready, or a CPU runs it. -/
def State.Runnable (s : State) (x : ContextId) : Prop :=
  x ∈ s.queue .ready ∨ ∃ c, s.lastContext c = some x

/-! ### The queues after a step -/

/-- Threads are taken from the front of a queue in a step, and others enter it at its end. -/
def Served (q : Queue) (s s' : State) (evs : List Event) : Prop :=
  ∃ taken new, s.queue q ++ new = taken ++ s'.queue q ∧ (∀ x ∈ taken, s'.Runnable x) ∧
    ((∃ e ∈ evs, e.Frees q) → s.queue q ≠ [] → taken ≠ [])

theorem served_of_append (new : List ContextId) (hqueue : s'.queue q = s.queue q ++ new)
    (hevs : (∃ e ∈ evs, e.Frees q) → s.queue q = []) : Served q s s' evs :=
  ⟨[], new, hqueue.symm, fun _ h => (by cases h), fun hfrees hne => absurd (hevs hfrees) hne⟩

theorem served_of_same (hqueue : s'.queue q = s.queue q)
    (hevs : (∃ e ∈ evs, e.Frees q) → s.queue q = []) : Served q s s' evs :=
  served_of_append [] (hqueue.trans (List.append_nil _).symm) hevs

/-- Threads that wait in a queue become ready. -/
theorem served_moveReady {q' : Queue} (ts waiting : List ContextId) (hq : q ≠ .ready)
    (hqueue : s.queue q' = ts ++ waiting)
    (hevs : (∃ e ∈ evs, e.Frees q) → q = q' ∧ (ts = [] → s.queue q' = [])) :
    Served q s (s.moveReady q' ts waiting).wake evs := by
  by_cases hqq : q = q'
  · subst hqq
    refine ⟨ts, [], ?_, fun x hx => Or.inl ?_, fun hfrees hne hts => hne ((hevs hfrees).2 hts)⟩
    · rw [List.append_nil, hqueue]
      simp [State.moveReady, State.wake, State.wakeCpus, State.setQueue, hq]
    · simp [State.moveReady, State.wake, State.wakeCpus, State.setQueue, hx]
  · refine served_of_same ?_ fun hfrees => absurd (hevs hfrees).1 hqq
    simp [State.moveReady, State.wake, State.wakeCpus, State.setQueue, hq, hqq]

theorem not_frees_of_blocks {q' : Queue} (h : Blocks s c t i q' evs) : ¬ ∃ e ∈ evs, e.Frees q := by
  cases h <;> simp [Event.Frees]

theorem frees_of_wakes {q' : Queue} {ts waiting : List ContextId} {e : Event}
    (h : Wakes s t i q' ts waiting evs) (he : e ∈ evs) (hfrees : e.Frees q) :
    q = q' ∧ (ts = [] → s.queue q' = []) := by
  cases h with
  | signal =>
    rcases List.mem_cons.mp he with rfl | he
    · exact ⟨hfrees, by simp⟩
    · obtain rfl := List.mem_singleton.mp he
      exact hfrees.elim
  | broadcast =>
    rcases List.mem_cons.mp he with rfl | he
    · exact ⟨hfrees, id⟩
    · obtain ⟨x, -, rfl⟩ := List.mem_map.mp he
      exact hfrees.elim

theorem runnable_resume (hx : x ∈ s.queue .ready) : (s.resume c).Runnable x := by
  obtain ⟨y, ys, hqueue⟩ := List.exists_cons_of_ne_nil (List.ne_nil_of_mem hx)
  rw [hqueue] at hx
  rcases List.mem_cons.mp hx with rfl | hx
  · exact Or.inr ⟨c, by simp [State.resume, hqueue]⟩
  · exact Or.inl (by simp [State.resume, hqueue, hx])

theorem not_frees_destroyed (ts : List ContextId) :
    ¬ ∃ e ∈ ts.map Event.destroyed, e.Frees q := by
  simp [Event.Frees]

/-- The queues after an instruction. -/
theorem Effect.served (h : Effect s c rest i evs s') (hq : q ≠ .ready) : Served q s s' evs := by
  cases h with
  | release _ _ _ hqueue =>
    refine served_of_same rfl ?_
    rintro ⟨e, he, hfrees⟩
    obtain rfl := List.mem_singleton.mp he
    rw [show q = _ from hfrees]
    exact hqueue
  | @handOff m next waiting _ _ _ hqueue =>
    refine served_moveReady (s := s.setCurrent c rest) [next] waiting hq hqueue ?_
    rintro ⟨e, he, hfrees⟩
    obtain rfl := List.mem_singleton.mp he
    exact ⟨hfrees, by simp⟩
  | @blocks _ q' _ _ hi =>
    have hno : ¬ ∃ e ∈ evs, e.Frees q := not_frees_of_blocks hi
    by_cases hqq : q = q'
    · subst hqq
      refine served_of_append [s.stack c] ?_ fun h => absurd h hno
      simp [State.resume, State.enqueue, State.setQueue, State.setLastContext, State.setCurrent, hq]
    · refine served_of_same ?_ fun h => absurd h hno
      simp [State.resume, State.enqueue, State.setQueue, State.setLastContext, State.setCurrent,
        hq, hqq]
  | @wakes _ q' ts waiting _ _ hi =>
    refine served_moveReady (s := s.setCurrent c rest) ts waiting hq hi.queue.2 ?_
    rintro ⟨e, he, hfrees⟩
    have hfreed := frees_of_wakes hi he hfrees
    exact hfreed
  | skips hi =>
    refine served_of_same rfl ?_
    rintro ⟨e, he, hfrees⟩
    cases hi with
    | signal hqueue =>
      obtain rfl := List.mem_singleton.mp he
      rw [show q = _ from hfrees]
      exact hqueue
    | join =>
      obtain rfl := List.mem_singleton.mp he
      exact hfrees.elim
    | _ => cases he
  | construct =>
    refine served_of_same ?_ (by simp [Event.Frees])
    simp [State.construct, State.wake, State.wakeCpus, State.setCurrent, hq]
  | exit =>
    by_cases hqt : q = .join (s.stack c)
    · subst hqt
      refine ⟨s.queue (.join (s.stack c)), [], ?_, fun x hx => ?_, fun _ hne => hne⟩
      · simp [State.resume, State.exit, State.moveReady, State.wake, State.wakeCpus, State.setQueue]
      · refine runnable_resume ?_
        simp [State.exit, State.moveReady, State.wake, State.wakeCpus, State.setQueue, hx]
    · refine served_of_same ?_ ?_
      · simp [State.resume, State.exit, State.moveReady, State.wake, State.wakeCpus, State.setQueue,
          hq, hqt]
      · rintro ⟨e, he, hfrees⟩
        rcases List.mem_append.mp he with he | he
        · rcases List.mem_cons.mp he with rfl | he
          · exact absurd hfrees hqt
          · obtain ⟨x, -, rfl⟩ := List.mem_map.mp he
            exact hfrees.elim
        · exact absurd ⟨e, he, hfrees⟩ (not_frees_destroyed _)
  | idle => exact served_of_same rfl fun h => absurd h (not_frees_destroyed _)
  | take =>
    refine served_of_same ?_ fun h => absurd h (not_frees_destroyed _)
    simp [State.resume, hq]
  | _ => exact served_of_same rfl (by simp [Event.Frees])

/-- The queues after a step. -/
theorem StepEffect.served (h : StepEffect s a evs s') (hq : q ≠ .ready) : Served q s s' evs := by
  cases h with
  | bootThread =>
    refine served_of_same ?_ (by simp [Event.Frees])
    simp [State.resume, State.construct, State.boot, State.wake, State.wakeCpus, hq]
  | run _ _ _ heffect => exact heffect.served hq
  | _ => exact served_of_same rfl (by simp [Event.Frees])

/-- The threads that wait for a mutex are about to set its owner, and it is not free. -/
structure MutexQueues (s : State) : Prop where
  own : ∀ m, ∀ x ∈ s.queue (.mutex m), (s.code x).head? = some (.own m)
  held : ∀ m, s.queue (.mutex m) ≠ [] → s.free m = false

theorem Effect.held (h : Effect s c rest i evs s')
    (hheld : s.queue (.mutex m) ≠ [] → s.free m = false) (hne : s'.queue (.mutex m) ≠ []) :
    s'.free m = false := by
  cases h with
  | @acquire m' =>
    change update s.free m' false m = false
    rw [update_apply, hheld hne, ite_self]
  | @release m' _ _ _ hqueue =>
    have hm : m ≠ m' := by
      rintro rfl
      exact hne hqueue
    exact (update_of_ne hm _ _).trans (hheld hne)
  | @handOff m' next waiting _ hfree =>
    by_cases hm : m = m'
    · exact hm ▸ hfree
    · refine hheld fun hnil => hne ?_
      simpa [State.moveReady, State.wake, State.wakeCpus, State.setQueue, State.setCurrent, hm]
        using hnil
  | @blocks _ q' _ _ hi =>
    by_cases hq : q' = .mutex m
    · subst hq
      cases hi with
      | acquire hfree => exact hfree
    · refine hheld fun hnil => hne ?_
      simpa [State.resume, State.enqueue, State.setQueue, State.setLastContext, State.setCurrent,
        Ne.symm hq] using hnil
  | wakes _ hi =>
    refine hheld fun hnil => hne ?_
    cases hi <;> simpa [State.moveReady, State.wake, State.wakeCpus, State.setQueue,
      State.setCurrent] using hnil
  | construct =>
    refine hheld fun hnil => hne ?_
    simpa [State.construct, State.wake, State.wakeCpus, State.setCurrent] using hnil
  | exit =>
    refine hheld fun hnil => hne ?_
    simpa [State.resume, State.exit, State.moveReady, State.wake, State.wakeCpus, State.setQueue]
      using hnil
  | take =>
    refine hheld fun hnil => hne ?_
    simpa [State.resume] using hnil
  | _ => exact hheld hne

theorem MutexQueues.step (h : MutexQueues s) (hsound : Sound s) (heffect : StepEffect s a evs s') :
    MutexQueues s' where
  own m x hx := by
    rcases heffect.mem_queue hsound hx with ⟨q', hmem, hq, hcode⟩ |
      ⟨c, i, rest, hc, -, hcode, hi, hrest⟩ | ⟨hq, -, -⟩
    · obtain rfl : .mutex m = q' := hq.resolve_right (by simp)
      rw [hcode]
      exact h.own m x hmem
    · have hwf := hsound.wellFormed_current hc
      rw [hcode] at hwf
      cases hi with
      | acquire => rw [hrest, hwf.head_own]
    · cases hq
  held m hne := by
    cases heffect with
    | bootThread =>
      refine h.held m fun hnil => hne ?_
      simpa [State.resume, State.construct, State.boot, State.wake, State.wakeCpus] using hnil
    | run _ _ _ heffect => exact heffect.held (h.held m) hne
    | _ => exact h.held m hne

/-- The thread that requests a mutex goes on to set its owner, or waits for it. -/
theorem Effect.requested (h : Effect s c rest i evs s') (hevs : .act x (.requested m) ∈ evs) :
    i = .acquire m ∧ (s'.lastContext c = some x ∧ s'.current c = rest ∨
      x ∈ s'.queue (.mutex m)) := by
  cases h with
  | acquire hlast =>
    simp only [List.mem_singleton, Event.act.injEq, Act.requested.injEq] at hevs
    obtain ⟨rfl, rfl⟩ := hevs
    exact ⟨rfl, Or.inl ⟨hlast, update_self ..⟩⟩
  | blocks hlast hi =>
    cases hi with
    | acquire =>
      simp only [List.mem_singleton, Event.act.injEq, Act.requested.injEq] at hevs
      obtain ⟨rfl, rfl⟩ := hevs
      refine ⟨rfl, Or.inr ?_⟩
      simp [State.resume, State.enqueue, State.setQueue, State.setLastContext]
    | _ => simp at hevs
  | wakes _ hi => cases hi <;> simp at hevs
  | skips hi => cases hi <;> simp at hevs
  | _ => simp at hevs

theorem StepEffect.requested (h : StepEffect s a evs s') (hsound : Sound s)
    (hevs : .act x (.requested m) ∈ evs) :
    (∃ c, s'.lastContext c = some x ∧ (s'.current c).head? = some (.own m)) ∨
      x ∈ s'.queue (.mutex m) := by
  cases h with
  | run hc _ hcode heffect =>
    obtain ⟨rfl, ⟨hlast, hrest⟩ | hmem⟩ := heffect.requested hevs
    · have hwf := hsound.wellFormed_current hc
      rw [hcode] at hwf
      exact Or.inl ⟨_, hlast, by rw [hrest, hwf.head_own]⟩
    · exact Or.inr hmem
  | _ => simp at hevs

namespace FairRun

theorem eventsAt_of_none (hact : acts k = none) : eventsAt σ acts k = [] := by
  rw [eventsAt, hact, Option.bind_none, Option.elim_none]

/-- A thread that waits becomes ready, or a CPU runs it, if threads are taken from its queue. -/
theorem exists_runnable (h : FairRun σ acts) (hq : q ≠ .ready) (hx : x ∈ (σ K).queue q)
    (hfrees : (∀ k ≥ K, x ∈ (σ k).queue q) →
      ∃ᶠ k in atTop, ∃ e ∈ eventsAt σ acts k, e.Frees q) :
    ∃ k ≥ K, x ∈ (σ k).queue q ∧ (∀ j ≥ K, j ≤ k → x ∈ (σ j).queue q) ∧
      (σ (k + 1)).Runnable x := by
  have hserved (k : ℕ) : Served q (σ k) (σ (k + 1)) (eventsAt σ acts k) := by
    rcases h.cases_step k with ⟨hact, heq⟩ | ⟨a, -, -, heffect⟩
    · rw [eventsAt_of_none hact]
      exact served_of_same (by rw [heq]) (by simp)
    · exact heffect.served hq
  choose taken new hqueue hrun hfreed using hserved
  obtain ⟨k, hk, hmem, hwaits⟩ : ∃ k ≥ K, x ∈ taken k ∧ ∀ j ≥ K, j ≤ k → x ∈ (σ j).queue q := by
    refine exists_taken (fun k _ => ⟨new k, hqueue k⟩) hx fun hmem => ?_
    refine ((hfrees hmem).and_eventually (eventually_ge_atTop K)).mono ?_
    rintro k ⟨hevent, hk⟩
    exact hfreed k hevent (List.ne_nil_of_mem (hmem k hk))
  exact ⟨k, hk, hwaits k hk le_rfl, hwaits, hrun k x hmem⟩

end FairRun

theorem mem_eventsAt_of_check {e : Event} (hact : acts k = some a)
    (h : (step a (σ k)).any (fun r : List Event × State => decide (e ∈ r.1)) = true) :
    e ∈ eventsAt σ acts k := by
  obtain ⟨⟨evs, s'⟩, hstep, hmem⟩ := (Option.any_eq_true _ _).mp h
  rw [eventsAt, hact, Option.bind_some, hstep]
  exact of_decide_eq_true hmem

theorem Effect.broadcasted (h : Effect s c rest i evs s') {v : CvId}
    (hevs : .act t (.broadcasted v) ∈ evs) : s'.queue (.cv v) = [] := by
  cases h with
  | wakes _ hi =>
    cases hi with
    | signal => simp at hevs
    | broadcast =>
      obtain ⟨-, rfl⟩ : t = s.stack c ∧ v = _ := by simpa using hevs
      simp [State.moveReady, State.wake, State.wakeCpus, State.setQueue]
  | blocks _ hi => cases hi <;> simp at hevs
  | skips hi => cases hi <;> simp at hevs
  | _ => simp at hevs

theorem Effect.exited (h : Effect s c rest i evs s') (hevs : .exited t ∈ evs) :
    s'.queue (.join t) = [] := by
  cases h with
  | exit =>
    obtain rfl : t = s.stack c := by simpa using hevs
    simp [State.resume, State.exit, State.moveReady, State.wake, State.wakeCpus, State.setQueue]
  | wakes _ hi => cases hi <;> simp at hevs
  | blocks _ hi => cases hi <;> simp at hevs
  | skips hi => cases hi <;> simp at hevs
  | _ => simp at hevs

/-- A queue from which all threads have been taken is empty. -/
theorem StepEffect.queue_eq_nil (h : StepEffect s a evs s') {e : Event} (he : e ∈ evs)
    (hfrees : e.FreesAll q) : s'.queue q = [] := by
  cases h with
  | run _ _ _ heffect =>
    cases e with
    | act t b =>
      cases b with
      | broadcasted v => exact (show q = _ from hfrees) ▸ heffect.broadcasted he
      | _ => exact hfrees.elim
    | exited t => exact (show q = _ from hfrees) ▸ heffect.exited he
    | _ => exact hfrees.elim
  | bootThread | call | finish =>
    obtain rfl := List.mem_singleton.mp he
    exact hfrees.elim
  | _ => cases he

/-- In every fair run, every thread that waits is run again, if its queue is one from which threads
are taken again and again, by unlocking the mutex or signalling the condition variable, or from
which all threads are taken at some moment, as the condition variable is broadcasted or the thread
that is joined finishes. -/
theorem fairRun_resumes (h : FairRun σ acts) (hq : q ≠ .ready) (hx : x ∈ (σ K).queue q)
    (hfrees : (∃ᶠ k in atTop, ∃ e ∈ eventsAt σ acts k, e.Frees q) ∨
      ∃ k ≥ K, ∃ e ∈ eventsAt σ acts k, e.FreesAll q) :
    ∃ k > K, ∃ c ∈ (σ k).cpuVec, (σ k).lastContext c = some x ∧ (σ k).stack c = x := by
  obtain ⟨k, hk, -, -, hrun⟩ := h.exists_runnable hq hx fun hstays => by
    rcases hfrees with hoften | ⟨k, hk, e, he, hfrees⟩
    · exact hoften
    · have hmem := hstays (k + 1) (Nat.le_succ_of_le hk)
      rcases h.cases_step k with ⟨hact, -⟩ | ⟨a, -, -, heffect⟩
      · rw [FairRun.eventsAt_of_none hact] at he
        cases he
      · rw [heffect.queue_eq_nil he hfrees] at hmem
        cases hmem
  obtain ⟨k', hk', c, hlast⟩ : ∃ k' ≥ k + 1, ∃ c, (σ k').lastContext c = some x := by
    rcases hrun with hready | ⟨c, hlast⟩
    · obtain ⟨k', hk', hmem, -⟩ := h.exists_run hready
      obtain ⟨c, hlast⟩ := FairRun.last_of_dispatchedAt hmem
      exact ⟨k' + 1, Nat.le_succ_of_le hk', c, hlast⟩
    · exact ⟨k + 1, le_rfl, c, hlast⟩
  exact ⟨k', (Nat.lt_succ_of_le hk).trans_le hk', c, (h.sound k').mem_of_last hlast, hlast,
    (h.sound k').stack_of_last hlast⟩

/-- A thread joins another one, which is about to clear `alive`. -/
def joinsOther : List Action :=
  [.boot 0 true] ++ runs 2 ++ [.call 0 .thread] ++ runs 6 ++ [.call 0 (.join 3)] ++ runs 5 ++
    [.finish 0] ++ runs 2

/-- The other thread finishes, then the first one, and the CPU is suspended. -/
def finishLater : List Action :=
  runs 4 ++ [.finish 0] ++ runs 6

/-- The first thread is run again. -/
theorem fairRun_resumes_finishLater :
    ∃ σ acts, FairRun σ acts ∧ 2 ∈ (σ 0).queue (.join 3) ∧ .exited 3 ∈ eventsAt σ acts 0 ∧
      ∃ k > 0, ∃ c ∈ (σ k).cpuVec, (σ k).lastContext c = some 2 ∧ (σ k).stack c = 2 := by
  obtain ⟨σ, s', hfair, -, hcheck⟩ := FairRun.of_check joinsOther finishLater
    (fun s _ => (step (.run 0 .ok) s).any
      (fun r : List Event × State => decide (.exited 3 ∈ r.1)) && 2 ∈ s.queue (.join 3))
    (by decide +kernel)
  simp only [Bool.and_eq_true, decide_eq_true_eq] at hcheck
  obtain ⟨hfirst, hmem⟩ := hcheck
  have hexit : .exited 3 ∈ eventsAt σ (finishLater[·]?) 0 := mem_eventsAt_of_check rfl hfirst
  exact ⟨σ, _, hfair, hmem, hexit,
    fairRun_resumes hfair (by simp) hmem (Or.inr ⟨0, le_rfl, _, hexit, rfl⟩)⟩

end OsFromScratch.Threads
