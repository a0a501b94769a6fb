import OsFromScratch.Lib.WaitsFor
import OsFromScratch.Threads.Mutexes

/-!
# Deadlocks

A thread waits for the one that holds the mutex in whose queue it is, or for the one that it joins.
A thread is deadlocked if it waits, through others, for one that waits for itself, or for one that
has finished without releasing its mutex. Nothing that the library does gets it out of its queue: it
is never run again. If there is nothing to run, then every thread is deadlocked, or waits, through
others, for one that waits on a condition variable.

## Main definitions

* `WaitsFor` — which thread waits for which one.
* `Deadlocked` — a thread that waits for itself, or for one that has finished.

## Main results

* `Effect.stays`, `StepEffect.stays` — which steps take a thread out of a queue.
* `WaitsFor.step` — a thread goes on waiting for one that is not run.
* `threadRun_deadlock` — a thread that is deadlocked is never run again.
* `threadRun_atRest` — why there is nothing to run.
-/

namespace OsFromScratch.Threads

open Function Relation

variable {s s' : State} {c : CpuId} {t x y : ContextId} {q : Queue} {i : Instr} {rest : List Instr}
  {evs tr : List Event} {a : Action} {actions actions' : List Action}
  {events events' : List (List Event)} {m : MutexId} {handed : List ContextId} {X : Set ContextId}

/-- The thread `x` waits until `y` releases a mutex, or finishes. -/
inductive WaitsFor (tr : List Event) (s : State) (x y : ContextId) : Prop
  | mutex {m : MutexId} (hqueue : x ∈ s.queue (.mutex m)) (hheld : holders m tr = [y])
  | join (hqueue : x ∈ s.queue (.join y))

/-- The thread waits, through others, for one that has finished, or for one that waits for
itself. -/
def Deadlocked (tr : List Event) (s : State) (x : ContextId) : Prop :=
  ∃ y, TransGen (WaitsFor tr s) x y ∧ (s.alive y = false ∨ TransGen (WaitsFor tr s) y y)

/-! ### Threads that stay in their queues -/

/-- The thread that the CPU runs takes threads out of a queue. -/
inductive Empties (s : State) (c : CpuId) : Queue → Prop
  | handOff {m : MutexId} (hfree : s.free m = false) (howner : idOf (s.stack c) = s.owner m) :
    Empties s c (.mutex m)
  | wake {v : CvId} : Empties s c (.cv v)
  | exit : Empties s c (.join (s.stack c))

theorem mem_moveReady {q' : Queue} (ts waiting : List ContextId) (hx : x ∈ s.queue q)
    (hq : q ≠ .ready) (hne : q ≠ q') : x ∈ (s.moveReady q' ts waiting).wake.queue q := by
  change x ∈ update (update s.queue q' waiting) .ready _ q
  rw [update_of_ne hq, update_of_ne hne]
  exact hx

/-- A thread that waits stays in its queue, unless the instruction takes threads out of it. -/
theorem Effect.stays (h : Effect s c rest i evs s') (hx : x ∈ s.queue q) (hq : q ≠ .ready) :
    x ∈ s'.queue q ∨ s.lastContext c = some (s.stack c) ∧ Empties s c q := by
  cases h with
  | @handOff m next waiting hlast hfree howner =>
    by_cases hm : q = .mutex m
    · exact Or.inr ⟨hlast, hm ▸ .handOff hfree howner⟩
    · exact Or.inl (mem_moveReady [next] waiting hx hq hm)
  | @blocks _ q' =>
    refine Or.inl ?_
    change x ∈ update (update s.queue q' (s.queue q' ++ [s.stack c])) .ready _ q
    rw [update_of_ne hq]
    by_cases hqq : q = q'
    · rw [← hqq, update_self]
      exact List.mem_append_left _ hx
    · rw [update_of_ne hqq]
      exact hx
  | @wakes _ q' ts waiting _ hlast hi =>
    by_cases hqq : q = q'
    · refine Or.inr ⟨hlast, hqq ▸ ?_⟩
      cases hi with
      | signal => exact .wake
      | broadcast => exact .wake
    · exact Or.inl (mem_moveReady ts waiting hx hq hqq)
  | construct =>
    refine Or.inl ?_
    change x ∈ update s.queue .ready _ q
    rw [update_of_ne hq]
    exact hx
  | exit hlast =>
    by_cases hqt : q = .join (s.stack c)
    · exact Or.inr ⟨hlast, hqt ▸ .exit⟩
    · refine Or.inl ?_
      change x ∈ update (update (update s.queue (.join (s.stack c)) []) .ready _) .ready _ q
      rw [update_of_ne hq, update_of_ne hq, update_of_ne hqt]
      exact hx
  | take =>
    refine Or.inl ?_
    change x ∈ update s.queue .ready _ q
    rw [update_of_ne hq]
    exact hx
  | _ => exact Or.inl hx

/-- A thread that waits stays in its queue, unless the step takes threads out of it. -/
theorem StepEffect.stays (h : StepEffect s a evs s') (hx : x ∈ s.queue q) (hq : q ≠ .ready) :
    x ∈ s'.queue q ∨ ∃ c, s.lastContext c = some (s.stack c) ∧ Empties s c q := by
  cases h with
  | bootThread =>
    refine Or.inl ?_
    change x ∈ update (update s.queue .ready _) .ready _ q
    rw [update_of_ne hq, update_of_ne hq]
    exact hx
  | run _ _ _ heffect => exact (heffect.stays hx hq).imp_right fun hempties => ⟨_, hempties⟩
  | _ => exact Or.inl hx

/-! ### Mutexes whose holders are not run -/

/-- A mutex is acquired by the thread that sets its owner. -/
theorem Effect.acquired (h : Effect s c rest i evs s') (hevs : .act t (.acquired m) ∈ evs) :
    i = .own m ∧ s.lastContext c = some (s.stack c) := by
  cases h with
  | own hlast => simp_all
  | blocks _ hi => cases hi <;> simp at hevs
  | wakes _ hi => cases hi <;> simp at hevs
  | skips hi => cases hi <;> simp at hevs
  | _ => simp at hevs

/-- A mutex is released by the thread whose number is its owner. -/
theorem Effect.released (h : Effect s c rest i evs s') (hevs : .act t (.released m) ∈ evs) :
    s.lastContext c = some (s.stack c) ∧ s.free m = false ∧ idOf (s.stack c) = s.owner m := by
  cases h with
  | release hlast hfree howner => simp_all
  | handOff hlast hfree howner => simp_all
  | blocks _ hi => cases hi <;> simp at hevs
  | wakes _ hi => cases hi <;> simp at hevs
  | skips hi => cases hi <;> simp at hevs
  | _ => simp at hevs

theorem hold_eq {e : Event} {ts : List ContextId} (hacquired : ∀ t, e ≠ .act t (.acquired m))
    (hreleased : ∀ t, e ≠ .act t (.released m)) : Event.hold m ts e = ts := by
  cases e with
  | act t b =>
    cases b with
    | acquired m' => exact if_neg fun heq => hacquired t (by rw [heq])
    | released m' => exact if_neg fun heq => hreleased t (by rw [heq])
    | _ => rfl
  | _ => rfl

/-- A mutex is held by the same thread as long as this thread is not run. -/
theorem MutexOk.holders_step (h : MutexOk tr s m handed) (hsound : Sound s)
    (hids : s.maxId ≤ 2 ^ 32) (heffect : StepEffect s a evs s') (hheld : holders m tr = [y])
    (hy : ∀ c, s.lastContext c ≠ some y) : holders m (tr ++ evs) = [y] := by
  refine (holders_append_of_keep fun e he ts => ?_).trans hheld
  cases heffect with
  | @run c _ i rest _ _ hc _ hcode heffect =>
    refine hold_eq ?_ ?_
    · rintro t rfl
      obtain ⟨rfl, hlast⟩ := heffect.acquired he
      obtain ⟨-, -, -, hnone⟩ := h.handed_of_own hsound hcode hlast
      rw [hheld] at hnone
      cases hnone
    · rintro t rfl
      obtain ⟨hlast, hfree, howner⟩ := heffect.released he
      have hself := (h.holder_iff hsound hids hlast).mp ⟨hfree, howner⟩
      rw [hheld, List.cons.injEq] at hself
      exact hy c (hself.1 ▸ hlast)
  | _ => exact hold_eq (by rintro t rfl; simp at he) (by rintro t rfl; simp at he)

/-- The holder of a mutex is a context that has been constructed. -/
theorem MutexOk.holder_lt (h : MutexOk tr s m handed) (hheld : holders m tr = [y]) :
    y < s.maxId := by
  obtain ⟨-, -, -, -, hnone⟩ | ⟨-, -, t, ht, -, -, hlt⟩ | ⟨-, -, hnone, -⟩ := h.state
  · rw [hheld] at hnone
    cases hnone
  · rw [hheld, List.cons.injEq] at ht
    exact ht.1 ▸ hlt
  · rw [hheld] at hnone
    cases hnone

/-- A context that has been constructed does not become a thread. -/
theorem StepEffect.dead (h : StepEffect s a evs s') (hy : y < s.maxId) (hdead : s.alive y = false) :
    s'.alive y = false := by
  cases h with
  | bootThread =>
    have hne : y ≠ s.maxId + 1 := (hy.trans (Nat.lt_succ_self _)).ne
    exact (update_of_ne hne _ _).trans hdead
  | run _ _ _ heffect =>
    cases heffect with
    | construct => exact (update_of_ne hy.ne _ _).trans hdead
    | exit =>
      change update s.alive _ false y = false
      rw [update_apply, hdead, ite_self]
    | _ => exact hdead
  | _ => exact hdead

/-! ### Threads that wait for each other -/

/-- A thread that waits for one that is not run stays in its queue. -/
theorem WaitsFor.stays (h : WaitsFor tr s x y) (hsound : Sound s) (hids : s.maxId ≤ 2 ^ 32)
    (hok : ∀ m, ∃ handed, MutexOk tr s m handed) (heffect : StepEffect s a evs s')
    (hy : ∀ c, s.lastContext c ≠ some y) (hq : x ∈ s.queue q) : x ∈ s'.queue q := by
  have hsame {q' : Queue} (hq' : x ∈ s.queue q') : q = q' :=
    Sum.inr_injective (hsound.places.disjoint (.inr q) (.inr q') x hq hq')
  cases h with
  | @mutex m hqueue hheld =>
    obtain rfl := hsame hqueue
    refine (heffect.stays hqueue (by simp)).resolve_right ?_
    rintro ⟨c, hlast, hempties⟩
    cases hempties with
    | handOff hfree howner =>
      obtain ⟨handed, hok⟩ := hok m
      have hself := (hok.holder_iff hsound hids hlast).mp ⟨hfree, howner⟩
      rw [hheld, List.cons.injEq] at hself
      exact hy c (hself.1 ▸ hlast)
  | join hqueue =>
    obtain rfl := hsame hqueue
    refine (heffect.stays hqueue (by simp)).resolve_right ?_
    rintro ⟨c, hlast, hempties⟩
    cases hempties with
    | exit => exact hy c hlast

/-- A thread goes on waiting for one that is not run. -/
theorem WaitsFor.step (h : WaitsFor tr s x y) (hsound : Sound s) (hids : s.maxId ≤ 2 ^ 32)
    (hok : ∀ m, ∃ handed, MutexOk tr s m handed) (heffect : StepEffect s a evs s')
    (hy : ∀ c, s.lastContext c ≠ some y) : WaitsFor (tr ++ evs) s' x y := by
  have hstays {q : Queue} (hq : x ∈ s.queue q) : x ∈ s'.queue q :=
    h.stays hsound hids hok heffect hy hq
  cases h with
  | @mutex m hqueue hheld =>
    obtain ⟨handed, hok⟩ := hok m
    exact .mutex (hstays hqueue) (hok.holders_step hsound hids heffect hheld hy)
  | join hqueue => exact .join (hstays hqueue)

/-- Who waits is in a queue. -/
theorem WaitsFor.exists_queue (h : WaitsFor tr s x y) : ∃ q, q ≠ .ready ∧ x ∈ s.queue q := by
  cases h with
  | mutex hqueue => exact ⟨_, by simp, hqueue⟩
  | join hqueue => exact ⟨_, by simp, hqueue⟩

/-- Who is waited for is not a new context. -/
theorem WaitsFor.lt (h : WaitsFor tr s x y) (hsound : Sound s)
    (hok : ∀ m, ∃ handed, MutexOk tr s m handed) : y < s.maxId := by
  cases h with
  | @mutex m _ hheld =>
    obtain ⟨handed, hok⟩ := hok m
    exact hok.holder_lt hheld
  | join hqueue =>
    refine (hsound.alive_lt y ?_).2
    by_contra hdead
    rw [hsound.join_dead y (by simpa using hdead)] at hqueue
    cases hqueue

/-- Threads that are stuck, in their queues. -/
theorem stuck_step (h : Stuck (WaitsFor tr s) (fun y => s.alive y = false) X) (hsound : Sound s)
    (hids : s.maxId ≤ 2 ^ 32) (hok : ∀ m, ∃ handed, MutexOk tr s m handed)
    (heffect : StepEffect s a evs s') :
    Stuck (WaitsFor (tr ++ evs) s') (fun y => s'.alive y = false) X ∧
      ∀ x ∈ X, ∀ q, x ∈ s.queue q → x ∈ s'.queue q := by
  have hidle {y : ContextId} (hy : s.alive y = false ∨ y ∈ X) (c : CpuId) :
      s.lastContext c ≠ some y := by
    intro hlast
    rcases hy with hdead | hy
    · rw [hsound.alive_of_last hlast] at hdead
      cases hdead
    · obtain ⟨z, hyz, -⟩ := h y hy
      obtain ⟨q, -, hmem⟩ := hyz.exists_queue
      exact hsound.not_mem_queue_of_last hlast hmem
  refine ⟨fun x hx => ?_, fun x hx q hq => ?_⟩
  · obtain ⟨y, hxy, hy⟩ := h x hx
    exact ⟨y, hxy.step hsound hids hok heffect (hidle hy),
      hy.imp_left (heffect.dead (hxy.lt hsound hok))⟩
  · obtain ⟨y, hxy, hy⟩ := h x hx
    exact hxy.stays hsound hids hok heffect (hidle hy) hq

/-- A thread is deadlocked just if it is in a set of threads that are stuck. -/
theorem Sound.deadlocked_iff (h : Sound s) :
    Deadlocked tr s x ↔
      ∃ X, x ∈ X ∧ Stuck (WaitsFor tr s) (fun y => s.alive y = false) X := by
  refine (exists_stuck_iff ((Set.finite_lt_nat s.maxId).subset ?_)).symm
  rintro y ⟨z, hyz⟩
  obtain ⟨q, -, hq⟩ := hyz.exists_queue
  exact (h.alive_lt y (h.alive_of_queue hq)).2

/-! ### Runs -/

/-- Threads that are stuck, in a run. -/
theorem stuck_of_runs (hrun : ThreadRun actions events s)
    (hX : Stuck (WaitsFor events.flatten s) (fun y => s.alive y = false) X)
    (hrun' : Runs step (fun _ => Allowed) s actions' events' s') (hids : s'.maxId ≤ 2 ^ 32) :
    Stuck (WaitsFor (events ++ events').flatten s') (fun y => s'.alive y = false) X ∧
      ∀ x ∈ X, ∀ q, x ∈ s.queue q → x ∈ s'.queue q := by
  induction hrun' with
  | nil =>
    rw [List.append_nil]
    exact ⟨hX, fun x _ q hq => hq⟩
  | @snoc actions' events' s₁ s₂ a evs hrun' hallowed hstep ih =>
    have hrun₁ : ThreadRun (actions ++ actions') (events ++ events') s₁ := Runs.append hrun hrun'
    have hsound := threadRun_sound hrun₁
    have heffect := hsound.effect_of_step hallowed hstep
    have hids₁ := heffect.maxId_le.trans hids
    obtain ⟨hX₁, hstay⟩ := ih hids₁
    obtain ⟨hX₂, hstay'⟩ := stuck_step hX₁ hsound hids₁ (hrun₁.mutexOk hids₁) heffect
    rw [← List.append_assoc, List.flatten_append, List.flatten_singleton]
    exact ⟨hX₂, fun x hx q hq => hstay' x hx q (hstay x hx q hq)⟩

/-- In every run that constructs fewer than `2 ^ 32` contexts, a thread that is deadlocked remains
deadlocked whatever the CPUs do. It stays in its queue, and no CPU executes it again. -/
theorem threadRun_deadlock (hrun : ThreadRun actions events s)
    (hx : Deadlocked events.flatten s x)
    (hrun' : Runs step (fun _ => Allowed) s actions' events' s') (hids : s'.maxId ≤ 2 ^ 32) :
    Deadlocked (events ++ events').flatten s' x ∧ (∀ q, x ∈ s.queue q → x ∈ s'.queue q) ∧
      ∀ c ∈ s'.cpuVec, s'.stack c ≠ x := by
  have hsound := threadRun_sound hrun
  have hsound' := threadRun_sound (Runs.append hrun hrun')
  obtain ⟨X, hmem, hX⟩ := hsound.deadlocked_iff.mp hx
  obtain ⟨hX', hstay⟩ := stuck_of_runs hrun hX hrun' hids
  refine ⟨hsound'.deadlocked_iff.mpr ⟨X, hmem, hX'⟩, hstay x hmem, fun c hc heq => ?_⟩
  obtain ⟨y, hxy, -⟩ := hX' x hmem
  obtain ⟨q, -, hq⟩ := hxy.exists_queue
  exact hsound'.stack_not_mem_queue hc (heq ▸ hq)

/-- When there is nothing to run, a thread waits on a condition variable or for another thread. -/
theorem ThreadRun.cases_waits (hrun : ThreadRun actions events s) (hids : s.maxId ≤ 2 ^ 32)
    (hguard : s.guard = none) (hready : s.queue .ready = [])
    (hlast : ∀ c ∈ s.cpuVec, s.lastContext c = none) (ht : s.alive t = true) :
    (∃ v, t ∈ s.queue (.cv v)) ∨ ∃ y, WaitsFor events.flatten s t y := by
  have hsound := threadRun_sound hrun
  obtain ⟨p, hp⟩ := (hsound.places.mem_iff t).mp ht
  rcases p with c | _ | m | v | i
  · have hrun : s.lastContext c = some t := by simpa [State.place] using hp
    rw [hlast c (hsound.mem_of_last hrun)] at hrun
    cases hrun
  · simp [State.place, hready] at hp
  · have hqueue : t ∈ s.queue (.mutex m) := hp
    obtain ⟨handed, hok⟩ := hrun.mutexOk hids m
    obtain ⟨-, -, hempty, -⟩ | ⟨-, -, y, hheld, -⟩ | ⟨-, -, -, y, rfl⟩ := hok.state
    · rw [hempty] at hqueue
      cases hqueue
    · exact Or.inr ⟨y, .mutex hqueue hheld⟩
    · -- the thread that the mutex has been handed to would be ready
      have hdesignated := (hok.designated_iff hsound hrun.queueHeads hguard).mpr
        (List.mem_singleton_self y)
      rw [Designated, hready] at hdesignated
      cases hdesignated.1
  · exact Or.inl ⟨v, hp⟩
  · exact Or.inr ⟨i, .join hp⟩

/-- In every run that constructs fewer than `2 ^ 32` contexts, if there is nothing to run then each
thread is deadlocked, or waits, through others, for one that waits on a condition variable. -/
theorem threadRun_atRest (hrun : ThreadRun actions events s) (hids : s.maxId ≤ 2 ^ 32)
    (hguard : s.guard = none) (hready : s.queue .ready = [])
    (hlast : ∀ c ∈ s.cpuVec, s.lastContext c = none) (t : ContextId) (halive : s.alive t = true) :
    (∃ u v, ReflTransGen (WaitsFor events.flatten s) t u ∧ u ∈ s.queue (.cv v)) ∨
      Deadlocked events.flatten s t := by
  have hsound := threadRun_sound hrun
  rw [hsound.deadlocked_iff]
  by_contra hnone
  obtain ⟨hcv, hstuck⟩ := not_or.mp hnone
  refine hstuck ⟨{t | s.alive t = true ∧ ¬∃ u v,
    ReflTransGen (WaitsFor events.flatten s) t u ∧ u ∈ s.queue (.cv v)}, ⟨halive, hcv⟩, ?_⟩
  rintro x ⟨hx, hcv'⟩
  rcases hrun.cases_waits hids hguard hready hlast hx with ⟨v, hv⟩ | ⟨y, hxy⟩
  · exact absurd ⟨x, v, .refl, hv⟩ hcv'
  · refine ⟨y, hxy, ?_⟩
    cases hy : s.alive y with
    | false => exact Or.inl hy
    | true =>
      refine Or.inr ⟨hy, ?_⟩
      rintro ⟨u, v, hyu, hu⟩
      exact hcv' ⟨u, v, .head hxy hyu, hu⟩

/-- A thread locks a mutex that it holds. -/
def lockTwice : List Action :=
  [.boot 0 true] ++ runs 2 ++ [.call 0 (.lock 0)] ++ runs 7 ++ [.call 0 (.lock 0)] ++ runs 5

/-- The thread waits for itself, the CPU has nothing to run and is suspended. -/
theorem exists_lockTwice :
    ∃ events s events' s', ThreadRun lockTwice events s ∧
      Runs step (fun _ => Allowed) s [.run 0 .ok] events' s' ∧ s.maxId ≤ 2 ^ 32 ∧
      s'.maxId ≤ 2 ^ 32 ∧ s.guard = none ∧ s.queue .ready = [] ∧
      (∀ c ∈ s.cpuVec, s.lastContext c = none) ∧ s.alive 2 = true ∧
      Deadlocked events.flatten s 2 := by
  obtain ⟨events, s, hrun, hcheck⟩ := ThreadRun.of_check lockTwice
    (fun events s => s.maxId ≤ 2 ^ 32 && s.guard = none && s.queue .ready = [] &&
      (s.cpuVec.all fun c => s.lastContext c = none) && s.alive 2 && 2 ∈ s.queue (.mutex 0) &&
      holders 0 events.flatten = [2] &&
      (runAll step (fun s a => decide (Allowed s a)) [.run 0 .ok] s).any
        fun r => r.2.maxId ≤ 2 ^ 32) (by decide +kernel)
  simp only [Bool.and_eq_true, decide_eq_true_eq, List.all_eq_true] at hcheck
  obtain ⟨⟨⟨⟨⟨⟨⟨hids, hguard⟩, hready⟩, hlast⟩, halive⟩, hqueue⟩, hheld⟩, hnext⟩ := hcheck
  obtain ⟨⟨events', s'⟩, hrun', hids'⟩ := (Option.any_eq_true _ _).mp hnext
  have hself : WaitsFor events.flatten s 2 2 := .mutex hqueue hheld
  exact ⟨events, s, events', s', hrun,
    Runs.of_runAll (fun _ _ _ hallowed => of_decide_eq_true hallowed) hrun', hids,
    of_decide_eq_true hids', hguard, hready, hlast, halive, 2, .single hself,
    Or.inr (.single hself)⟩

theorem threadRun_deadlock_lockTwice :
    ∃ events s, ThreadRun lockTwice events s ∧ Deadlocked events.flatten s 2 ∧
      ∃ events' s', Runs step (fun _ => Allowed) s [.run 0 .ok] events' s' ∧
        Deadlocked (events ++ events').flatten s' 2 := by
  obtain ⟨events, s, events', s', hrun, hrun', -, hids, -, -, -, -, hdead⟩ := exists_lockTwice
  exact ⟨events, s, hrun, hdead, events', s', hrun',
    (threadRun_deadlock hrun hdead hrun' hids).1⟩

theorem threadRun_atRest_lockTwice :
    ∃ events s, ThreadRun lockTwice events s ∧
      ((∃ u v, ReflTransGen (WaitsFor events.flatten s) 2 u ∧ u ∈ s.queue (.cv v)) ∨
        Deadlocked events.flatten s 2) := by
  obtain ⟨events, s, -, -, hrun, -, hids, -, hguard, hready, hlast, halive, -⟩ := exists_lockTwice
  exact ⟨events, s, hrun, threadRun_atRest hrun hids hguard hready hlast 2 halive⟩

end OsFromScratch.Threads
