import OsFromScratch.Threads.Steps

/-!
# The queues after a step

Where a context that is in a queue after a step comes from, and which contexts may be in a queue.
The queues of the condition variables and of the threads that are joined have the contexts that have
entered them and not left them since, in the order in which they have entered them.

## Main definitions

* `waiting` — the threads that have entered a queue and not left it since.

## Main results

* `StepEffect.mem_queue` — a context has been in a queue before, or it has been put there by its
  thread, or it is new.
* `ThreadRun.queueHeads` — a context that is about to set the owner of a mutex is in the ready queue
  or in the waiting queue of the mutex.
* `ThreadRun.queue_eq` — the queues of the condition variables and of the threads that are joined.
-/

namespace OsFromScratch.Threads

open Function

variable {s s' : State} {c c' : CpuId} {t x : ContextId} {q : Queue} {i : Instr}
    {l rest : List Instr}
  {evs tr : List Event} {actions : List Action} {events : List (List Event)}

theorem mem_queue_resume (hx : x ∈ (s.resume c).queue q) : x ∈ s.queue q := by
  by_cases hq : q = .ready
  · subst hq
    exact List.mem_of_mem_tail (by simpa [State.resume] using hx)
  · simpa [State.resume, hq] using hx

theorem mem_queue_enqueue {q' : Queue} (hx : x ∈ (s.enqueue q' c t).queue q) :
    x ∈ s.queue q ∨ q = q' ∧ x = t := by
  by_cases hq : q = q'
  · subst hq
    simpa [State.enqueue, State.setQueue, State.setLastContext] using hx
  · exact Or.inl (by simpa [State.enqueue, State.setQueue, State.setLastContext, hq] using hx)

theorem mem_queue_moveReady {q' : Queue} (ts waiting : List ContextId) (hq' : q' ≠ .ready)
    (hqueue : s.queue q' = ts ++ waiting) (hx : x ∈ (s.moveReady q' ts waiting).wake.queue q) :
    x ∈ s.queue q ∨ q = .ready ∧ x ∈ s.queue q' := by
  change x ∈ update (update s.queue q' waiting) .ready (s.queue .ready ++ ts) q at hx
  by_cases hready : q = .ready
  · subst hready
    rw [update_self, List.mem_append] at hx
    exact hx.imp_right fun hx => ⟨rfl, hqueue ▸ List.mem_append_left waiting hx⟩
  · rw [update_of_ne hready] at hx
    by_cases hq : q = q'
    · subst hq
      rw [update_self] at hx
      exact Or.inl (hqueue ▸ List.mem_append_right ts hx)
    · rw [update_of_ne hq] at hx
      exact Or.inl hx

/-- A context that is in a queue after a step has been in a queue before, or it has been put there
by an instruction of its thread, or it is a new thread. -/
theorem StepEffect.mem_queue {a : Action} (h : StepEffect s a evs s') (hsound : Sound s)
    (hx : x ∈ s'.queue q) :
    (∃ q', x ∈ s.queue q' ∧ (q = q' ∨ q = .ready) ∧ s'.code x = s.code x) ∨
    (∃ c i rest, c ∈ s.cpuVec ∧ s.lastContext c = some x ∧ s.current c = i :: rest ∧
      Blocks s c x i q evs ∧ s'.code x = rest) ∨
    q = .ready ∧ s'.code x = startCode ∧ .created x ∈ evs := by
  have hne {c : CpuId} {q' : Queue} (hc : c ∈ s.cpuVec) (hx : x ∈ s.queue q') : x ≠ s.stack c :=
    fun heq => hsound.stack_not_mem_queue hc (heq ▸ hx)
  have hold {q' : Queue} (hx : x ∈ s.queue q') (hq : q = q' ∨ q = .ready)
      (hcode : s'.code x = s.code x) :
      (∃ q', x ∈ s.queue q' ∧ (q = q' ∨ q = .ready) ∧ s'.code x = s.code x) ∨
      (∃ c i rest, c ∈ s.cpuVec ∧ s.lastContext c = some x ∧ s.current c = i :: rest ∧
        Blocks s c x i q evs ∧ s'.code x = rest) ∨
      q = .ready ∧ s'.code x = startCode ∧ .created x ∈ evs := Or.inl ⟨q', hx, hq, hcode⟩
  have hfresh {q' : Queue} (hx : x ∈ s.queue q') : x ≠ s.maxId := fun heq =>
    hsound.maxId_not_mem_queue (heq ▸ hx)
  have hfresh' {q' : Queue} (hx : x ∈ s.queue q') : x ≠ s.maxId + 1 := fun heq => by
    have hlt := (hsound.alive_lt x (hsound.alive_of_queue hx)).2
    rw [heq] at hlt
    exact absurd hlt (Nat.not_lt.mpr (Nat.le_succ _))
  cases h with
  | bootSpin => exact hold hx (Or.inl rfl) rfl
  | bootThread hc hguard =>
    have hmem := mem_queue_resume hx
    by_cases hq : q = .ready
    · subst hq
      have hmem' : x ∈ s.queue .ready ++ [s.maxId + 1] := by
        simpa [State.construct, State.boot, State.wake, State.wakeCpus] using hmem
      rcases List.mem_append.mp hmem' with hmem' | hmem'
      · refine hold hmem' (Or.inl rfl) ?_
        exact (update_of_ne (hfresh' hmem') _ _).trans (update_of_ne (hfresh hmem') _ _)
      · obtain rfl := List.mem_singleton.mp hmem'
        exact Or.inr (Or.inr ⟨rfl, update_self _ _ _, by simp⟩)
    · have hmem' : x ∈ s.queue q := by
        simpa [State.construct, State.boot, State.wake, State.wakeCpus, hq] using hmem
      refine hold hmem' (Or.inl rfl) ?_
      exact (update_of_ne (hfresh' hmem') _ _).trans (update_of_ne (hfresh hmem') _ _)
  | bootIdle hc hguard =>
    have hmem : x ∈ s.queue q := hx
    exact hold hmem (Or.inl rfl) (update_of_ne (hfresh hmem) _ _)
  | @run c alloc i rest evs s' hc _ hcode heffect =>
    have hpop {q' : Queue} (hx : x ∈ s.queue q') (l : List Instr) :
        (s.setCurrent c l).code x = s.code x := Sound.code_setCurrent_of_ne s c l (hne hc hx)
    cases heffect with
    | spin => exact hold hx (Or.inl rfl) rfl
    | handOff _ _ _ hqueue =>
      rcases mem_queue_moveReady [_] _ (by simp) hqueue hx with hmem | ⟨hq, hmem⟩
      · exact hold hmem (Or.inl rfl) (hpop hmem rest)
      · exact hold hmem (Or.inr hq) (hpop hmem rest)
    | blocks hlast hi =>
      rcases mem_queue_enqueue (mem_queue_resume hx) with hmem | ⟨rfl, rfl⟩
      · exact hold hmem (Or.inl rfl) (hpop hmem rest)
      · exact Or.inr (Or.inl ⟨c, i, rest, hc, hlast, hcode, hi, update_self _ _ _⟩)
    | wakes hlast hi =>
      rcases mem_queue_moveReady _ _ hi.queue.1 hi.queue.2 hx with hmem | ⟨hq, hmem⟩
      · exact hold hmem (Or.inl rfl) (hpop hmem rest)
      · exact hold hmem (Or.inr hq) (hpop hmem rest)
    | construct hlast =>
      by_cases hq : q = .ready
      · subst hq
        have hmem : x ∈ s.queue .ready ++ [s.maxId] := by
          simpa [State.construct, State.setCurrent, State.wake, State.wakeCpus] using hx
        rcases List.mem_append.mp hmem with hmem | hmem
        · exact hold hmem (Or.inl rfl) ((update_of_ne (hfresh hmem) _ _).trans (hpop hmem rest))
        · obtain rfl := List.mem_singleton.mp hmem
          exact Or.inr (Or.inr ⟨rfl, update_self _ _ _, by simp⟩)
      · have hmem : x ∈ s.queue q := by
          simpa [State.construct, State.setCurrent, State.wake, State.wakeCpus, hq] using hx
        exact hold hmem (Or.inl rfl) ((update_of_ne (hfresh hmem) _ _).trans (hpop hmem rest))
    | exit hlast =>
      have hmoved : x ∈ (s.exit c (s.stack c)).queue q := mem_queue_resume hx
      rcases mem_queue_moveReady (s.queue (.join (s.stack c))) [] (by simp) (List.append_nil _).symm
        hmoved with hmem | ⟨hq, hmem⟩
      · exact hold hmem (Or.inl rfl) (hpop hmem [])
      · exact hold hmem (Or.inr hq) (hpop hmem [])
    | idle =>
      have hmem : x ∈ s.queue q := hx
      exact hold hmem (Or.inl rfl) (hpop hmem idleCode)
    | take =>
      have hmem := mem_queue_resume (s := { s with toKill := update s.toKill c none }) hx
      exact hold hmem (Or.inl rfl) rfl
    | refused =>
      have hmem : x ∈ s.queue q := hx
      exact hold hmem (Or.inl rfl) (hpop hmem (throwCode rest))
    | badAlloc =>
      have hmem : x ∈ s.queue q := hx
      exact hold hmem (Or.inl rfl) (hpop hmem (throwCode rest))
    | _ =>
      have hmem : x ∈ s.queue q := hx
      exact hold hmem (Or.inl rfl) (hpop hmem rest)
  | call hc =>
    have hmem : x ∈ s.queue q := hx
    exact hold hmem (Or.inl rfl) (update_of_ne (hne hc hmem) _ _)
  | finish hc =>
    have hmem : x ∈ s.queue q := hx
    exact hold hmem (Or.inl rfl) (update_of_ne (hne hc hmem) _ _)
  | timer hc =>
    have hmem : x ∈ s.queue q := hx
    exact hold hmem (Or.inl rfl) (update_of_ne (hne hc hmem) _ _)
  | ipi => exact hold hx (Or.inl rfl) rfl
  | dropThread => exact hold hx (Or.inl rfl) rfl

/-- What a context in a queue executes next. -/
structure QueueHeads (s : State) : Prop where
  own : ∀ q, ∀ x ∈ s.queue q, ∀ m, (s.code x).head? = some (.own m) → q = .ready ∨ q = .mutex m
  sleep : ∀ q, ∀ x ∈ s.queue q, ∀ v, (s.code x).head? ≠ some (.sleep v)

theorem QueueHeads.step {a : Action} (h : QueueHeads s) (hsound : Sound s)
    (heffect : StepEffect s a evs s') : QueueHeads s' := by
  have hafter {c : CpuId} {i : Instr} {rest : List Instr} (hc : c ∈ s.cpuVec)
      (hcode : s.current c = i :: rest) : WellFormed (i :: rest) :=
    hcode ▸ hsound.wellFormed_current hc
  refine ⟨fun q x hx m hhead => ?_, fun q x hx v hhead => ?_⟩
  · rcases heffect.mem_queue hsound hx with ⟨q', hmem, hq, hcode⟩ |
      ⟨c, i, rest, hc, -, hcode, hi, hrest⟩ |
      ⟨hq, hcode, -⟩
    · rw [hcode] at hhead
      rcases hq with rfl | hq
      · exact h.own q x hmem m hhead
      · exact Or.inl hq
    · rw [hrest, (hafter hc hcode).head_own m] at hhead
      subst hhead
      cases hi
      exact Or.inr rfl
    · exact Or.inl hq
  · rcases heffect.mem_queue hsound hx with ⟨q', hmem, -, hcode⟩ |
      ⟨c, i, rest, hc, -, hcode, hi, hrest⟩ |
      ⟨-, hcode, -⟩
    · rw [hcode] at hhead
      exact h.sleep q' x hmem v hhead
    · rw [hrest] at hhead
      obtain ⟨m, rfl⟩ := (hafter hc hcode).head_sleep hhead
      cases hi
    · rw [hcode] at hhead
      cases hhead

/-- What a context in a queue executes next, in every run. -/
theorem ThreadRun.queueHeads (hrun : ThreadRun actions events s) : QueueHeads s :=
  (hrun.invariant (I := fun _ s => QueueHeads s)
    ⟨fun _ _ h => (by cases h), fun _ _ h => (by cases h)⟩ fun hsound h heffect =>
      h.step hsound heffect).2

/-! ### The order of the threads that wait -/

/-- The queue that a thread enters. -/
def Act.enters : Act → Option Queue
  | .queued v => some (.cv v)
  | .joinQueued i => some (.join i)
  | _ => none

/-- The queue that a thread leaves. -/
def Act.leaves : Act → Option Queue
  | .woken v => some (.cv v)
  | .joined i => some (.join i)
  | _ => none

/-- The threads that wait in a queue after an event. -/
def Event.waiting (q : Queue) (ts : List ContextId) : Event → List ContextId
  | .act t b =>
    if b.enters = some q then ts ++ [t] else if b.leaves = some q then ts.erase t else ts
  | _ => ts

/-- The threads that have entered a queue and not left it since, in the order in which they have
entered it. -/
def waiting (q : Queue) (tr : List Event) : List ContextId :=
  tr.foldl (Event.waiting q) []

/-- The queue is the one of a condition variable, or of a thread that is joined. -/
def Queue.Recorded : Queue → Prop
  | .cv _ | .join _ => True
  | _ => False

theorem Queue.Recorded.ne_ready (hq : q.Recorded) : q ≠ .ready := by
  rintro rfl
  exact hq

theorem Queue.Recorded.ne_mutex (hq : q.Recorded) (m : MutexId) : q ≠ .mutex m := by
  rintro rfl
  exact hq

theorem foldl_waiting_destroyed (q : Queue) (ts xs : List ContextId) :
    (xs.map Event.destroyed).foldl (Event.waiting q) ts = ts := by
  induction xs with
  | nil => rfl
  | cons x xs ih => exact ih

/-- The threads in a queue leave it, one after the other. -/
theorem foldl_waiting_leaves {b : Act} (hb : b.enters = none) (hleaves : b.leaves = some q)
    (ts : List ContextId) : (ts.map (Event.act · b)).foldl (Event.waiting q) ts = [] := by
  induction ts with
  | nil => rfl
  | cons x ts ih => simpa [Event.waiting, hb, hleaves] using ih

/-- Threads leave another queue. -/
theorem foldl_waiting_of_ne {b : Act} (hb : b.enters ≠ some q) (hleaves : b.leaves ≠ some q)
    (xs ts : List ContextId) : (xs.map (Event.act · b)).foldl (Event.waiting q) ts = ts := by
  induction xs with
  | nil => rfl
  | cons x xs ih => simpa [Event.waiting, hb, hleaves] using ih

theorem Blocks.waiting {q' : Queue} (h : Blocks s c t i q' evs) (hq : q.Recorded)
    (ts : List ContextId) : evs.foldl (Event.waiting q) ts = if q = q' then ts ++ [t] else ts := by
  cases h with
  | acquire => simp [Event.waiting, Act.enters, Act.leaves, hq.ne_mutex]
  | sleep => simp [Event.waiting, Act.enters, Act.leaves, eq_comm]
  | join => simp [Event.waiting, Act.enters, Act.leaves, eq_comm]
  | yield => simp [hq.ne_ready]
  | timer => simp [hq.ne_ready]

theorem Wakes.waiting {q' : Queue} {ts waiting : List ContextId}
    (h : Wakes s t i q' ts waiting evs) :
    evs.foldl (Event.waiting q) (s.queue q) = if q = q' then waiting else s.queue q := by
  split_ifs with hq
  · subst hq
    cases h with
    | signal hqueue => simp [Event.waiting, Act.enters, Act.leaves, hqueue]
    | broadcast => exact foldl_waiting_leaves rfl rfl _
  · cases h with
    | signal => simp [Event.waiting, Act.enters, Act.leaves, Ne.symm hq]
    | broadcast =>
      exact foldl_waiting_of_ne (by simp [Act.enters])
        (by simpa [Act.leaves] using Ne.symm hq) _ _

/-- The queues after an instruction. -/
theorem Effect.waiting (h : Effect s c rest i evs s') (hsound : Sound s) (hc : c ∈ s.cpuVec)
    (hq : q.Recorded) : s'.queue q = evs.foldl (Event.waiting q) (s.queue q) := by
  have hready := hq.ne_ready
  cases h with
  | handOff =>
    simp [State.moveReady, State.wake, State.wakeCpus, State.setQueue, State.setCurrent,
      hready, hq.ne_mutex, Event.waiting, Act.enters, Act.leaves]
  | @blocks _ q' _ hlast hi =>
    rw [hi.waiting hq]
    split_ifs with hqq
    · subst hqq
      simp [State.resume, State.enqueue, State.setQueue, State.setLastContext,
        State.setCurrent, hready]
    · simp [State.resume, State.enqueue, State.setQueue, State.setLastContext,
        State.setCurrent, hready, hqq]
  | wakes hlast hi =>
    rw [hi.waiting]
    split_ifs with hqq
    · subst hqq
      simp [State.moveReady, State.wake, State.wakeCpus, State.setQueue, hready]
    · simp [State.moveReady, State.wake, State.wakeCpus, State.setQueue,
        State.setCurrent, hready, hqq]
  | skips hi =>
    cases hi with
    | @join i =>
      -- the thread is not in the queue
      have herase : (s.queue (.join i)).erase (s.stack c) = s.queue (.join i) :=
        List.erase_of_not_mem (hsound.stack_not_mem_queue hc)
      by_cases hqi : q = .join i
      · subst hqi
        simp [Event.waiting, Act.enters, Act.leaves, herase, State.setCurrent]
      · simp [Event.waiting, Act.enters, Act.leaves, Ne.symm hqi, State.setCurrent]
    | _ => rfl
  | exit hlast =>
    rw [List.foldl_append, foldl_waiting_destroyed, List.foldl_cons]
    by_cases hqt : q = .join (s.stack c)
    · subst hqt
      refine Eq.trans ?_ (foldl_waiting_leaves rfl rfl _).symm
      simp [State.resume, State.exit, State.moveReady, State.wake, State.wakeCpus, State.setQueue]
    · refine Eq.trans ?_ (foldl_waiting_of_ne (by simp [Act.enters]) ?_ _ _).symm
      · simp [State.resume, State.exit, State.moveReady, State.wake, State.wakeCpus,
          State.setQueue, hready, hqt, Event.waiting]
      · simpa [Act.leaves] using Ne.symm hqt
  | construct =>
    simp [State.construct, State.wake, State.wakeCpus, State.setCurrent, hready,
      Event.waiting, Act.enters, Act.leaves]
  | idle => exact (foldl_waiting_destroyed _ _ _).symm
  | take =>
    rw [foldl_waiting_destroyed]
    simp [State.resume, hready]
  | _ => rfl

/-- The queues after a step. -/
theorem StepEffect.waiting {a : Action} (h : StepEffect s a evs s') (hsound : Sound s)
    (hq : q.Recorded) : s'.queue q = evs.foldl (Event.waiting q) (s.queue q) := by
  have hready : q ≠ .ready := by
    rintro rfl
    exact hq
  cases h with
  | bootThread =>
    simp [State.resume, State.construct, State.boot, State.wake, State.wakeCpus, hready,
      Event.waiting]
  | run hc _ _ heffect => exact heffect.waiting hsound hc hq
  | _ => rfl

/-- The queues of the condition variables and of the threads that are joined have the threads that
have entered them and not left them since, in order. -/
theorem ThreadRun.queue_eq (hrun : ThreadRun actions events s) (hq : q.Recorded) :
    s.queue q = waiting q events.flatten :=
  (hrun.invariant (I := fun tr s => s.queue q = waiting q tr) rfl fun hsound h heffect => by
    rw [heffect.waiting hsound hq, h, Threads.waiting, Threads.waiting, List.foldl_append]).2

end OsFromScratch.Threads
