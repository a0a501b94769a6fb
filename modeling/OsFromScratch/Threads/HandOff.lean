import OsFromScratch.Threads.Wraparound

/-!
# The order in which a mutex is acquired

The threads acquire a mutex in the order in which the guarded sections of their calls of `lock`
begin, called by the thread or by `wait`. Those that have not acquired it yet are the one that it
has been handed off to and those in the waiting queue.

The number 0 is the owner of a mutex that nobody holds, also of one that has been handed off. A
thread that gets this number when the counter has come round releases a mutex that has been handed
off to another thread, and may acquire it before that thread does.

## Main results

* `threadRunWith_firstCome` — the order, in the runs in which nobody releases a mutex of another
  thread.
* `threadRun_not_firstCome` — it is not kept in every run.
-/

namespace OsFromScratch.Threads

open Function

variable {s s' : State} {c : CpuId} {alloc : Alloc} {evs : List Event} {actions : List Action}
  {events : List (List Event)}

/-- The guarded section of a call of `lock` puts the thread at the end of the waiting queue, unless
the mutex is free. -/
theorem Sound.acquire_queue (h : Sound s) {m : MutexId} (hallowed : Allowed s (.run c alloc))
    (hhead : (s.current c).head? = some (.acquire m))
    (hstep : Threads.step (.run c alloc) s = some (evs, s')) :
    evs = [.act (s.stack c) (.requested m)] ∧ s'.queue (.mutex m) =
      if s.free m then s.queue (.mutex m) else s.queue (.mutex m) ++ [s.stack c] := by
  have heffect := h.effect_of_step hallowed hstep
  cases heffect with
  | run hc _ hcode heffect =>
    rw [hcode, List.head?_cons, Option.some.injEq] at hhead
    subst hhead
    cases heffect with
    | acquire _ hfree =>
      refine ⟨rfl, ?_⟩
      rw [if_pos hfree]
      rfl
    | blocks _ hi =>
      cases hi with
      | acquire hfree =>
        refine ⟨rfl, ?_⟩
        rw [if_neg (ne_true_of_eq_false hfree)]
        simp [State.resume, State.enqueue, State.setQueue, State.setLastContext, State.setCurrent]
    | wakes _ hi => cases hi
    | skips hi => cases hi

/-- In every run in which nobody releases a mutex of another thread, the threads acquire a mutex in
the order of their requests. Those that have not acquired it yet are at most one thread that has
left the waiting queue, and the threads in the waiting queue, which a thread enters at its end. -/
theorem threadRunWith_firstCome (hrun : ThreadRunWith Rightful actions events s) (m : MutexId) :
    (∃ handed : List ContextId, handed.length ≤ 1 ∧ (handed ++ s.queue (.mutex m)).Nodup ∧
      requests m events.flatten =
        acquisitions m events.flatten ++ (handed ++ s.queue (.mutex m))) ∧
    ∀ c alloc evs s', Allowed s (.run c alloc) → (s.current c).head? = some (.acquire m) →
      step (.run c alloc) s = some (evs, s') →
      evs = [.act (s.stack c) (.requested m)] ∧ s'.queue (.mutex m) =
        if s.free m then s.queue (.mutex m) else s.queue (.mutex m) ++ [s.stack c] := by
  obtain ⟨handed, hok⟩ := hrun.mutexOk m
  refine ⟨⟨handed, ?_, hok.nodup, hok.order⟩, fun c alloc evs s' hallowed hhead hstep =>
    (threadRun_sound hrun.threadRun).acquire_queue hallowed hhead hstep⟩
  obtain ⟨-, -, -, rfl, -⟩ | ⟨-, rfl, -⟩ | ⟨-, -, -, t, rfl⟩ := hok.state <;> simp

/-- The mutex has been handed off to thread 3, which has not acquired it yet. -/
theorem threadRunWith_firstCome_handOff :
    ∃ events s, ThreadRunWith Rightful handOff events s ∧
      requests 0 events.flatten = [2, 3] ∧ acquisitions 0 events.flatten = [2] ∧
      ∃ handed : List ContextId, handed.length ≤ 1 ∧ (handed ++ s.queue (.mutex 0)).Nodup ∧
        requests 0 events.flatten =
          acquisitions 0 events.flatten ++ (handed ++ s.queue (.mutex 0)) := by
  obtain ⟨events, s, hthread, hcheck⟩ := ThreadRun.of_check handOff
    (fun events s => s.maxId ≤ 2 ^ 32 && requests 0 events.flatten = [2, 3] &&
      acquisitions 0 events.flatten = [2])
    (by decide +kernel)
  simp only [Bool.and_eq_true, decide_eq_true_eq] at hcheck
  obtain ⟨⟨hids, hrequests⟩, hacquisitions⟩ := hcheck
  have hrun := hthread.rightful hids
  exact ⟨events, s, hrun, hrequests, hacquisitions, (threadRunWith_firstCome hrun 0).1⟩

/-- Thread 2 locks a mutex, thread `2 ^ 32 + 1` waits for it, thread 2 unlocks it, and thread `2 ^
32`, whose number is 0, unlocks it and locks it. -/
def barging : List Action :=
  [.call 0 (.lock 0)] ++ runs 7 ++ [.call 0 .thread] ++ runs 6 ++ [.call 0 .thread] ++ runs 6 ++
    [.call 0 .yield] ++ runs 5 ++ [.call 0 .yield] ++ runs 5 ++ [.call 0 (.lock 0)] ++ runs 6 ++
    [.call 0 (.unlock 0)] ++ runs 6 ++ [.call 0 .yield] ++ runs 6 ++
      [.call 0 (.unlock 0)] ++ runs 6 ++
    [.call 0 (.lock 0)] ++ runs 7

/-- The threads do not acquire a mutex in the order of their requests in every run. -/
theorem threadRun_not_firstCome :
    ¬ ∀ actions events s m, ThreadRun actions events s →
      acquisitions m events.flatten <+: requests m events.flatten := by
  intro hall
  obtain ⟨before, past, events, s, hrun, hpast, hcheck⟩ :=
      exists_threadRun_of_check (2 ^ 32 - 3) barging
    (fun events _ => acquisitions 0 events.flatten = [2, 2 ^ 32] &&
      requests 0 events.flatten = [2, 2 ^ 32 + 1, 2 ^ 32])
    (by decide +kernel)
  simp only [Bool.and_eq_true, decide_eq_true_eq] at hcheck
  have horder := hall _ _ _ 0 hrun
  rw [List.flatten_append, acquisitions_append, requests_append,
    acquisitions_of_not_about (hpast 0),
    requests_of_not_about (hpast 0), hcheck.1, hcheck.2] at horder
  revert horder
  decide

end OsFromScratch.Threads
