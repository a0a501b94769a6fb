import OsFromScratch.Threads.Scheduling

/-!
# The steps of the machine

What the instructions and the other steps do in a state where the invariant holds, and that they
preserve it.

## Main definitions

* `Blocks` — the instructions that leave the thread in a queue.
* `Effect` — what an instruction does.
* `StepEffect` — what a step does.

## Main results

* `Sound.exec_effect` — no assertion fails in an instruction, and what it does.
* `Sound.step_effect` — no assertion fails in a step, and what it does.
* `threadRun_sound` — the invariant holds in every run.
-/

namespace OsFromScratch.Threads

open Function

variable {s s' : State} {c c' : CpuId} {t x : ContextId} {q : Queue} {i : Instr}
    {l rest : List Instr}
  {evs : List Event}

/-! ### Effects -/

/-- The instruction of a thread leaves it in a queue. -/
inductive Blocks (s : State) (c : CpuId) (t : ContextId) : Instr → Queue → List Event → Prop
  | acquire {m : MutexId} (hfree : s.free m = false) :
    Blocks s c t (.acquire m) (.mutex m) [.act t (.requested m)]
  | sleep {v : CvId} : Blocks s c t (.sleep v) (.cv v) [.act t (.queued v)]
  | join {i : ContextId} (halive : s.alive i = true) :
    Blocks s c t (.join i) (.join i) [.act t (.joinQueued i)]
  | yield (hready : s.queue .ready ≠ []) : Blocks s c t .yield .ready []
  | timer (hidle : s.isIdle c = false) (hready : s.queue .ready ≠ []) :
    Blocks s c t .timer .ready []

/-- The instruction wakes up threads that wait in a queue. -/
inductive Wakes (s : State) (t : ContextId) :
    Instr → Queue → List ContextId → List ContextId → List Event → Prop
  | signal {v : CvId} {next : ContextId} {waiting : List ContextId}
    (hqueue : s.queue (.cv v) = next :: waiting) :
    Wakes s t (.signal v) (.cv v) [next] waiting [.act t (.signalled v), .act next (.woken v)]
  | broadcast {v : CvId} :
    Wakes s t (.broadcast v) (.cv v) (s.queue (.cv v)) []
      (.act t (.broadcasted v) :: (s.queue (.cv v)).map (.act · (.woken v)))

/-- The instruction does nothing else than to go on. -/
inductive Skips (s : State) (c : CpuId) (t : ContextId) : Instr → List Event → Prop
  | signal {v : CvId} (hqueue : s.queue (.cv v) = []) :
    Skips s c t (.signal v) [.act t (.signalled v)]
  | join {i : ContextId} (hdead : s.alive i = false) : Skips s c t (.join i) [.act t (.joined i)]
  | yield (hready : s.queue .ready = []) : Skips s c t .yield []
  | timer (h : s.isIdle c = true ∨ s.lastContext c = none ∨ s.queue .ready = []) :
    Skips s c t .timer []

/-- The state in which a thread that has finished has left its CPU. -/
def State.exit (s : State) (c : CpuId) (t : ContextId) : State :=
  let s := (s.moveReady (.join t) (s.queue (.join t)) []).wake
  { s with
    alive := update s.alive t false
    localInfo := update s.localInfo t false
    lastContext := update s.lastContext c none
    toKill := update s.toKill c (some t)
    code := update s.code t [] }

/-- The state in which a new thread is ready. -/
def State.construct (s : State) : State :=
  { s with
    maxId := s.maxId + 1
    code := update s.code s.maxId startCode
    alive := update s.alive s.maxId true
    handle := update s.handle s.maxId true
    localInfo := update s.localInfo s.maxId true
    queue := update s.queue .ready (s.queue .ready ++ [s.maxId]) }.wake

/-- What an instruction `i` of a CPU does, when the code goes on with `rest`. -/
inductive Effect (s : State) (c : CpuId) (rest : List Instr) : Instr → List Event → State → Prop
  | interruptDisable : Effect s c rest .interruptDisable []
      { s.setCurrent c rest with interrupts := update s.interrupts c false }
  | interruptEnable : Effect s c rest .interruptEnable []
      { s.setCurrent c rest with interrupts := update s.interrupts c true }
  | suspend (hlast : s.lastContext c = none) : Effect s c rest .interruptEnableSuspend []
      { s.setCurrent c rest with
        interrupts := update s.interrupts c true, suspended := update s.suspended c true }
  | spin (hguard : s.guard ≠ none) : Effect s c rest .guardLock [] s
  | guardLock (hguard : s.guard = none) : Effect s c rest .guardLock []
      { s.setCurrent c rest with guard := some c }
  | guardUnlock : Effect s c rest .guardUnlock [] { s.setCurrent c rest with guard := none }
  | ret {op : Op} {ok : Bool} (hlast : s.lastContext c = some (s.stack c)) :
    Effect s c rest (.ret op ok) [.act (s.stack c) (.returned op ok)] (s.setCurrent c rest)
  | acquire {m : MutexId} (hlast : s.lastContext c = some (s.stack c)) (hfree : s.free m = true) :
    Effect s c rest (.acquire m) [.act (s.stack c) (.requested m)]
      { s.setCurrent c rest with free := update s.free m false }
  | own {m : MutexId} (hlast : s.lastContext c = some (s.stack c)) :
    Effect s c rest (.own m) [.act (s.stack c) (.acquired m)]
      { s.setCurrent c rest with owner := update s.owner m (idOf (s.stack c)) }
  | refused {m : MutexId} (hlast : s.lastContext c = some (s.stack c))
    (hm : s.free m = true ∨ idOf (s.stack c) ≠ s.owner m) :
    Effect s c rest (.releaseLock m) [.act (s.stack c) (.refused m)]
      (s.setCurrent c (throwCode rest))
  | release {m : MutexId} (hlast : s.lastContext c = some (s.stack c)) (hfree : s.free m = false)
    (howner : idOf (s.stack c) = s.owner m) (hqueue : s.queue (.mutex m) = []) :
    Effect s c rest (.releaseLock m) [.act (s.stack c) (.released m)]
      { s.setCurrent c rest with free := update s.free m true, owner := update s.owner m 0 }
  | handOff {m : MutexId} {next : ContextId} {waiting : List ContextId}
    (hlast : s.lastContext c = some (s.stack c)) (hfree : s.free m = false)
    (howner : idOf (s.stack c) = s.owner m) (hqueue : s.queue (.mutex m) = next :: waiting) :
    Effect s c rest (.releaseLock m) [.act (s.stack c) (.released m)]
      { ((s.setCurrent c rest).moveReady (.mutex m) [next] waiting).wake with
        owner := update s.owner m 0 }
  | blocks {i : Instr} {q : Queue} {evs : List Event} (hlast : s.lastContext c = some (s.stack c))
    (hi : Blocks s c (s.stack c) i q evs) :
    Effect s c rest i evs (((s.setCurrent c rest).enqueue q c (s.stack c)).resume c)
  | wakes {i : Instr} {q : Queue} {ts waiting : List ContextId} {evs : List Event}
    (hlast : s.lastContext c = some (s.stack c)) (hi : Wakes s (s.stack c) i q ts waiting evs) :
    Effect s c rest i evs ((s.setCurrent c rest).moveReady q ts waiting).wake
  | skips {i : Instr} {evs : List Event} (hi : Skips s c (s.stack c) i evs) :
    Effect s c rest i evs (s.setCurrent c rest)
  | construct (hlast : s.lastContext c = some (s.stack c)) :
    Effect s c rest .constructThread [.created s.maxId, .act (s.stack c) .constructed]
      (s.setCurrent c rest).construct
  | badAlloc {maxId : ℕ} (hlast : s.lastContext c = some (s.stack c)) (hmax : s.maxId ≤ maxId) :
    Effect s c rest .constructThread [.act (s.stack c) .badAlloc]
      { s.setCurrent c (throwCode rest) with maxId := maxId }
  | exit (hlast : s.lastContext c = some (s.stack c)) :
    Effect s c rest .exit
      (.exited (s.stack c) :: (s.queue (.join (s.stack c))).map (.act · (.joined (s.stack c))) ++
        (s.toKill c).toList.map .destroyed)
      ((s.exit c (s.stack c)).resume c)
  | idle (hlast : s.lastContext c = none) (hready : s.queue .ready = []) :
    Effect s c rest .watchSuspend ((s.toKill c).toList.map .destroyed)
      { s.setCurrent c idleCode with
        toKill := update s.toKill c none, isIdle := update s.isIdle c true }
  | take (hlast : s.lastContext c = none) (hready : s.queue .ready ≠ []) :
    Effect s c rest .watchSuspend ((s.toKill c).toList.map .destroyed)
      ({ s with toKill := update s.toKill c none }.resume c)

/-! ### Instructions -/

namespace Sound

/-- An instruction that only threads execute. -/
theorem last_of_head (h : Sound s) (hc : c ∈ s.cpuVec) (hcode : s.current c = i :: rest)
    (hi : ¬ i.OfGoldfish) : s.lastContext c = some (s.stack c) := by
  obtain ⟨t, hlast, rfl⟩ := h.last_ne_none hc (hcode ▸ List.mem_cons_self) hi
  exact hlast

/-- The thread that executes an instruction is put into a queue. -/
theorem swapSelf_effect (h : Sound s) (hc : c ∈ s.cpuVec) (hcode : s.current c = i :: rest)
    (hbefore : i.before = .guarded) (hafter : i.after = some .guarded)
    (hlast : s.lastContext c = some (s.stack c)) (hi : Blocks s c (s.stack c) i q evs) :
    (swapSelfToQueue q c (s.setCurrent c rest)).map (evs, ·) =
      some (evs, ((s.setCurrent c rest).enqueue q c (s.stack c)).resume c) := by
  obtain ⟨hpop, hmode⟩ := h.pop hc hcode hbefore hafter
  have hq : q = .ready → s.queue .ready ≠ [] := by
    cases hi with
    | yield hready => exact fun _ => hready
    | timer _ hready => exact fun _ => hready
    | _ => rintro ⟨⟩
  rw [hpop.swapSelfToQueue_eq hmode hlast hq, Option.map_some]

theorem constructThread_eq (h : Core s) (hmode : s.InMode c .guarded) :
    constructThread c s = some s.construct := by
  have hqueue : update s.queue (.join s.maxId) [] = s.queue := by
    rw [← h.join_dead s.maxId h.alive_maxId, update_eq_self]
  simp only [constructThread, newContext, hqueue]
  exact checkReadyAndWake_eq (s := { s with
    maxId := s.maxId + 1
    code := update s.code s.maxId startCode
    alive := update s.alive s.maxId true
    handle := update s.handle s.maxId true
    localInfo := update s.localInfo s.maxId true
    queue := update s.queue .ready (s.queue .ready ++ [s.maxId]) }) h.cpus hmode

theorem setNext_eq (hlast : s.lastContext c = none) : setNext c s = s.resume c := by
  cases hready : s.queue .ready with
  | nil =>
    rw [resume_nil hready hlast]
    simp only [setNext, hready]
  | cons next ts =>
    rw [resume_cons hready]
    simp only [setNext, hready]

theorem dropInfo_eq (hjoin : s.queue (.join x) = []) : dropInfo x s = ([], s) := by
  have hqueue : s.setQueue (.join x) [] = s := by
    rw [State.setQueue, ← hjoin, update_eq_self]
  rw [dropInfo, hjoin, hqueue, List.map_nil, ite_self]

/-- `wrapped_function` after `func` has returned. -/
theorem exitThread_eq (h : Sound s) (hmode : s.InMode c .guarded)
    (hlast : s.lastContext c = some (s.stack c)) :
    exitThread c (s.setCurrent c []) =
      some (.exited (s.stack c) :: (s.queue (.join (s.stack c))).map
        (.act · (.joined (s.stack c))) ++
        (s.toKill c).toList.map .destroyed, (s.exit c (s.stack c)).resume c) := by
  have hinfo : (s.setCurrent c []).localInfo (s.stack c) = true := h.info _ (h.alive_of_last hlast)
  have hready := addToReadyQueue_eq (c := c) (q := .join (s.stack c))
    (s.queue (.join (s.stack c))) []
    (s := { s.setCurrent c [] with alive := update s.alive (s.stack c) false }) h.cpus hmode
    (by simp)
  have hdrop := dropInfo_eq (x := s.stack c)
    (s := { ({ s.setCurrent c [] with alive := update s.alive (s.stack c) false }.moveReady
      (.join (s.stack c)) (s.queue (.join (s.stack c))) []).wake with
        localInfo := update s.localInfo (s.stack c) false })
    (by simp [State.moveReady, State.wake, State.wakeCpus, State.setQueue])
  have hnext : setNext c (s.exit c (s.stack c)) = (s.exit c (s.stack c)).resume c :=
    setNext_eq (by simp [State.exit])
  have htoKill : update s.toKill c (s.lastContext c) = update s.toKill c (some (s.stack c)) := by
    rw [hlast]
  rw [exitThread]
  refine (if_pos hinfo).trans ((bind_of_eq_some hready).trans ?_)
  refine (congrArg (fun dropped : List Event × State =>
    some (.exited (s.stack c) :: (s.queue (.join (s.stack c))).map (.act · (.joined (s.stack c))) ++
      dropped.1 ++ (dropped.2.toKill c).toList.map .destroyed,
      setNext c { dropped.2 with
        toKill := update dropped.2.toKill c (dropped.2.lastContext c)
        lastContext := update dropped.2.lastContext c none })) hdrop).trans ?_
  rw [List.append_nil, ← hnext]
  exact congrArg (fun toKill => some (_, setNext c { s.exit c (s.stack c) with toKill := toKill }))
    htoKill

/-- No assertion fails in an instruction of a CPU. -/
theorem exec_effect (h : Sound s) (hc : c ∈ s.cpuVec) (hcode : s.current c = i :: rest)
    (hi : i ≠ .user) (alloc : Alloc) :
    ∃ evs s', exec alloc c i (s.setCurrent c rest) = some (evs, s') ∧ Effect s c rest i evs s' := by
  have hmode := h.inMode hc hcode
  have hthread (hi : ¬ i.OfGoldfish) := h.last_of_head hc hcode hi
  cases i with
  | interruptDisable => exact ⟨_, _, rfl, .interruptDisable⟩
  | interruptEnable => exact ⟨_, _, rfl, .interruptEnable⟩
  | interruptEnableSuspend =>
    exact ⟨_, _, rfl, .suspend (h.last_eq_none hc (hcode ▸ List.mem_cons_self) id).1⟩
  | guardLock =>
    by_cases hguard : s.guard = none
    · exact ⟨_, _, if_neg (by simp [State.setCurrent, hguard]), .guardLock hguard⟩
    · have hself : (s.setCurrent c rest).setCurrent c (.guardLock :: rest) = s := by
        simp only [State.setCurrent, update_idem]
        rw [← hcode, State.current, update_eq_self]
      refine ⟨[], s, ?_, .spin hguard⟩
      have hisSome : (s.setCurrent c rest).guard.isSome = true :=
          Option.isSome_iff_ne_none.mpr hguard
      rw [exec, if_pos hisSome, current_setCurrent, hself]
  | guardUnlock => exact ⟨_, _, rfl, .guardUnlock⟩
  | ret op ok => exact ⟨_, _, rfl, .ret (hthread id)⟩
  | acquire m =>
    by_cases hfree : s.free m = true
    · exact ⟨_, _, if_pos hfree, .acquire (hthread id) hfree⟩
    · have hfree' : s.free m = false := Bool.eq_false_iff.mpr hfree
      refine ⟨_, _, ?_, .blocks (hthread id) (.acquire hfree')⟩
      exact (if_neg hfree).trans (h.swapSelf_effect hc hcode rfl rfl (hthread id) (.acquire hfree'))
  | own m =>
    refine ⟨_, _, ?_, .own (hthread id)⟩
    have hlast : (s.setCurrent c rest).lastContext c = some (s.stack c) := hthread id
    rw [exec, hlast]
    rfl
  | releaseLock m =>
    have hlast : (s.setCurrent c rest).lastContext c = some (s.stack c) := hthread id
    have hthrow : (s.setCurrent c rest).setCurrent c (throwCode ((s.setCurrent c rest).current c)) =
        s.setCurrent c (throwCode rest) := by
      rw [current_setCurrent]
      simp only [State.setCurrent, update_idem]
    obtain ⟨hpop, hguarded⟩ := h.pop hc hcode rfl rfl
    by_cases hfree : s.free m = true
    · refine ⟨_, _, ?_, .refused (hthread id) (Or.inl hfree)⟩
      have hfree' : (s.setCurrent c rest).free m = true := hfree
      rw [exec, releaseLock, if_pos hfree', hthrow]
      rfl
    · have hfree' : ¬ (s.setCurrent c rest).free m = true := hfree
      by_cases howner : idOf (s.stack c) = s.owner m
      · have howner' : ¬ idOf (s.stack c) ≠ (s.setCurrent c rest).owner m := not_not.mpr howner
        cases hqueue : s.queue (.mutex m) with
        | nil =>
          refine ⟨_, _, ?_, .release (hthread id) (Bool.eq_false_iff.mpr hfree) howner hqueue⟩
          have hqueue' : (s.setCurrent c rest).queue (.mutex m) = [] := hqueue
          rw [exec, releaseLock, if_neg hfree', hlast]
          simp only [Option.bind_eq_bind, Option.bind_some, if_neg howner', hqueue']
          rfl
        | cons next waiting =>
          refine ⟨_, _, ?_, .handOff (hthread id) (Bool.eq_false_iff.mpr hfree) howner hqueue⟩
          have hqueue' : (s.setCurrent c rest).queue (.mutex m) = next :: waiting := hqueue
          rw [exec, releaseLock, if_neg hfree', hlast]
          simp only [Option.bind_eq_bind, Option.bind_some, if_neg howner', hqueue']
          have hfrees : update (update s.free m true) m false = s.free := by
            rw [update_idem, ← Bool.eq_false_iff.mpr hfree, update_eq_self]
          have hready := addToReadyQueue_eq (c := c) (q := .mutex m) [next] waiting (s :=
            { s.setCurrent c rest with owner := update s.owner m 0 })
            hpop.cpus hguarded (by simp)
          refine bind_of_eq_some (Eq.trans (congrArg (addToReadyQueue c [next]) ?_) hready)
          simp only [State.setQueue, State.setCurrent, hfrees]
      · refine ⟨_, _, ?_, .refused (hthread id) (Or.inr howner)⟩
        have howner' : idOf (s.stack c) ≠ (s.setCurrent c rest).owner m := howner
        rw [exec, releaseLock, if_neg hfree', hlast]
        simp only [Option.bind_eq_bind, Option.bind_some, if_pos howner', hthrow]
        rfl
  | sleep v =>
    exact ⟨_, _, h.swapSelf_effect hc hcode rfl rfl (hthread id) .sleep,
      .blocks (hthread id) .sleep⟩
  | signal v =>
    obtain ⟨hpop, hguarded⟩ := h.pop hc hcode rfl rfl
    cases hqueue : s.queue (.cv v) with
    | nil =>
      refine ⟨_, _, ?_, .skips (.signal hqueue)⟩
      have hqueue' : (s.setCurrent c rest).queue (.cv v) = [] := hqueue
      simp only [exec, hqueue']
      rfl
    | cons next waiting =>
      refine ⟨_, _, ?_, .wakes (hthread id) (.signal hqueue)⟩
      have hqueue' : (s.setCurrent c rest).queue (.cv v) = next :: waiting := hqueue
      simp only [exec, hqueue', addToReadyQueue_eq _ _ hpop.cpus hguarded
        (by simp : Queue.cv v ≠ .ready)]
      rfl
  | broadcast v =>
    obtain ⟨hpop, hguarded⟩ := h.pop hc hcode rfl rfl
    refine ⟨_, _, ?_, .wakes (hthread id) .broadcast⟩
    simp only [exec, addToReadyQueue_eq _ _ hpop.cpus hguarded (by simp : Queue.cv v ≠ .ready)]
    rfl
  | constructThread =>
    obtain ⟨hpop, hguarded⟩ := h.pop hc hcode rfl rfl
    cases alloc with
    | ok =>
      refine ⟨_, _, ?_, .construct (hthread id)⟩
      simp only [exec, constructThread_eq hpop.toCore hguarded]
      rfl
    | noContext =>
      refine ⟨_, _, ?_, .badAlloc (hthread id) le_rfl⟩
      simp only [exec, setCurrent_setCurrent, current_setCurrent]
      rfl
    | noInfo =>
      refine ⟨_, _, ?_, .badAlloc (hthread id) (Nat.le_succ _)⟩
      simp only [exec, current_setCurrent]
      simp only [State.setCurrent, update_idem]
  | join i =>
    have hinfo : (s.handle i || s.localInfo i) = true := by
      have hfits := h.fits_current hc
      have halive := h.alive_of_last (hthread id)
      rw [(hfits.thread halive _ (hcode ▸ List.mem_cons_self)).2 i rfl, Bool.true_or]
    have hinfo' : ((s.setCurrent c rest).handle i || (s.setCurrent c rest).localInfo i) = true :=
        hinfo
    by_cases halive : s.alive i = true
    · refine ⟨_, _, ?_, .blocks (hthread id) (.join halive)⟩
      rw [exec, if_pos hinfo']
      exact (if_pos halive).trans (h.swapSelf_effect hc hcode rfl rfl (hthread id) (.join halive))
    · refine ⟨_, _, ?_, .skips (.join (Bool.eq_false_iff.mpr halive))⟩
      rw [exec, if_pos hinfo']
      exact if_neg halive
  | yield =>
    by_cases hready : s.queue .ready = []
    · exact ⟨_, _, if_neg (not_not.mpr hready), .skips (.yield hready)⟩
    · refine ⟨_, _, ?_, .blocks (hthread id) (.yield hready)⟩
      exact (if_pos hready).trans (h.swapSelf_effect hc hcode rfl rfl (hthread id) (.yield hready))
  | timer =>
    by_cases hready : s.queue .ready = []
    · refine ⟨_, _, ?_, .skips (.timer (Or.inr (Or.inr hready)))⟩
      exact if_neg (by simp [State.setCurrent, hready])
    · cases hidle : s.isIdle c with
      | true =>
        refine ⟨_, _, ?_, .skips (.timer (Or.inl hidle))⟩
        exact if_neg (by simp [State.setCurrent, hidle])
      | false =>
        rcases h.cases_stack hc with ⟨hlast, -⟩ | ⟨hlast, -, -⟩
        · refine ⟨_, _, ?_, .blocks hlast (.timer hidle hready)⟩
          refine (if_pos ?_).trans (h.swapSelf_effect hc hcode rfl rfl hlast (.timer hidle hready))
          simp [State.setCurrent, hidle, hlast, hready]
        · refine ⟨_, _, ?_, .skips (.timer (Or.inr (Or.inl hlast)))⟩
          exact if_neg (by simp [State.setCurrent, hlast])
  | exit =>
    have hwf := h.wellFormed_current hc
    rw [hcode] at hwf
    obtain rfl := hwf.eq_nil rfl
    have hlast := hthread id
    refine ⟨_, _, ?_, .exit hlast⟩
    rw [exec]
    exact exitThread_eq h hmode hlast
  | watchSuspend =>
    have hwf := h.wellFormed_current hc
    rw [hcode] at hwf
    obtain rfl := hwf.eq_nil rfl
    obtain ⟨hlast, hstack⟩ := h.last_eq_none hc (hcode ▸ List.mem_cons_self) id
    have hlocked : (s.setCurrent c []).locked c = true := by
      simp [State.locked, State.setCurrent, hmode.1, hmode.2]
    cases hready : s.queue .ready with
    | nil =>
      refine ⟨_, _, ?_, .idle hlast hready⟩
      have hready' : (s.setCurrent c []).queue .ready = [] := hready
      have hlast' : (s.setCurrent c []).lastContext c = none := hlast
      simp only [exec, watchSuspend, if_pos hlocked, if_pos hlast', hready']
      simp only [State.setCurrent, update_idem]
    | cons next ts =>
      refine ⟨_, _, ?_, .take hlast (hready ▸ List.cons_ne_nil next ts)⟩
      have hready' : (s.setCurrent c []).queue .ready = next :: ts := hready
      have hlast' : (s.setCurrent c []).lastContext c = none := hlast
      have hcode' : update s.code (s.stack c) [.watchSuspend] = s.code := by
        rw [← hcode, State.current, update_eq_self]
      rw [resume_cons (s := { s with toKill := update s.toKill c none }) hready]
      simp only [exec, watchSuspend, if_pos hlocked, if_pos hlast', hready']
      simp only [swapcontext, setcontext, State.current, State.setCurrent, State.setQueue,
        State.setLastContext, update_idem, update_eq_self, ← hstack, hcode']
  | user => exact absurd rfl hi

end Sound

/-! ### The invariant after an instruction -/

theorem Blocks.guarded (h : Blocks s c t i q evs) :
    i.before = .guarded ∧ i.after = some .guarded := by
  cases h <;> exact ⟨rfl, rfl⟩

theorem Blocks.alive (h : Blocks s c t i q evs) (j : ContextId) (hq : q = .join j) :
    s.alive j = true := by
  cases h with
  | join halive =>
    cases hq
    exact halive
  | _ => cases hq

theorem Wakes.guarded {ts waiting : List ContextId} (h : Wakes s t i q ts waiting evs) :
    i.before = .guarded ∧ i.after = some .guarded := by
  cases h <;> exact ⟨rfl, rfl⟩

theorem Wakes.queue {ts waiting : List ContextId} (h : Wakes s t i q ts waiting evs) :
    q ≠ .ready ∧ s.queue q = ts ++ waiting := by
  cases h with
  | signal hqueue => exact ⟨by simp, hqueue⟩
  | broadcast => exact ⟨by simp, (List.append_nil _).symm⟩

/-- The CPUs execute what they have executed when there is a new thread. -/
theorem OnCpu.construct (h : OnCpu s c) (hcore : Core s) (hc : c ∈ s.cpuVec) :
    OnCpu s.construct c := by
  have hstack : s.stack c ≠ s.maxId := by
    rw [h.stack]
    cases hlast : s.lastContext c with
    | none => exact hcore.goldfish_ne_maxId hc
    | some t => exact (hcore.alive_lt t (hcore.alive_of_last hlast)).2.ne
  have hcurrent : s.construct.current c = s.current c :=
    update_of_ne hstack _ _
  refine ⟨h.stack, ?_⟩
  rw [hcurrent]
  exact h.mode

theorem Skips.guarded (h : Skips s c t i evs) : i.before = .guarded ∧ i.after = some .guarded := by
  cases h <;> exact ⟨rfl, rfl⟩

namespace Sound

/-- A new thread is ready. -/
theorem construct (h : Sound s) : Sound s.construct :=
  { h.newThread with
    guard_mem := h.guard_mem
    onCpu := fun c hc => (h.onCpu c hc).construct h.toCore hc }

/-- A thread that has finished has left its CPU. -/
theorem between_exit (h : Sound s) (hmode : s.InMode c .guarded)
    (hlast : s.lastContext c = some (s.stack c)) : Between c (s.exit c (s.stack c)) := by
  have hc := h.mem_of_last hlast
  have hmoved := h.moveReady (q := .join (s.stack c)) _ [] (by simp) (List.append_nil _).symm
  have hjoin : (s.moveReady (.join (s.stack c)) (s.queue (.join (s.stack c))) []).wake.queue
      (.join (s.stack c)) = [] := by
    simp [State.moveReady, State.wake, State.wakeCpus, State.setQueue]
  have hdead := hmoved.die hlast hjoin
  have halive := h.alive_of_last hlast
  have hgold (c' : CpuId) (hc' : c' ∈ s.cpuVec) : s.myGoldfish c' ≠ s.stack c := fun heq => by
    have hdead := h.goldfish_dead c' hc'
    rw [heq, halive] at hdead
    cases hdead
  have hcore : Core (s.exit c (s.stack c)) := by
    have hcode := hdead.setCode (x := s.stack c) (l := [])
      (fun q hq => hmoved.not_mem_queue_of_last hlast hq) (fun ht => by simp at ht)
      fun c' hc' heq => absurd heq (hgold c' hc')
    exact { hcode with }
  refine { hcore with
    mem := hc, last := ?_, mode := hmode, goldfish_guarded := ?_, onCpu := fun c' hc' hne => ?_ }
  · simp [State.exit]
  · have hcode : (s.exit c (s.stack c)).code (s.myGoldfish c) = s.code (s.myGoldfish c) :=
      update_of_ne (hgold c hc) _ _
    exact (congrArg modeOf hcode).trans (h.saved_goldfish c hc (by simp [hlast]))
  · have hcurrent : (s.exit c (s.stack c)).current c' = s.current c' :=
      update_of_ne (fun heq => hne (h.stack_inj hc' hc heq)) _ _
    refine ⟨?_, ?_⟩
    · simpa [State.exit, State.moveReady, State.wake, State.wakeCpus, State.setQueue, hne]
        using (h.onCpu c' hc').stack
    · rw [hcurrent]
      exact (h.onCpu c' hc').mode

/-- The goldfish leaves its CPU. -/
theorem between_take (h : Sound s) (hc : c ∈ s.cpuVec) (hmode : s.InMode c .guarded)
    (hlast : s.lastContext c = none) (f : CpuId → Option ContextId) :
    Between c { s with toKill := f } := by
  have hcurrent := (h.onCpu c hc).mode
  refine { h.toCore with
    mem := hc, last := hlast, mode := hmode, goldfish_guarded := ?_
    onCpu := fun c' hc' _ => ⟨(h.onCpu c' hc').stack, (h.onCpu c' hc').mode⟩ }
  rw [State.current, h.stack_of_idle hc hlast] at hcurrent
  exact hcurrent.eq hmode

/-- The invariant is preserved by an instruction. -/
theorem exec (h : Sound s) (hc : c ∈ s.cpuVec) (hcode : s.current c = i :: rest)
    (heffect : Effect s c rest i evs s') : Sound s' := by
  have hmode := h.inMode hc hcode
  have hwf := h.wellFormed_current hc
  rw [hcode] at hwf
  -- the mode after an instruction that only the CPU is concerned with
  have hgoOn {m : Mode} (hafter : i.after = some m) {s' : State}
      (hcore : Core (s.setCurrent c rest) → Core s')
      (hcpus : s'.cpuVec = s.cpuVec) (hlast : s'.lastContext = s.lastContext)
      (hgold : s'.myGoldfish = s.myGoldfish) (hstack : s'.stack = s.stack)
      (hcode' : s'.code = (s.setCurrent c rest).code) (hint : ∀ c' ≠ c, s'.interrupts c' =
        s.interrupts c')
      (hguard : ∀ c' ≠ c, s'.guard = some c' ↔ s.guard = some c') (hmode' : s'.InMode c m) :
      Sound s' := by
    have hne : i.after ≠ none := by simp [hafter]
    have hrest := (hwf.tail hne).2
    rw [hafter, Option.some.injEq] at hrest
    refine h.advance hc (hcore (h.core_setCurrent hc (h.fits_tail hc hcode hne))) hcpus
      hlast hgold hstack
      (fun x hx => by rw [hcode', code_setCurrent_of_ne s c rest hx]) ?_ hint hguard
    have hcurrent : s'.current c = rest := by
      rw [State.current, hstack, hcode']
      exact current_setCurrent s c rest
    rwa [hcurrent, ← hrest]
  cases heffect with
  | interruptDisable =>
    exact hgoOn rfl (fun h => { h with }) rfl rfl rfl rfl rfl (fun c' hc' => update_of_ne hc' _ _)
      (fun _ _ => Iff.rfl) ⟨update_self _ _ _, hmode.2⟩
  | interruptEnable =>
    exact hgoOn rfl (fun h => { h with }) rfl rfl rfl rfl rfl (fun c' hc' => update_of_ne hc' _ _)
      (fun _ _ => Iff.rfl) ⟨update_self _ _ _, hmode.2⟩
  | suspend =>
    exact hgoOn rfl (fun h => { h with }) rfl rfl rfl rfl rfl (fun c' hc' => update_of_ne hc' _ _)
      (fun _ _ => Iff.rfl) ⟨update_self _ _ _, hmode.2⟩
  | spin => exact h
  | guardLock hguard =>
    refine hgoOn rfl (fun h => { h with }) rfl rfl rfl rfl rfl (fun _ _ => rfl) (fun c' hc' => ?_)
      ⟨hmode.1, rfl⟩
    rw [hguard]
    simpa using hc'.symm
  | guardUnlock =>
    refine hgoOn rfl (fun h => { h with }) rfl rfl rfl rfl rfl (fun _ _ => rfl) (fun c' hc' => ?_)
      ⟨hmode.1, by simp⟩
    rw [hmode.2]
    simpa using hc'.symm
  | ret =>
    exact hgoOn rfl (fun h => { h with }) rfl rfl rfl rfl rfl (fun _ _ => rfl) (fun _ _ =>
      Iff.rfl) hmode
  | acquire =>
    exact hgoOn rfl (fun h => { h with }) rfl rfl rfl rfl rfl (fun _ _ => rfl) (fun _ _ =>
      Iff.rfl) hmode
  | own =>
    exact hgoOn rfl (fun h => { h with }) rfl rfl rfl rfl rfl (fun _ _ => rfl) (fun _ _ =>
      Iff.rfl) hmode
  | release =>
    exact hgoOn rfl (fun h => { h with }) rfl rfl rfl rfl rfl (fun _ _ => rfl) (fun _ _ =>
      Iff.rfl) hmode
  | refused =>
    refine h.setCurrent hc (h.fits_throwCode hc hcode trivial) ?_
    rw [hcode]
    rfl
  | handOff hlast hfree howner hqueue =>
    have hmoved := (h.pop hc hcode rfl rfl).1.moveReady (q := .mutex _) [_] _ (by simp) hqueue
    exact { hmoved with onCpu := fun c hc => ⟨(hmoved.onCpu c hc).stack, (hmoved.onCpu c hc).mode⟩ }
  | blocks hlast hi =>
    obtain ⟨hpop, hguarded⟩ := h.pop hc hcode hi.guarded.1 hi.guarded.2
    exact (hpop.leave hguarded hlast hi.alive).resume
  | wakes hlast hi =>
    exact (h.pop hc hcode hi.guarded.1 hi.guarded.2).1.moveReady _ _ hi.queue.1 hi.queue.2
  | skips hi => exact (h.pop hc hcode hi.guarded.1 hi.guarded.2).1
  | construct => exact (h.pop hc hcode rfl rfl).1.construct
  | badAlloc hlast hmax =>
    have hthrow : Sound (s.setCurrent c (throwCode rest)) := by
      refine h.setCurrent hc (h.fits_throwCode hc hcode trivial) ?_
      rw [hcode]
      rfl
    exact { hthrow with
      maxId_pos := hthrow.maxId_pos.trans_le hmax
      alive_lt := fun t ht => ⟨(hthrow.alive_lt t ht).1, (hthrow.alive_lt t ht).2.trans_le hmax⟩
      goldfish_lt := fun c hc => (hthrow.goldfish_lt c hc).trans_le hmax
      onCpu := fun c hc => ⟨(hthrow.onCpu c hc).stack, (hthrow.onCpu c hc).mode⟩ }
  | exit hlast => exact (h.between_exit hmode hlast).resume
  | idle hlast hready =>
    have hidle : Sound (s.setCurrent c idleCode) := by
      refine h.setCurrent hc ⟨?_, fun halive => ?_, fun _ j hj => ?_⟩ ?_
      · simp [idleCode, WellFormed, Follows, Instr.after, Instr.before, Instr.Throws]
      · rw [h.stack_of_idle hc hlast, h.goldfish_dead c hc] at halive
        cases halive
      · simp only [idleCode, List.mem_cons, List.not_mem_nil, or_false] at hj
        rcases hj with rfl | rfl | rfl | rfl | rfl <;> trivial
      · rw [hcode]
        rfl
    exact { hidle with onCpu := fun c hc => ⟨(hidle.onCpu c hc).stack, (hidle.onCpu c hc).mode⟩ }
  | take hlast hready => exact (h.between_take hc hmode hlast _).resume

end Sound

/-! ### The other steps -/

/-- The CPU that takes the step. -/
def Action.cpu : Action → Option CpuId
  | .boot c _ | .run c _ | .call c _ | .finish c | .timer c | .ipi c => some c
  | .dropThread _ => none

/-- The state in which the constructor of a CPU has set its members. -/
def State.boot (s : State) (c : CpuId) : State :=
  { s with
    guard := some c
    maxId := s.maxId + 1
    code := update s.code s.maxId [.watchSuspend]
    myGoldfish := update s.myGoldfish c s.maxId
    toKill := update s.toKill c none
    isIdle := update s.isIdle c false
    interrupts := update s.interrupts c false
    suspended := update s.suspended c false
    ipi := update s.ipi c false
    cpuVec := s.cpuVec ++ [c] }

/-- What a step does. -/
inductive StepEffect (s : State) : Action → List Event → State → Prop
  | bootSpin {c : CpuId} {func : Bool} (hguard : s.guard ≠ none) : StepEffect s (.boot c func) [] s
  | bootThread {c : CpuId} (hc : c ∉ s.cpuVec) (hguard : s.guard = none) :
    StepEffect s (.boot c true) [.created (s.maxId + 1)]
      ({ (s.boot c).construct with isIdle := update (s.boot c).construct.isIdle c false }.resume c)
  | bootIdle {c : CpuId} (hc : c ∉ s.cpuVec) (hguard : s.guard = none) :
    StepEffect s (.boot c false) []
      (setcontext c s.maxId { s.boot c with isIdle := update (s.boot c).isIdle c true })
  | run {c : CpuId} {alloc : Alloc} {i : Instr} {rest : List Instr} {evs : List Event} {s' : State}
    (hc : c ∈ s.cpuVec) (hsuspended : s.suspended c = false) (hcode : s.current c = i :: rest)
    (heffect : Effect s c rest i evs s') : StepEffect s (.run c alloc) evs s'
  | call {c : CpuId} {op : Op} (hc : c ∈ s.cpuVec) (hlast : s.lastContext c = some (s.stack c))
    (hcode : s.current c = [.user]) (hjoin : ∀ i, op = .join i → s.handle i = true) :
    StepEffect s (.call c op) [.act (s.stack c) (.called op)] (s.setCurrent c op.callCode)
  | finish {c : CpuId} (hc : c ∈ s.cpuVec) (hlast : s.lastContext c = some (s.stack c))
    (hcode : s.current c = [.user]) :
    StepEffect s (.finish c) [.functionReturned (s.stack c)] (s.setCurrent c exitCode)
  | timer {c : CpuId} (hc : c ∈ s.cpuVec) (hsuspended : s.suspended c = false)
    (hmode : modeOf (s.current c) = .enabled) :
    StepEffect s (.timer c) [] (s.setCurrent c (timerCode ++ s.current c))
  | ipi {c : CpuId} (hc : c ∈ s.cpuVec) (hint : s.interrupts c = true) (hipi : s.ipi c = true) :
    StepEffect s (.ipi c) []
      { s with ipi := update s.ipi c false, suspended := update s.suspended c false }
  | dropThread {i : ContextId} (hjoin : ∀ t < s.maxId, .join i ∉ s.code t) :
    StepEffect s (.dropThread i) [] { s with handle := update s.handle i false }

namespace Sound

theorem mode_enabled (h : Sound s) (hc : c ∈ s.cpuVec) (hint : s.interrupts c = true) :
    modeOf (s.current c) = .enabled := by
  have hmode := (h.onCpu c hc).mode
  cases hm : modeOf (s.current c) with
  | enabled => rfl
  | disabled =>
    rw [hm] at hmode
    simp [State.InMode, hint] at hmode
  | guarded =>
    rw [hm] at hmode
    simp [State.InMode, hint] at hmode

/-- The constructor of a CPU has set its members. -/
theorem between_boot (h : Sound s) (hc : c ∉ s.cpuVec) (hguard : s.guard = none) :
    Between c (s.boot c) := by
  refine { h.newGoldfish hc with
    mem := List.mem_append_right _ List.mem_cons_self, last := h.off c hc, mode := ?_,
    goldfish_guarded := ?_, onCpu := fun c' hc' hne => ?_ }
  · simp [State.InMode, State.boot]
  · simp [State.boot, modeOf, Instr.before]
  · have hold : c' ∈ s.cpuVec := by simpa [State.boot, hne] using hc'
    have hon := h.onCpu c' hold
    have hstack : s.stack c' ≠ s.maxId := by
      rcases h.cases_stack hold with ⟨-, halive⟩ | ⟨-, hstack, -⟩
      · exact (h.alive_lt _ halive).2.ne
      · exact hstack ▸ h.goldfish_ne_maxId hold
    have hcurrent : (s.boot c).current c' = s.current c' := update_of_ne hstack _ _
    refine ⟨by simpa [State.boot, hne] using hon.stack, ?_⟩
    rw [hcurrent]
    refine hon.mode.congr (by simp [State.boot, hne]) ?_
    simpa [State.boot, hguard] using hne.symm

/-- No assertion fails in a step. -/
theorem step_effect {a : Action} (h : Sound s) (hallowed : Allowed s a) :
    ∃ evs s', step a s = some (evs, s') ∧ StepEffect s a evs s' := by
  cases a with
  | boot c func =>
    by_cases hguard : s.guard = none
    · have hisSome : ¬ s.guard.isSome = true := by simp [hguard]
      have hlast : update s.lastContext c none = s.lastContext := by
        rw [← h.off c hallowed, update_eq_self]
      have hboot := h.between_boot hallowed hguard
      cases func with
      | false =>
        refine ⟨_, _, ?_, .bootIdle hallowed hguard⟩
        simp only [step, bootCpu, if_neg hisSome, newContext, hlast]
        rfl
      | true =>
        refine ⟨_, _, ?_, .bootThread hallowed hguard⟩
        have hconstruct := constructThread_eq hboot.toCore hboot.mode
        simp only [step, bootCpu, if_neg hisSome, newContext, hlast, if_true]
        refine (bind_of_eq_some hconstruct).trans ?_
        obtain ⟨next, ts, hready⟩ : ∃ next ts, (s.boot c).construct.queue .ready = next :: ts := by
          refine List.exists_cons_of_ne_nil ?_
          simp [State.construct, State.wake, State.wakeCpus]
        rw [resume_cons (s := { (s.boot c).construct with
          isIdle := update (s.boot c).construct.isIdle c false }) hready]
        simp only [hready]
        rfl
    · exact ⟨_, _, if_pos (Option.isSome_iff_ne_none.mpr hguard), .bootSpin hguard⟩
  | run c alloc =>
    obtain ⟨hc, hsuspended, huser⟩ := hallowed
    cases hcode : s.current c with
    | nil => exact absurd hcode (h.wellFormed_current hc).ne_nil
    | cons i rest =>
      have hi : i ≠ .user := by
        rintro rfl
        have hwf := h.wellFormed_current hc
        rw [hcode] at hwf
        rw [hwf.eq_nil rfl] at hcode
        exact huser hcode
      obtain ⟨evs, s', hexec, heffect⟩ := h.exec_effect hc hcode hi alloc
      refine ⟨evs, s', ?_, .run hc hsuspended hcode heffect⟩
      simp only [step, hcode]
      exact hexec
  | call c op =>
    obtain ⟨hc, hcode, hjoin⟩ := hallowed
    refine ⟨_, _, rfl, .call hc (h.last_of_head hc hcode id) hcode ?_⟩
    rintro i rfl
    exact hjoin
  | finish c =>
    obtain ⟨hc, hcode⟩ := hallowed
    exact ⟨_, _, rfl, .finish hc (h.last_of_head hc hcode id) hcode⟩
  | timer c =>
    obtain ⟨hc, hsuspended, hint⟩ := hallowed
    exact ⟨_, _, rfl, .timer hc hsuspended (h.mode_enabled hc hint)⟩
  | ipi c =>
    obtain ⟨hc, hint, hipi⟩ := hallowed
    exact ⟨_, _, rfl, .ipi hc hint hipi⟩
  | dropThread i =>
    obtain ⟨-, hjoin⟩ := hallowed
    refine ⟨_, _, ?_, .dropThread hjoin⟩
    refine congrArg some ?_
    cases halive : s.alive i with
    | true =>
      refine if_pos ?_
      simp [h.info i halive]
    | false => exact dropInfo_eq (h.join_dead i halive)

theorem fits_thread (h : Sound s) (hlast : s.lastContext c = some (s.stack c)) (hwf : WellFormed l)
    (hthread : ∀ i ∈ l, i.OfThread) (hjoin : ∀ i, .join i ∈ l → s.handle i = true) :
      Fits s c l := by
  refine ⟨hwf, fun _ i hi => ⟨hthread i hi, fun j hj => hjoin j (hj ▸ hi)⟩, fun hdead => ?_⟩
  rw [h.alive_of_last hlast] at hdead
  cases hdead

/-- The invariant is preserved by a step. -/
theorem step {a : Action} (h : Sound s) (heffect : StepEffect s a evs s') : Sound s' := by
  cases heffect with
  | bootSpin => exact h
  | bootThread hc hguard =>
    have hboot := h.between_boot hc hguard
    have hnew : Between _ (s.boot _).construct :=
      { hboot.newThread with
        mem := hboot.mem, last := hboot.last, mode := hboot.mode
        goldfish_guarded := by
          have hne := hboot.goldfish_ne_maxId hboot.mem
          exact (congrArg modeOf (update_of_ne hne _ _)).trans hboot.goldfish_guarded
        onCpu := fun c' hc' hne => (hboot.onCpu c' hc' hne).construct hboot.toCore hc' }
    exact Between.resume
      { hnew with onCpu := fun c' hc' hne => ⟨(hnew.onCpu c' hc' hne).stack,
        (hnew.onCpu c' hc' hne).mode⟩ }
  | bootIdle hc hguard =>
    have hboot := h.between_boot hc hguard
    have hgold := hboot.enterGoldfish
    rw [show (s.boot _).myGoldfish _ = s.maxId from update_self _ _ _] at hgold
    exact { hgold with
      onCpu := fun c' hc' => ⟨(hgold.onCpu c' hc').stack, (hgold.onCpu c' hc').mode⟩ }
  | run hc _ hcode heffect => exact h.exec hc hcode heffect
  | @call c op hc hlast hcode hjoin =>
    refine h.setCurrent hc (h.fits_thread hlast (wellFormed_callCode op) ?_ ?_) ?_
    · cases op <;>
        simp [Op.callCode, Op.code, lockCode, guarded, Instr.OfThread]
    · intro i hi
      refine hjoin i ?_
      cases op <;> simp_all [Op.callCode, Op.code, lockCode, guarded]
    · rw [hcode]
      cases op <;> rfl
  | finish hc hlast hcode =>
    refine h.setCurrent hc (h.fits_thread hlast ?_ ?_ ?_) ?_
    · simp [exitCode, WellFormed, Follows, Instr.after, Instr.before, Instr.Throws]
    · simp [exitCode, Instr.OfThread]
    · simp [exitCode]
    · rw [hcode]
      rfl
  | timer hc _ hmode => exact h.setCurrent hc (h.fits_timerCode hc hmode) hmode.symm
  | ipi => exact { h with onCpu := fun c hc => ⟨(h.onCpu c hc).stack, (h.onCpu c hc).mode⟩ }
  | dropThread hjoin =>
    exact { h.dropHandle hjoin with
      guard_mem := h.guard_mem
      onCpu := fun c hc => ⟨(h.onCpu c hc).stack, (h.onCpu c hc).mode⟩ }

end Sound

/-! ### Runs -/

variable {actions : List Action} {events : List (List Event)}

/-- What a step that is allowed does. -/
theorem Sound.effect_of_step {a : Action} (h : Sound s) (hallowed : Allowed s a)
    (hstep : Threads.step a s = some (evs, s')) : StepEffect s a evs s' := by
  obtain ⟨evs', s'', hstep', heffect⟩ := h.step_effect hallowed
  rw [hstep', Option.some.injEq, Prod.mk.injEq] at hstep
  obtain ⟨rfl, rfl⟩ := hstep
  exact heffect

/-- What holds at first of the events and the state, and is preserved by every step, holds in every
run. -/
theorem ThreadRun.invariant {I : List Event → State → Prop} (hinit : I [] State.init)
    (hstep : ∀ {tr s a evs s'}, Sound s → I tr s → StepEffect s a evs s' → I (tr ++ evs) s')
    (hrun : ThreadRun actions events s) : Sound s ∧ I events.flatten s := by
  refine Runs.invariant (fun _ events s => Sound s ∧ I events.flatten s) ⟨sound_init, hinit⟩
    (fun {_ events t t' a r} h hallowed hexec => ?_) hrun
  have heffect := h.1.effect_of_step hallowed hexec
  rw [List.flatten_append, List.flatten_singleton]
  exact ⟨h.1.step heffect, hstep h.1 h.2 heffect⟩

/-- The invariant holds in every run. -/
theorem threadRun_sound (hrun : ThreadRun actions events s) : Sound s :=
  (hrun.invariant (I := fun _ _ => True) trivial fun _ _ _ => trivial).1

/-- A run each of whose steps meets a condition on the events before it and the state in which it is
taken. -/
inductive ThreadRunWith (P : List Event → State → Action → Prop) :
    List Action → List (List Event) → State → Prop
  | nil : ThreadRunWith P [] [] State.init
  | snoc {actions : List Action} {events : List (List Event)} {s s' : State} {a : Action}
      {evs : List Event} (hrun : ThreadRunWith P actions events s) (hallowed : Allowed s a)
      (hmeets : P events.flatten s a) (hstep : step a s = some (evs, s')) :
      ThreadRunWith P (actions ++ [a]) (events ++ [evs]) s'

namespace ThreadRunWith

variable {P : List Event → State → Action → Prop}

theorem threadRun (h : ThreadRunWith P actions events s) : ThreadRun actions events s := by
  induction h with
  | nil => exact .nil
  | snoc _ hallowed _ hstep ih => exact ih.snoc hallowed hstep

/-- What holds at first, and is preserved by every step that meets the condition, holds in every
such run. -/
theorem invariant {I : List Event → State → Prop} (hinit : I [] State.init)
    (hstep : ∀ {tr s a evs s'}, Sound s → I tr s → P tr s a → StepEffect s a evs s' →
      I (tr ++ evs) s')
    (h : ThreadRunWith P actions events s) : I events.flatten s := by
  induction h with
  | nil => exact hinit
  | snoc hrun hallowed hmeets hexec ih =>
    have hsound := threadRun_sound hrun.threadRun
    rw [List.flatten_append, List.flatten_singleton]
    exact hstep hsound ih hmeets (hsound.effect_of_step hallowed hexec)

/-- A run that has been computed, each step of which has been tested, with what has been tested at
its end. -/
theorem of_check (test : State → Action → Bool) (htest : ∀ tr s a, test s a = true → P tr s a)
    (actions : List Action) (check : List (List Event) → State → Bool)
    (h : ((runAll Threads.step (fun s a => decide (Allowed s a) && test s a) actions State.init).any
      fun r => check r.1 r.2) = true) :
    ∃ events s, ThreadRunWith P actions events s ∧ check events s = true := by
  obtain ⟨⟨events, s⟩, hrun, hcheck⟩ := (Option.any_eq_true _ _).mp h
  have hruns : Runs Threads.step (fun _ s a => Allowed s a ∧ test s a = true) State.init
      actions events s :=
    Runs.of_runAll (fun _ _ _ hallowed => by simpa using hallowed) hrun
  refine ⟨events, s, ?_, hcheck⟩
  clear hrun hcheck h
  induction hruns with
  | nil => exact .nil
  | snoc _ hallowed hstep ih => exact ih.snoc hallowed.1 (htest _ _ _ hallowed.2) hstep

end ThreadRunWith

/-- CPU 0 executes some instructions of the library. -/
def runs (n : ℕ) : List Action :=
  List.replicate n (.run 0 .ok)

/-- A run that has been computed, with what has been tested at its end. -/
theorem ThreadRun.of_check (actions : List Action) (check : List (List Event) → State → Bool)
    (h : ((runAll Threads.step (fun s a => decide (Allowed s a)) actions State.init).any
      fun r => check r.1 r.2) = true) :
    ∃ events s, ThreadRun actions events s ∧ check events s = true := by
  obtain ⟨⟨events, s⟩, hrun, hcheck⟩ := (Option.any_eq_true _ _).mp h
  exact ⟨events, s, Runs.of_runAll (fun _ _ _ hallowed => of_decide_eq_true hallowed) hrun, hcheck⟩

end OsFromScratch.Threads
