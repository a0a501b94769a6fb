import OsFromScratch.Threads.Queues

/-!
# What a thread has done

The acts of a thread in the run of a function of the library follow from the code of the function.
What the thread has done in the current call, and what it still has to do, make up a call.

## Main definitions

* `acts` — what a thread has done in a run.
* `due` — what a thread still has to do.
* `Call` — the acts of a call.
* `Progress` — the invariant of the history.

## Main results

* `Progress.step` — the invariant is preserved by a step.
* `ThreadRun.progress` — the invariant holds in every run.
* `ThreadRun.acts_of_ret` — what a thread has done when a call returns.
-/

namespace OsFromScratch.Threads

open Function

variable {s s' : State} {c c' : CpuId} {t x : ContextId} {q : Queue} {i : Instr}
    {l rest : List Instr}
  {evs tr : List Event} {a : Action} {actions : List Action} {events : List (List Event)}
  {b : Act} {now past bs bs' : List Act}

/-! ### Acts -/

/-- What a thread does, or what is done to it, in an event. The thread may have to wait in a call of
`join`, which is not recorded. -/
def Event.actOf (t : ContextId) : Event → Option Act
  | .act _ (.joinQueued _) => none
  | .act x b => if x = t then some b else none
  | _ => none

/-- What a thread has done, in order. -/
def acts (t : ContextId) (tr : List Event) : List Act :=
  tr.filterMap (Event.actOf t)

@[simp]
theorem acts_append (t : ContextId) (tr evs : List Event) :
    acts t (tr ++ evs) = acts t tr ++ acts t evs :=
  List.filterMap_append

theorem mem_of_mem_acts (h : b ∈ acts t tr) : .act t b ∈ tr := by
  obtain ⟨e, he, hact⟩ := List.mem_filterMap.mp h
  cases e with
  | act x b' =>
    have hcond : x = t ∧ b' = b := by
      cases b' with
      | joinQueued i => cases hact
      | _ => simpa [Event.actOf] using hact
    obtain ⟨rfl, rfl⟩ := hcond
    exact he
  | _ => cases hact

/-- What a thread does in an instruction, and before it goes on with its code. -/
def Instr.due : Instr → List Act
  | .acquire m => [.requested m]
  | .own m => [.acquired m]
  | .releaseLock m => [.released m]
  | .sleep v => [.queued v, .woken v]
  | .signal v => [.signalled v]
  | .broadcast v => [.broadcasted v]
  | .constructThread => [.constructed]
  | .join i => [.joined i]
  | .ret op ok => [.returned op ok]
  | _ => []

/-- What a thread does in its code. -/
def due (code : List Instr) : List Act :=
  code.flatMap Instr.due

/-- What is done to a thread when it leaves its place. -/
def dueAt : CpuId ⊕ Queue → List Act
  | .inr (.cv v) => [.woken v]
  | .inr (.join i) => [.joined i]
  | _ => []

@[simp]
theorem due_cons (i : Instr) (code : List Instr) : due (i :: code) = i.due ++ due code :=
  rfl

/-- An exception leaves the function. -/
def unwound : List Act → List Act
  | [] => []
  | .returned op _ :: rest => .returned op false :: rest
  | _ :: rest => unwound rest

theorem due_unwind (code : List Instr) : due (unwind code) = unwound (due code) := by
  fun_induction unwind code with
  | case1 => rfl
  | case2 op ok rest => rfl
  | case3 i rest hret ih =>
    rw [ih, due_cons]
    cases i with
    | ret op ok => exact absurd rfl (hret op ok)
    | _ => rfl

theorem due_throwCode (code : List Instr) : due (throwCode code) = unwound (due code) :=
  due_unwind code

/-! ### Calls -/

/-- The acts of a call of a function of the library. -/
inductive Call : Op → List Act → Prop
  | done (op : Op) : Call op (.called op :: due op.callCode)
  | unlock (m : MutexId) : Call (.unlock m) [.called (.unlock m), .refused m,
    .returned (.unlock m) false]
  | wait (v : CvId) (m : MutexId) :
    Call (.wait v m) [.called (.wait v m), .refused m, .returned (.wait v m) false]
  | thread : Call .thread [.called .thread, .badAlloc, .returned .thread false]

theorem due_callCode (op : Op) : due op.callCode = due op.code ++ [.returned op true] := by
  rw [Op.callCode, due, List.flatMap_append]
  rfl

theorem returned_notMem_due (op op' : Op) (ok : Bool) : .returned op' ok ∉ due op.code := by
  cases op <;> simp [due, Op.code, guarded, lockCode, Instr.due]

/-- A call that returns. -/
theorem Call.returned {op op' : Op} (h : Call op' (now ++ .returned op true :: bs)) :
    now = .called op :: due op.code := by
  generalize hall : now ++ .returned op true :: bs = all at h
  have hmem : Act.returned op true ∈ all := by simp [← hall]
  cases h with
  | done op' =>
    rw [due_callCode] at hall hmem
    have hbefore : Act.returned op true ∉ .called op' :: due op'.code := by
      simpa using returned_notMem_due op' op true
    obtain rfl : op = op' := by simpa [returned_notMem_due] using hmem
    exact ((List.append_cons_inj_of_notMem hbefore (by simp)).mp hall.symm).1.symm
  | _ => simp at hmem

/-- What a thread has done in the current call, and what it still has to do, make up a call. -/
def InCall (past rest : List Act) : Prop :=
  rest = [] ∨ ∃ before now op, past = before ++ now ∧ Call op (now ++ rest)

/-- What a thread has done in a step, and how what it still has to do has changed. -/
inductive Progresses : List Act → List Act → List Act → Prop
  | does (bs rest : List Act) : Progresses bs (bs ++ rest) rest
  | call (op : Op) : Progresses [.called op] [] (due op.callCode)
  | refused (m : MutexId) (rest : List Act) :
    Progresses [.refused m] (.released m :: rest) (unwound rest)
  | badAlloc (rest : List Act) : Progresses [.badAlloc] (.constructed :: rest) (unwound rest)

/-- A call in which `release_lock` throws. -/
theorem Call.refused {op : Op} {m : MutexId} {now rest : List Act}
    (h : Call op (now ++ .released m :: rest)) : Call op (now ++ .refused m :: unwound rest) := by
  generalize hall : now ++ .released m :: rest = all at h
  have hmem : Act.released m ∈ all := by simp [← hall]
  cases h with
  | done op =>
    cases op with
    | unlock m' =>
      obtain rfl : m = m' := by simpa [due, Op.callCode, Op.code, guarded, Instr.due] using hmem
      have hcall : now ++ .released m :: rest =
          [.called (.unlock m)] ++ .released m :: [.returned (.unlock m) true] := hall
      obtain ⟨rfl, -, rfl⟩ := (List.append_cons_inj_of_notMem (by simp) (by simp)).mp hcall.symm
      exact .unlock m
    | wait v m' =>
      obtain rfl : m = m' := by simpa [due, Op.callCode, Op.code, guarded, lockCode,
        Instr.due] using hmem
      have hcall : now ++ .released m :: rest = [.called (.wait v m)] ++ .released m ::
          [.queued v, .woken v, .requested m, .acquired m, .returned (.wait v m) true] := hall
      obtain ⟨rfl, -, rfl⟩ := (List.append_cons_inj_of_notMem (by simp) (by simp)).mp hcall.symm
      exact .wait v m
    | _ => simp [due, Op.callCode, Op.code, guarded, lockCode, Instr.due] at hmem
  | _ => simp at hmem

/-- A call in which the constructor of a thread throws. -/
theorem Call.badAlloc {op : Op} {now rest : List Act} (h : Call op (now ++ .constructed :: rest)) :
    Call op (now ++ .badAlloc :: unwound rest) := by
  generalize hall : now ++ .constructed :: rest = all at h
  have hmem : Act.constructed ∈ all := by simp [← hall]
  cases h with
  | done op =>
    cases op with
    | thread =>
      have hcall : now ++ .constructed :: rest =
          [.called .thread] ++ .constructed :: [.returned .thread true] := hall
      obtain ⟨rfl, -, rfl⟩ := (List.append_cons_inj_of_notMem (by simp) (by simp)).mp hcall.symm
      exact .thread
    | _ => simp [due, Op.callCode, Op.code, guarded, lockCode, Instr.due] at hmem
  | _ => simp at hmem

theorem InCall.progresses (h : InCall past bs) (hbs : Progresses now bs bs') :
    InCall (past ++ now) bs' := by
  cases hbs with
  | does =>
    rcases h with hnil | ⟨before, now', op, rfl, hcall⟩
    · exact Or.inl (List.append_eq_nil_iff.mp hnil).2
    · refine Or.inr ⟨before, now' ++ now, op, List.append_assoc _ _ _, ?_⟩
      rwa [List.append_assoc]
  | call op => exact Or.inr ⟨past, [.called op], op, rfl, .done op⟩
  | refused m =>
    obtain ⟨before, now', op, rfl, hcall⟩ := h.resolve_left (by simp)
    refine Or.inr ⟨before, now' ++ [.refused m], op, List.append_assoc _ _ _, ?_⟩
    simpa using hcall.refused
  | badAlloc =>
    obtain ⟨before, now', op, rfl, hcall⟩ := h.resolve_left (by simp)
    refine Or.inr ⟨before, now' ++ [.badAlloc], op, List.append_assoc _ _ _, ?_⟩
    simpa using hcall.badAlloc

/-! ### Steps -/

theorem acts_eq_nil (h : ∀ e ∈ evs, Event.actOf t e = none) : acts t evs = [] :=
  List.filterMap_eq_nil_iff.mpr h

theorem acts_destroyed (t : ContextId) (ts : List ContextId) : acts t (ts.map .destroyed) = [] := by
  refine acts_eq_nil ?_
  simp only [List.forall_mem_map]
  exact fun _ _ => rfl

/-- The same thing is done to several threads. -/
theorem acts_map_act {ts : List ContextId} (hb : ∀ i, b ≠ .joinQueued i) (hts : ts.Nodup) :
    acts t (ts.map (.act · b)) = if t ∈ ts then [b] else [] := by
  have hact (x : ContextId) : Event.actOf t (.act x b) = if x = t then some b else none := by
    cases b with
    | joinQueued i => exact absurd rfl (hb i)
    | _ => rfl
  induction ts with
  | nil => rfl
  | cons x ts ih =>
    obtain ⟨hx, hts⟩ := List.nodup_cons.mp hts
    rw [acts, List.map_cons, List.filterMap_cons, hact]
    by_cases hxt : x = t
    · subst hxt
      have hnil := ih hts
      rw [if_neg hx] at hnil
      simp only [if_pos, List.mem_cons_self]
      exact congrArg (b :: ·) hnil
    · simp only [if_neg hxt, List.mem_cons, Ne.symm hxt, false_or]
      exact ih hts

/-- Where a thread comes from that is in a place when a CPU goes on. -/
theorem mem_place_resume {p : CpuId ⊕ Queue} (hx : x ∈ (s.resume c).place p) :
    ∃ p', x ∈ s.place p' ∧ dueAt p' = dueAt p := by
  cases p with
  | inl c' =>
    by_cases hc : c' = c
    · subst hc
      have hhead : (s.queue .ready).head? = some x := by simpa [State.place, State.resume] using hx
      exact ⟨.inr .ready, List.mem_of_mem_head? hhead, rfl⟩
    · exact ⟨.inl c', by simpa [State.place, State.resume, hc] using hx, rfl⟩
  | inr q => exact ⟨.inr q, mem_queue_resume hx, rfl⟩

/-- Where a thread comes from that is in a place when the last context of a CPU has been put into a
queue. -/
theorem Core.mem_place_enqueue {p : CpuId ⊕ Queue} (h : Core s) (hlast : s.lastContext c = some t)
    (hx : x ∈ (s.enqueue q c t).place p) : x ∈ s.place p ∧ x ≠ t ∨ p = .inr q ∧ x = t := by
  have hother (hold : x ∈ s.place p) (hp : p ≠ .inl c) : x ∈ s.place p ∧ x ≠ t := by
    refine ⟨hold, ?_⟩
    rintro rfl
    exact hp (h.places.disjoint p (.inl c) x hold (by simp [State.place, hlast]))
  cases p with
  | inl c' =>
    have hc : c' ≠ c := by
      rintro rfl
      simp [State.place, State.enqueue, State.setQueue, State.setLastContext] at hx
    refine Or.inl (hother ?_ (by simpa using hc))
    simpa [State.place, State.enqueue, State.setQueue, State.setLastContext, hc] using hx
  | inr q' =>
    rcases mem_queue_enqueue hx with hold | ⟨rfl, rfl⟩
    · exact Or.inl (hother hold (by simp))
    · exact Or.inr ⟨rfl, rfl⟩

/-- Where a thread comes from that is in a place when threads have become ready. -/
theorem Core.mem_place_moveReady {p : CpuId ⊕ Queue} (ts waiting : List ContextId) (h : Core s)
    (hq : q ≠ .ready) (hqueue : s.queue q = ts ++ waiting)
    (hx : x ∈ (s.moveReady q ts waiting).wake.place p) :
    x ∈ s.place p ∧ x ∉ ts ∨ p = .inr .ready ∧ x ∈ s.place (.inr q) ∧ x ∈ ts := by
  have hmem {x : ContextId} (hts : x ∈ ts) : x ∈ s.place (.inr q) := by
    change x ∈ s.queue q
    rw [hqueue]
    exact List.mem_append_left _ hts
  have hother (hold : x ∈ s.place p) (hp : p ≠ .inr q) : x ∈ s.place p ∧ x ∉ ts :=
    ⟨hold, fun hts => hp (h.places.disjoint p (.inr q) x hold (hmem hts))⟩
  cases p with
  | inl c' => exact Or.inl (hother hx (by simp))
  | inr q' =>
    change x ∈ update (update s.queue q waiting) .ready (s.queue .ready ++ ts) q' at hx
    by_cases hready : q' = .ready
    · subst hready
      rw [update_self, List.mem_append] at hx
      rcases hx with hx | hx
      · exact Or.inl (hother hx (by simpa using hq.symm))
      · exact Or.inr ⟨rfl, hmem hx, hx⟩
    · rw [update_of_ne hready] at hx
      by_cases hqq : q' = q
      · subst hqq
        rw [update_self] at hx
        have hnodup := h.places.nodup (.inr q')
        change (s.queue q').Nodup at hnodup
        rw [hqueue, List.nodup_append] at hnodup
        refine Or.inl ⟨?_, fun hts => hnodup.2.2 x hts x hx rfl⟩
        change x ∈ s.queue q'
        rw [hqueue]
        exact List.mem_append_right _ hx
      · rw [update_of_ne hqq] at hx
        exact Or.inl (hother hx (by simpa using hqq))

/-- Where a thread comes from that is in a place when there is a new thread. -/
theorem mem_place_construct {p : CpuId ⊕ Queue} (hx : x ∈ s.construct.place p) :
    x ∈ s.place p ∨ p = .inr .ready ∧ x = s.maxId := by
  cases p with
  | inl c => exact Or.inl hx
  | inr q =>
    by_cases hq : q = .ready
    · subst hq
      have hmem : x ∈ s.queue .ready ++ [s.maxId] := by
        simpa [State.place, State.construct, State.wake, State.wakeCpus] using hx
      rw [List.mem_append, List.mem_singleton] at hmem
      exact hmem.imp_right fun hnew => ⟨rfl, hnew⟩
    · exact Or.inl (by simpa [State.place, State.construct, State.wake,
        State.wakeCpus, hq] using hx)

/-- What a thread has to do when there is a new thread. -/
theorem Core.due_construct {p : CpuId ⊕ Queue} (h : Core s) (hx : x ∈ s.construct.place p) :
    dueAt p ++ due (s.construct.code x) = [] ∨ x ∈ s.place p ∧ s.construct.code x = s.code x := by
  rcases mem_place_construct hx with hold | ⟨rfl, rfl⟩
  · have hne : x ≠ s.maxId := fun heq => by
      have halive : s.alive x = true := h.places.mem hold
      rw [heq, h.alive_maxId] at halive
      cases halive
    exact Or.inr ⟨hold, update_of_ne hne _ _⟩
  · have hcode : s.construct.code s.maxId = startCode := update_self _ _ _
    rw [hcode]
    exact Or.inl rfl

/-- A CPU goes on with other code. -/
theorem Sound.progresses {p : CpuId ⊕ Queue} (h : Sound s) (hc : c ∈ s.cpuVec) (hx : x ∈ s.place p)
    (hstack : x = s.stack c → s.lastContext c = some (s.stack c) →
      Progresses (acts x evs) (due (s.current c)) (due l))
    (hother : x ≠ s.stack c → acts x evs = []) :
    Progresses (acts x evs) (dueAt p ++ due (s.code x))
      (dueAt p ++ due ((s.setCurrent c l).code x)) := by
  by_cases hxc : x = s.stack c
  · subst hxc
    have hcode : (s.setCurrent c l).code (s.stack c) = l := Sound.current_setCurrent s c l
    have halive : s.alive (s.stack c) = true := h.places.mem hx
    have hlast : s.lastContext c = some (s.stack c) := by
      rcases h.cases_stack hc with ⟨hlast, -⟩ | ⟨-, hgold, -⟩
      · exact hlast
      · rw [hgold, h.goldfish_dead c hc] at halive
        cases halive
    obtain rfl : p = .inl c := h.places.disjoint p (.inl c) _ hx (by simp [State.place, hlast])
    rw [hcode]
    exact hstack rfl hlast
  · rw [Sound.code_setCurrent_of_ne s c l hxc, hother hxc]
    exact .does [] _

theorem acts_act_self (hb : ∀ i, b ≠ .joinQueued i) (hx : x = t) : acts x [.act t b] = [b] := by
  rw [acts, List.filterMap_cons]
  cases b with
  | joinQueued i => exact absurd rfl (hb i)
  | _ => simp [Event.actOf, hx]

theorem acts_act_of_ne (hx : x ≠ t) : acts x [.act t b] = [] := by
  rw [acts, List.filterMap_cons]
  cases b <;> simp [Event.actOf, hx.symm]

/-- What a thread does that is put into a queue. -/
theorem Blocks.due_eq (h : Blocks s c t i q evs) : i.due = acts t evs ++ dueAt (.inr q) := by
  cases h with
  | acquire => rw [acts_act_self (by simp) rfl]; rfl
  | sleep => rw [acts_act_self (by simp) rfl]; rfl
  | _ => rfl

theorem Blocks.acts_of_ne (h : Blocks s c t i q evs) (hx : x ≠ t) : acts x evs = [] := by
  cases h with
  | yield => rfl
  | timer => rfl
  | _ => exact acts_act_of_ne hx

theorem acts_cons (x : ContextId) (e : Event) (evs : List Event) :
    acts x (e :: evs) = acts x [e] ++ acts x evs :=
  acts_append x [e] evs

/-- What is done to the threads that an instruction wakes up. -/
theorem Wakes.acts_eq {ts waiting : List ContextId} (h : Wakes s t i q ts waiting evs)
    (hnodup : ts.Nodup) (x : ContextId) :
    acts x evs = (if x = t then i.due else []) ++ if x ∈ ts then dueAt (.inr q) else [] := by
  have hself (b : Act) (hb : ∀ i, b ≠ .joinQueued i) :
      acts x [.act t b] = if x = t then [b] else [] := by
    split_ifs with hx
    · exact acts_act_self hb hx
    · exact acts_act_of_ne hx
  cases h with
  | @signal v next =>
    rw [acts_cons, hself _ (by simp)]
    exact congrArg _ (acts_map_act (by simp) hnodup)
  | broadcast =>
    rw [acts_cons, hself _ (by simp)]
    exact congrArg _ (acts_map_act (by simp) hnodup)

/-- What a thread does in an instruction. -/
theorem Effect.progresses {p : CpuId ⊕ Queue} (h : Effect s c rest i evs s') (hsound : Sound s)
    (hc : c ∈ s.cpuVec) (hcode : s.current c = i :: rest) (hx : x ∈ s'.place p) :
    dueAt p ++ due (s'.code x) = [] ∨ ∃ p', x ∈ s.place p' ∧
      Progresses (acts x evs) (dueAt p' ++ due (s.code x)) (dueAt p ++ due (s'.code x)) := by
  have hgo {p : CpuId ⊕ Queue} (hx : x ∈ s.place p) (hdue : x = s.stack c → acts x evs = i.due)
      (hother : x ≠ s.stack c → acts x evs = []) :
      Progresses (acts x evs) (dueAt p ++ due (s.code x))
        (dueAt p ++ due ((s.setCurrent c rest).code x)) := by
    refine hsound.progresses hc hx (fun hxc _ => ?_) hother
    rw [hcode, due_cons, hdue hxc]
    exact .does _ _
  have hthrow {p : CpuId ⊕ Queue} (hx : x ∈ s.place p)
      (hdue : x = s.stack c → Progresses (acts x evs) (i.due ++ due rest) (unwound (due rest)))
      (hother : x ≠ s.stack c → acts x evs = []) :
      Progresses (acts x evs) (dueAt p ++ due (s.code x))
        (dueAt p ++ due ((s.setCurrent c (throwCode rest)).code x)) := by
    refine hsound.progresses hc hx (fun hxc _ => ?_) hother
    rw [hcode, due_cons, due_throwCode]
    exact hdue hxc
  cases h with
  | interruptDisable => exact Or.inr ⟨p, hx, hgo hx (fun _ => rfl) fun _ => rfl⟩
  | interruptEnable => exact Or.inr ⟨p, hx, hgo hx (fun _ => rfl) fun _ => rfl⟩
  | suspend => exact Or.inr ⟨p, hx, hgo hx (fun _ => rfl) fun _ => rfl⟩
  | spin => exact Or.inr ⟨p, hx, .does [] _⟩
  | guardLock => exact Or.inr ⟨p, hx, hgo hx (fun _ => rfl) fun _ => rfl⟩
  | guardUnlock => exact Or.inr ⟨p, hx, hgo hx (fun _ => rfl) fun _ => rfl⟩
  | ret => exact Or.inr ⟨p, hx, hgo hx (acts_act_self (by simp)) acts_act_of_ne⟩
  | acquire => exact Or.inr ⟨p, hx, hgo hx (acts_act_self (by simp)) acts_act_of_ne⟩
  | own => exact Or.inr ⟨p, hx, hgo hx (acts_act_self (by simp)) acts_act_of_ne⟩
  | release => exact Or.inr ⟨p, hx, hgo hx (acts_act_self (by simp)) acts_act_of_ne⟩
  | refused =>
    refine Or.inr ⟨p, hx, hthrow hx (fun hxc => ?_) acts_act_of_ne⟩
    rw [acts_act_self (by simp) hxc]
    exact .refused _ _
  | badAlloc =>
    refine Or.inr ⟨p, hx, hthrow hx (fun hxc => ?_) acts_act_of_ne⟩
    rw [acts_act_self (by simp) hxc]
    exact .badAlloc _
  | handOff hlast hfree howner hqueue =>
    have hcore := (hsound.pop hc hcode rfl rfl).1.toCore
    rcases hcore.mem_place_moveReady [_] _ (by simp) hqueue hx with ⟨hold, -⟩ | ⟨rfl, hold, -⟩
    · exact Or.inr ⟨p, hold, hgo hold (acts_act_self (by simp)) acts_act_of_ne⟩
    · have hold' : x ∈ s.place (.inr (.mutex _)) := hold
      exact Or.inr ⟨_, hold', (hgo hold' (acts_act_self (by simp)) acts_act_of_ne :)⟩
  | @blocks i q evs hlast hi =>
    obtain ⟨p', hx', hdue⟩ := mem_place_resume hx
    have hcore := (hsound.pop hc hcode hi.guarded.1 hi.guarded.2).1.toCore
    rw [← hdue]
    rcases hcore.mem_place_enqueue hlast hx' with ⟨hold, hne⟩ | ⟨rfl, rfl⟩
    · refine Or.inr ⟨p', hold, ?_⟩
      have hcode' : (((s.setCurrent c rest).enqueue q c (s.stack c)).resume c).code x = s.code x :=
        Sound.code_setCurrent_of_ne s c rest hne
      rw [hcode', hi.acts_of_ne hne]
      exact .does [] _
    · refine Or.inr ⟨.inl c, by simp [State.place, hlast], ?_⟩
      have hnew : (((s.setCurrent c rest).enqueue q c (s.stack c)).resume c).code
          (s.stack c) = rest :=
        Sound.current_setCurrent s c rest
      rw [hnew, ← State.current, hcode, due_cons, hi.due_eq, List.append_assoc]
      exact .does _ _
  | @wakes i q ts waiting evs hlast hi =>
    have hcore := (hsound.pop hc hcode hi.guarded.1 hi.guarded.2).1.toCore
    have hnodup : ts.Nodup := by
      have hqueue := hsound.places.nodup (.inr q)
      rw [State.place, hi.queue.2] at hqueue
      exact (List.nodup_append.mp hqueue).1
    rcases hcore.mem_place_moveReady ts waiting hi.queue.1 hi.queue.2 hx with ⟨hold, hts⟩ |
      ⟨rfl, hold, hts⟩
    · have hacts := hi.acts_eq hnodup x
      rw [if_neg hts, List.append_nil] at hacts
      refine Or.inr ⟨p, hold, hgo hold (fun hxc => ?_) fun hne => ?_⟩
      · rw [hacts, if_pos hxc]
      · rw [hacts, if_neg hne]
    · have hold' : x ∈ s.queue q := hold
      have hne : x ≠ s.stack c := fun heq => hsound.stack_not_mem_queue hc (heq ▸ hold')
      have hcode' : ((s.setCurrent c rest).moveReady q ts waiting).wake.code x = s.code x :=
        Sound.code_setCurrent_of_ne s c rest hne
      refine Or.inr ⟨.inr q, hold', ?_⟩
      rw [hi.acts_eq hnodup, if_neg hne, if_pos hts, hcode']
      exact .does _ _
  | skips hi =>
    cases hi with
    | signal => exact Or.inr ⟨p, hx, hgo hx (acts_act_self (by simp)) acts_act_of_ne⟩
    | join => exact Or.inr ⟨p, hx, hgo hx (acts_act_self (by simp)) acts_act_of_ne⟩
    | _ => exact Or.inr ⟨p, hx, hgo hx (fun _ => rfl) fun _ => rfl⟩
  | construct hlast =>
    rcases (hsound.pop hc hcode rfl rfl).1.toCore.due_construct hx with hnil | ⟨hold, hcode'⟩
    · exact Or.inl hnil
    · refine Or.inr ⟨p, hold, ?_⟩
      rw [hcode']
      refine hgo hold (fun hxc => ?_) fun hne => ?_
      · rw [acts_cons, acts_act_self (by simp) hxc]
        rfl
      · rw [acts_cons, acts_act_of_ne hne]
        rfl
  | exit hlast =>
    obtain ⟨p', hx', hdue⟩ := mem_place_resume hx
    have hacts : acts x (.exited (s.stack c) :: (s.queue (.join (s.stack c))).map
        (.act · (.joined (s.stack c))) ++ (s.toKill c).toList.map .destroyed) =
          if x ∈ s.queue (.join (s.stack c)) then [.joined (s.stack c)] else [] := by
      rw [acts_append, acts_destroyed, List.append_nil, acts_cons]
      exact acts_map_act (by simp) (hsound.places.nodup (.inr (.join (s.stack c))))
    have hmoved : x ∈ (s.moveReady (.join (s.stack c)) (s.queue (.join (s.stack c)))
        []).wake.place p' ∧
        p' ≠ .inl c := by
      cases p' with
      | inr q => exact ⟨hx', by simp⟩
      | inl c' =>
        have hne : c' ≠ c := by
          rintro rfl
          simp [State.place, State.exit] at hx'
        exact ⟨by simpa [State.place, State.exit, hne] using hx', by simpa using hne⟩
    have hcode' (hne : x ≠ s.stack c) : ((s.exit c (s.stack c)).resume c).code x = s.code x :=
      update_of_ne hne _ _
    rw [hacts, ← hdue]
    rcases hsound.toCore.mem_place_moveReady _ _ (by simp) (List.append_nil _).symm hmoved.1 with
      ⟨hold, hts⟩ | ⟨rfl, hold, hts⟩
    · have hne : x ≠ s.stack c := by
        rintro rfl
        exact hmoved.2 (hsound.places.disjoint p' (.inl c) _ hold (by simp [State.place, hlast]))
      rw [if_neg hts, hcode' hne]
      exact Or.inr ⟨p', hold, .does [] _⟩
    · have hne : x ≠ s.stack c := fun heq => hsound.stack_not_mem_queue hc (heq ▸ hts)
      rw [if_pos hts, hcode' hne]
      exact Or.inr ⟨_, hold, .does _ _⟩
  | idle hlast =>
    refine Or.inr ⟨p, hx, hsound.progresses hc hx (fun _ hthread => ?_) fun _ => acts_destroyed _ _⟩
    rw [hlast] at hthread
    cases hthread
  | take hlast =>
    obtain ⟨p', hx', hdue⟩ := mem_place_resume hx
    refine Or.inr ⟨p', hx', ?_⟩
    rw [acts_destroyed, hdue]
    exact .does [] _

/-- What a thread does in a step. -/
theorem StepEffect.progresses {p : CpuId ⊕ Queue} (h : StepEffect s a evs s') (hsound : Sound s)
    (hx : x ∈ s'.place p) :
    dueAt p ++ due (s'.code x) = [] ∨ ∃ p', x ∈ s.place p' ∧
      Progresses (acts x evs) (dueAt p' ++ due (s.code x)) (dueAt p ++ due (s'.code x)) := by
  have hboot {c : CpuId} {p : CpuId ⊕ Queue} (hx : x ∈ s.place p) : (s.boot c).code x =
      s.code x := by
    refine update_of_ne (fun heq => ?_) _ _
    have halive : s.alive x = true := hsound.places.mem hx
    rw [heq, hsound.alive_maxId] at halive
    cases halive
  cases h with
  | bootSpin => exact Or.inr ⟨p, hx, .does [] _⟩
  | @bootThread c hc hguard =>
    obtain ⟨p', hx', hdue⟩ := mem_place_resume hx
    rw [← hdue]
    rcases (hsound.between_boot hc hguard).toCore.due_construct hx' with hnil | ⟨hold, hcode⟩
    · exact Or.inl hnil
    · refine Or.inr ⟨p', hold, ?_⟩
      have hcode' := hcode.trans (hboot hold)
      exact (congrArg (fun code => Progresses [] _ (dueAt p' ++ due code)) hcode').mpr (.does [] _)
  | @bootIdle c hc hguard =>
    refine Or.inr ⟨p, hx, ?_⟩
    exact (congrArg (fun code => Progresses [] _ (dueAt p ++ due code))
      (hboot (c := c) hx)).mpr (.does [] _)
  | run hc _ hcode heffect => exact heffect.progresses hsound hc hcode hx
  | call hc hlast hcode =>
    refine Or.inr ⟨p, hx, hsound.progresses hc hx (fun hxc _ => ?_) acts_act_of_ne⟩
    rw [acts_act_self (by simp) hxc, hcode]
    exact .call _
  | finish hc hlast hcode =>
    refine Or.inr ⟨p, hx, hsound.progresses hc hx (fun hxc _ => ?_) fun _ => rfl⟩
    rw [hcode]
    exact .does [] []
  | timer hc =>
    refine Or.inr ⟨p, hx, hsound.progresses hc hx (fun hxc _ => ?_) fun _ => rfl⟩
    exact .does [] _
  | ipi => exact Or.inr ⟨p, hx, .does [] _⟩
  | dropThread => exact Or.inr ⟨p, hx, .does [] _⟩

/-! ### Runs -/

/-- What every thread has done in its call, and what it still has to do there, make up a call. -/
def Progress (tr : List Event) (s : State) : Prop :=
  ∀ p, ∀ x ∈ s.place p, InCall (acts x tr) (dueAt p ++ due (s.code x))

theorem Progress.step (h : Progress tr s) (hsound : Sound s) (heffect : StepEffect s a evs s') :
    Progress (tr ++ evs) s' := by
  intro p x hx
  rw [acts_append]
  rcases heffect.progresses hsound hx with hnil | ⟨p', hx', hprogress⟩
  · exact Or.inl hnil
  · exact (h p' x hx').progresses hprogress

/-- The invariant of the history holds in every run. -/
theorem ThreadRun.progress (hrun : ThreadRun actions events s) : Progress events.flatten s :=
  (hrun.invariant (I := Progress) (fun p x hx => by rcases p with c | q <;> cases hx)
    fun hsound h heffect => h.step hsound heffect).2

/-- What a thread has done when a call returns. -/
theorem ThreadRun.acts_of_ret {op : Op} (hrun : ThreadRun actions events s) (hc : c ∈ s.cpuVec)
    (hcode : s.current c = .ret op true :: rest) :
    ∃ before, acts (s.stack c) events.flatten = before ++ .called op :: due op.code := by
  have hlast := (threadRun_sound hrun).last_of_head hc hcode id
  have hin := hrun.progress (.inl c) (s.stack c) (by simp [State.place, hlast])
  rw [← State.current, hcode] at hin
  obtain ⟨before, now, op', hacts, hcall⟩ := hin.resolve_left (by simp [Instr.due])
  exact ⟨before, by rw [hacts, hcall.returned]⟩

end OsFromScratch.Threads
