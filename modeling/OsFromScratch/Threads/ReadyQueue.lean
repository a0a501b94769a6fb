import OsFromScratch.Threads.Steps

/-!
# The order of the ready queue

The CPUs take the threads from the ready queue in the order in which these have become ready,
whoever has made them ready and whichever CPU takes them. A thread that is ready is not overtaken.

## Main definitions

* `dispatched` — the thread that a CPU begins to run in a step.
* `Dispatches` — the threads that the CPUs begin to run in a run, in order.

## Main results

* `StepEffect.ready` — the ready queue after a step.
* `threadRun_ready` — before a thread that is ready, the CPUs run those that are ahead of it.
-/

namespace OsFromScratch.Threads

open Function

variable {s s' s₁ : State} {c : CpuId} {t x : ContextId} {i : Instr} {rest : List Instr}
  {evs : List Event} {a : Action} {actions : List Action} {events : List (List Event)}
  {ds pre post : List ContextId}

/-- The thread that a CPU begins to run in a step. -/
def dispatched (a : Action) (s s' : State) : List ContextId :=
  match a.cpu with
  | some c => if s'.lastContext c = s.lastContext c then [] else (s'.lastContext c).toList
  | none => []

/-- The threads that the CPUs begin to run when the machine goes on from `s` to `s'`. -/
inductive Dispatches (s : State) : List ContextId → State → Prop
  | nil : Dispatches s [] s
  | snoc {ds : List ContextId} {s₁ s₂ : State} {a : Action} {evs : List Event}
      (h : Dispatches s ds s₁) (hallowed : Allowed s₁ a) (hstep : step a s₁ = some (evs, s₂)) :
      Dispatches s (ds ++ dispatched a s₁ s₂) s₂

/-! ### One step -/

theorem dispatched_of_last (h : s'.lastContext = s.lastContext) : dispatched a s s' = [] := by
  rw [dispatched, h]
  split
  · exact if_pos rfl
  · rfl

/-- The CPU goes on with the first thread that is ready. -/
theorem dispatched_resume (ha : a.cpu = some c)
    (hlast : ∀ t, s.lastContext c = some t → (s₁.queue .ready).head? ≠ some t) :
    dispatched a s (s₁.resume c) ++ (s₁.resume c).queue .ready = s₁.queue .ready := by
  have hnew : (s₁.resume c).lastContext c = (s₁.queue .ready).head? := by simp [State.resume]
  have hrest : (s₁.resume c).queue .ready = (s₁.queue .ready).tail := by simp [State.resume]
  rw [dispatched, ha, hrest]
  simp only [hnew]
  cases hqueue : s₁.queue .ready with
  | nil => split <;> rfl
  | cons t ts =>
    have hne : some t ≠ s.lastContext c := fun heq =>
      hlast t heq.symm (by rw [hqueue, List.head?_cons])
    simp [hne]

/-- The instruction puts the thread at the end of a queue. -/
theorem Blocks.ready {q : Queue} (h : Blocks s c t i q evs) (hself : t ∉ s.queue .ready)
    (rest : List Instr) :
    ∃ new, ((s.setCurrent c rest).enqueue q c t).queue .ready = s.queue .ready ++ new ∧
      (s.queue .ready ++ new).head? ≠ some t := by
  by_cases hq : q = .ready
  · have hready : s.queue .ready ≠ [] := by
      subst hq
      cases h <;> assumption
    refine ⟨[t], ?_, ?_⟩
    · simp [State.enqueue, State.setQueue, State.setLastContext, State.setCurrent, hq]
    · obtain ⟨y, ys, hqueue⟩ := List.exists_cons_of_ne_nil hready
      rw [hqueue] at hself ⊢
      rw [List.cons_append, List.head?_cons, ne_eq, Option.some.injEq]
      exact fun heq => hself (heq ▸ List.mem_cons_self)
  · refine ⟨[], ?_, ?_⟩
    · simp [State.enqueue, State.setQueue, State.setLastContext, State.setCurrent, Ne.symm hq]
    · rw [List.append_nil]
      exact fun hhead => hself (List.mem_of_mem_head? hhead)

/-- The ready queue after an instruction. -/
theorem Effect.ready (h : Effect s c rest i evs s') (hsound : Sound s) (ha : a.cpu = some c) :
    ∃ new, s.queue .ready ++ new = dispatched a s s' ++ s'.queue .ready := by
  have hkeep {s' : State} (new : List ContextId) (hlast : s'.lastContext = s.lastContext)
      (hready : s'.queue .ready = s.queue .ready ++ new) :
      ∃ new, s.queue .ready ++ new = dispatched a s s' ++ s'.queue .ready :=
    ⟨new, by rw [dispatched_of_last hlast, hready, List.nil_append]⟩
  have hresume {s₁ : State} (new : List ContextId)
      (hready : s₁.queue .ready = s.queue .ready ++ new)
      (hlast : ∀ t, s.lastContext c = some t → (s₁.queue .ready).head? ≠ some t) :
      ∃ new, s.queue .ready ++ new = dispatched a s (s₁.resume c) ++ (s₁.resume c).queue .ready :=
    ⟨new, by rw [dispatched_resume ha hlast, hready]⟩
  cases h with
  | @handOff _ next =>
    exact hkeep [next] rfl (by simp [State.moveReady, State.wake, State.wakeCpus, State.setQueue,
      State.setCurrent])
  | @wakes _ _ ts =>
    exact hkeep ts rfl (by simp [State.moveReady, State.wake, State.wakeCpus, State.setQueue,
      State.setCurrent])
  | construct =>
    exact hkeep [s.maxId] rfl (by simp [State.construct, State.wake, State.wakeCpus,
      State.setCurrent])
  | blocks hlast hi =>
    obtain ⟨new, hready, hhead⟩ := hi.ready (hsound.not_mem_queue_of_last hlast) rest
    refine hresume new hready fun t ht => ?_
    obtain rfl := Option.some.inj (hlast.symm.trans ht)
    rw [hready]
    exact hhead
  | exit hlast =>
    have hready : (s.exit c (s.stack c)).queue .ready =
        s.queue .ready ++ s.queue (.join (s.stack c)) := by
      simp [State.exit, State.moveReady, State.wake, State.wakeCpus, State.setQueue]
    refine hresume _ hready fun t ht hhead => ?_
    rw [hready] at hhead
    rcases List.mem_append.mp (List.mem_of_mem_head? hhead) with hmem | hmem
    · exact hsound.not_mem_queue_of_last ht hmem
    · exact hsound.not_mem_queue_of_last ht hmem
  | take hlast =>
    refine hresume [] (List.append_nil _).symm fun t ht => ?_
    rw [hlast] at ht
    cases ht
  | _ => exact hkeep [] rfl (List.append_nil _).symm

/-- The ready queue after a step. -/
theorem StepEffect.ready (h : StepEffect s a evs s') (hsound : Sound s) :
    ∃ new, s.queue .ready ++ new = dispatched a s s' ++ s'.queue .ready := by
  have hkeep {s' : State} (hlast : s'.lastContext = s.lastContext)
      (hready : s'.queue .ready = s.queue .ready) :
      ∃ new, s.queue .ready ++ new = dispatched a s s' ++ s'.queue .ready :=
    ⟨[], by rw [dispatched_of_last hlast, hready, List.append_nil, List.nil_append]⟩
  cases h with
  | @bootThread c hc =>
    refine ⟨[s.maxId + 1], ?_⟩
    have hready : ({ (s.boot c).construct with
        isIdle := update (s.boot c).construct.isIdle c false } : State).queue .ready =
        s.queue .ready ++ [s.maxId + 1] := by
      simp [State.construct, State.boot, State.wake, State.wakeCpus]
    rw [dispatched_resume rfl fun t ht => ?_, hready]
    rw [hsound.off c hc] at ht
    cases ht
  | run _ _ _ heffect => exact heffect.ready hsound rfl
  | _ => exact hkeep rfl rfl

/-! ### Runs -/

/-- The threads that have become ready are run in the same order. -/
theorem Dispatches.ready (h : Dispatches s ds s') (hsound : Sound s) :
    Sound s' ∧ ∃ new, s.queue .ready ++ new = ds ++ s'.queue .ready := by
  induction h with
  | nil => exact ⟨hsound, [], List.append_nil _⟩
  | snoc _ hallowed hstep ih =>
    obtain ⟨hsound₁, new, hnew⟩ := ih
    have heffect := hsound₁.effect_of_step hallowed hstep
    obtain ⟨new', hnew'⟩ := heffect.ready hsound₁
    refine ⟨hsound₁.step heffect, new ++ new', ?_⟩
    rw [← List.append_assoc, hnew, List.append_assoc, hnew', List.append_assoc]

/-- In every run the threads that are ready are run first come first served. As long as a thread
waits in the ready queue, the CPUs begin to run threads that are ahead of it, and only these, in
order; the next one after the last of them is the thread itself. -/
theorem threadRun_ready (hrun : ThreadRun actions events s)
    (hready : s.queue .ready = pre ++ x :: post) (hds : Dispatches s ds s') :
    (∃ k new, k ≤ pre.length ∧ ds = pre.take k ∧
      s'.queue .ready = pre.drop k ++ x :: (post ++ new)) ∨
    pre ++ [x] <+: ds := by
  obtain ⟨-, new, hnew⟩ := hds.ready (threadRun_sound hrun)
  rw [hready, List.append_assoc, List.cons_append] at hnew
  rcases List.append_eq_append_iff.mp hnew.symm with ⟨ahead, rfl, hrest⟩ | ⟨behind, rfl, hrest⟩
  · refine Or.inl ⟨ds.length, new, by simp, ?_, ?_⟩
    · rw [List.take_left]
    · rw [List.drop_left, hrest]
  · cases behind with
    | nil =>
      refine Or.inl ⟨pre.length, new, le_rfl, by simp, ?_⟩
      rw [List.drop_length, List.nil_append]
      exact hrest.symm
    | cons y behind =>
      rw [List.cons_append, List.cons.injEq] at hrest
      refine Or.inr ⟨behind, ?_⟩
      rw [hrest.1, List.append_assoc, List.singleton_append]

/-- What the CPUs do when the machine goes on. -/
theorem exists_dispatches (h : Runs step (fun _ => Allowed) s actions events s') :
    ∃ ds, Dispatches s ds s' := by
  induction h with
  | nil => exact ⟨[], .nil⟩
  | snoc _ hallowed hstep ih =>
    obtain ⟨ds, hds⟩ := ih
    exact ⟨_, hds.snoc hallowed hstep⟩

/-- A thread constructs another one. -/
def constructOther : List Action :=
  [.boot 0 true] ++ runs 2 ++ [.call 0 .thread] ++ runs 6

/-- The other thread is the first one that the CPU runs when the first thread yields. -/
theorem threadRun_ready_constructOther :
    ∃ events s s' ds, ThreadRun constructOther events s ∧ s.queue .ready = [3] ∧
      Dispatches s ds s' ∧ [3] <+: ds := by
  obtain ⟨events, s, hrun, hcheck⟩ := ThreadRun.of_check constructOther
    (fun _ s => s.queue .ready = [3] &&
      (runAll step (fun s a => decide (Allowed s a)) ([.call 0 .yield] ++ runs 3) s).any
        fun r => r.2.queue .ready = [2]) (by decide +kernel)
  obtain ⟨hready, hnext⟩ := (Bool.and_eq_true _ _).mp hcheck
  obtain ⟨⟨events', s'⟩, hrun', hready'⟩ := (Option.any_eq_true _ _).mp hnext
  obtain ⟨ds, hds⟩ := exists_dispatches
    (Runs.of_runAll (fun _ _ _ hallowed => of_decide_eq_true hallowed) hrun')
  refine ⟨events, s, s', ds, hrun, of_decide_eq_true hready, hds, ?_⟩
  have hfirst : s.queue .ready = [] ++ 3 :: [] := of_decide_eq_true hready
  rcases threadRun_ready hrun hfirst hds with ⟨k, new, -, -, hwaits⟩ | hprefix
  · rw [of_decide_eq_true hready', List.drop_nil, List.nil_append, List.cons.injEq] at hwaits
    exact absurd hwaits.1 (by decide)
  · exact hprefix

end OsFromScratch.Threads
