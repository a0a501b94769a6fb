import Mathlib.Data.List.Chain
import OsFromScratch.Threads.Queues

/-!
# How long the guard is held

The guard is a lock that the CPUs spin on. A CPU that holds it can always go on, and the others do
not change what it executes. It gives the guard up after at most four of its own instructions, even
if the thread that it runs is put into a queue and it goes on with another context, which gives up
the guard that the first one has taken.

## Main definitions

* `Instr.Next` — what is executed after an instruction of a guarded section.
* `ShortSections` — the guarded sections are short.
* `State.left` — a bound on the instructions that are left before the guard is given up.

## Main results

* `StepEffect.goes` — how the code of a context changes in a step.
* `Sound.undisturbed`, `ShortSections.run` — steps of the other CPUs, and of the one that holds
  the guard.
* `threadRun_guard` — the guard is given up after at most four instructions.
-/

namespace OsFromScratch.Threads

open Function

variable {s s' : State} {c c' : CpuId} {t x : ContextId} {q : Queue} {i j : Instr}
  {l rest : List Instr} {evs tr : List Event} {a : Action} {alloc : Alloc} {actions : List Action}
  {events : List (List Event)}

/-! ### How the code of a context changes -/

/-- What a context may have to execute after a step. -/
inductive Goes (code : List Instr) : List Instr → Prop
  | same : Goes code code
  | tail {i : Instr} {rest : List Instr} (hcode : code = i :: rest) : Goes code rest
  | throw {i : Instr} {rest : List Instr} (hcode : code = i :: rest) : Goes code (throwCode rest)
  | call (op : Op) : Goes code op.callCode
  | finish : Goes code exitCode
  | timer : Goes code (timerCode ++ code)
  | start : Goes code startCode
  | idle : Goes code idleCode
  | watch : Goes code [.watchSuspend]
  | nil : Goes code []

theorem Goes.updated {f : ContextId → List Instr} (h : Goes (f x) l) (t : ContextId) :
    Goes (f t) (update f x l t) := by
  by_cases ht : t = x
  · rw [ht, update_self]
    exact h
  · rw [update_of_ne ht]
    exact .same

/-- A new context begins to execute. -/
theorem Goes.started {f g : ContextId → List Instr} (h : Goes (f t) (g t)) :
    Goes (f t) (update g x startCode t) := by
  by_cases ht : t = x
  · rw [ht, update_self]
    exact .start
  · rw [update_of_ne ht]
    exact h

/-- How the code of a context changes in an instruction. -/
theorem Effect.goes (h : Effect s c rest i evs s') (hcode : s.current c = i :: rest)
    (t : ContextId) : Goes (s.code t) (s'.code t) := by
  have htail : Goes (s.code (s.stack c)) rest := .tail hcode
  have hthrow : Goes (s.code (s.stack c)) (throwCode rest) := .throw hcode
  cases h with
  | spin => exact .same
  | take => exact .same
  | exit => exact Goes.nil.updated t
  | idle => exact Goes.idle.updated t
  | refused => exact hthrow.updated t
  | badAlloc => exact hthrow.updated t
  | construct => exact (htail.updated t).started
  | _ => exact htail.updated t

/-- How the code of a context changes in a step. -/
theorem StepEffect.goes (h : StepEffect s a evs s') (t : ContextId) :
    Goes (s.code t) (s'.code t) := by
  cases h with
  | bootSpin => exact .same
  | bootThread => exact (Goes.watch.updated t).started
  | bootIdle => exact Goes.watch.updated t
  | run _ _ hcode heffect => exact heffect.goes hcode t
  | @call c op => exact (Goes.call op).updated t
  | finish => exact Goes.finish.updated t
  | timer => exact Goes.timer.updated t
  | ipi => exact .same
  | dropThread => exact .same

/-! ### Guarded sections -/

/-- What is executed after an instruction of a guarded section, and after its end. -/
def Instr.Next : Instr → Instr → Prop
  | .acquire m, j => j = .own m
  | .releaseLock _, j => j = .guardUnlock ∨ ∃ v, j = .sleep v
  | .guardUnlock, j => j = .interruptEnable ∨ j = .interruptEnableSuspend
  | .own _, j | .sleep _, j | .signal _, j | .broadcast _, j | .constructThread, j | .join _, j
  | .yield, j | .timer, j => j = .guardUnlock
  | _, _ => True

theorem chain_unwind (h : l.IsChain Instr.Next) : (unwind l).IsChain Instr.Next := by
  fun_induction unwind l with
  | case1 => exact .nil
  | case2 op ok rest => exact List.isChain_cons.mpr ⟨fun _ _ => trivial, h.tail⟩
  | case3 _ _ _ ih => exact ih h.tail

theorem chain_throwCode (h : l.IsChain Instr.Next) : (throwCode l).IsChain Instr.Next :=
  List.isChain_cons_cons.mpr ⟨Or.inl rfl,
    List.isChain_cons.mpr ⟨fun _ _ => trivial, chain_unwind h⟩⟩

theorem chain_callCode (op : Op) : op.callCode.IsChain Instr.Next := by
  cases op <;> simp [Op.callCode, Op.code, lockCode, guarded, Instr.Next]

theorem chain_timerCode (h : l.IsChain Instr.Next) : (timerCode ++ l).IsChain Instr.Next := by
  refine List.isChain_append.mpr ⟨by simp [timerCode, guarded, Instr.Next], h, ?_⟩
  rintro i hi - -
  rw [show timerCode.getLast? = some .interruptEnable from rfl] at hi
  cases hi
  trivial

theorem Goes.chain {code : List Instr} (h : Goes code l) (hcode : code.IsChain Instr.Next) :
    l.IsChain Instr.Next := by
  cases h with
  | same => exact hcode
  | tail heq =>
    rw [heq] at hcode
    exact hcode.tail
  | throw heq =>
    rw [heq] at hcode
    exact chain_throwCode hcode.tail
  | call op => exact chain_callCode op
  | finish => simp [exitCode, Instr.Next]
  | timer => exact chain_timerCode hcode
  | start => simp [startCode, Instr.Next]
  | idle => simp [idleCode, Instr.Next]
  | watch => exact .singleton _
  | nil => exact .nil

/-- A context that is entered gives up the guard at once, or sets the owner of a mutex before. -/
def Saved (code : List Instr) : Prop :=
  code.head? = some .guardUnlock ∨ ∃ m, code.head? = some (.own m)

/-- The guarded sections are short, and a CPU that does not accept interrupts is not suspended. -/
structure ShortSections (s : State) : Prop where
  chain : ∀ t, (s.code t).IsChain Instr.Next
  saved : ∀ q, ∀ t ∈ s.queue q, Saved (s.code t)
  suspended : ∀ c, s.suspended c = true → s.interrupts c = true

/-- A bound on the instructions that are left before a CPU gives up the guard. -/
def State.left (s : State) (c : CpuId) : ℕ :=
  match s.current c with
  | .guardUnlock :: _ => 1
  | .own _ :: _ | .signal _ :: _ | .broadcast _ :: _ | .constructThread :: _ => 2
  | .timer :: _ => if s.lastContext c = none then 2 else 3
  | .watchSuspend :: _ => if s.queue .ready = [] then 2 else 3
  | .releaseLock _ :: _ => 4
  | _ => 3

theorem left_le (s : State) (c : CpuId) : s.left c ≤ 4 := by
  unfold State.left
  split <;> try split_ifs
  all_goals omega

theorem left_pos (s : State) (c : CpuId) : 0 < s.left c := by
  unfold State.left
  split <;> try split_ifs
  all_goals omega

/-- The code of a thread after it has been put into a queue. -/
theorem Blocks.saved (h : Blocks s c t i q evs) (hwf : WellFormed (i :: rest))
    (hchain : (i :: rest).IsChain Instr.Next) : Saved rest := by
  cases rest with
  | nil => cases h <;> cases hwf
  | cons j rest =>
    have hnext : i.Next j := (List.isChain_cons_cons.mp hchain).1
    cases h with
    | acquire => exact Or.inr ⟨_, congrArg some hnext⟩
    | _ => exact Or.inl (congrArg some hnext)

theorem Effect.suspended (h : Effect s c rest i evs s') (hsuspended : s.suspended c = false)
    (hint : s.suspended c' = true → s.interrupts c' = true) (hc' : s'.suspended c' = true) :
    s'.interrupts c' = true := by
  have hne (hc' : s.suspended c' = true) : c' ≠ c := fun heq => by
    rw [heq, hsuspended] at hc'
    cases hc'
  cases h with
  | interruptDisable => exact (update_of_ne (hne hc') _ _).trans (hint hc')
  | interruptEnable => exact (update_of_ne (hne hc') _ _).trans (hint hc')
  | suspend =>
    by_cases heq : c' = c
    · rw [heq]
      exact update_self _ _ _
    · have hold : s.suspended c' = true := (update_of_ne heq _ _).symm.trans hc'
      exact (update_of_ne heq _ _).trans (hint hold)
  | _ => exact hint hc'

/-- A CPU that is suspended accepts interrupts. -/
theorem StepEffect.suspended (h : StepEffect s a evs s')
    (hint : ∀ c, s.suspended c = true → s.interrupts c = true) (hc' : s'.suspended c' = true) :
    s'.interrupts c' = true := by
  have hboot {c : CpuId} (heq : update s.suspended c false c' = true) :
      update s.interrupts c false c' = true := by
    by_cases hcc : c' = c
    · rw [hcc, update_self] at heq
      cases heq
    · rw [update_of_ne hcc] at heq ⊢
      exact hint c' heq
  cases h with
  | bootThread => exact hboot hc'
  | bootIdle => exact hboot hc'
  | run hc hsuspended _ heffect => exact heffect.suspended hsuspended (hint c') hc'
  | ipi =>
    refine hint c' ?_
    by_contra hne
    rw [Bool.not_eq_true] at hne
    exact absurd hc' (by simp [update_apply, hne])
  | _ => exact hint c' hc'

namespace ShortSections

theorem init : ShortSections State.init where
  chain _ := .nil
  saved _ _ h := by cases h
  suspended _ h := by cases h

/-- The guarded sections are short after a step. -/
theorem step (h : ShortSections s) (hsound : Sound s) (heffect : StepEffect s a evs s') :
    ShortSections s' where
  chain t := (heffect.goes t).chain (h.chain t)
  saved q t ht := by
    rcases heffect.mem_queue hsound ht with ⟨q', hmem, -, hcode⟩ |
      ⟨c, i, rest, hc, hlast, hcode, hi, hrest⟩ | ⟨-, hcode, -⟩
    · rw [hcode]
      exact h.saved q' t hmem
    · have hwf := hsound.wellFormed_current hc
      have hchain : (s.current c).IsChain Instr.Next := h.chain _
      rw [hcode] at hwf hchain
      rw [hrest]
      exact hi.saved hwf hchain
    · rw [hcode]
      exact Or.inl rfl
  suspended c hc := heffect.suspended h.suspended hc

end ShortSections

/-! ### The CPU that holds the guard -/

/-- A CPU goes on with the next context. -/
theorem left_resume (h : Between c s) (hready : ∀ t ∈ s.queue .ready, Saved (s.code t)) :
    (s.resume c).left c ≤ 2 := by
  have hcurrent : (s.resume c).current c =
      s.code ((s.queue .ready).head?.getD (s.myGoldfish c)) := by
    simp [State.current, State.resume]
  rw [State.left, hcurrent]
  cases hqueue : s.queue .ready with
  | nil =>
    have hlast : (s.resume c).lastContext c = none := by simp [State.resume, hqueue]
    have hempty : (s.resume c).queue .ready = [] := by simp [State.resume, hqueue]
    obtain ⟨hwf, hgold⟩ := h.goldfish_code c h.mem
    have hmode := h.goldfish_guarded
    rw [List.head?_nil, Option.getD_none]
    cases hcode : s.code (s.myGoldfish c) with
    | nil => exact absurd hcode hwf.ne_nil
    | cons i rest =>
      rw [hcode] at hmode hgold
      have hi := hgold i List.mem_cons_self
      cases i <;> first | exact hi.elim | simp [hlast, hempty]; done | cases hmode
  | cons t ts =>
    rw [List.head?_cons, Option.getD_some]
    rcases hready t (hqueue ▸ List.mem_cons_self) with hhead | ⟨m, hhead⟩
    · obtain ⟨rest, hcode⟩ := List.head?_eq_some_iff.mp hhead
      simp [hcode]
    · obtain ⟨rest, hcode⟩ := List.head?_eq_some_iff.mp hhead
      simp [hcode]

/-- A CPU goes on in a guarded section. -/
theorem left_lt_next (hcode : s.current c = i :: rest) (hcode' : s'.current c = j :: l)
    (hbefore : i.before = .guarded) (hafter : i.after = some .guarded) (hnext : i.Next j) :
    s'.left c < s.left c := by
  rw [State.left, State.left, hcode, hcode']
  cases i with
  | acquire m =>
    obtain rfl : j = .own m := hnext
    simp
  | releaseLock m =>
    obtain rfl | ⟨v, rfl⟩ : j = .guardUnlock ∨ ∃ v, j = .sleep v := hnext
    · simp
    · simp
  | timer =>
    obtain rfl : j = .guardUnlock := hnext
    simp only
    split_ifs <;> simp
  | own | sleep | signal | broadcast | constructThread | join | yield =>
    obtain rfl : j = .guardUnlock := hnext
    simp
  | guardUnlock | exit | watchSuspend => cases hafter
  | _ => cases hbefore

/-- A CPU gives up the guard next. -/
theorem left_lt_unlock (hcode : s.current c = i :: rest) (hcode' : s'.current c = .guardUnlock :: l)
    (hbefore : i.before = .guarded) (hne : i ≠ .guardUnlock) : s'.left c < s.left c := by
  rw [State.left, State.left, hcode, hcode']
  cases i with
  | guardUnlock => exact absurd rfl hne
  | timer | watchSuspend =>
    simp only
    split_ifs <;> simp
  | acquire | own | releaseLock | sleep | signal | broadcast | constructThread | join | yield
  | exit => simp
  | _ => cases hbefore

/-- An instruction that puts the thread into a queue. -/
theorem Blocks.lt_left (h : Blocks s c t i q evs) (hcode : s.current c = i :: rest)
    (hlast : s.lastContext c = some t) : 2 < s.left c := by
  rw [State.left, hcode]
  cases h with
  | timer => simp [hlast]
  | _ => simp

/-- An instruction of the CPU that holds the guard. -/
theorem ShortSections.run (h : ShortSections s) (hsound : Sound s) (hguard : s.guard = some c)
    (hcode : s.current c = i :: rest) (heffect : Effect s c rest i evs s') :
    s'.guard = none ∨ s'.guard = some c ∧ s'.left c < s.left c := by
  have hc := hsound.guard_mem c hguard
  have hmode := hsound.inMode hc hcode
  have hwf := hsound.wellFormed_current hc
  have hchain : (s.current c).IsChain Instr.Next := h.chain _
  rw [hcode] at hwf hchain
  have hbefore : i.before = .guarded := by
    cases hm : i.before with
    | guarded => rfl
    | enabled => exact absurd hguard (hm ▸ hmode).2
    | disabled => exact absurd hguard (hm ▸ hmode).2
  have hguarded : s.InMode c .guarded := hbefore ▸ hmode
  -- the context goes on
  have hnext {s' : State} (hafter : i.after = some .guarded) (hheld : s'.guard = s.guard)
      (hstack : s'.stack c = s.stack c) (hcode' : s'.code (s.stack c) = rest) :
      s'.guard = none ∨ s'.guard = some c ∧ s'.left c < s.left c := by
    cases rest with
    | nil =>
      rw [show i.after = none from hwf] at hafter
      cases hafter
    | cons j l =>
      have hcurrent : s'.current c = j :: l := (congrArg s'.code hstack).trans hcode'
      exact Or.inr ⟨hheld.trans hguard,
        left_lt_next hcode hcurrent hbefore hafter (List.isChain_cons_cons.mp hchain).1⟩
  -- the guard is given up next
  have hunlock {s' : State} {l : List Instr} (hne : i ≠ .guardUnlock) (hheld : s'.guard = s.guard)
      (hstack : s'.stack c = s.stack c) (hcode' : s'.code (s.stack c) = .guardUnlock :: l) :
      s'.guard = none ∨ s'.guard = some c ∧ s'.left c < s.left c := by
    have hcurrent : s'.current c = .guardUnlock :: l := (congrArg s'.code hstack).trans hcode'
    exact Or.inr ⟨hheld.trans hguard, left_lt_unlock hcode hcurrent hbefore hne⟩
  -- another context is entered
  have hresume {s₁ : State} (hbetween : Between c s₁) (hheld : s₁.guard = s.guard)
      (hready : ∀ t ∈ s₁.queue .ready, Saved (s₁.code t)) (hleft : 2 < s.left c) :
      (s₁.resume c).guard = none ∨ (s₁.resume c).guard = some c ∧ (s₁.resume c).left c < s.left c :=
    Or.inr ⟨hheld.trans hguard, (left_resume hbetween hready).trans_lt hleft⟩
  have hqueue {q : Queue} {t : ContextId} (ht : t ∈ s.queue q) (l : List Instr) :
      Saved (update s.code (s.stack c) l t) := by
    have hne : t ≠ s.stack c := fun heq => hsound.stack_not_mem_queue hc (heq ▸ ht)
    rw [update_of_ne hne]
    exact h.saved q t ht
  cases heffect with
  | guardUnlock => exact Or.inl rfl
  | blocks hlast hi =>
    obtain ⟨hpop, hmode'⟩ := hsound.pop hc hcode hbefore hi.guarded.2
    refine hresume (hpop.leave hmode' hlast hi.alive) rfl (fun t ht => ?_)
      (hi.lt_left hcode hlast)
    rcases mem_queue_enqueue ht with hold | ⟨-, rfl⟩
    · exact hqueue hold rest
    · change Saved (update s.code (s.stack c) rest (s.stack c))
      rw [update_self]
      exact hi.saved hwf hchain
  | wakes _ hi => exact hnext hi.guarded.2 rfl rfl (update_self ..)
  | skips hi => exact hnext (by cases hi <;> rfl) rfl rfl (update_self ..)
  | construct hlast =>
    have hne : s.stack c ≠ s.maxId := (hsound.alive_lt _ (hsound.alive_of_last hlast)).2.ne
    exact hnext rfl rfl rfl ((update_of_ne hne ..).trans (update_self ..))
  | exit hlast =>
    refine hresume (hsound.between_exit hguarded hlast) rfl (fun t ht => ?_) ?_
    · have hmoved : t ∈ (s.moveReady (.join (s.stack c)) (s.queue (.join (s.stack c)))
          []).wake.queue .ready := ht
      change Saved (update s.code (s.stack c) [] t)
      rcases mem_queue_moveReady _ [] (by simp) (List.append_nil _).symm hmoved with
        hold | ⟨-, hold⟩
      · exact hqueue hold []
      · exact hqueue hold []
    · rw [State.left, hcode]
      simp
  | take hlast hready =>
    refine hresume (hsound.between_take hc hguarded hlast _) rfl (fun t ht => h.saved _ t ht) ?_
    rw [State.left, hcode]
    simp [hready]
  | refused | badAlloc | idle => exact hunlock (by simp) rfl rfl (update_self ..)
  | acquire | own | release | handOff => exact hnext rfl rfl rfl (update_self ..)
  | _ => cases hbefore

/-- What the other CPUs do not change while a CPU holds the guard. -/
structure Undisturbed (s s' : State) (c : CpuId) : Prop where
  guard : s'.guard = s.guard
  current : s'.current c = s.current c
  last : s'.lastContext c = s.lastContext c
  ready : s'.queue .ready = s.queue .ready

theorem Undisturbed.left (h : Undisturbed s s' c) : s'.left c = s.left c := by
  simp only [State.left, h.current, h.last, h.ready]

/-- An instruction of another CPU. -/
theorem Effect.undisturbed (h : Effect s c' rest i evs s') (hguarded : i.before ≠ .guarded)
    (hguard : s.guard ≠ none) (hstack : s.stack c ≠ s.stack c') : Undisturbed s s' c := by
  have hcode (l : List Instr) : (s.setCurrent c' l).current c = s.current c :=
    Sound.code_setCurrent_of_ne s c' l hstack
  cases h with
  | spin => exact ⟨rfl, rfl, rfl, rfl⟩
  | guardLock hfree => exact absurd hfree hguard
  | interruptDisable | interruptEnable | suspend | ret => exact ⟨rfl, hcode rest, rfl, rfl⟩
  | blocks _ hi => exact absurd hi.guarded.1 hguarded
  | wakes _ hi => exact absurd hi.guarded.1 hguarded
  | skips hi => exact absurd (by cases hi <;> rfl) hguarded
  | _ => exact absurd rfl hguarded

/-- A step of another CPU. -/
theorem Sound.undisturbed (h : Sound s) (hguard : s.guard = some c)
    (heffect : StepEffect s a evs s') (ha : ∀ alloc, a ≠ .run c alloc) : Undisturbed s s' c := by
  have hc := h.guard_mem c hguard
  have hnone : s.guard ≠ none := by simp [hguard]
  have hheld {c' : CpuId} {m : Mode} (hmode : s.InMode c' m) (hm : m ≠ .guarded) : c' ≠ c := by
    rintro rfl
    cases m with
    | guarded => exact hm rfl
    | enabled => exact hmode.2 hguard
    | disabled => exact hmode.2 hguard
  have hstack {c' : CpuId} (hc' : c' ∈ s.cpuVec) (hne : c' ≠ c) : s.stack c ≠ s.stack c' :=
    fun heq => hne (h.stack_inj hc hc' heq).symm
  have hcode {c' : CpuId} (hc' : c' ∈ s.cpuVec) (hne : c' ≠ c) (l : List Instr) :
      (s.setCurrent c' l).current c = s.current c :=
    Sound.code_setCurrent_of_ne s c' l (hstack hc' hne)
  cases heffect with
  | bootSpin => exact ⟨rfl, rfl, rfl, rfl⟩
  | bootThread _ hfree => exact absurd hfree hnone
  | bootIdle _ hfree => exact absurd hfree hnone
  | @run c' alloc i rest evs s' hc' _ hcode' heffect =>
    have hne : c' ≠ c := fun heq => ha alloc (heq ▸ rfl)
    refine heffect.undisturbed (fun hbefore => ?_) hnone (hstack hc' hne)
    have hmode := h.inMode hc' hcode'
    rw [hbefore] at hmode
    exact hne (Option.some.inj (hmode.2.symm.trans hguard))
  | call hc' _ hcode' =>
    exact ⟨rfl, hcode hc' (hheld (h.inMode hc' hcode') (by simp [Instr.before])) _, rfl, rfl⟩
  | finish hc' _ hcode' =>
    exact ⟨rfl, hcode hc' (hheld (h.inMode hc' hcode') (by simp [Instr.before])) _, rfl, rfl⟩
  | timer hc' _ hmode =>
    have hmode' := (h.onCpu _ hc').mode
    rw [hmode] at hmode'
    exact ⟨rfl, hcode hc' (hheld hmode' (by simp)) _, rfl, rfl⟩
  | ipi => exact ⟨rfl, rfl, rfl, rfl⟩
  | dropThread => exact ⟨rfl, rfl, rfl, rfl⟩

/-! ### Runs -/

/-- The action is an instruction of the CPU. -/
def Action.Runs (c : CpuId) : Action → Bool
  | .run c' _ => c' = c
  | _ => false

theorem ThreadRun.shortSections (hrun : ThreadRun actions events s) : ShortSections s :=
  (hrun.invariant (I := fun _ s => ShortSections s) .init fun hsound h heffect =>
    h.step hsound heffect).2

/-- The CPU that holds the guard can execute its next instruction. -/
theorem ShortSections.allowed (h : ShortSections s) (hsound : Sound s) (hguard : s.guard = some c)
    (alloc : Alloc) : Allowed s (.run c alloc) := by
  have hc := hsound.guard_mem c hguard
  have hmode : s.InMode c .guarded := by
    have hmode := (hsound.onCpu c hc).mode
    cases hm : modeOf (s.current c) with
    | guarded => rwa [hm] at hmode
    | enabled => exact absurd hguard (hm ▸ hmode).2
    | disabled => exact absurd hguard (hm ▸ hmode).2
  refine ⟨hc, ?_, fun huser => ?_⟩
  · by_contra hsuspended
    have hint := h.suspended c (by simpa using hsuspended)
    rw [hmode.1] at hint
    cases hint
  · have hmode' := hsound.inMode hc huser
    exact absurd (hmode'.eq hmode) (by simp [Instr.before])

/-- While a CPU holds the guard, each of its instructions counts. -/
theorem ShortSections.count_le (h : ShortSections s) (hsound : Sound s) (hguard : s.guard = some c)
    (hrun : Runs Threads.step (fun _ s a => Allowed s a ∧ s.guard = some c) s actions events s') :
    Sound s' ∧ ShortSections s' ∧ (s'.guard = none ∧ actions.countP (·.Runs c) ≤ s.left c ∨
      s'.guard = some c ∧ actions.countP (·.Runs c) + s'.left c ≤ s.left c) := by
  induction hrun with
  | nil => exact ⟨hsound, h, Or.inr ⟨hguard, by simp⟩⟩
  | @snoc actions events s₁ s₂ a evs hrun hallowed hstep ih =>
    obtain ⟨hsound₁, h₁, hcount⟩ := ih
    have heffect := hsound₁.effect_of_step hallowed.1 hstep
    refine ⟨hsound₁.step heffect, h₁.step hsound₁ heffect, ?_⟩
    have hle : actions.countP (·.Runs c) + s₁.left c ≤ s.left c := by
      rcases hcount with ⟨hfree, -⟩ | ⟨-, hle⟩
      · rw [hallowed.2] at hfree
        cases hfree
      · exact hle
    rw [List.countP_append, List.countP_singleton]
    by_cases ha : ∃ alloc, a = .run c alloc
    · obtain ⟨alloc, rfl⟩ := ha
      have hone : (Action.run c alloc).Runs c = true := by simp [Action.Runs]
      rw [if_pos hone]
      cases heffect with
      | run _ _ hcode heffect =>
        rcases h₁.run hsound₁ hallowed.2 hcode heffect with hfree | ⟨hheld, hlt⟩
        · refine Or.inl ⟨hfree, ?_⟩
          have hpos := left_pos s₁ c
          omega
        · exact Or.inr ⟨hheld, by omega⟩
    · have hzero : ¬a.Runs c = true := by
        intro hruns
        cases a with
        | run c' alloc => exact ha ⟨alloc, by simpa [Action.Runs] using hruns⟩
        | _ => cases hruns
      have hund := hsound₁.undisturbed hallowed.2 heffect fun alloc heq => ha ⟨alloc, heq⟩
      rw [if_neg hzero, hund.left]
      exact Or.inr ⟨hund.guard.trans hallowed.2, hle⟩

/-- A CPU that holds the guard can execute its next instruction, and gives up the guard after at
most four instructions, whatever the other CPUs do between them. Nobody else takes the guard
meanwhile. -/
theorem threadRun_guard (hrun : ThreadRun actions events s) (hguard : s.guard = some c) :
    (∀ alloc, Allowed s (.run c alloc) ∧ ∃ evs s', step (.run c alloc) s = some (evs, s')) ∧
    ∀ actions' events' s',
      Runs step (fun _ s a => Allowed s a ∧ s.guard = some c) s actions' events' s' →
        actions'.countP (·.Runs c) ≤ 4 ∧ (s'.guard = some c ∨ s'.guard = none) := by
  have hsound := threadRun_sound hrun
  have hshort := hrun.shortSections
  refine ⟨fun alloc => ?_, fun actions' events' s' hrun' => ?_⟩
  · have hallowed := hshort.allowed hsound hguard alloc
    obtain ⟨evs, s', hstep, -⟩ := hsound.step_effect hallowed
    exact ⟨hallowed, evs, s', hstep⟩
  · obtain ⟨-, -, ⟨hfree, hle⟩ | ⟨hheld, hle⟩⟩ := hshort.count_le hsound hguard hrun'
    · exact ⟨hle.trans (left_le s c), Or.inr hfree⟩
    · exact ⟨(Nat.le_of_add_right_le hle).trans (left_le s c), Or.inl hheld⟩

/-- CPU 0 has been started, and holds the guard. -/
theorem threadRun_guard_boot :
    ∃ events s, ThreadRun [.boot 0 true] events s ∧ s.guard = some 0 ∧
      Allowed s (.run 0 .ok) := by
  obtain ⟨events, s, hrun, hguard⟩ := ThreadRun.of_check [.boot 0 true]
    (fun _ s => s.guard = some 0) (by decide +kernel)
  have hguard' : s.guard = some 0 := of_decide_eq_true hguard
  exact ⟨events, s, hrun, hguard', ((threadRun_guard hrun hguard').1 .ok).1⟩

end OsFromScratch.Threads
