import OsFromScratch.Lib.Atomic

/-!
# Protocols of interleaved programs

A rely-guarantee logic for pools of programs of atomic operations. A protocol gives every thread a
ghost value, keeps one ghost history for the whole pool, and fixes an invariant of the state, the
history and all ghost values. A thread proves that each of its operations is admissible, keeps
the invariant by changing only its own ghost value, and extends the history as the guarantee
allows; the interference of the other threads is then already accounted for by the invariant.

## Main definitions

* `Protocol` — ghost values, invariant, admissible operations and guarantee.
* `Protocol.wp` — the ghost values from which a program keeps the protocol and returns with a
  postcondition.
* `Protocol.Sound` — a pool whose threads all keep the protocol.
* `Protocol.GuarRun` — the histories along a run.

## Main results

* `Protocol.wp_ret`, `Protocol.wp_op` — the rules of returning and of an operation.
* `Protocol.Sound.step`, `Protocol.Sound.run` — every step and every run of a pool keeps the
  protocol.
* `Protocol.run_of_wp` — a program that keeps the protocol, run while all other threads are idle,
  returns, if every admissible operation is enabled then.
-/

namespace OsFromScratch

open Function

variable {Op : Type} {Res : Op → Type} {State Req α β : Type}

/-- A protocol for programs of atomic operations. -/
structure Protocol (Op : Type) (Res : Op → Type) (State : Type) where
  /-- The ghost value of a thread. -/
  Ghost : Type
  /-- The ghost history of the pool. -/
  Hist : Type
  /-- The part of a ghost value that no step changes. -/
  Tag : Type
  tag : Ghost → Tag
  /-- One atomic step of thread `i`. -/
  step : ℕ → (o : Op) → State → Option (Res o × State)
  /-- The invariant. -/
  inv : State → Hist → (ℕ → Ghost) → Prop
  /-- The operations a thread may perform at a ghost value. -/
  adm : Op → Ghost → Prop
  /-- How a step of thread `i` with its result may extend the history. -/
  guar : ℕ → (o : Op) → Res o → (ℕ → Ghost) → Hist → Hist → Prop

namespace Protocol

variable (P : Protocol Op Res State)

/-- The ghost values from which thread `i` running the program keeps the protocol and can only
return with `Q`. -/
def wp (i : ℕ) (Q : α → P.Ghost → Prop) : Prog Op Res α → P.Ghost → Prop
  | .ret a, g => Q a g
  | .abort, _ => False
  | .op o k, g => P.adm o g ∧
      ∀ s η gs, P.inv s η gs → gs i = g → ∀ r s', P.step i o s = some (r, s') →
        ∃ η' g', P.guar i o r gs η η' ∧ P.inv s' η' (update gs i g') ∧ P.tag g' = P.tag g ∧
          wp i Q (k r) g'

variable {P} {i : ℕ}

@[simp] theorem wp_ret {Q : α → P.Ghost → Prop} {a : α} {g : P.Ghost} :
    P.wp i Q (.ret a) g ↔ Q a g := Iff.rfl

@[simp] theorem wp_abort {Q : α → P.Ghost → Prop} {g : P.Ghost} :
    P.wp i Q .abort g ↔ False := Iff.rfl

theorem wp_op {Q : α → P.Ghost → Prop} {o : Op} {k : Res o → Prog Op Res α} {g : P.Ghost} :
    P.wp i Q (.op o k) g ↔ P.adm o g ∧
      ∀ s η gs, P.inv s η gs → gs i = g → ∀ r s', P.step i o s = some (r, s') →
        ∃ η' g', P.guar i o r gs η η' ∧ P.inv s' η' (update gs i g') ∧ P.tag g' = P.tag g ∧
          P.wp i Q (k r) g' := Iff.rfl

attribute [irreducible] wp

/-! ### Pools -/

section Pools

variable (P) (prog : Req → Prog Op Res α) (idle : P.Ghost) (Q : Req → α → P.Ghost → Prop)
  (tagOf : Req → P.Tag) (guarStart : ℕ → Req → P.Hist → P.Hist → Prop)

/-- A pool whose threads all keep the protocol, with the history `η` and the ghost values `gs`. -/
structure Sound (c : Pool Op Res State Req α) (η : P.Hist) (gs : ℕ → P.Ghost) : Prop where
  inv : P.inv c.state η gs
  wp : ∀ i req p, c.threads[i]? = some (req, p) → P.wp i (Q req) p (gs i)
  tag : ∀ i req p, c.threads[i]? = some (req, p) → P.tag (gs i) = tagOf req
  idle : ∀ i, c.threads.length ≤ i → gs i = idle

/-- An idle thread can start any request and keep the protocol. -/
def CanStart : Prop :=
  ∀ s η gs i req, P.inv s η gs → gs i = idle → ∃ η' g, guarStart i req η η' ∧
    P.inv s η' (update gs i g) ∧ P.tag g = tagOf req ∧ P.wp i (Q req) (prog req) g

/-- A history after the step with label `e`: it is extended within the guarantee. -/
def GuarLabel (gs : ℕ → P.Ghost) : Pool.Label Op Res Req → P.Hist → P.Hist → Prop
  | .start i req, η, η' => guarStart i req η η'
  | .act i o r, η, η' => P.guar i o r gs η η'

/-- The histories along a run: each step extends the history within the guarantee. -/
inductive GuarRun : List (Pool.Label Op Res Req) → P.Hist → P.Hist → Prop
  | nil (η : P.Hist) : GuarRun [] η η
  | snoc {tr : List (Pool.Label Op Res Req)} {e : Pool.Label Op Res Req} {η η' η'' : P.Hist}
      (h : GuarRun tr η η') (gs : ℕ → P.Ghost) (he : P.GuarLabel guarStart gs e η' η'') :
      GuarRun (tr ++ [e]) η η''

variable {P prog idle Q tagOf guarStart}

/-- Every step of a pool keeps the protocol, and the ghost values of the other threads. -/
theorem Sound.step {c c' : Pool Op Res State Req α} {e : Pool.Label Op Res Req} {η : P.Hist}
    {gs : ℕ → P.Ghost} (hs : P.Sound idle Q tagOf c η gs)
      (hstart : P.CanStart prog idle Q tagOf guarStart)
    (h : Pool.Step P.step prog c e c') :
    ∃ η' gs', P.GuarLabel guarStart gs e η η' ∧ P.Sound idle Q tagOf c' η' gs' ∧
      ∀ j, j ≠ e.thread → gs' j = gs j := by
  cases h with
  | start req =>
    obtain ⟨η', g, hguar, hinv, htag, hwp⟩ := hstart _ _ _ _ req hs.inv (hs.idle _ le_rfl)
    refine ⟨η', update gs c.threads.length g, hguar, ⟨hinv, ?_, ?_, ?_⟩,
      fun j hj => update_of_ne hj _ _⟩
    · intro j req' p hj
      rcases Pool.thread_concat hj with ⟨hne, hj⟩ | ⟨rfl, rfl, rfl⟩
      · rw [update_of_ne hne]
        exact hs.wp j req' p hj
      · rw [update_self]
        exact hwp
    · intro j req' p hj
      rcases Pool.thread_concat hj with ⟨hne, hj⟩ | ⟨rfl, rfl, rfl⟩
      · rw [update_of_ne hne]
        exact hs.tag j req' p hj
      · rw [update_self]
        exact htag
    · intro j hj
      rw [List.length_append, List.length_singleton] at hj
      rw [update_of_ne (by omega)]
      exact hs.idle j (by omega)
  | act i req o k r s' hi hstep =>
    obtain ⟨η', g', hguar, hinv', htag, hwp⟩ :=
      (wp_op.mp (hs.wp i req _ hi)).2 c.state η gs hs.inv rfl r s' hstep
    have hilt : i < c.threads.length := (List.getElem?_eq_some_iff.mp hi).1
    refine ⟨η', update gs i g', hguar, ⟨hinv', ?_, ?_, ?_⟩, fun j hj => update_of_ne hj _ _⟩
    · intro j req' p hj
      rcases Pool.thread_set hilt hj with ⟨hne, hj⟩ | ⟨rfl, rfl, rfl⟩
      · rw [update_of_ne hne]
        exact hs.wp j req' p hj
      · rw [update_self]
        exact hwp
    · intro j req' p hj
      rcases Pool.thread_set hilt hj with ⟨hne, hj⟩ | ⟨rfl, rfl, rfl⟩
      · rw [update_of_ne hne]
        exact hs.tag j req' p hj
      · rw [update_self]
        exact htag.trans (hs.tag j req' _ hi)
    · intro j hj
      rw [List.length_set] at hj
      rw [update_of_ne (by omega)]
      exact hs.idle j hj

/-- Every run of a pool keeps the protocol. -/
theorem Sound.run {c c' : Pool Op Res State Req α} {tr : List (Pool.Label Op Res Req)}
    {η : P.Hist} {gs : ℕ → P.Ghost} (hs : P.Sound idle Q tagOf c η gs)
    (hstart : P.CanStart prog idle Q tagOf guarStart) (h : Pool.Run P.step prog c tr c') :
    ∃ η' gs', P.GuarRun guarStart tr η η' ∧ P.Sound idle Q tagOf c' η' gs' := by
  induction h with
  | nil => exact ⟨η, gs, .nil η, hs⟩
  | snoc _ hstep ih =>
    obtain ⟨η', gs', hguar, hsound⟩ := ih
    obtain ⟨η'', gs'', hlabel, hsound', -⟩ := hsound.step hstart hstep
    exact ⟨η'', gs'', .snoc hguar gs' hlabel, hsound'⟩

/-- Histories along a run can be cut like the run. -/
theorem GuarRun.split {tr tr' : List (Pool.Label Op Res Req)} {η η'' : P.Hist}
    (h : P.GuarRun guarStart (tr ++ tr') η η'') :
    ∃ η', P.GuarRun guarStart tr η η' ∧ P.GuarRun guarStart tr' η' η'' := by
  induction tr' using List.reverseRecOn generalizing η'' with
  | nil =>
    rw [List.append_nil] at h
    exact ⟨η'', h, .nil η''⟩
  | append_singleton tr' e ih =>
    rw [← List.append_assoc] at h
    generalize htr : tr ++ tr' ++ [e] = w at h
    cases h with
    | nil => simp at htr
    | snoc h gs he =>
      obtain ⟨rfl, rfl⟩ := List.append_singleton_inj.mp htr
      obtain ⟨η₁, h₁, h₂⟩ := ih h
      exact ⟨η₁, h₁, .snoc h₂ gs he⟩

end Pools

/-! ### One thread alone -/

section Alone

variable {idle : P.Ghost}

/-- A program that keeps the protocol, run while every other thread is idle, returns with its
postcondition, provided that every admissible operation is enabled when the others are idle. The
relation `R` collects what the guarantee says about the history along the run. -/
theorem run_of_wp {Q : α → P.Ghost → Prop} {R : P.Hist → P.Hist → Prop}
    (hR : ∀ η, R η η) (hRt : ∀ η η' η'', R η η' → R η' η'' → R η η'')
    (hguar : ∀ o r gs η η', (∀ j, j ≠ i → gs j = idle) → P.guar i o r gs η η' → R η η')
    (henabled : ∀ o s η gs, P.inv s η gs → P.adm o (gs i) → (∀ j, j ≠ i → gs j = idle) →
      (P.step i o s).isSome)
    {p : Prog Op Res α} {s : State} {η : P.Hist} {gs : ℕ → P.Ghost} (hinv : P.inv s η gs)
    (hidle : ∀ j, j ≠ i → gs j = idle) (h : P.wp i Q p (gs i)) :
    ∃ a s' η' g', p.run P.step i s = .done a s' ∧ P.inv s' η' (update gs i g') ∧ Q a g' ∧
      R η η' := by
  induction p generalizing s η gs with
  | ret a => exact ⟨a, s, η, gs i, rfl, by rwa [update_eq_self], wp_ret.mp h, hR η⟩
  | abort => exact absurd h (by simp)
  | op o k ih =>
    rw [wp_op] at h
    obtain ⟨⟨r, s'⟩, hstep⟩ := Option.isSome_iff_exists.mp (henabled o s η gs hinv h.1 hidle)
    obtain ⟨η', g', hg, hinv', -, hwp⟩ := h.2 s η gs hinv rfl r s' hstep
    obtain ⟨a, s'', η'', g'', hrun, hinv'', hQ, hR'⟩ := ih r hinv'
      (fun j hj => by rw [update_of_ne hj, hidle j hj]) (by rwa [update_self])
    refine ⟨a, s'', η'', g'', ?_, ?_, hQ, hRt _ _ _ (hguar o r gs η η' hidle hg) hR'⟩
    · rw [Prog.run, hstep]
      exact hrun
    · rwa [update_idem] at hinv''

end Alone

end Protocol

end OsFromScratch
