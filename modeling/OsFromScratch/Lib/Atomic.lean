import Mathlib.Algebra.Order.Group.Nat
import Mathlib.Data.List.Induction

/-!
# Programs of atomic operations

A program is a tree of atomic operations on a shared state, each followed by a continuation that
depends on its result. An operation of thread `i` is either enabled, with a definite result and
new state, or blocked. One program can be run alone (`Prog.run`), and a growing pool of programs
can be run in any interleaving (`Pool.Run`).

## Main definitions

* `Prog Op Res α` — programs with results in `α`; `Prog.abort` is a failed assertion or undefined
  behaviour.
* `Prog.run` — the run of one program with no other thread active.
* `Prog.Only`, `Prog.Ends` — programs that perform certain operations only, and programs that return
  certain values only.
* `Prog.Always` — programs with a property that depends on what has just been done.
* `Pool.Step`, `Pool.Run` — one step of a pool of requests, and its runs with their labels.
* `Pool.Simulated` — a pool whose threads correspond to those of another one.

## Main results

* `Prog.bind_assoc` — sequencing is associative.
* `Prog.run_bind_eq_done` — a run of two programs in sequence.
* `Prog.Only.run` — what every operation preserves, a run preserves.
* `Pool.Run.append`, `Pool.Run.split` — runs compose and can be cut.
* `Pool.exists_run_of_done` — a thread can run alone.
* `Pool.Run.only`, `Pool.Run.always` — the operations in a run are those of the programs.
* `Pool.Run.simulate` — programs that perform the same operations have the same runs.
-/

namespace OsFromScratch

/-- A program of atomic operations `o : Op` with results in `Res o`. -/
inductive Prog (Op : Type) (Res : Op → Type) (α : Type) : Type
  /-- The program has returned. -/
  | ret (a : α)
  /-- A failed assertion or undefined behaviour. -/
  | abort
  /-- The operation `o`, then the program chosen by its result. -/
  | op (o : Op) (k : Res o → Prog Op Res α)

namespace Prog

variable {Op : Type} {Res : Op → Type} {α β γ : Type}

/-- Run a program, then the one chosen by its result. -/
def bind : Prog Op Res α → (α → Prog Op Res β) → Prog Op Res β
  | ret a, f => f a
  | abort, _ => abort
  | op o k, f => op o fun r => (k r).bind f

instance : Monad (Prog Op Res) where
  pure := ret
  bind := bind

/-- One atomic operation as a program. -/
def perform (o : Op) : Prog Op Res (Res o) :=
  op o ret

@[simp] theorem pure_eq (a : α) : (pure a : Prog Op Res α) = ret a := rfl

@[simp] theorem ret_bind (a : α) (f : α → Prog Op Res β) : (ret a >>= f) = f a := rfl

@[simp] theorem abort_bind (f : α → Prog Op Res β) :
    ((abort : Prog Op Res α) >>= f) = abort := rfl

@[simp] theorem op_bind (o : Op) (k : Res o → Prog Op Res α) (f : α → Prog Op Res β) :
    (op o k >>= f) = op o fun r => k r >>= f := rfl

@[simp] theorem perform_bind (o : Op) (f : Res o → Prog Op Res α) :
    (perform o >>= f) = op o f := rfl

theorem bind_assoc (p : Prog Op Res α) (f : α → Prog Op Res β) (g : β → Prog Op Res γ) :
    ((p >>= f) >>= g) = p >>= fun a => f a >>= g := by
  induction p with
  | ret a => rfl
  | abort => rfl
  | op o k ih => exact congrArg (op o) (funext fun r => ih r)

/-- How the run of a program alone can end. -/
inductive Outcome (State α : Type) : Type
  | done (a : α) (s : State)
  | aborted
  | blocked

section Run

variable {State : Type} (step : ℕ → (o : Op) → State → Option (Res o × State)) (i : ℕ)

/-- The run of a program by thread `i` while no other thread takes a step. -/
def run : Prog Op Res α → State → Outcome State α
  | ret a, s => .done a s
  | abort, _ => .aborted
  | op o k, s =>
    match step i o s with
    | none => .blocked
    | some (r, s') => run (k r) s'

variable {step i}

/-- A program whose first part returns goes on with the second. -/
theorem run_bind {p : Prog Op Res α} {f : α → Prog Op Res β} {s s' : State} {a : α}
    (h : p.run step i s = .done a s') : (p >>= f).run step i s = (f a).run step i s' := by
  induction p generalizing s with
  | ret a' =>
    obtain ⟨rfl, rfl⟩ := Outcome.done.inj h
    rfl
  | abort => exact absurd h (by simp [run])
  | op o k ih =>
    rw [run] at h
    rw [op_bind, run]
    cases hs : step i o s with
    | none => simp [hs] at h
    | some out =>
      rw [hs] at h
      exact ih out.1 h

/-- A run of a program in two parts is a run of the first and then one of the second. -/
theorem run_bind_eq_done {p : Prog Op Res α} {f : α → Prog Op Res β} {s s' : State} {b : β} :
    (p >>= f).run step i s = .done b s' ↔
      ∃ a s₁, p.run step i s = .done a s₁ ∧ (f a).run step i s₁ = .done b s' := by
  constructor
  · intro h
    induction p generalizing s with
    | ret a => exact ⟨a, s, rfl, h⟩
    | abort => exact absurd h (by simp [run])
    | op o k ih =>
      rw [op_bind, run] at h
      cases hs : step i o s with
      | none => simp [hs] at h
      | some out =>
        rw [hs] at h
        obtain ⟨a, s₁, h₁, h₂⟩ := ih out.1 h
        refine ⟨a, s₁, ?_, h₂⟩
        rw [run, hs]
        exact h₁
  · rintro ⟨a, s₁, h₁, h₂⟩
    rw [run_bind h₁, h₂]

theorem run_op_eq_done {o : Op} {k : Res o → Prog Op Res α} {s s' : State} {a : α} :
    (op o k).run step i s = .done a s' ↔
      ∃ r s₁, step i o s = some (r, s₁) ∧ (k r).run step i s₁ = .done a s' := by
  rw [run]
  cases step i o s with
  | none => simp
  | some out =>
    obtain ⟨r, s₁⟩ := out
    simp only [Option.some.injEq, Prod.mk.injEq]
    constructor
    · exact fun h => ⟨r, s₁, ⟨rfl, rfl⟩, h⟩
    · rintro ⟨r', s', ⟨rfl, rfl⟩, h⟩
      exact h

end Run

/-- Every value that the program can return is one of the values `Q`. -/
def Ends (Q : α → Prop) : Prog Op Res α → Prop
  | ret a => Q a
  | abort => True
  | op _ k => ∀ r, (k r).Ends Q

theorem ends_ret {Q : α → Prop} {a : α} : (ret a : Prog Op Res α).Ends Q ↔ Q a := Iff.rfl

theorem Ends.bind {Q : β → Prop} {f : α → Prog Op Res β} (hf : ∀ a, (f a).Ends Q)
    (p : Prog Op Res α) : (p >>= f).Ends Q := by
  induction p with
  | ret a => exact hf a
  | abort => trivial
  | op o k ih => exact ih

theorem Ends.run {State : Type} {step : ℕ → (o : Op) → State → Option (Res o × State)} {i : ℕ}
    {Q : α → Prop} {p : Prog Op Res α} (h : p.Ends Q) {s s' : State} {a : α}
    (hrun : p.run step i s = .done a s') : Q a := by
  induction p generalizing s with
  | ret a' =>
    obtain ⟨rfl, -⟩ := Outcome.done.inj hrun
    exact h
  | abort => exact absurd hrun (by simp [Prog.run])
  | op o k ih =>
    obtain ⟨r, s₁, -, hrun⟩ := run_op_eq_done.mp hrun
    exact ih r (h r) hrun

/-- What is left of the program after each operation and its result satisfies `A`. -/
def Always (A : (o : Op) → Res o → Prog Op Res α → Prop) : Prog Op Res α → Prop
  | ret _ => True
  | abort => True
  | op o k => ∀ r, A o r (k r) ∧ (k r).Always A

/-- Every operation of the program is one of the operations `A`. -/
def Only (A : Op → Prop) : Prog Op Res α → Prop
  | ret _ => True
  | abort => True
  | op o k => A o ∧ ∀ r, (k r).Only A

theorem Only.bind {A : Op → Prop} {p : Prog Op Res α} {f : α → Prog Op Res β} (hp : p.Only A)
    (hf : ∀ a, (f a).Only A) : (p >>= f).Only A := by
  induction p with
  | ret a => exact hf a
  | abort => trivial
  | op o k ih => exact ⟨hp.1, fun r => ih r (hp.2 r)⟩

theorem Only.mono {A B : Op → Prop} {p : Prog Op Res α} (hp : p.Only A) (h : ∀ o, A o → B o) :
    p.Only B := by
  induction p with
  | ret a => trivial
  | abort => trivial
  | op o k ih => exact ⟨h o hp.1, fun r => ih r (hp.2 r)⟩

/-- A program in two parts, if the operations of the first part do not matter. -/
theorem Always.bind {A : (o : Op) → Res o → Prog Op Res β → Prop} {p : Prog Op Res α}
    {f : α → Prog Op Res β} (hp : p.Only fun o => ∀ r q, A o r q) (hf : ∀ a, (f a).Always A) :
    (p >>= f).Always A := by
  induction p with
  | ret a => exact hf a
  | abort => trivial
  | op o k ih => exact fun r => ⟨hp.1 r _, ih r (hp.2 r)⟩

/-- A program that begins with an operation. -/
theorem always_perform_bind {A : (o : Op) → Res o → Prog Op Res β → Prop} {o : Op}
    {f : Res o → Prog Op Res β} (h : ∀ r, A o r (f r) ∧ (f r).Always A) :
    (perform o >>= f).Always A := h

theorem Always.mono {A B : (o : Op) → Res o → Prog Op Res α → Prop} {p : Prog Op Res α}
    (hp : p.Always A) (h : ∀ o r q, A o r q → B o r q) : p.Always B := by
  induction p with
  | ret a => trivial
  | abort => trivial
  | op o k ih => exact fun r => ⟨h o r _ (hp r).1, ih r (hp r).2⟩

theorem always_of_forall {A : (o : Op) → Res o → Prog Op Res α → Prop} (h : ∀ o r q, A o r q)
    (p : Prog Op Res α) : p.Always A := by
  induction p with
  | ret a => trivial
  | abort => trivial
  | op o k ih => exact fun r => ⟨h o r _, ih r⟩

/-- What every operation of a program preserves, its runs preserve. -/
theorem Only.run {State : Type} {step : ℕ → (o : Op) → State → Option (Res o × State)} {i : ℕ}
    {A : Op → Prop} {I : State → Prop} (hstep : ∀ o s r s', A o → step i o s = some (r, s') →
      I s → I s') {p : Prog Op Res α} (h : p.Only A) {s s' : State} {a : α} (hs : I s)
    (hrun : p.run step i s = .done a s') : I s' := by
  induction p generalizing s with
  | ret a' =>
    obtain ⟨-, rfl⟩ := Outcome.done.inj hrun
    exact hs
  | abort => exact absurd hrun (by simp [Prog.run])
  | op o k ih =>
    obtain ⟨r, s₁, hr, hrun⟩ := run_op_eq_done.mp hrun
    exact ih r (h.2 r) (hstep o s r s₁ h.1 hr hs) hrun

theorem only_perform {A : Op → Prop} {o : Op} (h : A o) : (perform o : Prog Op Res _).Only A :=
  ⟨h, fun _ => trivial⟩

end Prog

/-! ### Pools of programs -/

/-- A shared state and the requests that have been started, with what remains of each. -/
structure Pool (Op : Type) (Res : Op → Type) (State Req α : Type) where
  state : State
  threads : List (Req × Prog Op Res α)

namespace Pool

variable {Op : Type} {Res : Op → Type} {State Req α : Type}

/-- What can be observed of a step: the start of a request, or an operation with its result. -/
inductive Label (Op : Type) (Res : Op → Type) (Req : Type) : Type
  | start (i : ℕ) (req : Req)
  | act (i : ℕ) (o : Op) (r : Res o)

/-- The thread that takes the step. -/
def Label.thread : Label Op Res Req → ℕ
  | .start i _ => i
  | .act i _ _ => i

variable (step : ℕ → (o : Op) → State → Option (Res o × State)) (prog : Req → Prog Op Res α)

/-- One step of a pool: a request is started, or a started one performs its next operation. -/
inductive Step : Pool Op Res State Req α → Label Op Res Req → Pool Op Res State Req α → Prop
  | start (c : Pool Op Res State Req α) (req : Req) :
      Step c (.start c.threads.length req) ⟨c.state, c.threads ++ [(req, prog req)]⟩
  | act (c : Pool Op Res State Req α) (i : ℕ) (req : Req) (o : Op) (k : Res o → Prog Op Res α)
      (r : Res o) (s' : State) (hi : c.threads[i]? = some (req, .op o k))
      (hstep : step i o c.state = some (r, s')) :
      Step c (.act i o r) ⟨s', c.threads.set i (req, k r)⟩

/-- The runs of a pool, with their labels in order. -/
inductive Run : Pool Op Res State Req α → List (Label Op Res Req) → Pool Op Res State Req α → Prop
  | nil (c : Pool Op Res State Req α) : Run c [] c
  | snoc {c c' c'' : Pool Op Res State Req α} {tr : List (Label Op Res Req)}
      {e : Label Op Res Req} (h : Run c tr c') (hs : Step step prog c' e c'') :
      Run c (tr ++ [e]) c''

variable {step prog} {c c' c'' : Pool Op Res State Req α} {req req' : Req} {p q : Prog Op Res α}
  {i j : ℕ}

/-- The threads after a request has been started. -/
theorem thread_concat (h : (c.threads ++ [(req, p)])[j]? = some (req', q)) :
    (j ≠ c.threads.length ∧ c.threads[j]? = some (req', q)) ∨
      (j = c.threads.length ∧ req' = req ∧ q = p) := by
  rcases lt_trichotomy j c.threads.length with hlt | rfl | hgt
  · exact Or.inl ⟨hlt.ne, by rwa [List.getElem?_append_left hlt] at h⟩
  · simp only [List.getElem?_concat_length, Option.some.injEq, Prod.mk.injEq] at h
    exact Or.inr ⟨rfl, h.1.symm, h.2.symm⟩
  · rw [List.getElem?_eq_none (by simpa using Nat.succ_le_of_lt hgt)] at h
    exact absurd h (by simp)

/-- The threads after one of them has performed an operation. -/
theorem thread_set (hi : i < c.threads.length)
    (h : (c.threads.set i (req, p))[j]? = some (req', q)) :
    (j ≠ i ∧ c.threads[j]? = some (req', q)) ∨ (j = i ∧ req' = req ∧ q = p) := by
  by_cases hji : j = i
  · subst hji
    simp only [List.getElem?_set_self hi, Option.some.injEq, Prod.mk.injEq] at h
    exact Or.inr ⟨rfl, h.1.symm, h.2.symm⟩
  · exact Or.inl ⟨hji, by rwa [List.getElem?_set_ne (Ne.symm hji)] at h⟩

/-- A thread that has been started stays. -/
theorem Step.thread {e : Label Op Res Req} (h : Step step prog c e c')
    (hi : c.threads[i]? = some (req, p)) : ∃ q, c'.threads[i]? = some (req, q) := by
  have hlt := (List.getElem?_eq_some_iff.mp hi).1
  cases h with
  | start req' => exact ⟨p, by rwa [List.getElem?_append_left hlt]⟩
  | act j req' o k r s' hj hs =>
    by_cases hij : i = j
    · subst hij
      obtain ⟨rfl, -⟩ := Prod.mk.inj (Option.some.inj (hi.symm.trans hj))
      exact ⟨k r, List.getElem?_set_self hlt⟩
    · exact ⟨p, by rwa [List.getElem?_set_ne (Ne.symm hij)]⟩

/-- A thread that has returned takes no step any more. -/
theorem Step.thread_ret {e : Label Op Res Req} {a : α} (h : Step step prog c e c')
    (hi : c.threads[i]? = some (req, .ret a)) : c'.threads[i]? = some (req, .ret a) := by
  have hlt := (List.getElem?_eq_some_iff.mp hi).1
  cases h with
  | start req' => rwa [List.getElem?_append_left hlt]
  | act j req' o k r s' hj hs =>
    have hij : j ≠ i := by
      rintro rfl
      exact absurd (hj.symm.trans hi) (by simp)
    rwa [List.getElem?_set_ne hij]

theorem Run.thread_ret {tr : List (Label Op Res Req)} {a : α} (h : Run step prog c tr c')
    (hi : c.threads[i]? = some (req, .ret a)) : c'.threads[i]? = some (req, .ret a) := by
  induction h with
  | nil => exact hi
  | snoc _ hs ih => exact hs.thread_ret ih

/-- What a thread can only return, it can only return after a step. -/
theorem Step.ends {e : Label Op Res Req} {Q : α → Prop} (h : Step step prog c e c')
    (hlt : i < c.threads.length)
    (hends : ∀ req p, c.threads[i]? = some (req, p) → p.Ends Q)
    (hi : c'.threads[i]? = some (req, p)) : p.Ends Q := by
  cases h with
  | start req' =>
    rcases thread_concat hi with ⟨-, hi⟩ | ⟨rfl, -⟩
    · exact hends req p hi
    · exact absurd hlt (lt_irrefl _)
  | act j req' o k r s' hj hs =>
    rcases thread_set (List.getElem?_eq_some_iff.mp hj).1 hi with ⟨-, hi⟩ | ⟨rfl, -, rfl⟩
    · exact hends req p hi
    · exact hends req' _ hj r

/-- What is left of a program whose operations are always followed by `A`. -/
theorem Run.always {A : Req → (o : Op) → Res o → Prog Op Res α → Prop}
    (hprog : ∀ req, (prog req).Always (A req)) {s : State} {tr : List (Label Op Res Req)}
    (h : Run step prog ⟨s, []⟩ tr c) (hi : c.threads[i]? = some (req, p)) : p.Always (A req) := by
  generalize hc₀ : (⟨s, []⟩ : Pool Op Res State Req α) = c₀ at h
  induction h generalizing i req p with
  | nil =>
    subst hc₀
    exact absurd hi (by simp)
  | snoc h hs ih =>
    cases hs with
    | start req' =>
      rcases thread_concat hi with ⟨-, hi⟩ | ⟨-, rfl, rfl⟩
      · exact ih hi
      · exact hprog req
    | act j req' o k r s' hj hstep =>
      rcases thread_set (List.getElem?_eq_some_iff.mp hj).1 hi with ⟨-, hi⟩ | ⟨-, rfl, rfl⟩
      · exact ih hi
      · exact (ih hj r).2

theorem Run.append {tr tr' : List (Label Op Res Req)} (h : Run step prog c tr c')
    (h' : Run step prog c' tr' c'') : Run step prog c (tr ++ tr') c'' := by
  induction h' with
  | nil => simpa using h
  | snoc _ hs ih =>
    rw [← List.append_assoc]
    exact .snoc ih hs

/-- A run can be cut anywhere. -/
theorem Run.split {tr tr' : List (Label Op Res Req)} (h : Run step prog c (tr ++ tr') c'') :
    ∃ c', Run step prog c tr c' ∧ Run step prog c' tr' c'' := by
  induction tr' using List.reverseRecOn generalizing c'' with
  | nil =>
    rw [List.append_nil] at h
    exact ⟨c'', h, .nil c''⟩
  | append_singleton tr' e ih =>
    rw [← List.append_assoc] at h
    generalize htr : tr ++ tr' ++ [e] = w at h
    cases h with
    | nil => simp at htr
    | snoc h hs =>
      obtain ⟨rfl, rfl⟩ := List.append_singleton_inj.mp htr
      obtain ⟨c₁, h₁, h₂⟩ := ih h
      exact ⟨c₁, h₁, .snoc h₂ hs⟩

theorem Step.length_le {e : Label Op Res Req} (h : Step step prog c e c') :
    c.threads.length ≤ c'.threads.length ∧ e.thread < c'.threads.length := by
  cases h with
  | start req => simp [Label.thread]
  | act i req o k r s' hi hs =>
    have hlt := (List.getElem?_eq_some_iff.mp hi).1
    simpa [Label.thread] using hlt

/-- Only threads that have been started take steps. -/
theorem Run.thread_lt {tr : List (Label Op Res Req)} (h : Run step prog c tr c')
    {e : Label Op Res Req} (he : e ∈ tr) : e.thread < c'.threads.length := by
  induction h with
  | nil => exact absurd he List.not_mem_nil
  | snoc _ hs ih =>
    obtain ⟨hle, hlt⟩ := hs.length_le
    rcases List.mem_append.mp he with he | he
    · exact (ih he).trans_le hle
    · exact List.mem_singleton.mp he ▸ hlt

/-- A thread is started when all threads before it have been started. -/
theorem Run.start_eq {tr tr' : List (Label Op Res Req)}
    (h : Run step prog c (tr ++ .start j req :: tr') c'') :
    ∃ c', Run step prog c tr c' ∧ j = c'.threads.length := by
  rw [← List.singleton_append, ← List.append_assoc] at h
  obtain ⟨c₁, h₁, -⟩ := h.split
  generalize hw : tr ++ [Label.start j req] = w at h₁
  cases h₁ with
  | nil => simp at hw
  | snoc h₁ hs =>
    obtain ⟨rfl, rfl⟩ := List.append_singleton_inj.mp hw
    cases hs with
    | start => exact ⟨_, h₁, rfl⟩

/-- A thread can run to its end while the others wait. -/
theorem exists_run_of_done {s s' : State} {threads : List (Req × Prog Op Res α)} {a : α}
    (hi : threads[i]? = some (req, p)) (h : p.run step i s = .done a s') :
    ∃ tr, Run step prog ⟨s, threads⟩ tr ⟨s', threads.set i (req, .ret a)⟩ := by
  induction p generalizing s threads with
  | ret a' =>
    obtain ⟨rfl, rfl⟩ := Prog.Outcome.done.inj h
    obtain ⟨hlt, heq⟩ := List.getElem?_eq_some_iff.mp hi
    refine ⟨[], ?_⟩
    rw [← heq, List.set_getElem_self]
    exact .nil _
  | abort => exact absurd h (by simp [Prog.run])
  | op o k ih =>
    rw [Prog.run] at h
    cases hs : step i o s with
    | none => simp [hs] at h
    | some out =>
      obtain ⟨r, s₁⟩ := out
      rw [hs] at h
      have hlt := (List.getElem?_eq_some_iff.mp hi).1
      obtain ⟨tr, hrun⟩ := ih r (List.getElem?_set_self hlt) h
      rw [List.set_set] at hrun
      exact ⟨_, (Run.snoc (.nil _) (.act ⟨s, threads⟩ i req o k r s₁ hi hs)).append hrun⟩

/-- If the program of every request performs only the operations `A` of the request, so does every
thread of a run. -/
theorem Run.only {A : Req → Op → Prop} (hprog : ∀ req, (prog req).Only (A req)) {s : State}
    {tr : List (Label Op Res Req)} (h : Run step prog ⟨s, []⟩ tr c) :
    (∀ (i : ℕ) (req : Req) (p : Prog Op Res α), c.threads[i]? = some (req, p) → p.Only (A req)) ∧
      ∀ i o r, .act i o r ∈ tr → ∃ req p, c.threads[i]? = some (req, p) ∧ A req o := by
  generalize hc₀ : (⟨s, []⟩ : Pool Op Res State Req α) = c₀ at h
  induction h with
  | nil =>
    subst hc₀
    exact ⟨by simp, by simp⟩
  | @snoc c' _ tr e h hs ih =>
    obtain ⟨hthreads, hlabels⟩ := ih
    cases hs with
    | start req =>
      refine ⟨fun j req' q hj => ?_, fun j o r hj => ?_⟩
      · rcases thread_concat hj with ⟨-, hj⟩ | ⟨-, rfl, rfl⟩
        · exact hthreads j req' q hj
        · exact hprog req'
      · obtain ⟨req', q, hq, hA⟩ := hlabels j o r (by simpa using hj)
        exact ⟨req', q, by rw [List.getElem?_append_left (List.getElem?_eq_some_iff.mp hq).1, hq],
          hA⟩
    | act i req o k r s' hi hstep =>
      have hilt := (List.getElem?_eq_some_iff.mp hi).1
      obtain ⟨hAo, hAk⟩ := hthreads i req _ hi
      refine ⟨fun j req' q hj => ?_, fun j o' r' hj => ?_⟩
      · rcases thread_set hilt hj with ⟨-, hj⟩ | ⟨-, rfl, rfl⟩
        · exact hthreads j req' q hj
        · exact hAk r
      · by_cases hji : j = i
        · subst hji
          refine ⟨req, k r, List.getElem?_set_self hilt, ?_⟩
          rcases List.mem_append.mp hj with hj | hj
          · obtain ⟨req', q, hq, hA⟩ := hlabels j o' r' hj
            obtain ⟨rfl, -⟩ := Prod.mk.inj (Option.some.inj (hi.symm.trans hq))
            exact hA
          · obtain ⟨-, rfl, -⟩ := Label.act.inj (List.mem_singleton.mp hj)
            exact hAo
        · rw [List.getElem?_set_ne (Ne.symm hji)]
          rcases List.mem_append.mp hj with hj | hj
          · exact hlabels j o' r' hj
          · exact absurd (Label.act.inj (List.mem_singleton.mp hj)).1 hji

/-! ### Simulation -/

section Simulation

variable {Req' β : Type} {prog' : Req' → Prog Op Res β} {f : Req → Req'}
  {R : Req → Prog Op Res α → Prog Op Res β → Prop}

/-- The label of a step with other requests. -/
def Label.map (f : Req → Req') : Label Op Res Req → Label Op Res Req'
  | .start i req => .start i (f req)
  | .act i o r => .act i o r

/-- The threads of two pools correspond to each other. -/
structure Simulated (f : Req → Req') (R : Req → Prog Op Res α → Prog Op Res β → Prop)
    (c : Pool Op Res State Req α) (c' : Pool Op Res State Req' β) : Prop where
  state : c'.state = c.state
  length : c'.threads.length = c.threads.length
  thread : ∀ (i : ℕ) (req : Req) (p : Prog Op Res α), c.threads[i]? = some (req, p) →
    ∃ q, c'.threads[i]? = some (f req, q) ∧ R req p q

/-- If each program performs the same operations as another one, every run of a pool is also one of
a pool of the others. -/
theorem Run.simulate (hprog : ∀ req, R req (prog req) (prog' (f req)))
    (hop : ∀ req o k q, R req (.op o k) q → ∃ k', q = .op o k' ∧ ∀ r, R req (k r) (k' r))
    {s : State} {tr : List (Label Op Res Req)} (h : Run step prog ⟨s, []⟩ tr c) :
    ∃ c', Run step prog' ⟨s, []⟩ (tr.map (Label.map f)) c' ∧ Simulated f R c c' := by
  generalize hc₀ : (⟨s, []⟩ : Pool Op Res State Req α) = c₀ at h
  induction h with
  | nil =>
    subst hc₀
    exact ⟨⟨s, []⟩, .nil _, rfl, rfl, by simp⟩
  | snoc h hs ih =>
    obtain ⟨c₁, hrun, hsim⟩ := ih
    rw [List.map_append, List.map_singleton]
    cases hs with
    | start req =>
      refine ⟨⟨c₁.state, c₁.threads ++ [(f req, prog' (f req))]⟩, hrun.snoc ?_, hsim.state, ?_, ?_⟩
      · rw [Label.map, ← hsim.length]
        exact .start c₁ (f req)
      · simp [hsim.length]
      · intro i req' p hi
        rcases thread_concat hi with ⟨-, hi⟩ | ⟨rfl, rfl, rfl⟩
        · obtain ⟨q, hq, hR⟩ := hsim.thread i req' p hi
          refine ⟨q, ?_, hR⟩
          rw [List.getElem?_append_left (List.getElem?_eq_some_iff.mp hq).1, hq]
        · refine ⟨prog' (f req'), ?_, hprog req'⟩
          rw [← hsim.length, List.getElem?_concat_length]
    | act j req o k r s' hj hstep =>
      obtain ⟨q, hq, hR⟩ := hsim.thread j req _ hj
      obtain ⟨k', rfl, hk⟩ := hop req o k q hR
      have hlt := (List.getElem?_eq_some_iff.mp hq).1
      refine ⟨⟨s', c₁.threads.set j (f req, k' r)⟩, hrun.snoc ?_, rfl, by simp [hsim.length], ?_⟩
      · exact .act c₁ j (f req) o k' r s' hq (by rw [hsim.state]; exact hstep)
      · intro i req' p hi
        rcases thread_set (List.getElem?_eq_some_iff.mp hj).1 hi with ⟨hne, hi⟩ | ⟨rfl, rfl, rfl⟩
        · obtain ⟨q', hq', hR'⟩ := hsim.thread i req' p hi
          exact ⟨q', by rwa [List.getElem?_set_ne (Ne.symm hne)], hR'⟩
        · exact ⟨k' r, List.getElem?_set_self hlt, hk r⟩

end Simulation

end Pool

end OsFromScratch
