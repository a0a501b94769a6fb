import Mathlib.Data.List.Basic

/-!
# Runs of a component

A component that is called again and again: a call has a result and a next state, or no value where
the component fails. A run is a sequence of calls that are allowed where they are made, each of
which has a value. What is allowed may depend on the calls before.

## Main definitions

* `Runs exec Allowed s cs rs t` — the calls `cs` lead from `s` to `t` with the results `rs`.
* `runAll` — the results of a list of calls, each of which is tested before it is made.
* `Steps Step a cs rs b` — the same for a component that is given by a relation.

## Main results

* `Runs.invariant` — the induction over a run.
* `Runs.append` — one run after another.
* `Runs.of_runAll` — a run that has been computed.
* `Runs.refines` — a component does what a relation between abstractions of its states says.
-/

namespace OsFromScratch

variable {σ τ κ ρ : Type*}

/-- A computation that goes on with the value of its first part. -/
theorem bind_of_eq_some {x : Option σ} {a : σ} {f : σ → Option τ} (h : x = some a) :
    x.bind f = f a := by
  rw [h, Option.bind_some]

/-- The calls `cs` are allowed where they are made, and lead from `s` to `t` with the results
`rs`. -/
inductive Runs (exec : κ → σ → Option (ρ × σ)) (Allowed : List κ → σ → κ → Prop) (s : σ) :
    List κ → List ρ → σ → Prop
  | nil : Runs exec Allowed s [] [] s
  | snoc {cs : List κ} {rs : List ρ} {t t' : σ} {c : κ} {r : ρ} (hrun : Runs exec Allowed s cs rs t)
    (hcall : Allowed cs t c) (hexec : exec c t = some (r, t')) :
    Runs exec Allowed s (cs ++ [c]) (rs ++ [r]) t'

/-- The results of a list of calls, each of which is tested before it is made, and the state after
them. -/
def runAll (exec : κ → σ → Option (ρ × σ)) (allowed : σ → κ → Bool) :
    List κ → σ → Option (List ρ × σ)
  | [], s => some ([], s)
  | c :: cs, s =>
    if allowed s c then do
      let next ← exec c s
      let rest ← runAll exec allowed cs next.2
      some (next.1 :: rest.1, rest.2)
    else
      none

/-- The calls `cs` may lead from `a` to `b` with the results `rs`, if a call may do what the
relation `Step` says. -/
inductive Steps (Step : τ → κ → ρ → τ → Prop) (a : τ) : List κ → List ρ → τ → Prop
  | nil : Steps Step a [] [] a
  | snoc {cs : List κ} {rs : List ρ} {b b' : τ} {c : κ} {r : ρ} (hsteps : Steps Step a cs rs b)
    (hstep : Step b c r b') : Steps Step a (cs ++ [c]) (rs ++ [r]) b'

namespace Runs

variable {exec : κ → σ → Option (ρ × σ)} {Allowed Allowed' : List κ → σ → κ → Prop} {s t u : σ}
  {cs cs' : List κ} {rs rs' : List ρ}

/-- What holds at first, and is preserved by every call that is allowed, holds after every run. -/
theorem invariant (I : List κ → List ρ → σ → Prop) (hs : I [] [] s)
    (hstep : ∀ {cs rs t t' c r}, I cs rs t → Allowed cs t c → exec c t = some (r, t') →
      I (cs ++ [c]) (rs ++ [r]) t')
    (h : Runs exec Allowed s cs rs t) : I cs rs t := by
  induction h with
  | nil => exact hs
  | snoc _ hcall hexec ih => exact hstep ih hcall hexec

theorem mono (hmono : ∀ cs t c, Allowed cs t c → Allowed' cs t c)
    (h : Runs exec Allowed s cs rs t) : Runs exec Allowed' s cs rs t := by
  induction h with
  | nil => exact .nil
  | snoc _ hcall hexec ih => exact ih.snoc (hmono _ _ _ hcall) hexec

/-- A run that goes on from where another one ends. -/
theorem append (h : Runs exec Allowed s cs rs t)
    (h' : Runs exec (fun cs' => Allowed (cs ++ cs')) t cs' rs' u) :
    Runs exec Allowed s (cs ++ cs') (rs ++ rs') u := by
  induction h' with
  | nil =>
    rw [List.append_nil, List.append_nil]
    exact h
  | snoc _ hcall hexec ih =>
    rw [← List.append_assoc, ← List.append_assoc]
    exact ih.snoc hcall hexec

/-- A run that begins with a call. -/
theorem cons {c : κ} {r : ρ} (hcall : Allowed [] s c) (hexec : exec c s = some (r, t))
    (h : Runs exec (fun cs => Allowed (c :: cs)) t cs rs u) :
    Runs exec Allowed s (c :: cs) (r :: rs) u :=
  append (nil.snoc hcall hexec) h

/-- A run that has been computed. -/
theorem of_runAll {allowed : σ → κ → Bool} (hallowed : ∀ cs t c, allowed t c = true →
    Allowed cs t c)
    (h : runAll exec allowed cs s = some (rs, t)) : Runs exec Allowed s cs rs t := by
  induction cs generalizing s rs Allowed with
  | nil =>
    rw [runAll, Option.some.injEq, Prod.mk.injEq] at h
    obtain ⟨rfl, rfl⟩ := h
    exact .nil
  | cons c cs ih =>
    rw [runAll] at h
    split_ifs at h with hc
    obtain ⟨⟨r, s'⟩, hexec, h⟩ := Option.bind_eq_some_iff.mp h
    obtain ⟨⟨rs', t'⟩, hrest, h⟩ := Option.bind_eq_some_iff.mp h
    rw [Option.some.injEq, Prod.mk.injEq] at h
    obtain ⟨rfl, rfl⟩ := h
    exact cons (hallowed [] s c hc) hexec (ih (fun cs t b => hallowed (c :: cs) t b) hrest)

/-- A component with an invariant, under which every call does what a relation says of the
abstractions of the states. -/
theorem refines {Step : τ → κ → ρ → τ → Prop} (f : σ → τ) (I : σ → Prop) (hs : I s)
    (hstep : ∀ {cs t t' c r}, I t → Allowed cs t c → exec c t = some (r, t') →
      I t' ∧ Step (f t) c r (f t'))
    (h : Runs exec Allowed s cs rs t) : I t ∧ Steps Step (f s) cs rs (f t) := by
  induction h with
  | nil => exact ⟨hs, .nil⟩
  | snoc _ hcall hexec ih =>
    obtain ⟨hI, hnext⟩ := hstep ih.1 hcall hexec
    exact ⟨hI, ih.2.snoc hnext⟩

end Runs

end OsFromScratch
