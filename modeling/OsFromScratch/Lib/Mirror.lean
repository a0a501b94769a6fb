import Mathlib.Data.List.Forall2
import OsFromScratch.Lib.Runs

/-!
# Two components that cannot be told apart

Two components whose states are related such that what one of them can be asked, the other one can
be asked as well, and such that like calls have the same results and lead to related states. Then
whatever run one component has, the other one has a run of like calls with the same results, and
each of its runs of like calls has the same results.

## Main definitions

* `Mirrors` — related states answer like calls in the same way.

## Main results

* `Mirrors.exists_runs` — the other component has a run of like calls.
* `Mirrors.agree` — runs of like calls have the same results.
-/

namespace OsFromScratch

variable {σ τ κ μ ρ : Type*} {exec : κ → σ → Option (ρ × σ)} {exec' : μ → τ → Option (ρ × τ)}
  {Allowed : List κ → σ → κ → Prop} {Allowed' : List μ → τ → μ → Prop} {R : σ → τ → Prop}
  {Like : κ → μ → Prop} {s s₁ : σ} {t t₁ : τ} {cs : List κ} {ds : List μ} {rs rs' : List ρ}

/-- Related states answer like calls in the same way. -/
structure Mirrors (exec : κ → σ → Option (ρ × σ)) (Allowed : List κ → σ → κ → Prop)
    (exec' : μ → τ → Option (ρ × τ)) (Allowed' : List μ → τ → μ → Prop) (R : σ → τ → Prop)
    (Like : κ → μ → Prop) : Prop where
  /-- What the first component can be asked, the second one can be asked as well. -/
  answers : ∀ {cs ds s t c r s'}, R s t → Allowed cs s c → exec c s = some (r, s') →
    ∃ d, Like c d ∧ Allowed' ds t d ∧ (exec' d t).isSome
  /-- Like calls have the same results. -/
  agrees : ∀ {cs ds s t c d r r' s' t'}, R s t → Like c d → Allowed cs s c →
    exec c s = some (r, s') → Allowed' ds t d → exec' d t = some (r', t') → r' = r ∧ R s' t'

/-- The last call of a run. -/
theorem Runs.of_snoc {c : κ} (h : Runs exec Allowed s (cs ++ [c]) rs s₁) :
    ∃ rs₀ r s₀, rs = rs₀ ++ [r] ∧ Runs exec Allowed s cs rs₀ s₀ ∧ Allowed cs s₀ c ∧
      exec c s₀ = some (r, s₁) := by
  generalize hcalls : cs ++ [c] = calls at h
  cases h with
  | nil => simp at hcalls
  | snoc hrun hcall hexec =>
    obtain ⟨rfl, heq⟩ := List.append_inj' hcalls rfl
    obtain rfl := List.singleton_inj.mp heq
    exact ⟨_, _, _, rfl, hrun, hcall, hexec⟩

/-- Like lists of calls end with like calls. -/
theorem forall₂_of_snoc {c : κ} (h : List.Forall₂ Like (cs ++ [c]) ds) :
    ∃ ds₀ d, ds = ds₀ ++ [d] ∧ List.Forall₂ Like cs ds₀ ∧ Like c d := by
  have hreverse := List.forall₂_reverse_iff.mpr h
  rw [List.reverse_append, List.reverse_singleton, List.singleton_append,
    List.forall₂_cons_left_iff] at hreverse
  obtain ⟨d, rest, hd, hrest, heq⟩ := hreverse
  refine ⟨rest.reverse, d, ?_, ?_, hd⟩
  · rw [← List.reverse_reverse ds, heq, List.reverse_cons]
  · rw [← List.forall₂_reverse_iff, List.reverse_reverse]
    exact hrest

namespace Mirrors

/-- Runs of like calls have the same results. -/
theorem agree (h : Mirrors exec Allowed exec' Allowed' R Like) (hR : R s t)
    (hrun : Runs exec Allowed s cs rs s₁) (hrun' : Runs exec' Allowed' t ds rs' t₁)
    (hlike : List.Forall₂ Like cs ds) : rs' = rs ∧ R s₁ t₁ := by
  induction hrun generalizing ds rs' t₁ with
  | nil =>
    obtain rfl := List.forall₂_nil_left_iff.mp hlike
    generalize hcalls : ([] : List μ) = calls at hrun'
    cases hrun' with
    | nil => exact ⟨rfl, hR⟩
    | snoc => simp at hcalls
  | snoc _ hcall hexec ih =>
    obtain ⟨ds₀, d, rfl, hlike₀, hd⟩ := forall₂_of_snoc hlike
    obtain ⟨rs₀, r', t₀, rfl, hrun₀, hcall', hexec'⟩ := hrun'.of_snoc
    obtain ⟨rfl, hR₀⟩ := ih hrun₀ hlike₀
    obtain ⟨rfl, hR₁⟩ := h.agrees hR₀ hd hcall hexec hcall' hexec'
    exact ⟨rfl, hR₁⟩

/-- The other component has a run of like calls. -/
theorem exists_runs (h : Mirrors exec Allowed exec' Allowed' R Like) (hR : R s t)
    (hrun : Runs exec Allowed s cs rs s₁) :
    ∃ ds t₁, List.Forall₂ Like cs ds ∧ Runs exec' Allowed' t ds rs t₁ := by
  induction hrun with
  | nil => exact ⟨[], t, .nil, .nil⟩
  | snoc hrun₀ hcall hexec ih =>
    obtain ⟨ds, t₀, hlike, hrun'⟩ := ih
    obtain ⟨-, hR₀⟩ := h.agree hR hrun₀ hrun' hlike
    obtain ⟨d, hd, hcall', hsome⟩ := h.answers hR₀ hcall hexec
    obtain ⟨⟨r', t₁⟩, hexec'⟩ := Option.isSome_iff_exists.mp hsome
    obtain ⟨rfl, -⟩ := h.agrees hR₀ hd hcall hexec hcall' hexec'
    exact ⟨ds ++ [d], t₁, List.rel_append hlike (.cons hd .nil), hrun'.snoc hcall' hexec'⟩

end Mirrors

end OsFromScratch
