import Mathlib.Data.Fintype.EquivFin
import Mathlib.Data.Set.Finite.Basic
import Mathlib.Logic.Relation
import Mathlib.Order.WellFounded

/-!
# Parties that wait for each other

A relation `R` says which party waits for which one. A set of parties is stuck if each of them waits
for one of the set, or for one that is gone. Nobody can get out of such a set: the largest one has
the parties from which no chain leads to one that waits for something else.

## Main definitions

* `Stuck` — a set of parties that wait for each other.

## Main results

* `stuck_of_transGen`, `Stuck.of_transGen` — a cycle is stuck, and who waits for it.
* `Stuck.exists_cycle` — behind a finite set that is stuck there is a cycle, or a party that is
  gone.
* `exists_stuck_iff` — who is stuck.
-/

namespace OsFromScratch

open Relation

variable {α : Type*} {R : α → α → Prop} {gone : α → Prop} {X : Set α} {x y : α}

/-- Each of the parties waits for one of them, or for one that is gone. -/
def Stuck (R : α → α → Prop) (gone : α → Prop) (X : Set α) : Prop :=
  ∀ x ∈ X, ∃ y, R x y ∧ (gone y ∨ y ∈ X)

/-- A cycle is stuck. -/
theorem stuck_of_transGen (h : TransGen R x x) :
    ∃ X : Set α, x ∈ X ∧ Stuck R gone X := by
  refine ⟨{y | TransGen R y x}, h, fun y hy => ?_⟩
  obtain ⟨z, hyz, hzx⟩ := TransGen.head'_iff.mp hy
  refine ⟨z, hyz, Or.inr ?_⟩
  rcases ReflTransGen.cases_head hzx with rfl | ⟨w, hzw, hwx⟩
  · exact h
  · exact TransGen.head' hzw hwx

/-- A party that waits, through others, for one that is gone or stuck, is stuck. -/
theorem Stuck.of_transGen (hX : Stuck R gone X) (h : TransGen R x y) (hy : gone y ∨ y ∈ X) :
    ∃ X' : Set α, x ∈ X' ∧ Stuck R gone X' := by
  induction h using TransGen.head_induction_on with
  | single hxy =>
    refine ⟨insert _ X, Set.mem_insert _ _, ?_⟩
    rintro z (rfl | hz)
    · exact ⟨y, hxy, hy.imp_right (Set.mem_insert_of_mem _)⟩
    · obtain ⟨w, hzw, hw⟩ := hX z hz
      exact ⟨w, hzw, hw.imp_right (Set.mem_insert_of_mem _)⟩
  | @head x z hxz _ ih =>
    obtain ⟨X', hz, hX'⟩ := ih
    refine ⟨insert x X', Set.mem_insert _ _, ?_⟩
    rintro v (rfl | hv)
    · exact ⟨z, hxz, Or.inr (Set.mem_insert_of_mem _ hz)⟩
    · obtain ⟨w, hvw, hw⟩ := hX' v hv
      exact ⟨w, hvw, hw.imp_right (Set.mem_insert_of_mem _)⟩

/-- Who is in a finite set that is stuck waits, through others, for a party that is gone, or for one
that waits for itself. -/
theorem Stuck.exists_cycle (hX : Stuck R gone X) (hfin : X.Finite) (hx : x ∈ X) :
    ∃ y, TransGen R x y ∧ (gone y ∨ TransGen R y y) := by
  by_contra hnone
  push Not at hnone
  -- without a cycle, the parties that can be reached are ordered by the relation
  let A : Set α := {y | y ∈ X ∧ ReflTransGen R x y}
  have hA : A.Finite := hfin.subset fun y hy => hy.1
  have : Finite A := hA
  have hirrefl (y : α) (hy : y ∈ A) : ¬TransGen R y y := by
    intro hyy
    rcases (reflTransGen_iff_eq_or_transGen.mp hy.2) with rfl | hxy
    · exact (hnone y hyy).2 hyy
    · exact (hnone y hxy).2 hyy
  let before : A → A → Prop := fun y z => TransGen R z y
  have : Std.Irrefl before := ⟨fun y hy => hirrefl y y.2 hy⟩
  have : IsTrans A before := ⟨fun _ _ _ h h' => h'.trans h⟩
  have hwf : WellFounded before := Finite.wellFounded_of_trans_of_irrefl before
  obtain ⟨y, -, hmin⟩ := hwf.has_min Set.univ ⟨⟨x, hx, .refl⟩, trivial⟩
  obtain ⟨z, hyz, hz⟩ := hX y y.2.1
  have hxz : TransGen R x z := TransGen.tail' y.2.2 hyz
  exact hmin ⟨z, hz.resolve_left (hnone z hxz).1, hxz.to_reflTransGen⟩ trivial (.single hyz)

/-- If finitely many parties wait, those that are stuck are those that wait, through others, for a
party that is gone, or for one that waits for itself. -/
theorem exists_stuck_iff (hfin : {x | ∃ y, R x y}.Finite) :
    (∃ X : Set α, x ∈ X ∧ Stuck R gone X) ↔
      ∃ y, TransGen R x y ∧ (gone y ∨ TransGen R y y) := by
  constructor
  · rintro ⟨X, hx, hX⟩
    refine hX.exists_cycle (hfin.subset fun y hy => ?_) hx
    obtain ⟨z, hz, -⟩ := hX y hy
    exact ⟨z, hz⟩
  · rintro ⟨y, hxy, hgone | hcycle⟩
    · exact Stuck.of_transGen (X := ∅) (fun _ h => absurd h (Set.notMem_empty _)) hxy
        (Or.inl hgone)
    · obtain ⟨X, hy, hX⟩ := stuck_of_transGen hcycle
      exact hX.of_transGen hxy (Or.inr hy)

end OsFromScratch
