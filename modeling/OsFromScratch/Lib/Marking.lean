import Mathlib.Data.List.Basic
import Mathlib.Logic.Relation

/-!
# Marking traversals

A traversal that marks everything it comes across keeps a list of the marks and fails when something
is marked twice. Its loops are folds in `Except`, whose body adds a set of marks for each item. The
things are in the order of a tree if nothing is referenced by two parents, which is what it takes
for the marks of two branches to be disjoint.

## Main definitions

* `Marks` — the marks that the body of a loop adds.
* `SingleParents` — the nodes below a root have one parent each.

## Main results

* `Marks.foldlM` — the marks that a loop adds.
* `Marks.foldlM_ne_error`, `Marks.foldlM_ne_error_of_disjoint` — a loop does not fail.
* `SingleParents.acyclic`, `SingleParents.sibling_eq` — single parents make a tree.
-/

namespace OsFromScratch

variable {α β ε : Type*}

/-! ### Loops -/

/-- When the body of a loop ends normally for an item, it has marked the elements of the set `S` of
that item, in addition to those that were marked before. -/
def Marks (f : List β → α → Except ε (List β)) (S : α → β → Prop) : Prop :=
  ∀ used a used', f used a = .ok used' → ∀ x, x ∈ used' ↔ x ∈ used ∨ S a x

namespace Marks

variable {f : List β → α → Except ε (List β)} {S : α → β → Prop} {used used' : List β}

theorem subset (h : Marks f S) {a : α} (hok : f used a = .ok used') : used ⊆ used' :=
  fun x hx => (h used a used' hok x).mpr (Or.inl hx)

/-- A loop adds the marks of all items. -/
theorem foldlM (h : Marks f S) :
    Marks (fun used (l : List α) => l.foldlM f used) fun l x => ∃ a ∈ l, S a x := by
  intro used l
  induction l generalizing used with
  | nil =>
    rintro used' ⟨⟩ x
    simp
  | cons a l ih =>
    intro used' hok x
    replace hok : (f used a >>= fun used => l.foldlM f used) = .ok used' := hok
    cases hstep : f used a with
    | error e =>
      rw [hstep] at hok
      cases hok
    | ok used₁ =>
      rw [hstep] at hok
      refine (ih used₁ used' hok x).trans ?_
      rw [h used a used₁ hstep x, or_assoc]
      exact or_congr_right (List.exists_mem_cons_iff (S · x) a l).symm

/-- A loop does not fail in some way if its body does not, whatever has been marked so far. -/
theorem foldlM_ne_error (h : Marks f S) {l : List α} {e : ε}
    (hstep : ∀ a ∈ l, ∀ used', used ⊆ used' → f used' a ≠ .error e) :
    l.foldlM f used ≠ .error e := by
  induction l generalizing used with
  | nil => simp [pure, Except.pure]
  | cons a l ih =>
    obtain ⟨hhead, htail⟩ := List.forall_mem_cons.mp hstep
    have ha := hhead used (List.Subset.refl used)
    rw [List.foldlM_cons]
    cases hfirst : f used a with
    | error e' => exact fun heq => ha (hfirst.trans heq)
    | ok used₁ =>
      refine ih fun a' ha' used' hsub => ?_
      exact htail a' ha' used' (List.Subset.trans (h.subset hfirst) hsub)

/-- A loop does not fail if the marks of its items are new, and different for different items. -/
theorem foldlM_ne_error_of_disjoint (h : Marks f S) {l : List α} {e : ε}
    (hstep : ∀ a ∈ l, ∀ used', (∀ x, S a x → x ∉ used') → f used' a ≠ .error e)
    (hpair : l.Pairwise fun a a' => ∀ x, S a x → ¬S a' x)
    (hnew : ∀ a ∈ l, ∀ x, S a x → x ∉ used) : l.foldlM f used ≠ .error e := by
  induction l generalizing used with
  | nil => simp [pure, Except.pure]
  | cons a l ih =>
    obtain ⟨hhead, htail⟩ := List.forall_mem_cons.mp hstep
    obtain ⟨hdisj, hpair⟩ := List.pairwise_cons.mp hpair
    obtain ⟨hnewa, hnewl⟩ := List.forall_mem_cons.mp hnew
    have ha := hhead used hnewa
    rw [List.foldlM_cons]
    cases hfirst : f used a with
    | error e' => exact fun heq => ha (hfirst.trans heq)
    | ok used₁ =>
      refine ih htail hpair fun a' ha' x hx hmem => ?_
      rcases (h used a used₁ hfirst x).mp hmem with hold | hsame
      · exact hnewl a' ha' x hx hold
      · exact hdisj a' ha' x hsame hx

end Marks

/-- Loops with bodies that agree unless the first one fails in some way agree unless the first loop
fails in this way. -/
theorem foldlM_congr_of_ne_error {σ : Type*} {f g : σ → α → Except ε σ} {e : ε}
    (hbody : ∀ s a, f s a ≠ .error e → g s a = f s a) {l : List α} {s : σ}
    (h : l.foldlM f s ≠ .error e) : l.foldlM g s = l.foldlM f s := by
  induction l generalizing s with
  | nil => rfl
  | cons a l ih =>
    rw [List.foldlM_cons] at h ⊢
    have hfirst : f s a ≠ .error e := by
      intro heq
      rw [heq] at h
      exact h rfl
    rw [List.foldlM_cons, hbody s a hfirst]
    cases hstep : f s a with
    | error e' => rfl
    | ok s' =>
      rw [hstep] at h
      exact ih h

/-! ### Trees -/

open Relation

/-- No node below the root has two parents, and the root has none. -/
structure SingleParents (child : α → α → Prop) (root : α) : Prop where
  orphan : ∀ a, ¬child a root
  parent : ∀ a a' b, ReflTransGen child root a → ReflTransGen child root a' →
    child a b → child a' b → a = a'

namespace SingleParents

variable {child : α → α → Prop} {root a b c : α}

/-- No node is below itself. -/
theorem acyclic (h : SingleParents child root) (ha : ReflTransGen child root a) :
    ¬TransGen child a a := by
  induction ha with
  | refl =>
    intro hcycle
    obtain ⟨p, -, hp⟩ := TransGen.tail'_iff.mp hcycle
    exact h.orphan p hp
  | @tail p b hrp hpb ih =>
    intro hcycle
    obtain ⟨p', hbp', hp'b⟩ := TransGen.tail'_iff.mp hcycle
    have hreach : ReflTransGen child root p' := (hrp.tail hpb).trans hbp'
    obtain rfl := h.parent p p' b hrp hreach hpb hp'b
    exact ih (TransGen.head' hpb hbp')

/-- Of two nodes above the same node, one is above the other. -/
theorem total (h : SingleParents child root) (ha : ReflTransGen child root a)
    (hb : ReflTransGen child root b) (hac : ReflTransGen child a c)
    (hbc : ReflTransGen child b c) : ReflTransGen child a b ∨ ReflTransGen child b a := by
  induction hac with
  | refl => exact Or.inr hbc
  | @tail p c hap hpc ih =>
    rcases ReflTransGen.cases_tail hbc with rfl | ⟨p', hbp', hp'c⟩
    · exact Or.inl (hap.tail hpc)
    · obtain rfl := h.parent p p' c (ha.trans hap) (hb.trans hbp') hpc hp'c
      exact ih hbp'

/-- Two children of a node with a common node below them are the same. -/
theorem sibling_eq (h : SingleParents child root) {p : α} (hp : ReflTransGen child root p)
    (ha : child p a) (hb : child p b) (hac : ReflTransGen child a c)
    (hbc : ReflTransGen child b c) : a = b := by
  -- a child of the node cannot be strictly below another one
  have hstrict {a b : α} (ha : child p a) (hb : child p b) (hab : ReflTransGen child a b) :
      a = b := by
    rcases ReflTransGen.cases_tail hab with heq | ⟨p', hap', hp'b⟩
    · exact heq.symm
    · obtain rfl := h.parent p p' b hp ((hp.tail ha).trans hap') hb hp'b
      exact absurd (TransGen.head' ha hap') (h.acyclic hp)
  rcases h.total (hp.tail ha) (hp.tail hb) hac hbc with hab | hba
  · exact hstrict ha hb hab
  · exact (hstrict hb ha hba).symm

end SingleParents

end OsFromScratch
