import Mathlib.Data.List.Basic
import Mathlib.Data.List.Induction
import Mathlib.Data.Option.Basic

/-!
# Trees given by their labelled edges

A tree given by a root and a partial function from nodes and labels to nodes. The nodes that
matter are those at the end of a path of labels from the root; what the function does elsewhere
is irrelevant, so a tree can live inside a larger store whose other cells hold anything.

## Main definitions

* `walk next root p` — the node at the end of the path `p`.
* `IsTree next root` — no edge leads to the root and no node is reached by two edges.

## Main results

* `IsTree.walk_inj` — a node is at the end of one path only.
* `walk_congr`, `IsTree.walk_update` — the paths after a change of edges that does not concern the
  tree, and after a leaf has been attached or cut off.
-/

namespace OsFromScratch

variable {α ι : Type*} {next next' : α → ι → Option α} {root : α}

/-- The node at the end of a path of labels from the root. -/
def walk (next : α → ι → Option α) (root : α) (p : List ι) : Option α :=
  p.foldlM next root

@[simp] theorem walk_nil : walk next root [] = some root := rfl

theorem walk_concat (p : List ι) (n : ι) :
    walk next root (p ++ [n]) = (walk next root p).bind fun b => next b n := by
  simp only [walk, List.foldlM_append, List.foldlM_cons, List.foldlM_nil, bind_pure]
  rfl

theorem walk_concat_eq_some {p : List ι} {n : ι} {c : α} :
    walk next root (p ++ [n]) = some c ↔ ∃ b, walk next root p = some b ∧ next b n = some c := by
  rw [walk_concat, Option.bind_eq_some_iff]

/-- The part of a store that is reached from the root is a tree. -/
structure IsTree (next : α → ι → Option α) (root : α) : Prop where
  root_ne : ∀ p b n, walk next root p = some b → next b n ≠ some root
  edge_unique : ∀ p q b b' n n' c, walk next root p = some b → walk next root q = some b' →
    next b n = some c → next b' n' = some c → b = b' ∧ n = n'

/-- A node is at the end of one path only. -/
theorem IsTree.walk_inj (h : IsTree next root) {p q : List ι} {b : α}
    (hp : walk next root p = some b) (hq : walk next root q = some b) : p = q := by
  induction p using List.reverseRecOn generalizing q b with
  | nil =>
    obtain rfl : root = b := Option.some.inj hp
    rcases List.eq_nil_or_concat' q with rfl | ⟨q, n, rfl⟩
    · rfl
    · obtain ⟨b', hb', hn⟩ := walk_concat_eq_some.mp hq
      exact absurd hn (h.root_ne q b' n hb')
  | append_singleton p m ih =>
    obtain ⟨b₁, hb₁, hm⟩ := walk_concat_eq_some.mp hp
    rcases List.eq_nil_or_concat' q with rfl | ⟨q, n, rfl⟩
    · obtain rfl : root = b := Option.some.inj hq
      exact absurd hm (h.root_ne p b₁ m hb₁)
    · obtain ⟨b₂, hb₂, hn⟩ := walk_concat_eq_some.mp hq
      obtain ⟨rfl, rfl⟩ := h.edge_unique p q b₁ b₂ m n b hb₁ hb₂ hm hn
      rw [ih hb₁ hb₂]

/-- A change of edges outside the tree changes no path. -/
theorem walk_congr (h : ∀ p b, walk next root p = some b → next' b = next b) (p : List ι) :
    walk next' root p = walk next root p := by
  induction p using List.reverseRecOn with
  | nil => rfl
  | append_singleton p n ih =>
    rw [walk_concat, walk_concat, ih]
    cases hb : walk next root p with
    | none => rfl
    | some b => simp only [Option.bind_some, h p b hb]

/-- The paths after the edge `n` of `d` has been changed to `o`, where the old and the new end of
the edge, if there is one, is a leaf: only the path through that edge changes. -/
theorem IsTree.walk_update [DecidableEq ι] (h : IsTree next root) {q : List ι} {d : α} {n : ι}
    {o : Option α} (hq : walk next root q = some d)
    (hother : ∀ p b, walk next root p = some b → b ≠ d → next' b = next b)
    (hd : ∀ m, m ≠ n → next' d m = next d m) (hdn : next' d n = o)
    (hold : ∀ c m, next d n = some c → next c m = none)
    (hnew : ∀ c m, o = some c → next' c m = none) (p : List ι) :
    walk next' root p = if p = q ++ [n] then o else walk next root p := by
  have hne {p : List ι} {b : α} (hb : walk next root p = some b) (hbd : b ≠ d) (m : ι) :
      p ++ [m] ≠ q ++ [n] := by
    intro heq
    rw [(List.append_inj' heq rfl).1, hq] at hb
    exact hbd (Option.some.inj hb).symm
  induction p using List.reverseRecOn with
  | nil => simp
  | append_singleton p m ih =>
    rw [walk_concat, walk_concat, ih]
    by_cases hpq : p = q ++ [n]
    · -- beyond the edge there is nothing, before the change and after it
      have hm : p ++ [m] ≠ q ++ [n] := by simp [hpq]
      have hold' : (walk next root p).bind (next · m) = none := by
        rw [hpq, walk_concat, hq, Option.bind_some, Option.bind_eq_none_iff]
        exact fun c hc => hold c m hc
      have hnew' : o.bind (next' · m) = none := by
        rw [Option.bind_eq_none_iff]
        exact fun c hc => hnew c m hc
      rw [if_pos hpq, if_neg hm, hold', hnew']
    · rw [if_neg hpq]
      cases hb : walk next root p with
      | none =>
        have hm : p ++ [m] ≠ q ++ [n] := by
          intro heq
          rw [(List.append_inj' heq rfl).1, hq] at hb
          exact absurd hb (by simp)
        rw [if_neg hm]
        rfl
      | some b =>
        rw [Option.bind_some, Option.bind_some]
        by_cases hbd : b = d
        · subst hbd
          obtain rfl := h.walk_inj hb hq
          by_cases hm : m = n
          · rw [hm, if_pos rfl, hdn]
          · rw [if_neg (by simpa using hm), hd m hm]
        · rw [if_neg (hne hb hbd m), hother p b hb hbd]

end OsFromScratch
