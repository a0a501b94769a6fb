import Mathlib.Data.Finset.Card
import Mathlib.Logic.Relation

/-!
# Queues with a second chance

A cache of bounded size. Its entries are in a queue, each with a mark that says whether it has been
used since the hand of the clock passed it. The hand passes the entries that are marked, takes away
their marks, and evicts the first one that is not marked.

What such a cache is for: an entry is not evicted as long as the entries that have been used since
it came in fit into the cache together.

## Main definitions

* `Step used capacity` — what happens to the queue while the entries `used` are used.
* `Recent` — what has been used since an entry came in.
* `Guarded` — the invariant.

## Main results

* `Guarded.step`, `Guarded.reaches` — an entry that has come in stays.
* `Reaches.turn` — the hand passes all entries up to one that is not marked.
-/

namespace OsFromScratch.ClockQueue

variable {α : Type*} {used : Finset α} {capacity : ℕ} {p x : α}
  {q q' : List (α × Bool)}

/-- The entries of a queue without their marks. -/
def keys (q : List (α × Bool)) : List α :=
  q.map Prod.fst

/-- An entry is marked. -/
def mark [DecidableEq α] (x : α) (q : List (α × Bool)) : List (α × Bool) :=
  q.map fun e => (e.1, e.2 || decide (e.1 = x))

/-- What happens to the queue while the entries `used` are used. An entry is evicted only from a
full queue, for one that is not in it. -/
inductive Step [DecidableEq α] (used : Finset α) (capacity : ℕ) :
    List (α × Bool) → List (α × Bool) → Prop
  | pass (x : α) (rest : List (α × Bool)) :
    Step used capacity ((x, true) :: rest) (rest ++ [(x, false)])
  | evict {x y : α} {rest : List (α × Bool)} (hy : y ∈ used) (hout : y ∉ keys ((x, false) :: rest))
    (hfull : capacity ≤ ((x, false) :: rest).length) : Step used capacity ((x, false) :: rest) rest
  | enter {x : α} {q : List (α × Bool)} (hx : x ∈ used) (hout : x ∉ keys q) :
    Step used capacity q (q ++ [(x, true)])
  | use {x : α} (q : List (α × Bool)) (hx : x ∈ used) : Step used capacity q (mark x q)

/-- What happens in several steps. -/
abbrev Reaches [DecidableEq α] (used : Finset α) (capacity : ℕ) :
    List (α × Bool) → List (α × Bool) → Prop :=
  Relation.ReflTransGen (Step used capacity)

/-! ### Entries and marks -/

@[simp]
theorem keys_nil : keys ([] : List (α × Bool)) = [] := rfl

@[simp]
theorem keys_cons (e : α × Bool) (q : List (α × Bool)) : keys (e :: q) = e.1 :: keys q := rfl

@[simp]
theorem keys_append (q q' : List (α × Bool)) : keys (q ++ q') = keys q ++ keys q' :=
  List.map_append

@[simp]
theorem keys_mark [DecidableEq α] (x : α) (q : List (α × Bool)) : keys (mark x q) = keys q := by
  simp [keys, mark]

/-- The entries that are marked are among those that have been used. -/
def MarkedIn (used : Finset α) (q : List (α × Bool)) : Prop :=
  ∀ e ∈ q, e.2 = true → e.1 ∈ used

theorem MarkedIn.append (h : MarkedIn used q) (h' : MarkedIn used q') : MarkedIn used (q ++ q') :=
  fun e he => (List.mem_append.mp he).elim (h e) (h' e)

theorem MarkedIn.mark [DecidableEq α] (h : MarkedIn used q) (hx : x ∈ used) :
    MarkedIn used (mark x q) := by
  intro e he hmarked
  obtain ⟨e', he', rfl⟩ := List.mem_map.mp he
  rcases (Bool.or_eq_true ..).mp hmarked with hold | hnew
  · exact h e' he' hold
  · exact (of_decide_eq_true hnew : e'.1 = x) ▸ hx

theorem MarkedIn.sublist (h : MarkedIn used q) (hsub : q'.Sublist q) : MarkedIn used q' :=
  fun e he => h e (hsub.mem he)

/-! ### Entries that have come in -/

/-- What has been used since an entry came in: the marked entries behind it, and after the hand of
the clock has passed it, also all entries behind it and the marked ones ahead. -/
structure Recent (used : Finset α) (p : α) (q : List (α × Bool)) : Prop where
  mem : p ∈ used
  place : ∃ ahead marked behind, q = ahead ++ (p, marked) :: behind ∧ MarkedIn used behind ∧
    (marked = false → (∀ x ∈ keys behind, x ∈ used) ∧ MarkedIn used ahead)

namespace Recent

theorem mem_keys (h : Recent used p q) : p ∈ keys q := by
  obtain ⟨ahead, marked, behind, rfl, -⟩ := h.place
  simp

/-- An entry that comes in. -/
theorem enter (hp : p ∈ used) (q : List (α × Bool)) : Recent used p (q ++ [(p, true)]) :=
  ⟨hp, q, true, [], rfl, by simp [MarkedIn], by simp⟩

theorem use [DecidableEq α] (h : Recent used p q) (hx : x ∈ used) : Recent used p (mark x q) := by
  obtain ⟨ahead, marked, behind, rfl, hbehind, hpassed⟩ := h.place
  refine ⟨h.mem, mark x ahead, marked || decide (p = x), mark x behind, by simp [mark],
    hbehind.mark hx, fun hmarked => ?_⟩
  obtain ⟨hall, hahead⟩ := hpassed (Bool.or_eq_false_iff.mp hmarked).1
  rw [keys_mark]
  exact ⟨hall, hahead.mark hx⟩

/-- Another entry comes in. -/
theorem push (h : Recent used p q) (hx : x ∈ used) : Recent used p (q ++ [(x, true)]) := by
  obtain ⟨ahead, marked, behind, rfl, hbehind, hpassed⟩ := h.place
  refine ⟨h.mem, ahead, marked, behind ++ [(x, true)], by simp,
    hbehind.append (by simpa [MarkedIn] using hx), fun hmarked => ?_⟩
  obtain ⟨hall, hahead⟩ := hpassed hmarked
  refine ⟨fun y hy => ?_, hahead⟩
  rw [keys_append, List.mem_append] at hy
  rcases hy with hy | hy
  · exact hall y hy
  · exact (show y = x by simpa using hy) ▸ hx

/-- The hand passes an entry. -/
theorem pass {rest : List (α × Bool)} (h : Recent used p ((x, true) :: rest)) :
    Recent used p (rest ++ [(x, false)]) := by
  obtain ⟨ahead, marked, behind, hq, hbehind, hpassed⟩ := h.place
  cases ahead with
  | nil =>
    -- the entry itself is passed, and those behind it are ahead of it now
    rw [List.nil_append, List.cons.injEq, Prod.mk.injEq] at hq
    obtain ⟨⟨rfl, -⟩, rfl⟩ := hq
    exact ⟨h.mem, rest, false, [], rfl, by simp [MarkedIn], fun _ => ⟨by simp, hbehind⟩⟩
  | cons e ahead =>
    rw [List.cons_append, List.cons.injEq] at hq
    obtain ⟨rfl, rfl⟩ := hq
    refine ⟨h.mem, ahead, marked, behind ++ [(x, false)], by simp,
      hbehind.append (by simp [MarkedIn]), fun hmarked => ?_⟩
    obtain ⟨hall, hahead⟩ := hpassed hmarked
    have hx : x ∈ used := hahead (x, true) List.mem_cons_self rfl
    refine ⟨fun y hy => ?_, hahead.sublist (List.sublist_cons_self _ _)⟩
    rw [keys_append, List.mem_append] at hy
    rcases hy with hy | hy
    · exact hall y hy
    · exact (show y = x by simpa using hy) ▸ hx

/-- If the entry itself is evicted, all entries in the queue have been used. -/
theorem evict {rest : List (α × Bool)} (h : Recent used p ((x, false) :: rest)) :
    Recent used p rest ∨ ∀ y ∈ keys ((x, false) :: rest), y ∈ used := by
  obtain ⟨ahead, marked, behind, hq, hbehind, hpassed⟩ := h.place
  cases ahead with
  | nil =>
    rw [List.nil_append, List.cons.injEq, Prod.mk.injEq] at hq
    obtain ⟨⟨rfl, rfl⟩, rfl⟩ := hq
    exact Or.inr (List.forall_mem_cons.mpr ⟨h.mem, (hpassed rfl).1⟩)
  | cons e ahead =>
    rw [List.cons_append, List.cons.injEq] at hq
    obtain ⟨rfl, rfl⟩ := hq
    refine Or.inl ⟨h.mem, ahead, marked, behind, rfl, hbehind, fun hmarked => ?_⟩
    obtain ⟨hall, hahead⟩ := hpassed hmarked
    exact ⟨hall, hahead.sublist (List.sublist_cons_self _ _)⟩

/-- Other entries are taken out. -/
theorem sublist (h : Recent used p q) (hnodup : (keys q).Nodup) (hsub : q'.Sublist q)
    (hp : p ∈ keys q') : Recent used p q' := by
  obtain ⟨ahead, marked, behind, rfl, hbehind, hpassed⟩ := h.place
  obtain ⟨ahead', rest, rfl, hahead', hrest⟩ := List.sublist_append_iff.mp hsub
  rw [keys_append, keys_cons, List.nodup_middle, List.nodup_cons, List.mem_append, not_or] at hnodup
  obtain ⟨⟨hout, hout'⟩, -⟩ := hnodup
  have hin : p ∈ keys rest := by
    rw [keys_append, List.mem_append] at hp
    exact hp.resolve_left fun hmem => hout ((hahead'.map Prod.fst).mem hmem)
  rcases List.sublist_cons_iff.mp hrest with hrest | ⟨behind', rfl, hbehind'⟩
  · exact absurd ((hrest.map Prod.fst).mem hin) hout'
  · refine ⟨h.mem, ahead', marked, behind', rfl, hbehind.sublist hbehind', fun hmarked => ?_⟩
    obtain ⟨hall, hahead⟩ := hpassed hmarked
    exact ⟨fun x hx => hall x ((hbehind'.map Prod.fst).mem hx), hahead.sublist hahead'⟩

end Recent

/-! ### The invariant -/

/-- The invariant: what has been used since an entry came in, if it is in the queue. -/
structure Guarded (used : Finset α) (p : α) (q : List (α × Bool)) : Prop where
  nodup : (keys q).Nodup
  recent : p ∈ keys q → Recent used p q

namespace Guarded

theorem sublist (h : Guarded used p q) (hsub : q'.Sublist q) : Guarded used p q' where
  nodup := (hsub.map Prod.fst).nodup h.nodup
  recent hp := (h.recent ((hsub.map Prod.fst).mem hp)).sublist h.nodup hsub hp

variable [DecidableEq α]

/-- Entries that have been used and one that is not in a full queue are too many to fit. -/
private theorem card_of_evict {y : α} (hnodup : (keys q).Nodup) (hall : ∀ x ∈ keys q, x ∈ used)
    (hy : y ∈ used) (hout : y ∉ keys q) (hfull : capacity ≤ q.length) : capacity < used.card := by
  have hsub : (y :: keys q).toFinset ⊆ used := fun x hx => by
    rcases List.mem_cons.mp (List.mem_toFinset.mp hx) with rfl | hx
    · exact hy
    · exact hall x hx
  have hcard := Finset.card_le_card hsub
  rw [List.toFinset_card_of_nodup (List.nodup_cons.mpr ⟨hout, hnodup⟩), List.length_cons, keys,
    List.length_map] at hcard
  omega

/-- While the entries that are used fit into the cache together, an entry that has come in stays. -/
theorem step (h : Guarded used p q) (hcard : used.card ≤ capacity)
    (hstep : Step used capacity q q') : Guarded used p q' ∧ (p ∈ keys q → p ∈ keys q') := by
  obtain ⟨hnodup, hrecent⟩ := h
  cases hstep with
  | pass x rest =>
    have hperm : (keys (rest ++ [(x, false)])).Perm (keys ((x, true) :: rest)) := by
      rw [keys_append, keys_cons]
      exact List.perm_append_singleton x (keys rest)
    refine ⟨⟨hperm.nodup_iff.mpr hnodup, fun hp => ?_⟩, hperm.mem_iff.mpr⟩
    exact (hrecent (hperm.mem_iff.mp hp)).pass
  | evict hy hout hfull =>
    have hstay (hp : p ∈ keys ((_, false) :: q')) : Recent used p q' :=
      (hrecent hp).evict.resolve_right fun hall =>
        absurd (card_of_evict hnodup hall hy hout hfull) hcard.not_gt
    refine ⟨⟨(List.nodup_cons.mp hnodup).2, fun hp => ?_⟩, fun hp => (hstay hp).mem_keys⟩
    exact hstay (List.mem_cons_of_mem _ hp)
  | @enter x _ hx hout =>
    have hnodup' : (keys (q ++ [(x, true)])).Nodup := by
      rw [keys_append]
      exact List.nodup_append_comm.mp (List.nodup_cons.mpr ⟨hout, hnodup⟩)
    refine ⟨⟨hnodup', fun hp => ?_⟩, fun hp => ?_⟩
    · rw [keys_append, List.mem_append] at hp
      rcases hp with hp | hp
      · exact (hrecent hp).push hx
      · obtain rfl : p = x := by simpa using hp
        exact .enter hx q
    · rw [keys_append]
      exact List.mem_append_left _ hp
  | use _ hx =>
    rw [keys_mark]
    refine ⟨⟨by rwa [keys_mark], fun hp => ?_⟩, id⟩
    rw [keys_mark] at hp
    exact (hrecent hp).use hx

theorem reaches (h : Guarded used p q) (hcard : used.card ≤ capacity)
    (hreaches : Reaches used capacity q q') :
    Guarded used p q' ∧ (p ∈ keys q → p ∈ keys q') := by
  induction hreaches with
  | refl => exact ⟨h, id⟩
  | tail _ hstep ih =>
    obtain ⟨hguarded, hstay⟩ := ih.1.step hcard hstep
    exact ⟨hguarded, fun hp => hstay (ih.2 hp)⟩

end Guarded

/-! ### The hand of the clock -/

/-- The hand passes entries that are marked. -/
theorem Reaches.turn [DecidableEq α] {passed : List (α × Bool)} (hmarked : ∀ e ∈ passed, e.2 = true)
    (rest : List (α × Bool)) :
    Reaches used capacity (passed ++ rest) (rest ++ passed.map fun e => (e.1, false)) := by
  induction passed generalizing rest with
  | nil => simpa using Relation.ReflTransGen.refl
  | cons e passed ih =>
    obtain ⟨he, hpassed⟩ := List.forall_mem_cons.mp hmarked
    have hfirst : Step used capacity (e :: passed ++ rest)
        (passed ++ (rest ++ [(e.1, false)])) := by
      rw [← List.append_assoc, ← Prod.mk.eta (p := e), he]
      exact .pass e.1 (passed ++ rest)
    have hrest := ih hpassed (rest ++ [(e.1, false)])
    rw [List.append_assoc] at hrest
    exact .head hfirst hrest

end OsFromScratch.ClockQueue
