import Mathlib.Data.Option.Basic
import Mathlib.Logic.Function.Basic

/-!
# Write-back caches

Items have their values at places of a backing store, and some of them in a line of a cache. A line
that has been changed is marked as dirty, and is written back when it is evicted. In a coherent
cache the lines belong to different places, and a line that is not dirty agrees with its place. Then
every place has one current value, which does not depend on what is in the cache.

## Main definitions

* `Cache` — items, their places, and their lines.
* `Cache.read`, `Cache.view` — the value of an item, and the current value of a place.
* `Cache.Coherent` — the lines are consistent.
* `Cache.evict`, `Cache.fill` — an item loses its line, or gets a line with a new value.

## Main results

* `Cache.Coherent.read_eq_view` — an item has the current value of its place.
* `Cache.Coherent.evict`, `Cache.view_evict` — evictions do not change the current values.
* `Cache.Coherent.fill`, `Cache.view_fill` — a new value only changes one place.
-/

namespace OsFromScratch

open Function

/-- A cache of lines with a mark for those that are dirty, over a backing store. -/
@[ext]
structure Cache (ι π V : Type*) where
  place : ι → π
  line : ι → Option (V × Bool)
  backing : π → V

namespace Cache

variable {ι π V : Type*} {c c' : Cache ι π V} {i j : ι} {p : π} {v : V} {dirty : Bool}

/-- The value of an item: the one in its line, or else the one at its place. -/
def read (c : Cache ι π V) (i : ι) : V :=
  (c.line i).elim (c.backing (c.place i)) Prod.fst

/-- The lines that are not dirty agree with their places. -/
def Clean (c : Cache ι π V) : Prop :=
  ∀ i v, c.line i = some (v, false) → c.backing (c.place i) = v

/-- The lines belong to different places, and those that are not dirty agree with their places. -/
structure Coherent (c : Cache ι π V) : Prop where
  clean : c.Clean
  single : ∀ i j, (c.line i).isSome → (c.line j).isSome → c.place i = c.place j → i = j

/-- The place of an item has no line of another item. -/
def Alone (c : Cache ι π V) (i : ι) : Prop :=
  ∀ j, (c.line j).isSome → c.place j = c.place i → j = i

open Classical in
/-- The current value of a place: the one in the line for it, if there is one. -/
noncomputable def view (c : Cache ι π V) (p : π) : V :=
  if h : ∃ i, (c.line i).isSome ∧ c.place i = p then c.read h.choose else c.backing p

theorem read_of_line (h : c.line i = some (v, dirty)) : c.read i = v := by
  rw [read, h]
  rfl

theorem read_of_none (h : c.line i = none) : c.read i = c.backing (c.place i) := by
  rw [read, h]
  rfl

/-- The value of an item only depends on its line and its place. -/
theorem read_congr (hline : c'.line i = c.line i) (hplace : c'.place i = c.place i)
    (hbacking : c'.backing = c.backing) : c'.read i = c.read i := by
  rw [read, read, hline, hplace, hbacking]

theorem view_of_absent (h : ∀ i, (c.line i).isSome → c.place i ≠ p) : c.view p = c.backing p := by
  rw [view, dif_neg fun ⟨i, hi, hp⟩ => h i hi hp]

/-- The current value of a place only depends on the lines for it. -/
theorem view_congr
    (hline : ∀ i, (c'.line i).isSome ∧ c'.place i = p ↔ (c.line i).isSome ∧ c.place i = p)
    (hread : ∀ i, (c.line i).isSome → c.place i = p → c'.read i = c.read i)
    (hbacking : c'.backing p = c.backing p) : c'.view p = c.view p := by
  have hlines : (fun i => (c'.line i).isSome ∧ c'.place i = p) =
      fun i => (c.line i).isSome ∧ c.place i = p :=
    funext fun i => propext (hline i)
  simp only [view]
  rw [hlines]
  by_cases hex : ∃ i, (c.line i).isSome ∧ c.place i = p
  · rw [dif_pos hex, dif_pos hex]
    exact hread _ hex.choose_spec.1 hex.choose_spec.2
  · rw [dif_neg hex, dif_neg hex]
    exact hbacking

namespace Coherent

theorem alone (h : c.Coherent) (hi : (c.line i).isSome) : c.Alone i :=
  fun j hj hp => h.single j i hj hi hp

theorem view_of_isSome (h : c.Coherent) (hi : (c.line i).isSome) :
    c.view (c.place i) = c.read i := by
  have hex : ∃ j, (c.line j).isSome ∧ c.place j = c.place i := ⟨i, hi, rfl⟩
  rw [view, dif_pos hex, h.single _ i hex.choose_spec.1 hi hex.choose_spec.2]

theorem view_of_line (h : c.Coherent) (hi : c.line i = some (v, dirty)) :
    c.view (c.place i) = v := by
  rw [h.view_of_isSome (by rw [hi]; rfl), read_of_line hi]

/-- An item has the current value of its place, unless there is a line of another item for it. -/
theorem read_eq_view (h : c.Coherent) (hi : c.Alone i) : c.read i = c.view (c.place i) := by
  cases hline : c.line i with
  | some x => exact (h.view_of_isSome (by rw [hline]; rfl)).symm
  | none =>
    rw [read_of_none hline, view_of_absent fun j hj hp => ?_]
    rw [hi j hj hp, hline] at hj
    exact Bool.false_ne_true hj

/-- The current values are those of the lines, and of the places without a line. -/
theorem view_eq (h : c.Coherent) {f : π → V}
    (hline : ∀ i v dirty, c.line i = some (v, dirty) → f (c.place i) = v)
    (hbacking : ∀ p, (∀ i, (c.line i).isSome → c.place i ≠ p) → f p = c.backing p) :
    c.view = f := by
  funext p
  by_cases hex : ∃ i, (c.line i).isSome ∧ c.place i = p
  · obtain ⟨i, hi, rfl⟩ := hex
    obtain ⟨⟨v, dirty⟩, hv⟩ := Option.isSome_iff_exists.mp hi
    rw [h.view_of_line hv, hline i v dirty hv]
  · have habsent (i : ι) (hi : (c.line i).isSome) : c.place i ≠ p := fun hp => hex ⟨i, hi, hp⟩
    rw [view_of_absent habsent, hbacking p habsent]

end Coherent

/-! ### Evictions -/

variable [DecidableEq ι] [DecidableEq π]

/-- The line of an item is written back if it is dirty, and is free again. -/
def evict (c : Cache ι π V) (i : ι) : Cache ι π V where
  place := c.place
  line := update c.line i none
  backing p := if p = c.place i ∧ (c.line i).any Prod.snd then c.read i else c.backing p

@[simp]
theorem evict_line_self : (c.evict i).line i = none := update_self ..

theorem evict_line_of_isSome (h : ((c.evict i).line j).isSome) :
    j ≠ i ∧ (c.evict i).line j = c.line j := by
  by_cases hj : j = i
  · subst hj
    rw [evict_line_self] at h
    exact absurd h Bool.false_ne_true
  · exact ⟨hj, update_of_ne hj ..⟩

theorem evict_backing_of_ne (hp : p ≠ c.place i) : (c.evict i).backing p = c.backing p :=
  if_neg fun h => hp h.1

/-- An item that has been evicted has its value at its place. -/
theorem Coherent.evict_backing_self (h : c.Coherent) :
    (c.evict i).backing (c.place i) = c.read i := by
  cases hline : c.line i with
  | none => simp [evict, read, hline]
  | some x =>
    obtain ⟨v, dirty⟩ := x
    cases dirty with
    | true => simp [evict, hline]
    | false =>
      rw [read_of_line hline, ← h.clean i v hline]
      simp [evict, hline]

theorem Coherent.evict (h : c.Coherent) (i : ι) : (c.evict i).Coherent where
  clean j v hj := by
    obtain ⟨hne, heq⟩ := evict_line_of_isSome (by rw [hj]; rfl)
    rw [heq] at hj
    by_cases hp : c.place j = c.place i
    · -- the line of the evicted item is not for the same place, so that it has none
      have hnone : c.line i = none := by
        by_contra hsome
        exact hne (h.single j i (by rw [hj]; rfl) (Option.isSome_iff_ne_none.mpr hsome) hp)
      rw [← h.clean j v hj]
      simp [Cache.evict, hnone]
    · exact (evict_backing_of_ne hp).trans (h.clean j v hj)
  single j k hj hk hp := by
    obtain ⟨-, heqj⟩ := evict_line_of_isSome hj
    obtain ⟨-, heqk⟩ := evict_line_of_isSome hk
    exact h.single j k (heqj ▸ hj) (heqk ▸ hk) hp

/-- An eviction does not change the current values. -/
theorem view_evict (h : c.Coherent) (i : ι) : (c.evict i).view = c.view := by
  refine (h.evict i).view_eq (fun j v dirty hj => ?_) fun p hp => ?_
  · obtain ⟨-, heq⟩ := evict_line_of_isSome (by rw [hj]; rfl)
    exact h.view_of_line (heq ▸ hj)
  · by_cases hi : (c.line i).isSome ∧ c.place i = p
    · obtain ⟨hi, rfl⟩ := hi
      rw [h.view_of_isSome hi, h.evict_backing_self]
    · have habsent (j : ι) (hj : (c.line j).isSome) : c.place j ≠ p := by
        intro hpj
        have hne : j ≠ i := fun heq => hi (heq ▸ ⟨hj, hpj⟩)
        have hline : (c.evict i).line j = c.line j := update_of_ne hne ..
        exact hp j (hline ▸ hj) hpj
      rw [view_of_absent habsent]
      cases hline : c.line i with
      | none => simp [evict, hline]
      | some x =>
        have hpi : p ≠ c.place i := fun heq => hi ⟨by rw [hline]; rfl, heq.symm⟩
        exact (evict_backing_of_ne hpi).symm

/-! ### New values -/

/-- An item gets a line with a value. -/
def fill (c : Cache ι π V) (i : ι) (v : V) (dirty : Bool) : Cache ι π V :=
  { c with line := update c.line i (some (v, dirty)) }

omit [DecidableEq π] in
@[simp]
theorem fill_line_self : (c.fill i v dirty).line i = some (v, dirty) := update_self ..

omit [DecidableEq π] in
theorem fill_line_of_ne (h : j ≠ i) : (c.fill i v dirty).line j = c.line j := update_of_ne h ..

omit [DecidableEq π] in
theorem Coherent.fill (h : c.Coherent) (halone : c.Alone i)
    (hclean : dirty = false → v = c.backing (c.place i)) : (c.fill i v dirty).Coherent where
  clean j w hj := by
    by_cases heq : j = i
    · subst heq
      rw [fill_line_self, Option.some.injEq, Prod.mk.injEq] at hj
      obtain ⟨rfl, hdirty⟩ := hj
      exact (hclean hdirty).symm
    · rw [fill_line_of_ne heq] at hj
      exact h.clean j w hj
  single j k hj hk hp := by
    have hold {l : ι} (hl : ((c.fill i v dirty).line l).isSome) (hne : l ≠ i) :
        (c.line l).isSome := by
      rwa [fill_line_of_ne hne] at hl
    by_cases hji : j = i
    · by_cases hki : k = i
      · rw [hji, hki]
      · exact absurd (halone k (hold hk hki) (hji ▸ hp.symm)) hki
    · by_cases hki : k = i
      · exact absurd (halone j (hold hj hji) (hki ▸ hp)) hji
      · exact h.single j k (hold hj hji) (hold hk hki) hp

/-- A new value only changes the place of the item. -/
theorem view_fill (h : c.Coherent) (halone : c.Alone i)
    (hclean : dirty = false → v = c.backing (c.place i)) :
    (c.fill i v dirty).view = update c.view (c.place i) v := by
  refine (h.fill halone hclean).view_eq (fun j w dirty' hj => ?_) fun p hp => ?_
  · by_cases heq : j = i
    · subst heq
      rw [fill_line_self, Option.some.injEq, Prod.mk.injEq] at hj
      exact (update_self ..).trans hj.1
    · rw [fill_line_of_ne heq] at hj
      have hne : c.place j ≠ c.place i := fun hp => heq (halone j (by rw [hj]; rfl) hp)
      exact (update_of_ne hne ..).trans (h.view_of_line hj)
  · have hpi : p ≠ c.place i := fun heq => hp i (by rw [fill_line_self]; rfl) heq.symm
    rw [update_of_ne hpi, view_of_absent fun j hj hpj => ?_]
    · rfl
    · have hne : j ≠ i := fun heq => hpi (heq ▸ hpj.symm)
      exact hp j (by rwa [fill_line_of_ne hne]) hpj

omit [DecidableEq π] in
/-- A new value does not change the other places. -/
theorem view_fill_of_ne (hp : c.place i ≠ p) : (c.fill i v dirty).view p = c.view p := by
  refine view_congr (fun j => ?_) (fun j _ hj => ?_) rfl
  · by_cases heq : j = i
    · subst heq
      exact iff_of_false (fun h => hp h.2) fun h => hp h.2
    · rw [fill_line_of_ne heq]
      rfl
  · have hne : j ≠ i := fun heq => hp (heq ▸ hj)
    exact read_congr (fill_line_of_ne hne) rfl rfl

/-- A line with the current value of its place changes nothing. -/
theorem view_fill_read (h : c.Coherent) (halone : c.Alone i)
    (hclean : dirty = false → c.read i = c.backing (c.place i)) :
    (c.fill i (c.read i) dirty).view = c.view := by
  rw [view_fill h halone hclean, h.read_eq_view halone, update_eq_self]

/-! ### Lines of other items -/

omit [DecidableEq π] in
/-- A dirty line need not agree with its place. -/
theorem Clean.fill_dirty (h : c.Clean) (i : ι) (v : V) : (c.fill i v true).Clean := by
  intro j w hj
  by_cases heq : j = i
  · subst heq
    simp at hj
  · rw [fill_line_of_ne heq] at hj
    exact h j w hj

/-- The line of an item is lost. -/
def drop (c : Cache ι π V) (i : ι) : Cache ι π V :=
  { c with line := update c.line i none }

/-- An item gets another place. -/
def relocate (c : Cache ι π V) (i : ι) (p : π) : Cache ι π V :=
  { c with place := update c.place i p }

omit [DecidableEq π] in
theorem Clean.drop (h : c.Clean) (i : ι) : (c.drop i).Clean := by
  intro j v hj
  by_cases heq : j = i
  · subst heq
    simp [Cache.drop] at hj
  · have hline : (c.drop i).line j = c.line j := update_of_ne heq ..
    exact h j v (hline ▸ hj)

omit [DecidableEq π] in
/-- An item without a line can be anywhere. -/
theorem Clean.relocate (h : c.Clean) (hi : c.line i = none) (p : π) : (c.relocate i p).Clean := by
  intro j v hj
  have hne : j ≠ i := by
    rintro rfl
    rw [show (c.relocate j p).line j = c.line j from rfl, hi] at hj
    cases hj
  have hplace : (c.relocate i p).place j = c.place j := update_of_ne hne ..
  rw [hplace]
  exact h j v hj

omit [DecidableEq π] in
theorem view_relocate (hi : c.line i = none) (p q : π) : (c.relocate i q).view p = c.view p := by
  have hne {j : ι} (hj : (c.line j).isSome) : j ≠ i := by
    rintro rfl
    rw [hi] at hj
    exact Bool.false_ne_true hj
  have hplace {j : ι} (hj : j ≠ i) : (c.relocate i q).place j = c.place j := update_of_ne hj ..
  refine view_congr (fun j => and_congr_right fun hj => ?_) (fun j hj _ => ?_) rfl
  · rw [hplace (hne hj)]
  · exact read_congr rfl (hplace (hne hj)) rfl

omit [DecidableEq π] in
/-- The line of an item at another place is lost. -/
theorem view_drop_of_ne (hp : c.place i ≠ p) : (c.drop i).view p = c.view p := by
  have hline {j : ι} (hj : j ≠ i) : (c.drop i).line j = c.line j := update_of_ne hj ..
  refine view_congr (fun j => ?_) (fun j _ hj => ?_) rfl
  · by_cases heq : j = i
    · subst heq
      exact iff_of_false (fun h => hp h.2) fun h => hp h.2
    · rw [hline heq]
      rfl
  · have hne : j ≠ i := fun heq => hp (heq ▸ hj)
    exact read_congr (hline hne) rfl rfl

end Cache

end OsFromScratch
