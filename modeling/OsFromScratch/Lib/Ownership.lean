import Mathlib.Data.List.Perm.Basic
import Mathlib.Data.Set.Card

/-!
# Resources divided among owners

A set of resources that is divided among owners without overlap: each owner has a list of distinct
resources, and together they have the whole set.

## Main definitions

* `Divided f S` — the owners `p` have the lists `f p`, which divide the set `S`.

## Main results

* `Divided.of_single` — one owner has everything.
* `Divided.move` — resources pass from one owner to another.
* `Divided.change` — the set changes together with what one owner has.
* `Divided.length_le_ncard`, `Divided.ncard_eq` — counting the resources.
-/

namespace OsFromScratch

variable {ι α : Type*} {f f' : ι → List α} {S S' : Set α}

/-- The lists `f p` of the owners `p` divide the set `S`. -/
structure Divided (f : ι → List α) (S : Set α) : Prop where
  nodup : ∀ p, (f p).Nodup
  disjoint : ∀ p q x, x ∈ f p → x ∈ f q → p = q
  mem_iff : ∀ x, x ∈ S ↔ ∃ p, x ∈ f p

namespace Divided

theorem mem (h : Divided f S) {p : ι} {x : α} (hx : x ∈ f p) : x ∈ S :=
  (h.mem_iff x).mpr ⟨p, hx⟩

/-- One owner has everything. -/
theorem of_single {p : ι} (hnodup : (f p).Nodup) (hother : ∀ q, q ≠ p → f q = [])
    (hset : ∀ x, x ∈ S ↔ x ∈ f p) : Divided f S := by
  have howner {q : ι} {x : α} (hx : x ∈ f q) : q = p := by
    by_contra hne
    rw [hother q hne] at hx
    simp at hx
  refine ⟨fun q => ?_, fun q r x hq hr => (howner hq).trans (howner hr).symm, fun x => ?_⟩
  · by_cases hq : q = p
    · exact hq ▸ hnodup
    · rw [hother q hq]
      exact List.nodup_nil
  · rw [hset]
    exact ⟨fun hx => ⟨p, hx⟩, fun ⟨q, hx⟩ => howner hx ▸ hx⟩

/-- Resources pass from one owner to another. -/
theorem move (h : Divided f S) {p q : ι} (hpq : p ≠ q)
    (hother : ∀ r, r ≠ p → r ≠ q → f' r = f r) (hperm : (f' p ++ f' q).Perm (f p ++ f q)) :
    Divided f' S := by
  have hpq_nodup : (f' p ++ f' q).Nodup := by
    refine hperm.nodup_iff.mpr (List.nodup_append.mpr ⟨h.nodup p, h.nodup q, ?_⟩)
    rintro x hx y hy rfl
    exact hpq (h.disjoint p q x hx hy)
  obtain ⟨hp, hq, hdisj⟩ := List.nodup_append.mp hpq_nodup
  have hmem (x : α) : x ∈ f' p ∨ x ∈ f' q ↔ x ∈ f p ∨ x ∈ f q := by
    rw [← List.mem_append, ← List.mem_append, hperm.mem_iff]
  have hback {r : ι} {x : α} (hx : x ∈ f' r) :
      ∃ r', x ∈ f r' ∧ (r' = r ∨ ((r = p ∨ r = q) ∧ (r' = p ∨ r' = q))) := by
    by_cases hrp : r = p
    · subst hrp
      rcases (hmem x).mp (Or.inl hx) with hx | hx
      · exact ⟨r, hx, Or.inl rfl⟩
      · exact ⟨q, hx, Or.inr ⟨Or.inl rfl, Or.inr rfl⟩⟩
    · by_cases hrq : r = q
      · subst hrq
        rcases (hmem x).mp (Or.inr hx) with hx | hx
        · exact ⟨p, hx, Or.inr ⟨Or.inr rfl, Or.inl rfl⟩⟩
        · exact ⟨r, hx, Or.inl rfl⟩
      · exact ⟨r, hother r hrp hrq ▸ hx, Or.inl rfl⟩
  refine ⟨fun r => ?_, fun r s x hr hs => ?_, fun x => ?_⟩
  · by_cases hrp : r = p
    · exact hrp ▸ hp
    · by_cases hrq : r = q
      · exact hrq ▸ hq
      · exact hother r hrp hrq ▸ h.nodup r
  · obtain ⟨r', hr', hr'r⟩ := hback hr
    obtain ⟨s', hs', hs's⟩ := hback hs
    have hrs := h.disjoint r' s' x hr' hs'
    by_contra hne
    -- two new owners of one resource are both among `p` and `q`, whose new lists are disjoint
    have hin : (r = p ∨ r = q) ∧ (s = p ∨ s = q) := by
      rcases hr'r with rfl | ⟨hr1, hr2⟩ <;> rcases hs's with rfl | ⟨hs1, hs2⟩
      · exact absurd hrs hne
      · exact ⟨hrs ▸ hs2, hs1⟩
      · exact ⟨hr1, hrs ▸ hr2⟩
      · exact ⟨hr1, hs1⟩
    rcases hin with ⟨rfl | rfl, rfl | rfl⟩
    · exact hne rfl
    · exact hdisj x hr x hs rfl
    · exact hdisj x hs x hr rfl
    · exact hne rfl
  · rw [h.mem_iff]
    constructor
    · rintro ⟨r, hr⟩
      by_cases hrp : r = p
      · exact ((hmem x).mpr (Or.inl (hrp ▸ hr))).elim (fun h => ⟨p, h⟩) fun h => ⟨q, h⟩
      · by_cases hrq : r = q
        · exact ((hmem x).mpr (Or.inr (hrq ▸ hr))).elim (fun h => ⟨p, h⟩) fun h => ⟨q, h⟩
        · exact ⟨r, (hother r hrp hrq).symm ▸ hr⟩
    · rintro ⟨r, hr⟩
      obtain ⟨r', hr', -⟩ := hback hr
      exact ⟨r', hr'⟩

/-- The set changes together with what one owner has. -/
theorem change (h : Divided f S) {p : ι} (hother : ∀ r, r ≠ p → f' r = f r)
    (hnodup : (f' p).Nodup) (hnew : ∀ x ∈ f' p, x ∈ S → x ∈ f p)
    (hset : ∀ x, x ∈ S' ↔ (x ∈ S ∧ x ∉ f p) ∨ x ∈ f' p) : Divided f' S' := by
  have hclash {q : ι} {x : α} (hq : q ≠ p) (hx : x ∈ f' p) : x ∉ f q := fun hx' =>
    hq (h.disjoint q p x hx' (hnew x hx (h.mem hx')))
  refine ⟨fun r => ?_, fun r s x hr hs => ?_, fun x => ?_⟩
  · by_cases hr : r = p
    · exact hr ▸ hnodup
    · exact hother r hr ▸ h.nodup r
  · by_cases hrp : r = p <;> by_cases hsp : s = p
    · rw [hrp, hsp]
    · exact absurd (hother s hsp ▸ hs) (hclash hsp (hrp ▸ hr))
    · exact absurd (hother r hrp ▸ hr) (hclash hrp (hsp ▸ hs))
    · exact h.disjoint r s x (hother r hrp ▸ hr) (hother s hsp ▸ hs)
  · rw [hset]
    constructor
    · rintro (⟨hx, hxp⟩ | hx)
      · obtain ⟨r, hr⟩ := (h.mem_iff x).mp hx
        have hrp : r ≠ p := fun heq => hxp (heq ▸ hr)
        exact ⟨r, (hother r hrp).symm ▸ hr⟩
      · exact ⟨p, hx⟩
    · rintro ⟨r, hr⟩
      by_cases hrp : r = p
      · exact Or.inr (hrp ▸ hr)
      · rw [hother r hrp] at hr
        exact Or.inl ⟨h.mem hr, fun hxp => hrp (h.disjoint r p x hr hxp)⟩

/-! ### Counting -/

theorem length_le_ncard [Finite α] (h : Divided f S) (p : ι) : (f p).length ≤ S.ncard := by
  classical
  have hsub : ((f p).toFinset : Set α) ⊆ S := fun x hx => h.mem (List.mem_toFinset.mp hx)
  have hle := Set.ncard_le_ncard hsub
  rwa [Set.ncard_coe_finset, List.toFinset_card_of_nodup (h.nodup p)] at hle

/-- When two owners have everything, what they have adds up. -/
theorem ncard_eq (h : Divided f S) {p q : ι} (hpq : p ≠ q)
    (hother : ∀ r, r ≠ p → r ≠ q → f r = []) : S.ncard = (f p).length + (f q).length := by
  classical
  have hset : S = ((f p ++ f q).toFinset : Set α) := by
    ext x
    rw [h.mem_iff, Finset.mem_coe, List.mem_toFinset, List.mem_append]
    constructor
    · rintro ⟨r, hr⟩
      by_cases hrp : r = p
      · exact Or.inl (hrp ▸ hr)
      · by_cases hrq : r = q
        · exact Or.inr (hrq ▸ hr)
        · simp [hother r hrp hrq] at hr
    · rintro (hx | hx)
      · exact ⟨p, hx⟩
      · exact ⟨q, hx⟩
  have hnodup : (f p ++ f q).Nodup := by
    refine List.nodup_append.mpr ⟨h.nodup p, h.nodup q, ?_⟩
    rintro x hx y hy rfl
    exact hpq (h.disjoint p q x hx hy)
  rw [hset, Set.ncard_coe_finset, List.toFinset_card_of_nodup hnodup, List.length_append]

end Divided

end OsFromScratch
