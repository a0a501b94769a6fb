import Mathlib.Order.Filter.AtTopBot.Basic
import Mathlib.Order.WellFounded
import OsFromScratch.Lib.Runs

/-!
# Infinite runs and fairness

A component that is called for ever. At each moment a call is made that is allowed, or none. What
may be done is left open; a run is fair to an activity if this is done again and again, or cannot be
done any more from some moment on.

A rank that the activity lowers and that nothing else raises shows that it is possible only finitely
often.

## Main definitions

* `Forever` — an infinite run.
* `StronglyFair` — what is possible again and again is done again and again.

## Main results

* `Forever.invariant` — what holds at every moment.
* `StronglyFair.eventually_not` — an activity that lowers a rank comes to an end.
* `exists_taken` — nothing waits in a queue for ever.
* `Runs.exists_forever` — a finite run after which nothing is done.
-/

namespace OsFromScratch

open Filter

variable {σ κ ρ : Type*}

/-- At each moment a call is made that is allowed, or none. -/
structure Forever (exec : κ → σ → Option (ρ × σ)) (Allowed : σ → κ → Prop) (f : ℕ → σ)
    (calls : ℕ → Option κ) : Prop where
  stays : ∀ k, calls k = none → f (k + 1) = f k
  moves : ∀ k c, calls k = some c → Allowed (f k) c ∧ ∃ r, exec c (f k) = some (r, f (k + 1))

/-- What is possible again and again is done again and again. -/
def StronglyFair (possible done : ℕ → Prop) : Prop :=
  (∃ᶠ k in atTop, possible k) → ∃ᶠ k in atTop, done k

/-- Something that lowers a rank which nothing raises is possible only finitely often. -/
theorem StronglyFair.eventually_not {possible done : ℕ → Prop} (h : StronglyFair possible done)
    (rank : ℕ → ℕ) {K : ℕ} (hle : ∀ k ≥ K, rank (k + 1) ≤ rank k)
    (hlt : ∀ k ≥ K, done k → rank (k + 1) < rank k) : ∀ᶠ k in atTop, ¬possible k := by
  rw [← not_frequently]
  intro hpossible
  have hanti : Antitone fun j => rank (K + j) :=
    antitone_nat_of_succ_le fun j => hle (K + j) (Nat.le_add_right K j)
  -- after the moment at which the rank is least, nothing can lower it
  let least := Function.argmin fun j => rank (K + j)
  obtain ⟨k, hk, hdone⟩ := frequently_atTop.mp (h hpossible) (K + least)
  obtain ⟨j, rfl⟩ := Nat.exists_eq_add_of_le ((Nat.le_add_right K least).trans hk)
  have hlow := hlt (K + j) (Nat.le_add_right K j) hdone
  have hleast : rank (K + least) ≤ rank (K + (j + 1)) :=
    Function.argmin_le (fun j => rank (K + j)) (j + 1)
  have hj : rank (K + j) ≤ rank (K + least) := hanti (Nat.le_of_add_le_add_left hk)
  exact absurd (hlow.trans_le hj) hleast.not_gt

namespace Forever

variable {exec : κ → σ → Option (ρ × σ)} {Allowed : σ → κ → Prop} {f : ℕ → σ}
  {calls : ℕ → Option κ}

/-- What holds at first, and is preserved by every call that is allowed, holds at every moment. -/
theorem invariant (h : Forever exec Allowed f calls) (I : σ → Prop) (hinit : I (f 0))
    (hstep : ∀ {s t c r}, I s → Allowed s c → exec c s = some (r, t) → I t) (k : ℕ) : I (f k) := by
  induction k with
  | zero => exact hinit
  | succ k ih =>
    cases hcall : calls k with
    | none => rwa [h.stays k hcall]
    | some c =>
      obtain ⟨hallowed, r, hexec⟩ := h.moves k c hcall
      exact hstep ih hallowed hexec

end Forever

/-- In a queue from whose front something is taken again and again, everything is taken at some
moment, and is in the queue until then. -/
theorem exists_taken {α : Type*} {x : α} {queue taken : ℕ → List α} {K : ℕ}
    (hqueue : ∀ k ≥ K, ∃ new, queue k ++ new = taken k ++ queue (k + 1)) (hx : x ∈ queue K)
    (htaken : (∀ k ≥ K, x ∈ queue k) → ∃ᶠ k in atTop, taken k ≠ []) :
    ∃ k ≥ K, x ∈ taken k ∧ ∀ j ≥ K, j ≤ k → x ∈ queue j := by
  classical
  have hwaits (k : ℕ) (hk : k ≥ K) (hnot : ∀ j ≥ K, j < k → x ∉ taken j) : x ∈ queue k := by
    induction k, hk using Nat.le_induction with
    | base => exact hx
    | succ k hk ih =>
      obtain ⟨new, hnew⟩ := hqueue k hk
      have hmem := List.mem_append_left new (ih fun j hj hlt => hnot j hj (Nat.lt_succ_of_lt hlt))
      rw [hnew] at hmem
      exact (List.mem_append.mp hmem).resolve_left (hnot k hk (Nat.lt_succ_self k))
  have hex : ∃ k, k ≥ K ∧ x ∈ taken k := by
    by_contra! hnot
    have hmem (k : ℕ) (hk : k ≥ K) : x ∈ queue k := hwaits k hk fun j hj _ => hnot j hj
    have hfair : StronglyFair (fun _ => True) fun k => taken k ≠ [] := fun _ => htaken hmem
    -- the rank is the number of those that are ahead of it
    have hrank (k : ℕ) (hk : k ≥ K) :
        (queue k).idxOf x = (taken k).length + (queue (k + 1)).idxOf x := by
      obtain ⟨new, hnew⟩ := hqueue k hk
      rw [← List.idxOf_append_of_mem (hmem k hk), hnew, List.idxOf_append_of_notMem (hnot k hk)]
    have hend := hfair.eventually_not (fun k => (queue k).idxOf x)
      (fun k hk => hrank k hk ▸ Nat.le_add_left _ _)
      fun k hk hne => hrank k hk ▸ Nat.lt_add_of_pos_left (List.length_pos_iff.mpr hne)
    exact hend.exists.elim fun _ h => h trivial
  obtain ⟨hk, hmem⟩ := Nat.find_spec hex
  exact ⟨_, hk, hmem, fun j hj hle => hwaits j hj fun i hi hlt hmem =>
    Nat.find_min hex (hlt.trans_le hle) ⟨hi, hmem⟩⟩

/-- A finite run after which nothing is done. -/
theorem Runs.exists_forever {exec : κ → σ → Option (ρ × σ)} {Allowed : σ → κ → Prop} {s t : σ}
    {cs : List κ} {rs : List ρ} (h : Runs exec (fun _ => Allowed) s cs rs t) :
    ∃ f, Forever exec Allowed f (cs[·]?) ∧ f 0 = s ∧ ∀ k ≥ cs.length, f k = t := by
  induction h with
  | nil => exact ⟨fun _ => s, ⟨fun _ _ => rfl, fun _ _ h => by cases h⟩, rfl, fun _ _ => rfl⟩
  | @snoc cs rs t t' c r hrun hallowed hexec ih =>
    obtain ⟨f, hforever, hinit, hend⟩ := ih
    refine ⟨fun k => if k ≤ cs.length then f k else t', ⟨fun k hk => ?_, fun k d hk => ?_⟩,
      (if_pos (Nat.zero_le _)).trans hinit, fun k hk => if_neg ?_⟩
    · have hle := List.getElem?_eq_none_iff.mp hk
      rw [List.length_append, List.length_singleton] at hle
      have hlt : cs.length < k := Nat.lt_of_succ_le hle
      rw [if_neg hlt.not_ge, if_neg (Nat.lt_succ_of_lt hlt).not_ge]
    · rcases lt_or_ge k cs.length with hlt | hge
      · rw [List.getElem?_append_left hlt] at hk
        rw [if_pos hlt.le, if_pos (Nat.succ_le_of_lt hlt)]
        exact hforever.moves k d hk
      · rw [List.getElem?_append_right hge, List.getElem?_singleton] at hk
        split_ifs at hk with hzero
        obtain rfl : cs.length = k := hge.antisymm (Nat.le_of_sub_eq_zero hzero)
        obtain rfl := Option.some.inj hk
        rw [if_pos le_rfl, if_neg (Nat.lt_succ_self _).not_ge, hend _ le_rfl]
        exact ⟨hallowed, r, hexec⟩
    · rw [List.length_append, List.length_singleton] at hk
      exact (Nat.lt_of_succ_le hk).not_ge

end OsFromScratch
