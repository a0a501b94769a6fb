import Mathlib.Data.Nat.Digits.Lemmas
import Mathlib.Data.List.TakeWhile
import Mathlib.Tactic.IntervalCases

/-!
# Byte strings

Byte strings as the C++ standard library handles them: cutting a string into the pieces that
repeated calls of `getline` return, decimal notation as `std::to_string` writes it, and the
lenient reading of decimal numbers by `std::stoul`.

## Main definitions

* `cstr s` — the NUL-terminated string at the start of a buffer.
* `getlines d s` — the pieces of `s` returned by `while (getline(stream, piece, d))`.
* `toDecimal n` — `std::to_string` of an unsigned number.
* `stoul s` — `std::stoul`, with its two exceptions.

## Main results

* `getlines_intercalate`, `intercalate_getlines` — cutting inverts joining when the last piece is
  not empty, and joining inverts cutting when the string does not end in the delimiter.
* `stoul_toDecimal`, `toDecimal_decimalValue` — reading inverts writing, and writing inverts
  reading on a plain decimal without leading zeros.
-/

namespace OsFromScratch

/-- A byte string. -/
abbrev Bytes : Type := List UInt8

/-- The bytes of an ASCII text. -/
def ascii (s : String) : Bytes :=
  s.toList.map Char.toUInt8

/-- The characters of the NUL-terminated string at the start of a buffer. -/
def cstr (s : Bytes) : Bytes :=
  s.takeWhile (· ≠ 0)

theorem zero_notMem_cstr (s : Bytes) : 0 ∉ cstr s := fun h => by
  simpa using List.mem_takeWhile_imp h

theorem cstr_of_notMem {s : Bytes} (hs : 0 ∉ s) : cstr s = s :=
  List.takeWhile_eq_self_iff.mpr fun c hc => by simpa using ne_of_mem_of_not_mem hc hs

/-- What follows the first NUL of a buffer does not belong to its string. -/
theorem cstr_append_zero {s : Bytes} (hs : 0 ∉ s) (t : Bytes) : cstr (s ++ 0 :: t) = s := by
  rw [cstr, List.takeWhile_append_of_pos fun c hc => by simpa using ne_of_mem_of_not_mem hc hs]
  simp

/-! ### Cutting a string at a delimiter -/

section Getlines

variable (d : UInt8)

/-- The pieces that remain to be returned when `getline` has extracted `cur` and the stream still
holds the second argument. At the end of the stream a call that has extracted nothing fails, so
a final delimiter makes no empty piece. -/
def getlinesFrom : Bytes → Bytes → List Bytes
  | cur, [] => if cur = [] then [] else [cur]
  | cur, c :: s => if c = d then cur :: getlinesFrom [] s else getlinesFrom (cur ++ [c]) s

/-- The pieces returned by the loop `while (getline(stream, piece, d))` on the stream `s`. -/
def getlines (s : Bytes) : List Bytes :=
  getlinesFrom d [] s

variable {d}

theorem getlinesFrom_append {t : Bytes} (ht : d ∉ t) (cur s : Bytes) :
    getlinesFrom d cur (t ++ s) = getlinesFrom d (cur ++ t) s := by
  induction t generalizing cur with
  | nil => simp
  | cons c t ih =>
    obtain ⟨hc, ht⟩ := List.ne_and_not_mem_of_not_mem_cons ht
    rw [List.cons_append, getlinesFrom, if_neg (Ne.symm hc), ih ht]
    simp

theorem getlinesFrom_ne_nil (cur : Bytes) {s : Bytes} (hs : s ≠ []) :
    getlinesFrom d cur s ≠ [] := by
  induction s generalizing cur with
  | nil => exact absurd rfl hs
  | cons c s ih =>
    rw [getlinesFrom]
    split_ifs
    · simp
    · by_cases hs' : s = []
      · subst hs'
        simp [getlinesFrom]
      · exact ih _ hs'

theorem notMem_of_mem_getlinesFrom {cur s t : Bytes} (hcur : d ∉ cur)
    (ht : t ∈ getlinesFrom d cur s) : d ∉ t := by
  induction s generalizing cur with
  | nil =>
    rw [getlinesFrom] at ht
    split_ifs at ht with h
    · simp at ht
    · exact List.mem_singleton.mp ht ▸ hcur
  | cons c s ih =>
    rw [getlinesFrom] at ht
    split_ifs at ht with h
    · rcases List.mem_cons.mp ht with rfl | ht
      · exact hcur
      · exact ih (by simp) ht
    · exact ih (by simp [hcur, Ne.symm h]) ht

/-- No piece contains the delimiter. -/
theorem notMem_of_mem_getlines {s t : Bytes} (ht : t ∈ getlines d s) : d ∉ t :=
  notMem_of_mem_getlinesFrom List.not_mem_nil ht

theorem mem_of_mem_getlinesFrom {cur s t : Bytes} {c : UInt8} (hc : c ∈ t)
    (ht : t ∈ getlinesFrom d cur s) : c ∈ cur ∨ c ∈ s := by
  induction s generalizing cur with
  | nil =>
    rw [getlinesFrom] at ht
    split_ifs at ht
    · simp at ht
    · exact Or.inl (List.mem_singleton.mp ht ▸ hc)
  | cons e s ih =>
    rw [getlinesFrom] at ht
    split_ifs at ht
    · rcases List.mem_cons.mp ht with rfl | ht
      · exact Or.inl hc
      · have h := ih ht
        simp only [List.not_mem_nil, false_or] at h
        exact Or.inr (List.mem_cons_of_mem e h)
    · have h := ih ht
      simp only [List.mem_append, List.mem_singleton] at h
      simp only [List.mem_cons]
      tauto

/-- Every byte of a piece is a byte of the string. -/
theorem mem_of_mem_getlines {s t : Bytes} {c : UInt8} (hc : c ∈ t) (ht : t ∈ getlines d s) :
    c ∈ s :=
  (mem_of_mem_getlinesFrom hc ht).resolve_left List.not_mem_nil

/-- **Cutting inverts joining**, when no piece contains the delimiter and the last is not
empty. -/
theorem getlines_intercalate : (l : List Bytes) → (∀ t ∈ l, d ∉ t) → l.getLast? ≠ some [] →
    getlines d ([d].intercalate l) = l
  | [], _, _ => rfl
  | [t], hl, hlast => by
      have ht : d ∉ t := hl t (List.mem_singleton_self t)
      have hne : t ≠ [] := fun h => hlast (by simp [h])
      have h := getlinesFrom_append ht [] []
      rw [List.append_nil, List.nil_append] at h
      simpa [getlines, getlinesFrom, hne] using h
  | t :: t' :: l, hl, hlast => by
      have ht : d ∉ t := hl t List.mem_cons_self
      have ih := getlines_intercalate (t' :: l) (fun s hs => hl s (List.mem_cons_of_mem t hs))
        (by simpa using hlast)
      rw [List.intercalate_cons_cons, List.append_assoc, getlines, getlinesFrom_append ht,
        List.nil_append, List.singleton_append, getlinesFrom, if_pos rfl]
      exact congrArg (t :: ·) ih

theorem intercalate_getlinesFrom (cur s : Bytes) (hs : s.getLast? ≠ some d) :
    [d].intercalate (getlinesFrom d cur s) = cur ++ s := by
  induction s generalizing cur with
  | nil =>
    rw [getlinesFrom]
    split_ifs with h <;> simp [h]
  | cons c s ih =>
    have hs' : s.getLast? ≠ some d := by
      cases s with
      | nil => simp
      | cons c' s => simpa using hs
    rw [getlinesFrom]
    split_ifs with h
    · subst h
      have hne : s ≠ [] := by
        rintro rfl
        exact hs rfl
      obtain ⟨t, l, htl⟩ := List.exists_cons_of_ne_nil (getlinesFrom_ne_nil (d := c) [] hne)
      rw [htl, List.intercalate_cons_cons, ← htl, ih [] hs']
      simp
    · rw [ih _ hs']
      simp

/-- **Joining inverts cutting**, when the string does not end in the delimiter. -/
theorem intercalate_getlines {s : Bytes} (hs : s.getLast? ≠ some d) :
    [d].intercalate (getlines d s) = s :=
  intercalate_getlinesFrom [] s hs

theorem getLast?_getlinesFrom_ne (cur s : Bytes) (hs : s.getLast? ≠ some d) :
    (getlinesFrom d cur s).getLast? ≠ some [] := by
  induction s generalizing cur with
  | nil =>
    rw [getlinesFrom]
    split_ifs with h <;> simp [h]
  | cons c s ih =>
    have hs' : s.getLast? ≠ some d := by
      cases s with
      | nil => simp
      | cons c' s => simpa using hs
    rw [getlinesFrom]
    split_ifs with h
    · subst h
      have hne : s ≠ [] := by
        rintro rfl
        exact hs rfl
      rw [List.getLast?_cons_of_ne_nil (getlinesFrom_ne_nil [] hne)]
      exact ih [] hs'
    · exact ih _ hs'

/-- The last piece of a string that does not end in the delimiter is not empty. -/
theorem getLast?_getlines_ne {s : Bytes} (hs : s.getLast? ≠ some d) :
    (getlines d s).getLast? ≠ some [] :=
  getLast?_getlinesFrom_ne [] s hs

/-- A joined string ends as its last piece does. -/
theorem getLast?_intercalate : {l : List Bytes} → {t : Bytes} → l.getLast? = some t → t ≠ [] →
    ([d].intercalate l).getLast? = t.getLast?
  | [], _, hl, _ => by simp at hl
  | [s], t, hl, _ => by
      obtain rfl : s = t := by simpa using hl
      simp
  | s :: s' :: l, t, hl, ht => by
      have ih := getLast?_intercalate (l := s' :: l) (by simpa using hl) ht
      rw [List.intercalate_cons_cons, List.getLast?_append, ih]
      simp [List.getLast?_eq_some_getLast ht]

end Getlines

/-! ### Decimal notation -/

/-- The byte of a decimal digit. -/
def digitByte (n : ℕ) : UInt8 :=
  UInt8.ofNat (48 + n)

/-- The value of the byte of a decimal digit. -/
def digitVal (c : UInt8) : ℕ :=
  c.toNat - 48

/-- `isdigit` in the C locale. -/
def isDigit (c : UInt8) : Bool :=
  48 ≤ c.toNat && c.toNat ≤ 57

/-- `isspace` in the C locale. -/
def isSpace (c : UInt8) : Bool :=
  c = 32 || (9 ≤ c.toNat && c.toNat ≤ 13)

/-- `std::to_string` of an unsigned number. -/
def toDecimal (n : ℕ) : Bytes :=
  if n = 0 then [48] else ((Nat.digits 10 n).map digitByte).reverse

/-- The number that a string of decimal digits spells. -/
def decimalValue (s : Bytes) : ℕ :=
  Nat.ofDigits 10 (s.reverse.map digitVal)

theorem digitVal_digitByte {n : ℕ} (hn : n < 10) : digitVal (digitByte n) = n := by
  interval_cases n <;> rfl

theorem isDigit_digitByte {n : ℕ} (hn : n < 10) : isDigit (digitByte n) = true := by
  interval_cases n <;> rfl

theorem digitByte_digitVal {c : UInt8} (hc : isDigit c = true) : digitByte (digitVal c) = c := by
  simp only [isDigit, Bool.and_eq_true, decide_eq_true_eq] at hc
  rw [digitByte, digitVal, Nat.add_sub_cancel' hc.1, UInt8.ofNat_toNat]

theorem digitVal_lt {c : UInt8} (hc : isDigit c = true) : digitVal c < 10 := by
  simp only [isDigit, Bool.and_eq_true, decide_eq_true_eq] at hc
  rw [digitVal]
  omega

theorem toDecimal_ne_nil (n : ℕ) : toDecimal n ≠ [] := by
  rw [toDecimal]
  split_ifs with h
  · simp
  · simpa using Nat.digits_ne_nil_iff_ne_zero.mpr h

theorem isDigit_of_mem_toDecimal {n : ℕ} {c : UInt8} (hc : c ∈ toDecimal n) :
    isDigit c = true := by
  rw [toDecimal] at hc
  split_ifs at hc
  · rw [List.mem_singleton.mp hc]
    rfl
  · obtain ⟨k, hk, rfl⟩ := List.mem_map.mp (List.mem_reverse.mp hc)
    exact isDigit_digitByte (Nat.digits_lt_base (by norm_num) hk)

theorem decimalValue_toDecimal (n : ℕ) : decimalValue (toDecimal n) = n := by
  rw [decimalValue, toDecimal]
  split_ifs with h
  · rw [h]
    rfl
  · have hdig : ((Nat.digits 10 n).map digitByte).map digitVal = Nat.digits 10 n := by
      rw [List.map_map]
      conv_rhs => rw [← List.map_id (Nat.digits 10 n)]
      exact List.map_congr_left fun k hk =>
        digitVal_digitByte (Nat.digits_lt_base (by norm_num) hk)
    rw [List.reverse_reverse, hdig, Nat.ofDigits_digits]

/-- The decimal notation has no leading zero, except for the number zero itself. -/
theorem head?_toDecimal {n : ℕ} (hn : n ≠ 0) : (toDecimal n).head? ≠ some 48 := by
  rw [toDecimal, if_neg hn, List.head?_reverse, List.getLast?_map]
  intro h
  obtain ⟨k, hk, hk48⟩ := Option.map_eq_some_iff.mp h
  have hne : Nat.digits 10 n ≠ [] := Nat.digits_ne_nil_iff_ne_zero.mpr hn
  have hlast := Nat.getLast_digit_ne_zero 10 hn
  rw [List.getLast?_eq_some_getLast hne, Option.some.injEq] at hk
  have hk0 : digitVal (digitByte k) = 0 := by
    rw [hk48]
    rfl
  have hlt : k < 10 := by
    rw [← hk]
    exact Nat.digits_lt_base (by norm_num) (List.getLast_mem hne)
  rw [digitVal_digitByte hlt] at hk0
  exact hlast (hk.trans hk0)

/-- **Writing inverts reading** on a plain decimal without leading zeros. -/
theorem toDecimal_decimalValue {s : Bytes} (hne : s ≠ []) (hdig : ∀ c ∈ s, isDigit c = true)
    (hlead : s.head? = some 48 → s.length = 1) : toDecimal (decimalValue s) = s := by
  obtain ⟨c, t, rfl⟩ := List.exists_cons_of_ne_nil hne
  by_cases hc : c = 48
  · subst hc
    have ht : t = [] := by simpa using hlead rfl
    subst ht
    rfl
  · have hc0 : digitVal c ≠ 0 := by
      intro h
      have := digitByte_digitVal (hdig c List.mem_cons_self)
      rw [h] at this
      exact hc this.symm
    have hlen : ∀ l ∈ ((c :: t).reverse.map digitVal), l < 10 := by
      intro l hl
      obtain ⟨e, he, rfl⟩ := List.mem_map.mp hl
      exact digitVal_lt (hdig e (List.mem_reverse.mp he))
    have hdigits : Nat.digits 10 (decimalValue (c :: t)) = (c :: t).reverse.map digitVal := by
      refine Nat.digits_ofDigits 10 (by norm_num) _ hlen fun _ => ?_
      simpa using hc0
    have hval : decimalValue (c :: t) ≠ 0 := by
      intro h
      rw [h] at hdigits
      simp at hdigits
    have hmap : (((c :: t).reverse.map digitVal).map digitByte) = (c :: t).reverse := by
      rw [List.map_map]
      conv_rhs => rw [← List.map_id (c :: t).reverse]
      exact List.map_congr_left fun e he => digitByte_digitVal (hdig e (List.mem_reverse.mp he))
    rw [toDecimal, if_neg hval, hdigits, hmap, List.reverse_reverse]

/-- A number below `10 ^ k` is written with at most `k` digits. -/
theorem length_toDecimal_le {n k : ℕ} (hk : 0 < k) (hn : n < 10 ^ k) :
    (toDecimal n).length ≤ k := by
  rw [toDecimal]
  split_ifs with h
  · exact hk
  · rw [List.length_reverse, List.length_map]
    exact (Nat.digits_length_le_iff (by norm_num) n).mpr hn

/-! ### `std::stoul` -/

/-- The exceptions of the standard library that the modelled code can raise. -/
inductive StdException
  /-- `std::invalid_argument` -/
  | invalidArgument
  /-- `std::out_of_range` -/
  | outOfRange
  deriving DecidableEq, Repr

/-- The sign accepted in front of a number, and what follows it. -/
def takeSign : Bytes → Bool × Bytes
  | 43 :: s => (false, s)
  | 45 :: s => (true, s)
  | s => (false, s)

/-- `std::stoul` with base ten, for a 64-bit `unsigned long`: leading blanks are skipped, one sign
is accepted, the longest run of digits is read and what follows it is ignored. A negative number
is negated modulo `2 ^ 64`. -/
def stoul (s : Bytes) : Except StdException ℕ :=
  let signed := takeSign (s.dropWhile isSpace)
  let digits := signed.2.takeWhile isDigit
  if digits = [] then
    .error .invalidArgument
  else if 2 ^ 64 ≤ decimalValue digits then
    .error .outOfRange
  else if signed.1 then
    .ok ((2 ^ 64 - decimalValue digits) % 2 ^ 64)
  else
    .ok (decimalValue digits)

theorem dropWhile_isSpace_of_isDigit {s : Bytes} (hdig : ∀ c ∈ s, isDigit c = true) :
    s.dropWhile isSpace = s := by
  cases s with
  | nil => rfl
  | cons c s =>
    have hc := hdig c List.mem_cons_self
    have : isSpace c = false := by
      simp only [isDigit, isSpace, Bool.and_eq_true, decide_eq_true_eq] at hc ⊢
      have h32 : c ≠ 32 := by
        rintro rfl
        exact absurd hc.1 (by decide)
      simp only [h32, decide_false, Bool.false_or, Bool.and_eq_false_iff, decide_eq_false_iff_not]
      omega
    rw [List.dropWhile_cons, this]
    rfl

theorem takeSign_of_isDigit {s : Bytes} (hdig : ∀ c ∈ s, isDigit c = true) :
    takeSign s = (false, s) := by
  cases s with
  | nil => rfl
  | cons c s =>
    have hc := hdig c List.mem_cons_self
    rw [takeSign]
    · rintro s' ⟨⟩
      exact absurd hc (by decide)
    · rintro s' ⟨⟩
      exact absurd hc (by decide)

/-- `std::stoul` on a plain decimal that fits an `unsigned long`. -/
theorem stoul_of_isDigit {s : Bytes} (hne : s ≠ []) (hdig : ∀ c ∈ s, isDigit c = true)
    (hlt : decimalValue s < 2 ^ 64) : stoul s = .ok (decimalValue s) := by
  have htake : s.takeWhile isDigit = s := List.takeWhile_eq_self_iff.mpr hdig
  simp only [stoul, dropWhile_isSpace_of_isDigit hdig, takeSign_of_isDigit hdig, htake, hne,
    if_false, not_le.mpr hlt, Bool.false_eq_true]

/-- **Reading inverts writing.** -/
theorem stoul_toDecimal {n : ℕ} (hn : n < 2 ^ 64) : stoul (toDecimal n) = .ok n := by
  have h := stoul_of_isDigit (toDecimal_ne_nil n) (fun _ => isDigit_of_mem_toDecimal)
    (by rwa [decimalValue_toDecimal])
  rwa [decimalValue_toDecimal] at h

end OsFromScratch
