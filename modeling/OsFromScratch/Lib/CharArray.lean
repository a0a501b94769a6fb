import OsFromScratch.Lib.ByteString

/-!
# Character arrays and little-endian words

The fixed-size character arrays and 32-bit words that a C structure is laid out with: the string
held by an array, `strcpy` into an array, and the four bytes of a word in little-endian order.

## Main definitions

* `arrayStr a` — the NUL-terminated string at the start of the array `a`.
* `strcpy dst src` — the array after `strcpy(dst, src)`.
* `word b₀ b₁ b₂ b₃`, `wordByte w k` — a 32-bit word and its bytes.

## Main results

* `arrayStr_strcpy` — a string that fits with its NUL is read back.
* `word_wordByte` — a word is determined by its bytes.
-/

namespace OsFromScratch

variable {n : ℕ}

/-- The NUL-terminated string at the start of a character array. -/
def arrayStr (a : Vector UInt8 n) : Bytes :=
  cstr a.toList

/-- A character array holds a NUL, so that it is a C string. -/
def Terminated (a : Vector UInt8 n) : Prop :=
  0 ∈ a.toList

/-- The array after `strcpy(dst, src)`: the characters of `src`, a NUL, and the old tail. A string
that does not fit is cut here; the modelled programs abort before such a call. -/
def strcpy (dst : Vector UInt8 n) (src : Bytes) : Vector UInt8 n :=
  Vector.ofFn fun i =>
    if h : i.val < src.length then src[i.val] else if i.val = src.length then 0 else dst.get i

theorem zero_notMem_arrayStr (a : Vector UInt8 n) : 0 ∉ arrayStr a :=
  zero_notMem_cstr _

theorem length_arrayStr_lt {a : Vector UInt8 n} (ha : Terminated a) : (arrayStr a).length < n := by
  have hle : (arrayStr a).length ≤ a.toList.length := (List.takeWhile_prefix _).length_le
  rw [Vector.length_toList] at hle
  refine lt_of_le_of_ne hle fun heq => ?_
  have hall : arrayStr a = a.toList :=
    (List.takeWhile_prefix _).eq_of_length (by rw [Vector.length_toList]; exact heq)
  exact zero_notMem_arrayStr a (hall ▸ ha)

theorem toList_strcpy (dst : Vector UInt8 n) {src : Bytes} (hlen : src.length < n) :
    (strcpy dst src).toList = src ++ 0 :: dst.toList.drop (src.length + 1) := by
  apply List.ext_getElem
  · simp only [Vector.length_toList, List.length_append, List.length_cons, List.length_drop]
    omega
  · intro i hi hi'
    simp only [strcpy, Vector.getElem_toList, Vector.getElem_ofFn, List.getElem_append,
      List.getElem_cons, List.getElem_drop]
    split_ifs with h1 h2 h3
    · rfl
    · rfl
    · omega
    · omega
    · have : src.length + 1 + (i - src.length - 1) = i := by omega
      simp only [this]
      rfl

/-- A copied string is read back. -/
theorem arrayStr_strcpy (dst : Vector UInt8 n) {src : Bytes} (hlen : src.length < n)
    (h0 : 0 ∉ src) : arrayStr (strcpy dst src) = src := by
  rw [arrayStr, toList_strcpy dst hlen, cstr_append_zero h0]

theorem terminated_strcpy (dst : Vector UInt8 n) {src : Bytes} (hlen : src.length < n) :
    Terminated (strcpy dst src) := by
  rw [Terminated, toList_strcpy dst hlen]
  simp

/-! ### Little-endian words -/

/-- The word with the given bytes, least significant first. -/
def word (b₀ b₁ b₂ b₃ : UInt8) : UInt32 :=
  UInt32.ofNat (b₀.toNat + 256 * (b₁.toNat + 256 * (b₂.toNat + 256 * b₃.toNat)))

/-- The `k`-th byte of a word, least significant first. -/
def wordByte (w : UInt32) (k : ℕ) : UInt8 :=
  UInt8.ofNat (w.toNat / 256 ^ k)

/-- A word is determined by its bytes. -/
theorem word_wordByte (w : UInt32) :
    word (wordByte w 0) (wordByte w 1) (wordByte w 2) (wordByte w 3) = w := by
  have hw : w.toNat < 4294967296 := w.toNat_lt
  apply UInt32.toNat_inj.mp
  simp only [word, wordByte, UInt8.toNat_ofNat', UInt32.toNat_ofNat', Nat.reducePow]
  omega

end OsFromScratch
