import Mathlib.Data.Nat.Bitwise

/-!
# Fields of a word

The bitwise operations of a natural number, read as arithmetic: a mask of low bits is a remainder,
a mask of bits above is a quotient, and fields that do not overlap add up.
-/

namespace EsOs.Lib

variable {a b x m k : Nat}

theorem and_low (x k : Nat) : x &&& (2 ^ k - 1) = x % 2 ^ k :=
  Nat.and_two_pow_sub_one_eq_mod x k

/-- A mask of bits from `k` on. -/
theorem and_shiftLeft (x m k : Nat) : x &&& (m <<< k) = ((x >>> k) &&& m) <<< k := by
  apply Nat.eq_of_testBit_eq
  intro i
  simp only [Nat.testBit_and, Nat.testBit_shiftLeft, Nat.testBit_shiftRight]
  by_cases hk : k ≤ i
  · simp [hk]
  · simp [hk]

/-- The bits of `x` from `k` on, `j` of them. -/
theorem and_field (x j k : Nat) :
    x &&& ((2 ^ j - 1) <<< k) = x / 2 ^ k % 2 ^ j * 2 ^ k := by
  rw [and_shiftLeft, and_low, Nat.shiftRight_eq_div_pow, Nat.shiftLeft_eq]

/-- A field above the bits of `a`. -/
theorem or_shiftLeft (ha : a < 2 ^ k) (b : Nat) : a ||| b <<< k = a + b * 2 ^ k := by
  rw [Nat.or_comm, ← Nat.shiftLeft_add_eq_or_of_lt ha, Nat.shiftLeft_eq, Nat.add_comm]

/-- A multiple of `2 ^ k` above the bits of `a`. -/
theorem or_mul (ha : a < 2 ^ k) (b : Nat) : a ||| b * 2 ^ k = a + b * 2 ^ k := by
  rw [← Nat.shiftLeft_eq, or_shiftLeft ha, Nat.shiftLeft_eq]

end EsOs.Lib

/-!
## Machine words

Unsigned arithmetic of 32 bits on natural numbers below `2 ^ 32`.
-/

namespace EsOs.Lib

/-- A sum or a product as a word keeps it. -/
def word (n : Nat) : Nat := n % 4294967296

/-- A difference of words. -/
def wordSub (a b : Nat) : Nat := if b ≤ a then a - b else 4294967296 - (b - a)

/-- The complement of a word. -/
def wordNot (a : Nat) : Nat := 4294967295 - a

variable {a b n : Nat}

theorem word_of_lt (h : n < 4294967296) : word n = n := Nat.mod_eq_of_lt h

theorem word_lt (n : Nat) : word n < 4294967296 := Nat.mod_lt _ (by decide)

theorem wordSub_of_le (h : b ≤ a) : wordSub a b = a - b := if_pos h

/-- The mask that clears the low bits of a word. -/
theorem and_wordNot_low {k : Nat} (hk : k ≤ 32) (ha : a < 4294967296) :
    a &&& wordNot (2 ^ k - 1) = a / 2 ^ k * 2 ^ k := by
  have hsplit : 2 ^ 32 = 2 ^ (32 - k) * 2 ^ k := by
    rw [← Nat.pow_add]
    congr 1
    omega
  have hpos : 0 < 2 ^ k := Nat.two_pow_pos k
  have hmask : wordNot (2 ^ k - 1) = (2 ^ (32 - k) - 1) <<< k := by
    rw [Nat.shiftLeft_eq, Nat.sub_mul, ← hsplit, Nat.one_mul]
    unfold wordNot
    omega
  have hdiv : a / 2 ^ k < 2 ^ (32 - k) := by
    rw [Nat.div_lt_iff_lt_mul hpos, ← hsplit]
    exact ha
  rw [hmask, and_field, Nat.mod_eq_of_lt hdiv]

end EsOs.Lib
