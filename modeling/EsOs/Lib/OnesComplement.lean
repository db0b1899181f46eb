import Mathlib
/-!
# One's complement sums

Addition of words with the carry brought back in. A word is a natural number up to `M`, which is
all ones, and `M` and `0` are the two zeros. The sum of some words depends on their natural sum
only: it is the number up to `M` that is congruent to it modulo `M`, where only a sum of zeros
is `0`.
-/

namespace EsOs.Lib.OnesComplement

/-- The sum of two words. -/
def add (M x y : Nat) : Nat := if x + y ≤ M then x + y else x + y - M

/-- The sum of a list of words. -/
def sum (M : Nat) (words : List Nat) : Nat := words.foldl (add M) 0

/-- The word that a natural sum comes to. -/
def norm (M n : Nat) : Nat := if n = 0 then 0 else (n - 1) % M + 1

variable {M m n x : Nat}

@[simp] theorem norm_zero : norm M 0 = 0 := rfl

theorem norm_eq_zero : norm M n = 0 ↔ n = 0 := by
  unfold norm
  split <;> omega

theorem norm_le (hM : 0 < M) : norm M n ≤ M := by
  have := Nat.mod_lt (n - 1) hM
  unfold norm
  split <;> omega

theorem norm_mod (M n : Nat) : norm M n % M = n % M := by
  unfold norm
  split
  · rename_i h
    rw [h]
  · rw [Nat.mod_add_mod]
    congr 1
    omega

theorem mod_cases (hx : x ≤ M) : x % M = if x = M then 0 else x := by
  split
  · rename_i h
    rw [h, Nat.mod_self]
  · exact Nat.mod_eq_of_lt (by omega)

/-- A word is known by its residue and by whether it is `0`. -/
theorem eq_norm (hM : 0 < M) (hx : x ≤ M) (hzero : x = 0 ↔ n = 0) (hmod : x % M = n % M) :
    x = norm M n := by
  have hle := norm_le (n := n) hM
  have hnorm := norm_eq_zero (M := M) (n := n)
  have heq : norm M n % M = x % M := by rw [norm_mod, hmod]
  rw [mod_cases hle, mod_cases hx] at heq
  split at heq <;> split at heq <;> omega

theorem norm_of_le (hM : 0 < M) (hx : x ≤ M) : norm M x = x :=
  (eq_norm hM hx Iff.rfl rfl).symm

theorem norm_congr (hM : 0 < M) (hzero : m = 0 ↔ n = 0) (hmod : m % M = n % M) :
    norm M m = norm M n :=
  eq_norm hM (norm_le hM) (norm_eq_zero.trans hzero) (by rw [norm_mod, hmod])

theorem add_norm (hM : 0 < M) (hx : x ≤ M) : add M (norm M n) x = norm M (n + x) := by
  have hle := norm_le (n := n) hM
  have hzero := norm_eq_zero (M := M) (n := n)
  have hmod : (norm M n + x) % M = (n + x) % M := by
    rw [Nat.add_mod, norm_mod, ← Nat.add_mod]
  unfold add
  split
  · exact eq_norm hM (by omega) (by omega) hmod
  · refine eq_norm hM (by omega) (by omega) ?_
    rw [← hmod, ← Nat.mod_eq_sub_mod (by omega)]

/-- The sum of words is what their natural sum comes to. -/
theorem sum_eq (hM : 0 < M) {words : List Nat} (h : ∀ x ∈ words, x ≤ M) :
    sum M words = norm M words.sum := by
  suffices hfrom : ∀ n, words.foldl (add M) (norm M n) = norm M (n + words.sum) by
    simpa [sum] using hfrom 0
  induction words with
  | nil => simp
  | cons x words ih =>
    intro n
    rw [List.foldl_cons, add_norm hM (h x (by simp)), ih fun y hy => h y (by simp [hy]),
      List.sum_cons, Nat.add_assoc]

/-- The carry may be brought in at any time. -/
theorem norm_carry (hM : 0 < M) (n : Nat) :
    norm M (n % (M + 1) + n / (M + 1)) = norm M n := by
  have hdiv := Nat.div_add_mod n (M + 1)
  refine norm_congr hM ?_ ?_
  · constructor
    · intro h
      have hq : n / (M + 1) = 0 := Nat.eq_zero_of_add_eq_zero_left h
      have hr : n % (M + 1) = 0 := Nat.eq_zero_of_add_eq_zero_right h
      rw [hq, hr] at hdiv
      omega
    · rintro rfl
      simp
  · have hn : n = n % (M + 1) + n / (M + 1) + M * (n / (M + 1)) := by
      rw [Nat.add_mul, Nat.one_mul] at hdiv
      omega
    conv => rhs; rw [hn]
    rw [Nat.add_mul_mod_self_left]

/-- A sum and its complement come to all ones. -/
theorem norm_complement (hM : 0 < M) (n : Nat) : norm M (n + (M - norm M n)) = M := by
  have hle := norm_le (n := n) hM
  have hzero := norm_eq_zero (M := M) (n := n)
  refine (eq_norm hM (Nat.le_refl M) (by omega) ?_).symm
  rw [Nat.add_mod, ← norm_mod M n, ← Nat.add_mod, Nat.mod_self, Nat.add_sub_cancel' hle,
    Nat.mod_self]

/-! ## Words of two digits -/

/-- A word with its two digits to the base `c` exchanged. -/
def swap (c x : Nat) : Nat := x % c * c + x / c

variable {c : Nat}

theorem swap_le (hM : M + 1 = c * c) (hx : x ≤ M) : swap c x ≤ M := by
  have hc : 0 < c := Nat.pos_of_ne_zero fun h => by simp [h] at hM
  have hlow := Nat.mod_lt x hc
  have hhigh : x / c < c := (Nat.div_lt_iff_lt_mul hc).mpr (by omega)
  have hmul : (x % c + 1) * c ≤ c * c := Nat.mul_le_mul_right c hlow
  rw [Nat.add_mul, Nat.one_mul] at hmul
  unfold swap
  omega

/-- To exchange the digits is to multiply by the base. -/
theorem swap_mod (hM : M + 1 = c * c) (x : Nat) : swap c x % M = c * x % M := by
  have hdiv := Nat.div_add_mod x c
  have hmul : c * x = swap c x + M * (x / c) := by
    have hsplit : c * x = c * (c * (x / c)) + c * (x % c) := by
      rw [← Nat.mul_add, hdiv]
    have hsquare : c * (c * (x / c)) = M * (x / c) + x / c := by
      rw [← Nat.mul_assoc, ← hM, Nat.add_mul, Nat.one_mul]
    rw [swap, Nat.mul_comm (x % c) c]
    omega
  rw [hmul, Nat.add_mul_mod_self_left]

theorem swap_eq_zero (hc : 0 < c) : swap c x = 0 ↔ x = 0 := by
  have hdiv := Nat.div_add_mod x c
  constructor
  · intro h
    have hlow : x % c * c = 0 := Nat.eq_zero_of_add_eq_zero_right h
    have hhigh : x / c = 0 := Nat.eq_zero_of_add_eq_zero_left h
    rcases Nat.mul_eq_zero.mp hlow with hlow | hlow
    · rw [hlow, hhigh] at hdiv
      omega
    · omega
  · rintro rfl
    simp [swap]

/-- The sum does not depend on the order of the digits. -/
theorem swap_norm (hM : M + 1 = c * c) (hpos : 0 < M) (n : Nat) :
    swap c (norm M n) = norm M (c * n) := by
  have hc : 0 < c := Nat.pos_of_ne_zero fun h => by simp [h] at hM
  refine eq_norm hpos (swap_le hM (norm_le hpos)) ?_ ?_
  · rw [swap_eq_zero hc, norm_eq_zero, Nat.mul_eq_zero]
    omega
  · rw [swap_mod hM, Nat.mul_mod, norm_mod, ← Nat.mul_mod]

/-- The sum of words with their digits exchanged. -/
theorem sum_swap_mod (hM : M + 1 = c * c) (words : List Nat) :
    (words.map (swap c)).sum % M = c * words.sum % M := by
  induction words with
  | nil => simp
  | cons x words ih =>
    rw [List.map_cons, List.sum_cons, List.sum_cons, Nat.mul_add, Nat.add_mod, swap_mod hM, ih,
      ← Nat.add_mod]

theorem sum_swap_eq_zero (hc : 0 < c) (words : List Nat) :
    (words.map (swap c)).sum = 0 ↔ words.sum = 0 := by
  induction words with
  | nil => simp
  | cons x words ih =>
    have := swap_eq_zero (x := x) hc
    rw [List.map_cons, List.sum_cons, List.sum_cons]
    omega

/-- The sum of words with exchanged digits is the sum of the words, with its digits exchanged. -/
theorem norm_sum_swap (hM : M + 1 = c * c) (hpos : 0 < M) (words : List Nat) :
    norm M (words.map (swap c)).sum = swap c (norm M words.sum) := by
  have hc : 0 < c := Nat.pos_of_ne_zero fun h => by simp [h] at hM
  rw [swap_norm hM hpos]
  refine norm_congr hpos ?_ (sum_swap_mod hM words)
  rw [sum_swap_eq_zero hc, Nat.mul_eq_zero]
  omega

/-! ## Checksums of bytes -/

/-- The words of a string of bytes, the first byte of a pair in front. A last odd byte is followed
    by a zero. -/
def words : List UInt8 → List Nat
  | b0 :: b1 :: bytes => (b0.toNat * 256 + b1.toNat) :: words bytes
  | [b] => [b.toNat * 256]
  | [] => []

/-- The complement of the one's complement sum of a string of bytes. -/
def checksum (bytes : List UInt8) : Nat := 65535 - sum 65535 (words bytes)

theorem words_le (bytes : List UInt8) : ∀ x ∈ words bytes, x ≤ 65535 := by
  fun_induction words bytes with
  | case1 b0 b1 bytes ih =>
    intro x hx
    rcases List.mem_cons.mp hx with rfl | hx
    · have := b0.toNat_lt
      have := b1.toNat_lt
      omega
    · exact ih x hx
  | case2 b =>
    intro x hx
    have := b.toNat_lt
    rw [List.mem_singleton.mp hx]
    omega
  | case3 => simp

/-- Strings of an even number of bytes are summed one after the other. -/
theorem words_append {bytes : List UInt8} (h : bytes.length % 2 = 0) (more : List UInt8) :
    words (bytes ++ more) = words bytes ++ words more := by
  fun_induction words bytes with
  | case1 b0 b1 bytes ih =>
    rw [List.length_cons, List.length_cons] at h
    rw [List.cons_append, List.cons_append, words, ih (by omega), List.cons_append]
  | case2 b => simp at h
  | case3 => rfl

end EsOs.Lib.OnesComplement
