import EsOs.Es.Formatter
import Mathlib.Data.Nat.Digits.Lemmas

/-!
# When an integer is shown as `printf` shows it

What `printInteger` puts is the rendering, when the digits fit in the buffer, no `int` overflows, and
the settings are not among those that `printf` has rules of its own for: a precision of zero, the
alternate form of base 8 with a precision, and zeros that are asked for and given up.
-/

namespace EsOs.Es.Formatter

variable {f : Formatter}

/-! ## What is put -/

/-- What has been put of a text, unless its length overflows. -/
def checked (f : Formatter) (text : List UInt8) : Option Printed :=
  if text.length < 0x80000000 then some ⟨text.flatMap f.printChar, text.length⟩ else none

theorem int_eq (x : Int) : int x = if -0x80000000 ≤ x ∧ x < 0x80000000 then some x else none := rfl

theorem int_nat (n : Nat) : int n = if n < 0x80000000 then some (n : Int) else none := by
  rw [int_eq]
  by_cases h : n < 0x80000000
  · rw [if_pos h, if_pos (by omega)]
  · rw [if_neg h, if_neg (by omega)]

theorem checked_printText (t : List UInt8) :
    ∀ s, (f.checked s).bind (f.printText t) = f.checked (s ++ t) := by
  induction t with
  | nil =>
    intro s
    rw [List.append_nil]
    exact Option.bind_fun_some _
  | cons c t ih =>
    intro s
    have hstep : (f.checked s).bind (f.printText (c :: t)) =
        (f.checked (s ++ [c])).bind (f.printText t) := by
      unfold checked
      by_cases h : (s ++ [c]).length < 0x80000000
      · have hlen : (s ++ [c]).length = s.length + 1 := by simp
        rw [if_pos h, if_pos (by omega), Option.bind_some, Option.bind_some, printText,
          ← Int.natCast_succ, int_nat, if_pos (by omega), Option.bind_some]
        congr 2
        · simp
        · rw [hlen]
      · have hlen : (s ++ [c]).length = s.length + 1 := by simp
        rw [if_neg h]
        by_cases hs : s.length < 0x80000000
        · rw [if_pos hs, Option.bind_some, printText, ← Int.natCast_succ, int_nat,
            if_neg (by omega)]
          rfl
        · rw [if_neg hs]
          rfl
    rw [hstep, ih, List.append_assoc]
    rfl

theorem checked_fillBlank (n : Int) (c : UInt8) (s : List UInt8) :
    (f.checked s).bind (f.fillBlank n c) = f.checked (s ++ List.replicate n.toNat c) := by
  have hlen : (s ++ List.replicate n.toNat c).length = s.length + n.toNat := by simp
  unfold checked
  by_cases hs : s.length < 0x80000000
  · rw [if_pos hs, Option.bind_some, fillBlank, ← Int.natCast_add, int_nat, hlen]
    by_cases h : s.length + n.toNat < 0x80000000
    · rw [if_pos h, if_pos h, Option.map_some]
      simp
    · rw [if_neg h, if_neg h]
      rfl
  · rw [if_neg hs, if_neg (by omega)]
    rfl

theorem checked_fillBlank_if (p : Prop) [Decidable p] (n : Int) (c : UInt8) (s : List UInt8) :
    ((f.checked s).bind fun printed => if p then f.fillBlank n c printed else some printed) =
      f.checked (s ++ if p then List.replicate n.toNat c else []) := by
  split
  · exact checked_fillBlank n c s
  · rw [List.append_nil]
    exact Option.bind_fun_some _

/-- The text with the padding where `printInteger` has it. -/
def placed (f : Formatter) (basePrefix p : List UInt8) (width n : Int) : List UInt8 :=
  (if f.filler ≠ zero ∧ f.leftJustified = false then List.replicate width.toNat f.filler else []) ++
    f.signText false ++ basePrefix ++ List.replicate n.toNat zero ++
    (if f.filler = zero then List.replicate width.toNat zero else []) ++ p ++
    (if f.filler ≠ zero ∧ f.leftJustified then List.replicate width.toNat f.filler else [])

theorem checked_sign (s : List UInt8) :
    ((f.checked s).bind fun printed =>
      if f.sign ≠ 0 then f.printText [f.sign] printed else some printed) =
      f.checked (s ++ f.signText false) := by
  unfold signText
  rw [if_neg Bool.false_ne_true]
  split
  · exact checked_printText [f.sign] s
  · rw [List.append_nil]
    exact Option.bind_fun_some _

theorem putInteger_eq (basePrefix p : List UInt8) (width n : Int) :
    f.putInteger basePrefix p width n = f.checked (f.placed basePrefix p width n) := by
  have hstart : some ⟨[], 0⟩ = f.checked [] := rfl
  have hfold : f.putInteger basePrefix p width n = ((((((((some ⟨[], 0⟩).bind fun printed =>
      if f.filler ≠ zero ∧ f.leftJustified = false then f.fillBlank width f.filler printed
      else some printed).bind fun printed =>
      if f.sign ≠ 0 then f.printText [f.sign] printed else some printed).bind
      (f.printText basePrefix)).bind (f.fillBlank n zero)).bind fun printed =>
      if f.filler = zero then f.fillBlank width zero printed else some printed).bind
      (f.printText p)).bind fun printed =>
      if f.filler ≠ zero ∧ f.leftJustified then f.fillBlank width f.filler printed
      else some printed) := by
    simp only [Option.bind_assoc]
    rfl
  rw [hfold, hstart, checked_fillBlank_if, checked_sign, checked_printText, checked_fillBlank,
    checked_fillBlank_if, checked_printText, checked_fillBlank_if, List.nil_append]
  rfl

/-! ## The digits -/

/-- The digits that the loop makes. -/
def shown (f : Formatter) (u : Nat) : List UInt8 :=
  if u = 0 then [zero] else f.digits u

theorem digits_of_div {u : Nat} (h : u / f.base ≠ 0) :
    f.digits u = f.digits (u / f.base) ++ [digitChar f.cap (u % f.base)] := by
  have hne : u ≠ 0 := fun h0 => h (by rw [h0, Nat.zero_div])
  rw [digits, digits, Nat.digits_eq_cons_digits_div f.two_le_base hne, List.reverse_cons,
    List.map_append]
  rfl

theorem digits_of_lt {u : Nat} (hne : u ≠ 0) (h : u / f.base = 0) :
    f.digits u = [digitChar f.cap (u % f.base)] := by
  have hlt : u < f.base := by
    rcases Nat.div_eq_zero_iff.mp h with hzero | hlt
    · have := f.two_le_base
      omega
    · exact hlt
  rw [digits, Nat.digits_of_lt f.base u hne hlt, Nat.mod_eq_of_lt hlt]
  rfl

theorem digitLoop_eq (room : Nat) : ∀ u p, digitLoop f.base f.cap room u p =
    if (f.shown u).length ≤ room then some (f.shown u ++ p) else none := by
  induction room with
  | zero =>
    intro u p
    rw [digitLoop, if_neg]
    intro h
    unfold shown at h
    split at h
    · exact absurd h (by decide)
    · rename_i hne
      have hnil := List.eq_nil_of_length_eq_zero (Nat.le_zero.mp h)
      rw [digits, List.map_eq_nil_iff, List.reverse_eq_nil_iff] at hnil
      exact hne (Nat.digits_eq_nil_iff_eq_zero.mp hnil)
  | succ room ih =>
    intro u p
    rw [digitLoop]
    by_cases hdiv : u / f.base = 0
    · have hshown : f.shown u = [digitChar f.cap (u % f.base)] := by
        unfold shown
        split
        · rename_i h0
          rw [h0, Nat.zero_mod]
          rfl
        · rename_i hne
          exact digits_of_lt hne hdiv
      rw [if_neg (not_not.mpr hdiv), hshown, if_pos (by simp)]
      rfl
    · have hne : u ≠ 0 := fun h0 => hdiv (by rw [h0, Nat.zero_div])
      have hshown : f.shown u = f.shown (u / f.base) ++ [digitChar f.cap (u % f.base)] := by
        rw [shown, shown, if_neg hne, if_neg hdiv, digits_of_div hdiv]
      rw [if_pos hdiv, ih, hshown]
      simp

/-! ## The width that is left -/

/-- The zeros that the precision adds to so many digits. -/
def zerosFor (f : Formatter) (n : Nat) : Int :=
  (if f.precision.toInt ≤ 0 then 1 else f.precision.toInt) - n

/-- The length of what is not padding. -/
def lengthOf (f : Formatter) (basePrefix : List UInt8) (n : Nat) : Nat :=
  n + (f.signText false).length + basePrefix.length + (f.zerosFor n).toNat

theorem length_signText : (f.signText false).length = if f.sign ≠ 0 then 1 else 0 := by
  unfold signText
  rw [if_neg Bool.false_ne_true]
  split <;> rfl

theorem zerosFor_lt (n : Nat) : f.zerosFor n < 0x80000000 := by
  have := f.precision.toInt_lt
  unfold zerosFor
  split <;> omega

theorem length_basePrefix (u : Nat) : (f.basePrefix u).length ≤ 2 := by
  unfold basePrefix
  split
  · split
    · decide
    · split <;> simp
  · decide

theorem sub_length_eq (basePrefix : List UInt8) (hlen : basePrefix.length ≤ 2) (width : Int)
    (hhigh : width < 0x80000000) (hlow : -0x80000000 ≤ width - basePrefix.length) :
    (if basePrefix ≠ [] then Int.bmod (width - basePrefix.length) 0x100000000 else width) =
      width - basePrefix.length := by
  split
  · rw [Int.bmod_eq_of_le] <;> omega
  · rename_i h
    rw [not_not.mp h]
    simp

theorem remaining_eq_some {basePrefix : List UInt8} (hlen : basePrefix.length ≤ 2) {n : Nat}
    (h : (f.lengthOf basePrefix n : Int) - 0x80000000 ≤ f.width.toInt) :
    f.remaining basePrefix n = some (f.width.toInt - f.lengthOf basePrefix n, f.zerosFor n) := by
  have hhigh := f.width.toInt_lt
  unfold lengthOf at h ⊢
  have hsign : (if f.sign ≠ 0 then int (f.width.toInt - n - 1) else some (f.width.toInt - n)) =
      some (f.width.toInt - n - (f.signText false).length) := by
    rw [length_signText]
    split
    · rename_i hne
      rw [length_signText, if_pos hne] at h
      exact if_pos (by omega)
    · simp
  have hzeros : (if 0 < f.zerosFor n then
        int (f.width.toInt - n - (f.signText false).length - basePrefix.length - f.zerosFor n)
      else some (f.width.toInt - n - (f.signText false).length - basePrefix.length)) =
      some (f.width.toInt - (n + (f.signText false).length + basePrefix.length +
        (f.zerosFor n).toNat : Nat)) := by
    split
    · rw [int_eq, if_pos (by omega)]
      congr 1
      omega
    · congr 1
      omega
  rw [remaining]
  simp only [bind, Option.bind, pure]
  rw [int_eq, if_pos (by omega)]
  simp only [hsign, sub_length_eq basePrefix hlen (f.width.toInt - n - (f.signText false).length)
    (by omega) (by omega)]
  rw [show (if f.precision.toInt ≤ 0 then 1 else f.precision.toInt) - (n : Int) = f.zerosFor n
    from rfl, hzeros]

theorem int_eq_some {x y : Int} (h : int x = some y) : y = x ∧ -0x80000000 ≤ x := by
  rw [int_eq] at h
  split at h
  · rename_i hx
    exact ⟨(Option.some.inj h).symm, hx.1⟩
  · cases h

/-- A width that is too small is refused, or becomes one that is too large. -/
theorem remaining_overflows {basePrefix : List UInt8} (hlen : basePrefix.length ≤ 2) {n : Nat}
    (h : f.width.toInt < f.lengthOf basePrefix n - 0x80000000) {width zeros : Int}
    (hsome : f.remaining basePrefix n = some (width, zeros)) :
    zeros = f.zerosFor n ∧ 0x80000000 ≤ f.lengthOf basePrefix n + width := by
  have hlow := f.width.le_toInt
  unfold lengthOf at h ⊢
  rw [remaining] at hsome
  simp only [bind, Option.bind_eq_some_iff] at hsome
  obtain ⟨w₁, h₁, w₂, h₂, w₃, h₃, hpair⟩ := hsome
  obtain ⟨rfl, hrange₁⟩ := int_eq_some h₁
  obtain ⟨rfl, rfl⟩ := Prod.mk.inj (Option.some.inj hpair)
  refine ⟨rfl, ?_⟩
  have hsign : w₂ = f.width.toInt - n - (f.signText false).length ∧ -0x80000000 ≤ w₂ := by
    rw [length_signText]
    split at h₂
    · rename_i hne
      obtain ⟨rfl, hrange⟩ := int_eq_some h₂
      rw [if_pos hne]
      exact ⟨rfl, hrange⟩
    · rename_i hne
      rw [if_neg hne]
      cases h₂
      exact ⟨(Int.sub_zero _).symm, hrange₁⟩
  obtain ⟨hw₂, hrange₂⟩ := hsign
  have hwidth : w₃ = (if basePrefix ≠ [] then Int.bmod (w₂ - basePrefix.length) 0x100000000
      else w₂) - (f.zerosFor n).toNat ∧
      (0 < f.zerosFor n → -0x80000000 ≤ w₃) := by
    change (if 0 < f.zerosFor n then int (_ - f.zerosFor n) else _) = _ at h₃
    split at h₃
    · obtain ⟨rfl, hrange⟩ := int_eq_some h₃
      exact ⟨by omega, fun _ => hrange⟩
    · rename_i hpos
      cases h₃
      exact ⟨by omega, fun h => absurd h hpos⟩
  obtain ⟨hw₃, hrange₃⟩ := hwidth
  by_cases hwrap : -0x80000000 ≤ w₂ - basePrefix.length
  · have hhigh := f.width.toInt_lt
    rw [sub_length_eq basePrefix hlen w₂ (by omega) hwrap] at hw₃
    omega
  · have hne : basePrefix ≠ [] := by
      rintro rfl
      rw [List.length_nil] at hwrap
      omega
    have hbmod : Int.bmod (w₂ - basePrefix.length) 0x100000000 =
        w₂ - basePrefix.length + 0x100000000 := by
      rw [← Int.add_bmod_right, Int.bmod_eq_of_le] <;> omega
    rw [if_pos hne, hbmod] at hw₃
    omega

/-! ## The text -/

theorem length_placed (basePrefix p : List UInt8) (width : Int) :
    (f.placed basePrefix p width (f.zerosFor p.length)).length =
      f.lengthOf basePrefix p.length + width.toNat := by
  unfold placed lengthOf
  by_cases hfiller : f.filler = zero
  · simp [hfiller]
    omega
  · cases hleft : f.leftJustified <;> simp [hfiller, hleft] <;> omega

/-- What `printInteger` comes to: the text, where nothing overflows. -/
theorem printInteger_eq (u : Nat) {text : List UInt8}
    (htext : text = f.placed (f.basePrefix u) (f.shown u)
      (f.width.toInt - f.lengthOf (f.basePrefix u) (f.shown u).length)
      (f.zerosFor (f.shown u).length)) :
    f.printInteger u = if (f.shown u).length ≤ BUFSIZE ∧
        f.lengthOf (f.basePrefix u) (f.shown u).length < 0x80000000 ∧
        (f.lengthOf (f.basePrefix u) (f.shown u).length : Int) - 0x80000000 ≤ f.width.toInt
      then some ⟨text.flatMap f.printChar, text.length⟩ else none := by
  have hlen := f.length_basePrefix u
  have hhigh := f.width.toInt_lt
  have hlength := @length_placed f (f.basePrefix u) (f.shown u)
  rw [printInteger]
  simp only [bind]
  rw [digitLoop_eq, List.append_nil]
  by_cases hdigits : (f.shown u).length ≤ BUFSIZE
  · rw [if_pos hdigits, Option.bind_some]
    by_cases hwidth : (f.lengthOf (f.basePrefix u) (f.shown u).length : Int) - 0x80000000 ≤
        f.width.toInt
    · rw [remaining_eq_some hlen hwidth, Option.bind_some, putInteger_eq, ← htext, checked, htext,
        hlength]
      by_cases hshort : f.lengthOf (f.basePrefix u) (f.shown u).length < 0x80000000
      · rw [if_pos (by omega), if_pos ⟨hdigits, hshort, hwidth⟩]
      · rw [if_neg (by omega), if_neg fun h => hshort h.2.1]
    · rw [if_neg fun h => hwidth h.2.2]
      cases hremaining : f.remaining (f.basePrefix u) (f.shown u).length with
      | none => rfl
      | some p =>
        obtain ⟨width, n⟩ := p
        obtain ⟨rfl, hover⟩ := remaining_overflows hlen (Int.not_le.mp hwidth) hremaining
        rw [Option.bind_some, putInteger_eq, checked, hlength]
        exact if_neg (by omega)
  · rw [if_neg hdigits, if_neg fun h => hdigits h.1]
    rfl

/-! ## The rendering -/

/-- The settings of a number whose own text `printInteger` makes as `printf` does. -/
structure Plain (f : Formatter) (u : Nat) : Prop where
  shown : u = 0 → f.precision.toInt = 0 → f.alt ∧ f.base = 8
  octal : u ≠ 0 → f.alt → f.base = 8 → f.precision.toInt ≤ (f.digits u).length

theorem digits_zero : f.digits 0 = [] := by
  rw [digits, Nat.digits_zero]
  rfl

theorem digitChar_ne_zero {cap : Bool} {d : Nat} (hne : d ≠ 0) (hlt : d < 36) :
    digitChar cap d ≠ zero := by
  have hall : ∀ cap, ∀ d : Fin 36, d.val ≠ 0 → digitChar cap d.val ≠ zero := by decide
  exact hall cap ⟨d, hlt⟩ hne

/-- The digits do not begin with a zero. -/
theorem head_digits {u : Nat} (hne : u ≠ 0) : (f.digits u).head? ≠ some zero := by
  have hdigits : Nat.digits f.base u ≠ [] := Nat.digits_ne_nil_iff_ne_zero.mpr hne
  have hlast := Nat.getLast_digit_ne_zero f.base hne
  have hlt := Nat.digits_lt_base f.two_le_base (List.getLast_mem hdigits)
  have hbase := f.base_le
  rw [digits, List.head?_map, List.head?_reverse, List.getLast?_eq_some_getLast hdigits]
  exact fun h => digitChar_ne_zero hlast (by omega) (Option.some.inj h)

theorem length_digits_le {u : Nat} : (f.shown u).length ≤ BUFSIZE ↔ u < f.base ^ BUFSIZE := by
  unfold shown
  split
  · rename_i h
    rw [h]
    exact iff_of_true (by decide) (Nat.pow_pos (Nat.lt_of_lt_of_le Nat.two_pos f.two_le_base))
  · rw [digits, List.length_map, List.length_reverse, Nat.digits_length_le_iff f.two_le_base]

theorem digits_ne_nil {u : Nat} (hne : u ≠ 0) : f.digits u ≠ [] := by
  rw [digits, Ne, List.map_eq_nil_iff, List.reverse_eq_nil_iff]
  exact Nat.digits_ne_nil_iff_ne_zero.mpr hne

theorem length_shown_pos (u : Nat) : 0 < (f.shown u).length := by
  unfold shown
  split
  · decide
  · rename_i hne
    exact List.length_pos_iff.mpr (f.digits_ne_nil hne)

/-- The zeros and digits of a number that is not zero are those that the precision asks for. -/
theorem numberText_of_ne_zero {u : Nat} (hne : u ≠ 0) :
    f.numberText u =
      if f.alt ∧ f.base = 8 ∧ (f.zerosFor (f.digits u).length).toNat = 0 then zero :: f.digits u
      else List.replicate (f.zerosFor (f.digits u).length).toNat zero ++ f.digits u := by
  have hpos := List.length_pos_iff.mpr (f.digits_ne_nil hne)
  have hleast : (if f.precision.toInt < 0 then 1 else f.precision.toInt.toNat) -
      (f.digits u).length = (f.zerosFor (f.digits u).length).toNat := by
    unfold zerosFor
    split <;> split <;> omega
  unfold numberText
  simp only [hleast]
  cases hzeros : (f.zerosFor (f.digits u).length).toNat with
  | zero => simp [f.head_digits hne]
  | succ n => simp [List.replicate_succ]

/-- For zero they are zeros, and none for a precision of zero that does not ask for one. -/
theorem numberText_zero : f.numberText 0 =
    if f.precision.toInt = 0 ∧ ¬ (f.alt ∧ f.base = 8) then []
    else zero :: List.replicate (f.zerosFor 1).toNat zero := by
  unfold numberText zerosFor
  rw [digits_zero]
  rcases Int.lt_trichotomy f.precision.toInt 0 with hprec | hprec | hprec
  · simp [hprec, Int.le_of_lt hprec, Int.ne_of_lt hprec]
  · by_cases hoct : f.alt ∧ f.base = 8
    · simp [hprec, hoct.1, hoct.2]
    · have hnone : ¬ (f.alt ∧ f.base = 8 ∧ ([] : List UInt8).head? ≠ some zero) :=
        fun h => hoct ⟨h.1, h.2.1⟩
      simp only [hprec]
      exact (if_neg hnone).trans (if_pos ⟨trivial, hoct⟩).symm
  · obtain ⟨n, hn⟩ : ∃ n : Nat, f.precision.toInt = n + 1 :=
      ⟨f.precision.toInt.toNat - 1, by omega⟩
    have hneg : ¬ ((n : Int) + 1 < 0) := by omega
    have hpos : ¬ ((n : Int) + 1 ≤ 0) := by omega
    have hne : (n : Int) + 1 ≠ 0 := by omega
    have hnat : ((n : Int) + 1).toNat = n + 1 := by omega
    simp [hn, hneg, hpos, hne, hnat, List.replicate_succ]

theorem Plain.text {u : Nat} (h : f.Plain u) :
    f.basePrefix u ++ List.replicate (f.zerosFor (f.shown u).length).toNat zero ++ f.shown u =
      f.hexPrefix u ++ f.numberText u := by
  by_cases hne : u = 0
  · subst hne
    rw [numberText_zero, if_neg fun hzero => hzero.2 (h.shown rfl hzero.1)]
    have hshown : f.shown 0 = [zero] := rfl
    rw [hshown]
    have hfront : f.basePrefix 0 = [] ∧ f.hexPrefix 0 = [] := by simp [basePrefix, hexPrefix]
    rw [hfront.1, hfront.2, List.nil_append, List.nil_append, List.length_singleton,
      ← List.replicate_succ', List.replicate_succ]
  · have hshown : f.shown u = f.digits u := if_neg hne
    rw [numberText_of_ne_zero hne, hshown, basePrefix, hexPrefix]
    cases halt : f.alt
    · simp
    · by_cases hoct : f.base = 8
      · have hzeros : (f.zerosFor (f.digits u).length).toNat = 0 := by
          have hle := h.octal hne halt hoct
          have hpos := List.length_pos_iff.mpr (f.digits_ne_nil hne)
          unfold zerosFor
          split <;> omega
        simp [hne, hoct, hzeros]
      · by_cases hhex : f.base = 16
        · simp [hne, hhex]
        · simp [hoct, hhex]

theorem Plain.length {u : Nat} (h : f.Plain u) :
    f.lengthOf (f.basePrefix u) (f.shown u).length = (f.unpadded false u).length := by
  have htext := congrArg List.length h.text
  unfold lengthOf unpadded
  simp only [List.length_append, List.length_replicate] at htext ⊢
  omega

/-- Zeros stand in front of the zero of base 8 as behind it. -/
theorem Plain.padded {u : Nat} (h : f.Plain u) (hprec : f.precision.toInt < 0) (pad : Nat) :
    f.basePrefix u ++ List.replicate (f.zerosFor (f.shown u).length).toNat zero ++
        List.replicate pad zero ++ f.shown u =
      f.hexPrefix u ++ List.replicate pad zero ++ f.numberText u := by
  have htext := h.text
  have hpos := @length_shown_pos f u
  have hzeros : (f.zerosFor (f.shown u).length).toNat = 0 := by
    unfold zerosFor
    split <;> omega
  rw [hzeros, List.replicate_zero, List.append_nil] at htext ⊢
  by_cases hsame : f.basePrefix u = f.hexPrefix u
  · rw [hsame] at htext ⊢
    rw [List.append_cancel_left htext]
  · have hoct : f.basePrefix u = [zero] ∧ f.hexPrefix u = [] := by
      unfold basePrefix hexPrefix at hsame ⊢
      grind
    rw [hoct.1, hoct.2] at htext ⊢
    have hmove : [zero] ++ List.replicate pad zero = List.replicate pad zero ++ [zero] := by
      rw [← List.replicate_succ', List.replicate_succ]
      rfl
    rw [← show _ = f.numberText u from htext, hmove, List.nil_append, List.append_assoc]

/-- The text that is put is the rendering. -/
theorem Plain.placed {u : Nat} (h : f.Plain u)
    (hzeros : f.filler = zero → ¬ f.PadsZeros →
      f.width.toInt ≤ (f.unpadded false u).length) :
    f.placed (f.basePrefix u) (f.shown u)
        (f.width.toInt - f.lengthOf (f.basePrefix u) (f.shown u).length)
        (f.zerosFor (f.shown u).length) =
      f.rendering false u := by
  have hpad : (f.width.toInt - (f.unpadded false u).length).toNat =
      f.width.toInt.toNat - (f.unpadded false u).length := by omega
  have htext : f.signText false ++ f.basePrefix u ++
      List.replicate (f.zerosFor (f.shown u).length).toNat zero ++ f.shown u =
      f.unpadded false u := by
    rw [List.append_assoc, List.append_assoc, ← List.append_assoc (f.basePrefix u), h.text, unpadded,
      List.append_assoc]
  rw [h.length, Formatter.placed, rendering]
  simp only [hpad]
  by_cases hfiller : f.filler = zero
  · rw [if_neg fun h => h.1 hfiller, if_pos hfiller, if_neg fun h => h.1 hfiller]
    by_cases hpads : f.PadsZeros
    · rw [if_pos hpads, List.nil_append, List.append_nil, List.append_assoc, List.append_assoc,
        List.append_assoc, ← List.append_assoc (f.basePrefix u),
        ← List.append_assoc (f.basePrefix u ++ _),
        h.padded hpads.2.2]
      simp
    · have hnone : f.width.toInt.toNat - (f.unpadded false u).length = 0 := by
        have := hzeros hfiller hpads
        omega
      rw [if_neg hpads, hnone]
      simp [← htext]
  · have hpads : ¬ f.PadsZeros := fun h => hfiller h.1
    rw [if_neg hpads, if_neg hfiller, if_neg hfiller]
    cases hleft : f.leftJustified
    · simp [hfiller, ← htext]
    · simp [hfiller, ← htext]

/-! ## Counting zeros -/

theorem count_flatMap_printChar (t : List UInt8) :
    (t.flatMap f.printChar).count zero = t.count zero := by
  induction t with
  | nil => rfl
  | cons c t ih =>
    have hc : (f.printChar c).count zero = [c].count zero := by
      unfold printChar
      split
      · rename_i hlf
        rw [hlf.1]
        rfl
      · rfl
    rw [List.flatMap_cons, List.count_append, ih, hc, ← List.count_append]
    rfl

theorem count_pad {c : UInt8} (hne : c ≠ zero) (n : Nat) : (List.replicate n c).count zero = 0 :=
  List.count_eq_zero.mpr fun h => hne (List.eq_of_mem_replicate h).symm

theorem count_placed (basePrefix p : List UInt8) (width n : Int) :
    (f.placed basePrefix p width n).count zero =
      (f.signText false).count zero + basePrefix.count zero + n.toNat + p.count zero +
        if f.filler = zero then width.toNat else 0 := by
  unfold placed
  by_cases hfiller : f.filler = zero
  · simp [hfiller, List.count_append, List.count_replicate_self]
    omega
  · cases hleft : f.leftJustified <;> simp [hfiller, List.count_append, count_pad hfiller] <;> omega

theorem count_rendering (u : Nat) :
    (f.rendering false u).count zero = (f.unpadded false u).count zero +
      if f.PadsZeros then f.width.toInt.toNat - (f.unpadded false u).length else 0 := by
  unfold rendering
  simp only
  by_cases hpads : f.PadsZeros
  · rw [if_pos hpads, if_pos hpads, unpadded]
    simp only [List.count_append, List.count_replicate_self]
    omega
  · have hpad : (if f.filler = zero then blank else f.filler) ≠ zero := by
      split
      · decide
      · assumption
    rw [if_neg hpads, if_neg hpads]
    split <;> rw [List.count_append, count_pad hpad] <;> omega

/-- A number that is not plain has a zero too many. -/
theorem plain_of_count {u : Nat} {width : Int}
    (h : (f.placed (f.basePrefix u) (f.shown u) width (f.zerosFor (f.shown u).length)).count zero =
      (f.rendering false u).count zero) : f.Plain u := by
  rw [count_placed, count_rendering, unpadded, List.count_append, List.count_append] at h
  constructor
  · intro hzero hprec
    by_contra hoct
    have hpads : ¬ f.PadsZeros := fun h => by
      have := h.2.2
      omega
    have hnone : f.numberText 0 = [] := f.numberText_zero.trans (if_pos ⟨hprec, hoct⟩)
    have hshown : (f.shown 0).count zero = 1 := rfl
    have hfront : f.hexPrefix 0 = [] := by simp [hexPrefix]
    rw [hzero, hnone, if_neg hpads, hshown, hfront, List.count_nil] at h
    omega
  · intro hne halt hoct
    by_contra hprec
    have hpos := List.length_pos_iff.mpr (f.digits_ne_nil hne)
    have hshown : f.shown u = f.digits u := if_neg hne
    have hzeros : 0 < (f.zerosFor (f.digits u).length).toNat := by
      unfold zerosFor
      split <;> omega
    have hpads : ¬ f.PadsZeros := fun h => by
      have := h.2.2
      omega
    have hfront : f.basePrefix u = [zero] ∧ f.hexPrefix u = [] := by
      simp [basePrefix, hexPrefix, hne, halt, hoct]
    have hnumber : f.numberText u =
        List.replicate (f.zerosFor (f.digits u).length).toNat zero ++ f.digits u :=
      (numberText_of_ne_zero hne).trans (if_neg fun h => by omega)
    rw [hnumber, if_neg hpads, hshown, hfront.1, hfront.2, List.count_append,
      List.count_replicate_self, List.count_singleton_self, List.count_nil] at h
    omega

/-- And zeros that are given up are put. -/
theorem width_le_of_count {u : Nat} (hplain : f.Plain u)
    (h : (f.placed (f.basePrefix u) (f.shown u)
        (f.width.toInt - f.lengthOf (f.basePrefix u) (f.shown u).length)
        (f.zerosFor (f.shown u).length)).count zero = (f.rendering false u).count zero)
    (hfiller : f.filler = zero) (hpads : ¬ f.PadsZeros) :
    f.width.toInt ≤ (f.unpadded false u).length := by
  have htext := congrArg (List.count zero) hplain.text
  rw [count_placed, count_rendering, if_pos hfiller, if_neg hpads, hplain.length, unpadded] at h
  simp only [List.count_append, List.count_replicate_self, unpadded] at h htext ⊢
  omega

/-- `printInteger` puts the rendering under these conditions, and under no others. -/
theorem printsInteger_iff (u : Nat) :
    f.printInteger u = some ⟨(f.rendering false u).flatMap f.printChar,
        (f.rendering false u).length⟩ ↔
      u < f.base ^ BUFSIZE ∧ f.Plain u ∧
      (f.filler = zero → ¬ f.PadsZeros → f.width.toInt ≤ (f.unpadded false u).length) ∧
      (f.unpadded false u).length < 0x80000000 ∧
      ((f.unpadded false u).length : Int) - 0x80000000 ≤ f.width.toInt := by
  rw [printInteger_eq u rfl, ← length_digits_le]
  constructor
  · intro h
    split at h
    · rename_i hfits
      obtain ⟨hdigits, hshort, hwidth⟩ := hfits
      have hout := congrArg (fun p => p.out.count zero) (Option.some.inj h)
      simp only [count_flatMap_printChar] at hout
      have hplain := plain_of_count hout
      rw [hplain.length] at hshort hwidth
      exact ⟨hdigits, hplain, width_le_of_count hplain hout, hshort, hwidth⟩
    · cases h
  · rintro ⟨hdigits, hplain, hzeros, hshort, hwidth⟩
    rw [hplain.placed hzeros, hplain.length, if_pos ⟨hdigits, hshort, hwidth⟩]

/-! ## The argument -/

/-- The settings with the sign of the argument. -/
def withSign (f : Formatter) (negative : Bool) : Formatter :=
  if negative then { f with sign := minus } else f

theorem rendering_withSign (negative : Bool) (u : Nat) :
    (f.withSign negative).rendering false u = f.rendering negative u := by
  cases negative <;> rfl

theorem unpadded_withSign (negative : Bool) (u : Nat) :
    (f.withSign negative).unpadded false u = f.unpadded negative u := by
  cases negative <;> rfl

theorem printChar_withSign (negative : Bool) : (f.withSign negative).printChar = f.printChar := by
  cases negative <;> rfl

theorem plain_withSign (negative : Bool) (u : Nat) :
    (f.withSign negative).Plain u ↔ f.Plain u := by
  cases negative with
  | false => exact Iff.rfl
  | true => exact ⟨fun h => ⟨h.shown, h.octal⟩, fun h => ⟨h.shown, h.octal⟩⟩

theorem print_unsigned (u : BitVec w) :
    (f.print (.unsigned u)).map (·.1) = f.printInteger u.toNat := by
  rw [print, Option.map_map, printUnsigned]
  exact Option.map_id_fun' ▸ rfl

/-- Only the least number has no absolute value. -/
theorem print_signed (n : BitVec w) (h : ¬ (n.toInt < 0 ∧ n.toInt = -2 ^ (w - 1))) :
    (f.print (.signed n)).map (·.1) = (f.withSign (n.toInt < 0)).printInteger n.toInt.natAbs := by
  rw [print, Option.map_map, printSigned]
  by_cases hneg : n.toInt < 0
  · rw [if_neg (Int.not_le.mpr hneg), if_neg fun hleast => h ⟨hneg, hleast⟩, withSign,
      if_pos (decide_eq_true hneg), show (-n.toInt).toNat = n.toInt.natAbs by omega]
    exact Option.map_id_fun' ▸ rfl
  · rw [if_pos (Int.not_lt.mp hneg), withSign, if_neg (by simpa using hneg),
      show n.toInt.toNat = n.toInt.natAbs by omega]
    exact Option.map_id_fun' ▸ rfl

theorem print_least (n : BitVec w) (hneg : n.toInt < 0) (hleast : n.toInt = -2 ^ (w - 1)) :
    f.print (.signed n) = none := by
  rw [print, printSigned, if_neg (Int.not_le.mpr hneg), if_pos hleast]
  rfl

/-- The argument has an absolute value, or nothing is put. -/
theorem print_eq (v : Argument w) :
    (∀ n, v = .signed n → n.toInt < 0 → n.toInt ≠ -2 ^ (w - 1)) ∧
        (f.print v).map (·.1) = (f.withSign v.negative).printInteger v.magnitude ∨
      (∃ n, v = .signed n ∧ n.toInt < 0 ∧ n.toInt = -2 ^ (w - 1)) ∧ f.print v = none := by
  cases v with
  | unsigned u =>
    refine .inl ⟨fun n h => ?_, print_unsigned u⟩
    cases h
  | signed n =>
    by_cases h : n.toInt < 0 ∧ n.toInt = -2 ^ (w - 1)
    · exact .inr ⟨⟨n, rfl, h.1, h.2⟩, print_least n h.1 h.2⟩
    · refine .inl ⟨fun m hm hneg hleast => ?_, print_signed n h⟩
      cases hm
      exact h ⟨hneg, hleast⟩

/-- An integer is put as `printf` renders it under these conditions, and under no others. -/
theorem printsRendering_iff (f : Formatter) (v : Argument w) :
    f.PrintsRendering v ↔ f.Renders v := by
  have hinteger := @printsInteger_iff (f.withSign v.negative) v.magnitude
  rw [rendering_withSign, printChar_withSign, unpadded_withSign, plain_withSign] at hinteger
  have hsame : (f.withSign v.negative).base = f.base ∧ (f.withSign v.negative).filler = f.filler ∧
      ((f.withSign v.negative).PadsZeros ↔ f.PadsZeros) ∧
      (f.withSign v.negative).width = f.width := by
    cases v.negative <;> exact ⟨rfl, rfl, Iff.rfl, rfl⟩
  rw [hsame.1, hsame.2.1, hsame.2.2.1, hsame.2.2.2] at hinteger
  rw [PrintsRendering]
  rcases f.print_eq v with ⟨hnegates, hprint⟩ | ⟨⟨n, rfl, hneg, hleast⟩, hnone⟩
  · rw [hprint, hinteger]
    constructor
    · rintro ⟨hdigits, hplain, hzeros, hshort, hwidth⟩
      exact ⟨hnegates, hdigits, hplain.shown, hplain.octal, hzeros, hshort, hwidth⟩
    · intro h
      exact ⟨h.digits, ⟨h.shown, h.octal⟩, h.zeros, h.short, h.width⟩
  · rw [hnone]
    refine iff_of_false (fun h => ?_) fun h => h.negates n rfl hneg hleast
    cases h

/-- 33 binary digits do not fit in the buffer. -/
theorem not_printsRendering_binary :
    ¬ PrintsRendering { base := 2 } (.unsigned 0x100000000#64) := by
  intro h
  have hnone : print { base := 2 } (.unsigned 0x100000000#64) = none := by decide +kernel
  rw [PrintsRendering, hnone] at h
  cases h

end EsOs.Es.Formatter
