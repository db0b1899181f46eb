import Mathlib

/-!
# Numbers and lists in a text

The number that a run of digits makes, and the pieces of a text with a separator between them, which
the text determines when no piece contains the separator.
-/

namespace EsOs.Digits

variable {α : Type*}

/-! ## Numbers -/

/-- The number that digits make behind the number `a`. -/
def number (base : Nat) (value : α → Nat) (a : Nat) (digits : List α) : Nat :=
  digits.foldl (fun a c => a * base + value c) a

variable {base : Nat} {value : α → Nat}

@[simp] theorem number_nil (a : Nat) : number base value a [] = a := rfl

@[simp] theorem number_cons (a : Nat) (c : α) (digits : List α) :
    number base value a (c :: digits) = number base value (a * base + value c) digits := rfl

/-- More digits make no smaller number. -/
theorem le_number (hbase : 0 < base) (digits : List α) :
    ∀ a, a ≤ number base value a digits := by
  induction digits with
  | nil => exact fun a => Nat.le_refl a
  | cons c digits ih =>
    intro a
    have hstep : a ≤ a * base + value c :=
      Nat.le_trans (Nat.le_mul_of_pos_right a hbase) (Nat.le_add_right _ _)
    exact Nat.le_trans hstep (ih _)

/-- A bound on a number with as many digits. -/
theorem number_lt (digits : List α) :
    ∀ a n, (∀ c ∈ digits, value c < base) → a < n →
      number base value a digits < n * base ^ digits.length := by
  induction digits with
  | nil =>
    intro a n _ ha
    rwa [List.length_nil, Nat.pow_zero, Nat.mul_one]
  | cons c digits ih =>
    intro a n hvalue ha
    have hstep : a * base + value c < n * base := by
      have hc := hvalue c List.mem_cons_self
      calc a * base + value c < a * base + base := Nat.add_lt_add_left hc _
        _ = (a + 1) * base := (Nat.succ_mul a base).symm
        _ ≤ n * base := Nat.mul_le_mul_right base ha
    have hrest := ih _ _ (fun d hd => hvalue d (List.mem_cons_of_mem c hd)) hstep
    rwa [Nat.mul_assoc, ← Nat.pow_succ'] at hrest

/-! ## Pieces with a separator between them -/

/-- The pieces with `sep` between each two of them. -/
def joined (sep : α) (pieces : List (List α)) : List α :=
  [sep].intercalate pieces

@[simp] theorem joined_nil (sep : α) : joined sep [] = [] := rfl

@[simp] theorem joined_singleton (sep : α) (w : List α) : joined sep [w] = w :=
  List.intercalate_singleton

theorem joined_cons {sep : α} (w : List α) {pieces : List (List α)} (h : pieces ≠ []) :
    joined sep (w :: pieces) = w ++ sep :: joined sep pieces := by
  rw [joined, List.intercalate_cons_of_ne_nil h, List.append_assoc]
  rfl

theorem joined_append {sep : α} {front : List (List α)} (hfront : front ≠ [])
    {pieces : List (List α)} (h : pieces ≠ []) :
    joined sep (front ++ pieces) = joined sep front ++ sep :: joined sep pieces := by
  induction front with
  | nil => exact absurd rfl hfront
  | cons w front ih =>
    rw [List.cons_append, joined_cons w (List.append_ne_nil_of_right_ne_nil front h)]
    by_cases hnil : front = []
    · rw [hnil, List.nil_append, joined_singleton]
    · rw [ih hnil, joined_cons w hnil, List.append_assoc]
      rfl

theorem mem_joined {sep c : α} {pieces : List (List α)} (h : c ∈ joined sep pieces) :
    c = sep ∨ ∃ w ∈ pieces, c ∈ w := by
  induction pieces with
  | nil => cases h
  | cons w pieces ih =>
    by_cases hnil : pieces = []
    · rw [hnil, joined_singleton] at h
      exact .inr ⟨w, List.mem_cons_self, h⟩
    · rw [joined_cons w hnil, List.mem_append, List.mem_cons] at h
      rcases h with h | h | h
      · exact .inr ⟨w, List.mem_cons_self, h⟩
      · exact .inl h
      · refine (ih h).imp_right ?_
        rintro ⟨v, hv, hc⟩
        exact ⟨v, List.mem_cons_of_mem w hv, hc⟩

/-- Pieces without the separator are determined by the text that they make. -/
theorem joined_inj [DecidableEq α] {sep : α} {pieces pieces' : List (List α)}
    (hpieces : ∀ w ∈ pieces, sep ∉ w) (hpieces' : ∀ w ∈ pieces', sep ∉ w)
    (hne : pieces ≠ []) (hne' : pieces' ≠ []) (h : joined sep pieces = joined sep pieces') :
    pieces = pieces' := by
  have hsplit := congrArg (fun text => text.splitOn sep) h
  rwa [joined, joined, List.splitOn_intercalate sep hpieces hne,
    List.splitOn_intercalate sep hpieces' hne'] at hsplit

/-- The pieces that a text is split into do not contain the separator. -/
theorem not_mem_of_mem_splitOn [DecidableEq α] {sep : α} {text : List α} :
    ∀ {w : List α}, w ∈ text.splitOn sep → sep ∉ w := by
  induction text with
  | nil =>
    intro w h
    rw [List.mem_singleton.mp h]
    exact List.not_mem_nil
  | cons c text ih =>
    intro w h
    rw [List.splitOn_cons_eq_if_modifyHead] at h
    split at h
    · rcases List.mem_cons.mp h with rfl | h
      · exact List.not_mem_nil
      · exact ih h
    · rename_i hc
      obtain ⟨v, pieces, hsplit⟩ := List.exists_cons_of_ne_nil (List.splitOn_ne_nil sep text)
      rw [hsplit, List.modifyHead_cons] at h
      rcases List.mem_cons.mp h with rfl | h
      · refine List.not_mem_cons_of_ne_of_not_mem (fun heq => hc ?_) (ih (by rw [hsplit]; exact .head _))
        rw [heq]
        exact beq_self_eq_true c
      · exact ih (by rw [hsplit]; exact .tail _ h)

end EsOs.Digits

/-!
## Words of a list

The words of a list are the longest runs of items without the separator. They can be found from the
front as well as from the back.
-/

namespace EsOs.Lib

variable {α : Type _} [DecidableEq α]

/-- The parts between the separators that are not empty. -/
def splitWords (sep : α) (l : List α) : List (List α) := (l.splitOn sep).filter (· ≠ [])

variable {sep : α} {l xs ys w : List α}

@[simp] theorem splitWords_nil : splitWords sep [] = [] := rfl

/-- A separator ends a word. -/
theorem splitWords_append_cons (xs ys : List α) :
    splitWords sep (xs ++ sep :: ys) = splitWords sep xs ++ splitWords sep ys := by
  simp only [splitWords, List.splitOn_eq_splitOnP]
  rw [List.splitOnP_append_cons xs ys (by simp), List.filter_append]

theorem splitWords_cons_sep : splitWords sep (sep :: ys) = splitWords sep ys := by
  simpa using splitWords_append_cons [] ys

/-- A single word. -/
theorem splitWords_of_not_mem (h : sep ∉ w) (hne : w ≠ []) : splitWords sep w = [w] := by
  have hsep : ∀ x ∈ w, (x == sep) = false := by
    intro x hx
    rw [beq_eq_false_iff_ne]
    rintro rfl
    exact h hx
  rw [splitWords, List.splitOn_eq_splitOnP, List.splitOnP_eq_singleton hsep]
  simp [hne]

/-- The first word. -/
theorem splitWords_append_left (h : sep ∉ w) (hne : w ≠ []) (hys : ∀ x ∈ ys.head?, x = sep) :
    splitWords sep (w ++ ys) = w :: splitWords sep ys := by
  cases ys with
  | nil => rw [List.append_nil, splitWords_of_not_mem h hne, splitWords_nil]
  | cons y ys =>
    obtain rfl : y = sep := hys y rfl
    rw [splitWords_append_cons, splitWords_of_not_mem h hne, splitWords_cons_sep,
      List.singleton_append]

/-- The last word. -/
theorem splitWords_append_right (h : sep ∉ w) (hne : w ≠ []) (hxs : ∀ x ∈ xs.getLast?, x = sep) :
    splitWords sep (xs ++ w) = splitWords sep xs ++ [w] := by
  rcases List.eq_nil_or_concat xs with rfl | ⟨front, x, rfl⟩
  · rw [List.nil_append, splitWords_of_not_mem h hne, splitWords_nil, List.nil_append]
  · obtain rfl : x = sep := hxs x (by simp)
    rw [List.concat_eq_append, List.append_assoc, List.singleton_append, splitWords_append_cons,
      splitWords_append_cons, splitWords_of_not_mem h hne, splitWords_nil, List.append_nil]

/-- Separators at the end do not count. -/
theorem splitWords_append_seps (hys : ∀ y ∈ ys, y = sep) :
    splitWords sep (xs ++ ys) = splitWords sep xs := by
  induction ys generalizing xs with
  | nil => rw [List.append_nil]
  | cons y ys ih =>
    obtain rfl : y = sep := hys y List.mem_cons_self
    have hrest := @ih [] fun z hz => hys z (List.mem_cons_of_mem _ hz)
    rw [List.nil_append, splitWords_nil] at hrest
    rw [splitWords_append_cons, hrest, List.append_nil]

/-- Separators at the front do not count. -/
theorem splitWords_dropWhile (l : List α) :
    splitWords sep (l.dropWhile (· = sep)) = splitWords sep l := by
  induction l with
  | nil => rfl
  | cons x l ih =>
    rw [List.dropWhile_cons]
    split
    · rename_i hx
      obtain rfl : x = sep := by simpa using hx
      rw [ih, splitWords_cons_sep]
    · rfl

theorem eq_sep_of_mem_takeWhile {x : α} (h : x ∈ l.takeWhile (· = sep)) : x = sep := by
  simpa using List.mem_takeWhile_imp h

theorem sep_not_mem_takeWhile : sep ∉ l.takeWhile (· ≠ sep) := by
  intro h
  simpa using List.mem_takeWhile_imp h

/-- Behind a word there is a separator. -/
theorem head?_dropWhile_ne {x : α} (h : (l.dropWhile (· ≠ sep)).head? = some x) : x = sep := by
  have hnot := List.head?_dropWhile_not (· ≠ sep) l
  rw [h] at hnot
  simpa using hnot

/-- Behind separators there is none. -/
theorem head?_dropWhile_eq : (l.dropWhile (· = sep)).head? ≠ some sep := by
  intro h
  have hnot := List.head?_dropWhile_not (· = sep) l
  rw [h] at hnot
  simp at hnot

end EsOs.Lib
