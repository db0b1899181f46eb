import EsOs.Escort.Url
import EsOs.Lib.Uri

/-!
# `removeDotSegments`

The scan of `removeDotSegments` moves the same segments to the output as the two buffers of the
generic algorithm. It only finishes a path that ends in a dot segment at once, where the algorithm
leaves the slash to one more step.
-/

namespace EsOs.Escort

open Uri (slash dot Follows)

/-- A turn of the loop, with its literals spelled out. -/
theorem removeDotLoop_succ (turns : Nat) (input output : U16String) :
    removeDotLoop (turns + 1) input output =
      if input.isEmpty then output
      else if input.take 3 = [dot, dot, slash] then removeDotLoop turns (input.drop 3) output
      else if input.take 2 = [dot, slash] then removeDotLoop turns (input.drop 2) output
      else if input.take 3 = [slash, dot, slash] ∨ input = [slash, dot] then
        removeDotLoop turns (input.drop 2)
          (if (input.drop 2).isEmpty then output ++ [slash] else output)
      else if input.take 4 = [slash, dot, dot, slash] ∨ input = [slash, dot, dot] then
        removeDotLoop turns (input.drop 3)
          (if (input.drop 3).isEmpty then dropLastSegment output ++ [slash]
            else dropLastSegment output)
      else if input = [dot, dot] then removeDotLoop turns (input.drop 2) output
      else if input = [dot] then removeDotLoop turns (input.drop 1) output
      else if input.head? = some slash then
        removeDotLoop turns ((input.drop 1).dropWhile fun c => c ≠ slash)
          (output ++ [slash] ++ (input.drop 1).takeWhile fun c => c ≠ slash)
      else
        removeDotLoop turns (input.dropWhile fun c => c ≠ slash)
          (output ++ input.takeWhile fun c => c ≠ slash) := by
  rw [removeDotLoop]
  by_cases hslash : input.head? = some slash
  · have hslash' : (input.head? = some '/'.toNat) = True := eq_true hslash
    simp only [hslash', if_true, decide_true, if_pos hslash]
    rfl
  · have hslash' : (input.head? = some '/'.toNat) = False := eq_false hslash
    simp only [hslash', if_false, decide_false, Bool.false_eq_true, if_neg hslash]
    rfl

theorem span_follows {w rest : U16String} (hw : slash ∉ w) (hrest : Follows rest) :
    (w ++ rest).takeWhile (fun c => c ≠ slash) = w ∧
      (w ++ rest).dropWhile (fun c => c ≠ slash) = rest := by
  have htake := Uri.takeWhile_append_follows hw hrest
  have hsplit := List.takeWhile_append_dropWhile (p := fun c => decide (c ≠ slash))
    (l := w ++ rest)
  rw [htake] at hsplit
  exact ⟨htake, List.append_cancel_left hsplit⟩

/-- A turn of the loop on a segment with a slash before it. -/
theorem removeDotLoop_slash (turns : Nat) {w rest : U16String} (output : U16String)
    (hw : slash ∉ w) (hrest : Follows rest) :
    removeDotLoop (turns + 1) (slash :: (w ++ rest)) output =
      if w = [dot] then
        removeDotLoop turns rest (if rest = [] then output ++ [slash] else output)
      else if w = [dot, dot] then
        removeDotLoop turns rest
          (if rest = [] then dropLastSegment output ++ [slash] else dropLastSegment output)
      else removeDotLoop turns rest (output ++ slash :: w) := by
  obtain ⟨htake, hdrop⟩ := span_follows hw hrest
  have hchars : ∀ c ∈ w, ¬ c = slash := fun c hc heq => hw (heq ▸ hc)
  have hne : ¬ slash = dot := by decide
  have hne' : ¬ dot = slash := by decide
  rw [removeDotLoop_succ]
  simp only [List.drop_succ_cons, List.drop_zero, hdrop, htake]
  clear hw htake hdrop
  rcases w with _ | ⟨a, _ | ⟨b, _ | ⟨c, w⟩⟩⟩ <;>
    rcases hrest with rfl | ⟨next, rfl⟩ <;>
    simp_all

/-- A turn of the loop on a segment at the start of the path. -/
theorem removeDotLoop_noSlash (turns : Nat) {w rest : U16String} (output : U16String)
    (hw : slash ∉ w) (hempty : w ≠ []) (hrest : Follows rest) :
    removeDotLoop (turns + 1) (w ++ rest) output =
      if w = [dot] ∨ w = [dot, dot] then removeDotLoop turns (rest.drop 1) output
      else removeDotLoop turns rest (output ++ w) := by
  obtain ⟨htake, hdrop⟩ := span_follows hw hrest
  have hchars : ∀ c ∈ w, ¬ c = slash := fun c hc heq => hw (heq ▸ hc)
  have hne : ¬ slash = dot := by decide
  have hne' : ¬ dot = slash := by decide
  rw [removeDotLoop_succ, hdrop, htake]
  clear hw htake hdrop
  rcases w with _ | ⟨a, _ | ⟨b, _ | ⟨c, w⟩⟩⟩ <;>
    rcases hrest with rfl | ⟨next, rfl⟩ <;>
    simp_all

/-- What the algorithm does with the slash that a final dot segment leaves. -/
theorem uri_removeDotLoop_last (turns : Nat) (output : U16String) (h : 1 ≤ turns) :
    Uri.removeDotLoop turns [slash] output = output ++ [slash] := by
  obtain ⟨turns, rfl⟩ := Nat.exists_eq_add_of_le h
  refine Uri.removeDotLoop_of_noDots _ [slash] output ?_ (Nat.le_add_right 1 turns)
  exact (Uri.noDots_slash []).mpr Uri.noDots_nil

theorem removeDotLoop_nil (turns : Nat) (output : U16String) :
    removeDotLoop turns [] output = output := by
  cases turns <;> rfl

/-- Any number of turns that reaches the end of the input gives what the algorithm gives. -/
theorem removeDotLoop_eq (n : Nat) :
    ∀ m input output, input.length ≤ n → input.length ≤ m →
      removeDotLoop n input output = Uri.removeDotLoop m input output := by
  induction n with
  | zero =>
    intro m input output hn _
    rw [List.length_eq_zero_iff.mp (Nat.le_zero.mp hn)]
    cases m <;> rfl
  | succ n ih =>
    intro m input output hn hm
    by_cases hinput : input = []
    · rw [hinput, removeDotLoop_nil]
      cases m <;> rfl
    obtain ⟨m, rfl⟩ : ∃ k, m = k + 1 := by
      have := List.length_pos_iff.mpr hinput
      exact ⟨m - 1, by omega⟩
    have hstep : Uri.removeDotLoop (m + 1) input output =
        Uri.removeDotLoop m (Uri.dotStep input output).1 (Uri.dotStep input output).2 := by
      rw [Uri.removeDotLoop, if_neg hinput]
    rw [hstep]
    obtain ⟨w, rest, hw, hrest, rfl | ⟨rfl, hempty⟩⟩ := Uri.segment_cases hinput
    · simp only [List.length_cons, List.length_append] at hn hm
      -- A dot segment at the end of the path takes the algorithm one step more.
      have hlast (out : U16String) (hpos : 0 < w.length) :
          removeDotLoop n rest (if rest = [] then out ++ [slash] else out) =
            Uri.removeDotLoop m (if rest = [] then [slash] else rest) out := by
        split
        · rename_i hnil
          rw [hnil, removeDotLoop_nil, uri_removeDotLoop_last m out (by omega)]
        · exact ih m rest out (by omega) (by omega)
      rw [removeDotLoop_slash n output hw hrest, Uri.dotStep_slash output hw hrest]
      split
      · rename_i hd
        exact hlast output (by rw [hd]; exact Nat.one_pos)
      split
      · rename_i hdd
        exact hlast (dropLastSegment output) (by rw [hdd]; exact Nat.two_pos)
      · exact ih m rest _ (by omega) (by omega)
    · have hpos := List.length_pos_iff.mpr hempty
      simp only [List.length_append] at hn hm
      rw [removeDotLoop_noSlash n output hw hempty hrest,
        Uri.dotStep_noSlash output hw hempty hrest]
      split
      · exact ih m _ output (by simp; omega) (by simp; omega)
      · exact ih m rest _ (by omega) (by omega)

/-- The path with `/` for the empty path. -/
def rooted (path : U16String) : U16String :=
  if path = [] then literal "/" else path

/-- `removeDotSegments` is `remove_dot_segments`, with an empty path read as `/`. -/
theorem removeDotSegments_eq (path : U16String) :
    removeDotSegments path = rooted (Uri.removeDotSegments path) := by
  have hloop := removeDotLoop_eq path.length path.length path [] (Nat.le_refl _) (Nat.le_refl _)
  unfold removeDotSegments rooted Uri.removeDotSegments
  rw [hloop]
  by_cases hnil : Uri.removeDotLoop path.length path [] = []
  · rw [hnil]
    rfl
  · rw [if_neg hnil]
    exact if_pos (List.length_pos_iff.mpr hnil)

theorem rooted_noDots {path : U16String} (h : Uri.NoDots path) : Uri.NoDots (rooted path) := by
  unfold rooted
  split
  · exact (Uri.noDots_slash []).mpr Uri.noDots_nil
  · exact h

theorem removeDotSegments_noDots (path : U16String) : Uri.NoDots (removeDotSegments path) := by
  rw [removeDotSegments_eq]
  exact rooted_noDots (Uri.removeDotSegments_noDots path)

theorem removeDotSegments_idem (path : U16String) :
    removeDotSegments (removeDotSegments path) = removeDotSegments path := by
  have hne : removeDotSegments path ≠ [] := by
    rw [removeDotSegments_eq, rooted]
    split
    · nofun
    · assumption
  rw [removeDotSegments_eq (removeDotSegments path),
    Uri.removeDotSegments_of_noDots (removeDotSegments_noDots path), rooted, if_neg hne]

theorem mem_removeDotSegments {path : U16String} {c : Nat} (h : c ∈ removeDotSegments path) :
    c = slash ∨ c ∈ path := by
  rw [removeDotSegments_eq, rooted] at h
  split at h
  · exact .inl (List.mem_singleton.mp h)
  · exact Uri.mem_removeDotSegments h

theorem removeDotSegments_rooted {path : U16String} (h : path.head? = some slash) :
    (removeDotSegments path).head? = some slash := by
  rw [removeDotSegments_eq, rooted]
  split
  · rfl
  · exact Uri.removeDotSegments_rooted h

end EsOs.Escort
