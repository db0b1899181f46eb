import Mathlib
import EsOs.Esjs.Split
import EsOs.Es.Proofs.Utf

/-!
# Split and join

The loop of `stringSplit` leaves a list of pieces behind each of which the separator stood. Without a
separator it needs two turns for a character; at a terminator `utf8to32` does not move on, and the
loop never ends.
-/

namespace EsOs.Esjs

open EsOs.Lib

/-! ## Finding -/

/-- The leftmost place where `r` stands. -/
theorem find_eq_some {r : List UInt8} :
    ∀ {s : List UInt8} {pos : Nat}, find r s = some pos →
      ∃ t rest, s = t ++ (r ++ rest) ∧ t.length = pos ∧
        ∀ u v, t = u ++ v → v ≠ [] → ¬ r <+: v ++ (r ++ rest) := by
  intro s
  induction s with
  | nil =>
    intro pos h
    unfold find at h
    split at h
    · rename_i hnil
      refine ⟨[], [], by rw [hnil]; rfl, Option.some.inj h, fun u v heq hne => ?_⟩
      exact absurd (List.append_eq_nil_iff.mp heq.symm).2 hne
    · cases h
  | cons c s ih =>
    intro pos h
    unfold find at h
    split at h
    · rename_i hfront
      obtain ⟨rest, hrest⟩ := List.isPrefixOf_iff_prefix.mp hfront
      refine ⟨[], rest, by rw [hrest]; rfl, Option.some.inj h, fun u v heq hne => ?_⟩
      exact absurd (List.append_eq_nil_iff.mp heq.symm).2 hne
    · rename_i hfront
      obtain ⟨pos', hpos, rfl⟩ := Option.map_eq_some_iff.mp h
      obtain ⟨t, rest, rfl, ht, hfirst⟩ := ih hpos
      refine ⟨c :: t, rest, rfl, congrArg Nat.succ ht, fun u v heq hne => ?_⟩
      cases u with
      | nil =>
        obtain rfl : c :: t = v := heq
        exact fun hpre => hfront (List.isPrefixOf_iff_prefix.mpr hpre)
      | cons d u => exact hfirst u v (List.cons.inj heq).2 hne

theorem find_eq_none {r : List UInt8} :
    ∀ {s : List UInt8}, find r s = none → ¬ r <:+: s := by
  intro s
  induction s with
  | nil =>
    intro h hin
    unfold find at h
    rw [if_pos (List.eq_nil_of_infix_nil hin)] at h
    cases h
  | cons c s ih =>
    intro h hin
    unfold find at h
    split at h
    · cases h
    · rename_i hfront
      rcases List.infix_cons_iff.mp hin with hpre | hin
      · exact hfront (List.isPrefixOf_iff_prefix.mpr hpre)
      · exact ih (Option.map_eq_none_iff.mp h) hin

/-- Nothing stands where nothing is looked for, but the empty string. -/
theorem find_nil (s : List UInt8) : find [] s = some 0 := by
  cases s <;> rfl

/-! ## Arrays of pieces -/

/-- The array whose elements are the strings of a list. -/
def ofPieces (inherited : Nat → Option (Value (List UInt8))) (pieces : List (List UInt8)) :
    ArrayValue (List UInt8) :=
  ⟨fun i => pieces[i]?.map .of, inherited, pieces.length⟩

variable {inherited : Nat → Option (Value (List UInt8))}

theorem ofPieces_nil : ofPieces inherited [] = .new inherited := rfl

theorem put_ofPieces (pieces : List (List UInt8)) (t : List UInt8) :
    (ofPieces inherited pieces).put pieces.length (.of t) =
      ofPieces inherited (pieces ++ [t]) := by
  have hnone : ((ofPieces inherited pieces).own pieces.length).isSome = false := by
    simp [ofPieces]
  have hlen : (ofPieces inherited pieces).length ≤ pieces.length := Nat.le_refl _
  rw [ArrayValue.put, if_neg (by rw [hnone]; exact Bool.false_ne_true), if_pos hlen]
  unfold ArrayValue.putElement ArrayValue.setLength ofPieces
  congr 1
  · funext i
    by_cases hi : i = pieces.length
    · rw [if_pos hi, hi]
      simp
    · rw [if_neg hi]
      show pieces[i]?.map Value.of = (pieces ++ [t])[i]?.map Value.of
      by_cases hlt : i < pieces.length
      · rw [List.getElem?_append_left hlt]
      · rw [List.getElem?_eq_none (Nat.le_of_not_lt hlt), List.getElem?_eq_none]
        rw [List.length_append, List.length_singleton]
        omega
  · rw [List.length_append]
    rfl

theorem getElement_ofPieces {pieces : List (List UInt8)} {i : Nat} (h : i < pieces.length) :
    (ofPieces inherited pieces).getElement i = .of (pieces[i]) := by
  simp [ArrayValue.getElement, ArrayValue.found, ofPieces, h]

/-- Joining puts the separator behind every piece but the last. -/
theorem joinLoop_ofPieces (r : List UInt8) (pieces : List (List UInt8)) :
    ∀ n, (h : n < pieces.length) → joinLoop some (ofPieces inherited pieces) r (n + 1) =
      (pieces.take n).flatMap (· ++ r) ++ pieces[n] := by
  intro n
  induction n with
  | zero =>
    intro h
    rw [joinLoop, joinLoop, getElement_ofPieces h]
    rfl
  | succ n ih =>
    intro h
    have hlt := Nat.lt_of_succ_lt h
    rw [joinLoop, ih hlt, getElement_ofPieces h, if_pos (Nat.succ_pos n),
      List.take_succ_eq_append_getElem hlt, List.flatMap_append, List.flatMap_singleton,
      List.append_assoc (List.flatMap _ _)]
    rfl

theorem join_ofPieces (r : List UInt8) (pieces : List (List UInt8)) (last : List UInt8) :
    join some (ofPieces inherited (pieces ++ [last])) (some r) =
      pieces.flatMap (· ++ r) ++ last := by
  have hlen : (ofPieces inherited (pieces ++ [last])).length = pieces.length + 1 := by
    simp [ofPieces]
  rw [join, hlen, Option.getD_some, joinLoop_ofPieces r _ _ (by simp)]
  simp

/-- What is left to show of a list of pieces. -/
theorem pieces_of_list {s r last : List UInt8} (pieces : List (List UInt8))
    (hjoin : s = pieces.flatMap (· ++ r) ++ last)
    (hpieces : r ≠ [] → ∀ t ∈ pieces ++ [last], ¬ r <:+: t)
    (hchars : r = [] → ∀ t ∈ pieces ++ [last], ∃ c, t = String.utf8EncodeChar c) :
    Pieces s r (ofPieces inherited (pieces ++ [last])) := by
  have hown {i : Nat} {v : Value (List UInt8)}
      (h : (ofPieces inherited (pieces ++ [last])).own i = some v) :
      ∃ t ∈ pieces ++ [last], v = .of t := by
    obtain ⟨t, ht, rfl⟩ := Option.map_eq_some_iff.mp h
    exact ⟨t, List.mem_of_getElem? ht, rfl⟩
  refine ⟨by rw [join_ofPieces, hjoin], fun hr i piece h => ?_, fun hr i v h => ?_, fun i h => ?_,
    fun i h => ?_⟩
  · obtain ⟨t, ht, heq⟩ := hown h
    cases heq
    exact hpieces hr piece ht
  · obtain ⟨t, ht, heq⟩ := hown h
    obtain ⟨c, hc⟩ := hchars hr t ht
    exact ⟨c, by rw [heq, hc]⟩
  · have hlt : i < (pieces ++ [last]).length := h
    exact ⟨(pieces ++ [last])[i], congrArg (Option.map Value.of) (List.getElem?_eq_getElem hlt)⟩
  · simpa [ofPieces] using h

/-! ## Runs of the loop -/

variable {matcher : List UInt8 → Nat → Option Match} {s : List UInt8} {lim : Nat}

/-- The array `a` is returned by the loop from a state on. -/
def ReturnsFrom (matcher : List UInt8 → Nat → Option Match) (s : List UInt8) (lim : Nat)
    (state : SplitState) (a : ArrayValue (List UInt8)) : Prop :=
  ∃ n last, iterated (splitNext matcher s lim) n state = some last ∧
    match splitTurn matcher s lim last with
    | .returns b => a = b
    | .ends => a = last.a.put last.length (.of (s.drop last.p))
    | _ => False

theorem ReturnsFrom.step {state next : SplitState} {a : ArrayValue (List UInt8)}
    (hturn : splitTurn matcher s lim state = .goes next)
    (h : ReturnsFrom matcher s lim next a) : ReturnsFrom matcher s lim state a := by
  obtain ⟨n, last, hrun, hlast⟩ := h
  refine ⟨n + 1, last, ?_, hlast⟩
  rw [iterated_of_next (by rw [splitNext, hturn]), hrun]

theorem ReturnsFrom.ends {state : SplitState} (hturn : splitTurn matcher s lim state = .ends) :
    ReturnsFrom matcher s lim state (state.a.put state.length (.of (s.drop state.p))) :=
  ⟨0, state, rfl, by rw [hturn]⟩

/-- A loop that returns comes to an end. -/
theorem ReturnsFrom.halts {state : SplitState} {a : ArrayValue (List UInt8)}
    (h : ReturnsFrom matcher s lim state a) : Halts (splitNext matcher s lim) state := by
  obtain ⟨n, last, hrun, hlast⟩ := h
  refine (halts_iff_of_iterated hrun).mpr (halts_of_next_none ?_)
  unfold splitNext
  cases hturn : splitTurn matcher s lim last with
  | goes next =>
    rw [hturn] at hlast
    exact absurd hlast id
  | ends => rfl
  | returns b => rfl
  | undefined => rfl

/-- The state with the pieces of a list, at the offset behind them. -/
def atPieces (inherited : Nat → Option (Value (List UInt8))) (pieces : List (List UInt8))
    (p q : Nat) : SplitState :=
  ⟨ofPieces inherited pieces, pieces.length, p, q⟩

variable (inherited lim) in
/-- A match becomes a piece. -/
theorem splitTurn_match {r : List UInt8} (pieces : List (List UInt8)) {p q pos : Nat}
    (hq : q < s.length) (hfind : find r (s.drop q) = some pos)
    (hne : pos + q + r.length ≠ p) (hlim : lim ≠ pieces.length + 1) :
    splitTurn (splitMatch r) s lim (atPieces inherited pieces p q) =
      .goes (atPieces inherited (pieces ++ [substr s p (pos + q)]) (pos + q + r.length)
        (pos + q + r.length)) := by
  have hm : splitMatch r s q = some ⟨pos + q, pos + q + r.length, []⟩ := by
    rw [splitMatch, hfind, Option.map_some]
  unfold splitTurn
  rw [if_pos (show (atPieces inherited pieces p q).q < s.length from hq)]
  simp only [atPieces, hm, splitGroups, put_ofPieces]
  rw [if_neg hne, if_neg hlim, List.length_append, List.length_singleton]

/-- Without a match the loop ends. -/
theorem splitTurn_none {r : List UInt8} {state : SplitState}
    (h : s.length ≤ state.q ∨ find r (s.drop state.q) = none) :
    splitTurn (splitMatch r) s lim state = .ends := by
  unfold splitTurn
  by_cases hq : state.q < s.length
  · have hm : splitMatch r s state.q = none := by
      rw [splitMatch, h.resolve_left (Nat.not_le.mpr hq), Option.map_none]
    rw [if_pos hq]
    simp only [hm]
  · rw [if_neg hq]

/-! ## A separator -/

theorem length_le_flatMap {r : List UInt8} (hr : r ≠ []) (pieces : List (List UInt8)) :
    pieces.length ≤ (pieces.flatMap (· ++ r)).length := by
  have hpos := List.length_pos_iff.mpr hr
  induction pieces with
  | nil => exact Nat.le_refl 0
  | cons t pieces ih =>
    rw [List.flatMap_cons, List.length_append, List.length_append, List.length_cons]
    omega

/-- From the start of a piece on the loop returns the pieces. -/
theorem returns_separated {r : List UInt8} (hr : r ≠ []) (hshort : s.length < lim) (n : Nat) :
    ∀ pieces p, s.length - p ≤ n → p ≤ s.length → s = pieces.flatMap (· ++ r) ++ s.drop p →
      (∀ t ∈ pieces, ¬ r <:+: t) →
      ∃ a, ReturnsFrom (splitMatch r) s lim (atPieces inherited pieces p p) a ∧ Pieces s r a := by
  have hlen := List.length_pos_iff.mpr hr
  induction n with
  | zero =>
    intro pieces p hn hp hs hpieces
    have hend : s.length ≤ p := by omega
    refine ⟨_, .ends (splitTurn_none (.inl hend)), ?_⟩
    simp only [atPieces, put_ofPieces]
    refine pieces_of_list _ hs (fun _ t ht => ?_) fun hnil => absurd hnil hr
    rcases List.mem_append.mp ht with ht | ht
    · exact hpieces t ht
    · rw [List.mem_singleton.mp ht, List.drop_eq_nil_of_le hend]
      exact fun hin => hr (List.eq_nil_of_infix_nil hin)
  | succ n ih =>
    intro pieces p hn hp hs hpieces
    cases hfind : find r (s.drop p) with
    | none =>
      refine ⟨_, .ends (splitTurn_none (.inr hfind)), ?_⟩
      simp only [atPieces, put_ofPieces]
      refine pieces_of_list _ hs (fun _ t ht => ?_) fun hnil => absurd hnil hr
      rcases List.mem_append.mp ht with ht | ht
      · exact hpieces t ht
      · rw [List.mem_singleton.mp ht]
        exact find_eq_none hfind
    | some pos =>
      obtain ⟨t, rest, hdrop, ht, hfirst⟩ := find_eq_some hfind
      have hsum := congrArg List.length hdrop
      rw [List.length_drop, List.length_append, List.length_append] at hsum
      have hpiece : substr s p (pos + p) = t := by
        rw [substr, Nat.add_sub_cancel, hdrop, ← ht, List.take_left]
      have hbehind : s.drop (pos + p + r.length) = rest := by
        rw [show pos + p + r.length = p + (t.length + r.length) by omega, ← List.drop_drop, hdrop,
          ← List.length_append, ← List.append_assoc, List.drop_left]
      have hcount := length_le_flatMap hr pieces
      have htotal := congrArg List.length hs
      rw [List.length_append, List.length_drop] at htotal
      have hturn := splitTurn_match inherited lim pieces
        (show p < s.length by omega) hfind (show pos + p + r.length ≠ p by omega) (by omega)
      rw [hpiece] at hturn
      have hfree : ¬ r <:+: t := by
        rintro ⟨u, v, huv⟩
        refine hfirst u (r ++ v) (by rw [← huv, List.append_assoc])
          (List.append_ne_nil_of_left_ne_nil hr v) ?_
        rw [List.append_assoc]
        exact List.prefix_append r _
      obtain ⟨a, hreturns, ha⟩ := ih (pieces ++ [t]) (pos + p + r.length) (by omega) (by omega)
        (by
          rw [hbehind, List.flatMap_append, List.flatMap_singleton, List.append_assoc,
            List.append_assoc, ← hdrop]
          exact hs)
        (fun u hu => by
          rcases List.mem_append.mp hu with hu | hu
          · exact hpieces u hu
          · rw [List.mem_singleton.mp hu]
            exact hfree)
      exact ⟨a, hreturns.step hturn, ha⟩

/-! ## No separator -/

theorem splitMatch_nil (q : Nat) : splitMatch [] s q = some ⟨q, q, []⟩ := by
  rw [splitMatch, find_nil, Option.map_some, Nat.zero_add]
  rfl

theorem encoded_ne_nil (c : Char) : String.utf8EncodeChar c ≠ [] :=
  List.ne_nil_of_length_pos (by
    rw [String.length_utf8EncodeChar]
    exact Char.utf8Size_pos c)

theorem encoded_ne_nul {c : Char} (hc : c ≠ '\x00') : String.utf8EncodeChar c ≠ [0] := by
  intro h
  rw [Es.utf8EncodeChar_eq] at h
  split at h
  · rename_i hlt
    have hbyte : (UInt8.ofNat c.toNat).toNat = 0 := congrArg UInt8.toNat (List.cons.inj h).1
    rw [UInt8.toNat_ofNat'] at hbyte
    exact hc (Char.toNat_inj.mp (show c.toNat = 0 by omega))
  · have hlen := congrArg List.length h
    split at hlen
    · simp at hlen
    · split at hlen <;> simp at hlen

variable (inherited lim) in
/-- The character behind a piece is passed. -/
theorem splitTurn_character (pieces : List (List UInt8)) {p : Nat} {c : Char} {rest : List UInt8}
    (hdrop : s.drop p = String.utf8EncodeChar c ++ rest) (hc : c ≠ '\x00') :
    splitTurn (splitMatch []) s lim (atPieces inherited pieces p p) =
      .goes (atPieces inherited pieces p (p + (String.utf8EncodeChar c).length)) := by
  have hsum := congrArg List.length hdrop
  rw [List.length_drop, List.length_append] at hsum
  have hpos := List.length_pos_iff.mpr (encoded_ne_nil c)
  have hread : Es.utf8to32 (s.drop p) = some (c.toNat, rest) :=
    Es.utf8to32_iff.mpr (Es.decodes_iff.mpr ⟨c, rfl, .inl ⟨hdrop, encoded_ne_nul hc⟩⟩).1
  unfold splitTurn
  rw [if_pos (show (atPieces inherited pieces p p).q < s.length by
    show p < s.length
    omega)]
  simp only [atPieces, splitMatch_nil, if_pos, hread]
  rw [show s.length - rest.length = p + (String.utf8EncodeChar c).length by omega]

/-- A terminator is not. -/
theorem splitTurn_nul {pieces : List (List UInt8)} {p : Nat} {rest : List UInt8}
    (hdrop : s.drop p = 0 :: rest) :
    splitTurn (splitMatch []) s lim (atPieces inherited pieces p p) =
      .goes (atPieces inherited pieces p p) := by
  have hsum := congrArg List.length hdrop
  rw [List.length_drop, List.length_cons] at hsum
  have hread : Es.utf8to32 (s.drop p) = some (0, s.drop p) := by
    rw [hdrop]
    exact Es.utf8to32_nul rfl
  unfold splitTurn
  rw [if_pos (show (atPieces inherited pieces p p).q < s.length by
    show p < s.length
    omega)]
  simp only [atPieces, splitMatch_nil, if_pos, hread, List.length_drop]
  rw [show s.length - (s.length - p) = p by omega]

variable (inherited lim) in
/-- The next turn makes it a piece. -/
theorem splitTurn_piece (pieces : List (List UInt8)) {p : Nat} {c : Char} {rest : List UInt8}
    (hdrop : s.drop p = String.utf8EncodeChar c ++ rest) (hrest : rest ≠ [])
    (hlim : lim ≠ pieces.length + 1) :
    splitTurn (splitMatch []) s lim
        (atPieces inherited pieces p (p + (String.utf8EncodeChar c).length)) =
      .goes (atPieces inherited (pieces ++ [String.utf8EncodeChar c])
        (p + (String.utf8EncodeChar c).length) (p + (String.utf8EncodeChar c).length)) := by
  have hsum := congrArg List.length hdrop
  rw [List.length_drop, List.length_append] at hsum
  have hpos := List.length_pos_iff.mpr (encoded_ne_nil c)
  have hrestPos := List.length_pos_iff.mpr hrest
  have hturn := splitTurn_match inherited lim pieces
    (show p + (String.utf8EncodeChar c).length < s.length by omega) (find_nil _)
    (show 0 + (p + (String.utf8EncodeChar c).length) + 0 ≠ p by omega) hlim
  rw [hturn, substr, hdrop, show 0 + (p + (String.utf8EncodeChar c).length) - p =
    (String.utf8EncodeChar c).length by omega, List.take_left, List.length_nil, Nat.zero_add,
    Nat.add_zero]

theorem drop_behind {p : Nat} {t rest : List UInt8} (h : s.drop p = t ++ rest) :
    s.drop (p + t.length) = rest := by
  rw [← List.drop_drop, h, List.drop_left]

theorem flatMap_ne_nil {cs : List Char} (h : cs ≠ []) :
    cs.flatMap String.utf8EncodeChar ≠ [] := by
  cases cs with
  | nil => exact absurd rfl h
  | cons c cs =>
    rw [List.flatMap_cons]
    exact List.append_ne_nil_of_left_ne_nil (encoded_ne_nil c) _

/-- From a character on the loop returns the characters. -/
theorem returns_characters (hshort : s.length < lim) : ∀ (cs : List Char) pieces p, cs ≠ [] →
    '\x00' ∉ cs → s.drop p = cs.flatMap String.utf8EncodeChar → p ≤ s.length → pieces.length ≤ p →
    s = pieces.flatMap (· ++ []) ++ s.drop p → (∀ t ∈ pieces, ∃ c, t = String.utf8EncodeChar c) →
    ∃ a, ReturnsFrom (splitMatch []) s lim (atPieces inherited pieces p p) a ∧ Pieces s [] a := by
  intro cs
  induction cs with
  | nil => exact fun _ _ h => absurd rfl h
  | cons c cs ih =>
    intro pieces p _ hnul hdrop hp hcount hs hpieces
    obtain ⟨hc, hnul⟩ := List.ne_and_not_mem_of_not_mem_cons hnul
    rw [List.flatMap_cons] at hdrop
    have hpos := List.length_pos_iff.mpr (encoded_ne_nil c)
    have hbehind := drop_behind hdrop
    have hturn := splitTurn_character inherited lim pieces hdrop
      (Ne.symm hc)
    have hall : ∀ t ∈ pieces ++ [String.utf8EncodeChar c], ∃ c, t = String.utf8EncodeChar c := by
      intro t ht
      rcases List.mem_append.mp ht with ht | ht
      · exact hpieces t ht
      · exact ⟨c, List.mem_singleton.mp ht⟩
    by_cases hcs : cs = []
    · rw [hcs, List.flatMap_nil, List.append_nil] at hdrop
      rw [hcs, List.flatMap_nil] at hbehind
      refine ⟨_, .step hturn (.ends (splitTurn_none (.inl (List.drop_eq_nil_iff.mp hbehind)))), ?_⟩
      simp only [atPieces, put_ofPieces]
      rw [hdrop] at hs ⊢
      exact pieces_of_list _ hs (fun h => absurd rfl h) fun _ => hall
    · have hsum := congrArg List.length hdrop
      rw [List.length_drop, List.length_append] at hsum
      have hpiece := splitTurn_piece inherited lim pieces hdrop
        (flatMap_ne_nil hcs) (by omega)
      obtain ⟨a, hreturns, ha⟩ := ih (pieces ++ [String.utf8EncodeChar c])
        (p + (String.utf8EncodeChar c).length) hcs hnul hbehind (by omega)
        (by rw [List.length_append, List.length_singleton]; omega)
        (by
          rw [hbehind, List.flatMap_append, List.flatMap_singleton, List.append_nil,
            List.append_assoc, ← hdrop]
          exact hs)
        hall
      exact ⟨a, .step hturn (.step hpiece hreturns), ha⟩

/-- With a terminator the loop never ends. -/
theorem not_halts_nul (hshort : s.length < lim) (after : List Char) :
    ∀ (before : List Char) pieces p, '\x00' ∉ before →
      s.drop p = (before ++ '\x00' :: after).flatMap String.utf8EncodeChar → p ≤ s.length →
      pieces.length ≤ p →
      ¬ Halts (splitNext (splitMatch []) s lim) (atPieces inherited pieces p p) := by
  intro before
  induction before with
  | nil =>
    intro pieces p _ hdrop _ _
    refine not_halts_of_cycle (n := 0) ?_
    rw [iterated_of_next (by rw [splitNext, splitTurn_nul hdrop]), iterated]
  | cons c before ih =>
    intro pieces p hnul hdrop hp hcount
    obtain ⟨hc, hnul⟩ := List.ne_and_not_mem_of_not_mem_cons hnul
    rw [List.cons_append, List.flatMap_cons] at hdrop
    have hpos := List.length_pos_iff.mpr (encoded_ne_nil c)
    have hsum := congrArg List.length hdrop
    rw [List.length_drop, List.length_append] at hsum
    have hrest : (before ++ '\x00' :: after).flatMap String.utf8EncodeChar ≠ [] :=
      flatMap_ne_nil (List.append_ne_nil_of_right_ne_nil _ (List.cons_ne_nil _ _))
    rw [halts_iff_of_next (by rw [splitNext, splitTurn_character _ _ _ hdrop (Ne.symm hc)]),
      halts_iff_of_next (by rw [splitNext, splitTurn_piece _ _ _ hdrop hrest (by omega)])]
    exact ih _ _ hnul (drop_behind hdrop) (by omega)
      (by rw [List.length_append, List.length_singleton]; omega)

/-! ## Strings -/

theorem splitReturns_iff {a : ArrayValue (List UInt8)} (h : 0 < s.length) :
    SplitReturns inherited matcher s noLimit a ↔
      ReturnsFrom matcher s noLimit (splitStart inherited) a := by
  unfold SplitReturns
  rw [if_neg (by decide), if_pos h]
  rfl

theorem splitReturns_nil {a : ArrayValue (List UInt8)} :
    SplitReturns inherited matcher [] noLimit a ↔
      a = if (matcher [] 0).isSome then .new inherited
        else ofPieces inherited [[]] := by
  have hput : (ArrayValue.new inherited).put 0 (.of []) = ofPieces inherited [[]] :=
    put_ofPieces [] []
  unfold SplitReturns
  rw [if_neg (by decide), if_neg (show ¬ 0 < ([] : List UInt8).length from Nat.lt_irrefl 0), hput]
  split <;> rfl

/-- The empty string. -/
theorem pieces_nil (r : List UInt8) :
    ∃ a, SplitReturns inherited (splitMatch r) [] noLimit a ∧ Pieces [] r a := by
  refine ⟨_, splitReturns_nil.mpr rfl, ?_⟩
  by_cases hr : r = []
  · subst hr
    exact ⟨rfl, fun h => absurd rfl h, fun _ i v h => (nomatch h),
      fun i h => absurd h (Nat.not_lt_zero i), fun i h => (nomatch h)⟩
  · have hnone : (splitMatch r [] 0).isSome = false := by
      simp [splitMatch, find, hr]
    rw [hnone, if_neg Bool.false_ne_true]
    refine pieces_of_list [] rfl (fun _ t ht => ?_) fun h => absurd h hr
    rw [List.mem_singleton.mp ht]
    exact fun hin => hr (List.eq_nil_of_infix_nil hin)

/-- `split` gives the pieces of every string but those with a terminator that it is to cut into
    characters. -/
theorem splitsWell_iff (s : Utf8String) (r : List UInt8) :
    SplitsWell s r ↔ r ≠ [] ∨ '\x00' ∉ s.text := by
  have hshort : s.octets.length < noLimit := Nat.lt_trans s.short (by decide)
  have hsome (h : s.text ≠ []) : 0 < s.octets.length := List.length_pos_iff.mpr (flatMap_ne_nil h)
  constructor
  · intro h
    by_contra hcon
    obtain ⟨hr, hnul⟩ := not_or.mp hcon
    rw [not_not] at hr hnul
    subst hr
    obtain ⟨before, after, htext, hbefore⟩ := List.eq_append_cons_of_mem hnul
    obtain ⟨a, hreturns, -⟩ := h fun _ => none
    refine not_halts_nul hshort after before [] 0 hbefore ?_
      (Nat.zero_le _) (Nat.zero_le _)
      ((splitReturns_iff (hsome (List.ne_nil_of_mem hnul))).mp hreturns).halts
    rw [List.drop_zero, Utf8String.octets, htext]
  · intro hcond inherited
    by_cases htext : s.text = []
    · have hs : s.octets = [] := by rw [Utf8String.octets, htext, List.flatMap_nil]
      rw [hs]
      exact pieces_nil r
    · suffices hloop : ∃ a, ReturnsFrom (splitMatch r) s.octets noLimit
          (atPieces inherited [] 0 0) a ∧ Pieces s.octets r a by
        obtain ⟨a, hreturns, ha⟩ := hloop
        exact ⟨a, (splitReturns_iff (hsome htext)).mpr hreturns, ha⟩
      by_cases hr : r = []
      · subst hr
        exact returns_characters hshort s.text [] 0 htext (hcond.resolve_left fun h => h rfl) rfl
          (Nat.zero_le _) (Nat.zero_le _) rfl fun t ht => (nomatch ht)
      · exact returns_separated hr hshort _ [] 0 (Nat.le_refl _) (Nat.zero_le _) rfl
          fun t ht => (nomatch ht)

/-- `"\0".split("")` does not return. -/
theorem not_splitsWell_terminator : ¬ SplitsWell ⟨['\x00'], by decide⟩ [] := by
  rintro h
  obtain ⟨a, hreturns, -⟩ := h fun _ => none
  exact @not_halts_nul (fun _ => none) [0] noLimit (by decide) [] [] [] 0 (fun h => nomatch h) (by decide)
    (Nat.zero_le _) (Nat.zero_le _)
    ((splitReturns_iff (by decide)).mp hreturns).halts

end EsOs.Esjs
