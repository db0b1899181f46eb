import Mathlib
import EsOs.Escort.Address
import EsOs.Escort.Proofs.Exact

/-!
# Dotted quads

What the loop over the digits of an octet, and that over the digits of a group, take: the run of
digits at the position, unless its number is too large. From it the addresses that
`parseIPv4Address` takes.
-/

namespace EsOs.Escort

open Digits

/-! ## Texts at a position -/

theorem stands_append {url v w : U16String} {pos next : Nat} :
    Stands url pos (v ++ w) next ↔
      Stands url pos v (pos + v.length) ∧ Stands url (pos + v.length) w next := by
  unfold Stands
  rw [List.length_append, Nat.add_assoc]
  constructor
  · rintro ⟨⟨rest, hrest⟩, hnext⟩
    rw [List.append_assoc] at hrest
    refine ⟨⟨⟨w ++ rest, hrest⟩, rfl⟩, ⟨rest, ?_⟩, hnext⟩
    rw [← List.drop_drop, ← hrest, List.drop_left]
  · rintro ⟨⟨⟨rest, hrest⟩, -⟩, ⟨⟨rest', hrest'⟩, hnext⟩⟩
    refine ⟨⟨rest', ?_⟩, hnext⟩
    rw [← List.drop_drop, ← hrest, List.drop_left] at hrest'
    rw [List.append_assoc, hrest', hrest]

theorem stands_nil {url : U16String} {pos next : Nat} : Stands url pos [] next ↔ next = pos := by
  simp [Stands]

theorem stands_singleton {url : U16String} {pos c : Nat} (hc : c ≠ 0) :
    Stands url pos [c] (pos + 1) ↔ charAt url pos = c := by
  constructor
  · rintro ⟨⟨rest, hrest⟩, -⟩
    have hchar := charAt_drop url pos 0
    rw [← hrest, Nat.add_zero] at hchar
    exact hchar.symm
  · intro hchar
    exact ⟨⟨url.drop (pos + 1), (head?_drop_of_charAt hchar hc).symm⟩, rfl⟩

theorem stands_cons {url w : U16String} {pos next c : Nat} (hc : c ≠ 0) :
    Stands url pos (c :: w) next ↔ charAt url pos = c ∧ Stands url (pos + 1) w next := by
  rw [← List.singleton_append, stands_append, List.length_singleton, stands_singleton hc]

theorem Stands.le {url w : U16String} {pos next : Nat} (h : Stands url pos w next) :
    pos ≤ next := by
  rw [h.2]
  exact Nat.le_add_right _ _

/-- The end of a text that is not empty is in the string. -/
theorem Stands.inString {url w : U16String} {pos next : Nat} (h : Stands url pos w next)
    (hne : w ≠ []) : next ≤ url.length := by
  obtain ⟨⟨rest, hrest⟩, hnext⟩ := h
  have hlen := congrArg List.length hrest
  rw [List.length_append, List.length_drop] at hlen
  have := List.length_pos_iff.mpr hne
  omega

/-- What stands between two positions is one text. -/
theorem Stands.eq {url v w : U16String} {pos next : Nat} (h : Stands url pos v next)
    (h' : Stands url pos w next) : v = w := by
  obtain ⟨hv, hnext⟩ := h
  obtain ⟨hw, hnext'⟩ := h'
  rw [List.prefix_iff_eq_take.mp hv, List.prefix_iff_eq_take.mp hw]
  congr 1
  omega

/-- The characters at a position that satisfy `p`. -/
theorem stands_takeWhile (p : Nat → Bool) (url : U16String) (pos : Nat) :
    Stands url pos ((url.drop pos).takeWhile p)
      (pos + ((url.drop pos).takeWhile p).length) :=
  ⟨List.takeWhile_prefix p, rfl⟩

/-- Behind them stands one that does not. -/
theorem charAt_takeWhile {p : Nat → Bool} (hp : p 0 = false) (url : U16String) (pos : Nat) :
    p (charAt url (pos + ((url.drop pos).takeWhile p).length)) = false := by
  rw [← charAt_drop]
  generalize url.drop pos = text
  induction text with
  | nil => exact hp
  | cons c text ih =>
    rw [List.takeWhile_cons]
    split
    · exact ih
    · rename_i hc
      exact Bool.eq_false_iff.mpr hc

/-- Or the string ends behind them. -/
theorem takeWhile_ends (p : Nat → Bool) {url : U16String} {pos : Nat} (hle : pos ≤ url.length) :
    Ends p url (pos + ((url.drop pos).takeWhile p).length) := by
  have htext (text : U16String) : (text.takeWhile p).length = text.length ∨
      p (charAt text (text.takeWhile p).length) = false := by
    induction text with
    | nil => exact .inl rfl
    | cons c text ih =>
      rw [List.takeWhile_cons]
      split
      · exact ih.imp_left (congrArg Nat.succ)
      · rename_i hc
        exact .inr (Bool.eq_false_iff.mpr hc)
  have h := htext (url.drop pos)
  rw [charAt_drop, List.length_drop] at h
  exact h.imp_left fun hlen => by omega

/-- A text of such characters with none behind it is all of them. -/
theorem takeWhile_of_stands {p : Nat → Bool} {url w : U16String} {pos next : Nat}
    (h : Stands url pos w next) (hw : ∀ c ∈ w, p c = true) (hp : p (charAt url next) = false) :
    (url.drop pos).takeWhile p = w := by
  obtain ⟨⟨rest, hrest⟩, rfl⟩ := h
  rw [← charAt_drop, ← hrest] at hp
  rw [← hrest, List.takeWhile_append_of_pos hw]
  cases rest with
  | nil => exact List.append_nil w
  | cons c rest =>
    rw [charAt_append_right (Nat.le_refl _), Nat.sub_self] at hp
    have hc : p c = false := hp
    rw [List.takeWhile_cons, hc]
    exact List.append_nil w

/-! ## Octets -/

theorem parseOctet_eq (url : U16String) (first turns : Nat) :
    ∀ pos a, first ≤ pos → url.length ≤ pos + turns → a ≤ 255 →
      parseOctet url first turns pos a =
        if 255 < number 10 (fun c => c - '0'.toNat) a ((url.drop pos).takeWhile isDigit) then none
        else if pos < url.length ∧ pos = first ∧ (url.drop pos).takeWhile isDigit = [] then none
        else some (pos + ((url.drop pos).takeWhile isDigit).length) := by
  induction turns with
  | zero =>
    intro pos a _ hlen ha
    have hdrop : url.drop pos = [] := List.drop_eq_nil_of_le hlen
    rw [hdrop, List.takeWhile_nil, number_nil, if_neg (Nat.not_lt.mpr ha),
      if_neg (fun h => Nat.not_lt.mpr hlen h.1)]
    rfl
  | succ turns ih =>
    intro pos a hfirst hlen ha
    rw [parseOctet]
    by_cases hend : url.length ≤ pos
    · have hdrop : url.drop pos = [] := List.drop_eq_nil_of_le hend
      rw [if_pos hend, hdrop, List.takeWhile_nil, number_nil, if_neg (Nat.not_lt.mpr ha),
        if_neg (fun h => Nat.not_lt.mpr hend h.1)]
      rfl
    have hlt := Nat.lt_of_not_le hend
    rw [if_neg hend, List.drop_eq_getElem_cons hlt, ← charAt_eq hlt, List.takeWhile_cons]
    by_cases hdigit : isDigit (charAt url pos) = true
    · have hne (w : U16String) : ¬ (pos < url.length ∧ pos = first ∧ charAt url pos :: w = []) :=
        fun h => List.cons_ne_nil _ _ h.2.2
      rw [if_pos hdigit, if_pos hdigit, number_cons, if_neg (hne _)]
      dsimp only
      by_cases hlarge : 255 < a * 10 + (charAt url pos - '0'.toNat)
      · rw [if_pos hlarge, if_pos (Nat.lt_of_lt_of_le hlarge (le_number (by decide) _ _))]
      · rw [if_neg hlarge, ih (pos + 1) _ (by omega) (by omega) (Nat.le_of_not_lt hlarge)]
        have hfar : ¬ (pos + 1 < url.length ∧ pos + 1 = first ∧
            (url.drop (pos + 1)).takeWhile isDigit = []) := fun h => by omega
        rw [if_neg hfar, List.length_cons, Nat.add_right_comm, Nat.add_assoc]
    · rw [if_neg hdigit, if_neg hdigit, number_nil, if_neg (Nat.not_lt.mpr ha)]
      by_cases heq : pos = first
      · rw [if_pos heq, if_pos ⟨hlt, heq, rfl⟩]
      · rw [if_neg heq, if_neg fun h => heq h.2.1]
        rfl

/-- An octet at a position, or none at the end of the string. -/
theorem parseOctet_iff {url : U16String} {pos next : Nat} :
    parseOctet url pos url.length pos 0 = some next ↔
      ∃ w, (Octet w ∨ (w = [] ∧ url.length ≤ next)) ∧ Stands url pos w next ∧
        isDigit (charAt url next) = false := by
  rw [parseOctet_eq url pos url.length pos 0 (Nat.le_refl _) (Nat.le_add_left _ _)
    (Nat.zero_le _)]
  constructor
  · intro h
    split at h
    · cases h
    rename_i hvalue
    split at h
    · cases h
    rename_i hsome
    obtain rfl := Option.some.inj h
    refine ⟨_, ?_, stands_takeWhile isDigit url pos, charAt_takeWhile (by decide) url pos⟩
    by_cases hnil : (url.drop pos).takeWhile isDigit = []
    · refine .inr ⟨hnil, Nat.le_of_not_lt fun hlt => hsome ⟨?_, rfl, hnil⟩⟩
      exact Nat.lt_of_le_of_lt (Nat.le_add_right _ _) hlt
    · exact .inl ⟨hnil, fun c hc => List.mem_takeWhile_imp hc, Nat.le_of_not_lt hvalue⟩
  · rintro ⟨w, hw, hstands, hend⟩
    have hdigits : ∀ c ∈ w, isDigit c = true := by
      rcases hw with hw | ⟨rfl, -⟩
      · exact hw.digits
      · exact nofun
    have hvalue : ¬ 255 < number 10 (fun c => c - '0'.toNat) 0 w := by
      rcases hw with hw | ⟨rfl, -⟩
      · exact Nat.not_lt.mpr hw.value
      · decide
    have hsome : ¬ (pos < url.length ∧ pos = pos ∧ w = []) := by
      rintro ⟨hlt, -, rfl⟩
      rcases hw with hw | ⟨-, hlen⟩
      · exact hw.nonempty rfl
      · rw [hstands.2] at hlen
        exact Nat.not_lt.mpr hlen hlt
    rw [takeWhile_of_stands hstands hdigits hend, if_neg hvalue, if_neg hsome, ← hstands.2]

/-! ## Quads -/

theorem dot_ne_zero : '.'.toNat ≠ 0 := by decide

theorem colon_ne_zero : ':'.toNat ≠ 0 := by decide

/-- Octets with a dot between each two of them, where the last may be missing at the end of the
    string. -/
theorem parseIPv4From_iff (url : U16String) (left : Nat) :
    ∀ pos next, parseIPv4From url (left + 1) pos = some next ↔
      ∃ front w, front.length = left ∧ (∀ v ∈ front, Octet v) ∧
        (Octet w ∨ (w = [] ∧ url.length ≤ next)) ∧
        Stands url pos (quadText (front ++ [w])) next ∧ isDigit (charAt url next) = false := by
  induction left with
  | zero =>
    intro pos next
    have hone : parseIPv4From url 1 pos = parseOctet url pos url.length pos 0 := by
      simp only [parseIPv4From, if_true]
      split
      · rename_i hnone
        exact hnone.symm
      · rename_i stop hstop
        exact hstop.symm
    rw [Nat.zero_add, hone, parseOctet_iff]
    constructor
    · rintro ⟨w, hw, hstands, hend⟩
      refine ⟨[], w, rfl, by simp, hw, ?_, hend⟩
      rwa [quadText, List.nil_append, joined_singleton]
    · rintro ⟨front, w, hfront, -, hw, hstands, hend⟩
      obtain rfl := List.length_eq_zero_iff.mp hfront
      rw [quadText, List.nil_append, joined_singleton] at hstands
      exact ⟨w, hw, hstands, hend⟩
  | succ left ih =>
    intro pos next
    rw [parseIPv4From]
    simp only [Nat.succ_ne_zero, if_false]
    constructor
    · intro h
      split at h
      · cases h
      rename_i stop hstop
      split at h
      · cases h
      rename_i hdot
      have hdot := Decidable.not_not.mp hdot
      obtain ⟨front, w, hfront, hoctets, hw, hstands, hend⟩ := (ih _ _).mp h
      obtain ⟨v, hv, hfirst, -⟩ := parseOctet_iff.mp hstop
      have hv := hv.resolve_right fun hnil =>
        Nat.not_lt.mpr hnil.2 (lt_of_charAt hdot dot_ne_zero)
      refine ⟨v :: front, w, congrArg Nat.succ hfront, ?_, hw, ?_, hend⟩
      · intro u hu
        rcases List.mem_cons.mp hu with rfl | hu
        · exact hv
        · exact hoctets u hu
      · rw [quadText, List.cons_append, joined_cons v (by simp), stands_append]
        obtain rfl := hfirst.2
        exact ⟨hfirst, (stands_cons dot_ne_zero).mpr ⟨hdot, hstands⟩⟩
    · rintro ⟨front, w, hfront, hoctets, hw, hstands, hend⟩
      obtain ⟨v, front, rfl⟩ := List.exists_cons_of_length_eq_add_one hfront
      rw [quadText, List.cons_append, joined_cons v (by simp), stands_append,
        stands_cons dot_ne_zero] at hstands
      obtain ⟨hfirst, hdot, hstands⟩ := hstands
      have hstop : parseOctet url pos url.length pos 0 = some (pos + v.length) := by
        refine parseOctet_iff.mpr ⟨v, .inl (hoctets v List.mem_cons_self), hfirst, ?_⟩
        rw [hdot]
        decide
      rw [hstop]
      dsimp only
      rw [if_neg (fun hne => hne hdot)]
      exact (ih _ _).mpr ⟨front, w, by simpa using hfront,
        fun u hu => hoctets u (List.mem_cons_of_mem v hu), hw, hstands, hend⟩

/-- What `parseIPv4Address` takes: a quad, or three octets with a dot behind each at the end of the
    string. -/
theorem parseIPv4Address_iff {url : U16String} {pos next : Nat} :
    parseIPv4Address url pos = some next ↔
      (∃ octets, Quad octets ∧ Stands url pos (quadText octets) next ∧
        isDigit (charAt url next) = false) ∨
      (cutQuad (url.drop pos) ∧ next = url.length) := by
  rw [parseIPv4Address, parseIPv4From_iff]
  constructor
  · rintro ⟨front, w, hfront, hoctets, hw | ⟨rfl, hlen⟩, hstands, hend⟩
    · refine .inl ⟨front ++ [w], ⟨?_, fun v hv => ?_⟩, hstands, hend⟩
      · rw [List.length_append, hfront]
        rfl
      · rcases List.mem_append.mp hv with hv | hv
        · exact hoctets v hv
        · rw [List.mem_singleton.mp hv]
          exact hw
    · have hfront' : front ≠ [] := by
        rintro rfl
        cases hfront
      have hne : quadText (front ++ [[]]) ≠ [] := by
        rw [quadText, joined_append hfront' (by simp)]
        simp
      have hnext := Nat.le_antisymm (hstands.inString hne) hlen
      refine .inr ⟨⟨front, hfront, hoctets, ?_⟩, hnext⟩
      refine (List.IsPrefix.eq_of_length hstands.1 ?_).symm
      have := hstands.2
      rw [List.length_drop]
      omega
  · rintro (⟨octets, hquad, hstands, hend⟩ | ⟨⟨front, hfront, hoctets, hrest⟩, rfl⟩)
    · obtain ⟨front, w, rfl⟩ : ∃ front w, octets = front ++ [w] := by
        have hne : octets ≠ [] := by
          rintro rfl
          cases hquad.four
        exact ⟨octets.dropLast, octets.getLast hne, (List.dropLast_append_getLast hne).symm⟩
      refine ⟨front, w, ?_, fun v hv => hquad.octets v (List.mem_append_left _ hv),
        .inl (hquad.octets w (List.mem_append_right _ List.mem_cons_self)), hstands, hend⟩
      have := hquad.four
      rw [List.length_append, List.length_singleton] at this
      omega
    · refine ⟨front, [], hfront, hoctets, .inr ⟨rfl, Nat.le_refl _⟩,
        ⟨⟨[], by rw [List.append_nil, hrest]⟩, ?_⟩, ?_⟩
      · have hlen := congrArg List.length hrest
        have hfront' : front ≠ [] := by
          rintro rfl
          cases hfront
        have hne : quadText (front ++ [[]]) ≠ [] := by
          rw [quadText, joined_append hfront' (by simp)]
          simp
        have := List.length_pos_iff.mpr hne
        rw [List.length_drop] at hlen
        omega
      · have hend : charAt url url.length = 0 := by simp [charAt, List.getD]
        rw [hend]
        decide

end EsOs.Escort
