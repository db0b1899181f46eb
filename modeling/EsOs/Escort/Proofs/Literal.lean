import Mathlib
import EsOs.Escort.Proofs.Address

/-!
# IP literals

The groups before `"::"` and the whole address. An address is determined by its text, so that what
the grammar and the loop say of it can be compared.
-/

namespace EsOs.Escort

open Digits Address

variable {url : U16String} {stop : Nat}

/-! ## The groups before a double colon -/

/-- A group with a digit. -/
def isGroup (w : U16String) : Prop := isRun w ∧ w ≠ []

/-- Groups with a colon behind each, one more colon, and what follows. -/
def leftText : List U16String → U16String → U16String
  | [], rest => ':'.toNat :: rest
  | w :: left, rest => w ++ ':'.toNat :: leftText left rest

theorem leftText_eq (left : List U16String) (rest : U16String) :
    ∀ w, leftText (w :: left) rest = joined ':'.toNat (w :: left) ++ literal "::" ++ rest := by
  induction left with
  | nil =>
    intro w
    rw [joined_singleton, List.append_assoc]
    rfl
  | cons v left ih =>
    intro w
    rw [leftText, ih v, joined_cons w (by simp), List.append_assoc, List.append_assoc,
      List.append_assoc]
    rfl

/-- Eight groups without `"::"`, of which `c` have been counted. -/
def ReadsPlain (url : U16String) (c pos stop : Nat) : Prop :=
  ∃ left quad, left ≠ [] ∧ (∀ w ∈ left, isGroup w) ∧ (∀ o, quad = some o → Quad o) ∧
    c + left.length + 2 * (lastPiece quad).length = 8 ∧
    Stands url pos (joined ':'.toNat (left ++ lastPiece quad)) stop

/-- Groups with `"::"` among them, from behind a colon. -/
def ReadsDouble (url : U16String) (c pos stop : Nat) : Prop :=
  ∃ left right quad, (∀ w ∈ left, isGroup w) ∧ (∀ w ∈ right, isRun w) ∧
    (∀ o, quad = some o → Quad o) ∧ Fits (c + left.length) right quad ∧
    Stands url pos (leftText left (joined ':'.toNat (right ++ lastPiece quad))) stop

theorem forall_mem_group {w : U16String} {left : List U16String} (hw : isGroup w)
    (hleft : ∀ v ∈ left, isGroup v) : ∀ v ∈ w :: left, isGroup v := by
  intro v hv
  rcases List.mem_cons.mp hv with rfl | hv
  · exact hw
  · exact hleft v hv

/-- A group does not start with a colon. -/
theorem isGroup.first {w rest : U16String} {pos : Nat} (hw : isGroup w)
    (h : Stands url pos (w ++ rest) stop) : charAt url pos ≠ ':'.toNat := by
  obtain ⟨c, w, rfl⟩ := List.exists_cons_of_ne_nil hw.2
  have hc := hw.1.1 c List.mem_cons_self
  obtain ⟨⟨rest', hrest⟩, -⟩ := h
  have hchar := charAt_drop url pos 0
  rw [← hrest, Nat.add_zero] at hchar
  have hchar : charAt url pos = c := hchar.symm
  intro hcolon
  rw [← hchar, hcolon] at hc
  exact hc (by decide)

/-- One group and a colon before what is read. -/
theorem ReadsPlain.cons {c pos next : Nat} {w : U16String} (hw : isGroup w)
    (hstands : Stands url pos w next) (hcolon : charAt url next = ':'.toNat)
    (h : ReadsPlain url (c + 1) (next + 1) stop) : ReadsPlain url c pos stop := by
  obtain ⟨left, quad, hne, hleft, hquad, hcount, hrest⟩ := h
  obtain rfl := hstands.2
  refine ⟨w :: left, quad, by simp, forall_mem_group hw hleft, hquad, ?_, ?_⟩
  · rw [List.length_cons]
    omega
  · rw [List.cons_append, joined_cons w (by simp [hne]), stands_append, stands_cons colon_ne_zero]
    exact ⟨hstands, hcolon, hrest⟩

theorem ReadsDouble.cons {c pos next : Nat} {w : U16String} (hw : isGroup w)
    (hstands : Stands url pos w next) (hcolon : charAt url next = ':'.toNat)
    (h : ReadsDouble url (c + 1) (next + 1) stop) : ReadsDouble url c pos stop := by
  obtain ⟨left, right, quad, hleft, hright, hquad, hfits, hrest⟩ := h
  obtain rfl := hstands.2
  refine ⟨w :: left, right, quad, forall_mem_group hw hleft, hright, hquad, ?_, ?_⟩
  · rwa [List.length_cons, Nat.add_comm left.length, ← Nat.add_assoc]
  · rw [leftText, stands_append, stands_cons colon_ne_zero]
    exact ⟨hstands, hcolon, hrest⟩

/-- One group of those that are read, and what is behind it. -/
theorem ReadsPlain.first {c pos : Nat} (hstop : charAt url stop = ']'.toNat)
    (h : ReadsPlain url c pos stop) :
    ∃ w next, isGroup w ∧ Stands url pos w next ∧ isHex (charAt url next) = false ∧
      ((c = 7 ∧ next = stop) ∨ (c < 7 ∧ charAt url next = ':'.toNat ∧
        ((c = 5 ∧ ∃ o, Quad o ∧ Stands url (next + 1) (quadText o) stop) ∨
          (parseIPv4Address url (next + 1) = none ∧ ReadsPlain url (c + 1) (next + 1) stop)))) := by
  obtain ⟨left, quad, hne, hleft, hquad, hcount, hstands⟩ := h
  obtain ⟨w, left, rfl⟩ := List.exists_cons_of_ne_nil hne
  have hw := hleft w List.mem_cons_self
  rw [List.length_cons] at hcount
  by_cases hlast : left ++ lastPiece quad = []
  · obtain ⟨rfl, hpiece⟩ := List.append_eq_nil_iff.mp hlast
    rw [List.singleton_append, hpiece, joined_singleton] at hstands
    rw [hpiece] at hcount
    exact ⟨w, stop, hw, hstands, by rw [hstop]; decide, .inl ⟨by simpa using hcount, rfl⟩⟩
  rw [List.cons_append, joined_cons w hlast, stands_append, stands_cons colon_ne_zero] at hstands
  obtain ⟨hfirst, hcolon, hrest⟩ := hstands
  refine ⟨w, _, hw, hfirst, by rw [hcolon]; decide, .inr ?_⟩
  cases left with
  | nil =>
    cases quad with
    | none => exact absurd rfl hlast
    | some octets =>
      have hfive : c = 5 := by simpa [lastPiece] using hcount
      refine ⟨by omega, hcolon, .inl ⟨hfive, octets, hquad octets rfl, ?_⟩⟩
      simpa [lastPiece] using hrest
  | cons v left =>
    have hv := hleft v (List.mem_cons_of_mem w List.mem_cons_self)
    rw [List.length_cons] at hcount
    refine ⟨by omega, hcolon, .inr ⟨parseIPv4Address_none_of_joined hv.1 hstop hrest, v :: left,
      quad, by simp, fun u hu => hleft u (List.mem_cons_of_mem w hu), hquad, ?_, hrest⟩⟩
    rw [List.length_cons]
    omega

theorem ReadsDouble.first {c pos : Nat} (hdouble : charAt url pos ≠ ':'.toNat)
    (h : ReadsDouble url c pos stop) :
    ∃ w next, isGroup w ∧ Stands url pos w next ∧ c < 6 ∧ charAt url next = ':'.toNat ∧
      parseIPv4Address url (next + 1) = none ∧ ReadsDouble url (c + 1) (next + 1) stop := by
  obtain ⟨left, right, quad, hleft, hright, hquad, hfits, hstands⟩ := h
  cases left with
  | nil => exact absurd ((stands_cons colon_ne_zero).mp hstands).1 hdouble
  | cons w left =>
    rw [leftText, stands_append, stands_cons colon_ne_zero] at hstands
    obtain ⟨hfirst, hcolon, hrest⟩ := hstands
    rw [List.length_cons] at hfits
    have hsix : c < 6 := by
      by_cases hq : quad = none
      · have := hfits.1 hq
        omega
      · have := hfits.2 hq
        omega
    have haddress : parseIPv4Address url (pos + w.length + 1) = none := by
      cases left with
      | nil =>
        have hcolon' := ((stands_cons colon_ne_zero).mp hrest).1
        exact parseIPv4Address_none (w := []) ⟨nofun, by decide⟩ (stands_nil.mpr rfl) (.inl hcolon')
      | cons v left =>
        have hv := hleft v (List.mem_cons_of_mem w List.mem_cons_self)
        rw [leftText, stands_append, stands_cons colon_ne_zero] at hrest
        exact parseIPv4Address_none hv.1 hrest.1 (.inl hrest.2.1)
    refine ⟨w, _, hleft w List.mem_cons_self, hfirst, hsix, hcolon, haddress, left, right, quad,
      fun u hu => hleft u (List.mem_cons_of_mem w hu), hright, hquad, ?_, hrest⟩
    rwa [Nat.add_assoc, Nat.add_comm 1]

/-- A turn without `"::"` reads the first group and goes on as `next` says. -/
theorem completes_of_group (hstop : charAt url stop = ']'.toNat) {turns c colon pos : Nat}
    (hc : c ≤ 7) (hfree : (decide (c ≤ 6) && startsAt url colon "::") = false)
    (hdouble : charAt url pos ≠ ':'.toNat)
    (hnext : ∀ next, c < 7 → charAt url next = ':'.toNat →
      (Completes url turns (c + 1) false next (next + 1) stop ↔
        ReadsPlain url (c + 1) (next + 1) stop ∨ ReadsDouble url (c + 1) (next + 1) stop)) :
    Completes url (turns + 1) c false colon pos stop ↔
      ReadsPlain url c pos stop ∨ ReadsDouble url c pos stop := by
  rw [completes_group hstop hc hfree]
  constructor
  · rintro ⟨w, next, hw, hne, hstands, hend, ⟨rfl, rfl⟩ | ⟨hseven, hcolon, hrest⟩⟩
    · exact .inl ⟨[w], none, by simp, fun v hv => by rw [List.mem_singleton.mp hv]; exact ⟨hw, hne⟩,
        nofun, rfl, by simpa [lastPiece] using hstands⟩
    rcases hrest with ⟨rfl, octets, hquad, hquads⟩ | ⟨-, hmore⟩
    · refine .inl ⟨[w], some octets, by simp,
        fun v hv => by rw [List.mem_singleton.mp hv]; exact ⟨hw, hne⟩,
        fun o ho => Option.some.inj ho ▸ hquad, rfl, ?_⟩
      obtain rfl := hstands.2
      rw [List.singleton_append, joined_cons w (by simp [lastPiece]), stands_append,
        stands_cons colon_ne_zero]
      exact ⟨hstands, hcolon, by simpa [lastPiece] using hquads⟩
    · rcases (hnext next hseven hcolon).mp hmore with h | h
      · exact .inl (h.cons ⟨hw, hne⟩ hstands hcolon)
      · exact .inr (h.cons ⟨hw, hne⟩ hstands hcolon)
  · rintro (h | h)
    · obtain ⟨w, next, hw, hstands, hend, hrest⟩ := h.first hstop
      refine ⟨w, next, hw.1, hw.2, hstands, hend, hrest.imp_right ?_⟩
      rintro ⟨hseven, hcolon, hrest⟩
      refine ⟨hseven, hcolon, hrest.imp_right ?_⟩
      rintro ⟨hnone, hmore⟩
      exact ⟨fun _ => hnone, (hnext next hseven hcolon).mpr (.inl hmore)⟩
    · obtain ⟨w, next, hw, hstands, hsix, hcolon, hnone, hmore⟩ := h.first hdouble
      exact ⟨w, next, hw.1, hw.2, hstands, by rw [hcolon]; decide, .inr ⟨by omega, hcolon,
        .inr ⟨fun _ => hnone, (hnext next (by omega) hcolon).mpr (.inr hmore)⟩⟩⟩

/-- `"::"` stands where two colons do. -/
theorem startsAt_colons {colon : Nat} (hcolon : charAt url colon = ':'.toNat) :
    startsAt url colon "::" = true ↔ charAt url (colon + 1) = ':'.toNat := by
  constructor
  · intro h
    obtain ⟨-, hlit⟩ := startsAt_two rfl h
    have hpair : literal "::" = [':'.toNat, ':'.toNat] := rfl
    rw [hpair] at hlit
    simp only [List.cons.injEq, and_true] at hlit
    exact hlit.2.symm
  · intro h
    have hdrop : url.drop colon = ':'.toNat :: ':'.toNat :: url.drop (colon + 1 + 1) := by
      rw [head?_drop_of_charAt hcolon colon_ne_zero, head?_drop_of_charAt h colon_ne_zero]
    rw [startsAt, hdrop]
    rfl

/-- What the loop reads behind a colon, before there was `"::"`. -/
theorem completes_left (hstop : charAt url stop = ']'.toNat) (turns : Nat) :
    ∀ c colon, c ≤ 7 → 8 ≤ c + turns → charAt url colon = ':'.toNat →
      (Completes url turns c false colon (colon + 1) stop ↔
        ReadsPlain url c (colon + 1) stop ∨ ReadsDouble url c (colon + 1) stop) := by
  induction turns with
  | zero =>
    intro c colon hc hturns
    omega
  | succ turns ih =>
    intro c colon hc hturns hcolon
    by_cases hsecond : charAt url (colon + 1) = ':'.toNat
    · have hstarts := (startsAt_colons hcolon).mpr hsecond
      have hplain : ¬ ReadsPlain url c (colon + 1) stop := by
        rintro ⟨left, quad, hne, hleft, -, -, hstands⟩
        obtain ⟨w, left, rfl⟩ := List.exists_cons_of_ne_nil hne
        have hw := hleft w List.mem_cons_self
        by_cases hlast : left ++ lastPiece quad = []
        · rw [List.cons_append, hlast, joined_singleton, ← List.append_nil w] at hstands
          exact hw.first hstands hsecond
        · rw [List.cons_append, joined_cons w hlast] at hstands
          exact hw.first hstands hsecond
      by_cases hsix : c ≤ 6
      · rw [completes_double hstop hsix hturns hstarts]
        constructor
        · rintro ⟨right, quad, hright, hquad, hfits, hstands⟩
          exact .inr ⟨[], right, quad, nofun, hright, hquad, hfits,
            (stands_cons colon_ne_zero).mpr ⟨hsecond, hstands⟩⟩
        · rintro (h | ⟨left, right, quad, hleft, hright, hquad, hfits, hstands⟩)
          · exact absurd h hplain
          · cases left with
            | nil => exact ⟨right, quad, hright, hquad, hfits,
                ((stands_cons colon_ne_zero).mp hstands).2⟩
            | cons w left => exact absurd hsecond ((hleft w List.mem_cons_self).first hstands)
      · -- At the eighth group a second colon ends the address.
        rw [completes_group hstop hc (by simp [hsix])]
        constructor
        · rintro ⟨w, next, hw, hne, hstands, -, -⟩
          rw [← List.append_nil w] at hstands
          exact absurd hsecond (isGroup.first ⟨hw, hne⟩ hstands)
        · rintro (h | ⟨left, right, quad, -, -, -, hfits, -⟩)
          · exact absurd h hplain
          · exfalso
            by_cases hq : quad = none
            · have := hfits.1 hq
              omega
            · have := hfits.2 hq
              omega
    · have hnot : startsAt url colon "::" = false :=
        Bool.eq_false_iff.mpr fun h => hsecond ((startsAt_colons hcolon).mp h)
      exact completes_of_group hstop hc (by rw [hnot, Bool.and_false]) hsecond
        fun next hseven hcolon => ih (c + 1) next (by omega) (by omega) hcolon

/-! ## Whole addresses -/

theorem taken_plain {left : List U16String} {quad : Option (List U16String)} :
    Taken ⟨left, none, quad⟩ ↔ (∀ w ∈ left, isGroup w) ∧ (∀ o, quad = some o → Quad o) ∧
      left.length + 2 * (lastPiece quad).length = 8 := by
  have hwritten : written ⟨left, none, quad⟩ = left.length + 2 * (lastPiece quad).length := by
    rw [written, Address.groups, behind, Option.getD_none, List.append_nil]
    rfl
  constructor
  · intro h
    refine ⟨fun w hw => ⟨h.groups w (List.mem_append_left _ hw), h.left w hw⟩, h.quad, ?_⟩
    rw [← hwritten]
    exact h.eight rfl
  · rintro ⟨hleft, hquad, hcount⟩
    refine ⟨fun w hw => ?_, fun w hw => (hleft w hw).2, hquad, fun _ => by rw [hwritten, hcount],
      fun hne => absurd rfl hne, fun hne => absurd rfl hne, fun _ => nofun⟩
    rw [Address.groups, behind, Option.getD_none, List.append_nil] at hw
    exact (hleft w hw).1

theorem taken_double {left right : List U16String} {quad : Option (List U16String)} :
    Taken ⟨left, some right, quad⟩ ↔ (∀ w ∈ left, isGroup w) ∧ (∀ w ∈ right, isRun w) ∧
      (∀ o, quad = some o → Quad o) ∧ Fits left.length right quad ∧
      (quad = none → right ≠ [[]]) := by
  have hlength : (Address.groups ⟨left, some right, quad⟩).length = left.length + right.length := by
    rw [Address.groups, List.length_append]
    rfl
  constructor
  · intro h
    refine ⟨fun w hw => ⟨h.groups w (List.mem_append_left _ hw), h.left w hw⟩,
      fun w hw => h.groups w (List.mem_append_right _ hw), h.quad, ⟨fun hq => ?_, fun hq => ?_⟩,
      fun hq hr => h.plain hq (congrArg some hr)⟩
    · rw [← hlength]
      exact h.six nofun hq
    · rw [← hlength]
      exact h.four nofun hq
  · rintro ⟨hleft, hright, hquad, hfits, hplain⟩
    refine ⟨fun w hw => ?_, fun w hw => (hleft w hw).2, hquad, nofun, fun _ hq => ?_,
      fun _ hq => ?_, fun hq hr => hplain hq (Option.some.inj hr)⟩
    · rcases List.mem_append.mp hw with hw | hw
      · exact (hleft w hw).1
      · exact hright w hw
    · rw [hlength]
      exact hfits.1 hq
    · rw [hlength]
      exact hfits.2 hq

/-- The addresses that stand somewhere, with `"::"` or without. -/
theorem exists_taken {pos : Nat} :
    (∃ a, Taken a ∧ Stands url pos a.text stop) ↔
      ReadsPlain url 0 pos stop ∨
        ∃ left right quad, (∀ w ∈ left, isGroup w) ∧ (∀ w ∈ right, isRun w) ∧
          (∀ o, quad = some o → Quad o) ∧ Fits left.length right quad ∧
          Stands url pos (joined ':'.toNat left ++ literal "::" ++
            joined ':'.toNat (right ++ lastPiece quad)) stop := by
  constructor
  · rintro ⟨⟨left, right, quad⟩, h, hstands⟩
    cases right with
    | none =>
      obtain ⟨hleft, hquad, hcount⟩ := taken_plain.mp h
      refine .inl ⟨left, quad, ?_, hleft, hquad, by rwa [Nat.zero_add], hstands⟩
      rintro rfl
      cases quad <;> simp [lastPiece] at hcount
    | some right =>
      obtain ⟨hleft, hright, hquad, hfits, -⟩ := taken_double.mp h
      exact .inr ⟨left, right, quad, hleft, hright, hquad, hfits, hstands⟩
  · rintro (⟨left, quad, -, hleft, hquad, hcount, hstands⟩ |
      ⟨left, right, quad, hleft, hright, hquad, hfits, hstands⟩)
    · rw [Nat.zero_add] at hcount
      exact ⟨⟨left, none, quad⟩, taken_plain.mpr ⟨hleft, hquad, hcount⟩, hstands⟩
    · by_cases hplain : quad = none ∧ right = [[]]
      · obtain ⟨rfl, rfl⟩ := hplain
        refine ⟨⟨left, some [], none⟩, taken_double.mpr ⟨hleft, by simp, by simp,
          ⟨fun _ => ?_, fun hne => absurd rfl hne⟩, fun _ => by simp⟩, hstands⟩
        exact Nat.le_of_succ_le (hfits.1 rfl)
      · exact ⟨⟨left, some right, quad⟩, taken_double.mpr ⟨hleft, hright, hquad, hfits,
          fun hq hr => hplain ⟨hq, hr⟩⟩, hstands⟩

/-- What `parseIPv6Address` reads up to a closing bracket. -/
theorem parseIPv6Address_iff (hstop : charAt url stop = ']'.toNat) {pos : Nat} :
    parseIPv6Address url pos = some stop ↔ ∃ a, Taken a ∧ Stands url pos a.text stop := by
  have hcompletes : parseIPv6Address url pos = some stop ↔
      Completes url 9 0 false pos pos stop := by
    unfold parseIPv6Address Completes
    cases parseIPv6Loop url 9 0 false pos pos with
    | none => simp
    | some found =>
      obtain ⟨count, double, next⟩ := found
      simp only [Bool.or_eq_true, Bool.and_eq_true, decide_eq_true_eq, Option.some.injEq,
        Prod.mk.injEq]
      constructor
      · intro h
        split at h
        · rename_i hcount
          refine ⟨count, double, ⟨rfl, rfl, Option.some.inj h⟩, ?_⟩
          simpa [and_assoc] using hcount
        · cases h
      · rintro ⟨_, _, ⟨rfl, rfl, rfl⟩, hcount⟩
        rw [if_pos (by simpa [and_assoc] using hcount)]
  rw [hcompletes, exists_taken]
  by_cases hstarts : startsAt url pos "::" = true
  · obtain ⟨-, hlit⟩ := startsAt_two rfl hstarts
    have hpair : literal "::" = [':'.toNat, ':'.toNat] := rfl
    rw [hpair] at hlit
    simp only [List.cons.injEq, and_true] at hlit
    have hfirst {w rest : U16String} (hw : isGroup w) : ¬ Stands url pos (w ++ rest) stop :=
      fun h => hw.first h hlit.1.symm
    rw [completes_double hstop (Nat.zero_le 6) (by decide) hstarts]
    constructor
    · rintro ⟨right, quad, hright, hquad, hfits, hstands⟩
      refine .inr ⟨[], right, quad, nofun, hright, hquad, hfits, ?_⟩
      exact (stands_cons colon_ne_zero).mpr ⟨hlit.1.symm,
        (stands_cons colon_ne_zero).mpr ⟨hlit.2.symm, hstands⟩⟩
    · rintro (h | ⟨left, right, quad, hleft, hright, hquad, hfits, hstands⟩)
      · obtain ⟨w, next, hw, hstands, -, -⟩ := h.first hstop
        rw [← List.append_nil w] at hstands
        exact absurd hlit.1.symm (hw.first hstands)
      · cases left with
        | nil => exact ⟨right, quad, hright, hquad, hfits,
            ((stands_cons colon_ne_zero).mp ((stands_cons colon_ne_zero).mp hstands).2).2⟩
        | cons w left =>
          rw [← leftText_eq left _ w] at hstands
          exact absurd hstands (hfirst (hleft w List.mem_cons_self))
  · have hfree : (decide (0 ≤ 6) && startsAt url pos "::") = false := by
      rw [Bool.eq_false_iff.mpr hstarts, Bool.and_false]
    have hnil {rest : U16String} : ¬ Stands url pos (literal "::" ++ rest) stop := by
      intro h
      obtain ⟨hone, hrest⟩ := (stands_cons colon_ne_zero).mp h
      exact hstarts ((startsAt_colons hone).mpr ((stands_cons colon_ne_zero).mp hrest).1)
    by_cases hcolon : charAt url pos = ':'.toNat
    · -- Neither a group nor `"::"` starts here.
      have hplain : ¬ ReadsPlain url 0 pos stop := by
        intro h
        obtain ⟨w, next, hw, hstands, -, -⟩ := h.first hstop
        rw [← List.append_nil w] at hstands
        exact hw.first hstands hcolon
      rw [completes_group hstop (Nat.zero_le 7) hfree]
      constructor
      · rintro ⟨w, next, hw, hne, hstands, -, -⟩
        rw [← List.append_nil w] at hstands
        exact absurd hcolon (isGroup.first ⟨hw, hne⟩ hstands)
      · rintro (h | ⟨left, right, quad, hleft, -, -, -, hstands⟩)
        · exact absurd h hplain
        · cases left with
          | nil => exact absurd hstands hnil
          | cons w left =>
            rw [← leftText_eq left _ w] at hstands
            exact absurd hcolon ((hleft w List.mem_cons_self).first hstands)
    · rw [completes_of_group hstop (Nat.zero_le 7) hfree hcolon
        fun next _ hc => completes_left hstop 8 1 next (by decide) (by decide) hc]
      refine or_congr_right ⟨?_, ?_⟩
      · rintro ⟨left, right, quad, hleft, hright, hquad, hfits, hstands⟩
        rw [Nat.zero_add] at hfits
        cases left with
        | nil => exact absurd ((stands_cons colon_ne_zero).mp hstands).1 hcolon
        | cons w left =>
          rw [leftText_eq] at hstands
          exact ⟨w :: left, right, quad, hleft, hright, hquad, hfits, hstands⟩
      · rintro ⟨left, right, quad, hleft, hright, hquad, hfits, hstands⟩
        rw [← Nat.zero_add left.length] at hfits
        cases left with
        | nil => exact absurd hstands hnil
        | cons w left =>
          rw [← leftText_eq] at hstands
          exact ⟨w :: left, right, quad, hleft, hright, hquad, hfits, hstands⟩

theorem parseIPLiteral_iff {pos next : Nat} :
    parseIPLiteral url pos = some next ↔ ∃ a, Taken a ∧ Stands url pos a.bracketed next := by
  unfold parseIPLiteral bracketed
  constructor
  · intro h
    split at h
    · cases h
    rename_i hopen
    split at h
    · cases h
    split at h
    · cases h
    rename_i stop haddress
    split at h
    · cases h
    split at h
    · cases h
    rename_i hclose
    obtain rfl := Option.some.inj h
    have hclose := Decidable.not_not.mp hclose
    obtain ⟨a, ha, hstands⟩ := (parseIPv6Address_iff hclose).mp haddress
    obtain rfl := hstands.2
    refine ⟨a, ha, ?_⟩
    rw [List.cons_append, stands_cons (by decide), stands_append, stands_singleton (by decide)]
    exact ⟨Decidable.not_not.mp hopen, hstands, hclose⟩
  · rintro ⟨a, ha, hstands⟩
    rw [List.cons_append, stands_cons (by decide), stands_append] at hstands
    obtain ⟨hopen, htext, hend⟩ := hstands
    obtain rfl := hend.2
    rw [List.length_singleton, stands_singleton (by decide)] at hend
    have hlt := lt_of_charAt hend (by decide)
    have haddress := (parseIPv6Address_iff hend).mpr ⟨a, ha, htext⟩
    rw [if_neg (fun hne => hne hopen), if_neg (by omega), haddress]
    dsimp only
    rw [if_neg (Nat.not_le.mpr hlt), if_neg (fun hne => hne hend)]
    rfl

end EsOs.Escort
