import EsOs.Escort.Proofs.Literal

/-!
# IP literals against their grammar

The text of an address determines its parts, so an address that the loop takes is the one that the
grammar derives. What is left are the addresses that only one of the two knows.
-/

namespace EsOs.Escort

open Digits Address

/-! ## The text of octets -/

theorem dot_not_digit {w : U16String} (hw : ∀ c ∈ w, isDigit c = true) : '.'.toNat ∉ w :=
  fun h => absurd (hw _ h) (by decide)

theorem colon_not_digit {w : U16String} (hw : ∀ c ∈ w, isDigit c = true) : ':'.toNat ∉ w :=
  fun h => absurd (hw _ h) (by decide)

theorem Quad.ne_nil {octets : List U16String} (h : Quad octets) : octets ≠ [] := by
  rintro rfl
  cases h.four

theorem Quad.colon {octets : List U16String} (h : Quad octets) : ':'.toNat ∉ quadText octets :=
  fun hc => (mem_joined hc).elim (by decide)
    fun hmem => hmem.elim fun w hw => colon_not_digit (h.octets w hw.1).digits hw.2

theorem Quad.dot {octets : List U16String} (h : Quad octets) : '.'.toNat ∈ quadText octets := by
  have hfour := h.four
  rcases octets with _ | ⟨v, _ | ⟨w, octets⟩⟩
  · cases hfour
  · cases hfour
  · rw [quadText, joined_cons v (by simp)]
    exact List.mem_append_right _ List.mem_cons_self

theorem Quad.inj {octets octets' : List U16String} (h : Quad octets) (h' : Quad octets')
    (heq : quadText octets = quadText octets') : octets = octets' :=
  joined_inj (fun w hw => dot_not_digit (h.octets w hw).digits)
    (fun w hw => dot_not_digit (h'.octets w hw).digits) h.ne_nil h'.ne_nil heq

/-! ## The text of an address -/

namespace Address

/-- Groups of digits, and what tells the parts apart. -/
structure Spaced (a : Address) : Prop where
  groups : ∀ w ∈ a.groups, ∀ c ∈ w, isHexDigit c ≠ 0
  left : ∀ w ∈ a.left, w ≠ []
  quad : ∀ o, a.quad = some o → Quad o
  plain : a.quad = none → a.right ≠ some [[]]
  piece : a.right = none → a.left ++ lastPiece a.quad ≠ []

/-- A list of pieces, with an empty one where there is none. -/
def padded (pieces : List U16String) : List U16String :=
  if pieces = [] then [[]] else pieces

theorem padded_ne_nil (pieces : List U16String) : padded pieces ≠ [] := by
  unfold padded
  split
  · simp
  · assumption

theorem joined_padded (sep : Nat) (pieces : List U16String) :
    joined sep (padded pieces) = joined sep pieces := by
  unfold padded
  split
  · rename_i hnil
    rw [hnil]
    rfl
  · rfl

theorem mem_padded {pieces : List U16String} {w : U16String} (h : w ∈ padded pieces) :
    w = [] ∨ w ∈ pieces := by
  unfold padded at h
  split at h
  · exact .inl (List.mem_singleton.mp h)
  · exact .inr h

/-- The pieces between the colons of the text. -/
def pieces (a : Address) : List U16String :=
  match a.right with
  | none => a.left ++ lastPiece a.quad
  | some right => padded a.left ++ [] :: padded (right ++ lastPiece a.quad)

theorem text_eq (a : Address) : a.text = joined ':'.toNat a.pieces := by
  obtain ⟨left, right, quad⟩ := a
  cases right with
  | none => rfl
  | some right =>
    rw [pieces, joined_append (padded_ne_nil _) (by simp), joined_cons [] (padded_ne_nil _),
      joined_padded, joined_padded, text]
    simp only [List.append_assoc]
    rfl

theorem mem_last {quad : Option (List U16String)} {w : U16String} (h : w ∈ lastPiece quad) :
    ∃ octets, quad = some octets ∧ w = quadText octets := by
  cases quad with
  | none => cases h
  | some octets => exact ⟨octets, rfl, List.mem_singleton.mp h⟩

variable {a b : Address}

/-- A piece that is not empty is a group or the last piece. -/
theorem mem_pieces {w : U16String} (h : w ∈ a.pieces) :
    w = [] ∨ w ∈ a.groups ∨ w ∈ lastPiece a.quad := by
  obtain ⟨left, right, quad⟩ := a
  cases right with
  | none =>
    refine .inr ((List.mem_append.mp h).imp_left fun hw => ?_)
    exact List.mem_append_left _ hw
  | some right =>
    rw [pieces, List.mem_append, List.mem_cons] at h
    rcases h with h | h | h
    · exact (mem_padded h).imp_right fun hw => .inl (List.mem_append_left _ hw)
    · exact .inl h
    · refine (mem_padded h).imp_right fun hw => (List.mem_append.mp hw).imp_left fun hw => ?_
      exact List.mem_append_right _ hw

theorem Spaced.colon (ha : a.Spaced) {w : U16String} (h : w ∈ a.pieces) : ':'.toNat ∉ w := by
  rcases mem_pieces h with rfl | hw | hw
  · exact List.not_mem_nil
  · exact fun hc => ha.groups w hw _ hc (by decide)
  · obtain ⟨octets, hquad, rfl⟩ := mem_last hw
    exact (ha.quad octets hquad).colon

theorem Spaced.pieces_ne_nil (ha : a.Spaced) : a.pieces ≠ [] := by
  obtain ⟨left, right, quad⟩ := a
  cases right with
  | none => exact ha.piece rfl
  | some right => exact List.append_ne_nil_of_left_ne_nil (padded_ne_nil _) _

/-- Groups with an IPv4 address behind them or none. -/
theorem last_inj {front front' : List U16String} {quad quad' : Option (List U16String)}
    (hfront : ∀ w ∈ front, ∀ c ∈ w, isHexDigit c ≠ 0)
    (hfront' : ∀ w ∈ front', ∀ c ∈ w, isHexDigit c ≠ 0)
    (hquad : ∀ o, quad = some o → Quad o) (hquad' : ∀ o, quad' = some o → Quad o)
    (h : front ++ lastPiece quad = front' ++ lastPiece quad') : front = front' ∧ quad = quad' := by
  have hdigit {pieces : List U16String} (hpieces : ∀ w ∈ pieces, ∀ c ∈ w, isHexDigit c ≠ 0)
      {octets : List U16String} (ho : Quad octets) : quadText octets ∉ pieces :=
    fun hmem => hpieces _ hmem _ ho.dot (by decide)
  cases quad with
  | none =>
    cases quad' with
    | none => exact ⟨by simpa [lastPiece] using h, rfl⟩
    | some octets =>
      have hmem : quadText octets ∈ front ++ lastPiece none := by
        rw [h]
        exact List.mem_append_right _ List.mem_cons_self
      rw [lastPiece, Option.map_none, Option.toList_none, List.append_nil] at hmem
      exact absurd hmem (hdigit hfront (hquad' octets rfl))
  | some octets =>
    cases quad' with
    | none =>
      have hmem : quadText octets ∈ front' ++ lastPiece none := by
        rw [← h]
        exact List.mem_append_right _ List.mem_cons_self
      rw [lastPiece, Option.map_none, Option.toList_none, List.append_nil] at hmem
      exact absurd hmem (hdigit hfront' (hquad octets rfl))
    | some octets' =>
      obtain ⟨rfl, hlast⟩ := List.append_inj' h rfl
      have htext : quadText octets = quadText octets' := List.singleton_inj.mp hlast
      exact ⟨rfl, congrArg some ((hquad octets rfl).inj (hquad' octets' rfl) htext)⟩

/-- Only `"::"` makes an empty piece in front of the last one. -/
theorem Spaced.nil_not_mem (ha : a.Spaced) {octets : Option (List U16String)}
    (hquad : ∀ o, octets = some o → Quad o) : [] ∉ a.left ++ lastPiece octets := by
  intro h
  rcases List.mem_append.mp h with h | h
  · exact ha.left [] h rfl
  · obtain ⟨o, ho, hnil⟩ := mem_last h
    have := (hquad o ho).dot
    rw [← hnil] at this
    cases this

/-- The first empty piece is where two lists of pieces part. -/
theorem parts_at_nil {front front' rest rest' : List U16String} (hfront : [] ∉ front)
    (hfront' : [] ∉ front') (h : front ++ [] :: rest = front' ++ [] :: rest') :
    front = front' ∧ rest = rest' := by
  induction front generalizing front' with
  | nil =>
    cases front' with
    | nil => exact ⟨rfl, (List.cons.inj h).2⟩
    | cons w front' =>
      rw [← (List.cons.inj h).1] at hfront'
      exact absurd List.mem_cons_self hfront'
  | cons w front ih =>
    cases front' with
    | nil =>
      rw [(List.cons.inj h).1] at hfront
      exact absurd List.mem_cons_self hfront
    | cons w' front' =>
      obtain ⟨rfl, htail⟩ := List.cons.inj h
      obtain ⟨rfl, hrest⟩ := ih (fun hw => hfront (List.mem_cons_of_mem w hw))
        (fun hw => hfront' (List.mem_cons_of_mem w hw)) htail
      exact ⟨rfl, hrest⟩

theorem padded_inj {pieces pieces' : List U16String} (h : pieces ≠ [[]]) (h' : pieces' ≠ [[]])
    (heq : padded pieces = padded pieces') : pieces = pieces' := by
  unfold padded at heq
  split at heq <;> split at heq
  · simp_all
  · exact absurd heq.symm h'
  · exact absurd heq h
  · exact heq

/-- The groups behind `"::"` are not a single empty piece. -/
theorem Spaced.right_ne (ha : a.Spaced) {right : List U16String} (hright : a.right = some right) :
    right ++ lastPiece a.quad ≠ [[]] := by
  intro h
  cases hquad : a.quad with
  | none =>
    rw [hquad, lastPiece, Option.map_none, Option.toList_none, List.append_nil] at h
    exact ha.plain hquad (by rw [hright, h])
  | some octets =>
    have hmem : quadText octets ∈ ([[]] : List U16String) := by
      rw [← h, hquad]
      exact List.mem_append_right _ List.mem_cons_self
    have := (ha.quad octets hquad).dot
    rw [List.mem_singleton.mp hmem] at this
    cases this

/-- The parts of an address follow from its text. -/
theorem Spaced.inj (ha : a.Spaced) (hb : b.Spaced) (h : a.text = b.text) : a = b := by
  rw [text_eq, text_eq] at h
  have hpieces := joined_inj (fun w hw => ha.colon hw) (fun w hw => hb.colon hw) ha.pieces_ne_nil
    hb.pieces_ne_nil h
  obtain ⟨left, right, quad⟩ := a
  obtain ⟨left', right', quad'⟩ := b
  have hleft : ∀ w ∈ left, ∀ c ∈ w, isHexDigit c ≠ 0 :=
    fun w hw => ha.groups w (List.mem_append_left _ hw)
  have hleft' : ∀ w ∈ left', ∀ c ∈ w, isHexDigit c ≠ 0 :=
    fun w hw => hb.groups w (List.mem_append_left _ hw)
  cases right with
  | none =>
    cases right' with
    | none =>
      obtain ⟨rfl, rfl⟩ := last_inj hleft hleft' ha.quad hb.quad hpieces
      rfl
    | some right' =>
      have hmem : [] ∈ left ++ lastPiece quad := by
        rw [show left ++ lastPiece quad = _ from hpieces]
        exact List.mem_append_right _ List.mem_cons_self
      exact absurd hmem (ha.nil_not_mem ha.quad)
  | some right =>
    cases right' with
    | none =>
      have hmem : [] ∈ left' ++ lastPiece quad' := by
        rw [show left' ++ lastPiece quad' = _ from hpieces.symm]
        exact List.mem_append_right _ List.mem_cons_self
      exact absurd hmem (hb.nil_not_mem hb.quad)
    | some right' =>
      have hnil : [] ∉ left := fun hmem => ha.left [] hmem rfl
      have hnil' : [] ∉ left' := fun hmem => hb.left [] hmem rfl
      -- `"::"` at the start is preceded by no group.
      have hparts : left = left' ∧
          padded (right ++ lastPiece quad) = padded (right' ++ lastPiece quad') := by
        simp only [pieces] at hpieces
        rcases left with _ | ⟨w, left⟩ <;> rcases left' with _ | ⟨w', left'⟩
        · exact ⟨rfl, (List.cons.inj (List.cons.inj hpieces).2).2⟩
        · rw [← (List.cons.inj hpieces).1] at hnil'
          exact absurd List.mem_cons_self hnil'
        · rw [(List.cons.inj hpieces).1] at hnil
          exact absurd List.mem_cons_self hnil
        · exact parts_at_nil hnil hnil' hpieces
      obtain ⟨rfl, hrest⟩ := hparts
      have hright := padded_inj (ha.right_ne rfl) (hb.right_ne rfl) hrest
      obtain ⟨rfl, rfl⟩ := last_inj (fun w hw => ha.groups w (List.mem_append_right _ hw))
        (fun w hw => hb.groups w (List.mem_append_right _ hw)) ha.quad hb.quad hright
      rfl

/-! ## The loop and the grammar -/

theorem Taken.spaced (h : a.Taken) : a.Spaced := by
  refine ⟨fun w hw => (h.groups w hw).1, h.left, h.quad, h.plain, fun hright hnil => ?_⟩
  obtain ⟨hleft, hlast⟩ := List.append_eq_nil_iff.mp hnil
  have height := h.eight hright
  rw [written, Address.groups, behind, hleft, hright,
    show a.last = [] from hlast] at height
  cases height

theorem Legal.spaced (h : a.Legal) : a.Spaced := by
  have hne : ∀ w ∈ a.groups, w ≠ [] := fun w hw hnil => by
    have := (h.groups w hw).1
    rw [hnil] at this
    cases this
  refine ⟨fun w hw => (h.groups w hw).2.2, fun w hw => hne w (List.mem_append_left _ hw), h.quad,
    fun _ hright => ?_, fun hright hnil => ?_⟩
  · refine hne [] (List.mem_append_right _ ?_) rfl
    rw [behind, hright]
    exact List.mem_cons_self
  · obtain ⟨hleft, hlast⟩ := List.append_eq_nil_iff.mp hnil
    have height := h.eight hright
    rw [written, Address.groups, behind, hleft, hright, show a.last = [] from hlast] at height
    cases height

/-- Four hexadecimal digits make no number that is too large. -/
theorem isHex4.isRun {w : U16String} (h : isHex4 w) : isRun w := by
  refine ⟨h.2.2, ?_⟩
  have hvalue : ∀ c ∈ w, c - isHexDigit c < 16 := by
    intro c hc
    have hne := h.2.2 c hc
    have h0 : '0'.toNat = 48 := rfl
    have h9 : '9'.toNat = 57 := rfl
    have hA : 'A'.toNat = 65 := rfl
    have hF : 'F'.toNat = 70 := rfl
    have ha : 'a'.toNat = 97 := rfl
    have hf : 'f'.toNat = 102 := rfl
    simp only [isHexDigit] at hne ⊢
    split <;> rename_i hdigit
    · omega
    rw [if_neg hdigit] at hne
    split <;> rename_i hupper
    · omega
    rw [if_neg hupper] at hne
    split <;> rename_i hlower
    · omega
    · rw [if_neg hlower] at hne
      exact absurd rfl hne
  have hlt := number_lt w 0 1 hvalue (Nat.zero_lt_one)
  have hpow : 16 ^ w.length ≤ 16 ^ 4 := Nat.pow_le_pow_right (by decide) h.2.1
  have hsum : 1 * 16 ^ w.length ≤ 65536 := by
    rw [Nat.one_mul]
    exact hpow
  exact Nat.le_of_lt_succ (Nat.lt_of_lt_of_le hlt hsum)

/-- The length of the last piece, as a count. -/
theorem last_length : a.last.length = if a.quad = none then 0 else 1 := by
  unfold last
  cases a.quad <;> rfl

theorem Taken.legal (h : a.Taken) (hwell : ¬ a.Malformed) : a.Legal := by
  have hgroup : ∀ w ∈ a.groups, w ≠ [] ∧ w.length ≤ 4 := fun w hw =>
    ⟨fun hnil => hwell (.inl ⟨w, hw, .inl hnil⟩),
      Nat.le_of_not_lt fun hlong => hwell (.inl ⟨w, hw, .inr hlong⟩)⟩
  refine ⟨fun w hw => ⟨List.length_pos_iff.mpr (hgroup w hw).1, (hgroup w hw).2,
    (h.groups w hw).1⟩, h.quad, fun w hw => Nat.le_of_not_lt fun hlong => ?_, h.eight,
    fun hright => ?_⟩
  · exact hwell (.inr ⟨w, hw, hlong⟩)
  · rw [written, last_length]
    by_cases hquad : a.quad = none
    · have := h.six hright hquad
      rw [if_pos hquad]
      omega
    · have := h.four hright hquad
      rw [if_neg hquad]
      omega

theorem Legal.taken (h : a.Legal) (hsupported : ¬ a.Unsupported) : a.Taken := by
  have hspaced := h.spaced
  refine ⟨fun w hw => (h.groups w hw).isRun, hspaced.left, h.quad, h.eight, fun hright hquad => ?_,
    fun hright hquad => ?_, hspaced.plain⟩
  · have hfewer := h.fewer hright
    have hseven : a.groups.length ≠ 7 := fun hseven => hsupported ⟨hright, .inl ⟨hquad, hseven⟩⟩
    rw [written, last_length, if_pos hquad] at hfewer
    omega
  · have hfewer := h.fewer hright
    rw [written, last_length, if_neg hquad] at hfewer
    have hbehind : a.behind ≠ [] := fun hnil => hsupported ⟨hright, .inr ⟨hquad, .inl hnil⟩⟩
    have hthree : a.groups.length ≠ 3 :=
      fun hthree => hsupported ⟨hright, .inr ⟨hquad, .inr (.inl hthree)⟩⟩
    have hfive : a.groups.length ≠ 5 :=
      fun hfive => hsupported ⟨hright, .inr ⟨hquad, .inr (.inr hfive)⟩⟩
    exact ⟨hbehind, by omega, hthree⟩

theorem Legal.not_malformed (h : a.Legal) : ¬ a.Malformed := by
  rintro (⟨w, hw, rfl | hlong⟩ | ⟨w, hw, hlong⟩)
  · cases (h.groups [] hw).1
  · exact Nat.not_lt.mpr (h.groups w hw).2.1 hlong
  · exact Nat.not_lt.mpr (h.short w hw) hlong

theorem Taken.not_unsupported (h : a.Taken) : ¬ a.Unsupported := by
  rintro ⟨hright, ⟨hquad, hseven⟩ | ⟨hquad, hnil | hthree | hfive⟩⟩
  · have := h.six hright hquad
    omega
  · exact (h.four hright hquad).1 hnil
  · exact (h.four hright hquad).2.2 hthree
  · have := (h.four hright hquad).2.1
    omega

theorem bracketed_inj (h : a.bracketed = b.bracketed) : a.text = b.text := by
  have htail := (List.cons.inj h).2
  exact List.append_cancel_right htail

end Address

/-! ## What the parser takes -/

theorem readsQuads_iff (url : U16String) (pos : Nat) :
    readsQuads url pos ↔ ¬ cutQuad (url.drop pos) := by
  constructor
  · intro h hcut
    obtain ⟨octets, hquad, hstands, -⟩ :=
      (h url.length).mp (parseIPv4Address_iff.mpr (.inr ⟨hcut, rfl⟩))
    obtain ⟨front, hthree, hfront, hrest⟩ := hcut
    have htext : quadText octets = quadText (front ++ [[]]) := by
      rw [← hrest]
      refine hstands.1.eq_of_length ?_
      have := hstands.2
      have := hstands.le
      rw [List.length_drop]
      omega
    have hsplit := joined_inj (fun w hw => dot_not_digit (hquad.octets w hw).digits)
      (fun w hw => ?_) hquad.ne_nil (by simp) htext
    · rw [hsplit] at hquad
      exact (hquad.octets [] (List.mem_append_right _ List.mem_cons_self)).nonempty rfl
    · rcases List.mem_append.mp hw with hw | hw
      · exact dot_not_digit (hfront w hw).digits
      · rw [List.mem_singleton.mp hw]
        exact List.not_mem_nil
  · intro h next
    rw [parseIPv4Address_iff, or_iff_left fun hcut => h hcut.1]

theorem readsLiterals_iff (url : U16String) (pos : Nat) :
    readsLiterals url pos ↔ ¬ mistakenLiteral (url.drop pos) := by
  constructor
  · rintro h ⟨a, ⟨htaken, hbad⟩ | ⟨hlegal, hbad⟩, hrest⟩
    · obtain ⟨b, hb, hstands⟩ := (h _).mp (parseIPLiteral_iff.mpr ⟨a, htaken, hrest, rfl⟩)
      have htext := bracketed_inj (Stands.eq ⟨hrest, rfl⟩ hstands)
      rw [htaken.spaced.inj hb.spaced htext] at hbad
      exact hb.not_malformed hbad
    · obtain ⟨b, hb, hstands⟩ := parseIPLiteral_iff.mp ((h _).mpr ⟨a, hlegal, hrest, rfl⟩)
      have htext := bracketed_inj (Stands.eq ⟨hrest, rfl⟩ hstands)
      rw [hlegal.spaced.inj hb.spaced htext] at hbad
      exact hb.not_unsupported hbad
  · intro h next
    rw [parseIPLiteral_iff]
    constructor
    · rintro ⟨a, htaken, hstands⟩
      exact ⟨a, htaken.legal fun hbad => h ⟨a, .inl ⟨htaken, hbad⟩, hstands.1⟩, hstands⟩
    · rintro ⟨a, hlegal, hstands⟩
      exact ⟨a, hlegal.taken fun hbad => h ⟨a, .inr ⟨hlegal, hbad⟩, hstands.1⟩, hstands⟩

/-- At a position the parser takes the dotted quads and the IPv6 addresses of the grammar, unless the
    string ends behind the third dot of a quad or a mistaken address in brackets stands there. -/
theorem readsAddresses_iff (url : U16String) (pos : Nat) :
    (readsQuads url pos ∧ readsLiterals url pos) ↔
      ¬ cutQuad (url.drop pos) ∧ ¬ mistakenLiteral (url.drop pos) := by
  rw [readsQuads_iff, readsLiterals_iff]

/-- `[1:2:3:4:5:6:7::]` is refused. -/
theorem not_readsAddresses_sevenGroups :
    ¬ (readsQuads (literal "[1:2:3:4:5:6:7::]") 0 ∧
      readsLiterals (literal "[1:2:3:4:5:6:7::]") 0) := by
  rintro ⟨-, h⟩
  have hlegal : Legal ⟨[literal "1", literal "2", literal "3", literal "4", literal "5",
      literal "6", literal "7"], some [], none⟩ := by
    refine ⟨?_, nofun, nofun, nofun, fun _ => by decide⟩
    intro w hw
    unfold isHex4
    revert w
    decide
  have haccepted := (h 17).mpr ⟨_, hlegal, by decide, by decide⟩
  revert haccepted
  decide

end EsOs.Escort
