import EsOs.Escort.Proofs.Encoded

/-!
# The host at the start of a text

What `URL::parseHost` takes of a well-encoded text: an IP literal, else a dotted quad, else the
longest name; and up to the case of letters it leaves the string as it is.
-/

namespace EsOs.Escort

open Digits Address Url
open Uri (isAuthorityText)

/-- Neither an IP literal nor a dotted quad starts the text. -/
def startsName (rest : U16String) : Prop :=
  (∀ a behind, Taken a → rest ≠ a.bracketed ++ behind) ∧
    ∀ octets behind, Quad octets → (∀ c, behind.head? = some c → isDigit c = false) →
      rest ≠ quadText octets ++ behind

/-- The host at the start of a text, and what stands behind it. -/
inductive StartsHost : U16String → U16String → Prop where
  | literal {a : Address} (behind : U16String) : Taken a → StartsHost (a.bracketed ++ behind) behind
  | quad {octets : List U16String} (behind : U16String) : Quad octets →
      (∀ c, behind.head? = some c → isDigit c = false) →
      StartsHost (quadText octets ++ behind) behind
  | name {rest : U16String} : startsName rest → rest.takeWhile isNameText ≠ [] →
      StartsHost rest (rest.dropWhile isNameText)

variable {url rest behind : U16String} {pos next : Nat}

/-- A text at a position, and the rest of the string. -/
theorem stands_of_drop {w : U16String} (h : url.drop pos = w ++ rest) :
    Stands url pos w (pos + w.length) ∧ url.drop (pos + w.length) = rest := by
  refine ⟨⟨⟨rest, h.symm⟩, rfl⟩, ?_⟩
  rw [← List.drop_drop, h, List.drop_left]

theorem drop_of_stands {w : U16String} (h : Stands url pos w next) :
    url.drop pos = w ++ url.drop next := by
  obtain ⟨⟨rest, hrest⟩, rfl⟩ := h
  rw [← List.drop_drop, ← hrest, List.drop_left]

theorem isDigit_charAt_of_drop (h : url.drop pos = behind)
    (hbehind : ∀ c, behind.head? = some c → isDigit c = false) :
    isDigit (charAt url pos) = false := by
  have hchar := charAt_drop url pos 0
  rw [h, Nat.add_zero] at hchar
  rw [← hchar]
  cases behind with
  | nil => decide
  | cons c behind => exact hbehind c rfl

theorem head?_drop (h : url.drop pos = behind) {c : Nat} (hc : behind.head? = some c) :
    charAt url pos = c := by
  have hchar := charAt_drop url pos 0
  rw [h, Nat.add_zero] at hchar
  rw [← hchar]
  cases behind with
  | nil => cases hc
  | cons d behind => exact Option.some.inj hc

theorem parseIPLiteral_none (h : ∀ a behind, Taken a → url.drop pos ≠ a.bracketed ++ behind) :
    parseIPLiteral url pos = none := by
  refine Option.eq_none_iff_forall_ne_some.mpr fun next hnext => ?_
  obtain ⟨a, ha, hstands⟩ := parseIPLiteral_iff.mp hnext
  exact h a _ ha (drop_of_stands hstands)

/-- A quad starts with a digit. -/
theorem Quad.first {octets : List U16String} (h : Quad octets) :
    ∃ c w, quadText octets = c :: w ∧ isDigit c = true := by
  have hfour := h.four
  rcases octets with _ | ⟨v, octets⟩
  · cases hfour
  have hv := h.octets v List.mem_cons_self
  obtain ⟨c, v, rfl⟩ := List.exists_cons_of_ne_nil hv.nonempty
  have hne : octets ≠ [] := by
    rintro rfl
    cases hfour
  refine ⟨c, v ++ '.'.toNat :: joined '.'.toNat octets, ?_, hv.digits c List.mem_cons_self⟩
  rw [quadText, joined_cons _ hne]
  rfl

theorem isNameText_of_isDigit {c : Nat} (h : isDigit c = true) : isNameText c = true := by
  refine Decidable.byContradiction fun hc => ?_
  rcases nameEnd_cases (Bool.eq_false_iff.mpr hc) with rfl | rfl | rfl | rfl | rfl <;>
    revert h <;> decide

/-- Three octets with a dot behind each are a name. -/
theorem cutQuad.name (h : cutQuad rest) : ∀ c ∈ rest, isNameText c = true := by
  obtain ⟨octets, -, hoctets, rfl⟩ := h
  intro c hc
  rcases mem_joined hc with rfl | ⟨w, hw, hc⟩
  · decide
  · rcases List.mem_append.mp hw with hw | hw
    · exact isNameText_of_isDigit ((hoctets w hw).digits c hc)
    · rw [List.mem_singleton.mp hw] at hc
      cases hc

/-- With neither an address nor a quad the name is read. -/
theorem parseIregName_drop (hpos : 0 < pos) (hle : pos ≤ url.length)
    (henc : WellEncoded (url.drop pos)) :
    (parseIregName url.length url pos).2 =
      pos + ((url.drop pos).takeWhile isNameText).length := by
  have hlen := (List.takeWhile_sublist isNameText (l := url.drop pos)).length_le
  rw [List.length_drop] at hlen
  have hread : Reads isNameText url pos (pos + ((url.drop pos).takeWhile isNameText).length) := by
    refine ⟨Nat.le_add_right _ _, by omega, fun i hi hlt => ?_⟩
    have hchar := charAt_drop url pos (i - pos)
    rw [Nat.add_sub_cancel' hi] at hchar
    rw [← hchar, ← List.takeWhile_append_dropWhile (p := isNameText) (l := url.drop pos),
      charAt_append_left (by omega), charAt_eq (by omega)]
    exact List.mem_takeWhile_imp (List.getElem_mem _)
  exact parseIregName_exact url.length url pos _ (encodedFrom_of_drop henc) hread.le hread.inString
    hread.all (takeWhile_ends isNameText hle) (by omega)

/-- The host that starts a text is read, and nothing behind it. -/
theorem StartsHost.parseHost (hpos : 0 < pos) (hle : pos ≤ url.length)
    (henc : WellEncoded (url.drop pos)) (h : StartsHost (url.drop pos) behind) :
    pos < (parseHost url pos).2 ∧ url.drop (parseHost url pos).2 = behind := by
  generalize hrest : url.drop pos = rest at h
  unfold EsOs.Escort.parseHost
  cases h with
  | literal _ ha =>
    obtain ⟨hstands, hdrop⟩ := stands_of_drop hrest
    rw [parseIPLiteral_iff.mpr ⟨_, ha, hstands⟩]
    exact ⟨Nat.lt_add_of_pos_right (Nat.succ_pos _), hdrop⟩
  | @quad octets _ hquad hbehind =>
    obtain ⟨hstands, hdrop⟩ := stands_of_drop hrest
    obtain ⟨c, w, htext, hc⟩ := hquad.first
    have hchar : charAt url pos = c := head?_drop hrest (by rw [htext]; rfl)
    have hliteral : parseIPLiteral url pos = none := by
      refine if_pos fun heq => ?_
      rw [hchar.symm.trans heq] at hc
      revert hc
      decide
    rw [hliteral, parseIPv4Address_iff.mpr (.inl ⟨octets, hquad, hstands,
      isDigit_charAt_of_drop hdrop hbehind⟩)]
    refine ⟨Nat.lt_add_of_pos_right ?_, hdrop⟩
    rw [htext]
    exact Nat.succ_pos _
  | name hname hne =>
    have hsplit := List.takeWhile_append_dropWhile (p := isNameText) (l := rest)
    rw [parseIPLiteral_none (hrest ▸ hname.1)]
    dsimp only
    cases haddress : parseIPv4Address url pos with
    | some next =>
      rcases parseIPv4Address_iff.mp haddress with ⟨octets, hquad, hstands, hend⟩ | ⟨hcut, rfl⟩
      · refine absurd (hrest.symm.trans (drop_of_stands hstands)) (hname.2 octets _ hquad ?_)
        intro c hc
        rwa [← head?_drop rfl hc]
      · have hall := hcut.name
        rw [hrest] at hall
        refine ⟨Nat.lt_of_not_le fun hlen => hne ?_, ?_⟩
        · rw [← hrest, List.drop_eq_nil_of_le hlen]
          rfl
        · rw [List.drop_length, List.dropWhile_eq_nil_iff.mpr hall]
    | none =>
      dsimp only
      rw [parseIregName_drop hpos hle henc, hrest]
      refine ⟨Nat.lt_add_of_pos_right (List.length_pos_iff.mpr hne), ?_⟩
      exact (stands_of_drop (hrest.trans hsplit.symm)).2

/-- What is read of a text that goes on is the host that starts it. -/
theorem startsHost_of_parseHost (hpos : 0 < pos) (hle : pos ≤ url.length)
    (henc : WellEncoded (url.drop pos)) (hlt : pos < (parseHost url pos).2)
    (hmore : (parseHost url pos).2 < url.length) :
    StartsHost (url.drop pos) (url.drop (parseHost url pos).2) := by
  unfold EsOs.Escort.parseHost at hlt hmore ⊢
  cases hliteral : parseIPLiteral url pos with
  | some next =>
    obtain ⟨a, ha, hstands⟩ := parseIPLiteral_iff.mp hliteral
    rw [drop_of_stands hstands]
    exact .literal _ ha
  | none =>
    simp only [hliteral] at hlt hmore ⊢
    cases haddress : parseIPv4Address url pos with
    | some next =>
      simp only [haddress] at hlt hmore ⊢
      rcases parseIPv4Address_iff.mp haddress with ⟨octets, hquad, hstands, hend⟩ | ⟨-, hend⟩
      · rw [drop_of_stands hstands]
        refine .quad _ hquad fun c hc => ?_
        rwa [← head?_drop rfl hc]
      · exact absurd hend (Nat.ne_of_lt hmore)
    | none =>
      simp only [haddress] at hlt hmore ⊢
      have hstop := parseIregName_drop hpos hle henc
      have hsplit := List.takeWhile_append_dropWhile (p := isNameText) (l := url.drop pos)
      have hname : startsName (url.drop pos) := by
        refine ⟨fun a behind ha heq => ?_, fun octets behind hquad hbehind heq => ?_⟩
        · have := parseIPLiteral_iff.mpr ⟨a, ha, (stands_of_drop heq).1⟩
          rw [hliteral] at this
          cases this
        · obtain ⟨hstands, hdrop⟩ := stands_of_drop heq
          have := parseIPv4Address_iff.mpr (.inl ⟨octets, hquad, hstands,
            isDigit_charAt_of_drop hdrop hbehind⟩)
          rw [haddress] at this
          cases this
      rw [hstop] at hlt ⊢
      rw [(stands_of_drop hsplit.symm).2]
      exact .name hname fun hnil => by rw [hnil] at hlt; exact absurd hlt (Nat.lt_irrefl pos)

/-! ## The case of letters -/

theorem toLower_toLower (c : Nat) : toLower (toLower c) = toLower c := by
  have hA : 'A'.toNat = 65 := rfl
  have hZ : 'Z'.toNat = 90 := rfl
  have ha : 'a'.toNat = 97 := rfl
  unfold toLower
  split
  · rw [if_neg (by omega)]
  · rfl

theorem parseIregName_case (turns : Nat) :
    ∀ url pos i, toLower (charAt (parseIregName turns url pos).1 i) = toLower (charAt url i) := by
  induction turns with
  | zero => exact fun url pos i => rfl
  | succ turns ih =>
    intro url pos i
    have hset : toLower (charAt (url.set pos (toLower (charAt url pos))) i) =
        toLower (charAt url i) := by
      rw [charAt_set]
      split
      · rename_i hi
        rw [toLower_toLower, hi.1]
      · rfl
    simp only [parseIregName]
    split
    · rfl
    split
    · exact ih url _ i
    split
    · exact (ih _ _ i).trans hset
    split
    · exact (ih _ _ i).trans hset
    · exact hset

/-- Only the case of letters changes. -/
theorem parseHost_case (url : U16String) (pos i : Nat) :
    toLower (charAt (parseHost url pos).1 i) = toLower (charAt url i) := by
  unfold parseHost
  split
  · rfl
  split
  · rfl
  · exact parseIregName_case url.length url pos i

theorem isAuthorityText_toLower (c : Nat) : isAuthorityText (toLower c) = isAuthorityText c := by
  unfold toLower
  split
  · rename_i hupper
    have hA : 'A'.toNat = 65 := rfl
    have hZ : 'Z'.toNat = 90 := rfl
    have ha : 'a'.toNat = 97 := rfl
    have hslash : Uri.slash = 47 := rfl
    have hquestion : Uri.questionMark = 63 := rfl
    have hnumber : Uri.numberSign = 35 := rfl
    have hleft : isAuthorityText (c + ('a'.toNat - 'A'.toNat)) = true := by
      simp only [isAuthorityText, Bool.and_eq_true, decide_eq_true_eq]
      omega
    have hright : isAuthorityText c = true := by
      simp only [isAuthorityText, Bool.and_eq_true, decide_eq_true_eq]
      omega
    rw [hleft, hright]
  · rfl

end EsOs.Escort
