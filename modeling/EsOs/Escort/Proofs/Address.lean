import Mathlib
import EsOs.Escort.Proofs.Quad

/-!
# IPv6 addresses as the loop reads them

The loop of `parseIPv6Address` reads groups and counts them. Behind `"::"` every piece may be a
group, before it no empty one. What it has read when it stops before `']'` is an address of the kind
`Address.Taken`, and it reads every such address.
-/

namespace EsOs.Escort

open Digits Address

/-! ## Groups -/

/-- A hexadecimal digit. -/
def isHex (c : Nat) : Bool := isHexDigit c ≠ 0

theorem isHex_iff {c : Nat} : isHex c = true ↔ isHexDigit c ≠ 0 := decide_eq_true_iff

theorem isHex_of_run {w : U16String} (hw : isRun w) (c : Nat) (hc : c ∈ w) : isHex c = true :=
  isHex_iff.mpr (hw.1 c hc)

theorem parseHex4_eq (url : U16String) (first : Nat) (useDoubleColon : Bool) (turns : Nat) :
    ∀ pos a, first ≤ pos → url.length ≤ pos + turns → a ≤ 0xffff →
      parseHex4 url first useDoubleColon turns pos a =
        if 0xffff < number 16 (fun c => c - isHexDigit c) a ((url.drop pos).takeWhile isHex) then
          none
        else if pos < url.length ∧ pos = first ∧ (url.drop pos).takeWhile isHex = [] ∧
          useDoubleColon = false then none
        else some (pos + ((url.drop pos).takeWhile isHex).length) := by
  induction turns with
  | zero =>
    intro pos a _ hlen ha
    have hdrop : url.drop pos = [] := List.drop_eq_nil_of_le hlen
    rw [hdrop, List.takeWhile_nil, number_nil, if_neg (Nat.not_lt.mpr ha),
      if_neg (fun h => Nat.not_lt.mpr hlen h.1)]
    rfl
  | succ turns ih =>
    intro pos a hfirst hlen ha
    rw [parseHex4]
    by_cases hend : url.length ≤ pos
    · have hdrop : url.drop pos = [] := List.drop_eq_nil_of_le hend
      rw [if_pos hend, hdrop, List.takeWhile_nil, number_nil, if_neg (Nat.not_lt.mpr ha),
        if_neg (fun h => Nat.not_lt.mpr hend h.1)]
      rfl
    have hlt := Nat.lt_of_not_le hend
    rw [if_neg hend, List.drop_eq_getElem_cons hlt, ← charAt_eq hlt, List.takeWhile_cons]
    dsimp only
    by_cases hdigit : isHexDigit (charAt url pos) = 0
    · have hhex : ¬ isHex (charAt url pos) = true := by simp [isHex, hdigit]
      rw [if_neg (fun hne => hne hdigit), if_neg hhex, number_nil, if_neg (Nat.not_lt.mpr ha)]
      by_cases hnone : pos = first ∧ useDoubleColon = false
      · rw [if_pos (by simp [hnone.1, hnone.2]), if_pos ⟨hlt, hnone.1, rfl, hnone.2⟩]
      · rw [if_neg (by simpa using hnone), if_neg fun h => hnone ⟨h.2.1, h.2.2.2⟩]
        rfl
    · have hhex : isHex (charAt url pos) = true := by simp [isHex, hdigit]
      have hne (w : U16String) : ¬ (pos < url.length ∧ pos = first ∧ charAt url pos :: w = [] ∧
          useDoubleColon = false) := fun h => List.cons_ne_nil _ _ h.2.2.1
      rw [if_pos hdigit, if_pos hhex, number_cons, if_neg (hne _)]
      by_cases hlarge : 0xffff < a * 16 + (charAt url pos - isHexDigit (charAt url pos))
      · rw [if_pos hlarge, if_pos (Nat.lt_of_lt_of_le hlarge (le_number (by decide) _ _))]
      · rw [if_neg hlarge, ih (pos + 1) _ (by omega) (by omega) (Nat.le_of_not_lt hlarge)]
        have hfar : ¬ (pos + 1 < url.length ∧ pos + 1 = first ∧
            (url.drop (pos + 1)).takeWhile isHex = [] ∧ useDoubleColon = false) :=
          fun h => by omega
        rw [if_neg hfar, List.length_cons, Nat.add_right_comm, Nat.add_assoc]

/-- A group at a position. Without `"::"` it has a digit, unless the string ends. -/
theorem parseHex4_iff {url : U16String} {useDoubleColon : Bool} {pos next : Nat} :
    parseHex4 url pos useDoubleColon url.length pos 0 = some next ↔
      ∃ w, isRun w ∧ (w = [] → useDoubleColon = true ∨ url.length ≤ next) ∧
        Stands url pos w next ∧ isHex (charAt url next) = false := by
  rw [parseHex4_eq url pos useDoubleColon url.length pos 0 (Nat.le_refl _) (Nat.le_add_left _ _)
    (Nat.zero_le _)]
  constructor
  · intro h
    split at h
    · cases h
    rename_i hvalue
    split at h
    · cases h
    rename_i hsome
    obtain rfl := Option.some.inj h
    refine ⟨_, ⟨fun c hc => ?_, Nat.le_of_not_lt hvalue⟩, fun hnil => ?_,
      stands_takeWhile isHex url pos, charAt_takeWhile (by decide) url pos⟩
    · exact isHex_iff.mp (List.mem_takeWhile_imp hc)
    · cases useDoubleColon with
      | true => exact .inl rfl
      | false =>
        refine .inr (Nat.le_of_not_lt fun hlt => hsome ⟨?_, rfl, hnil, rfl⟩)
        exact Nat.lt_of_le_of_lt (Nat.le_add_right _ _) hlt
  · rintro ⟨w, hw, hempty, hstands, hend⟩
    have hsome : ¬ (pos < url.length ∧ pos = pos ∧ w = [] ∧ useDoubleColon = false) := by
      rintro ⟨hlt, -, rfl, hfalse⟩
      rcases hempty rfl with htrue | hlen
      · rw [hfalse] at htrue
        cases htrue
      · rw [hstands.2] at hlen
        exact Nat.not_lt.mpr hlen hlt
    rw [takeWhile_of_stands hstands (isHex_of_run hw) hend,
      if_neg (show ¬ 0xffff < number 16 _ 0 w from Nat.not_lt.mpr hw.2), if_neg hsome, ← hstands.2]

/-- Behind the hexadecimal digits at the start of an IPv4 address stands a dot. -/
theorem dot_of_parseIPv4Address {url : U16String} {pos next : Nat}
    (h : parseIPv4Address url pos = some next) :
    charAt url (pos + ((url.drop pos).takeWhile isHex).length) = '.'.toNat := by
  obtain ⟨front, w, hfront, hoctets, -, hstands, -⟩ := (parseIPv4From_iff url 3 pos next).mp h
  obtain ⟨v, front, rfl⟩ := List.exists_cons_of_length_eq_add_one hfront
  rw [quadText, List.cons_append, joined_cons v (by simp), stands_append,
    stands_cons dot_ne_zero] at hstands
  obtain ⟨hfirst, hdot, -⟩ := hstands
  have hdigits : ∀ c ∈ v, isHex c = true := by
    intro c hc
    have hdigit := (hoctets v List.mem_cons_self).digits c hc
    simp only [isDigit, Bool.and_eq_true, decide_eq_true_eq] at hdigit
    rw [isHex_iff, isHexDigit, if_pos hdigit]
    decide
  rw [takeWhile_of_stands hfirst hdigits (by rw [hdot]; decide), hdot]

/-- No IPv4 address starts where a group ends with a colon or a bracket. -/
theorem parseIPv4Address_none {url w : U16String} {pos next : Nat} (hw : isRun w)
    (hstands : Stands url pos w next)
    (hend : charAt url next = ':'.toNat ∨ charAt url next = ']'.toNat) :
    parseIPv4Address url pos = none := by
  refine Option.eq_none_iff_forall_ne_some.mpr fun stop hstop => ?_
  have hdot := dot_of_parseIPv4Address hstop
  have hhex : isHex (charAt url next) = false := by
    rcases hend with hend | hend <;> rw [hend] <;> decide
  rw [takeWhile_of_stands hstands (isHex_of_run hw) hhex, ← hstands.2]
    at hdot
  rw [hdot] at hend
  revert hend
  decide

/-- No IPv4 address starts where a list of groups does. -/
theorem parseIPv4Address_none_of_joined {url v : U16String} {pieces : List U16String}
    {pos stop : Nat} (hv : isRun v) (hstop : charAt url stop = ']'.toNat)
    (hstands : Stands url pos (joined ':'.toNat (v :: pieces)) stop) :
    parseIPv4Address url pos = none := by
  by_cases hnil : pieces = []
  · rw [hnil, joined_singleton] at hstands
    exact parseIPv4Address_none hv hstands (.inr hstop)
  · rw [joined_cons v hnil, stands_append, stands_cons colon_ne_zero] at hstands
    exact parseIPv4Address_none hv hstands.1 (.inl hstands.2.1)

/-! ## The loop -/

/-- The loop stops at `stop` with a count that the function takes. -/
def Completes (url : U16String) (turns c : Nat) (useDoubleColon : Bool) (colon pos stop : Nat) :
    Prop :=
  ∃ count double, parseIPv6Loop url turns c useDoubleColon colon pos = some (count, double, stop) ∧
    (count = 8 ∨ (0 < count ∧ count ≤ 6 ∧ double = true))

/-- The octets at the end of an address, as its last piece. -/
def lastPiece (quad : Option (List U16String)) : List U16String :=
  (quad.map quadText).toList

variable {url : U16String} {stop : Nat}

/-- A turn of the loop that finds no `"::"`. -/
theorem parseIPv6Loop_group {turns c colon pos : Nat} {useDoubleColon : Bool} (hc : c < 8)
    (hdouble : (decide (c ≤ 6) && !useDoubleColon && startsAt url colon "::") = false) :
    parseIPv6Loop url (turns + 1) c useDoubleColon colon pos =
      match parseHex4 url pos useDoubleColon url.length pos 0 with
      | none => none
      | some next =>
        if 7 ≤ c then parseIPv6Loop url turns (c + 1) useDoubleColon colon next
        else if charAt url next ≠ ':'.toNat then some (c, useDoubleColon, next)
        else if c = 5 || (c < 5 && useDoubleColon) then
          match parseIPv4Address url (next + 1) with
          | some next => some (c + 3, useDoubleColon, next)
          | none => parseIPv6Loop url turns (c + 1) useDoubleColon next (next + 1)
        else parseIPv6Loop url turns (c + 1) useDoubleColon next (next + 1) := by
  simp only [parseIPv6Loop, hdouble, Bool.or_false, Bool.false_eq_true, if_false,
    Bool.false_and, if_neg (Nat.not_le.mpr hc)]
  cases parseHex4 url pos useDoubleColon url.length pos 0 with
  | none => rfl
  | some next =>
    by_cases hseven : 7 ≤ c
    · have hlt : ¬ c < 7 := Nat.not_lt.mpr hseven
      have hfive : ¬ c = 5 := by omega
      have hless : ¬ c < 5 := by omega
      simp [hseven, hlt, hfive, hless]
    · have hlt : c < 7 := Nat.lt_of_not_le hseven
      simp only [hseven, hlt, decide_true, Bool.true_and, decide_eq_true_eq, if_true, if_false]
      all_goals rfl

/-- A turn that finds `"::"` goes on behind it, two groups further. -/
theorem parseIPv6Loop_double {turns c colon pos : Nat} (hc : c ≤ 5)
    (hdouble : startsAt url colon "::" = true) :
    parseIPv6Loop url (turns + 1) c false colon pos =
      parseIPv6Loop url (turns + 1) (c + 2) true colon (colon + 2) := by
  have h8 : ¬ 8 ≤ c := by omega
  have h8' : ¬ 8 ≤ c + 2 := by omega
  have h6 : c ≤ 6 := by omega
  simp [parseIPv6Loop, hdouble, h8, h8', h6]

theorem parseIPv6Loop_eight (turns : Nat) {useDoubleColon : Bool} {colon pos : Nat} :
    parseIPv6Loop url turns 8 useDoubleColon colon pos = some (8, useDoubleColon, pos) := by
  cases turns with
  | zero => rfl
  | succ turns => simp [parseIPv6Loop]

/-! ## Behind a double colon -/

/-- What the loop reads behind `"::"`, where it has counted to `c`. -/
theorem completes_right (hstop : charAt url stop = ']'.toNat) (turns : Nat) :
    ∀ c colon pos, 2 ≤ c → c ≤ 7 → 8 ≤ c + turns →
      (Completes url turns c true colon pos stop ↔
        ∃ right quad, right ≠ [] ∧ (∀ w ∈ right, isRun w) ∧ (∀ o, quad = some o → Quad o) ∧
          Stands url pos (joined ':'.toNat (right ++ lastPiece quad)) stop ∧
          (quad = none → c + right.length ≤ 8) ∧
          (quad ≠ none → c + right.length ≤ 6 ∧ c + right.length ≠ 5)) := by
  have hlt : stop < url.length := lt_of_charAt hstop (by decide)
  have hbracket : isHex (charAt url stop) = false := by rw [hstop]; decide
  have hcolon : charAt url stop ≠ ':'.toNat := by rw [hstop]; decide
  induction turns with
  | zero =>
    intro c colon pos _ hc hturns
    omega
  | succ turns ih =>
    intro c colon pos htwo hc hturns
    have hloop := @parseIPv6Loop_group url turns c colon pos true (by omega) (by simp)
    simp only [Completes, hloop]
    constructor
    · rintro ⟨count, double, h, hcount⟩
      split at h
      · cases h
      rename_i next hnext
      obtain ⟨w, hw, -, hstands, -⟩ := parseHex4_iff.mp hnext
      have hone : ∀ v ∈ [w], isRun v := fun v hv => by rwa [List.mem_singleton.mp hv]
      split at h
      · rename_i hseven
        obtain rfl : c = 7 := Nat.le_antisymm hc hseven
        rw [parseIPv6Loop_eight] at h
        simp only [Option.some.injEq, Prod.mk.injEq] at h
        obtain ⟨-, -, rfl⟩ := h
        exact ⟨[w], none, by simp, hone, nofun, by simpa [lastPiece] using hstands,
          fun _ => Nat.le_refl 8, fun hne => absurd rfl hne⟩
      rename_i hseven
      split at h
      · simp only [Option.some.injEq, Prod.mk.injEq] at h
        obtain ⟨-, -, rfl⟩ := h
        exact ⟨[w], none, by simp, hone, nofun, by simpa [lastPiece] using hstands,
          fun _ => Nat.succ_le_succ hc, fun hne => absurd rfl hne⟩
      rename_i hchar
      have hchar := Decidable.not_not.mp hchar
      -- The rest behind the colon, when the loop goes on.
      have hmore (h : parseIPv6Loop url turns (c + 1) true next (next + 1) =
          some (count, double, stop)) :
          ∃ right quad, right ≠ [] ∧ (∀ w ∈ right, isRun w) ∧ (∀ o, quad = some o → Quad o) ∧
            Stands url pos (joined ':'.toNat (right ++ lastPiece quad)) stop ∧
            (quad = none → c + right.length ≤ 8) ∧
            (quad ≠ none → c + right.length ≤ 6 ∧ c + right.length ≠ 5) := by
        obtain ⟨right, quad, hne, hruns, hquad, hrest, hnone, hsome⟩ :=
          (ih (c + 1) next (next + 1) (by omega) (by omega) (by omega)).mp
            ⟨count, double, h, hcount⟩
        refine ⟨w :: right, quad, by simp, ?_, hquad, ?_, ?_, ?_⟩
        · intro v hv
          rcases List.mem_cons.mp hv with rfl | hv
          · exact hw
          · exact hruns v hv
        · obtain rfl := hstands.2
          rw [List.cons_append, joined_cons w (by simp [hne]), stands_append,
            stands_cons colon_ne_zero]
          exact ⟨hstands, hchar, hrest⟩
        · intro hquad
          have := hnone hquad
          rw [List.length_cons]
          omega
        · intro hquad
          have := hsome hquad
          rw [List.length_cons]
          omega
      split at h
      · rename_i hfive
        have hfive : c ≤ 5 := by
          simp only [Bool.and_true, Bool.or_eq_true, decide_eq_true_eq] at hfive
          omega
        split at h
        · rename_i last hlast
          simp only [Option.some.injEq, Prod.mk.injEq] at h
          obtain ⟨rfl, rfl, rfl⟩ := h
          rcases parseIPv4Address_iff.mp hlast with ⟨octets, hquad, hrest, -⟩ | ⟨-, hend⟩
          · refine ⟨[w], some octets, by simp, hone, fun o ho => Option.some.inj ho ▸ hquad, ?_,
              nofun, fun _ => ?_⟩
            · obtain rfl := hstands.2
              rw [List.singleton_append, joined_cons w (by simp [lastPiece]), stands_append,
                stands_cons colon_ne_zero]
              exact ⟨hstands, hchar, by simpa [lastPiece] using hrest⟩
            · simp only [List.length_singleton]
              omega
          · exact absurd hend (Nat.ne_of_lt hlt)
        · exact hmore h
      · exact hmore h
    · rintro ⟨right, quad, hne, hruns, hquad, hstands, hnone, hsome⟩
      obtain ⟨w, right, rfl⟩ := List.exists_cons_of_ne_nil hne
      have hw := hruns w List.mem_cons_self
      rw [List.length_cons] at hnone hsome
      by_cases hlast : right ++ lastPiece quad = []
      · obtain ⟨rfl, hpiece⟩ := List.append_eq_nil_iff.mp hlast
        rw [List.singleton_append, hpiece, joined_singleton] at hstands
        have hhex := parseHex4_iff.mpr ⟨w, hw, fun _ => .inl rfl, hstands, hbracket⟩
        simp only [hhex]
        by_cases hseven : 7 ≤ c
        · obtain rfl : c = 7 := Nat.le_antisymm hc hseven
          exact ⟨8, true, by rw [if_pos hseven, parseIPv6Loop_eight], .inl rfl⟩
        · exact ⟨c, true, by rw [if_neg hseven, if_pos hcolon], .inr ⟨by omega, by omega, rfl⟩⟩
      rw [List.cons_append, joined_cons w hlast, stands_append, stands_cons colon_ne_zero] at hstands
      obtain ⟨hfirst, hchar, hrest⟩ := hstands
      have hhex := parseHex4_iff.mpr ⟨w, hw, fun _ => .inl rfl, hfirst, by rw [hchar]; decide⟩
      simp only [hhex]
      have hseven : ¬ 7 ≤ c := by
        cases quad with
        | none =>
          have := hnone rfl
          have : right ≠ [] := by simpa [lastPiece] using hlast
          have := List.length_pos_iff.mpr this
          omega
        | some o =>
          have := (hsome nofun).1
          omega
      rw [if_neg hseven, if_neg (fun hne => hne hchar)]
      cases right with
      | nil =>
        -- Only the octets are left.
        obtain ⟨octets, rfl⟩ : ∃ octets, quad = some octets := by
          cases quad with
          | none => exact absurd rfl hlast
          | some octets => exact ⟨octets, rfl⟩
        have hcount := hsome nofun
        simp only [List.length_nil, Nat.zero_add] at hcount
        have haddress : parseIPv4Address url (pos + w.length + 1) = some stop := by
          refine parseIPv4Address_iff.mpr (.inl ⟨octets, hquad octets rfl, ?_, ?_⟩)
          · simpa [lastPiece] using hrest
          · rw [hstop]
            decide
        have hfive : (decide (c = 5) || (decide (c < 5) && true)) = true := by
          simp only [Bool.and_true, Bool.or_eq_true, decide_eq_true_eq]
          omega
        simp only [hfive, if_true, haddress]
        have htake : c + 3 = 8 ∨ c + 3 ≤ 6 := by omega
        exact ⟨c + 3, true, rfl, htake.imp_right fun h => ⟨Nat.succ_pos _, h, rfl⟩⟩
      | cons v right =>
        have hmore := (ih (c + 1) (pos + w.length) (pos + w.length + 1) (by omega) (by omega)
          (by omega)).mpr ⟨v :: right, quad, by simp,
            fun u hu => hruns u (List.mem_cons_of_mem w hu), hquad, hrest,
            fun hq => by have := hnone hq; omega, fun hq => by have := hsome hq; omega⟩
        have hv := hruns v (List.mem_cons_of_mem w List.mem_cons_self)
        have haddress : parseIPv4Address url (pos + w.length + 1) = none :=
          parseIPv4Address_none_of_joined hv hstop hrest
        simp only [haddress, ite_self]
        exact hmore

/-! ## Before a double colon -/

/-- How many groups there may be with `"::"` among them. -/
def Fits (counted : Nat) (right : List U16String) (quad : Option (List U16String)) : Prop :=
  (quad = none → counted + right.length ≤ 6) ∧
    (quad ≠ none → right ≠ [] ∧ counted + right.length ≤ 4 ∧ counted + right.length ≠ 3)

/-- What the loop reads from the position of `"::"` on. -/
theorem completes_double (hstop : charAt url stop = ']'.toNat) {turns c colon pos : Nat}
    (hc : c ≤ 6) (hturns : 8 ≤ c + (turns + 1)) (hdouble : startsAt url colon "::" = true) :
    Completes url (turns + 1) c false colon pos stop ↔
      ∃ right quad, (∀ w ∈ right, isRun w) ∧ (∀ o, quad = some o → Quad o) ∧ Fits c right quad ∧
        Stands url (colon + 2) (joined ':'.toNat (right ++ lastPiece quad)) stop := by
  by_cases hsix : c = 6
  · subst hsix
    have hloop : parseIPv6Loop url (turns + 1) 6 false colon pos = some (8, true, colon + 2) := by
      simp [parseIPv6Loop, hdouble]
    rw [Completes, hloop]
    constructor
    · rintro ⟨count, double, h, -⟩
      simp only [Option.some.injEq, Prod.mk.injEq] at h
      exact ⟨[], none, by simp, by simp, ⟨fun _ => Nat.le_refl 6, fun hne => absurd rfl hne⟩,
        stands_nil.mpr h.2.2.symm⟩
    · rintro ⟨right, quad, -, -, hfits, hstands⟩
      have hquad : quad = none := by
        by_contra hne
        have := (hfits.2 hne).2.1
        omega
      have hright : right = [] := by
        have := hfits.1 hquad
        exact List.length_eq_zero_iff.mp (by omega)
      rw [hright, hquad] at hstands
      rw [stands_nil.mp hstands]
      exact ⟨8, true, rfl, .inl rfl⟩
  · have hfive : c ≤ 5 := by omega
    rw [Completes, parseIPv6Loop_double hfive hdouble, ← Completes,
      completes_right hstop (turns + 1) (c + 2) colon (colon + 2) (by omega) (by omega) (by omega)]
    constructor
    · rintro ⟨right, quad, hne, hruns, hquad, hstands, hnone, hsome⟩
      refine ⟨right, quad, hruns, hquad, ⟨fun hq => ?_, fun hq => ⟨hne, ?_⟩⟩, hstands⟩
      · have := hnone hq
        omega
      · have := hsome hq
        omega
    · rintro ⟨right, quad, hruns, hquad, hfits, hstands⟩
      by_cases hnil : right = [] ∧ quad = none
      · obtain ⟨rfl, rfl⟩ := hnil
        refine ⟨[[]], none, by simp, fun w hw => ?_, by simp, hstands, fun _ => ?_,
          fun hne => absurd rfl hne⟩
        · rw [List.mem_singleton.mp hw]
          exact ⟨by simp, by decide⟩
        · rw [List.length_singleton]
          omega
      · refine ⟨right, quad, fun hr => ?_, hruns, hquad, hstands, fun hq => ?_, fun hq => ?_⟩
        · exact (hfits.2 fun hq => hnil ⟨hr, hq⟩).1 hr
        · have := hfits.1 hq
          omega
        · have := hfits.2 hq
          omega

/-- What the loop reads in a turn without `"::"`, before there was one. -/
theorem completes_group (hstop : charAt url stop = ']'.toNat) {turns c colon pos : Nat}
    (hc : c ≤ 7) (hdouble : (decide (c ≤ 6) && startsAt url colon "::") = false) :
    Completes url (turns + 1) c false colon pos stop ↔
      ∃ w next, isRun w ∧ w ≠ [] ∧ Stands url pos w next ∧ isHex (charAt url next) = false ∧
        ((c = 7 ∧ next = stop) ∨ (c < 7 ∧ charAt url next = ':'.toNat ∧
          ((c = 5 ∧ ∃ o, Quad o ∧ Stands url (next + 1) (quadText o) stop) ∨
            ((c = 5 → parseIPv4Address url (next + 1) = none) ∧
              Completes url turns (c + 1) false next (next + 1) stop)))) := by
  have hlt : stop < url.length := lt_of_charAt hstop (by decide)
  have hloop := @parseIPv6Loop_group url turns c colon pos false (by omega) (by simpa using hdouble)
  simp only [Completes, hloop, Bool.and_false, Bool.or_false, decide_eq_true_eq]
  constructor
  · rintro ⟨count, double, h, hcount⟩
    split at h
    · cases h
    rename_i next hnext
    obtain ⟨w, hw, hempty, hstands, hend⟩ := parseHex4_iff.mp hnext
    split at h
    · rename_i hseven
      obtain rfl : c = 7 := Nat.le_antisymm hc hseven
      rw [parseIPv6Loop_eight] at h
      simp only [Option.some.injEq, Prod.mk.injEq] at h
      obtain ⟨-, -, rfl⟩ := h
      refine ⟨w, next, hw, fun hnil => ?_, hstands, hend, .inl ⟨rfl, rfl⟩⟩
      exact Nat.not_lt.mpr ((hempty hnil).resolve_left nofun) hlt
    rename_i hseven
    have hseven := Nat.lt_of_not_le hseven
    split at h
    · simp only [Option.some.injEq, Prod.mk.injEq] at h
      obtain ⟨rfl, rfl, -⟩ := h
      rcases hcount with hcount | hcount
      · omega
      · cases hcount.2.2
    rename_i hchar
    have hchar := Decidable.not_not.mp hchar
    have hne : w ≠ [] := fun hnil =>
      Nat.not_lt.mpr ((hempty hnil).resolve_left nofun) (lt_of_charAt hchar colon_ne_zero)
    refine ⟨w, next, hw, hne, hstands, hend, .inr ⟨hseven, hchar, ?_⟩⟩
    split at h
    · rename_i hfive
      split at h
      · rename_i last hlast
        simp only [Option.some.injEq, Prod.mk.injEq] at h
        obtain ⟨-, -, rfl⟩ := h
        rcases parseIPv4Address_iff.mp hlast with ⟨octets, hquad, hrest, -⟩ | ⟨-, hend⟩
        · exact .inl ⟨hfive, octets, hquad, hrest⟩
        · exact absurd hend (Nat.ne_of_lt hlt)
      · rename_i hnone
        exact .inr ⟨fun _ => hnone, count, double, h, hcount⟩
    · rename_i hfive
      exact .inr ⟨fun h => absurd h hfive, count, double, h, hcount⟩
  · rintro ⟨w, next, hw, hne, hstands, hend, hrest⟩
    have hhex : parseHex4 url pos false url.length pos 0 = some next :=
      parseHex4_iff.mpr ⟨w, hw, fun hnil => absurd hnil hne, hstands, hend⟩
    simp only [hhex]
    rcases hrest with ⟨rfl, rfl⟩ | ⟨hseven, hchar, hrest⟩
    · exact ⟨8, false, by rw [if_pos (Nat.le_refl 7), parseIPv6Loop_eight], .inl rfl⟩
    rw [if_neg (Nat.not_le.mpr hseven), if_neg (fun hne => hne hchar)]
    rcases hrest with ⟨rfl, octets, hquad, hquads⟩ | ⟨hnone, hmore⟩
    · have haddress : parseIPv4Address url (next + 1) = some stop :=
        parseIPv4Address_iff.mpr (.inl ⟨octets, hquad, hquads, by rw [hstop]; decide⟩)
      simp only [haddress, if_true]
      exact ⟨8, false, rfl, .inl rfl⟩
    · by_cases hfive : c = 5
      · simp only [hnone hfive, if_pos hfive]
        exact hmore
      · rw [if_neg hfive]
        exact hmore

end EsOs.Escort
