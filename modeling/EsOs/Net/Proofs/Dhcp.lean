import EsOs.Net.Dhcp

/-!
# When a DHCP reply is read as it is

The loop takes two bytes for a pad, and more bytes for the datagram than there are. It reads what the
options say, when every pad is followed by another one and the options end inside the datagram.
-/

namespace EsOs.Net.DHCPControl

open EsOs.Lib

variable {msg bytes behind data : List UInt8} {d d' : Decoded} {type : UInt8} {len : Nat}
  {state next : ReplyState}

/-! ## One option -/

/-- What an option leaves of the overloaded fields. -/
structure After (d d' : Decoded) : Prop where
  marked : (d.sname ∨ d.file → d.overloaded) → (d'.sname ∨ d'.file → d'.overloaded)
  overloaded : d.overloaded → d'.overloaded ∧ d'.sname = d.sname ∧ d'.file = d.file

theorem After.refl (d : Decoded) : After d d := ⟨id, fun h => ⟨h, rfl, rfl⟩⟩

theorem After.trans {d₁ d₂ d₃ : Decoded} (h : After d₁ d₂) (h' : After d₂ d₃) : After d₁ d₃ where
  marked := fun hd => h'.marked (h.marked hd)
  overloaded := by
    intro hd
    obtain ⟨hover, hsname, hfile⟩ := h.overloaded hd
    obtain ⟨hover', hsname', hfile'⟩ := h'.overloaded hover
    exact ⟨hover', hsname'.trans hsname, hfile'.trans hfile⟩

/-- An option changes the overloaded fields only where they are not overloaded yet. -/
theorem handle_after {n : Nat} {store : List UInt8 → Decoded}
    (h : handle d type len = .reads n store) (data : List UInt8) : After d (store data) := by
  have hsame : ∀ d' : Decoded, d'.overloaded = d.overloaded → d'.sname = d.sname →
      d'.file = d.file → After d d' := fun d' hover hsname hfile =>
    ⟨fun hd hd' => hover ▸ hd (hsname ▸ hfile ▸ hd'), fun hd => ⟨hover ▸ hd, hsname, hfile⟩⟩
  have hover : d.overloaded = false → ∀ d' : Decoded, d'.overloaded = true → After d d' :=
    fun hd d' hd' => ⟨fun _ _ => hd', fun h => absurd (hd ▸ h) Bool.false_ne_true⟩
  unfold handle at h
  split at h <;> (try split at h) <;> (try split at h) <;>
    simp only [reduceCtorEq, Handling.reads.injEq] at h
  all_goals
    obtain ⟨rfl, rfl⟩ := h
    first
      | exact hsame _ rfl rfl rfl
      | (dsimp only; split <;> exact hsame _ rfl rfl rfl)
      | exact hover (by simp_all) _ rfl

/-- It reads no more than the bytes of the option, but for the two whose length is not tested. -/
theorem handle_reads {n : Nat} {store : List UInt8 → Decoded}
    (h : handle d type len = .reads n store) :
    n ≤ len ∨ type = 23 ∧ n = 1 ∨ type = 26 ∧ n = 2 := by
  have htype : ∀ k : UInt8, type.toNat = k.toNat → type = k := fun k hk => UInt8.toNat_inj.mp hk
  unfold handle at h
  split at h <;> (try split at h) <;> (try split at h) <;>
    simp only [reduceCtorEq, Handling.reads.injEq] at h
  all_goals
    obtain ⟨rfl, -⟩ := h
    first
      | omega
      | exact .inr (.inl ⟨htype 23 ‹_›, rfl⟩)
      | exact .inr (.inr ⟨htype 26 ‹_›, rfl⟩)

theorem option_after (h : option d type len bytes = .kept d') : After d d' := by
  unfold option at h
  split at h
  · cases h
  · cases h
    exact .refl d
  · rename_i n store hreads
    split at h
    · cases h
      exact handle_after hreads _
    · cases h

/-- Nothing is read behind the bytes where there are enough of them. -/
theorem option_ne_outside (hlen : len ≤ bytes.length) (htwo : 2 ≤ bytes.length) :
    option d type len bytes ≠ .outside := by
  intro h
  unfold option at h
  split at h
  · cases h
  · cases h
  · rename_i n store hreads
    split at h
    · cases h
    · rename_i hn
      rcases handle_reads hreads with hle | ⟨-, rfl⟩ | ⟨-, rfl⟩ <;> omega

/-- What stands behind the bytes of an option does not matter. -/
theorem option_append (httl : type = 23 → 1 ≤ data.length) (hmtu : type = 26 → 2 ≤ data.length)
    (more : List UInt8) :
    option d type data.length (data ++ more) = option d type data.length data := by
  unfold option
  split
  · rfl
  · rfl
  · rename_i n store hreads
    have hn : n ≤ data.length := by
      rcases handle_reads hreads with hle | ⟨htype, rfl⟩ | ⟨htype, rfl⟩
      · exact hle
      · exact httl htype
      · exact hmtu htype
    rw [if_pos (Nat.le_trans hn (by simp)), if_pos hn, List.take_append_of_le_length hn]

/-! ## One turn -/

theorem replyTurn_end (h : state.optlen ≤ 0) : replyTurn msg state = areaEnd msg state.decoded := by
  rw [replyTurn, if_pos h]

theorem replyTurn_fin {vend : Nat} {optlen : Int} {rest : List UInt8} (hpos : 0 < optlen)
    (h : msg.drop vend = fin :: rest) : replyTurn msg ⟨vend, optlen, d⟩ = areaEnd msg d := by
  rw [replyTurn, if_neg (Int.not_le.mpr hpos)]
  simp only [h]
  rw [if_pos trivial]

theorem replyTurn_pad {vend : Nat} {optlen : Int} {rest : List UInt8} (hpos : 0 < optlen)
    (h : msg.drop vend = pad :: rest) :
    replyTurn msg ⟨vend, optlen, d⟩ = .goes ⟨vend + 2, optlen - 2, d⟩ := by
  rw [replyTurn, if_neg (Int.not_le.mpr hpos)]
  simp only [h]
  rw [if_neg (by decide), if_pos trivial]

/-- An option without a length is refused. -/
theorem replyTurn_cut {vend : Nat} {rest : List UInt8} (h : msg.drop vend = type :: rest)
    (hpad : type ≠ pad) (hfin : type ≠ fin) :
    replyTurn msg ⟨vend, 1, d⟩ = .returns 0 d.tentative := by
  have hpos : ¬ (1 : Int) ≤ 0 := by decide
  rw [replyTurn, if_neg hpos]
  simp only [h]
  rw [if_neg hfin, if_neg hpad, if_pos (by decide)]

theorem replyTurn_option {vend : Nat} {optlen : Int} {l : UInt8} (hpos : 2 ≤ optlen)
    (h : msg.drop vend = type :: l :: bytes) (hpad : type ≠ pad) (hfin : type ≠ fin) :
    replyTurn msg ⟨vend, optlen, d⟩ =
      if optlen - 2 < l.toNat then .returns 0 d.tentative
      else
        match option d type l.toNat bytes with
        | .kept d => .goes ⟨vend + 2 + l.toNat, optlen - 2 - l.toNat, d⟩
        | .refused => .returns 0 d.tentative
        | .outside => .outside := by
  rw [replyTurn, if_neg (by simp only; omega)]
  simp only [h]
  rw [if_neg hfin, if_neg hpad]
  exact if_neg (by omega)

/-! ## One area -/

/-- The loop comes to the end of an area, or `reply` returns 0. -/
inductive AreaRun (msg : List UInt8) (state : ReplyState) (r : Option Decoded) : Prop
  | rejects {n : Nat} {last : ReplyState} {info : DHCPInfo} : r = none →
      iterated (replyNext msg) n state = some last → replyTurn msg last = .returns 0 info →
      AreaRun msg state r
  | ends {n : Nat} {last : ReplyState} {d : Decoded} : r = some d → After state.decoded d →
      iterated (replyNext msg) n state = some last → replyTurn msg last = areaEnd msg d →
      AreaRun msg state r

theorem AreaRun.rejected {info : DHCPInfo} (h : replyTurn msg state = .returns 0 info) :
    AreaRun msg state none :=
  @AreaRun.rejects msg state none 0 state info rfl rfl h

theorem AreaRun.ended (h : replyTurn msg state = areaEnd msg state.decoded) :
    AreaRun msg state (some state.decoded) :=
  @AreaRun.ends msg state _ 0 state state.decoded rfl (.refl _) rfl h

theorem AreaRun.goes {r : Option Decoded} (hturn : replyTurn msg state = .goes next)
    (hafter : After state.decoded next.decoded) (h : AreaRun msg next r) :
    AreaRun msg state r := by
  have hnext : replyNext msg state = some next := by rw [replyNext, hturn]
  cases h with
  | rejects hr hrun hlast => exact .rejects hr (iterated_of_next hnext _ ▸ hrun) hlast
  | ends hr hkept hrun hlast =>
    exact .ends hr (hafter.trans hkept) (iterated_of_next hnext _ ▸ hrun) hlast

/-- Every area inside the header is read to its end. -/
theorem areaRun_header (hmsg : hdrSize ≤ msg.length) (n : Nat) :
    ∀ {state : ReplyState}, state.optlen ≤ n → state.vend + state.optlen ≤ 236 →
    ∃ r, AreaRun msg state r := by
  induction n using Nat.strong_induction_on with
  | _ n ih =>
    rintro ⟨vend, optlen, d⟩ hn hfin
    simp only at hn hfin
    have hlen : (msg.drop vend).length = msg.length - vend := List.length_drop
    have hsize : hdrSize = 240 := rfl
    by_cases hpos : optlen ≤ 0
    · exact ⟨_, .ended (replyTurn_end hpos)⟩
    obtain ⟨type, rest, hdrop⟩ : ∃ type rest, msg.drop vend = type :: rest :=
      List.exists_cons_of_length_pos (by omega)
    rw [hdrop, List.length_cons] at hlen
    by_cases htype : type = fin
    · subst htype
      exact ⟨_, .ended (replyTurn_fin (Int.not_le.mp hpos) hdrop)⟩
    by_cases hpad : type = pad
    · subst hpad
      obtain ⟨r, hr⟩ := @ih (n - 1) (by omega) ⟨vend + 2, optlen - 2, d⟩
        (by simp only; omega) (by simp only; omega)
      exact ⟨r, .goes (replyTurn_pad (Int.not_le.mp hpos) hdrop) (.refl d) hr⟩
    by_cases hone : optlen = 1
    · subst hone
      exact ⟨none, .rejected (replyTurn_cut hdrop hpad htype)⟩
    obtain ⟨l, bytes, rfl⟩ : ∃ l bytes, rest = l :: bytes :=
      List.exists_cons_of_length_pos (by omega)
    rw [List.length_cons] at hlen
    have hturn := @replyTurn_option msg bytes d type vend optlen l (by omega) hdrop hpad htype
    by_cases hlong : optlen - 2 < l.toNat
    · rw [if_pos hlong] at hturn
      exact ⟨none, .rejected hturn⟩
    rw [if_neg hlong] at hturn
    cases hoption : option d type l.toNat bytes with
    | kept d' =>
      rw [hoption] at hturn
      obtain ⟨r, hr⟩ := @ih (n - 1) (by omega) ⟨vend + 2 + l.toNat, optlen - 2 - l.toNat, d'⟩
        (by simp only; omega) (by simp only; omega)
      exact ⟨r, .goes hturn (option_after hoption) hr⟩
    | refused =>
      rw [hoption] at hturn
      exact ⟨none, .rejected hturn⟩
    | outside => exact absurd hoption (option_ne_outside (by omega) (by omega))

theorem option_turn {vend slack : Nat} {l : UInt8}
    (h : msg.drop vend = type :: l :: bytes ++ behind) (hpad : type ≠ pad) (hfin : type ≠ fin) :
    replyTurn msg ⟨vend, (type :: l :: bytes).length + slack, d⟩ =
      if bytes.length + slack < l.toNat then .returns 0 d.tentative
      else
        match option d type l.toNat (bytes ++ behind) with
        | .kept d => .goes ⟨vend + 2 + l.toNat, (type :: l :: bytes).length + slack - 2 - l.toNat, d⟩
        | .refused => .returns 0 d.tentative
        | .outside => .outside := by
  have hlen : ((type :: l :: bytes).length : Int) = bytes.length + 2 := rfl
  rw [replyTurn_option (by omega) h hpad hfin]
  by_cases hlong : bytes.length + slack < l.toNat
  · rw [if_pos hlong, if_pos (by omega)]
  · rw [if_neg hlong]
    exact if_neg (by omega)

/-- The first of the options. -/
theorem options_option {closed : Bool} {l : UInt8} {os : List (UInt8 × List UInt8)}
    (h : Options closed (type :: l :: bytes) os) (hpad : type ≠ pad) (hfin : type ≠ fin) :
    ∃ data rest os', bytes = data ++ rest ∧ os = (type, data) :: os' ∧ l.toNat = data.length ∧
      (∀ d more, option d type data.length (data ++ more) = option d type data.length data) ∧
      Options closed rest os' := by
  cases h with
  | closes => exact absurd rfl hfin
  | pads _ => exact absurd rfl hpad
  | option _ _ hl httl hmtu hos =>
    exact ⟨_, _, _, rfl, rfl, hl, fun d more => option_append httl hmtu more, hos⟩

/-- An area that is read as it is says what its options say. -/
theorem areaRun_pairs {closed : Bool} {slack : Nat} (hslack : closed = false → slack = 0)
    (h : PaddedInPairs closed slack behind d bytes) :
    ∀ vend, msg.drop vend = bytes ++ behind →
    ∃ r, AreaRun msg ⟨vend, bytes.length + slack, d⟩ r ∧
      ∀ os, Options closed bytes os → decode d os = r := by
  induction h with
  | @closes d rest =>
    intro vend hdrop
    refine ⟨some d, .ended (replyTurn_fin ?_ hdrop), fun os hos => ?_⟩
    · rw [List.length_cons]
      omega
    · cases hos with
      | closes => rfl
      | option _ hfin _ _ _ _ => exact absurd rfl hfin
  | @ends d hopen =>
    intro vend hdrop
    refine ⟨some d, .ended (replyTurn_end ?_), fun os hos => ?_⟩
    · rw [hslack hopen]
      exact Int.le_refl _
    · cases hos
      rfl
  | @last d hopen =>
    intro vend hdrop
    refine ⟨some d, .goes (replyTurn_pad ?_ hdrop) (.refl d)
      (.ended (replyTurn_end ?_)), fun os hos => ?_⟩
    · rw [List.length_singleton]
      omega
    · rw [hslack hopen]
      exact (show ((1 : Int) + 0 - 2) ≤ 0 by decide)
    · cases hos with
      | pads hos =>
        cases hos
        rfl
  | @cut d type hopen hpad hfin =>
    intro vend hdrop
    rw [hslack hopen]
    refine ⟨none, .rejected (replyTurn_cut hdrop hpad hfin), fun os hos => ?_⟩
    cases hos with
    | closes => exact absurd rfl hfin
    | pads _ => exact absurd rfl hpad
  | @pads d bytes _ ih =>
    intro vend hdrop
    obtain ⟨r, hr, hdecode⟩ := ih (vend + 2) (by rw [← List.drop_drop, hdrop]; rfl)
    refine ⟨r, .goes (replyTurn_pad ?_ hdrop) (.refl d) ?_, fun os hos => ?_⟩
    · rw [List.length_cons]
      omega
    · have hlen : ((pad :: pad :: bytes).length : Int) + slack - 2 = bytes.length + slack := by
        rw [List.length_cons, List.length_cons]
        omega
      rwa [hlen]
    · cases hos with
      | pads hos =>
        cases hos with
        | pads hos => exact hdecode os hos
        | option hpad _ _ _ _ _ => exact absurd rfl hpad
      | option hpad _ _ _ _ _ => exact absurd rfl hpad
  | @long d type l bytes hpad hfin hlong =>
    intro vend hdrop
    have hturn := @option_turn msg _ behind d _ vend slack _ hdrop hpad hfin
    rw [if_pos hlong] at hturn
    refine ⟨none, .rejected hturn, fun os hos => ?_⟩
    obtain ⟨data, rest, os, rfl, rfl, hl, -, -⟩ := options_option hos hpad hfin
    rw [List.length_append] at hlong
    omega
  | @refused d type l bytes hpad hfin hrefused =>
    intro vend hdrop
    have hturn := @option_turn msg _ behind d _ vend slack _ hdrop hpad hfin
    refine ⟨none, @AreaRun.rejected _ _ d.tentative ?_, fun os hos => ?_⟩
    · rw [hturn, hrefused, ite_self]
    · obtain ⟨data, rest, os, rfl, rfl, hl, hdata, -⟩ := options_option hos hpad hfin
      rw [List.append_assoc, hl, hdata] at hrefused
      rw [decode, hrefused]
  | @option d d' type l bytes hpad hfin hlen hoption _ ih =>
    intro vend hdrop
    have hturn := @option_turn msg _ behind d _ vend slack _ hdrop hpad hfin
    have hbehind : msg.drop (vend + 2 + l.toNat) = bytes.drop l.toNat ++ behind := by
      rw [← List.drop_drop, ← List.drop_drop, hdrop]
      exact List.drop_append_of_le_length hlen
    obtain ⟨r, hr, hdecode⟩ := ih (vend + 2 + l.toNat) hbehind
    rw [if_neg (by omega), hoption] at hturn
    refine ⟨r, .goes hturn (option_after hoption) ?_, fun os hos => ?_⟩
    · have hsame : ((bytes.drop l.toNat).length : Int) + slack =
          (type :: l :: bytes).length + slack - 2 - l.toNat := by
        rw [List.length_drop, List.length_cons, List.length_cons]
        omega
      rwa [← hsame]
    · obtain ⟨data, rest, os, rfl, rfl, hl, hdata, hos⟩ := options_option hos hpad hfin
      rw [List.append_assoc, hl, hdata] at hoption
      rw [decode, hoption]
      rw [hl, List.drop_left] at hdecode
      exact hdecode os hos

/-- An overloaded field is read to its end, and says what its options say if it is read as it is. -/
theorem areaRun_field (hmsg : hdrSize ≤ msg.length) (d : Decoded) (v n : Nat) (hfin : v + n ≤ 236) :
    ∃ r, AreaRun msg ⟨v, n, d⟩ r ∧
      ((∀ os, Options false ((msg.drop v).take n) os →
        PaddedInPairs false 0 (msg.drop (v + n)) d ((msg.drop v).take n)) →
      ∀ os, Options false ((msg.drop v).take n) os → decode d os = r) := by
  by_cases hpairs : PaddedInPairs false 0 (msg.drop (v + n)) d ((msg.drop v).take n)
  · have hdrop : msg.drop v = (msg.drop v).take n ++ msg.drop (v + n) := by
      rw [← List.drop_drop, List.take_append_drop]
    have hlen : (((msg.drop v).take n).length : Int) + (0 : Nat) = n := by
      have hsize : hdrSize = 240 := rfl
      rw [List.length_take, List.length_drop]
      omega
    obtain ⟨r, hr, hdecode⟩ := areaRun_pairs (fun _ => rfl) hpairs v hdrop
    rw [hlen] at hr
    exact ⟨r, hr, fun _ => hdecode⟩
  · obtain ⟨r, hr⟩ := @areaRun_header msg hmsg n ⟨v, n, d⟩ (Int.le_refl _) (by simp only; omega)
    exact ⟨r, hr, fun hall os hos => absurd (hall os hos) hpairs⟩

/-! ## The whole loop -/

/-- `reply` returns from a state of its loop. -/
def ReturnsFrom (msg : List UInt8) (state : ReplyState) (type : UInt8) (info : DHCPInfo) : Prop :=
  ∃ n last, iterated (replyNext msg) n state = some last ∧ replyTurn msg last = .returns type info

/-- It returns from the end of an area. -/
def ReturnsBehind (msg : List UInt8) (d : Decoded) (type : UInt8) (info : DHCPInfo) : Prop :=
  areaEnd msg d = .returns type info ∨
    ∃ next, areaEnd msg d = .goes next ∧ ReturnsFrom msg next type info

/-- The result is what the options say. -/
def Says (msg : List UInt8) (r : Option Decoded) (type : UInt8) (info : DHCPInfo) : Prop :=
  match r with
  | none => type = 0
  | some d => (type, info) = finish msg d

theorem ReturnsFrom.of_run {n : Nat} {type : UInt8} {info : DHCPInfo}
    (hrun : iterated (replyNext msg) n state = some next)
    (h : ReturnsFrom msg next type info) : ReturnsFrom msg state type info := by
  obtain ⟨m, last, hlast, hturn⟩ := h
  exact ⟨n + m, last, by rw [iterated_add, hrun, Option.bind_some, hlast], hturn⟩

/-- An area and what is behind it. -/
theorem AreaRun.returns {r : Option Decoded} (h : AreaRun msg state r) :
    (r = none ∧ ∃ info, ReturnsFrom msg state 0 info) ∨
      ∃ d, r = some d ∧ After state.decoded d ∧ ∀ type info, ReturnsBehind msg d type info →
        ReturnsFrom msg state type info := by
  cases h with
  | rejects hr hrun hlast => exact .inl ⟨hr, _, _, _, hrun, hlast⟩
  | @ends n last d hr hafter hrun hlast =>
    refine .inr ⟨d, hr, hafter, fun type info hbehind => ?_⟩
    rcases hbehind with hreturns | ⟨next, hgoes, hreturns⟩
    · exact ⟨n, last, hrun, hlast.trans hreturns⟩
    · have hnext : replyNext msg last = some next := by rw [replyNext, hlast, hgoes]
      refine .of_run hrun ?_
      obtain ⟨m, last', hrun', hturn⟩ := hreturns
      exact ⟨m + 1, last', by rw [iterated_of_next hnext, hrun'], hturn⟩

/-- From the end of the area that `sname` has been. -/
theorem returnsBehind_file (hmsg : hdrSize ≤ msg.length) (hsname : d.sname = false)
    (hover : d.file → d.overloaded) :
    ∃ type info, ReturnsBehind msg d type info ∧
      ((d.file → ∀ os, Options false (fileOf msg) os →
        PaddedInPairs false 0 (msg.drop 236) { d with file := false } (fileOf msg)) →
      ∀ r, AreaDecodes d.file (fileOf msg) { d with file := false } r → Says msg r type info) := by
  cases hfile : d.file with
  | false =>
    have hend : areaEnd msg d = .returns (finish msg d).1 (finish msg d).2 := by
      rw [areaEnd, hsname, hfile]
      rfl
    refine ⟨_, _, .inl hend, fun _ r hr => ?_⟩
    have hsame : { d with file := false } = d := by
      rw [← hfile]
    cases hr
    rw [hsame]
    exact rfl
  | true =>
    have hend : areaEnd msg d = .goes ⟨108, 128, { d with file := false }⟩ := by
      rw [areaEnd, hsname, hfile]
      rfl
    obtain ⟨r, hr, hdecode⟩ := areaRun_field hmsg { d with file := false } 108 128 (by decide)
    rcases hr.returns with ⟨rfl, info, hreturns⟩ | ⟨d', rfl, hafter, hbehind⟩
    · refine ⟨0, info, .inr ⟨_, hend, hreturns⟩, fun hpairs r hr => ?_⟩
      obtain ⟨os, hos, rfl⟩ := hr
      rw [hdecode (hpairs rfl) os hos]
      exact rfl
    · obtain ⟨-, hsname', hfile'⟩ := hafter.overloaded (hover hfile)
      have hend' : areaEnd msg d' = .returns (finish msg d').1 (finish msg d').2 := by
        rw [areaEnd, hsname', hfile', hsname]
        rfl
      refine ⟨_, _, .inr ⟨_, hend, hbehind _ _ (.inl hend')⟩, fun hpairs r hr => ?_⟩
      obtain ⟨os, hos, rfl⟩ := hr
      rw [hdecode (hpairs rfl) os hos]
      exact rfl

/-- What is known behind both fields. -/
def FieldsDecode (msg : List UInt8) (d : Decoded) (r : Option Decoded) : Prop :=
  ∃ r', AreaDecodes d.sname (snameOf msg) { d with sname := false } r' ∧
    match r' with
    | none => r = none
    | some d => AreaDecodes d.file (fileOf msg) { d with file := false } r

/-- The overloaded fields behind `d` are read as they are. -/
structure FieldsReadAsIs (msg : List UInt8) (d : Decoded) : Prop where
  sname : d.sname → ∀ os, Options false (snameOf msg) os →
    PaddedInPairs false 0 (msg.drop 108) { d with sname := false } (snameOf msg)
  file : ∀ d', AreaDecodes d.sname (snameOf msg) { d with sname := false } (some d') → d'.file →
    ∀ os, Options false (fileOf msg) os →
    PaddedInPairs false 0 (msg.drop 236) { d' with file := false } (fileOf msg)

/-- From the end of the options behind the header. -/
theorem returnsBehind_fields (hmsg : hdrSize ≤ msg.length)
    (hmarked : d.sname ∨ d.file → d.overloaded) :
    ∃ type info, ReturnsBehind msg d type info ∧
      (FieldsReadAsIs msg d → ∀ r, FieldsDecode msg d r → Says msg r type info) := by
  cases hsname : d.sname with
  | false =>
    obtain ⟨type, info, hreturns, hsays⟩ :=
      returnsBehind_file hmsg hsname (fun hfile => hmarked (.inr hfile))
    refine ⟨type, info, hreturns, fun hpairs r hr => ?_⟩
    have hsame : { d with sname := false } = d := by
      rw [← hsname]
    have hnone : AreaDecodes d.sname (snameOf msg) { d with sname := false } (some d) := by
      rw [hsame, hsname]
      exact rfl
    obtain ⟨r', hr', hfile⟩ := hr
    rw [hsame, hsname] at hr'
    cases hr'
    exact hsays (hpairs.file d hnone) r hfile
  | true =>
    have hend : areaEnd msg d = .goes ⟨44, 64, { d with sname := false }⟩ := by
      rw [areaEnd, hsname]
      rfl
    obtain ⟨r', hrun, hdecode⟩ := areaRun_field hmsg { d with sname := false } 44 64 (by decide)
    rcases hrun.returns with ⟨rfl, info, hreturns⟩ | ⟨d', rfl, hafter, hbehind⟩
    · refine ⟨0, info, .inr ⟨_, hend, hreturns⟩, fun hpairs r hr => ?_⟩
      obtain ⟨r', hr', hfile⟩ := hr
      rw [hsname] at hr'
      obtain ⟨os, hos, rfl⟩ := hr'
      rw [hdecode (hpairs.sname hsname) os hos] at hfile
      rw [show r = none from hfile]
      exact rfl
    · obtain ⟨hover, hsname', hfile'⟩ := hafter.overloaded (hmarked (.inl hsname))
      obtain ⟨type, info, hreturns, hsays⟩ := returnsBehind_file hmsg hsname' (fun _ => hover)
      refine ⟨type, info, .inr ⟨_, hend, hbehind type info hreturns⟩, fun hpairs r hr => ?_⟩
      obtain ⟨r', hr', hfile⟩ := hr
      have hr'' := hr'
      rw [hsname] at hr''
      obtain ⟨os, hos, rfl⟩ := hr''
      have hsome := hdecode (hpairs.sname hsname) os hos
      rw [hsome] at hr' hfile
      exact hsays (hpairs.file d' hr') r hfile

/-- The loop returns what the options say, for a message that is read as it is. -/
theorem returnsFrom_start {wide : Bool} (hmsg : hdrSize ≤ msg.length) (h : ReadAsIs wide msg) :
    ∃ type info, ReturnsFrom msg (replyStart wide msg) type info ∧
      ∀ r, Decodes msg r → Says msg r type info := by
  have hdrop : msg.drop hdrSize = msg.drop hdrSize ++ [] := (List.append_nil _).symm
  have hclosed : true = false → slack wide = 0 := fun h => nomatch h
  obtain ⟨r', hrun, hdecode⟩ := areaRun_pairs hclosed h.options hdrSize hdrop
  have hstart : (⟨hdrSize, ((msg.drop hdrSize).length : Int) + slack wide, {}⟩ : ReplyState) =
      replyStart wide msg := by
    have hlen : ((msg.drop hdrSize).length : Int) + slack wide =
        msg.length - sizeofSize wide := by
      have hsize : hdrSize = 240 := rfl
      have hword : sizeofSize wide ≤ 8 := by cases wide <;> decide
      rw [List.length_drop, slack]
      omega
    rw [hlen]
    rfl
  rw [hstart] at hrun
  rcases hrun.returns with ⟨rfl, info, hreturns⟩ | ⟨d, rfl, hafter, hbehind⟩
  · refine ⟨0, info, hreturns, fun r hr => ?_⟩
    obtain ⟨os, hos, hr⟩ := hr
    rw [hdecode os hos] at hr
    rw [show r = none from hr]
    exact rfl
  · have hmarked : d.sname ∨ d.file → d.overloaded :=
      hafter.marked fun h => h.elim (fun h => nomatch h) (fun h => nomatch h)
    obtain ⟨type, info, hreturns, hsays⟩ := returnsBehind_fields hmsg hmarked
    refine ⟨type, info, hbehind type info hreturns, fun r hr => ?_⟩
    obtain ⟨os, hos, hr⟩ := hr
    have hsome := hdecode os hos
    rw [hsome] at hr
    exact hsays ⟨fun hsname os' hos' => h.sname os d os' hos hsome hsname hos',
      fun d' hd' hfile os' hos' => h.file os d d' os' hos hsome hd' hfile hos'⟩ r hr

/-! ## Times -/

/-- The times are in order, whatever the server says. -/
theorem timers_ordered (info : DHCPInfo) :
    (timers info).renewal ≤ (timers info).rebinding ∧ (timers info).rebinding ≤ (timers info).lease := by
  unfold timers
  simp only
  split <;> split <;> split <;> omega

theorem areaEnd_ordered {info : DHCPInfo} (h : areaEnd msg d = .returns type info)
    (htype : type ≠ 0) : info.renewal ≤ info.rebinding ∧ info.rebinding ≤ info.lease := by
  unfold areaEnd at h
  split at h
  · cases h
  · split at h
    · cases h
    · obtain ⟨rfl, rfl⟩ := ReplyTurn.returns.inj h
      unfold finish at htype ⊢
      split at htype
      · exact absurd rfl htype
      · rename_i haccepted
        rw [if_neg haccepted]
        exact timers_ordered _

/-- So they are in every reply that is accepted. -/
theorem replyTurn_ordered {info : DHCPInfo} (h : replyTurn msg state = .returns type info)
    (htype : type ≠ 0) : info.renewal ≤ info.rebinding ∧ info.rebinding ≤ info.lease := by
  unfold replyTurn at h
  simp only at h
  split at h
  · exact areaEnd_ordered h htype
  · split at h
    · cases h
    · split at h
      · exact areaEnd_ordered h htype
      · split at h
        · cases h
        · split at h
          · cases h
            exact absurd rfl htype
          · split at h
            · cases h
            · split at h
              · cases h
                exact absurd rfl htype
              · split at h
                · cases h
                · cases h
                  exact absurd rfl htype
                · cases h

/-- A message that is read as it is, is read right. -/
theorem repliesRight_of_readAsIs {wide : Bool} {xid : Nat} {msg : List UInt8}
    (h : IsReply xid msg → ReadAsIs wide msg) : RepliesRight wide xid msg := by
  have hloop : IsReply xid msg → ∃ type info n last,
      iterated (replyNext msg) n (replyStart wide msg) = some last ∧ replyNext msg last = none ∧
      replyTurn msg last = .returns type info ∧ ∀ r, Decodes msg r → Says msg r type info := by
    intro hreply
    obtain ⟨type, info, ⟨n, last, hrun, hlast⟩, hsays⟩ := returnsFrom_start hreply.1 (h hreply)
    exact ⟨type, info, n, last, hrun, by rw [replyNext, hlast], hlast, hsays⟩
  refine ⟨fun hreply => ?_, fun hreply => ?_, fun hreply => ?_, fun tentative type info hr => ?_⟩
  · obtain ⟨type, info, n, last, hrun, hnone, -, -⟩ := hloop hreply
    exact (halts_iff_of_iterated hrun).mpr (halts_of_next_none hnone)
  · obtain ⟨type, info, n, last, hrun, hnone, hlast, -⟩ := hloop hreply
    intro m state hstate houtside
    have hnone' : replyNext msg state = none := by rw [replyNext, houtside]
    rw [iterated_last_unique hstate hnone' hrun hnone, hlast] at houtside
    cases houtside
  · obtain ⟨type, info, n, last, hrun, hnone, hlast, hsays⟩ := hloop hreply
    intro r hr tentative type' info' hreturns
    cases hreturns with
    | refuses hrefuses => exact absurd hreply hrefuses
    | @returns n' last' _ _ _ hrun' hlast' =>
      have hnone' : replyNext msg last' = none := by rw [replyNext, hlast']
      rw [iterated_last_unique hrun' hnone' hrun hnone, hlast] at hlast'
      cases hlast'
      exact hsays r hr
  · intro htype
    cases hr with
    | refuses _ => exact absurd rfl htype
    | returns _ _ hlast => exact replyTurn_ordered hlast htype

/-- A header of a reply that offers 10.0.0.2. -/
def offerHdr : List UInt8 :=
  [2, 1, 6, 0, 0, 0, 0, 9] ++ List.replicate 8 0 ++ [10, 0, 0, 2] ++ List.replicate 216 0 ++
    [99, 130, 83, 99]

/-- An offer whose options have two pads and an end. -/
def paddedOffer : List UInt8 := offerHdr ++ [0, 0, 53, 1, 2, 255]

/-- The options of an offer with pads in front. -/
theorem options_pads {bytes : List UInt8} {os : List (UInt8 × List UInt8)}
    (h : Options true (pad :: bytes) os) : Options true bytes os := by
  cases h with
  | pads hos => exact hos
  | option hpad _ _ _ _ _ => exact absurd rfl hpad

theorem options_offer {os : List (UInt8 × List UInt8)} (h : Options true [53, 1, 2, 255] os) :
    os = [(53, [2])] := by
  obtain ⟨data, rest, os', hbytes, rfl, hlen, -, hrest⟩ := options_option h (by decide) (by decide)
  match data, hlen with
  | [b], _ =>
    cases hbytes
    cases hrest
    rfl

/-- Pads in pairs are passed. -/
theorem repliesRight_paddedOffer : RepliesRight true 9 paddedOffer := by
  refine repliesRight_of_readAsIs fun _ => ?_
  have hdrop : paddedOffer.drop hdrSize = [0, 0, 53, 1, 2, 255] := by decide +kernel
  have hflags : ∀ os d, Options true (paddedOffer.drop hdrSize) os → decode {} os = some d →
      d = { messageType := 2 } := by
    intro os d hos hdecode
    rw [hdrop] at hos
    rw [options_offer (options_pads (options_pads hos))] at hdecode
    exact (Option.some.inj hdecode).symm
  refine ⟨?_, fun os d os' hos hdecode hsname => ?_, fun os d d' os' hos hdecode hd' hfile => ?_⟩
  · rw [hdrop]
    exact .pads (.option (by decide) (by decide) (by decide) rfl .closes)
  · rw [hflags os d hos hdecode] at hsname
    cases hsname
  · rw [hflags os d hos hdecode] at hd'
    cases hd'
    cases hfile

/-- An offer with one pad. -/
def oneForPad : List UInt8 := offerHdr ++ [0, 53, 1, 2, 255]

/-- It is not taken. -/
theorem not_repliesRight_pad : ¬ RepliesRight true 9 oneForPad := by
  intro h
  have hdrop : oneForPad.drop hdrSize = [0, 53, 1, 2, 255] := by decide +kernel
  have hreply : IsReply 9 oneForPad := by
    unfold IsReply
    decide +kernel
  have hdecodes : Decodes oneForPad (some { messageType := 2 }) := by
    refine ⟨[(53, [2])], ?_, ?_⟩
    · rw [hdrop]
      exact .pads (@Options.option _ 53 1 [2] _ _ (by decide) (by decide) rfl (by decide)
        (by decide) .closes)
    · exact ⟨some { messageType := 2 }, rfl, rfl⟩
  have hreturns : ReplyReturns true 9 oneForPad {} 0 {} :=
    @ReplyReturns.returns _ _ _ _ 1 ⟨242, 235, {}⟩ _ _ hreply (by decide +kernel)
      (by decide +kernel)
  have hfinish := h.decodes hreply _ hdecodes {} 0 {} hreturns
  have htype : (finish oneForPad { messageType := 2 }).1 = 2 := by decide +kernel
  rw [← hfinish] at htype
  cases htype

end EsOs.Net.DHCPControl
