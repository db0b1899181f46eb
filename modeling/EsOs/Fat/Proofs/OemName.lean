import EsOs.Fat.Name
import Mathlib.Data.List.Infix
import Mathlib.Data.List.GetD

/-!
# Which names are their own short names

A conversion to a short name that is not lossy keeps the characters before the first dot and those
behind the last one. Dots without anything behind them are dropped.
-/

namespace EsOs.Fat

variable {utf16 : List Nat} {s t : OemState} {fcb fcb' : Fcb}

/-- A character that a short name holds in upper case. -/
structure IsShort (u : Nat) : Prop where
  low : 0 < u
  high : u < 0x7f
  blank : toupper u ≠ 0x20
  dot : u ≠ 0x2e
  valid : isValidShortChar (UInt8.ofNat (toupper u)) = true

theorem toupper_le (u : Nat) : toupper u ≤ u := by
  unfold toupper
  split <;> omega

theorem toupper_eq_of_not_letter {u c : Nat} (hc : c < 0x41) (h : toupper u = c) : u = c := by
  unfold toupper islower at h
  split at h
  · rename_i hlow
    simp only [Bool.and_eq_true, decide_eq_true_eq] at hlow
    omega
  · exact h

theorem tolower_toupper {u : Nat} (hu : u < 0x7f) : tolower (toupper u) = tolower u := by
  unfold tolower toupper islower
  simp only [Bool.and_eq_true, decide_eq_true_eq]
  repeat' split
  all_goals omega

theorem tolower_tolower (u : Nat) : tolower (tolower u) = tolower u := by
  unfold tolower
  repeat' split
  all_goals omega

section Lossless

/-- A character that is taken without loss. -/
theorem oemCode_lossless {u ch : Nat} {lossy : Bool} (h : oemCode u lossy = some (ch, false)) :
    lossy = false ∧ (u = 0 ∧ ch = 0 ∨
      0 < u ∧ u < 0x7f ∧ ch = toupper u ∧ isValidShortChar (UInt8.ofNat ch) = true) := by
  unfold oemCode at h
  split at h
  · rename_i hu
    cases h
    exact ⟨rfl, .inl ⟨hu, rfl⟩⟩
  split at h
  · rename_i hu hlt
    simp only at h
    split at h
    · cases h
    split at h
    · cases h
    · rename_i hvalid
      cases h
      exact ⟨rfl, .inr ⟨Nat.pos_of_ne_zero hu, hlt, rfl, by simpa using hvalid⟩⟩
  · cases h

theorem oemCode_of_lossy {u ch : Nat} {lossy : Bool} (h : oemCode u true = some (ch, lossy)) :
    lossy = true := by
  cases lossy with
  | true => rfl
  | false => cases (oemCode_lossless h).1

theorem noteCase_of_lossy (u : Nat) (letters : Int) : noteCase u letters true = (letters, true) :=
  rfl

/-- Where the loops over a part stop: at the end, at a dot, or at another character. -/
def Stops (s : OemState) : Prop :=
  (s.utf16 = [] ∧ s.ch = 0) ∨ (∃ rest, s.utf16 = 0x2e :: rest ∧ s.ch = 0x2e) ∨
    (s.ch ≠ 0 ∧ s.ch ≠ 0x2e)

theorem stops_of_code {u ch : Nat} {rest bytes : List Nat} {letters : Int} {lossy : Bool}
    (h : oemCode u lossy = some (ch, false)) (hu : u ≠ 0) :
    Stops ⟨u :: rest, ch, bytes, letters, false⟩ := by
  obtain ⟨-, ⟨hzero, -⟩ | ⟨hpos, -, rfl, -⟩⟩ := oemCode_lossless h
  · exact absurd hzero hu
  · refine .inr ?_
    by_cases hdot : toupper u = 0x2e
    · exact .inl ⟨rest, by rw [toupper_eq_of_not_letter (by decide) hdot], hdot⟩
    · refine .inr ⟨fun hzero => ?_, hdot⟩
      rw [toupper_eq_of_not_letter (by decide) hzero] at hpos
      exact absurd hpos (Nat.lt_irrefl 0)

theorem oemMain_of_lossy {bytes : List Nat} {case8 : Int}
    (h : oemMain utf16 bytes case8 true = some s) : s.lossy = true := by
  induction utf16 generalizing bytes case8 with
  | nil =>
    cases h
    rfl
  | cons u rest ih =>
    rw [oemMain] at h
    split at h
    · cases h
    rename_i ch lossy hcode
    rw [oemCode_of_lossy hcode] at h
    simp only at h
    split at h
    · cases h
      rfl
    split at h
    · exact ih h
    split at h
    · cases h
      rfl
    · split at h <;> exact ih h

/-- The main part of a name that is taken without loss. -/
theorem oemMain_lossless {bytes : List Nat} {case8 : Int} {lossy : Bool}
    (h : oemMain utf16 bytes case8 lossy = some s) (hs : s.lossy = false) (h0 : 0 ∉ utf16)
    (hlen : bytes.length ≤ 8) :
    lossy = false ∧ ∃ m, utf16 = m ++ s.utf16 ∧ s.bytes = bytes ++ m.map toupper ∧
      (∀ u ∈ m, IsShort u) ∧ s.bytes.length ≤ 8 ∧ Stops s ∧ (s.bytes = [] → s.utf16 = []) := by
  induction utf16 generalizing bytes case8 lossy with
  | nil =>
    cases h
    exact ⟨hs, [], rfl, (List.append_nil _).symm, nofun, hlen, .inl ⟨rfl, rfl⟩, fun _ => rfl⟩
  | cons u rest ih =>
    have hu : u ≠ 0 := fun hzero => h0 (hzero ▸ .head _)
    have h0 : 0 ∉ rest := fun hmem => h0 (.tail _ hmem)
    rw [oemMain] at h
    split at h
    · cases h
    rename_i ch lossy' hcode
    rw [List.headD_cons] at hcode
    simp only at h
    split at h
    · rename_i hstop
      cases h
      simp only at hs
      subst hs
      refine ⟨(oemCode_lossless hcode).1, [], rfl, (List.append_nil _).symm, nofun, hlen,
        stops_of_code hcode hu, ?_⟩
      simp only
      rintro rfl
      obtain ⟨-, ⟨hzero, -⟩ | ⟨hpos, -, rfl, -⟩⟩ := oemCode_lossless hcode
      · exact absurd hzero hu
      · rcases hstop with hzero | hlong
        · exact absurd (toupper_eq_of_not_letter (by decide) hzero) hu
        · exact absurd (by decide) hlong
    split at h
    · rw [oemMain_of_lossy h] at hs
      cases hs
    split at h
    · rename_i hdot
      cases h
      simp only at hs
      subst hs
      exact ⟨(oemCode_lossless hcode).1, [], rfl, (List.append_nil _).symm, nofun, hlen,
        stops_of_code hcode hu, fun hnil => absurd hnil hdot.2⟩
    rename_i hgo hblank hdot
    by_cases hfirst : ch = 0x2e
    · rw [if_pos hfirst, noteCase_of_lossy] at h
      rw [oemMain_of_lossy h] at hs
      cases hs
    · rw [if_neg hfirst] at h
      simp only at h
      obtain ⟨hlossy, m, rfl, hbytes, hshort, hlen8, hstops, hempty⟩ := ih h h0 (by
        rw [List.length_append, List.length_singleton]
        omega)
      have hlossy' : lossy' = false := by
        cases lossy' with
        | false => rfl
        | true => cases hlossy
      rw [hlossy'] at hcode
      obtain ⟨hl, ⟨hzero, -⟩ | ⟨hpos, hlt, rfl, hvalid⟩⟩ := oemCode_lossless hcode
      · exact absurd hzero hu
      · refine ⟨hl, u :: m, rfl, ?_, ?_, hlen8, hstops, fun hnil => ?_⟩
        · rw [hbytes, List.append_assoc]
          rfl
        · intro v hv
          rcases List.mem_cons.mp hv with rfl | hv
          · exact ⟨hpos, hlt, hblank, fun hdot => hfirst (by rw [hdot]; rfl), hvalid⟩
          · exact hshort v hv
        · rw [hbytes] at hnil
          simp at hnil

theorem oemExtension_of_lossy {bytes : List Nat} {case3 : Int}
    (h : oemExtension utf16 bytes case3 true = some s) : s.lossy = true := by
  induction utf16 generalizing bytes case3 with
  | nil =>
    cases h
    rfl
  | cons u rest ih =>
    rw [oemExtension] at h
    split at h
    · cases h
    rename_i ch lossy hcode
    rw [oemCode_of_lossy hcode] at h
    simp only at h
    split at h
    · cases h
      rfl
    · rw [ite_self, noteCase_of_lossy] at h
      exact ih h

/-- The characters behind a dot that are taken without loss. -/
theorem oemExtension_lossless {bytes : List Nat} {case3 : Int} {lossy : Bool}
    (h : oemExtension utf16 bytes case3 lossy = some s) (hs : s.lossy = false) (h0 : 0 ∉ utf16)
    (hlen : bytes.length ≤ 3) :
    lossy = false ∧ ∃ e, utf16 = e ++ s.utf16 ∧ s.bytes = bytes ++ e.map toupper ∧
      (∀ u ∈ e, IsShort u) ∧ s.bytes.length ≤ 3 ∧ Stops s := by
  induction utf16 generalizing bytes case3 lossy with
  | nil =>
    cases h
    exact ⟨hs, [], rfl, (List.append_nil _).symm, nofun, hlen, .inl ⟨rfl, rfl⟩⟩
  | cons u rest ih =>
    have hu : u ≠ 0 := fun hzero => h0 (hzero ▸ .head _)
    have h0 : 0 ∉ rest := fun hmem => h0 (.tail _ hmem)
    rw [oemExtension] at h
    split at h
    · cases h
    rename_i ch lossy' hcode
    rw [List.headD_cons] at hcode
    simp only at h
    split at h
    · cases h
      simp only at hs
      subst hs
      exact ⟨(oemCode_lossless hcode).1, [], rfl, (List.append_nil _).symm, nofun, hlen,
        stops_of_code hcode hu⟩
    rename_i hgo
    by_cases hblank : ch = 0x20
    · rw [if_pos hblank, if_pos hblank, noteCase_of_lossy] at h
      rw [oemExtension_of_lossy h] at hs
      cases hs
    · rw [if_neg hblank, if_neg hblank] at h
      obtain ⟨hlossy, e, rfl, hbytes, hshort, hlen3, hstops⟩ := ih h h0 (by
        rw [List.length_append, List.length_singleton]
        omega)
      have hlossy' : lossy' = false := by
        cases lossy' with
        | false => rfl
        | true => cases hlossy
      rw [hlossy'] at hcode
      obtain ⟨hl, ⟨hzero, -⟩ | ⟨hpos, hlt, rfl, hvalid⟩⟩ := oemCode_lossless hcode
      · exact absurd hzero hu
      · refine ⟨hl, u :: e, rfl, ?_, ?_, hlen3, hstops⟩
        · rw [hbytes, List.append_assoc]
          rfl
        · intro v hv
          rcases List.mem_cons.mp hv with rfl | hv
          · exact ⟨hpos, hlt, hblank, fun hdot => hgo (.inr (.inl (by rw [hdot]; rfl))), hvalid⟩
          · exact hshort v hv

theorem oemSkip_of_lossy {ch : Nat} {rest : List Nat} {lossy : Bool}
    (h : oemSkip utf16 true = some (ch, rest, lossy)) : lossy = true := by
  induction utf16 with
  | nil =>
    cases h
    rfl
  | cons u utf16 ih =>
    rw [oemSkip] at h
    split at h
    · cases h
    rename_i ch lossy hcode
    rw [oemCode_of_lossy hcode] at h
    simp only at h
    split at h
    · exact ih h
    · cases h
      rfl

/-- Once something is lost, or a second extension begins, the conversion is lossy. -/
theorem oemExtensions_of_lossy {fuel : Nat} (h : oemExtensions fuel s = some t)
    (hs : s.lossy = true ∨ s.ch ≠ 0 ∧ (s.ch ≠ 0x2e ∨ s.bytes ≠ [])) : t.lossy = true := by
  induction fuel generalizing s with
  | zero => cases h
  | succ fuel ih =>
    rw [oemExtensions] at h
    split at h
    · rename_i hzero
      cases h
      exact hs.resolve_right fun hne => hne.1 hzero
    rename_i hne
    split at h
    · cases h
    rename_i ch rest lossy hskip
    rw [oemToDot] at hskip
    have hlossy : lossy = true ∨ ch = 0x2e ∧ s.bytes ≠ [] := by
      split at hskip
      · exact .inl (oemSkip_of_lossy hskip)
      · rename_i hdot
        cases hskip
        rcases hs with hs | ⟨-, hs | hs⟩
        · exact .inl hs
        · exact absurd hs hdot
        · exact .inr ⟨Decidable.not_not.mp hdot, hs⟩
    split at h
    · split at h
      · cases h
      rename_i e hext
      have hstart : (if 0 < s.bytes.length then true else lossy) = true := by
        rcases hlossy with rfl | ⟨-, hbytes⟩
        · exact ite_self _
        · rw [if_pos (List.length_pos_iff.mpr hbytes)]
      rw [hstart] at hext
      have hlost := oemExtension_of_lossy hext
      exact ih h (.inl hlost)
    · rename_i hdot
      exact ih h (.inl (hlossy.resolve_right fun hno => hdot hno.1))

/-- What follows a dot without loss: further dots, and one extension. -/
theorem oemExtensions_lossless {fuel : Nat} (h : oemExtensions fuel s = some t)
    (ht : t.lossy = false) (h0 : 0 ∉ s.utf16) (hdot : s.ch = 0x2e) (hbytes : s.bytes = []) :
    ∃ k e, s.utf16 = List.replicate k 0x2e ++ e ∧ (∀ u ∈ e, IsShort u) ∧
      t.bytes = e.map toupper ∧ t.bytes.length ≤ 3 := by
  induction fuel generalizing s with
  | zero => cases h
  | succ fuel ih =>
    rw [oemExtensions, if_neg (by rw [hdot]; decide), oemToDot,
      if_neg (Decidable.not_not.mpr hdot)] at h
    simp only [hdot, if_true] at h
    split at h
    · cases h
    rename_i e hext
    have hnext : e.lossy = false := by
      cases hl : e.lossy with
      | false => rfl
      | true =>
        rw [oemExtensions_of_lossy h (.inl hl)] at ht
        cases ht
    obtain ⟨-, first, hutf16, hfirst, hshort, hlen, hstops⟩ :=
      oemExtension_lossless hext hnext h0 (Nat.zero_le _)
    rw [List.nil_append] at hfirst
    rcases hstops with ⟨hend, hch⟩ | ⟨rest, hrest, hch⟩ | hother
    · -- the end of the name
      cases fuel with
      | zero => cases h
      | succ fuel =>
        rw [oemExtensions, if_pos hch] at h
        cases h
        rw [hend, List.append_nil] at hutf16
        exact ⟨0, first, hutf16, hshort, hfirst, hlen⟩
    · by_cases hempty : first = []
      · subst hempty
        rw [List.nil_append, hrest] at hutf16
        obtain ⟨k, e', hk, hshort', hbytes', hlen'⟩ := ih h
          (by
            simp only [hrest, List.tail_cons]
            exact fun hmem => h0 (hutf16 ▸ .tail _ hmem)) hch hfirst
        simp only [hrest, List.tail_cons] at hk
        exact ⟨k + 1, e', by rw [hutf16, hk]; rfl, hshort', hbytes', hlen'⟩
      · exfalso
        have hsecond := oemExtensions_of_lossy h (.inr ⟨by rw [hch]; decide, .inr (by
          simp only [hfirst]
          simpa using hempty)⟩)
        rw [hsecond] at ht
        cases ht
    · rw [oemExtensions_of_lossy h (.inr ⟨hother.1, .inl hother.2⟩)] at ht
      cases ht

end Lossless

section Unpack

/-- What `oemtoutf16` makes of a part that is padded with blanks. -/
theorem oemPart_eq {first len lower : Nat} {l : List Nat}
    (hbytes : ∀ i < len, fcb (first + i) = UInt8.ofNat (l.getD i 0x20)) (hlen : l.length ≤ len)
    (hshort : ∀ u ∈ l, u < 0x7f ∧ u ≠ 0x20 ∧ isValidShortChar (UInt8.ofNat u) = true) :
    ∃ l', fcb.oemPart first len lower = some l' ∧ foldName l' = foldName l := by
  have hpart : (List.range len).map (fun i => fcb (first + i)) =
      l.map UInt8.ofNat ++ List.replicate (len - l.length) 0x20 := by
    refine List.ext_getElem (by simp; omega) fun i hi hi' => ?_
    rw [List.length_map, List.length_range] at hi
    rw [List.getElem_map, List.getElem_range, hbytes i hi]
    by_cases hil : i < l.length
    · rw [List.getElem_append_left (by rwa [List.length_map]), List.getElem_map,
        List.getD_eq_getElem _ _ hil]
    · rw [List.getElem_append_right (by rw [List.length_map]; omega), List.getElem_replicate,
        List.getD_eq_default _ _ (by omega)]
      rfl
  have hne : ∀ b ∈ l.map UInt8.ofNat, b ≠ 0x20 := by
    rintro b hb rfl
    obtain ⟨u, hu, heq⟩ := List.mem_map.mp hb
    obtain ⟨hlt, hblank, -⟩ := hshort u hu
    have := congrArg UInt8.toNat heq
    rw [UInt8.toNat_ofNat'] at this
    simp only [UInt8.toNat_ofNat] at this
    omega
  have hdrop : ((List.range len).map fun i => fcb (first + i)).reverse.dropWhile (· == 0x20) =
      (l.map UInt8.ofNat).reverse := by
    rw [hpart, List.reverse_append, List.reverse_replicate]
    have hblanks : ∀ k, (List.replicate k (0x20 : UInt8) ++ (l.map UInt8.ofNat).reverse).dropWhile
        (· == 0x20) = (l.map UInt8.ofNat).reverse := by
      intro k
      induction k with
      | zero =>
        rw [List.replicate_zero, List.nil_append]
        cases hrev : (l.map UInt8.ofNat).reverse with
        | nil => rfl
        | cons b rest =>
          have hb : b ∈ l.map UInt8.ofNat := List.mem_reverse.mp (hrev ▸ .head _)
          rw [List.dropWhile_cons_of_neg]
          simpa using hne b hb
      | succ k ih =>
        rw [List.replicate_succ, List.cons_append, List.dropWhile_cons_of_pos rfl]
        exact ih
    exact hblanks _
  have hvalid : (l.map UInt8.ofNat).reverse.all isValidShortChar = true := by
    rw [List.all_eq_true]
    intro b hb
    obtain ⟨u, hu, rfl⟩ := List.mem_map.mp (List.mem_reverse.mp hb)
    exact (hshort u hu).2.2
  unfold Fcb.oemPart
  simp only [hdrop, hvalid, if_true, List.reverse_reverse, List.map_map]
  refine ⟨_, rfl, ?_⟩
  unfold foldName
  rw [List.map_map]
  refine List.map_congr_left fun u hu => ?_
  have hu' : (UInt8.ofNat u).toNat = u := by
    have := (hshort u hu).1
    rw [UInt8.toNat_ofNat']
    omega
  simp only [Function.comp_apply, hu']
  split
  · exact tolower_tolower u
  · rfl

end Unpack

/-- The name that a lossless conversion was given, by its parts. -/
theorem utf16tooem_lossless (h : utf16tooem utf16 fcb = some (false, fcb')) (h0 : 0 ∉ utf16) :
    ∃ m k e, utf16 = m ++ List.replicate k 0x2e ++ e ∧ (∀ u ∈ m ++ e, IsShort u) ∧
      m.length ≤ 8 ∧ e.length ≤ 3 ∧ (m = [] → k = 0) ∧ (k = 0 → e = []) ∧
      (∀ i < 8, fcb' (0 + i) = UInt8.ofNat ((m.map toupper).getD i 0x20)) ∧
      (∀ i < 3, fcb' (8 + i) = UInt8.ofNat ((e.map toupper).getD i 0x20)) := by
  obtain ⟨main, hmain, h⟩ := Option.bind_eq_some_iff.mp h
  obtain ⟨ext, hext, h⟩ := Option.bind_eq_some_iff.mp h
  obtain ⟨hlossy, hfcb⟩ := Prod.mk.inj (Option.some.inj h)
  have hmainlossy : main.lossy = false := by
    cases hl : main.lossy with
    | false => rfl
    | true =>
      rw [oemExtensions_of_lossy hext (.inl hl)] at hlossy
      cases hlossy
  obtain ⟨-, m, hutf16, hbytes, hshort, hlen, hstops, hempty⟩ :=
    oemMain_lossless hmain hmainlossy h0 (Nat.zero_le _)
  rw [List.nil_append] at hbytes
  have hmainbytes : ∀ i < 8, fcb' (0 + i) = UInt8.ofNat ((m.map toupper).getD i 0x20) := by
    intro i hi
    rw [← hfcb, Nat.zero_add, ← hbytes]
    exact if_pos hi
  have hextbytes : ∀ i < 3, fcb' (8 + i) = UInt8.ofNat (ext.bytes.getD i 0x20) := by
    intro i hi
    rw [← hfcb]
    simp only
    rw [if_neg (by omega), if_pos (by omega), Nat.add_sub_cancel_left]
  rw [hbytes, List.length_map] at hlen
  rcases hstops with ⟨hend, hch⟩ | ⟨rest, hrest, hch⟩ | hother
  · rw [oemExtensions, if_pos hch] at hext
    cases hext
    rw [hend, List.append_nil] at hutf16
    refine ⟨m, 0, [], ?_, ?_, hlen, Nat.zero_le _, fun _ => rfl, fun _ => rfl, hmainbytes, hextbytes⟩
    · rw [hutf16, List.replicate_zero, List.append_nil, List.append_nil]
    · rwa [List.append_nil]
  · obtain ⟨k, e, hk, hshort', hbytes', hlen'⟩ := oemExtensions_lossless hext hlossy
      (fun hmem => h0 (hutf16 ▸ List.mem_append_right m hmem)) hch rfl
    have hkpos : k ≠ 0 := by
      rintro rfl
      rw [List.replicate_zero, List.nil_append, hrest] at hk
      exact (hshort' 0x2e (hk ▸ .head _)).dot rfl
    rw [hbytes', List.length_map] at hlen'
    refine ⟨m, k, e, ?_, ?_, hlen, hlen', fun hm => ?_, fun hk0 => absurd hk0 hkpos, hmainbytes, ?_⟩
    · rw [hutf16, hk, List.append_assoc]
    · intro u hu
      rcases List.mem_append.mp hu with hu | hu
      · exact hshort u hu
      · exact hshort' u hu
    · rw [hempty (by rw [hbytes, hm]; rfl)] at hrest
      cases hrest
    · rwa [hbytes'] at hextbytes
  · rw [oemExtensions_of_lossy hext (.inr ⟨hother.1, .inl hother.2⟩)] at hlossy
    cases hlossy

theorem foldName_toupper {l : List Nat} (h : ∀ u ∈ l, IsShort u) :
    foldName (l.map toupper) = foldName l := by
  unfold foldName
  rw [List.map_map]
  exact List.map_congr_left fun u hu => tolower_toupper (h u hu).high

theorem short_toupper {l : List Nat} (h : ∀ u ∈ l, IsShort u) :
    ∀ u ∈ l.map toupper, u < 0x7f ∧ u ≠ 0x20 ∧ isValidShortChar (UInt8.ofNat u) = true := by
  intro u hu
  obtain ⟨v, hv, rfl⟩ := List.mem_map.mp hu
  exact ⟨Nat.lt_of_le_of_lt (toupper_le v) (h v hv).high, (h v hv).blank, (h v hv).valid⟩

/-- What `oemtoutf16` makes of the two parts of a short name, up to the case of the letters. -/
theorem oemtoutf16_eq {m e : List Nat} (hm : ∀ u ∈ m, IsShort u) (he : ∀ u ∈ e, IsShort u)
    (hmlen : m.length ≤ 8) (helen : e.length ≤ 3)
    (hmain : ∀ i < 8, fcb (0 + i) = UInt8.ofNat ((m.map toupper).getD i 0x20))
    (hext : ∀ i < 3, fcb (8 + i) = UInt8.ofNat ((e.map toupper).getD i 0x20)) :
    if m = [] then fcb.oemtoutf16 = none
    else ∃ name, fcb.oemtoutf16 = some name ∧
      foldName name = foldName m ++ if e = [] then [] else 0x2e :: foldName e := by
  split
  · rename_i hnil
    subst hnil
    unfold Fcb.oemtoutf16
    rw [if_pos]
    rw [List.all_eq_true]
    intro i hi
    have := hmain i (List.mem_range.mp hi)
    rw [Nat.zero_add] at this
    rw [this]
    rfl
  · rename_i hne
    obtain ⟨main, (hmainpart : fcb.oemPart 0 8 NTRes_LOWER8 = _), hmainfold⟩ := oemPart_eq hmain
      (by rwa [List.length_map]) (short_toupper hm)
    obtain ⟨extension, (hextpart : fcb.oemPart 8 3 NTRes_LOWER3 = _), hextfold⟩ := oemPart_eq hext
      (by rwa [List.length_map]) (short_toupper he)
    rw [foldName_toupper hm] at hmainfold
    rw [foldName_toupper he] at hextfold
    have hnot : ¬ ((List.range 8).all fun i => fcb i == 0x20) = true := by
      intro hall
      obtain ⟨u, m, rfl⟩ := List.exists_cons_of_ne_nil hne
      have h0 := hmain 0 (by decide)
      have hblank := List.all_eq_true.mp hall 0 (List.mem_range.mpr (by decide))
      rw [Nat.zero_add] at h0
      rw [h0] at hblank
      obtain ⟨hlt, hno, -⟩ := short_toupper hm (toupper u) (by simp)
      have := congrArg UInt8.toNat (eq_of_beq hblank)
      rw [List.map_cons, List.getD_cons_zero, UInt8.toNat_ofNat'] at this
      simp only [UInt8.toNat_ofNat] at this
      omega
    unfold Fcb.oemtoutf16
    rw [if_neg hnot, hmainpart, hextpart]
    refine ⟨_, rfl, ?_⟩
    have hempty : extension = [] ↔ e = [] := by
      rw [← List.length_eq_zero_iff, ← List.length_eq_zero_iff]
      have := congrArg List.length hextfold
      unfold foldName at this
      rw [List.length_map, List.length_map] at this
      rw [this]
    by_cases hnil : e = []
    · rw [if_pos hnil, hempty.mpr hnil, List.append_nil]
      exact hmainfold
    · rw [if_neg hnil, if_neg (by rw [List.isEmpty_iff]; exact fun h => hnil (hempty.mp h))]
      unfold foldName at hmainfold hextfold ⊢
      rw [List.map_append, List.map_cons, hmainfold, hextfold]
      rfl

theorem notMem_dot {l : List Nat} (h : ∀ u ∈ l, IsShort u) : 0x2e ∉ l :=
  fun hmem => (h _ hmem).dot rfl

/-- The dots of a name that is converted without loss. -/
theorem plainDots_iff {m e : List Nat} {k : Nat} (hm : ∀ u ∈ m, IsShort u) (he : ∀ u ∈ e, IsShort u)
    (hne : m ≠ []) (hk : k = 0 → e = []) :
    PlainDots (m ++ List.replicate k 0x2e ++ e) ↔ k = 0 ∨ (k = 1 ∧ e ≠ []) := by
  have hlast : ∀ l : List Nat, 0x2e ∉ l → ∀ a, l.getLast? = some a → a ≠ 0x2e := by
    intro l hl a ha hdot
    exact hl (hdot ▸ List.mem_of_getLast? ha)
  have hcount : ∀ l : List Nat, [0x2e, 0x2e] <:+: l → 2 ≤ l.count 0x2e :=
    fun l hl => (hl.sublist.count_le 0x2e : [0x2e, 0x2e].count 0x2e ≤ l.count 0x2e)
  have hdots : (m ++ List.replicate k 0x2e ++ e).count 0x2e = k := by
    rw [List.count_append, List.count_append, List.count_eq_zero_of_not_mem (notMem_dot hm),
      List.count_eq_zero_of_not_mem (notMem_dot he), List.count_replicate_self]
    omega
  constructor
  · rintro ⟨-, hend, hdouble⟩
    by_cases h0 : k = 0
    · exact .inl h0
    by_cases h1 : k = 1
    · subst h1
      refine .inr ⟨rfl, ?_⟩
      rintro rfl
      refine hend ?_
      rw [List.append_nil, List.replicate_one, List.getLast?_concat]
    · exfalso
      obtain ⟨j, rfl⟩ : ∃ j, k = j + 2 := ⟨k - 2, by omega⟩
      refine hdouble ⟨m, List.replicate j 0x2e ++ e, ?_⟩
      simp only [List.replicate_succ, List.append_assoc, List.cons_append, List.nil_append]
  · rintro (rfl | ⟨rfl, hne'⟩)
    · obtain rfl := hk rfl
      rw [List.replicate_zero, List.append_nil, List.append_nil] at hdots ⊢
      refine ⟨hne, fun hend => hlast m (notMem_dot hm) _ hend rfl, fun hdouble => ?_⟩
      have := hcount m hdouble
      omega
    · refine ⟨by simp, fun hend => ?_, fun hdouble => ?_⟩
      · rw [List.getLast?_append_of_ne_nil _ hne'] at hend
        exact hlast e (notMem_dot he) _ hend rfl
      · have := hcount _ hdouble
        omega

/-- A conversion that is not lossy gives the name back, up to the case of its letters, exactly when
    every dot of the name is between two other characters. -/
theorem utf16tooem_plain_iff (h : utf16tooem utf16 fcb = some (false, fcb')) (h0 : 0 ∉ utf16) :
    (∃ name, fcb'.oemtoutf16 = some name ∧ foldName name = foldName utf16) ↔ PlainDots utf16 := by
  obtain ⟨m, k, e, rfl, hshort, hmlen, helen, hmk, hke, hmain, hext⟩ := utf16tooem_lossless h h0
  have hm : ∀ u ∈ m, IsShort u := fun u hu => hshort u (List.mem_append_left e hu)
  have he : ∀ u ∈ e, IsShort u := fun u hu => hshort u (List.mem_append_right m hu)
  have hname := oemtoutf16_eq hm he hmlen helen hmain hext
  by_cases hnil : m = []
  · obtain rfl := hmk hnil
    obtain rfl := hke rfl
    subst hnil
    rw [if_pos rfl] at hname
    refine iff_of_false ?_ fun hplain => hplain.1 rfl
    rintro ⟨name, heq, -⟩
    rw [hname] at heq
    cases heq
  · rw [if_neg hnil] at hname
    obtain ⟨name, heq, hfold⟩ := hname
    have hiff : (∃ name, fcb'.oemtoutf16 = some name ∧
        foldName name = foldName (m ++ List.replicate k 0x2e ++ e)) ↔
        foldName m ++ (if e = [] then [] else 0x2e :: foldName e) =
          foldName (m ++ List.replicate k 0x2e ++ e) := by
      rw [heq, ← hfold]
      simp only [Option.some.injEq, exists_eq_left']
    have hsplit : foldName (m ++ List.replicate k 0x2e ++ e) =
        foldName m ++ (List.replicate k 0x2e ++ foldName e) := by
      unfold foldName
      rw [List.map_append, List.map_append, List.map_replicate, List.append_assoc]
      rfl
    rw [hiff, hsplit, List.append_cancel_left_eq, plainDots_iff hm he hnil hke]
    constructor
    · intro hdots
      have hlen := congrArg List.length hdots
      rw [List.length_append, List.length_replicate] at hlen
      by_cases hempty : e = []
      · rw [if_pos hempty, List.length_nil] at hlen
        omega
      · rw [if_neg hempty, List.length_cons] at hlen
        exact .inr ⟨by omega, hempty⟩
    · rintro (rfl | ⟨rfl, hne⟩)
      · obtain rfl := hke rfl
        rfl
      · rw [if_neg hne]
        rfl

/-- `abc.txt` -/
theorem utf16tooem_plain_iff_abc :
    (∃ name, ((utf16tooem [97, 98, 99, 46, 116, 120, 116] fun _ => 0).map Prod.snd).bind
      Fcb.oemtoutf16 = some name ∧ foldName name = foldName [97, 98, 99, 46, 116, 120, 116]) ↔
      PlainDots [97, 98, 99, 46, 116, 120, 116] := by
  cases hconv : utf16tooem [97, 98, 99, 46, 116, 120, 116] fun _ => 0 with
  | none => exact absurd (congrArg Option.isSome hconv) (by decide +kernel)
  | some r =>
    obtain ⟨lossy, fcb⟩ := r
    have hlossy : lossy = false := by
      have := congrArg (Option.map Prod.fst) hconv
      rw [show (utf16tooem [97, 98, 99, 46, 116, 120, 116] fun _ => 0).map Prod.fst = some false by
        decide +kernel] at this
      exact (Option.some.inj this).symm
    subst hlossy
    exact utf16tooem_plain_iff hconv (by decide)

/-- `a.` loses its dot. -/
theorem utf16tooem_not_plain :
    ¬ ∀ (utf16 : List Nat) (fcb fcb' : Fcb), 0 ∉ utf16 → utf16tooem utf16 fcb = some (false, fcb') →
      ∃ name, fcb'.oemtoutf16 = some name ∧ foldName name = foldName utf16 := by
  intro h
  cases hconv : utf16tooem [97, 46] fun _ => 0 with
  | none => exact absurd (congrArg Option.isSome hconv) (by decide +kernel)
  | some r =>
    obtain ⟨lossy, fcb⟩ := r
    have hlossy : lossy = false := by
      have := congrArg (Option.map Prod.fst) hconv
      rw [show (utf16tooem [97, 46] fun _ => 0).map Prod.fst = some false by decide +kernel] at this
      exact (Option.some.inj this).symm
    subst hlossy
    obtain ⟨name, hname, hfold⟩ := h _ _ _ (by decide) hconv
    have hshort : ((utf16tooem [97, 46] fun _ => 0).map Prod.snd).bind Fcb.oemtoutf16 = some [97] := by
      decide +kernel
    rw [hconv, Option.map_some, Option.bind_some, hname] at hshort
    obtain rfl := Option.some.inj hshort
    exact absurd hfold (by decide)

end EsOs.Fat
