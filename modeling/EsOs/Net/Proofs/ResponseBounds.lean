import Mathlib
import EsOs.Net.HostName
import EsOs.Net.Proofs.Answers

/-!
# When a response is parsed safely

`skipName` gives a null pointer for a reserved label type, and its callers use it. `copyName` ends
where the labels and pointers do.
-/

namespace EsOs.Net.Resolver

open EsOs.Lib

variable {query msg : List UInt8}

/-! ## Names that are stepped over -/

theorem and_mask_reserved {count : Nat} (h : 64 ≤ count) (hlt : count < 192) :
    count &&& 0xc0 ≠ 0 ∧ count &&& 0xc0 ≠ 0xc0 := by
  have hall : ∀ c : Fin 128, (64 + c.val) &&& 0xc0 ≠ 0 ∧ (64 + c.val) &&& 0xc0 ≠ 0xc0 := by
    decide +kernel
  have hthis := hall ⟨count - 64, by omega⟩
  rwa [show 64 + (count - 64) = count by omega] at hthis

theorem EndsAt.skipName {ptr fin : Nat} (h : EndsAt msg ptr fin) : skipName msg ptr = some fin := by
  induction h with
  | behind hend => rw [Resolver.skipName, if_neg (Nat.not_lt.mpr hend)]
  | root hlt hzero =>
    rw [Resolver.skipName, if_pos hlt]
    simp only [hzero]
    rw [if_pos trivial]
  | pointer hlt hcount =>
    have hmask := and_mask_pointer hcount (UInt8.toNat_lt _)
    rw [Resolver.skipName, if_pos hlt]
    simp only [hmask]
    rw [if_neg (by omega), if_pos (by decide), if_neg (by decide)]
  | label hlt hpos hcount _ ih =>
    rw [Resolver.skipName, if_pos hlt]
    simp only [and_mask hcount]
    rw [if_neg (by omega), if_neg (by simp)]
    exact ih

theorem Reserved.skipName {ptr : Nat} (h : Reserved msg ptr) : skipName msg ptr = none := by
  induction h with
  | here hlt hcount hless =>
    obtain ⟨hne, hne'⟩ := and_mask_reserved hcount hless
    rw [Resolver.skipName, if_pos hlt]
    simp only
    rw [if_neg (by omega), if_pos hne, if_pos hne']
  | label hlt hpos hcount _ ih =>
    rw [Resolver.skipName, if_pos hlt]
    simp only [and_mask hcount]
    rw [if_neg (by omega), if_neg (by simp)]
    exact ih

/-- Every name ends, or comes to a reserved type. -/
theorem endsAt_or_reserved (n : Nat) :
    ∀ ptr, msg.length - ptr ≤ n → (∃ fin, EndsAt msg ptr fin) ∨ Reserved msg ptr := by
  induction n with
  | zero => exact fun ptr hn => .inl ⟨_, .behind (by omega)⟩
  | succ n ih =>
    intro ptr hn
    by_cases hlt : ptr < msg.length
    · have hbyte := (msg.getD ptr 0).toNat_lt
      by_cases hzero : (msg.getD ptr 0).toNat = 0
      · exact .inl ⟨_, .root hlt hzero⟩
      by_cases hlabel : (msg.getD ptr 0).toNat < 64
      · rcases ih (ptr + (1 + (msg.getD ptr 0).toNat)) (by omega) with ⟨fin, hfin⟩ | hreserved
        · exact .inl ⟨fin, .label hlt (by omega) hlabel hfin⟩
        · exact .inr (.label hlt (by omega) hlabel hreserved)
      by_cases hpointer : 192 ≤ (msg.getD ptr 0).toNat
      · exact .inl ⟨_, .pointer hlt hpointer⟩
      · exact .inr (.here hlt (by omega) (by omega))
    · exact .inl ⟨_, .behind (by omega)⟩

theorem skipName_eq_some {ptr fin : Nat} : skipName msg ptr = some fin ↔ EndsAt msg ptr fin := by
  refine ⟨fun h => ?_, EndsAt.skipName⟩
  rcases endsAt_or_reserved _ ptr (Nat.le_refl _) with ⟨fin', hfin⟩ | hreserved
  · rw [hfin.skipName] at h
    exact Option.some.inj h ▸ hfin
  · rw [hreserved.skipName] at h
    cases h

theorem skipName_eq_none {ptr : Nat} : skipName msg ptr = none ↔ Reserved msg ptr := by
  refine ⟨fun h => ?_, Reserved.skipName⟩
  rcases endsAt_or_reserved _ ptr (Nat.le_refl _) with ⟨fin', hfin⟩ | hreserved
  · rw [hfin.skipName] at h
    cases h
  · exact hreserved

/-! ## The loops over the answers -/

section Loops

variable {step : Nat → Option Nat} {count start n opt : Nat}

theorem looksAt_zero (h : LooksAt msg step 0 start n opt) : n = 0 ∧ opt = start := by
  induction h with
  | start => exact ⟨rfl, rfl⟩
  | next _ _ _ ih => exact absurd ih.1 (Nat.succ_ne_zero _)

/-- The first answer, and those behind it. -/
theorem looksAt_succ :
    LooksAt msg step (count + 1) start n opt ↔ n = count + 1 ∧ opt = start ∨
      ∃ fin next, EndsAt msg start fin ∧ step fin = some next ∧
        LooksAt msg step count next n opt := by
  constructor
  · intro h
    induction h with
    | start => exact .inl ⟨rfl, rfl⟩
    | next _ hends hstep ih =>
      rcases ih with ⟨hn, rfl⟩ | ⟨fin, next, hfin, hnext, hlooks⟩
      · cases Nat.succ.inj hn
        exact .inr ⟨_, _, hends, hstep, .start⟩
      · exact .inr ⟨fin, next, hfin, hnext, hlooks.next hends hstep⟩
  · rintro (⟨rfl, rfl⟩ | ⟨fin, next, hfin, hnext, hlooks⟩)
    · exact .start
    · induction hlooks with
      | start => exact LooksAt.start.next hfin hnext
      | next _ hends hstep ih => exact ih.next hends hstep

/-- A loop reads outside where one of its names comes to a reserved type. -/
theorem outside_iff {Outside : Nat → Nat → Prop} (hzero : ∀ opt, ¬ Outside 0 opt)
    (hsucc : ∀ n opt, Outside (n + 1) opt ↔ Reserved msg opt ∨
      ∃ fin next, EndsAt msg opt fin ∧ step fin = some next ∧ Outside n next) :
    ∀ count start, ¬ Outside count start ↔
      ∀ n opt, LooksAt msg step count start (n + 1) opt → ¬ Reserved msg opt := by
  intro count
  induction count with
  | zero =>
    intro start
    exact iff_of_true (hzero start) fun n opt h => absurd (looksAt_zero h).1 (Nat.succ_ne_zero n)
  | succ count ih =>
    intro start
    rw [hsucc]
    constructor
    · intro hsafe n opt hlooks
      rcases looksAt_succ.mp hlooks with ⟨-, rfl⟩ | ⟨fin, next, hfin, hnext, hlooks⟩
      · exact fun hreserved => hsafe (.inl hreserved)
      · exact (ih next).mp (fun hout => hsafe (.inr ⟨fin, next, hfin, hnext, hout⟩)) n opt hlooks
    · rintro hall (hreserved | ⟨fin, next, hfin, hnext, hout⟩)
      · exact hall count start .start hreserved
      · refine (ih next).mpr (fun n opt hlooks => ?_) hout
        exact hall n opt (looksAt_succ.mpr (.inr ⟨fin, next, hfin, hnext, hlooks⟩))

end Loops

theorem addressLoop_reserved {n opt : Nat} (h : Reserved msg opt) :
    addressLoop msg (n + 1) opt = .outside := by
  simp only [addressLoop, h.skipName]

theorem addressLoop_next {n opt fin next : Nat} (hfin : EndsAt msg opt fin)
    (hstep : addressStep msg fin = some next) :
    addressLoop msg (n + 1) opt = addressLoop msg n next := by
  simp only [addressLoop, hfin.skipName]
  unfold addressStep at hstep
  split at hstep
  · rename_i hroom
    cases hstep
    rw [if_pos hroom]
  · rename_i hroom
    rw [if_neg hroom]
    split at hstep
    · cases hstep
    · rename_i hfits
      rw [if_neg hfits]
      split at hstep
      · rename_i hother
        cases hstep
        rw [if_pos hother]
      · cases hstep

theorem addressLoop_stop {n opt fin : Nat} (hfin : EndsAt msg opt fin)
    (hstep : addressStep msg fin = none) : addressLoop msg (n + 1) opt ≠ .outside := by
  simp only [addressLoop, hfin.skipName]
  unfold addressStep at hstep
  split at hstep
  · cases hstep
  · rename_i hroom
    rw [if_neg hroom]
    split at hstep
    · rename_i hcut
      rw [if_pos hcut]
      exact fun h => by cases h
    · rename_i hfits
      rw [if_neg hfits]
      split at hstep
      · cases hstep
      · rename_i hother
        rw [if_neg hother]
        exact fun h => by cases h

theorem addressLoop_outside (n opt : Nat) :
    addressLoop msg (n + 1) opt = .outside ↔ Reserved msg opt ∨
      ∃ fin next, EndsAt msg opt fin ∧ addressStep msg fin = some next ∧
        addressLoop msg n next = .outside := by
  constructor
  · intro h
    rcases @endsAt_or_reserved msg _ opt (Nat.le_refl _) with ⟨fin, hfin⟩ | hreserved
    · cases hstep : addressStep msg fin with
      | none => exact absurd h (addressLoop_stop hfin hstep)
      | some next => exact .inr ⟨fin, next, hfin, hstep, by rwa [addressLoop_next hfin hstep] at h⟩
    · exact .inl hreserved
  · rintro (hreserved | ⟨fin, next, hfin, hstep, h⟩)
    · exact addressLoop_reserved hreserved
    · rwa [addressLoop_next hfin hstep]

theorem pointerLoop_reserved {n opt : Nat} (h : Reserved msg opt) :
    pointerLoop msg (n + 1) opt = .outside := by
  simp only [pointerLoop, h.skipName]

theorem pointerLoop_next {n opt fin next : Nat} (hfin : EndsAt msg opt fin)
    (hstep : pointerStep msg fin = some next) :
    pointerLoop msg (n + 1) opt = pointerLoop msg n next := by
  simp only [pointerLoop, hfin.skipName]
  unfold pointerStep at hstep
  split at hstep
  · rename_i hother
    cases hstep
    rcases hother with hroom | hother
    · rw [if_pos hroom]
    · rw [if_pos hother, ite_self]
  · cases hstep

theorem pointerLoop_stop {n opt fin : Nat} (hfin : EndsAt msg opt fin)
    (hstep : pointerStep msg fin = none) :
    pointerLoop msg (n + 1) opt =
      if msg.length < fin + rrSize + be16 msg (fin + 8) then .again else .found (fin + rrSize) := by
  simp only [pointerLoop, hfin.skipName]
  unfold pointerStep at hstep
  split at hstep
  · cases hstep
  · rename_i hother
    obtain ⟨hroom, hother⟩ := not_or.mp hother
    rw [if_neg hroom, if_neg hother]

theorem pointerLoop_outside (n opt : Nat) :
    pointerLoop msg (n + 1) opt = .outside ↔ Reserved msg opt ∨
      ∃ fin next, EndsAt msg opt fin ∧ pointerStep msg fin = some next ∧
        pointerLoop msg n next = .outside := by
  constructor
  · intro h
    rcases @endsAt_or_reserved msg _ opt (Nat.le_refl _) with ⟨fin, hfin⟩ | hreserved
    · cases hstep : pointerStep msg fin with
      | none =>
        rw [pointerLoop_stop hfin hstep] at h
        split at h <;> cases h
      | some next => exact .inr ⟨fin, next, hfin, hstep, by rwa [pointerLoop_next hfin hstep] at h⟩
    · exact .inl hreserved
  · rintro (hreserved | ⟨fin, next, hfin, hstep, h⟩)
    · exact pointerLoop_reserved hreserved
    · rwa [pointerLoop_next hfin hstep]

/-- The PTR record that `getHostName` takes is the one behind a name that it looks at. -/
theorem pointerLoop_eq_found {count start ptr : Nat} :
    pointerLoop msg count start = .found ptr ↔
      ∃ n opt fin, LooksAt msg (pointerStep msg) count start (n + 1) opt ∧ EndsAt msg opt fin ∧
        pointerStep msg fin = none ∧ fin + rrSize + be16 msg (fin + 8) ≤ msg.length ∧
        ptr = fin + rrSize := by
  constructor
  · induction count generalizing start with
    | zero => exact fun h => nomatch h
    | succ count ih =>
      intro h
      rcases @endsAt_or_reserved msg _ start (Nat.le_refl _) with ⟨fin, hfin⟩ | hreserved
      · cases hstep : pointerStep msg fin with
        | none =>
          rw [pointerLoop_stop hfin hstep] at h
          split at h
          · cases h
          · rename_i hfits
            cases h
            exact ⟨count, start, fin, .start, hfin, hstep, Nat.not_lt.mp hfits, rfl⟩
        | some next =>
          rw [pointerLoop_next hfin hstep] at h
          obtain ⟨n, opt, fin', hlooks, hrest⟩ := ih h
          exact ⟨n, opt, fin', looksAt_succ.mpr (.inr ⟨fin, next, hfin, hstep, hlooks⟩), hrest⟩
      · rw [pointerLoop_reserved hreserved] at h
        cases h
  · rintro ⟨n, opt, fin, hlooks, hfin, hstep, hfits, rfl⟩
    have hsame : ∀ m opt, LooksAt msg (pointerStep msg) count start m opt →
        pointerLoop msg count start = pointerLoop msg m opt := by
      intro m opt hlooks
      induction hlooks with
      | start => rfl
      | next _ hends hstep ih => rw [ih, pointerLoop_next hends hstep]
    rw [hsame _ _ hlooks, pointerLoop_stop hfin hstep, if_neg (Nat.not_lt.mpr hfits)]

/-! ## Names that are copied -/

theorem copyTurn_behind {namelen ptr : Nat} {name : List UInt8} (h : msg.length ≤ ptr) :
    copyTurn msg ⟨ptr, namelen, name⟩ = .returns none := by
  unfold copyTurn
  rw [if_neg (Nat.not_lt.mpr h)]

theorem copyTurn_reserved {namelen ptr : Nat} {name : List UInt8} (hlt : ptr < msg.length)
    (h : 64 ≤ (msg.getD ptr 0).toNat) (hless : (msg.getD ptr 0).toNat < 192) :
    copyTurn msg ⟨ptr, namelen, name⟩ = .returns none := by
  obtain ⟨hne, hne'⟩ := and_mask_reserved h hless
  unfold copyTurn
  rw [if_pos hlt]
  simp only
  rw [if_pos hne, if_pos hne']

theorem copyTurn_pair {ptr : Nat} (namelen : Nat) (name : List UInt8) (hlt : ptr < msg.length)
    (hcount : 192 ≤ (msg.getD ptr 0).toNat) :
    copyTurn msg ⟨ptr, namelen, name⟩ =
      if msg.length ≤ ptr + 1 then .outside else .goes ⟨be16 msg ptr % 0x4000, namelen, name⟩ := by
  have hmask := and_mask_pointer hcount (UInt8.toNat_lt _)
  unfold copyTurn
  rw [if_pos hlt]
  simp only [hmask]
  rw [if_pos (by decide), if_neg (by decide)]

theorem copyTurn_count {ptr : Nat} (namelen : Nat) (name : List UInt8) (hlt : ptr < msg.length)
    (hcount : (msg.getD ptr 0).toNat < 64) :
    copyTurn msg ⟨ptr, namelen, name⟩ =
      if msg.length ≤ ptr + (msg.getD ptr 0).toNat then .returns none
      else if namelen < (msg.getD ptr 0).toNat + 1 then .returns none
      else if msg.length ≤ ptr + 1 + (msg.getD ptr 0).toNat then .outside
      else if msg.getD (ptr + 1 + (msg.getD ptr 0).toNat) 0 ≠ 0 then
        .goes ⟨ptr + 1 + (msg.getD ptr 0).toNat, namelen - ((msg.getD ptr 0).toNat + 1),
          name ++ (msg.drop (ptr + 1)).take (msg.getD ptr 0).toNat ++ [dot]⟩
      else .returns (some (name ++ (msg.drop (ptr + 1)).take (msg.getD ptr 0).toNat)) := by
  unfold copyTurn
  rw [if_pos hlt]
  simp only [and_mask hcount]
  rw [if_neg (by simp)]

/-- What a turn of `copyName` comes to, whatever it has copied. -/
inductive CopyStep (msg : List UInt8) (namelen ptr : Nat) : Prop
  | outside : (∀ name, copyTurn msg ⟨ptr, namelen, name⟩ = .outside) → ¬ Copyable msg namelen ptr →
      CopyStep msg namelen ptr
  | returns : (∀ name, ∃ result, copyTurn msg ⟨ptr, namelen, name⟩ = .returns result) →
      Copyable msg namelen ptr → CopyStep msg namelen ptr
  | goes {ptr' namelen' : Nat} : (∀ name, ∃ name',
        copyTurn msg ⟨ptr, namelen, name⟩ = .goes ⟨ptr', namelen', name'⟩) →
      (Copyable msg namelen ptr ↔ Copyable msg namelen' ptr') → CopyStep msg namelen ptr

theorem copyStep_pointer {namelen ptr : Nat} (hlt : ptr < msg.length)
    (hcount : 192 ≤ (msg.getD ptr 0).toNat) : CopyStep msg namelen ptr := by
  have hturn := fun name => copyTurn_pair namelen name hlt hcount
  by_cases hend : msg.length ≤ ptr + 1
  · simp only [if_pos hend] at hturn
    refine .outside hturn fun h => ?_
    cases h <;> omega
  · simp only [if_neg hend] at hturn
    refine .goes (fun name => ⟨name, hturn name⟩) ⟨fun h => ?_, .pointer (by omega) hcount⟩
    cases h with
    | pointer _ _ h => exact h
    | behind _ => omega
    | reserved _ _ _ => omega
    | cut _ _ _ => omega
    | long _ _ _ => omega
    | last _ _ _ => omega
    | label _ _ _ => omega

theorem copyStep_label {namelen ptr : Nat} (hlt : ptr < msg.length)
    (hcount : (msg.getD ptr 0).toNat < 64) : CopyStep msg namelen ptr := by
  have hturn := fun name => copyTurn_count namelen name hlt hcount
  by_cases hcut : msg.length ≤ ptr + (msg.getD ptr 0).toNat
  · simp only [if_pos hcut] at hturn
    exact .returns (fun name => ⟨none, hturn name⟩) (.cut hlt hcount hcut)
  simp only [if_neg hcut] at hturn
  by_cases hlong : namelen < (msg.getD ptr 0).toNat + 1
  · simp only [if_pos hlong] at hturn
    exact .returns (fun name => ⟨none, hturn name⟩) (.long hlt hcount hlong)
  simp only [if_neg hlong] at hturn
  by_cases hend : msg.length ≤ ptr + 1 + (msg.getD ptr 0).toNat
  · simp only [if_pos hend] at hturn
    refine .outside hturn fun h => ?_
    cases h <;> omega
  simp only [if_neg hend] at hturn
  by_cases hroot : msg.getD (ptr + 1 + (msg.getD ptr 0).toNat) 0 = 0
  · simp only [if_neg (not_not.mpr hroot)] at hturn
    exact .returns (fun name => ⟨_, hturn name⟩) (.last hcount (by omega) hroot)
  · simp only [if_pos hroot] at hturn
    refine .goes (fun name => ⟨_, hturn name⟩) ⟨fun h => ?_, .label hcount (by omega)⟩
    cases h with
    | label _ _ h => exact h
    | behind _ => omega
    | reserved _ _ _ => omega
    | cut _ _ _ => omega
    | long _ _ _ => omega
    | last _ _ h => exact absurd h hroot
    | pointer _ _ _ => omega

theorem copyStep (msg : List UInt8) (namelen ptr : Nat) : CopyStep msg namelen ptr := by
  by_cases hlt : ptr < msg.length
  · by_cases hlabel : (msg.getD ptr 0).toNat < 64
    · exact copyStep_label hlt hlabel
    by_cases hpointer : 192 ≤ (msg.getD ptr 0).toNat
    · exact copyStep_pointer hlt hpointer
    exact .returns (fun name => ⟨none, copyTurn_reserved hlt (by omega) (by omega)⟩)
      (.reserved hlt (by omega) (by omega))
  · exact .returns (fun name => ⟨none, copyTurn_behind (by omega)⟩) (.behind (by omega))

/-- The loop of `copyName` ends from a state on, and reads inside the message. -/
def CopySafe (msg : List UInt8) (state : CopyState) : Prop :=
  Halts (copyNext msg) state ∧ ∀ n last, iterated (copyNext msg) n state = some last →
    copyTurn msg last ≠ .outside

theorem copySafe_of_returns {state : CopyState} {result : Option (List UInt8)}
    (h : copyTurn msg state = .returns result) : CopySafe msg state := by
  have hnone : copyNext msg state = none := by rw [copyNext, h]
  refine ⟨halts_of_next_none hnone, (forall_iterated_of_none hnone).mpr ?_⟩
  rw [h]
  exact fun h => by cases h

theorem copySafe_iff_of_goes {state next : CopyState} (h : copyTurn msg state = .goes next) :
    CopySafe msg state ↔ CopySafe msg next := by
  have hnext : copyNext msg state = some next := by rw [copyNext, h]
  rw [CopySafe, CopySafe, halts_iff_of_next hnext, forall_iterated_of_next hnext, h]
  exact and_congr_right' ⟨fun h => h.2, fun h' => ⟨(fun h => by cases h), h'⟩⟩

/-- A name that can be copied is copied inside the message, in finitely many turns. -/
theorem Copyable.safe {namelen ptr : Nat} (h : Copyable msg namelen ptr) :
    ∀ name, CopySafe msg ⟨ptr, namelen, name⟩ := by
  induction h with
  | behind hend => exact fun name => copySafe_of_returns (copyTurn_behind hend)
  | reserved hlt hcount hless =>
    exact fun name => copySafe_of_returns (copyTurn_reserved hlt hcount hless)
  | @pointer namelen ptr hlt hcount _ ih =>
    intro name
    have hturn := copyTurn_pair namelen name (Nat.lt_of_succ_lt hlt) hcount
    rw [if_neg (by omega)] at hturn
    exact (copySafe_iff_of_goes hturn).mpr (ih name)
  | @cut namelen ptr hlt hcount hcut =>
    intro name
    have hturn := copyTurn_count namelen name hlt hcount
    rw [if_pos hcut] at hturn
    exact copySafe_of_returns hturn
  | @long namelen ptr hlt hcount hlong =>
    intro name
    have hturn := copyTurn_count namelen name hlt hcount
    rw [if_pos hlong, ite_self] at hturn
    exact copySafe_of_returns hturn
  | @last namelen ptr hcount hend hroot =>
    intro name
    have hturn := copyTurn_count namelen name (by omega) hcount
    rw [if_neg (by omega), if_neg (Nat.not_le.mpr hend), if_neg (not_not.mpr hroot)] at hturn
    split at hturn <;> exact copySafe_of_returns hturn
  | @label namelen ptr hcount hend _ ih =>
    intro name
    have hturn := copyTurn_count namelen name (by omega) hcount
    rw [if_neg (by omega), if_neg (Nat.not_le.mpr hend)] at hturn
    split at hturn
    · exact copySafe_of_returns hturn
    · split at hturn
      · exact (copySafe_iff_of_goes hturn).mpr (ih _)
      · exact copySafe_of_returns hturn

/-- And no other is. -/
theorem copyable_of_safe (n : Nat) : ∀ {namelen ptr : Nat} {name : List UInt8},
    iterated (copyNext msg) n ⟨ptr, namelen, name⟩ = none → CopySafe msg ⟨ptr, namelen, name⟩ →
    Copyable msg namelen ptr := by
  induction n with
  | zero => exact fun h => nomatch h
  | succ n ih =>
    intro namelen ptr name hn hsafe
    cases copyStep msg namelen ptr with
    | outside hturn _ => exact absurd (hturn name) (hsafe.2 0 _ rfl)
    | returns _ hcopyable => exact hcopyable
    | goes hturn hiff =>
      obtain ⟨name', hgoes⟩ := hturn name
      rw [iterated_of_next (by rw [copyNext, hgoes])] at hn
      exact hiff.mpr (ih hn ((copySafe_iff_of_goes hgoes).mp hsafe))

theorem copySafe_iff {namelen ptr : Nat} {name : List UInt8} :
    CopySafe msg ⟨ptr, namelen, name⟩ ↔ Copyable msg namelen ptr :=
  ⟨fun h => copyable_of_safe _ h.1.choose_spec h, fun h => h.safe name⟩

/-! ## The response -/

theorem question_outside : question query msg = .outside ↔ Reserved msg hdrSize := by
  rw [← skipName_eq_none, question]
  cases skipName msg hdrSize with
  | none => exact iff_of_true rfl rfl
  | some fin =>
    refine iff_of_false (fun h => ?_) (by simp)
    simp only at h
    split at h
    · cases h
    · split at h <;> cases h

theorem question_ne_fails : question query msg ≠ .fails := by
  intro h
  rw [question] at h
  cases hskip : skipName msg hdrSize with
  | none =>
    rw [hskip] at h
    cases h
  | some fin =>
    rw [hskip] at h
    simp only at h
    split at h
    · cases h
    · split at h <;> cases h

theorem question_found {opt : Nat} :
    question query msg = .found opt ↔ SameQuestion query msg opt := by
  constructor
  · intro h
    rw [question] at h
    cases hskip : skipName msg hdrSize with
    | none =>
      rw [hskip] at h
      cases h
    | some fin =>
      rw [hskip] at h
      simp only at h
      split at h
      · cases h
      · rename_i hroom
        split at h
        · cases h
        · rename_i hsame
          obtain ⟨hquery, hsame⟩ := not_or.mp hsame
          cases h
          exact ⟨by rwa [Nat.add_sub_cancel, ← skipName_eq_some], by omega, by omega, by omega,
            not_not.mp hsame⟩
  · intro h
    have hfour := h.four_le
    have hinside := h.inside
    have hquery := h.inQuery
    rw [question, h.ends.skipName]
    simp only [Nat.sub_add_cancel hfour]
    rw [if_neg (Nat.not_lt.mpr hinside), if_neg]
    exact not_or.mpr ⟨Nat.not_lt.mpr hquery, not_not.mpr h.same⟩

/-- The answers behind the question. -/
def answers (query msg : List UInt8) (loop : Nat → Parsed α) : Parsed α :=
  match question query msg with
  | .found opt => loop opt
  | .fails => .fails
  | .again => .again
  | .outside => .outside

theorem answers_outside {loop : Nat → Parsed α} :
    answers query msg loop = .outside ↔
      Reserved msg hdrSize ∨ ∃ opt, SameQuestion query msg opt ∧ loop opt = .outside := by
  rw [answers, ← @question_outside query msg]
  simp only [← question_found]
  cases hquestion : question query msg with
  | found opt => simp
  | fails => simp
  | again => simp
  | outside => simp

theorem answers_found {loop : Nat → Parsed α} {value : α} :
    answers query msg loop = .found value ↔
      ∃ opt, SameQuestion query msg opt ∧ loop opt = .found value := by
  rw [answers]
  simp only [← question_found]
  cases hquestion : question query msg with
  | found opt => simp
  | fails => simp
  | again => simp
  | outside => simp

theorem resolve_outside :
    resolve query msg = .outside ↔ IsReply query msg ∧ be16 msg 2 % 16 = 0 ∧
      answers query msg (addressLoop msg (be16 msg 6)) = .outside := by
  rw [resolve, IsReply]
  split
  · exact iff_of_false (fun h => by cases h) (fun h => by omega)
  · split
    · exact iff_of_false (fun h => by cases h) (fun h => by omega)
    · split
      · exact iff_of_false (fun h => by cases h) (fun h => by omega)
      · split
        · exact iff_of_false (fun h => by cases h) (fun h => by omega)
        · exact ⟨fun h => ⟨by omega, by omega, h⟩, fun h => h.2.2⟩

theorem pointer_of_isReply (h : IsReply query msg) :
    pointer query msg = answers query msg (pointerLoop msg (be16 msg 6)) := by
  rw [IsReply] at h
  rw [pointer, if_neg (by omega), if_neg (by omega)]
  rfl

theorem pointer_of_not_isReply (h : ¬ IsReply query msg) : pointer query msg = .again := by
  rw [IsReply] at h
  rw [pointer]
  split
  · rfl
  · rw [if_pos (by omega)]

/-- No name of the question or of the answers comes to a reserved type. -/
theorem answers_inside {loop : Nat → Nat → Parsed α} {step : Nat → Option Nat} {count : Nat}
    (hzero : ∀ opt, loop 0 opt ≠ .outside)
    (hsucc : ∀ n opt, loop (n + 1) opt = .outside ↔ Reserved msg opt ∨
      ∃ fin next, EndsAt msg opt fin ∧ step fin = some next ∧ loop n next = .outside) :
    answers query msg (loop count) ≠ .outside ↔ ¬ Reserved msg hdrSize ∧
      ∀ start n opt, SameQuestion query msg start → LooksAt msg step count start (n + 1) opt →
        ¬ Reserved msg opt := by
  have hloop := @outside_iff msg step (fun n opt => loop n opt = .outside) hzero hsucc count
  rw [Ne, answers_outside, not_or]
  refine and_congr_right' ⟨fun h start n opt hsame => ?_, ?_⟩
  · exact (hloop start).mp (fun hout => h ⟨start, hsame, hout⟩) n opt
  · rintro h ⟨start, hsame, hout⟩
    exact (hloop start).mpr (fun n opt => h start n opt hsame) hout

theorem addressLoop_inside : answers query msg (addressLoop msg (be16 msg 6)) ≠ .outside ↔
    ¬ Reserved msg hdrSize ∧ ∀ start n opt, SameQuestion query msg start →
      LooksAt msg (addressStep msg) (be16 msg 6) start (n + 1) opt → ¬ Reserved msg opt :=
  answers_inside (fun _ h => nomatch h) addressLoop_outside

theorem pointerLoop_inside : answers query msg (pointerLoop msg (be16 msg 6)) ≠ .outside ↔
    ¬ Reserved msg hdrSize ∧ ∀ start n opt, SameQuestion query msg start →
      LooksAt msg (pointerStep msg) (be16 msg 6) start (n + 1) opt → ¬ Reserved msg opt :=
  answers_inside (fun _ h => nomatch h) pointerLoop_outside

/-- Where `copyName` is called: at the data of the PTR record that is taken. -/
theorem pointer_found {ptr : Nat} :
    pointer query msg = .found ptr ↔ IsReply query msg ∧ ∃ start n opt fin,
      SameQuestion query msg start ∧
      LooksAt msg (pointerStep msg) (be16 msg 6) start (n + 1) opt ∧ EndsAt msg opt fin ∧
      pointerStep msg fin = none ∧ fin + rrSize + be16 msg (fin + 8) ≤ msg.length ∧
      ptr = fin + rrSize := by
  by_cases hreply : IsReply query msg
  · rw [pointer_of_isReply hreply, answers_found]
    simp only [pointerLoop_eq_found]
    constructor
    · rintro ⟨start, hsame, n, opt, fin, hrest⟩
      exact ⟨hreply, start, n, opt, fin, hsame, hrest⟩
    · rintro ⟨-, start, n, opt, fin, hsame, hrest⟩
      exact ⟨start, hsame, n, opt, fin, hrest⟩
  · rw [pointer_of_not_isReply hreply]
    exact iff_of_false (fun h => nomatch h) fun h => hreply h.1

/-- A response is parsed safely, when no name in it comes to a reserved type and the name in the PTR
    record can be copied. -/
theorem parsesSafely_iff (query msg : List UInt8) :
    ParsesSafely query msg ↔ ReadableReply query msg := by
  constructor
  · intro h
    have hpointer : IsReply query msg → _ := fun hreply =>
      pointerLoop_inside.mp (pointer_of_isReply hreply ▸ h.pointer)
    refine ⟨fun hreply => (hpointer hreply).1, fun hreply hrcode => ?_,
      fun hreply => (hpointer hreply).2, ?_⟩
    · have hloop : answers query msg (addressLoop msg (be16 msg 6)) ≠ .outside := fun hout =>
        h.resolve (resolve_outside.mpr ⟨hreply, hrcode, hout⟩)
      exact (addressLoop_inside.mp hloop).2
    · intro hreply start n opt fin hsame hlooks hends hstep hfits
      have hfound := pointer_found.mpr
        ⟨hreply, start, n, opt, fin, hsame, hlooks, hends, hstep, hfits, rfl⟩
      exact copySafe_iff.mp ⟨h.ends _ hfound, h.inside _ hfound⟩
  · intro h
    have hcopies : ∀ ptr, pointer query msg = .found ptr → CopySafe msg (copyStart ptr) := by
      intro ptr hfound
      obtain ⟨hreply, start, n, opt, fin, hsame, hlooks, hends, hstep, hfits, rfl⟩ :=
        pointer_found.mp hfound
      exact (h.data hreply start n opt fin hsame hlooks hends hstep hfits).safe []
    refine ⟨fun hout => ?_, fun hout => ?_, fun ptr hfound => (hcopies ptr hfound).2,
      fun ptr hfound => (hcopies ptr hfound).1⟩
    · obtain ⟨hreply, hrcode, hout⟩ := resolve_outside.mp hout
      exact addressLoop_inside.mpr ⟨h.question hreply, h.address hreply hrcode⟩ hout
    · by_cases hreply : IsReply query msg
      · rw [pointer_of_isReply hreply] at hout
        exact pointerLoop_inside.mpr ⟨h.question hreply, h.pointer hreply⟩ hout
      · rw [pointer_of_not_isReply hreply] at hout
        cases hout

/-- A response whose question has a label of a reserved type. -/
def reservedReply : List UInt8 := [0, 1, 0x81, 0x80, 0, 1, 0, 1, 0, 0, 0, 0, 0x40]

/-- A null pointer is used where the question of a response has a label of a reserved type. -/
theorem not_parsesSafely_reserved :
    ¬ ParsesSafely (queryHdr 1 ++ [1, 97, 0, 0, 1, 0, 1]) reservedReply := by
  intro h
  have hskip : skipName reservedReply hdrSize = none := by
    rw [skipName]
    decide
  have hquestion : question (queryHdr 1 ++ [1, 97, 0, 0, 1, 0, 1]) reservedReply = .outside := by
    rw [question, hskip]
  apply h.resolve
  unfold resolve
  rw [hquestion]
  decide

end EsOs.Net.Resolver
