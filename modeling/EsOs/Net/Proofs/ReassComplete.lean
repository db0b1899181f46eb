import EsOs.Net.Proofs.ReassSafe

/-!
# When a datagram is complete

The holes of a datagram are the bytes that have not come, as long as no fragment touches two holes:
the loop goes on with the end of the first hole in place of the end of the fragment, so that the
bytes of the fragment in the next hole stay missing. Until the last fragment has come, the hole at
the end begins in the datagram and goes on behind it.
-/

namespace EsOs.Net

open EsOs.Lib

variable {h first last x : Nat} {more : Bool} {gs : List Gap} {g : Gap} {m : Packet}

namespace HoleScan

theorem missing_nil : ¬ Missing [] x := by
  rintro ⟨g, hg, -⟩
  cases hg

theorem missing_cons : Missing (g :: gs) x ↔ (g.first ≤ x ∧ x ≤ g.last) ∨ Missing gs x := by
  simp [Missing]

theorem missing_append {gs' : List Gap} :
    Missing (gs ++ gs') x ↔ Missing gs x ∨ Missing gs' x := by
  simp only [Missing, List.mem_append, or_and_right, exists_or]

theorem missing_leftOf : Missing (leftOf first g) x ↔ g.first ≤ x ∧ x < first := by
  unfold leftOf
  split
  · rw [missing_cons, or_iff_left missing_nil]
    dsimp only
    omega
  · rw [iff_false_left missing_nil]
    omega

theorem missing_rightOf :
    Missing (rightOf last more g) x ↔ more = true ∧ last < x ∧ x ≤ g.last := by
  unfold rightOf
  split
  · rename_i hright
    rw [missing_cons, or_iff_left missing_nil]
    have hmore := hright.2
    dsimp only
    simp only [hmore, true_and]
    omega
  · rename_i hright
    rw [iff_false_left missing_nil]
    rintro ⟨hmore, hlast, hle⟩
    exact hright ⟨by omega, hmore⟩

/-- The fragment touches one hole at most. -/
def TouchesOne (first last : Nat) (gs : List Gap) : Prop :=
  ∀ g ∈ gs, ∀ g' ∈ gs, Touches first last g → Touches first last g' → g = g'

/-- The last fragment ends in a hole, and the byte lies behind. -/
def CutOff (first last : Nat) (more : Bool) (gs : List Gap) (x : Nat) : Prop :=
  more = false ∧ last < x ∧ ∃ g, touched first last gs = some g ∧ last < g.last

/-- What a fragment that touches one hole at most leaves missing. -/
theorem missing_fillGaps (hs : Holes h gs) (hone : TouchesOne first last gs) (hle : first ≤ last) :
    Missing (fillGaps first last more gs) x ↔
      Missing gs x ∧ ¬ (first ≤ x ∧ x ≤ last) ∧ ¬ CutOff first last more gs x := by
  induction gs with
  | nil => exact iff_of_false missing_nil fun h => missing_nil h.1
  | cons g gs ih =>
    obtain ⟨hfit, hrest, hbehind⟩ := hs.cons
    by_cases hin : Touches first last g
    · have hother : ∀ q ∈ gs, ¬ Touches first last q := by
        intro q hq htouch
        have heq := hone g (List.mem_cons_self ..) q (.tail _ hq) hin htouch
        have := hbehind q hq
        have := hfit.room
        rw [heq] at *
        omega
      have hout : Missing gs x → g.last < x ∧ ¬ (first ≤ x ∧ x ≤ last) := by
        rintro ⟨q, hq, hlo, hhi⟩
        have := hbehind q hq
        have := hother q hq
        unfold Touches at this
        omega
      have hcut : CutOff first last more (g :: gs) x ↔
          more = false ∧ last < x ∧ last < g.last := by
        unfold CutOff
        rw [touched_cons_pos hin]
        simp
      have hroom := hfit.room
      obtain ⟨hin₁, hin₂⟩ := hin
      rw [fillGaps, if_pos ⟨hin₁, hin₂⟩, missing_append, missing_append, missing_leftOf,
        missing_rightOf, missing_cons, hcut]
      unfold restOf
      cases more with
      | true =>
        simp only [Bool.true_eq_false, and_false, if_false, true_and, false_and, not_false_eq_true,
          and_true]
        constructor
        · rintro ((hleft | hright) | hmissing)
          · omega
          · omega
          · exact ⟨.inr hmissing, (hout hmissing).2⟩
        · rintro ⟨hg | hmissing, hnot⟩
          · omega
          · exact .inr hmissing
      | false =>
        by_cases hlast : last < g.last
        · simp only [hlast, and_self, if_true, Bool.false_eq_true, false_and, or_false, true_and,
            and_true, iff_false_intro (@missing_nil x)]
          constructor
          · intro hleft
            omega
          · rintro ⟨hg | hmissing, hnot, hcut⟩
            · omega
            · have := hout hmissing
              omega
        · simp only [hlast, false_and, if_false, Bool.false_eq_true, or_false, and_false,
            not_false_eq_true, and_true]
          constructor
          · rintro (hleft | hmissing)
            · omega
            · exact ⟨.inr hmissing, (hout hmissing).2⟩
          · rintro ⟨hg | hmissing, hnot⟩
            · omega
            · exact .inr hmissing
    · have hone' : TouchesOne first last gs := fun q hq q' hq' =>
        hone q (.tail _ hq) q' (.tail _ hq')
      have hcut : CutOff first last more (g :: gs) x ↔ CutOff first last more gs x := by
        unfold CutOff
        rw [touched_cons_neg hin]
      rw [fillGaps, if_neg hin, missing_cons, missing_cons, ih hrest hone', hcut]
      unfold Touches at hin
      constructor
      · rintro (hg | hmissing)
        · refine ⟨.inl hg, by omega, ?_⟩
          rintro ⟨-, hx, q, hq, -⟩
          have hmem := List.mem_of_find?_eq_some hq
          have htouch : Touches first last q := by simpa using List.find?_some hq
          have := hbehind q hmem
          unfold Touches at htouch
          omega
        · exact ⟨.inr hmissing.1, hmissing.2⟩
      · rintro ⟨hg | hmissing, hnot⟩
        · exact .inl hg
        · exact .inr ⟨hmissing, hnot⟩

/-- A hole that is left begins with one that was there, or behind the fragment. -/
theorem first_fillGaps {q : Gap} (hq : q ∈ fillGaps first last more gs) :
    (∃ g ∈ gs, q.first = g.first) ∨ (more = true ∧ q.first = last + 1) := by
  induction gs with
  | nil => cases hq
  | cons g gs ih =>
    unfold fillGaps at hq
    split at hq
    · simp only [List.mem_append, mem_leftOf, mem_rightOf] at hq
      rcases hq with (⟨-, rfl⟩ | ⟨⟨-, hmore⟩, rfl⟩) | hq
      · exact .inl ⟨g, List.mem_cons_self .., rfl⟩
      · exact .inr ⟨hmore, rfl⟩
      · exact .inl ⟨q, .tail _ (mem_restOf hq), rfl⟩
    · rcases List.mem_cons.mp hq with rfl | hq
      · exact .inl ⟨q, List.mem_cons_self .., rfl⟩
      · refine (ih hq).imp_left ?_
        rintro ⟨p, hp, heq⟩
        exact ⟨p, .tail _ hp, heq⟩

end HoleScan

theorem Reass.Held.holes_fit {r : Option Reass} (hr : Held r) : ∃ h, Holes h (holes r) := by
  cases r with
  | none => exact ⟨20, create_holes (by decide)⟩
  | some r => exact ⟨_, (hr.sound r rfl).holes⟩

/-- What is sent in fragments: its bytes, which a datagram without options has room for. -/
structure Datagram where
  len : Nat
  data : Nat → UInt8
  pos : 0 < len
  fits : len ≤ 65515

/-- The packet is a fragment of the datagram. -/
structure FragmentOf (d : Datagram) (m : Packet) : Prop extends Packet.Regular m where
  inside : m.first + m.len ≤ d.len
  last : m.hdr.moreFragments = false ↔ m.first + m.len = d.len
  agrees : ∀ i < m.len, m.payload i = d.data (m.first + i)

/-- A byte has come with one of the packets. -/
def Covered (ms : List Packet) (x : Nat) : Prop :=
  ∃ m ∈ ms, m.first ≤ x ∧ x ≤ m.last

/-- The last fragment has come, and every byte. -/
structure Complete (d : Datagram) (ms : List Packet) : Prop where
  last : ∃ m ∈ ms, m.hdr.moreFragments = false
  bytes : ∀ x < d.len, Covered ms x

theorem covered_cons {ms : List Packet} :
    Covered (m :: ms) x ↔ (m.first ≤ x ∧ x ≤ m.last) ∨ Covered ms x := by
  simp [Covered]

theorem FragmentOf.last_lt {d : Datagram} (hm : FragmentOf d m) :
    m.first ≤ m.last ∧ m.last < d.len := by
  have := hm.len_pos
  have := hm.inside
  unfold Packet.last
  omega

/-- A datagram between two packets, and the packets that have come. -/
structure Assembly where
  held : Option Reass
  received : List Packet

namespace Assembly

open HoleScan Reass

variable {d : Datagram} {a : Assembly}

/-- The fragments of a datagram come one after the other, in any order and any number of times. -/
def system (d : Datagram) : System Assembly (Chunk × Packet) where
  init a := a = ⟨none, []⟩
  step a l a' := FragmentOf d l.2 ∧ ∃ o, ReassReceiver.input l.1 a.held l.2 = some o ∧
    a' = match o with
      | .kept r => ⟨some r, l.2 :: a.received⟩
      | _ => ⟨none, []⟩

/-- There is room for the fragment, and it touches one hole at most. -/
def Meets (a : Assembly) (l : Chunk × Packet) : Prop :=
  Room a.held l.2 ∧ TouchesOne l.2.first l.2.last (holes a.held)

/-- A byte has not come, or it lies behind the datagram and the end is not known. -/
def Awaited (d : Datagram) (ms : List Packet) (x : Nat) : Prop :=
  (x < d.len ∧ ¬ Covered ms x) ∨
    (d.len ≤ x ∧ x ≤ 65515 ∧ ∀ m ∈ ms, m.hdr.moreFragments = true)

/-- The holes are the bytes that have not come. -/
structure Sound (d : Datagram) (a : Assembly) : Prop where
  held : Held a.held
  fragments : ∀ m ∈ a.received, FragmentOf d m
  missing : ∀ x, Missing (holes a.held) x ↔ Awaited d a.received x
  inside : ∀ g ∈ holes a.held, g.first < d.len

/-- The hole at the end of a datagram whose last fragment has not come begins in the datagram. -/
theorem Sound.tail (ha : a.Sound d)
    (hmore : ∀ m ∈ a.received, m.hdr.moreFragments = true) :
    ∃ g ∈ holes a.held, g.first < d.len ∧ g.last = 65515 := by
  have hfits := d.fits
  obtain ⟨_, hs⟩ := ha.held.holes_fit
  obtain ⟨g, hg, hlo, hhi⟩ := (ha.missing 65515).mpr (.inr ⟨hfits, Nat.le_refl _, hmore⟩)
  exact ⟨g, hg, ha.inside g hg, Nat.le_antisymm (hs.fits g hg).bound hhi⟩

theorem holed_start (d : Datagram) : Sound d ⟨none, []⟩ := by
  have hpos := d.pos
  have hfits := d.fits
  refine ⟨ReassReceiver.held_none, nofun, fun x => ?_, fun g hg => ?_⟩
  · have hnone : ¬ Covered [] x := fun ⟨m, hm, _⟩ => by cases hm
    unfold Awaited
    simp only [holes, missing_cons, missing_nil, or_false, hnone, not_false_eq_true, and_true,
      List.not_mem_nil, false_imp_iff, implies_true]
    omega
  · rw [List.mem_singleton.mp hg]
    exact hpos

/-- The bytes that are missing after a fragment are those that have not come with it either. -/
theorem Sound.missing_after (ha : a.Sound d) (hm : FragmentOf d m)
    (hone : TouchesOne m.first m.last (holes a.held)) (x : Nat) :
    Missing (holesAfter a.held m) x ↔ Awaited d (m :: a.received) x := by
  obtain ⟨hle, hlt⟩ := hm.last_lt
  have hfits := d.fits
  obtain ⟨_, hs⟩ := ha.held.holes_fit
  rw [holesAfter, missing_fillGaps hs hone hle, ha.missing]
  unfold Awaited
  rw [covered_cons]
  simp only [List.forall_mem_cons]
  cases hmore : m.hdr.moreFragments with
  | true =>
    have hcut : ¬ CutOff m.first m.last true (holes a.held) x := fun h => by cases h.1
    simp only [hcut, not_false_eq_true, and_true, true_and]
    constructor
    · rintro ⟨⟨hx, hnot⟩ | hbehind, hout⟩
      · exact .inl ⟨hx, fun h => h.elim hout hnot⟩
      · exact .inr hbehind
    · rintro (⟨hx, hnot⟩ | hbehind)
      · exact ⟨.inl ⟨hx, fun h => hnot (.inr h)⟩, fun h => hnot (.inl h)⟩
      · exact ⟨.inr hbehind, by omega⟩
  | false =>
    have hend := hm.last.mp hmore
    have hlast : m.last + 1 = d.len := by
      have := hm.len_pos
      unfold Packet.last
      omega
    simp only [Bool.false_eq_true, false_and, and_false, or_false]
    constructor
    · rintro ⟨⟨hx, hnot⟩ | ⟨hx, -, hall⟩, hout, hcut⟩
      · exact ⟨hx, fun h => h.elim hout hnot⟩
      · -- The fragment ends in the hole at the end.
        obtain ⟨g, hg, hfirst, hglast⟩ := ha.tail hall
        have htouch : Touches m.first m.last g := ⟨by omega, by omega⟩
        refine absurd ⟨rfl, by omega, ?_⟩ hcut
        cases hfound : touched m.first m.last (holes a.held) with
        | none => exact absurd (decide_eq_true htouch) (List.find?_eq_none.mp hfound g hg)
        | some q =>
          have hq : Touches m.first m.last q := by simpa using List.find?_some hfound
          have heq := hone q (List.mem_of_find?_eq_some hfound) g hg hq htouch
          exact ⟨q, rfl, by rw [heq]; omega⟩
    · rintro ⟨hx, hnot⟩
      refine ⟨.inl ⟨hx, fun h => hnot (.inr h)⟩, fun h => hnot (.inl h), ?_⟩
      rintro ⟨-, hbehind, -⟩
      omega

/-- There is no hole exactly when everything has come. -/
theorem complete_iff {ms : List Packet} {gs : List Gap} (hs : Holes h gs)
    (hmissing : ∀ x, Missing gs x ↔ Awaited d ms x) : gs = [] ↔ Complete d ms := by
  have hfits := d.fits
  constructor
  · rintro rfl
    have hnone : ∀ x, ¬ Awaited d ms x := fun x h => missing_nil ((hmissing x).mpr h)
    constructor
    · refine Classical.byContradiction fun hno => hnone d.len (.inr ⟨Nat.le_refl _, hfits, ?_⟩)
      intro m hm
      cases hmore : m.hdr.moreFragments with
      | true => rfl
      | false => exact absurd ⟨m, hm, hmore⟩ hno
    · exact fun x hx => Classical.byContradiction fun hno => hnone x (.inl ⟨hx, hno⟩)
  · rintro ⟨⟨m, hm, hlast⟩, hbytes⟩
    cases gs with
    | nil => rfl
    | cons g gs =>
      have hroom := (hs.fits g (List.mem_cons_self ..)).room
      rcases (hmissing g.first).mp ⟨g, List.mem_cons_self .., Nat.le_refl _, by omega⟩ with
        ⟨hx, hnot⟩ | ⟨-, -, hall⟩
      · exact absurd (hbytes _ hx) hnot
      · rw [hall m hm] at hlast
        cases hlast

/-- A step: what becomes of the datagram with a fragment. -/
theorem Sound.input (ha : a.Sound d) (junk : Chunk) (hm : FragmentOf d m)
    (hmeets : Meets a (junk, m)) :
    (Complete d (m :: a.received) →
      ∃ r, ReassReceiver.input junk a.held m = some (.delivered r)) ∧
    (¬ Complete d (m :: a.received) →
      ∃ r, ReassReceiver.input junk a.held m = some (.kept r) ∧
        Sound d ⟨some r, m :: a.received⟩) := by
  obtain ⟨hroom, hone⟩ := hmeets
  obtain ⟨r, hr, hsound, -⟩ := input_spec junk hm.toRegular ha.held hroom
  have hmissing := ha.missing_after hm hone
  have hiff := complete_iff hsound.holes hmissing
  refine ⟨fun hc => ⟨r, ?_⟩, fun hc => ?_⟩
  · rw [hr, if_pos (hiff.mpr hc)]
  · have hopen : holesAfter a.held m ≠ [] := fun h => hc (hiff.mp h)
    refine ⟨r, by rw [hr, if_neg hopen], ⟨fun r' hr' => ?_, ?_⟩, ?_, ?_, ?_⟩
    · cases hr'
      rw [hsound.holes_eq]
      exact hsound
    · rw [hsound.holes_eq]
      exact hopen
    · exact fun q hq => (List.mem_cons.mp hq).elim (fun h => h ▸ hm) (ha.fragments q)
    · rw [hsound.holes_eq]
      exact hmissing
    · rw [hsound.holes_eq]
      intro g hg
      rcases first_fillGaps hg with ⟨q, hq, heq⟩ | ⟨hmore, heq⟩
      · exact heq ▸ ha.inside q hq
      · have hnot : m.first + m.len ≠ d.len := fun h => by
          rw [hm.last.mpr h] at hmore
          cases hmore
        have := hm.inside
        have := hm.len_pos
        unfold Packet.last at heq
        omega

theorem run_sound (hrun : (system d).RunWith Meets a) : a.Sound d := by
  refine hrun.invariant (Sound d) ?_ ?_
  · rintro _ rfl
    exact holed_start d
  · rintro a ⟨junk, m⟩ _ ha hmeets ⟨hm, o, ho, rfl⟩
    obtain ⟨hdone, hopen⟩ := ha.input junk hm hmeets
    cases o with
    | discarded => exact holed_start d
    | delivered r => exact holed_start d
    | kept r =>
      by_cases hc : Complete d (m :: a.received)
      · obtain ⟨r', hr'⟩ := hdone hc
        rw [hr'] at ho
        cases ho
      · obtain ⟨r', hr', hsound⟩ := hopen hc
        rw [hr'] at ho
        cases ho
        exact hsound

/-- Along the runs whose fragments touch one hole at most each, a datagram is complete with the
    fragment that brings the last missing byte, and not before. -/
theorem completes (hrun : (system d).RunWith Meets a) (junk : Chunk) (hm : FragmentOf d m)
    (hmeets : Meets a (junk, m)) :
    (Complete d (m :: a.received) →
      ∃ r, ReassReceiver.input junk a.held m = some (.delivered r)) ∧
    (¬ Complete d (m :: a.received) →
      ∃ r, ReassReceiver.input junk a.held m = some (.kept r)) := by
  obtain ⟨hdone, hopen⟩ := (run_sound hrun).input junk hm hmeets
  refine ⟨hdone, fun hc => ?_⟩
  obtain ⟨r, hr, -⟩ := hopen hc
  exact ⟨r, hr⟩

/-- A datagram of 32 bytes, and its fragments. -/
def thirtyTwo : Datagram where
  len := 32
  data := fun i => UInt8.ofNat i
  pos := by decide
  fits := by decide

theorem fragmentOf_thirtyTwo {first len : Nat} {more : Bool}
    (hm : (ReassReceiver.fragmentOf 5 first len more).Regular)
    (hfirst : (ReassReceiver.fragmentOf 5 first len more).first = first)
    (hinside : (ReassReceiver.fragmentOf 5 first len more).first +
      (ReassReceiver.fragmentOf 5 first len more).len ≤ 32)
    (hlast : (ReassReceiver.fragmentOf 5 first len more).hdr.moreFragments = false ↔
      (ReassReceiver.fragmentOf 5 first len more).first +
        (ReassReceiver.fragmentOf 5 first len more).len = 32) :
    FragmentOf thirtyTwo (ReassReceiver.fragmentOf 5 first len more) :=
  ⟨hm, hinside, hlast, fun i _ => congrArg (fun p => UInt8.ofNat (p + i)) hfirst.symm⟩

theorem fragmentOf_begins :
    FragmentOf thirtyTwo (ReassReceiver.fragmentOf 5 0 24 true) :=
  fragmentOf_thirtyTwo ⟨⟨by decide, by decide⟩, by decide, by decide⟩ (by decide) (by decide)
    (by decide)

theorem fragmentOf_middle :
    FragmentOf thirtyTwo (ReassReceiver.fragmentOf 5 8 8 true) :=
  fragmentOf_thirtyTwo ⟨⟨by decide, by decide⟩, by decide, by decide⟩ (by decide) (by decide)
    (by decide)

theorem fragmentOf_ends :
    FragmentOf thirtyTwo (ReassReceiver.fragmentOf 5 24 8 false) :=
  fragmentOf_thirtyTwo ⟨⟨by decide, by decide⟩, by decide, by decide⟩ (by decide) (by decide)
    (by decide)

/-- The first fragment is kept. -/
theorem completes_begins :
    (Complete thirtyTwo [ReassReceiver.fragmentOf 5 0 24 true] →
      ∃ r, ReassReceiver.input (fun _ => 0) none (ReassReceiver.fragmentOf 5 0 24 true) =
        some (.delivered r)) ∧
    (¬ Complete thirtyTwo [ReassReceiver.fragmentOf 5 0 24 true] →
      ∃ r, ReassReceiver.input (fun _ => 0) none (ReassReceiver.fragmentOf 5 0 24 true) =
        some (.kept r)) := by
  refine completes (.start rfl) (fun _ => 0) fragmentOf_begins ⟨⟨fun _ h => absurd rfl h, ?_, ?_,
    by decide, fun _ _ _ _ => by decide⟩, ?_⟩
  · exact fun hs => absurd hs.2.1 (by decide)
  · exact fun hs => absurd hs.2.1 (by decide)
  · intro g hg g' hg' _ _
    rw [List.mem_singleton.mp hg, List.mem_singleton.mp hg']

/-- What the fragments leave of the datagram. -/
def after (ms : List Packet) : Option Reass :=
  ms.foldl (fun r m => (ReassReceiver.input (fun _ => 0) r m).bind Outcome.next) none

theorem after_snoc (ms : List Packet) (m : Packet) :
    after (ms ++ [m]) = (ReassReceiver.input (fun _ => 0) (after ms) m).bind Outcome.next := by
  simp [after]

theorem kept_of_next {junk : Chunk} {r : Option Reass} {r' : Reass}
    (h : (ReassReceiver.input junk r m).bind Outcome.next = some r') :
    ReassReceiver.input junk r m = some (.kept r') := by
  obtain ⟨o, ho, hnext⟩ := Option.bind_eq_some_iff.mp h
  cases o with
  | kept r => rw [ho, Option.some.inj hnext]
  | discarded => cases hnext
  | delivered r => cases hnext

theorem reachable_kept {junk : Chunk} {r : Reass} (hrun : (system d).Reachable a)
    (hm : FragmentOf d m) (hin : ReassReceiver.input junk a.held m = some (.kept r)) :
    (system d).Reachable ⟨some r, m :: a.received⟩ :=
  @System.RunWith.next _ _ _ _ a _ (junk, m) hrun trivial ⟨hm, _, hin, rfl⟩

/-- The fragment that touches two holes fills the first of them only: every byte has come, and the
    datagram is kept. -/
theorem completes_fails :
    ∃ r, (system thirtyTwo).Reachable ⟨some r, [ReassReceiver.fragmentOf 5 0 24 true,
        ReassReceiver.fragmentOf 5 24 8 false, ReassReceiver.fragmentOf 5 8 8 true]⟩ ∧
      Complete thirtyTwo [ReassReceiver.fragmentOf 5 0 24 true,
        ReassReceiver.fragmentOf 5 24 8 false, ReassReceiver.fragmentOf 5 8 8 true] ∧
      holes (some r) = [⟨16, 23⟩] := by
  have h₁ : (after [ReassReceiver.fragmentOf 5 8 8 true]).isSome = true := by decide +kernel
  have h₂ : (after [ReassReceiver.fragmentOf 5 8 8 true,
      ReassReceiver.fragmentOf 5 24 8 false]).isSome = true := by decide +kernel
  have h₃ : (after [ReassReceiver.fragmentOf 5 8 8 true, ReassReceiver.fragmentOf 5 24 8 false,
      ReassReceiver.fragmentOf 5 0 24 true]).isSome = true := by decide +kernel
  have hholes : holes (after [ReassReceiver.fragmentOf 5 8 8 true,
      ReassReceiver.fragmentOf 5 24 8 false, ReassReceiver.fragmentOf 5 0 24 true]) =
        [⟨16, 23⟩] := by
    decide +kernel
  obtain ⟨r₁, hr₁⟩ := Option.isSome_iff_exists.mp h₁
  obtain ⟨r₂, hr₂⟩ := Option.isSome_iff_exists.mp h₂
  obtain ⟨r₃, hr₃⟩ := Option.isSome_iff_exists.mp h₃
  rw [hr₃] at hholes
  have hin₁ := kept_of_next ((after_snoc [] _).symm.trans hr₁)
  rw [← List.singleton_append, after_snoc, hr₁] at hr₂
  have hin₂ := kept_of_next hr₂
  have hafter : after [ReassReceiver.fragmentOf 5 8 8 true, ReassReceiver.fragmentOf 5 24 8 false] =
      some r₂ := by
    rw [← List.singleton_append, after_snoc, hr₁]
    exact hr₂
  have hsplit : [ReassReceiver.fragmentOf 5 8 8 true, ReassReceiver.fragmentOf 5 24 8 false,
      ReassReceiver.fragmentOf 5 0 24 true] = [ReassReceiver.fragmentOf 5 8 8 true,
      ReassReceiver.fragmentOf 5 24 8 false] ++ [ReassReceiver.fragmentOf 5 0 24 true] := rfl
  rw [hsplit, after_snoc, hafter] at hr₃
  have hin₃ := kept_of_next hr₃
  refine ⟨r₃, ?_, ⟨⟨_, .tail _ (.head _), by decide⟩, ?_⟩, hholes⟩
  · have hstart : (system thirtyTwo).Reachable ⟨none, []⟩ := .start rfl
    have hrun := reachable_kept hstart fragmentOf_middle hin₁
    exact reachable_kept (reachable_kept hrun fragmentOf_ends hin₂) fragmentOf_begins hin₃
  · intro x hx
    have hbegins : (ReassReceiver.fragmentOf 5 0 24 true).first = 0 ∧
        (ReassReceiver.fragmentOf 5 0 24 true).last = 23 := by decide
    have hends : (ReassReceiver.fragmentOf 5 24 8 false).first = 24 ∧
        (ReassReceiver.fragmentOf 5 24 8 false).last = 31 := by decide
    have hx : x < 32 := hx
    rcases Nat.lt_or_ge x 24 with hlt | hge
    · exact ⟨_, .head _, by omega, by omega⟩
    · exact ⟨_, .tail _ (.head _), by omega, by omega⟩

end Assembly

end EsOs.Net
