import Mathlib.Data.List.GetD
import EsOs.Fat.Directory

/-!
# The long-name buffer

The readers of a directory gather the pieces of a long name from the end of their buffer downwards.
The buffer starts anew only after an entry that neither opens a long name nor goes on with one, so
that what it holds is the longest such sequence of pieces, not only the name that a file entry ends.
-/

namespace EsOs.Fat

namespace Fcb

/-- A piece with the mark of a last one and an order that a long name can have. -/
def Opens (e : Fcb) : Prop :=
  e.isFreeEntry = false ∧ e.isLongNameComponent = true ∧ e.isLastLongEntry = true ∧
    0 < e.order ∧ e.order ≤ 20

/-- A piece with the order below that of `p` and with its checksum. -/
def GoesOn (p e : Fcb) : Prop :=
  e.isFreeEntry = false ∧ e.isLongNameComponent = true ∧ e.isLastLongEntry = false ∧
    0 < e.order ∧ e.order + 1 = p.order ∧ e.chksum = p.chksum

/-- The entry of a file or a directory. -/
def isEntry (e : Fcb) : Bool :=
  !e.isFreeEntry && !e.isLongNameComponent && !e.isVolumeID

instance (e : Fcb) : Decidable e.Opens :=
  inferInstanceAs (Decidable (_ ∧ _))

instance (p e : Fcb) : Decidable (p.GoesOn e) :=
  inferInstanceAs (Decidable (_ ∧ _))

/-- The thirteen units of a piece. -/
def units (e : Fcb) : List Nat :=
  pieceOffsets.reverse.map (Disk.word e)

theorem order_of_not_last {e : Fcb} (h : e.isLastLongEntry = false) : e.order = e.ldirOrd := by
  have hbyte : ∀ n < 256, n &&& 0x40 = 0 → n &&& 0xbf = n := by decide +kernel
  simp only [isLastLongEntry, bne_eq_false_iff_eq] at h
  exact hbyte _ (e 0).toNat_lt h

end Fcb

/-- The entry `e` opens a long name or goes on after the pieces `w`, the latest of them first. -/
def Extends : List Fcb → Fcb → Prop
  | [], e => e.Opens
  | p :: _, e => e.Opens ∨ p.GoesOn e

instance : (w : List Fcb) → (e : Fcb) → Decidable (Extends w e)
  | [], e => inferInstanceAs (Decidable e.Opens)
  | p :: _, e => inferInstanceAs (Decidable (e.Opens ∨ p.GoesOn e))

/-- Pieces, the latest first, each of which opens a long name or goes on with the one before. -/
inductive Pieces : List Fcb → Prop where
  | nil : Pieces []
  | cons {w e} : Pieces w → Extends w e → Pieces (e :: w)

/-- The units of pieces in the order of the name. -/
def nameUnits (w : List Fcb) : List Nat :=
  w.flatMap Fcb.units

/-- The length of the name that units make, without its terminator. -/
def nameLength (units : List Nat) : Nat :=
  (units.takeWhile (· ≠ 0)).length

/-- A reader stops at the end mark, and at the entry of a file or a directory where `here` says so. -/
def stops (here : Nat → Bool) (pos : Nat) (e : Fcb) : Bool :=
  e 0 == 0 || e.isEntry && here pos

/-- The entries from `pos` on that a reader passes over. -/
def passed (here : Nat → Bool) : Nat → List Fcb → List Fcb
  | _, [] => []
  | pos, e :: es => if stops here pos e then [] else e :: passed here (pos + 32) es

/-- No more than twenty pieces follow one another, and the name that ends at the entry where the
    reader stops has fewer than 256 units. -/
structure Fits (here : Nat → Bool) (pos : Nat) (entries : List Fcb) : Prop where
  pieces : ∀ w, Pieces w → w.reverse <:+: passed here pos entries → w.length ≤ 20
  name : ∀ p w e rest, Pieces (p :: w) → (p :: w).reverse <:+ passed here pos entries →
    passed here pos entries ++ e :: rest = entries → e.isEntry = true → p.order = 1 →
    p.chksum = e.getChecksum → nameLength (nameUnits (p :: w)) < 256

@[simp] theorem units_length (e : Fcb) : e.units.length = 13 := rfl

@[simp] theorem nameUnits_cons (e : Fcb) (w : List Fcb) :
    nameUnits (e :: w) = e.units ++ nameUnits w := rfl

theorem nameUnits_length (w : List Fcb) : (nameUnits w).length = 13 * w.length := by
  induction w with
  | nil => rfl
  | cons e w ih =>
    rw [nameUnits_cons, List.length_append, units_length, ih, List.length_cons]
    omega

/-- The pieces that an entry leaves at the end of those before it. -/
def chainAt (w : List Fcb) (e : Fcb) : List Fcb :=
  if Extends w e then e :: w else []

theorem Pieces.chainAt {w : List Fcb} (h : Pieces w) (e : Fcb) : Pieces (chainAt w e) := by
  unfold Fat.chainAt
  split
  · rename_i he
    exact .cons h he
  · exact .nil

/-- Pieces at the end of the entries are the latest of those that the entries leave. -/
theorem Pieces.isPrefix_chain {v l : List Fcb} (hv : Pieces v) (h : v.reverse <:+ l.reverse) :
    v <+: l.foldr (fun e w => Fat.chainAt w e) [] := by
  rw [List.reverse_suffix] at h
  induction l generalizing v with
  | nil =>
    rw [List.prefix_nil.mp h]
    exact List.nil_prefix
  | cons e l ih =>
    cases hv with
    | nil => exact List.nil_prefix
    | @cons v e' hv hext =>
      obtain ⟨rfl, hl⟩ := List.cons_prefix_cons.mp h
      have hprev := ih hv hl
      have hchain : Extends (l.foldr (fun e w => Fat.chainAt w e) []) e' := by
        cases v with
        | nil =>
          unfold Extends
          split
          · exact hext
          · exact .inl hext
        | cons p v =>
          obtain ⟨w, hw⟩ := hprev
          rw [← hw]
          exact hext
      rw [List.foldr_cons, Fat.chainAt, if_pos hchain]
      exact List.cons_prefix_cons.mpr ⟨rfl, hprev⟩

/-- The pieces that the entries `l` leave behind them. -/
def lastPieces (l : List Fcb) : List Fcb :=
  l.foldl chainAt []

theorem lastPieces_eq (l : List Fcb) :
    lastPieces l = l.reverse.foldr (fun e w => chainAt w e) [] := by
  rw [List.foldr_reverse]
  rfl

theorem isPrefix_lastPieces {v l : List Fcb} (hv : Pieces v) (h : v.reverse <:+ l) :
    v <+: lastPieces l := by
  rw [lastPieces_eq]
  refine hv.isPrefix_chain ?_
  rwa [List.reverse_reverse]

theorem lastPieces_snoc (l : List Fcb) (e : Fcb) :
    lastPieces (l ++ [e]) = chainAt (lastPieces l) e := by
  rw [lastPieces, List.foldl_append]
  rfl

/-- What is left behind are pieces, and they end the entries. -/
theorem lastPieces_spec (l : List Fcb) :
    Pieces (lastPieces l) ∧ (lastPieces l).reverse <:+ l := by
  obtain ⟨r, rfl⟩ : ∃ r, l = r.reverse := ⟨l.reverse, (List.reverse_reverse l).symm⟩
  induction r with
  | nil => exact ⟨.nil, List.nil_suffix⟩
  | cons e r ih =>
    rw [List.reverse_cons, lastPieces_snoc]
    refine ⟨ih.1.chainAt e, ?_⟩
    unfold chainAt
    split
    · rw [List.reverse_cons]
      obtain ⟨t, ht⟩ := ih.2
      exact ⟨t, by rw [← List.append_assoc, ht]⟩
    · exact List.nil_suffix

/-- There are too many pieces exactly where some first entries leave too many. -/
theorem pieces_le_iff (l : List Fcb) (n : Nat) :
    (∀ w, Pieces w → w.reverse <:+: l → w.length ≤ n) ↔
      ∀ l', l' <+: l → (lastPieces l').length ≤ n := by
  constructor
  · intro h l' hl
    obtain ⟨hp, hend⟩ := lastPieces_spec l'
    exact h _ hp (hend.isInfix.trans hl.isInfix)
  · rintro h w hw ⟨s, t, rfl⟩
    have hpre := isPrefix_lastPieces hw (List.suffix_append s w.reverse)
    exact Nat.le_trans hpre.length_le (h _ (List.prefix_append _ t))

namespace Decoder

variable {d d' : Decoder} {w : List Fcb} {e : Fcb}

/-- The buffer holds the units of the pieces at its end, and the terminator. -/
structure Buffer (d : Decoder) (w : List Fcb) : Prop where
  place : d.l = 260 - 13 * (w.length : Int)
  content : ∀ i : Nat, i ≤ 13 * w.length → d.longName (d.l + i) = (nameUnits w).getD i 0

/-- What the decoder knows after entries that leave the pieces `w`. -/
def Holds (d : Decoder) : List Fcb → Prop
  | [] => d.ord < 0
  | p :: w => d.ord = p.order - 1 ∧ 0 < p.order ∧ d.sum = p.chksum ∧ d.Buffer (p :: w)

theorem Holds.restart (h : d.Holds w) :
    d.restart.ord = d.ord ∧ d.restart.sum = d.sum ∧ d.restart.Buffer w ∧ (w = [] → d.ord < 0) := by
  unfold Decoder.restart
  cases w with
  | nil =>
    have h : d.ord < 0 := h
    rw [if_pos h]
    refine ⟨rfl, rfl, ⟨rfl, fun i hi => ?_⟩, fun _ => h⟩
    obtain rfl : i = 0 := by simpa using hi
    rfl
  | cons p w =>
    obtain ⟨hord, hpos, -, hbuffer⟩ := h
    rw [if_neg (by omega)]
    exact ⟨rfl, rfl, hbuffer, fun h => absurd h (List.cons_ne_nil _ _)⟩

/-- The loop of `assembleLongName` over its last offsets. -/
theorem assemble_spec (offsets : List Nat) (hlo : offsets.length ≤ d.l) (hhi : d.l ≤ 261) :
    ∃ d', offsets.foldlM (fun d offset => do
        let l := d.l - 1
        let longName ← d.longName.put l (Disk.word e offset)
        pure { d with longName := longName, l := l }) d = some d' ∧
      d'.ord = d.ord ∧ d'.sum = d.sum ∧ d'.l = d.l - offsets.length ∧
      ∀ i : Nat, d'.longName (d'.l + i) =
        if i < offsets.length then (offsets.reverse.map (Disk.word e)).getD i 0
        else d.longName (d'.l + i) := by
  induction offsets generalizing d with
  | nil => exact ⟨d, rfl, rfl, rfl, by simp, fun i => by simp⟩
  | cons o offsets ih =>
    rw [List.length_cons] at hlo
    have hput : d.longName.put (d.l - 1) (Disk.word e o) =
        some fun i => if i = d.l - 1 then Disk.word e o else d.longName i := by
      rw [LongName.put, if_pos (by omega)]
    rw [List.foldlM_cons]
    simp only [hput, bind, Option.bind, pure]
    obtain ⟨d', hrun, hord, hsum, hl, hcontent⟩ := @ih
      { d with
        longName := fun i => if i = d.l - 1 then Disk.word e o else d.longName i
        l := d.l - 1 } (by show (offsets.length : Int) ≤ d.l - 1; omega)
      (by show d.l - 1 ≤ 261; omega)
    have hl : d'.l = d.l - 1 - offsets.length := hl
    refine ⟨d', hrun, hord, hsum, by rw [List.length_cons]; omega, fun i => ?_⟩
    have hi := hcontent i
    dsimp only at hi
    rw [hi, List.length_cons, List.reverse_cons, List.map_append]
    rcases Nat.lt_trichotomy i offsets.length with hlt | heq | hgt
    · rw [if_pos hlt, if_pos (by omega), List.getD_append _ _ _ _ (by simpa using hlt)]
    · rw [if_neg (by omega), if_pos (by omega), if_pos (by omega),
        List.getD_append_right _ _ _ _ (by simp [heq])]
      simp [heq]
    · rw [if_neg (by omega), if_neg (by omega), if_neg (by omega)]

/-- A piece goes before the others while there is room for it. -/
theorem assembleLongName_spec (h : d.Buffer w) (hw : w.length < 20) :
    ∃ d', d.assembleLongName e = some d' ∧ d'.ord = d.ord ∧ d'.sum = d.sum ∧
      d'.Buffer (e :: w) := by
  have hplace := h.place
  have hlen : pieceOffsets.length = 13 := rfl
  obtain ⟨d', hrun, hord, hsum, hl, hcontent⟩ :=
    @assemble_spec d e pieceOffsets (by omega) (by omega)
  refine ⟨d', hrun, hord, hsum, ⟨by rw [List.length_cons]; omega, fun i hi => ?_⟩⟩
  rw [List.length_cons] at hi
  rw [hcontent, nameUnits_cons]
  split
  · rename_i hlt
    rw [List.getD_append _ _ _ _ (by rwa [units_length])]
    rfl
  · have hrest := h.content (i - 13) (by omega)
    rw [List.getD_append_right _ _ _ _ (by rw [units_length]; omega), units_length, ← hrest]
    congr 1
    omega

/-- The piece after twenty is written in front of the buffer. -/
theorem assembleLongName_none (h : d.Buffer w) (hw : w.length = 20) :
    d.assembleLongName e = none := by
  have hplace := h.place
  have hput : d.longName.put (d.l - 1) (Disk.word e 30) = none := by
    rw [LongName.put, if_neg (by omega)]
  unfold assembleLongName pieceOffsets
  rw [List.foldlM_cons]
  simp only [hput, bind, Option.bind]

/-- What the readers do with an entry that they pass over. -/
def see (d : Decoder) (e : Fcb) : Option Decoder :=
  if e.isFreeEntry then some d.restart.orphan
  else if e.isLongNameComponent then d.restart.piece e
  else some d.restart.orphan

/-- An entry that does not go on with the pieces lets the buffer start anew. -/
theorem see_orphan (h : d.Holds w) (he : ¬ Extends w e) :
    ∃ d', d.see e = some d' ∧ d'.Holds [] := by
  obtain ⟨hord, hsum, -, hnil⟩ := h.restart
  have horphan : d.restart.orphan.Holds [] := show (-1 : Int) < 0 by decide
  unfold see
  split
  · exact ⟨_, rfl, horphan⟩
  split
  · rename_i hfree hlong
    have hfree : e.isFreeEntry = false := by simpa using hfree
    have hopens : ¬ e.Opens := by
      unfold Extends at he
      split at he
      · exact he
      · exact fun h => he (.inl h)
    unfold piece
    split
    · rename_i hlast
      rw [if_neg fun hrange => hopens ⟨hfree, hlong, hlast, hrange⟩]
      exact ⟨_, rfl, horphan⟩
    · rename_i hlast
      have hlast : e.isLastLongEntry = false := by simpa using hlast
      rw [if_neg]
      · exact ⟨_, rfl, horphan⟩
      · rintro ⟨hpos, heq, hsame⟩
        rw [hord] at hpos heq
        rw [hsum] at hsame
        cases w with
        | nil =>
          have := hnil rfl
          omega
        | cons p w =>
          obtain ⟨hp, -, hpsum, -⟩ := h
          rw [← Fcb.order_of_not_last hlast] at heq
          exact he (.inr ⟨hfree, hlong, hlast, by omega, by omega, hsame.symm.trans hpsum⟩)
  · exact ⟨_, rfl, horphan⟩

theorem extends_iff : Extends w e ↔ e.Opens ∨ ∃ p w', w = p :: w' ∧ p.GoesOn e := by
  cases w with
  | nil =>
    refine ⟨.inl, ?_⟩
    rintro (h | ⟨p, w', h, -⟩)
    · exact h
    · cases h
  | cons p w =>
    refine or_congr_right ⟨fun h => ⟨p, w, rfl, h⟩, ?_⟩
    rintro ⟨p', w', h, hp⟩
    cases h
    exact hp

theorem see_opens (he : e.Opens) :
    d.see e = ({ d.restart with sum := e.chksum }.assembleLongName e).bind
      fun d' => some { d' with ord := e.order - 1 } := by
  obtain ⟨hfree, hlong, hlast, hrange⟩ := he
  rw [see, hfree, if_neg Bool.false_ne_true, if_pos hlong, piece, if_pos hlast, if_pos hrange]
  rfl

theorem see_goesOn {p : Fcb} (h : d.Holds (p :: w)) (he : p.GoesOn e) :
    d.see e = (d.restart.assembleLongName e).bind fun d' => some { d' with ord := d'.ord - 1 } := by
  obtain ⟨hord, hsum, -, -⟩ := h.restart
  obtain ⟨hp, -, hpsum, -⟩ := h
  obtain ⟨hfree, hlong, hlast, hpos, horder, hsame⟩ := he
  have hraw := Fcb.order_of_not_last hlast
  rw [see, hfree, if_neg Bool.false_ne_true, if_pos hlong, piece, hlast,
    if_neg Bool.false_ne_true, if_pos ⟨by omega, by omega, by rw [hsum, hpsum, hsame]⟩]
  rfl

/-- A piece that goes on with less than twenty others joins them. -/
theorem see_room (h : d.Holds w) (he : Extends w e) (hw : w.length < 20) :
    ∃ d', d.see e = some d' ∧ d'.Holds (e :: w) := by
  obtain ⟨hord, hsum, hbuffer, -⟩ := h.restart
  rcases extends_iff.mp he with hopens | ⟨p, w', rfl, hp⟩
  · have hbuffer : { d.restart with sum := e.chksum }.Buffer w := ⟨hbuffer.place, hbuffer.content⟩
    obtain ⟨d', hrun, -, hsum', hnew⟩ := @assembleLongName_spec _ w e hbuffer hw
    rw [see_opens hopens, hrun]
    exact ⟨_, rfl, rfl, hopens.2.2.2.1, hsum', ⟨hnew.place, hnew.content⟩⟩
  · obtain ⟨d', hrun, hord', hsum', hnew⟩ := @assembleLongName_spec _ _ e hbuffer hw
    rw [see_goesOn h hp, hrun]
    obtain ⟨hpo, -, hps, -⟩ := h
    obtain ⟨-, -, -, hpos, horder, hsame⟩ := hp
    refine ⟨_, rfl, ?_, hpos, ?_, ⟨hnew.place, hnew.content⟩⟩
    · show d'.ord - 1 = e.order - 1
      omega
    · show d'.sum = e.chksum
      rw [hsum', hsum, hps, hsame]

/-- A piece that goes on with twenty others finds no room. -/
theorem see_full (h : d.Holds w) (he : Extends w e) (hw : w.length = 20) : d.see e = none := by
  obtain ⟨-, -, hbuffer, -⟩ := h.restart
  rcases extends_iff.mp he with hopens | ⟨p, w', rfl, hp⟩
  · have hbuffer : { d.restart with sum := e.chksum }.Buffer w := ⟨hbuffer.place, hbuffer.content⟩
    rw [see_opens hopens, assembleLongName_none hbuffer hw]
    rfl
  · rw [see_goesOn h hp, assembleLongName_none hbuffer hw]
    rfl

/-- The decoder over the entries that a reader passes over. -/
def run (d : Decoder) : List Fcb → Option Decoder
  | [] => some d
  | e :: es => (d.see e).bind fun d => d.run es

/-- The decoder gets through entries that never leave more than twenty pieces. -/
theorem run_some {es : List Fcb} (h : d.Holds w)
    (hes : ∀ l, l <+: es → (l.foldl chainAt w).length ≤ 20) :
    ∃ d', d.run es = some d' ∧ d'.Holds (es.foldl chainAt w) := by
  induction es generalizing d w with
  | nil => exact ⟨d, rfl, h⟩
  | cons e es ih =>
    have hfirst := hes [e] (List.prefix_append [e] es)
    have hstep : ∃ d', d.see e = some d' ∧ d'.Holds (chainAt w e) := by
      have hfirst : (chainAt w e).length ≤ 20 := hfirst
      unfold chainAt at hfirst ⊢
      split
      · rename_i he
        rw [if_pos he, List.length_cons] at hfirst
        exact see_room h he hfirst
      · rename_i he
        exact see_orphan h he
    obtain ⟨d', hsee, hd'⟩ := hstep
    obtain ⟨d'', hrun, hd''⟩ := ih hd' fun l hl => hes (e :: l) (List.cons_prefix_cons.mpr ⟨rfl, hl⟩)
    refine ⟨d'', ?_, hd''⟩
    rw [run, hsee]
    exact hrun

/-- Entries that the decoder gets through never leave more than twenty pieces. -/
theorem run_le {es : List Fcb} (h : d.Holds w) (hw : w.length ≤ 20) (hrun : d.run es = some d') :
    ∀ l, l <+: es → (l.foldl chainAt w).length ≤ 20 := by
  induction es generalizing d w with
  | nil =>
    intro l hl
    rw [List.prefix_nil.mp hl]
    exact hw
  | cons e es ih =>
    have hstep : ∃ d₁, d.see e = some d₁ ∧ d₁.Holds (chainAt w e) ∧ (chainAt w e).length ≤ 20 := by
      unfold chainAt
      split
      · rename_i he
        by_cases hfull : w.length = 20
        · rw [run, see_full h he hfull] at hrun
          cases hrun
        · obtain ⟨d₁, hsee, hd₁⟩ := see_room h he (by omega)
          exact ⟨d₁, hsee, hd₁, by rw [List.length_cons]; omega⟩
      · rename_i he
        obtain ⟨d₁, hsee, hd₁⟩ := see_orphan h he
        exact ⟨d₁, hsee, hd₁, Nat.zero_le _⟩
    obtain ⟨d₁, hsee, hd₁, hlen⟩ := hstep
    rw [run, hsee] at hrun
    intro l hl
    cases l with
    | nil => exact hw
    | cons e' l =>
      obtain ⟨rfl, hrest⟩ := List.cons_prefix_cons.mp hl
      exact ih hd₁ hlen hrun l hrest

/-- From its start the decoder gets through entries exactly where no more than twenty pieces follow
    one another. -/
theorem run_iff {es : List Fcb} :
    (∃ d', Decoder.init.run es = some d') ↔
      ∀ w, Pieces w → w.reverse <:+: es → w.length ≤ 20 := by
  have hinit : Decoder.init.Holds [] := show (-1 : Int) < 0 by decide
  rw [pieces_le_iff]
  constructor
  · rintro ⟨d', hrun⟩
    exact run_le hinit (Nat.zero_le _) hrun
  · intro h
    obtain ⟨d', hrun, -⟩ := run_some hinit h
    exact ⟨d', hrun⟩

theorem run_holds {es : List Fcb} (hrun : Decoder.init.run es = some d') :
    d'.Holds (lastPieces es) := by
  have hinit : Decoder.init.Holds [] := show (-1 : Int) < 0 by decide
  obtain ⟨d, hd, hholds⟩ := run_some hinit (run_le hinit (Nat.zero_le _) hrun)
  obtain rfl := Option.some.inj (hd.symm.trans hrun)
  exact hholds

end Decoder

namespace LongName

/-- A copy reads the units up to the terminator, while the destination has room for it. -/
theorem utf16cpy_spec (longName : LongName) {room : Nat} {l : Int} {units : List Nat} (hlo : 0 ≤ l)
    (hhi : l + units.length < 261)
    (hunits : ∀ i : Nat, i ≤ units.length → longName (l + i) = units.getD i 0) :
    longName.utf16cpy room l =
      if nameLength units < room then some (units.takeWhile (· ≠ 0)) else none := by
  induction room generalizing l units with
  | zero => rfl
  | succ room ih =>
    have hget : longName.get l = some (units.getD 0 0) := by
      have hzero := hunits 0 (Nat.zero_le _)
      rw [Int.natCast_zero, Int.add_zero] at hzero
      rw [get, if_pos (by omega), hzero]
    rw [utf16cpy, hget]
    cases units with
    | nil => simp [nameLength]
    | cons u units =>
      rw [List.length_cons] at hhi hunits
      have hunits : ∀ i : Nat, i ≤ units.length → longName (l + 1 + i) = units.getD i 0 := by
        intro i hi
        have hnext := hunits (i + 1) (by omega)
        rw [List.getD_cons_succ] at hnext
        rw [← hnext]
        congr 1
        omega
      have hrest := @ih (l + 1) units (by omega) (by omega) hunits
      by_cases hu : u = 0
      · simp [hu, nameLength]
      · have hlen : nameLength (u :: units) = nameLength units + 1 := by
          simp [nameLength, hu]
        simp only [List.getD_cons_zero, bind, Option.bind, if_neg hu, hrest, hlen,
          Nat.add_lt_add_iff_right, pure]
        by_cases hroom : nameLength units < room
        · simp [hroom, hu]
        · simp [hroom]

end LongName

namespace FatStream

variable {here : Nat → Bool} {pos : Nat} {entries : List Fcb}

theorem passed_cons_stop {e : Fcb} (h : stops here pos e = true) :
    passed here pos (e :: entries) = [] := by
  rw [passed, if_pos h]

theorem passed_cons {e : Fcb} (h : stops here pos e = false) :
    passed here pos (e :: entries) = e :: passed here (pos + 32) entries := by
  rw [passed, h, if_neg Bool.false_ne_true]

/-- What is left of the entries where a reader stops. -/
def stopped (here : Nat → Bool) : Nat → List Fcb → Option Fcb
  | _, [] => none
  | pos, e :: es => if stops here pos e then some e else stopped here (pos + 32) es

theorem stopped_iff {e : Fcb} :
    (∃ rest, passed here pos entries ++ e :: rest = entries) ↔ stopped here pos entries = some e := by
  induction entries generalizing pos with
  | nil => simp [passed, stopped]
  | cons a es ih =>
    unfold stopped
    by_cases h : stops here pos a
    · rw [passed_cons_stop h, if_pos h]
      constructor
      · rintro ⟨rest, hrest⟩
        rw [(List.cons.inj hrest).1]
      · intro ha
        exact ⟨es, by rw [Option.some.inj ha]; rfl⟩
    · have h : stops here pos a = false := by simpa using h
      rw [passed_cons h, h, if_neg Bool.false_ne_true, ← ih]
      simp

/-- The name that ends at an entry is copied where the decoder has a whole one for it. -/
def Copies (d : Decoder) (room : Nat) (e : Fcb) : Prop :=
  d.ord = 0 ∧ d.sum = e.getChecksum → ∃ name, d.longName.utf16cpy room d.l = some name

theorem ne_zero_of_not_free {e : Fcb} (h : e.isFreeEntry = false) : (e 0 == 0) = false := by
  simp only [Fcb.isFreeEntry, Bool.or_eq_false_iff] at h
  exact h.2

/-- A reader that stops has got through the entries before. -/
theorem run_stop {d : Decoder} {e : Fcb} {P : Decoder → Fcb → Prop} (h : stops here pos e = true) :
    (∃ d', d.run (passed here pos (e :: entries)) = some d' ∧
      ∀ e', stopped here pos (e :: entries) = some e' → e'.isEntry = true → P d' e') ↔
      (e.isEntry = true → P d e) := by
  rw [passed_cons_stop h, stopped, if_pos h]
  constructor
  · rintro ⟨d', hrun, hp⟩
    obtain rfl := Option.some.inj hrun
    exact hp e rfl
  · intro hp
    refine ⟨d, rfl, fun e' he' => ?_⟩
    obtain rfl := Option.some.inj he'
    exact hp

/-- A reader that passes over an entry goes on with what the decoder makes of it. -/
theorem run_pass {d : Decoder} {e : Fcb} {P : Decoder → Fcb → Prop} (h : stops here pos e = false) :
    (∃ d', d.run (passed here pos (e :: entries)) = some d' ∧
      ∀ e', stopped here pos (e :: entries) = some e' → e'.isEntry = true → P d' e') ↔
      ∃ d₁, d.see e = some d₁ ∧ ∃ d', d₁.run (passed here (pos + 32) entries) = some d' ∧
        ∀ e', stopped here (pos + 32) entries = some e' → e'.isEntry = true → P d' e' := by
  rw [passed_cons h, stopped, h, if_neg Bool.false_ne_true]
  constructor
  · rintro ⟨d', hrun, hp⟩
    obtain ⟨d₁, hsee, hrun⟩ := Option.bind_eq_some_iff.mp hrun
    exact ⟨d₁, hsee, d', hrun, hp⟩
  · rintro ⟨d₁, hsee, d', hrun, hp⟩
    exact ⟨d', Option.bind_eq_some_iff.mpr ⟨d₁, hsee, hrun⟩, hp⟩

theorem see_free {d : Decoder} {e : Fcb} (h : e.isFreeEntry = true) :
    d.see e = some d.restart.orphan := by
  rw [Decoder.see, if_pos h]

theorem see_piece {d : Decoder} {e : Fcb} (hfree : e.isFreeEntry = false)
    (hlong : e.isLongNameComponent = true) : d.see e = d.restart.piece e := by
  rw [Decoder.see, hfree, if_neg Bool.false_ne_true, if_pos hlong]

theorem see_other {d : Decoder} {e : Fcb} (hfree : e.isFreeEntry = false)
    (hlong : e.isLongNameComponent = false) : d.see e = some d.restart.orphan := by
  rw [Decoder.see, hfree, if_neg Bool.false_ne_true, hlong, if_neg Bool.false_ne_true]

/-- `findNext` has a result exactly where the decoder gets through the entries before the one it
    finds, and the name fits. -/
theorem findNextLoop_iff {size freeRequired : Nat} {d : Decoder} {free : FreeSlot} :
    (∃ r, findNextLoop size freeRequired d free pos entries = some r) ↔
      ∃ d', d.run (passed (fun _ => true) pos entries) = some d' ∧
        ∀ e, stopped (fun _ => true) pos entries = some e → e.isEntry = true →
          Copies d'.restart 256 e := by
  induction entries generalizing d free pos with
  | nil => simp [findNextLoop, passed, Decoder.run, stopped]
  | cons e es ih =>
    rw [findNextLoop]
    cases hfree : e.isFreeEntry with
    | true =>
      by_cases hend : e 0 = 0
      · rw [run_stop (by simp [stops, hend])]
        simp [hend, Fcb.isEntry, hfree]
      · rw [run_pass (by simp [stops, hend, Fcb.isEntry, hfree]), see_free hfree]
        simpa [hend] using ih
    | false =>
      have hne := ne_zero_of_not_free hfree
      cases hlong : e.isLongNameComponent with
      | true =>
        rw [run_pass (by simp [stops, hne, Fcb.isEntry, hlong]), see_piece hfree hlong]
        cases hpiece : d.restart.piece e with
        | none => simp
        | some d₁ => simpa using ih
      | false =>
        cases hvolume : e.isVolumeID with
        | true =>
          rw [run_pass (by simp [stops, hne, Fcb.isEntry, hvolume]), see_other hfree hlong]
          simpa using ih
        | false =>
          have hentry : e.isEntry = true := by simp [Fcb.isEntry, hfree, hlong, hvolume]
          rw [run_stop (by simp [stops, hentry])]
          simp only [Bool.false_eq_true, if_false, Bool.not_false, if_true, hentry,
            true_imp_iff, Copies]
          by_cases hname : d.restart.ord = 0 ∧ d.restart.sum = e.getChecksum
          · rw [if_pos hname]
            cases d.restart.longName.utf16cpy 256 d.restart.l with
            | none => simp [hname]
            | some name => simp
          · rw [if_neg hname]
            exact iff_of_true ⟨_, rfl⟩ fun h => absurd h hname

/-- `getName` copies out names of less than 256 units only. -/
def Names (r : Option (Option (List Nat))) : Prop :=
  ∃ name, r = some name ∧ ∀ units, name = some units → units.length < 256

theorem oemPart_length {e : Fcb} {first len lower : Nat} {units : List Nat}
    (h : e.oemPart first len lower = some units) : units.length ≤ len := by
  unfold Fcb.oemPart at h
  dsimp only at h
  split at h
  · obtain rfl := Option.some.inj h
    rw [List.length_map, List.length_reverse]
    refine Nat.le_trans (List.dropWhile_suffix _).length_le ?_
    simp
  · cases h

/-- A short name has no more than twelve units. -/
theorem oemtoutf16_length {e : Fcb} {units : List Nat} (h : e.oemtoutf16 = some units) :
    units.length ≤ 12 := by
  unfold Fcb.oemtoutf16 at h
  split at h
  · cases h
  · simp only [bind, Option.bind_eq_some_iff, pure] at h
    obtain ⟨main, hmain, extension, hextension, h⟩ := h
    have := oemPart_length hmain
    have := oemPart_length hextension
    obtain rfl := Option.some.inj h
    split
    · omega
    · simp only [List.length_append, List.length_cons]
      omega

/-- A name that is copied out has fewer than 256 units. -/
def Shows (d : Decoder) (e : Fcb) : Prop :=
  d.ord = 0 ∧ d.sum = e.getChecksum →
    ∃ name, d.longName.utf16cpy 261 d.l = some name ∧ name.length < 256

theorem getNameLoop_iff {offset : Nat} {d : Decoder} :
    Names (getNameLoop offset d pos entries) ↔
      ∃ d', d.run (passed (fun pos => pos == offset) pos entries) = some d' ∧
        ∀ e, stopped (fun pos => pos == offset) pos entries = some e → e.isEntry = true →
          Shows d'.restart e := by
  induction entries generalizing d pos with
  | nil => simp [getNameLoop, passed, Decoder.run, stopped, Names]
  | cons e es ih =>
    rw [getNameLoop]
    by_cases hend : e 0 = 0
    · rw [run_stop (by simp [stops, hend]), if_pos hend]
      simp [Names, Fcb.isEntry, Fcb.isFreeEntry, hend]
    rw [if_neg hend]
    cases hfree : e.isFreeEntry with
    | true =>
      rw [run_pass (by simp [stops, hend, Fcb.isEntry, hfree]), see_free hfree]
      simpa using ih
    | false =>
      cases hlong : e.isLongNameComponent with
      | true =>
        rw [run_pass (by simp [stops, hend, Fcb.isEntry, hlong]), see_piece hfree hlong]
        cases hpiece : d.restart.piece e with
        | none => simp [Names, hpiece]
        | some d₁ => simpa [hpiece] using ih
      | false =>
        cases hvolume : e.isVolumeID with
        | true =>
          rw [run_pass (by simp [stops, hend, Fcb.isEntry, hvolume]), see_other hfree hlong]
          simpa using ih
        | false =>
          have hentry : e.isEntry = true := by simp [Fcb.isEntry, hfree, hlong, hvolume]
          by_cases hhere : pos = offset
          · rw [run_stop (by simp [stops, hentry, hhere])]
            simp only [Bool.false_eq_true, if_false, Bool.not_false, if_true, hentry,
              true_imp_iff, Nat.add_sub_cancel, hhere, Shows]
            by_cases hname : d.restart.ord = 0 ∧ d.restart.sum = e.getChecksum
            · rw [if_neg (by simp [hname])]
              cases d.restart.longName.utf16cpy 261 d.restart.l with
              | none => simp [hname, Names]
              | some name => simp [hname, Names]
            · rw [if_pos (by rwa [← not_and_or])]
              refine iff_of_true ⟨_, rfl, fun units hunits => ?_⟩ fun h => absurd h hname
              exact Nat.lt_of_le_of_lt (oemtoutf16_length hunits) (by decide)
          · rw [run_pass (by simp [stops, hend, hhere]), see_other hfree hlong]
            simpa [hhere] using ih

theorem nameLength_append_le (l l' : List Nat) : nameLength l ≤ nameLength (l ++ l') := by
  unfold nameLength
  induction l with
  | nil => exact Nat.zero_le _
  | cons u l ih =>
    rw [List.cons_append, List.takeWhile_cons, List.takeWhile_cons]
    split
    · exact Nat.succ_le_succ ih
    · exact Nat.le_refl _

theorem nameLength_le (l : List Nat) : nameLength l ≤ l.length :=
  (List.takeWhile_prefix _).length_le

/-- What the decoder has for an entry after the pieces `w`. -/
theorem utf16cpy_restart {d : Decoder} {w : List Fcb} (h : d.Holds w) (hw : w.length ≤ 20)
    (room : Nat) : d.restart.longName.utf16cpy room d.restart.l =
      if nameLength (nameUnits w) < room then some ((nameUnits w).takeWhile (· ≠ 0)) else none := by
  obtain ⟨-, -, hbuffer, -⟩ := h.restart
  have hplace := hbuffer.place
  have hlength := nameUnits_length w
  exact LongName.utf16cpy_spec _ (by omega) (by omega) fun i hi => hbuffer.content i (by omega)

/-- A whole name for the entry `e` is the one that the latest of the pieces ends. -/
theorem whole_iff {d : Decoder} {w : List Fcb} {e : Fcb} (h : d.Holds w) :
    (d.restart.ord = 0 ∧ d.restart.sum = e.getChecksum) ↔
      ∃ p w', w = p :: w' ∧ p.order = 1 ∧ p.chksum = e.getChecksum := by
  obtain ⟨hord, hsum, -, hnil⟩ := h.restart
  rw [hord, hsum]
  cases w with
  | nil =>
    have := hnil rfl
    refine iff_of_false (fun h => by omega) ?_
    rintro ⟨p, w', h, -⟩
    cases h
  | cons p w =>
    obtain ⟨hp, hpos, hps, -⟩ := h
    constructor
    · rintro ⟨hzero, hsame⟩
      exact ⟨p, w, rfl, by omega, hps ▸ hsame⟩
    · rintro ⟨p', w', heq, hone, hsame⟩
      cases heq
      exact ⟨by omega, hps.trans hsame⟩

/-- The condition on the name is one on the pieces that are left before the entry. -/
theorem name_iff {d : Decoder} (hrun : Decoder.init.run (passed here pos entries) = some d)
    {safe : Decoder → Fcb → Prop}
    (hsafe : ∀ (d : Decoder) (w : List Fcb) e, d.Holds w → w.length ≤ 20 →
      (safe d.restart e ↔ ((∃ p w', w = p :: w' ∧ p.order = 1 ∧ p.chksum = e.getChecksum) →
        nameLength (nameUnits w) < 256))) :
    (∀ e, stopped here pos entries = some e → e.isEntry = true → safe d.restart e) ↔
      ∀ p w e rest, Pieces (p :: w) → (p :: w).reverse <:+ passed here pos entries →
        passed here pos entries ++ e :: rest = entries → e.isEntry = true → p.order = 1 →
        p.chksum = e.getChecksum → nameLength (nameUnits (p :: w)) < 256 := by
  have hholds := Decoder.run_holds hrun
  obtain ⟨hpieces, hend⟩ := lastPieces_spec (passed here pos entries)
  have hlen := Decoder.run_iff.mp ⟨d, hrun⟩ _ hpieces hend.isInfix
  have hiff := fun e => hsafe d (lastPieces (passed here pos entries)) e hholds hlen
  constructor
  · intro h p w e rest hw hsuffix hentries he hone hsame
    obtain ⟨t, ht⟩ := isPrefix_lastPieces hw hsuffix
    have hshort := (hiff e).mp (h e (stopped_iff.mp ⟨rest, hentries⟩) he)
      ⟨p, w ++ t, ht.symm, hone, hsame⟩
    rw [← ht, nameUnits, List.flatMap_append] at hshort
    exact Nat.lt_of_le_of_lt (nameLength_append_le _ _) hshort
  · intro h e hstop he
    obtain ⟨rest, hentries⟩ := stopped_iff.mpr hstop
    refine (hiff e).mpr ?_
    rintro ⟨p, w', heq, hone, hsame⟩
    rw [heq] at hpieces hend ⊢
    exact h p w' e rest hpieces hend hentries he hone hsame

theorem fits_iff {safe : Decoder → Fcb → Prop}
    (hsafe : ∀ (d : Decoder) (w : List Fcb) e, d.Holds w → w.length ≤ 20 →
      (safe d.restart e ↔ ((∃ p w', w = p :: w' ∧ p.order = 1 ∧ p.chksum = e.getChecksum) →
        nameLength (nameUnits w) < 256))) :
    (∃ d', Decoder.init.run (passed here pos entries) = some d' ∧
      ∀ e, stopped here pos entries = some e → e.isEntry = true → safe d'.restart e) ↔
      Fits here pos entries := by
  constructor
  · rintro ⟨d', hrun, hname⟩
    exact ⟨Decoder.run_iff.mp ⟨d', hrun⟩, (name_iff hrun hsafe).mp hname⟩
  · rintro ⟨hpieces, hname⟩
    obtain ⟨d', hrun⟩ := Decoder.run_iff.mpr hpieces
    exact ⟨d', hrun, (name_iff hrun hsafe).mpr hname⟩

theorem copies_iff {d : Decoder} {w : List Fcb} (e : Fcb) (h : d.Holds w) (hw : w.length ≤ 20) :
    Copies d.restart 256 e ↔ ((∃ p w', w = p :: w' ∧ p.order = 1 ∧ p.chksum = e.getChecksum) →
      nameLength (nameUnits w) < 256) := by
  rw [Copies, whole_iff h, utf16cpy_restart h hw]
  refine imp_congr_right fun _ => ?_
  split
  · rename_i hlt
    exact iff_of_true ⟨_, rfl⟩ hlt
  · rename_i hlt
    refine iff_of_false ?_ hlt
    rintro ⟨name, hname⟩
    cases hname

theorem shows_iff {d : Decoder} {w : List Fcb} (e : Fcb) (h : d.Holds w) (hw : w.length ≤ 20) :
    Shows d.restart e ↔ ((∃ p w', w = p :: w' ∧ p.order = 1 ∧ p.chksum = e.getChecksum) →
      nameLength (nameUnits w) < 256) := by
  have hlength := nameLength_le (nameUnits w)
  rw [nameUnits_length] at hlength
  rw [Shows, whole_iff h, utf16cpy_restart h hw, if_pos (by omega)]
  refine imp_congr_right fun _ => ⟨?_, fun hlt => ⟨_, rfl, hlt⟩⟩
  rintro ⟨name, hname, hlt⟩
  obtain rfl := Option.some.inj hname
  exact hlt

/-- A piece of thirteen letters with the mark of a last one and the order 1, for the entry of
    `plainEntry`. -/
def lastPiece : Fcb := fun i =>
  if i = 0 then 0x41 else if i = 11 then 0x0f else if i = 13 then 28 else
    if i = 12 ∨ i = 26 ∨ i = 27 then 0 else 0x42

/-- The entry of a file with a short name of eleven letters. -/
def plainEntry : Fcb := fun i =>
  if i < 11 then 0x41 else if i = 11 then 0x20 else 0

/-- `findNext` and `getName` keep inside of their buffers exactly where the pieces that they pass
    fit. -/
theorem decoding_iff (entries : List Fcb) (size freeRequired pos offset : Nat)
    (isRoot isRemoved : Bool) :
    ((∃ next, findNext size freeRequired pos entries = some next) ↔
        Fits (fun _ => true) pos entries) ∧
      (Names (getName isRoot isRemoved offset entries) ↔
        (isRoot = false → isRemoved = false → Fits (fun pos => pos == offset) 0 entries)) := by
  constructor
  · rw [findNext, findNextLoop_iff]
    exact @fits_iff _ _ _ (Copies · 256) fun d w e => copies_iff e
  · rw [getName]
    split
    · rename_i hnone
      refine iff_of_true ⟨none, rfl, fun units h => by cases h⟩ fun hroot hremoved => ?_
      rw [hroot, hremoved] at hnone
      cases hnone
    · rename_i hsome
      rw [getNameLoop_iff, fits_iff fun d w e => shows_iff e]
      simp only [Bool.or_eq_true, not_or, Bool.not_eq_true] at hsome
      exact ⟨fun h _ _ => h, fun h => h hsome.1 hsome.2⟩

/-- The twenty-first of pieces that all are a last one is written in front of the buffer, and the
    name that twenty of them make does not fit into 256 units. -/
theorem decoding_fails :
    (¬ ∃ next, findNext 672 0 0 (List.replicate 21 lastPiece) = some next) ∧
    (¬ ∃ next, findNext 672 0 0 (List.replicate 20 lastPiece ++ [plainEntry]) = some next) ∧
    ¬ Names (getName false false 640 (List.replicate 20 lastPiece ++ [plainEntry])) := by
  refine ⟨?_, ?_, ?_⟩
  · have hnone : (findNext 672 0 0 (List.replicate 21 lastPiece)).isNone = true := by
      decide +kernel
    rw [Option.isNone_iff_eq_none.mp hnone]
    simp
  · have hnone : (findNext 672 0 0 (List.replicate 20 lastPiece ++ [plainEntry])).isNone = true := by
      decide +kernel
    rw [Option.isNone_iff_eq_none.mp hnone]
    simp
  · rintro ⟨name, hname, hshort⟩
    have hlong : ((getName false false 640 (List.replicate 20 lastPiece ++ [plainEntry])).bind
        fun name => name.map List.length) = some 260 := by
      decide +kernel
    rw [hname] at hlong
    cases name with
    | none => cases hlong
    | some units =>
      have := hshort units rfl
      have : units.length = 260 := Option.some.inj hlong
      omega

end FatStream

end EsOs.Fat
