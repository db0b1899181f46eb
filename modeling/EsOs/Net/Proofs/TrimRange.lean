import EsOs.Net.Proofs.Trim

/-! # The sequence numbers that `trim` leaves

A segment and the receive window are sets of sequence numbers. What is left of a segment is their
intersection. Numbers are counted from `recvNext`: those of the segment start at an offset `k` from
`-2 ^ 31 + 1` up to `2 ^ 31`, as the left cut of `trim` sees it. -/

namespace EsOs.Net

/-! ## Offsets -/

/-- The distance of two numbers, without a sign. -/
theorem toNat_sub_add (a : TCPSeq) (x y : Int) :
    ((a.add x - a.add y).toNat : Int) = (x - y) % 4294967296 := by
  rw [add_sub_add, BitVec.toNat_ofInt]
  omega

theorem toNat_add_sub (a : TCPSeq) (x : Int) : ((a.add x - a).toNat : Int) = x % 4294967296 := by
  rw [add_sub, BitVec.toNat_ofInt]
  omega

/-- A number is before another one, by the signed comparison, up to `2 ^ 31 - 1` numbers. -/
theorem exists_offset (a b : TCPSeq) :
    ∃ k : Int, -2147483648 < k ∧ k ≤ 2147483648 ∧ b = a.add k ∧
      (seqLt b a ↔ k < 0) ∧ (0 ≤ k → k = (b - a).toNat) := by
  have hlt := (b - a).isLt
  refine ⟨if (b - a).toNat ≤ 2147483648 then (b - a).toNat else (b - a).toNat - 4294967296,
    ?_, ?_, ?_, ?_, ?_⟩
  · split <;> omega
  · split <;> omega
  · have hb : b = a + BitVec.ofInt 32 (b - a).toNat := by
      rw [BitVec.ofInt_natCast, BitVec.ofNat_toNat, BitVec.setWidth_eq]
      bv_omega
    split
    · exact hb
    · have hwrap : BitVec.ofInt 32 ((b - a).toNat - 4294967296) =
          BitVec.ofInt 32 ((b - a).toNat : Int) := by
        apply BitVec.eq_of_toNat_eq
        rw [BitVec.toNat_ofInt, BitVec.toNat_ofInt]
        omega
      rw [TCPSeq.add, hwrap]
      exact hb
  · have hneg : (a - b).toNat = if (b - a).toNat = 0 then 0 else 4294967296 - (b - a).toNat := by
      split <;> bv_omega
    unfold seqLt
    rw [BitVec.toInt_eq_toNat_cond, hneg]
    split <;> split <;> split <;> omega
  · split <;> omega

namespace Segment

/-- The sequence numbers of a segment. -/
def octets (g : Segment) (x : TCPSeq) : Prop := ((x - g.seq).toNat : Int) < g.len

/-- The sequence number of FIN. -/
def finSeq (g : Segment) : TCPSeq := g.seq.add (g.len - 1)

end Segment

namespace StreamReceiver

/-- The sequence numbers of the receive window. -/
def window (s : StreamReceiver) (x : TCPSeq) : Prop := ((x - s.recvNext).toNat : Int) < s.recvWin

variable {s : StreamReceiver} {g : Segment} {k : Int}

/-- The window and a segment, by their offsets. -/
theorem window_iff (hwin : s.recvWin < 1073741824) (x : TCPSeq) :
    s.window x ↔ ∃ j, 0 ≤ j ∧ j < s.recvWin ∧ x = s.recvNext.add j := by
  constructor
  · intro h
    refine ⟨(x - s.recvNext).toNat, by omega, h, ?_⟩
    rw [TCPSeq.add, BitVec.ofInt_natCast, BitVec.ofNat_toNat, BitVec.setWidth_eq]
    bv_omega
  · rintro ⟨j, h0, hj, rfl⟩
    unfold window
    rw [toNat_add_sub]
    omega

theorem octets_add (hseq : g.seq = s.recvNext.add k) (hk : -2147483648 < k) (hk' : k ≤ 2147483648)
    (hlen : g.len < 1073741824) {j : Int} (h0 : 0 ≤ j) (hj : j < 1073741824) :
    g.octets (s.recvNext.add j) ↔ k ≤ j ∧ j < k + g.len := by
  unfold Segment.octets
  rw [hseq, toNat_sub_add]
  omega

/-- The octets of a segment in the window, by their offsets. -/
theorem octets_window_iff (hseq : g.seq = s.recvNext.add k) (hk : -2147483648 < k)
    (hk' : k ≤ 2147483648) (hlen : g.len < 1073741824) (hwin : s.recvWin < 1073741824)
    (x : TCPSeq) :
    g.octets x ∧ s.window x ↔
      ∃ j, max k 0 ≤ j ∧ j < min (k + g.len) s.recvWin ∧ x = s.recvNext.add j := by
  rw [window_iff hwin]
  constructor
  · rintro ⟨hx, j, h0, hj, rfl⟩
    rw [octets_add hseq hk hk' hlen h0 (by omega)] at hx
    exact ⟨j, by omega, by omega, rfl⟩
  · rintro ⟨j, hmax, hmin, rfl⟩
    exact ⟨(octets_add hseq hk hk' hlen (by omega) (by omega)).mpr (by omega), j, by omega, by omega,
      rfl⟩

/-! ## The two cuts -/

/-- A segment after a cut, by offsets: its numbers begin at `start`, and `cut` octets of the text are
    gone in front. -/
structure Cut (s : StreamReceiver) (g : Segment) (start len : Int) (fin syn : Bool) (cut : Int)
    (g' : Segment) : Prop where
  seq : g'.seq = s.recvNext.add start
  len : g'.len = len
  fin : g'.flag.fin = fin
  syn : g'.flag.syn = syn
  offset : (g'.offset : Int) = g.offset + cut

theorem dropFront_old {drop : Int} (h : g.len ≤ drop) (hg : 0 ≤ g.len) :
    (dropFront g drop).seq = g.seq.add g.len ∧ (dropFront g drop).len = 0 ∧
      (dropFront g drop).flag.fin = false ∧ (dropFront g drop).flag.syn = g.flag.syn ∧
      ((dropFront g drop).offset : Int) = g.offset + g.len := by
  unfold dropFront
  simp only [h, decide_true, if_true]
  by_cases hpos : 0 < g.len
  · rw [if_pos hpos]
    exact ⟨rfl, Int.sub_self _, rfl, rfl, by simp only; omega⟩
  · have hzero : g.len = 0 := by omega
    rw [if_neg hpos, hzero]
    exact ⟨by simp, rfl, rfl, rfl, by simp only; omega⟩

theorem synLen_bounds (g : Segment) : 0 ≤ g.synLen ∧ g.synLen ≤ 1 := by
  unfold Segment.synLen
  split <;> omega

theorem finLen_bounds (g : Segment) : 0 ≤ g.finLen ∧ g.finLen ≤ 1 := by
  unfold Segment.finLen
  split <;> omega

/-- A segment that is wholly old, cut in front. -/
theorem trimLeft_old (hseq : g.seq = s.recvNext.add k) (hk : -2147483648 < k) (hneg : k < 0)
    (hg : g.Counted) (hold : k + g.len ≤ 0) :
    s.Cut g (k + g.len) 0 false false (max (g.len - g.synLen) 0) (s.trimLeft g) := by
  obtain ⟨h1, h2, h3, h4, h5⟩ := dropSyn_spec hseq
  have hsyn := synLen_bounds g
  have hfin := finLen_bounds g
  have hcounted : 0 ≤ g.len - g.synLen - g.finLen := hg
  obtain ⟨p1, p2, p3, p4, p5⟩ := @dropFront_old (dropSyn g) (-(k + g.synLen)) (by omega)
    (by omega)
  rw [trimLeft_of_neg hseq hneg hk]
  refine ⟨?_, p2, p3, p4.trans h3, ?_⟩
  · rw [p1, h1, h2, add_add]
    congr 1
    omega
  · rw [p5, h2, h5]
    omega

/-- A segment that begins before `recvNext` and goes on behind it, cut in front. -/
theorem trimLeft_straddling (hseq : g.seq = s.recvNext.add k) (hk : -2147483648 < k) (hneg : k < 0)
    (hnew : 0 < k + g.len) :
    s.Cut g 0 (k + g.len) g.flag.fin false (-(k + g.synLen)) (s.trimLeft g) := by
  obtain ⟨h1, h2, h3, h4, h5⟩ := dropSyn_spec hseq
  have hsyn := synLen_bounds g
  obtain ⟨p1, p2, p3, p4, p5⟩ := @dropFront_part (dropSyn g) (-(k + g.synLen)) (by omega)
    (by omega)
  rw [trimLeft_of_neg hseq hneg hk]
  refine ⟨?_, ?_, p4.trans h4, p3.trans h3, ?_⟩
  · rw [p1, h1, add_add, Int.add_right_neg]
  · rw [p2, h2]
    omega
  · rw [p5, h5]
    omega

/-- The right cut of a segment whose end is not `2 ^ 31` octets or more behind the window. -/
theorem trimRight_cut (hseq : g.seq = s.recvNext.add k) (hlo : -2147483648 ≤ k + g.len - s.recvWin)
    (hhi : k + g.len - s.recvWin < 2147483648) (hfin : g.flag.fin → 0 < g.len) :
    s.Cut g k (if s.recvWin < k + g.len then max (s.recvWin - k) 0 else g.len)
      (g.flag.fin && decide (k + g.len ≤ s.recvWin)) g.flag.syn 0 (s.trimRight g) := by
  have hdrop : ((g.seq.add g.len) - (s.recvNext.add s.recvWin)).toInt = k + g.len - s.recvWin := by
    rw [hseq, add_add, add_sub_add, toInt_ofInt (by omega) (by omega)]
  unfold trimRight
  simp only [hdrop]
  by_cases hcut : s.recvWin < k + g.len
  · rw [if_pos hcut, if_pos (by omega), decide_eq_false (by omega), Bool.and_false]
    refine ⟨hseq, ?_, rfl, rfl, by simp [dropBack]⟩
    simp only [dropBack]
    cases hf : g.flag.fin
    · simp only [Bool.false_eq_true, if_false]
      split <;> omega
    · have := hfin hf
      simp only [if_true]
      split <;> omega
  · rw [if_neg hcut, if_neg (by omega), decide_eq_true (by omega), Bool.and_true]
    exact ⟨hseq, rfl, rfl, rfl, by omega⟩

/-- The right cut of what is empty. -/
theorem trimRight_empty (hlen : g.len = 0) (hfin : g.flag.fin = false) :
    (s.trimRight g).seq = g.seq ∧ (s.trimRight g).len = 0 ∧ (s.trimRight g).flag.fin = false ∧
      (s.trimRight g).flag.syn = g.flag.syn ∧ (s.trimRight g).offset = g.offset := by
  simp only [trimRight]
  split
  · refine ⟨rfl, ?_, rfl, rfl, rfl⟩
    simp only [dropBack, hfin, Bool.false_eq_true, if_false]
    split <;> omega
  · exact ⟨rfl, hlen, hfin, rfl, rfl⟩

/-! ## What is left -/

theorem add_eq_self {y : Int} (hlo : -4294967296 < y) (hhi : y < 4294967296) :
    s.recvNext.add y = s.recvNext ↔ y = 0 := by
  constructor
  · intro h
    have hzero := toNat_add_sub s.recvNext y
    rw [h, BitVec.sub_self] at hzero
    have : (0#32).toNat = 0 := rfl
    omega
  · rintro rfl
    exact add_zero _

/-- The test of an empty segment, by its offset. -/
theorem inWindow_add (hwin : 0 ≤ s.recvWin) (hwin' : s.recvWin < 1073741824) {y : Int}
    (hlo : -2147483648 < y) (hhi : y ≤ 2147483648) :
    s.inWindow (s.recvNext.add y) ↔
      (s.recvWin = 0 ∧ y = 0) ∨ (0 ≤ y ∧ y < s.recvWin) := by
  unfold inWindow
  rw [add_eq_self (by omega) (by omega)]
  unfold seqLe seqLt
  rw [add_sub, add_sub_add, BitVec.toInt_ofInt, BitVec.toInt_ofInt, Int.bmod_def, Int.bmod_def]
  split <;> split <;> omega

theorem window_add (hwin : s.recvWin < 1073741824) {y : Int} (hlo : -2147483648 ≤ y)
    (hhi : y < 3221225472) : s.window (s.recvNext.add y) ↔ 0 ≤ y ∧ y < s.recvWin := by
  unfold window
  rw [toNat_add_sub]
  omega

theorem octets_iff {g' : Segment} {start : Int} (hseq : g'.seq = s.recvNext.add start)
    (hlen : g'.len < 1073741824) (x : TCPSeq) :
    g'.octets x ↔ ∃ j, start ≤ j ∧ j < start + g'.len ∧ x = s.recvNext.add j := by
  unfold Segment.octets
  constructor
  · intro h
    refine ⟨start + (x - g'.seq).toNat, by omega, by omega, ?_⟩
    rw [← add_add, ← hseq, TCPSeq.add, BitVec.ofInt_natCast, BitVec.ofNat_toNat,
      BitVec.setWidth_eq]
    bv_omega
  · rintro ⟨j, hlo, hhi, rfl⟩
    rw [hseq, toNat_sub_add]
    omega

/-- A segment of the right length that begins at the right place is the intersection. -/
theorem range_of {g' : Segment} (hseq : g.seq = s.recvNext.add k) (hk : -2147483648 < k)
    (hk' : k ≤ 2147483648) (hlen : g.len < 1073741824) (hwin : s.recvWin < 1073741824)
    (hlen' : g'.len = max (min (k + g.len) s.recvWin - max k 0) 0)
    (hseq' : 0 < g'.len → g'.seq = s.recvNext.add (max k 0)) (x : TCPSeq) :
    g'.octets x ↔ g.octets x ∧ s.window x := by
  rw [octets_window_iff hseq hk hk' hlen hwin]
  by_cases hpos : 0 < g'.len
  · rw [octets_iff (hseq' hpos) (by omega)]
    constructor
    · rintro ⟨j, hlo, hhi, hx⟩
      exact ⟨j, hlo, by omega, hx⟩
    · rintro ⟨j, hlo, hhi, hx⟩
      exact ⟨j, hlo, by omega, hx⟩
  · constructor
    · intro h
      unfold Segment.octets at h
      omega
    · rintro ⟨j, hlo, hhi, -⟩
      omega

/-- What `trim` leaves of a segment, and what it reports. -/
structure Trimmed (s : StreamReceiver) (g : Segment) (ok : Bool) (g' : Segment) : Prop where
  range : ∀ x, g'.octets x ↔ g.octets x ∧ s.window x
  fin : g'.flag.fin = true ↔ g.flag.fin = true ∧ s.window g.finSeq
  syn : g'.flag.syn = true ↔ g.flag.syn = true ∧ ¬ seqLt g.seq s.recvNext
  /-- The text moves with the sequence number, in which a SYN that was removed counts one. -/
  offset : (g'.offset : Int) = g.offset + (g'.seq - g.seq).toInt -
    (if g.flag.syn = true ∧ g'.flag.syn = false then 1 else 0)
  /-- A segment without octets is judged by its sequence number. -/
  empty : g.len = 0 → (ok = true ↔ s.inWindow g.seq)
  /-- With a closed window, a segment that brings the octet `recvNext` is accepted without it. -/
  closed : s.recvWin = 0 → g.octets s.recvNext → ok = true
  report : 0 < g.len → ¬ (s.recvWin = 0 ∧ g.octets s.recvNext) → g.seq.add g.len ≠ s.recvNext →
    (ok = false ↔ ∀ x, ¬ (g.octets x ∧ s.window x))

theorem end_nonneg {k len win : Int} (h : 0 < max (min (k + len) win - max k 0) 0) :
    0 ≤ k + len := by
  omega

/-- What the cuts leave of a segment, by offsets, decides the rest. -/
theorem Trimmed.of_cut {ok : Bool} {g' : Segment} {start cut : Int} {fin syn : Bool}
    (hseq : g.seq = s.recvNext.add k) (hk : -2147483648 < k) (hk' : k ≤ 2147483648)
    (hg : g.Counted) (hlen : g.len < 1073741824) (hwin : 0 ≤ s.recvWin)
    (hwin' : s.recvWin < 1073741824) (hlt : seqLt g.seq s.recvNext ↔ k < 0)
    (h : s.Cut g start (max (min (k + g.len) s.recvWin - max k 0) 0) fin syn cut g')
    (hok : ok = true ↔ 0 < g'.len ∨ s.inWindow g'.seq)
    (hstart : start = max k (min 0 (k + g.len)))
    (hfin : fin = true ↔ g.flag.fin = true ∧ 0 < k + g.len ∧ k + g.len ≤ s.recvWin)
    (hsyn : syn = true ↔ g.flag.syn = true ∧ 0 ≤ k)
    (hcut : cut = start - k - if g.flag.syn = true ∧ k < 0 then 1 else 0) :
    s.Trimmed g ok g' := by
  have hnonneg := hg.len_nonneg
  have hoctet : g.octets s.recvNext ↔ k ≤ 0 ∧ 0 < k + g.len := by
    have := octets_add hseq hk hk' hlen (Int.le_refl 0) (by decide)
    rwa [add_zero] at this
  have hin := inWindow_add (s := s) hwin hwin' (y := start) (by omega) (by omega)
  rw [← h.seq] at hin
  refine ⟨?_, ?_, ?_, ?_, ?_, ?_, ?_⟩
  · refine range_of hseq hk hk' hlen hwin' h.len fun hpos => ?_
    rw [h.seq, hstart, Int.min_eq_left (end_nonneg (h.len ▸ hpos))]
  · rw [h.fin, hfin, Segment.finSeq, hseq, add_add, window_add hwin' (by omega) (by omega)]
    have : g.flag.fin = true → 0 < g.len := fun hf => by
      have := (synLen_bounds g).1
      simp only [Segment.Counted, Segment.dataLen, Segment.finLen, hf, if_true] at hg
      omega
    constructor
    · rintro ⟨hf, h1, h2⟩
      exact ⟨hf, by omega, by omega⟩
    · rintro ⟨hf, h1, h2⟩
      exact ⟨hf, by omega, by omega⟩
  · rw [h.syn, hsyn, hlt, Int.not_lt]
  · have hsub : (g'.seq - g.seq).toInt = start - k := by
      rw [h.seq, hseq, add_sub_add, toInt_ofInt (by omega) (by omega)]
    have hif : (if g.flag.syn = true ∧ g'.flag.syn = false then (1 : Int) else 0) =
        if g.flag.syn = true ∧ k < 0 then 1 else 0 := by
      rw [h.syn]
      have : syn = false ↔ ¬ (g.flag.syn = true ∧ 0 ≤ k) := by
        rw [← hsyn, Bool.not_eq_true]
      simp only [this]
      congr 1
      simp only [eq_iff_iff]
      constructor
      · rintro ⟨h1, h2⟩
        exact ⟨h1, Int.not_le.mp fun h => h2 ⟨h1, h⟩⟩
      · rintro ⟨h1, h2⟩
        exact ⟨h1, fun h => absurd h.2 (by omega)⟩
    rw [h.offset, hsub, hif, hcut]
    omega
  · intro hzero
    have hstart' : g'.seq = g.seq := by
      rw [h.seq, hseq, hstart, hzero, Int.add_zero, Int.max_eq_left (Int.min_le_right _ _)]
    have hlen' := h.len
    rw [hok, hstart']
    constructor
    · rintro (hpos | hin)
      · omega
      · exact hin
    · exact .inr
  · intro hzero hcovers
    rw [hoctet] at hcovers
    refine hok.mpr (.inr (hin.mpr (.inl ⟨hzero, by omega⟩)))
  · intro hpos hnot hend
    have hend' : k + g.len ≠ 0 := by
      intro hz
      rw [hseq, add_add, hz, add_zero] at hend
      exact hend rfl
    rw [hoctet] at hnot
    have hempty : ok = false ↔ ¬ 0 < g'.len := by
      rw [← Bool.not_eq_true, hok, hin, h.len]
      constructor
      · intro hno hlen'
        exact hno (.inl hlen')
      · rintro hno (hlen' | ⟨hz, h0⟩ | ⟨h0, h1⟩)
        · exact hno hlen'
        · exact hnot ⟨hz, by omega⟩
        · omega
    have hlen' := h.len
    rw [hempty]
    constructor
    · rintro hno x hx
      rw [octets_window_iff hseq hk hk' hlen hwin'] at hx
      obtain ⟨j, h1, h2, -⟩ := hx
      omega
    · intro hnone hpos'
      refine hnone (s.recvNext.add (max k 0)) ?_
      rw [octets_window_iff hseq hk hk' hlen hwin']
      exact ⟨max k 0, Int.le_refl _, by omega, rfl⟩

theorem trim_fst : (s.trim g).1 = true ↔
    0 < (s.trimRight (s.trimLeft g)).len ∨ s.inWindow (s.trimRight (s.trimLeft g)).seq := by
  unfold trim
  simp only
  split
  · simp [*]
  · split <;> simp [*]

theorem trim_segment : (s.trim g).2.1 = s.trimRight (s.trimLeft g) := by
  unfold trim
  simp only
  split
  · rfl
  · split <;> rfl

/-- What is left of a segment is its intersection with the window, unless it reaches `2 ^ 31` octets
    or more behind the window. -/
theorem trim_intersection (s : StreamReceiver) (g : Segment) (hg : g.Counted)
    (hlen : g.len < 1073741824) (hwin : 0 ≤ s.recvWin) (hwin' : s.recvWin < 1073741824)
    (hnear : 0 < g.len → (g.seq - s.recvNext).toNat ≤ 2147483648 →
      (g.seq - s.recvNext).toNat + g.len < 2147483648 + s.recvWin) :
    s.Trimmed g (s.trim g).1 (s.trim g).2.1 := by
  obtain ⟨k, hk, hk', hseq, hlt, hnat⟩ := exists_offset s.recvNext g.seq
  have hnonneg := hg.len_nonneg
  have hsyn := synLen_bounds g
  have hfin := finLen_bounds g
  have hcounted : 0 ≤ g.len - g.synLen - g.finLen := hg
  have hfinLen : g.flag.fin = true → 0 < g.len := fun hf => by
    simp only [Segment.finLen, hf, if_true] at hcounted
    omega
  rw [trim_segment]
  by_cases hneg : k < 0
  · by_cases hold : k + g.len ≤ 0
    · have hleft := trimLeft_old hseq hk hneg hg hold
      obtain ⟨h1, h2, h3, h4, h5⟩ := trimRight_empty (s := s) hleft.len hleft.fin
      have hcut : s.Cut g (k + g.len) (max (min (k + g.len) s.recvWin - max k 0) 0) false false
          (g.len - g.synLen) (s.trimRight (s.trimLeft g)) :=
        ⟨h1.trans hleft.seq, by rw [h2]; omega, h3, h4.trans hleft.syn, by
          rw [h5, hleft.offset]
          omega⟩
      refine .of_cut hseq hk hk' hg hlen hwin hwin' hlt hcut trim_fst (by omega) ?_ ?_ ?_
      · simp only [Bool.false_eq_true, false_iff]
        omega
      · simp only [Bool.false_eq_true, false_iff]
        omega
      · simp only [hneg, and_true, Segment.synLen]
        omega
    · have hleft := trimLeft_straddling hseq hk hneg (by omega)
      have hright := trimRight_cut hleft.seq (by rw [hleft.len]; omega) (by rw [hleft.len]; omega)
        (fun hf => by rw [hleft.len]; omega)
      rw [hleft.len, hleft.fin, hleft.syn] at hright
      have hcut : s.Cut g 0 (max (min (k + g.len) s.recvWin - max k 0) 0)
          (g.flag.fin && decide (0 + (k + g.len) ≤ s.recvWin)) false (-(k + g.synLen))
          (s.trimRight (s.trimLeft g)) :=
        ⟨hright.seq, by rw [hright.len]; split <;> omega, hright.fin, hright.syn, by
          rw [hright.offset, hleft.offset]
          omega⟩
      refine .of_cut hseq hk hk' hg hlen hwin hwin' hlt hcut trim_fst (by omega) ?_ ?_ ?_
      · rw [Bool.and_eq_true, decide_eq_true_iff]
        constructor
        · rintro ⟨hf, h1⟩
          exact ⟨hf, by omega, by omega⟩
        · rintro ⟨hf, h0, h1⟩
          exact ⟨hf, by omega⟩
      · simp only [Bool.false_eq_true, false_iff]
        omega
      · simp only [hneg, and_true, Segment.synLen]
        omega
  · have hleft : s.trimLeft g = g := trimLeft_of_nonneg hseq (by omega) (by omega)
    rw [hleft]
    have hok := trim_fst (s := s) (g := g)
    rw [hleft] at hok
    have hstart : k = max k (min 0 (k + g.len)) := by omega
    have hmove : (0 : Int) = k - k - if g.flag.syn = true ∧ k < 0 then 1 else 0 := by
      rw [if_neg (by omega)]
      omega
    by_cases hpos : 0 < g.len
    · have hfar := hnear hpos
      rw [← hnat (by omega)] at hfar
      have hright := trimRight_cut (s := s) hseq (by omega) (by omega) hfinLen
      refine .of_cut hseq hk hk' hg hlen hwin hwin' hlt ⟨hright.seq, ?_, hright.fin, hright.syn,
        hright.offset⟩ hok hstart ?_ ?_ hmove
      · rw [hright.len]
        split <;> omega
      · rw [Bool.and_eq_true, decide_eq_true_iff]
        constructor
        · rintro ⟨hf, h1⟩
          exact ⟨hf, by omega, h1⟩
        · rintro ⟨hf, h0, h1⟩
          exact ⟨hf, h1⟩
      · exact ⟨fun h => ⟨h, by omega⟩, fun h => h.1⟩
    · have hnofin : g.flag.fin = false := by
        cases hf : g.flag.fin
        · rfl
        · exact absurd (hfinLen hf) hpos
      obtain ⟨h1, h2, h3, h4, h5⟩ := trimRight_empty (s := s) (g := g) (by omega) hnofin
      refine .of_cut hseq hk hk' hg hlen hwin hwin' hlt ⟨h1.trans hseq, by rw [h2]; omega, h3, h4,
        by rw [h5]; exact (Int.add_zero _).symm⟩ hok hstart ?_ ?_ hmove
      · simp [hnofin]
      · exact ⟨fun h => ⟨h, by omega⟩, fun h => h.1⟩

/-- A connection that expects 1000, with a window of 100 octets. -/
def expecting (win : Int) : StreamReceiver :=
  { create ⟨true, 100, 100, true, 0⟩ 0 with state := .established, recvNext := 1000, recvWin := win }

theorem trim_intersection_straddling :
    (expecting 100).Trimmed ⟨{ fin := true }, 990, 0, 31, 20⟩
      ((expecting 100).trim ⟨{ fin := true }, 990, 0, 31, 20⟩).1
      ((expecting 100).trim ⟨{ fin := true }, 990, 0, 31, 20⟩).2.1 :=
  trim_intersection (expecting 100) ⟨{ fin := true }, 990, 0, 31, 20⟩
    (by unfold Segment.Counted; decide) (by decide) (by decide) (by decide) (by decide)

/-- Two segments of which nothing is in the window and that are accepted: one without octets, and a
    window probe. -/
theorem trim_accepts_nothing :
    (((expecting 100).trim ⟨{ ack := true }, 1000, 0, 0, 20⟩).1 = true ∧
      ∀ x, ¬ ((⟨{ ack := true }, 1000, 0, 0, 20⟩ : Segment).octets x ∧ (expecting 100).window x)) ∧
    (((expecting 0).trim ⟨{ ack := true }, 1000, 0, 1, 20⟩).1 = true ∧
      ∀ x, ¬ ((⟨{ ack := true }, 1000, 0, 1, 20⟩ : Segment).octets x ∧ (expecting 0).window x)) := by
  refine ⟨⟨by decide, ?_⟩, by decide, ?_⟩
  · rintro x ⟨hx, -⟩
    unfold Segment.octets at hx
    simp only at hx
    omega
  · rintro x ⟨-, hx⟩
    unfold window at hx
    have : (expecting 0).recvWin = 0 := rfl
    omega

end StreamReceiver

end EsOs.Net
