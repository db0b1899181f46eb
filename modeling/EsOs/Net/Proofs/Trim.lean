import Mathlib
import EsOs.Net.Stream

/-! # What `trim` leaves of a segment

Sequence numbers are counted from `recvNext`: the segment starts at the offset `k`, which is
negative for octets that have been received. As long as neither end of the segment is `2 ^ 31`
octets away, the wrapped comparisons of the source are those of the offsets. -/

namespace EsOs.Net

/-! ## Offsets of sequence numbers -/

theorem toInt_ofInt {x : Int} (hlo : -2 ^ 31 ≤ x) (hhi : x < 2 ^ 31) :
    (BitVec.ofInt 32 x).toInt = x := by
  rw [BitVec.toInt_ofInt, Int.bmod_def]
  split <;> omega

theorem add_sub_add (a : TCPSeq) (x y : Int) : a.add x - a.add y = BitVec.ofInt 32 (x - y) := by
  have hsub : BitVec.ofInt 32 (x - y) = BitVec.ofInt 32 x - BitVec.ofInt 32 y := by
    rw [Int.sub_eq_add_neg, BitVec.ofInt_add, BitVec.ofInt_neg, BitVec.sub_eq_add_neg]
  simp only [TCPSeq.add, hsub]
  bv_omega

theorem sub_add (a : TCPSeq) (x : Int) : a - a.add x = BitVec.ofInt 32 (-x) := by
  simp only [TCPSeq.add, BitVec.ofInt_neg]
  bv_omega

theorem add_sub (a : TCPSeq) (x : Int) : a.add x - a = BitVec.ofInt 32 x := by
  simp only [TCPSeq.add]
  bv_omega

theorem add_add (a : TCPSeq) (x y : Int) : (a.add x).add y = a.add (x + y) := by
  simp only [TCPSeq.add, BitVec.ofInt_add, BitVec.add_assoc]

@[simp] theorem add_zero (a : TCPSeq) : a.add 0 = a := by
  simp [TCPSeq.add]

theorem add_one (a : TCPSeq) (x : Int) : a.add x + 1 = a.add (x + 1) := by
  simp only [TCPSeq.add, BitVec.ofInt_add, BitVec.add_assoc]
  rfl

theorem eq_add_iff {a : TCPSeq} {x : Int} (hlo : 0 ≤ x) (hhi : x < 2 ^ 31) :
    a = a.add x ↔ x = 0 := by
  constructor
  · intro h
    have hz : BitVec.ofInt 32 x = 0 := by
      simp only [TCPSeq.add] at h
      bv_omega
    have := congrArg BitVec.toInt hz
    rw [toInt_ofInt (by omega) hhi] at this
    simpa using this
  · rintro rfl
    simp

/-- A sequence number as an offset from another one. -/
theorem eq_add_neg (a b : TCPSeq) : b = a.add (-(a - b).toInt) := by
  simp only [TCPSeq.add, BitVec.ofInt_neg, BitVec.ofInt_toInt]
  bv_omega

/-! ## The octets of a segment -/

namespace Segment

def synLen (g : Segment) : Int := if g.flag.syn then 1 else 0

def finLen (g : Segment) : Int := if g.flag.fin then 1 else 0

/-- The number of text octets, without SYN and FIN. -/
def dataLen (g : Segment) : Int := g.len - g.synLen - g.finLen

/-- SYN and FIN are counted in the length. -/
def Counted (g : Segment) : Prop := 0 ≤ g.dataLen

theorem Counted.len_nonneg {g : Segment} (h : g.Counted) : 0 ≤ g.len := by
  unfold Counted dataLen synLen finLen at h
  split at h <;> split at h <;> omega

end Segment

namespace StreamReceiver

variable {s : StreamReceiver} {g g' : Segment} {k : Int}

/-- Nothing is left of the segment. -/
def Emptied (g : Segment) : Prop := g.len = 0 ∧ g.flag.fin = false

/-- What is left of a segment whose text started `x` octets behind `recvNext`: `cut` octets of the
    text are gone in front, and the rest ends with the text or with the window. -/
structure Kept (s : StreamReceiver) (g : Segment) (x : Int) (g' : Segment) (cut : Nat) : Prop where
  syn : g'.flag.syn = false
  seq : g'.seq = s.recvNext.add (x + cut)
  front : x + cut = max x 0
  data_nonneg : 0 ≤ g'.dataLen
  finish : x + cut + g'.dataLen = min (x + g.dataLen) s.recvWin
  offset : g'.offset = g.offset + cut

theorem trimLeft_of_nonneg (hseq : g.seq = s.recvNext.add k) (hk : 0 ≤ k) (hk' : k ≤ 2 ^ 31) :
    s.trimLeft g = g := by
  unfold trimLeft
  rw [hseq, sub_add, toInt_ofInt (by omega) (by omega)]
  exact if_neg (by omega)

theorem trimLeft_of_neg (hseq : g.seq = s.recvNext.add k) (hk : k < 0) (hk' : -2 ^ 31 < k) :
    s.trimLeft g = dropFront (dropSyn g) (-(k + g.synLen)) := by
  have hdrop : (if g.flag.syn then -k - 1 else -k) = -(k + g.synLen) := by
    unfold Segment.synLen
    split <;> omega
  unfold trimLeft
  rw [hseq, sub_add, toInt_ofInt (by omega) (by omega), ← hdrop]
  exact if_pos (by omega)

/-- Without SYN the segment starts where its text starts. -/
theorem dropSyn_spec (hseq : g.seq = s.recvNext.add k) :
    (dropSyn g).seq = s.recvNext.add (k + g.synLen) ∧ (dropSyn g).len = g.len - g.synLen ∧
      (dropSyn g).flag.syn = false ∧ (dropSyn g).flag.fin = g.flag.fin ∧
      (dropSyn g).offset = g.offset := by
  unfold dropSyn Segment.synLen
  cases hsyn : g.flag.syn
  · refine ⟨?_, ?_, hsyn, rfl, rfl⟩
    · simp [hseq]
    · simp
  · refine ⟨?_, rfl, rfl, rfl, rfl⟩
    simp only [if_true, hseq, add_one]

theorem dropFront_all {drop : Int} (h : g.len ≤ drop) (hg : 0 ≤ g.len) :
    Emptied (dropFront g drop) := by
  unfold dropFront
  simp only [h, decide_true, if_true]
  split
  · exact ⟨by simp, rfl⟩
  · exact ⟨by simp only; omega, rfl⟩

theorem dropFront_part {drop : Int} (h : drop < g.len) (hdrop : 0 ≤ drop) :
    (dropFront g drop).seq = g.seq.add drop ∧ (dropFront g drop).len = g.len - drop ∧
      (dropFront g drop).flag.syn = g.flag.syn ∧ (dropFront g drop).flag.fin = g.flag.fin ∧
      (dropFront g drop).offset = g.offset + drop.toNat := by
  have hnot : decide (g.len ≤ drop) = false := decide_eq_false (by omega)
  unfold dropFront
  simp only [hnot, Bool.false_eq_true, if_false]
  split
  · exact ⟨rfl, rfl, rfl, rfl, rfl⟩
  · have hzero : drop = 0 := by omega
    subst hzero
    simp

/-- `dropBack` leaves the octets before the last `drop` ones. -/
theorem dropBack_spec {drop : Int} (hdrop : 0 < drop) (hg : g.Counted)
    (hsyn : g.flag.syn = false) :
    Emptied (dropBack g drop) ∨
      (dropBack g drop).dataLen = g.len - drop ∧ 0 ≤ g.len - drop := by
  have hsyn0 : g.synLen = 0 := by simp [Segment.synLen, hsyn]
  have hlen : (if g.flag.fin then g.len - 1 else g.len) = g.len - g.finLen := by
    unfold Segment.finLen
    split <;> omega
  have hdrop' : (if g.flag.fin then drop - 1 else drop) = drop - g.finLen := by
    unfold Segment.finLen
    split <;> omega
  have hdata : (dropBack g drop).dataLen = (dropBack g drop).len := by
    simp [Segment.dataLen, Segment.synLen, Segment.finLen, dropBack, hsyn]
  have hcounted : 0 ≤ g.len - g.synLen - g.finLen := hg
  rw [hdata]
  by_cases hall : g.len < drop
  · refine .inl ⟨?_, rfl⟩
    simp only [dropBack, hlen, hdrop']
    rw [if_pos (by omega)]
    omega
  · refine .inr ⟨?_, by omega⟩
    simp only [dropBack, hlen, hdrop']
    rw [if_neg (by omega)]
    omega

/-- A segment that starts in the window is cut where the window ends. -/
theorem trimRight_kept (hseq : g.seq = s.recvNext.add k) (hk : 0 ≤ k) (hend : k + g.len < 2 ^ 31)
    (hwin : 0 ≤ s.recvWin) (hwin' : s.recvWin < 2 ^ 31) (hsyn : g.flag.syn = false)
    (hg : g.Counted) :
    Emptied (s.trimRight g) ∨ s.Kept g k (s.trimRight g) 0 := by
  have hnonneg := hg.len_nonneg
  have hfin : 0 ≤ g.finLen ∧ g.finLen ≤ 1 := by
    unfold Segment.finLen
    split <;> omega
  have hsynLen : g.synLen = 0 := by simp [Segment.synLen, hsyn]
  have hdata : g.dataLen = g.len - g.finLen := by
    simp only [Segment.dataLen]
    omega
  have hmax : k + ((0 : Nat) : Int) = max k 0 := by omega
  simp only [trimRight]
  rw [hseq, add_add, add_sub_add, toInt_ofInt (by omega) (by omega)]
  split
  · rename_i hcut
    rcases dropBack_spec hcut hg hsyn with hempty | ⟨hlen, hle⟩
    · exact .inl hempty
    · refine .inr ⟨hsyn, ?_, hmax, by omega, ?_, rfl⟩
      · rw [Int.natCast_zero, Int.add_zero]
        exact hseq
      · rw [hlen]
        omega
  · refine .inr ⟨hsyn, ?_, hmax, hg, ?_, rfl⟩
    · rw [Int.natCast_zero, Int.add_zero]
      exact hseq
    · omega

theorem trimRight_emptied (h : Emptied g) : Emptied (s.trimRight g) := by
  obtain ⟨hlen, hfin⟩ := h
  simp only [trimRight]
  split
  · rename_i hcut
    refine ⟨?_, rfl⟩
    simp only [dropBack, hfin, Bool.false_eq_true, if_false]
    rw [if_pos (by omega)]
    omega
  · exact ⟨hlen, hfin⟩

/-- A segment that starts behind the window is dropped. -/
theorem trimRight_beyond (hseq : g.seq = s.recvNext.add k) (hend : k + g.len - s.recvWin < 2 ^ 31)
    (hk : s.recvWin ≤ k) (hg : g.Counted) : Emptied (s.trimRight g) := by
  have hnonneg := hg.len_nonneg
  unfold Segment.Counted Segment.dataLen Segment.synLen Segment.finLen at hg
  simp only [trimRight]
  rw [hseq, add_add, add_sub_add, toInt_ofInt (by omega) (by omega)]
  split
  · refine ⟨?_, rfl⟩
    simp only [dropBack]
    split <;> split <;> omega
  · refine ⟨by omega, ?_⟩
    cases hfin : g.flag.fin
    · rfl
    · rw [hfin, if_pos rfl] at hg
      split at hg <;> omega

/-- A segment whose ends are less than `2 ^ 31` octets away from `recvNext`, with SYN only in front
    of it, is dropped or cut to the window. -/
theorem trim_kept (hseq : g.seq = s.recvNext.add k) (hk : -2 ^ 31 < k)
    (hend : k + g.len < 2 ^ 31) (hwin : 0 ≤ s.recvWin) (hwin' : s.recvWin < 2 ^ 31)
    (hsyn : g.flag.syn → k < 0) (hg : g.Counted) :
    Emptied (s.trimRight (s.trimLeft g)) ∨
      ∃ cut, s.Kept g (k + g.synLen) (s.trimRight (s.trimLeft g)) cut := by
  have hnonneg := hg.len_nonneg
  by_cases hneg : k < 0
  · obtain ⟨h1, h2, h3, h4, h5⟩ := dropSyn_spec hseq
    have hsynle : 0 ≤ g.synLen ∧ g.synLen ≤ 1 := by
      unfold Segment.synLen
      split <;> omega
    have hfinle : 0 ≤ g.finLen ∧ g.finLen ≤ 1 := by
      unfold Segment.finLen
      split <;> omega
    have hdata : 0 ≤ g.len - g.synLen - g.finLen := hg
    rw [trimLeft_of_neg hseq hneg hk]
    by_cases hall : g.len ≤ -k
    · exact .inl (trimRight_emptied (dropFront_all (by omega) (by omega)))
    · obtain ⟨p1, p2, p3, p4, p5⟩ :=
        dropFront_part (g := dropSyn g) (show -(k + g.synLen) < _ by omega) (by omega)
      rw [h1, add_add, Int.add_right_neg] at p1
      rw [h2] at p2
      have hrest : (dropFront (dropSyn g) (-(k + g.synLen))).dataLen
          = k + g.synLen + g.dataLen := by
        have hfin : (dropFront (dropSyn g) (-(k + g.synLen))).finLen = g.finLen := by
          simp only [Segment.finLen, p4, h4]
        have hsyn0 : (dropFront (dropSyn g) (-(k + g.synLen))).synLen = 0 := by
          rw [Segment.synLen, p3, h3]
          rfl
        simp only [Segment.dataLen, hfin, hsyn0, p2]
        omega
      have hcounted : (dropFront (dropSyn g) (-(k + g.synLen))).Counted := by
        unfold Segment.Counted
        rw [hrest]
        simp only [Segment.dataLen]
        omega
      rcases trimRight_kept p1 (by omega) (by omega) hwin hwin' (p3.trans h3) hcounted
        with hempty | hkept
      · exact .inl hempty
      · refine .inr ⟨(-(k + g.synLen)).toNat, hkept.syn, ?_, ?_, hkept.data_nonneg, ?_, ?_⟩
        · rw [hkept.seq]
          congr 1
          omega
        · omega
        · have hfinish := hkept.finish
          rw [hrest] at hfinish
          omega
        · rw [hkept.offset, p5, h5]
          rfl
  · have hnosyn : g.flag.syn = false := by
      cases h : g.flag.syn
      · rfl
      · exact absurd (hsyn h) hneg
    have hzero : g.synLen = 0 := by simp [Segment.synLen, hnosyn]
    rw [trimLeft_of_nonneg hseq (by omega) (by omega), hzero, Int.add_zero]
    rcases trimRight_kept hseq (by omega) hend hwin hwin' hnosyn hg with hempty | hkept
    · exact .inl hempty
    · exact .inr ⟨0, hkept⟩

end StreamReceiver

end EsOs.Net
