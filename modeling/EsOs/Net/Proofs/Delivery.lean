import Mathlib
import EsOs.Net.Proofs.Ring
import EsOs.Net.Proofs.Trim
import EsOs.Net.Connection

/-! # In-order delivery

The bytes of the ring are those of the stream at their positions: the used ones follow the bytes
that were read, and each byte of a stored block is the one of its place. The window never reaches
behind the ring. -/

namespace EsOs.Net

open EsOs.Lib

/-! ## Ring and stream -/

/-- The ring and its blocks hold bytes of the stream, of which `base` were read. -/
structure Holds (stream : List UInt8) (base : Nat) (r : Ring) (blocks : List Vec) : Prop where
  wf : r.Wf
  readable : ∀ i, i < r.used → stream[base + i]? = some (r.cell i)
  stored : ∀ b ∈ blocks,
    r.Stored (fun i => stream[base + (r.used + i)]? = some (r.cell (r.used + i))) b

namespace Holds

variable {stream src : List UInt8} {base n offset : Nat} {r : Ring} {blocks : List Vec}

/-- The stream shows `src` at the place it is written to. -/
def Shows (stream : List UInt8) (pos : Nat) (src : List UInt8) : Prop :=
  ∀ i (h : i < src.length), stream[pos + i]? = some src[i]

theorem advance (h : Holds stream base r blocks) (hn : n ≤ r.used) :
    Holds stream (base + n) (r.advance n) blocks := by
  have hused := h.wf.used_le
  refine ⟨Ring.advance_wf h.wf hn, ?_, ?_⟩
  · intro i hi
    have hi : i < r.used - n := hi
    rw [Ring.advance_cell h.wf (by omega), Nat.add_assoc]
    exact h.readable (n + i) (by omega)
  · intro b hb
    have hstored := h.stored b hb
    have hpos := Ring.advance_blockPos h.wf hn b
    have hfits := hstored.fits
    refine ⟨hstored.data_lt, ?_, ?_⟩
    · rw [hpos]
      change r.used - n + r.blockPos b + b.count ≤ r.size
      omega
    · intro i hlo hhi
      rw [hpos] at hlo hhi
      have hgood := hstored.good i hlo hhi
      have hadvused : (r.advance n).used = r.used - n := rfl
      rw [hadvused, Ring.advance_cell h.wf (by omega)]
      have hleft : base + n + (r.used - n + i) = base + (r.used + i) := by omega
      have hright : n + (r.used - n + i) = r.used + i := by omega
      rw [hleft, hright]
      exact hgood

/-- A byte that was good stays good when stream bytes are placed, and a placed one is good. -/
theorem placed_good (base offset : Nat) (h : r.Wf) (hfit : r.used + offset + src.length ≤ r.size)
    (hlt : r.used + offset < r.size) (hsrc : Shows stream (base + (r.used + offset)) src) {i : Nat}
    (hi : i < r.size)
    (hgood : (r.used + offset ≤ i ∧ i < r.used + offset + src.length) ∨
      stream[base + i]? = some (r.cell i)) :
    stream[base + i]? = some ((r.placed src offset).cell i) := by
  rw [Ring.placed_cell h hfit hlt hi]
  split
  · rename_i hle
    by_cases hin : i - (r.used + offset) < src.length
    · rw [List.getD_eq_getElem _ _ hin, ← hsrc _ hin]
      congr 1
      omega
    · rw [List.getD_eq_default _ _ (by omega)]
      rcases hgood with hgood | hgood
      · omega
      · exact hgood
  · rename_i hlt'
    rcases hgood with hgood | hgood
    · omega
    · exact hgood

/-- Writing the next bytes of the stream at the tail, when no block is taken in. -/
theorem write_tail (maxblock : Nat) (h : Holds stream base r blocks)
    (hsrc : Shows stream (base + r.used) src) (hfit : r.used + src.length ≤ r.size)
    (hpos : 0 < src.length)
    (hblocks : ∀ b ∈ blocks, ¬ r.Overlaps src.length b) :
    ∃ r' blocks', r.writeAt src 0 blocks maxblock = (src.length, r', blocks') ∧
      r'.used = r.used + src.length ∧ r'.size = r.size ∧ Holds stream base r' blocks' := by
  have hwf := h.wf
  have hplaced := fun i (hi : i < r.size) hgood =>
    placed_good base 0 hwf (by omega) (by omega) hsrc hi hgood
  refine ⟨_, _, Ring.writeAt_tail maxblock hwf hfit hpos hblocks, rfl, rfl, ⟨hwf.head_lt, hfit⟩, ?_, ?_⟩
  · intro i hi
    have hi : i < r.used + src.length := hi
    change stream[base + i]? = some ((r.placed src 0).cell i)
    apply hplaced i (by omega)
    by_cases hold : i < r.used
    · exact .inr (h.readable i hold)
    · exact .inl (by omega)
  · intro b hb
    obtain ⟨hb, hlt⟩ := List.mem_filter.mp hb
    have hlt : src.length < r.blockPos b := of_decide_eq_true hlt
    have hstored := h.stored b hb
    have hfits := hstored.fits
    have htail : Ring.tail { r.placed src 0 with used := r.used + src.length }
        = slot r.size r.tail src.length := by
      rw [Ring.tail_eq, Ring.tail_eq, slot_slot hwf.head_lt hfit]
      rfl
    have hbpos : Ring.blockPos { r.placed src 0 with used := r.used + src.length } b
        = r.blockPos b - src.length := by
      rw [Ring.blockPos, htail]
      exact distance_slot_left (Ring.tail_lt hwf) hstored.data_lt (Nat.le_of_lt hlt)
    refine ⟨hstored.data_lt, ?_, ?_⟩
    · rw [hbpos]
      change r.used + src.length + (r.blockPos b - src.length) + b.count ≤ r.size
      omega
    · intro i hlo hhi
      rw [hbpos] at hlo hhi
      have hgood := hstored.good (src.length + i) (by omega) (by omega)
      change stream[base + (r.used + src.length + i)]?
        = some ((r.placed src 0).cell (r.used + src.length + i))
      rw [← Nat.add_assoc r.used] at hgood
      exact hplaced _ (by omega) (.inr hgood)

/-- Writing bytes of the stream beyond the tail. -/
theorem write_beyond (maxblock : Nat) (h : Holds stream base r blocks)
    (hsrc : Shows stream (base + (r.used + offset)) src) (hoffset : 0 < offset)
    (hfit : r.used + offset + src.length ≤ r.size) (hpos : 0 < src.length) :
    ∃ r' blocks', r.writeAt src offset blocks maxblock = (0, r', blocks') ∧
      r'.used = r.used ∧ r'.size = r.size ∧ Holds stream base r' blocks' := by
  have hwf := h.wf
  have hplaced := fun i (hi : i < r.size) hgood =>
    placed_good base offset hwf hfit (by omega) hsrc hi hgood
  obtain ⟨blocks', heq, hstored⟩ := Ring.writeAt_beyond maxblock hwf
    (P := fun i => r.used + i < r.size →
      stream[base + (r.used + i)]? = some ((r.placed src offset).cell (r.used + i)))
    hoffset hfit hpos
    (fun i hlo hhi hlt => hplaced _ hlt (.inl (by omega)))
    (fun b hb => ⟨(h.stored b hb).data_lt, (h.stored b hb).fits, fun i hlo hhi hlt =>
      hplaced _ hlt (.inr ((h.stored b hb).good i hlo hhi))⟩)
  refine ⟨_, _, heq, rfl, rfl, ⟨hwf.head_lt, hwf.used_le⟩, ?_, ?_⟩
  · intro i hi
    have hi : i < r.used := hi
    have hused := hwf.used_le
    exact hplaced i (by omega) (.inr (h.readable i hi))
  · intro b hb
    have hs := hstored b hb
    have hfits := hs.fits
    refine ⟨hs.data_lt, hs.fits, ?_⟩
    intro i hlo hhi
    have hhi : i < r.blockPos b + b.count := hhi
    exact hs.good i hlo hhi (by omega)

/-- What was read and what can be read is the beginning of the stream. -/
theorem isPrefix {out : List UInt8} (h : Holds stream out.length r blocks) (hout : out <+: stream) :
    (out ++ r.contents) <+: stream := by
  rw [List.prefix_iff_getElem?]
  intro i hi
  rw [List.length_append, Ring.contents_length] at hi
  by_cases hold : i < out.length
  · rw [List.getElem_append_left hold]
    obtain ⟨rest, hrest⟩ := hout
    rw [← hrest, List.getElem?_append_left hold, List.getElem?_eq_getElem hold]
  · rw [List.getElem_append_right (by omega)]
    have hread := h.readable (i - out.length) (by omega)
    simp only [Ring.contents, List.getElem_map, List.getElem_range]
    rw [← hread]
    congr 1
    omega

end Holds

/-! ## One step -/

namespace Session

variable {stream : List UInt8} {irs : TCPSeq} {s : Session}

/-- What every state of a session keeps. -/
structure Ordered (stream : List UInt8) (irs : TCPSeq) (s : Session) : Prop where
  read : s.out <+: stream
  holds : Holds stream s.out.length s.recv.recvRing s.recv.asb
  size_lt : s.recv.recvRing.size < 2 ^ 31
  next : s.recv.recvNext = irs.add (1 + s.position)
  win_nonneg : 0 ≤ s.recv.recvWin
  win_le : s.recv.recvWin ≤ s.recv.recvRing.size - s.recv.recvRing.used

/-- A change of the connection that does not touch what is received. -/
theorem Ordered.same (h : s.Ordered stream irs) {recv : StreamReceiver}
    (hring : recv.recvRing = s.recv.recvRing) (hasb : recv.asb = s.recv.asb)
    (hnext : recv.recvNext = s.recv.recvNext) (hwin : recv.recvWin = s.recv.recvWin) :
    Ordered stream irs { s with recv := recv } := by
  refine ⟨h.read, ?_, ?_, ?_, ?_, ?_⟩
  · simp only [hring, hasb]
    exact h.holds
  · simp only [hring]
    exact h.size_lt
  · simp only [position, hring, hnext]
    exact h.next
  · simp only [hwin]
    exact h.win_nonneg
  · simp only [hring, hwin]
    exact h.win_le

/-- Reading takes bytes from the ring to what was read. -/
theorem Ordered.readRing (h : s.Ordered stream irs) (count : Int) {recv : StreamReceiver}
    (hring : recv.recvRing = (s.recv.recvRing.read count).2) (hasb : recv.asb = s.recv.asb)
    (hnext : recv.recvNext = s.recv.recvNext) (hwin : recv.recvWin = s.recv.recvWin) :
    Ordered stream irs ⟨s.out ++ (s.recv.recvRing.read count).1, recv⟩ := by
  have hwf := h.holds.wf
  have hn := s.recv.recvRing.taken_le count
  rw [Ring.read_eq hwf] at hring ⊢
  generalize s.recv.recvRing.taken count = n at hn hring ⊢
  have hlen : (s.out ++ s.recv.recvRing.contents.take n).length = s.out.length + n := by
    rw [List.length_append, List.length_take, Ring.contents_length]
    omega
  have hused : recv.recvRing.used = s.recv.recvRing.used - n := by
    rw [hring]
    rfl
  have hsize : recv.recvRing.size = s.recv.recvRing.size := by
    rw [hring]
    rfl
  refine ⟨?_, ?_, ?_, ?_, ?_, ?_⟩
  · have hall := h.holds.isPrefix h.read
    refine List.IsPrefix.trans ?_ hall
    exact List.prefix_append_right_inj s.out |>.mpr (List.take_prefix n _)
  · simp only
    rw [hlen, hring, hasb]
    exact h.holds.advance hn
  · simp only
    rw [hsize]
    exact h.size_lt
  · simp only [position]
    rw [hnext, h.next, hlen, hused, position]
    congr 2
    omega
  · simp only [hwin]
    exact h.win_nonneg
  · have hwinle := h.win_le
    simp only [hwin, hused, hsize]
    omega

/-- The text of a segment that `trim` kept: it begins `cut` bytes into the text that arrived. -/
theorem Carries.shows {p : Nat} {m : List UInt8} {g : Segment} (h : Carries stream irs p m g)
    {cut n : Nat} (hn : cut + n ≤ m.length - g.offset) :
    Holds.Shows stream (p + cut) ((m.drop (g.offset + cut)).take n) ∧
      ((m.drop (g.offset + cut)).take n).length = n := by
  have hlen : ((m.drop (g.offset + cut)).take n).length = n := by
    rw [List.length_take, List.length_drop]
    omega
  refine ⟨?_, hlen⟩
  intro i hi
  rw [hlen] at hi
  have hbyte : (m.drop g.offset)[cut + i]? = stream[p + (cut + i)]? := by
    rw [h.text_eq, List.getElem?_take_of_lt (by omega), List.getElem?_drop]
  rw [List.getElem?_drop] at hbyte
  rw [← List.getElem?_eq_getElem, List.getElem?_take_of_lt hi, List.getElem?_drop, Nat.add_assoc,
    Nat.add_assoc, hbyte]

/-- `text` with no octet left adds nothing. -/
theorem Ordered.text_emptied (h : s.Ordered stream irs) (m : List UInt8) {g : Segment}
    (hg : StreamReceiver.Emptied g) : Ordered stream irs { s with recv := (s.recv.text m g).2.2 } := by
  obtain ⟨hlen, hfin⟩ := hg
  unfold StreamReceiver.text
  simp only [hlen, hfin, Bool.false_eq_true, if_false, Int.lt_irrefl, and_false, Int.toNat_zero,
    List.take_zero, Ring.writeAt_nil]
  split
  · exact h.same rfl rfl rfl rfl
  · exact h.same rfl rfl rfl rfl

/-- Closing the connection leaves what was received. -/
theorem Ordered.abort (h : s.Ordered stream irs) (err : Option Errno) :
    Ordered stream irs { s with recv := StreamReceiver.abort { s.recv with err := err } } := by
  unfold StreamReceiver.abort StreamReceiver.setState
  split
  · exact h.same rfl rfl rfl rfl
  · exact h.same rfl rfl rfl rfl

/-- The number of octets `text` takes is the number of text octets. -/
theorem adv_eq {g : Segment} (h : g.flag.syn = false) :
    (if g.flag.fin then g.len - 1 else g.len) = g.dataLen := by
  simp only [Segment.dataLen, Segment.synLen, Segment.finLen, h, Bool.false_eq_true, if_false]
  split <;> omega

/-- `text` with a segment cut to the window. The segment arrived with the stream from `p` on. -/
theorem Ordered.text_kept (h : s.Ordered stream irs) {p : Nat} {m : List UInt8} {g g' : Segment}
    {cut : Nat} (hg : Carries stream irs p m g)
    (hkept : s.recv.Kept g (p - s.position) g' cut)
    (hplain : ¬ s.Bridges p m g) :
    Ordered stream irs { s with recv := (s.recv.text m g').2.2 } := by
  have hwin := h.win_nonneg
  have hwinle := h.win_le
  have hsize := h.size_lt
  have hwf := h.holds.wf
  have hdata := hkept.data_nonneg
  have hfront := hkept.front
  have hfinish := hkept.finish
  have hlen : g.dataLen = m.length - g.offset := by
    have := hg.len_eq
    simp only [getSegmentLength] at this
    simp only [Segment.dataLen, Segment.synLen, Segment.finLen]
    omega
  have hoffle := hg.offset_le
  have hpos : s.position = s.out.length + s.recv.recvRing.used := rfl
  obtain ⟨n, hn⟩ : ∃ n : Nat, g'.dataLen = n := ⟨g'.dataLen.toNat, by omega⟩
  obtain ⟨hshows, hsrclen⟩ := hg.shows (show cut + n ≤ m.length - g.offset by omega)
  have hoff := hkept.offset
  unfold StreamReceiver.text
  simp only [adv_eq hkept.syn, hn, hoff, Int.toNat_natCast]
  split
  · exact h.abort _
  · rename_i hshut
    by_cases hfirst : s.recv.recvNext = g'.seq
    · -- the next byte to come is the first one of what is left
      rw [if_pos hfirst]
      have hzero : (p : Int) - s.position + cut = 0 := by
        rw [hkept.seq] at hfirst
        exact (eq_add_iff (by omega) (by omega)).mp hfirst
      split
      · rename_i hnpos
        have hadded : s.added p m g = n := by
          unfold added
          omega
        have hblocks : ∀ b ∈ s.recv.asb, ¬ s.recv.recvRing.Overlaps n b := by
          intro b hb hover
          apply hplain
          refine ⟨?_, by omega, by omega, b, hb, ?_⟩
          · cases hrd : s.recv.shutrd
            · rfl
            · exact absurd ⟨hrd, hnpos⟩ hshut
          · rw [hadded]
            exact hover
        rw [← hsrclen] at hblocks
        have hplace : p + cut = s.out.length + s.recv.recvRing.used := by omega
        rw [hplace] at hshows
        obtain ⟨r', blocks', heq, hused, hsize', hholds⟩ :=
          h.holds.write_tail asbMax hshows (by omega) (by omega) hblocks
        rw [hsrclen] at hused
        rw [heq]
        refine ⟨h.read, hholds, by simp only; omega, ?_, by simp only; omega,
          by simp only; omega⟩
        simp only [position]
        rw [h.next, add_add, hused]
        congr 1
        omega
      · exact h.same rfl rfl rfl rfl
    · -- what is left comes later than the next byte to come
      rw [if_neg hfirst]
      have hlater : (p : Int) - s.position + cut ≠ 0 := by
        intro hzero
        apply hfirst
        rw [hkept.seq, hzero, add_zero]
      have hoffset : (g'.seq - s.recv.recvNext).toInt = p - s.position + cut := by
        rw [hkept.seq, add_sub, toInt_ofInt (by omega) (by omega)]
      rw [hoffset]
      by_cases hnone : n = 0
      · subst hnone
        simp only [List.take_zero, Ring.writeAt_nil]
        exact h.same rfl rfl rfl rfl
      · have hplace : p + cut = s.out.length
            + (s.recv.recvRing.used + (p - s.position + cut : Int).toNat) := by omega
        rw [hplace] at hshows
        obtain ⟨r', blocks', heq, hused, hsize', hholds⟩ :=
          h.holds.write_beyond asbMax hshows (by omega) (by omega) (by omega)
        rw [heq]
        refine ⟨h.read, hholds, by simp only; omega, ?_, h.win_nonneg, by simp only; omega⟩
        simp only [position]
        rw [h.next, hused, position]

/-- A segment that the network delivers, when it is a plain one. -/
theorem Ordered.segment (h : s.Ordered stream irs) {p : Nat} {m : List UInt8} {g : Segment}
    (hg : Carries stream irs p m g) (hplain : s.Plain (.segment p m g)) :
    Ordered stream irs { s with recv := s.recv.receive m g } := by
  have hwin := h.win_nonneg
  have hwinle := h.win_le
  have hsize := h.size_lt
  have hlen := hg.len_eq
  have hoffle := hg.offset_le
  have hcounted : g.Counted := by
    simp only [getSegmentLength] at hlen
    simp only [Segment.Counted, Segment.dataLen, Segment.synLen, Segment.finLen]
    omega
  -- what is left of the segment, whatever `trim` then answers
  have htext : Ordered stream irs
      { s with recv := (s.recv.text m (s.recv.trimRight (s.recv.trimLeft g))).2.2 } := by
    rcases hplain with hstray | ⟨⟨hnear, hnear'⟩, hbridges⟩
    · apply h.text_emptied
      have hseq := eq_add_neg s.recv.recvNext g.seq
      have hlo := BitVec.le_toInt (s.recv.recvNext - g.seq)
      have hhi := BitVec.toInt_lt (x := s.recv.recvNext - g.seq)
      have hlen0 := hcounted.len_nonneg
      unfold Stray at hstray
      simp only at hstray
      generalize (s.recv.recvNext - g.seq).toInt = old at hseq hlo hhi hstray
      rcases hstray with ⟨hpos, hle⟩ | ⟨hle, hlt⟩
      · rw [StreamReceiver.trimLeft_of_neg hseq (by omega) (by omega)]
        apply StreamReceiver.trimRight_emptied
        obtain ⟨-, h2, -, -, -⟩ := StreamReceiver.dropSyn_spec hseq
        have hdata : 0 ≤ g.len - g.synLen - g.finLen := hcounted
        have hfinle : 0 ≤ g.finLen := by
          unfold Segment.finLen
          split <;> omega
        exact StreamReceiver.dropFront_all (by omega) (by omega)
      · rw [StreamReceiver.trimLeft_of_nonneg hseq (by omega) (by omega)]
        exact StreamReceiver.trimRight_beyond hseq (by omega) hle hcounted
    · have hstart : g.seq = s.recv.recvNext.add (p - g.synLen - s.position) := by
        rw [hg.seq_eq, h.next, add_add]
        congr 1
        unfold Segment.synLen
        split <;> omega
      have hsynLen : (if g.flag.syn then 1 else 0 : Int) = g.synLen := rfl
      rw [hsynLen] at hnear hnear'
      rcases StreamReceiver.trim_kept hstart (by omega) (by omega) hwin (by omega)
        (by
          intro hsyn
          have hp := hg.syn hsyn
          simp only [Segment.synLen, hsyn, if_true]
          omega) hcounted with hempty | ⟨cut, hkept⟩
      · exact h.text_emptied m hempty
      · have hshift : (p : Int) - g.synLen - s.position + g.synLen = p - s.position := by omega
        rw [hshift] at hkept
        exact h.text_kept hg hkept hbridges
  unfold StreamReceiver.receive StreamReceiver.trim
  simp only
  by_cases hpos : 0 < (s.recv.trimRight (s.recv.trimLeft g)).len
  · simp only [if_pos hpos]
    exact htext
  · simp only [if_neg hpos]
    by_cases hin : s.recv.inWindow (s.recv.trimRight (s.recv.trimLeft g)).seq
    · simp only [if_pos hin]
      exact htext
    · simp only [if_neg hin]
      exact h.same rfl rfl rfl rfl

theorem Ordered.canSend (h : s.Ordered stream irs) (len mss : Int) (flag : Flags) :
    Ordered stream irs { s with recv := (s.recv.canSend len mss flag).2 } := by
  have hupdate : Ordered stream irs { s with recv := (s.recv.updateWindow mss).2 } := by
    unfold StreamReceiver.updateWindow
    simp only
    split
    · have hused := h.holds.wf.used_le
      refine ⟨h.read, h.holds, h.size_lt, h.next, ?_, ?_⟩
      · simp only [Ring.getUnused]
        omega
      · simp only [Ring.getUnused]
        omega
    · exact h
  have hsame : (s.recv.canSend len mss flag).2 = (s.recv.updateWindow mss).2 := by
    unfold StreamReceiver.canSend
    simp only
    split
    · rfl
    · repeat' split
      all_goals rfl
  rw [hsame]
  exact hupdate

/-- `read` reads from the ring, or nothing at all. -/
theorem Ordered.socketRead (h : s.Ordered stream irs) (size : Int) :
    (s.run (.read size)).Ordered stream irs := by
  unfold run StreamReceiver.read
  simp only
  split
  · split
    · simp only [List.append_nil]
      exact h.same rfl rfl rfl rfl
    · exact h.readRing _ rfl rfl rfl rfl
  · split
    · split
      · simp only [List.append_nil]
        exact h.same rfl rfl rfl rfl
      · exact h.readRing _ rfl rfl rfl rfl
    · split
      · simp only [List.append_nil]
        exact h.same rfl rfl rfl rfl
      · exact h.readRing _ rfl rfl rfl rfl

theorem Ordered.urg (h : s.Ordered stream irs) (g : Segment) :
    Ordered stream irs { s with recv := s.recv.urg g } := by
  unfold StreamReceiver.urg
  split
  · exact h.same rfl rfl rfl rfl
  · exact h

/-- The step lemma: a plain step keeps the session in order. -/
theorem Ordered.step {s' : Session} {op : SessionOp} (h : s.Ordered stream irs)
    (hplain : s.Plain op) (hstep : (system stream irs).step s op s') : s'.Ordered stream irs := by
  obtain ⟨rfl, hcarries⟩ := hstep
  cases op with
  | segment p m g => exact h.segment (hcarries p m g rfl) hplain
  | urg g => exact h.urg g
  | read size => exact h.socketRead size
  | ringRead count => exact h.readRing count rfl rfl rfl rfl
  | canSend len mss flag => exact h.canSend len mss flag
  | shutdownInput => exact h.same rfl rfl rfl rfl

theorem ordered_init (h : (system stream irs).init s) : s.Ordered stream irs := by
  obtain ⟨hout, hused, hhead, hsize, hasb, hnext, hwin, hwinle⟩ := h
  refine ⟨by simp [hout], ⟨⟨hhead, by omega⟩, ?_, ?_⟩, hsize, ?_, hwin, hwinle⟩
  · intro i hi
    omega
  · intro b hb
    simp [hasb] at hb
  · simp [position, hout, hused, hnext]

theorem Ordered.inOrder (h : s.Ordered stream irs) : s.InOrder stream irs := by
  have hall : s.recv.recvRing.peek s.recv.recvRing.used 0 = s.recv.recvRing.contents := by
    rw [Ring.peek_zero h.holds.wf, List.take_of_length_le]
    rw [Ring.contents_length, Ring.taken]
    omega
  refine ⟨?_, h.next⟩
  rw [hall]
  exact h.holds.isPrefix h.read

end Session

/-- Along every run in which no segment that brings the next byte to come ends inside a stored
    block or at its front, and in which every segment is near or plainly outside the window, what
    was read and can be read is the beginning of the peer's stream and `recvNext` is the number of
    the byte behind it. -/
theorem in_order_delivery {stream : List UInt8} {irs : TCPSeq} {s : Session}
    (hrun : (Session.system stream irs).RunWith Session.Plain s) : s.InOrder stream irs :=
  (hrun.invariant (Session.Ordered stream irs) (fun _ h => Session.ordered_init h)
    (fun _ _ _ h hplain hstep => h.step hplain hstep)).inOrder

/-- A connection with a ring of eight bytes and a window of the same size. -/
def Session.fresh : Session where
  out := []
  recv :=
    { StreamReceiver.create ⟨true, 8, 8, true, 0⟩ 0 with
      state := .established, recvNext := 1, recvWin := 8 }

theorem Session.fresh_init (stream : List UInt8) : (Session.system stream 0).init Session.fresh :=
  ⟨rfl, rfl, by decide, by decide, rfl, rfl, by decide, by decide⟩

/-- The third byte of a stream arrives, then the first one, which is read. -/
theorem in_order_delivery_gap :
    (((Session.fresh.run (.segment 2 [3] ⟨{}, 3, 0, 1, 0⟩)).run
      (.segment 0 [1] ⟨{}, 1, 0, 1, 0⟩)).run (.read 4)).InOrder [1, 2, 3] 0 := by
  apply in_order_delivery
  refine .next (.next (.next (.start (Session.fresh_init _)) ?_ ⟨rfl, ?_⟩) ?_ ⟨rfl, ?_⟩) ?_
    ⟨rfl, ?_⟩
  · refine .inr ⟨⟨by decide, by decide⟩, ?_⟩
    rintro ⟨-, h, -⟩
    exact absurd h (by decide)
  · rintro p m g ⟨⟩
    exact ⟨by decide, by decide, by decide, by decide, by decide⟩
  · refine .inr ⟨⟨by decide, by decide⟩, ?_⟩
    rintro ⟨-, -, -, b, hb, hover⟩
    have hb : b = ⟨2, 1⟩ := List.mem_singleton.mp hb
    subst hb
    exact absurd hover (by decide)
  · rintro p m g ⟨⟩
    exact ⟨by decide, by decide, by decide, by decide, by decide⟩
  · trivial
  · rintro p m g ⟨⟩

/-- The second byte of a stream arrives before the first one. Then both can be read, and `recvNext`
    is still the number of the second one. -/
theorem in_order_delivery_bridged :
    ∃ s, (Session.system [1, 2] 0).Reachable s ∧ ¬ s.InOrder [1, 2] 0 := by
  refine ⟨_, .next (.next (.start (Session.fresh_init [1, 2])) trivial
    (l := .segment 1 [2] ⟨{}, 2, 0, 1, 0⟩) ⟨rfl, ?_⟩) trivial
    (l := .segment 0 [1] ⟨{}, 1, 0, 1, 0⟩) ⟨rfl, ?_⟩, ?_⟩
  · rintro p m g ⟨⟩
    exact ⟨by decide, by decide, by decide, by decide, by decide⟩
  · rintro p m g ⟨⟩
    exact ⟨by decide, by decide, by decide, by decide, by decide⟩
  · rintro ⟨-, hnext⟩
    exact absurd hnext (by decide)

end EsOs.Net
