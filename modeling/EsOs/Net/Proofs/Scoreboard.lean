import Mathlib
import EsOs.Net.Proofs.Acked

/-! # The holes of the scoreboard

The numbers of the holes are offsets from `sendUna`, which order them as long as all of them lie in
what is outstanding. A block cuts, trims or covers holes, and each case leaves a chain of holes up to
`lastSack`. -/

namespace EsOs.Net

open StreamReceiver

/-! ## Offsets -/

/-- How far a number comes behind `una`. -/
def offset (una x : TCPSeq) : Int := (x - una).toInt

theorem offset_self (una : TCPSeq) : offset una una = 0 := by
  rw [offset, BitVec.sub_self, BitVec.toInt_zero]

theorem offset_bounds (una x : TCPSeq) : -2 ^ 31 ≤ offset una x ∧ offset una x < 2 ^ 31 := by
  have hlo := BitVec.le_toInt (x - una)
  have hhi := BitVec.toInt_lt (x := x - una)
  unfold offset
  omega

theorem offset_add (una : TCPSeq) {x : Int} (hlo : -2 ^ 31 ≤ x) (hhi : x < 2 ^ 31) :
    offset una (una.add x) = x := by
  rw [offset, add_sub, toInt_ofInt hlo hhi]

/-- The difference of two numbers is that of their offsets, up to a turn around the circle. -/
theorem sub_toInt (una x y : TCPSeq) :
    ∃ turns : Int, (x - y).toInt = offset una x - offset una y + turns * 2 ^ 32 ∧
      -2 ^ 31 ≤ (x - y).toInt ∧ (x - y).toInt < 2 ^ 31 := by
  have hlo := BitVec.le_toInt (x - y)
  have hhi := BitVec.toInt_lt (x := x - y)
  have hdiff : x - y = BitVec.ofInt 32 (offset una x - offset una y) := by
    conv => lhs; rw [eq_add una x, eq_add una y]
    exact add_sub_add _ _ _
  have hmod : (x - y).toInt = (offset una x - offset una y).bmod (2 ^ 32) := by
    rw [hdiff, BitVec.toInt_ofInt]
  have hturns : ∃ turns : Int, (offset una x - offset una y).bmod (2 ^ 32)
      = offset una x - offset una y + turns * 2 ^ 32 := by
    rw [Int.bmod_def]
    split
    · exact ⟨-((offset una x - offset una y) / 2 ^ 32), by omega⟩
    · exact ⟨-((offset una x - offset una y) / 2 ^ 32) - 1, by omega⟩
  obtain ⟨turns, hturns⟩ := hturns
  exact ⟨turns, hmod.trans hturns, by omega, by omega⟩

/-- Two numbers within half the circle are compared by their offsets. -/
theorem offset_lt {una a b : TCPSeq} (ha : 0 ≤ offset una a) (hb : 0 ≤ offset una b) :
    seqLt a b ↔ offset una a < offset una b := by
  obtain ⟨turns, hsub, hlo, hhi⟩ := sub_toInt una b a
  have := offset_bounds una a
  have := offset_bounds una b
  unfold seqLt
  omega

theorem offset_le {una a b : TCPSeq} (ha : 0 ≤ offset una a) (hb : 0 ≤ offset una b) :
    seqLe a b ↔ offset una a ≤ offset una b := by
  obtain ⟨turns, hsub, hlo, hhi⟩ := sub_toInt una b a
  have := offset_bounds una a
  have := offset_bounds una b
  unfold seqLe
  omega

theorem sub_of_le {una a b : TCPSeq} (ha : 0 ≤ offset una a) (hb : 0 ≤ offset una b) :
    (b - a).toInt = offset una b - offset una a := by
  obtain ⟨turns, hsub, hlo, hhi⟩ := sub_toInt una b a
  have := offset_bounds una a
  have := offset_bounds una b
  omega

theorem offset_max {una a b : TCPSeq} (ha : 0 ≤ offset una a) (hb : 0 ≤ offset una b) :
    offset una (seqMax a b) = max (offset una a) (offset una b) := by
  unfold seqMax
  simp only [offset_lt ha hb]
  split <;> omega

theorem offset_min {una a b : TCPSeq} (ha : 0 ≤ offset una a) (hb : 0 ≤ offset una b) :
    offset una (seqMin a b) = min (offset una a) (offset una b) := by
  unfold seqMin
  simp only [offset_lt hb ha]
  split <;> omega

/-! ## Chains of holes -/

/-- Holes in ascending order between the offsets `lo` and `hi`, each with something in it and with
    its retransmission somewhere in it. -/
def Chained (una : TCPSeq) : (lo : Int) → List SackHole → (hi : Int) → Prop
  | lo, [], hi => lo ≤ hi
  | lo, hole :: holes, hi =>
      lo ≤ offset una hole.start ∧ offset una hole.start < offset una hole.finish ∧
        offset una hole.start ≤ offset una hole.rxmit ∧
        offset una hole.rxmit ≤ offset una hole.finish ∧
        Chained una (offset una hole.finish) holes hi

namespace Chained

variable {una : TCPSeq} {lo lo' hi hi' : Int} {holes holes' : List SackHole} {hole : SackHole}

theorem mono (h : Chained una lo holes hi) (hlo : lo' ≤ lo) (hhi : hi ≤ hi') :
    Chained una lo' holes hi' := by
  induction holes generalizing lo lo' with
  | nil =>
    unfold Chained at *
    omega
  | cons hole holes ih =>
    obtain ⟨h1, h2, h3, h4, h5⟩ := h
    exact ⟨by omega, h2, h3, h4, ih h5 (Int.le_refl _)⟩

theorem le (h : Chained una lo holes hi) : lo ≤ hi := by
  induction holes generalizing lo with
  | nil => exact h
  | cons hole holes ih =>
    obtain ⟨h1, h2, -, -, h5⟩ := h
    have := ih h5
    omega

theorem append (h : Chained una lo holes hi) (h' : Chained una hi holes' hi') :
    Chained una lo (holes ++ holes') hi' := by
  induction holes generalizing lo with
  | nil => exact h'.mono h (Int.le_refl _)
  | cons hole holes ih =>
    obtain ⟨h1, h2, h3, h4, h5⟩ := h
    exact ⟨h1, h2, h3, h4, ih h5⟩

/-- Without its last hole, a chain ends where that hole starts. -/
theorem dropLast {last : SackHole} (h : Chained una lo holes hi)
    (hlast : holes.getLast? = some last) :
    Chained una lo holes.dropLast (offset una last.start) ∧ offset una last.start ≤ hi := by
  induction holes generalizing lo with
  | nil => cases hlast
  | cons hole holes ih =>
    obtain ⟨h1, h2, h3, h4, h5⟩ := h
    cases holes with
    | nil =>
      obtain rfl : hole = last := Option.some.inj hlast
      have : offset una hole.finish ≤ hi := h5
      exact ⟨h1, by omega⟩
    | cons next holes =>
      rw [List.getLast?_cons_cons] at hlast
      obtain ⟨h6, h7⟩ := ih h5 hlast
      exact ⟨⟨h1, h2, h3, h4, h6⟩, h7⟩

/-- What is true of a hole of a chain. -/
theorem mem (h : Chained una lo holes hi) (hmem : hole ∈ holes) :
    lo ≤ offset una hole.start ∧ offset una hole.start < offset una hole.finish ∧
      offset una hole.start ≤ offset una hole.rxmit ∧
      offset una hole.rxmit ≤ offset una hole.finish ∧ offset una hole.finish ≤ hi := by
  induction holes generalizing lo with
  | nil => cases hmem
  | cons first holes ih =>
    obtain ⟨h1, h2, h3, h4, h5⟩ := h
    rcases List.mem_cons.mp hmem with rfl | hmem
    · exact ⟨h1, h2, h3, h4, h5.le⟩
    · have := ih h5 hmem
      omega

/-- One hole may get another retransmission in it. -/
theorem modify (h : Chained una lo holes hi) {i : Nat} {f : SackHole → SackHole}
    (hstart : ∀ hole, (f hole).start = hole.start)
    (hfinish : ∀ hole, (f hole).finish = hole.finish)
    (hrxmit : ∀ hole, holes[i]? = some hole →
      offset una hole.start ≤ offset una (f hole).rxmit ∧
        offset una (f hole).rxmit ≤ offset una hole.finish) :
    Chained una lo (holes.modify i f) hi := by
  induction holes generalizing lo i with
  | nil => simpa using h
  | cons hole holes ih =>
    obtain ⟨h1, h2, h3, h4, h5⟩ := h
    cases i with
    | zero =>
      obtain ⟨h6, h7⟩ := hrxmit hole rfl
      rw [List.modify_zero_cons]
      exact ⟨by rw [hstart]; exact h1, by rw [hstart, hfinish]; exact h2, by rw [hstart]; exact h6,
        by rw [hfinish]; exact h7, by rw [hfinish]; exact h5⟩
    | succ i =>
      rw [List.modify_succ_cons]
      exact ⟨h1, h2, h3, h4, ih h5 fun hole hget => hrxmit hole (by simpa using hget)⟩

end Chained

/-! ## One block -/

section Loop

variable {una start fin lastSack : TCPSeq} {holes : List SackHole} {lo bound : Int}

theorem dupHole_same (hole : SackHole) (fin : TCPSeq) (mss : Int) :
    (dupHole hole fin mss).start = hole.start ∧ (dupHole hole fin mss).finish = hole.finish ∧
      (dupHole hole fin mss).rxmit = hole.rxmit :=
  ⟨rfl, rfl, rfl⟩

/-- The loop over the holes keeps the chain, and the number of holes in the table. `count` is the
    number of holes in the table, with those before `holes`. -/
theorem sackLoop_chained (mss : Int) {fuel count : Nat} (hfuel : holes.length ≤ fuel)
    (hcount : holes.length ≤ count) (hmax : count ≤ asbMax) (hlo : 0 ≤ lo)
    (hstart : 0 ≤ offset una start) (hblock : offset una start < offset una fin)
    (hfin : offset una fin ≤ bound)
    (h : Chained una lo holes (offset una lastSack)) (hlast : offset una lastSack ≤ bound) :
    Chained una lo (sackLoop mss start fin fuel count holes lastSack).1
        (offset una (sackLoop mss start fin fuel count holes lastSack).2) ∧
      offset una (sackLoop mss start fin fuel count holes lastSack).2 ≤ bound ∧
      (sackLoop mss start fin fuel count holes lastSack).1.length + (count - holes.length)
        ≤ asbMax := by
  induction fuel generalizing count holes lo lastSack with
  | zero =>
    rw [sackLoop]
    exact ⟨h, hlast, by simp only; omega⟩
  | succ fuel ih =>
    cases holes with
    | nil =>
      rw [sackLoop]
      · exact ⟨h, hlast, by simp only [List.length_nil]; omega⟩
      · simp
    | cons hole holes =>
      obtain ⟨h1, h2, h3, h4, h5⟩ := h
      have hrest := h5.le
      have hf : 0 ≤ offset una fin := by omega
      have hs : 0 ≤ offset una hole.start := by omega
      have he : 0 ≤ offset una hole.finish := by omega
      have hr : 0 ≤ offset una hole.rxmit := by omega
      simp only [List.length_cons] at hfuel hcount
      have hmaxr := offset_max hr hf
      have hminr := offset_min hr hstart
      unfold sackLoop
      simp only [offset_le hf hs, offset_le he hstart, offset_le hstart hs, offset_le he hf]
      split
      · exact ⟨⟨h1, h2, h3, h4, h5⟩, hlast, by simp only [List.length_cons]; omega⟩
      rename_i hleft
      split
      · -- the block lies behind the hole
        obtain ⟨r1, r2, r3⟩ := ih (by omega) (by omega) hmax he h5 hlast
        refine ⟨⟨h1, h2, h3, h4, r1⟩, r2, ?_⟩
        simp only [List.singleton_append, List.length_cons]
        omega
      rename_i hright
      split
      · rename_i hedge
        split
        · -- the block covers the hole
          obtain ⟨r1, r2, r3⟩ := ih (by omega) (Nat.le_sub_one_of_lt hcount)
            (by omega) hlo (h5.mono (by omega) (Int.le_refl _)) hlast
          refine ⟨r1, r2, ?_⟩
          simp only [List.nil_append, List.length_cons]
          omega
        · rename_i hin
          obtain ⟨r1, r2, r3⟩ := ih (by omega) (by omega) hmax he h5 hlast
          refine ⟨⟨by simp only; omega, by simp only; omega, by simp only; omega,
            by simp only; omega, r1⟩, r2, ?_⟩
          simp only [List.singleton_append, List.length_cons]
          omega
      · rename_i hedge
        split
        · -- the block trims the end of the hole
          rename_i hin
          obtain ⟨r1, r2, r3⟩ := ih (by omega) (by omega) hmax hstart
            (h5.mono (by omega) (Int.le_refl _)) hlast
          refine ⟨⟨h1, ?_, ?_, ?_, r1⟩, r2, ?_⟩
          · simp only [dupHole]
            omega
          · simp only [dupHole]
            omega
          · simp only [dupHole]
            omega
          · simp only [List.singleton_append, List.length_cons]
            omega
        · rename_i hin
          have hsplit : ∀ rest hi, Chained una (offset una hole.finish) rest hi →
              Chained una lo ([dupHole { hole with
                  finish := start, rxmit := seqMin hole.rxmit start } fin mss,
                { hole with start := fin, rxmit := seqMax hole.rxmit fin }] ++ rest) hi := by
            intro rest hi hrest
            refine ⟨h1, ?_, ?_, ?_, ?_, ?_, ?_, ?_, hrest⟩
            all_goals simp only [dupHole]
            all_goals omega
          split
          · -- the hole becomes two
            have hroom : holes.length ≤ count + 1 := by omega
            obtain ⟨r1, r2, r3⟩ := ih (by omega) hroom (by omega) he h5 hlast
            refine ⟨hsplit _ _ r1, r2, ?_⟩
            simp only [List.length_append, List.length_cons, List.length_nil]
            omega
          · split
            · rename_i last hlastHole
              obtain ⟨r1, r2⟩ := h5.dropLast hlastHole
              have hne : holes ≠ [] := by
                rintro rfl
                cases hlastHole
              have hpos := List.length_pos_iff.mpr hne
              obtain ⟨r3, r4, r5⟩ := ih
                (by rw [List.length_dropLast]; omega) (by rw [List.length_dropLast]; omega) hmax
                he r1 (by omega)
              refine ⟨hsplit _ _ r3, r4, ?_⟩
              rw [List.length_dropLast] at r5
              simp only [List.length_append, List.length_cons, List.length_nil]
              omega
            · refine ⟨⟨h1, ?_, ?_, ?_, ?_⟩, hfin, ?_⟩
              · simp only [dupHole]
                omega
              · simp only [dupHole]
                omega
              · simp only [dupHole]
                omega
              · simp only [Chained, dupHole]
                omega
              · rename_i hnone
                obtain rfl := List.getLast?_eq_none_iff.mp hnone
                simp only [List.length_cons, List.length_nil] at hcount ⊢
                omega

end Loop

/-! ## The scoreboard of a connection -/

namespace StreamReceiver

variable {s s' : StreamReceiver}

/-- The sum that `updateScoreboard` counts. -/
def rxmitSum (holes : List SackHole) : Int :=
  (holes.map fun hole => (hole.rxmit - hole.start).toInt).sum

/-- The holes lie one behind the other in what is outstanding, and `lastSack` comes behind them. -/
structure Holes (s : StreamReceiver) : Prop where
  length : s.scoreboard.length ≤ asbMax
  chained : s.scoreboard ≠ [] →
    Chained s.sendUna 0 s.scoreboard (offset s.sendUna s.lastSack) ∧
      offset s.sendUna s.lastSack ≤ s.maxOff

/-- The holes, and the count of what was retransmitted of them. -/
structure Board (s : StreamReceiver) : Prop where
  holes : s.Holes
  counted : s.rxmitData = rxmitSum s.scoreboard

/-- The tests that a block of a SACK option has to pass (`streamScoreboard.cpp:107-114`). -/
def Accepts (s : StreamReceiver) (ack : TCPSeq) (block : TCPSeq × TCPSeq) : Prop :=
  ¬ seqLe block.2 block.1 ∧ ¬ seqLe block.2 s.sendUna ∧ ¬ seqLe block.1 ack ∧
    ¬ seqLt s.sendMax block.2

/-- What `updateBlock` leaves as it was. -/
structure BlockFrame (s s' : StreamReceiver) : Prop where
  una : s'.sendUna = s.sendUna
  max : s'.sendMax = s.sendMax
  sack : s'.sack = s.sack
  rxmitData : s'.rxmitData = s.rxmitData

theorem updateBlock_frame (s : StreamReceiver) (ack start fin : TCPSeq) :
    BlockFrame s (s.updateBlock ack start fin) := by
  unfold updateBlock
  simp only
  repeat' split
  all_goals exact ⟨rfl, rfl, rfl, rfl⟩

/-- An acknowledgement and a block, by offsets. The block comes behind the acknowledgement, which
    says that it is not the block that comes around the circle. -/
theorem accepted_offsets {ack : TCPSeq} {block : TCPSeq × TCPSeq} (hmax : 0 ≤ s.maxOff)
    (hbelow : ¬ seqLt ack s.sendUna) (habove : ¬ seqLt s.sendMax ack) (h : s.Accepts ack block)
    (hbehind : seqLt ack block.2) :
    0 ≤ offset s.sendUna ack ∧ offset s.sendUna ack < offset s.sendUna block.1 ∧
      offset s.sendUna block.1 < offset s.sendUna block.2 ∧
      offset s.sendUna block.2 ≤ s.maxOff := by
  obtain ⟨h1, h2, h3, h4⟩ := h
  have hself := offset_self s.sendUna
  have hmaxOff : offset s.sendUna s.sendMax = s.maxOff := rfl
  obtain ⟨t1, e1, l1, u1⟩ := sub_toInt s.sendUna block.1 block.2
  obtain ⟨t2, e2, l2, u2⟩ := sub_toInt s.sendUna s.sendUna block.2
  obtain ⟨t3, e3, l3, u3⟩ := sub_toInt s.sendUna ack block.1
  obtain ⟨t4, e4, l4, u4⟩ := sub_toInt s.sendUna block.2 s.sendMax
  obtain ⟨t5, e5, l5, u5⟩ := sub_toInt s.sendUna s.sendUna ack
  obtain ⟨t6, e6, l6, u6⟩ := sub_toInt s.sendUna ack s.sendMax
  obtain ⟨t7, e7, l7, u7⟩ := sub_toInt s.sendUna block.2 ack
  have b1 := offset_bounds s.sendUna block.1
  have b2 := offset_bounds s.sendUna block.2
  have b3 := offset_bounds s.sendUna ack
  have b4 := offset_bounds s.sendUna s.sendMax
  unfold seqLe seqLt at *
  omega

/-- One block keeps the holes in order. -/
theorem Holes.updateBlock (h : s.Holes) {ack start fin : TCPSeq} (hmax : 0 ≤ s.maxOff)
    (hbelow : ¬ seqLt ack s.sendUna) (habove : ¬ seqLt s.sendMax ack)
    (hbehind : s.Accepts ack (start, fin) → seqLt ack fin) :
    (s.updateBlock ack start fin).Holes := by
  unfold StreamReceiver.updateBlock
  split
  · exact h
  rename_i hpasses
  simp only [not_or] at hpasses
  obtain ⟨hack, hstart, hblock, hfin⟩ :=
    @accepted_offsets s ack (start, fin) hmax hbelow habove hpasses (hbehind hpasses)
  simp only at hack hstart hblock hfin
  simp only
  generalize hs1 : (if seqLt s.sendFack fin then { s with sendFack := fin } else s) = s1
  have hsame : s1.sendUna = s.sendUna ∧ s1.sendMax = s.sendMax ∧ s1.scoreboard = s.scoreboard ∧
      s1.lastSack = s.lastSack ∧ s1.mss = s.mss := by
    rw [← hs1]
    split <;> exact ⟨rfl, rfl, rfl, rfl, rfl⟩
  obtain ⟨huna, hmaxEq, hboard, hlast, hmss⟩ := hsame
  rw [hboard, hlast]
  split
  · -- the first hole
    refine ⟨by simp only [List.length_singleton]; decide, fun _ => ?_⟩
    simp only [huna]
    refine ⟨⟨hack, hstart, Int.le_refl _, Int.le_of_lt hstart, ?_⟩, ?_⟩
    · exact Int.le_of_lt hblock
    · exact Int.le_trans hfin (Int.le_of_eq (by simp only [maxOff, hmaxEq]))
  · rename_i hsome
    obtain ⟨hchain, hbound⟩ := h.chained hsome
    obtain ⟨r1, r2, r3⟩ := sackLoop_chained s1.mss
      (Nat.le_refl s.scoreboard.length) (Nat.le_refl _) h.length (Int.le_refl 0) (by omega) hblock
      hfin hchain hbound
    rw [Nat.sub_self, Nat.add_zero] at r3
    generalize sackLoop s1.mss start fin s.scoreboard.length s.scoreboard.length s.scoreboard
      s.lastSack = rest at r1 r2 r3
    obtain ⟨holes, lastSack⟩ := rest
    simp only at r1 r2 r3 ⊢
    split
    · -- a new hole behind all of them
      rename_i hnew
      have hlo := r1.le
      have hbefore := (offset_lt hlo (by omega)).mp hnew.1
      refine ⟨by simp only [List.length_append, List.length_singleton]; omega, fun _ => ?_⟩
      simp only [huna]
      refine ⟨r1.append ⟨Int.le_refl _, hbefore, Int.le_refl _, Int.le_of_lt hbefore, ?_⟩, ?_⟩
      · exact Int.le_of_lt hblock
      · exact Int.le_trans hfin (Int.le_of_eq (by simp only [maxOff, hmaxEq]))
    · refine ⟨r3, fun _ => ?_⟩
      simp only [huna]
      exact ⟨r1, Int.le_trans r2 (Int.le_of_eq (by simp only [maxOff, hmaxEq]))⟩

/-- A SACK option keeps the scoreboard in order. -/
theorem Board.updateScoreboard (h : s.Board) {ack : TCPSeq} {blocks : List (TCPSeq × TCPSeq)}
    (hmax : 0 ≤ s.maxOff) (hbehind : ∀ b ∈ blocks, s.Accepts ack b → seqLt ack b.2) :
    (s.updateScoreboard ack blocks).Board := by
  unfold StreamReceiver.updateScoreboard
  split
  · exact h
  rename_i hpasses
  simp only [not_or] at hpasses
  obtain ⟨-, habove, hbelow⟩ := hpasses
  have hfold : ∀ s1 : StreamReceiver, s1.Holes → s1.sendUna = s.sendUna →
      s1.sendMax = s.sendMax →
      (blocks.foldl (fun s b => s.updateBlock ack b.1 b.2) s1).Holes := by
    induction blocks with
    | nil => exact fun s1 h1 _ _ => h1
    | cons b blocks ih =>
      intro s1 h1 huna hmaxEq
      obtain ⟨hb, hbehind⟩ := List.forall_mem_cons.mp hbehind
      have hframe := updateBlock_frame s1 ack b.1 b.2
      have hmaxOff : s1.maxOff = s.maxOff := by
        simp only [maxOff, huna, hmaxEq]
      refine ih hbehind _ (h1.updateBlock (hmaxOff ▸ hmax) (huna ▸ hbelow) (hmaxEq ▸ habove) ?_)
        (hframe.una.trans huna) (hframe.max.trans hmaxEq)
      intro haccepts
      refine hb ?_
      simpa only [Accepts, huna, hmaxEq] using haccepts
  have hholes := hfold s h.holes rfl rfl
  exact ⟨⟨hholes.length, hholes.chained⟩, rfl⟩

end StreamReceiver

end EsOs.Net
