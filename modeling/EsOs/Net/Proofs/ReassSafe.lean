import EsOs.Lib.System
import EsOs.Net.Proofs.Reass

/-!
# Reassembly inside of its buffer

What a datagram under reassembly keeps from packet to packet: its holes are stored at their places
behind the header. The records move with the bytes when the first fragment brings options, so that
this must not happen while there is a hole behind the bytes that are moved.
-/

namespace EsOs.Net

open EsOs.Lib

namespace Packet

/-- `first`, `len` and `last` of `ReassReceiver::input`. -/
def first (m : Packet) : Nat :=
  m.hdr.getOffset

def len (m : Packet) : Nat :=
  m.hdr.getSize - m.hdr.getHdrSize

def last (m : Packet) : Nat :=
  m.first + m.len - 1

/-- What `InReceiver` hands on as a fragment (`inet4.cpp:505-527`). -/
structure IsFragment (m : Packet) : Prop where
  header : IPHdr.MinHdrSize ≤ m.hdr.getHdrSize
  part : m.first ≠ 0 ∨ m.hdr.moreFragments = true

/-- A fragment that is not given up: it has bytes, and unless it is the last one, blocks of eight. -/
structure Regular (m : Packet) : Prop extends IsFragment m where
  bytes : m.hdr.getHdrSize < m.hdr.getSize
  blocks : m.hdr.moreFragments = true → m.len % 8 = 0

theorem first_aligned (m : Packet) : m.first % 8 = 0 := by
  unfold first IPHdr.getOffset
  omega

variable {m : Packet} (hm : m.Regular)
include hm

theorem Regular.len_pos : 0 < m.len := by
  have := hm.bytes
  unfold len
  omega

theorem Regular.size_eq : m.hdr.getHdrSize + m.len = m.hdr.getSize := by
  have := hm.bytes
  unfold len
  omega

/-- The fragment that begins the datagram has at least eight bytes. -/
theorem Regular.saves (hfirst : m.first = 0) : m.hdr.getHdrSize + 8 ≤ m.hdr.getSize := by
  have hmore := hm.part.resolve_left fun h => h hfirst
  have hblocks := hm.blocks hmore
  have hlen := hm.len_pos
  have hsize := hm.size_eq
  omega

end Packet

variable {h first last len : Nat} {more : Bool} {gs : List Gap} {g : Gap} {m : Packet}

theorem Holes.cons (hs : Holes h (g :: gs)) :
    g.Fits h ∧ Holes h gs ∧ ∀ q ∈ gs, g.last < q.first :=
  ⟨hs.fits g (List.mem_cons_self ..),
    ⟨fun q hq => hs.fits q (.tail _ hq), (List.pairwise_cons.mp hs.order).2⟩,
    (List.pairwise_cons.mp hs.order).1⟩

namespace HoleScan

theorem mem_leftOf : g ∈ leftOf first g' ↔ g'.first < first ∧ g = ⟨g'.first, first - 1⟩ := by
  unfold leftOf
  split
  · rename_i hlt
    simp [hlt]
  · rename_i hlt
    simp [hlt]

theorem mem_rightOf :
    g ∈ rightOf last more g' ↔ (last < g'.last ∧ more = true) ∧ g = ⟨last + 1, g'.last⟩ := by
  unfold rightOf
  split
  · rename_i hlt
    simp [hlt]
  · rename_i hlt
    simp [hlt]

theorem mem_restOf {q : Gap} (hq : q ∈ restOf last more g gs) : q ∈ gs := by
  unfold restOf at hq
  split at hq
  · cases hq
  · exact hq

/-- A hole that is left lies in one that was there, and ends with it or before the fragment. -/
theorem mem_fillGaps {q : Gap} (hq : q ∈ fillGaps first last more gs) :
    ∃ g ∈ gs, g.first ≤ q.first ∧ q.last ≤ g.last ∧ (q.last = g.last ∨ q.last = first - 1) := by
  induction gs with
  | nil => cases hq
  | cons g gs ih =>
    unfold fillGaps at hq
    split at hq
    · rename_i hin
      obtain ⟨hfirst, hlast⟩ := hin
      simp only [List.mem_append, mem_leftOf, mem_rightOf] at hq
      rcases hq with (⟨hlt, rfl⟩ | ⟨⟨hlt, -⟩, rfl⟩) | hq
      · exact ⟨g, List.mem_cons_self .., Nat.le_refl _, by dsimp only; omega, .inr rfl⟩
      · exact ⟨g, List.mem_cons_self .., by dsimp only; omega, Nat.le_refl _, .inl rfl⟩
      · exact ⟨q, .tail _ (mem_restOf hq), Nat.le_refl _, Nat.le_refl _, .inl rfl⟩
    · rcases List.mem_cons.mp hq with rfl | hq
      · exact ⟨q, List.mem_cons_self .., Nat.le_refl _, Nat.le_refl _, .inl rfl⟩
      · obtain ⟨p, hp, h⟩ := ih hq
        exact ⟨p, .tail _ hp, h⟩

/-- What is left are holes again. -/
theorem fillGaps_holes (hs : Holes h gs) (hfirst : first % 8 = 0) (hle : first ≤ last)
    (hh : 20 ≤ h) (hend : more = true → (last + 1) % 8 = 0)
    (hroom : more = true → ∀ g, touched first last gs = some g → last < g.last →
      h + last + 9 ≤ 65535) :
    Holes h (fillGaps first last more gs) := by
  induction gs with
  | nil => exact hs
  | cons g gs ih =>
    obtain ⟨hfit, hrest, hbehind⟩ := hs.cons
    obtain ⟨haligned, hwhole, hroomg, hbound, hinside⟩ := hfit
    unfold fillGaps
    split
    · rename_i hin
      obtain ⟨hin₁, hin₂⟩ := id hin
      constructor
      · intro q hq
        simp only [List.mem_append, mem_leftOf, mem_rightOf] at hq
        rcases hq with (⟨hlt, rfl⟩ | ⟨⟨hlt, hmore⟩, rfl⟩) | hq
        · exact ⟨haligned, by dsimp only; omega, by dsimp only; omega, by dsimp only; omega, hinside⟩
        · have hroom := hroom hmore g (touched_cons_pos hin) hlt
          have hend := hend hmore
          exact ⟨hend, hwhole, by dsimp only; omega, hbound, by dsimp only; omega⟩
        · exact hrest.fits q (mem_restOf hq)
      · refine List.pairwise_append.mpr ⟨List.pairwise_append.mpr ⟨?_, ?_, ?_⟩, ?_, ?_⟩
        · unfold leftOf
          split
          · exact List.pairwise_singleton _ _
          · exact .nil
        · unfold rightOf
          split
          · exact List.pairwise_singleton _ _
          · exact .nil
        · intro a ha b hb
          obtain ⟨-, rfl⟩ := mem_leftOf.mp ha
          obtain ⟨-, rfl⟩ := mem_rightOf.mp hb
          dsimp only
          omega
        · unfold restOf
          split
          · exact .nil
          · exact hrest.order
        · intro a ha b hb
          have := hbehind b (mem_restOf hb)
          rcases List.mem_append.mp ha with ha | ha
          · obtain ⟨-, rfl⟩ := mem_leftOf.mp ha
            dsimp only
            omega
          · obtain ⟨-, rfl⟩ := mem_rightOf.mp ha
            exact this
    · rename_i hin
      have hkept := ih hrest fun hmore q hq => hroom hmore q ((touched_cons_neg hin).trans hq)
      refine ⟨fun q hq => ?_, List.pairwise_cons.mpr ⟨fun q hq => ?_, hkept.order⟩⟩
      · rcases List.mem_cons.mp hq with rfl | hq
        · exact ⟨haligned, hwhole, hroomg, hbound, hinside⟩
        · exact hkept.fits q hq
      · obtain ⟨p, hp, hle, -⟩ := mem_fillGaps hq
        have := hbehind p hp
        omega

end HoleScan

/-- Holes are not many. -/
theorem Holes.length_lt (hs : Holes h gs) : gs.length < 65536 := by
  have hbound : ∀ (gs : List Gap) lo, Cursor.Spaced gs → (∀ g ∈ gs, lo ≤ g.first ∧ g.first < 65528) →
      lo ≤ 65535 → lo + gs.length ≤ 65535 := by
    intro gs
    induction gs with
    | nil => exact fun lo _ _ h => h
    | cons g gs ih =>
      intro lo hsp hin hlo
      obtain ⟨hg, hgs⟩ := List.pairwise_cons.mp hsp
      have hfirst := hin g (List.mem_cons_self ..)
      have hrest := ih (g.first + 8) hgs
        (fun q hq => ⟨hg q hq, (hin q (.tail _ hq)).2⟩) (by omega)
      rw [List.length_cons]
      omega
  have := hbound gs 0 hs.spaced (fun g hg => ⟨Nat.zero_le _, by have := (hs.fits g hg).inside; omega⟩)
    (by omega)
  omega

namespace Reass

/-- The holes that a chunk holds from `v` on, at most `fuel` of them. -/
def holesFrom (h : Nat) (c : Chunk) : Nat → Nat → List Gap
  | 0, _ => []
  | fuel + 1, v =>
    if v = EOH then []
    else ⟨c.get16 (h + v + Hole.first), c.get16 (h + v + Hole.last)⟩ ::
      holesFrom h c fuel (c.get16 (h + v + Hole.next))

/-- The holes of a datagram; one that nothing has come for yet is a hole as a whole. -/
def holes : Option Reass → List Gap
  | none => [⟨0, 65515⟩]
  | some r => holesFrom r.iphdr.getHdrSize r.chunk 65536 r.list

theorem holesFrom_eq {c : Chunk} {list fuel : Nat} (hst : Stored h c list gs) (hs : Holes h gs)
    (hfuel : gs.length < fuel) : holesFrom h c fuel list = gs := by
  induction gs generalizing list fuel with
  | nil =>
    obtain ⟨fuel, rfl⟩ := Nat.exists_eq_add_of_le' (Nat.succ_le_of_lt hfuel)
    exact if_pos hst.path
  | cons g gs ih =>
    obtain ⟨fuel, rfl⟩ := Nat.exists_eq_add_of_le' (Nat.succ_le_of_lt (Nat.zero_lt_of_lt hfuel))
    obtain ⟨hlist, hpath⟩ := hst.path
    obtain ⟨hfirst, hlast⟩ := hst.records g (List.mem_cons_self ..)
    have hne : list ≠ EOH := by
      have := (hs.fits g (List.mem_cons_self ..)).aligned
      rw [hlist, EOH]
      omega
    have hrest := ih ⟨fun q hq => hst.records q (.tail _ hq), hpath⟩ hs.cons.2.1
      (Nat.lt_of_succ_lt_succ hfuel)
    unfold follow at hrest
    rw [← hlist] at hrest hfirst hlast
    simp only [holesFrom, if_neg hne, hrest, hfirst, hlast]
    rw [hlist]

/-- The holes `gs` are stored behind the header, which has no options while the first fragment is not
    saved. -/
structure Sound (r : Reass) (gs : List Gap) : Prop where
  header : 20 ≤ r.iphdr.getHdrSize
  stored : Stored r.iphdr.getHdrSize r.chunk r.list gs
  holes : Holes r.iphdr.getHdrSize gs
  unsaved : r.firstFragment = false → r.iphdr.getHdrSize = 20

theorem Sound.holes_eq {r : Reass} (hr : r.Sound gs) : Reass.holes (some r) = gs :=
  holesFrom_eq hr.stored hr.holes hr.holes.length_lt

theorem Sound.list_eq {r : Reass} (hr : r.Sound gs) : r.list = EOH ↔ gs = [] := by
  have hpath := hr.stored.path
  cases gs with
  | nil => exact iff_of_true hpath rfl
  | cons g gs =>
    have := (hr.holes.fits g (List.mem_cons_self ..)).aligned
    obtain ⟨hlist, -⟩ := hpath
    refine iff_of_false ?_ (List.cons_ne_nil _ _)
    rw [hlist, EOH]
    omega

/-- A new datagram is one hole. -/
theorem create_stored (junk : Chunk) (m : Packet) :
    Stored 20 (create junk m).chunk (create junk m).list [⟨0, 65515⟩] := by
  have hw₂ := Chunk.set16_within (junk.set16 20 0) 22 65515
  have hw₃ := Chunk.set16_within ((junk.set16 20 0).set16 22 65515) 24 1
  refine ⟨fun g hg => ?_, rfl, ?_⟩
  · rw [List.mem_singleton.mp hg]
    constructor
    · refine (hw₃.get16 ?_).trans ((hw₂.get16 ?_).trans (Chunk.get16_set16 ?_)) <;>
        simp [Hole.first]
    · refine (hw₃.get16 ?_).trans (Chunk.get16_set16 ?_) <;> simp [Hole.last]
  · exact Chunk.get16_set16 (show 1 < 65536 by decide)

theorem create_holes (hh : h ≤ 60) : Holes h [⟨0, 65515⟩] := by
  refine ⟨fun g hg => ?_, List.pairwise_singleton _ _⟩
  rw [List.mem_singleton.mp hg]
  exact ⟨rfl, .inr rfl, by decide, by decide, by dsimp only; omega⟩

/-- The records move with the bytes. -/
theorem move_stored {c : Chunk} {list count : Nat} (hst : Stored 20 c list gs)
    (hcount : ∀ g ∈ gs, g.first + 8 ≤ count) :
    Stored h (c.move h count fun i => c (20 + i)) list gs := by
  have hget : ∀ g ∈ gs, ∀ k, k + 2 ≤ 8 →
      (c.move h count fun i => c (20 + i)).get16 (h + g.first + k) =
        c.get16 (20 + g.first + k) := by
    intro g hg k hk
    have := hcount g hg
    simp only [Chunk.get16, Chunk.move]
    rw [if_pos (by omega), if_pos (by omega)]
    have hi : 20 + (h + g.first + k - h) = 20 + g.first + k := by omega
    have hi' : 20 + (h + g.first + k + 1 - h) = 20 + g.first + k + 1 := by omega
    rw [hi, hi']
  refine ⟨fun g hg => ?_, ?_⟩
  · obtain ⟨hfirst, hlast⟩ := hst.records g hg
    exact ⟨(hget g hg 0 (by decide)).trans hfirst, (hget g hg 2 (by decide)).trans hlast⟩
  · refine hst.path.congr fun v hv => ?_
    obtain ⟨g, hg, rfl⟩ := List.mem_map.mp hv
    exact hget g hg 4 (by decide)

theorem move_holes {count : Nat} (hs : Holes 20 gs) (hcount : ∀ g ∈ gs, g.first + 8 ≤ count)
    (hfit : h + count ≤ 65535) : Holes h gs := by
  refine ⟨fun g hg => ?_, hs.order⟩
  obtain ⟨haligned, hwhole, hroom, hbound, -⟩ := hs.fits g hg
  have := hcount g hg
  exact ⟨haligned, hwhole, hroom, hbound, by omega⟩

/-- The packet brings the options of the datagram, so that the bytes move on behind them. -/
def Shifts (r : Option Reass) (m : Packet) : Prop :=
  m.first = 0 ∧ 20 < m.hdr.getHdrSize ∧ ∀ r', r = some r' → r'.firstFragment = false

instance (r : Option Reass) (m : Packet) : Decidable (Shifts r m) :=
  match r with
  | none => decidable_of_iff (m.first = 0 ∧ 20 < m.hdr.getHdrSize) (by simp [Shifts])
  | some r =>
    decidable_of_iff (m.first = 0 ∧ 20 < m.hdr.getHdrSize ∧ r.firstFragment = false)
      (by simp [Shifts])

/-- The size of the header that the datagram has once the packet is looked at. -/
def headerWith (r : Option Reass) (m : Packet) : Nat :=
  if Shifts r m then m.hdr.getHdrSize else (r.elim m.hdr fun r => r.iphdr).getHdrSize

/-- The number of bytes that move with the options. -/
def shifted (r : Option Reass) (m : Packet) : Nat :=
  (r.elim m.hdr fun r => r.iphdr).getSize - IPHdr.MinHdrSize

/-- There is room for what a packet makes of the datagram. -/
structure Room (r : Option Reass) (m : Packet) : Prop where
  /-- A fragment that comes first and has options begins the datagram. -/
  begins : r = none → m.first ≠ 0 → m.hdr.getHdrSize = 20
  /-- The records of all the holes lie in the bytes that move. -/
  moved : Shifts r m → ∀ g ∈ holes r, g.first + 8 ≤ shifted r m
  /-- The bytes that move have room behind the options. -/
  behind : Shifts r m → m.hdr.getHdrSize + shifted r m ≤ 65535
  /-- The datagram is not longer than a datagram can be. -/
  total : headerWith r m + m.first + m.len ≤ 65535
  /-- A hole that goes on behind the fragment has room for its record. -/
  record : m.hdr.moreFragments = true → ∀ g, HoleScan.touched m.first m.last (holes r) = some g →
    m.last < g.last → headerWith r m + m.last + 9 ≤ 65535

/-- A datagram between two packets: its holes are sound, and there are some. -/
structure Held (r : Option Reass) : Prop where
  sound : ∀ r', r = some r' → r'.Sound (holes r)
  holed : holes r ≠ []

/-- The first fragment is saved, and the bytes move if it has options. -/
theorem saveFirst_saves {d : Reass} (hm : m.Regular) (hfirst : m.first = 0)
    (hd : d.firstFragment = false) (hst : Stored 20 d.chunk d.list gs) (hs : Holes 20 gs)
    (hne : gs ≠ []) (hsame : m.hdr.getHdrSize ≤ 20 → d.iphdr.getHdrSize = 20)
    (hmoved : 20 < m.hdr.getHdrSize → ∀ g ∈ gs, g.first + 8 ≤ d.iphdr.getSize - 20)
    (hbehind : 20 < m.hdr.getHdrSize → m.hdr.getHdrSize + (d.iphdr.getSize - 20) ≤ 65535) :
    ∃ r', d.saveFirst m = some r' ∧ r'.Sound gs ∧ r'.iphdr.getHdrSize = m.hdr.getHdrSize ∧
      (m.hdr.getHdrSize ≤ 20 → r'.iphdr = d.iphdr ∧ r'.chunk = d.chunk) := by
  have hheader := hm.header
  have hcond : m.hdr.getOffset = 0 ∧ m.hdr.getHdrSize + 8 ≤ m.hdr.getSize ∧ !d.firstFragment := by
    rw [hd]
    exact ⟨hfirst, hm.saves hfirst, rfl⟩
  simp only [IPHdr.MinHdrSize] at hheader
  unfold saveFirst
  rw [if_pos hcond]
  by_cases hopt : 20 < m.hdr.getHdrSize
  · have hmoved := hmoved hopt
    have hbehind := hbehind hopt
    obtain ⟨g, hg⟩ := List.exists_mem_of_ne_nil gs hne
    have := hmoved g hg
    rw [if_pos (by exact hopt), if_pos (by simp only [IPHdr.MinHdrSize, Chunk.SIZE]; omega)]
    refine ⟨_, rfl, ⟨hm.header, ?_, ?_, fun h => by cases h⟩, rfl,
      fun hle => absurd hopt (Nat.not_lt_of_le hle)⟩
    · exact move_stored hst hmoved
    · exact move_holes hs hmoved hbehind
  · rw [if_neg (by exact hopt)]
    have hd20 := hsame (Nat.le_of_not_lt hopt)
    refine ⟨_, rfl, ⟨?_, ?_, ?_, fun h => by cases h⟩, ?_, fun _ => ⟨rfl, rfl⟩⟩
    · show 20 ≤ d.iphdr.getHdrSize
      omega
    · show Stored d.iphdr.getHdrSize d.chunk d.list gs
      rwa [hd20]
    · show Holes d.iphdr.getHdrSize gs
      rwa [hd20]
    · show d.iphdr.getHdrSize = m.hdr.getHdrSize
      omega

/-- Another packet leaves the datagram as it is. -/
theorem saveFirst_none {d : Reass} (h : m.first ≠ 0 ∨ d.firstFragment = true) :
    d.saveFirst m = some d := by
  unfold saveFirst
  refine if_neg fun ⟨hoffset, _, hnot⟩ => ?_
  rcases h with h | h
  · exact h hoffset
  · rw [h] at hnot
    cases hnot

/-- What the loop is entered with. -/
theorem saveFirst_spec (junk : Chunk) {r : Option Reass} (hm : m.Regular) (hr : Held r)
    (hroom : Room r m) :
    ∃ r', (r.getD (create junk m)).saveFirst m = some r' ∧ r'.Sound (holes r) ∧
      r'.iphdr.getHdrSize = headerWith r m ∧
      (¬ Shifts r m → r'.iphdr = (r.getD (create junk m)).iphdr ∧
        r'.chunk = (r.getD (create junk m)).chunk) := by
  have hheader := hm.header
  simp only [IPHdr.MinHdrSize] at hheader
  cases r with
  | none =>
    have hd : (create junk m).firstFragment = false := rfl
    have hwith : headerWith none m = m.hdr.getHdrSize := by
      unfold headerWith
      split <;> rfl
    rw [hwith]
    by_cases hfirst : m.first = 0
    · have hshift : 20 < m.hdr.getHdrSize → Shifts none m := fun hopt =>
        ⟨hfirst, hopt, fun _ h => by cases h⟩
      obtain ⟨r', hr', hsound, hhdr, hsame⟩ := saveFirst_saves hm hfirst hd
        (create_stored junk m) (create_holes (by decide)) hr.holed
        (fun hle => Nat.le_antisymm hle hheader) (fun h => hroom.moved (hshift h))
        fun h => hroom.behind (hshift h)
      exact ⟨r', hr', hsound, hhdr, fun hno => hsame (Nat.le_of_not_lt fun h => hno (hshift h))⟩
    · have h20 : (create junk m).iphdr.getHdrSize = 20 := hroom.begins rfl hfirst
      rw [Option.getD_none]
      refine ⟨_, saveFirst_none (.inl hfirst), ⟨Nat.le_of_eq h20.symm, ?_, ?_, fun _ => h20⟩, rfl,
        fun _ => ⟨rfl, rfl⟩⟩
      · rw [h20]
        exact create_stored junk m
      · rw [h20]
        exact create_holes (by decide)
  | some d =>
    have hsound := hr.sound d rfl
    by_cases hsave : m.first = 0 ∧ d.firstFragment = false
    · obtain ⟨hfirst, hd⟩ := hsave
      have h20 := hsound.unsaved hd
      have hstored := hsound.stored
      have hholes := hsound.holes
      rw [h20] at hstored hholes
      have hshift : 20 < m.hdr.getHdrSize → Shifts (some d) m := fun hopt =>
        ⟨hfirst, hopt, fun _ h => by cases h; exact hd⟩
      obtain ⟨r', hr', hsound', hhdr, hsame⟩ := saveFirst_saves hm hfirst hd hstored hholes
        hr.holed (fun _ => h20) (fun h => hroom.moved (hshift h)) fun h => hroom.behind (hshift h)
      refine ⟨r', hr', hsound', hhdr.trans ?_,
        fun hno => hsame (Nat.le_of_not_lt fun h => hno (hshift h))⟩
      unfold headerWith
      split
      · rfl
      · rename_i hno
        show m.hdr.getHdrSize = d.iphdr.getHdrSize
        have : ¬ 20 < m.hdr.getHdrSize := fun h => hno (hshift h)
        omega
    · have hother : m.first ≠ 0 ∨ d.firstFragment = true := by
        by_cases hfirst : m.first = 0
        · exact .inr (by simpa [hfirst] using hsave)
        · exact .inl hfirst
      refine ⟨d, saveFirst_none hother, hsound, ?_, fun _ => ⟨rfl, rfl⟩⟩
      unfold headerWith
      rw [if_neg fun hs => hsave ⟨hs.1, hs.2.2 d rfl⟩]
      rfl

@[simp] theorem updateSize_chunk (r : Reass) (first len : Nat) :
    (r.updateSize first len).chunk = r.chunk := by
  unfold updateSize
  dsimp only
  split <;> rfl

@[simp] theorem updateSize_list (r : Reass) (first len : Nat) :
    (r.updateSize first len).list = r.list := by
  unfold updateSize
  dsimp only
  split <;> rfl

@[simp] theorem updateSize_firstFragment (r : Reass) (first len : Nat) :
    (r.updateSize first len).firstFragment = r.firstFragment := by
  unfold updateSize
  dsimp only
  split <;> rfl

@[simp] theorem updateSize_getHdrSize (r : Reass) (first len : Nat) :
    (r.updateSize first len).iphdr.getHdrSize = r.iphdr.getHdrSize := by
  unfold updateSize
  dsimp only
  split <;> rfl

/-- The size covers the packet. -/
theorem le_updateSize (r : Reass) {first len : Nat}
    (hle : r.iphdr.getHdrSize + first + len ≤ 65535) :
    r.iphdr.getHdrSize + first + len ≤ (r.updateSize first len).iphdr.getSize := by
  unfold updateSize
  dsimp only
  split
  · have hlen : (UInt16.ofNat (r.iphdr.getHdrSize + first + len)).toNat =
        (r.iphdr.getHdrSize + first + len) % 65536 := UInt16.toNat_ofNat'
    show _ ≤ (UInt16.ofNat (r.iphdr.getHdrSize + first + len)).toNat
    omega
  · rename_i hlt
    exact Nat.le_of_not_lt hlt

/-- The holes that are left after a packet. -/
def holesAfter (r : Option Reass) (m : Packet) : List Gap :=
  HoleScan.fillGaps m.first m.last m.hdr.moreFragments (holes r)

/-- The bytes of the holes that are filled come from the packet, and those outside of the holes
    stay. -/
structure Filled (d r' : Reass) (m : Packet) (gs : List Gap) : Prop where
  kept : ∀ x, ¬ HoleScan.Missing gs x →
    r'.chunk (d.iphdr.getHdrSize + x) = d.chunk (d.iphdr.getHdrSize + x)
  taken : ∀ x ≤ m.last, HoleScan.Missing gs x →
    ¬ HoleScan.Missing (HoleScan.fillGaps m.first m.last m.hdr.moreFragments gs) x →
    r'.chunk (d.iphdr.getHdrSize + x) = m.payload (x - m.first)

theorem fillHoles_spec {d : Reass} (hm : m.Regular) (hd : d.Sound gs)
    (htotal : d.iphdr.getHdrSize + m.first + m.len ≤ 65535)
    (hrecord : m.hdr.moreFragments = true → ∀ g, HoleScan.touched m.first m.last gs = some g →
      m.last < g.last → d.iphdr.getHdrSize + m.last + 9 ≤ 65535) :
    ∃ r', d.fillHoles m m.first m.len = some r' ∧ r'.iphdr = d.iphdr ∧
      r'.Sound (HoleScan.fillGaps m.first m.last m.hdr.moreFragments gs) ∧ Filled d r' m gs := by
  have hlen := hm.len_pos
  have hsize := hm.size_eq
  have hlast : m.last = m.first + m.len - 1 := rfl
  have halign := m.first_aligned
  have hend : m.hdr.moreFragments = true → (m.last + 1) % 8 = 0 := by
    intro hmore
    have := hm.blocks hmore
    omega
  obtain ⟨s, hs, hstored, hkept, htaken⟩ := HoleScan.loop_spec (Cursor.ofStored
    (show Stored d.iphdr.getHdrSize (HoleScan.mk d.chunk d.list .list m.last).chunk _ gs
      from hd.stored) rfl) hd.holes hd.header halign (show m.first ≤ m.last by omega) hend hrecord
    (show d.iphdr.getHdrSize + m.last + 1 ≤ 65535 by omega)
    (show m.hdr.getHdrSize + (m.last + 1 - m.first) ≤ m.hdr.getSize by omega) hd.holes.length_lt
  refine ⟨{ d with chunk := s.chunk, list := s.list }, ?_, rfl, ⟨hd.header, hstored, ?_,
    hd.unsaved⟩, hkept, htaken⟩
  · unfold fillHoles
    rw [← hlast, hs]
    rfl
  · exact HoleScan.fillGaps_holes hd.holes halign (by omega) hd.header hend hrecord

/-- A packet for which there is room leaves a datagram with the holes that it does not fill. -/
theorem input_spec (junk : Chunk) {r : Option Reass} (hm : m.Regular) (hr : Held r)
    (hroom : Room r m) :
    ∃ r', ReassReceiver.input junk r m =
        some (if holesAfter r m = [] then .delivered r' else .kept r') ∧
      r'.Sound (holesAfter r m) ∧
      r'.iphdr.getHdrSize + m.first + m.len ≤ r'.iphdr.getSize ∧
      (¬ Shifts r m → r'.iphdr = ((r.getD (create junk m)).updateSize m.first m.len).iphdr ∧
        Filled (r.getD (create junk m)) r' m (holes r)) := by
  obtain ⟨d, hd, hsound, hheader, hsame⟩ := saveFirst_spec junk hm hr hroom
  have htotal := hroom.total
  have hupdated : (d.updateSize m.first m.len).Sound (holes r) := by
    refine ⟨?_, ?_, ?_, ?_⟩
    · simpa using hsound.header
    · simpa using hsound.stored
    · simpa using hsound.holes
    · simpa using hsound.unsaved
  obtain ⟨r', hr', hiphdr, hafter, hfilled⟩ := fillHoles_spec hm hupdated
    (by rwa [updateSize_getHdrSize, hheader])
    (by rw [updateSize_getHdrSize, hheader]; exact hroom.record)
  refine ⟨r', ?_, hafter, ?_, fun hno => ?_⟩
  · have hbytes := hm.bytes
    have hregular : ¬ (m.hdr.getSize ≤ m.hdr.getHdrSize ∨
        (m.hdr.moreFragments ∧ (m.hdr.getSize - m.hdr.getHdrSize) % 8 ≠ 0)) := by
      rintro (hle | ⟨hmore, hblocks⟩)
      · omega
      · exact hblocks (hm.blocks hmore)
    have hlist : (r'.list = EOH) = (holesAfter r m = []) := propext hafter.list_eq
    have hrest : (do
        let d ← (r.getD (create junk m)).saveFirst m
        let d ← (d.updateSize m.first m.len).fillHoles m m.first m.len
        pure (if d.list = EOH then Outcome.delivered d else .kept d)) =
        some (if holesAfter r m = [] then .delivered r' else .kept r') := by
      rw [hd]
      simp only [bind, Option.bind, hr', hlist]
      rfl
    unfold ReassReceiver.input
    simp only [if_neg hregular]
    cases r <;> exact hrest
  · have hle := le_updateSize d (hheader ▸ htotal)
    rw [hiphdr, updateSize_getHdrSize]
    exact hle
  · obtain ⟨hheader, hchunk⟩ := hsame hno
    have hsize : (d.updateSize m.first m.len).iphdr =
        ((r.getD (create junk m)).updateSize m.first m.len).iphdr := by
      unfold updateSize
      rw [hheader]
      dsimp only
      split
      · rfl
      · exact hheader
    refine ⟨hiphdr.trans hsize, ?_, ?_⟩
    · simpa [hheader, hchunk] using hfilled.kept
    · simpa [hheader, hchunk] using hfilled.taken

end Reass

namespace ReassReceiver

open Reass

theorem input_malformed (junk : Chunk) (r : Option Reass) (hm : m.IsFragment)
    (hnot : ¬ m.Regular) : input junk r m = some .discarded := by
  unfold input
  simp only
  refine if_pos (Decidable.byContradiction fun hno => hnot ⟨hm, ?_, fun hmore => ?_⟩)
  · exact Nat.lt_of_not_le fun hle => hno (.inl hle)
  · exact Decidable.byContradiction fun hblocks => hno (.inr ⟨hmore, hblocks⟩)

/-- The packets that a receiver gets one after the other; a new datagram begins in a chunk that holds
    anything. -/
def reassembly : System (Option Reass) (Chunk × Packet) :=
  .ofStep (· = none) fun r l => (input l.1 r l.2).map Outcome.next

/-- The packet is a fragment, and there is room for it unless it is given up. -/
def Meets (r : Option Reass) (l : Chunk × Packet) : Prop :=
  l.2.IsFragment ∧ (l.2.Regular → Room r l.2)

/-- Every access is inside of its chunk, and the total length does not wrap. -/
def Contained (junk : Chunk) (r : Option Reass) (m : Packet) : Prop :=
  ∃ o, input junk r m = some o ∧ ∀ r', o = .kept r' ∨ o = .delivered r' →
    r'.iphdr.getHdrSize + m.first + m.len ≤ r'.iphdr.getSize

theorem held_none : Held none :=
  ⟨nofun, List.cons_ne_nil _ _⟩

/-- A step: the datagram that waits is held again. -/
theorem input_held (junk : Chunk) {r : Option Reass} (hr : Held r) (hmeets : Meets r (junk, m)) :
    Contained junk r m ∧ ∀ o, input junk r m = some o → Held o.next := by
  obtain ⟨hfragment, hroom⟩ := hmeets
  by_cases hm : m.Regular
  · obtain ⟨r', hr', hsound, htotal, -⟩ := input_spec junk hm hr (hroom hm)
    refine ⟨⟨_, hr', fun d hd => ?_⟩, fun o ho => ?_⟩
    · have heq : r' = d := by
        split at hd <;> rcases hd with hd | hd <;> cases hd <;> rfl
      rwa [← heq]
    · rw [hr'] at ho
      cases ho
      split
      · exact held_none
      · rename_i hopen
        refine ⟨fun d hd => ?_, ?_⟩
        · cases hd
          rw [Outcome.next, hsound.holes_eq]
          exact hsound
        · rw [Outcome.next, hsound.holes_eq]
          exact hopen
  · have hgone := input_malformed junk r hfragment hm
    refine ⟨⟨_, hgone, fun d hd => ?_⟩, fun o ho => ?_⟩
    · rcases hd with hd | hd <;> cases hd
    · rw [hgone] at ho
      cases ho
      exact held_none

theorem run_held {r : Option Reass} (hrun : reassembly.RunWith Meets r) : Held r := by
  refine hrun.invariant Held ?_ ?_
  · rintro _ rfl
    exact held_none
  · rintro r ⟨junk, m⟩ r' hr hmeets hstep
    obtain ⟨o, ho, rfl⟩ := Option.map_eq_some_iff.mp hstep
    exact (input_held junk hr hmeets).2 o ho

/-- In every run of fragments that there is room for, the next one is put in its place inside of the
    chunk, and the total length is not less than it is. -/
theorem contained {r : Option Reass} (hrun : reassembly.RunWith Meets r) (junk : Chunk) (m : Packet)
    (hm : Meets r (junk, m)) : Contained junk r m :=
  (input_held junk (run_held hrun) hm).1

/-- A fragment of a datagram. -/
def fragmentOf (ihl : BitVec 4) (first len : Nat) (more : Bool) : Packet where
  hdr :=
    { ihl := ihl, len := UInt16.ofNat (4 * ihl.toNat + len), id := 1,
      frag := UInt16.ofNat (first / 8 + if more then 0x2000 else 0), proto := 17, src := 1,
      dst := 2 }
  payload := fun i => UInt8.ofNat (first + i)

/-- A fragment that comes first, with options. -/
theorem contained_options : Contained (fun _ => 0) none (fragmentOf 6 0 16 true) := by
  refine contained (.start rfl) (fun _ => 0) (fragmentOf 6 0 16 true)
    ⟨⟨by decide, .inr rfl⟩, fun _ => ⟨fun _ h => absurd rfl h, fun _ => ?_, by decide, by decide,
      fun _ _ _ _ => by decide⟩⟩
  rintro g hg
  rw [List.mem_singleton.mp hg]
  decide

/-- The last eight bytes that an offset leads to go over the end of the chunk, and those from the
    last offset on wrap the length. -/
theorem contained_fails :
    (fragmentOf 5 65512 8 false).IsFragment ∧
    ¬ Contained (fun _ => 0) none (fragmentOf 5 65512 8 false) ∧
    (fragmentOf 5 65528 100 false).IsFragment ∧
    ¬ Contained (fun _ => 0) none (fragmentOf 5 65528 100 false) := by
  refine ⟨⟨by decide, .inl (by decide)⟩, ?_, ⟨by decide, .inl (by decide)⟩, ?_⟩
  · rintro ⟨o, ho, -⟩
    have hnone : (input (fun _ => 0) none (fragmentOf 5 65512 8 false)).isNone = true := by
      decide +kernel
    rw [ho] at hnone
    cases hnone
  · rintro ⟨o, ho, hall⟩
    have hsize : ∀ o ∈ input (fun _ => 0) none (fragmentOf 5 65528 100 false),
        (match o with | .kept r' => r'.iphdr.getSize | _ => 0) = 112 := by
      decide +kernel
    have hsize := hsize o ho
    cases o with
    | discarded => cases hsize
    | delivered r' => cases hsize
    | kept r' =>
      have hle := hall r' (.inl rfl)
      have hfirst : (fragmentOf 5 65528 100 false).first = 65528 := by decide
      dsimp only at hsize
      omega

end ReassReceiver

end EsOs.Net
