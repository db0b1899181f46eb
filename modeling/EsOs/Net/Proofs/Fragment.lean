import Mathlib
import EsOs.Net.Reass
import EsOs.Net.Proofs.ReassComplete

/-!
# Fragments of a datagram

The fragments of a datagram without options lie side by side, each but the last one as long as the
first. A hole begins where a fragment begins, so that no fragment touches two, and the datagram that
is put together of them has the bytes and the fields of the one that was sent.
-/

namespace EsOs.Net

namespace IPHdr

variable {h : IPHdr} {offset : Nat}

end IPHdr

/-- A datagram without options, as it is sent. -/
structure Packet.Sent (org : Packet) : Prop where
  header : org.hdr.ihl = 5
  whole : org.hdr.frag = 0
  bytes : 20 < org.hdr.getSize
  fits : org.hdr.getSize ≤ 20 + 65496

namespace Packet.Sent

variable {org : Packet} (ho : org.Sent)

/-- What is sent. -/
def datagram (ho : org.Sent) : Datagram where
  len := org.hdr.getSize - 20
  data := org.payload
  pos := by
    have := ho.bytes
    omega
  fits := by
    have := ho.fits
    omega

end Packet.Sent

/-- The fields of the header that all the fragments share. -/
def IPHdr.fields (h : IPHdr) : UInt16 × UInt8 × UInt32 × UInt32 :=
  (h.id, h.proto, h.src, h.dst)

/-- A fragment of `org` of at most `n` bytes, at a multiple of `n`. -/
structure Slot (org : Packet) (ho : org.Sent) (n : Nat) (m : Packet) : Prop where
  fragment : FragmentOf ho.datagram m
  header : m.hdr.getHdrSize = 20
  fields : m.hdr.fields = org.hdr.fields
  place : m.first % n = 0
  short : m.len ≤ n
  full : m.hdr.moreFragments = true → m.len = n

namespace InReceiver

variable {org : Packet} (ho : org.Sent) {n offset len : Nat}

end InReceiver

section

variable {org : Packet} {ho : org.Sent} {n offset len : Nat}

theorem Slot.last_lt {m : Packet} (hm : Slot org ho n m) :
    m.first ≤ m.last ∧ m.last < org.hdr.getSize - 20 ∧ m.last + 1 = m.first + m.len := by
  have hlast := hm.fragment.last_lt
  have hlen := hm.fragment.len_pos
  refine ⟨hlast.1, hlast.2, ?_⟩
  unfold Packet.last
  omega

/-- The fragments from `start` on: they lie side by side up to the end of the datagram. -/
structure Splits (org : Packet) (ho : org.Sent) (n start : Nat) (frags : List Packet) : Prop where
  slots : ∀ m ∈ frags, Slot org ho n m ∧ start ≤ m.first
  covers : ∀ x, start ≤ x → x < org.hdr.getSize - 20 → Covered frags x
  apart : frags.Pairwise fun a b => a.last < b.first

/-- A fragment before the others. -/
theorem Splits.cons {m : Packet} {frags : List Packet} (hm : Slot org ho n m)
    (hfirst : m.first = offset) (hlen : m.len = len)
    (hs : Splits org ho n (offset + len) frags) : Splits org ho n offset (m :: frags) := by
  obtain ⟨-, -, hlast⟩ := hm.last_lt
  refine ⟨fun q hq => ?_, fun x hlo hhi => ?_, List.pairwise_cons.mpr ⟨fun q hq => ?_, hs.apart⟩⟩
  · rcases List.mem_cons.mp hq with rfl | hq
    · exact ⟨hm, Nat.le_of_eq hfirst.symm⟩
    · obtain ⟨hslot, hle⟩ := hs.slots q hq
      exact ⟨hslot, by omega⟩
  · rw [covered_cons]
    by_cases hx : x < offset + len
    · exact .inl (by omega)
    · exact .inr (hs.covers x (by omega) hhi)
  · have := (hs.slots q hq).2
    omega

end

namespace InReceiver

variable {org : Packet} (ho : org.Sent) {n offset : Nat}

end InReceiver

section

variable {org : Packet} {ho : org.Sent} {n offset : Nat}

/-- Two fragments with a byte in common are one. -/
theorem Splits.eq_of_common {frags : List Packet} {a b : Packet} {x : Nat}
    (hs : Splits org ho n offset frags) (ha : a ∈ frags) (hb : b ∈ frags)
    (hxa : a.first ≤ x ∧ x ≤ a.last) (hxb : b.first ≤ x ∧ x ≤ b.last) : a = b := by
  obtain ⟨i, hi, rfl⟩ := List.getElem_of_mem ha
  obtain ⟨j, hj, rfl⟩ := List.getElem_of_mem hb
  have hapart := List.pairwise_iff_getElem.mp hs.apart
  rcases Nat.lt_trichotomy i j with hlt | rfl | hlt
  · have := hapart i j hi hj hlt
    omega
  · rfl
  · have := hapart j i hj hi hlt
    omega

/-- The datagram is complete when all its fragments have come. -/
theorem Splits.complete_iff {frags ms : List Packet} (hs : Splits org ho n 0 frags)
    (hms : ∀ m ∈ ms, m ∈ frags) : Complete ho.datagram ms ↔ ∀ f ∈ frags, f ∈ ms := by
  constructor
  · intro hc f hf
    obtain ⟨hle, hlt, -⟩ := (hs.slots f hf).1.last_lt
    obtain ⟨m, hm, hlo, hhi⟩ := hc.bytes f.first (Nat.lt_of_le_of_lt hle hlt)
    exact hs.eq_of_common (hms m hm) hf ⟨hlo, hhi⟩ ⟨Nat.le_refl _, hle⟩ ▸ hm
  · intro hall
    have hbytes : ∀ x < org.hdr.getSize - 20, Covered ms x := fun x hx => by
      obtain ⟨m, hm, hin⟩ := hs.covers x (Nat.zero_le _) hx
      exact ⟨m, hall m hm, hin⟩
    refine ⟨?_, hbytes⟩
    have hpos := ho.bytes
    obtain ⟨m, hm, -, hlast⟩ := hbytes (org.hdr.getSize - 20 - 1) (by omega)
    have hslot := (hs.slots m (hms m hm)).1
    have hend := hslot.last_lt
    refine ⟨m, hm, hslot.fragment.last.mpr ?_⟩
    show m.first + m.len = org.hdr.getSize - 20
    omega

/-- What has come of the datagram: its bytes, and the fields of its header. -/
structure Copy (org : Packet) (ms : List Packet) (r : Reass) : Prop where
  header : r.iphdr.getHdrSize = 20
  fields : r.iphdr.fields = org.hdr.fields
  covers : ∀ m ∈ ms, 20 + m.first + m.len ≤ r.iphdr.getSize
  size_le : r.iphdr.getSize ≤ org.hdr.getSize
  bytes : ∀ x, Covered ms x → r.chunk (20 + x) = org.payload x

/-- The whole datagram has come. -/
theorem Copy.whole {ms : List Packet} {r : Reass} (hr : Copy org ms r)
    (hms : ∀ m ∈ ms, FragmentOf ho.datagram m) (hc : Complete ho.datagram ms) :
    r.iphdr.getSize = org.hdr.getSize ∧
      ∀ x < org.hdr.getSize - 20, r.chunk (20 + x) = org.payload x := by
  refine ⟨Nat.le_antisymm hr.size_le ?_, fun x hx => hr.bytes x (hc.bytes x hx)⟩
  obtain ⟨m, hm, hlast⟩ := hc.last
  have hcovers := hr.covers m hm
  have hend : m.first + m.len = org.hdr.getSize - 20 := (hms m hm).last.mp hlast
  omega

/-- The header of a datagram with a packet. -/
theorem Reass.updateSize_iphdr (r : Reass) {first len : Nat}
    (hle : r.iphdr.getHdrSize + first + len ≤ 65535) :
    (r.updateSize first len).iphdr.fields = r.iphdr.fields ∧
      (r.updateSize first len).iphdr.getSize =
        max r.iphdr.getSize (r.iphdr.getHdrSize + first + len) := by
  unfold updateSize
  dsimp only
  split
  · have hlen : (UInt16.ofNat (r.iphdr.getHdrSize + first + len)).toNat =
        (r.iphdr.getHdrSize + first + len) % 65536 := UInt16.toNat_ofNat'
    refine ⟨rfl, ?_⟩
    show (UInt16.ofNat (r.iphdr.getHdrSize + first + len)).toNat = _
    omega
  · exact ⟨rfl, by omega⟩

/-- A fragment is put to what has come. -/
theorem Copy.input {ms : List Packet} {d r : Reass} {m : Packet} {gs : List Gap}
    (hheader : d.iphdr.getHdrSize = 20) (hfields : d.iphdr.fields = org.hdr.fields)
    (hcovers : ∀ m ∈ ms, 20 + m.first + m.len ≤ d.iphdr.getSize)
    (hsize : d.iphdr.getSize ≤ org.hdr.getSize)
    (hbytes : ∀ x, Covered ms x → d.chunk (20 + x) = org.payload x)
    (hms : ∀ m ∈ ms, FragmentOf ho.datagram m) (hm : FragmentOf ho.datagram m)
    (hmissing : ∀ x < org.hdr.getSize - 20, HoleScan.Missing gs x ↔ ¬ Covered ms x)
    (hafter : ∀ x, m.first ≤ x → x ≤ m.last →
      ¬ HoleScan.Missing (HoleScan.fillGaps m.first m.last m.hdr.moreFragments gs) x)
    (hiphdr : r.iphdr = (d.updateSize m.first m.len).iphdr) (hfilled : Reass.Filled d r m gs) :
    Copy org (m :: ms) r := by
  have hfits := ho.fits
  have hbytes₂₀ := ho.bytes
  have hinside : m.first + m.len ≤ org.hdr.getSize - 20 := hm.inside
  obtain ⟨hkeep, hmax⟩ := d.updateSize_iphdr
    (show d.iphdr.getHdrSize + m.first + m.len ≤ 65535 by omega)
  rw [hheader] at hmax
  refine ⟨?_, ?_, fun q hq => ?_, ?_, fun x hx => ?_⟩
  · rw [hiphdr, Reass.updateSize_getHdrSize]
    exact hheader
  · rw [hiphdr, hkeep]
    exact hfields
  · rw [hiphdr, hmax]
    rcases List.mem_cons.mp hq with rfl | hq
    · omega
    · have := hcovers q hq
      omega
  · rw [hiphdr, hmax]
    omega
  · have hkept := hfilled.kept
    have htaken := hfilled.taken
    rw [hheader] at hkept htaken
    by_cases hold : Covered ms x
    · obtain ⟨q, hq, -, hhi⟩ := id hold
      have hlt : x < org.hdr.getSize - 20 := Nat.lt_of_le_of_lt hhi (hms q hq).last_lt.2
      rw [hkept x fun h => (hmissing x hlt).mp h hold]
      exact hbytes x hold
    · obtain ⟨hlo, hhi⟩ := (covered_cons.mp hx).resolve_right hold
      have hlt : x < org.hdr.getSize - 20 := Nat.lt_of_le_of_lt hhi hm.last_lt.2
      have hlen := hm.len_pos
      rw [htaken x hhi ((hmissing x hlt).mpr hold) (hafter x hlo hhi),
        hm.agrees (x - m.first) (by unfold Packet.last at hhi; omega)]
      show org.payload (m.first + (x - m.first)) = _
      rw [Nat.add_sub_cancel' hlo]

/-- The fragments of a datagram have been put together so far. -/
structure Gathered (org : Packet) (ho : org.Sent) (n : Nat) (a : Assembly) : Prop where
  sound : a.Sound ho.datagram
  copy : ∀ r, a.held = some r → Copy org a.received r
  start : a.held = none → a.received = []
  slots : ∀ g ∈ Reass.holes a.held, g.first % n = 0

/-- Multiples of `n` are at least `n` apart. -/
theorem slot_apart {p q : Nat} (hp : p % n = 0) (hq : q % n = 0) (hlt : p < q) : p + n ≤ q := by
  refine Nat.le_of_not_lt fun hnear => ?_
  have hdiff : (q - p) % n = 0 := Nat.sub_mod_eq_zero_of_mod_eq (hq.trans hp.symm)
  rw [Nat.mod_eq_of_lt (by omega)] at hdiff
  omega

/-- A fragment touches one hole at most. -/
theorem Gathered.touchesOne {a : Assembly} {m : Packet} (ha : Gathered org ho n a)
    (hm : Slot org ho n m) :
    HoleScan.TouchesOne m.first m.last (Reass.holes a.held) := by
  obtain ⟨_, hs⟩ := ha.sound.held.holes_fit
  have hapart := List.pairwise_iff_getElem.mp hs.order
  have hlast := hm.last_lt
  have hshort := hm.short
  have hslots := ha.slots
  have hplace := hm.place
  generalize Reass.holes a.held = gs at *
  have hno : ∀ i j (hi : i < gs.length) (hj : j < gs.length), i < j →
      HoleScan.Touches m.first m.last gs[i] → HoleScan.Touches m.first m.last gs[j] → False := by
    intro i j hi hj hlt htouch htouch'
    have hbehind := hapart i j hi hj hlt
    obtain ⟨hin, -⟩ := htouch
    obtain ⟨-, hin'⟩ := htouch'
    have := slot_apart hplace (hslots gs[j] (List.getElem_mem hj)) (by omega)
    omega
  intro g hg g' hg' htouch htouch'
  obtain ⟨i, hi, rfl⟩ := List.getElem_of_mem hg
  obtain ⟨j, hj, rfl⟩ := List.getElem_of_mem hg'
  rcases Nat.lt_trichotomy i j with hlt | rfl | hlt
  · exact (hno i j hi hj hlt htouch htouch').elim
  · rfl
  · exact (hno j i hj hi hlt htouch' htouch).elim

/-- There is room for a fragment without options. -/
theorem Gathered.room {a : Assembly} {m : Packet} (ha : Gathered org ho n a)
    (hm : Slot org ho n m) : ¬ Reass.Shifts a.held m ∧ Reass.Room a.held m := by
  have hfits := ho.fits
  have hlast := hm.last_lt
  have hheader := hm.header
  have hno : ¬ Reass.Shifts a.held m := fun hs => by
    have := hs.2.1
    omega
  have hwith : Reass.headerWith a.held m = 20 := by
    unfold Reass.headerWith
    rw [if_neg hno]
    cases hheld : a.held with
    | none => exact hheader
    | some r => exact (ha.copy r hheld).header
  refine ⟨hno, fun _ _ => hheader, fun hs => (hno hs).elim, fun hs => (hno hs).elim, ?_, ?_⟩
  · omega
  · intro _ g _ _
    omega

/-- A step: what becomes of the datagram with a fragment. -/
theorem Gathered.input {a : Assembly} {m : Packet} (ha : Gathered org ho n a)
    (hm : Slot org ho n m) (junk : Chunk) :
    ∃ r, Copy org (m :: a.received) r ∧
      (Complete ho.datagram (m :: a.received) →
        ReassReceiver.input junk a.held m = some (.delivered r)) ∧
      (¬ Complete ho.datagram (m :: a.received) →
        ReassReceiver.input junk a.held m = some (.kept r) ∧
          Gathered org ho n ⟨some r, m :: a.received⟩) := by
  obtain ⟨hno, hroom⟩ := ha.room hm
  have hone := ha.touchesOne hm
  have hmissing := ha.sound.missing
  have hmissing' := ha.sound.missing_after hm.fragment hone
  obtain ⟨r, hr, hsound, -, htaken⟩ := Reass.input_spec junk hm.fragment.toRegular ha.sound.held
    hroom
  obtain ⟨hiphdr, hfilled⟩ := htaken hno
  obtain ⟨hdone, hopen⟩ := ha.sound.input junk hm.fragment ⟨hroom, hone⟩
  have hcopy : Copy org (m :: a.received) r := by
    have hfits := ho.datagram.fits
    have hgaps : ∀ x < org.hdr.getSize - 20,
        HoleScan.Missing (Reass.holes a.held) x ↔ ¬ Covered a.received x := by
      intro x hx
      rw [hmissing]
      exact ⟨fun h => h.elim And.right fun h => absurd hx (Nat.not_lt_of_le h.1),
        fun h => .inl ⟨hx, h⟩⟩
    have hafter : ∀ x, m.first ≤ x → x ≤ m.last → ¬ HoleScan.Missing
        (HoleScan.fillGaps m.first m.last m.hdr.moreFragments (Reass.holes a.held)) x := by
      intro x hlo hhi hx
      have hlt := Nat.lt_of_le_of_lt hhi hm.fragment.last_lt.2
      rcases (hmissing' x).mp hx with ⟨-, hnot⟩ | ⟨hge, -⟩
      · exact hnot (covered_cons.mpr (.inl ⟨hlo, hhi⟩))
      · exact absurd hlt (Nat.not_lt_of_le hge)
    cases hheld : a.held with
    | none =>
      rw [hheld] at hiphdr hfilled hgaps hafter
      rw [ha.start hheld] at hgaps ⊢
      refine Copy.input hm.header hm.fields nofun ?_ (fun x hx => ?_) nofun hm.fragment hgaps
        hafter hiphdr hfilled
      · have hsize := hm.fragment.size_eq
        have hinside : m.first + m.len ≤ org.hdr.getSize - 20 := hm.fragment.inside
        have hbytes := ho.bytes
        have hheader := hm.header
        show m.hdr.getSize ≤ org.hdr.getSize
        omega
      · obtain ⟨q, hq, -⟩ := hx
        cases hq
    | some d =>
      rw [hheld] at hiphdr hfilled hgaps hafter
      obtain ⟨hheader, hfields, hcovers, hsize, hbytes⟩ := ha.copy d hheld
      exact Copy.input hheader hfields hcovers hsize hbytes ha.sound.fragments hm.fragment hgaps
        hafter hiphdr hfilled
  refine ⟨r, hcopy, fun hc => ?_, fun hc => ?_⟩
  · obtain ⟨r', hr'⟩ := hdone hc
    rw [hr] at hr'
    split at hr'
    · rename_i hempty
      rw [hr, if_pos hempty]
    · cases hr'
  · obtain ⟨r', hr', hsound'⟩ := hopen hc
    rw [hr] at hr'
    split at hr'
    · cases hr'
    · rename_i hne
      cases hr'
      refine ⟨by rw [hr, if_neg hne], hsound', fun q hq => ?_, nofun, ?_⟩
      · cases hq
        exact hcopy
      · rw [hsound.holes_eq]
        intro g hg
        rcases HoleScan.first_fillGaps hg with ⟨q, hq, heq⟩ | ⟨hmore, heq⟩
        · exact heq ▸ ha.slots q hq
        · have hend := hm.last_lt.2.2
          rw [heq, hend, hm.full hmore, Nat.add_mod_right]
          exact hm.place

/-- While a fragment is missing, the datagram waits. -/
theorem Gathered.feed {a : Assembly} {ms : List Packet} (ha : Gathered org ho n a) (junk : Chunk)
    (hms : ∀ m ∈ ms, Slot org ho n m) (hc : ¬ Complete ho.datagram (ms.reverse ++ a.received)) :
    ∃ os a', ReassReceiver.feed junk a.held ms = some (os, a'.held) ∧
      (∀ o ∈ os, ∃ r, o = .kept r) ∧ Gathered org ho n a' ∧
      a'.received = ms.reverse ++ a.received := by
  induction ms generalizing a with
  | nil => exact ⟨[], a, rfl, nofun, ha, rfl⟩
  | cons m ms ih =>
    rw [List.reverse_cons, List.append_assoc, List.singleton_append] at hc ⊢
    have hopen : ¬ Complete ho.datagram (m :: a.received) := by
      rintro ⟨⟨q, hq, hlast⟩, hbytes⟩
      refine hc ⟨⟨q, List.mem_append_right _ hq, hlast⟩, fun x hx => ?_⟩
      obtain ⟨q, hq, hin⟩ := hbytes x hx
      exact ⟨q, List.mem_append_right _ hq, hin⟩
    obtain ⟨r, -, -, hkept⟩ := ha.input (hms m (List.mem_cons_self ..)) junk
    obtain ⟨hr, hnext⟩ := hkept hopen
    obtain ⟨os, a', hfeed, hos, ha', hreceived⟩ := ih hnext (fun q hq => hms q (.tail _ hq)) hc
    refine ⟨.kept r :: os, a', ?_, ?_, ha', hreceived⟩
    · rw [ReassReceiver.feed, hr]
      simp only [bind, Option.bind, Outcome.next, hfeed, pure]
    · exact List.forall_mem_cons.mpr ⟨⟨r, rfl⟩, hos⟩

end

end EsOs.Net
