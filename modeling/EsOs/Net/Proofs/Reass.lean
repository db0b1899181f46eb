import EsOs.Lib.Chain
import EsOs.Net.Reass

/-!
# The holes of a datagram

The list of holes that a chunk holds, and what a turn of the loop over it does to the list. The
records lie in the holes themselves, at least eight bytes apart, so that a change of one record and
the bytes that fill a hole leave the other records alone.
-/

namespace EsOs.Net

open EsOs.Lib

namespace Chunk

variable {c c' : Chunk} {p q v n lo hi : Nat}

/-- `c'` differs from `c` between `lo` and `hi` only. -/
def Within (lo hi : Nat) (c c' : Chunk) : Prop :=
  ∀ i, i < lo ∨ hi ≤ i → c' i = c i

theorem Within.trans {c'' : Chunk} (h : Within lo hi c c') (h' : Within lo hi c' c'') :
    Within lo hi c c'' :=
  fun i hi => (h' i hi).trans (h i hi)

theorem Within.mono {lo' hi' : Nat} (h : Within lo hi c c') (hlo : lo' ≤ lo) (hhi : hi ≤ hi') :
    Within lo' hi' c c' :=
  fun i _ => h i (by omega)

theorem set16_within (c : Chunk) (p v : Nat) : Within p (p + 2) c (c.set16 p v) := by
  intro i hi
  rw [set16, if_neg (by omega), if_neg (by omega)]

/-- A field of a record of eight bytes. -/
theorem set16_record (c : Chunk) (p v : Nat) {k : Nat} (hk : k + 2 ≤ 8) :
    Within p (p + 8) c (c.set16 (p + k) v) :=
  (set16_within c (p + k) v).mono (Nat.le_add_right p k) (by omega)

theorem move_within (c : Chunk) (p n : Nat) (src : Nat → UInt8) :
    Within p (p + n) c (c.move p n src) := by
  intro i hi
  rw [move, if_neg (by omega)]

theorem Within.get16 (h : Within lo hi c c') (hq : q + 2 ≤ lo ∨ hi ≤ q) :
    c'.get16 q = c.get16 q := by
  rw [Chunk.get16, Chunk.get16, h q (by omega), h (q + 1) (by omega)]

theorem get16_set16 (hv : v < 65536) : (c.set16 p v).get16 p = v := by
  have hlow : (UInt8.ofNat v).toNat = v % 256 := UInt8.toNat_ofNat'
  have hhigh : (UInt8.ofNat (v / 256)).toNat = v / 256 % 256 := UInt8.toNat_ofNat'
  simp only [get16, set16, if_true, Nat.succ_ne_self, if_false]
  omega

theorem get16_lt (c : Chunk) (p : Nat) : c.get16 p < 65536 := by
  have := (c p).toNat_lt
  have := (c (p + 1)).toNat_lt
  unfold get16
  omega

end Chunk

/-- A hole: the first and the last of the bytes that are missing. -/
structure Gap where
  first : Nat
  last : Nat
deriving DecidableEq, Repr

namespace Gap

/-- The record at the hole is the one of the hole. -/
def At (h : Nat) (c : Chunk) (g : Gap) : Prop :=
  c.get16 (h + g.first + Hole.first) = g.first ∧ c.get16 (h + g.first + Hole.last) = g.last

/-- The hole has room for its record, which lies in the chunk. It consists of blocks of eight bytes,
    or goes on up to the end of the longest datagram. -/
structure Fits (h : Nat) (g : Gap) : Prop where
  aligned : g.first % 8 = 0
  whole : g.last % 8 = 7 ∨ g.last = 65515
  room : g.first + 7 ≤ g.last
  bound : g.last ≤ 65515
  inside : h + g.first + 8 ≤ 65535

end Gap

/-- `next` of the record of the hole that begins at `v`. -/
def follow (h : Nat) (c : Chunk) (v : Nat) : Nat :=
  c.get16 (h + v + Hole.next)

/-- The list in a chunk leads through the holes `gs`. -/
structure Stored (h : Nat) (c : Chunk) (list : Nat) (gs : List Gap) : Prop where
  records : ∀ g ∈ gs, g.At h c
  path : Path (follow h c) list (gs.map Gap.first) EOH

/-- Holes in their order, none of which begins where the one before ends. -/
structure Holes (h : Nat) (gs : List Gap) : Prop where
  fits : ∀ g ∈ gs, g.Fits h
  order : gs.Pairwise fun a b => a.last < b.first

/-- Where `next` points after the holes `ps`. -/
def linkAfter (h : Nat) (ps : List Gap) : Link :=
  match ps.getLast? with
  | none => .list
  | some g => .next (h + g.first)

/-- The loop has passed the holes `ps`, and the holes `gs` are left. -/
structure Cursor (h : Nat) (s : HoleScan) (ps gs : List Gap) : Prop where
  records : ∀ g ∈ ps ++ gs, g.At h s.chunk
  link : s.next = linkAfter h ps
  before : Path (follow h s.chunk) s.list (ps.map Gap.first) s.load
  after : Path (follow h s.chunk) s.load (gs.map Gap.first) EOH

theorem linkAfter_snoc (h : Nat) (ps : List Gap) (g : Gap) :
    linkAfter h (ps ++ [g]) = .next (h + g.first) := by
  simp [linkAfter]

namespace Cursor

variable {h first : Nat} {s : HoleScan} {ps gs gs' : List Gap} {g : Gap} {v : Nat} {c : Chunk}

theorem stored (hc : Cursor h s ps gs) : Stored h s.chunk s.list (ps ++ gs) := by
  refine ⟨hc.records, ?_⟩
  rw [List.map_append, path_append]
  exact ⟨_, hc.before, hc.after⟩

theorem ofStored (hs : Stored h s.chunk s.list gs) (hnext : s.next = .list) :
    Cursor h s [] gs := by
  have hload : s.load = s.list := by rw [HoleScan.load, hnext]
  exact ⟨hs.records, hnext, hload.symm, hload ▸ hs.path⟩

theorem load_cons (hc : Cursor h s ps (g :: gs)) : s.load = g.first :=
  hc.after.1

theorem load_nil (hc : Cursor h s ps []) : s.load = EOH :=
  hc.after

/-- Going on to the next hole. -/
theorem pass (hc : Cursor h s ps (g :: gs)) :
    Cursor h { s with next := .next (h + g.first) } (ps ++ [g]) gs where
  records := by
    rw [List.append_assoc]
    exact hc.records
  link := (linkAfter_snoc h ps g).symm
  before := by
    rw [List.map_append]
    exact path_snoc.mpr ⟨hc.load_cons ▸ hc.before, rfl⟩
  after := hc.after.2

/-- Holes whose records lie apart. -/
def Spaced (gs : List Gap) : Prop :=
  gs.Pairwise fun a b => a.first + 8 ≤ b.first

/-- A change outside of the records keeps the list. -/
theorem frame (hc : Cursor h s ps gs) {lo hi : Nat} (hw : Chunk.Within lo hi s.chunk c)
    (hclear : ∀ g ∈ ps ++ gs, h + g.first + 8 ≤ lo ∨ hi ≤ h + g.first) :
    Cursor h { s with chunk := c } ps gs := by
  have hfollow : ∀ g ∈ ps ++ gs, follow h c g.first = follow h s.chunk g.first := by
    intro g hg
    refine hw.get16 ?_
    have := hclear g hg
    simp only [Hole.next]
    omega
  have hload : HoleScan.load { s with chunk := c } = s.load := by
    unfold HoleScan.load
    rw [hc.link, linkAfter]
    cases hlast : ps.getLast? with
    | none => rfl
    | some p => exact hfollow p (List.mem_append_left gs (List.mem_of_getLast? hlast))
  have hmap : ∀ l : List Gap, (∀ g ∈ l, g ∈ ps ++ gs) → ∀ v ∈ l.map Gap.first,
      follow h c v = follow h s.chunk v := by
    intro l hl v hv
    obtain ⟨g, hg, rfl⟩ := List.mem_map.mp hv
    exact hfollow g (hl g hg)
  refine ⟨fun g hg => ?_, hc.link, ?_, ?_⟩
  · have := hclear g hg
    obtain ⟨hfirst, hlast⟩ := hc.records g hg
    refine ⟨(hw.get16 ?_).trans hfirst, (hw.get16 ?_).trans hlast⟩
    · simp only [Hole.first]
      omega
    · simp only [Hole.last]
      omega
  · rw [hload]
    exact hc.before.congr (hmap ps fun g hg => List.mem_append_left gs hg)
  · rw [hload]
    exact hc.after.congr (hmap gs fun g hg => List.mem_append_right ps hg)

/-- A store changes the records of the holes that were passed only. -/
theorem store_same (hlink : s.next = linkAfter h ps) {i : Nat}
    (hi : ∀ p ∈ ps, i < h + p.first ∨ h + p.first + 8 ≤ i) :
    (s.store v).chunk i = s.chunk i := by
  unfold HoleScan.store
  rw [hlink, linkAfter]
  cases hlast : ps.getLast? with
  | none => rfl
  | some p =>
    have := hi p (List.mem_of_getLast? hlast)
    refine Chunk.set16_within _ _ _ i ?_
    simp only [Hole.next]
    omega

@[simp] theorem store_next (s : HoleScan) (v : Nat) : (s.store v).next = s.next := by
  unfold HoleScan.store
  split <;> rfl

@[simp] theorem store_last (s : HoleScan) (v : Nat) : (s.store v).last = s.last := by
  unfold HoleScan.store
  split <;> rfl

/-- Letting `next` lead to other holes. -/
theorem store (hc : Cursor h s ps gs) (hsp : Spaced (ps ++ gs')) (hv : v < 65536)
    (hrec : ∀ g ∈ gs', g.At h s.chunk)
    (hp : Path (follow h s.chunk) v (gs'.map Gap.first) EOH) :
    Cursor h (s.store v) ps gs' := by
  rcases List.eq_nil_or_concat ps with rfl | ⟨ps, p, rfl⟩
  · have hnext : s.next = .list := hc.link
    have hstore : s.store v = { s with list := v } := by rw [HoleScan.store, hnext]
    have hload : (s.store v).load = v := by rw [hstore, HoleScan.load, hnext]
    refine ⟨?_, ?_, ?_, ?_⟩
    · rw [hstore]
      exact hrec
    · rw [hstore]
      exact hnext
    · rw [hload, hstore]
      rfl
    · rw [hload, hstore]
      exact hp
  · rw [List.concat_eq_append] at hc hsp ⊢
    have hnext : s.next = .next (h + p.first) := hc.link.trans (linkAfter_snoc h ps p)
    have hstore : s.store v =
        { s with chunk := s.chunk.set16 (h + p.first + Hole.next) v } := by
      rw [HoleScan.store, hnext]
    have hw := Chunk.set16_within s.chunk (h + p.first + Hole.next) v
    have hset : (s.chunk.set16 (h + p.first + Hole.next) v).get16 (h + p.first + Hole.next) = v :=
      Chunk.get16_set16 hv
    have hload : (s.store v).load = v := by
      rw [hstore, HoleScan.load, hnext]
      exact hset
    rw [Spaced, List.append_assoc, List.pairwise_append] at hsp
    obtain ⟨-, hafter, hbefore⟩ := hsp
    have hafter := (List.pairwise_cons.mp hafter).1
    have hfar : ∀ g ∈ ps ++ gs', g.first + 8 ≤ p.first ∨ p.first + 8 ≤ g.first := by
      intro g hg
      rcases List.mem_append.mp hg with hg | hg
      · exact .inl (hbefore g hg p (List.mem_cons_self ..))
      · exact .inr (hafter g hg)
    have hfollow : ∀ g ∈ ps ++ gs', follow h (s.chunk.set16 (h + p.first + Hole.next) v) g.first =
        follow h s.chunk g.first := by
      intro g hg
      refine hw.get16 ?_
      have := hfar g hg
      simp only [Hole.next]
      omega
    have hat : ∀ g : Gap, (g.first + 8 ≤ p.first ∨ p.first + 8 ≤ g.first ∨ g.first = p.first) →
        g.At h s.chunk → g.At h (s.chunk.set16 (h + p.first + Hole.next) v) := by
      rintro g hg ⟨hfirst, hlast⟩
      refine ⟨(hw.get16 ?_).trans hfirst, (hw.get16 ?_).trans hlast⟩
      · simp only [Hole.first, Hole.next]
        omega
      · simp only [Hole.last, Hole.next]
        omega
    refine ⟨?_, ?_, ?_, ?_⟩
    · rw [hstore]
      intro g hg
      rw [List.append_assoc] at hg
      rcases List.mem_append.mp hg with hps | hg
      · refine hat g ?_ (hc.records g (by simp [hps]))
        rcases hfar g (List.mem_append_left _ hps) with hlt | hgt
        · exact .inl hlt
        · exact .inr (.inl hgt)
      rcases List.mem_cons.mp hg with rfl | hgs
      · exact hat g (.inr (.inr rfl)) (hc.records g (by simp))
      · refine hat g ?_ (hrec g hgs)
        rcases hfar g (List.mem_append_right _ hgs) with hlt | hgt
        · exact .inl hlt
        · exact .inr (.inl hgt)
    · rw [hstore]
      exact hc.link
    · have hold := hc.before
      rw [List.map_append] at hold ⊢
      rw [hload, hstore]
      refine path_snoc.mpr ⟨(path_snoc.mp hold).1.congr fun w hw => ?_, hset⟩
      obtain ⟨g, hg, rfl⟩ := List.mem_map.mp hw
      exact hfollow g (List.mem_append_left _ hg)
    · rw [hload, hstore]
      refine hp.congr fun w hw => ?_
      obtain ⟨g, hg, rfl⟩ := List.mem_map.mp hw
      exact hfollow g (List.mem_append_right _ hg)

/-- A hole whose record leads to what is left is put before it. -/
theorem push (hc : Cursor h s ps gs) (hsp : Spaced (ps ++ g :: gs)) (hg : g.first < 65536)
    (hat : g.At h s.chunk) (hfollow : follow h s.chunk g.first = s.load) :
    Cursor h { s.store g.first with next := .next (h + g.first) } (ps ++ [g]) gs := by
  have hstored : Cursor h (s.store g.first) ps (g :: gs) := by
    refine hc.store hsp hg (fun q hq => ?_) ⟨rfl, hfollow ▸ hc.after⟩
    rcases List.mem_cons.mp hq with rfl | hq
    · exact hat
    · exact hc.records q (List.mem_append_right _ hq)
  exact hstored.pass

theorem load_eq (hc : Cursor h s ps gs) : s.load = (gs.map Gap.first).headD EOH := by
  cases gs with
  | nil => exact hc.load_nil
  | cons g gs => exact hc.load_cons

theorem setLast (hc : Cursor h s ps gs) (last : Nat) : Cursor h { s with last := last } ps gs :=
  ⟨hc.records, hc.link, hc.before, hc.after⟩

end Cursor

/-- Nothing but the holes `ps` and the hole `g` has changed. -/
def Outside (h : Nat) (ps : List Gap) (g : Gap) (c c' : Chunk) : Prop :=
  ∀ i, (∀ p ∈ ps, i < h + p.first ∨ h + p.first + 8 ≤ i) →
    (i < h + g.first ∨ h + g.last < i) → c' i = c i

theorem Outside.trans {h : Nat} {ps : List Gap} {g : Gap} {c c' c'' : Chunk}
    (hc : Outside h ps g c c') (hc' : Outside h ps g c' c'') : Outside h ps g c c'' :=
  fun i hps hg => (hc' i hps hg).trans (hc i hps hg)

theorem Outside.of_within {h : Nat} {ps : List Gap} {g : Gap} {c c' : Chunk} {lo hi : Nat}
    (hw : Chunk.Within lo hi c c') (hlo : h + g.first ≤ lo) (hhi : hi ≤ h + g.last + 1) :
    Outside h ps g c c' :=
  fun i _ hg => hw i (by omega)

theorem Holes.spaced {h : Nat} {gs : List Gap} (hs : Holes h gs) : Cursor.Spaced gs :=
  hs.order.imp_of_mem fun {a b} ha _ hab => by
    have := (hs.fits a ha).room
    omega

namespace HoleScan

variable {h first : Nat} {s : HoleScan} {ps gs : List Gap} {g : Gap} {m : Packet}

/-- The hole is taken out of the list, and its record stays. -/
theorem delete_spec (hc : Cursor h s ps (g :: gs)) (hs : Holes h (ps ++ g :: gs)) {v : Nat}
    (hv : v = follow h s.chunk g.first) :
    Cursor h (s.store v) ps gs ∧ g.At h (s.store v).chunk ∧
      follow h (s.store v).chunk g.first = (s.store v).load ∧
      Outside h ps g s.chunk (s.store v).chunk := by
  have hsp := hs.spaced
  obtain ⟨hps, hggs, hall⟩ := List.pairwise_append.mp hsp
  obtain ⟨hg, hgs⟩ := List.pairwise_cons.mp hggs
  have hstored : Cursor h (s.store v) ps gs := by
    refine hc.store ?_ ?_ (fun q hq => ?_) ?_
    · exact List.pairwise_append.mpr ⟨hps, hgs, fun a ha b hb => hall a ha b (.tail _ hb)⟩
    · rw [hv]
      exact Chunk.get16_lt _ _
    · exact hc.records q (List.mem_append_right _ (.tail _ hq))
    · rw [hv]
      exact hc.after.2
  have hsame : ∀ i, h + g.first ≤ i → (s.store v).chunk i = s.chunk i := by
    intro i hi
    refine Cursor.store_same hc.link fun p hp => ?_
    have := hall p hp g (List.mem_cons_self ..)
    omega
  have hget : ∀ k, (s.store v).chunk.get16 (h + g.first + k) = s.chunk.get16 (h + g.first + k) := by
    intro k
    rw [Chunk.get16, Chunk.get16, hsame _ (by omega), hsame _ (by omega)]
  obtain ⟨hfirst, hlast⟩ := hc.records g (List.mem_append_right _ (List.mem_cons_self ..))
  refine ⟨hstored, ⟨(hget _).trans hfirst, (hget _).trans hlast⟩, ?_,
    fun i hps _ => Cursor.store_same hc.link hps⟩
  rw [hstored.load_eq, follow, hget]
  have hafter := hc.after.2
  cases gs with
  | nil => exact hafter
  | cons q gs => exact hafter.1

/-- What is left of the hole before the fragment. -/
def leftOf (first : Nat) (g : Gap) : List Gap :=
  if g.first < first then [⟨g.first, first - 1⟩] else []

/-- What is left of the hole behind the fragment. -/
def rightOf (last : Nat) (more : Bool) (g : Gap) : List Gap :=
  if last < g.last ∧ more then [⟨last + 1, g.last⟩] else []

theorem cutHole_spec (hc : Cursor h s ps gs) (hs : Holes h (ps ++ g :: gs)) (hat : g.At h s.chunk)
    (hfollow : follow h s.chunk g.first = s.load) (hfirst : first % 8 = 0)
    (hle : first ≤ g.last) :
    Cursor h (s.cutHole (h + g.first) first g.first).1 (ps ++ leftOf first g) gs ∧
      (s.cutHole (h + g.first) first g.first).2 = g.first - first ∧
      (s.cutHole (h + g.first) first g.first).1.last = s.last ∧
      Outside h ps g s.chunk (s.cutHole (h + g.first) first g.first).1.chunk := by
  have hfit := hs.fits g (List.mem_append_right _ (List.mem_cons_self ..))
  have haligned := hfit.aligned
  have hroom := hfit.room
  have hbound := hfit.bound
  have hsp := hs.spaced
  obtain ⟨hps, hggs, hall⟩ := List.pairwise_append.mp hsp
  obtain ⟨hg, hgs⟩ := List.pairwise_cons.mp hggs
  unfold cutHole leftOf
  split
  · rename_i hlt
    have hw := Chunk.set16_within s.chunk (h + g.first + Hole.last) (first - 1)
    have hset : (s.chunk.set16 (h + g.first + Hole.last) (first - 1)).get16
        (h + g.first + Hole.last) = first - 1 := Chunk.get16_set16 (by omega)
    have hcut : Cursor h
        { s with chunk := s.chunk.set16 (h + g.first + Hole.last) (first - 1) } ps gs := by
      refine hc.frame hw fun q hq => ?_
      simp only [Hole.last]
      rcases List.mem_append.mp hq with hq | hq
      · have := hall q hq g (List.mem_cons_self ..)
        omega
      · have := hg q hq
        omega
    have hpush := @Cursor.push h _ ps gs ⟨g.first, first - 1⟩ hcut ?_
      (show g.first < 65536 by omega) ⟨?_, hset⟩ ?_
    · refine ⟨hpush, by dsimp only; omega, Cursor.store_last _ _, ?_⟩
      refine Outside.trans (Outside.of_within hw (by omega) ?_) fun i hi _ => ?_
      · simp only [Hole.last]
        omega
      · exact Cursor.store_same hcut.link hi
    · refine List.pairwise_append.mpr ⟨hps, List.pairwise_cons.mpr ⟨hg, hgs⟩, fun a ha b hb => ?_⟩
      rcases List.mem_cons.mp hb with rfl | hb
      · exact hall a ha g (List.mem_cons_self ..)
      · exact hall a ha b (.tail _ hb)
    · refine (hw.get16 ?_).trans hat.1
      simp only [Hole.first, Hole.last]
      omega
    · rw [hcut.load_eq, ← hc.load_eq, ← hfollow]
      refine hw.get16 ?_
      simp only [Hole.next, Hole.last]
      omega
  · rw [List.append_nil]
    exact ⟨hc, rfl, rfl, fun _ _ _ => rfl⟩

/-- The holes that are left to test after the fragment has ended in the hole `g`. -/
def restOf (last : Nat) (more : Bool) (g : Gap) (gs : List Gap) : List Gap :=
  if last < g.last ∧ more = false then [] else gs

/-- The records behind a hole begin behind it. -/
theorem lt_first_of_holes (hs : Holes h (ps ++ g :: gs)) : ∀ q ∈ gs, g.last < q.first := by
  obtain ⟨-, hggs, -⟩ := List.pairwise_append.mp hs.order
  exact (List.pairwise_cons.mp hggs).1

/-- The holes before the fragment lie apart, and before its end. -/
theorem before_spaced (hs : Holes h (ps ++ g :: gs)) (hfirst : first % 8 = 0) {last : Nat}
    (hle : first ≤ last) (hlast : g.first ≤ last) :
    Cursor.Spaced (ps ++ leftOf first g) ∧ ∀ p ∈ ps ++ leftOf first g, p.first + 8 ≤ last + 1 := by
  have haligned := (hs.fits g (List.mem_append_right _ (List.mem_cons_self ..))).aligned
  obtain ⟨hps, -, hall⟩ := List.pairwise_append.mp hs.spaced
  have hg : ∀ p ∈ ps, p.first + 8 ≤ g.first := fun p hp => hall p hp g (List.mem_cons_self ..)
  have hleft : ∀ q ∈ leftOf first g, q.first = g.first ∧ g.first + 8 ≤ first := by
    intro q hq
    unfold leftOf at hq
    split at hq
    · rw [List.mem_singleton.mp hq]
      exact ⟨rfl, by omega⟩
    · cases hq
  constructor
  · refine List.pairwise_append.mpr ⟨hps, ?_, fun a ha b hb => ?_⟩
    · unfold leftOf
      split
      · exact List.pairwise_singleton _ _
      · exact .nil
    · have := hg a ha
      have := (hleft b hb).1
      omega
  · intro p hp
    rcases List.mem_append.mp hp with hp | hp
    · have := hg p hp
      omega
    · have := hleft p hp
      omega

/-- The record of a new hole is written behind the fragment. -/
theorem newHole_spec (hc : Cursor h s ps gs) {pos v : Nat} (hv : v < 65536)
    (hpos : pos < 65536) (hclear : ∀ q ∈ ps ++ gs, q.first + 8 ≤ pos ∨ pos + 8 ≤ q.first) :
    ∃ s' : HoleScan, s' = { s with chunk := ((s.chunk.set16 (h + pos + Hole.first) pos).set16
        (h + pos + Hole.last) v).set16 (h + pos + Hole.next) (HoleScan.load { s with
          chunk := (s.chunk.set16 (h + pos + Hole.first) pos).set16 (h + pos + Hole.last) v }) } ∧
      Cursor h s' ps gs ∧ Gap.At h s'.chunk ⟨pos, v⟩ ∧ follow h s'.chunk pos = s'.load ∧
      Chunk.Within (h + pos) (h + pos + 8) s.chunk s'.chunk := by
  have hclear : ∀ q ∈ ps ++ gs, h + q.first + 8 ≤ h + pos ∨ h + pos + 8 ≤ h + q.first := by
    intro q hq
    have := hclear q hq
    omega
  have hw₁ := Chunk.set16_within s.chunk (h + pos + Hole.first) pos
  generalize hc₁ : s.chunk.set16 (h + pos + Hole.first) pos = c₁ at *
  have hw₂ := Chunk.set16_within c₁ (h + pos + Hole.last) v
  have hlast : (c₁.set16 (h + pos + Hole.last) v).get16 (h + pos + Hole.last) = v :=
    Chunk.get16_set16 hv
  generalize hc₂ : c₁.set16 (h + pos + Hole.last) v = c₂ at *
  have hbefore : Chunk.Within (h + pos) (h + pos + 8) s.chunk c₂ := by
    rw [← hc₂, ← hc₁]
    exact (Chunk.set16_record _ _ _ (by decide)).trans (Chunk.set16_record _ _ _ (by decide))
  have hcursor := hc.frame hbefore hclear
  have hload : HoleScan.load { s with chunk := c₂ } < 65536 := by
    rw [hcursor.load_eq]
    cases gs with
    | nil => exact (by decide : EOH < 65536)
    | cons q gs =>
      have hq := (hcursor.records q (List.mem_append_right _ (List.mem_cons_self ..))).1
      show q.first < 65536
      rw [← hq]
      exact Chunk.get16_lt _ _
  have hw₃ := Chunk.set16_within c₂ (h + pos + Hole.next) (HoleScan.load { s with chunk := c₂ })
  have hnext := @Chunk.get16_set16 c₂ (h + pos + Hole.next) _ hload
  have hwithin : Chunk.Within (h + pos) (h + pos + 8) s.chunk
      (c₂.set16 (h + pos + Hole.next) (HoleScan.load { s with chunk := c₂ })) :=
    hbefore.trans (Chunk.set16_record _ _ _ (by decide))
  have hdone := hc.frame hwithin hclear
  refine ⟨_, rfl, hdone, ⟨?_, ?_⟩, ?_, hwithin⟩
  · have hfirst := @Chunk.get16_set16 s.chunk (h + pos + Hole.first) pos hpos
    rw [hc₁] at hfirst
    refine (hw₃.get16 ?_).trans ((hw₂.get16 ?_).trans hfirst)
    · simp only [Hole.first, Hole.next]
      omega
    · simp only [Hole.first, Hole.last]
      omega
  · refine (hw₃.get16 ?_).trans hlast
    simp only [Hole.last, Hole.next]
    omega
  · rw [hdone.load_eq, ← hcursor.load_eq]
    exact hnext

/-- A store changes the holes that were passed, or the one at hand. -/
theorem store_outside (hlink : s.next = linkAfter h (ps ++ leftOf first g))
    (hroom : g.first + 7 ≤ g.last) (v : Nat) : Outside h ps g s.chunk (s.store v).chunk := by
  refine fun i hps hg => Cursor.store_same hlink fun p hp => ?_
  rcases List.mem_append.mp hp with hp | hp
  · exact hps p hp
  · unfold leftOf at hp
    split at hp
    · rw [List.mem_singleton.mp hp]
      dsimp only
      omega
    · cases hp

theorem endHole_spec (hc : Cursor h s (ps ++ leftOf first g) gs) (hs : Holes h (ps ++ g :: gs))
    (hh : 20 ≤ h) (hfirst : first % 8 = 0) (hle : first ≤ s.last) (hlast : g.first ≤ s.last)
    {more : Bool} (hend : more = true → (s.last + 1) % 8 = 0)
    (hroom : more = true → s.last < g.last → h + s.last + 9 ≤ 65535) :
    ∃ s', s.endHole h g.last more = some s' ∧
      Cursor h s' (ps ++ leftOf first g ++ rightOf s.last more g) (restOf s.last more g gs) ∧
      s'.last = min s.last g.last ∧ Outside h ps g s.chunk s'.chunk := by
  have hfit := hs.fits g (List.mem_append_right _ (List.mem_cons_self ..))
  have hbound := hfit.bound
  have hbehind := lt_first_of_holes hs
  obtain ⟨hspaced, hbefore⟩ := before_spaced hs hfirst hle hlast
  unfold endHole
  by_cases hlt : s.last < g.last
  · rw [if_pos hlt]
    cases more with
    | true =>
      have hroom := hroom rfl hlt
      have hend := hend rfl
      have hwhole := hfit.whole
      have hbehind : ∀ q ∈ gs, s.last + 1 + 8 ≤ q.first := by
        intro q hq
        have hq' := hs.fits q (List.mem_append_right _ (.tail _ hq))
        have := hbehind q hq
        have := hq'.room
        have := hq'.bound
        omega
      have hfits : Hole.fits (h + s.last + 1) = true :=
        decide_eq_true (show h + s.last + 1 + 8 ≤ 65535 by omega)
      have hclear : ∀ q ∈ ps ++ leftOf first g ++ gs,
          q.first + 8 ≤ s.last + 1 ∨ s.last + 1 + 8 ≤ q.first := by
        intro q hq
        rcases List.mem_append.mp hq with hq | hq
        · exact .inl (hbefore q hq)
        · exact .inr (hbehind q hq)
      have hright : rightOf s.last true g = [⟨s.last + 1, g.last⟩] := if_pos ⟨hlt, rfl⟩
      have hrest : restOf s.last true g gs = gs := if_neg (by simp)
      obtain ⟨s', hs', hcursor, hat, hfollow, hw⟩ := newHole_spec hc
        (show g.last < 65536 by omega) (show s.last + 1 < 65536 by omega) hclear
      have hnext : s'.next = s.next := by rw [hs']
      have hlast' : s'.last = s.last := by rw [hs']
      have hpush := @Cursor.push h s' _ gs ⟨s.last + 1, g.last⟩ hcursor ?_
        (show s.last + 1 < 65536 by omega) hat hfollow
      · rw [if_pos rfl, if_pos hfits]
        refine ⟨{ s'.store (s.last + 1) with next := .next (h + (s.last + 1)) }, ?_, ?_, ?_, ?_⟩
        · have hval : s'.chunk.get16 (h + (s.last + 1) + Hole.first) = s.last + 1 := hat.1
          have hres : { s'.store (s'.chunk.get16 (h + (s.last + 1) + Hole.first)) with
              next := .next (h + (s.last + 1)) } =
              { s'.store (s.last + 1) with next := .next (h + (s.last + 1)) } := by
            rw [hval]
          rw [← hres, hs']
          rfl
        · rw [hright, hrest]
          exact hpush
        · show (s'.store (s.last + 1)).last = min s.last g.last
          rw [Cursor.store_last, hlast']
          omega
        · have hhi : h + (s.last + 1) + 8 ≤ h + g.last + 1 := by omega
          have hown : Outside h ps g s.chunk s'.chunk :=
            Outside.of_within hw (by omega) hhi
          exact hown.trans (store_outside hcursor.link hfit.room (s.last + 1))
      · obtain ⟨-, hgs, -⟩ := List.pairwise_append.mp hs.spaced
        refine List.pairwise_append.mpr ⟨hspaced, ?_, fun a ha b hb => ?_⟩
        · exact List.pairwise_cons.mpr ⟨hbehind, (List.pairwise_cons.mp hgs).2⟩
        · have := hbefore a ha
          rcases List.mem_cons.mp hb with rfl | hb
          · exact this
          · have := hbehind b hb
            omega
    | false =>
      have hright : rightOf s.last false g = [] := if_neg (by simp)
      have hrest : restOf s.last false g gs = [] := if_pos ⟨hlt, rfl⟩
      refine ⟨_, rfl, ?_, ?_, ?_⟩
      · rw [hright, hrest, List.append_nil]
        refine hc.store (by rwa [List.append_nil]) (by decide) (fun q hq => by cases hq) rfl
      · rw [Cursor.store_last]
        omega
      · exact store_outside hc.link hfit.room EOH
  · rw [if_neg hlt]
    have hright : rightOf s.last more g = [] := if_neg fun hr => hlt hr.1
    have hrest : restOf s.last more g gs = gs := if_neg fun hr => hlt hr.1
    refine ⟨_, rfl, ?_, ?_, fun _ _ _ => rfl⟩
    · rw [hright, hrest, List.append_nil]
      exact hc.setLast _
    · show g.last = min s.last g.last
      omega

/-- The bytes of the hole come from the fragment. -/
theorem fill_spec {ps' : List Gap} {start stop : Nat} (hc : Cursor h s ps' gs)
    (hstart : start = first + (g.first - first)) (hstop : stop = s.last) (hle : start ≤ stop)
    (hclear : ∀ q ∈ ps' ++ gs, q.first + 8 ≤ start ∨ stop + 1 ≤ q.first)
    (hinside : h + stop + 1 ≤ 65535)
    (hsource : m.hdr.getHdrSize + (stop + 1 - first) ≤ m.hdr.getSize) :
    ∃ s', s.fill h first (g.first - first) m = some s' ∧ Cursor h s' ps' gs ∧
      s'.last = s.last ∧
      Chunk.Within (h + start) (h + stop + 1) s.chunk s'.chunk ∧
      ∀ x, start ≤ x → x ≤ stop → s'.chunk (h + x) = m.payload (x - first) := by
  have hw := Chunk.move_within s.chunk (h + first + (g.first - first))
    (s.last + 1 - (first + (g.first - first))) fun i => m.payload (g.first - first + i)
  have hw : Chunk.Within (h + start) (h + stop + 1) s.chunk _ := hw.mono (by omega) (by omega)
  unfold fill
  rw [if_pos (by omega), if_pos (by simp only [Chunk.SIZE]; omega)]
  refine ⟨_, rfl, hc.frame hw fun q hq => ?_, rfl, hw, fun x hlo hhi => ?_⟩
  · have := hclear q hq
    omega
  · dsimp only
    unfold Chunk.move
    rw [if_pos (by omega)]
    dsimp only
    congr 1
    omega

/-- A hole that the fragment does not touch is passed. -/
theorem turn_pass (hc : Cursor h s ps (g :: gs)) (hfit : g.Fits h)
    (hout : g.last < first ∨ s.last < g.first) :
    s.turn h first (h + s.load) m = some { s with next := .next (h + g.first) } := by
  obtain ⟨hfirst, hlast⟩ := hc.records g (List.mem_append_right _ (List.mem_cons_self ..))
  have hfits : Hole.fits (h + g.first) = true := decide_eq_true hfit.inside
  rw [hc.load_cons, turn, if_pos hfits, hfirst, hlast, if_pos hout]

/-- What a turn does to the first hole that the fragment touches. -/
theorem turn_hit (hc : Cursor h s ps (g :: gs)) (hs : Holes h (ps ++ g :: gs)) (hh : 20 ≤ h)
    (hfirst : first % 8 = 0) (hin : first ≤ g.last ∧ g.first ≤ s.last) (hle : first ≤ s.last)
    (hend : m.hdr.moreFragments = true → (s.last + 1) % 8 = 0)
    (hroom : m.hdr.moreFragments = true → s.last < g.last → h + s.last + 9 ≤ 65535)
    (hinside : h + s.last + 1 ≤ 65535)
    (hsource : m.hdr.getHdrSize + (s.last + 1 - first) ≤ m.hdr.getSize) :
    ∃ s', s.turn h first (h + s.load) m = some s' ∧
      Cursor h s' (ps ++ leftOf first g ++ rightOf s.last m.hdr.moreFragments g)
        (restOf s.last m.hdr.moreFragments g gs) ∧
      s'.last = min s.last g.last ∧ Outside h ps g s.chunk s'.chunk ∧
      ∀ x, max first g.first ≤ x → x ≤ min s.last g.last →
        s'.chunk (h + x) = m.payload (x - first) := by
  have hfit := hs.fits g (List.mem_append_right _ (List.mem_cons_self ..))
  obtain ⟨hat₁, hat₂⟩ := hc.records g (List.mem_append_right _ (List.mem_cons_self ..))
  have hfits : Hole.fits (h + g.first) = true := decide_eq_true hfit.inside
  have hroomg := hfit.room
  obtain ⟨hdel, hatd, hfollow, hout₁⟩ := delete_spec hc hs rfl
  generalize hs₁ : s.store (follow h s.chunk g.first) = s₁ at *
  have hlast₁ : s₁.last = s.last := by rw [← hs₁, Cursor.store_last]
  obtain ⟨hcut, hoff, hlast₂, hout₂⟩ := cutHole_spec hdel hs hatd hfollow hfirst hin.1
  generalize hs₂ : s₁.cutHole (h + g.first) first g.first = r at *
  obtain ⟨s₂, offset⟩ := r
  dsimp only at *
  rw [hlast₁] at hlast₂
  obtain ⟨s₃, hs₃, hcur₃, hlast₃, hout₃⟩ := endHole_spec hcut hs hh hfirst (by omega) (by omega)
    (by rwa [hlast₂]) (by rwa [hlast₂])
  rw [hlast₂] at hcur₃ hlast₃
  have hclear : ∀ q ∈ ps ++ leftOf first g ++ rightOf s.last m.hdr.moreFragments g ++
      restOf s.last m.hdr.moreFragments g gs,
      q.first + 8 ≤ first + (g.first - first) ∨ min s.last g.last + 1 ≤ q.first := by
    intro q hq
    obtain ⟨-, -, hall⟩ := List.pairwise_append.mp hs.spaced
    have haligned := hfit.aligned
    rcases List.mem_append.mp hq with hq | hq
    · rcases List.mem_append.mp hq with hq | hq
      · rcases List.mem_append.mp hq with hq | hq
        · have := hall q hq g (List.mem_cons_self ..)
          omega
        · unfold leftOf at hq
          split at hq
          · rw [List.mem_singleton.mp hq]
            dsimp only
            omega
          · cases hq
      · unfold rightOf at hq
        split at hq
        · rw [List.mem_singleton.mp hq]
          dsimp only
          omega
        · cases hq
    · have hq : q ∈ gs := by
        unfold restOf at hq
        split at hq
        · cases hq
        · exact hq
      have := lt_first_of_holes hs q hq
      omega
  obtain ⟨s', hs', hcur, hlast', hw, hcontent⟩ := @fill_spec h first s₃ _ g m _ _ _ hcur₃ rfl
    hlast₃.symm (by omega) hclear (by omega) (by omega)
  have hturn : s.turn h first (h + s.load) m = some s' := by
    rw [hc.load_cons, turn, if_pos hfits, hat₁, hat₂, if_neg (by omega)]
    have hnext : s.chunk.get16 (h + g.first + Hole.next) = follow h s.chunk g.first := rfl
    simp only [hnext, hs₁, hs₂, hs₃, bind, Option.bind, hoff, hs']
  refine ⟨s', hturn, hcur, by omega, ?_, ?_⟩
  · have hown : Outside h ps g s₃.chunk s'.chunk := Outside.of_within hw (by omega) (by omega)
    exact ((hout₁.trans hout₂).trans hout₃).trans hown
  · intro x hlo hhi
    exact hcontent x (by omega) hhi

/-- A byte is missing. -/
def Missing (gs : List Gap) (x : Nat) : Prop :=
  ∃ g ∈ gs, g.first ≤ x ∧ x ≤ g.last

/-- The fragment touches the hole. -/
def Touches (first last : Nat) (g : Gap) : Prop :=
  first ≤ g.last ∧ g.first ≤ last

instance (first last : Nat) (g : Gap) : Decidable (Touches first last g) :=
  inferInstanceAs (Decidable (_ ∧ _))

/-- The first hole that the fragment touches. -/
def touched (first last : Nat) (gs : List Gap) : Option Gap :=
  gs.find? fun g => Touches first last g

theorem touched_cons_pos {last : Nat} (hin : Touches first last g) :
    touched first last (g :: gs) = some g :=
  List.find?_cons_of_pos (decide_eq_true hin)

theorem touched_cons_neg {last : Nat} (hin : ¬ Touches first last g) :
    touched first last (g :: gs) = touched first last gs :=
  List.find?_cons_of_neg (by simpa using hin)

/-- What the loop makes of the holes: it fills the first of them that the fragment touches. -/
def fillGaps (first last : Nat) (more : Bool) : List Gap → List Gap
  | [] => []
  | g :: gs =>
    if Touches first last g then leftOf first g ++ rightOf last more g ++ restOf last more g gs
    else g :: fillGaps first last more gs

theorem loop_end (hc : Cursor h s ps []) (turns : Nat) :
    loop h first m (turns + 1) s = some s := by
  rw [loop, if_pos hc.load_nil]

theorem load_ne (hc : Cursor h s ps (g :: gs)) (hfit : g.Fits h) : s.load ≠ EOH := by
  have := hfit.aligned
  rw [hc.load_cons, EOH]
  omega

theorem loop_turn {s' : HoleScan} (hne : s.load ≠ EOH)
    (hturn : s.turn h first (h + s.load) m = some s') (turns : Nat) :
    loop h first m (turns + 1) s = loop h first m turns s' := by
  rw [loop, if_neg hne, hturn]
  rfl

/-- Holes that the fragment does not touch are passed. -/
theorem loop_past (hc : Cursor h s ps gs) (hfit : ∀ g ∈ gs, g.Fits h)
    (hout : ∀ g ∈ gs, g.last < first ∨ s.last < g.first) {turns : Nat} (hturns : gs.length < turns) :
    ∃ s', loop h first m turns s = some s' ∧ Cursor h s' (ps ++ gs) [] ∧ s'.chunk = s.chunk := by
  induction gs generalizing s ps turns with
  | nil =>
    obtain ⟨turns, rfl⟩ := Nat.exists_eq_add_of_le' (Nat.succ_le_of_lt hturns)
    refine ⟨s, loop_end hc turns, ?_, rfl⟩
    rwa [List.append_nil]
  | cons g gs ih =>
    obtain ⟨turns, rfl⟩ := Nat.exists_eq_add_of_le' (Nat.succ_le_of_lt (Nat.zero_lt_of_lt hturns))
    have hg := hfit g (List.mem_cons_self ..)
    rw [loop_turn (load_ne hc hg) (turn_pass hc hg (hout g (List.mem_cons_self ..)))]
    obtain ⟨s', hs', hcur, hchunk⟩ := ih hc.pass (fun q hq => hfit q (.tail _ hq))
      (fun q hq => hout q (.tail _ hq)) (Nat.lt_of_succ_lt_succ hturns)
    refine ⟨s', hs', ?_, hchunk⟩
    rwa [List.append_assoc] at hcur

/-- The loop fills the first hole that the fragment touches, and ends. -/
theorem loop_spec (hc : Cursor h s ps gs) (hs : Holes h (ps ++ gs)) (hh : 20 ≤ h)
    (hfirst : first % 8 = 0) (hle : first ≤ s.last)
    (hend : m.hdr.moreFragments = true → (s.last + 1) % 8 = 0)
    (hroom : m.hdr.moreFragments = true → ∀ g, touched first s.last gs = some g → s.last < g.last →
      h + s.last + 9 ≤ 65535)
    (hinside : h + s.last + 1 ≤ 65535)
    (hsource : m.hdr.getHdrSize + (s.last + 1 - first) ≤ m.hdr.getSize) {turns : Nat}
    (hturns : gs.length < turns) :
    ∃ s', loop h first m turns s = some s' ∧
      Stored h s'.chunk s'.list (ps ++ fillGaps first s.last m.hdr.moreFragments gs) ∧
      (∀ x, ¬ Missing (ps ++ gs) x → s'.chunk (h + x) = s.chunk (h + x)) ∧
      ∀ x ≤ s.last, Missing gs x → ¬ Missing (fillGaps first s.last m.hdr.moreFragments gs) x →
        s'.chunk (h + x) = m.payload (x - first) := by
  induction gs generalizing s ps turns with
  | nil =>
    obtain ⟨turns, rfl⟩ := Nat.exists_eq_add_of_le' (Nat.succ_le_of_lt hturns)
    refine ⟨s, loop_end hc turns, hc.stored, fun _ _ => rfl, ?_⟩
    rintro x - ⟨g, hg, -⟩
    cases hg
  | cons g gs ih =>
    obtain ⟨turns, rfl⟩ := Nat.exists_eq_add_of_le' (Nat.succ_le_of_lt (Nat.zero_lt_of_lt hturns))
    have hg := hs.fits g (List.mem_append_right _ (List.mem_cons_self ..))
    have hturns := Nat.lt_of_succ_lt_succ hturns
    by_cases hin : Touches first s.last g
    · obtain ⟨s₁, hturn, hcur, hlast, hout, hcontent⟩ := turn_hit hc hs hh hfirst hin hle hend
        (fun hmore hlt => hroom hmore g (touched_cons_pos hin) hlt) hinside hsource
      rw [loop_turn (load_ne hc hg) hturn]
      have hrest : ∀ q ∈ restOf s.last m.hdr.moreFragments g gs, q ∈ gs := by
        intro q hq
        unfold restOf at hq
        split at hq
        · cases hq
        · exact hq
      have hlen : (restOf s.last m.hdr.moreFragments g gs).length ≤ gs.length := by
        unfold restOf
        split
        · exact Nat.zero_le _
        · exact Nat.le_refl _
      obtain ⟨s', hs', hcur', hchunk⟩ := @loop_past h first s₁ _ _ m hcur
        (fun q hq => hs.fits q (List.mem_append_right _ (.tail _ (hrest q hq))))
        (fun q hq => .inr (by have := lt_first_of_holes hs q (hrest q hq); omega)) turns (by omega)
      have hstored := hcur'.stored
      rw [List.append_nil] at hstored
      refine ⟨s', hs', ?_, ?_, ?_⟩
      · rw [fillGaps, if_pos hin]
        simpa only [List.append_assoc] using hstored
      · intro x hx
        rw [hchunk]
        refine hout _ (fun p hp => ?_) ?_
        · have hfit := hs.fits p (List.mem_append_left _ hp)
          have hroomp := hfit.room
          have : ¬ (p.first ≤ x ∧ x ≤ p.last) := fun h => hx ⟨p, List.mem_append_left _ hp, h⟩
          omega
        · have : ¬ (g.first ≤ x ∧ x ≤ g.last) := fun h =>
            hx ⟨g, List.mem_append_right _ (List.mem_cons_self ..), h⟩
          omega
      · intro x hxl hx hnot
        rw [hchunk]
        rw [fillGaps, if_pos hin] at hnot
        obtain ⟨q, hq, hlo, hhi⟩ := hx
        rcases List.mem_cons.mp hq with rfl | hq
        · have hleft : ¬ (q.first < first ∧ x < first) := fun ⟨hqf, hxf⟩ => by
            refine hnot ⟨⟨q.first, first - 1⟩, ?_, hlo, by dsimp only; omega⟩
            have hmem : (⟨q.first, first - 1⟩ : Gap) ∈ leftOf first q := by
              rw [leftOf, if_pos hqf]
              exact List.mem_singleton.mpr rfl
            simp [hmem]
          exact hcontent x (by omega) (by omega)
        · have hbehind := lt_first_of_holes hs q hq
          have hkept : restOf s.last m.hdr.moreFragments g gs = gs := if_neg (by omega)
          refine absurd ⟨q, ?_, hlo, hhi⟩ hnot
          rw [hkept]
          simp [hq]
    · have hout : g.last < first ∨ s.last < g.first := by
        unfold Touches at hin
        omega
      rw [loop_turn (load_ne hc hg) (turn_pass hc hg hout)]
      rw [← List.singleton_append, ← List.append_assoc] at hs
      obtain ⟨s', hs', hstored, hsame, hnew⟩ := ih hc.pass hs hle hend
        (fun hmore q hq => hroom hmore q ((touched_cons_neg hin).trans hq)) hinside hsource hturns
      refine ⟨s', hs', ?_, ?_, ?_⟩
      · rw [fillGaps, if_neg hin]
        rwa [List.append_assoc] at hstored
      · intro x hx
        refine hsame x ?_
        rwa [List.append_assoc]
      · rintro x hxl ⟨q, hq, hx⟩ hnot
        rw [fillGaps, if_neg hin] at hnot
        rcases List.mem_cons.mp hq with rfl | hq
        · exact absurd ⟨q, List.mem_cons_self .., hx⟩ hnot
        · exact hnew x hxl ⟨q, hq, hx⟩ fun ⟨p, hp, hxp⟩ => hnot ⟨p, .tail _ hp, hxp⟩

end HoleScan

end EsOs.Net
