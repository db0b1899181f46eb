import EsOs.Kernel.Partition
import EsOs.Lib.Iteration

/-!
# Mounting any disk

`PartitionContext::mount` of `os/kernel/port/partitionContext.cpp` on a disk that may end before a
boot record does. Where nothing can be read, the buffer keeps the record that was read before.
-/

namespace EsOs.Kernel

open EsOs.Lib

/-- What `disk->read` finds at the byte offset of a sector: its boot record, or nothing outside of
    the disk. -/
abbrev ReadableDisk := Nat → Option BootRecord

/-- The buffer after `disk->read(mbr, bytesPerSector, offset)`. -/
def ReadableDisk.readInto (disk : ReadableDisk) (mbr : BootRecord) (offset : Nat) : BootRecord :=
  (disk offset).getD mbr

/-- The partition is a part of the disk. -/
def PartitionStream.Inside (g : Geometry) (s : PartitionStream) : Prop :=
  s.offset + s.size ≤ g.diskSize

instance (g : Geometry) (s : PartitionStream) : Decidable (s.Inside g) :=
  inferInstanceAs (Decidable (_ ≤ _))

/-- An entry describes a part of the disk. -/
def Entry.Inside (g : Geometry) (base : Nat) (e : Entry) : Prop :=
  g.bytesPerSector * word (base + e.startingSector) + g.bytesPerSector * e.totalSectors ≤ g.diskSize

namespace PartitionContext

/-- The entry makes a logical partition (`partitionContext.cpp:755-766`). -/
def isLogical (e : Entry) : Bool :=
  !(e.system == PT_EMPTY || isExtendedType e.system)

/-- The loop of `mount` over the chain of extended partition boot records
    (`partitionContext.cpp:727-775`), with the record in the buffer; nothing when it takes more than
    `turns`. -/
def mountLoop (g : Geometry) (disk : ReadableDisk) (base : Nat) :
    Nat → BootRecord → Nat → Nat → PartitionType × Nat → Option (List PartitionStream)
  | 0, _, _, _, _ => none
  | turns + 1, mbr, epbr, id, parent =>
    let mbr := disk.readInto mbr (epbr * g.bytesPerSector)
    if mbr.signature ≠ MBR_SIGNATURE then some []
    else
      let e := mbr.entry 0
      let here := if isLogical e then [PartitionStream.ofEntry g id e 0 epbr (some parent)] else []
      let parent := if isLogical e then (.logical, id % 256) else parent
      if (mbr.entry 1).system ≠ PT_EXTENDED then some here
      else
        (mountLoop g disk base turns mbr (word (base + (mbr.entry 1).startingSector)) (id + 1)
          parent).map (here ++ ·)

/-- `PartitionContext::mount` (`partitionContext.cpp:660-778`), where `mbr` is what the buffer holds
    before anything is read: the result and the partitions; nothing when the chain takes more than
    `turns`. -/
def mountDisk (g : Geometry) (disk : ReadableDisk) (mbr : BootRecord) (turns : Nat) :
    Option (Int × List PartitionStream) :=
  let mbr := disk.readInto mbr 0
  if mbr.signature ≠ MBR_SIGNATURE then some (-1, [])
  else
    let m := (List.range 4).foldl (mountEntry g mbr) ⟨[], 0, none⟩
    match m.extended with
    | none => some (0, m.partitionList)
    | some e =>
      (mountLoop g disk e.startingSector turns mbr e.startingSector 0 (.extended, 0)).map
        fun l => (0, m.partitionList ++ l)

/-- Mounting ends, with partitions that are all parts of the disk. -/
def MountsInside (g : Geometry) (disk : ReadableDisk) (mbr : BootRecord) : Prop :=
  ∃ turns result l, mountDisk g disk mbr turns = some (result, l) ∧ ∀ s ∈ l, s.Inside g

/-! ## The chain of boot records -/

/-- The sector of a boot record, and the record that the buffer holds there. -/
abbrev BootPosition := Nat × BootRecord

/-- The position in the chain after the one given. -/
def nextBoot (g : Geometry) (disk : ReadableDisk) (base : Nat) (p : BootPosition) :
    Option BootPosition :=
  if p.2.signature = MBR_SIGNATURE ∧ (p.2.entry 1).system = PT_EXTENDED then
    let sector := word (base + (p.2.entry 1).startingSector)
    some (sector, disk.readInto p.2 (sector * g.bytesPerSector))
  else none

/-- Where the chain begins. -/
def firstBoot (g : Geometry) (disk : ReadableDisk) (mbr : BootRecord) (base : Nat) : BootPosition :=
  (base, disk.readInto mbr (base * g.bytesPerSector))

/-- The entry that the table of the master boot record gives the extended partition. -/
def extendedEntry (mbr : BootRecord) : Option Entry :=
  ((List.range 4).map mbr.entry).find? fun e => isExtendedType e.system

/-- The partitions of the master boot record are parts of the disk. An extended partition behind
    another one is not looked at. -/
def TableInside (g : Geometry) (mbr : BootRecord) : Prop :=
  ∀ i < 4, (mbr.entry i).system ≠ PT_EMPTY →
    (isExtendedType (mbr.entry i).system = true →
      ∀ j < i, isExtendedType (mbr.entry j).system = false) →
    (mbr.entry i).Inside g 0

/-- The chain of boot records that begins at the sector `base` never comes back to a sector, and
    the logical partitions in it are parts of the disk. -/
structure ChainInside (g : Geometry) (disk : ReadableDisk) (mbr : BootRecord) (base : Nat) :
    Prop where
  distinct : NeverRepeats (nextBoot g disk base) Prod.fst (firstBoot g disk mbr base)
  inside : ∀ n sector r,
    iterated (nextBoot g disk base) n (firstBoot g disk mbr base) = some (sector, r) →
      r.signature = MBR_SIGNATURE → isLogical (r.entry 0) = true → (r.entry 0).Inside g sector

end PartitionContext

end EsOs.Kernel

/-!
## Mounting ends inside of the disk

Mounting ends, and its partitions are parts of the disk, if and only if the entries of the table are
and the chain of boot records never comes back to a sector. The positions of the chain are the run
of `nextBoot`; two positions of one sector make it endless, since what is read there is the same, or
nothing is read at all and the record in the buffer leads to its own sector.
-/

namespace EsOs.Kernel.PartitionContext

open EsOs.Lib

variable {g : Geometry} {disk : ReadableDisk} {mbr r : BootRecord} {base sector : Nat}

theorem ofEntry_inside {id i b : Nat} {e : Entry} {parent : Option (PartitionType × Nat)} :
    (PartitionStream.ofEntry g id e i b parent).Inside g ↔ e.Inside g b :=
  Iff.rfl

/-! ## The chain -/

theorem nextBoot_eq_some {p q : BootPosition} (h : nextBoot g disk base p = some q) :
    q.1 = word (base + (p.2.entry 1).startingSector) ∧
      q.2 = disk.readInto p.2 (q.1 * g.bytesPerSector) := by
  unfold nextBoot at h
  split at h
  · cases h
    exact ⟨rfl, rfl⟩
  · cases h

/-- Where nothing can be read, the next position is the same again. -/
theorem nextBoot_unreadable {p q : BootPosition} (h : nextBoot g disk base p = some q)
    (hnone : disk (q.1 * g.bytesPerSector) = none) : nextBoot g disk base q = some q := by
  have hkept : ∀ m, disk.readInto m (q.1 * g.bytesPerSector) = m := fun m => by
    rw [ReadableDisk.readInto, hnone, Option.getD_none]
  have hrecord := (nextBoot_eq_some h).2
  rw [hkept] at hrecord
  have hsame : nextBoot g disk base q = nextBoot g disk base p := by
    unfold nextBoot
    rw [hrecord]
  rw [hsame, h]

/-- A position read where its sector can be read holds the record that is there. -/
theorem iterated_readable {p q : BootPosition} {x : BootRecord} (hx : disk (q.1 * g.bytesPerSector) = some x)
    (hp : p.2 = disk.readInto r (p.1 * g.bytesPerSector)) {n : Nat}
    (h : iterated (nextBoot g disk base) n p = some q) : q.2 = x := by
  have hread : ∀ m, disk.readInto m (q.1 * g.bytesPerSector) = x := fun m => by
    rw [ReadableDisk.readInto, hx, Option.getD_some]
  induction n generalizing p r with
  | zero =>
    cases h
    rw [hp, hread]
  | succ n ih =>
    rw [iterated] at h
    obtain ⟨t, hnext, hafter⟩ := Option.bind_eq_some_iff.mp h
    exact ih (nextBoot_eq_some hnext).2 hafter

/-- A chain that comes back to a sector has no end. -/
theorem not_halts_of_repeat {m n : Nat} {p q : BootPosition} (hmn : m < n)
    (hp : iterated (nextBoot g disk base) m (firstBoot g disk mbr base) = some p)
    (hq : iterated (nextBoot g disk base) n (firstBoot g disk mbr base) = some q) (hpq : p.1 = q.1) :
    ¬ Halts (nextBoot g disk base) (firstBoot g disk mbr base) := by
  obtain ⟨k, rfl⟩ := Nat.exists_eq_add_of_lt hmn
  rcases hread : disk (q.1 * g.bytesPerSector) with - | x
  · -- the last step leads to the sector where nothing is read, and so does every further one
    rw [iterated_add _ 1, Option.bind_eq_some_iff] at hq
    obtain ⟨t, ht, hlast⟩ := hq
    have hstep : nextBoot g disk base t = some q := by
      simpa only [iterated, Option.bind_fun_some] using hlast
    have hq : iterated (nextBoot g disk base) (m + k + 1) (firstBoot g disk mbr base) = some q := by
      rw [iterated_add _ 1, ht, Option.bind_some, hlast]
    rw [halts_iff_of_iterated hq]
    refine not_halts_of_cycle (n := 0) ?_
    rw [iterated, nextBoot_unreadable hstep hread]
    rfl
  · -- both positions hold the record of the sector
    have hsame : p = q := by
      refine Prod.ext hpq ?_
      rw [iterated_readable hread rfl hq, iterated_readable (hpq ▸ hread) rfl hp]
    subst hsame
    rw [halts_iff_of_iterated hp]
    rw [Nat.add_assoc, iterated_add, hp, Option.bind_some] at hq
    exact not_halts_of_cycle hq

/-- The chain ends if and only if it never comes back to a sector. -/
theorem halts_iff_distinct :
    Halts (nextBoot g disk base) (firstBoot g disk mbr base) ↔
      NeverRepeats (nextBoot g disk base) Prod.fst (firstBoot g disk mbr base) := by
  constructor
  · intro hends m n p q hp hq hpq
    rcases Nat.lt_trichotomy m n with hlt | heq | hgt
    · exact absurd hends (not_halts_of_repeat hlt hp hq hpq)
    · exact heq
    · exact absurd hends (not_halts_of_repeat hgt hq hp hpq.symm)
  · have hfinite : (insert base {s : Nat | s < 4294967296}).Finite :=
      (Set.finite_lt_nat _).insert base
    refine halts_of_distinct hfinite fun n p hp => ?_
    · cases n with
      | zero =>
        cases hp
        exact Set.mem_insert _ _
      | succ n =>
        rw [iterated_add n 1, Option.bind_eq_some_iff] at hp
        obtain ⟨t, -, hlast⟩ := hp
        have hstep : nextBoot g disk base t = some p := by
          simpa only [iterated, Option.bind_fun_some] using hlast
        refine Set.mem_insert_of_mem _ ?_
        rw [(nextBoot_eq_some hstep).1]
        exact Nat.mod_lt _ (by decide)

/-! ## The loop -/

/-- The partition at a position, if there is one, is a part of the disk. -/
def GoodAt (g : Geometry) (p : BootPosition) : Prop :=
  p.2.signature = MBR_SIGNATURE → isLogical (p.2.entry 0) = true → (p.2.entry 0).Inside g p.1

/-- The partition that a turn of the loop adds. -/
def addedAt (g : Geometry) (p : BootPosition) (id : Nat) (parent : PartitionType × Nat) :
    List PartitionStream :=
  if p.2.signature = MBR_SIGNATURE ∧ isLogical (p.2.entry 0) = true then
    [PartitionStream.ofEntry g id (p.2.entry 0) 0 p.1 (some parent)]
  else []

theorem addedAt_inside {p : BootPosition} {id : Nat} {parent : PartitionType × Nat} :
    (∀ s ∈ addedAt g p id parent, s.Inside g) ↔ GoodAt g p := by
  unfold addedAt GoodAt
  split
  · rename_i h
    simp [h, ofEntry_inside]
  · rename_i h
    simp only [List.not_mem_nil, false_implies, implies_true, true_iff]
    exact fun hsig hlog => absurd ⟨hsig, hlog⟩ h

/-- One turn of the loop. -/
theorem mountLoop_succ (base turns : Nat) (mbr : BootRecord) (epbr id : Nat)
    (parent : PartitionType × Nat) :
    ∃ parent', mountLoop g disk base (turns + 1) mbr epbr id parent =
      match nextBoot g disk base (firstBoot g disk mbr epbr) with
      | none => some (addedAt g (firstBoot g disk mbr epbr) id parent)
      | some q =>
          (mountLoop g disk base turns (firstBoot g disk mbr epbr).2 q.1 (id + 1) parent').map
            (addedAt g (firstBoot g disk mbr epbr) id parent ++ ·) := by
  refine ⟨if isLogical ((firstBoot g disk mbr epbr).2.entry 0) then (.logical, id % 256) else parent,
    ?_⟩
  rw [mountLoop, nextBoot, addedAt, firstBoot]
  simp only
  generalize disk.readInto mbr (epbr * g.bytesPerSector) = r
  by_cases hsig : r.signature = MBR_SIGNATURE
  · rw [if_neg (not_not.mpr hsig)]
    by_cases hext : (r.entry 1).system = PT_EXTENDED
    · simp only [hsig, hext, ne_eq, not_true_eq_false, if_false, true_and, and_self, if_true]
    · simp only [hsig, hext, ne_eq, not_false_eq_true, if_true, true_and, and_false, if_false]
  · simp only [hsig, ne_eq, not_false_eq_true, if_true, false_and, if_false]

/-- What the loop answers is right for every position of the chain. -/
theorem mountLoop_inside {turns : Nat} {epbr id : Nat} {parent : PartitionType × Nat}
    {l : List PartitionStream} (h : mountLoop g disk base turns mbr epbr id parent = some l) :
    Halts (nextBoot g disk base) (firstBoot g disk mbr epbr) ∧
      ((∀ s ∈ l, s.Inside g) ↔
        ∀ n p, iterated (nextBoot g disk base) n (firstBoot g disk mbr epbr) = some p → GoodAt g p) := by
  induction turns generalizing mbr epbr id parent l with
  | zero => cases h
  | succ turns ih =>
    obtain ⟨parent', hturn⟩ := mountLoop_succ base turns mbr epbr id parent
    rw [h] at hturn
    rcases hnext : nextBoot g disk base (firstBoot g disk mbr epbr) with - | q
    · simp only [hnext, Option.some.injEq] at hturn
      subst hturn
      refine ⟨halts_of_next_none hnext, ?_⟩
      rw [addedAt_inside, forall_iterated_of_none hnext]
    · simp only [hnext] at hturn
      obtain ⟨l', hloop, rfl⟩ := Option.map_eq_some_iff.mp hturn.symm
      have hq : firstBoot g disk (firstBoot g disk mbr epbr).2 q.1 = q :=
        Prod.ext rfl (nextBoot_eq_some hnext).2.symm
      obtain ⟨hends, hall⟩ := ih hloop
      rw [hq] at hends hall
      refine ⟨(halts_iff_of_next hnext).mpr hends, ?_⟩
      rw [List.forall_mem_append, addedAt_inside, hall, forall_iterated_of_next hnext]

/-- Where the chain ends, so does the loop. -/
theorem mountLoop_ends {n : Nat} {epbr : Nat} (id : Nat) (parent : PartitionType × Nat)
    (h : iterated (nextBoot g disk base) n (firstBoot g disk mbr epbr) = none) :
    ∃ l, mountLoop g disk base n mbr epbr id parent = some l := by
  induction n generalizing mbr epbr id parent with
  | zero => cases h
  | succ n ih =>
    obtain ⟨parent', hturn⟩ := mountLoop_succ base n mbr epbr id parent
    rcases hnext : nextBoot g disk base (firstBoot g disk mbr epbr) with - | q
    · exact ⟨_, by rw [hturn, hnext]⟩
    · have hq : firstBoot g disk (firstBoot g disk mbr epbr).2 q.1 = q :=
        Prod.ext rfl (nextBoot_eq_some hnext).2.symm
      rw [iterated_of_next hnext, ← hq] at h
      obtain ⟨l, hl⟩ := ih (id + 1) parent' h
      rw [hturn, hnext]
      simp only [hl, Option.map_some]
      exact ⟨_, rfl⟩

/-- On a disk without an end this is the loop of `mount`. -/
theorem mountLoop_total (disk : BootDisk) (base turns : Nat) (mbr : BootRecord) (epbr id : Nat)
    (parent : PartitionType × Nat) :
    mountLoop g (fun o => some (disk o)) base turns mbr epbr id parent =
      mountChain g disk base turns epbr id parent := by
  induction turns generalizing mbr epbr id parent with
  | zero => rfl
  | succ turns ih =>
    have hread : ReadableDisk.readInto (fun o => some (disk o)) mbr (epbr * g.bytesPerSector) =
        disk (epbr * g.bytesPerSector) := rfl
    rw [mountLoop, mountChain, hread]
    generalize disk (epbr * g.bytesPerSector) = r
    have hother : (r.entry 0).system = PT_EMPTY ∨ isExtendedType (r.entry 0).system = true ↔
        isLogical (r.entry 0) = false := by
      rw [isLogical, Bool.not_eq_false', Bool.or_eq_true, beq_iff_eq]
    cases hlogical : isLogical (r.entry 0)
    · simp only [hother.mpr hlogical, hlogical, Bool.false_eq_true, if_true, if_false, ih]
    · have hnot := hother.not.mpr (by simp [hlogical])
      simp only [hnot, hlogical, if_true, if_false, ih]

theorem mountDisk_total (disk : BootDisk) (mbr : BootRecord) (turns : Nat) :
    (mountDisk g (fun o => some (disk o)) mbr turns).map Prod.snd = mount g disk turns := by
  unfold mountDisk mount
  simp only [mountLoop_total, ReadableDisk.readInto, Option.getD_some]
  split
  · rfl
  · generalize (List.range 4).foldl (mountEntry g (disk 0)) ⟨[], 0, none⟩ = m
    rcases hm : m.extended with - | e
    · rfl
    · simp only [Option.map_map]
      rfl

/-! ## The table -/

/-- What the loop over the table has found after `k` entries. -/
theorem table_inside (g : Geometry) (mbr : BootRecord) (k : Nat) :
    let m := (List.range k).foldl (mountEntry g mbr) ⟨[], 0, none⟩
    m.extended = ((List.range k).map mbr.entry).find? (fun e => isExtendedType e.system) ∧
      ((∀ s ∈ m.partitionList, s.Inside g) ↔ ∀ i < k, (mbr.entry i).system ≠ PT_EMPTY →
        (isExtendedType (mbr.entry i).system = true →
          ∀ j < i, isExtendedType (mbr.entry j).system = false) →
        (mbr.entry i).Inside g 0) := by
  induction k with
  | zero => simp
  | succ k ih =>
    simp only [List.range_succ, List.foldl_append, List.foldl_cons, List.foldl_nil, List.map_append,
      List.map_cons, List.map_nil, List.find?_append] at ih ⊢
    obtain ⟨hext, hin⟩ := ih
    generalize (List.range k).foldl (mountEntry g mbr) ⟨[], 0, none⟩ = m at hext hin ⊢
    have hnone : m.extended = none ↔ ∀ j < k, isExtendedType (mbr.entry j).system = false := by
      rw [hext, List.find?_eq_none]
      simp
    have hfind : [mbr.entry k].find? (fun e => isExtendedType e.system) =
        if isExtendedType (mbr.entry k).system then some (mbr.entry k) else none := by
      rw [List.find?_cons, List.find?_nil]
      cases isExtendedType (mbr.entry k).system <;> rfl
    rw [Nat.forall_lt_succ_right, hfind]
    unfold mountEntry
    simp only
    split
    · rename_i hempty
      refine ⟨?_, ?_⟩
      · rw [hext, hempty, if_neg (by decide), Option.or_none]
      · rw [hin]
        exact ⟨fun h => ⟨h, fun hused => absurd hempty hused⟩, fun h => h.1⟩
    rename_i hused
    split
    · rename_i hextended
      split
      · -- there is an extended partition before this one
        rename_i hsome
        refine ⟨?_, ?_⟩
        · rw [← hext, Option.or_of_isSome hsome]
        · rw [hin]
          refine ⟨fun h => ⟨h, fun _ hfirst => ?_⟩, fun h => h.1⟩
          rw [hnone.mpr (hfirst hextended)] at hsome
          cases hsome
      · rename_i hsome
        have hnone' : m.extended = none := by simpa using hsome
        refine ⟨?_, ?_⟩
        · rw [← hext, hnone', Option.none_or]
        · simp only [List.forall_mem_append, List.forall_mem_singleton, ofEntry_inside, hin]
          exact ⟨fun h => ⟨h.1, fun _ _ => h.2⟩, fun h => ⟨h.1, h.2 hused fun _ => hnone.mp hnone'⟩⟩
    · rename_i hextended
      refine ⟨?_, ?_⟩
      · rw [hext, Option.or_none]
      · simp only [List.forall_mem_cons, ofEntry_inside, hin]
        exact ⟨fun h => ⟨h.2, fun _ _ => h.1⟩, fun h => ⟨h.2 hused fun he => absurd he hextended, h.1⟩⟩

/-- Mounting ends, and its partitions are parts of the disk, if and only if the partitions of the
    table are and the chain of boot records of its extended partition is sound. -/
theorem mountsInside_iff (g : Geometry) (disk : ReadableDisk) (mbr : BootRecord) :
    MountsInside g disk mbr ↔
      ((disk.readInto mbr 0).signature = MBR_SIGNATURE →
        TableInside g (disk.readInto mbr 0) ∧
          ∀ e, extendedEntry (disk.readInto mbr 0) = some e →
            ChainInside g disk (disk.readInto mbr 0) e.startingSector) := by
  unfold MountsInside mountDisk
  simp only
  generalize disk.readInto mbr 0 = r
  obtain ⟨hext, htable⟩ := table_inside g r 4
  by_cases hsig : r.signature = MBR_SIGNATURE
  swap
  · simp [hsig]
  simp only [hsig, ne_eq, not_true_eq_false, if_false, true_implies]
  generalize (List.range 4).foldl (mountEntry g r) ⟨[], 0, none⟩ = m at hext htable ⊢
  change m.extended = extendedEntry r at hext
  change _ ↔ TableInside g r at htable
  rw [← htable, ← hext]
  rcases hm : m.extended with - | e
  · simp
  simp only [Option.some.injEq, forall_eq']
  constructor
  · rintro ⟨turns, result, l, hmount, hin⟩
    obtain ⟨l', hloop, hpair⟩ := Option.map_eq_some_iff.mp hmount
    cases hpair
    obtain ⟨hends, hall⟩ := mountLoop_inside hloop
    rw [List.forall_mem_append] at hin
    refine ⟨hin.1, halts_iff_distinct.mp hends, fun n sector r' hafter => ?_⟩
    exact hall.mp hin.2 n (sector, r') hafter
  · rintro ⟨hin, hdistinct, hinside⟩
    obtain ⟨n, hn⟩ := halts_iff_distinct.mpr hdistinct
    obtain ⟨l, hl⟩ := mountLoop_ends 0 (.extended, 0) hn
    refine ⟨n, 0, m.partitionList ++ l, by rw [hl]; rfl, ?_⟩
    rw [List.forall_mem_append]
    exact ⟨hin, (mountLoop_inside hl).2.mpr fun n p hafter => hinside n p.1 p.2 hafter⟩

/-! ## Disks that come back -/

def smallGeometry : Geometry := ⟨16, 63, 512, 67108864⟩

/-- The record of a table whose extended entry is the first one, or the second one. -/
def recordOf (first second : Entry) : BootRecord :=
  ⟨MBR_SIGNATURE, fun i => if i = 0 then first else if i = 1 then second else .zero⟩

/-- The extended partition of sector 63, whose boot record `r` is the only one. -/
def chainDisk (r : BootRecord) : ReadableDisk := fun o =>
  if o = 0 then some (recordOf ⟨0, 0, PT_EXTENDED, 0, 63, 130000⟩ .zero)
  else if o = 63 * 512 then some r else none

-- a logical partition behind the boot record, and no other record
example : MountsInside smallGeometry
    (chainDisk (recordOf ⟨0, 0, PT_FAT16_UPTO_32MB, 0, 63, 20000⟩ .zero)) ⟨0, fun _ => .zero⟩ :=
  ⟨1, 0, _, rfl, by decide⟩

/-- A boot record that leads to its own sector. -/
theorem not_mountsInside_selfReferring :
    ¬ MountsInside smallGeometry
      (chainDisk (recordOf .zero ⟨0, 0, PT_EXTENDED, 0, 0, 1000⟩)) ⟨0, fun _ => .zero⟩ := by
  rintro ⟨turns, result, l, hmount, -⟩
  obtain ⟨l', hloop, -⟩ := Option.map_eq_some_iff.mp hmount
  exact not_halts_of_cycle (n := 0) rfl (mountLoop_inside hloop).1

end EsOs.Kernel.PartitionContext
