import Mathlib.Data.List.Pairwise
import EsOs.Kernel.Partition

/-!
# The layout of a partition on the disk

What `setLayout` writes: the entry of the partition, which tells its start and its size, and for a
logical partition behind another one the link to its boot record.
-/

namespace EsOs.Kernel

open EsOs.Lib

theorem toWord_of_lt {n : Int} (hlow : 0 ≤ n) (hhigh : n < 4294967296) :
    (toWord n : Int) = n := by
  unfold toWord
  rw [Int.emod_eq_of_lt hlow hhigh, Int.toNat_of_nonneg hlow]

namespace BootDisk

variable {disk : BootDisk} {offset o : Nat} {r : BootRecord}

@[simp] theorem write_self : disk.write offset r offset = r := if_pos rfl

theorem write_of_ne (h : o ≠ offset) : disk.write offset r o = disk o := if_neg h

end BootDisk

namespace BootRecord

variable {r : BootRecord} {i j : Nat} {e : Entry}

@[simp] theorem set_signature : (r.set i e).signature = r.signature := rfl

@[simp] theorem set_entry_self : (r.set i e).entry i = e := if_pos rfl

theorem set_entry_of_ne (h : j ≠ i) : (r.set i e).entry j = r.entry j := if_neg h

end BootRecord

namespace PartitionContext

variable {c c' : PartitionContext} {s t : PartitionStream} {type : PartitionType} {id : Nat}
  {p : Partition}

/-- No two streams of the list have the same name. -/
def Keyed (l : List PartitionStream) : Prop :=
  l.Pairwise fun s t => ¬ (s.type = t.type ∧ s.id = t.id)

theorem lookup_some (h : c.lookup type id = some s) :
    s ∈ c.partitionList ∧ s.type = type ∧ s.id = id := by
  have hmem := List.mem_of_find?_eq_some h
  have hkey := List.find?_some h
  simp only [Bool.and_eq_true, beq_iff_eq] at hkey
  exact ⟨hmem, hkey.1.2, hkey.1.1⟩

theorem Keyed.eq {l : List PartitionStream} (h : Keyed l) (hs : s ∈ l) (ht : t ∈ l)
    (htype : s.type = t.type) (hid : s.id = t.id) : s = t := by
  have hsymm : Std.Symm fun s t : PartitionStream => ¬ (s.type = t.type ∧ s.id = t.id) :=
    ⟨fun _ _ hst hts => hst ⟨hts.1.symm, hts.2.symm⟩⟩
  refine Classical.byContradiction fun hne => ?_
  exact List.Pairwise.forall h hs ht hne ⟨htype, hid⟩

theorem lookup_of_mem (h : Keyed c.partitionList) (hs : s ∈ c.partitionList)
    (htype : s.type ≠ .empty) : c.lookup s.type s.id = some s := by
  cases hfind : c.lookup s.type s.id with
  | none =>
    have := List.find?_eq_none.mp hfind s hs
    simp [htype] at this
  | some t =>
    obtain ⟨ht, htt, hti⟩ := lookup_some hfind
    rw [h.eq ht hs htt hti]

theorem lookup_eq_none (h : ∀ t ∈ c.partitionList, ¬ (t.type = type ∧ t.id = id)) :
    c.lookup type id = none := by
  refine List.find?_eq_none.mpr fun t ht => ?_
  have := h t ht
  simp only [Bool.and_eq_true, beq_iff_eq]
  exact fun hkey => this ⟨hkey.1.2, hkey.1.1⟩

/-- What `setEntry` takes from the layout. -/
theorem setEntry_spec {second : Bool} {e : Entry} (h : c.setEntry s p second = some e) :
    e.boot = p.bootIndicator ∧ e.system = p.partitionType ∧
      e.totalSectors = toWord (p.partitionLength.tdiv c.geometry.bytesPerSector) ∧
      (s.type ≠ .logical →
        e.startingSector = toWord (p.startingOffset.tdiv c.geometry.bytesPerSector)) ∧
      (s.type = .logical → second = false → e.startingSector =
        wordSub (toWord (p.startingOffset.tdiv c.geometry.bytesPerSector))
          (word (s.br / c.geometry.bytesPerSector))) ∧
      (s.type = .logical → second = true → ∃ ext, c.lookup .extended 0 = some ext ∧
        e.startingSector = wordSub (toWord (p.startingOffset.tdiv c.geometry.bytesPerSector))
          (word (ext.offset / c.geometry.bytesPerSector))) := by
  unfold setEntry at h
  simp only at h
  split at h
  · cases h
  split at h
  · rename_i hlogical
    split at h
    · rename_i hsecond
      split at h
      · cases h
      · rename_i ext hext
        cases h
        refine ⟨rfl, rfl, rfl, fun hne => absurd hlogical hne, fun _ hfirst => ?_,
          fun _ _ => ⟨ext, hext, rfl⟩⟩
        rw [hsecond] at hfirst
        cases hfirst
    · rename_i hfirst
      cases h
      exact ⟨rfl, rfl, rfl, fun hne => absurd hlogical hne, fun _ _ => rfl, fun _ hsecond =>
        absurd hsecond hfirst⟩
  · rename_i hother
    cases h
    exact ⟨rfl, rfl, rfl, fun _ => rfl, fun hl => absurd hl hother, fun hl => absurd hl hother⟩

/-- What `setLink` does: nothing, or it writes the second entry of the boot record before. -/
theorem setLink_spec {linked : PartitionContext} (h : c.setLink s p = some linked) :
    linked.geometry = c.geometry ∧ linked.partitionList = c.partitionList ∧
      (((s.type ≠ .logical ∨ ∀ i, s.parent ≠ some (.logical, i)) ∧ linked = c) ∨
        ∃ i parent e, s.type = .logical ∧ s.parent = some (.logical, i) ∧
          c.lookup .logical i = some parent ∧
          c.setEntry s (linkLayout (parent.offset + parent.size) p) true = some e ∧
          linked.disk = c.disk.write parent.br ((c.disk parent.br).set 1 e)) := by
  unfold setLink at h
  split at h
  · rename_i i htype hparent
    split at h
    · cases h
    rename_i offsetEPBR hoffset
    obtain ⟨parent, hlookup, hepbr⟩ := Option.bind_eq_some_iff.mp hoffset
    have hp := lookup_some hlookup
    unfold setParentEPBR at h
    rw [hparent] at h
    simp only [hlookup] at h
    split at h
    · split at h
      · cases h
      · rename_i e hset
        cases h
        have hend : offsetEPBR = parent.offset + parent.size := by
          unfold getEPBROffset at hepbr
          rw [hp.2.1] at hepbr
          exact (Option.some.inj hepbr).symm
        rw [hend] at hset
        exact ⟨rfl, rfl, .inr ⟨i, parent, e, htype, hparent, hlookup, hset, rfl⟩⟩
    · cases h
  · rename_i hno
    cases h
    refine ⟨rfl, rfl, .inl ⟨?_, rfl⟩⟩
    by_cases htype : s.type = .logical
    · exact .inr fun i hparent => hno i htype hparent
    · exact .inl htype

/-- The stream after its entry was written. -/
def laidOut (g : Geometry) (s : PartitionStream) (e : Entry) : PartitionStream :=
  { s with
    boot := e.boot
    system := e.system
    offset := s.br + g.bytesPerSector * e.startingSector
    size := g.bytesPerSector * e.totalSectors }

/-- What a `setLayout` that goes through has done. -/
theorem setLayout?_spec (h : c.setLayout? type id p = some c') :
    ∃ s e entryNo linked, c.lookup type id = some s ∧
      c.checkPartition s (adjust c.geometry s p) = true ∧
      (c.disk s.br).signature = MBR_SIGNATURE ∧ c.getEntry type id = some entryNo ∧
      c.setEntry s (adjust c.geometry s p) false = some e ∧
      c.setLink s (adjust c.geometry s p) = some linked ∧
      c'.geometry = c.geometry ∧
      c'.disk = linked.disk.write s.br ((c.disk s.br).set entryNo e) ∧
      c'.partitionList = c.partitionList.map fun t =>
        if t.type = type ∧ t.id = id then laidOut c.geometry t e else t := by
  unfold setLayout? at h
  split at h
  · cases h
  rename_i s hs
  simp only at h
  split at h
  · rename_i hcheck
    split at h
    · rename_i entryNo e hentry hset
      split at h
      · cases h
      · rename_i linked hlink
        cases h
        obtain ⟨hg, hl, -⟩ := setLink_spec hlink
        refine ⟨s, e, entryNo, linked, hs, hcheck.1, hcheck.2, hentry, hset, hlink, hg, rfl, ?_⟩
        show linked.partitionList.map _ = _
        rw [hl]
        rfl
    · cases h
  · cases h

end PartitionContext

end EsOs.Kernel
