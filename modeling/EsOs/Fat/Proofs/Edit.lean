import EsOs.Fat.Proofs.Cluster
import Mathlib.Data.List.Nodup
import Mathlib.Tactic.Common

/-!
# What an edited chain leaves as it was

Every call changes the table by replacing one chain by another. Such an edit keeps the other chains,
keeps `freeCount` right, and loses no cluster.
-/

namespace EsOs.Fat

open EsOs.Lib

namespace FatFileSystem

variable {s s' : FatFileSystem} {n m c clus : Nat} {l l' k : List Nat}

/-- The entry of a node is the next node or an end mark. -/
theorem ChainFrom.entry_ne_zero (h : s.WellFormed) (hc : s.ChainFrom n l) (hm : m ∈ l) :
    s.clusEntryVal m ≠ 0 := by
  obtain ⟨l₁, l₂, rfl⟩ := List.append_of_mem hm
  have hrest := hc.chain.suffix.head.2
  cases l₂ with
  | nil =>
    obtain ⟨t, ht, hend⟩ := hrest.ends
    have := (Bpb.isEof_iff h).mp hend
    have : s.clusEntryVal m = t := ht
    omega
  | cons a l₂ =>
    have := hc.low a (by simp)
    have := hrest.head.1
    omega

/-- The zero entries and a chain. -/
def zeroList (s : FatFileSystem) : List Nat :=
  (List.range' 2 s.countOfClusters).filter fun c => s.clusEntryVal c == 0

theorem mem_zeroList : c ∈ s.zeroList ↔ s.IsCluster c ∧ s.clusEntryVal c = 0 := by
  unfold zeroList Bpb.IsCluster
  rw [List.mem_filter, List.mem_range'_1, beq_iff_eq]
  omega

theorem zeroEntries_eq (s : FatFileSystem) : s.zeroEntries = s.zeroList.length :=
  List.countP_eq_length_filter

theorem nodup_zeroList_append (hn : l.Nodup) (hz : ∀ c ∈ l, s.clusEntryVal c ≠ 0) :
    (s.zeroList ++ l).Nodup := by
  have hrange : (List.range' 2 s.countOfClusters).Nodup := by simp [List.nodup_range']
  refine List.nodup_append.mpr ⟨List.Nodup.filter _ hrange, hn, ?_⟩
  rintro a ha b hb rfl
  exact hz a hb (mem_zeroList.mp ha).2

/-- Zero entries and the nodes of a chain are different clusters. -/
theorem zeroEntries_add_le (hn : l.Nodup) (hz : ∀ c ∈ l, s.clusEntryVal c ≠ 0)
    (hl : ∀ c ∈ l, s.IsCluster c) : s.zeroEntries + l.length ≤ s.countOfClusters := by
  have hsub : s.zeroList ++ l ⊆ List.range' 2 s.countOfClusters := by
    intro c hc
    rw [List.mem_range'_1]
    rcases List.mem_append.mp hc with hc | hc
    · have := (mem_zeroList.mp hc).1
      unfold Bpb.IsCluster at this
      omega
    · have := hl c hc
      unfold Bpb.IsCluster at this
      omega
  have hlen := (List.subperm_of_subset (nodup_zeroList_append hn hz) hsub).length_le
  rwa [List.length_append, List.length_range', ← zeroEntries_eq] at hlen

namespace Edited

/-- The zero entries of the two tables, each with its chain, are the same clusters. -/
theorem zeroEntries (he : Edited s s' l l') (hn : l.Nodup) (hn' : l'.Nodup)
    (hl : ∀ c ∈ l, s.IsCluster c ∧ s.clusEntryVal c ≠ 0)
    (hl' : ∀ c ∈ l', s.IsCluster c ∧ s'.clusEntryVal c ≠ 0) :
    s'.zeroEntries + l'.length = s.zeroEntries + l.length := by
  have hperm : List.Perm (s'.zeroList ++ l') (s.zeroList ++ l) := by
    refine (List.perm_ext_iff_of_nodup
      (nodup_zeroList_append hn' fun c hc => (hl' c hc).2)
      (nodup_zeroList_append hn fun c hc => (hl c hc).2)).mpr fun c => ?_
    rw [List.mem_append, List.mem_append, mem_zeroList, mem_zeroList, he.bpb]
    constructor
    · rintro (⟨hc, h0⟩ | hc)
      · by_cases hcl : c ∈ l
        · exact .inr hcl
        · by_cases hcl' : c ∈ l'
          · exact absurd h0 (hl' c hcl').2
          · exact .inl ⟨hc, (he.kept c hc.2 hcl hcl').symm.trans h0⟩
      · by_cases hcl : c ∈ l
        · exact .inr hcl
        · exact .inl ⟨(hl' c hc).1, he.joined c hc hcl⟩
    · rintro (⟨hc, h0⟩ | hc)
      · by_cases hcl' : c ∈ l'
        · exact .inr hcl'
        · by_cases hcl : c ∈ l
          · exact absurd h0 (hl c hcl).2
          · exact .inl ⟨hc, (he.kept c hc.2 hcl hcl').trans h0⟩
      · by_cases hcl' : c ∈ l'
        · exact .inr hcl'
        · exact .inl ⟨(hl c hc).1, he.left c hc hcl'⟩
  have hlen := hperm.length_eq
  rwa [List.length_append, List.length_append, ← zeroEntries_eq, ← zeroEntries_eq] at hlen

/-- A chain apart from the old one is apart from the new one, and stays as it is. -/
theorem chain_apart (h : s.WellFormed) (he : Edited s s' l l') (hk : s.ChainFrom n k)
    (hd : ∀ c ∈ k, c ∉ l) : s'.ChainFrom n k ∧ ∀ c ∈ k, c ∉ l' := by
  have hd' : ∀ c ∈ k, c ∉ l' := fun c hc hcl' =>
    hk.entry_ne_zero h hc (he.joined c hcl' (hd c hc))
  exact ⟨hk.congr h he.bpb fun m hm hle => he.kept m hle (hd m hm) (hd' m hm), hd'⟩

end Edited

/-- A freed chain gives way to no chain. -/
theorem Freed.edited (hf : Freed s s' l) (hl : ∀ c ∈ l, c ≤ s.countOfClusters + 1) :
    Edited s s' l [] where
  bpb := hf.bpb
  kept m hm hml _ := by rw [hf.entries m hm, if_neg hml]
  joined := by simp
  left c hc _ := by rw [hf.entries c (hl c hc), if_pos hc]
  reservedZero := by simp
  freeCount := hf.freeCount

/-- An allocated chain takes the place of no chain. -/
theorem Allocated.edited (ha : Allocated s s' n clus l) : Edited s s' [] l where
  bpb := ha.bpb
  kept m hm _ hml := ha.entries m hm hml
  joined c hc _ := ha.free c hc
  left := by simp
  reservedZero c hc := (ha.marked c hc).2
  freeCount := by
    rw [ha.length, List.length_nil]
    exact ha.freeCount

/-- After a failed allocation, any chain has given way to itself. -/
theorem Restored.edited (hr : Restored s s')
    (hl : ∀ c ∈ l, c ≤ s.countOfClusters + 1 ∧ s.clusEntryVal c < 0x10000000) :
    Edited s s' l l where
  bpb := hr.bpb
  kept m hm _ _ := hr.entries m hm
  joined c hc hcl := absurd hc hcl
  left c hc hcl := absurd hc hcl
  reservedZero c hc := by
    rw [hr.entries c (hl c hc).1]
    exact (hl c hc).2
  freeCount := by rw [hr.freeCount]

end FatFileSystem

end EsOs.Fat
