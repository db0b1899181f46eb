import EsOs.Fat.Proofs.FileSize

/-!
# When there is space

On a volume whose count of free clusters is right, the scan of `allocCluster` passes every cluster
before it gives up, so that an allocation fails just where the count is too small. A directory
grows, or fails to grow, by what it is asked to hold.
-/

namespace EsOs.Fat

namespace FatFileSystem

variable {s s₀ s' : FatFileSystem} {n clus prev : Nat} {zero : Bool} {l : List Nat}

/-- The scan from `p` on comes to the cluster `c` within `turns` turns. -/
def Ahead (s : Bpb) (p turns c : Nat) : Prop :=
  ∃ d < turns, c = p + d ∨ c + s.countOfClusters = p + d

/-- A turn passes one cluster. -/
theorem Ahead.next {b : Bpb} {p p' turns c : Nat} (hc : b.IsCluster c) (hne : c ≠ p)
    (hnext : p' = if b.countOfClusters + 1 < p + 1 then 2 else p + 1)
    (hp : p ≤ b.countOfClusters + 1) (ha : Ahead b p (turns + 1) c) : Ahead b p' turns c := by
  obtain ⟨d, hd, hplace⟩ := ha
  obtain ⟨hlow, hhigh⟩ := hc
  refine ⟨d - 1, ?_, ?_⟩
  · omega
  · split at hnext <;> omega

/-- In a whole round the scan comes to every cluster. -/
theorem ahead_round {b : Bpb} {p c : Nat} (hlow : 2 ≤ p) (hp : p ≤ b.countOfClusters + 1)
    (hc : b.IsCluster c) : Ahead b p b.countOfClusters c := by
  obtain ⟨hc2, hce⟩ := hc
  by_cases hle : p ≤ c
  · exact ⟨c - p, by omega, .inl (by omega)⟩
  · exact ⟨c + b.countOfClusters - p, by omega, .inr (by omega)⟩

/-- Where a turn that starts at `nxtFree` looks. -/
theorem scanStart_place (h : s₀.WellFormed) (hb : s.toBpb = s₀.toBpb) (hlow : 2 ≤ s.nxtFree) :
    s.scanStart.nxtFree = (if s₀.countOfClusters + 1 < s.nxtFree then 2 else s.nxtFree) ∧
      2 ≤ s.scanStart.nxtFree ∧ s.scanStart.nxtFree ≤ s₀.countOfClusters + 1 := by
  have hsome := h.someCluster
  have heof : s.isEof s.nxtFree = true ↔ s₀.countOfClusters + 1 < s.nxtFree := by
    rw [hb]
    exact Bpb.isEof_iff h
  unfold scanStart
  split
  · rename_i hend
    rw [if_pos (heof.mp hend)]
    exact ⟨rfl, Nat.le_refl 2, by show 2 ≤ _; omega⟩
  · rename_i hend
    have hle := Nat.not_lt.mp (hend ∘ heof.mpr)
    rw [if_neg (Nat.not_lt.mpr hle)]
    exact ⟨rfl, hlow, hle⟩

/-- While the clusters `L` are free and ahead, the loop finds as many. -/
theorem allocLoop_finds (h : s₀.WellFormed)
    (hzero : zero = true → ∀ c, s₀.IsCluster c → s₀.clusEntryVal c = 0 → s₀.ZeroedOff c)
    {fuel count : Nat} (ht : Taken s₀ s clus prev l) (hlow : 2 ≤ s.nxtFree)
    (hscan : count ≤ s₀.countOfClusters) (hn : n ≤ s.freeCount) (hl : n = 0 → l ≠ [])
    {L : List Nat} (hnodup : L.Nodup) (hlen : L.length = n)
    (hfree : ∀ c ∈ L, s₀.IsCluster c ∧ s₀.clusEntryVal c = 0 ∧ c ∉ l ∧
      Ahead s₀.toBpb s.scanStart.nxtFree (s₀.countOfClusters - count) c)
    {clus' : Nat} (hloop : allocLoop zero fuel s n clus prev count = some (clus', s')) :
    s₀.isEof clus' = false := by
  induction fuel generalizing s n clus prev count l L with
  | zero => cases hloop
  | succ fuel ih =>
    rw [allocLoop] at hloop
    split at hloop
    · rename_i h0
      cases hloop
      obtain ⟨l', hl', hchain⟩ := ht.chain.resolve_left fun hnil => hl h0 hnil.1
      rw [Bool.eq_false_iff]
      refine (Bpb.not_isEof h).mpr (ht.free clus' ?_).1.2
      cases l with
      | nil => exact absurd rfl (hl h0)
      | cons a l => exact hchain.head.1 ▸ .head _
    rename_i h0
    -- some cluster is ahead, so that this is not the last turn
    have hgo : count < s₀.countOfClusters := by
      obtain ⟨c, hc⟩ := List.exists_mem_of_length_pos (show 0 < L.length by omega)
      obtain ⟨d, hd, -⟩ := (hfree c hc).2.2.2
      omega
    obtain ⟨-, hlow', hhigh'⟩ := scanStart_place h ht.bpb hlow
    have hts := (scanStart_spec h ht fun m hm hm2 => absurd hm2 (by omega)).1
    have hns : n ≤ s.scanStart.freeCount := by
      unfold scanStart
      split <;> exact hn
    simp only at hloop
    generalize s.scanStart = t at hloop hfree hlow' hhigh' hts hns
    have hmore : ¬ s₀.countOfClusters < count + 1 := by omega
    -- where the next turn looks
    have hplace : ∀ t' : FatFileSystem, t'.toBpb = s₀.toBpb → t'.nxtFree = t.nxtFree + 1 →
        ∀ c, s₀.IsCluster c → c ≠ t.nxtFree →
          Ahead s₀.toBpb t.nxtFree (s₀.countOfClusters - count) c →
          Ahead s₀.toBpb t'.scanStart.nxtFree (s₀.countOfClusters - (count + 1)) c := by
      intro t' hb hnext c hc hne hahead
      have hstart := (scanStart_place h hb (by omega)).1
      rw [hnext] at hstart
      refine Ahead.next hc hne hstart hhigh' ?_
      rwa [show s₀.countOfClusters - (count + 1) + 1 = s₀.countOfClusters - count by omega]
    have hnext : u32 (t.nxtFree + 1) = t.nxtFree + 1 := by
      have := h.clusters
      exact u32_of_lt (by omega)
    split at hloop
    · rename_i hfound
      have hc : s₀.IsCluster t.nxtFree := ⟨hlow', hhigh'⟩
      have hold : s₀.clusEntryVal t.nxtFree = 0 := by
        rw [← hts.entries _ hhigh' (hts.not_mem hfound), hfound]
      have htake := hts.takeFree h hc hfound (fun hz => hzero hz _ hc hold) (by omega)
      have hsame : (t.takeFree zero prev).nxtFree = t.nxtFree := by simp [takeFree]
      have hb := htake.bpb
      rw [show t.countOfClusters = s₀.countOfClusters by rw [hts.bpb], if_neg hmore] at hloop
      -- the cluster taken, or any other one, leaves the list
      obtain ⟨L', hnodup', hlen', hsub⟩ : ∃ L' : List Nat, L'.Nodup ∧ L'.length = n - 1 ∧
          ∀ c ∈ L', c ∈ L ∧ c ≠ t.nxtFree := by
        by_cases hmem : t.nxtFree ∈ L
        · refine ⟨L.erase t.nxtFree, hnodup.erase _, ?_, fun c hcm => ?_⟩
          · rw [List.length_erase_of_mem hmem, hlen]
          · exact ⟨List.mem_of_mem_erase hcm, fun heq => hnodup.not_mem_erase (heq ▸ hcm)⟩
        · refine ⟨L.tail, hnodup.tail, by rw [List.length_tail, hlen], fun c hcm => ?_⟩
          exact ⟨List.mem_of_mem_tail hcm, fun heq => hmem (heq ▸ List.mem_of_mem_tail hcm)⟩
      have hscan' : (t.takeFree zero prev).scanNext.nxtFree = t.nxtFree + 1 := by
        show u32 ((t.takeFree zero prev).nxtFree + 1) = _
        rw [hsame, hnext]
      have htake' := htake.nxtFree (u32 ((t.takeFree zero prev).nxtFree + 1))
      refine ih htake' ?_ hgo ?_ (fun _ => by simp) hnodup' hlen' (fun c hcm => ?_) hloop
      · show 2 ≤ (t.takeFree zero prev).scanNext.nxtFree
        omega
      · have h1 := htake.freeCount
        have h2 := hts.freeCount
        rw [List.length_append, List.length_singleton] at h1
        show n - 1 ≤ (t.takeFree zero prev).freeCount
        omega
      · obtain ⟨hcL, hne⟩ := hsub c hcm
        obtain ⟨hcl, hz, hnl, hahead⟩ := hfree c hcL
        refine ⟨hcl, hz, by simpa using ⟨hnl, hne⟩, ?_⟩
        exact hplace (t.takeFree zero prev).scanNext hb hscan' c hcl hne hahead
    · rename_i hused
      rw [show t.countOfClusters = s₀.countOfClusters by rw [hts.bpb], if_neg hmore] at hloop
      refine ih (s := t.scanNext) (hts.nxtFree _) ?_ hgo hns (fun hn0 => absurd hn0 h0) hnodup hlen
        (fun c hcm => ?_) hloop
      · show 2 ≤ u32 (t.nxtFree + 1)
        omega
      · obtain ⟨hcl, hz, hnl, hahead⟩ := hfree c hcm
        have hne : c ≠ t.nxtFree := by
          rintro rfl
          exact hused ((hts.entries _ hhigh' hnl).trans hz)
        exact ⟨hcl, hz, hnl, hplace t.scanNext hts.bpb hnext c hcl hne hahead⟩

theorem freeLoop_nxtFree {fuel clus : Nat} (hfree : freeLoop fuel s clus = some s') :
    s'.nxtFree = s.nxtFree := by
  induction fuel generalizing s clus with
  | zero => cases hfree
  | succ fuel ih =>
    rw [freeLoop] at hfree
    split at hfree
    · cases hfree
      rfl
    · exact (ih hfree).trans (setClusEntryVal_nxtFree s clus 0)

theorem freeCluster_nxtFree (hfree : s.freeCluster clus = some s') : s'.nxtFree = s.nxtFree := by
  unfold freeCluster at hfree
  split at hfree
  · exact freeLoop_nxtFree hfree
  · cases hfree
    rfl

/-- The scan never goes below the data area, and it finds what fits into 32 bits. -/
theorem allocLoop_range (h : s.WellFormed) {fuel count clus' : Nat} (hlow : 2 ≤ s.nxtFree)
    (hclus : clus < 4294967296)
    (hloop : allocLoop zero fuel s n clus prev count = some (clus', s')) :
    2 ≤ s'.nxtFree ∧ clus' < 4294967296 := by
  induction fuel generalizing s n clus prev count with
  | zero => cases hloop
  | succ fuel ih =>
    rw [allocLoop] at hloop
    split at hloop
    · cases hloop
      exact ⟨hlow, hclus⟩
    obtain ⟨-, hlow', hhigh'⟩ := scanStart_place h rfl hlow
    have hb : s.scanStart.toBpb = s.toBpb := by
      unfold scanStart
      split <;> rfl
    have := h.clusters
    simp only at hloop
    generalize s.scanStart = t at hloop hlow' hhigh' hb
    have hnext : u32 (t.nxtFree + 1) = t.nxtFree + 1 := u32_of_lt (by omega)
    have hsame : (t.takeFree zero prev).nxtFree = t.nxtFree := by simp [takeFree]
    have htaken : (t.takeFree zero prev).toBpb = t.toBpb := by simp [takeFree]
    -- whether the loop ends with a chain freed, or goes on at the next cluster
    have hfailed : ∀ {t' : FatFileSystem} {c : Nat}, t'.nxtFree = t.nxtFree →
        (t'.freeCluster c).map (fun s => (0xffffffff, s)) = some (clus', s') →
        2 ≤ s'.nxtFree ∧ clus' < 4294967296 := by
      intro t' c heq hmap
      obtain ⟨s'', hfree, hpair⟩ := Option.map_eq_some_iff.mp hmap
      cases hpair
      rw [freeCluster_nxtFree hfree, heq]
      exact ⟨hlow', by decide⟩
    split at hloop
    · split at hloop
      · exact hfailed hsame hloop
      · refine ih (s := (t.takeFree zero prev).scanNext) ?_ ?_ ?_ hloop
        · show (t.takeFree zero prev).WellFormed
          rw [htaken, hb]
          exact h
        · show 2 ≤ u32 ((t.takeFree zero prev).nxtFree + 1)
          rw [hsame, hnext]
          omega
        · split <;> omega
    · split at hloop
      · exact hfailed rfl hloop
      · refine ih (s := t.scanNext) (show t.WellFormed from hb ▸ h) ?_ hclus hloop
        show 2 ≤ u32 (t.nxtFree + 1)
        omega

theorem allocCluster_range (h : s.WellFormed) (hlow : 2 ≤ s.nxtFree)
    (halloc : s.allocCluster n zero = some (clus, s')) :
    2 ≤ s'.nxtFree ∧ clus < 4294967296 := by
  unfold allocCluster at halloc
  split at halloc
  · cases halloc
    exact ⟨hlow, by decide⟩
  · exact allocLoop_range h hlow (by decide) halloc

/-- A file system on which clusters can be allocated: the table is well formed, the hint for the
    next free cluster is a number of a cluster, and no cluster is cleared onto the table. -/
structure Usable (s : FatFileSystem) : Prop where
  geometry : s.WellFormed
  count : s.freeCount < 4294967296
  nxtFree : 2 ≤ s.nxtFree
  zeroed : ∀ c, s.IsCluster c → s.ZeroedOff c

namespace Usable

theorem allocatable (h : s.Usable) (zero : Bool) : s.Allocatable zero where
  reserved m hm hm2 := absurd hm2 (by have := h.nxtFree; omega)
  zeroed _ c hc _ := h.zeroed c hc

theorem of_bpb (h : s.Usable) (hb : s'.toBpb = s.toBpb) (hcount : s'.freeCount ≤ s.freeCount)
    (hlow : 2 ≤ s'.nxtFree) : s'.Usable where
  geometry := hb ▸ h.geometry
  count := Nat.lt_of_le_of_lt hcount h.count
  nxtFree := hlow
  zeroed := hb ▸ h.zeroed

/-- `allocCluster` returns, and what it leaves can be allocated from again. -/
theorem alloc (h : s.Usable) (n : Nat) (zero : Bool) :
    ∃ clus s', s.allocCluster n zero = some (clus, s') ∧ AllocResult s n clus s' ∧ s'.Usable := by
  obtain ⟨clus, s', halloc, hresult⟩ :=
    allocCluster_spec (n := n) h.geometry h.count fun _ _ => h.allocatable zero
  refine ⟨clus, s', halloc, hresult, ?_⟩
  have hlow := (allocCluster_range h.geometry h.nxtFree halloc).1
  rcases hresult with ⟨-, hrest⟩ | ⟨-, l, ha⟩
  · exact h.of_bpb hrest.bpb (Nat.le_of_eq hrest.freeCount) hlow
  · exact h.of_bpb ha.bpb (by have := ha.freeCount; omega) hlow

/-- Where the count is right, an allocation fails just when it asks for more. -/
theorem alloc_iff (h : s.Usable) (hfree : s.freeCount = s.zeroEntries) (hn : n ≠ 0)
    (halloc : s.allocCluster n zero = some (clus, s')) :
    s.isEof clus = true ↔ s.freeCount < n := by
  obtain ⟨clus', s'', halloc', hresult, -⟩ := h.alloc n zero
  cases halloc.symm.trans halloc'
  constructor
  · intro heof
    refine Nat.not_le.mp fun hle => ?_
    unfold allocCluster at halloc
    rw [if_neg (by omega)] at halloc
    -- the first clusters of the list of the free ones
    have hzeros : n ≤ s.zeroList.length := by
      rw [← zeroEntries_eq, ← hfree]
      exact hle
    have hnodup : s.zeroList.Nodup := by
      simpa using nodup_zeroList_append (s := s) (l := []) (by simp)
    have hplace := scanStart_place h.geometry rfl h.nxtFree
    have hfound := allocLoop_finds h.geometry (fun _ c hc _ => h.zeroed c hc)
      (Taken.start s) h.nxtFree (Nat.zero_le _) hle (fun h0 => absurd h0 hn)
      (hnodup.sublist (List.take_sublist n _)) (List.length_take_of_le hzeros)
      (fun c hc => by
        obtain ⟨hcl, hz⟩ := mem_zeroList.mp (List.mem_of_mem_take hc)
        exact ⟨hcl, hz, by simp, ahead_round hplace.2.1 hplace.2.2 hcl⟩) halloc
    rw [heof] at hfound
    cases hfound
  · intro hlt
    rcases hresult with ⟨heof, -⟩ | ⟨-, l, ha⟩
    · exact heof
    · have := ha.freeCount
      omega

end Usable

end FatFileSystem

namespace FatStream

open FatFileSystem

variable {f f' : FatStream} {s s' : FatFileSystem} {newSize : Nat} {err : Option Errno}

theorem getClusNum_isDirectory (f : FatStream) (s : FatFileSystem) (position : Nat) :
    (f.getClusNum s position).2.isDirectory = f.isDirectory := by
  rw [getClusNum_fields]

theorem getClusNum_isRoot (f : FatStream) (s : FatFileSystem) (position : Nat) :
    (f.getClusNum s position).2.isRoot = f.isRoot := by
  rw [getClusNum_fields]

/-- Linking new clusters touches the table and the stream alone. -/
theorem append_rest (f : FatStream) (s : FatFileSystem) (clus : Nat) :
    (f.append s clus).1.toBpb = s.toBpb ∧ (f.append s clus).1.freeCount = s.freeCount ∧
      (f.append s clus).1.nxtFree = s.nxtFree ∧
      (f.append s clus).2.isDirectory = f.isDirectory ∧ (f.append s clus).2.isRoot = f.isRoot := by
  unfold append
  split
  · refine ⟨rfl, rfl, rfl, getClusNum_isDirectory f s _, getClusNum_isRoot f s _⟩
  · exact ⟨rfl, rfl, rfl, rfl, rfl⟩

/-- The number of clusters that `setSize` takes. -/
def takes (f : FatStream) (s : Bpb) (newSize : Nat) : Nat :=
  if f.size < f.roundSize s newSize then f.growBy s (f.roundSize s newSize) else 0

/-- The stream got the size, for the clusters it takes. -/
structure Got (f : FatStream) (s : FatFileSystem) (newSize : Nat) (s' : FatFileSystem)
    (f' : FatStream) : Prop where
  size : f'.size = f.roundSize s.toBpb newSize
  isDirectory : f'.isDirectory = f.isDirectory
  isRoot : f'.isRoot = f.isRoot
  bpb : s'.toBpb = s.toBpb
  usable : s'.Usable
  freeCount : s'.freeCount + f.takes s.toBpb newSize = s.freeCount
  same : f.takes s.toBpb newSize = 0 → s' = s

/-- The three ways in which a `setSize` ends that does not make the stream smaller. -/
theorem setSize_ends (h : s.Usable) (hle : f.size ≤ f.roundSize s.toBpb newSize)
    (hset : f.setSize s newSize = some (err, s', f')) :
    (err = some .einval ∧ s' = s ∧ f' = f) ∨
      (err = some .enospc ∧ f' = f ∧ Restored s s' ∧ s'.Usable ∧ f.takes s.toBpb newSize ≠ 0 ∧
        ∃ clus s'', s.allocCluster (f.takes s.toBpb newSize) f.isDirectory = some (clus, s'') ∧
          s.isEof clus = true) ∨
      (err = none ∧ f.Got s newSize s' f') := by
  unfold setSize at hset
  split at hset
  · cases hset
    exact .inl ⟨rfl, rfl, rfl⟩
  simp only [Int.toNat_natCast] at hset
  split at hset
  · cases hset
    exact .inl ⟨rfl, rfl, rfl⟩
  refine .inr ?_
  split at hset
  · rename_i heq
    have htakes : f.takes s.toBpb newSize = 0 := if_neg (by omega)
    cases hset
    exact .inr ⟨rfl, heq, rfl, rfl, rfl, h, by rw [htakes]; rfl, fun _ => rfl⟩
  rename_i hne
  have hlt : f.size < f.roundSize s.toBpb newSize := by omega
  have htakes : f.takes s.toBpb newSize = f.growBy s.toBpb (f.roundSize s.toBpb newSize) :=
    if_pos hlt
  rw [if_pos hlt] at hset
  unfold grow at hset
  simp only [← htakes] at hset
  split at hset
  · rename_i h0
    cases hset
    exact .inr ⟨rfl, rfl, rfl, rfl, rfl, h, by rw [h0]; rfl, fun _ => rfl⟩
  rename_i h0
  obtain ⟨clus, s₁, halloc, hresult, husable⟩ := h.alloc (f.takes s.toBpb newSize) f.isDirectory
  rw [halloc, Option.map_some] at hset
  rcases hresult with ⟨heof, hrest⟩ | ⟨heof, l, ha⟩
  · rw [if_pos (by rw [hrest.bpb]; exact heof)] at hset
    cases hset
    exact .inl ⟨rfl, rfl, hrest, husable, h0, clus, _, halloc, heof⟩
  · rw [if_neg (by rw [ha.bpb, heof]; exact Bool.false_ne_true)] at hset
    obtain ⟨hb, hcount, hnext, hdir, hroot⟩ := f.append_rest s₁ clus
    cases hset
    refine .inr ⟨rfl, rfl, hdir, hroot, hb.trans ha.bpb, ?_, ?_, fun hx => absurd hx h0⟩
    · exact husable.of_bpb hb (Nat.le_of_eq hcount) (hnext ▸ husable.nxtFree)
    · rw [hcount]
      exact ha.freeCount

end FatStream

end EsOs.Fat
