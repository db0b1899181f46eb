import EsOs.Fat.Proofs.Accounting

/-!
# The size of a stream and the length of its chain

On a volume in order, a stream whose chain is as long as its size says keeps that relation through
every `setSize` whose 32-bit sums do not wrap, and a call that runs out of space leaves no trace.
-/

namespace EsOs.Fat

namespace FatStream

variable {f : FatStream} {s : FatFileSystem} {l l' : List Nat} {newSize : Nat}

/-- The size that `setSize` is to record: a directory takes whole clusters. -/
def sizeFor (f : FatStream) (s : Bpb) (newSize : Nat) : Nat :=
  if f.isDirectory then s.clustersFor newSize * s.bytsPerClus else newSize

/-- The 32-bit sums of `setSize` do not wrap: of the old size when it grows, and of a new size that
    is rounded up. -/
structure Unwrapped (f : FatStream) (s : Bpb) (newSize : Nat) : Prop where
  old : f.size < f.sizeFor s newSize → f.size + s.bytsPerClus ≤ 4294967296
  rounded : f.isDirectory = true → newSize + s.bytsPerClus ≤ 4294967296

theorem roundSize_eq (h : s.WellFormed) (hu : f.Unwrapped s.toBpb newSize) :
    f.roundSize s.toBpb newSize = f.sizeFor s.toBpb newSize := by
  have hpos := h.clus_pos
  unfold roundSize sizeFor
  split
  · rename_i hd
    have := hu.rounded hd
    rw [Bpb.clusterMask_eq h (by omega)]
    rfl
  · rfl

/-- Whole clusters need no more clusters than the size they were rounded up from. -/
theorem clustersFor_sizeFor (h : s.WellFormed) (f : FatStream) (newSize : Nat) :
    s.clustersFor (f.sizeFor s.toBpb newSize) = s.clustersFor newSize := by
  have hpos := h.clus_pos
  unfold sizeFor
  split
  · show (s.clustersFor newSize * s.bytsPerClus + s.bytsPerClus - 1) / s.bytsPerClus = _
    rw [show s.clustersFor newSize * s.bytsPerClus + s.bytsPerClus - 1 =
      s.bytsPerClus - 1 + s.clustersFor newSize * s.bytsPerClus by omega,
      Nat.add_mul_div_right _ _ hpos, Nat.div_eq_of_lt (by omega), Nat.zero_add]
  · rfl

/-- Without a wrap, the clusters to add are those that the new size has more. -/
theorem growBy_eq (h : s.WellFormed) (hold : f.size + s.bytsPerClus ≤ 4294967296)
    {new : Nat} (hnew : new < 4294967296) (hlt : f.size < new) :
    f.growBy s.toBpb new = s.clustersFor new - s.clustersFor f.size := by
  have hpos := h.clus_pos
  have hle : s.clustersFor new ≤ new := by
    rw [Bpb.clustersFor_eq h (by omega)]
    have := Nat.div_le_self (new - 1) s.bytsPerClus
    omega
  have hmono := Bpb.clustersFor_mono s.toBpb (Nat.le_of_lt hlt)
  have hquot : u32 ((new + s.bytsPerClus - 1) / s.bytsPerClus) = s.clustersFor new :=
    u32_of_lt (Nat.lt_of_le_of_lt hle hnew)
  unfold growBy
  rw [Bpb.clustersOf_eq h hold, hquot, sub32_of_le hmono]

/-- A chain as long as the old size says becomes one as long as the new size says. -/
theorem Reshaped.length (h : s.WellFormed) {new : Nat}
    (hold : f.size < new → f.size + s.bytsPerClus ≤ 4294967296) (hnew : new < 4294967296)
    (hlen : l.length = s.clustersFor f.size)
    (hr : f.Reshaped s l l' new) :
    l'.length = s.clustersFor new ∧
      l'.take (min l.length l'.length) = l.take (min l.length l'.length) := by
  rcases hr with ⟨heq, rfl⟩ | ⟨hlt, k, hk, rfl⟩ | ⟨hlt, rfl⟩
  · exact ⟨heq ▸ hlen, rfl⟩
  · have hmono := Bpb.clustersFor_mono s.toBpb (Nat.le_of_lt hlt)
    rw [growBy_eq h (hold hlt) hnew hlt] at hk
    rw [List.length_append]
    refine ⟨by omega, ?_⟩
    rw [Nat.min_eq_left (Nat.le_add_right _ _), List.take_append_of_le_length (Nat.le_refl _)]
  · have hmono := Bpb.clustersFor_mono s.toBpb (Nat.le_of_lt hlt)
    rw [List.length_take, Nat.min_eq_left (by omega : s.clustersFor new ≤ l.length),
      Nat.min_eq_right (by omega : s.clustersFor new ≤ l.length), List.take_take, Nat.min_self]
    exact ⟨rfl, rfl⟩

end FatStream

/-- On a volume in order, `setSize` of a stream with the chain its size says ends in one of three
    ways: the chain and the recorded size are those of the new size, in whole clusters for a
    directory; or there is not enough space, and the table, the count and the stream are as they
    were; or it is a directory that may not have this size, and nothing happened. -/
theorem setSize_chain {v : Volume} (hm : v.Mounted) {f : FatStream} (hf : f ∈ v.streams)
    {l : List Nat} (hc : f.ChainOf v.fs l) (hlen : l.length = v.fs.clustersFor f.size)
    (ha : v.fs.Allocatable f.isDirectory) {newSize : Nat} (hnew : newSize < 4294967296)
    (hu : f.Unwrapped v.fs.toBpb newSize) :
    ∃ err s' f', f.setSize v.fs newSize = some (err, s', f') ∧
      match err with
      | none =>
        f'.size = f.sizeFor v.fs.toBpb newSize ∧
        (f.size ≠ f'.size ∨ f.fcbFileSize = f.size → f'.fcbFileSize = f'.size) ∧
        ∃ l', f'.ChainOf s' l' ∧ l'.length = v.fs.clustersFor newSize ∧
          l'.take (min l.length l'.length) = l.take (min l.length l'.length)
      | some .enospc =>
        (∀ c ≤ v.fs.countOfClusters + 1, s'.clusEntryVal c = v.fs.clusEntryVal c) ∧
        s'.freeCount = v.fs.freeCount ∧ f' = f
      | some .einval =>
        f.refused v.fs.toBpb (f.sizeFor v.fs.toBpb newSize) = true ∧ s' = v.fs ∧ f' = f := by
  have hg := hm.geometry
  obtain ⟨i, hi⟩ := List.mem_iff_getElem?.mp hf
  obtain ⟨l₀, hc₀, hr, hcount⟩ := hm.stream hi
  obtain rfl := hc.unique hc₀
  have hround := FatStream.roundSize_eq hg hu
  have hfor := FatStream.clustersFor_sizeFor hg f newSize
  have hok : f.Accepts v.fs.toBpb newSize →
      f.Resizable v.fs l (f.roundSize v.fs.toBpb (newSize : Int).toNat) := by
    refine fun _ => ⟨fun _ _ _ => ⟨ha, hlen⟩, fun hlt => ?_⟩
    rw [hlen]
    exact Bpb.clustersFor_mono _ (Nat.le_of_lt hlt)
  obtain ⟨err, s', f', hset, hend⟩ :=
    FatStream.setSize_spec hg hm.reservedZero hcount hc hr hok
  rw [Int.toNat_natCast, hround] at hend
  refine ⟨err, s', f', hset, ?_⟩
  rcases hend with ⟨rfl, hno, rfl, rfl⟩ | ⟨rfl, -, rfl, hrest⟩ | ⟨rfl, -, l', hres, hshape⟩
  · refine ⟨?_, rfl, rfl⟩
    cases hrefused : f'.refused v.fs.toBpb (f'.sizeFor v.fs.toBpb newSize) with
    | true => rfl
    | false =>
      refine absurd ⟨by omega, by omega, ?_⟩ hno
      rw [Int.toNat_natCast, hround]
      exact hrefused
  · exact ⟨hrest.entries, hrest.freeCount, rfl⟩
  · have hsize : f.sizeFor v.fs.toBpb newSize < 4294967296 := by
      have := hres.ready.size
      rwa [hres.size] at this
    obtain ⟨hlen', hfirst⟩ := hshape.length hg hu.old hsize hlen
    rw [hfor] at hlen'
    refine ⟨hres.size, fun hx => ?_, l', hres.chain, hlen', hfirst⟩
    rw [hres.size] at hx ⊢
    exact hres.recorded hx

/-- The file of one byte with the one cluster it needs. -/
def fitting : Volume :=
  tinyVolume [0xf8, 0xff, 0xff, 0xff, 0x0f, 0x00, 0x00, 0x00] 2 oneByte

theorem fitting_chain : oneByte.ChainOf fitting.fs [2] :=
  .inr ⟨by decide, ⟨by decide, 0xfff, ⟨rfl, (by decide : fitting.fs.clusEntryVal 2 = 0xfff)⟩,
    by decide⟩, by decide, by decide⟩

theorem fitting_mounted : fitting.Mounted :=
  tinyVolume_mounted (by decide) fitting_chain ⟨by decide, .inr (.inr ⟨0, rfl, rfl⟩)⟩ (by decide)

/-- One byte more than a cluster holds makes a chain of two clusters. -/
theorem setSize_chain_two :
    ∃ s' f', oneByte.setSize fitting.fs 513 = some (none, s', f') ∧ f'.size = 513 ∧
      ∃ l', f'.ChainOf s' l' ∧ l'.length = 2 ∧ l'.take 1 = [2] := by
  obtain ⟨err, s', f', hset, hend⟩ := setSize_chain fitting_mounted (.head _) fitting_chain
    (by decide) ⟨fun n h2 hn => absurd hn (Nat.not_lt.mpr h2), nofun⟩
    (show 513 < 4294967296 by decide) ⟨by decide, nofun⟩
  have herr : (oneByte.setSize fitting.fs 513).map (fun r => r.1) = some none := by
    decide +kernel
  rw [show ((513 : Nat) : Int) = 513 from rfl] at hset
  rw [hset] at herr
  cases Option.some.inj herr
  obtain ⟨hsize, -, l', hc, hlen, hfirst⟩ := hend
  have hlen : l'.length = 2 := hlen
  rw [hlen] at hfirst
  exact ⟨s', f', hset, hsize, l', hc, hlen, hfirst⟩

/-- A directory of one cluster. -/
def oneCluster : FatStream :=
  { oneByte with isDirectory := true, size := 512, fcbFileSize := 0 }

/-- The volume with the directory in place of the file. -/
def directory : Volume :=
  { fitting with streams := [oneCluster] }

/-- A directory does not record the size it is given but whole clusters. -/
theorem setSize_rounds_directory :
    directory.Mounted ∧ oneCluster ∈ directory.streams ∧
      (∃ l, oneCluster.ChainOf directory.fs l ∧
        l.length = directory.fs.clustersFor oneCluster.size) ∧
      (oneCluster.setSize directory.fs 1).map (fun r => (r.1, r.2.2.size)) = some (none, 512) := by
  have hc : oneCluster.ChainOf directory.fs [2] := fitting_chain
  refine ⟨?_, .head _, ⟨[2], hc, by decide⟩, by decide +kernel⟩
  exact tinyVolume_mounted (f := oneCluster) (by decide) hc
    ⟨by decide, .inr (.inr ⟨0, rfl, rfl⟩)⟩ (by decide)

end EsOs.Fat
