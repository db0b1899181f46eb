import EsOs.Fat.Proofs.Edit

/-!
# The size of a stream

`getClusNum` finds the cluster of a position although it starts from where it was left last, and
`setSize` replaces the chain of the stream by a longer or a shorter one with the same first
clusters, or fails and changes nothing.
-/

namespace EsOs.Fat

open EsOs.Lib

namespace Bpb

variable {s : Bpb} {position size : Nat}

theorem WellFormed.clus_pos (h : s.WellFormed) : 0 < s.bytsPerClus := by
  obtain ⟨k, -, hk⟩ := h.cluster
  rw [hk]
  exact Nat.two_pow_pos k

theorem WellFormed.clus_lt (h : s.WellFormed) : s.bytsPerClus < 4294967296 := by
  obtain ⟨k, hlt, hk⟩ := h.cluster
  rw [hk]
  exact Nat.pow_lt_pow_right (n := 32) (by decide) hlt

/-- The mask takes a position down to the start of its cluster. -/
theorem clusterMask_eq (h : s.WellFormed) (hp : position < 4294967296) :
    s.clusterMask position = position / s.bytsPerClus * s.bytsPerClus := by
  obtain ⟨k, hlt, hk⟩ := h.cluster
  have hsplit : 2 ^ 32 = 2 ^ (32 - k) * 2 ^ k := by
    rw [← Nat.pow_add]
    congr 1
    omega
  have hmask : 4294967295 - (s.bytsPerClus - 1) = (2 ^ (32 - k) - 1) <<< k := by
    have hle : 0 < 2 ^ k := Nat.two_pow_pos k
    rw [hk, Nat.shiftLeft_eq, Nat.sub_mul, ← hsplit, Nat.one_mul]
    omega
  have hdiv : position / 2 ^ k < 2 ^ (32 - k) := by
    rw [Nat.div_lt_iff_lt_mul (Nat.two_pow_pos k), ← hsplit]
    exact hp
  unfold clusterMask
  rw [hmask, and_field, Nat.mod_eq_of_lt hdiv, hk]

theorem clustersFor_pos (h : s.WellFormed) (hs : 0 < size) : 0 < s.clustersFor size := by
  have := h.clus_pos
  exact Nat.div_pos (by omega) this

/-- The last byte of `size` bytes is in the last of their clusters. -/
theorem clustersFor_eq (h : s.WellFormed) (hs : 0 < size) :
    s.clustersFor size = (size - 1) / s.bytsPerClus + 1 := by
  unfold clustersFor
  rw [show size + s.bytsPerClus - 1 = size - 1 + s.bytsPerClus by omega,
    Nat.add_div_right _ h.clus_pos]

theorem clustersFor_zero (h : s.WellFormed) : s.clustersFor 0 = 0 := by
  have := h.clus_pos
  exact Nat.div_eq_of_lt (by omega)

theorem clustersFor_mono (s : Bpb) {a b : Nat} (h : a ≤ b) : s.clustersFor a ≤ s.clustersFor b :=
  Nat.div_le_div_right (by omega)

/-- The 32-bit count is right as long as its sum does not wrap. -/
theorem clustersOf_eq (h : s.WellFormed) (hs : size + s.bytsPerClus ≤ 4294967296) :
    s.clustersOf size = s.clustersFor size := by
  have hpos := h.clus_pos
  unfold clustersOf clustersFor
  by_cases hlt : size + s.bytsPerClus < 4294967296
  · rw [u32_of_lt hlt, sub32_of_le (by omega)]
  · have heq : size + s.bytsPerClus = 4294967296 := by omega
    rw [heq]
    rfl

end Bpb

namespace FatStream

variable {f : FatStream} {s s' : FatFileSystem} {l l' : List Nat} {clus position : Nat}

/-- Following a chain over `i` links: a node of the chain, or an end mark. -/
theorem followLoop_spec {h : Nat}
    (hc : Chain s.clusEntryVal (fun c => s.isEof c = true) h (h :: l)) (i : Nat) :
    (∀ c, (h :: l)[i]? = some c → followLoop s i h = c) ∧
      ((h :: l).length ≤ i → s.isEof (followLoop s i h) = true) := by
  induction i generalizing h l with
  | zero => exact ⟨fun c hc => Option.some.inj hc, fun hi => absurd hi (by simp)⟩
  | succ i ih =>
    rw [followLoop]
    have hrest := hc.head.2
    cases l with
    | nil =>
      obtain ⟨t, ht, hend⟩ := hrest.ends
      have hstop : s.isEof (s.clusEntryVal h) = true := by
        rw [show s.clusEntryVal h = t from ht]
        exact hend
      rw [if_pos hstop]
      exact ⟨fun c hi => absurd hi (by simp), fun _ => hstop⟩
    | cons a l =>
      obtain ⟨ha, -⟩ := hrest.head
      have hgo := hrest.nodes a (.head _)
      rw [ha] at hrest ⊢
      rw [if_neg hgo]
      obtain ⟨hin, hout⟩ := ih hrest
      exact ⟨hin, fun hi => hout (Nat.le_of_succ_le_succ hi)⟩

/-- The same from the node at place `j` of the chain. -/
theorem followLoop_from {h : Nat} (hc : Chain s.clusEntryVal (fun c => s.isEof c = true) h l)
    {j : Nat} (hj : l[j]? = some clus) (i : Nat) :
    (∀ c, l[j + i]? = some c → followLoop s i clus = c) ∧
      (l.length ≤ j + i → s.isEof (followLoop s i clus) = true) := by
  obtain ⟨hlt, hget⟩ := List.getElem?_eq_some_iff.mp hj
  have hdrop : clus :: l.drop (j + 1) = l.drop j := by
    rw [← hget, List.getElem_cons_drop]
  have hsplit : l = l.take j ++ clus :: l.drop (j + 1) := by
    rw [hdrop, List.take_append_drop]
  have hsuffix : Chain s.clusEntryVal (fun c => s.isEof c = true) clus
      (clus :: l.drop (j + 1)) := by
    rw [hsplit] at hc
    exact hc.suffix
  obtain ⟨hin, hout⟩ := followLoop_spec hsuffix i
  rw [hdrop, List.getElem?_drop] at hin
  rw [hdrop, List.length_drop] at hout
  exact ⟨hin, fun hi => hout (by omega)⟩

/-- What `getClusNum` does: the cluster that holds the position, or an end mark beyond the chain,
    and a stream that remembers where it was. -/
theorem getClusNum_spec (h : s.WellFormed) (hc : f.ChainOf s l) (hr : f.Ready s l) {p : Nat}
    (hp : p < 4294967296) :
    (∀ c, l[p / s.bytsPerClus]? = some c → (f.getClusNum s p).1 = c) ∧
      (f.getClusNum s p).2.Ready s l ∧
      (f.getClusNum s p).2 = { f with
        lastPosition := (f.getClusNum s p).2.lastPosition
        lastClus := (f.getClusNum s p).2.lastClus } := by
  have hpos := h.clus_pos
  have hmask := Bpb.clusterMask_eq h hp
  unfold getClusNum
  rcases hc with ⟨h0, rfl⟩ | ⟨h0, hc⟩
  · rw [if_pos h0]
    exact ⟨fun c hi => absurd hi (by simp), hr, rfl⟩
  rw [if_neg h0]
  simp only [hmask]
  generalize hi : p / s.bytsPerClus = i
  have hile : i ≤ p := hi ▸ Nat.div_le_self _ _
  -- either way the loop ends at place `i` of the chain
  have hloop : ∀ c, c = (if i * s.bytsPerClus < f.lastPosition ∨ f.lastClus = 0 ∨
      s.isEof f.lastClus = true then
        followLoop s (u32 (i * s.bytsPerClus / s.bytsPerClus)) f.fstClus
      else followLoop s (u32 ((i * s.bytsPerClus - f.lastPosition) / s.bytsPerClus)) f.lastClus) →
      (∀ a, l[i]? = some a → c = a) ∧ (l.length ≤ i → s.isEof c = true) := by
    rintro c rfl
    split
    · have hhead : l[0]? = some f.fstClus := by
        cases l with
        | nil => exact absurd rfl hc.nonempty
        | cons a l => rw [← hc.chain.head.1]; rfl
      rw [Nat.mul_div_cancel _ hpos, u32_of_lt (by omega)]
      have hfrom := followLoop_from hc.chain hhead i
      rwa [Nat.zero_add] at hfrom
    · rename_i hno
      obtain ⟨hle, hne0, hnend⟩ : ¬ i * s.bytsPerClus < f.lastPosition ∧ f.lastClus ≠ 0 ∧
          ¬ s.isEof f.lastClus = true := by
        refine ⟨fun hx => hno (.inl hx), fun hx => hno (.inr (.inl hx)),
          fun hx => hno (.inr (.inr hx))⟩
      obtain ⟨j, hj, hlast⟩ := (hr.last.resolve_left hne0).resolve_left hnend
      rw [hlast] at hle ⊢
      have hji : j ≤ i := Nat.le_of_mul_le_mul_right (Nat.not_lt.mp hle) hpos
      rw [← Nat.sub_mul, Nat.mul_div_cancel _ hpos, u32_of_lt (by omega)]
      have hfrom := followLoop_from hc.chain hj (i - j)
      rwa [Nat.add_sub_cancel' hji] at hfrom
  obtain ⟨hin, hout⟩ := hloop _ rfl
  refine ⟨hin, ⟨hr.size, ?_⟩, trivial⟩
  by_cases hlt : i < l.length
  · refine .inr (.inr ⟨i, ?_, rfl⟩)
    have hget := List.getElem?_eq_getElem hlt
    rw [hget]
    exact congrArg some (hin _ hget).symm
  · exact .inr (.inl (hout (Nat.not_lt.mp hlt)))

/-- Where `getClusNum` found a cluster of a list is remembered, whatever follows it in the chain. -/
theorem getClusNum_place (h : s.WellFormed) {p : Nat} (hi : l[p / s.bytsPerClus]? = some clus)
    (hsize : f.size < 4294967296) (hfst : f.fstClus ≠ 0) (hp : p < 4294967296)
    (hget : (f.getClusNum s p).1 = clus) : (f.getClusNum s p).2.Ready s l := by
  have hmask := Bpb.clusterMask_eq h hp
  unfold getClusNum at hget ⊢
  rw [if_neg hfst] at hget ⊢
  simp only [hmask] at hget ⊢
  exact ⟨hsize, .inr (.inr ⟨p / s.bytsPerClus, hget ▸ hi, rfl⟩)⟩

theorem ChainOf.chain (hc : f.ChainOf s l) (hl : l ≠ []) : f.fstClus ≠ 0 ∧ s.ChainFrom f.fstClus l :=
  hc.resolve_left fun hnil => hl hnil.2

theorem ChainOf.isCluster (h : s.WellFormed) (hc : f.ChainOf s l) {c : Nat} (hm : c ∈ l) :
    s.IsCluster c :=
  (hc.chain (List.ne_nil_of_mem hm)).2.isCluster h hm

theorem ChainOf.entry_ne_zero (h : s.WellFormed) (hc : f.ChainOf s l) {c : Nat} (hm : c ∈ l) :
    s.clusEntryVal c ≠ 0 :=
  (hc.chain (List.ne_nil_of_mem hm)).2.entry_ne_zero h hm

theorem ChainOf.nodup (hc : f.ChainOf s l) : l.Nodup := by
  rcases hc with ⟨-, rfl⟩ | ⟨-, hc⟩
  · exact List.nodup_nil
  · exact hc.chain.nodup

theorem ChainOf.congr (h : s.WellFormed) (hb : s'.toBpb = s.toBpb)
    (he : ∀ m ∈ l, m ≤ s.countOfClusters + 1 → s'.clusEntryVal m = s.clusEntryVal m)
    (hc : f.ChainOf s l) : f.ChainOf s' l :=
  hc.imp_right fun ⟨hf, hc⟩ => ⟨hf, hc.congr h hb he⟩

theorem Ready.mono {k : List Nat} (hb : s'.toBpb = s.toBpb) (hr : f.Ready s l)
    (hl : ∀ (i c : Nat), l[i]? = some c → k[i]? = some c) : f.Ready s' k := by
  refine ⟨hr.size, ?_⟩
  rw [hb]
  exact hr.last.imp_right fun hx => hx.imp_right fun ⟨i, hi, hp⟩ => ⟨i, hl i _ hi, hp⟩

/-- The table and the stream after the new chain `k` was appended to the clusters `p` that hold the
    bytes of the stream. Clusters `q` of its chain behind them are a chain of their own then. -/
theorem append_cut (h : s.WellFormed) (hres : s.ReservedZero) {p q : List Nat}
    (hc : f.ChainOf s (p ++ q)) (hr : f.Ready s (p ++ q)) (hlen : p.length = s.clustersFor f.size)
    (hempty : f.size = 0 → q = []) {k : List Nat} {n : Nat}
    (ha : FatFileSystem.Allocated s s' n clus k) :
    (f.append s' clus).2.ChainOf (f.append s' clus).1 (p ++ k) ∧
      (f.append s' clus).2.Ready (f.append s' clus).1 (p ++ k) ∧
      (∀ a t, q = a :: t → (f.append s' clus).1.ChainFrom a q) ∧ (∀ c ∈ p ++ q, c ∉ k) ∧
      FatFileSystem.Edited s (f.append s' clus).1 (p ++ q) (p ++ k ++ q) := by
  have hb := ha.bpb
  have h' : s'.WellFormed := hb ▸ h
  have hapart : ∀ c ∈ p ++ q, c ∉ k := fun c hcl hck => hc.entry_ne_zero h hcl (ha.free c hck)
  have hkeep : ∀ m ∈ p ++ q, m ≤ s.countOfClusters + 1 → s'.clusEntryVal m = s.clusEntryVal m :=
    fun m hm hle => ha.entries m hle (hapart m hm)
  have hclus : clus ≠ 0 := by
    have := ha.chain.low clus ha.chain.head_mem
    omega
  unfold append
  split
  · rename_i hsize
    have hpos : 0 < p.length := by
      rw [hlen]
      exact Bpb.clustersFor_pos h (by omega)
    -- the cluster of the last byte is the last one of `p`
    obtain ⟨l₁, a, rfl⟩ : ∃ l₁ a, p = l₁ ++ [a] :=
      ⟨_, _, (List.dropLast_append_getLast (List.ne_nil_of_length_pos hpos)).symm⟩
    obtain ⟨hfst, hcl⟩ := hc.chain (by simp)
    obtain ⟨hget, -, hsame⟩ := getClusNum_spec (p := f.size - 1) h'
      (hc.congr h hb hkeep) (hr.mono hb fun _ _ hi => hi) (by have := hr.size; omega)
    have hidx : (f.size - 1) / s'.bytsPerClus = l₁.length := by
      rw [Bpb.clustersFor_eq h (by omega), List.length_append, List.length_singleton] at hlen
      rw [hb]
      omega
    have hlast := hget a (by rw [hidx]; simp)
    have hplace := getClusNum_place h' (f := f) (p := f.size - 1) (l := l₁ ++ [a])
      (by rw [hidx]; simp) hr.size hfst (by have := hr.size; omega) hlast
    generalize f.getClusNum s' (f.size - 1) = g at hlast hplace hsame ⊢
    obtain ⟨last, f'⟩ := g
    simp only at hlast hplace hsame ⊢
    subst hlast
    have hmem : last ∈ l₁ ++ [last] ++ q := by simp
    have hle := hcl.le h hmem
    have hold : s'.clusEntryVal last < 0x10000000 := by
      rw [hkeep last hmem hle]
      exact hres last (hcl.isCluster h hmem)
    have hcle : clus ≤ s'.countOfClusters + 1 := (ha.chain).le h' ha.chain.head_mem
    have hentry : ∀ m ≤ s.countOfClusters + 1, (s'.setClusEntryVal last clus).clusEntryVal m =
        if m = last then clus else s'.clusEntryVal m := by
      intro m hm
      rw [FatFileSystem.clusEntryVal_set h' (hb ▸ hle) (hb ▸ hm),
        FatFileSystem.shown_of_le h' hold hcle]
    have hbound : ∀ m ∈ l₁ ++ [last] ++ k ++ q, m ≤ s.countOfClusters + 1 := by
      intro m hm
      simp only [List.mem_append] at hm
      rcases hm with (hm | hm) | hm
      · exact hcl.le h (List.mem_append_left _ (List.mem_append.mpr hm))
      · exact hb ▸ ha.chain.le h' hm
      · exact hcl.le h (List.mem_append_right _ hm)
    have hupdate : ∀ m ∈ l₁ ++ [last] ++ k ++ q, (s'.setClusEntryVal last clus).clusEntryVal m =
        Function.update s'.clusEntryVal last clus m := by
      intro m hm
      rw [hentry m (hbound m hm)]
      by_cases hml : m = last
      · rw [if_pos hml, hml, Function.update_self]
      · rw [if_neg hml, Function.update_of_ne hml]
    have hmid := (hcl.congr h hb hkeep).chain
    rw [List.append_assoc, List.singleton_append] at hmid
    obtain ⟨hjoin, hrest⟩ := hmid.relink ha.chain.chain (hapart last hmem)
    have hf' : f'.fstClus = f.fstClus := by rw [hsame]
    refine ⟨.inr ⟨hf' ▸ hfst, ⟨?_, ?_, by simp⟩⟩, ?_, fun b t hq => ?_, hapart, ?_⟩
    · rw [hf']
      exact hjoin.congr fun m hm => hupdate m (List.mem_append_left _ hm)
    · intro c hcm
      exact (List.mem_append.mp hcm).elim (fun hm => hcl.low c (List.mem_append_left _ hm))
        (ha.chain.low c)
    · exact hplace.mono (FatFileSystem.setClusEntryVal_bpb s' last clus) fun i c hi =>
        (List.getElem?_append_left (List.getElem?_eq_some_iff.mp hi).1).trans hi
    · subst hq
      have hhead := hrest.head.1
      rw [hhead] at hrest
      exact ⟨hrest.congr fun m hm => hupdate m (List.mem_append_right _ hm),
        fun c hcm => hcl.low c (List.mem_append_right _ hcm), by simp⟩
    · refine ⟨hb, fun m hm hml hmk => ?_, fun c hcm hcl' => ?_, fun c hcm hcl' => ?_,
        fun c hcm => ?_, ?_⟩
      · have hne : m ≠ last := fun heq => hml (heq ▸ hmem)
        rw [hentry m hm, if_neg hne]
        exact ha.entries m hm fun hk => hmk (by simp [hk])
      · refine ha.free c ?_
        simp only [List.mem_append] at hcm hcl'
        tauto
      · refine absurd ?_ hcl'
        simp only [List.mem_append] at hcm ⊢
        tauto
      · rw [hentry c (hbound c hcm)]
        split
        · have := h.clusters
          have : clus ≤ s.countOfClusters + 1 := hb ▸ hcle
          omega
        · by_cases hck : c ∈ k
          · exact (ha.marked c hck).2
          · have hcm' : c ∈ l₁ ++ [last] ++ q := by
              simp only [List.mem_append] at hcm ⊢
              tauto
            rw [hkeep c hcm' (hcl.le h hcm')]
            exact hres c (hcl.isCluster h hcm')
      · have := ha.freeCount
        have := ha.length
        simp only [List.length_append]
        show s'.freeCount + _ = _
        omega
  · rename_i hsize
    have h0 : f.size = 0 := by simpa using hsize
    obtain rfl := hempty h0
    rw [h0, Bpb.clustersFor_zero h] at hlen
    obtain rfl := List.eq_nil_of_length_eq_zero hlen
    refine ⟨.inr ⟨hclus, ha.chain⟩, ⟨hr.size, ?_⟩, by simp, by simp, by simpa using ha.edited⟩
    rw [hb]
    exact hr.last.imp_right fun hx => hx.imp_right fun ⟨i, hi, _⟩ => absurd hi (by simp)

/-- The stream got another size and the chain `l'`. -/
structure Resized (f : FatStream) (s : FatFileSystem) (l : List Nat) (f' : FatStream)
    (s' : FatFileSystem) (newSize : Nat) (l' : List Nat) : Prop where
  size : f'.size = newSize
  recorded : f.size ≠ newSize ∨ f.fcbFileSize = f.size → f'.fcbFileSize = newSize
  chain : f'.ChainOf s' l'
  ready : f'.Ready s' l'
  edited : FatFileSystem.Edited s s' l l'

theorem edited_refl (h : s.WellFormed) (hres : s.ReservedZero) (hc : f.ChainOf s l) :
    FatFileSystem.Edited s s l l :=
  FatFileSystem.Restored.edited ⟨rfl, fun _ _ => rfl, rfl⟩ fun c hcm =>
    ⟨(hc.isCluster h hcm).2, hres c (hc.isCluster h hcm)⟩

/-- The stream grew by the chain `k` behind the clusters `p` that hold its bytes, and the clusters
    `q` of its chain behind them were cut off. -/
structure Grown (f : FatStream) (s : FatFileSystem) (p q : List Nat) (f' : FatStream)
    (s' : FatFileSystem) (newSize : Nat) (k : List Nat) : Prop where
  size : f'.size = newSize
  recorded : f'.fcbFileSize = newSize
  chain : f'.ChainOf s' (p ++ k)
  ready : f'.Ready s' (p ++ k)
  rest : ∀ a t, q = a :: t → s'.ChainFrom a q
  apart : ∀ c ∈ p ++ q, c ∉ k
  edited : FatFileSystem.Edited s s' (p ++ q) (p ++ k ++ q)

/-- The three ways in which `setSize` grows a stream: there is not enough space, no cluster is
    needed, or the chain of new clusters is appended. -/
theorem grow_cut (h : s.WellFormed) (hres : s.ReservedZero) (hcount : s.freeCount < 4294967296)
    {p q : List Nat} (hc : f.ChainOf s (p ++ q)) (hr : f.Ready s (p ++ q)) {newSize : Nat}
    (hnew : newSize < 4294967296)
    (hok : f.growBy s.toBpb newSize ≠ 0 → f.growBy s.toBpb newSize ≤ s.freeCount →
      s.Allocatable f.isDirectory ∧ p.length = s.clustersFor f.size ∧ (f.size = 0 → q = [])) :
    ∃ err s' f', f.grow s newSize = some (err, s', f') ∧
      ((err = some .enospc ∧ f' = f ∧ FatFileSystem.Restored s s') ∨
        (err = none ∧ f.growBy s.toBpb newSize = 0 ∧
          Resized f s (p ++ q) f' s' newSize (p ++ q)) ∨
        (err = none ∧ f.growBy s.toBpb newSize ≠ 0 ∧
          ∃ k, k.length = f.growBy s.toBpb newSize ∧ Grown f s p q f' s' newSize k)) := by
  unfold grow
  simp only
  generalize f.growBy s.toBpb newSize = n at hok ⊢
  split
  · rename_i h0
    exact ⟨none, s, _, rfl, .inr (.inl ⟨rfl, h0, rfl, fun _ => rfl, hc, ⟨hnew, hr.last⟩,
      edited_refl h hres hc⟩)⟩
  · rename_i h0
    obtain ⟨clus, s', halloc, hresult⟩ :=
      FatFileSystem.allocCluster_spec (z := f.isDirectory) h hcount fun hn hle => (hok hn hle).1
    rw [halloc]
    rcases hresult with ⟨hend, hrest⟩ | ⟨hend, k, ha⟩
    · refine ⟨some .enospc, s', f, ?_, .inl ⟨rfl, rfl, hrest⟩⟩
      rw [Option.map_some, hrest.bpb, if_pos hend]
    · obtain ⟨-, hlen, hempty⟩ := hok h0 (by have := ha.freeCount; omega)
      obtain ⟨hchain, hready, hcut, hapart, hedit⟩ := append_cut h hres hc hr hlen hempty ha
      refine ⟨none, (f.append s' clus).1,
        { (f.append s' clus).2 with fcbFileSize := newSize, size := newSize }, ?_,
        .inr (.inr ⟨rfl, h0, k, ha.length, rfl, rfl, hchain, ⟨hnew, hready.last⟩, hcut,
          hapart, hedit⟩)⟩
      rw [Option.map_some, ha.bpb, hend]
      rfl

theorem grow_spec (h : s.WellFormed) (hres : s.ReservedZero) (hcount : s.freeCount < 4294967296)
    (hc : f.ChainOf s l) (hr : f.Ready s l) {newSize : Nat} (hnew : newSize < 4294967296)
    (hok : f.growBy s.toBpb newSize ≠ 0 → f.growBy s.toBpb newSize ≤ s.freeCount →
      s.Allocatable f.isDirectory ∧ l.length = s.clustersFor f.size) :
    ∃ err s' f', f.grow s newSize = some (err, s', f') ∧
      ((err = some .enospc ∧ f' = f ∧ FatFileSystem.Restored s s') ∨
        (err = none ∧ ∃ k, k.length = f.growBy s.toBpb newSize ∧
          Resized f s l f' s' newSize (l ++ k))) := by
  have hnil := (List.append_nil l).symm
  rw [hnil] at hc hr
  obtain ⟨err, s', f', hgrow, hend⟩ := grow_cut h hres hcount hc hr hnew fun hn hle =>
    ⟨(hok hn hle).1, (hok hn hle).2, fun _ => rfl⟩
  refine ⟨err, s', f', hgrow, ?_⟩
  rcases hend with hfail | ⟨herr, h0, hsame⟩ | ⟨herr, -, k, hk, hgrown⟩
  · exact .inl hfail
  · rw [List.append_nil] at hsame
    exact .inr ⟨herr, [], h0.symm, (List.append_nil l).symm ▸ hsame⟩
  · have hedit := hgrown.edited
    rw [List.append_nil, List.append_nil] at hedit
    exact .inr ⟨herr, k, hk, hgrown.size, fun _ => hgrown.recorded, hgrown.chain, hgrown.ready,
      hedit⟩

/-- `getClusNum` only moves what the stream remembers. -/
theorem getClusNum_fields (f : FatStream) (s : FatFileSystem) (position : Nat) :
    (f.getClusNum s position).2 = { f with
      lastPosition := (f.getClusNum s position).2.lastPosition
      lastClus := (f.getClusNum s position).2.lastClus } := by
  unfold getClusNum
  split <;> rfl

/-- What the stream remembers after its chain was cut. -/
theorem ready_reset {first : Nat} (hsize : f.size < 4294967296)
    (hc : f.ChainOf s l) (hfirst : f.fstClus = first) :
    FatStream.Ready { f with lastPosition := 0, lastClus := first } s l := by
  refine ⟨hsize, ?_⟩
  rcases hc with ⟨h0, -⟩ | ⟨-, hc⟩
  · exact .inl (hfirst.symm.trans h0)
  · refine .inr (.inr ⟨0, ?_, (Nat.zero_mul _).symm⟩)
    cases l with
    | nil => exact absurd rfl hc.nonempty
    | cons a l =>
      rw [← hc.chain.head.1, hfirst]
      rfl

/-- Cutting the chain after its node `a` and freeing the rest. -/
theorem cut_spec (h : s.WellFormed) (hres : s.ReservedZero) {l₁ l₂ : List Nat} {head a : Nat}
    (hc : s.ChainFrom head (l₁ ++ a :: l₂))
    (hcount : s.freeCount + (l₁ ++ a :: l₂).length < 4294967296) :
    ∃ s', (s.setClusEntryVal a 0x0fffffff).freeCluster (s.clusEntryVal a) = some s' ∧
      s'.ChainFrom head (l₁ ++ [a]) ∧
      FatFileSystem.Edited s s' (l₁ ++ a :: l₂) (l₁ ++ [a]) := by
  have hmem : a ∈ l₁ ++ a :: l₂ := by simp
  have hale := hc.le h hmem
  have hend : s.isEof (s.shown a 0x0fffffff) = true := FatFileSystem.isEof_shown h rfl
  have hentry : ∀ m ≤ s.countOfClusters + 1, (s.setClusEntryVal a 0x0fffffff).clusEntryVal m =
      if m = a then s.shown a 0x0fffffff else s.clusEntryVal m :=
    fun m hm => FatFileSystem.clusEntryVal_set h hale hm
  have hupdate : ∀ m ∈ l₁ ++ a :: l₂, (s.setClusEntryVal a 0x0fffffff).clusEntryVal m =
      Function.update s.clusEntryVal a (s.shown a 0x0fffffff) m := by
    intro m hm
    rw [hentry m (hc.le h hm)]
    by_cases hma : m = a
    · rw [if_pos hma, hma, Function.update_self]
    · rw [if_neg hma, Function.update_of_ne hma]
  have hfirst : ∀ m ∈ l₁ ++ [a], m ∈ l₁ ++ a :: l₂ := by
    intro m hm
    simp only [List.mem_append, List.mem_cons, List.not_mem_nil, or_false] at hm ⊢
    exact hm.imp_right .inl
  have hrest : ∀ m ∈ l₂, m ∈ l₁ ++ a :: l₂ := fun m hm => by simp [hm]
  have hnodup := List.nodup_append.mp hc.chain.nodup
  have hal : a ∉ l₂ := (List.nodup_cons.mp hnodup.2.1).1
  have hapart : ∀ m ∈ l₁ ++ [a], m ∉ l₂ := by
    intro m hm hm'
    rcases List.mem_append.mp hm with hm | hm
    · exact hnodup.2.2 m hm m (.tail _ hm') rfl
    · exact hal (List.mem_singleton.mp hm ▸ hm')
  obtain ⟨hkept, hfree⟩ := hc.chain.cut hend
  have hne : ∀ m ∈ l₂, m ≠ a := fun m hm heq => hal (heq ▸ hm)
  obtain ⟨s', hfreed, hf⟩ := FatFileSystem.freeCluster_rest (s := s.setClusEntryVal a 0x0fffffff)
    h (hfree.congr fun m hm => hupdate m (hrest m hm)) (fun m hm => hc.low m (hrest m hm))
    (fun m hm => by
      rw [hentry m (hc.le h (hrest m hm)), if_neg (hne m hm)]
      exact hres m (hc.isCluster h (hrest m hm)))
    (by
      rw [List.length_append, List.length_cons] at hcount
      show s.freeCount + _ < _
      omega)
  have hshown : ∀ m ≤ s.countOfClusters + 1, s'.clusEntryVal m =
      if m ∈ l₂ then 0 else if m = a then s.shown a 0x0fffffff else s.clusEntryVal m := by
    intro m hm
    rw [hf.entries m hm, hentry m hm]
  refine ⟨s', hfreed, ⟨?_, fun c hcm => hc.low c (hfirst c hcm), by simp⟩, hf.bpb, ?_, ?_, ?_, ?_,
    ?_⟩
  · rw [hf.bpb]
    refine hkept.congr fun m hm => ?_
    have hm' : m ≤ s.countOfClusters + 1 := hc.le h (hfirst m hm)
    rw [← hupdate m (hfirst m hm), hf.entries m hm', if_neg (hapart m hm)]
  · intro m hm hml _
    have hma : m ≠ a := fun hx => hml (hx ▸ hmem)
    rw [hshown m hm, if_neg fun hx => hml (hrest m hx), if_neg hma]
  · exact fun c hcm hcl => absurd (hfirst c hcm) hcl
  · intro c hcm hcl
    have hc2 : c ∈ l₂ := by
      simp only [List.mem_append, List.mem_cons, List.not_mem_nil, or_false] at hcm hcl
      tauto
    rw [hshown c (hc.le h hcm), if_pos hc2]
  · intro c hcm
    rw [hshown c (hc.le h (hfirst c hcm)), if_neg (hapart c hcm)]
    split
    · exact FatFileSystem.shown_lt (hres a (hc.isCluster h hmem))
    · exact hres c (hc.isCluster h (hfirst c hcm))
  · rw [hf.freeCount]
    simp only [List.length_append, List.length_cons, List.length_nil]
    show s.freeCount + _ + _ = _
    omega

theorem shrink_spec (h : s.WellFormed) (hres : s.ReservedZero)
    (hcount : s.freeCount + l.length < 4294967296) (hc : f.ChainOf s l) (hr : f.Ready s l)
    {newSize : Nat} (hlt : newSize < f.size) (hlen : s.clustersFor newSize ≤ l.length) :
    ∃ s' f', f.shrink s newSize = some (none, s', f') ∧
      Resized f s l f' s' newSize (l.take (s.clustersFor newSize)) := by
  have hsize := hr.size
  have hnew : newSize < 4294967296 := by omega
  unfold shrink
  simp only
  split
  · rename_i h0
    rw [h0, Bpb.clustersFor_zero h, List.take_zero]
    have hfreed : ∃ s', s.freeCluster f.fstClus = some s' ∧ FatFileSystem.Freed s s' l := by
      rcases hc with ⟨hfst, rfl⟩ | ⟨-, hc⟩
      · rw [hfst]
        exact ⟨s, rfl, rfl, rfl, by simp, rfl⟩
      · exact FatFileSystem.freeCluster_spec h hc (fun m hm => hres m (hc.isCluster h hm)) hcount
    obtain ⟨s', hfree, hf⟩ := hfreed
    rw [hfree]
    exact ⟨s', _, rfl, rfl, fun _ => rfl, .inl ⟨rfl, rfl⟩, ⟨by show 0 < _; omega, .inl rfl⟩,
      hf.edited fun c hcm => (hc.isCluster h hcm).2⟩
  · rename_i h0
    have hcls := Bpb.clustersFor_eq h (show 0 < newSize by omega)
    have hpos : 0 < l.length := Nat.lt_of_lt_of_le (by rw [hcls]; exact Nat.succ_pos _) hlen
    obtain ⟨-, hcl⟩ := hc.chain (List.ne_nil_of_length_pos hpos)
    have hidx : (newSize - 1) / s.bytsPerClus < l.length := by omega
    -- the cluster of the last byte that stays is the last one that stays
    let g : FatStream := { f with fcbFileSize := newSize }
    have hget := (getClusNum_spec (f := g) (p := newSize - 1) h hc ⟨hr.size, hr.last⟩
      (by omega)).1 _ (List.getElem?_eq_getElem hidx)
    have hfields := getClusNum_fields g s (newSize - 1)
    show ∃ s' f', ((s.setClusEntryVal (g.getClusNum s (newSize - 1)).1 0x0fffffff).freeCluster
      (s.clusEntryVal (g.getClusNum s (newSize - 1)).1)).map _ = _ ∧ _
    generalize g.getClusNum s (newSize - 1) = r at hget hfields ⊢
    obtain ⟨a, f'⟩ := r
    simp only at hget hfields ⊢
    subst hget
    have hfst : f'.fstClus = f.fstClus := by rw [hfields]
    have hsplit : l = l.take ((newSize - 1) / s.bytsPerClus) ++
        l[(newSize - 1) / s.bytsPerClus] :: l.drop ((newSize - 1) / s.bytsPerClus + 1) := by
      rw [List.getElem_cons_drop, List.take_append_drop]
    have htake : l.take (s.clustersFor newSize) =
        l.take ((newSize - 1) / s.bytsPerClus) ++ [l[(newSize - 1) / s.bytsPerClus]] := by
      rw [hcls, List.take_succ_eq_append_getElem hidx]
    have hcl' := hcl
    have hcount' := hcount
    rw [hsplit] at hcl' hcount'
    obtain ⟨s', hfree, hchain, hedit⟩ := cut_spec h hres hcl' hcount'
    rw [← hsplit, ← htake] at hedit
    rw [← htake] at hchain
    rw [hfree]
    have hchain' : f'.ChainOf s' (l.take (s.clustersFor newSize)) := by
      refine .inr ⟨?_, hfst ▸ hchain⟩
      have := hcl.low _ hcl.head_mem
      omega
    refine ⟨s', _, rfl, rfl, fun _ => ?_, hchain', ?_, hedit⟩
    · rw [hfields]
    · exact ⟨hnew, (ready_reset (f := f') (by rw [hfields]; exact hsize) hchain' rfl).last⟩

/-- The chain that a successful `setSize` leaves. -/
def Reshaped (f : FatStream) (s : FatFileSystem) (l l' : List Nat) (newSize : Nat) : Prop :=
  (f.size = newSize ∧ l' = l) ∨
    (f.size < newSize ∧ ∃ k, k.length = f.growBy s.toBpb newSize ∧ l' = l ++ k) ∨
    (newSize < f.size ∧ l' = l.take (s.clustersFor newSize))

/-- The three ways in which `setSize` ends. -/
theorem setSize_spec (h : s.WellFormed) (hres : s.ReservedZero)
    (hcount : s.freeCount + l.length < 4294967296) (hc : f.ChainOf s l) (hr : f.Ready s l)
    {newSize : Int}
    (hok : f.Accepts s.toBpb newSize → f.Resizable s l (f.roundSize s.toBpb newSize.toNat)) :
    ∃ err s' f', f.setSize s newSize = some (err, s', f') ∧
      ((err = some .einval ∧ ¬ f.Accepts s.toBpb newSize ∧ f' = f ∧ s' = s) ∨
        (err = some .enospc ∧ f.Accepts s.toBpb newSize ∧ f' = f ∧
          FatFileSystem.Restored s s') ∨
        (err = none ∧ f.Accepts s.toBpb newSize ∧ ∃ l',
          Resized f s l f' s' (f.roundSize s.toBpb newSize.toNat) l' ∧
          Reshaped f s l l' (f.roundSize s.toBpb newSize.toNat))) := by
  unfold setSize
  split
  · rename_i hrange
    refine ⟨some .einval, s, f, rfl, .inl ⟨rfl, fun ha => ?_, rfl, rfl⟩⟩
    have := ha.1
    have := ha.2.1
    omega
  rename_i hrange
  simp only
  split
  · rename_i hrefused
    refine ⟨some .einval, s, f, rfl, .inl ⟨rfl, fun ha => ?_, rfl, rfl⟩⟩
    rw [ha.2.2] at hrefused
    cases hrefused
  rename_i hrefused
  have hacc : f.Accepts s.toBpb newSize := ⟨by omega, by omega, by simpa using hrefused⟩
  have hnew : f.roundSize s.toBpb newSize.toNat < 4294967296 := by
    unfold roundSize Bpb.clusterMask
    split
    · exact Nat.lt_of_le_of_lt Nat.and_le_right (by omega)
    · omega
  have hok := hok hacc
  generalize f.roundSize s.toBpb newSize.toNat = new at hok hnew ⊢
  split
  · rename_i heq
    refine ⟨none, s, f, rfl, .inr (.inr ⟨rfl, hacc, l, ⟨heq, fun hx => ?_, hc, hr,
      edited_refl h hres hc⟩, .inl ⟨heq, rfl⟩⟩)⟩
    exact (hx.resolve_left fun hne => hne heq).trans heq
  · rename_i hne
    split
    · rename_i hlt
      obtain ⟨err, s', f', hgrow, hres'⟩ :=
        grow_spec h hres (by omega) hc hr hnew (hok.grow hlt)
      refine ⟨err, s', f', hgrow, .inr ?_⟩
      rcases hres' with ⟨herr, hf, hrest⟩ | ⟨herr, k, hk, hresized⟩
      · exact .inl ⟨herr, hacc, hf, hrest⟩
      · exact .inr ⟨herr, hacc, l ++ k, hresized, .inr (.inl ⟨hlt, k, hk, rfl⟩)⟩
    · have hlt : new < f.size := by omega
      obtain ⟨s', f', hshrink, hresized⟩ :=
        shrink_spec h hres hcount hc hr hlt (hok.shrink hlt)
      exact ⟨none, s', f', hshrink, .inr (.inr ⟨rfl, hacc, _, hresized, .inr (.inr ⟨hlt, rfl⟩)⟩)⟩

end FatStream

end EsOs.Fat
