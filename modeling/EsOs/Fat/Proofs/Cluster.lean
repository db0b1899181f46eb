import EsOs.Fat.Proofs.Entry
import Mathlib.Data.List.Perm.Subperm

/-!
# Allocation and release of chains

What `allocCluster` and `freeCluster` do to the table: a success hands out a chain of clusters that
were free, a failure leaves every entry as it was, and a freed chain leaves zero entries. Nothing
outside the chain changes.
-/

namespace EsOs.Fat

open EsOs.Lib

namespace FatFileSystem

variable {s s' : FatFileSystem} {c n m v : Nat} {l : List Nat}

theorem ChainFrom.le (h : s.WellFormed) (hc : s.ChainFrom n l) (hm : m ∈ l) :
    m ≤ s.countOfClusters + 1 :=
  (Bpb.not_isEof h).mp (hc.chain.nodes m hm)

theorem ChainFrom.isCluster (h : s.WellFormed) (hc : s.ChainFrom n l) (hm : m ∈ l) :
    s.IsCluster m :=
  ⟨hc.low m hm, hc.le h hm⟩

theorem ChainFrom.head_mem (hc : s.ChainFrom n l) : n ∈ l := by
  cases l with
  | nil => exact absurd rfl hc.nonempty
  | cons a l =>
    obtain ⟨rfl, -⟩ := hc.chain.head
    exact .head _

/-- A chain has no more nodes than there are clusters. -/
theorem length_le_of_chain (h : s.WellFormed)
    (hc : Chain s.clusEntryVal (fun c => s.isEof c = true) n l) (hlow : ∀ c ∈ l, 2 ≤ c) :
    l.length ≤ s.countOfClusters := by
  have hsub : l ⊆ List.range' 2 s.countOfClusters := by
    intro a ha
    have hle := (Bpb.not_isEof h).mp (hc.nodes a ha)
    have := hlow a ha
    rw [List.mem_range'_1]
    omega
  have hlen := (List.subperm_of_subset hc.nodup hsub).length_le
  rwa [List.length_range'] at hlen

/-- A chain survives changes of entries that it does not meet. -/
theorem ChainFrom.congr (h : s.WellFormed) (hb : s'.toBpb = s.toBpb)
    (he : ∀ m ∈ l, m ≤ s.countOfClusters + 1 → s'.clusEntryVal m = s.clusEntryVal m)
    (hc : s.ChainFrom n l) : s'.ChainFrom n l := by
  refine ⟨?_, hc.low, hc.nonempty⟩
  rw [hb]
  exact hc.chain.congr fun a ha => he a ha (hc.le h ha)

/-- Clearing a cluster off the table. -/
theorem zeroCluster_entry (h : s.WellFormed) (hz : s.ZeroedOff c)
    (hm : m ≤ s.countOfClusters + 1) : (s.zeroCluster c).clusEntryVal m = s.clusEntryVal m := by
  have htable := Bpb.fatOffset_le h hm
  have hoff := Bpb.entryOffset_eq h hm
  have haddr : (s.rsvdSecCnt + s.fatSz) * s.bytsPerSec =
      s.rsvdSecCnt * s.bytsPerSec + s.fatSz * s.bytsPerSec := Nat.add_mul _ _ _
  refine clusEntryVal_of_bytes (zeroCluster_bpb s c) fun i hlo hhi => ?_
  refine Disk.clear_of_off fun hstart => ?_
  rcases hz with hz | hz <;> omega

/-- The entries of the chain `l` are cleared and counted, and nothing else changes. -/
structure Freed (s s' : FatFileSystem) (l : List Nat) : Prop where
  bpb : s'.toBpb = s.toBpb
  nxtFree : s'.nxtFree = s.nxtFree
  entries : ∀ m ≤ s.countOfClusters + 1,
    s'.clusEntryVal m = if m ∈ l then 0 else s.clusEntryVal m
  freeCount : s'.freeCount = s.freeCount + l.length

theorem freeLoop_spec (h : s.WellFormed)
    (hc : Chain s.clusEntryVal (fun c => s.isEof c = true) n l)
    (hreserved : ∀ m ∈ l, s.clusEntryVal m < 0x10000000)
    (hcount : s.freeCount + l.length < 4294967296) {fuel : Nat} (hfuel : l.length < fuel) :
    ∃ s', freeLoop fuel s n = some s' ∧ Freed s s' l := by
  induction l generalizing s n fuel with
  | nil =>
    obtain ⟨t, rfl, ht⟩ := hc.ends
    obtain ⟨k, rfl⟩ := Nat.exists_eq_add_one.mpr hfuel
    exact ⟨s, by rw [freeLoop, if_pos ht], rfl, rfl, by simp, rfl⟩
  | cons a l ih =>
    obtain ⟨rfl, hrest⟩ := hc.head
    have hnode := hc.nodes n (.head _)
    have hle := (Bpb.not_isEof h).mp hnode
    have hn : n ∉ l := (List.nodup_cons.mp hc.nodup).1
    obtain ⟨k, rfl⟩ := Nat.exists_eq_add_one.mpr (Nat.zero_lt_of_lt hfuel)
    rw [List.length_cons] at hfuel hcount
    have hone : u32 (s.freeCount + 1) = s.freeCount + 1 := u32_of_lt (by omega)
    have hentry : ∀ m ≤ s.countOfClusters + 1,
        (s.setClusEntryVal n 0).clusEntryVal m = if m = n then 0 else s.clusEntryVal m := by
      intro m hm
      rw [clusEntryVal_set h hle hm, shown_of_le h (hreserved n (.head _)) (Nat.zero_le _)]
    let t : FatFileSystem :=
      { s.setClusEntryVal n 0 with freeCount := u32 (s.freeCount + 1) }
    have htentry : ∀ m, t.clusEntryVal m = (s.setClusEntryVal n 0).clusEntryVal m :=
      fun m => clusEntryVal_congr rfl rfl m
    have hsame : ∀ m ∈ l, t.clusEntryVal m = s.clusEntryVal m := by
      intro m hm
      have hmle := (Bpb.not_isEof h).mp (hc.nodes m (.tail _ hm))
      rw [htentry, hentry m hmle, if_neg (fun hmn : m = n => hn (hmn ▸ hm))]
    obtain ⟨s', hloop, hfreed⟩ := ih (s := t) h (hrest.congr hsame)
      (fun m hm => (hsame m hm).symm ▸ hreserved m (.tail _ hm))
      (by show u32 _ + _ < _; omega) (Nat.lt_of_succ_lt_succ hfuel)
    refine ⟨s', ?_, hfreed.bpb, hfreed.nxtFree, fun m hm => ?_, ?_⟩
    · rw [freeLoop, if_neg hnode]
      exact hloop
    · rw [hfreed.entries m hm, htentry, hentry m hm]
      by_cases hmn : m = n
      · simp [hmn]
      · simp [hmn]
    · rw [hfreed.freeCount]
      show u32 _ + _ = _
      rw [hone, List.length_cons]
      omega

/-- `freeCluster` of the head of a chain. -/
theorem freeCluster_spec (h : s.WellFormed) (hc : s.ChainFrom n l)
    (hreserved : ∀ m ∈ l, s.clusEntryVal m < 0x10000000)
    (hcount : s.freeCount + l.length < 4294967296) :
    ∃ s', s.freeCluster n = some s' ∧ Freed s s' l := by
  have hlen := length_le_of_chain h hc.chain hc.low
  unfold freeCluster
  rw [if_pos (hc.low n hc.head_mem)]
  exact freeLoop_spec h hc.chain hreserved hcount (by omega)

/-- `freeCluster` of a link to the rest of a chain, which may be its end mark. -/
theorem freeCluster_rest (h : s.WellFormed)
    (hc : Chain s.clusEntryVal (fun c => s.isEof c = true) n l) (hlow : ∀ m ∈ l, 2 ≤ m)
    (hreserved : ∀ m ∈ l, s.clusEntryVal m < 0x10000000)
    (hcount : s.freeCount + l.length < 4294967296) :
    ∃ s', s.freeCluster n = some s' ∧ Freed s s' l := by
  have hlen := length_le_of_chain h hc hlow
  by_cases hn : 2 ≤ n
  · unfold freeCluster
    rw [if_pos hn]
    exact freeLoop_spec h hc hreserved hcount (by omega)
  · cases l with
    | nil => exact ⟨s, by rw [freeCluster, if_neg hn], rfl, rfl, by simp, rfl⟩
    | cons a l =>
      obtain ⟨rfl, -⟩ := hc.head
      exact absurd (hlow n (.head _)) hn

/-- The clusters `l` were free in `s₀` and make a chain from `clus` that ends at `prev`; nothing
    else changed. The loop of `allocCluster` keeps this. -/
structure Taken (s₀ s : FatFileSystem) (clus prev : Nat) (l : List Nat) : Prop where
  bpb : s.toBpb = s₀.toBpb
  free : ∀ c ∈ l, s₀.IsCluster c ∧ s₀.clusEntryVal c = 0
  marked : ∀ c ∈ l, s.clusEntryVal c ≠ 0 ∧ s.clusEntryVal c < 0x10000000
  entries : ∀ m ≤ s₀.countOfClusters + 1, m ∉ l → s.clusEntryVal m = s₀.clusEntryVal m
  chain : (l = [] ∧ clus = 0 ∧ prev = 0) ∨
    (∃ l', l = l' ++ [prev] ∧ Chain s.clusEntryVal (fun c => s₀.isEof c = true) clus l)
  freeCount : s.freeCount + l.length = s₀.freeCount

namespace Taken

variable {s₀ : FatFileSystem} {clus prev : Nat} {zero : Bool}

theorem start (s₀ : FatFileSystem) : Taken s₀ s₀ 0 0 [] :=
  ⟨rfl, by simp, by simp, fun _ _ _ => rfl, .inl ⟨rfl, rfl, rfl⟩, rfl⟩

theorem nxtFree (ht : Taken s₀ s clus prev l) (n : Nat) :
    Taken s₀ { s with nxtFree := n } clus prev l := by
  have hentry := clusEntryVal_nxtFree s n
  refine ⟨ht.bpb, ht.free, fun c hc => ?_, fun m hm hml => ?_, ?_, ht.freeCount⟩
  · rw [hentry]
    exact ht.marked c hc
  · rw [hentry]
    exact ht.entries m hm hml
  · exact ht.chain.imp_right fun ⟨l', hl, hc⟩ => ⟨l', hl, hc.congr fun a _ => hentry a⟩

@[simp] theorem markNext_bpb (s : FatFileSystem) : s.markNext.toBpb = s.toBpb := rfl

@[simp] theorem markNext_nxtFree (s : FatFileSystem) : s.markNext.nxtFree = s.nxtFree := rfl

@[simp] theorem zeroNext_bpb (s : FatFileSystem) (zero : Bool) :
    (s.zeroNext zero).toBpb = s.toBpb := by
  unfold zeroNext
  split <;> simp

@[simp] theorem zeroNext_nxtFree (s : FatFileSystem) (zero : Bool) :
    (s.zeroNext zero).nxtFree = s.nxtFree := by
  unfold zeroNext
  split <;> simp

@[simp] theorem zeroNext_freeCount (s : FatFileSystem) (zero : Bool) :
    (s.zeroNext zero).freeCount = s.freeCount := by
  unfold zeroNext
  split <;> simp

@[simp] theorem linkNext_bpb (s : FatFileSystem) (prev : Nat) :
    (s.linkNext prev).toBpb = s.toBpb := by
  unfold linkNext
  split <;> simp

@[simp] theorem linkNext_nxtFree (s : FatFileSystem) (prev : Nat) :
    (s.linkNext prev).nxtFree = s.nxtFree := by
  unfold linkNext
  split <;> simp

@[simp] theorem linkNext_freeCount (s : FatFileSystem) (prev : Nat) :
    (s.linkNext prev).freeCount = s.freeCount := by
  unfold linkNext
  split <;> simp

theorem markNext_entry (h : s.WellFormed) (hc : s.nxtFree ≤ s.countOfClusters + 1)
    (hm : m ≤ s.countOfClusters + 1) :
    s.markNext.clusEntryVal m =
      if m = s.nxtFree then s.shown s.nxtFree 0xffffffff else s.clusEntryVal m :=
  (clusEntryVal_freeCount (s.setClusEntryVal s.nxtFree 0xffffffff) _ m).trans
    (clusEntryVal_set h hc hm)

theorem zeroNext_entry (h : s.WellFormed) (hz : zero = true → s.ZeroedOff s.nxtFree)
    (hm : m ≤ s.countOfClusters + 1) : (s.zeroNext zero).clusEntryVal m = s.clusEntryVal m := by
  unfold zeroNext
  split
  · rename_i hzero
    exact zeroCluster_entry h (hz hzero) hm
  · rfl

theorem linkNext_entry (h : s.WellFormed) (hc : s.nxtFree ≤ s.countOfClusters + 1)
    (hprev : prev ≤ s.countOfClusters + 1)
    (hold : prev ≠ 0 → s.clusEntryVal prev < 0x10000000) (hm : m ≤ s.countOfClusters + 1) :
    (s.linkNext prev).clusEntryVal m =
      if m = prev ∧ prev ≠ 0 then s.nxtFree else s.clusEntryVal m := by
  unfold linkNext
  split
  · rename_i hp
    rw [clusEntryVal_set h hprev hm, shown_of_le h (hold hp) hc]
    simp [hp]
  · rename_i hp
    rw [if_neg fun hand : m = prev ∧ prev ≠ 0 => hp hand.2]

/-- The entries of a free cluster and of the node before it, once the cluster is taken. -/
theorem takeFree_entry (h : s.WellFormed) (hc : s.nxtFree ≤ s.countOfClusters + 1)
    (hzero : zero = true → s.ZeroedOff s.nxtFree) (hprev : prev ≤ s.countOfClusters + 1)
    (hold : prev ≠ 0 → s.clusEntryVal prev < 0x10000000) (hne : prev ≠ s.nxtFree)
    (hm : m ≤ s.countOfClusters + 1) :
    (s.takeFree zero prev).clusEntryVal m =
      if m = s.nxtFree then s.shown s.nxtFree 0xffffffff
      else if m = prev ∧ prev ≠ 0 then s.nxtFree
      else s.clusEntryVal m := by
  have hmarked : ∀ k ≤ s.countOfClusters + 1, (s.markNext.zeroNext zero).clusEntryVal k =
      if k = s.nxtFree then s.shown s.nxtFree 0xffffffff else s.clusEntryVal k := by
    intro k hk
    rw [← markNext_entry h hc hk]
    exact zeroNext_entry (s := s.markNext) h hzero hk
  have hb : (s.markNext.zeroNext zero).toBpb = s.toBpb := by simp
  have hn : (s.markNext.zeroNext zero).nxtFree = s.nxtFree := by simp
  have hprev' : prev ≤ (s.markNext.zeroNext zero).countOfClusters + 1 := by rw [hb]; exact hprev
  have hlink := linkNext_entry (s := s.markNext.zeroNext zero) (m := m) (hb ▸ h)
    (by rw [hb, hn]; exact hc) hprev'
    (fun hp => by rw [hmarked prev hprev, if_neg hne]; exact hold hp) (by rw [hb]; exact hm)
  unfold takeFree
  rw [hlink, hn, hmarked m hm]
  by_cases hmn : m = s.nxtFree
  · rw [if_pos hmn, if_pos hmn, if_neg fun hand : m = prev ∧ prev ≠ 0 => hne (hand.1 ▸ hmn)]
  · rw [if_neg hmn, if_neg hmn]

theorem not_mem (ht : Taken s₀ s clus prev l) (hfree : s.clusEntryVal c = 0) : c ∉ l :=
  fun hc => (ht.marked c hc).1 hfree

theorem prev_mem (ht : Taken s₀ s clus prev l) (hp : prev ≠ 0) : prev ∈ l := by
  rcases ht.chain with ⟨-, -, h0⟩ | ⟨l', rfl, -⟩
  · exact absurd h0 hp
  · simp

/-- The chain that is left after the cluster `nxtFree` was taken. -/
theorem chain_takeFree (h : s₀.WellFormed) (ht : Taken s₀ s clus prev l)
    (hc : ¬ s₀.isEof c = true) (hfree : s.clusEntryVal c = 0) {next : Nat → Nat}
    (hnew : s₀.isEof (next c) = true) (hlink : prev ≠ 0 → next prev = c)
    (hsame : ∀ a ∈ l, a ≠ prev → next a = s.clusEntryVal a) :
    ∃ l', l ++ [c] = l' ++ [c] ∧ Chain next (fun c => s₀.isEof c = true)
      (if prev ≠ 0 then clus else c) (l ++ [c]) := by
  refine ⟨l, rfl, ?_⟩
  have hone : ∀ f : Nat → Nat, s₀.isEof (f c) = true →
      Chain f (fun c => s₀.isEof c = true) c [c] := by
    intro f hf
    refine ⟨fun a ha => ?_, f c, ⟨rfl, rfl⟩, hf⟩
    rw [List.mem_singleton.mp ha]
    exact hc
  rcases ht.chain with ⟨rfl, -, rfl⟩ | ⟨l', hl, hchain⟩
  · exact hone next hnew
  · have hcl := ht.not_mem hfree
    have hp : prev ∈ l := by simp [hl]
    have hlow : 2 ≤ prev := (ht.free prev hp).1.1
    have hne : prev ≠ c := fun heq => hcl (heq ▸ hp)
    have hjoin := ((hl ▸ hchain).update (hl ▸ hcl) (next c)).join
      (hone (Function.update s.clusEntryVal c (next c)) (by
        rw [Function.update_self]; exact hnew)) (by simpa using hne)
    rw [if_pos (by omega), hl]
    refine hjoin.congr fun a ha => ?_
    by_cases hap : a = prev
    · rw [hap, Function.update_self]
      exact hlink (by omega)
    · rw [Function.update_of_ne hap]
      by_cases hac : a = c
      · rw [hac, Function.update_self]
      · rw [Function.update_of_ne hac]
        refine hsame a ?_ hap
        rcases List.mem_append.mp ha with ha | ha
        · rw [hl]
          exact ha
        · exact absurd (List.mem_singleton.mp ha) hac

/-- One more cluster is taken. -/
theorem takeFree (h : s₀.WellFormed) (ht : Taken s₀ s clus prev l)
    (hc : s₀.IsCluster s.nxtFree) (hfree : s.clusEntryVal s.nxtFree = 0)
    (hzero : zero = true → s₀.ZeroedOff s.nxtFree) (hpos : 0 < s.freeCount) :
    Taken s₀ (s.takeFree zero prev) (if prev ≠ 0 then clus else s.nxtFree) s.nxtFree
      (l ++ [s.nxtFree]) := by
  have hb := ht.bpb
  have hs : s.WellFormed := hb ▸ h
  have hcl := ht.not_mem hfree
  have hprev : prev ≠ 0 → prev ≤ s₀.countOfClusters + 1 ∧ s.clusEntryVal prev < 0x10000000 :=
    fun hp => ⟨(ht.free prev (ht.prev_mem hp)).1.2, (ht.marked prev (ht.prev_mem hp)).2⟩
  have hne : prev ≠ s.nxtFree := by
    intro heq
    have hlow := hc.1
    exact hcl (heq ▸ ht.prev_mem (by omega))
  have hple : prev ≤ s.countOfClusters + 1 := by
    by_cases hp : prev = 0
    · omega
    · exact hb ▸ (hprev hp).1
  have hentry : ∀ m ≤ s₀.countOfClusters + 1, (s.takeFree zero prev).clusEntryVal m =
      if m = s.nxtFree then s.shown s.nxtFree 0xffffffff
      else if m = prev ∧ prev ≠ 0 then s.nxtFree
      else s.clusEntryVal m := fun m hm =>
    takeFree_entry hs (hb ▸ hc.2) (hb ▸ hzero) hple (fun hp => (hprev hp).2) hne (hb ▸ hm)
  have hend : s₀.isEof (s.shown s.nxtFree 0xffffffff) = true := hb ▸ isEof_shown hs rfl
  have hnew : (s.takeFree zero prev).clusEntryVal s.nxtFree = s.shown s.nxtFree 0xffffffff := by
    rw [hentry _ hc.2, if_pos rfl]
  have hsame : ∀ m ≤ s₀.countOfClusters + 1, m ≠ s.nxtFree → m ≠ prev →
      (s.takeFree zero prev).clusEntryVal m = s.clusEntryVal m := by
    intro m hm hmn hmp
    rw [hentry m hm, if_neg hmn, if_neg fun hand : m = prev ∧ prev ≠ 0 => hmp hand.1]
  have hlink : prev ≠ 0 → (s.takeFree zero prev).clusEntryVal prev = s.nxtFree := by
    intro hp
    rw [hentry _ (hprev hp).1, if_neg hne, if_pos ⟨rfl, hp⟩]
  refine ⟨?_, fun a ha => ?_, fun a ha => ?_, fun m hm hml => ?_, .inr ?_, ?_⟩
  · unfold FatFileSystem.takeFree
    simpa using hb
  · rcases List.mem_append.mp ha with ha | ha
    · exact ht.free a ha
    · rw [List.mem_singleton.mp ha]
      exact ⟨hc, by rw [← ht.entries _ hc.2 hcl, hfree]⟩
  · rcases List.mem_append.mp ha with ha | ha
    · have hane : a ≠ s.nxtFree := fun heq => hcl (heq ▸ ha)
      by_cases hap : a = prev
      · have hlow := (ht.free a ha).1.1
        rw [hap, hlink (by omega)]
        have := hc.1
        have := hc.2
        have := h.clusters
        omega
      · rw [hsame a (ht.free a ha).1.2 hane hap]
        exact ht.marked a ha
    · rw [List.mem_singleton.mp ha, hnew]
      refine ⟨?_, shown_lt (by omega)⟩
      have := (Bpb.isEof_iff h).mp hend
      omega
  · have hmn : m ≠ s.nxtFree := fun heq => hml (by simp [heq])
    have hl : m ∉ l := fun hmem => hml (List.mem_append_left _ hmem)
    by_cases hmp : m = prev ∧ prev ≠ 0
    · exact absurd (hmp.1 ▸ ht.prev_mem hmp.2) hl
    · rw [hentry m hm, if_neg hmn, if_neg hmp]
      exact ht.entries m hm hl
  · refine ht.chain_takeFree h ((Bpb.not_isEof h).mpr hc.2) hfree (hnew ▸ hend) hlink ?_
    intro a ha hap
    exact hsame a (ht.free a ha).1.2 (fun heq => hcl (heq ▸ ha)) hap
  · have hcount : (s.takeFree zero prev).freeCount = s.freeCount - 1 := by
      unfold FatFileSystem.takeFree
      rw [linkNext_freeCount, zeroNext_freeCount]
      exact sub32_of_le hpos
    have := ht.freeCount
    rw [hcount, List.length_append, List.length_singleton]
    omega

/-- The clusters taken so far are fewer than the scan has visited allows for freeing them. -/
theorem freed (h : s₀.WellFormed) (ht : Taken s₀ s clus prev l)
    (hcount : s₀.freeCount < 4294967296) :
    ∃ s', s.freeCluster clus = some s' ∧ Freed s s' l := by
  have hs : s.WellFormed := ht.bpb ▸ h
  have hsum := ht.freeCount
  rcases ht.chain with ⟨rfl, rfl, -⟩ | ⟨l', hl, hchain⟩
  · exact ⟨s, rfl, rfl, rfl, by simp, rfl⟩
  · refine freeCluster_spec hs ⟨by rw [ht.bpb]; exact hchain, fun c hc => (ht.free c hc).1.1, ?_⟩
      (fun c hc => (ht.marked c hc).2) (by omega)
    rw [hl]
    exact List.append_ne_nil_of_right_ne_nil _ (List.cons_ne_nil _ _)

end Taken

/-- A failed allocation: every entry and the count are as they were. -/
structure Restored (s s' : FatFileSystem) : Prop where
  bpb : s'.toBpb = s.toBpb
  entries : ∀ m ≤ s.countOfClusters + 1, s'.clusEntryVal m = s.clusEntryVal m
  freeCount : s'.freeCount = s.freeCount

/-- An allocation of `n` clusters: `l` was free and is a chain from `clus` now. -/
structure Allocated (s s' : FatFileSystem) (n clus : Nat) (l : List Nat) : Prop where
  bpb : s'.toBpb = s.toBpb
  chain : s'.ChainFrom clus l
  length : l.length = n
  free : ∀ c ∈ l, s.clusEntryVal c = 0
  marked : ∀ c ∈ l, s'.clusEntryVal c ≠ 0 ∧ s'.clusEntryVal c < 0x10000000
  entries : ∀ m ≤ s.countOfClusters + 1, m ∉ l → s'.clusEntryVal m = s.clusEntryVal m
  freeCount : s'.freeCount + n = s.freeCount

/-- The two ways in which `allocCluster` ends. -/
def AllocResult (s : FatFileSystem) (n clus : Nat) (s' : FatFileSystem) : Prop :=
  (s.isEof clus = true ∧ Restored s s') ∨
    (s.isEof clus = false ∧ ∃ l, Allocated s s' n clus l)

section Alloc

variable {s₀ : FatFileSystem} {clus prev : Nat} {zero : Bool}

/-- A scan that has visited every cluster gives back what it took. -/
theorem Taken.fail (h : s₀.WellFormed) (ht : Taken s₀ s clus prev l)
    (hcount : s₀.freeCount < 4294967296) (n : Nat) :
    ∃ clus' s', (s.freeCluster clus).map (fun s => (0xffffffff, s)) = some (clus', s') ∧
      AllocResult s₀ n clus' s' := by
  obtain ⟨s', hfree, hfreed⟩ := ht.freed h hcount
  refine ⟨0xffffffff, s', by rw [hfree]; rfl, .inl ⟨?_, hfreed.bpb.trans ht.bpb, ?_, ?_⟩⟩
  · rw [Bpb.isEof_iff h]
    have := h.clusters
    omega
  · intro m hm
    rw [hfreed.entries m (ht.bpb ▸ hm)]
    split
    · rename_i hml
      exact (ht.free m hml).2.symm
    · rename_i hml
      exact ht.entries m hm hml
  · rw [hfreed.freeCount, ht.freeCount]

/-- A scan that has taken all it was asked for. -/
theorem Taken.done (h : s₀.WellFormed) (ht : Taken s₀ s clus prev l) (hl : l ≠ []) :
    AllocResult s₀ l.length clus s := by
  obtain ⟨l', hl', hchain⟩ := ht.chain.resolve_left fun hnil => hl hnil.1
  have hfrom : s.ChainFrom clus l :=
    ⟨by rw [ht.bpb]; exact hchain, fun c hc => (ht.free c hc).1.1, hl⟩
  refine .inr ⟨?_, l, ht.bpb, hfrom, rfl, fun c hc => (ht.free c hc).2, ht.marked, ht.entries,
    ht.freeCount⟩
  rw [Bool.eq_false_iff]
  exact (Bpb.not_isEof h).mpr (ht.free clus hfrom.head_mem).1.2

/-- The start of a turn leaves `nxtFree` at a cluster, or at one of the two reserved entries that
    is in use. -/
theorem scanStart_spec (h : s₀.WellFormed) (ht : Taken s₀ s clus prev l)
    (hres : ∀ n, s.nxtFree ≤ n → n < 2 → s₀.clusEntryVal n ≠ 0) :
    Taken s₀ s.scanStart clus prev l ∧ s.scanStart.nxtFree ≤ s₀.countOfClusters + 1 ∧
      ∀ n, s.scanStart.nxtFree ≤ n → n < 2 → s₀.clusEntryVal n ≠ 0 := by
  have := h.someCluster
  unfold scanStart
  split
  · refine ⟨ht.nxtFree 2, ?_, fun n hn hn' => ?_⟩
    · show 2 ≤ _
      omega
    · exact absurd (show 2 ≤ n from hn) (by omega)
  · rename_i hne
    exact ⟨ht, (Bpb.not_isEof h).mp (ht.bpb ▸ hne), hres⟩

/-- The end of a turn. -/
theorem scanNext_spec (h : s₀.WellFormed) (ht : Taken s₀ s clus prev l)
    (hle : s.nxtFree ≤ s₀.countOfClusters + 1)
    (hres : ∀ n, s.nxtFree ≤ n → n < 2 → s₀.clusEntryVal n ≠ 0) :
    Taken s₀ s.scanNext clus prev l ∧
      ∀ n, s.scanNext.nxtFree ≤ n → n < 2 → s₀.clusEntryVal n ≠ 0 := by
  have := h.clusters
  refine ⟨ht.nxtFree _, fun n hn => hres n ?_⟩
  have hn : u32 (s.nxtFree + 1) ≤ n := hn
  rw [u32_of_lt (by omega)] at hn
  omega

theorem allocLoop_spec (h : s₀.WellFormed) (hcount : s₀.freeCount < 4294967296)
    (hzero : zero = true → ∀ c, s₀.IsCluster c → s₀.clusEntryVal c = 0 → s₀.ZeroedOff c)
    {fuel count : Nat} (ht : Taken s₀ s clus prev l)
    (hres : ∀ n, s.nxtFree ≤ n → n < 2 → s₀.clusEntryVal n ≠ 0)
    (hfuel : fuel + count = s₀.countOfClusters + 2) (hscan : count ≤ s₀.countOfClusters)
    (hn : n ≤ s.freeCount) (hl : n = 0 → l ≠ []) :
    ∃ clus' s', allocLoop zero fuel s n clus prev count = some (clus', s') ∧
      AllocResult s₀ (l.length + n) clus' s' := by
  induction fuel generalizing s n clus prev count l with
  | zero => omega
  | succ fuel ih =>
    rw [allocLoop]
    split
    · rename_i h0
      rw [h0]
      exact ⟨clus, s, rfl, ht.done h (hl h0)⟩
    · rename_i h0
      obtain ⟨ht, hle, hres⟩ := scanStart_spec h ht hres
      have hn : n ≤ s.scanStart.freeCount := by
        unfold scanStart
        split <;> exact hn
      simp only
      generalize s.scanStart = s at ht hle hres hn ⊢
      have hturns : ¬ s₀.countOfClusters < count + 1 → fuel + (count + 1) = s₀.countOfClusters + 2 ∧
          count + 1 ≤ s₀.countOfClusters := by omega
      split
      · -- a zero entry is not one of the two reserved ones
        rename_i hfree
        have hc : s₀.IsCluster s.nxtFree := by
          refine ⟨Nat.not_lt.mp fun hlt => hres _ (Nat.le_refl _) hlt ?_, hle⟩
          rw [← ht.entries _ hle (ht.not_mem hfree), hfree]
        have hold : s₀.clusEntryVal s.nxtFree = 0 := by
          rw [← ht.entries _ hle (ht.not_mem hfree), hfree]
        have htake := ht.takeFree h hc hfree (fun hz => hzero hz _ hc hold) (by omega)
        have hnext : (s.takeFree zero prev).nxtFree = s.nxtFree := by
          simp [FatFileSystem.takeFree]
        split
        · exact htake.fail h hcount _
        · rename_i hgo
          obtain ⟨hf, hs⟩ := hturns (ht.bpb ▸ hgo)
          obtain ⟨htake', hres'⟩ := scanNext_spec h htake (hnext ▸ hle) (hnext ▸ hres)
          have hleft : n - 1 ≤ (s.takeFree zero prev).scanNext.freeCount := by
            have h1 := htake.freeCount
            have h2 := ht.freeCount
            rw [List.length_append, List.length_singleton] at h1
            show n - 1 ≤ (s.takeFree zero prev).freeCount
            omega
          obtain ⟨clus', s', hloop, hresult⟩ := ih htake' hres' hf hs hleft fun _ => by simp
          refine ⟨clus', s', hloop, ?_⟩
          rw [List.length_append, List.length_singleton] at hresult
          rwa [show l.length + n = l.length + 1 + (n - 1) by omega]
      · split
        · exact ht.fail h hcount _
        · rename_i hgo
          obtain ⟨hf, hs⟩ := hturns (ht.bpb ▸ hgo)
          obtain ⟨ht', hres'⟩ := scanNext_spec h ht hle hres
          exact ih ht' hres' hf hs hn fun hn0 => absurd hn0 h0

/-- `allocCluster` hands out a chain of `n` clusters that were free, or fails without a trace. -/
theorem allocCluster_spec {z : Bool} (h : s.WellFormed) (hcount : s.freeCount < 4294967296)
    (ha : n ≠ 0 → n ≤ s.freeCount → s.Allocatable z) :
    ∃ clus s', s.allocCluster n z = some (clus, s') ∧ AllocResult s n clus s' := by
  unfold allocCluster
  split
  · refine ⟨0xffffffff, s, rfl, .inl ⟨?_, rfl, fun _ _ => rfl, rfl⟩⟩
    rw [Bpb.isEof_iff h]
    have := h.clusters
    omega
  · rename_i hgo
    have hn : n ≠ 0 ∧ n ≤ s.freeCount := by omega
    have ha := ha hn.1 hn.2
    have hspec := allocLoop_spec h hcount ha.zeroed (Taken.start s) ha.reserved
      (Nat.add_zero _) (Nat.zero_le _) hn.2 fun h0 => absurd h0 hn.1
    rwa [List.length_nil, Nat.zero_add] at hspec

end Alloc

end FatFileSystem

end EsOs.Fat
