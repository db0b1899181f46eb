import Mathlib
import EsOs.Fat.Volume
import EsOs.Fat.Proofs.Position

/-!
# Freeing a chain of a damaged volume

What `freeCluster` does on any content of the table. It visits the clusters that the links lead to,
and an entry that it has cleared leads it to entry 0.
-/

namespace EsOs.Fat

open EsOs.Lib

namespace FatFileSystem

variable {s s' : FatFileSystem} {c n m : Nat} {l v : List Nat}

@[simp] theorem freeTurn_bpb (s : FatFileSystem) (c : Nat) : (s.freeTurn c).toBpb = s.toBpb := rfl

theorem freeTurn_wellFormed (h : s.WellFormed) : (s.freeTurn c).WellFormed := h

theorem freeTurn_entry (h : s.WellFormed) (hc : c ≤ s.countOfClusters + 1)
    (hm : m ≤ s.countOfClusters + 1) :
    (s.freeTurn c).clusEntryVal m = if m = c then s.shown c 0 else s.clusEntryVal m := by
  have heq : (s.freeTurn c).clusEntryVal m = (s.setClusEntryVal c 0).clusEntryVal m :=
    clusEntryVal_congr rfl rfl m
  rw [heq, clusEntryVal_set h hc hm]

/-- A cleared entry leads to entry 0, unless its reserved bits made it an end mark before. -/
theorem shown_zero (h : s.WellFormed) (n : Nat) :
    s.shown n 0 = 0 ∨ s.isEof (s.shown n 0) = true ∧ s.isEof (s.clusEntryVal n) = true := by
  have hclusters := h.clusters
  rw [Bpb.isEof_iff h, Bpb.isEof_iff h]
  unfold shown
  split
  · exact .inl rfl
  · split
    · exact .inl rfl
    · omega

/-- The clusters that the loop visits, one turn after the other. -/
inductive Visits : FatFileSystem → Nat → List Nat → FatFileSystem → Prop where
  | done {s : FatFileSystem} {n : Nat} : s.isEof n = true → Visits s n [] s
  | turn {s s' : FatFileSystem} {n : Nat} {v : List Nat} : ¬ s.isEof n = true →
      Visits (s.freeTurn n) (s.clusEntryVal n) v s' → Visits s n (n :: v) s'

/-- The turns of the loop, for any number of them that is enough. -/
theorem freeLoop_iff {fuel : Nat} :
    freeLoop fuel s n = some s' ↔ ∃ v, Visits s n v s' ∧ v.length < fuel := by
  induction fuel generalizing s n with
  | zero => exact ⟨nofun, fun ⟨_, _, hlt⟩ => absurd hlt (Nat.not_lt_zero _)⟩
  | succ fuel ih =>
    rw [freeLoop]
    split
    · rename_i heof
      constructor
      · rintro ⟨⟩
        exact ⟨[], .done heof, Nat.succ_pos _⟩
      · rintro ⟨v, hv, -⟩
        cases hv with
        | done => rfl
        | turn hne => exact absurd heof hne
    · rename_i hne
      refine Iff.trans ih ⟨?_, ?_⟩
      · rintro ⟨v, hv, hlt⟩
        exact ⟨n :: v, .turn hne hv, Nat.succ_lt_succ hlt⟩
      · rintro ⟨v, hv, hlt⟩
        cases hv with
        | done heof => exact absurd heof hne
        | turn _ hv => exact ⟨_, hv, Nat.lt_of_succ_lt_succ hlt⟩

namespace Visits

theorem bpb (hv : Visits s n v s') : s'.toBpb = s.toBpb := by
  induction hv with
  | done => rfl
  | turn _ _ ih => exact ih

/-- Each turn counts one cluster. -/
theorem freeCount (hv : Visits s n v s') (hcount : s.freeCount < 4294967296) :
    s'.freeCount = u32 (s.freeCount + v.length) := by
  induction hv with
  | done => exact (u32_of_lt hcount).symm
  | turn _ _ ih =>
    rw [ih (Nat.mod_lt _ (by decide)), List.length_cons]
    show u32 (u32 _ + _) = u32 _
    unfold u32
    omega

theorem head_mem (hv : Visits s n v s') (hn : ¬ s.isEof n = true) : n ∈ v := by
  cases hv with
  | done heof => exact absurd heof hn
  | turn => exact .head _

theorem not_eof (hv : Visits s n v s') (hc : c ∈ v) : ¬ s.isEof c = true := by
  induction hv with
  | done => cases hc
  | turn hne _ ih =>
    rcases List.mem_cons.mp hc with rfl | hc
    · exact hne
    · exact ih hc

theorem le (hv : Visits s n v s') (h : s.WellFormed) (hc : c ∈ v) :
    c ≤ s.countOfClusters + 1 :=
  (Bpb.not_isEof h).mp (hv.not_eof hc)

/-- What the links lead to from a visited cluster is visited too. -/
theorem closed (hv : Visits s n v s') (h : s.WellFormed) (hc : c ∈ v) :
    s.isEof (s.clusEntryVal c) = true ∨ s.clusEntryVal c ∈ v := by
  induction hv with
  | done => cases hc
  | @turn s s' n v hne hv ih =>
    by_cases hcn : c = n
    · subst hcn
      by_cases heof : s.isEof (s.clusEntryVal c) = true
      · exact .inl heof
      · exact .inr (.tail _ (hv.head_mem heof))
    · have hmem : c ∈ v := (List.mem_cons.mp hc).resolve_left hcn
      have hle := (Bpb.not_isEof h).mp hne
      have hentry := freeTurn_entry h hle (hv.le (freeTurn_wellFormed h) hmem)
      rw [if_neg hcn] at hentry
      have := ih h hmem
      rw [hentry] at this
      exact this.imp_right (.tail _)

/-- Every cluster that the links lead to is visited. -/
theorem walk_mem (hv : Visits s n v s') (h : s.WellFormed) (i : Nat) :
    s.isEof (s.walk n i) = true ∨ s.walk n i ∈ v := by
  induction i with
  | zero =>
    by_cases heof : s.isEof n = true
    · exact .inl heof
    · exact .inr (hv.head_mem heof)
  | succ i ih =>
    rw [walk]
    split
    · rename_i heof
      exact .inl heof
    · rename_i hne
      exact hv.closed h (ih.resolve_left hne)

/-- Where no cluster is visited twice, the visited clusters are a chain of the table. -/
theorem chain (hv : Visits s n v s') (h : s.WellFormed) (hnodup : v.Nodup) :
    Chain s.clusEntryVal (fun c => s.isEof c = true) n v := by
  induction hv with
  | done heof => exact .nil heof
  | @turn s s' n v hne hv ih =>
    obtain ⟨hmem, hnodup⟩ := List.nodup_cons.mp hnodup
    have hle := (Bpb.not_isEof h).mp hne
    have hrest : Chain s.clusEntryVal (fun c => s.isEof c = true) (s.clusEntryVal n) v :=
      (ih h hnodup).congr fun c hc => by
        have hentry := freeTurn_entry h hle (hv.le (freeTurn_wellFormed h) hc)
        rw [if_neg fun hcn : c = n => hmem (hcn ▸ hc)] at hentry
        exact hentry.symm
    obtain ⟨t, hpath, ht⟩ := hrest.ends
    refine ⟨fun c hc => ?_, t, ⟨rfl, hpath⟩, ht⟩
    exact (Visits.turn hne hv).not_eof hc

/-- A chain is visited from its head to its end. -/
theorem of_chain (h : s.WellFormed)
    (hc : Chain s.clusEntryVal (fun c => s.isEof c = true) n l) : ∃ s', Visits s n l s' := by
  induction l generalizing s n with
  | nil =>
    obtain ⟨t, rfl, ht⟩ := hc.ends
    exact ⟨s, .done ht⟩
  | cons a l ih =>
    obtain ⟨rfl, hrest⟩ := hc.head
    have hne := hc.nodes n (.head _)
    have hn : n ∉ l := (List.nodup_cons.mp hc.nodup).1
    have hturn : Chain (s.freeTurn n).clusEntryVal (fun c => (s.freeTurn n).isEof c = true)
        (s.clusEntryVal n) l := by
      refine hrest.congr fun m hm => ?_
      have hle := (Bpb.not_isEof h).mp (hc.nodes m (.tail _ hm))
      rw [freeTurn_entry h ((Bpb.not_isEof h).mp hne) hle,
        if_neg fun hmn : m = n => hn (hmn ▸ hm)]
    obtain ⟨s', hv⟩ := ih (freeTurn_wellFormed h) hturn
    exact ⟨s', .turn hne hv⟩

/-- Where no cluster is visited twice, the visited entries are cleared and no others. -/
theorem entries (hv : Visits s n v s') (h : s.WellFormed) (hnodup : v.Nodup)
    (hm : m ≤ s.countOfClusters + 1) :
    s'.clusEntryVal m = if m ∈ v then s.shown m 0 else s.clusEntryVal m := by
  induction hv with
  | done => simp
  | @turn s s' n v hne hv ih =>
    obtain ⟨hmem, hnodup⟩ := List.nodup_cons.mp hnodup
    have hle := (Bpb.not_isEof h).mp hne
    have hentry := freeTurn_entry h hle hm
    have hshown : ∀ k, k ≠ n → k ≤ s.countOfClusters + 1 → (s.freeTurn n).shown k 0 = s.shown k 0 := by
      intro k hkn hk
      unfold shown
      rw [freeTurn_bpb, freeTurn_entry h hle hk, if_neg hkn]
    rw [ih (freeTurn_wellFormed h) hnodup hm]
    by_cases hmn : m = n
    · subst hmn
      rw [if_neg hmem, hentry, if_pos rfl, if_pos (.head _)]
    · rw [hentry, if_neg hmn, hshown m hmn hm]
      simp only [List.mem_cons, hmn, false_or]

end Visits

namespace Visits

/-- From an entry 0 that leads to itself the loop never comes to an end. -/
theorem entry_ne_zero (hv : Visits s 0 v s') (h : s.WellFormed) : s.clusEntryVal 0 ≠ 0 := by
  generalize hn : 0 = n at hv
  induction hv with
  | done heof =>
    subst hn
    rw [Bpb.isEof_iff h] at heof
    omega
  | @turn s s' n v hne hv ih =>
    subst hn
    intro hzero
    refine ih (freeTurn_wellFormed h) hzero.symm ?_
    rw [hzero, freeTurn_entry h (Nat.zero_le _) (Nat.zero_le _), if_pos rfl]
    rcases shown_zero h 0 with hshown | ⟨-, heof⟩
    · exact hshown
    · rw [hzero, Bpb.isEof_iff h] at heof
      omega

/-- The entry of a cluster that the loop comes back to leads to entry 0. -/
theorem turn_zero (hv : Visits (s.freeTurn n) (s.clusEntryVal n) v s') (h : s.WellFormed)
    (hne : ¬ s.isEof n = true) (hmem : n ∈ v) : (s.freeTurn n).clusEntryVal n = 0 := by
  have hle := (Bpb.not_isEof h).mp hne
  rw [freeTurn_entry h hle hle, if_pos rfl]
  refine (shown_zero h n).resolve_right fun heof => ?_
  cases hv with
  | done => cases hmem
  | turn hne _ => exact hne heof.2

theorem freeTurn_zero (h : s.WellFormed) (hne : ¬ s.isEof n = true)
    (hm : m ≤ s.countOfClusters + 1) (hzero : s.clusEntryVal m = 0) :
    (s.freeTurn n).clusEntryVal m = 0 := by
  rw [freeTurn_entry h ((Bpb.not_isEof h).mp hne) hm]
  split
  · rename_i heq
    subst heq
    rcases shown_zero h m with hshown | ⟨-, heof⟩
    · exact hshown
    · rw [hzero, Bpb.isEof_iff h] at heof
      omega
  · exact hzero

/-- Once entry 0 is cleared the loop visits each cluster once, and none whose entry is zero. -/
theorem nodup_of_zero (hv : Visits s n v s') (h : s.WellFormed) (hzero : s.clusEntryVal 0 = 0) :
    v.Nodup ∧ ∀ c ∈ v, s.clusEntryVal c ≠ 0 := by
  induction hv with
  | done => exact ⟨List.nodup_nil, nofun⟩
  | @turn s s' n v hne hv ih =>
    have hzero' := freeTurn_zero h hne (Nat.zero_le _) hzero
    obtain ⟨hnodup, hnonzero⟩ := ih (freeTurn_wellFormed h) hzero'
    have hn : s.clusEntryVal n ≠ 0 := by
      intro hn
      rw [hn] at hv
      exact hv.entry_ne_zero (freeTurn_wellFormed h) hzero'
    refine ⟨List.nodup_cons.mpr ⟨fun hmem => hnonzero n hmem (hv.turn_zero h hne hmem), hnodup⟩,
      fun c hc => ?_⟩
    rcases List.mem_cons.mp hc with rfl | hc
    · exact hn
    · intro hc0
      exact hnonzero c hc (freeTurn_zero h hne (hv.le (freeTurn_wellFormed h) hc) hc0)

/-- Behind a zero entry the loop clears entry 0, and no cluster is visited again. -/
theorem nodup_of_head (hv : Visits s n v s') (h : s.WellFormed) (hn : s.clusEntryVal n = 0) :
    v.Nodup ∧ ∀ c ∈ v, s.clusEntryVal c = 0 → c = n := by
  cases hv with
  | done => exact ⟨List.nodup_nil, nofun⟩
  | @turn _ _ _ v hne hv =>
    have hn' := freeTurn_zero h hne ((Bpb.not_isEof h).mp hne) hn
    rw [hn] at hv
    have h0 := hv.entry_ne_zero (freeTurn_wellFormed h)
    have hn0 : n ≠ 0 := by
      rintro rfl
      exact h0 hn'
    cases hv with
    | done heof =>
      rw [Bpb.isEof_iff (freeTurn_wellFormed h)] at heof
      omega
    | @turn _ _ _ v hne0 hv =>
      have hrest : v.Nodup ∧ n ∉ v ∧ 0 ∉ v ∧ ∀ c ∈ v, (s.freeTurn n).clusEntryVal c ≠ 0 := by
        by_cases hmem : v = []
        · subst hmem
          exact ⟨List.nodup_nil, List.not_mem_nil, List.not_mem_nil, nofun⟩
        · have hzero : ((s.freeTurn n).freeTurn 0).clusEntryVal 0 = 0 := by
            rw [freeTurn_entry (freeTurn_wellFormed h) (Nat.zero_le _) (Nat.zero_le _), if_pos rfl]
            refine (shown_zero (freeTurn_wellFormed h) 0).resolve_right fun heof => ?_
            cases hv with
            | done => exact hmem rfl
            | turn hne _ => exact hne heof.2
          obtain ⟨hnodup, hnonzero⟩ :=
            hv.nodup_of_zero (freeTurn_wellFormed (freeTurn_wellFormed h)) hzero
          have hkeep : ∀ c ∈ v, (s.freeTurn n).clusEntryVal c ≠ 0 := fun c hc hc0 =>
            hnonzero c hc (freeTurn_zero (freeTurn_wellFormed h) hne0
              (hv.le (freeTurn_wellFormed (freeTurn_wellFormed h)) hc) hc0)
          exact ⟨hnodup, fun hmem => hkeep n hmem hn', fun hmem => hnonzero 0 hmem hzero, hkeep⟩
      obtain ⟨hnodup, hnv, h0v, hkeep⟩ := hrest
      refine ⟨List.nodup_cons.mpr ⟨?_, List.nodup_cons.mpr ⟨h0v, hnodup⟩⟩, fun c hc hc0 => ?_⟩
      · rw [List.mem_cons]
        rintro (rfl | hmem)
        · exact hn0 rfl
        · exact hnv hmem
      · rcases List.mem_cons.mp hc with rfl | hc
        · rfl
        · exfalso
          rcases List.mem_cons.mp hc with rfl | hmem
          · exact h0 (freeTurn_zero h hne (Nat.zero_le _) hc0)
          · exact hkeep c hmem (freeTurn_zero h hne
              ((Visits.turn hne0 hv).le (freeTurn_wellFormed h) hc) hc0)

/-- The loop visits at most one cluster with a zero entry, and then none twice. -/
theorem nodup_of_mem_zero (hv : Visits s n v s') (h : s.WellFormed) (hc : c ∈ v)
    (hzero : s.clusEntryVal c = 0) : v.Nodup ∧ ∀ m ∈ v, s.clusEntryVal m = 0 → m = c := by
  induction hv with
  | done => cases hc
  | @turn s s' n v hne hv ih =>
    by_cases hn : s.clusEntryVal n = 0
    · obtain ⟨hnodup, hunique⟩ := (Visits.turn hne hv).nodup_of_head h hn
      rw [hunique c hc hzero]
      exact ⟨hnodup, hunique⟩
    · have hcv : c ∈ v := (List.mem_cons.mp hc).resolve_left fun hcn => hn (hcn ▸ hzero)
      have hcle := hv.le (freeTurn_wellFormed h) hcv
      obtain ⟨hnodup, hunique⟩ := ih (freeTurn_wellFormed h) hcv (freeTurn_zero h hne hcle hzero)
      refine ⟨List.nodup_cons.mpr ⟨fun hmem => ?_, hnodup⟩, fun m hm hm0 => ?_⟩
      · have := hunique n hmem (hv.turn_zero h hne hmem)
        subst this
        exact hn hzero
      · rcases List.mem_cons.mp hm with rfl | hm
        · exact absurd hm0 hn
        · exact hunique m hm (freeTurn_zero h hne (hv.le (freeTurn_wellFormed h) hm) hm0)

/-- The loop comes back to one cluster at most. -/
theorem length_le (hv : Visits s n v s') (h : s.WellFormed) :
    v.length ≤ s.countOfClusters + 3 := by
  have hbound : ∀ w : List Nat, w.Nodup → (∀ c ∈ w, c ≤ s.countOfClusters + 1) →
      w.length ≤ s.countOfClusters + 2 := by
    intro w hw hle
    have hsub : w ⊆ List.range (s.countOfClusters + 2) := fun c hc =>
      List.mem_range.mpr (Nat.lt_succ_of_le (hle c hc))
    simpa using (List.subperm_of_subset hw hsub).length_le
  have hall := fun c (hc : c ∈ v) => hv.le h hc
  have hsplit : v.Nodup ∨ ∃ a w, w.Nodup ∧ v ⊆ w ++ [a] ∧ w ⊆ v ∧ v.length = w.length + 1 := by
    clear hall hbound
    induction hv with
    | done => exact .inl List.nodup_nil
    | @turn s s' n v hne hv ih =>
      by_cases hmem : n ∈ v
      · obtain ⟨hnodup, -⟩ := hv.nodup_of_mem_zero (freeTurn_wellFormed h) hmem
          (hv.turn_zero h hne hmem)
        refine .inr ⟨n, v, hnodup, ?_, fun c hc => .tail _ hc, rfl⟩
        intro c hc
        rcases List.mem_cons.mp hc with rfl | hc
        · simp
        · exact List.mem_append_left _ hc
      · rcases ih (freeTurn_wellFormed h) with hnodup | ⟨a, w, hw, hvw, hwv, hlen⟩
        · exact .inl (List.nodup_cons.mpr ⟨hmem, hnodup⟩)
        · refine .inr ⟨a, n :: w, List.nodup_cons.mpr ⟨fun hn => hmem (hwv hn), hw⟩, ?_, ?_, ?_⟩
          · intro c hc
            rcases List.mem_cons.mp hc with rfl | hc
            · exact .head _
            · exact .tail _ (hvw hc)
          · intro c hc
            rcases List.mem_cons.mp hc with rfl | hc
            · exact .head _
            · exact .tail _ (hwv hc)
          · simp only [List.length_cons, hlen]
  rcases hsplit with hnodup | ⟨a, w, hw, -, hwv, hlen⟩
  · exact Nat.le_succ_of_le (hbound v hnodup hall)
  · have := hbound w hw fun c hc => hall c (hwv hc)
    omega

end Visits

/-- A loop that is not over after `countOfClusters + 4` tests is never over. -/
theorem freeLoop_ends (h : s.WellFormed) {fuel : Nat} (hloop : freeLoop fuel s n = some s') :
    freeLoop (s.countOfClusters + 4) s n = some s' := by
  obtain ⟨v, hv, -⟩ := freeLoop_iff.mp hloop
  exact freeLoop_iff.mpr ⟨v, hv, Nat.lt_succ_of_le (hv.length_le h)⟩

/-- `freeCluster` at a chain of clusters above 1 frees just that chain. -/
theorem freeCluster_chain (h : s.WellFormed) (hcount : s.freeCount < 4294967296)
    (hc : Chain s.clusEntryVal (fun c => s.isEof c = true) n l) (hlow : ∀ c ∈ l, 2 ≤ c)
    (hn : 2 ≤ n) : ∃ s', s.freeCluster n = some s' ∧ s.FreedOn s' n l := by
  have hlen := length_le_of_chain h hc hlow
  obtain ⟨s', hv⟩ := Visits.of_chain h hc
  refine ⟨s', ?_, fun c hcl => ⟨⟨hlow c hcl, hv.le h hcl⟩, ?_⟩, hc.nodup, fun c hcl => ?_,
    fun m hm hml => ?_, hv.freeCount hcount⟩
  · rw [freeCluster, if_pos hn]
    exact freeLoop_iff.mpr ⟨l, hv, by omega⟩
  · obtain ⟨i, hi, hget⟩ := List.getElem_of_mem hcl
    exact ⟨i, walk_chain hc (hget ▸ List.getElem?_eq_getElem hi)⟩
  · rw [hv.entries h hc.nodup (hv.le h hcl), if_pos hcl,
      clusEntryVal_set h (hv.le h hcl) (hv.le h hcl), if_pos rfl]
  · rw [hv.entries h hc.nodup hm, if_neg hml]

/-- `freeCluster` ends, frees clusters of the chain only and counts each of them once exactly when the
    links lead properly to an end. -/
theorem freeCluster_freedOn_iff (h : s.WellFormed) (hcount : s.freeCount < 4294967296) :
    (∃ s' l, s.freeCluster n = some s' ∧ s.FreedOn s' n l) ↔ s.EndsProperly n := by
  have hclusters := h.clusters
  constructor
  · rintro ⟨s', l, hfree, hfreed⟩
    refine Decidable.or_iff_not_imp_left.mpr fun hn => ?_
    rw [freeCluster, if_pos (by omega)] at hfree
    obtain ⟨v, hv, hlen⟩ := freeLoop_iff.mp hfree
    have hsub : l ⊆ v := by
      intro c hc
      obtain ⟨⟨-, hle⟩, i, rfl⟩ := hfreed.onChain c hc
      exact (hv.walk_mem h i).resolve_left ((Bpb.not_isEof h).mpr hle)
    have hperm := List.subperm_of_subset hfreed.nodup hsub
    have hle := hperm.length_le
    have hsame : v.length ≤ l.length := by
      have hturns := hv.freeCount hcount
      rw [hfreed.freeCount] at hturns
      unfold u32 at hturns
      omega
    have hlv := hperm.perm_of_length_le hsame
    refine ⟨v, hv.chain h (hlv.nodup_iff.mp hfreed.nodup), fun c hc => ?_⟩
    exact (hfreed.onChain c (hlv.mem_iff.mpr hc)).1.1
  · intro hends
    by_cases hn : n < 2
    · refine ⟨s, [], ?_, by simp, List.nodup_nil, by simp, fun _ _ _ => rfl, (u32_of_lt hcount).symm⟩
      rw [freeCluster, if_neg (by omega)]
    · obtain ⟨l, hc, hlow⟩ := hends.resolve_left hn
      obtain ⟨s', hfree⟩ := freeCluster_chain h hcount hc hlow (by omega)
      exact ⟨s', l, hfree⟩

end FatFileSystem

theorem freeCluster_freedOn_overlong :
    ∃ s' l, overlong.fs.freeCluster 2 = some s' ∧ overlong.fs.FreedOn s' 2 l :=
  (FatFileSystem.freeCluster_freedOn_iff tinyBpb_wellFormed (by decide)).mpr
    (.inr ⟨[2, 3], (overlong_chain.resolve_left fun h => by cases h.2).2.chain, by decide⟩)

/-- Clusters 2 and 3 of a tiny volume lead to each other. -/
def cyclic : FatFileSystem :=
  (tinyVolume [0xf8, 0xff, 0xff, 0x03, 0x20, 0x00, 0xff, 0x0f] 0 oneByte).fs

/-- The cycle leads on to entry 0, which is cleared and counted too. -/
theorem freeCluster_cyclic :
    cyclic.WellFormed ∧ ¬ ∃ s' l, cyclic.freeCluster 2 = some s' ∧ cyclic.FreedOn s' 2 l := by
  refine ⟨tinyBpb_wellFormed, ?_⟩
  rintro ⟨s', l, hfree, hfreed⟩
  have hzero : (cyclic.freeCluster 2).map (fun s => s.clusEntryVal 0) = some 0 := by decide +kernel
  have h0 : 0 ∉ l := fun hmem => absurd (hfreed.onChain 0 hmem).1.1 (by decide)
  rw [hfree, Option.map_some, Option.some.injEq, hfreed.kept 0 (Nat.zero_le _) h0] at hzero
  exact absurd hzero (by decide)

end EsOs.Fat
