import EsOs.Fat.Check
import EsOs.Fat.Proofs.SetSize

/-!
# What the consistency check finds

Where `check` returns `true`, every count it made went from zero to one: the chains it followed are
in range, none meets itself and no two meet, and each is as long as the size, rounded up in 32 bits,
says.
-/

namespace EsOs.Fat

open EsOs.Lib

namespace Bpb

variable {s : Bpb} {size : Nat}

theorem outOfRange_iff (h : s.WellFormed) {clus : Nat} (hin : s.outOfRange clus = false) :
    s.IsCluster clus := by
  have := h.clusters
  simp only [outOfRange, Bool.or_eq_false_iff, decide_eq_false_iff_not] at hin
  obtain ⟨⟨hlo, -⟩, hhi⟩ := hin
  rw [u32_of_lt (by omega)] at hhi
  exact ⟨by omega, by omega⟩

/-- The rounded size is that of the clusters the size needs, as long as its sum does not wrap. -/
theorem roundedSize_eq (h : s.WellFormed) (hs : size + s.bytsPerClus ≤ 4294967296) :
    s.roundedSize size = s.clustersFor size * s.bytsPerClus := by
  have hpos := h.clus_pos
  unfold roundedSize
  rw [u32_of_lt (by omega), clusterMask_eq h (by omega)]
  rfl

/-- The rounded size is zero when the sum wraps. -/
theorem roundedSize_wraps (h : s.WellFormed) (hlt : size < 4294967296)
    (hs : 4294967296 < size + s.bytsPerClus) : s.roundedSize size = 0 := by
  have hclus := h.clus_lt
  unfold roundedSize u32
  rw [clusterMask_eq h (Nat.mod_lt _ (by decide)),
    Nat.div_eq_of_lt (by omega), Nat.zero_mul]

end Bpb

namespace FatDisk

variable {s : FatDisk} {clusRefs clusRefs' clusRefs'' : ClusRefs} {f g : FatStream}

@[simp] theorem inc_self (wrap : Nat → Nat) (clusRefs : ClusRefs) (c : Nat) :
    clusRefs.inc wrap c c = wrap (clusRefs c + 1) :=
  if_pos rfl

theorem inc_of_ne (wrap : Nat → Nat) (clusRefs : ClusRefs) {c n : Nat} (h : n ≠ c) :
    clusRefs.inc wrap c n = clusRefs n :=
  if_neg h

/-- A count below two that is not above one after a step of a `u8` was zero. -/
theorem u8_succ {n : Nat} (hle : n ≤ 1) (h : ¬ 2 ≤ u8 (n + 1)) : n = 0 ∧ u8 (n + 1) = 1 := by
  unfold u8 at *
  omega

/-- What the loop over the chain has done when it leaves with a length that has not passed the size:
    it has followed a whole chain of clusters that no one had referenced. -/
theorem chainLoop_whole (h : s.WellFormed) {rounded turns chainLen clus n : Nat}
    (hle : ∀ c, clusRefs c ≤ 1) (hturns : rounded < chainLen + turns * s.bytsPerClus)
    (hres : s.chainLoop u8 rounded turns clusRefs chainLen clus = (some n, clusRefs'))
    (hn : n ≤ rounded) :
    ∃ l, Chain s.clusEntryVal (fun c => s.isEof c = true) clus l ∧
      n = chainLen + l.length * s.bytsPerClus ∧
      (∀ c ∈ l, s.IsCluster c ∧ clusRefs c = 0 ∧ clusRefs' c = 1) ∧
      ∀ c ∉ l, clusRefs' c = clusRefs c := by
  induction turns generalizing clusRefs chainLen clus with
  | zero =>
    unfold chainLoop at hres
    cases hres
    omega
  | succ turns ih =>
    unfold chainLoop at hres
    split at hres
    · rename_i heof
      cases hres
      exact ⟨[], .nil heof, by simp, by simp, by simp⟩
    rename_i hnot
    split at hres
    · cases hres
    rename_i hin
    have hcluster := Bpb.outOfRange_iff h (Bool.eq_false_iff.mpr hin)
    simp only [inc_self] at hres
    split at hres
    · cases hres
    rename_i hcount
    obtain ⟨hzero, hone⟩ := u8_succ (hle clus) hcount
    split at hres
    · cases hres
      omega
    have hle' : ∀ c, clusRefs.inc u8 clus c ≤ 1 := by
      intro c
      unfold ClusRefs.inc
      split
      · rename_i heq
        rw [heq, hone]
      · exact hle c
    obtain ⟨l, hchain, hlen, hcounted, hkept⟩ :=
      ih hle' (by rw [Nat.add_mul] at hturns; omega) hres
    have hwhole : Chain s.clusEntryVal (fun c => s.isEof c = true) clus (clus :: l) := by
      obtain ⟨t, hpath, ht⟩ := hchain.ends
      exact ⟨List.forall_mem_cons.mpr ⟨hnot, hchain.nodes⟩, t, ⟨rfl, hpath⟩, ht⟩
    obtain ⟨hnew, -⟩ := List.nodup_cons.mp hwhole.nodup
    refine ⟨clus :: l, hwhole, ?_, ?_, ?_⟩
    · rw [hlen, List.length_cons, Nat.add_mul, Nat.one_mul]
      omega
    · refine List.forall_mem_cons.mpr ⟨⟨hcluster, hzero, ?_⟩, ?_⟩
      · rw [hkept clus hnew, inc_self, hone]
      · intro c hc
        obtain ⟨hc1, hc2, hc3⟩ := hcounted c hc
        have hne : c ≠ clus := fun heq => hnew (heq ▸ hc)
        rw [inc_of_ne _ _ hne] at hc2
        exact ⟨hc1, hc2, hc3⟩
    · intro c hc
      simp only [List.mem_cons, not_or] at hc
      rw [hkept c hc.2, inc_of_ne _ _ hc.1]

theorem checkChain_clean (h : s.WellFormed) (hle : ∀ c, clusRefs c ≤ 1)
    (hres : s.checkChain u8 f clusRefs = (true, clusRefs')) :
    ∃ l, Chain s.clusEntryVal (fun c => s.isEof c = true) f.fstClus l ∧
      l.length * s.bytsPerClus = s.roundedSize f.size ∧
      (∀ c ∈ l, s.IsCluster c ∧ clusRefs c = 0 ∧ clusRefs' c = 1) ∧
      ∀ c ∉ l, clusRefs' c = clusRefs c := by
  have hpos := h.clus_pos
  unfold checkChain at hres
  simp only at hres
  split at hres
  · cases hres
  · rename_i n refs hloop
    obtain ⟨hn, rfl⟩ := Prod.mk.inj hres
    have hn := beq_iff_eq.mp hn
    have hturns : s.roundedSize f.size <
        0 + (s.roundedSize f.size / s.bytsPerClus + 1) * s.bytsPerClus := by
      rw [Nat.zero_add]
      exact Nat.lt_mul_of_div_lt (Nat.lt_succ_self _) hpos
    obtain ⟨l, hchain, hlen, hcounted, hkept⟩ :=
      chainLoop_whole h hle hturns hloop (Nat.le_of_eq hn.symm)
    exact ⟨l, hchain, by omega, hcounted, hkept⟩

theorem ChainOf.unique {l k : List Nat} (hl : s.ChainOf f l) (hk : s.ChainOf f k) : l = k := by
  rcases hl with ⟨h0, rfl⟩ | ⟨h0, hl⟩
  · rcases hk with ⟨-, rfl⟩ | ⟨h1, -⟩
    · rfl
    · exact absurd h0 h1
  · rcases hk with ⟨h1, -⟩ | ⟨-, hk⟩
    · exact absurd h1 h0
    · exact hl.unique hk

/-- The stream that is reached from the streams `fs` over the entries with the numbers `path`. -/
def among (s : FatDisk) (fs : List FatStream) : List Nat → Option FatStream
  | [] => none
  | i :: path => fs[i]?.bind fun next => s.below next path

/-- The stream itself, and nothing below it. -/
def alone (f : FatStream) : List Nat → Option FatStream
  | [] => some f
  | _ :: _ => none

theorem below_cons (hdir : f.isDirectory = true) (i : Nat) (path : List Nat) :
    s.below f (i :: path) = s.among (s.entries f) (i :: path) := by
  rw [below, if_pos hdir]
  rfl

/-- The comparison of the size of a file with the length of its chain. -/
def SizeMatches (s : FatDisk) (f : FatStream) (l : List Nat) : Prop :=
  l.length * s.bytsPerClus = s.roundedSize f.size ∧ (f.fstClus = 0 → f.size = 0)

/-- What a walk over the streams that `reach` names has done when it found nothing wrong. -/
structure Clean (s : FatDisk) (reach : List Nat → Option FatStream)
    (clusRefs clusRefs' : ClusRefs) : Prop where
  chain : ∀ path f, reach path = some f → ∃ l, s.ChainOf f l ∧ l.Nodup ∧
    (∀ c ∈ l, s.IsCluster c) ∧ (f.isDirectory = false → s.SizeMatches f l)
  counted : ∀ path f l, reach path = some f → s.ChainOf f l →
    ∀ c ∈ l, clusRefs c = 0 ∧ clusRefs' c = 1
  kept : ∀ c, clusRefs c ≠ 0 → clusRefs' c = clusRefs c
  le : ∀ c, clusRefs' c ≤ 1
  apart : ∀ path path' f g l k, reach path = some f → reach path' = some g → path ≠ path' →
    s.ChainOf f l → s.ChainOf g k → l.Disjoint k

namespace Clean

theorem nothing (s : FatDisk) (hle : ∀ c, clusRefs c ≤ 1) :
    s.Clean (s.among []) clusRefs clusRefs := by
  have hnone : ∀ path, s.among [] path = none := fun path => by cases path <;> rfl
  constructor
  · intro path f hf
    rw [hnone] at hf
    cases hf
  · intro path f l hf
    rw [hnone] at hf
    cases hf
  · exact fun _ _ => rfl
  · exact hle
  · intro path path' f g l k hf
    rw [hnone] at hf
    cases hf

/-- The rest of the entries after the first one. -/
theorem cons {fs : List FatStream} (hf : s.Clean (s.below f) clusRefs clusRefs')
    (hfs : s.Clean (s.among fs) clusRefs' clusRefs'') :
    s.Clean (s.among (f :: fs)) clusRefs clusRefs'' := by
  have hsplit : ∀ path g, s.among (f :: fs) path = some g →
      (∃ p, path = 0 :: p ∧ s.below f p = some g) ∨
        ∃ i p, path = (i + 1) :: p ∧ s.among fs (i :: p) = some g := by
    intro path g hg
    rcases path with _ | ⟨_ | i, p⟩
    · cases hg
    · exact .inl ⟨p, rfl, hg⟩
    · exact .inr ⟨i, p, rfl, hg⟩
  have hfirst : ∀ c, clusRefs' c = 1 → clusRefs'' c = 1 := by
    intro c hc
    rw [hfs.kept c (by omega), hc]
  -- a cluster of the first entry is counted before the rest is
  have hacross : ∀ p q g k l l', s.below f p = some g → s.among fs q = some k →
      s.ChainOf g l → s.ChainOf k l' → l.Disjoint l' := by
    intro p q g k l l' hg hk hl hl' c hc hc'
    have := (hf.counted p g l hg hl c hc).2
    have := (hfs.counted q k l' hk hl' c hc').1
    omega
  constructor
  · intro path g hg
    rcases hsplit path g hg with ⟨p, -, hp⟩ | ⟨i, p, -, hp⟩
    · exact hf.chain p g hp
    · exact hfs.chain _ g hp
  · intro path g l hg hl c hc
    rcases hsplit path g hg with ⟨p, -, hp⟩ | ⟨i, p, -, hp⟩
    · obtain ⟨hzero, hone⟩ := hf.counted p g l hp hl c hc
      exact ⟨hzero, hfirst c hone⟩
    · obtain ⟨hzero, hone⟩ := hfs.counted _ g l hp hl c hc
      refine ⟨Classical.byContradiction fun hne => ?_, hone⟩
      exact hne ((hf.kept c hne).symm.trans hzero)
  · intro c hc
    rw [hfs.kept c (by rwa [hf.kept c hc]), hf.kept c hc]
  · exact hfs.le
  · intro path path' g k l l' hg hk hne hl hl'
    rcases hsplit path g hg with ⟨p, rfl, hp⟩ | ⟨i, p, rfl, hp⟩
    · rcases hsplit path' k hk with ⟨q, rfl, hq⟩ | ⟨j, q, rfl, hq⟩
      · exact hf.apart p q g k l l' hp hq (fun heq => hne (by rw [heq])) hl hl'
      · exact hacross p _ g k l l' hp hq hl hl'
    · rcases hsplit path' k hk with ⟨q, rfl, hq⟩ | ⟨j, q, rfl, hq⟩
      · exact fun c hc hc' => hacross q _ k g l' l hq hp hl' hl hc' hc
      · refine hfs.apart _ _ g k l l' hp hq (fun heq => hne ?_) hl hl'
        obtain ⟨rfl, rfl⟩ := List.cons.inj heq
        rfl

/-- A stream without entries, its chain followed. -/
theorem leaf {l : List Nat} (hl : s.ChainOf f l) (hnodup : l.Nodup)
    (hcounted : ∀ c ∈ l, s.IsCluster c ∧ clusRefs c = 0 ∧ clusRefs' c = 1)
    (hkept : ∀ c ∉ l, clusRefs' c = clusRefs c) (hle : ∀ c, clusRefs c ≤ 1)
    (hsize : f.isDirectory = false → s.SizeMatches f l) :
    s.Clean (alone f) clusRefs clusRefs' := by
  have hown : ∀ path g, alone f path = some g → path = [] ∧ g = f := by
    intro path g hg
    cases path with
    | nil => exact ⟨rfl, (Option.some.inj hg).symm⟩
    | cons i path => cases hg
  constructor
  · intro path g hg
    obtain ⟨-, rfl⟩ := hown path g hg
    exact ⟨l, hl, hnodup, fun c hc => (hcounted c hc).1, hsize⟩
  · intro path g k hg hk c hc
    obtain ⟨-, rfl⟩ := hown path g hg
    rw [← hl.unique hk] at hc
    exact (hcounted c hc).2
  · intro c hc
    refine hkept c fun hin => hc ?_
    exact (hcounted c hin).2.1
  · intro c
    by_cases hc : c ∈ l
    · exact Nat.le_of_eq (hcounted c hc).2.2
    · rw [hkept c hc]
      exact hle c
  · intro path path' g k l l' hg hk hne
    exact absurd ((hown path g hg).1.trans (hown path' k hk).1.symm) hne

/-- A file is all there is below it. -/
theorem file (h : s.Clean (alone f) clusRefs clusRefs')
    (hfile : f.isDirectory = false) : s.Clean (s.below f) clusRefs clusRefs' := by
  have heq : s.below f = alone f := by
    funext path
    cases path with
    | nil => rfl
    | cons i path => rw [below, hfile]; rfl
  rw [heq]
  exact h

/-- A directory with what is below its entries. -/
theorem directory
    (hf : s.Clean (alone f) clusRefs clusRefs')
    (hfs : s.Clean (s.among (s.entries f)) clusRefs' clusRefs'') (hdir : f.isDirectory = true) :
    s.Clean (s.below f) clusRefs clusRefs'' := by
  have hsplit : ∀ path g, s.below f path = some g →
      (path = [] ∧ g = f) ∨ path ≠ [] ∧ s.among (s.entries f) path = some g := by
    intro path g hg
    cases path with
    | nil => exact .inl ⟨rfl, (Option.some.inj hg).symm⟩
    | cons i path =>
      rw [below_cons hdir] at hg
      exact .inr ⟨nofun, hg⟩
  have hacross : ∀ q k l l', s.among (s.entries f) q = some k → s.ChainOf f l → s.ChainOf k l' →
      l.Disjoint l' := by
    intro q k l l' hk hl hl' c hc hc'
    have := (hf.counted [] f l rfl hl c hc).2
    have := (hfs.counted q k l' hk hl' c hc').1
    omega
  constructor
  · intro path g hg
    rcases hsplit path g hg with ⟨rfl, rfl⟩ | ⟨-, hin⟩
    · exact hf.chain [] g rfl
    · exact hfs.chain path g hin
  · intro path g l hg hl c hc
    rcases hsplit path g hg with ⟨rfl, rfl⟩ | ⟨-, hin⟩
    · obtain ⟨hzero, hone⟩ := hf.counted [] g l rfl hl c hc
      exact ⟨hzero, by rw [hfs.kept c (by omega), hone]⟩
    · obtain ⟨hzero, hone⟩ := hfs.counted path g l hin hl c hc
      refine ⟨Classical.byContradiction fun hne => ?_, hone⟩
      exact hne ((hf.kept c hne).symm.trans hzero)
  · intro c hc
    rw [hfs.kept c (by rwa [hf.kept c hc]), hf.kept c hc]
  · exact hfs.le
  · intro path path' g k l l' hg hk hne hl hl'
    rcases hsplit path g hg with ⟨rfl, rfl⟩ | ⟨-, hin⟩
    · rcases hsplit path' k hk with ⟨rfl, -⟩ | ⟨-, hin'⟩
      · exact absurd rfl hne
      · exact hacross path' k l l' hin' hl hl'
    · rcases hsplit path' k hk with ⟨rfl, rfl⟩ | ⟨-, hin'⟩
      · exact fun c hc hc' => hacross path g l' l hin hl' hl hc' hc
      · exact hfs.apart path path' g k l l' hin hin' hne hl hl'

end Clean

theorem checkAll_result {check : FatStream → ClusRefs → Option (Bool × ClusRefs)}
    {fs : List FatStream} {result : Bool}
    (hres : checkAll check fs result clusRefs = some (true, clusRefs')) : result = true := by
  induction fs generalizing result clusRefs with
  | nil =>
    cases hres
    rfl
  | cons f fs ih =>
    rw [checkAll] at hres
    split at hres
    · cases hres
    · exact (Bool.and_eq_true_iff.mp (ih hres)).1

/-- The walk over the entries answers `true` only when each of them does. -/
theorem checkAll_clean {check : FatStream → ClusRefs → Option (Bool × ClusRefs)}
    (hcheck : ∀ f clusRefs clusRefs', (∀ c, clusRefs c ≤ 1) →
      check f clusRefs = some (true, clusRefs') → s.Clean (s.below f) clusRefs clusRefs')
    {fs : List FatStream} {result : Bool} (hle : ∀ c, clusRefs c ≤ 1)
    (hres : checkAll check fs result clusRefs = some (true, clusRefs')) :
    s.Clean (s.among fs) clusRefs clusRefs' := by
  induction fs generalizing result clusRefs with
  | nil =>
    cases hres
    exact .nothing s hle
  | cons f fs ih =>
    rw [checkAll] at hres
    split at hres
    · cases hres
    rename_i clean refs hf
    obtain ⟨-, rfl⟩ := Bool.and_eq_true_iff.mp (checkAll_result hres)
    have hfirst := hcheck f clusRefs refs hle hf
    exact hfirst.cons (ih hfirst.le hres)

/-- Where the check of a stream answers `true`, it has found nothing wrong below the stream. -/
theorem checkStream_clean (h : s.WellFormed) {depth : Nat} (hle : ∀ c, clusRefs c ≤ 1)
    (hres : s.checkStream u8 depth f clusRefs = some (true, clusRefs')) :
    s.Clean (s.below f) clusRefs clusRefs' := by
  induction depth generalizing f clusRefs clusRefs' with
  | zero => cases hres
  | succ depth ih =>
    have hentries : ∀ {fs refs refs'}, (∀ c, refs c ≤ 1) →
        checkAll (s.checkStream u8 depth) fs true refs = some (true, refs') →
        s.Clean (s.among fs) refs refs' :=
      fun hle hres => checkAll_clean (fun _ _ _ hle hres => ih hle hres) hle hres
    rw [checkStream] at hres
    split at hres
    · rename_i hzero
      have hchain : s.ChainOf f [] := .inl ⟨hzero, rfl⟩
      split at hres
      · rename_i hdir
        split at hres
        · cases hres
        have hown : s.Clean (alone f) clusRefs clusRefs :=
          .leaf hchain .nil (by simp) (fun _ _ => rfl) hle (fun hfile => by
            rw [hdir] at hfile
            cases hfile)
        exact hown.directory (hentries hle hres) hdir
      · rename_i hfile
        obtain ⟨hsize, rfl⟩ := Prod.mk.inj (Option.some.inj hres)
        have hsize := beq_iff_eq.mp hsize
        have hfile := Bool.eq_false_iff.mpr hfile
        refine (Clean.leaf hchain .nil (by simp) (fun _ _ => rfl) hle fun _ => ?_).file hfile
        have := h.clus_lt
        refine ⟨?_, fun _ => hsize⟩
        rw [hsize, Bpb.roundedSize_eq h (by omega), Bpb.clustersFor_zero h]
        rfl
    · rename_i hfirst
      split at hres
      · cases hres
      rename_i refs hcheck
      obtain ⟨l, hl, hlen, hcounted, hkept⟩ := checkChain_clean h hle hcheck
      have hown : s.Clean (alone f) clusRefs refs :=
        .leaf (.inr ⟨hfirst, hl⟩) hl.nodup hcounted hkept hle fun _ => ⟨hlen, fun hzero => absurd hzero hfirst⟩
      split at hres
      · rename_i hdir
        exact hown.directory (hentries hown.le hres) hdir
      · rename_i hfile
        obtain ⟨-, rfl⟩ := Prod.mk.inj (Option.some.inj hres)
        exact hown.file (Bool.eq_false_iff.mpr hfile)

theorem initRefs_le (s : FatDisk) (c : Nat) : s.initRefs c ≤ 1 := by
  unfold initRefs
  split
  · exact Nat.le_refl 1
  · split
    · exact Nat.le_refl 1
    · exact Nat.zero_le 1

theorem entriesFrom_opened {n pos : Nat} (hg : g ∈ s.entriesFrom f n pos) :
    ∃ fcb, g = s.openStream false fcb := by
  induction n generalizing pos with
  | zero => cases hg
  | succ n ih =>
    rw [entriesFrom] at hg
    split at hg
    · split at hg
      · cases hg
      · exact ih hg
    · split at hg
      · exact ih hg
      · rcases List.mem_cons.mp hg with rfl | hg
        · exact ⟨_, rfl⟩
        · exact ih hg

/-- The stream of a directory has the size that is calculated for it, and that of a file one that
    is read from 32 bits. -/
def Opened (s : FatDisk) (f : FatStream) : Prop :=
  (f.isDirectory = true → f.size = s.calcSize f.fstClus) ∧
    (f.isDirectory = false → f.size < 4294967296)

theorem opened_root (s : FatDisk) : s.Opened s.root :=
  ⟨fun _ => rfl, nofun⟩

theorem opened_entry (hg : g ∈ s.entries f) : s.Opened g := by
  obtain ⟨fcb, rfl⟩ := entriesFrom_opened hg
  refine ⟨fun hdir => if_pos hdir, fun hfile => ?_⟩
  have hsize : (s.openStream false fcb).size = Disk.dword fcb 28 :=
    if_neg (Bool.eq_false_iff.mp hfile)
  rw [hsize]
  exact Disk.dword_lt fcb 28

theorem opened_below (hf : s.Opened f) {path : List Nat} (hg : s.below f path = some g) :
    s.Opened g := by
  induction path generalizing f with
  | nil =>
    cases hg
    exact hf
  | cons i path ih =>
    rw [below] at hg
    split at hg
    · obtain ⟨next, hnext, hg⟩ := Option.bind_eq_some_iff.mp hg
      exact ih (opened_entry (List.mem_of_getElem? hnext)) hg
    · cases hg

/-- A chain that begins with an end mark has no clusters. -/
theorem ChainOf.eq_nil {l : List Nat} (hl : s.ChainOf f l) (heof : s.isEof f.fstClus = true) :
    l = [] := by
  rcases hl with ⟨-, rfl⟩ | ⟨-, hl⟩
  · rfl
  · exact hl.unique (.nil heof)

theorem Consistent.sizesFit (h : s.WellFormed) (hs : s.Consistent) : s.SizesFit := by
  intro path f hf hfile heof
  obtain ⟨l, hl, -, -, hlen⟩ := hs.chain path f hf
  have hlen := hlen hfile
  rw [hl.eq_nil heof] at hlen
  have := h.clus_lt
  rcases Nat.eq_zero_or_pos f.size with hzero | hpos
  · omega
  · have := Bpb.clustersFor_pos h hpos
    rw [← hlen] at this
    cases this

/-- When the sizes are rounded without a wrap, the comparison is that of the numbers of clusters. -/
theorem SizeMatches.length_eq (h : s.WellFormed) (hsizes : s.SizesFit) {path : List Nat}
    (hf : s.below s.root path = some f) (hfile : f.isDirectory = false) {l : List Nat}
    (hl : s.ChainOf f l) (hsize : s.SizeMatches f l) : l.length = s.clustersFor f.size := by
  obtain ⟨hlen, hzero⟩ := hsize
  have hpos := h.clus_pos
  have hlt := (opened_below (opened_root s) hf).2 hfile
  by_cases hfits : f.size + s.bytsPerClus ≤ 4294967296
  · rw [Bpb.roundedSize_eq h hfits] at hlen
    exact Nat.eq_of_mul_eq_mul_right hpos hlen
  · exfalso
    rw [Bpb.roundedSize_wraps h hlt (by omega)] at hlen
    have hnil : l = [] := by
      rcases Nat.mul_eq_zero.mp hlen with hlen | hlen
      · exact List.length_eq_zero_iff.mp hlen
      · omega
    rcases hl with ⟨hfirst, -⟩ | ⟨-, hl⟩
    · have := hzero hfirst
      have := h.clus_lt
      omega
    · rw [hnil] at hl
      obtain ⟨t, rfl, heof⟩ := hl.ends
      exact hfits (hsizes path f hf hfile heof)

/-- A volume that the check finds clean is consistent exactly when no size wrapped. -/
theorem check_consistent (h : s.WellFormed) {depth : Nat} (hres : s.check depth = some true) :
    s.Consistent ↔ s.SizesFit := by
  obtain ⟨⟨result, refs⟩, hcheck, rfl⟩ := Option.map_eq_some_iff.mp hres
  have hclean := checkStream_clean h s.initRefs_le hcheck
  refine ⟨fun hs => hs.sizesFit h, fun hsizes => ⟨fun path f hf => ?_, hclean.apart⟩⟩
  obtain ⟨l, hl, hnodup, hcluster, hsize⟩ := hclean.chain path f hf
  exact ⟨l, hl, hnodup, hcluster, fun hfile => (hsize hfile).length_eq h hsizes hf hfile hl⟩

end FatDisk

end EsOs.Fat
