import Mathlib.Data.Finset.Card
import EsOs.Fat.Proofs.Accounting
import EsOs.Fat.Proofs.Check

/-!
# When the consistency check ends

The walk of `check` ends as long as no count wraps: it is compared with the same walk over counts
that never wrap, which enters no directory twice. A count that comes round lets the walk enter a
directory again, and then it may never end.
-/

namespace EsOs.Fat

open EsOs.Lib

namespace FatDisk

variable {s : FatDisk} {clusRefs clusRefs' : ClusRefs} {f g : FatStream}

/-- The loop over the chain is the same over both kinds of counts as long as none passes 255. -/
theorem chainLoop_fits (h : s.WellFormed) {rounded turns chainLen clus : Nat} {n : Option Nat}
    (hres : s.chainLoop id rounded turns clusRefs chainLen clus = (n, clusRefs')) :
    (∀ c, clusRefs c ≤ clusRefs' c) ∧
      ((∀ c < s.countOfClusters + 2, clusRefs' c < 256) →
        s.chainLoop u8 rounded turns clusRefs chainLen clus = (n, clusRefs')) := by
  induction turns generalizing clusRefs chainLen clus with
  | zero =>
    cases hres
    exact ⟨fun _ => Nat.le_refl _, fun _ => rfl⟩
  | succ turns ih =>
    rw [chainLoop] at hres ⊢
    split at hres
    · rename_i heof
      cases hres
      exact ⟨fun _ => Nat.le_refl _, fun _ => if_pos heof⟩
    rename_i hnot
    rw [if_neg hnot]
    split at hres
    · rename_i hout
      cases hres
      exact ⟨fun _ => Nat.le_refl _, fun _ => if_pos hout⟩
    rename_i hin
    rw [if_neg hin]
    obtain ⟨-, hclus⟩ := Bpb.outOfRange_iff h (Bool.eq_false_iff.mpr hin)
    have hstep : ∀ c, clusRefs c ≤ clusRefs.inc id clus c := by
      intro c
      unfold ClusRefs.inc
      split
      · exact Nat.le_succ _
      · exact Nat.le_refl _
    have hsame : clusRefs clus + 1 < 256 → clusRefs.inc u8 clus = clusRefs.inc id clus := by
      intro hlt
      funext c
      unfold ClusRefs.inc
      split
      · rename_i heq
        rw [heq]
        exact Nat.mod_eq_of_lt hlt
      · rfl
    have hbelow : clusRefs.inc id clus clus ≤ clusRefs' clus →
        (∀ c < s.countOfClusters + 2, clusRefs' c < 256) → clusRefs clus + 1 < 256 := by
      intro hle hfits
      rw [inc_self] at hle
      exact Nat.lt_of_le_of_lt hle (hfits clus (by omega))
    simp only at hres ⊢
    split at hres
    · rename_i htwo
      cases hres
      refine ⟨hstep, fun hfits => ?_⟩
      rw [hsame (hbelow (Nat.le_refl _) hfits)]
      exact if_pos htwo
    rename_i hone
    split at hres
    · rename_i hpast
      cases hres
      refine ⟨hstep, fun hfits => ?_⟩
      rw [hsame (hbelow (Nat.le_refl _) hfits), if_neg hone]
      exact if_pos hpast
    rename_i hwithin
    obtain ⟨hle, hrest⟩ := ih hres
    refine ⟨fun c => Nat.le_trans (hstep c) (hle c), fun hfits => ?_⟩
    rw [hsame (hbelow (hle clus) hfits), if_neg hone, if_neg hwithin]
    exact hrest hfits

theorem checkChain_fits (h : s.WellFormed) {clean : Bool}
    (hres : s.checkChain id f clusRefs = (clean, clusRefs')) :
    (∀ c, clusRefs c ≤ clusRefs' c) ∧
      ((∀ c < s.countOfClusters + 2, clusRefs' c < 256) →
        s.checkChain u8 f clusRefs = (clean, clusRefs')) := by
  unfold checkChain at hres ⊢
  simp only at hres ⊢
  split at hres
  · rename_i refs hloop
    cases hres
    obtain ⟨hle, hsame⟩ := chainLoop_fits h hloop
    exact ⟨hle, fun hfits => by rw [hsame hfits]⟩
  · rename_i n refs hloop
    cases hres
    obtain ⟨hle, hsame⟩ := chainLoop_fits h hloop
    exact ⟨hle, fun hfits => by rw [hsame hfits]⟩

theorem checkAll_fits {check check' : FatStream → ClusRefs → Option (Bool × ClusRefs)} {m : Nat}
    (hcheck : ∀ f refs result refs', check f refs = some (result, refs') →
      (∀ c, refs c ≤ refs' c) ∧
        ((∀ c < m, refs' c < 256) → check' f refs = some (result, refs')))
    {fs : List FatStream} {before result : Bool}
    (hres : checkAll check fs before clusRefs = some (result, clusRefs')) :
    (∀ c, clusRefs c ≤ clusRefs' c) ∧
      ((∀ c < m, clusRefs' c < 256) →
        checkAll check' fs before clusRefs = some (result, clusRefs')) := by
  induction fs generalizing before clusRefs with
  | nil =>
    cases hres
    exact ⟨fun _ => Nat.le_refl _, fun _ => rfl⟩
  | cons f fs ih =>
    rw [checkAll] at hres ⊢
    split at hres
    · cases hres
    rename_i clean refs hf
    obtain ⟨hle, hsame⟩ := hcheck f clusRefs clean refs hf
    obtain ⟨hle', hrest⟩ := ih hres
    refine ⟨fun c => Nat.le_trans (hle c) (hle' c), fun hfits => ?_⟩
    rw [hsame fun c hc => Nat.lt_of_le_of_lt (hle' c) (hfits c hc)]
    exact hrest hfits

/-- As long as no count passes 255, the walk over counts that wrap does what the other one does. -/
theorem checkStream_fits (h : s.WellFormed) {depth : Nat} {result : Bool}
    (hres : s.checkStream id depth f clusRefs = some (result, clusRefs')) :
    (∀ c, clusRefs c ≤ clusRefs' c) ∧
      ((∀ c < s.countOfClusters + 2, clusRefs' c < 256) →
        s.checkStream u8 depth f clusRefs = some (result, clusRefs')) := by
  induction depth generalizing f clusRefs clusRefs' result with
  | zero => cases hres
  | succ depth ih =>
    have hentries : ∀ {fs refs refs' result}, checkAll (s.checkStream id depth) fs true refs
        = some (result, refs') → (∀ c, refs c ≤ refs' c) ∧
          ((∀ c < s.countOfClusters + 2, refs' c < 256) →
            checkAll (s.checkStream u8 depth) fs true refs = some (result, refs')) :=
      fun hres => checkAll_fits (fun _ _ _ _ hres => ih hres) hres
    rw [checkStream] at hres ⊢
    split at hres
    · rename_i hzero
      rw [if_pos hzero]
      split at hres
      · rename_i hdir
        rw [if_pos hdir]
        split at hres
        · rename_i hroot
          cases hres
          exact ⟨fun _ => Nat.le_refl _, fun _ => if_pos hroot⟩
        · rename_i hroot
          rw [if_neg hroot]
          exact hentries hres
      · rename_i hfile
        cases hres
        exact ⟨fun _ => Nat.le_refl _, fun _ => if_neg hfile⟩
    · rename_i hfirst
      rw [if_neg hfirst]
      split at hres
      · rename_i refs hcheck
        cases hres
        obtain ⟨hle, hsame⟩ := checkChain_fits h hcheck
        exact ⟨hle, fun hfits => by rw [hsame hfits]⟩
      · rename_i refs hcheck
        obtain ⟨hle, hsame⟩ := checkChain_fits h hcheck
        split at hres
        · rename_i hdir
          obtain ⟨hle', hrest⟩ := hentries hres
          refine ⟨fun c => Nat.le_trans (hle c) (hle' c), fun hfits => ?_⟩
          rw [hsame fun c hc => Nat.lt_of_le_of_lt (hle' c) (hfits c hc)]
          simp only [hdir, if_true]
          exact hrest hfits
        · rename_i hfile
          cases hres
          refine ⟨hle, fun hfits => ?_⟩
          rw [hsame hfits]
          simp only [hfile, Bool.false_eq_true, if_false]

/-- The clusters that nothing has referenced. -/
def unseen (s : FatDisk) (clusRefs : ClusRefs) : Nat :=
  ((Finset.range (s.countOfClusters + 2)).filter fun c => clusRefs c = 0).card

theorem unseen_le (hle : ∀ c, clusRefs c ≤ clusRefs' c) : s.unseen clusRefs' ≤ s.unseen clusRefs := by
  refine Finset.card_le_card fun c hc => ?_
  rw [Finset.mem_filter] at hc ⊢
  have := hle c
  exact ⟨hc.1, by omega⟩

theorem unseen_lt (hle : ∀ c, clusRefs c ≤ clusRefs' c) {c : Nat} (hc : c < s.countOfClusters + 2)
    (hnew : clusRefs c = 0) (hseen : clusRefs' c ≠ 0) :
    s.unseen clusRefs' < s.unseen clusRefs := by
  refine Finset.card_lt_card ⟨fun d hd => ?_, fun hsub => hseen ?_⟩
  · rw [Finset.mem_filter] at hd ⊢
    have := hle d
    exact ⟨hd.1, by omega⟩
  · exact (Finset.mem_filter.mp (hsub (Finset.mem_filter.mpr ⟨Finset.mem_range.mpr hc, hnew⟩))).2

theorem unseen_init (s : FatDisk) : s.unseen s.initRefs ≤ s.countOfClusters := by
  have hsub : ((Finset.range (s.countOfClusters + 2)).filter fun c => s.initRefs c = 0) ⊆
      (Finset.range s.countOfClusters).map ⟨fun c => c + 2, fun _ _ heq => Nat.add_right_cancel heq⟩ := by
    intro c hc
    obtain ⟨hrange, hzero⟩ := Finset.mem_filter.mp hc
    have := Finset.mem_range.mp hrange
    have hlow : ¬ c < 2 := by
      intro hlt
      rw [initRefs, if_pos hlt] at hzero
      cases hzero
    refine Finset.mem_map.mpr ⟨c - 2, Finset.mem_range.mpr (by omega), ?_⟩
    exact Nat.sub_add_cancel (by omega)
  exact (Finset.card_le_card hsub).trans (by rw [Finset.card_map, Finset.card_range])

/-- A chain that is found clean is empty, or its first cluster is new. -/
theorem checkChain_seen (h : s.WellFormed) (heof : ¬ s.isEof f.fstClus = true)
    (hres : s.checkChain id f clusRefs = (true, clusRefs')) :
    s.unseen clusRefs' < s.unseen clusRefs := by
  have hmono := (checkChain_fits h hres).1
  unfold checkChain at hres
  simp only at hres
  rw [chainLoop, if_neg heof] at hres
  split at hres
  · cases hres
  rename_i n refs hloop
  split at hloop
  · cases hloop
  rename_i hin
  obtain ⟨-, hclus⟩ := Bpb.outOfRange_iff h (Bool.eq_false_iff.mpr hin)
  simp only [inc_self] at hloop
  split at hloop
  · cases hloop
  rename_i hone
  simp only [id] at hone
  obtain ⟨-, rfl⟩ := Prod.mk.inj hres
  refine unseen_lt hmono (c := f.fstClus) (by omega) (by omega) ?_
  have hle : clusRefs.inc id f.fstClus f.fstClus ≤ refs f.fstClus := by
    split at hloop
    · cases hloop
      exact Nat.le_refl _
    · exact (chainLoop_fits h hloop).1 _
  rw [inc_self] at hle
  exact Nat.pos_iff_ne_zero.mp (Nat.lt_of_lt_of_le (Nat.succ_pos _) hle)

/-- A directory that begins with an end mark has no entries. -/
theorem entries_eq_nil (hopen : s.Opened f) (hdir : f.isDirectory = true)
    (heof : s.isEof f.fstClus = true) (hfirst : f.fstClus ≠ 0) : s.entries f = [] := by
  have hsize : f.size = 0 := by
    rw [hopen.1 hdir, calcSize, if_neg (fun hzero => hfirst hzero.1)]
    simp only [if_neg hfirst]
    rw [calcLoop, heof]
    rfl
  simp only [entries, hsize, Nat.zero_sub, Nat.zero_div]
  rfl

theorem checkAll_returns (h : s.WellFormed) {depth : Nat} {fs : List FatStream} {before : Bool}
    (hcheck : ∀ f ∈ fs, ∀ refs, s.unseen refs < depth →
      ∃ r, s.checkStream id depth f refs = some r)
    (hdepth : s.unseen clusRefs < depth) :
    ∃ r, checkAll (s.checkStream id depth) fs before clusRefs = some r := by
  induction fs generalizing before clusRefs with
  | nil => exact ⟨_, rfl⟩
  | cons f fs ih =>
    obtain ⟨⟨clean, refs⟩, hf⟩ := hcheck f List.mem_cons_self clusRefs hdepth
    have hle := unseen_le (s := s) (checkStream_fits h hf).1
    rw [checkAll, hf]
    exact ih (fun g hg => hcheck g (List.mem_cons_of_mem _ hg)) (Nat.lt_of_le_of_lt hle hdepth)

theorem notRoot_entry (hg : g ∈ s.entries f) : g.isRoot = false := by
  obtain ⟨fcb, rfl⟩ := entriesFrom_opened hg
  rfl

/-- The calls nest no deeper than there are clusters to be seen. -/
theorem checkStream_returns (h : s.WellFormed) {depth : Nat} (hopen : s.Opened f)
    (hroot : f.fstClus = 0 → f.isRoot = false) (hdepth : s.unseen clusRefs < depth) :
    ∃ r, s.checkStream id depth f clusRefs = some r := by
  induction depth generalizing f clusRefs with
  | zero => cases hdepth
  | succ depth ih =>
    rw [checkStream]
    split
    · rename_i hzero
      split
      · rw [hroot hzero, Bool.not_false, Bool.or_true]
        exact ⟨_, rfl⟩
      · exact ⟨_, rfl⟩
    · rename_i hfirst
      split
      · exact ⟨_, rfl⟩
      · rename_i refs hcheck
        split
        · rename_i hdir
          by_cases heof : s.isEof f.fstClus = true
          · rw [entries_eq_nil hopen hdir heof hfirst]
            exact ⟨_, rfl⟩
          · have hlt := checkChain_seen h heof hcheck
            refine checkAll_returns h (fun g hg refs hrefs => ?_) (by omega)
            exact ih (opened_entry hg) (fun _ => notRoot_entry hg) hrefs
        · exact ⟨_, rfl⟩

theorem root_returns (h : s.WellFormed) :
    ∃ r, s.checkStream id (s.countOfClusters + 2) s.root s.initRefs = some r := by
  have hunseen := s.unseen_init
  by_cases hzero : s.root.fstClus = 0
  · rw [checkStream, if_pos hzero]
    split
    · split
      · exact ⟨_, rfl⟩
      · refine checkAll_returns h (fun g hg refs hrefs => ?_) (by omega)
        exact checkStream_returns h (opened_entry hg) (fun _ => notRoot_entry hg) hrefs
    · exact ⟨_, rfl⟩
  · exact checkStream_returns h (opened_root s) (fun h0 => absurd h0 hzero) (by omega)

/-- A directory area of the tiny layout that begins with `content`. Every entry of the table is an
    end mark. -/
def tinyDisk (content : List UInt8) : FatDisk where
  toBpb := tinyBpb
  nxtFree := 2
  freeCount := 0
  disk := fun i => if i < 1024 then 0xff else content.getD (i - 1024) 0
  rootEntCnt := 16
  rootClus := 0
  firstRootDirSector := 2

/-- The entry of a file that begins at `clus` and has the size `size`. -/
def fileEntry (clus size : Nat) : List UInt8 :=
  List.replicate 11 0x41 ++ [0x20] ++ List.replicate 14 0 ++
    [UInt8.ofNat clus, UInt8.ofNat (clus / 256), UInt8.ofNat size, UInt8.ofNat (size / 256),
      UInt8.ofNat (size / 65536), UInt8.ofNat (size / 16777216)]

/-- The check ends when no cluster is referenced more often than its count can tell, and where it
    finds the volume clean, the volume is consistent exactly when no size of a file wrapped. -/
theorem check_sound (h : s.WellFormed) (hcounts : s.CountsFit) :
    (∃ depth result, s.check depth = some result) ∧
      ∀ depth, s.check depth = some true → (s.Consistent ↔ s.SizesFit) := by
  refine ⟨?_, fun depth hres => check_consistent h hres⟩
  obtain ⟨⟨result, refs⟩, hwalk⟩ := root_returns h
  refine ⟨s.countOfClusters + 2, result, ?_⟩
  have hfits : ∀ c < s.countOfClusters + 2, refs c < 256 := by
    intro c hc
    have := hcounts c hc
    rwa [references, hwalk] at this
  rw [check, (checkStream_fits h hwalk).2 hfits]
  rfl

theorem check_sound_tiny : (∃ depth result, (tinyDisk (fileEntry 2 512)).check depth = some result) ∧
    ∀ depth, (tinyDisk (fileEntry 2 512)).check depth = some true →
      ((tinyDisk (fileEntry 2 512)).Consistent ↔ (tinyDisk (fileEntry 2 512)).SizesFit) :=
  check_sound tinyBpb_wellFormed (by unfold CountsFit; decide +kernel)

/-- A file whose first cluster is an end mark, and whose size wraps when it is rounded up, is found
    clean although no cluster holds it. -/
theorem check_misses_size : tinyBpb.WellFormed ∧
    (tinyDisk (fileEntry 0xfff 0xffffffff)).check 4 = some true ∧
      ¬ (tinyDisk (fileEntry 0xfff 0xffffffff)).Consistent := by
  have hclean : (tinyDisk (fileEntry 0xfff 0xffffffff)).check 4 = some true := by decide +kernel
  refine ⟨tinyBpb_wellFormed, hclean, fun hs => ?_⟩
  have hfits := (check_consistent tinyBpb_wellFormed hclean).mp hs [0]
    ((tinyDisk (fileEntry 0xfff 0xffffffff)).openStream false
      fun i => (fileEntry 0xfff 0xffffffff).getD i 0)
  have hfits := hfits (by decide +kernel) (by decide +kernel) (by decide +kernel)
  revert hfits
  decide +kernel

/-- A directory of one cluster `c`. -/
structure OneCluster (s : FatDisk) (f : FatStream) (c : Nat) : Prop where
  directory : f.isDirectory = true
  first : f.fstClus = c
  cluster : s.IsCluster c
  good : s.isBadCluster c = false
  last : s.isEof (s.clusEntryVal c) = true
  size : s.roundedSize f.size = s.bytsPerClus

/-- The count of the cluster decides over the chain of such a directory. -/
theorem OneCluster.checkChain {c : Nat} (hone : s.OneCluster f c) (h : s.WellFormed) :
    s.checkChain u8 f clusRefs = (decide (u8 (clusRefs c + 1) < 2), clusRefs.inc u8 c) := by
  obtain ⟨hlow, hhigh⟩ := hone.cluster
  have hpos := h.clus_pos
  have hclusters := h.clusters
  have hin : s.outOfRange c = false := by
    simp only [Bpb.outOfRange, hone.good, Bool.or_eq_false_iff, decide_eq_false_iff_not, and_true]
    rw [u32_of_lt (by omega)]
    omega
  have heof : ¬ s.isEof c = true := (Bpb.not_isEof h).mpr hhigh
  have hturns : s.bytsPerClus / s.bytsPerClus + 1 = 2 := by rw [Nat.div_self hpos]
  have hloop : s.chainLoop u8 s.bytsPerClus 2 clusRefs 0 c =
      if 2 ≤ u8 (clusRefs c + 1) then (none, clusRefs.inc u8 c)
      else (some s.bytsPerClus, clusRefs.inc u8 c) := by
    rw [chainLoop, if_neg heof, hin]
    simp only [Bool.false_eq_true, if_false, inc_self, Nat.zero_add, Nat.lt_irrefl]
    rw [chainLoop, if_pos hone.last]
  unfold FatDisk.checkChain
  simp only [hone.size, hone.first, hturns, hloop]
  by_cases hcount : 2 ≤ u8 (clusRefs c + 1)
  · rw [if_pos hcount, decide_eq_false (by omega)]
  · rw [if_neg hcount, decide_eq_true (by omega)]
    simp only [beq_self_eq_true]

/-- A directory of one cluster with 255 entries that are the directory itself: the count comes round
    before the entries are over, so that the walk enters it again. -/
theorem checkStream_endless {c : Nat} (hone : s.OneCluster f c) (h : s.WellFormed)
    (hself : ∀ g ∈ s.entries f, g = f) (hlen : 255 ≤ (s.entries f).length) (depth : Nat)
    (hcount : u8 (clusRefs c + 1) < 2) : s.checkStream u8 depth f clusRefs = none := by
  have hfirst : f.fstClus ≠ 0 := by
    have := hone.cluster.1
    rw [hone.first]
    omega
  induction depth generalizing clusRefs with
  | zero => rfl
  | succ depth ih =>
    -- the count comes to zero or one within the next `turns` entries
    have hentries : ∀ {turns refs before}, (∃ j < turns, u8 (refs c + 1 + j) < 2) →
        checkAll (s.checkStream u8 depth) (List.replicate turns f) before refs = none := by
      intro turns
      induction turns with
      | zero =>
        rintro refs before ⟨j, hj, -⟩
        cases hj
      | succ turns iht =>
        rintro refs before ⟨j, hj, hwrap⟩
        rw [List.replicate_succ, checkAll]
        by_cases hnow : u8 (refs c + 1) < 2
        · rw [ih hnow]
        cases depth with
        | zero => rfl
        | succ depth =>
          rw [checkStream, if_neg hfirst, hone.checkChain h, decide_eq_false hnow]
          refine iht ⟨j - 1, ?_, ?_⟩
          · have : j ≠ 0 := fun hzero => hnow (by simpa only [hzero, Nat.add_zero] using hwrap)
            omega
          · have : j ≠ 0 := fun hzero => hnow (by simpa only [hzero, Nat.add_zero] using hwrap)
            rw [inc_self]
            unfold u8 at *
            omega
    rw [checkStream, if_neg hfirst, hone.checkChain h, decide_eq_true hcount]
    simp only [hone.directory, if_true]
    rw [List.eq_replicate_of_mem hself]
    refine hentries ?_
    rw [inc_self]
    rcases Nat.lt_or_ge (u8 (clusRefs c + 1)) 1 with hzero | hpos
    · refine ⟨0, by omega, ?_⟩
      unfold u8 at *
      omega
    · refine ⟨254, by omega, ?_⟩
      unfold u8 at *
      omega

theorem openStream_congr {a b : Fcb} (h : ∀ i < 32, a i = b i) (isRoot : Bool) :
    s.openStream isRoot a = s.openStream isRoot b := by
  have hclus : a.fstClus = b.fstClus := by
    simp only [Fcb.fstClus, Disk.word, h 20, h 21, h 26, h 27, Nat.reduceAdd, Nat.reduceLT]
  have hdir : a.isDirectory = b.isDirectory := by
    simp only [Fcb.isDirectory, Fcb.attr, h 11, Nat.reduceLT]
  simp only [openStream, hclus, hdir, Disk.word, Disk.dword, h 20, h 21, h 26, h 27, h 28, h 29,
    h 30, h 31, Nat.reduceAdd, Nat.reduceLT]

/-- A directory that holds one entry over and over. -/
theorem entriesFrom_repeated {ent : Fcb} {n pos : Nat} (hfree : ent.isFreeEntry = false)
    (hlong : ent.isLongNameComponent = false) (hlabel : ent.isVolumeID = false)
    (h : ∀ p < pos + 32 * n, s.dirByte f p = ent (p % 32)) (hpos : pos % 32 = 0) :
    s.entriesFrom f n pos = List.replicate n (s.openStream false ent) := by
  induction n generalizing pos with
  | zero => rfl
  | succ n ih =>
    have hent : ∀ i < 32, s.dirByte f (pos + i) = ent i := by
      intro i hi
      rw [h (pos + i) (by omega)]
      congr 1
      omega
    have hfree' : Fcb.isFreeEntry (fun i => s.dirByte f (pos + i)) = false := by
      rw [← hfree]
      simp only [Fcb.isFreeEntry, hent 0, Nat.reduceLT]
    have hlong' : Fcb.isLongNameComponent (fun i => s.dirByte f (pos + i)) = false := by
      rw [← hlong]
      simp only [Fcb.isLongNameComponent, Fcb.attr, hent 11, Nat.reduceLT]
    have hlabel' : Fcb.isVolumeID (fun i => s.dirByte f (pos + i)) = false := by
      rw [← hlabel]
      simp only [Fcb.isVolumeID, Fcb.attr, hent 11, Nat.reduceLT]
    rw [entriesFrom]
    simp only [hfree', hlong', hlabel', Bool.or_self, Bool.false_eq_true, if_false]
    rw [openStream_congr hent, ih (fun p hp => h p (by omega)) (by omega), List.replicate_succ]

/-- The tiny layout with clusters of 512 entries. -/
def wideBpb : Bpb :=
  { tinyBpb with secPerClus := 32, bytsPerClus := 16384, firstDataSector := 3 }

/-- The entry of a directory at cluster 2. -/
def selfEntry : Fcb :=
  let bytes : List UInt8 := List.replicate 11 0x41 ++ [0x10] ++ List.replicate 14 0 ++ [2]
  fun i => bytes.getD i 0

/-- A volume whose directories all hold nothing but that entry. -/
def selfDisk : FatDisk where
  toBpb := wideBpb
  nxtFree := 2
  freeCount := 0
  disk := fun i => if i < 1024 then 0xff else selfEntry (i % 32)
  rootEntCnt := 16
  rootClus := 0
  firstRootDirSector := 2

theorem selfDisk_read (sector p : Nat) (hlow : 2 ≤ sector) (hhigh : sector < 100) :
    selfDisk.disk (u32 (u32 sector * 512) + p % 512) = selfEntry (p % 32) := by
  rw [u32_of_lt (n := sector) (by omega), u32_of_lt (by omega)]
  show (if _ then _ else _) = _
  rw [if_neg (by omega)]
  congr 1
  omega

theorem selfDisk_root : selfDisk.entries selfDisk.root =
    List.replicate 16 (selfDisk.openStream false selfEntry) := by
  refine @entriesFrom_repeated selfDisk _ selfEntry _ _ (by decide) (by decide) (by decide) (fun p hp => ?_) rfl
  have hp : p < 512 := hp
  exact selfDisk_read (2 + p / 512) p (by omega) (by omega)

theorem selfDisk_entries : selfDisk.entries (selfDisk.openStream false selfEntry) =
    List.replicate 510 (selfDisk.openStream false selfEntry) := by
  refine @entriesFrom_repeated selfDisk _ selfEntry _ _ (by decide) (by decide) (by decide) (fun p hp => ?_) rfl
  have hp : p < 16384 := hp
  have hturns : p / 16384 = 0 := by omega
  show selfDisk.disk (u32 (u32 (selfDisk.firstSectorOfCluster (FatStream.followLoop
    selfDisk.toFatFileSystem (p / 16384) 2) + p % 16384 / 512) * 512) + p % 512) = _
  rw [hturns]
  exact selfDisk_read (3 + p % 16384 / 512) p (by omega) (by omega)

theorem wideBpb_wellFormed : wideBpb.WellFormed :=
  { tinyBpb_wellFormed with cluster := ⟨14, by decide, rfl⟩ }

/-- The check of that volume never returns. -/
theorem selfDisk_endless (depth : Nat) : selfDisk.check depth = none := by
  have hone : selfDisk.OneCluster (selfDisk.openStream false selfEntry) 2 :=
    ⟨by decide +kernel, by decide +kernel, ⟨by decide, by decide⟩, rfl, by decide +kernel,
      by decide +kernel⟩
  have hself : ∀ g ∈ selfDisk.entries (selfDisk.openStream false selfEntry),
      g = selfDisk.openStream false selfEntry := by
    intro g hg
    rw [selfDisk_entries] at hg
    exact List.eq_of_mem_replicate hg
  have hlen : 255 ≤ (selfDisk.entries (selfDisk.openStream false selfEntry)).length := by
    rw [selfDisk_entries, List.length_replicate]
    decide
  cases depth with
  | zero => rfl
  | succ depth =>
    have hfirst : selfDisk.checkStream u8 depth (selfDisk.openStream false selfEntry)
        selfDisk.initRefs = none :=
      checkStream_endless hone wideBpb_wellFormed hself hlen depth (by decide +kernel)
    have hroot : selfDisk.checkStream u8 (depth + 1) selfDisk.root selfDisk.initRefs =
        checkAll (selfDisk.checkStream u8 depth) (selfDisk.entries selfDisk.root) true
          selfDisk.initRefs := rfl
    rw [check, hroot, selfDisk_root, List.replicate_succ, checkAll, hfirst]
    rfl

/-- The check finds a volume clean that is not consistent, and never returns on another. -/
theorem check_fails : (tinyDisk (fileEntry 0xfff 0xffffffff)).check 4 = some true ∧
    ¬ (tinyDisk (fileEntry 0xfff 0xffffffff)).Consistent ∧ ∀ depth, selfDisk.check depth = none :=
  ⟨check_misses_size.2.1, check_misses_size.2.2, selfDisk_endless⟩

end FatDisk

end EsOs.Fat
