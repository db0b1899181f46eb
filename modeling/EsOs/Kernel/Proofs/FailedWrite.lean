import Mathlib
import EsOs.Kernel.Proofs.Coverage

/-!
# A write-back that fails

`Page::sync` takes the marks off a page before it writes it. When a write fails, the last sector that
was marked is never written whole: what comes behind the failure is written too far to the front.
-/

namespace EsOs.Kernel

open Page

/-- The last group of the runs. -/
def LastOf (j : Nat) (runs : List (Nat × Nat)) (g : Nat) : Prop :=
  InRuns j runs g ∧ ∀ g', g < g' → ¬InRuns j runs g'

theorem exists_inRuns {j gap n : Nat} (hn : 0 < n) (rest : List (Nat × Nat)) :
    InRuns j ((gap, n) :: rest) (j + gap) :=
  .inl ⟨Nat.le_refl _, by omega⟩

theorem LastOf.cons {j gap n g : Nat} {rest : List (Nat × Nat)}
    (hrest : ∀ run ∈ rest, 0 < run.2) (h : LastOf j ((gap, n) :: rest) g) :
    (rest = [] ∧ g + 1 = j + gap + n) ∨ LastOf (j + gap + n) rest g := by
  obtain ⟨⟨hle, hlt⟩ | hin, hlast⟩ := h
  · match rest, hrest, hlast with
    | [], _, hlast =>
      refine .inl ⟨rfl, ?_⟩
      by_contra hne
      exact hlast (g + 1) (Nat.lt_succ_self g) (.inl ⟨by omega, by omega⟩)
    | (gap', n') :: rest, hrest, hlast =>
      have hn := hrest (gap', n') List.mem_cons_self
      exact absurd (.inr (exists_inRuns hn rest)) (hlast (j + gap + n + gap') (by omega))
  · exact .inr ⟨hin, fun g' hg' hin' => hlast g' hg' (.inr hin')⟩

theorem exists_last {runs : List (Nat × Nat)} (hruns : ∀ run ∈ runs, 0 < run.2) (hne : runs ≠ []) :
    ∀ j, ∃ g, LastOf j runs g := by
  induction runs with
  | nil => exact absurd rfl hne
  | cons run rest ih =>
    intro j
    obtain ⟨gap, n⟩ := run
    have hn := hruns (gap, n) List.mem_cons_self
    by_cases hrest : rest = []
    · subst hrest
      refine ⟨j + gap + n - 1, .inl ⟨by simp only at hn; omega, by simp only at hn; omega⟩, ?_⟩
      rintro g hg (⟨-, hlt⟩ | hin)
      · omega
      · exact hin
    · obtain ⟨g, hin, hlast⟩ :=
        ih (fun run hmem => hruns run (List.mem_cons_of_mem _ hmem)) hrest (j + gap + n)
      refine ⟨g, .inr hin, ?_⟩
      rintro g' hg' (⟨-, hlt⟩ | hin')
      · have := hin.le
        omega
      · exact hlast g' hg' hin'

/-- Sector `g` of the cache, of `sectorSize` bytes, was written whole. -/
def SectorWritten (sectorSize : Nat) (calls : List WriteCall) (g : Nat) : Prop :=
  ∀ i : Nat, g * sectorSize ≤ i → i < (g + 1) * sectorSize → Written calls i

namespace Backing

variable {σ : Type} (b : Backing σ)

/-- A run that is handed to a stream: it is written, or a write fails before its last byte. -/
theorem writeRun_spec (offset : Int) (fuel : Nat) :
    ∀ (len : Nat) (p : Progress σ), p.threw = false → len ≤ fuel →
      ∃ calls p', b.writeRun offset fuel len p = p' ∧ p'.calls = p.calls ++ calls ∧
        (∀ i, Written calls i → i < p.pos + len) ∧
        ((p'.pos = p.pos + len ∧ p'.threw = false ∧ (∀ c ∈ calls, ¬c.Failed) ∧
            ∀ i, p.pos ≤ i → i < p.pos + len → Written calls i) ∨
          (p'.pos < p.pos + len ∧ 0 < len ∧ (∃ c ∈ calls, c.Failed) ∧
            ∀ i, Written calls i → i + 1 < p.pos + len)) := by
  have hnone : ∀ p : Progress σ, p.threw = false →
      ∃ calls p', p = p' ∧ p'.calls = p.calls ++ calls ∧
        (∀ i, Written calls i → i < p.pos + (0 : Nat)) ∧
        ((p'.pos = p.pos + (0 : Nat) ∧ p'.threw = false ∧ (∀ c ∈ calls, ¬c.Failed) ∧
            ∀ i, p.pos ≤ i → i < p.pos + (0 : Nat) → Written calls i) ∨
          (p'.pos < p.pos + (0 : Nat) ∧ 0 < 0 ∧ (∃ c ∈ calls, c.Failed) ∧
            ∀ i, Written calls i → i + 1 < p.pos + (0 : Nat))) := by
    intro p hthrew
    exact ⟨[], p, rfl, (List.append_nil _).symm, fun i h => absurd h (not_written_nil i),
      .inl ⟨(Int.add_zero _).symm, hthrew, fun c hc => absurd hc List.not_mem_nil,
        fun i _ _ => by omega⟩⟩
  induction fuel with
  | zero =>
    intro len p hthrew hlen
    obtain rfl : len = 0 := by omega
    exact hnone p hthrew
  | succ fuel ih =>
    intro len p hthrew hlen
    rw [writeRun]
    split
    · rename_i hzero
      subst hzero
      exact hnone p hthrew
    rename_i hpos
    split
    · -- an exception
      refine ⟨_, _, rfl, rfl, fun i h => ?_, .inr ⟨by simp only; omega, by omega, ?_, fun i h => ?_⟩⟩
      · exact absurd (written_singleton.mp h) (WriteCall.moves_threw _ _ _)
      · exact ⟨_, List.mem_singleton_self _, trivial⟩
      · exact absurd (written_singleton.mp h) (WriteCall.moves_threw _ _ _)
    · rename_i s n hwrite
      have hn : n ≤ len := b.le_count _ _ _ _ (congrArg Prod.snd hwrite)
      simp only
      split
      · rename_i hfail
        refine ⟨_, _, rfl, rfl, fun i h => ?_,
          .inr ⟨by simp only; omega, by omega, ?_, fun i h => ?_⟩⟩
        · have := WriteCall.moves_count.mp (written_singleton.mp h)
          omega
        · exact ⟨_, List.mem_singleton_self _, hfail⟩
        · have := WriteCall.moves_count.mp (written_singleton.mp h)
          omega
      · rename_i hsome
        obtain ⟨calls, p', heq, hcalls, hbelow, hend⟩ := ih (len - n.toNat)
          ⟨s, p.pos + n, p.calls ++ [⟨p.pos, offset + p.pos, len, .count n⟩], false⟩ rfl (by omega)
        simp only at hbelow hend
        refine ⟨_, p', heq, hcalls.trans (List.append_assoc _ _ _), fun i h => ?_, ?_⟩
        · rcases written_append.mp h with h | h
          · have := WriteCall.moves_count.mp (written_singleton.mp h)
            omega
          · have := hbelow i h
            omega
        rcases hend with ⟨hpos', hthrew', hok, hall⟩ | ⟨hpos', hrest, ⟨c, hc, hfail⟩, hless⟩
        · refine .inl ⟨by omega, hthrew', fun c hc => ?_, fun i hge hlt => ?_⟩
          · rcases List.mem_append.mp hc with hc | hc
            · obtain rfl := List.mem_singleton.mp hc
              exact hsome
            · exact hok c hc
          · rw [written_append, written_singleton, WriteCall.moves_count]
            by_cases hfirst : i < p.pos + n
            · exact .inl ⟨hge, hfirst⟩
            · exact .inr (hall i (by omega) (by omega))
        · refine .inr ⟨by omega, by omega, ⟨c, List.mem_append_right _ hc, hfail⟩, fun i h => ?_⟩
          rcases written_append.mp h with h | h
          · have := WriteCall.moves_count.mp (written_singleton.mp h)
            omega
          · have := hless i h
            omega

/-- The runs handed to a stream: all of them are written, or the last group is not. -/
theorem walk_spec (offset : Int) {sectorSize : Nat} (hsize : 0 < sectorSize) :
    ∀ (runs : List (Nat × Nat)) (j : Nat) (p : Progress σ), (∀ run ∈ runs, 0 < run.2) →
      p.threw = false → p.pos ≤ (j * sectorSize : Nat) →
      ∃ calls, (b.walk offset sectorSize runs p).calls = p.calls ++ calls ∧
        ((p.pos = (j * sectorSize : Nat) ∧ (∀ c ∈ calls, ¬c.Failed) ∧
            ∀ g, InRuns j runs g → SectorWritten sectorSize calls g) ∨
          ((p.pos < (j * sectorSize : Nat) ∨ ∃ c ∈ calls, c.Failed) ∧
            ∀ g, LastOf j runs g → ¬Written calls (((g + 1) * sectorSize : Nat) - 1))) := by
  intro runs
  induction runs with
  | nil =>
    intro j p _ hthrew hpos
    refine ⟨[], (List.append_nil _).symm, ?_⟩
    rcases Int.lt_or_eq_of_le hpos with hlt | heq
    · exact .inr ⟨.inl hlt, fun g hlast => hlast.1.elim⟩
    · exact .inl ⟨heq, fun c hc => absurd hc List.not_mem_nil, fun g hin => hin.elim⟩
  | cons run rest ih =>
    intro j p hruns hthrew hpos
    obtain ⟨gap, m⟩ := run
    have hrest := fun run hmem => hruns run (List.mem_cons_of_mem (gap, m) hmem)
    have hgap : (gap : Int) * sectorSize = ((gap * sectorSize : Nat) : Int) := by simp
    have hstart : (j + gap) * sectorSize = j * sectorSize + gap * sectorSize := Nat.add_mul _ _ _
    have hnext : (j + gap + m) * sectorSize = (j + gap) * sectorSize + m * sectorSize :=
      Nat.add_mul _ _ _
    obtain ⟨calls, p', heq, hcalls, hbelow, hend⟩ := b.writeRun_spec offset (m * sectorSize)
      (m * sectorSize) { p with pos := p.pos + gap * sectorSize } hthrew (Nat.le_refl _)
    simp only [hgap] at hbelow hend
    -- the last group lies behind this run, or ends with it
    have hlast : ∀ g, LastOf (j + gap + m) rest g →
        ¬Written calls (((g + 1) * sectorSize : Nat) - 1) := by
      intro g hg hwritten
      have := hbelow _ hwritten
      have := Nat.mul_le_mul_right sectorSize hg.1.le
      have := Nat.add_one_mul g sectorSize
      omega
    have hnil : ∀ calls', (b.walk offset sectorSize rest p').calls = p'.calls ++ calls' →
        rest = [] → calls' = [] := by
      rintro calls' hcalls' rfl
      exact List.self_eq_append_right.mp hcalls'
    rw [walk, heq]
    rcases hend with ⟨hpos', hthrew', hok, hall⟩ | ⟨hpos', -, hfail, hless⟩
    · obtain ⟨calls', hcalls', hend'⟩ := ih (j + gap + m) p' hrest hthrew' (by omega)
      rw [hthrew']
      refine ⟨calls ++ calls', ?_, ?_⟩
      · rw [if_neg Bool.false_ne_true, hcalls', hcalls, List.append_assoc]
      rcases hend' with ⟨hnominal, hok', hall'⟩ | ⟨hbehind, hlast'⟩
      · refine .inl ⟨by omega, fun c hc => (List.mem_append.mp hc).elim (hok c) (hok' c), ?_⟩
        rintro g (⟨hge, hlt⟩ | hin) i hi hi'
        · have := Nat.mul_le_mul_right sectorSize hge
          have := Nat.mul_le_mul_right sectorSize (show g + 1 ≤ j + gap + m from hlt)
          exact written_append.mpr (.inl (hall i (by omega) (by omega)))
        · exact written_append.mpr (.inr (hall' g hin i hi hi'))
      · refine .inr ⟨?_, fun g hg hwritten => ?_⟩
        · rcases hbehind with hlt | ⟨c, hc, hfailed⟩
          · exact .inl (by omega)
          · exact .inr ⟨c, List.mem_append_right _ hc, hfailed⟩
        · rcases hg.cons hrest with ⟨hend, hg⟩ | hg
          · obtain rfl := hnil calls' hcalls' hend
            rw [List.append_nil, hg] at hwritten
            have hlt := hbehind.resolve_right fun h => List.not_mem_nil h.choose_spec.1
            have := hbelow _ hwritten
            omega
          · exact (written_append.mp hwritten).elim (hlast g hg) (hlast' g hg)
    · split
      · refine ⟨calls, hcalls, .inr ⟨.inr hfail, fun g hg hwritten => ?_⟩⟩
        rcases hg.cons hrest with ⟨-, hg⟩ | hg
        · rw [hg] at hwritten
          have := hless _ hwritten
          omega
        · exact hlast g hg hwritten
      · rename_i hthrew'
        obtain ⟨calls', hcalls', hend'⟩ :=
          ih (j + gap + m) p' hrest (Bool.not_eq_true _ ▸ hthrew') (by omega)
        obtain ⟨c, hc, hfailed⟩ := hfail
        refine ⟨calls ++ calls', ?_,
          .inr ⟨.inr ⟨c, List.mem_append_left _ hc, hfailed⟩, fun g hg hwritten => ?_⟩⟩
        · rw [hcalls', hcalls, List.append_assoc]
        rcases hg.cons hrest with ⟨hend, hg⟩ | hg
        · obtain rfl := hnil calls' hcalls' hend
          rw [List.append_nil, hg] at hwritten
          have := hless _ hwritten
          omega
        · rcases hend' with ⟨hnominal, -⟩ | ⟨-, hlast'⟩
          · omega
          · exact (written_append.mp hwritten).elim (hlast g hg) (hlast' g hg)

end Backing

/-- Sector `g` of the cache is to be written back: one of its pieces of 512 bytes is. -/
def CachedPage.SectorModified (sectorSize : Nat) (page : CachedPage) (g : Nat) : Prop :=
  ∃ k, k / (sectorSize / 512) = g ∧ page.Modified k

/-- Every modified sector that was not written is still marked afterwards. -/
def Flushed.LosesNothing (sectorSize : Nat) (f : Flushed) : Prop :=
  ∀ g, f.before.SectorModified sectorSize g →
    SectorWritten sectorSize f.calls g ∨ f.after.SectorModified sectorSize g

theorem sectorModified_iff {shift g : Nat} (hshift : 0 < shift) {page : CachedPage} :
    page.SectorModified (512 * shift) g ↔ page.changed = true ∧ Marked shift page.map g := by
  rw [CachedPage.SectorModified, Nat.mul_div_cancel_left _ (by decide)]
  constructor
  · rintro ⟨k, rfl, hchanged, hbit⟩
    exact ⟨hchanged, marked_of_testBit hshift hbit⟩
  · rintro ⟨hchanged, hmark⟩
    obtain ⟨k, hge, hlt, hbit⟩ := marked_iff.mp hmark
    refine ⟨k, ?_, hchanged, hbit⟩
    rw [Nat.div_eq_iff hshift]
    rw [Nat.mul_comm] at hge
    rw [Nat.mul_succ, Nat.mul_comm] at hlt
    omega

/-- A page that is left alone keeps its marks. -/
theorem losesNothing_same (sectorSize : Nat) (page : CachedPage) (calls : List WriteCall) :
    Flushed.LosesNothing sectorSize ⟨page, page, calls⟩ := fun _ h => .inr h

/-- Where nothing is marked, nothing is lost. -/
theorem losesNothing_clean {sectorSize : Nat} {page after : CachedPage} {calls : List WriteCall}
    (h : ∀ k, ¬page.Modified k) : Flushed.LosesNothing sectorSize ⟨page, after, calls⟩ := by
  rintro g ⟨k, -, hk⟩
  exact absurd hk (h k)

namespace Backing

variable {σ : Type} (b : Backing σ)

/-- `sync` of a dirty page in groups of up to 32 sectors of 512 bytes. -/
theorem sync_keeps_iff {shift : Nat} (hshift : 0 < shift) (hle : shift ≤ 32) {page after : CachedPage}
    (hchanged : page.changed = true) {fuel : Nat} {s : σ} {p : Progress σ}
    (h : b.sync (512 * shift) fuel page s = some (after, p)) :
    Flushed.LosesNothing (512 * shift) ⟨page, after, p.calls⟩ ↔ ∀ c ∈ p.calls, ¬c.Failed := by
  obtain ⟨runs, hpos, hruns, hsync⟩ :=
    b.sync_walk hshift hle hchanged (Nat.le_add_left 9 fuel) s
  rw [b.sync_mono _ (Nat.le_add_right fuel 9) h] at hsync
  cases hsync
  obtain ⟨calls, hcalls, hend⟩ := b.walk_spec page.offset (show 0 < 512 * shift by omega) runs 0
    ⟨s, 0, [], false⟩ hpos rfl (by simp)
  rw [List.nil_append] at hcalls
  rw [hcalls]
  rcases hend with ⟨-, hok, hall⟩ | ⟨hbehind, hlast⟩
  · refine iff_of_true (fun g hg => .inl ?_) hok
    exact hall g ((hruns g).mpr ((sectorModified_iff hshift).mp hg).2)
  · obtain ⟨c, hc, hfailed⟩ := hbehind.resolve_left (by simp)
    refine iff_of_false (fun hkeeps => ?_) fun hok => hok c hc hfailed
    have hne : runs ≠ [] := by
      rintro rfl
      rw [walk] at hcalls
      rw [← hcalls] at hc
      exact List.not_mem_nil hc
    obtain ⟨g, hg⟩ := exists_last hpos hne 0
    rcases hkeeps g ((sectorModified_iff hshift).mpr ⟨hchanged, (hruns g).mp hg.1⟩) with hw | hm
    · have hmul := Nat.add_one_mul g (512 * shift)
      have hbyte := hw ((g + 1) * (512 * shift) - 1) (by omega) (by omega)
      rw [Int.natCast_sub (by omega)] at hbyte
      exact hlast g hg hbyte
    · exact Bool.false_ne_true ((sectorModified_iff hshift).mp hm).1

/-- `sync` of any page, with sectors from 512 bytes to 32 KB. -/
theorem sync_losesNothing_iff {k : Nat} (hk : k ≤ 6) {page after : CachedPage} {fuel : Nat} {s : σ}
    {p : Progress σ} (h : b.sync (512 * 2 ^ k) fuel page s = some (after, p)) :
    Flushed.LosesNothing (512 * 2 ^ k) ⟨page, after, p.calls⟩ ↔ ∀ c ∈ p.calls, ¬c.Failed := by
  by_cases hchanged : page.changed = true
  · rcases Nat.lt_or_ge 5 k with hhuge | hle
    · obtain rfl : k = 6 := by omega
      by_cases hmap : page.map = 0
      · have hnone : ∀ i, ¬page.Modified i := by
          rintro i ⟨-, hbit⟩
          rw [hmap, Nat.zero_testBit] at hbit
          cases hbit
        have hcalls : p.calls = [] := by
          simp only [sync, if_pos hchanged] at h
          cases fuel with
          | zero => cases h
          | succ fuel =>
            simp only [syncLoop, if_pos hmap] at h
            cases h
            rfl
        rw [hcalls]
        exact iff_of_true (losesNothing_clean hnone) fun c hc => absurd hc List.not_mem_nil
      · rw [show 512 * 2 ^ 6 = 32768 from rfl, b.sync_stuck hchanged hmap] at h
        cases h
    · exact b.sync_keeps_iff (Nat.two_pow_pos k)
        (Nat.pow_le_pow_right (n := 2) (by decide) hle) hchanged h
  · rw [sync, if_neg hchanged] at h
    cases h
    exact iff_of_true (losesNothing_same _ _ _) fun c hc => absurd hc List.not_mem_nil

/-- `flush` of the changed pages. -/
theorem flush_losesNothing_iff {k : Nat} (hk : k ≤ 6) {fuel : Nat} :
    ∀ {pages : List CachedPage} {s s' : σ} {flushed : List Flushed},
      b.flush (512 * 2 ^ k) fuel pages s = some (flushed, s') →
      ((∀ f ∈ flushed, f.LosesNothing (512 * 2 ^ k)) ↔ ∀ f ∈ flushed, ∀ c ∈ f.calls, ¬c.Failed) := by
  intro pages
  induction pages with
  | nil =>
    rintro s s' flushed h
    cases h
    exact iff_of_true (fun f hf => absurd hf List.not_mem_nil) fun f hf => absurd hf List.not_mem_nil
  | cons page pages ih =>
    intro s s' flushed h
    rw [flush] at h
    split at h
    · cases h
    rename_i after p hsync
    have hhead := b.sync_losesNothing_iff hk hsync
    split at h
    · cases h
      simp only [List.forall_mem_cons, List.forall_mem_map, hhead]
      refine and_congr_right fun _ => iff_of_true (fun q _ => losesNothing_same _ q _) ?_
      exact fun q _ c hc => absurd hc List.not_mem_nil
    · split at h
      · cases h
      · rename_i rest s'' hrest
        cases h
        simp only [List.forall_mem_cons, hhead, ih hrest]

/-- Every modified sector that was not written stays marked, in `sync` and in `flush`, exactly when no
    write of theirs fails. -/
theorem losesNothing_iff {k : Nat} (hk : k ≤ 6) (fuel : Nat) :
    (∀ (page after : CachedPage) (s : σ) (p : Progress σ),
      b.sync (512 * 2 ^ k) fuel page s = some (after, p) →
        (Flushed.LosesNothing (512 * 2 ^ k) ⟨page, after, p.calls⟩ ↔ ∀ c ∈ p.calls, ¬c.Failed)) ∧
    ∀ (pages : List CachedPage) (s s' : σ) (flushed : List Flushed),
      b.flush (512 * 2 ^ k) fuel pages s = some (flushed, s') →
        ((∀ f ∈ flushed, f.LosesNothing (512 * 2 ^ k)) ↔
          ∀ f ∈ flushed, ∀ c ∈ f.calls, ¬c.Failed) :=
  ⟨fun _ _ _ _ => b.sync_losesNothing_iff hk, fun _ _ _ _ => b.flush_losesNothing_iff hk⟩

end Backing

/-- A file of 8192 bytes, in sectors of 512 bytes. -/
theorem losesNothing_iff_fat :
    (∀ (page after : CachedPage) (s : Unit) (p : Progress Unit),
      (fatBacking 8192).sync (512 * 2 ^ 0) 9 page s = some (after, p) →
        (Flushed.LosesNothing (512 * 2 ^ 0) ⟨page, after, p.calls⟩ ↔ ∀ c ∈ p.calls, ¬c.Failed)) ∧
    ∀ (pages : List CachedPage) (s s' : Unit) (flushed : List Flushed),
      (fatBacking 8192).flush (512 * 2 ^ 0) 9 pages s = some (flushed, s') →
        ((∀ f ∈ flushed, f.LosesNothing (512 * 2 ^ 0)) ↔
          ∀ f ∈ flushed, ∀ c ∈ f.calls, ¬c.Failed) :=
  (fatBacking 8192).losesNothing_iff (by decide) 9

/-- A stream that throws once and then takes all it is given. -/
def failingOnce : Backing Bool where
  write failed _ len := if failed then (true, .count len) else (true, .threw)
  le_count failed pos len n h := by
    cases failed with
    | false => cases h
    | true => exact Int.le_of_eq (WriteResult.count.inj h).symm

/-- The first page of a file after an exception: its sector was not written, no mark is left, and the
    next `sync`, for which the stream would take the bytes, makes no call. -/
theorem sync_loses :
    ∃ after p, failingOnce.sync 512 9 firstPage false = some (after, p) ∧ p.threw = true ∧
      ¬Flushed.LosesNothing 512 ⟨firstPage, after, p.calls⟩ ∧
      (failingOnce.sync 512 9 after p.stream).map (·.2.calls) = some [] := by
  refine ⟨⟨false, 0, 0, by decide⟩, ⟨true, 0, [⟨0, 0, 512, .threw⟩], true⟩, by decide +kernel, rfl,
    fun h => ?_, by decide +kernel⟩
  rcases h 0 ⟨0, rfl, rfl, by decide⟩ with hwritten | ⟨k, -, hchanged, -⟩
  · exact WriteCall.moves_threw _ _ _ (written_singleton.mp (hwritten 0 (by decide) (by decide)))
  · exact Bool.false_ne_true hchanged

end EsOs.Kernel
