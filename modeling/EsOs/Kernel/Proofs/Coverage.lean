import Mathlib
import EsOs.Kernel.WriteBack

/-!
# What a write-back covers

`Page::sync` over a stream of a FAT file system, whose clusters have between 512 bytes and 32 KB. As
long as a sector of the cache is no larger than a page, the modified bytes and no others are
written.
-/

namespace EsOs.Kernel

open Page

namespace WriteCall

variable {c : WriteCall} {i : Int}

theorem moves_threw (ptr pos : Int) (len : Nat) : ¬Moves ⟨ptr, pos, len, .threw⟩ i :=
  id

theorem moves_count {ptr pos n : Int} {len : Nat} :
    Moves ⟨ptr, pos, len, .count n⟩ i ↔ ptr ≤ i ∧ i < ptr + n :=
  Iff.rfl

end WriteCall

/-- One of the calls has written byte `i` of the page. -/
def Written (calls : List WriteCall) (i : Int) : Prop :=
  ∃ c ∈ calls, c.Moves i

theorem written_append {calls calls' : List WriteCall} {i : Int} :
    Written (calls ++ calls') i ↔ Written calls i ∨ Written calls' i := by
  simp only [Written, List.mem_append, or_and_right, exists_or]

theorem not_written_nil (i : Int) : ¬Written [] i := by
  rintro ⟨c, hc, -⟩
  exact List.not_mem_nil hc

theorem written_singleton {c : WriteCall} {i : Int} : Written [c] i ↔ c.Moves i := by
  simp only [Written, List.mem_singleton, exists_eq_left]

/-- All calls write the bytes of the page to their own place in the stream. -/
def InPlace (offset : Int) (calls : List WriteCall) : Prop :=
  ∀ c ∈ calls, c.pos = offset + c.ptr

theorem InPlace.append {offset : Int} {calls calls' : List WriteCall} (h : InPlace offset calls)
    (h' : InPlace offset calls') : InPlace offset (calls ++ calls') := fun c hc =>
  (List.mem_append.mp hc).elim (h c) (h' c)

theorem InPlace.singleton (offset ptr : Int) (len : Nat) (r : WriteResult) :
    InPlace offset [⟨ptr, offset + ptr, len, r⟩] := by
  rintro c hc
  obtain rfl := List.mem_singleton.mp hc
  rfl

/-- Sector `k` of the page is to be written back. -/
def CachedPage.Modified (page : CachedPage) (k : Nat) : Prop :=
  page.changed = true ∧ page.map.testBit k = true

/-- What the calls of a write-back are to do for a page over a stream of `size` bytes. -/
structure Coverage (page : CachedPage) (size : Nat) (calls : List WriteCall) : Prop where
  /-- Every modified byte below the end of the stream is written at its own offset. -/
  written : ∀ i : Nat, i < 4096 → page.Modified (i / 512) → page.offset + i < size →
    ∃ c ∈ calls, c.Moves i ∧ c.pos + (i - c.ptr) = page.offset + i
  /-- No byte outside the page is read or written. -/
  inside : ∀ c ∈ calls, ∀ i, c.Moves i → 0 ≤ i ∧ i < 4096 ∧
    (page.offset : Int) ≤ c.pos + (i - c.ptr) ∧ c.pos + (i - c.ptr) < page.offset + 4096

namespace Backing

theorem fat_write_behind {size : Nat} {pos : Int} (h : (size : Int) < pos) (u : Unit) (len : Nat) :
    (fatBacking size).write u pos len = ((), .threw) := by
  simp only [fatBacking, if_pos h]

theorem fat_write {size : Nat} {pos : Int} (h : pos ≤ size) (u : Unit) (len : Nat) :
    (fatBacking size).write u pos len = ((), .count (min (len : Int) (size - pos))) := by
  simp only [fatBacking, if_neg (Int.not_lt.mpr h)]

/-- A run that is written to the stream of a file: what lies below its end is written. -/
theorem writeRun_fat (size offset : Nat) (fuel : Nat) :
    ∀ (len : Nat) (p : Progress Unit), p.threw = false → len ≤ fuel →
      ∃ calls p', (fatBacking size).writeRun offset fuel len p = p' ∧
        p'.calls = p.calls ++ calls ∧ InPlace offset calls ∧
        (∀ i, Written calls i ↔ p.pos ≤ i ∧ i < p.pos + len ∧ offset + i < size) ∧
        p.pos ≤ p'.pos ∧ p'.pos ≤ p.pos + len ∧
        (p'.pos = p.pos + len ∧ p'.threw = false ∨ size ≤ offset + p'.pos) := by
  have hnone : ∀ p : Progress Unit, p.threw = false →
      ∃ calls p', p = p' ∧ p'.calls = p.calls ++ calls ∧ InPlace offset calls ∧
        (∀ i, Written calls i ↔ p.pos ≤ i ∧ i < p.pos + (0 : Nat) ∧ offset + i < size) ∧
        p.pos ≤ p'.pos ∧ p'.pos ≤ p.pos + (0 : Nat) ∧
        (p'.pos = p.pos + (0 : Nat) ∧ p'.threw = false ∨ size ≤ offset + p'.pos) := by
    intro p hthrew
    refine ⟨[], p, rfl, (List.append_nil _).symm, fun c hc => absurd hc List.not_mem_nil,
      fun i => ?_, Int.le_refl _, Int.le_of_eq (Int.add_zero _).symm,
      .inl ⟨(Int.add_zero _).symm, hthrew⟩⟩
    exact iff_of_false (not_written_nil i) (by omega)
  induction fuel with
  | zero =>
    intro len p hthrew hlen
    obtain rfl : len = 0 := by omega
    exact hnone p hthrew
  | succ fuel ih =>
    intro len p hthrew hlen
    rw [writeRun]
    split
    · rename_i hzero
      subst hzero
      exact hnone p hthrew
    rename_i hpos
    by_cases hbehind : (size : Int) < offset + p.pos
    · rw [fat_write_behind hbehind]
      refine ⟨_, _, rfl, rfl, .singleton _ _ _ _, fun i => ?_, Int.le_refl _, ?_, .inr ?_⟩
      · rw [written_singleton]
        exact iff_of_false (WriteCall.moves_threw _ _ _) (by omega)
      · simp only
        omega
      · simp only
        omega
    rw [fat_write (Int.not_lt.mp hbehind)]
    simp only
    split
    · refine ⟨_, _, rfl, rfl, .singleton _ _ _ _, fun i => ?_, ?_, ?_, .inr ?_⟩
      · rw [written_singleton, WriteCall.moves_count]
        omega
      · simp only
        omega
      · simp only
        omega
      · simp only
        omega
    · generalize hn : min (len : Int) (size - (offset + p.pos)) = n at *
      obtain ⟨calls, p', heq, hcalls, hplace, hwritten, hle, hge, hend⟩ :=
        ih (len - n.toNat) ⟨(), p.pos + n, p.calls ++ [⟨p.pos, offset + p.pos, len, .count n⟩], false⟩
          rfl (by omega)
      refine ⟨_, p', heq, hcalls.trans (List.append_assoc _ _ _),
        (InPlace.singleton _ _ _ _).append hplace, fun i => ?_, by simp only at hle; omega,
        by simp only at hge; omega, hend.imp_left ?_⟩
      · rw [written_append, written_singleton, WriteCall.moves_count, hwritten]
        simp only
        omega
      · rintro ⟨hpos', hthrew'⟩
        simp only at hpos'
        exact ⟨by omega, hthrew'⟩

/-- The bytes of the groups from `j` on, `n` of them. -/
theorem div_mem_iff {sectorSize : Nat} (hpos : 0 < sectorSize) (j n i : Nat) :
    (j ≤ i / sectorSize ∧ i / sectorSize < j + n) ↔
      j * sectorSize ≤ i ∧ i < j * sectorSize + n * sectorSize := by
  rw [Nat.le_div_iff_mul_le hpos, Nat.div_lt_iff_lt_mul hpos, Nat.add_mul]

/-- Over the stream of a file the bytes of the runs are written that lie below its end. -/
theorem walk_fat (size offset : Nat) {sectorSize : Nat} (hsize : 0 < sectorSize) :
    ∀ (runs : List (Nat × Nat)) (j : Nat) (p : Progress Unit), p.threw = false → 0 ≤ p.pos →
      (p.pos = (j * sectorSize : Nat) ∨
        size ≤ offset + p.pos ∧ p.pos ≤ (j * sectorSize : Nat)) →
      ∃ calls, ((fatBacking size).walk offset sectorSize runs p).calls = p.calls ++ calls ∧
        InPlace offset calls ∧
        ∀ i, Written calls i ↔
          ∃ n : Nat, i = n ∧ InRuns j runs (n / sectorSize) ∧ offset + n < size := by
  intro runs
  induction runs with
  | nil =>
    intro j p hthrew hnonneg hpos
    refine ⟨[], (List.append_nil _).symm, fun c hc => absurd hc List.not_mem_nil, fun i => ?_⟩
    refine iff_of_false (not_written_nil i) ?_
    rintro ⟨n, -, hin, -⟩
    exact hin
  | cons run rest ih =>
    intro j p hthrew hnonneg hpos
    obtain ⟨gap, m⟩ := run
    have hgap : (gap : Int) * sectorSize = ((gap * sectorSize : Nat) : Int) := by simp
    have hstart : (j + gap) * sectorSize = j * sectorSize + gap * sectorSize := Nat.add_mul _ _ _
    have hnext : (j + gap + m) * sectorSize = (j + gap) * sectorSize + m * sectorSize :=
      Nat.add_mul _ _ _
    obtain ⟨calls, p', heq, hcalls, hplace, hwritten, hle, hge, hend⟩ :=
      writeRun_fat size offset (m * sectorSize) (m * sectorSize)
        { p with pos := p.pos + gap * sectorSize } hthrew (Nat.le_refl _)
    simp only [hgap] at hwritten hle hge hend
    -- the bytes of this run
    have hrun : ∀ i, Written calls i ↔ ∃ n : Nat, i = n ∧
        (j + gap ≤ n / sectorSize ∧ n / sectorSize < j + gap + m) ∧ offset + n < size := by
      intro i
      simp only [hwritten, div_mem_iff hsize]
      constructor
      · rintro ⟨hlo, hhi, hlt⟩
        exact ⟨i.toNat, by omega, by omega, by omega⟩
      · rintro ⟨n, rfl, hin, hlt⟩
        omega
    have hbehind : size ≤ offset + p'.pos →
        ∀ n, InRuns (j + gap + m) rest (n / sectorSize) → ¬offset + n < size := by
      intro hpos' n hin
      have := (Nat.le_div_iff_mul_le hsize).mp hin.le
      omega
    rw [walk, heq]
    split
    · rename_i hthrew'
      refine ⟨calls, hcalls, hplace, fun i => (hrun i).trans ?_⟩
      have hpos' : size ≤ offset + p'.pos := by
        rcases hend with ⟨-, hfalse⟩ | hpos'
        · rw [hfalse] at hthrew'
          cases hthrew'
        · exact hpos'
      refine exists_congr fun n => and_congr_right fun _ => and_congr_left fun hlt => ?_
      exact ⟨.inl, fun h => h.resolve_right fun hin => hbehind hpos' n hin hlt⟩
    · rename_i hthrew'
      obtain ⟨calls', hcalls', hplace', hwritten'⟩ :=
        ih (j + gap + m) p' (Bool.not_eq_true _ ▸ hthrew') (by omega) (by
          rcases hend with ⟨hpos', -⟩ | hpos'
          · omega
          · omega)
      refine ⟨calls ++ calls', ?_, hplace.append hplace', fun i => ?_⟩
      · rw [hcalls', hcalls, List.append_assoc]
      · rw [written_append, hrun, hwritten', ← exists_or]
        refine exists_congr fun n => ?_
        rw [← and_or_left, ← or_and_right]
        rfl

/-- With a sector of 32 KB the mask is zero, and a dirty page is never done. -/
theorem syncLoop_stuck {σ : Type} (b : Backing σ) (offset : Int) (sectorSize : Nat) {map : Nat}
    (hmap : map ≠ 0) (fuel : Nat) :
    ∀ p : Progress σ, b.syncLoop offset sectorSize 64 fuel map 0 p = none := by
  induction fuel with
  | zero => exact fun _ => rfl
  | succ fuel ih =>
    intro p
    rw [syncLoop, if_neg hmap, if_pos (Nat.and_zero map)]
    exact ih _

theorem sync_stuck {σ : Type} (b : Backing σ) {page : CachedPage} (hchanged : page.changed = true)
    (hmap : page.map ≠ 0) (fuel : Nat) (s : σ) : b.sync 32768 fuel page s = none := by
  have hmask : shl64 1 64 - 1 = 0 := rfl
  have hshift : 32768 / 512 = 64 := rfl
  simp only [sync, if_pos hchanged, hshift, hmask, b.syncLoop_stuck _ _ hmap fuel,
    Option.map_none]

end Backing

/-- `sync` ends, and covers the page. -/
def SyncCovers (sectorSize : Nat) (page : CachedPage) (size : Nat) : Prop :=
  ∃ fuel after p, (fatBacking size).sync sectorSize fuel page () = some (after, p) ∧
    Coverage page size p.calls

variable {page : CachedPage} {size : Nat}

/-- A page without modified sectors is left as it is. -/
theorem syncCovers_of_clean {sectorSize : Nat} (h : ∀ k, ¬page.Modified k) :
    SyncCovers sectorSize page size := by
  have hcover : Coverage page size [] :=
    ⟨fun i _ hi => absurd hi (h _), fun c hc => absurd hc List.not_mem_nil⟩
  by_cases hchanged : page.changed = true
  · have hmap : page.map = 0 := by
      refine Nat.eq_of_testBit_eq fun k => ?_
      rw [Nat.zero_testBit]
      exact Bool.eq_false_iff.mpr fun hk => h k ⟨hchanged, hk⟩
    refine ⟨1, { page with changed := false, map := 0, map_lt := by decide },
      ⟨(), 0, [], false⟩, ?_, hcover⟩
    simp only [Backing.sync, if_pos hchanged, Backing.syncLoop, if_pos hmap]
    rfl
  · refine ⟨0, page, ⟨(), 4096, [], false⟩, ?_, hcover⟩
    rw [Backing.sync, if_neg hchanged]

/-- What `sync` does to a dirty page, in groups of up to 32 sectors of 512 bytes: it ends, and writes
    the marked groups as far as the stream goes. -/
theorem sync_writes {shift : Nat} (hshift : 0 < shift) (hle : shift ≤ 32)
    (hchanged : page.changed = true) (size : Nat) {fuel : Nat} (hfuel : 9 ≤ fuel) :
    ∃ after p, (fatBacking size).sync (512 * shift) fuel page () = some (after, p) ∧
      InPlace page.offset p.calls ∧ ∀ i, Written p.calls i ↔
        ∃ n : Nat, i = n ∧ Marked shift page.map (n / (512 * shift)) ∧ page.offset + n < size := by
  obtain ⟨runs, -, hruns, hsync⟩ := (fatBacking size).sync_walk hshift hle hchanged hfuel ()
  obtain ⟨calls, hcalls, hplace, hwritten⟩ := Backing.walk_fat size page.offset
    (show 0 < 512 * shift by omega) runs 0 ⟨(), 0, [], false⟩ rfl (Int.le_refl 0)
    (.inl (by simp))
  rw [List.nil_append] at hcalls
  refine ⟨_, _, hsync, hcalls ▸ hplace, fun i => ?_⟩
  rw [hcalls, hwritten]
  simp only [hruns]

/-- A modified sector lies in a marked group. -/
theorem CachedPage.Modified.marked {shift k : Nat} (hshift : 0 < shift) (h : page.Modified k) :
    Marked shift page.map (k / shift) :=
  marked_of_testBit hshift h.2

/-- A page that is written back in groups of up to 32 sectors is covered unless a marked group goes on
    behind its end, below the end of the stream. -/
theorem syncCovers_iff_lt {shift : Nat} (hshift : 0 < shift) (hle : shift ≤ 32)
    (hchanged : page.changed = true) :
    SyncCovers (512 * shift) page size ↔ ∀ n : Nat, Marked shift page.map (n / (512 * shift)) →
      page.offset + n < size → n < 4096 := by
  constructor
  · rintro ⟨fuel, after, p, hsync, hcover⟩ n hn hlt
    obtain ⟨after', p', hsync', hplace, hwritten⟩ :=
      sync_writes hshift hle hchanged size (Nat.le_add_left 9 fuel)
    rw [(fatBacking size).sync_mono _ (Nat.le_add_right fuel 9) hsync] at hsync'
    cases hsync'
    obtain ⟨c, hc, hmoves⟩ := (hwritten n).mpr ⟨n, rfl, hn, hlt⟩
    have := (hcover.inside c hc n hmoves).2.1
    omega
  · intro h
    obtain ⟨after, p, hsync, hplace, hwritten⟩ :=
      sync_writes hshift hle hchanged size (Nat.le_refl 9)
    refine ⟨9, after, p, hsync, fun i _ hmod hlt => ?_, fun c hc i hmoves => ?_⟩
    · have hmarked := hmod.marked hshift
      rw [Nat.div_div_eq_div_mul] at hmarked
      obtain ⟨c, hc, hmoves⟩ := (hwritten i).mpr ⟨i, rfl, hmarked, hlt⟩
      have := hplace c hc
      exact ⟨c, hc, hmoves, by omega⟩
    · obtain ⟨n, rfl, hn, hlt⟩ := (hwritten i).mp ⟨c, hc, hmoves⟩
      have := h n hn hlt
      have := hplace c hc
      exact ⟨by omega, by omega, by omega, by omega⟩

/-- With sectors from 512 bytes to 32 KB, the page is covered exactly when it has nothing to write, a
    sector is no larger than a page, or the stream ends in the page and the shift is below 64. -/
theorem sync_covers_iff (page : CachedPage) (size : Nat) {k : Nat} (hk : k ≤ 6) :
    SyncCovers (512 * 2 ^ k) page size ↔ (∀ i, ¬page.Modified i) ∨ 512 * 2 ^ k ≤ 4096 ∨
      (512 * 2 ^ k < 32768 ∧ size ≤ page.offset + 4096) := by
  by_cases hclean : ∀ i, ¬page.Modified i
  · exact iff_of_true (syncCovers_of_clean hclean) (.inl hclean)
  obtain ⟨m, hm⟩ := not_forall_not.mp hclean
  have hchanged := hm.1
  have hmap : page.map ≠ 0 := by
    intro hzero
    have hbit := hm.2
    rw [hzero, Nat.zero_testBit] at hbit
    cases hbit
  simp only [hclean, false_or]
  rcases Nat.lt_or_ge 3 k with hbig | hsmall
  · rcases Nat.lt_or_ge 5 k with hhuge | hlarge
    · -- a shift by 64
      obtain rfl : k = 6 := by omega
      refine iff_of_false ?_ (by omega)
      rintro ⟨fuel, after, p, hsync, -⟩
      have hsector : 512 * 2 ^ 6 = 32768 := rfl
      rw [hsector, (fatBacking size).sync_stuck hchanged hmap] at hsync
      cases hsync
    · have hpow : 16 ≤ 2 ^ k ∧ 2 ^ k ≤ 32 :=
        ⟨Nat.pow_le_pow_right (n := 2) (by decide) hbig,
          Nat.pow_le_pow_right (n := 2) (by decide) hlarge⟩
      rw [syncCovers_iff_lt (by omega) hpow.2 hchanged]
      constructor
      · intro h
        refine .inr ⟨by omega, Nat.le_of_not_lt fun hlt => ?_⟩
        have hfirst := marked_lt page.map_lt (hm.marked (show 0 < 2 ^ k by omega))
        have hzero : m / 2 ^ k = 0 := by
          by_contra hne
          have := Nat.le_mul_of_pos_right (2 ^ k) (Nat.pos_of_ne_zero hne)
          omega
        have hmarked := hm.marked (show 0 < 2 ^ k by omega)
        rw [hzero, ← Nat.div_eq_of_lt (show 4096 < 512 * 2 ^ k by omega)] at hmarked
        exact absurd (h 4096 hmarked hlt) (Nat.lt_irrefl _)
      · rintro (hle | ⟨-, hend⟩) n - hlt
        · omega
        · omega
  · have hpow : 2 ^ k ≤ 8 := Nat.pow_le_pow_right (n := 2) (by decide) hsmall
    have hgroups : 2 ^ k * 2 ^ (3 - k) = 8 := by
      rw [← Nat.pow_add, Nat.add_sub_cancel' hsmall]
    refine iff_of_true ?_ (.inl (by omega))
    rw [syncCovers_iff_lt (Nat.two_pow_pos k) (by omega) hchanged]
    exact fun n hn _ => lt_of_marked hgroups page.map_lt hn

/-- The first page of a file, with its first sector modified. -/
def firstPage : CachedPage :=
  ⟨true, 1, 0, by decide⟩

/-- A page of a file of 8192 bytes, in sectors of 4096 bytes. -/
theorem sync_covers_iff_firstPage :
    SyncCovers (512 * 2 ^ 3) firstPage 8192 ↔ (∀ i, ¬firstPage.Modified i) ∨
      512 * 2 ^ 3 ≤ 4096 ∨ (512 * 2 ^ 3 < 32768 ∧ 8192 ≤ firstPage.offset + 4096) :=
  sync_covers_iff firstPage 8192 (by decide)

/-- On a volume with clusters of 8 KB the 4096 bytes behind the page are written as well; with
    clusters of 32 KB nothing is, and `sync` goes on for ever. -/
theorem sync_not_covers :
    ((fatBacking 8192).sync 8192 2 firstPage ()).map (·.2.calls) =
        some [⟨0, 0, 8192, .count 8192⟩] ∧ ¬SyncCovers 8192 firstPage 8192 ∧
      ∀ fuel, (fatBacking 8192).sync 32768 fuel firstPage () = none := by
  have hmarked : Marked 16 firstPage.map (4096 / (512 * 16)) := show 1 &&& maskOf 16 0 ≠ 0 by decide
  refine ⟨by decide +kernel, fun h => ?_, fun fuel => ?_⟩
  · rw [show 8192 = 512 * 16 from rfl, syncCovers_iff_lt (by decide) (by decide) rfl] at h
    exact absurd (h 4096 hmarked (by decide)) (Nat.lt_irrefl _)
  · exact (fatBacking 8192).sync_stuck rfl (by decide) fuel ()

end EsOs.Kernel
