import Mathlib
import EsOs.Kernel.Cache
import EsOs.Kernel.Proofs.PageData

/-!
# Writing back to a stream that may fail

`Page::sync` (`os/kernel/port/page.cpp:75-128`) and `Cache::flush` (`cache.cpp:310-321`) over any
backing stream: its `write` may throw, return a part of the count, or return nothing. The calls are
kept in order, each with the place in the page that it reads from and the place in the stream that
it writes to. The sector size is any that a file system sets.
-/

namespace EsOs.Kernel

/-- What a call of `write` comes to: an exception, or the count that it returns. -/
inductive WriteResult where
  | threw
  | count (n : Int)
deriving DecidableEq, Repr

/-- A stream in its states, with the `write` of a number of bytes at a position. It never returns
    more than it was given. -/
structure Backing (σ : Type) where
  write : σ → Int → Nat → σ × WriteResult
  le_count : ∀ s pos len n, (write s pos len).2 = .count n → n ≤ len

/-- A call of `write`: the first byte in the page, its position in the stream, and the number of
    bytes. -/
structure WriteCall where
  ptr : Int
  pos : Int
  len : Nat
  result : WriteResult
deriving DecidableEq, Repr

namespace WriteCall

/-- The call has written byte `i` of the page. -/
def Moves (c : WriteCall) (i : Int) : Prop :=
  match c.result with
  | .threw => False
  | .count n => c.ptr ≤ i ∧ i < c.ptr + n

/-- The call has thrown, or has written nothing. -/
def Failed (c : WriteCall) : Prop :=
  match c.result with
  | .threw => True
  | .count n => n ≤ 0

end WriteCall

/-- A page of a cache, as far as `sync` is concerned: the flag `Changed`, the map of its eight
    sectors of 512 bytes, and where it lies in the stream. -/
structure CachedPage where
  changed : Bool
  map : Nat
  offset : Nat
  map_lt : map < 2 ^ 8
deriving DecidableEq, Repr

/-- A page that `flush` was to write back: before and after, with the calls made for it. -/
structure Flushed where
  before : CachedPage
  after : CachedPage
  calls : List WriteCall

/-- What the loops of `sync` have come to. `from` is `pos`. -/
structure Progress (σ : Type) where
  stream : σ
  pos : Int
  calls : List WriteCall
  threw : Bool
deriving DecidableEq, Repr

/-- A shift of a `u64`. C++ leaves the shift by 64 undefined; here it is that of the processor,
    which takes the number of places modulo 64. -/
def shl64 (a n : Nat) : Nat :=
  (a <<< (n % 64)) % 2 ^ 64

namespace Backing

variable {σ : Type} (b : Backing σ)

/-- The loop of `Page::sync` that writes back `len` bytes from `pos` on (`page.cpp:114-125`). -/
def writeRun (offset : Int) : Nat → Nat → Progress σ → Progress σ
  | 0, _, p => p
  | fuel + 1, len, p =>
      if len = 0 then p
      else
        match b.write p.stream (offset + p.pos) len with
        | (s, .threw) =>
            { stream := s, pos := p.pos,
              calls := p.calls ++ [⟨p.pos, offset + p.pos, len, .threw⟩], threw := true }
        | (s, .count n) =>
            let p : Progress σ :=
              { stream := s, pos := p.pos + n,
                calls := p.calls ++ [⟨p.pos, offset + p.pos, len, .count n⟩], threw := false }
            if n ≤ 0 then p else writeRun offset fuel (len - n.toNat) p

/-- The outer loop of `Page::sync` (`page.cpp:97-126`); `none` when it has not ended yet. -/
def syncLoop (offset : Int) (sectorSize shift : Nat) :
    Nat → Nat → Nat → Progress σ → Option (Progress σ)
  | 0, _, _, _ => none
  | fuel + 1, map, mask, p =>
      if map = 0 then some p
      else if map &&& mask = 0 then
        syncLoop offset sectorSize shift fuel map (shl64 mask shift)
          { p with pos := p.pos + sectorSize }
      else
        let (map, mask, len) := Page.syncRun sectorSize shift 64 map mask 0
        let p := b.writeRun offset len len p
        if p.threw then some p else syncLoop offset sectorSize shift fuel map (mask % 2 ^ 64) p

/-- `Page::sync` (`page.cpp:75-128`), with the loop given `fuel` turns. -/
def sync (sectorSize fuel : Nat) (page : CachedPage) (s : σ) : Option (CachedPage × Progress σ) :=
  if page.changed then
    let shift := sectorSize / 512
    (b.syncLoop page.offset sectorSize shift fuel page.map (shl64 1 shift - 1) ⟨s, 0, [], false⟩).map
      fun p => ({ page with changed := false, map := 0, map_lt := by decide }, p)
  else some (page, ⟨s, 4096, [], false⟩)

/-- `Cache::flush` over the list of changed pages (`cache.cpp:310-321`): an exception leaves the
    pages behind as they are. -/
def flush (sectorSize fuel : Nat) : List CachedPage → σ → Option (List Flushed × σ)
  | [], s => some ([], s)
  | page :: pages, s =>
      match b.sync sectorSize fuel page s with
      | none => none
      | some (after, p) =>
          if p.threw then
            some (⟨page, after, p.calls⟩ :: pages.map fun q => ⟨q, q, []⟩, p.stream)
          else
            match flush sectorSize fuel pages p.stream with
            | none => none
            | some (rest, s) => some (⟨page, after, p.calls⟩ :: rest, s)

end Backing

/-- `FatStream::write` (`fatStream.cpp:248-291`) of a stream of `size` bytes whose clusters can be
    written: what is behind the end is not, and a position behind it is `EINVAL`. -/
def fatBacking (size : Nat) : Backing Unit where
  write _ pos len :=
    ((), if size < pos then .threw else .count (min (len : Int) (size - pos)))
  le_count _ pos len n h := by
    split at h
    · cases h
    · rw [← WriteResult.count.inj h]
      exact Int.min_le_left _ _

end EsOs.Kernel

/-!
## The runs of a write-back

`Page::sync` finds the runs of marked groups of sectors and hands each of them to the stream. The
scan of the map does not depend on the stream: it comes down to a list of runs, over which the
effect on the stream is followed.
-/

namespace EsOs.Kernel

open Page

/-- Group `i` lies in one of the runs, each given by the groups that are skipped before it and the
    groups it has; the first is counted from group `j`. -/
def InRuns : Nat → List (Nat × Nat) → Nat → Prop
  | _, [], _ => False
  | j, (gap, n) :: rest, i => (j + gap ≤ i ∧ i < j + gap + n) ∨ InRuns (j + gap + n) rest i

theorem InRuns.le {runs : List (Nat × Nat)} {j i : Nat} (h : InRuns j runs i) : j ≤ i := by
  induction runs generalizing j with
  | nil => exact h.elim
  | cons run rest ih =>
    rcases h with ⟨hle, -⟩ | h
    · omega
    · have := ih h
      omega

/-! ### Words of 64 bits -/

theorem shl64_mod {shift : Nat} (hshift : shift < 64) (a : Nat) :
    shl64 (a % 2 ^ 64) shift = (a <<< shift) % 2 ^ 64 := by
  rw [shl64, Nat.mod_eq_of_lt hshift, Nat.shiftLeft_eq, Nat.shiftLeft_eq, Nat.mod_mul_mod]

theorem and_mod {map : Nat} (hmap : map < 2 ^ 8) (mask : Nat) :
    map &&& (mask % 2 ^ 64) = map &&& mask := by
  rw [← Nat.and_two_pow_sub_one_eq_mod, Nat.and_comm mask, ← Nat.and_assoc,
    Nat.and_two_pow_sub_one_eq_mod, Nat.mod_eq_of_lt]
  exact Nat.lt_of_lt_of_le hmap (Nat.pow_le_pow_right (by decide) (by decide))

/-- The mask of a group that has a marked sector fits in 64 bits. -/
theorem maskOf_lt {shift j : Nat} (hshift : shift ≤ 32) (hj : shift * j < 8) :
    maskOf shift j % 2 ^ 64 = maskOf shift j := by
  refine Nat.mod_eq_of_lt (Nat.lt_of_lt_of_le (m := 2 ^ (shift * (j + 1))) ?_ ?_)
  · refine Nat.lt_pow_two_of_testBit _ fun k hk => ?_
    rw [testBit_maskOf, decide_eq_false_iff_not]
    omega
  · refine Nat.pow_le_pow_right (by decide) ?_
    rw [Nat.mul_succ]
    omega

namespace Backing

variable {σ : Type} (b : Backing σ)

/-- The stream after the runs, until it throws. -/
def walk (offset : Int) (sectorSize : Nat) : List (Nat × Nat) → Progress σ → Progress σ
  | [], p => p
  | (gap, n) :: rest, p =>
      let p := b.writeRun offset (n * sectorSize) (n * sectorSize)
        { p with pos := p.pos + gap * sectorSize }
      if p.threw then p else walk offset sectorSize rest p

/-- The loop of `sync` hands the runs of marked groups to the stream. -/
theorem syncLoop_walk (offset : Int) (sectorSize : Nat) {shift : Nat} (hshift : 0 < shift)
    (hle : shift ≤ 32) (fuel : Nat) :
    ∀ {map : Nat} (j : Nat), map < 2 ^ 8 → (∀ i < j, ¬Marked shift map i) → j ≤ 8 → 9 ≤ fuel + j →
      ∃ runs, (∀ run ∈ runs, 0 < run.2) ∧ (∀ i, InRuns j runs i ↔ Marked shift map i) ∧
        ∀ p : Progress σ, b.syncLoop offset sectorSize shift fuel map (maskOf shift j % 2 ^ 64) p =
          some (b.walk offset sectorSize runs p) := by
  induction fuel with
  | zero => intros; omega
  | succ fuel ih =>
    intro map j hmap hbelow hj hfuel
    by_cases hzero : map = 0
    · subst hzero
      refine ⟨[], fun _ h => absurd h List.not_mem_nil, fun i => ?_, fun p => ?_⟩
      · exact iff_of_false not_false fun h => h (Nat.zero_and _)
      · rw [syncLoop, if_pos rfl, walk]
    by_cases hmark : Marked shift map j
    · have hin := marked_lt hmap hmark
      obtain ⟨j', hlt, heq, hmap', hrun, hrest⟩ :=
        Page.syncRun_spec sectorSize hshift 0 hmap hmark (show 9 ≤ 64 + j by omega)
      have hlast := marked_lt hmap (hrun (j' - 1) (by omega) (by omega))
      have hj' : j' ≤ 8 := by
        have := Nat.le_mul_of_pos_left (j' - 1) hshift
        omega
      obtain ⟨runs, hpos, hruns, hwalk⟩ := ih j' hmap' (fun i hi hm => by
        obtain ⟨him, hout⟩ := (hrest i).mp hm
        exact hbelow i (by omega) him) hj' (by omega)
      refine ⟨(0, j' - j) :: runs, ?_, fun i => ?_, fun p => ?_⟩
      · rintro run hmem
        rcases List.mem_cons.mp hmem with rfl | hmem
        · exact Nat.sub_pos_of_lt hlt
        · exact hpos run hmem
      · have hend : j + 0 + (j' - j) = j' := by omega
        rw [InRuns, hend, hruns, hrest]
        constructor
        · rintro (⟨hge, hi⟩ | ⟨hm, -⟩)
          · exact hrun i hge hi
          · exact hm
        · intro hm
          by_cases hi : j ≤ i ∧ i < j'
          · exact .inl hi
          · exact .inr ⟨hm, hi⟩
      · have hstay : { p with pos := p.pos + ((0 : Nat) : Int) * sectorSize } = p := by
          simp
        rw [syncLoop, if_neg hzero, and_mod hmap, if_neg hmark, maskOf_lt hle hin, walk, hstay]
        generalize Page.syncRun sectorSize shift 64 map (maskOf shift j) 0 = r at heq hmap' hwalk ⊢
        obtain ⟨map', mask', len⟩ := r
        simp only [Nat.zero_add, Prod.mk.injEq] at heq
        obtain ⟨rfl, rfl⟩ := heq
        simp only [hwalk]
        split
        · rfl
        · rfl
    · obtain ⟨k, hk⟩ : ∃ k, Marked shift map k := by
        by_contra hnone
        exact hzero (eq_zero_of_not_marked hshift fun k hk => hnone ⟨k, hk⟩)
      have hkj : j < k := by
        have hge : ¬k < j := fun h => hbelow k h hk
        have hne : k ≠ j := fun h => hmark (h ▸ hk)
        omega
      have hk8 := marked_lt hmap hk
      have hkmul := Nat.le_mul_of_pos_left k hshift
      obtain ⟨runs, hpos, hruns, hwalk⟩ := ih (j + 1) hmap (fun i hi hm => by
        by_cases hij : i = j
        · exact hmark (hij ▸ hm)
        · exact hbelow i (by omega) hm) (by omega) (by omega)
      match runs, hpos, hruns, hwalk with
      | [], _, hruns, _ => exact ((hruns k).mpr hk).elim
      | (gap, n) :: rest, hpos, hruns, hwalk =>
        refine ⟨(gap + 1, n) :: rest, ?_, fun i => ?_, fun p => ?_⟩
        · rintro run hmem
          rcases List.mem_cons.mp hmem with rfl | hmem
          · exact hpos (gap, n) List.mem_cons_self
          · exact hpos run (List.mem_cons_of_mem _ hmem)
        · rw [← hruns i, InRuns, InRuns, show j + 1 + gap = j + (gap + 1) by omega]
        · have hpos' : p.pos + sectorSize + (gap : Int) * sectorSize =
              p.pos + ((gap + 1 : Nat) : Int) * sectorSize := by
            rw [Int.natCast_add, Int.natCast_one, Int.add_mul, Int.one_mul]
            omega
          rw [syncLoop, if_neg hzero, and_mod hmap, if_pos (not_not.mp hmark),
            shl64_mod (by omega), maskOf_succ, hwalk, walk, walk]
          simp only [hpos']

/-- A loop that has ended comes to the same with more turns. -/
theorem syncLoop_mono (offset : Int) (sectorSize shift : Nat) {fuel more : Nat} (hle : fuel ≤ more)
    {map mask : Nat} {p r : Progress σ}
    (h : b.syncLoop offset sectorSize shift fuel map mask p = some r) :
    b.syncLoop offset sectorSize shift more map mask p = some r := by
  induction fuel generalizing more map mask p with
  | zero => cases h
  | succ fuel ih =>
    obtain ⟨more, rfl⟩ := Nat.exists_eq_add_of_le' (Nat.le_trans (Nat.le_add_left 1 fuel) hle)
    rw [syncLoop] at h ⊢
    split
    · rename_i hzero
      rwa [if_pos hzero] at h
    rename_i hzero
    rw [if_neg hzero] at h
    split
    · rename_i hskip
      rw [if_pos hskip] at h
      exact ih (by omega) h
    rename_i hskip
    rw [if_neg hskip] at h
    simp only at h ⊢
    split
    · rename_i hthrew
      rwa [if_pos hthrew] at h
    · rename_i hthrew
      rw [if_neg hthrew] at h
      exact ih (by omega) h

theorem sync_mono (sectorSize : Nat) {fuel more : Nat} (hle : fuel ≤ more) {page : CachedPage}
    {s : σ} {r : CachedPage × Progress σ} (h : b.sync sectorSize fuel page s = some r) :
    b.sync sectorSize more page s = some r := by
  unfold sync at h ⊢
  split
  · rename_i hchanged
    rw [if_pos hchanged] at h
    obtain ⟨p, hp, rfl⟩ := Option.map_eq_some_iff.mp h
    exact Option.map_eq_some_iff.mpr ⟨p, b.syncLoop_mono _ _ _ hle hp, rfl⟩
  · rename_i hchanged
    rwa [if_neg hchanged] at h

/-- The first mask of `sync`. -/
theorem firstMask {shift : Nat} (hshift : shift < 64) :
    shl64 1 shift - 1 = maskOf shift 0 % 2 ^ 64 := by
  have hpow : 2 ^ shift < 2 ^ 64 := Nat.pow_lt_pow_right (by decide) hshift
  rw [shl64, Nat.mod_eq_of_lt hshift, maskOf, Nat.mul_zero, Nat.shiftLeft_zero, Nat.one_shiftLeft,
    Nat.mod_eq_of_lt hpow, Nat.mod_eq_of_lt (Nat.lt_of_le_of_lt (Nat.sub_le _ _) hpow)]

/-- A page that is written back: its runs, one after the other, from its first byte on. -/
theorem sync_walk {shift : Nat} (hshift : 0 < shift) (hle : shift ≤ 32) {page : CachedPage}
    (hchanged : page.changed = true) {fuel : Nat} (hfuel : 9 ≤ fuel) (s : σ) :
    ∃ runs, (∀ run ∈ runs, 0 < run.2) ∧ (∀ i, InRuns 0 runs i ↔ Marked shift page.map i) ∧
      b.sync (512 * shift) fuel page s =
        some ({ page with changed := false, map := 0, map_lt := by decide },
          b.walk page.offset (512 * shift) runs ⟨s, 0, [], false⟩) := by
  obtain ⟨runs, hpos, hruns, hwalk⟩ := b.syncLoop_walk page.offset (512 * shift) hshift hle fuel 0
    page.map_lt (fun i hi => absurd hi (Nat.not_lt_zero i)) (Nat.zero_le 8) hfuel
  refine ⟨runs, hpos, hruns, ?_⟩
  rw [sync, if_pos hchanged, Nat.mul_div_cancel_left _ (by decide)]
  simp only [firstMask (show shift < 64 by omega), hwalk]
  rfl

end Backing

end EsOs.Kernel
