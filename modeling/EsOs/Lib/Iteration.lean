import Mathlib.Data.Set.Finite.Basic
import Mathlib.Data.Finite.Defs

/-!
# Iterating a partial step

A step that may end is taken again and again. The run ends when no two of its states share their
key, where there are finitely many keys; it never ends when it comes back to a state.
-/

namespace EsOs.Lib

variable {σ κ : Type _}

/-- The state after `n` steps, if there are as many. -/
def iterated (next : σ → Option σ) : Nat → σ → Option σ
  | 0, s => some s
  | n + 1, s => (next s).bind (iterated next n)

/-- The steps come to an end. -/
def Halts (next : σ → Option σ) (s : σ) : Prop :=
  ∃ n, iterated next n s = none

/-- No two states of the run have the same key. -/
def NeverRepeats (next : σ → Option σ) (key : σ → κ) (s : σ) : Prop :=
  ∀ m n a b, iterated next m s = some a → iterated next n s = some b → key a = key b → m = n

section Iteration

variable {next : σ → Option σ} {s a : σ} {n : Nat}

theorem iterated_of_next (h : next s = some a) (n : Nat) : iterated next (n + 1) s = iterated next n a := by
  rw [iterated, h, Option.bind_some]

theorem iterated_add (m n : Nat) (s : σ) :
    iterated next (m + n) s = (iterated next m s).bind (iterated next n) := by
  induction m generalizing s with
  | zero => rw [Nat.zero_add, iterated, Option.bind_some]
  | succ m ih =>
    rw [Nat.succ_add, iterated, iterated]
    cases next s with
    | none => rfl
    | some t => exact ih t

/-- A property of every state of a run, by the first step. -/
theorem forall_iterated_of_none {P : σ → Prop} (h : next s = none) :
    (∀ n a, iterated next n s = some a → P a) ↔ P s := by
  constructor
  · exact fun hall => hall 0 s rfl
  · intro hs n a ha
    cases n with
    | zero =>
      cases ha
      exact hs
    | succ n =>
      rw [iterated, h] at ha
      cases ha

theorem forall_iterated_of_next {P : σ → Prop} (h : next s = some a) :
    (∀ n b, iterated next n s = some b → P b) ↔ P s ∧ ∀ n b, iterated next n a = some b → P b := by
  constructor
  · intro hall
    refine ⟨hall 0 s rfl, fun n b hb => hall (n + 1) b ?_⟩
    rwa [iterated_of_next h]
  · rintro ⟨hs, hall⟩ n b hb
    cases n with
    | zero =>
      cases hb
      exact hs
    | succ n => exact hall n b (by rwa [iterated_of_next h] at hb)

/-- A run has one last state. -/
theorem iterated_last_unique {b : σ} {m : Nat} (ha : iterated next m s = some a)
    (hlast : next a = none) (hb : iterated next n s = some b) (hlast' : next b = none) : a = b := by
  induction m generalizing s n with
  | zero =>
    cases ha
    cases n with
    | zero => exact Option.some.inj hb
    | succ n =>
      rw [iterated, hlast] at hb
      cases hb
  | succ m ih =>
    rw [iterated] at ha
    obtain ⟨t, hnext, hafter⟩ := Option.bind_eq_some_iff.mp ha
    cases n with
    | zero =>
      cases hb
      rw [hnext] at hlast'
      cases hlast'
    | succ n =>
      rw [iterated_of_next hnext] at hb
      exact ih hafter hb

theorem halts_of_next_none (h : next s = none) : Halts next s :=
  ⟨1, by rw [iterated, h, Option.bind_none]⟩

theorem halts_iff_of_next (h : next s = some a) : Halts next s ↔ Halts next a := by
  constructor
  · rintro ⟨n, hn⟩
    cases n with
    | zero => cases hn
    | succ n => exact ⟨n, by rwa [iterated_of_next h] at hn⟩
  · rintro ⟨n, hn⟩
    exact ⟨n + 1, by rwa [iterated_of_next h]⟩

theorem halts_iff_of_iterated (h : iterated next n s = some a) : Halts next s ↔ Halts next a := by
  induction n generalizing s with
  | zero =>
    cases h
    rfl
  | succ n ih =>
    rw [iterated] at h
    obtain ⟨t, hnext, hafter⟩ := Option.bind_eq_some_iff.mp h
    rw [halts_iff_of_next hnext, ih hafter]

/-- A run that comes back to its state goes on for ever. -/
theorem not_halts_of_cycle (h : iterated next (n + 1) s = some s) : ¬ Halts next s := by
  have hround : ∀ k, iterated next (k * (n + 1)) s = some s := by
    intro k
    induction k with
    | zero => rw [Nat.zero_mul, iterated]
    | succ k ih => rw [Nat.succ_mul, iterated_add, ih, Option.bind_some, h]
  rintro ⟨m, hm⟩
  obtain ⟨k, hk⟩ := Nat.exists_eq_add_of_le (Nat.le_mul_of_pos_right m (Nat.succ_pos n))
  have hend := hround m
  rw [hk, iterated_add, hm, Option.bind_none] at hend
  cases hend

/-- With finitely many keys, a run without a repeated key ends. -/
theorem halts_of_distinct {key : σ → κ} {keys : Set κ} (hkeys : keys.Finite)
    (hin : ∀ n a, iterated next n s = some a → key a ∈ keys) (h : NeverRepeats next key s) :
    Halts next s := by
  by_contra hends
  have hsome : ∀ n, ∃ a, iterated next n s = some a := fun n =>
    Option.ne_none_iff_exists'.mp fun hnone => hends ⟨n, hnone⟩
  choose state hstate using hsome
  have hinj : Function.Injective fun n => key (state n) := fun m n hkey =>
    h m n _ _ (hstate m) (hstate n) hkey
  refine Set.infinite_range_of_injective hinj (hkeys.subset ?_)
  rintro _ ⟨n, rfl⟩
  exact hin n _ (hstate n)

end Iteration

end EsOs.Lib
