import EsOs.Kernel.Arguments

/-!
# Which buffers of a system call are inside of the process

The check of a buffer takes its length in 32 bits. It is right for the lengths that fit, and a
length that does not fit can pass it.
-/

namespace EsOs.Kernel

/-- The check is right for every length of 32 bits. -/
theorem isValid_iff {start : Nat} {length : Int} (hlow : -2147483648 ≤ length)
    (hhigh : length < 2147483648) :
    isValid start length = true ↔
      0 ≤ length ∧ USER_MIN ≤ start ∧ start + length ≤ USER_MAX := by
  have hmin : USER_MIN = 4096 := rfl
  have hmax : USER_MAX = 2145386496 := rfl
  unfold isValid addPtr
  simp only [Bool.not_eq_true', Bool.or_eq_false_iff, decide_eq_false_iff_not]
  omega

namespace CallEnv

theorem checked_eq_some {α : Type _} {ptr : Nat} {count : Int} {r r' : α}
    (h : checked ptr count r = some r') : r' = r ∧ (ptr = 0 ∨ isValid ptr count = true) := by
  unfold checked at h
  split at h
  · cases h
  · rename_i hno
    cases h
    refine ⟨rfl, ?_⟩
    cases hvalid : isValid ptr count with
    | true => exact .inr rfl
    | false => exact .inl (Decidable.byContradiction fun hne => hno ⟨hne, hvalid⟩)

end CallEnv

namespace Buffer

variable {b : Buffer}

end Buffer

section Params

variable {e : CallEnv} {type : ReflectType} {types : List ReflectType} {words rest : List Nat}
  {paramp next : Nat}

end Params

/-- Behind a sequence of a fixed length the method finds the argument that was not set: the pointer
    of the next sequence is an address of the kernel. -/
theorem unset_not_inRange {e : CallEnv} {elem next : ReflectType} {max paramp : Nat}
    {types : List ReflectType} {words : List Nat}
    (h : e.arguments .void (.sequence elem (max + 1) :: .sequence next 0 :: types) paramp =
      some words)
    (hsize : (ReflectType.sequence elem (max + 1)).getSize ≠ 0) (hunset : USER_MAX < e.unset) :
    ∃ b ∈ calleeBuffers .void (.sequence elem (max + 1) :: .sequence next 0 :: types) words,
      b.ptr = e.unset ∧ ¬ b.InRange := by
  have hmax : USER_MAX = 2145386496 := rfl
  obtain ⟨first, hfirst, rfl⟩ := Option.map_eq_some_iff.mp h
  have hne : ∀ count, ¬ (Buffer.mk e.unset count next).InRange := by
    rintro count (hnull | ⟨hcount, -, hend⟩)
    · exact absurd hnull (by simp only; omega)
    · have : 0 ≤ count * next.width := Int.mul_nonneg hcount (Int.natCast_nonneg _)
      simp only at hend
      omega
  rw [CallEnv.params] at hfirst
  split at hfirst
  · cases hfirst
  rename_i own behind hparam
  obtain ⟨rest, hrest, rfl⟩ := Option.map_eq_some_iff.mp hfirst
  obtain ⟨ptr, rfl⟩ : ∃ ptr, own = [ptr, e.unset] := by
    unfold CallEnv.param at hparam
    split at hparam
    · cases hparam
    · simp only at hparam
      obtain ⟨heq, -⟩ := CallEnv.checked_eq_some hparam
      cases heq
      exact ⟨_, rfl⟩
  rw [CallEnv.params] at hrest
  split at hrest
  · cases hrest
  rename_i second behind' hsecond
  obtain ⟨tail, -, rfl⟩ := Option.map_eq_some_iff.mp hrest
  obtain ⟨pointer, len, rfl⟩ : ∃ pointer len, second = [pointer, len] := by
    unfold CallEnv.param at hsecond
    split at hsecond
    · cases hsecond
    · simp only at hsecond
      split at hsecond
      all_goals
        obtain ⟨heq, -⟩ := CallEnv.checked_eq_some hsecond
        cases heq
        exact ⟨_, _, rfl⟩
  refine ⟨⟨e.unset, toLong pointer, next⟩, ?_, rfl, hne _⟩
  exact .tail _ (.head _)

end EsOs.Kernel
