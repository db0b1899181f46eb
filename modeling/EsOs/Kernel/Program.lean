import EsOs.Lib.Memory

/-!
# The arguments of a program

`Thread::setArguments` (`os/kernel/pc/pc_thread.cpp`) puts the words of the argument string on the
stack of a new program. The string lies behind the registers of the thread, where `Process::start`
copied it after a sentinel (`os/kernel/port/process.cpp:866-874`), and not on that stack.

Both scans are made over the characters of the string: the forward one in their order, the backward
one in the reverse order, at the end of which it meets the sentinel.
-/

namespace EsOs.Kernel

open EsOs.Lib

/-- A string up to its terminator. -/
structure CString where
  chars : List UInt8
  noNul : (0 : UInt8) ∉ chars

namespace Thread

/-- A space. -/
def space : UInt8 := 0x20

/-- The count of the words (`pc_thread.cpp:114-129`). -/
def countWords (p : List UInt8) : Nat :=
  match p with
  | [] => 0
  | c :: p =>
      if c ≠ space then 1 + countWords ((p.dropWhile (· ≠ space)).dropWhile (· = space))
      else countWords (p.dropWhile (· = space))
termination_by p.length
decreasing_by
  · have h1 := (List.dropWhile_sublist (l := p) (· ≠ space)).length_le
    have h2 := (List.dropWhile_sublist (l := p.dropWhile (· ≠ space)) (· = space)).length_le
    simp only [List.length_cons]
    omega
  · have h1 := (List.dropWhile_sublist (l := p) (· = space)).length_le
    simp only [List.length_cons]
    omega

/-- `while (*p && *p != ' ') *--a = *p--;` -/
def copyWord : List UInt8 → Memory → Int → List UInt8 × Memory × Int
  | [], mem, a => ([], mem, a)
  | c :: p, mem, a =>
      if c = space then (c :: p, mem, a) else copyWord p (mem.store (a - 1) [c]) (a - 1)

theorem copyWord_fst (p : List UInt8) (mem : Memory) (a : Int) :
    (copyWord p mem a).1 = p.dropWhile (· ≠ space) := by
  induction p generalizing mem a with
  | nil => rfl
  | cons c p ih =>
    rw [copyWord]
    split
    · rename_i hc
      simp [hc]
    · rename_i hc
      rw [ih]
      simp [hc]

/-- The loop that copies the words, the last one first (`pc_thread.cpp:139-151`). -/
def copyLoop (argv : Int) (p : List UInt8) (mem : Memory) (a n : Int) : Memory × Int :=
  match p with
  | [] => (mem, a)
  | c :: p =>
      let r := copyWord ((c :: p).dropWhile (· = space)) (mem.store (a - 1) [0]) (a - 1)
      copyLoop argv r.1 (r.2.1.store (argv + 4 * (n - 1)) (Memory.leBytes r.2.2)) r.2.2 (n - 1)
termination_by p.length
decreasing_by
  rw [copyWord_fst]
  by_cases hc : c = space
  · have h1 := (List.dropWhile_sublist (l := p) (· = space)).length_le
    have h2 := (List.dropWhile_sublist (l := p.dropWhile (· = space)) (· ≠ space)).length_le
    simp only [hc, List.dropWhile_cons, decide_true, if_true, List.length_cons]
    omega
  · have h1 := (List.dropWhile_sublist (l := p) (· ≠ space)).length_le
    simp only [ne_eq] at h1
    simp only [List.dropWhile_cons, hc, decide_false, Bool.false_eq_true, if_false, ne_eq,
      not_false_eq_true, decide_true, if_true, List.length_cons]
    omega

/-- `Thread::setArguments` (`pc_thread.cpp:106-159`): the memory of the program and its stack
    pointer. -/
def setArguments (arguments : CString) (mem : Memory) (esp : Int) : Memory × Int :=
  let argc := countWords arguments.chars
  let argv := esp - 4 * (argc + 1)
  let mem := (mem.store (argv - 1) [0]).store (argv + 4 * argc) (Memory.leBytes 0)
  let r := copyLoop argv arguments.chars.reverse mem (argv - 1) argc
  let frame := r.2 - r.2 % 4
  ((r.1.store (frame - 4) (Memory.leBytes argv)).store (frame - 8) (Memory.leBytes argc),
    frame - 8)

end Thread

end EsOs.Kernel
