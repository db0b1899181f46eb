import Mathlib.Data.List.Induction
import EsOs.Lib.Digits
import EsOs.Kernel.Program

/-!
# The arguments of a program are its words

The backward scan copies the words from the last one to the first one. Behind the first word it
goes on when there are spaces in front of it: then it copies an empty word, and writes the pointer
to it in front of the argument array, where the end of the last word lies.
-/

namespace EsOs.Kernel.Thread

open EsOs.Lib

/-! ## The scans -/

theorem countWords_eq (p : List UInt8) : countWords p = (splitWords space p).length := by
  fun_induction countWords p with
  | case1 => rfl
  | case2 c p hc ih =>
    rw [ih, splitWords_dropWhile]
    have hsplit : c :: p = (c :: p.takeWhile (· ≠ space)) ++ p.dropWhile (· ≠ space) := by
      rw [List.cons_append, List.takeWhile_append_dropWhile]
    rw [hsplit, splitWords_append_left _ (List.cons_ne_nil _ _) fun x hx => head?_dropWhile_ne hx,
      List.length_cons, Nat.add_comm]
    intro hmem
    rcases List.mem_cons.mp hmem with heq | hmem
    · exact hc heq.symm
    · exact sep_not_mem_takeWhile hmem
  | case3 c p hc ih =>
    obtain rfl : c = space := not_not.mp hc
    rw [ih, splitWords_dropWhile, splitWords_cons_sep]

/-- The front of the string, behind which the backward scan goes on when it has copied a word. -/
def rest (p : List UInt8) : List UInt8 :=
  (p.dropWhile (· = space)).dropWhile (· ≠ space)

theorem rest_length (c : UInt8) (p : List UInt8) : (rest (c :: p)).length < (c :: p).length := by
  unfold rest
  by_cases hc : c = space
  · have h1 := (List.dropWhile_sublist (l := p) (· = space)).length_le
    have h2 := (List.dropWhile_sublist (l := p.dropWhile (· = space)) (· ≠ space)).length_le
    simp only [hc, List.dropWhile_cons, decide_true, if_true, List.length_cons]
    omega
  · have h1 := (List.dropWhile_sublist (l := p) (· ≠ space)).length_le
    simp only [ne_eq] at h1
    simp only [List.dropWhile_cons, hc, decide_false, Bool.false_eq_true, if_false, ne_eq,
      not_false_eq_true, decide_true, if_true, List.length_cons]
    omega

/-- The words that the backward scan copies, in its order. -/
def chunks (p : List UInt8) : List (List UInt8) :=
  match p with
  | [] => []
  | c :: p =>
      (((c :: p).dropWhile (· = space)).takeWhile (· ≠ space)).reverse :: chunks (rest (c :: p))
termination_by p.length
decreasing_by exact rest_length c p

/-- Copies the words below each other and enters them into the array. -/
def place (argv : Int) : List (List UInt8) → Memory → Int → Int → Memory × Int
  | [], mem, a, _ => (mem, a)
  | w :: ws, mem, a, n =>
      let a' := a - (w.length + 1)
      place argv ws ((mem.store a' (w ++ [0])).store (argv + 4 * (n - 1)) (Memory.leBytes a')) a'
        (n - 1)

theorem copyWord_eq (p : List UInt8) (mem : Memory) (a : Int) :
    copyWord p mem a =
      (p.dropWhile (· ≠ space),
        mem.store (a - (p.takeWhile (· ≠ space)).length) (p.takeWhile (· ≠ space)).reverse,
        a - (p.takeWhile (· ≠ space)).length) := by
  induction p generalizing mem a with
  | nil =>
    simp [copyWord]
  | cons c p ih =>
    rw [copyWord]
    split
    · rename_i hc
      simp [hc]
    · rename_i hc
      rw [ih]
      simp only [ne_eq, hc, not_false_eq_true, decide_true, List.dropWhile_cons_of_pos,
        List.takeWhile_cons_of_pos, List.length_cons, List.reverse_cons, Memory.store_append,
        List.length_reverse]
      have hto : ∀ k : Nat, a - 1 - k = a - (k + 1 : Nat) := by
        intro k
        omega
      have hfrom : ∀ k : Nat, a - (k + 1 : Nat) + k = a - 1 := by
        intro k
        omega
      rw [hto, hfrom]

theorem copyLoop_eq (argv : Int) (p : List UInt8) (mem : Memory) (a n : Int) :
    copyLoop argv p mem a n = place argv (chunks p) mem a n := by
  fun_induction chunks p generalizing mem a n with
  | case1 => rw [copyLoop, place]
  | case2 c p ih =>
    rw [copyLoop, place]
    simp only [copyWord_eq]
    have hrest : ∀ mem a n, copyLoop argv (((c :: p).dropWhile (· = space)).dropWhile (· ≠ space))
        mem a n = place argv (chunks (rest (c :: p))) mem a n := ih
    rw [hrest]
    have hto : ∀ k : Nat, a - 1 - k = a - (k + 1) := by
      intro k
      omega
    have hfrom : ∀ k : Nat, a - (k + 1) + k = a - 1 := by
      intro k
      omega
    simp only [hto, Memory.store_append, List.length_reverse, hfrom]

/-- The backward scan copies the words, and at the end an empty one when there are spaces in front
    of them. -/
theorem chunks_reverse (s : List UInt8) :
    chunks s.reverse =
      (splitWords space s).reverse ++ if s.head? = some space then [[]] else [] := by
  generalize hp : s.reverse = p
  fun_induction chunks p generalizing s with
  | case1 =>
    obtain rfl : s = [] := by simpa using hp
    rfl
  | case2 c p ih =>
    -- the string is its front, its last word and the spaces behind that
    have hu : rest (c :: p) = ((c :: p).dropWhile (· = space)).dropWhile (· ≠ space) := rfl
    rw [ih (rest (c :: p)).reverse (List.reverse_reverse _), hu]
    have hp' := (c :: p).takeWhile_append_dropWhile (p := (· = space))
    generalize hspaces : (c :: p).takeWhile (· = space) = spaces at hp'
    generalize hq : (c :: p).dropWhile (· = space) = q at hp' ⊢
    have hq' := q.takeWhile_append_dropWhile (p := (· ≠ space))
    generalize hw : q.takeWhile (· ≠ space) = w at hq' ⊢
    generalize hfront : q.dropWhile (· ≠ space) = u at hq' ⊢
    have hs : s = u.reverse ++ w.reverse ++ spaces.reverse := by
      rw [← List.reverse_inj, hp, ← hp', ← hq']
      simp
    have hwords : splitWords space s = splitWords space (u.reverse ++ w.reverse) := by
      rw [hs]
      refine splitWords_append_seps fun y hy => ?_
      rw [List.mem_reverse, ← hspaces] at hy
      exact eq_sep_of_mem_takeWhile hy
    rw [hwords]
    by_cases hempty : w = []
    · -- there are only spaces
      have hnone : q = [] := by
        cases q with
        | nil => rfl
        | cons x xs =>
          have hhead : ((c :: p).dropWhile (· = space)).head? ≠ some space := head?_dropWhile_eq
          refine absurd ?_ hhead
          rw [hq, List.head?_cons]
          by_contra hx
          rw [List.takeWhile_cons_of_pos (by simpa using hx)] at hw
          rw [hempty] at hw
          cases hw
      subst hnone
      obtain rfl : u = [] := hfront.symm
      obtain rfl : w = [] := hempty
      have hhead : s.head? = some space := by
        cases s with
        | nil => simp at hp
        | cons x xs =>
          rw [List.head?_cons, Option.some.injEq]
          refine @eq_sep_of_mem_takeWhile _ _ _ (c :: p) _ ?_
          rw [hspaces, ← List.mem_reverse, ← List.nil_append spaces.reverse]
          exact hs ▸ List.mem_cons_self
      simp [hhead]
    · have hnot : space ∉ w.reverse := by
        rw [List.mem_reverse, ← hw]
        exact sep_not_mem_takeWhile
      have hlast : ∀ x ∈ u.reverse.getLast?, x = space := by
        intro x hx
        rw [List.getLast?_reverse, ← hfront] at hx
        exact head?_dropWhile_ne hx
      rw [splitWords_append_right hnot (by simpa using hempty) hlast, List.reverse_append,
        List.reverse_singleton, List.singleton_append, List.cons_append]
      have hhead : s.head? = some space ↔ u.reverse.head? = some space := by
        rw [hs, List.append_assoc]
        cases hu' : u.reverse with
        | cons x xs => rfl
        | nil =>
          obtain ⟨x, xs, hx⟩ := List.exists_cons_of_ne_nil (show w.reverse ≠ [] by simpa using hempty)
          rw [hx] at hnot ⊢
          simp only [List.nil_append, List.cons_append, List.head?_cons, List.head?_nil,
            Option.some.injEq, reduceCtorEq, iff_false]
          rintro rfl
          exact hnot List.mem_cons_self
      simp only [hhead]

/-! ## The copies -/

/-- The words with their terminators, one behind the other. -/
def flat (ws : List (List UInt8)) : List UInt8 := ws.flatMap (· ++ [0])

@[simp] theorem flat_nil : flat [] = [] := rfl

theorem flat_append (xs ys : List (List UInt8)) : flat (xs ++ ys) = flat xs ++ flat ys :=
  List.flatMap_append

@[simp] theorem flat_singleton (w : List UInt8) : flat [w] = w ++ [0] := by simp [flat]

/-- Where the `j`th word stands when all of them stand from `base` on. -/
def wordAt (ws : List (List UInt8)) (base : Int) (j : Nat) : Int := base + (flat (ws.take j)).length

/-- Each word has its place behind the ones before it. -/
theorem wordAt_succ (ws : List (List UInt8)) (base : Int) {j : Nat} (hj : j < ws.length) :
    wordAt ws base (j + 1) = wordAt ws base j + (ws[j].length + 1) := by
  simp only [wordAt, List.take_succ_eq_append_getElem hj, flat_append, flat_singleton,
    List.length_append, List.length_singleton]
  omega

theorem wordAt_mono (ws : List (List UInt8)) (base : Int) {j k : Nat} (h : j ≤ k) :
    wordAt ws base j ≤ wordAt ws base k := by
  have htake : ws.take k = ws.take j ++ (ws.drop j).take (k - j) := by
    rw [← List.take_add, Nat.add_sub_cancel' h]
  simp only [wordAt, htake, flat_append, List.length_append]
  omega

theorem wordAt_length (ws : List (List UInt8)) (base : Int) :
    wordAt ws base ws.length = base + (flat ws).length := by
  rw [wordAt, List.take_length]

/-- The words stand one behind the other when each stands at its place. -/
theorem holds_flat {ws : List (List UInt8)} {mem : Memory} {base : Int} :
    mem.Holds base (flat ws) ↔
      ∀ j (hj : j < ws.length), mem.Holds (wordAt ws base j) (ws[j] ++ [0]) := by
  induction ws using List.reverseRecOn with
  | nil => simp
  | append_singleton ws w ih =>
    rw [flat_append, Memory.holds_append, ih, flat_singleton]
    have hplace : ∀ j ≤ ws.length, wordAt (ws ++ [w]) base j = wordAt ws base j := by
      intro j hj
      rw [wordAt, wordAt, List.take_append_of_le_length hj]
    constructor
    · rintro ⟨hws, hw⟩ j hj
      rw [List.length_append, List.length_singleton] at hj
      rw [hplace j (by omega)]
      by_cases hlt : j < ws.length
      · rw [List.getElem_append_left hlt]
        exact hws j hlt
      · obtain rfl : j = ws.length := by omega
        rw [wordAt_length]
        simpa using hw
    · intro h
      constructor
      · intro j hj
        have := h j (by rw [List.length_append]; omega)
        rwa [hplace j (by omega), List.getElem_append_left hj] at this
      · have := h ws.length (by simp)
        rw [hplace _ le_rfl, wordAt_length] at this
        simpa using this

/-- The entries of the array point to the words. -/
def Entries (ws : List (List UInt8)) (mem : Memory) (argv base : Int) : Prop :=
  ∀ j < ws.length, mem.Holds (argv + 4 * j) (Memory.leBytes (wordAt ws base j))

theorem place_append (argv : Int) (xs ys : List (List UInt8)) (mem : Memory) (a n : Int) :
    place argv (xs ++ ys) mem a n =
      place argv ys (place argv xs mem a n).1 (place argv xs mem a n).2 (n - xs.length) := by
  induction xs generalizing mem a n with
  | nil => simp [place]
  | cons w xs ih =>
    rw [List.cons_append, place, place, ih, List.length_cons]
    congr 1
    omega

/-- The copies of the words end where the copying began, the entries point to them, and nothing else
    has changed. -/
theorem place_words (argv : Int) (ws : List (List UInt8)) (mem : Memory) {a : Int}
    (ha : a ≤ argv) :
    (place argv ws.reverse mem a ws.length).2 = a - (flat ws).length ∧
      (place argv ws.reverse mem a ws.length).1.Holds (a - (flat ws).length) (flat ws) ∧
      Entries ws (place argv ws.reverse mem a ws.length).1 argv (a - (flat ws).length) ∧
      ∀ x, (x < a - (flat ws).length ∨ a ≤ x) → (x < argv ∨ argv + 4 * ws.length ≤ x) →
        (place argv ws.reverse mem a ws.length).1 x = mem x := by
  induction ws using List.reverseRecOn generalizing mem a with
  | nil =>
    refine ⟨by simp [place], by simp, ?_, fun x _ _ => rfl⟩
    intro j hj
    cases hj
  | append_singleton ws w ih =>
    have hlen : ((ws ++ [w]).length : Int) = ws.length + 1 := by simp
    have hflat : ((flat (ws ++ [w])).length : Int) = (flat ws).length + (w.length + 1) := by
      simp [flat_append]
    have hbase : a - (flat (ws ++ [w])).length = a - (w.length + 1) - (flat ws).length := by
      omega
    rw [List.reverse_append, List.reverse_singleton, List.singleton_append, place, hlen,
      Int.add_sub_cancel]
    generalize hmem : (mem.store (a - (w.length + 1)) (w ++ [0])).store (argv + 4 * ws.length)
      (Memory.leBytes (a - (w.length + 1))) = mem'
    obtain ⟨hto, hholds, hentries, hframe⟩ := ih mem' (show a - (w.length + 1) ≤ argv by omega)
    have hword : mem'.Holds (a - (w.length + 1)) (w ++ [0]) := by
      rw [← hmem]
      refine (Memory.holds_store _ _ _).store (.inr ?_)
      rw [List.length_append, List.length_singleton]
      omega
    have hentry : mem'.Holds (argv + 4 * ws.length) (Memory.leBytes (a - (w.length + 1))) := by
      rw [← hmem]
      exact Memory.holds_store _ _ _
    rw [hbase]
    refine ⟨hto, ?_, ?_, fun x h1 h2 => ?_⟩
    · rw [flat_append, Memory.holds_append, flat_singleton, Int.sub_add_cancel]
      refine ⟨hholds, hword.congr fun x h1 h2 => hframe x (.inr h1) (.inl ?_)⟩
      rw [List.length_append, List.length_singleton] at h2
      omega
    · intro j hj
      rw [List.length_append, List.length_singleton] at hj
      rw [wordAt, List.take_append_of_le_length (by omega)]
      by_cases hlt : j < ws.length
      · exact hentries j hlt
      · obtain rfl : j = ws.length := by omega
        rw [List.take_length, Int.sub_add_cancel]
        refine hentry.congr fun x h1 h2 => hframe x (.inr ?_) (.inr h1)
        omega
    · rw [hframe x (by omega) (by omega), ← hmem, Memory.store_of_outside, Memory.store_of_outside]
      · rw [List.length_append, List.length_singleton]
        omega
      · rw [Memory.leBytes_length]
        omega

/-! ## What the program finds -/

/-- The areas that the program was given, each with its address and its length: `argc` and `argv`
    at the stack pointer, the argument array, and the strings. -/
def areas (ws : List (List UInt8)) (mem : Memory) (esp : Int) : List (Int × Int) :=
  (esp, 8) :: (mem.word (esp + 4), 4 * (ws.length + 1)) ::
    (List.range ws.length).map fun j : Nat =>
      (mem.word (mem.word (esp + 4) + 4 * j), ((ws.getD j []).length + 1 : Int))

/-- `argc` counts the words, the array points to their copies and ends with a null pointer, and the
    areas do not overlap. -/
structure Passed (ws : List (List UInt8)) (mem : Memory) (esp : Int) : Prop where
  argc : mem.word esp = ws.length
  last : mem.word (mem.word (esp + 4) + 4 * ws.length) = 0
  strings : ∀ j (hj : j < ws.length),
    mem.Holds (mem.word (mem.word (esp + 4) + 4 * j)) (ws[j] ++ [0])
  apart : (areas ws mem esp).Pairwise fun x y => x.1 + x.2 ≤ y.1 ∨ y.1 + y.2 ≤ x.1

section Passed

variable {ws : List (List UInt8)} {mem : Memory} {esp argv base : Int}

/-- With all the pointers in place, the arguments are passed when the copies are whole. -/
theorem passed_iff_holds (hargc : mem.Holds esp (Memory.leBytes ws.length))
    (hargv : mem.Holds (esp + 4) (Memory.leBytes argv))
    (hlast : mem.Holds (argv + 4 * ws.length) (Memory.leBytes 0))
    (hentries : Entries ws mem argv base) (hesp : 0 ≤ esp) (hbase : esp + 8 ≤ base)
    (hflat : base + (flat ws).length ≤ argv) (hhigh : argv + 4 * (ws.length + 1) ≤ 4294967296) :
    Passed ws mem esp ↔ mem.Holds base (flat ws) := by
  have hargv := hargv.word (by omega) (by omega)
  have hplace : ∀ j ≤ ws.length, base ≤ wordAt ws base j ∧
      wordAt ws base j ≤ base + (flat ws).length := by
    intro j hj
    rw [← wordAt_length]
    refine ⟨?_, wordAt_mono ws base hj⟩
    unfold wordAt
    omega
  have hentry : ∀ j < ws.length, mem.word (argv + 4 * j) = wordAt ws base j := by
    intro j hj
    have := hplace j hj.le
    exact (hentries j hj).word (by omega) (by omega)
  constructor
  · intro h
    rw [holds_flat]
    intro j hj
    have hstring := h.strings j hj
    rwa [hargv, hentry j hj] at hstring
  · intro h
    refine ⟨hargc.word (by omega) (by omega), ?_, fun j hj => ?_, ?_⟩
    · rw [hargv]
      exact hlast.word (by decide) (by decide)
    · rw [hargv, hentry j hj]
      exact holds_flat.mp h j hj
    · have hareas : ∀ j < ws.length, wordAt ws base j + ((ws.getD j []).length + 1 : Int)
          = wordAt ws base (j + 1) := by
        intro j hj
        rw [wordAt_succ ws base hj, List.getD_eq_getElem _ _ hj]
      rw [areas, hargv, List.pairwise_cons, List.pairwise_cons, List.pairwise_map]
      refine ⟨?_, ?_, ?_⟩
      · intro x hx
        left
        rcases List.mem_cons.mp hx with rfl | hx
        · show esp + 8 ≤ argv
          omega
        · obtain ⟨j, hj, rfl⟩ := List.mem_map.mp hx
          have hj := List.mem_range.mp hj
          have := hplace j hj.le
          simp only [hentry j hj]
          omega
      · intro x hx
        right
        obtain ⟨j, hj, rfl⟩ := List.mem_map.mp hx
        have hj := List.mem_range.mp hj
        have := hplace (j + 1) hj
        simp only [hentry j hj, hareas j hj]
        omega
      · refine List.pairwise_lt_range.imp_of_mem fun {j k} hj hk hlt => .inl ?_
        have hj := List.mem_range.mp hj
        have hk := List.mem_range.mp hk
        simp only [hentry j hj, hentry k hk, hareas j hj]
        exact wordAt_mono ws base hlt

end Passed

/-- The three bytes at the end of the copies are those that a pointer to the empty word in front of
    them has in their place. -/
def Unharmed (ws : List (List UInt8)) (argv : Int) : Prop :=
  ∀ i < 3, i < (flat ws).length →
    (flat ws).getD ((flat ws).length - 1 - i) 0 =
      (Memory.leBytes (argv - (flat ws).length - 2)).getD (2 - i) 0

/-- A word stored over the end of the copies. -/
theorem holds_store_end {bytes : List UInt8} {mem : Memory} {base v : Int}
    (h : mem.Holds base bytes) :
    (mem.store (base + bytes.length - 3) (Memory.leBytes v)).Holds base bytes ↔
      ∀ i < 3, i < bytes.length →
        bytes.getD (bytes.length - 1 - i) 0 = (Memory.leBytes v).getD (2 - i) 0 := by
  have hover : ∀ i < 3, i < bytes.length →
      mem.store (base + bytes.length - 3) (Memory.leBytes v) (base + (bytes.length - 1 - i : Nat))
        = (Memory.leBytes v).getD (2 - i) 0 := by
    intro i hi hlen
    rw [show base + (bytes.length - 1 - i : Nat) = base + bytes.length - 3 + (2 - i : Nat) by omega,
      Memory.store_of_mem (by rw [Memory.leBytes_length]; omega), List.getD_eq_getElem]
  constructor
  · intro hend i hi hlen
    rw [List.getD_eq_getElem _ _ (by omega), ← hend _ (by omega), hover i hi hlen]
  · intro hend i hlen
    by_cases hi : i + 3 < bytes.length
    · rw [Memory.store_of_outside (.inl (by omega))]
      exact h i hlen
    · obtain ⟨k, hk, hk', rfl⟩ : ∃ k < 3, k < bytes.length ∧ i = bytes.length - 1 - k :=
        ⟨bytes.length - 1 - i, by omega, by omega, by omega⟩
      rw [hover k hk hk', ← hend k hk hk', List.getD_eq_getElem]

/-- The last steps push `argv` and `argc` below the copies. -/
theorem passed_push_iff {ws : List (List UInt8)} {mem : Memory} {argv base a : Int}
    (hlast : mem.Holds (argv + 4 * ws.length) (Memory.leBytes 0))
    (hentries : Entries ws mem argv base) (ha : a ≤ base) (hroom : 11 ≤ a)
    (hflat : base + (flat ws).length ≤ argv) (hhigh : argv + 4 * (ws.length + 1) ≤ 4294967296) :
    Passed ws
        ((mem.store (a - a % 4 - 4) (Memory.leBytes argv)).store (a - a % 4 - 8)
          (Memory.leBytes ws.length)) (a - a % 4 - 8) ↔
      mem.Holds base (flat ws) := by
  have hsame : ∀ x, base ≤ x → ((mem.store (a - a % 4 - 4) (Memory.leBytes argv)).store
      (a - a % 4 - 8) (Memory.leBytes ws.length)) x = mem x := by
    intro x hx
    rw [Memory.store_of_outside (.inr (by rw [Memory.leBytes_length]; omega)),
      Memory.store_of_outside (.inr (by rw [Memory.leBytes_length]; omega))]
  rw [@passed_iff_holds ws _ _ argv base]
  · exact ⟨fun h => h.congr fun x hx _ => (hsame x hx).symm, fun h => h.congr fun x hx _ => hsame x hx⟩
  · exact Memory.holds_store _ _ _
  · rw [show a - a % 4 - 8 + 4 = a - a % 4 - 4 by omega]
    exact (Memory.holds_store _ _ _).store (.inl (by rw [Memory.leBytes_length]; omega))
  · exact hlast.congr fun x hx _ => hsame x (by omega)
  · exact fun j hj => (hentries j hj).congr fun x hx _ => hsame x (by omega)
  · omega
  · omega
  · exact hflat
  · exact hhigh

/-- The program finds its arguments if and only if the string does not start with a space, or has no
    word, or the pointer to the empty word in front of the first one does not harm the last one. -/
theorem setArguments_passed_iff (arguments : CString) (mem : Memory) (esp : Int)
    (hhigh : esp ≤ 4294967296)
    (hroom : 4 * ((splitWords space arguments.chars).length + 1) +
      (flat (splitWords space arguments.chars)).length + 13 ≤ esp) :
    Passed (splitWords space arguments.chars) (setArguments arguments mem esp).1
        (setArguments arguments mem esp).2 ↔
      (arguments.chars.head? = some space →
        splitWords space arguments.chars = [] ∨
          Unharmed (splitWords space arguments.chars)
            (esp - 4 * ((splitWords space arguments.chars).length + 1))) := by
  rw [setArguments, countWords_eq, copyLoop_eq, chunks_reverse]
  generalize splitWords space arguments.chars = ws at *
  generalize hargv : esp - 4 * (ws.length + 1 : Int) = argv
  generalize hmem : (mem.store (argv - 1) [0]).store (argv + 4 * ws.length) (Memory.leBytes 0)
    = mem'
  have hzero : mem'.Holds (argv + 4 * ws.length) (Memory.leBytes 0) := by
    rw [← hmem]
    exact Memory.holds_store _ _ _
  obtain ⟨hto, hholds, hentries, hframe⟩ := place_words argv ws mem' (show argv - 1 ≤ argv by omega)
  have hlast : (place argv ws.reverse mem' (argv - 1) ws.length).1.Holds (argv + 4 * ws.length)
      (Memory.leBytes 0) :=
    hzero.congr fun x h1 _ => hframe x (.inr (by omega)) (.inr h1)
  rw [place_append, List.length_reverse, Int.sub_self, hto]
  generalize (place argv ws.reverse mem' (argv - 1) ws.length).1 = copied at *
  by_cases hspace : arguments.chars.head? = some space
  · -- the empty word and the pointer to it
    simp only [hspace, if_true, place, List.length_nil, List.nil_append, true_imp_iff]
    have hargv0 : argv + 4 * (0 - 1) = argv - 1 - (flat ws).length + (flat ws).length - 3 := by
      omega
    have hempty : argv - 1 - (flat ws).length - ((0 : Nat) + 1) = argv - (flat ws).length - 2 := by
      omega
    rw [hargv0, hempty]
    have hsame : ∀ x, argv ≤ x → ((copied.store (argv - (flat ws).length - 2) [0]).store
        (argv - 1 - (flat ws).length + (flat ws).length - 3)
        (Memory.leBytes (argv - (flat ws).length - 2))) x = copied x := by
      intro x hx
      rw [Memory.store_of_outside (.inr (by rw [Memory.leBytes_length]; omega)),
        Memory.store_of_outside (.inr (by rw [List.length_singleton]; omega))]
    rw [@passed_push_iff ws _ argv (argv - 1 - (flat ws).length)]
    · rw [holds_store_end (hholds.store (.inl (by rw [List.length_singleton]; omega)))]
      constructor
      · exact .inr
      · rintro (rfl | hend)
        · intro i _ hi
          cases hi
        · exact hend
    · exact hlast.congr fun x hx _ => hsame x (by omega)
    · exact fun j hj => (hentries j hj).congr fun x hx _ => hsame x (by omega)
    all_goals omega
  · simp only [hspace, if_false, place, false_imp_iff, iff_true]
    exact (passed_push_iff hlast hentries (Int.le_refl _) (by omega) (by omega) (by omega)).mpr hholds

/-- The string "ab  c ". -/
def spaced : CString := ⟨[0x61, 0x62, 0x20, 0x20, 0x63, 0x20], by decide⟩

theorem spaced_passed :
    Passed [[0x61, 0x62], [0x63]] (setArguments spaced (fun _ => 0) 0x7fa00000).1
      (setArguments spaced (fun _ => 0) 0x7fa00000).2 :=
  (setArguments_passed_iff spaced (fun _ => 0) 0x7fa00000 (by decide) (by decide)).mpr
    fun h => absurd h (by decide)

/-- The string " ab". -/
def indented : CString := ⟨[0x20, 0x61, 0x62], by decide⟩

/-- In place of `a` the program finds the last byte of the pointer to the empty word. -/
theorem indented_not_passed :
    ¬ Passed (splitWords space indented.chars) (setArguments indented (fun _ => 0) 0x7fa00000).1
      (setArguments indented (fun _ => 0) 0x7fa00000).2 := by
  intro h
  have hfirst := h.strings 0 (by decide) 0 (by decide)
  revert hfirst
  decide +kernel

end EsOs.Kernel.Thread
