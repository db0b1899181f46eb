import EsOs.Es.OrderedMap
import EsOs.Es.Proofs.TreeIteration
import EsOs.Es.Proofs.TreeRemovals

/-!
# The ordered map is a sorted sequence of entries

The records of the tree are the entries, and an iterator that misses no link goes over all of them.
`setByIndex` replaces the first value only, and a removal may take a link away.
-/

namespace EsOs.Es

open EsOs.Lib

variable {A : Type _}

/-- Strings that the order leaves unordered are equal. -/
theorem stringOrder_equiv {a b : List UInt8} : stringOrder.equiv a b = true ↔ a = b := by
  constructor
  · rw [StrictWeakOrder.equiv_iff]
    show stringLess a b = false ∧ stringLess b a = false → a = b
    induction a generalizing b with
    | nil => cases b <;> simp [stringLess]
    | cons x xs ih =>
      cases b with
      | nil => simp [stringLess]
      | cons y ys =>
        simp only [stringLess, Bool.or_eq_false_iff, Bool.and_eq_false_iff, beq_eq_false_iff_ne,
          decide_eq_false_iff_not]
        rintro ⟨⟨hxy, hne⟩, hyx, hne'⟩
        have heq : x = y := UInt8.le_antisymm (UInt8.not_lt.mp hyx) (UInt8.not_lt.mp hxy)
        subst heq
        simp only [ne_eq, not_true_eq_false, false_or] at hne hne'
        rw [ih ⟨hne, hne'⟩]
  · rintro rfl
    exact StrictWeakOrder.equiv_refl a

/-- Of two different strings one comes before the other. -/
theorem stringOrder_lt_of_ne {a b : List UInt8} (h : a ≠ b) :
    stringOrder.lt a b = !stringOrder.lt b a := by
  rcases hab : stringOrder.lt a b with - | -
  · rcases hba : stringOrder.lt b a with - | -
    · exact absurd (stringOrder_equiv.mp (StrictWeakOrder.equiv_iff.mpr ⟨hab, hba⟩)) h
    · rfl
  · rw [StrictWeakOrder.not_lt_of_lt hab]
    rfl

/-! ## What `set` does to the entries -/

section Entries

variable {l before after : Entries} {name value old : List UInt8} {new : Fresh A}

theorem set_entries_length (h : ∀ e ∈ l, e.1 ≠ name) :
    ((MapOp.set name value new).entries l).length = l.length + 1 := by
  have hsplit := l.length_eq_length_filter_add fun e => stringOrder.lt e.1 name
  have hbehind : l.filter (fun e => stringOrder.lt name e.1)
      = l.filter fun e => !stringOrder.lt e.1 name :=
    List.filter_congr fun e he => stringOrder_lt_of_ne (Ne.symm (h e he))
  rw [MapOp.entries, hbehind, List.length_append, List.length_cons]
  omega

/-- An entry more at most. -/
theorem entries_length_le (op : MapOp A) (l : Entries) :
    (op.entries l).length ≤ l.length + 1 := by
  cases op with
  | set name value new =>
    have hsplit := l.length_eq_length_filter_add fun e => stringOrder.lt e.1 name
    have hsub : (l.filter fun e => stringOrder.lt name e.1).Sublist
        (l.filter fun e => !stringOrder.lt e.1 name) :=
      List.monotone_filter_right l fun e h => by
        rw [StrictWeakOrder.not_lt_of_lt h]
        rfl
    have := hsub.length_le
    rw [MapOp.entries, List.length_append, List.length_cons]
    omega
  | setByIndex index value new => simp [MapOp.entries]

/-- The place of a name between the entries before and behind it. -/
theorem set_entries_mid (hbefore : ∀ e ∈ before, stringOrder.lt e.1 name = true)
    (hafter : ∀ e ∈ after, stringOrder.lt name e.1 = true) :
    (MapOp.set name value new).entries (before ++ after) = before ++ (name, value) :: after := by
  rw [MapOp.entries, List.filter_append, List.filter_append, List.filter_eq_self.mpr hbefore,
    List.filter_eq_self.mpr hafter, List.filter_eq_nil_iff.mpr fun e he => ?_,
    List.filter_eq_nil_iff.mpr fun e he => ?_]
  · simp
  · simp [StrictWeakOrder.not_lt_of_lt (hbefore e he)]
  · simp [StrictWeakOrder.not_lt_of_lt (hafter e he)]

/-- A name that is there gets the new value. -/
theorem set_entries_old (h : stringOrder.Sorted (before ++ (name, old) :: after)) :
    (MapOp.set name value new).entries (before ++ (name, old) :: after)
      = before ++ (name, value) :: after := by
  obtain ⟨hbefore, hafter, -⟩ := StrictWeakOrder.sorted_mid.mp h
  have hmid : (MapOp.set name value new).entries (before ++ after) = _ :=
    set_entries_mid hbefore hafter
  rw [← hmid, MapOp.entries, MapOp.entries]
  simp [stringOrder.irrefl]

end Entries

/-! ## What the calls of the tree do to its records -/

namespace LinkedTree

variable {K V : Type _} {t : LinkedTree A K V} {f : K → Option V}

theorem Sound.erase_sorted (h : t.Sound f) : t.le.Sorted t.root.erase.toList :=
  h.represents.sorted

theorem Sound.sorted (h : t.Sound f) : t.le.Sorted t.root.records := by
  rw [LinkedNode.records_eq]
  exact h.erase_sorted

theorem Sound.contains_eq (h : t.Sound f) (name : K) :
    t.contains name = true ↔ ∃ e ∈ t.root.records, t.le.equiv name e.1 = true := by
  rw [contains, LinkedNode.contains_erase, Node.contains_eq, Node.get_spec h.erase_sorted,
    LinkedNode.records_eq]
  rcases hfind : t.root.erase.toList.find? fun q => t.le.equiv name q.1 with - | q
  · simp only [hfind, Except.isOk, Except.toBool, Bool.false_eq_true, false_iff, not_exists,
      not_and]
    exact fun e he heq => List.find?_eq_none.mp hfind e he heq
  · simp only [hfind, Except.isOk, Except.toBool, true_iff]
    exact ⟨q, List.mem_of_find?_eq_some hfind,
      List.find?_some (p := fun q : K × V => t.le.equiv name q.1) hfind⟩

theorem Sound.remove_records (h : t.Sound f) (name : K) :
    (t.remove name).root.records = t.root.records.filter fun e => !t.le.equiv name e.1 := by
  rw [LinkedNode.records_eq, LinkedNode.records_eq, LinkedTree.remove, LinkedNode.remove_erase,
    Node.remove_toList h.erase_sorted]

/-- A new name is put where the order wants it. -/
theorem Sound.add_records (h : t.Sound f) (new : Fresh A) {name : K} (value : V)
    (hnew : ∀ e ∈ t.root.records, t.le.equiv name e.1 = false) :
    (t.call new (.add name value)).root.records
      = t.root.records.filter (fun e => t.le.lt e.1 name) ++
        (name, value) :: t.root.records.filter fun e => t.le.lt name e.1 := by
  have herase := LinkedNode.insert_erase t.le (new t.root.addrs).1 name value t.root
  rw [LinkedNode.records_eq] at hnew
  rcases Node.insert_spec h.erase_sorted name value with
    ⟨root', before, after, hres, hold, hroot, hbefore, hafter⟩ | ⟨-, q, hq, heq⟩
  · rcases call_add t new name value with ⟨e, hins, -⟩ | ⟨root, hins, hcall⟩
    · rw [hins, hres] at herase
      cases herase
    · rw [hins, hres] at herase
      have herase : root.erase = root' := Except.ok.inj herase
      rw [hcall, LinkedNode.records_eq, LinkedNode.records_eq, herase, hroot, hold]
      simp only [List.filter_append]
      rw [List.filter_eq_self.mpr hbefore, List.filter_eq_self.mpr hafter,
        List.filter_eq_nil_iff.mpr fun e he => ?_, List.filter_eq_nil_iff.mpr fun e he => ?_]
      · simp
      · simp [StrictWeakOrder.not_lt_of_lt (hbefore e he)]
      · simp [StrictWeakOrder.not_lt_of_lt (hafter e he)]
  · have := hnew q hq
    rw [this] at heq
    contradiction

end LinkedTree

/-! ## The loops -/

namespace OrderedMap

variable [DecidableEq A] {t : LinkedNode A (List UInt8) (List UInt8)} {fuel index calls : Nat}
  {it : TreeIterator A} {l : Entries}

/-- The loop of `getByIndex` stops at the element that the count has come to. -/
theorem getLoop_eq (h : it.traverse t fuel .forward calls = some l) {count : Nat}
    (hcount : count ≤ index) :
    getLoop t fuel index calls count it = some (l[index - count]?.map (·.2)) := by
  induction calls generalizing it l count with
  | zero => cases h
  | succ calls ih =>
    rw [TreeIterator.traverse] at h
    rw [getLoop, TreeIterator.next]
    rcases hmove : it.move t fuel .forward with - | ⟨- | a, it'⟩
    · rw [hmove] at h
      cases h
    · rw [hmove] at h
      cases h
      rfl
    · simp only [hmove] at h ⊢
      rcases hfind : (t.find a).bind LinkedNode.record with - | ⟨key, value⟩
      · rw [hfind] at h
        cases h
      · simp only [hfind, Option.map_eq_some_iff] at h ⊢
        obtain ⟨rest, hrest, rfl⟩ := h
        by_cases heq : count = index
        · rw [if_pos heq, heq, Nat.sub_self]
          rfl
        · have hstep : index - count = (index - (count + 1)) + 1 := by omega
          rw [if_neg heq, ih hrest (by omega), hstep]
          rfl

/-- The loop of `setByIndex` stops at the first element or not at all. -/
theorem setLoop_eq (h : it.traverse t fuel .forward calls = some l) :
    setLoop t fuel index 0 calls it = some (if index = 0 then l.head?.map (·.1) else none) := by
  induction calls generalizing it l with
  | zero => cases h
  | succ calls ih =>
    rw [TreeIterator.traverse] at h
    rw [setLoop, TreeIterator.next]
    rcases hmove : it.move t fuel .forward with - | ⟨- | a, it'⟩
    · rw [hmove] at h
      cases h
    · rw [hmove] at h
      cases h
      simp
    · simp only [hmove] at h ⊢
      rcases hfind : (t.find a).bind LinkedNode.record with - | ⟨key, value⟩
      · rw [hfind] at h
        cases h
      · simp only [hfind, Option.map_eq_some_iff] at h ⊢
        obtain ⟨rest, hrest, rfl⟩ := h
        by_cases hzero : index = 0
        · rw [if_pos hzero.symm, if_pos hzero]
          rfl
        · rw [if_neg (Ne.symm hzero), ih hrest, if_neg hzero, if_neg hzero]

/-- A buffer gets as many bytes as it has room for. -/
theorem copy_eq (str : List UInt8) {len : Int} (hlen : 0 ≤ len) :
    copy str len = some (str.take len.toNat) := by
  rw [copy, if_neg (by omega)]
  congr 1
  rw [List.take_eq_take_iff]
  omega

/-- The map has the entries, and misses no link. -/
structure Holds (m : OrderedMap A) (l : Entries) : Prop where
  le : m.tree.le = stringOrder
  sound : ∃ f, m.tree.Sound f
  linked : m.tree.root.Linked
  records : m.tree.root.records = l
  size : m.size = l.length

theorem empty_holds : (empty : OrderedMap A).Holds [] :=
  ⟨rfl, ⟨_, LinkedTree.empty_sound _⟩, trivial, rfl, rfl⟩

namespace Holds

variable {m : OrderedMap A} {name value : List UInt8}

theorem sorted (h : m.Holds l) : stringOrder.Sorted l := by
  obtain ⟨f, hf⟩ := h.sound
  have := hf.sorted
  rwa [h.le, h.records] at this

theorem names_nodup (h : m.Holds l) : l.Pairwise fun e e' => e.1 ≠ e'.1 := by
  refine h.sorted.imp fun hlt heq => ?_
  rw [heq, stringOrder.irrefl] at hlt
  contradiction

theorem contains_iff (h : m.Holds l) : m.tree.contains name = true ↔ ∃ e ∈ l, e.1 = name := by
  obtain ⟨f, hf⟩ := h.sound
  rw [hf.contains_eq, h.records, h.le]
  simp only [stringOrder_equiv]
  exact exists_congr fun e => and_congr_right fun _ => eq_comm

/-- The iterator from `begin` goes over all entries. -/
theorem traverse (h : m.Holds l) (hfuel : l.length < fuel) :
    m.tree.begin.traverse m.tree.root fuel .forward fuel = some l := by
  obtain ⟨f, hf⟩ := h.sound
  have hsize : m.tree.root.size = l.length := by
    rw [LinkedNode.size_eq_length, ← h.records, LinkedNode.records, List.length_map]
  have := ((hf.enumerates h.linked).2.2 fuel fuel (by omega) (by rwa [h.records])).1
  rwa [h.records] at this

/-- A new name. -/
theorem add (h : m.Holds l) (new : Fresh A) (hnew : ∀ e ∈ l, e.1 ≠ name) :
    Holds ⟨m.tree.call new (.add name value), m.size + 1⟩
      ((MapOp.set name value new).entries l) := by
  obtain ⟨f, hf⟩ := h.sound
  have hrecords := hf.add_records new value fun e he => by
    rw [h.records] at he
    rw [h.le, Bool.eq_false_iff, ne_eq, stringOrder_equiv]
    exact fun heq => hnew e he heq.symm
  rw [h.le, h.records] at hrecords
  refine ⟨(LinkedTree.call_le ..).trans h.le, ⟨_, hf.call new (.add name value)⟩,
    hf.linked_add h.linked new name value, hrecords, ?_⟩
  rw [set_entries_length hnew, h.size]
  rfl

/-- A name that goes, with every link kept. -/
theorem remove {before after : Entries} {old : List UInt8}
    (h : m.Holds (before ++ (name, old) :: after))
    (hties : m.tree.root.unties m.tree.le name = false) :
    Holds ⟨m.tree.remove name, m.size - 1⟩ (before ++ after) := by
  obtain ⟨f, hf⟩ := h.sound
  obtain ⟨hbefore, hafter, -⟩ := StrictWeakOrder.sorted_mid.mp h.sorted
  refine ⟨h.le, ⟨_, hf.remove name⟩, h.linked.remove hf.represents.levelled hties, ?_, ?_⟩
  · rw [hf.remove_records, h.records, h.le, List.filter_append, List.filter_cons,
      StrictWeakOrder.equiv_refl, List.filter_eq_self.mpr fun e he => ?_,
      List.filter_eq_self.mpr fun e he => ?_]
    · rfl
    · rw [StrictWeakOrder.equiv_of_lt (hafter e he)]
      rfl
    · rw [StrictWeakOrder.equiv_of_gt (hbefore e he)]
      rfl
  · rw [h.size]
    simp only [List.length_append, List.length_cons]
    omega

/-- A name that goes and comes back. -/
theorem replace {before after : Entries} {old : List UInt8}
    (h : m.Holds (before ++ (name, old) :: after))
    (hties : m.tree.root.unties m.tree.le name = false) (new : Fresh A) :
    Holds ⟨(m.tree.remove name).call new (.add name value), m.size⟩
      (before ++ (name, value) :: after) := by
  obtain ⟨hbefore, hafter, -⟩ := StrictWeakOrder.sorted_mid.mp h.sorted
  have hnew : ∀ e ∈ before ++ after, e.1 ≠ name := by
    intro e he heq
    rcases List.mem_append.mp he with he | he
    · have := hbefore e he
      rw [heq, stringOrder.irrefl] at this
      contradiction
    · have := hafter e he
      rw [heq, stringOrder.irrefl] at this
      contradiction
  have hadd : Holds ⟨(m.tree.remove name).call new (.add name value), m.size - 1 + 1⟩ _ :=
    (h.remove hties).add new hnew
  rw [set_entries_mid hbefore hafter] at hadd
  have hsize : m.size - 1 + 1 = m.size := by omega
  rwa [hsize] at hadd

/-- `set` puts the name in its place. -/
theorem set (h : m.Holds l) (new : Fresh A)
    (hties : m.tree.contains name = true → m.tree.root.unties m.tree.le name = false) :
    (m.set new name value).Holds ((MapOp.set name value new).entries l) := by
  rcases hin : m.tree.contains name with - | -
  · have hnew : ∀ e ∈ l, e.1 ≠ name := by
      intro e he heq
      rw [h.contains_iff.mpr ⟨e, he, heq⟩] at hin
      cases hin
    have hset : m.set new name value = ⟨m.tree.call new (.add name value), m.size + 1⟩ := by
      rw [OrderedMap.set, hin]
      rfl
    rw [hset]
    exact h.add new hnew
  · obtain ⟨⟨key, old⟩, he, hkey⟩ := h.contains_iff.mp hin
    obtain rfl : name = key := hkey.symm
    obtain ⟨before, after, rfl⟩ := List.append_of_mem he
    have hset : m.set new name value
        = ⟨(m.tree.remove name).call new (.add name value), m.size⟩ := by
      rw [OrderedMap.set, hin]
      simp
    rw [hset, set_entries_old h.sorted]
    exact h.replace (hties hin) new

/-- `setByIndex` replaces the first value, and leaves the others. -/
theorem setByIndex (h : m.Holds l) (hfuel : l.length < fuel) (new : Fresh A)
    (hties : index = 0 → ∀ e ∈ l.head?, m.tree.root.unties m.tree.le e.1 = false) :
    ∃ m', m.setByIndex fuel new index value = some m' ∧
      m'.Holds (if index = 0 then l.modify 0 fun e => (e.1, value) else l) := by
  rw [OrderedMap.setByIndex, setLoop_eq (h.traverse hfuel)]
  by_cases hzero : index = 0
  · subst hzero
    have hsize := h.size
    rw [if_neg (by omega)]
    cases l with
    | nil => exact ⟨m, rfl, h⟩
    | cons e rest =>
      have hm : m.Holds ([] ++ (e.1, e.2) :: rest) := h
      exact ⟨_, rfl, hm.replace (hties rfl e rfl) new⟩
  · rw [if_neg hzero, if_neg hzero]
    refine ⟨m, ?_, h⟩
    split <;> rfl

theorem getByIndex (h : m.Holds l) (hfuel : l.length < fuel) {len : Int} (hlen : 0 ≤ len)
    (index : Nat) :
    m.getByIndex fuel len index = some (l[index]?.map fun e => e.2.take len.toNat) := by
  rw [OrderedMap.getByIndex, getLoop_eq (h.traverse hfuel) (Nat.zero_le _), Nat.sub_zero]
  rcases hentry : l[index]? with - | e
  · simp only [Option.map_none]
  · simp only [Option.map_some, copy_eq e.2 hlen]

theorem get (h : m.Holds l) {len : Int} (hlen : 0 ≤ len) (name : List UInt8) :
    m.get len name = some ((l.find? fun e => e.1 == name).map fun e => e.2.take len.toNat) := by
  obtain ⟨f, hf⟩ := h.sound
  have hfind : l.find? (fun e => e.1 == name)
      = m.tree.root.erase.toList.find? fun q => m.tree.le.equiv name q.1 := by
    rw [← LinkedNode.records_eq, h.records, h.le]
    congr 1
    funext e
    rw [Bool.eq_iff_iff, beq_iff_eq, stringOrder_equiv]
    exact eq_comm
  rw [OrderedMap.get, LinkedTree.get, LinkedNode.get_erase, Node.get_spec hf.erase_sorted, hfind]
  rcases hentry : m.tree.root.erase.toList.find? fun q => m.tree.le.equiv name q.1 with - | e
  · simp only [hentry, Option.map_none]
  · simp only [hentry, Option.map_some, copy_eq e.2 hlen]

/-- The entry at an index is found by its name. -/
theorem get_of_entry (h : m.Holds l) {len : Int} (hlen : 0 ≤ len) {e : List UInt8 × List UInt8}
    (he : l[index]? = some e) : m.get len e.1 = some (some (e.2.take len.toNat)) := by
  have hfind : l.find? (fun q => q.1 == e.1) = some e := by
    have hmem := List.mem_of_getElem? he
    rcases hq : l.find? fun q => q.1 == e.1 with - | q
    · exact absurd (by simp) (List.find?_eq_none.mp hq e hmem)
    · have hname := List.find?_some (p := fun q : List UInt8 × List UInt8 => q.1 == e.1) hq
      have hnodup : (l.map (·.1)).Nodup := List.pairwise_map.mpr h.names_nodup
      rw [hq]
      exact congrArg some (List.inj_on_of_nodup_map hnodup (List.mem_of_find?_eq_some hq) hmem
        (by simpa using hname))
  rw [h.get hlen, hfind]
  rfl

end Holds

end OrderedMap

/-! ## Runs -/

variable [DecidableEq A]

/-- A call that neither takes a link away nor is to change a value behind the first one: the removal
    of a name that is there keeps every link, and behind the first index the value is there
    already. -/
def MapOp.Tidy (m : OrderedMap A) : MapOp A → Prop
  | .set name _ _ => m.tree.contains name = true → m.tree.root.unties m.tree.le name = false
  | .setByIndex index value _ =>
      ∀ e, m.tree.root.records[index]? = some e →
        if index = 0 then m.tree.root.unties m.tree.le e.1 = false else e.2 = value

/-- Each call is tidy when its turn comes. -/
def MapOp.AllTidy (fuel : Nat) (m : OrderedMap A) : List (MapOp A) → Prop
  | [] => True
  | op :: ops => op.Tidy m ∧ ∀ m', m.call fuel op = some m' → AllTidy fuel m' ops

namespace OrderedMap

/-- The map answers as the entries: their number, each of them by its index, as much of it as the
    buffer has room for, and the same by its name. A name that is not there has none. -/
def Agrees (m : OrderedMap A) (fuel : Nat) (l : Entries) : Prop :=
  m.getSize = l.length ∧ ∀ len, 0 ≤ len →
    (∀ index, m.getByIndex fuel len index = some (l[index]?.map fun e => e.2.take len.toNat)) ∧
    (∀ index e, l[index]? = some e → m.get len e.1 = m.getByIndex fuel len index) ∧
    ∀ name, (∀ e ∈ l, e.1 ≠ name) → m.get len name = some none

/-- After `setByIndex` the value is at the index, and every other entry is as it was. -/
def SetsByIndex (m : OrderedMap A) (fuel : Nat) (new : Fresh A) (index : Nat)
    (value : List UInt8) : Prop :=
  ∃ m', m.setByIndex fuel new index value = some m' ∧ ∀ len, 0 ≤ len →
    m'.getByIndex fuel len index = some (some (value.take len.toNat)) ∧
      ∀ i, i ≠ index → m'.getByIndex fuel len i = m.getByIndex fuel len i

namespace Holds

variable {m : OrderedMap A} {l : Entries} {fuel : Nat}

theorem agrees (h : m.Holds l) (hfuel : l.length < fuel) : m.Agrees fuel l := by
  refine ⟨h.size, fun len hlen => ⟨h.getByIndex hfuel hlen, fun index e he => ?_, fun name hnot => ?_⟩⟩
  · rw [h.get_of_entry hlen he, h.getByIndex hfuel hlen, he]
    rfl
  · rw [h.get hlen, List.find?_eq_none.mpr fun e he => by simpa using hnot e he]
    rfl

/-- A tidy call does to the map what it does to the entries. -/
theorem call (h : m.Holds l) (hfuel : l.length < fuel) (op : MapOp A) (htidy : op.Tidy m) :
    ∃ m', m.call fuel op = some m' ∧ m'.Holds (op.entries l) := by
  cases op with
  | set name value new => exact ⟨_, rfl, h.set new htidy⟩
  | setByIndex index value new =>
    simp only [MapOp.Tidy, h.records] at htidy
    have hties : index = 0 → ∀ e ∈ l.head?, m.tree.root.unties m.tree.le e.1 = false := by
      intro hzero e he
      subst hzero
      have := htidy e (by rwa [← List.head?_eq_getElem?])
      simpa using this
    obtain ⟨m', hm', hholds⟩ : ∃ m', m.setByIndex fuel new index value = some m' ∧
        m'.Holds (if index = 0 then l.modify 0 fun e => (e.1, value) else l) :=
      h.setByIndex hfuel new hties
    refine ⟨m', hm', ?_⟩
    rw [MapOp.entries]
    by_cases hzero : index = 0
    · subst hzero
      exact hholds
    · rw [if_neg hzero] at hholds
      have hsame : l.modify index (fun e => (e.1, value)) = l := by
        apply List.ext_getElem? fun i => ?_
        rw [List.getElem?_modify]
        rcases hentry : l[i]? with - | e
        · rfl
        · split
          · next heq =>
            subst heq
            have := htidy e hentry
            rw [if_neg hzero] at this
            simp [← this]
          · rfl
      rwa [hsame]

theorem calls (h : m.Holds l) (ops : List (MapOp A)) (hfuel : l.length + ops.length < fuel)
    (htidy : MapOp.AllTidy fuel m ops) :
    ∃ m', m.calls fuel ops = some m' ∧ m'.Holds (ops.foldl MapOp.entries l) ∧
      (ops.foldl MapOp.entries l).length < fuel := by
  induction ops generalizing m l with
  | nil => exact ⟨m, rfl, h, hfuel⟩
  | cons op ops ih =>
    rw [List.length_cons] at hfuel
    have hlt : l.length < fuel := by omega
    obtain ⟨m', hm', hholds⟩ := h.call hlt op htidy.1
    have := entries_length_le op l
    have hroom : (op.entries l).length + ops.length < fuel := by omega
    obtain ⟨m'', hm'', hend⟩ := ih hholds hroom (htidy.2 m' hm')
    refine ⟨m'', ?_, hend⟩
    rw [OrderedMap.calls, hm']
    exact hm''

theorem setsByIndex (h : m.Holds l) (hfuel : l.length < fuel) (new : Fresh A) {index : Nat}
    (value : List UInt8) (hindex : index < l.length)
    (htidy : (MapOp.setByIndex index value new).Tidy m) : m.SetsByIndex fuel new index value := by
  obtain ⟨m', hm', hholds⟩ := h.call hfuel _ htidy
  have hlength : ((MapOp.setByIndex index value new).entries l).length < fuel := by
    rw [MapOp.entries, List.length_modify]
    exact hfuel
  refine ⟨m', hm', fun len hlen => ⟨?_, fun i hi => ?_⟩⟩
  · rw [hholds.getByIndex hlength hlen, MapOp.entries, List.getElem?_modify,
      List.getElem?_eq_getElem hindex]
    simp
  · rw [hholds.getByIndex hlength hlen, h.getByIndex hfuel hlen, MapOp.entries,
      List.getElem?_modify]
    simp [Ne.symm hi]

/-- Behind the first index the value must be there already. -/
theorem tidy_of_setsByIndex (h : m.Holds l) (hfuel : l.length < fuel) (new : Fresh A)
    {index : Nat} (value : List UInt8) (hpos : 0 < index) (hindex : index < l.length)
    (hsets : m.SetsByIndex fuel new index value) :
    (MapOp.setByIndex index value new).Tidy m := by
  obtain ⟨m', hm', hafter⟩ := hsets
  have hsame : m.setByIndex fuel new index value = some m := by
    have hsize := h.size
    rw [OrderedMap.setByIndex, setLoop_eq (h.traverse hfuel), if_neg (by omega), if_neg (by omega)]
  obtain rfl : m = m' := Option.some.inj (hsame.symm.trans hm')
  simp only [MapOp.Tidy, h.records, List.getElem?_eq_getElem hindex, Option.some.injEq,
    forall_eq', if_neg (Nat.ne_of_gt hpos)]
  have hvalue := (hafter (max l[index].2.length value.length : Nat) (Int.natCast_nonneg _)).1
  rw [h.getByIndex hfuel (Int.natCast_nonneg _), List.getElem?_eq_getElem hindex] at hvalue
  simp only [Option.map_some, Option.some.injEq, Int.toNat_natCast] at hvalue
  rwa [List.take_of_length_le (Nat.le_max_left ..), List.take_of_length_le (Nat.le_max_right ..)]
    at hvalue

end Holds

/-- After tidy calls the map answers as the entries do, and a tidy `setByIndex` of a valid index sets
    its value and no other. Behind the first index no other `setByIndex` does. -/
theorem calls_agree (ops : List (MapOp A)) {fuel : Nat} (hfuel : ops.length < fuel)
    (htidy : MapOp.AllTidy fuel (empty : OrderedMap A) ops) :
    ∃ m, (empty : OrderedMap A).calls fuel ops = some m ∧
      m.Agrees fuel (ops.foldl MapOp.entries []) ∧
      (∀ (index : Nat) (value : List UInt8) (new : Fresh A), (index : Int) < m.getSize →
        (MapOp.setByIndex index value new).Tidy m → m.SetsByIndex fuel new index value) ∧
      ∀ (index : Nat) (value : List UInt8) (new : Fresh A), 0 < index →
        (index : Int) < m.getSize → m.SetsByIndex fuel new index value →
          (MapOp.setByIndex index value new).Tidy m := by
  obtain ⟨m, hm, hholds, hlength⟩ := empty_holds.calls ops (by simpa using hfuel) htidy
  have hsize := hholds.size
  refine ⟨m, hm, hholds.agrees hlength, fun index value new hindex htidy => ?_,
    fun index value new hpos hindex hsets => ?_⟩
  · rw [getSize] at hindex
    exact hholds.setsByIndex hlength new value (by omega) htidy
  · rw [getSize] at hindex
    exact hholds.tidy_of_setsByIndex hlength new value hpos (by omega) hsets

/-- Two names are set, one of them is replaced, and the first value is set by its index. -/
theorem calls_agree_firstIndex :
    ∃ m, (empty : OrderedMap Nat).calls 5
        [.set [98] [49] LinkedTree.newNat, .set [97] [50] LinkedTree.newNat,
          .set [97] [51] LinkedTree.newNat, .setByIndex 0 [52] LinkedTree.newNat] = some m ∧
      m.Agrees 5 [([97], [52]), ([98], [49])] := by
  have htidy : MapOp.AllTidy 5 (empty : OrderedMap Nat)
      [.set [98] [49] LinkedTree.newNat, .set [97] [50] LinkedTree.newNat,
        .set [97] [51] LinkedTree.newNat, .setByIndex 0 [52] LinkedTree.newNat] := by
    refine ⟨fun _ => by decide +kernel, fun _ h => Option.some.inj h ▸ ?_⟩
    refine ⟨fun _ => by decide +kernel, fun _ h => Option.some.inj h ▸ ?_⟩
    refine ⟨fun _ => by decide +kernel, fun _ h => Option.some.inj h ▸ ?_⟩
    refine ⟨fun e he => ?_, fun _ _ => trivial⟩
    have hfirst : ((((empty : OrderedMap Nat).set LinkedTree.newNat [98] [49]).set
        LinkedTree.newNat [97] [50]).set LinkedTree.newNat [97] [51]).tree.root.records[0]?
          = some ([97], [51]) := by decide +kernel
    obtain rfl : _ = e := Option.some.inj (hfirst.symm.trans he)
    decide +kernel
  obtain ⟨m, hm, hagrees, -⟩ := calls_agree _ (by decide) htidy
  have hentries : List.foldl MapOp.entries []
      [MapOp.set [98] [49] LinkedTree.newNat, .set [97] [50] LinkedTree.newNat,
        .set [97] [51] LinkedTree.newNat, .setByIndex 0 [52] LinkedTree.newNat]
      = [([97], [52]), ([98], [49])] := by decide +kernel
  rw [hentries] at hagrees
  exact ⟨m, hm, hagrees⟩

/-- The second of two values is not set by its index. Of ten names, the one that is set again takes a
    link away, so that the last four have no value at their indices. -/
theorem not_calls_agree_secondIndex :
    (∃ m, (empty : OrderedMap Nat).calls 3
        [.set [97] [49] LinkedTree.newNat, .set [98] [50] LinkedTree.newNat] = some m ∧
      m.getSize = 2 ∧ ¬ m.SetsByIndex 3 LinkedTree.newNat 1 [57]) ∧
    ((empty : OrderedMap Nat).calls 12
        ([1, 5, 12, 0, 10, 13, 15, 14, 4, 3, 0].map fun k : UInt8 =>
          .set [97 + k] [k] LinkedTree.newNat)).map (fun m => (m.getSize, m.getByIndex 12 1 6))
      = some (10, some none) := by
  refine ⟨⟨_, rfl, rfl, ?_⟩, by decide +kernel⟩
  rintro ⟨m', hm', hsets⟩
  have hvalue := (hsets 1 (by decide)).1
  have hold : ((((empty : OrderedMap Nat).set LinkedTree.newNat [97] [49]).set
      LinkedTree.newNat [98] [50]).setByIndex 3 LinkedTree.newNat 1 [57]).map
        (fun m' => m'.getByIndex 3 1 1) = some (some (some [50])) := by decide +kernel
  rw [hm'] at hold
  rw [Option.map_some, hvalue] at hold
  exact absurd hold (by decide)

end OrderedMap

end EsOs.Es
