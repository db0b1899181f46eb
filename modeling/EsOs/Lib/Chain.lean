import Mathlib.Data.List.Basic
import Mathlib.Logic.Function.Basic

/-!
# Chains in a map of links

Linked lists that live in a map from each node to the next one. A path lists the nodes met from a
head up to a given link; a chain is a path of proper nodes whose last link is an end mark. The
lemmas say which changes of the map a path survives, that a chain never meets a node twice, and how
one link is set to join two chains or to cut one.
-/

namespace EsOs.Lib

variable {α : Type _}

/-- From `h`, the links lead over the nodes `l` to `t`. -/
def Path (next : α → α) : α → List α → α → Prop
  | h, [], t => h = t
  | h, a :: l, t => h = a ∧ Path next (next a) l t

/-- From `h`, the links lead over the nodes `l`, none of which is an end mark, to an end mark. -/
structure Chain (next : α → α) (stop : α → Prop) (h : α) (l : List α) : Prop where
  nodes : ∀ a ∈ l, ¬ stop a
  ends : ∃ t, Path next h l t ∧ stop t

section Path

variable {next next' : α → α} {h t a : α} {l l' : List α}

theorem Path.congr (heq : ∀ a ∈ l, next' a = next a) (hp : Path next h l t) :
    Path next' h l t := by
  induction l generalizing h with
  | nil => exact hp
  | cons a l ih =>
    obtain ⟨rfl, hp⟩ := hp
    refine ⟨rfl, ?_⟩
    rw [heq h (.head _)]
    exact ih (fun b hb => heq b (.tail _ hb)) hp

theorem path_append :
    Path next h (l ++ l') t ↔ ∃ m, Path next h l m ∧ Path next m l' t := by
  induction l generalizing h with
  | nil => exact ⟨fun hp => ⟨h, rfl, hp⟩, fun ⟨_, hm, hp⟩ => hm ▸ hp⟩
  | cons a l ih =>
    constructor
    · rintro ⟨rfl, hp⟩
      obtain ⟨m, hl, hr⟩ := ih.mp hp
      exact ⟨m, ⟨rfl, hl⟩, hr⟩
    · rintro ⟨m, ⟨rfl, hl⟩, hr⟩
      exact ⟨rfl, ih.mpr ⟨m, hl, hr⟩⟩

theorem path_snoc : Path next h (l ++ [a]) t ↔ Path next h l a ∧ next a = t := by
  rw [path_append]
  constructor
  · rintro ⟨m, hl, rfl, ht⟩
    exact ⟨hl, ht⟩
  · rintro ⟨hl, ht⟩
    exact ⟨a, hl, rfl, ht⟩

variable [DecidableEq α]

/-- Another link at a node that the path does not meet. -/
theorem Path.update (hp : Path next h l t) (ha : a ∉ l) (v : α) :
    Path (Function.update next a v) h l t :=
  hp.congr fun b hb => Function.update_of_ne (fun hba : b = a => ha (hba ▸ hb)) v next

/-- Another link at the last node of a path. -/
theorem Path.update_last (hp : Path next h l a) (ha : a ∉ l) (v : α) :
    Path (Function.update next a v) h (l ++ [a]) v :=
  path_snoc.mpr ⟨hp.update ha v, Function.update_self a v next⟩

end Path

section Chain

variable {next next' : α → α} {stop : α → Prop} {h h' a : α} {l l' : List α}

theorem Chain.nil (hs : stop h) : Chain next stop h [] :=
  ⟨nofun, h, rfl, hs⟩

theorem Chain.congr (heq : ∀ a ∈ l, next' a = next a) (hc : Chain next stop h l) :
    Chain next' stop h l := by
  obtain ⟨t, hp, ht⟩ := hc.ends
  exact ⟨hc.nodes, t, hp.congr heq, ht⟩

theorem Chain.head (hc : Chain next stop h (a :: l)) : h = a ∧ Chain next stop (next a) l := by
  obtain ⟨t, ⟨rfl, hp⟩, ht⟩ := hc.ends
  exact ⟨rfl, fun b hb => hc.nodes b (.tail _ hb), t, hp, ht⟩

/-- The rest of a chain from one of its nodes is a chain from that node. -/
theorem Chain.suffix (hc : Chain next stop h (l ++ a :: l')) : Chain next stop a (a :: l') := by
  obtain ⟨t, hp, ht⟩ := hc.ends
  obtain ⟨m, -, hr⟩ := path_append.mp hp
  obtain ⟨rfl, -⟩ := id hr
  exact ⟨fun b hb => hc.nodes b (List.mem_append_right l hb), t, hr, ht⟩

/-- A head has one chain. -/
theorem Chain.unique (hc : Chain next stop h l) (hc' : Chain next stop h l') : l = l' := by
  induction l generalizing h l' with
  | nil =>
    obtain ⟨t, rfl, ht⟩ := hc.ends
    cases l' with
    | nil => rfl
    | cons b l' =>
      obtain ⟨rfl, -⟩ := hc'.head
      exact absurd ht (hc'.nodes h (.head _))
  | cons a l ih =>
    obtain ⟨rfl, hrest⟩ := hc.head
    cases l' with
    | nil =>
      obtain ⟨t, rfl, ht⟩ := hc'.ends
      exact absurd ht (hc.nodes h (.head _))
    | cons b l' =>
      obtain ⟨rfl, hrest'⟩ := hc'.head
      rw [ih hrest hrest']

/-- A chain never comes back to a node. -/
theorem Chain.nodup (hc : Chain next stop h l) : l.Nodup := by
  induction l generalizing h with
  | nil => exact List.nodup_nil
  | cons a l ih =>
    obtain ⟨-, hrest⟩ := hc.head
    refine List.nodup_cons.mpr ⟨fun ha => ?_, ih hrest⟩
    obtain ⟨s, t, rfl⟩ := List.append_of_mem ha
    -- the two rests from `a` would be one list
    have htail : a :: t = a :: (s ++ a :: t) :=
      hrest.suffix.unique (hc.suffix (l := []))
    have := congrArg List.length htail
    simp only [List.length_cons, List.length_append] at this
    omega

variable [DecidableEq α]

/-- A chain is not changed by a link at a node outside it. -/
theorem Chain.update (hc : Chain next stop h l) (ha : a ∉ l) (v : α) :
    Chain (Function.update next a v) stop h l :=
  hc.congr fun b hb => Function.update_of_ne (fun hba : b = a => ha (hba ▸ hb)) v next

/-- A node outside of a chain is linked before it. -/
theorem Chain.push (hc : Chain next stop h l) (ha : a ∉ l) (hs : ¬ stop a) :
    Chain (Function.update next a h) stop a (a :: l) := by
  obtain ⟨t, hp, ht⟩ := hc.ends
  refine ⟨fun b hb => ?_, t, ⟨rfl, ?_⟩, ht⟩
  · rcases List.mem_cons.mp hb with rfl | hb
    · exact hs
    · exact hc.nodes b hb
  · rw [Function.update_self]
    exact hp.update ha h

/-- Setting a link of a chain to the head of another one, which does not meet that node, cuts the
    chain there and joins the first part to the other chain; the rest is still a chain from the old
    link. -/
theorem Chain.relink (hc : Chain next stop h (l ++ a :: l')) {k : List α}
    (hk : Chain next stop h' k) (ha : a ∉ k) :
    Chain (Function.update next a h') stop h (l ++ [a] ++ k) ∧
      Chain (Function.update next a h') stop (next a) l' := by
  have hnodup := List.nodup_append.mp hc.nodup
  have hal : a ∉ l := fun hmem => hnodup.2.2 a hmem a (.head _) rfl
  have hal' : a ∉ l' := (List.nodup_cons.mp hnodup.2.1).1
  obtain ⟨t, hp, -⟩ := hc.ends
  obtain ⟨m, hl, rfl, -⟩ := path_append.mp hp
  obtain ⟨t', hp', ht'⟩ := (hk.update ha h').ends
  refine ⟨⟨fun b hb => ?_, t', path_append.mpr ⟨h', hl.update_last hal h', hp'⟩, ht'⟩,
    hc.suffix.head.2.update hal' h'⟩
  rcases List.mem_append.mp hb with hb | hb
  · refine hc.nodes b ?_
    rcases List.mem_append.mp hb with hb | hb
    · exact List.mem_append_left _ hb
    · rw [List.mem_singleton.mp hb]
      exact List.mem_append_right _ (.head _)
  · exact hk.nodes b hb

/-- Setting the last link of a chain to the head of another, disjoint one joins the two. -/
theorem Chain.join (hc : Chain next stop h (l ++ [a])) (hc' : Chain next stop h' l')
    (hd : a ∉ l') : Chain (Function.update next a h') stop h (l ++ [a] ++ l') :=
  (hc.relink hc' hd).1

/-- Setting a link of a chain to an end mark cuts the chain after that node; the rest is still a
    chain from the old link. -/
theorem Chain.cut (hc : Chain next stop h (l ++ a :: l')) {v : α} (hv : stop v) :
    Chain (Function.update next a v) stop h (l ++ [a]) ∧
      Chain (Function.update next a v) stop (next a) l' := by
  have hrelink := hc.relink (.nil hv) List.not_mem_nil
  rwa [List.append_nil] at hrelink

end Chain

end EsOs.Lib
