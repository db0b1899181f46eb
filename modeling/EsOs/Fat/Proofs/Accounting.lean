import EsOs.Fat.Proofs.SetSize
import Mathlib.Data.List.Forall2

/-!
# Cluster accounting

Along a run every call replaces one chain of the volume by another, which keeps the chains apart,
keeps `freeCount` right, leaves the two reserved entries alone and loses no cluster, as long as a
stream that grows has a chain as long as its size says.
-/

namespace EsOs.Fat

open EsOs.Lib

section Lists

variable {α β : Type _} {R : α → β → Prop} {F : List α} {A : List β} {f : α} {i : Nat}

/-- The two lists around a pair. -/
theorem forall₂_split (h : List.Forall₂ R F A) (hi : F[i]? = some f) :
    ∃ F₁ F₂ A₁ l A₂, F = F₁ ++ f :: F₂ ∧ A = A₁ ++ l :: A₂ ∧ F₁.length = i ∧
      List.Forall₂ R F₁ A₁ ∧ R f l ∧ List.Forall₂ R F₂ A₂ := by
  induction h generalizing i with
  | nil => cases hi
  | @cons g k F A hgk hrest ih =>
    cases i with
    | zero =>
      cases Option.some.inj hi
      exact ⟨[], F, [], k, A, rfl, rfl, rfl, .nil, hgk, hrest⟩
    | succ i =>
      obtain ⟨F₁, F₂, A₁, l, A₂, rfl, rfl, hlen, h₁, hr, h₂⟩ := ih hi
      exact ⟨g :: F₁, F₂, k :: A₁, l, A₂, rfl, rfl, by rw [List.length_cons, hlen],
        .cons hgk h₁, hr, h₂⟩

theorem set_middle {F₁ F₂ : List α} (hlen : F₁.length = i) (g : α) :
    (F₁ ++ f :: F₂).set i g = F₁ ++ g :: F₂ := by
  subst hlen
  simp

theorem eraseIdx_middle {F₁ F₂ : List α} (hlen : F₁.length = i) :
    (F₁ ++ f :: F₂).eraseIdx i = F₁ ++ F₂ := by
  subst hlen
  simp [List.eraseIdx_append_of_length_le]

/-- Another relation that holds of the same pairs. -/
theorem forall₂_imp_mem {S : α → β → Prop} (h : List.Forall₂ R F A)
    (hs : ∀ f, ∀ l ∈ A, R f l → S f l) : List.Forall₂ S F A := by
  induction h with
  | nil => exact .nil
  | cons hr _ ih =>
    exact .cons (hs _ _ (.head _) hr) (ih fun f l hl => hs f l (.tail _ hl))

/-- Another part of a list without repetitions. -/
theorem nodup_replace {X Y l l' : List α} (h : (X ++ l ++ Y).Nodup) (hl : l'.Nodup)
    (hd : ∀ c ∈ l', c ∉ X ∧ c ∉ Y) : (X ++ l' ++ Y).Nodup := by
  simp only [List.nodup_append, List.mem_append] at h ⊢
  obtain ⟨⟨hX, -, -⟩, hY, hXY⟩ := h
  refine ⟨⟨hX, hl, fun a ha b hb hab => (hd b hb).1 (hab ▸ ha)⟩, hY, fun a ha b hb => ?_⟩
  rcases ha with ha | ha
  · exact hXY a (.inl ha) b hb
  · exact fun hab => (hd a ha).2 (hab ▸ hb)

end Lists

namespace FatStream

variable {f : FatStream} {s s' : FatFileSystem} {l l' k : List Nat}

theorem ChainOf.unique (hl : f.ChainOf s l) (hl' : f.ChainOf s l') : l = l' := by
  rcases hl with ⟨h0, rfl⟩ | ⟨h0, hc⟩
  · rcases hl' with ⟨-, rfl⟩ | ⟨h0', -⟩
    · rfl
    · exact absurd h0 h0'
  · rcases hl' with ⟨h0', -⟩ | ⟨-, hc'⟩
    · exact absurd h0' h0
    · exact hc.chain.unique hc'.chain

/-- The chain of a stream apart from an edited one. -/
theorem ChainOf.apart (h : s.WellFormed) (he : FatFileSystem.Edited s s' l l')
    (hk : f.ChainOf s k) (hd : ∀ c ∈ k, c ∉ l) : f.ChainOf s' k :=
  hk.imp_right fun ⟨hf, hc⟩ => ⟨hf, (he.chain_apart h hc hd).1⟩

end FatStream

namespace Volume

variable {v v' : Volume} {files others files' others' : List (List Nat)}

/-- All the clusters on the chains of a layout. -/
abbrev all (files others : List (List Nat)) : List Nat :=
  files.flatten ++ others.flatten

theorem Layout.nodup (hl : v.Layout files others) : (all files others).Nodup :=
  hl.disjoint

/-- A cluster on a chain is a cluster of the data area that is not free. -/
theorem Layout.inTable (h : v.fs.WellFormed) (hl : v.Layout files others) {c : Nat}
    (hc : c ∈ all files others) : v.fs.IsCluster c ∧ v.fs.clusEntryVal c ≠ 0 := by
  rcases List.mem_append.mp hc with hc | hc
  · obtain ⟨k, hk, hck⟩ := List.mem_flatten.mp hc
    obtain ⟨i, hi⟩ := List.mem_iff_getElem?.mp hk
    obtain ⟨A₁, A₂, F₁, f, F₂, hA, -, -, -, hf, -⟩ := forall₂_split hl.ofStreams.flip hi
    exact ⟨FatStream.ChainOf.isCluster h hf hck, FatStream.ChainOf.entry_ne_zero h hf hck⟩
  · obtain ⟨k, hk, hck⟩ := List.mem_flatten.mp hc
    obtain ⟨i, hi⟩ := List.mem_iff_getElem?.mp hk
    obtain ⟨A₁, A₂, F₁, f, F₂, hA, -, -, -, hf, -⟩ := forall₂_split hl.ofHeads.flip hi
    exact ⟨FatFileSystem.ChainFrom.isCluster h hf hck,
      FatFileSystem.ChainFrom.entry_ne_zero h hf hck⟩

/-- The used clusters are those on the chains of a layout. -/
theorem Layout.used_iff (hl : v.Layout files others) {c : Nat} :
    v.Used c ↔ c ∈ all files others := by
  rw [List.mem_append, List.mem_flatten, List.mem_flatten]
  constructor
  · rintro (⟨f, hf, l, hfl, hcl⟩ | ⟨h, hh, l, hhl, hcl⟩)
    · obtain ⟨i, hi⟩ := List.mem_iff_getElem?.mp hf
      obtain ⟨F₁, F₂, A₁, k, A₂, -, rfl, -, -, hfk, -⟩ := forall₂_split hl.ofStreams hi
      exact .inl ⟨k, by simp, hfl.unique hfk ▸ hcl⟩
    · obtain ⟨i, hi⟩ := List.mem_iff_getElem?.mp hh
      obtain ⟨F₁, F₂, A₁, k, A₂, -, rfl, -, -, hhk, -⟩ := forall₂_split hl.ofHeads hi
      exact .inr ⟨k, by simp, hhl.chain.unique hhk.chain ▸ hcl⟩
  · rintro (⟨l, hl', hcl⟩ | ⟨l, hl', hcl⟩)
    · obtain ⟨i, hi⟩ := List.mem_iff_getElem?.mp hl'
      obtain ⟨A₁, A₂, F₁, f, F₂, -, hF, -, -, hf, -⟩ := forall₂_split hl.ofStreams.flip hi
      exact .inl ⟨f, by simp [hF], l, hf, hcl⟩
    · obtain ⟨i, hi⟩ := List.mem_iff_getElem?.mp hl'
      obtain ⟨A₁, A₂, F₁, h, F₂, -, hF, -, -, hh, -⟩ := forall₂_split hl.ofHeads.flip hi
      exact .inr ⟨h, by simp [hF], l, hh, hcl⟩

/-- What a call keeps. -/
structure Moves (v v' : Volume) : Prop where
  mounted : v'.Mounted
  bpb : v'.fs.toBpb = v.fs.toBpb
  reserved : ∀ c < 2, v'.fs.clusEntryVal c = v.fs.clusEntryVal c
  lost : ∀ c, v'.Lost c → v.Lost c

theorem Moves.refl (h : v.Mounted) : Moves v v :=
  ⟨h, rfl, fun _ _ => rfl, fun _ hc => hc⟩

/-- Every stream was there with its chain, but for one that is `new`. -/
def Keeps (v v' : Volume) (new : FatStream → List Nat → Prop) : Prop :=
  ∀ g ∈ v'.streams, ∀ k, g.ChainOf v'.fs k → (g ∈ v.streams ∧ g.ChainOf v.fs k) ∨ new g k

/-- What the streams remember stays right when their chains do. -/
theorem Keeps.ready (hm : v.Mounted) (hb : v'.fs.toBpb = v.fs.toBpb)
    {new : FatStream → List Nat → Prop} (hk : Keeps v v' new)
    (hnew : ∀ g k, new g k → g.Ready v'.fs k) :
    ∀ g ∈ v'.streams, ∀ k, g.ChainOf v'.fs k → g.Ready v'.fs k := by
  intro g hg k hgk
  rcases hk g hg k hgk with ⟨hold, hchain⟩ | h
  · exact (hm.ready g hold k hchain).mono hb fun _ _ hi => hi
  · exact hnew g k h

/-- A call that replaces the chain `l` of a layout by `l'` keeps the volume in order. -/
theorem moves_of_edit (hm : v.Mounted) (hl : v.Layout files others) {X l l' Y : List Nat}
    {F O : List (List Nat)}
    (hold : List.Perm (all files others) (X ++ l ++ Y))
    (he : FatFileSystem.Edited v.fs v'.fs l l')
    (hstreams : List.Forall₂ (fun f l => f.ChainOf v'.fs l) v'.streams F)
    (hheads : List.Forall₂ (fun h l => v'.fs.ChainFrom h l) v'.heads O)
    (hnew : List.Perm (all F O) (X ++ l' ++ Y)) (hnodup : l'.Nodup)
    (hready : ∀ f ∈ v'.streams, ∀ l, f.ChainOf v'.fs l → f.Ready v'.fs l) : Moves v v' := by
  have hg := hm.geometry
  have hb := he.bpb
  have hin := fun c hc => hl.inTable hg (c := c) hc
  have hdisj := hold.nodup hl.nodup
  have hlapart : ∀ c ∈ l, c ∉ X ∧ c ∉ Y := by
    simp only [List.nodup_append, List.mem_append] at hdisj
    obtain ⟨⟨-, -, hXl⟩, -, hXlY⟩ := hdisj
    exact fun c hc => ⟨fun hx => hXl c hx c hc rfl, fun hy => hXlY c (.inr hc) c hy rfl⟩
  have hl'apart : ∀ c ∈ l', c ∉ X ∧ c ∉ Y := by
    intro c hc
    by_cases hcl : c ∈ l
    · exact hlapart c hcl
    · have h0 := he.joined c hc hcl
      exact ⟨fun hx => (hin c (hold.mem_iff.mpr (by simp [hx]))).2 h0,
        fun hy => (hin c (hold.mem_iff.mpr (by simp [hy]))).2 h0⟩
  have hlayout : v'.Layout F O := by
    exact ⟨hstreams, hheads, hnew.nodup_iff.mpr (nodup_replace hdisj hnodup hl'apart)⟩
  have hin' := fun c hc => hlayout.inTable (hb ▸ hg) (c := c) hc
  have hlow : ∀ c ∈ l ++ l', 2 ≤ c := by
    intro c hc
    rcases List.mem_append.mp hc with hc | hc
    · exact (hin c (hold.mem_iff.mpr (by simp [hc]))).1.1
    · exact (hin' c (hnew.mem_iff.mpr (by simp [hc]))).1.1
  have hcount := he.zeroEntries (List.Nodup.sublist (by simp) hdisj) hnodup
    (fun c hc => hin c (hold.mem_iff.mpr (by simp [hc])))
    (fun c hc => hb ▸ hin' c (hnew.mem_iff.mpr (by simp [hc])))
  refine ⟨⟨hb ▸ hg, fun c hc => ?_, ⟨F, O, hlayout⟩, hready, ?_⟩, hb, fun c hc => ?_,
    fun c hc => ?_⟩
  · by_cases hcl' : c ∈ l'
    · exact he.reservedZero c hcl'
    · by_cases hcl : c ∈ l
      · rw [he.left c hcl hcl']
        decide
      · rw [he.kept c (hb ▸ hc.2) hcl hcl']
        exact hm.reservedZero c (hb ▸ hc)
  · have := he.freeCount
    have := hm.freeCount
    omega
  · have := hg.someCluster
    refine he.kept c (by omega) (fun hcl => ?_) fun hcl => ?_
    · have := hlow c (List.mem_append_left _ hcl)
      omega
    · have := hlow c (List.mem_append_right _ hcl)
      omega
  · obtain ⟨hcc, h0, hused⟩ := hc
    rw [hlayout.used_iff, hnew.mem_iff] at hused
    have hcc' : v.fs.IsCluster c := hb ▸ hcc
    have hcl' : c ∉ l' := fun hx => hused (by simp [hx])
    have hcl : c ∉ l := fun hx => h0 (he.left c hx hcl')
    refine ⟨hcc', ?_, ?_⟩
    · rwa [he.kept c hcc'.2 hcl hcl'] at h0
    · rw [hl.used_iff, hold.mem_iff]
      simp only [List.mem_append, not_or] at hused ⊢
      exact ⟨⟨hused.1.1, hcl⟩, hused.2⟩

section Apart

variable {s s' : FatFileSystem} {F : List FatStream} {H : List Nat} {A : List (List Nat)}
  {l l' : List Nat}

theorem streams_apart (h : s.WellFormed) (he : FatFileSystem.Edited s s' l l')
    (hF : List.Forall₂ (fun f l => FatStream.ChainOf f s l) F A)
    (hd : ∀ c ∈ A.flatten, c ∉ l) : List.Forall₂ (fun f l => FatStream.ChainOf f s' l) F A :=
  forall₂_imp_mem hF fun _ k hk hc => hc.apart h he fun c hck =>
    hd c (List.mem_flatten.mpr ⟨k, hk, hck⟩)

theorem heads_apart (h : s.WellFormed) (he : FatFileSystem.Edited s s' l l')
    (hH : List.Forall₂ (fun h l => s.ChainFrom h l) H A)
    (hd : ∀ c ∈ A.flatten, c ∉ l) : List.Forall₂ (fun h l => s'.ChainFrom h l) H A :=
  forall₂_imp_mem hH fun _ k hk hc => (he.chain_apart h hc fun c hck =>
    hd c (List.mem_flatten.mpr ⟨k, hk, hck⟩)).1

theorem chains_apart (hF : List.Forall₂ (fun f l => FatStream.ChainOf f s l) F A)
    (hF' : List.Forall₂ (fun f l => FatStream.ChainOf f s' l) F A) :
    ∀ f ∈ F, ∀ l, FatStream.ChainOf f s' l → FatStream.ChainOf f s l := by
  induction hF with
  | nil => simp
  | @cons f k F A hf _ ih =>
    cases hF' with
    | cons hf' hF' =>
      intro g hg l hgl
      rcases List.mem_cons.mp hg with rfl | hg
      · rwa [hgl.unique hf']
      · exact ih hF' g hg l hgl

end Apart

/-- The parts of a list without repetitions are apart from its middle. -/
theorem apart_of_nodup {X l Y : List Nat} (h : (X ++ l ++ Y).Nodup) :
    (∀ c ∈ X, c ∉ l) ∧ ∀ c ∈ Y, c ∉ l := by
  simp only [List.nodup_append, List.mem_append] at h
  obtain ⟨⟨-, -, hXl⟩, -, hXlY⟩ := h
  exact ⟨fun c hc hcl => hXl c hc c hcl rfl, fun c hc hcl => hXlY c (.inr hcl) c hc rfl⟩

/-- A call that edits the chain of one stream, and cuts off a part of it that no entry refers to
    any longer. -/
theorem moves_cut (hm : v.Mounted) {i : Nat} {f f' : FatStream} {t : FatFileSystem}
    {l l' N : List Nat} {C : List (List Nat)} (hi : v.streams[i]? = some f)
    (hc : f.ChainOf v.fs l) (he : FatFileSystem.Edited v.fs t l (l' ++ C.flatten))
    (hc' : f'.ChainOf t l') (hr' : f'.Ready t l')
    (hN : List.Forall₂ (fun h l => t.ChainFrom h l) N C) (hnodup : (l' ++ C.flatten).Nodup) :
    Moves v { fs := t, streams := v.streams.set i f', heads := v.heads ++ N } ∧
      Keeps v { fs := t, streams := v.streams.set i f', heads := v.heads ++ N }
        (fun g k => g = f' ∧ k = l') := by
  obtain ⟨files, others, hl⟩ := hm.layout
  have hg := hm.geometry
  obtain ⟨F₁, F₂, A₁, k, A₂, hF, rfl, hlen, h₁, hk, h₂⟩ := forall₂_split hl.ofStreams hi
  obtain rfl := hc.unique hk
  have hold : all (A₁ ++ l :: A₂) others = A₁.flatten ++ l ++ (A₂.flatten ++ others.flatten) := by
    simp [all]
  have hnew : List.Perm (all (A₁ ++ l' :: A₂) (others ++ C))
      (A₁.flatten ++ (l' ++ C.flatten) ++ (A₂.flatten ++ others.flatten)) := by
    simp only [all, List.flatten_append, List.flatten_cons, List.append_assoc]
    refine .append_left _ (.append_left _ ?_)
    rw [← List.append_assoc]
    exact List.perm_append_comm
  obtain ⟨hX, hY⟩ := apart_of_nodup (hold ▸ hl.nodup)
  have h₁' := streams_apart hg he h₁ hX
  have h₂' := streams_apart hg he h₂ fun c hcm => hY c (List.mem_append_left _ hcm)
  have hheads := heads_apart hg he hl.ofHeads fun c hcm => hY c (List.mem_append_right _ hcm)
  have hset : v.streams.set i f' = F₁ ++ f' :: F₂ := by
    rw [hF, set_middle hlen]
  have hkeeps : Keeps v { fs := t, streams := v.streams.set i f', heads := v.heads ++ N }
      (fun g k => g = f' ∧ k = l') := by
    intro g hg k hgk
    rw [show ({ fs := t, streams := v.streams.set i f', heads := v.heads ++ N } :
      Volume).streams = _ from hset, List.mem_append, List.mem_cons] at hg
    rcases hg with hg | rfl | hg
    · exact .inl ⟨by simp [hF, hg], chains_apart h₁ h₁' g hg k hgk⟩
    · exact .inr ⟨rfl, hgk.unique hc'⟩
    · exact .inl ⟨by simp [hF, hg], chains_apart h₂ h₂' g hg k hgk⟩
  refine ⟨moves_of_edit hm hl (.of_eq hold) he (F := A₁ ++ l' :: A₂) (O := others ++ C) ?_
    (List.rel_append hheads hN) hnew hnodup (hkeeps.ready hm he.bpb ?_), hkeeps⟩
  · show List.Forall₂ _ (v.streams.set i f') _
    rw [hset]
    exact List.rel_append h₁' (.cons hc' h₂')
  · rintro g k ⟨rfl, rfl⟩
    exact hr'

/-- A call that edits the chain of one stream. -/
theorem moves_stream (hm : v.Mounted) {i : Nat} {f f' : FatStream} {t : FatFileSystem}
    {l l' : List Nat} (hi : v.streams[i]? = some f) (hc : f.ChainOf v.fs l)
    (he : FatFileSystem.Edited v.fs t l l') (hc' : f'.ChainOf t l') (hr' : f'.Ready t l') :
    Moves v { v with fs := t, streams := v.streams.set i f' } ∧
      Keeps v { v with fs := t, streams := v.streams.set i f' } (fun g k => g = f' ∧ k = l') := by
  have hnil := (List.append_nil l').symm
  have hmoves := moves_cut hm (C := []) (N := []) hi hc (hnil ▸ he) hc' hr' .nil
    (hnil ▸ hc'.nodup)
  rwa [List.append_nil] at hmoves

/-- A stream goes away with its chain. -/
theorem moves_remove (hm : v.Mounted) {i : Nat} {f : FatStream} {s' : FatFileSystem}
    {l : List Nat} (hi : v.streams[i]? = some f) (hc : f.ChainOf v.fs l)
    (he : FatFileSystem.Edited v.fs s' l []) :
    Moves v { v with fs := s', streams := v.streams.eraseIdx i } ∧
      Keeps v { v with fs := s', streams := v.streams.eraseIdx i } (fun _ _ => False) := by
  obtain ⟨files, others, hl⟩ := hm.layout
  have hg := hm.geometry
  obtain ⟨F₁, F₂, A₁, k, A₂, hF, rfl, hlen, h₁, hk, h₂⟩ := forall₂_split hl.ofStreams hi
  obtain rfl := hc.unique hk
  have hold : all (A₁ ++ l :: A₂) others = A₁.flatten ++ l ++ (A₂.flatten ++ others.flatten) := by
    simp [all]
  have hnew : all (A₁ ++ A₂) others = A₁.flatten ++ [] ++ (A₂.flatten ++ others.flatten) := by
    simp [all]
  obtain ⟨hX, hY⟩ := apart_of_nodup (hold ▸ hl.nodup)
  have h₁' := streams_apart hg he h₁ hX
  have h₂' := streams_apart hg he h₂ fun c hcm => hY c (List.mem_append_left _ hcm)
  have herase : v.streams.eraseIdx i = F₁ ++ F₂ := by
    rw [hF, eraseIdx_middle hlen]
  have hkeeps : Keeps v { v with fs := s', streams := v.streams.eraseIdx i }
      (fun _ _ => False) := by
    intro g hg k hgk
    rw [show ({ v with fs := s', streams := v.streams.eraseIdx i } : Volume).streams = _ from herase,
      List.mem_append] at hg
    rcases hg with hg | hg
    · exact .inl ⟨by simp [hF, hg], chains_apart h₁ h₁' g hg k hgk⟩
    · exact .inl ⟨by simp [hF, hg], chains_apart h₂ h₂' g hg k hgk⟩
  refine ⟨moves_of_edit hm hl (.of_eq hold) he (F := A₁ ++ A₂) (O := others) ?_
    (heads_apart hg he hl.ofHeads fun c hcm => hY c (List.mem_append_right _ hcm))
    (.of_eq hnew) List.nodup_nil (hkeeps.ready hm he.bpb fun _ _ hno => hno.elim), hkeeps⟩
  show List.Forall₂ _ (v.streams.eraseIdx i) _
  rw [herase]
  exact List.rel_append h₁' h₂'

/-- A chain that no entry refers to is freed. -/
theorem moves_free (hm : v.Mounted) {i h : Nat} {s' : FatFileSystem} {l : List Nat}
    (hi : v.heads[i]? = some h) (hc : v.fs.ChainFrom h l)
    (he : FatFileSystem.Edited v.fs s' l []) :
    Moves v { v with fs := s', heads := v.heads.eraseIdx i } ∧
      Keeps v { v with fs := s', heads := v.heads.eraseIdx i } (fun _ _ => False) := by
  obtain ⟨files, others, hl⟩ := hm.layout
  have hg := hm.geometry
  obtain ⟨H₁, H₂, B₁, k, B₂, hH, rfl, hlen, h₁, hk, h₂⟩ := forall₂_split hl.ofHeads hi
  obtain rfl := hc.chain.unique hk.chain
  have hold : all files (B₁ ++ l :: B₂) = files.flatten ++ B₁.flatten ++ l ++ B₂.flatten := by
    simp [all]
  have hnew : all files (B₁ ++ B₂) = files.flatten ++ B₁.flatten ++ [] ++ B₂.flatten := by
    simp [all]
  obtain ⟨hX, hY⟩ := apart_of_nodup (hold ▸ hl.nodup)
  have hstreams := streams_apart hg he hl.ofStreams fun c hcm => hX c (List.mem_append_left _ hcm)
  have hkeeps : Keeps v { v with fs := s', heads := v.heads.eraseIdx i } (fun _ _ => False) :=
    fun g hg k hgk => .inl ⟨hg, chains_apart hl.ofStreams hstreams g hg k hgk⟩
  refine ⟨moves_of_edit hm hl (.of_eq hold) he (O := B₁ ++ B₂) hstreams ?_ (.of_eq hnew)
    List.nodup_nil (hkeeps.ready hm he.bpb fun _ _ hno => hno.elim), hkeeps⟩
  show List.Forall₂ _ (v.heads.eraseIdx i) _
  rw [hH, eraseIdx_middle hlen]
  exact List.rel_append (heads_apart hg he h₁ fun c hcm => hX c (List.mem_append_right _ hcm))
    (heads_apart hg he h₂ hY)

/-- Only the file system changes, by new clusters that `heads` gets. -/
theorem moves_heads (hm : v.Mounted) {s' : FatFileSystem} {N : List Nat}
    {C : List (List Nat)} (he : FatFileSystem.Edited v.fs s' [] C.flatten)
    (hc : List.Forall₂ (fun h l => s'.ChainFrom h l) N C)
    (hnodup : C.flatten.Nodup) :
    Moves v { v with fs := s', heads := N ++ v.heads } ∧
      Keeps v { v with fs := s', heads := N ++ v.heads } (fun _ _ => False) := by
  obtain ⟨files, others, hl⟩ := hm.layout
  have hg := hm.geometry
  have hold : all files others = files.flatten ++ [] ++ others.flatten := by
    simp [all]
  have hnew : all files (C ++ others) =
      files.flatten ++ C.flatten ++ others.flatten := by
    simp [all]
  have hstreams := streams_apart hg he hl.ofStreams fun _ _ => List.not_mem_nil
  have hkeeps : Keeps v { v with fs := s', heads := N ++ v.heads } (fun _ _ => False) :=
    fun g hg k hgk => .inl ⟨hg, chains_apart hl.ofStreams hstreams g hg k hgk⟩
  exact ⟨moves_of_edit hm hl (.of_eq hold) he (O := C ++ others) hstreams
    (List.rel_append hc (heads_apart hg he hl.ofHeads fun _ _ => List.not_mem_nil)) (.of_eq hnew)
    hnodup (hkeeps.ready hm he.bpb fun _ _ hno => hno.elim), hkeeps⟩

theorem Mounted.freeCount_lt (hm : v.Mounted) {files others : List (List Nat)}
    (hl : v.Layout files others) {l : List Nat} (hsub : l ⊆ all files others) (hn : l.Nodup) :
    v.fs.freeCount + l.length < 4294967296 := by
  have hin := fun c hc => hl.inTable hm.geometry (hsub hc : c ∈ all files others)
  have := FatFileSystem.zeroEntries_add_le hn (fun c hc => (hin c hc).2) fun c hc => (hin c hc).1
  have := hm.freeCount
  have := hm.geometry.clusters
  omega

/-- The chain of a stream, with room for it in the count. -/
theorem Mounted.stream (hm : v.Mounted) {i : Nat} {f : FatStream}
    (hi : v.streams[i]? = some f) :
    ∃ l, f.ChainOf v.fs l ∧ f.Ready v.fs l ∧ v.fs.freeCount + l.length < 4294967296 := by
  obtain ⟨files, others, hl⟩ := hm.layout
  obtain ⟨F₁, F₂, A₁, l, A₂, hF, hA, -, -, hc, -⟩ := forall₂_split hl.ofStreams hi
  refine ⟨l, hc, hm.ready f (by simp [hF]) l hc, hm.freeCount_lt hl (fun c hcl => ?_) hc.nodup⟩
  simp [all, hA, hcl]

theorem Mounted.head (hm : v.Mounted) {i h : Nat} (hi : v.heads[i]? = some h) :
    ∃ l, v.fs.ChainFrom h l ∧ v.fs.freeCount + l.length < 4294967296 := by
  obtain ⟨files, others, hl⟩ := hm.layout
  obtain ⟨H₁, H₂, B₁, l, B₂, hH, hB, -, -, hc, -⟩ := forall₂_split hl.ofHeads hi
  refine ⟨l, hc, hm.freeCount_lt hl (fun c hcl => ?_) hc.chain.nodup⟩
  simp [all, hB, hcl]

/-- A stream with the chain `k` that at most remembers another place of it. -/
def Moved (v : Volume) (g : FatStream) (k : List Nat) : Prop :=
  ∃ f ∈ v.streams, f.ChainOf v.fs k ∧
    g = { f with lastPosition := g.lastPosition, lastClus := g.lastClus }

/-- Every call but `setSize` that meets its condition returns, keeps the volume in order and at most
    moves what a stream remembers. -/
theorem call_moves (hm : v.Mounted) {op : VolumeOp} (hop : ∀ i newSize, op ≠ .setSize i newSize)
    (hok : v.Meets op) : ∃ v', v.step op = some v' ∧ Moves v v' ∧ Keeps v v' (Moved v) := by
  have hg := hm.geometry
  have hself : Moves v v ∧ Keeps v v (Moved v) := ⟨.refl hm, fun g hg k hk => .inl ⟨hg, hk⟩⟩
  have hno : ∀ {v'}, Moves v v' ∧ Keeps v v' (fun _ _ => False) → Moves v v' ∧ Keeps v v' (Moved v) :=
    fun h => ⟨h.1, fun g hg k hk => .inl ((h.2 g hg k hk).resolve_right id)⟩
  cases op with
  | alloc n zero =>
    obtain ⟨files, others, hl⟩ := hm.layout
    obtain ⟨clus, s', halloc, hresult⟩ := FatFileSystem.allocCluster_spec hg
      (hm.freeCount_lt hl (List.nil_subset _) List.nodup_nil) hok
    refine ⟨_, by rw [step, halloc]; rfl, ?_⟩
    rcases hresult with ⟨hend, hrest⟩ | ⟨hend, l, ha⟩
    · simp only [hrest.bpb, hend, if_true]
      exact hno (moves_heads hm (C := []) (N := []) (hrest.edited (by simp)) .nil List.nodup_nil)
    · simp only [ha.bpb, hend, Bool.false_eq_true, if_false]
      exact hno (moves_heads hm (C := [l]) (N := [clus]) (by simpa using ha.edited)
        (.cons ha.chain .nil) (by simpa using ha.chain.chain.nodup))
  | free i =>
    rw [step]
    cases hi : v.heads[i]? with
    | none => exact ⟨v, rfl, hself⟩
    | some h =>
      obtain ⟨l, hc, hcount⟩ := hm.head hi
      obtain ⟨s', hfree, hf⟩ := FatFileSystem.freeCluster_spec hg hc
        (fun m hml => hm.reservedZero m (hc.isCluster hg hml)) hcount
      refine ⟨_, by simp only [hfree, Option.map_some]; rfl, ?_⟩
      exact hno (moves_free hm hi hc (hf.edited fun c hcl => hc.le hg hcl))
  | remove i =>
    rw [step]
    cases hi : v.streams[i]? with
    | none => exact ⟨v, rfl, hself⟩
    | some f =>
      obtain ⟨l, hc, -, hcount⟩ := hm.stream hi
      have hfreed : ∃ s', v.fs.freeCluster f.fstClus = some s' ∧
          FatFileSystem.Freed v.fs s' l := by
        rcases hc with ⟨h0, rfl⟩ | ⟨-, hc⟩
        · rw [h0]
          exact ⟨v.fs, rfl, rfl, rfl, by simp, rfl⟩
        · exact FatFileSystem.freeCluster_spec hg hc
            (fun m hml => hm.reservedZero m (hc.isCluster hg hml)) hcount
      obtain ⟨s', hfree, hf⟩ := hfreed
      refine ⟨_, by simp only [hfree, Option.map_some]; rfl, ?_⟩
      exact hno (moves_remove hm hi hc (hf.edited fun c hcl => (hc.isCluster hg hcl).2))
  | seek i position =>
    rw [step]
    cases hi : v.streams[i]? with
    | none => exact ⟨v, rfl, hself⟩
    | some f =>
      obtain ⟨l, hc, hr, -⟩ := hm.stream hi
      obtain ⟨-, hready, hsame⟩ := FatStream.getClusNum_spec (p := u32 position) hg hc hr
        (Nat.mod_lt position (by decide))
      obtain ⟨hmoves, hkeeps⟩ := moves_stream (t := v.fs) hm hi hc
        (FatStream.edited_refl hg hm.reservedZero hc) (by rw [hsame]; exact hc) hready
      refine ⟨_, rfl, hmoves, fun g hg' k hgk => (hkeeps g hg' k hgk).imp_right ?_⟩
      rintro ⟨rfl, rfl⟩
      exact ⟨f, List.mem_of_getElem? hi, hc, hsame⟩
  | setSize i newSize => exact absurd rfl (hop i newSize)

/-- Every call that meets its condition returns and keeps the volume in order. -/
theorem step_moves (hm : v.Mounted) {op : VolumeOp} (hok : v.Meets op) :
    ∃ v', v.step op = some v' ∧ Moves v v' := by
  have hg := hm.geometry
  cases op with
  | setSize i newSize =>
    rw [step]
    cases hi : v.streams[i]? with
    | none => exact ⟨v, rfl, .refl hm⟩
    | some f =>
      obtain ⟨l, hc, hr, hcount⟩ := hm.stream hi
      obtain ⟨err, s', f', hset, hend⟩ := FatStream.setSize_spec hg hm.reservedZero hcount hc hr
        (hok f hi l hc)
      refine ⟨_, by simp only [hset, Option.map_some]; rfl, ?_⟩
      have hself := FatStream.edited_refl hg hm.reservedZero hc
      rcases hend with ⟨-, -, rfl, rfl⟩ | ⟨-, -, rfl, hrest⟩ | ⟨-, -, l', hresized, -⟩
      · exact (moves_stream hm hi hc hself hc hr).1
      · refine (moves_stream hm hi hc (hrest.edited fun c hcl => ?_)
          (hc.congr hg hrest.bpb fun m _ hle => hrest.entries m hle)
          (hr.mono hrest.bpb fun _ _ hx => hx)).1
        exact ⟨(hc.isCluster hg hcl).2, hm.reservedZero c (hc.isCluster hg hcl)⟩
      · exact (moves_stream hm hi hc hresized.edited hresized.chain hresized.ready).1
  | _ =>
    obtain ⟨v', hstep, hmoves, -⟩ := call_moves hm (by rintro _ _ ⟨⟩) hok
    exact ⟨v', hstep, hmoves⟩

theorem run_moves {v₀ : Volume} (hm : v₀.Mounted) (hrun : (system v₀).RunWith Meets v) :
    Moves v₀ v := by
  refine hrun.invariant (Moves v₀) (fun s hs => ?_) fun s op s' hinv hok hstep => ?_
  · rw [show s = v₀ from hs]
    exact .refl hm
  · obtain ⟨t, ht, hmove⟩ := step_moves hinv.mounted hok
    have hst : some s' = some t := (show step s op = some s' from hstep).symm.trans ht
    cases hst
    refine ⟨hmove.mounted, hmove.bpb.trans hinv.bpb, fun c hc => ?_, fun c hc => ?_⟩
    · exact (hmove.reserved c hc).trans (hinv.reserved c hc)
    · exact hinv.lost c (hmove.lost c hc)

end Volume

/-- In a run from a mounted volume whose calls meet their conditions, `freeCount` is the number of
    zero entries, the chains are in the table and apart, no allocated cluster is outside every
    chain but those that were so at the start, the two reserved entries are as they were, and every
    further such call returns. -/
theorem cluster_accounting {v₀ v : Volume} (hm : v₀.Mounted)
    (hrun : (Volume.system v₀).RunWith Volume.Meets v) :
    v.fs.freeCount = v.fs.zeroEntries ∧ (∃ files others, v.Layout files others) ∧
      (∀ c, v.Lost c → v₀.Lost c) ∧ (∀ c < 2, v.fs.clusEntryVal c = v₀.fs.clusEntryVal c) ∧
      ∀ op, v.Meets op → (v.step op).isSome = true := by
  have hmoves := Volume.run_moves hm hrun
  refine ⟨hmoves.mounted.freeCount, hmoves.mounted.layout, hmoves.lost, hmoves.reserved, ?_⟩
  intro op hok
  obtain ⟨v', hstep, -⟩ := Volume.step_moves hmoves.mounted hok
  rw [hstep]
  rfl

/-- A FAT12 layout with three clusters of 512 bytes. -/
def tinyBpb : Bpb where
  rsvdSecCnt := 1
  numFATs := 1
  secPerClus := 1
  bytsPerSec := 512
  bytsPerClus := 512
  fatSz := 1
  firstDataSector := 2
  countOfClusters := 3

theorem tinyBpb_wellFormed : tinyBpb.WellFormed where
  sector := by decide
  cluster := ⟨9, by decide, rfl⟩
  fats := by decide
  table := by decide
  addressed := by decide
  someCluster := by decide
  clusters := by decide

/-- A volume of that layout with one stream and the table given. -/
def tinyVolume (table : List UInt8) (freeCount : Nat) (f : FatStream) : Volume where
  fs := {
    toBpb := tinyBpb
    nxtFree := 2
    freeCount := freeCount
    disk := fun i => table.getD (i - 512) 0 }
  streams := [f]
  heads := []

/-- The tiny volume is in order when its entries are small, its stream starts its chain, and the
    count is right. -/
theorem tinyVolume_mounted {table : List UInt8} {n : Nat} {f : FatStream} {l : List Nat}
    (hres : ∀ c < 3, (tinyVolume table n f).fs.clusEntryVal (c + 2) < 0x10000000)
    (hc : f.ChainOf (tinyVolume table n f).fs l) (hr : f.Ready (tinyVolume table n f).fs l)
    (hn : n = (tinyVolume table n f).fs.zeroEntries) : (tinyVolume table n f).Mounted where
  geometry := tinyBpb_wellFormed
  reservedZero := by
    rintro c ⟨hlo, hhi⟩
    have hhi : c ≤ 4 := hhi
    have := hres (c - 2) (by omega)
    rwa [show c - 2 + 2 = c by omega] at this
  layout := ⟨[l], [], .cons hc .nil, .nil, by simpa using hc.nodup⟩
  ready g hg k hk := by
    obtain rfl : g = f := by simpa [tinyVolume] using hg
    rwa [hk.unique hc]
  freeCount := hn

/-- A file of one byte at cluster 2. -/
def oneByte : FatStream where
  isDirectory := false
  isRoot := false
  fstClus := 2
  size := 1
  fcbFstClusLO := 2
  fcbFstClusHI := 0
  fcbFileSize := 1
  lastPosition := 0
  lastClus := 2

/-- The file of one byte with a chain of the two clusters 2 and 3. -/
def overlong : Volume :=
  tinyVolume [0xf8, 0xff, 0xff, 0x03, 0xf0, 0xff, 0x00, 0x00] 1 oneByte

theorem overlong_chain : oneByte.ChainOf overlong.fs [2, 3] := by
  exact .inr ⟨by decide, ⟨by decide, 0xfff, ⟨rfl, by decide,
    (by decide : overlong.fs.clusEntryVal 3 = 0xfff)⟩, by decide⟩, by decide, by decide⟩

theorem overlong_mounted : overlong.Mounted :=
  tinyVolume_mounted (by decide) overlong_chain
    ⟨by decide, .inr (.inr ⟨0, rfl, rfl⟩)⟩ (by decide)

/-- A run may start by truncating the file. -/
theorem cluster_accounting_truncated :
    ∃ v, (Volume.system overlong).RunWith Volume.Meets v ∧ v.fs.freeCount = 3 ∧
      v.fs.freeCount = v.fs.zeroEntries ∧ (∀ c, v.Lost c → overlong.Lost c) := by
  have hmeets : overlong.Meets (.setSize 0 0) := by
    intro f hf l hl _
    cases Option.some.inj hf
    obtain rfl := hl.unique overlong_chain
    exact ⟨fun hlt => absurd hlt (by decide), fun _ => by decide⟩
  obtain ⟨v, hstep, -⟩ := Volume.step_moves overlong_mounted hmeets
  have hrun : (Volume.system overlong).RunWith Volume.Meets v := (.next (.start rfl) hmeets hstep)
  have hcount : (overlong.step (.setSize 0 0)).map (fun v => v.fs.freeCount) = some 3 := by
    decide +kernel
  rw [hstep] at hcount
  have hacc := cluster_accounting overlong_mounted hrun
  exact ⟨v, hrun, Option.some.inj hcount, hacc.1, hacc.2.2.1⟩

/-- The state after the file of one byte was given one byte more than a cluster holds. -/
def overlongGrown : Volume :=
  ((overlong.step (.setSize 0 513)).getD overlong)

theorem overlongGrown_chain :
    ∃ f, overlongGrown.streams = [f] ∧ f.ChainOf overlongGrown.fs [2, 4] := by
  refine ⟨_, rfl, .inr ⟨by decide +kernel, ⟨?_, 0xfff, ⟨by decide +kernel, by decide +kernel,
    (by decide +kernel : overlongGrown.fs.clusEntryVal 4 = 0xfff)⟩, by decide +kernel⟩,
    by decide, by decide⟩⟩
  decide +kernel

/-- The second cluster of a chain that is longer than its size is lost when the stream grows. -/
theorem cluster_lost_by_setSize :
    overlong.Mounted ∧ (overlong.step (.setSize 0 513)).isSome = true ∧
      overlongGrown.Lost 3 ∧ ¬ overlong.Lost 3 := by
  refine ⟨overlong_mounted, by decide +kernel, ⟨⟨by decide, by decide +kernel⟩,
    by decide +kernel, ?_⟩, ?_⟩
  · obtain ⟨f, hf, hc⟩ := overlongGrown_chain
    rintro (⟨g, hg, l, hgl, h3⟩ | ⟨h, hh, -⟩)
    · rw [hf, List.mem_singleton] at hg
      subst hg
      rw [hgl.unique hc] at h3
      exact absurd h3 (by decide)
    · rw [show overlongGrown.heads = [] by decide +kernel] at hh
      cases hh
  · exact fun hlost => hlost.2.2 (.inl ⟨oneByte, .head _, [2, 3], overlong_chain, by decide⟩)

end EsOs.Fat
