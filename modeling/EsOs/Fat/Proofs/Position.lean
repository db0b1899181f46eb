import EsOs.Fat.Proofs.FileSize

/-!
# The position that a stream remembers

`getClusNum` starts from the cluster that it found last. On a sound volume that is the cluster at
the remembered position after any run, so that it finds the cluster of a walk from the first one.
-/

namespace EsOs.Fat

open EsOs.Lib

/-! ## Walks -/

namespace FatFileSystem

variable {s : FatFileSystem} {clus : Nat} {l : List Nat}

theorem walk_end (h : s.isEof clus = true) (n : Nat) : s.walk clus n = clus := by
  induction n with
  | zero => rfl
  | succ n ih =>
    simp only [walk, ih]
    rw [if_pos h]

theorem walk_add (s : FatFileSystem) (clus m n : Nat) :
    s.walk clus (m + n) = s.walk (s.walk clus m) n := by
  induction n with
  | zero => rfl
  | succ n ih =>
    rw [← Nat.add_assoc, walk, ih, walk]

/-- The loop of `getClusNum` is a walk. -/
theorem followLoop_eq_walk (h : ¬ s.isEof clus = true) (n : Nat) :
    FatStream.followLoop s n clus = s.walk clus n := by
  induction n generalizing clus with
  | zero => rfl
  | succ n ih =>
    have hone : s.walk clus 1 = s.clusEntryVal clus := if_neg h
    rw [FatStream.followLoop, Nat.add_comm, walk_add, hone]
    split
    · rename_i hend
      rw [walk_end hend]
    · rename_i hgo
      exact ih hgo

/-- The places of a chain are those that walks from its head come to. -/
theorem walk_chain (hc : Chain s.clusEntryVal (fun c => s.isEof c = true) clus l) {i c : Nat}
    (hi : l[i]? = some c) : s.walk clus i = c := by
  have hhead : l[0]? = some clus := by
    cases l with
    | nil => cases hi
    | cons a l => rw [← hc.head.1]; rfl
  have hgo : ¬ s.isEof clus = true := hc.nodes _ (List.mem_of_getElem? hhead)
  have hfollow := (FatStream.followLoop_from hc hhead i).1 c (by rwa [Nat.zero_add])
  rw [← followLoop_eq_walk hgo, hfollow]

end FatFileSystem

namespace FatStream

variable {f : FatStream} {s s' : FatFileSystem} {l : List Nat}

/-- A stream that remembers its place finds the cluster that a walk from its first one finds. -/
theorem getClusNum_eq_walk (h : s.WellFormed) (hc : f.ChainOf s l) (hr : f.Ready s l) {p : Nat}
    (hp : p < 4294967296) : (f.getClusNum s p).1 = f.walk s (p / s.bytsPerClus) := by
  have hpos := h.clus_pos
  have hile := Nat.div_le_self p s.bytsPerClus
  unfold getClusNum walk
  rw [Bpb.clusterMask_eq h hp]
  generalize p / s.bytsPerClus = i at hile ⊢
  rcases hc with ⟨h0, -⟩ | ⟨h0, hc⟩
  · rw [if_pos h0, if_pos h0]
    exact h0
  rw [if_neg h0, if_neg h0]
  simp only
  split
  · have hgo : ¬ s.isEof f.fstClus = true := hc.chain.nodes _ hc.head_mem
    rw [Nat.mul_div_cancel _ hpos, u32_of_lt (by omega), FatFileSystem.followLoop_eq_walk hgo]
  · rename_i hno
    obtain ⟨hle, hne0, hgo⟩ : ¬ i * s.bytsPerClus < f.lastPosition ∧ f.lastClus ≠ 0 ∧
        ¬ s.isEof f.lastClus = true :=
      ⟨fun hx => hno (.inl hx), fun hx => hno (.inr (.inl hx)), fun hx => hno (.inr (.inr hx))⟩
    obtain ⟨j, hj, hlast⟩ := (hr.last.resolve_left hne0).resolve_left hgo
    rw [hlast] at hle ⊢
    have hji : j ≤ i := Nat.le_of_mul_le_mul_right (Nat.not_lt.mp hle) hpos
    rw [← Nat.sub_mul, Nat.mul_div_cancel _ hpos, u32_of_lt (by omega),
      FatFileSystem.followLoop_eq_walk hgo, ← FatFileSystem.walk_chain hc.chain hj,
      ← FatFileSystem.walk_add, Nat.add_sub_cancel' hji]

/-! ## One `setSize` -/

/-- The clusters to add are enough, also where the 32-bit count of the old size wraps. -/
theorem clustersFor_le_growBy (h : s.WellFormed) {new : Nat} (hnew : new < 4294967296)
    (hlt : f.size < new) :
    s.clustersFor new ≤ s.clustersFor f.size + f.growBy s.toBpb new := by
  have hpos := h.clus_pos
  by_cases hold : f.size + s.bytsPerClus ≤ 4294967296
  · rw [growBy_eq h hold hnew hlt]
    omega
  · have hclus := h.clus_lt
    have hle : s.clustersFor new ≤ new := by
      rw [Bpb.clustersFor_eq h (by omega)]
      have := Nat.div_le_self (new - 1) s.bytsPerClus
      omega
    have hwrap : s.clustersOf f.size = 0 := by
      have hsum : u32 (f.size + s.bytsPerClus) = f.size + s.bytsPerClus - 4294967296 := by
        unfold u32
        omega
      unfold Bpb.clustersOf
      rw [hsum, sub32_of_le (by omega)]
      exact Nat.div_eq_of_lt (by omega)
    have hquot : u32 ((new + s.bytsPerClus - 1) / s.bytsPerClus) = s.clustersFor new :=
      u32_of_lt (Nat.lt_of_le_of_lt hle hnew)
    unfold growBy
    rw [hwrap, hquot, sub32_of_le (Nat.zero_le _)]
    omega

/-- What a `setSize` leaves: a stream with the chain `l'`, and clusters `q` of its old chain that
    are a chain of their own. -/
structure Left (f : FatStream) (s : FatFileSystem) (l : List Nat) (f' : FatStream)
    (s' : FatFileSystem) (l' q : List Nat) : Prop where
  chain : f'.ChainOf s' l'
  ready : f'.Ready s' l'
  sized : f'.Sized s.toBpb l'
  rest : ∀ a t, q = a :: t → s'.ChainFrom a q
  nodup : (l' ++ q).Nodup
  edited : FatFileSystem.Edited s s' l (l' ++ q)

/-- A `setSize` that cuts nothing off. -/
theorem Left.of_edited (hc : f.ChainOf s' l) {k : List Nat} (hr : f.Ready s' l)
    (hs : f.Sized s.toBpb l) {g : FatStream} (he : FatFileSystem.Edited s s' k l) :
    Left g s k f s' l [] := by
  refine ⟨hc, hr, hs, nofun, ?_, ?_⟩
  · rw [List.append_nil]
    exact hc.nodup
  · rwa [List.append_nil]

theorem setSize_eq_grow {newSize : Int} (hacc : f.Accepts s.toBpb newSize)
    (hlt : f.size < f.roundSize s.toBpb newSize.toNat) :
    f.setSize s newSize = f.grow s (f.roundSize s.toBpb newSize.toNat) := by
  obtain ⟨hlow, hhigh, hrefused⟩ := hacc
  unfold setSize
  rw [if_neg (by omega)]
  simp only [hrefused, Bool.false_eq_true, if_false]
  rw [if_neg (by omega), if_pos hlt]

theorem roundSize_lt {newSize : Nat} (hnew : newSize ≤ 0xffffffff) :
    f.roundSize s.toBpb newSize < 4294967296 := by
  unfold roundSize Bpb.clusterMask
  split
  · exact Nat.lt_of_le_of_lt Nat.and_le_right (by omega)
  · omega

/-- A stream of which a size is accepted is not the root directory outside of the clusters. -/
theorem Sized.of_accepts (hs : f.Sized s.toBpb l) {newSize : Int}
    (hacc : f.Accepts s.toBpb newSize) :
    s.clustersFor f.size ≤ l.length ∧ (f.size = 0 → l = []) := by
  refine hs.resolve_left fun ⟨hdir, hroot, hfat⟩ => ?_
  have hrefused := hacc.2.2
  unfold refused at hrefused
  rw [hdir, hroot, hfat] at hrefused
  simp at hrefused

/-- Every `setSize` of a stream that fits its chain returns and leaves such a stream. -/
theorem setSize_left (h : s.WellFormed) (hres : s.ReservedZero)
    (hcount : s.freeCount + l.length < 4294967296) (hc : f.ChainOf s l) (hr : f.Ready s l)
    (hs : f.Sized s.toBpb l) (ha : s.Allocatable f.isDirectory) (newSize : Int) :
    ∃ err s' f' l' q, f.setSize s newSize = some (err, s', f') ∧ Left f s l f' s' l' q := by
  have hself := edited_refl h hres hc
  have hfailed : ∀ {s'}, FatFileSystem.Restored s s' → Left f s l f s' l [] := by
    intro s' hrest
    refine .of_edited (hc.congr h hrest.bpb fun m _ hle => hrest.entries m hle)
      (hr.mono hrest.bpb fun _ _ hx => hx) hs (hrest.edited fun c hcl => ?_)
    exact ⟨(hc.isCluster h hcl).2, hres c (hc.isCluster h hcl)⟩
  by_cases hgrow : f.Accepts s.toBpb newSize ∧ f.size < f.roundSize s.toBpb newSize.toNat
  · obtain ⟨hacc, hlt⟩ := hgrow
    obtain ⟨hlen, hempty⟩ := hs.of_accepts hacc
    have hnew : f.roundSize s.toBpb newSize.toNat < 4294967296 :=
      roundSize_lt (by have := hacc.2.1; omega)
    rw [setSize_eq_grow hacc hlt]
    generalize f.roundSize s.toBpb newSize.toNat = new at hlt hnew
    have henough := clustersFor_le_growBy h hnew hlt
    obtain ⟨p, q, rfl, hp⟩ : ∃ p q, l = p ++ q ∧ p.length = s.clustersFor f.size :=
      ⟨_, _, (List.take_append_drop (s.clustersFor f.size) l).symm, by
        rw [List.length_take, Nat.min_eq_left hlen]⟩
    obtain ⟨err, s', f', hset, hend⟩ := grow_cut h hres (by omega) hc hr hnew fun _ _ =>
      ⟨ha, hp, fun h0 => (List.append_eq_nil_iff.mp (hempty h0)).2⟩
    rcases hend with ⟨-, rfl, hrest⟩ | ⟨-, h0, hsame⟩ | ⟨-, -, k, hk, hgrown⟩
    · exact ⟨err, s', f', _, [], hset, hfailed hrest⟩
    · refine ⟨err, s', f', _, [], hset, .of_edited hsame.chain hsame.ready (.inr ?_) hsame.edited⟩
      rw [hsame.size]
      exact ⟨by omega, fun hx => by omega⟩
    · refine ⟨err, s', f', p ++ k, q, hset, hgrown.chain, hgrown.ready, .inr ?_, hgrown.rest, ?_,
        hgrown.edited⟩
      · rw [hgrown.size, List.length_append]
        exact ⟨by omega, fun hx => by omega⟩
      · have hpk := hgrown.chain.nodup
        have hpq := hc.nodup
        have hapart := hgrown.apart
        simp only [List.nodup_append, List.mem_append] at hpk hpq hapart ⊢
        refine ⟨hpk, hpq.2.1, fun a hx b hb hab => ?_⟩
        rcases hx with hx | hx
        · exact hpq.2.2 a hx b hb hab
        · exact hapart b (.inr hb) (hab ▸ hx)
  · have hok : f.Accepts s.toBpb newSize →
        f.Resizable s l (f.roundSize s.toBpb newSize.toNat) := fun hacc =>
      ⟨fun hlt => absurd ⟨hacc, hlt⟩ hgrow, fun hlt => Nat.le_trans
        (Bpb.clustersFor_mono _ (Nat.le_of_lt hlt)) (hs.of_accepts hacc).1⟩
    obtain ⟨err, s', f', hset, hend⟩ := setSize_spec h hres hcount hc hr hok
    refine ⟨err, s', f', ?_⟩
    rcases hend with ⟨-, -, rfl, rfl⟩ | ⟨-, -, rfl, hrest⟩ | ⟨-, hacc, l', hresized, hshape⟩
    · exact ⟨l, [], hset, .of_edited hc hr hs hself⟩
    · exact ⟨l, [], hset, hfailed hrest⟩
    · refine ⟨l', [], hset, .of_edited hresized.chain hresized.ready (.inr ?_) hresized.edited⟩
      obtain ⟨hlen, hempty⟩ := hs.of_accepts hacc
      rw [hresized.size]
      rcases hshape with ⟨heq, rfl⟩ | ⟨hlt, -⟩ | ⟨hlt, rfl⟩
      · exact heq ▸ ⟨hlen, hempty⟩
      · exact absurd ⟨hacc, hlt⟩ hgrow
      · have hmono := Bpb.clustersFor_mono s.toBpb (Nat.le_of_lt hlt)
        rw [List.length_take]
        refine ⟨by omega, fun h0 => ?_⟩
        rw [h0, Bpb.clustersFor_zero h, List.take_zero]

end FatStream

/-! ## Runs -/

namespace Volume

variable {v v' : Volume} {G : List Nat}

/-- The volume with further chains that no entry refers to. -/
def withHeads (v : Volume) (G : List Nat) : Volume :=
  { v with heads := v.heads ++ G }

theorem step_withHeads (v : Volume) (G : List Nat) {op : VolumeOp}
    (hop : ∀ i, op = .free i → i < v.heads.length) :
    (v.withHeads G).step op = (v.step op).map fun v' => v'.withHeads G := by
  cases op with
  | alloc n zero =>
    unfold step withHeads
    simp only [Option.map_map]
    congr 1
    funext ⟨clus, s⟩
    simp only [Function.comp_apply]
    split <;> rfl
  | free i =>
    have hi := hop i rfl
    unfold step withHeads
    simp only [List.getElem?_append_left hi, List.getElem?_eq_getElem hi, Option.map_map,
      List.eraseIdx_append_of_lt_length hi]
    rfl
  | remove i =>
    unfold step withHeads
    simp only
    cases v.streams[i]? with
    | none => rfl
    | some f => simp only [Option.map_map]; rfl
  | seek i position =>
    unfold step withHeads
    simp only
    cases v.streams[i]? <;> rfl
  | setSize i newSize =>
    unfold step withHeads
    simp only
    cases v.streams[i]? with
    | none => rfl
    | some f => simp only [Option.map_map]; rfl

theorem Sound.allocatable (h : v.Sound) (zero : Bool) : v.fs.Allocatable zero :=
  ⟨fun n _ hn => h.reserved n hn, fun _ c hc _ => h.zeroed c hc⟩

theorem Sound.of_moves (h : v.Sound) (hm : Moves v v')
    (hs : ∀ f ∈ v'.streams, ∀ l, f.ChainOf v'.fs l → f.Sized v'.fs.toBpb l) : v'.Sound where
  mounted := hm.mounted
  sized := hs
  reserved n hn := hm.reserved n hn ▸ h.reserved n hn
  zeroed := by
    rw [hm.bpb]
    exact h.zeroed

/-- Every call returns and leaves a sound volume, together with the clusters that it cut off. -/
theorem Sound.step (h : v.Sound) (op : VolumeOp) :
    ∃ v' N, v.step op = some v' ∧ (v'.withHeads N).Sound := by
  have hm := h.mounted
  have hg := hm.geometry
  have hcall : (∀ i newSize, op ≠ .setSize i newSize) → v.Meets op →
      ∃ v' N, v.step op = some v' ∧ (v'.withHeads N).Sound := by
    intro hop hok
    obtain ⟨v', hstep, hmoves, hkeeps⟩ := call_moves hm hop hok
    refine ⟨v', [], hstep, ?_⟩
    rw [withHeads, List.append_nil]
    refine h.of_moves hmoves fun g hg' k hk => ?_
    rw [hmoves.bpb]
    rcases hkeeps g hg' k hk with ⟨hold, hchain⟩ | ⟨f, hold, hchain, hsame⟩
    · exact h.sized g hold k hchain
    · rw [hsame]
      exact h.sized f hold k hchain
  cases op with
  | alloc n zero => exact hcall (by rintro _ _ ⟨⟩) fun _ _ => h.allocatable zero
  | setSize i newSize =>
    rw [Volume.step]
    cases hi : v.streams[i]? with
    | none =>
      refine ⟨v, [], rfl, ?_⟩
      rwa [withHeads, List.append_nil]
    | some f =>
      obtain ⟨l, hc, hr, hcount⟩ := hm.stream hi
      obtain ⟨err, s', f', l', q, hset, hleft⟩ := FatStream.setSize_left hg hm.reservedZero hcount
        hc hr (h.sized f (List.mem_of_getElem? hi) l hc) (h.allocatable _) newSize
      -- what was cut off becomes one more chain without an entry
      obtain ⟨N, C, rfl, hN⟩ : ∃ N C, q = List.flatten C ∧
          List.Forall₂ (fun h l => s'.ChainFrom h l) N C := by
        cases q with
        | nil => exact ⟨[], [], rfl, .nil⟩
        | cons a t => exact ⟨[a], [a :: t], by simp, .cons (hleft.rest a t rfl) .nil⟩
      obtain ⟨hmoves, hkeeps⟩ := moves_cut hm hi hc hleft.edited hleft.chain hleft.ready hN
        hleft.nodup
      refine ⟨{ v with fs := s', streams := v.streams.set i f' }, N,
        by simp only [hset, Option.map_some], h.of_moves hmoves ?_⟩
      intro g hg' k hk
      rcases hkeeps g hg' k hk with ⟨hold, hchain⟩ | ⟨rfl, rfl⟩
      · exact hmoves.bpb ▸ h.sized g hold k hchain
      · exact hmoves.bpb ▸ hleft.sized
  | _ => exact hcall (by rintro _ _ ⟨⟩) trivial

/-- The same beside clusters that were cut off before. -/
theorem Sound.step_withHeads (h : (v.withHeads G).Sound) (op : VolumeOp) :
    ∃ v' G', v.step op = some v' ∧ (v'.withHeads G').Sound := by
  by_cases hop : ∀ i, op = .free i → i < v.heads.length
  · obtain ⟨w, N, hstep, hs⟩ := h.step op
    rw [Volume.step_withHeads v G hop, Option.map_eq_some_iff] at hstep
    obtain ⟨v', hv, rfl⟩ := hstep
    refine ⟨v', G ++ N, hv, ?_⟩
    rwa [withHeads, withHeads, List.append_assoc] at hs
  · obtain ⟨i, hi⟩ := Classical.not_forall.mp hop
    obtain ⟨rfl, hout⟩ := Classical.not_imp.mp hi
    refine ⟨v, G, ?_, h⟩
    rw [Volume.step, List.getElem?_eq_none (Nat.not_lt.mp hout)]

theorem run_sound {v₀ : Volume} (h : v₀.Sound) (hrun : (system v₀).Reachable v) :
    ∃ G, (v.withHeads G).Sound := by
  refine hrun.invariant (fun v => ∃ G, (v.withHeads G).Sound) (fun s hs => ⟨[], ?_⟩) ?_
  · rw [show s = v₀ from hs, withHeads, List.append_nil]
    exact h
  · rintro s op s' ⟨G, hG⟩ - hstep
    obtain ⟨t, G', ht, hs⟩ := hG.step_withHeads op
    have hst : some s' = some t := (show s.step op = some s' from hstep).symm.trans ht
    cases hst
    exact ⟨G', hs⟩

end Volume

/-- In every run from a sound volume, `getClusNum` of any position finds for every stream the
    cluster of a walk from its first one, the remembered cluster is unset, an end mark or the one at
    the remembered position of the chain, and every further call returns. -/
theorem getClusNum_walks {v₀ v : Volume} (h : v₀.Sound) (hrun : (Volume.system v₀).Reachable v)
    {f : FatStream} (hf : f ∈ v.streams) :
    (∀ position < 4294967296,
      (f.getClusNum v.fs position).1 = f.walk v.fs (position / v.fs.bytsPerClus)) ∧
      (f.lastClus = 0 ∨ v.fs.isEof f.lastClus = true ∨ f.OnChain v.fs) ∧
      ∀ op, (v.step op).isSome = true := by
  obtain ⟨G, hs⟩ := Volume.run_sound h hrun
  obtain ⟨i, hi⟩ := List.mem_iff_getElem?.mp hf
  obtain ⟨l, hc, hr, -⟩ := hs.mounted.stream (show (v.withHeads G).streams[i]? = some f from hi)
  refine ⟨fun p hp => FatStream.getClusNum_eq_walk hs.mounted.geometry hc hr hp, ?_, fun op => ?_⟩
  · exact hr.last.imp_right fun hx => hx.imp_right fun ⟨j, hj, hp⟩ => ⟨l, j, hc, hj, hp⟩
  · obtain ⟨v', -, hstep, -⟩ := hs.step_withHeads op
    rw [hstep]
    rfl

theorem fitting_sound : fitting.Sound where
  mounted := fitting_mounted
  sized f hf l hl := by
    obtain rfl : f = oneByte := List.mem_singleton.mp hf
    rw [hl.unique fitting_chain]
    exact .inr (by decide)
  reserved := by decide
  zeroed c hc := by
    have hlow : 2 ≤ c := hc.1
    have hhigh : c ≤ 4 := hc.2
    have hall : ∀ c < 5, 2 ≤ c → 1024 ≤ u32 (tinyBpb.firstSectorOfCluster c * 512) := by decide
    exact .inr (hall c (by omega) hlow)

/-- The file of one byte after a read beyond its end. -/
def readBeyond : FatStream :=
  { oneByte with lastPosition := 512, lastClus := 0xfff }

theorem fitting_seek :
    (Volume.system fitting).Reachable { fitting with streams := [readBeyond] } := by
  have hstep : fitting.step (.seek 0 512) = some { fitting with streams := [readBeyond] } := rfl
  exact .next (.start rfl) trivial hstep

theorem getClusNum_walks_beyond :
    (readBeyond.getClusNum fitting.fs 0).1 = readBeyond.walk fitting.fs 0 :=
  (getClusNum_walks fitting_sound fitting_seek (.head _)).1 0 (by decide)

/-- After a read beyond its end a stream remembers an end mark, which is not on its chain. -/
theorem remembered_end_mark :
    fitting.Sound ∧ ∃ v, (Volume.system fitting).Reachable v ∧
      ∃ f ∈ v.streams, f.lastClus ≠ 0 ∧ ¬ f.OnChain v.fs := by
  refine ⟨fitting_sound, _, fitting_seek, readBeyond, .head _, by decide, ?_⟩
  rintro ⟨l, i, hc, hi, -⟩
  have hl : l = [2] := hc.unique (show readBeyond.ChainOf fitting.fs [2] from fitting_chain)
  have hmem := List.mem_of_getElem? hi
  rw [hl] at hmem
  exact absurd hmem (by decide)

end EsOs.Fat
