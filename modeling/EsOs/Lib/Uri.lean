import Mathlib.Data.List.Basic
import Mathlib.Data.List.TakeWhile

/-!
# URI references

The generic syntax of RFC 3986 over texts of character numbers: the components of a reference by the
expression of appendix B, the resolution of a reference against a base (section 5.2.2), the removal
of dot segments (section 5.2.4) and the recomposition (section 5.3). A text without dot segments is
left as it is by the removal, and the removal leaves none.
-/

namespace EsOs.Uri

abbrev Text := List Nat

def slash : Nat := '/'.toNat
def dot : Nat := '.'.toNat
def colon : Nat := ':'.toNat
def questionMark : Nat := '?'.toNat
def numberSign : Nat := '#'.toNat

/-! ## Components -/

structure Reference where
  scheme : Option Text
  authority : Option Text
  path : Text
  query : Option Text
  fragment : Option Text
deriving DecidableEq

/-- `[^:/?#]`. -/
def isSchemeText (c : Nat) : Bool :=
  c ≠ colon && c ≠ slash && c ≠ questionMark && c ≠ numberSign

/-- `[^/?#]`. -/
def isAuthorityText (c : Nat) : Bool :=
  c ≠ slash && c ≠ questionMark && c ≠ numberSign

/-- `[^?#]`. -/
def isPathText (c : Nat) : Bool :=
  c ≠ questionMark && c ≠ numberSign

/-- `[^#]`. -/
def isQueryText (c : Nat) : Bool :=
  c ≠ numberSign

/-- `(([^:/?#]+):)?`, and what follows. -/
def splitScheme (s : Text) : Option Text × Text :=
  match s.dropWhile isSchemeText with
  | c :: rest =>
    if c = colon ∧ s.takeWhile isSchemeText ≠ [] then (some (s.takeWhile isSchemeText), rest)
    else (none, s)
  | [] => (none, s)

/-- `(//([^/?#]*))?`, and what follows. -/
def splitAuthority : Text → Option Text × Text
  | c :: d :: rest =>
    if c = slash ∧ d = slash then
      (some (rest.takeWhile isAuthorityText), rest.dropWhile isAuthorityText)
    else (none, c :: d :: rest)
  | s => (none, s)

/-- `(\?([^#]*))?`, and what follows. -/
def splitQuery : Text → Option Text × Text
  | c :: rest =>
    if c = questionMark then (some (rest.takeWhile isQueryText), rest.dropWhile isQueryText)
    else (none, c :: rest)
  | [] => (none, [])

/-- `(#(.*))?`. -/
def splitFragment : Text → Option Text
  | c :: rest => if c = numberSign then some rest else none
  | [] => none

/-- The components of a text (appendix B). -/
def split (s : Text) : Reference :=
  let scheme := splitScheme s
  let authority := splitAuthority scheme.2
  let query := splitQuery (authority.2.dropWhile isPathText)
  ⟨scheme.1, authority.1, authority.2.takeWhile isPathText, query.1, splitFragment query.2⟩

/-- What a component is written with: its delimiter and then itself. -/
def withDelimiter (c : Nat) (component : Option Text) : Text :=
  (component.map (c :: ·)).getD []

/-- The text of a reference (section 5.3). -/
def Reference.recompose (r : Reference) : Text :=
  (r.scheme.map (· ++ [colon])).getD [] ++ (r.authority.map ([slash, slash] ++ ·)).getD [] ++
    r.path ++ withDelimiter questionMark r.query ++ withDelimiter numberSign r.fragment

/-! ## Dot segments -/

/-- The output without its last segment and the slash before it. -/
def dropLastSegment (output : Text) : Text :=
  ((output.reverse.dropWhile fun c => c ≠ slash).drop 1).reverse

/-- The first segment of the input, with the slash before it if there is one. -/
def firstSegment : Text → Text
  | c :: rest =>
    if c = slash then slash :: rest.takeWhile (fun c => c ≠ slash)
    else (c :: rest).takeWhile fun c => c ≠ slash
  | [] => []

/-- What step 2 of the algorithm makes of the input and the output. -/
def dotStep (input output : Text) : Text × Text :=
  -- A
  if input.take 3 = [dot, dot, slash] then (input.drop 3, output)
  else if input.take 2 = [dot, slash] then (input.drop 2, output)
  -- B
  else if input.take 3 = [slash, dot, slash] then (slash :: input.drop 3, output)
  else if input = [slash, dot] then ([slash], output)
  -- C
  else if input.take 4 = [slash, dot, dot, slash] then
    (slash :: input.drop 4, dropLastSegment output)
  else if input = [slash, dot, dot] then ([slash], dropLastSegment output)
  -- D
  else if input = [dot] ∨ input = [dot, dot] then ([], output)
  -- E
  else (input.drop (firstSegment input).length, output ++ firstSegment input)

/-- The loop of the algorithm. Every step makes the input shorter. -/
def removeDotLoop : Nat → Text → Text → Text
  | 0, _, output => output
  | turns + 1, input, output =>
    if input = [] then output
    else removeDotLoop turns (dotStep input output).1 (dotStep input output).2

/-- `remove_dot_segments` (section 5.2.4). -/
def removeDotSegments (path : Text) : Text :=
  removeDotLoop path.length path []

/-! ## Resolution -/

/-- The path up to its last slash. -/
def directory (path : Text) : Text :=
  (path.reverse.dropWhile fun c => c ≠ slash).reverse

/-- `merge` (section 5.2.3). -/
def merge (base : Reference) (path : Text) : Text :=
  if base.authority.isSome ∧ base.path = [] then slash :: path
  else directory base.path ++ path

/-- The target of a reference against a base (section 5.2.2). -/
def transform (base r : Reference) : Reference :=
  if r.scheme.isSome then { r with path := removeDotSegments r.path }
  else if r.authority.isSome then
    { r with scheme := base.scheme, path := removeDotSegments r.path }
  else if r.path = [] then
    { base with
      query := if r.query.isSome then r.query else base.query
      fragment := r.fragment }
  else
    { scheme := base.scheme
      authority := base.authority
      path := removeDotSegments
        (if r.path.head? = some slash then r.path else merge base r.path)
      query := r.query
      fragment := r.fragment }

/-! ## What the removal of dot segments leaves -/

/-- The path has no segment `.` and no segment `..`. -/
def NoDots (path : Text) : Prop :=
  [dot] ∉ path.splitOn slash ∧ [dot, dot] ∉ path.splitOn slash

/-- What follows a segment: nothing, or the slash before the next one. -/
def Follows (rest : Text) : Prop :=
  rest = [] ∨ ∃ next, rest = slash :: next

theorem noDots_nil : NoDots [] := by
  simp [NoDots]

theorem follows_dropWhile (s : Text) : Follows (s.dropWhile fun c => c ≠ slash) := by
  cases h : s.dropWhile fun c => c ≠ slash with
  | nil => exact .inl rfl
  | cons c next =>
    have hhead := List.head_dropWhile_not (fun c => decide (c ≠ slash)) (l := s) (by rw [h]; exact nofun)
    simp only [h, List.head_cons, decide_eq_false_iff_not, Decidable.not_not] at hhead
    exact .inr ⟨next, by rw [hhead]⟩

theorem not_mem_takeWhile (s : Text) : slash ∉ s.takeWhile fun c => c ≠ slash := by
  intro h
  have := List.mem_takeWhile_imp h
  simp at this

/-- A text is a segment and what follows it, perhaps with a slash before the segment. -/
theorem segment_cases {input : Text} (h : input ≠ []) :
    ∃ w rest, slash ∉ w ∧ Follows rest ∧
      (input = slash :: (w ++ rest) ∨ (input = w ++ rest ∧ w ≠ [])) := by
  cases input with
  | nil => exact absurd rfl h
  | cons c input =>
    by_cases hc : c = slash
    · refine ⟨_, _, not_mem_takeWhile input, follows_dropWhile input, .inl ?_⟩
      rw [List.takeWhile_append_dropWhile, hc]
    · refine ⟨_, _, not_mem_takeWhile (c :: input), follows_dropWhile (c :: input), .inr ⟨?_, ?_⟩⟩
      · rw [List.takeWhile_append_dropWhile]
      · simp [hc]

theorem takeWhile_append_follows {w rest : Text} (hw : slash ∉ w) (hrest : Follows rest) :
    (w ++ rest).takeWhile (fun c => c ≠ slash) = w := by
  have hall : ∀ c ∈ w, decide (c ≠ slash) = true := fun c hc =>
    decide_eq_true fun heq => hw (heq ▸ hc)
  rcases hrest with rfl | ⟨next, rfl⟩
  · rw [List.append_nil]
    exact List.takeWhile_eq_self_iff.mpr hall
  · rw [List.takeWhile_append_of_pos hall]
    simp

/-- One step on a segment with a slash before it. -/
theorem dotStep_slash {w rest : Text} (output : Text) (hw : slash ∉ w) (hrest : Follows rest) :
    dotStep (slash :: (w ++ rest)) output =
      if w = [dot] then (if rest = [] then [slash] else rest, output)
      else if w = [dot, dot] then (if rest = [] then [slash] else rest, dropLastSegment output)
      else (rest, output ++ slash :: w) := by
  have hfirst : firstSegment (slash :: (w ++ rest)) = slash :: w := by
    simp only [firstSegment, if_true, takeWhile_append_follows hw hrest]
  have hchars : ∀ c ∈ w, ¬ c = slash := fun c hc heq => hw (heq ▸ hc)
  have hne : ¬ slash = dot := by decide
  have hne' : ¬ dot = slash := by decide
  clear hw
  unfold dotStep
  rw [hfirst]
  rcases w with _ | ⟨a, _ | ⟨b, _ | ⟨c, w⟩⟩⟩ <;>
    rcases hrest with rfl | ⟨next, rfl⟩ <;>
    simp_all

/-- One step on a segment at the start of the path. -/
theorem dotStep_noSlash {w rest : Text} (output : Text) (hw : slash ∉ w) (hempty : w ≠ [])
    (hrest : Follows rest) :
    dotStep (w ++ rest) output =
      if w = [dot] ∨ w = [dot, dot] then (rest.drop 1, output) else (rest, output ++ w) := by
  have hfirst : firstSegment (w ++ rest) = w := by
    cases w with
    | nil => exact absurd rfl hempty
    | cons a w =>
      have ha : ¬ a = slash := fun heq => hw (heq ▸ List.mem_cons_self)
      have htake := takeWhile_append_follows hw hrest
      simp only [List.cons_append] at htake ⊢
      simp only [firstSegment, if_neg ha, htake]
  have hchars : ∀ c ∈ w, ¬ c = slash := fun c hc heq => hw (heq ▸ hc)
  have hne : ¬ slash = dot := by decide
  have hne' : ¬ dot = slash := by decide
  clear hw
  unfold dotStep
  rw [hfirst]
  rcases w with _ | ⟨a, _ | ⟨b, _ | ⟨c, w⟩⟩⟩ <;>
    rcases hrest with rfl | ⟨next, rfl⟩ <;>
    simp_all

/-- The output is empty, or ends in a segment that `dropLastSegment` takes off. -/
theorem dropLastSegment_cases (output : Text) :
    dropLastSegment output = [] ∨
      ∃ w, slash ∉ w ∧ output = dropLastSegment output ++ slash :: w := by
  have hsplit := List.takeWhile_append_dropWhile (p := fun c => decide (c ≠ slash))
    (l := output.reverse)
  unfold dropLastSegment
  rcases follows_dropWhile output.reverse with hnil | ⟨next, hnext⟩
  · exact .inl (by rw [hnil]; rfl)
  · refine .inr ⟨(output.reverse.takeWhile fun c => c ≠ slash).reverse, ?_, ?_⟩
    · rw [List.mem_reverse]
      exact not_mem_takeWhile _
    · have hrev := congrArg List.reverse hsplit
      rw [hnext, List.reverse_append, List.reverse_reverse] at hrev
      rw [hnext]
      generalize (output.reverse.takeWhile fun c => decide (c ≠ slash)).reverse = w at hrev
      rw [← hrev]
      simp

theorem noDots_dropLastSegment {output : Text} (h : NoDots output) :
    NoDots (dropLastSegment output) := by
  rcases dropLastSegment_cases output with hnil | ⟨w, _, hsplit⟩
  · rw [hnil]
    exact noDots_nil
  · rw [hsplit, NoDots, List.splitOn_append_cons_self, List.mem_append, List.mem_append] at h
    exact ⟨fun hm => h.1 (.inl hm), fun hm => h.2 (.inl hm)⟩

/-- A segment behind a slash is no dot segment, and the others are those before it. -/
theorem noDots_append {output w : Text} (hw : slash ∉ w) (hd : w ≠ [dot]) (hdd : w ≠ [dot, dot])
    (h : NoDots output) : NoDots (output ++ slash :: w) := by
  rw [NoDots, List.splitOn_append_cons_self, List.splitOn_eq_singleton hw, List.mem_append,
    List.mem_append, List.mem_singleton, List.mem_singleton]
  exact ⟨fun hm => hm.elim h.1 fun heq => hd heq.symm, fun hm => hm.elim h.2 fun heq =>
    hdd heq.symm⟩

theorem noDots_singleton {w : Text} (hw : slash ∉ w) (hd : w ≠ [dot]) (hdd : w ≠ [dot, dot]) :
    NoDots w := by
  rw [NoDots, List.splitOn_eq_singleton hw, List.mem_singleton, List.mem_singleton]
  exact ⟨hd.symm, hdd.symm⟩

/-- Behind the first step the input starts with a slash, where anything is left. -/
theorem follows_rest {rest : Text} (h : Follows rest) :
    Follows (if rest = [] then [slash] else rest) := by
  split
  · exact .inr ⟨[], rfl⟩
  · exact h

/-- A step keeps the output free of dot segments. -/
theorem dotStep_noDots {input output : Text} (h : NoDots output)
    (hstart : output = [] ∨ Follows input) (hne : input ≠ []) :
    NoDots (dotStep input output).2 ∧
      ((dotStep input output).2 = [] ∨ Follows (dotStep input output).1) := by
  obtain ⟨w, rest, hw, hrest, rfl | ⟨rfl, hempty⟩⟩ := segment_cases hne
  · rw [dotStep_slash output hw hrest]
    split
    · exact ⟨h, .inr (follows_rest hrest)⟩
    rename_i hd
    split
    · exact ⟨noDots_dropLastSegment h, .inr (follows_rest hrest)⟩
    · rename_i hdd
      exact ⟨noDots_append hw hd hdd h, .inr hrest⟩
  · have hout : output = [] := by
      rcases hstart with hout | hnil | ⟨next, hnext⟩
      · exact hout
      · exact absurd hnil hne
      · cases w with
        | nil => exact absurd rfl hempty
        | cons a w => exact absurd (List.cons.inj hnext).1 fun heq => hw (heq ▸ List.mem_cons_self)
    rw [dotStep_noSlash output hw hempty hrest, hout]
    split
    · exact ⟨noDots_nil, .inl rfl⟩
    · rename_i hdots
      rw [not_or] at hdots
      exact ⟨noDots_singleton hw hdots.1 hdots.2, .inr hrest⟩

theorem removeDotLoop_noDots (turns : Nat) :
    ∀ input output, NoDots output → (output = [] ∨ Follows input) →
      NoDots (removeDotLoop turns input output) := by
  induction turns with
  | zero => exact fun _ _ h _ => h
  | succ turns ih =>
    intro input output h hstart
    rw [removeDotLoop]
    split
    · exact h
    · rename_i hne
      obtain ⟨hdots, hfollows⟩ := dotStep_noDots h hstart hne
      exact ih _ _ hdots hfollows

/-- The removal leaves no dot segment. -/
theorem removeDotSegments_noDots (path : Text) : NoDots (removeDotSegments path) :=
  removeDotLoop_noDots _ path [] noDots_nil (.inl rfl)

theorem noDots_slash (s : Text) : NoDots (slash :: s) ↔ NoDots s := by
  have hsplit : (slash :: s).splitOn slash = [] :: s.splitOn slash :=
    List.splitOn_append_cons_self_of_not_mem List.not_mem_nil s
  simp [NoDots, hsplit]

theorem noDots_segment {w rest : Text} (hw : slash ∉ w) (hrest : Follows rest) :
    NoDots (w ++ rest) ↔ (w ≠ [dot] ∧ w ≠ [dot, dot]) ∧ NoDots rest := by
  rcases hrest with rfl | ⟨next, rfl⟩
  · rw [List.append_nil, NoDots, List.splitOn_eq_singleton hw, List.mem_singleton,
      List.mem_singleton]
    exact ⟨fun h => ⟨⟨Ne.symm h.1, Ne.symm h.2⟩, noDots_nil⟩,
      fun h => ⟨Ne.symm h.1.1, Ne.symm h.1.2⟩⟩
  · rw [noDots_slash, NoDots, List.splitOn_append_cons_self_of_not_mem hw, List.mem_cons,
      List.mem_cons, not_or, not_or]
    exact ⟨fun h => ⟨⟨Ne.symm h.1.1, Ne.symm h.2.1⟩, h.1.2, h.2.2⟩,
      fun h => ⟨⟨Ne.symm h.1.1, h.2.1⟩, Ne.symm h.1.2, h.2.2⟩⟩

/-- A step on a text without dot segments copies the first segment. -/
theorem dotStep_of_noDots {input : Text} (output : Text) (h : NoDots input) (hne : input ≠ []) :
    ∃ w rest, input = w ++ rest ∧ w ≠ [] ∧ NoDots rest ∧
      dotStep input output = (rest, output ++ w) := by
  obtain ⟨w, rest, hw, hrest, rfl | ⟨rfl, hempty⟩⟩ := segment_cases hne
  · obtain ⟨⟨hd, hdd⟩, hdots⟩ := (noDots_segment hw hrest).mp ((noDots_slash _).mp h)
    refine ⟨slash :: w, rest, rfl, nofun, hdots, ?_⟩
    rw [dotStep_slash output hw hrest, if_neg hd, if_neg hdd]
  · obtain ⟨⟨hd, hdd⟩, hdots⟩ := (noDots_segment hw hrest).mp h
    refine ⟨w, rest, rfl, hempty, hdots, ?_⟩
    rw [dotStep_noSlash output hw hempty hrest, if_neg (not_or.mpr ⟨hd, hdd⟩)]

/-- A text without dot segments is copied to the output. -/
theorem removeDotLoop_of_noDots (turns : Nat) :
    ∀ input output, NoDots input → input.length ≤ turns →
      removeDotLoop turns input output = output ++ input := by
  induction turns with
  | zero =>
    intro input output _ hlen
    rw [List.length_eq_zero_iff.mp (Nat.le_zero.mp hlen), List.append_nil, removeDotLoop]
  | succ turns ih =>
    intro input output h hlen
    rw [removeDotLoop]
    split
    · rename_i hnil
      rw [hnil, List.append_nil]
    · rename_i hne
      obtain ⟨w, rest, rfl, hempty, hdots, hstep⟩ := dotStep_of_noDots output h hne
      have hpos := List.length_pos_iff.mpr hempty
      rw [List.length_append] at hlen
      rw [hstep, ih rest _ hdots (by omega), List.append_assoc]

theorem removeDotSegments_of_noDots {path : Text} (h : NoDots path) :
    removeDotSegments path = path :=
  removeDotLoop_of_noDots _ path [] h (Nat.le_refl _)

theorem removeDotSegments_idem (path : Text) :
    removeDotSegments (removeDotSegments path) = removeDotSegments path :=
  removeDotSegments_of_noDots (removeDotSegments_noDots path)

/-! ## Which characters the removal keeps -/

theorem mem_dropLastSegment {output : Text} {c : Nat} (h : c ∈ dropLastSegment output) :
    c ∈ output := by
  rcases dropLastSegment_cases output with hnil | ⟨w, _, hsplit⟩
  · rw [hnil] at h
    cases h
  · rw [hsplit]
    exact List.mem_append_left _ h

/-- A step moves characters, and makes no other but a slash. -/
theorem mem_dotStep {input output : Text} (hne : input ≠ []) {c : Nat}
    (h : c ∈ (dotStep input output).1 ∨ c ∈ (dotStep input output).2) :
    c = slash ∨ c ∈ input ∨ c ∈ output := by
  have hreplace {rest : Text} (hc : c ∈ (if rest = [] then [slash] else rest)) :
      c = slash ∨ c ∈ rest := by
    split at hc
    · exact .inl (List.mem_singleton.mp hc)
    · exact .inr hc
  obtain ⟨w, rest, hw, hrest, rfl | ⟨rfl, hempty⟩⟩ := segment_cases hne
  · rw [dotStep_slash output hw hrest] at h
    split at h
    · rcases h with h | h
      · rcases hreplace h with h | h
        · exact .inl h
        · exact .inr (.inl (List.mem_cons_of_mem _ (List.mem_append_right _ h)))
      · exact .inr (.inr h)
    split at h
    · rcases h with h | h
      · rcases hreplace h with h | h
        · exact .inl h
        · exact .inr (.inl (List.mem_cons_of_mem _ (List.mem_append_right _ h)))
      · exact .inr (.inr (mem_dropLastSegment h))
    · rcases h with h | h
      · exact .inr (.inl (List.mem_cons_of_mem _ (List.mem_append_right _ h)))
      · rcases List.mem_append.mp h with h | h
        · exact .inr (.inr h)
        · rcases List.mem_cons.mp h with h | h
          · exact .inl h
          · exact .inr (.inl (List.mem_cons_of_mem _ (List.mem_append_left _ h)))
  · rw [dotStep_noSlash output hw hempty hrest] at h
    split at h
    · rcases h with h | h
      · exact .inr (.inl (List.mem_append_right _ (List.mem_of_mem_drop h)))
      · exact .inr (.inr h)
    · rcases h with h | h
      · exact .inr (.inl (List.mem_append_right _ h))
      · rcases List.mem_append.mp h with h | h
        · exact .inr (.inr h)
        · exact .inr (.inl (List.mem_append_left _ h))

theorem mem_removeDotLoop (turns : Nat) :
    ∀ input output c, c ∈ removeDotLoop turns input output →
      c = slash ∨ c ∈ input ∨ c ∈ output := by
  induction turns with
  | zero => exact fun _ _ _ h => .inr (.inr h)
  | succ turns ih =>
    intro input output c h
    rw [removeDotLoop] at h
    split at h
    · exact .inr (.inr h)
    · rename_i hne
      rcases ih _ _ c h with h | h | h
      · exact .inl h
      · exact mem_dotStep hne (.inl h)
      · exact mem_dotStep hne (.inr h)

theorem mem_removeDotSegments {path : Text} {c : Nat} (h : c ∈ removeDotSegments path) :
    c = slash ∨ c ∈ path := by
  rcases mem_removeDotLoop _ path [] c h with h | h | h
  · exact .inl h
  · exact .inr h
  · cases h

theorem rooted_dropLastSegment {output : Text} (h : output = [] ∨ output.head? = some slash) :
    dropLastSegment output = [] ∨ (dropLastSegment output).head? = some slash := by
  rcases dropLastSegment_cases output with hnil | ⟨w, _, hsplit⟩
  · exact .inl hnil
  generalize dropLastSegment output = front at hsplit
  cases front with
  | nil => exact .inl rfl
  | cons c front =>
    rw [hsplit] at h
    exact .inr (h.resolve_left nofun)

/-- A path that starts with a slash still does. -/
theorem removeDotLoop_rooted (turns : Nat) :
    ∀ input output, Follows input → (output = [] ∨ output.head? = some slash) →
      (output ≠ [] ∨ input ≠ []) → input.length ≤ turns →
      (removeDotLoop turns input output).head? = some slash := by
  induction turns with
  | zero =>
    intro input output _ hout hne hlen
    have hnil : input = [] := List.length_eq_zero_iff.mp (Nat.le_zero.mp hlen)
    rcases hout with hout | hout
    · exact absurd hnil (hne.resolve_left fun h => h hout)
    · exact hout
  | succ turns ih =>
    intro input output hin hout hne hlen
    rw [removeDotLoop]
    split
    · rename_i hnil
      rcases hout with hout | hout
      · exact absurd hnil (hne.resolve_left fun h => h hout)
      · exact hout
    rename_i hinput
    obtain ⟨w, rest, hw, hrest, rfl | ⟨rfl, hempty⟩⟩ := segment_cases hinput
    · have hreplace : (if rest = [] then [slash] else rest) ≠ [] ∧
          (if rest = [] then [slash] else rest).length ≤ rest.length + 1 := by
        split
        · exact ⟨nofun, by simp⟩
        · rename_i hne'
          exact ⟨hne', Nat.le_succ _⟩
      simp only [List.length_cons, List.length_append] at hlen
      rw [dotStep_slash output hw hrest]
      split
      · rename_i hd
        have hone : w.length = 1 := by rw [hd]; rfl
        exact ih _ _ (follows_rest hrest) hout (.inr hreplace.1) (by dsimp only; omega)
      split
      · rename_i hdd
        have htwo : w.length = 2 := by rw [hdd]; rfl
        exact ih _ _ (follows_rest hrest) (rooted_dropLastSegment hout) (.inr hreplace.1)
          (by dsimp only; omega)
      · refine ih _ _ hrest (.inr ?_) (.inl (by simp)) (by dsimp only; omega)
        rcases hout with rfl | hout
        · rfl
        · rw [List.head?_append, hout, Option.some_or]
    · rcases hin with hnil | ⟨next, hnext⟩
      · exact absurd hnil hinput
      · cases w with
        | nil => exact absurd rfl hempty
        | cons a w => exact absurd (List.cons.inj hnext).1 fun heq => hw (heq ▸ List.mem_cons_self)

theorem removeDotSegments_rooted {path : Text} (h : path.head? = some slash) :
    (removeDotSegments path).head? = some slash := by
  cases path with
  | nil => cases h
  | cons c path =>
    obtain rfl := Option.some.inj h
    exact removeDotLoop_rooted _ _ [] (.inr ⟨path, rfl⟩) (.inl rfl) (.inr nofun) (Nat.le_refl _)

/-! ## The path up to its last slash -/

theorem directory_ne_nil {path : Text} (h : slash ∈ path) :
    (path.reverse.dropWhile fun c => c ≠ slash) ≠ [] := by
  intro hnil
  have := List.dropWhile_eq_nil_iff.mp hnil slash (List.mem_reverse.mpr h)
  simp at this

/-- What stands before a path with a slash stays. -/
theorem directory_append (front : Text) {path : Text} (h : slash ∈ path) :
    directory (front ++ path) = front ++ directory path := by
  rw [directory, directory, List.reverse_append, List.dropWhile_append,
    if_neg (by rw [List.isEmpty_iff]; exact directory_ne_nil h), List.reverse_append,
    List.reverse_reverse]

theorem directory_isPrefix (path : Text) : directory path <+: path := by
  have h := List.dropWhile_suffix (fun c => decide (c ≠ slash)) (l := path.reverse)
  rw [← List.reverse_prefix, List.reverse_reverse] at h
  exact h

theorem directory_rooted {path : Text} (h : path.head? = some slash) :
    (directory path).head? = some slash := by
  cases path with
  | nil => cases h
  | cons c path =>
    obtain rfl := Option.some.inj h
    have hne : directory (slash :: path) ≠ [] := fun hnil =>
      directory_ne_nil List.mem_cons_self (List.reverse_eq_nil_iff.mp hnil)
    obtain ⟨rest, hrest⟩ := directory_isPrefix (slash :: path)
    cases hdir : directory (slash :: path) with
    | nil => exact absurd hdir hne
    | cons d dir =>
      rw [hdir] at hrest
      obtain ⟨rfl, -⟩ := List.cons.inj hrest
      rfl

/-! ## A composed text has the components it was composed of -/

/-- The characters of a text all satisfy `p`, and what follows it does not. -/
theorem span_append {p : Nat → Bool} {front : Text} (rest : Text)
    (hfront : ∀ c ∈ front, p c = true) (hrest : ∀ c, rest.head? = some c → p c = false) :
    (front ++ rest).takeWhile p = front ∧ (front ++ rest).dropWhile p = rest := by
  rw [List.takeWhile_append_of_pos hfront, List.dropWhile_append_of_pos hfront]
  cases rest with
  | nil => simp
  | cons c rest => simp [hrest c rfl]

/-- Every component consists of the characters that the expression allows it. -/
structure Reference.Proper (r : Reference) : Prop where
  scheme : ∀ s, r.scheme = some s → s ≠ [] ∧ ∀ c ∈ s, isSchemeText c = true
  authority : ∀ a, r.authority = some a → ∀ c ∈ a, isAuthorityText c = true
  path : ∀ c ∈ r.path, isPathText c = true
  query : ∀ q, r.query = some q → ∀ c ∈ q, isQueryText c = true

theorem splitFragment_compose (fragment : Option Text) :
    splitFragment (withDelimiter numberSign fragment) = fragment := by
  cases fragment with
  | none => rfl
  | some f => simp [withDelimiter, splitFragment]

theorem splitQuery_compose {query : Option Text} (fragment : Option Text)
    (h : ∀ q, query = some q → ∀ c ∈ q, isQueryText c = true) :
    splitQuery (withDelimiter questionMark query ++ withDelimiter numberSign fragment) =
      (query, withDelimiter numberSign fragment) := by
  have hfragment : ∀ c, (withDelimiter numberSign fragment).head? = some c →
      isQueryText c = false := by
    intro c hc
    cases fragment with
    | none => cases hc
    | some f =>
      obtain rfl := Option.some.inj hc
      decide
  cases query with
  | none =>
    cases fragment with
    | none => rfl
    | some f =>
      have hne : ¬ numberSign = questionMark := by decide
      simp [withDelimiter, splitQuery, hne]
  | some q =>
    obtain ⟨htake, hdrop⟩ := span_append _ (h q rfl) hfragment
    simp only [withDelimiter, Option.map_some, Option.getD_some, List.cons_append, splitQuery,
      if_true] at htake hdrop ⊢
    rw [htake, hdrop]

/-- What follows a path does not belong to it. -/
theorem tail_not_path (query fragment : Option Text) (c : Nat)
    (h : (withDelimiter questionMark query ++ withDelimiter numberSign fragment).head? = some c) :
    isPathText c = false := by
  cases query with
  | some q =>
    obtain rfl := Option.some.inj h
    decide
  | none =>
    cases fragment with
    | none => cases h
    | some f =>
      obtain rfl := Option.some.inj h
      decide

/-- A text with a scheme and an authority, whose path is empty or starts with a slash. -/
theorem split_recompose {r : Reference} (hr : r.Proper) {s a : Text} (hs : r.scheme = some s)
    (ha : r.authority = some a) (hpath : Follows r.path) : split r.recompose = r := by
  obtain ⟨scheme, authority, path, query, fragment⟩ := r
  obtain rfl : scheme = some s := hs
  obtain rfl : authority = some a := ha
  obtain ⟨hne, hscheme⟩ := hr.scheme s rfl
  have htext : Reference.recompose ⟨some s, some a, path, query, fragment⟩ =
      s ++ colon :: slash :: slash :: (a ++ (path ++ (withDelimiter questionMark query ++
        withDelimiter numberSign fragment))) := by
    simp [Reference.recompose]
  have hfirst := span_append (colon :: slash :: slash :: (a ++ (path ++
    (withDelimiter questionMark query ++ withDelimiter numberSign fragment)))) hscheme
    (fun c hc => by obtain rfl := Option.some.inj hc; decide)
  have hsplitScheme : splitScheme (Reference.recompose ⟨some s, some a, path, query, fragment⟩) =
      (some s, slash :: slash :: (a ++ (path ++ (withDelimiter questionMark query ++
        withDelimiter numberSign fragment)))) := by
    rw [htext, splitScheme, hfirst.1, hfirst.2]
    exact if_pos ⟨rfl, hne⟩
  have hbehind : ∀ c, (path ++ (withDelimiter questionMark query ++
      withDelimiter numberSign fragment)).head? = some c → isAuthorityText c = false := by
    intro c hc
    rcases hpath with rfl | ⟨next, rfl⟩
    · have := tail_not_path query fragment c hc
      simp only [isPathText, Bool.and_eq_false_iff, decide_eq_false_iff_not, Decidable.not_not]
        at this
      rcases this with rfl | rfl <;> decide
    · obtain rfl := Option.some.inj hc
      decide
  have hsecond := span_append _ (hr.authority a rfl) hbehind
  have hthird := span_append _ hr.path (tail_not_path query fragment)
  have hsplitAuthority : splitAuthority (slash :: slash :: (a ++ (path ++
      (withDelimiter questionMark query ++ withDelimiter numberSign fragment)))) =
      (some a, path ++ (withDelimiter questionMark query ++
        withDelimiter numberSign fragment)) := by
    simp only [splitAuthority, and_self, if_true, hsecond.1, hsecond.2]
  simp only [split, hsplitScheme, hsplitAuthority, hthird.1, hthird.2,
    splitQuery_compose fragment hr.query, splitFragment_compose]

theorem splitScheme_none {s : Text} (h : (splitScheme s).1 = none) : (splitScheme s).2 = s := by
  unfold splitScheme at h ⊢
  split
  · rename_i hdrop
    simp only [hdrop] at h
    split
    · rename_i hscheme
      rw [if_pos hscheme] at h
      cases h
    · rfl
  · rfl

/-- A reference without a scheme, whose components are those of what follows its authority. -/
theorem split_of_no_scheme {s : Text} (h : (split s).scheme = none) :
    split s = ⟨none, (splitAuthority s).1, (splitAuthority s).2.takeWhile isPathText,
      (splitQuery ((splitAuthority s).2.dropWhile isPathText)).1,
      splitFragment (splitQuery ((splitAuthority s).2.dropWhile isPathText)).2⟩ := by
  have hscheme : (splitScheme s).1 = none := h
  rw [split, splitScheme_none hscheme, hscheme]

/-- What follows an authority is empty or starts with what ends it. -/
theorem authority_rest_path (s : Text) :
    ((s.dropWhile isAuthorityText).takeWhile isPathText = [] ∧
      ∀ c, (s.dropWhile isAuthorityText).head? = some c → isPathText c = false) ∨
    (s.dropWhile isAuthorityText).head? = some slash := by
  cases hrest : s.dropWhile isAuthorityText with
  | nil => exact .inl ⟨rfl, nofun⟩
  | cons c rest =>
    have hhead := List.head_dropWhile_not isAuthorityText (l := s) (by rw [hrest]; exact nofun)
    simp only [hrest, List.head_cons] at hhead
    by_cases hc : c = slash
    · exact .inr (by rw [hc]; rfl)
    · have hpath : isPathText c = false := by
        simp only [isAuthorityText, isPathText, Bool.and_eq_false_iff, decide_eq_false_iff_not,
          Decidable.not_not] at hhead ⊢
        exact hhead.imp_left fun h => h.resolve_left hc
      refine .inl ⟨by rw [List.takeWhile_cons, hpath]; rfl, fun d hd => ?_⟩
      rw [← Option.some.inj hd]
      exact hpath

theorem recompose_full (s a path : Text) (query fragment : Option Text) :
    Reference.recompose ⟨some s, some a, path, query, fragment⟩ =
      s ++ [colon] ++ [slash, slash] ++ a ++ path ++ withDelimiter questionMark query ++
        withDelimiter numberSign fragment := by
  simp [Reference.recompose]

end EsOs.Uri

/-!
## Percent encoding

An octet written as a percent sign and two hexadecimal digits.
-/

namespace EsOs.Lib

def percentSign : UInt8 := 0x25

/-- The digit of a number below 16. -/
def hexDigit (n : Nat) : UInt8 :=
  if n < 10 then UInt8.ofNat (0x30 + n) else UInt8.ofNat (0x37 + n)

/-- The number of a digit, in either case. -/
def hexValue (c : UInt8) : Option Nat :=
  if 0x30 ≤ c ∧ c ≤ 0x39 then some (c.toNat - 0x30)
  else if 0x61 ≤ c ∧ c ≤ 0x66 then some (c.toNat - 0x57)
  else if 0x41 ≤ c ∧ c ≤ 0x46 then some (c.toNat - 0x37)
  else none

/-- An octet as it is written. -/
def escape (b : UInt8) : List UInt8 :=
  [percentSign, hexDigit (b.toNat / 16), hexDigit (b.toNat % 16)]

/-- The three octets are a way to write an octet. -/
def IsEscape (t : List UInt8) (b : UInt8) : Prop :=
  ∃ x y h l, t = [percentSign, x, y] ∧ hexValue x = some h ∧ hexValue y = some l ∧
    b = UInt8.ofNat (16 * h + l)

theorem hexValue_hexDigit : ∀ n < 16, hexValue (hexDigit n) = some n := by
  decide +kernel

theorem hexValue_lt {c : UInt8} {n : Nat} (h : hexValue c = some n) : n < 16 := by
  unfold hexValue at h
  simp only [UInt8.le_iff_toNat_le] at h
  split at h
  · rename_i hc
    have : c.toNat ≤ 57 := hc.2
    cases h
    omega
  split at h
  · rename_i hc
    have : c.toNat ≤ 102 := hc.2
    cases h
    omega
  split at h
  · rename_i hc
    have : c.toNat ≤ 70 := hc.2
    cases h
    omega
  · cases h

theorem isEscape_escape (b : UInt8) : IsEscape (escape b) b := by
  have hlt := b.toNat_lt
  refine ⟨_, _, b.toNat / 16, b.toNat % 16, rfl, hexValue_hexDigit _ (by omega),
    hexValue_hexDigit _ (by omega), ?_⟩
  rw [Nat.div_add_mod, UInt8.ofNat_toNat]

end EsOs.Lib
