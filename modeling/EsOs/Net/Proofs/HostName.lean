import EsOs.Net.HostName

/-!
# Names are read as they were asked for

`a` writes the labels of the name, with those of the suffix behind them. `copyName` and `skipName`
take one label of them a turn.
-/

namespace EsOs.Net.Resolver

open EsOs.Lib EsOs.Digits

/-! ## Labels -/

/-- A label that fits is written. -/
theorem label_append {rest : List UInt8} (hrest : rest = [] ∨ rest.head? = some dot) :
    ∀ {bytes : List UInt8} {i opt : Nat}, dot ∉ bytes → i + bytes.length ≤ labelMax →
      opt + bytes.length ≤ nameMax - 1 → label (bytes ++ rest) i opt = some (bytes, rest) := by
  intro bytes
  induction bytes with
  | nil =>
    intro i opt _ _ _
    cases rest with
    | nil => rfl
    | cons c rest =>
      have hc : c = dot := Option.some.inj (hrest.resolve_left (List.cons_ne_nil _ _))
      rw [List.nil_append, label, if_pos hc]
  | cons c bytes ih =>
    intro i opt hdot hi hopt
    obtain ⟨hc, hdot⟩ := List.ne_and_not_mem_of_not_mem_cons hdot
    rw [List.length_cons] at hi hopt
    rw [List.cons_append, label, if_neg (Ne.symm hc), if_neg (by omega), ih hdot (by omega) (by omega)]
    rfl

/-- Every label that is written fits, and a dot or the end is behind it. -/
theorem label_fits : ∀ {hostName bytes rest : List UInt8} {i opt : Nat},
    label hostName i opt = some (bytes, rest) → dot ∉ bytes ∧ (rest = [] ∨ rest.head? = some dot) ∧
      (bytes ≠ [] → i + bytes.length ≤ labelMax ∧ opt + bytes.length ≤ nameMax - 1) := by
  intro hostName
  induction hostName with
  | nil =>
    intro bytes rest i opt h
    cases h
    exact ⟨List.not_mem_nil, .inl rfl, fun h => absurd rfl h⟩
  | cons c hostName ih =>
    intro bytes rest i opt h
    rw [label] at h
    split at h
    · rename_i hc
      cases h
      exact ⟨List.not_mem_nil, .inr (by rw [hc]; rfl), fun h => absurd rfl h⟩
    · rename_i hc
      split at h
      · cases h
      · rename_i hfits
        obtain ⟨⟨bytes', rest'⟩, hlabel, heq⟩ := Option.map_eq_some_iff.mp h
        cases heq
        obtain ⟨hdot, hrest, hlen⟩ := ih hlabel
        refine ⟨List.not_mem_cons_of_ne_of_not_mem (Ne.symm hc) hdot, hrest, fun _ => ?_⟩
        rw [List.length_cons]
        by_cases hnil : bytes' = []
        · subst hnil
          simp only [List.length_nil]
          omega
        · have := hlen hnil
          omega

/-! ## The names that are written -/

theorem wire_cons (l : List UInt8) (ls : List (List UInt8)) :
    wire (l :: ls) = UInt8.ofNat l.length :: l ++ wire ls := List.flatMap_cons

section Names

variable {suffix text rest : List UInt8} {dotted : Bool} {opt : Nat} {b : UInt8}
  {bytes : List UInt8}

theorem names_nil : names suffix [] dotted opt = some [] := by rw [names]

theorem names_none (h : label text 0 (opt + 1) = none) :
    names suffix text dotted opt = none := by
  cases text with
  | nil => cases h
  | cons c name =>
  rw [names]
  split
  · rfl
  · rfl
  · rename_i heq
    rw [h] at heq
    cases heq

theorem names_empty (hne : text ≠ []) (h : label text 0 (opt + 1) = some ([], rest)) :
    names suffix text dotted opt = none := by
  obtain ⟨c, name, rfl⟩ := List.exists_cons_of_ne_nil hne
  rw [names]
  split
  · rfl
  · rfl
  · rename_i heq
    rw [h] at heq
    cases heq

/-- A dot behind a label. -/
theorem names_dot {d : UInt8} (h : label text 0 (opt + 1) = some (b :: bytes, d :: rest)) :
    names suffix text dotted opt =
      (names suffix rest true (opt + (bytes.length + 2))).map
        (UInt8.ofNat (b :: bytes).length :: b :: bytes ++ ·) := by
  cases text with
  | nil => cases h
  | cons c name =>
  rw [names]
  split
  · rename_i heq
    rw [h] at heq
    cases heq
  · rename_i heq
    rw [h] at heq
    cases heq
  · rename_i heq
    rw [h] at heq
    cases heq
    rfl

/-- The end behind a label. -/
theorem names_end (h : label text 0 (opt + 1) = some (b :: bytes, [])) :
    names suffix text dotted opt =
      if dotted = false ∧ suffix ≠ [] then
        (names suffix suffix true (opt + (bytes.length + 2))).map
          (UInt8.ofNat (b :: bytes).length :: b :: bytes ++ ·)
      else some (UInt8.ofNat (b :: bytes).length :: b :: bytes) := by
  cases text with
  | nil => cases h
  | cons c name =>
  rw [names]
  split
  · rename_i heq
    rw [h] at heq
    cases heq
  · rename_i heq
    rw [h] at heq
    cases heq
  · rename_i heq
    rw [h] at heq
    cases heq
    rfl

end Names

/-- Labels that fit are written. -/
theorem names_joined {suffix tail : List UInt8} (htail : tail = [] ∨ tail = [dot]) :
    ∀ {ls : List (List UInt8)} {opt : Nat}, ls ≠ [] → (∀ l ∈ ls, IsLabel l) →
      opt + (wire ls).length ≤ nameMax - 1 →
      names suffix (joined dot ls ++ tail) true opt = some (wire ls) := by
  intro ls
  induction ls with
  | nil => exact fun h => absurd rfl h
  | cons l ls ih =>
    intro opt _ hls hopt
    have hl := hls l List.mem_cons_self
    rw [wire_cons, List.length_append, List.length_cons] at hopt
    have hlabel {rest : List UInt8} (hrest : rest = [] ∨ rest.head? = some dot) :
        label (l ++ rest) 0 (opt + 1) = some (l, rest) :=
      label_append hrest hl.undotted (by have := hl.short; omega) (by omega)
    obtain ⟨b, bytes, rfl⟩ := List.exists_cons_of_ne_nil hl.some
    rw [List.length_cons] at hopt
    by_cases hnil : ls = []
    · subst hnil
      rw [joined_singleton, wire_cons]
      rcases htail with rfl | rfl
      · rw [names_end (hlabel (.inl rfl)), if_neg (by simp), wire, List.flatMap_nil, List.append_nil]
      · rw [names_dot (hlabel (.inr rfl)), names_nil]
        rfl
    · rw [joined_cons _ hnil, wire_cons, List.append_assoc]
      show names suffix (b :: bytes ++ dot :: (joined dot ls ++ tail)) true opt = _
      rw [names_dot (hlabel (.inr rfl)),
        ih hnil (fun l hl => hls l (List.mem_cons_of_mem _ hl)) (by omega)]
      rfl

/-- Every name that is written is made of labels that fit. -/
theorem exists_labels {suffix : List UInt8} (n : Nat) :
    ∀ {text w : List UInt8} {opt : Nat}, text.length ≤ n → text ≠ [] →
      names suffix text true opt = some w →
      ∃ ls tail, ls ≠ [] ∧ (∀ l ∈ ls, IsLabel l) ∧ (tail = [] ∨ tail = [dot]) ∧
        text = joined dot ls ++ tail ∧ w = wire ls ∧ opt + w.length ≤ nameMax - 1 := by
  induction n with
  | zero => exact fun hn hne => absurd (List.length_pos_iff.mpr hne) (by omega)
  | succ n ih =>
    intro text w opt hn hne h
    cases hlabel : label text 0 (opt + 1) with
    | none =>
      rw [names_none hlabel] at h
      cases h
    | some p =>
      obtain ⟨l, rest⟩ := p
      cases l with
      | nil =>
        rw [names_empty hne hlabel] at h
        cases h
      | cons b bytes =>
        obtain ⟨hdot, hrest, hfits⟩ := label_fits hlabel
        obtain ⟨hshort, hopt⟩ := hfits (List.cons_ne_nil _ _)
        have htext := label_eq_some hlabel
        have hl : IsLabel (b :: bytes) := ⟨List.cons_ne_nil _ _, by omega, hdot⟩
        have hone : ∀ l ∈ [b :: bytes], IsLabel l := fun l hm => List.mem_singleton.mp hm ▸ hl
        rw [List.length_cons] at hopt
        cases rest with
        | nil =>
          rw [names_end hlabel, if_neg (by simp)] at h
          cases h
          refine ⟨[b :: bytes], [], List.cons_ne_nil _ _, hone, .inl rfl, ?_, ?_, ?_⟩
          · rw [htext, joined_singleton]
          · rw [wire_cons]
            exact (List.append_nil _).symm
          · simp only [List.length_cons]
            omega
        | cons d rest =>
          have hd : d = dot := Option.some.inj (hrest.resolve_left (List.cons_ne_nil _ _))
          subst hd
          rw [names_dot hlabel] at h
          obtain ⟨w', hw', rfl⟩ := Option.map_eq_some_iff.mp h
          have hlen := congrArg List.length htext
          rw [List.length_append, List.length_cons, List.length_cons] at hlen
          by_cases hnil : rest = []
          · subst hnil
            rw [names_nil] at hw'
            cases hw'
            refine ⟨[b :: bytes], [dot], List.cons_ne_nil _ _, hone, .inr rfl, ?_, ?_, ?_⟩
            · rw [htext, joined_singleton]
            · rw [wire_cons]
              rfl
            · simp only [List.length_append, List.length_cons, List.length_nil]
              omega
          · obtain ⟨ls, tail, hls, hall, htail, rfl, rfl, hlast⟩ :=
              ih (by omega) hnil hw'
            refine ⟨(b :: bytes) :: ls, tail, List.cons_ne_nil _ _, ?_, htail, ?_, ?_, ?_⟩
            · intro l hm
              rcases List.mem_cons.mp hm with rfl | hm
              · exact hl
              · exact hall l hm
            · rw [htext, joined_cons _ hls, List.append_assoc]
              rfl
            · rw [wire_cons]
            · simp only [List.length_append, List.length_cons]
              omega

/-- What makes a label too long is in the label. -/
theorem label_none_append {rest : List UInt8} : ∀ {hostName : List UInt8} {i opt : Nat},
    label hostName i opt = none → label (hostName ++ rest) i opt = none := by
  intro hostName
  induction hostName with
  | nil => exact fun h => nomatch h
  | cons c hostName ih =>
    intro i opt h
    rw [label] at h
    rw [List.cons_append, label]
    split at h
    · cases h
    · rename_i hc
      rw [if_neg hc]
      split at h
      · rename_i hfits
        rw [if_pos hfits]
      · rename_i hfits
        rw [if_neg hfits, ih (Option.map_eq_none_iff.mp h)]
        rfl

/-- With the suffix behind it, a name is written as one that has a dot. -/
theorem names_fullName {suffix hostName : List UInt8} (hne : hostName ≠ []) (opt : Nat) :
    names suffix hostName false opt = names suffix (fullName suffix hostName) true opt := by
  by_cases hfull : dot ∉ hostName ∧ suffix ≠ []
  · rw [fullName, if_pos hfull]
    cases hlabel : label hostName 0 (opt + 1) with
    | none => rw [names_none hlabel, names_none (label_none_append hlabel)]
    | some p =>
      obtain ⟨l, rest⟩ := p
      obtain ⟨hdot, hrest, hfits⟩ := label_fits hlabel
      have htext := label_eq_some hlabel
      have hnil : rest = [] := by
        refine hrest.resolve_right fun h => hfull.1 ?_
        rw [htext]
        exact List.mem_append_right _ (List.mem_of_mem_head? h)
      subst hnil
      rw [List.append_nil] at htext
      subst htext
      obtain ⟨hshort, hopt⟩ := hfits hne
      have hdotted : dot :: suffix = [] ∨ (dot :: suffix).head? = some dot := .inr rfl
      have hmore := label_append hdotted hdot hshort hopt
      obtain ⟨b, bytes, rfl⟩ := List.exists_cons_of_ne_nil hne
      rw [names_end hlabel, if_pos ⟨rfl, hfull.2⟩, names_dot hmore]
  · rw [fullName, if_neg hfull]
    cases hlabel : label hostName 0 (opt + 1) with
    | none => rw [names_none hlabel, names_none hlabel]
    | some p =>
      obtain ⟨l, rest⟩ := p
      cases l with
      | nil => rw [names_empty hne hlabel, names_empty hne hlabel]
      | cons b bytes =>
        cases rest with
        | cons d rest => rw [names_dot hlabel, names_dot hlabel]
        | nil =>
          have htext := label_eq_some hlabel
          rw [List.append_nil] at htext
          have hdot := (label_fits hlabel).1
          rw [names_end hlabel, names_end hlabel,
            if_neg fun hmore => hfull ⟨htext ▸ hdot, hmore.2⟩, if_neg (by simp)]

/-! ## Unfit names -/

theorem wire_length {ls : List (List UInt8)} (hne : ls ≠ []) :
    (wire ls).length = (joined dot ls).length + 1 := by
  induction ls with
  | nil => exact absurd rfl hne
  | cons l ls ih =>
    rw [wire_cons, List.length_append, List.length_cons]
    by_cases hnil : ls = []
    · subst hnil
      rw [joined_singleton]
      rfl
    · rw [ih hnil, joined_cons _ hnil, List.length_append, List.length_cons]
      omega

/-- A name of labels does not end in a dot. -/
theorem getLast_joined {ls : List (List UInt8)} (hne : ls ≠ []) (hls : ∀ l ∈ ls, IsLabel l) :
    joined dot ls ≠ [] ∧ (joined dot ls).getLast? ≠ some dot := by
  induction ls with
  | nil => exact absurd rfl hne
  | cons l ls ih =>
    have hl := hls l List.mem_cons_self
    by_cases hnil : ls = []
    · subst hnil
      rw [joined_singleton]
      exact ⟨hl.some, fun h => hl.undotted (List.mem_of_getLast? h)⟩
    · obtain ⟨hsome, hlast⟩ := ih hnil fun l hm => hls l (List.mem_cons_of_mem _ hm)
      rw [joined_cons _ hnil]
      refine ⟨List.append_ne_nil_of_left_ne_nil hl.some _, ?_⟩
      rw [List.getLast?_append_of_ne_nil _ (List.cons_ne_nil _ _), List.getLast?_cons_of_ne_nil hsome]
      exact hlast

theorem undotted_joined {ls : List (List UInt8)} {tail : List UInt8} (hne : ls ≠ [])
    (hls : ∀ l ∈ ls, IsLabel l) (htail : tail = [] ∨ tail = [dot]) :
    undotted (joined dot ls ++ tail) = joined dot ls := by
  unfold undotted
  rcases htail with rfl | rfl
  · rw [List.append_nil, if_neg (getLast_joined hne hls).2]
  · rw [List.getLast?_concat, if_pos rfl, List.dropLast_concat]

theorem exists_tail (name : List UInt8) :
    ∃ tail, (tail = [] ∨ tail = [dot]) ∧ name = undotted name ++ tail := by
  unfold undotted
  split
  · rename_i h
    exact ⟨[dot], .inr rfl, (List.dropLast_append_getLast? dot h).symm⟩
  · exact ⟨[], .inl rfl, (List.append_nil _).symm⟩

/-- The name that is asked for, in labels. -/
structure Fit (name : List UInt8) (ls : List (List UInt8)) : Prop where
  some : ls ≠ []
  labels : ∀ l ∈ ls, IsLabel l
  name_eq : undotted name = joined dot ls
  short : (wire ls).length ≤ nameMax - 1

theorem fit_of_not_unfit {name : List UInt8} (h : ¬ Unfit (undotted name)) :
    Fit name ((undotted name).splitOn dot) := by
  have hne := List.splitOn_ne_nil dot (undotted name)
  have hjoined : joined dot ((undotted name).splitOn dot) = undotted name :=
    List.intercalate_splitOn dot
  refine ⟨hne, fun l hl => ⟨fun hnil => h (.inl ⟨l, hl, .inl hnil⟩), ?_, not_mem_of_mem_splitOn hl⟩,
    hjoined.symm, ?_⟩
  · exact Nat.le_of_not_lt fun hlong => h (.inl ⟨l, hl, .inr hlong⟩)
  · rw [wire_length hne, hjoined]
    have := Nat.le_of_not_lt fun hlong => h (.inr hlong)
    omega

theorem Fit.not_unfit {name : List UInt8} {ls : List (List UInt8)} (h : Fit name ls) :
    ¬ Unfit (undotted name) := by
  rintro (⟨l, hl, hbad⟩ | hlong)
  · rw [h.name_eq, joined, List.splitOn_intercalate dot (fun l hl => (h.labels l hl).undotted) h.some]
      at hl
    have hlabel := h.labels l hl
    rcases hbad with hnil | hlong
    · exact hlabel.some hnil
    · exact Nat.not_lt.mpr hlabel.short hlong
  · have hlen := h.short
    rw [wire_length h.some, ← h.name_eq] at hlen
    have : nameMax = 255 := rfl
    omega

/-- A name that is fit begins with a label. -/
theorem Fit.head {name : List UInt8} {ls : List (List UInt8)} (h : Fit name ls) :
    ∃ c rest, name = c :: rest ∧ c ≠ dot := by
  obtain ⟨tail, htail, hname⟩ := exists_tail name
  obtain ⟨l, ls', rfl⟩ := List.exists_cons_of_ne_nil h.some
  have hl := h.labels l List.mem_cons_self
  obtain ⟨b, bytes, rfl⟩ := List.exists_cons_of_ne_nil hl.some
  have hjoined : ∃ rest, joined dot ((b :: bytes) :: ls') = b :: rest := by
    by_cases hnil : ls' = []
    · rw [hnil, joined_singleton]
      exact ⟨bytes, rfl⟩
    · rw [joined_cons _ hnil]
      exact ⟨_, rfl⟩
  obtain ⟨rest, hrest⟩ := hjoined
  refine ⟨b, rest ++ tail, ?_, fun hb => hl.undotted (hb ▸ List.mem_cons_self)⟩
  rw [hname, h.name_eq, hrest, List.cons_append]

theorem fullName_nil (suffix : List UInt8) :
    fullName suffix [] = [] ∨ ∃ rest, fullName suffix [] = dot :: rest := by
  unfold fullName
  split
  · exact .inr ⟨_, rfl⟩
  · exact .inl rfl

/-- The query for a name that is fit. -/
theorem a_of_fit {id : Nat} {suffix hostName : List UInt8} {ls : List (List UInt8)}
    (h : Fit (fullName suffix hostName) ls) :
    a id suffix hostName = some (queryHdr id ++ (wire ls ++ [0]) ++ [0, 1, 0, 1]) := by
  have hne : hostName ≠ [] := by
    rintro rfl
    obtain ⟨c, rest, hname, hc⟩ := h.head
    rcases fullName_nil suffix with hnil | ⟨rest', hdot⟩
    · rw [hnil] at hname
      cases hname
    · rw [hdot] at hname
      exact hc (List.cons.inj hname).1.symm
  obtain ⟨tail, htail, hname⟩ := exists_tail (fullName suffix hostName)
  rw [h.name_eq] at hname
  have hshort := h.short
  have hnames : names suffix hostName false 0 = some (wire ls) := by
    rw [names_fullName hne, hname, names_joined htail h.some h.labels (by omega)]
  obtain ⟨l, ls', rfl⟩ := List.exists_cons_of_ne_nil h.some
  rw [a, hnames, wire_cons, List.cons_append]

theorem fit_of_a {id : Nat} {suffix hostName query : List UInt8}
    (h : a id suffix hostName = some query) :
    ∃ ls, Fit (fullName suffix hostName) ls ∧
      query = queryHdr id ++ (wire ls ++ [0]) ++ [0, 1, 0, 1] := by
  unfold a at h
  split at h
  · cases h
  · cases h
  · rename_i name hempty hnames
    have hne : hostName ≠ [] := by
      rintro rfl
      rw [names_nil] at hnames
      exact hempty (Option.some.inj hnames).symm
    have hfull : fullName suffix hostName ≠ [] := by
      unfold fullName
      split
      · exact List.append_ne_nil_of_left_ne_nil hne _
      · exact hne
    rw [names_fullName hne] at hnames
    obtain ⟨ls, tail, hls, hall, htail, hname, rfl, hlen⟩ :=
      exists_labels _ (Nat.le_refl _) hfull hnames
    refine ⟨ls, ⟨hls, hall, ?_, by omega⟩, (Option.some.inj h).symm⟩
    rw [hname, undotted_joined hls hall htail]

/-! ## Reading a name -/

theorem and_mask {count : Nat} (h : count < 64) : count &&& 0xc0 = 0 := by
  have hall : ∀ c : Fin 64, c.val &&& 0xc0 = 0 := by decide +kernel
  exact hall ⟨count, h⟩

section Reading

variable {msg rest l : List UInt8} {ptr : Nat}

theorem getD_of_drop {b : UInt8} (h : msg.drop ptr = b :: rest) : msg.getD ptr 0 = b := by
  have hget := congrArg List.head? h
  rw [List.head?_drop] at hget
  rw [List.getD_eq_getElem?_getD, hget]
  rfl

theorem lt_of_drop {b : UInt8} (h : msg.drop ptr = b :: rest) : ptr < msg.length := by
  have hlen := congrArg List.length h
  rw [List.length_drop, List.length_cons] at hlen
  omega

theorem IsLabel.wire (hl : IsLabel l) : IsWireLabel l := ⟨hl.some, hl.short⟩

theorem IsWireLabel.count (hl : IsWireLabel l) : (UInt8.ofNat l.length).toNat = l.length :=
  UInt8.toNat_ofNat_of_lt' (Nat.lt_of_le_of_lt hl.2 (by decide))

theorem IsWireLabel.count_ne_zero (hl : IsWireLabel l) : UInt8.ofNat l.length ≠ 0 := by
  intro hzero
  have hbyte := congrArg UInt8.toNat hzero
  rw [hl.count] at hbyte
  exact hl.1 (List.length_eq_zero_iff.mp hbyte)

/-- The length of a label is read. -/
theorem count_eq (hl : IsWireLabel l) (h : msg.drop ptr = UInt8.ofNat l.length :: l ++ rest) :
    (msg.getD ptr 0).toNat = l.length := by
  rw [getD_of_drop h, hl.count]

theorem drop_label (h : msg.drop ptr = UInt8.ofNat l.length :: l ++ rest) :
    msg.drop (ptr + (1 + l.length)) = rest := by
  rw [← List.drop_drop, h, Nat.add_comm 1, List.cons_append, List.drop_succ_cons, List.drop_left]

theorem skipName_label (hl : IsWireLabel l) (h : msg.drop ptr = UInt8.ofNat l.length :: l ++ rest) :
    skipName msg ptr = skipName msg (ptr + (1 + l.length)) := by
  have hcount := count_eq hl h
  have hpos := List.length_pos_iff.mpr hl.1
  have hshort : l.length < 64 := Nat.lt_succ_of_le hl.2
  rw [skipName, if_pos (lt_of_drop h)]
  simp only [hcount, and_mask hshort]
  rw [if_neg (by omega), if_neg (by simp)]

theorem skipName_root (h : msg.drop ptr = 0 :: rest) : skipName msg ptr = some (ptr + 1) := by
  rw [skipName, if_pos (lt_of_drop h)]
  simp only [getD_of_drop h]
  rfl

/-- `skipName` passes the labels. -/
theorem skipName_wire {ls : List (List UInt8)} (hls : ∀ l ∈ ls, IsWireLabel l) :
    ∀ {ptr : Nat}, msg.drop ptr = wire ls ++ rest →
      skipName msg ptr = skipName msg (ptr + (wire ls).length) := by
  induction ls with
  | nil => exact fun _ => rfl
  | cons l ls ih =>
    intro ptr h
    rw [wire_cons, List.append_assoc] at h
    rw [skipName_label (hls l List.mem_cons_self) h,
      ih (fun l hl => hls l (List.mem_cons_of_mem _ hl)) (drop_label h), wire_cons,
      List.length_append, List.length_cons]
    congr 1
    omega

theorem drop_behind {w : List UInt8} (h : msg.drop ptr = w ++ rest) :
    msg.drop (ptr + w.length) = rest := by
  rw [← List.drop_drop, h, List.drop_left]

/-- `skipName` passes the labels and the root behind them. -/
theorem skipName_wire_root {ls : List (List UInt8)} (hls : ∀ l ∈ ls, IsWireLabel l)
    (h : msg.drop ptr = wire ls ++ 0 :: rest) :
    skipName msg ptr = some (ptr + (wire ls).length + 1) := by
  rw [skipName_wire hls h, skipName_root (drop_behind h)]

/-- A label is copied. -/
theorem copyTurn_label (namelen : Nat) (name : List UInt8) {b : UInt8} (hl : IsWireLabel l)
    (h : msg.drop ptr = UInt8.ofNat l.length :: l ++ b :: rest) (hfits : l.length + 1 ≤ namelen) :
    copyTurn msg ⟨ptr, namelen, name⟩ =
      if b ≠ 0 then .goes ⟨ptr + 1 + l.length, namelen - (l.length + 1), name ++ l ++ [dot]⟩
      else .returns (some (name ++ l)) := by
  have hcount := count_eq hl h
  have hbehind := drop_label h
  rw [← Nat.add_assoc] at hbehind
  have hend := lt_of_drop hbehind
  have hshort : l.length < 64 := Nat.lt_succ_of_le hl.2
  have hcopied : (msg.drop (ptr + 1)).take l.length = l := by
    rw [← List.drop_drop, h]
    exact List.take_left
  unfold copyTurn
  rw [if_pos (lt_of_drop h)]
  simp only [hcount, and_mask hshort, hcopied, getD_of_drop hbehind]
  rw [if_neg (by simp), if_neg (by omega), if_neg (by omega), if_neg (by omega)]

/-- `copyName` copies the labels with a dot between them. -/
theorem copies_wire {ls : List (List UInt8)} (hne : ls ≠ []) (hls : ∀ l ∈ ls, IsWireLabel l) :
    ∀ {ptr : Nat} (namelen : Nat) (name : List UInt8), msg.drop ptr = wire ls ++ 0 :: rest →
      (wire ls).length ≤ namelen →
      ∃ n last, iterated (copyNext msg) n ⟨ptr, namelen, name⟩ = some last ∧
        copyTurn msg last = .returns (some (name ++ joined dot ls)) := by
  induction ls with
  | nil => exact absurd rfl hne
  | cons l ls ih =>
    intro ptr namelen name h hlen
    have hl := hls l List.mem_cons_self
    rw [wire_cons, List.length_append, List.length_cons] at hlen
    rw [wire_cons, List.append_assoc] at h
    by_cases hnil : ls = []
    · subst hnil
      refine ⟨0, _, rfl, ?_⟩
      rw [joined_singleton, copyTurn_label _ _ hl h (by omega), if_neg (by simp)]
    · obtain ⟨l', ls', rfl⟩ := List.exists_cons_of_ne_nil hnil
      have hcount := (hls l' (List.mem_cons_of_mem _ List.mem_cons_self)).count_ne_zero
      have hturn := copyTurn_label namelen name hl h (by omega)
      rw [if_pos hcount] at hturn
      have hbehind := drop_label h
      rw [← Nat.add_assoc] at hbehind
      obtain ⟨n, last, hrun, hlast⟩ := ih hnil (fun l hl => hls l (List.mem_cons_of_mem _ hl))
        (namelen - (l.length + 1)) (name ++ l ++ [dot]) hbehind (by omega)
      refine ⟨n + 1, last, ?_, ?_⟩
      · rw [iterated_of_next (by rw [copyNext, hturn]), hrun]
      · rw [hlast, joined_cons _ hnil]
        simp

end Reading

/-! ## The query -/

theorem drop_queryHdr (id : Nat) (rest : List UInt8) : (queryHdr id ++ rest).drop hdrSize = rest :=
  rfl

theorem drop_query (id : Nat) (ls : List (List UInt8)) :
    (queryHdr id ++ (wire ls ++ [0]) ++ [0, 1, 0, 1]).drop hdrSize = wire ls ++ 0 :: [0, 1, 0, 1] := by
  rw [List.append_assoc, drop_queryHdr, List.append_assoc]
  rfl

theorem length_query (id : Nat) (ls : List (List UInt8)) :
    (queryHdr id ++ (wire ls ++ [0]) ++ [0, 1, 0, 1]).length = hdrSize + (wire ls).length + 1 + 4 := by
  simp only [queryHdr, hdrSize, List.length_append, List.length_cons, List.length_nil]
  omega

/-- The query for a name that is fit is read as its labels. -/
theorem copyReturns_a {id : Nat} {suffix hostName query : List UInt8}
    (h : a id suffix hostName = some query) :
    CopyReturns query hdrSize (some (undotted (fullName suffix hostName))) := by
  obtain ⟨ls, hfit, rfl⟩ := fit_of_a h
  have hshort := hfit.short
  obtain ⟨n, last, hrun, hlast⟩ := copies_wire hfit.some
    (fun l hl => (hfit.labels l hl).wire) nameMax [] (drop_query id ls) (by omega)
  exact ⟨n, last, hrun, by rw [hlast, hfit.name_eq, List.nil_append]⟩

/-- A name that is fit comes back without the dot that it ends in, and every other one is refused. -/
theorem nameRoundTrip (id : Nat) (suffix hostName : List UInt8) :
    NameRoundTrip undotted id suffix hostName where
  decodes query h := copyReturns_a h
  lands query h := by
    obtain ⟨ls, hfit, rfl⟩ := fit_of_a h
    rw [skipName_wire_root (fun l hl => (hfit.labels l hl).wire) (drop_query id ls), length_query]
    rfl
  short query h := by
    obtain ⟨ls, hfit, rfl⟩ := fit_of_a h
    have hshort := hfit.short
    have hmax : nameMax = 255 := rfl
    rw [length_query]
    omega
  refuses := by
    constructor
    · intro h
      by_contra hfit
      rw [a_of_fit (fit_of_not_unfit hfit)] at h
      cases h
    · intro hunfit
      cases h : a id suffix hostName with
      | none => rfl
      | some query =>
        obtain ⟨ls, hfit, -⟩ := fit_of_a h
        exact absurd hunfit hfit.not_unfit

theorem CopyReturns.unique {msg : List UInt8} {ptr : Nat} {name name' : Option (List UInt8)}
    (h : CopyReturns msg ptr name) (h' : CopyReturns msg ptr name') : name = name' := by
  obtain ⟨m, last, hrun, hlast⟩ := h
  obtain ⟨n, last', hrun', hlast'⟩ := h'
  have heq := iterated_last_unique hrun (by rw [copyNext, hlast]) hrun' (by rw [copyNext, hlast'])
  rw [heq, hlast'] at hlast
  exact (CopyTurn.returns.inj hlast).symm

/-- `"a."` comes back as `"a"`. -/
theorem not_nameRoundTrip_dot : ¬ NameRoundTrip id 0 [] [97, dot] := by
  intro h
  have hfit : Fit (fullName [] [97, dot]) [[97]] :=
    ⟨by decide, fun l hl => List.mem_singleton.mp hl ▸ ⟨by decide, by decide, by decide⟩, by decide,
      by decide⟩
  have hquery : a 0 [] [97, dot] = _ := a_of_fit hfit
  have heq := (h.decodes _ hquery).unique (copyReturns_a hquery)
  exact absurd heq (by decide)

end EsOs.Net.Resolver
