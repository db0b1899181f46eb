import EsOs.Escort.HttpHeader

/-!
# What a header line stores

The scan for the end of a value starts at the line feed and stops where it meets the start of the
value, before it looks at the octet there: a value of one octet is lost. Every longer value is found.
-/

namespace EsOs.Escort

variable {before : UInt8 → Bool} {behind : Nat → UInt8} {name value text rest : Octets}

/-- A token as it is written in the grammar of HTTP. -/
def IsToken (name : Octets) : Prop :=
  name ≠ [] ∧ ∀ c ∈ name, c.toNat < 128 ∧ tokenCharMap.getD c.toNat false = true

/-- A value without line breaks and without white space around it. -/
structure IsValue (value : Octets) : Prop where
  nonempty : value ≠ []
  noBreak : ∀ c ∈ value, c ≠ LF ∧ c ≠ CR
  head : ∀ c ∈ value.head?, isLWS c = false
  last : ∀ c ∈ value.getLast?, isLWS c = false

theorem IsToken.isValidToken (h : IsToken name) : isValidToken before name = true := by
  obtain ⟨hne, hall⟩ := h
  rw [Escort.isValidToken, Bool.and_eq_true]
  refine ⟨by simpa using hne, List.all_eq_true.mpr fun c hc => ?_⟩
  obtain ⟨hlt, hmap⟩ := hall c hc
  rw [isTokenChar, if_pos hlt, hmap]

theorem tokenChar_ne : ∀ n < 128, tokenCharMap.getD n false = true →
    n ≠ COLON.toNat ∧ n ≠ LF.toNat ∧ n ≠ CR.toNat := by
  decide +kernel

theorem IsToken.ne (h : IsToken name) {c : UInt8} (hc : c ∈ name) :
    c ≠ COLON ∧ c ≠ LF ∧ c ≠ CR := by
  obtain ⟨hlt, hmap⟩ := h.2 c hc
  obtain ⟨hcolon, hlf, hcr⟩ := tokenChar_ne _ hlt hmap
  exact ⟨fun he => hcolon (he ▸ rfl), fun he => hlf (he ▸ rfl), fun he => hcr (he ▸ rfl)⟩

/-! ## The scans -/

theorem takeWhile_append_stop {p : UInt8 → Bool} {l : Octets} {c : UInt8} (h : ∀ x ∈ l, p x = true)
    (hc : p c = false) (rest : Octets) : (l ++ c :: rest).takeWhile p = l := by
  rw [List.takeWhile_append_of_pos h, List.takeWhile_cons_of_neg (by simp [hc]), List.append_nil]

theorem dropWhile_append_stop {p : UInt8 → Bool} {l : Octets} {c : UInt8} (h : ∀ x ∈ l, p x = true)
    (hc : p c = false) (rest : Octets) : (l ++ c :: rest).dropWhile p = c :: rest := by
  rw [List.dropWhile_append_of_pos h, List.dropWhile_cons_of_neg (by simp [hc])]

/-- What the loop finds: white space is passed, and a single octet is not looked at. -/
theorem valueLoop_eq {c : UInt8} (hc : isLWS c = true) (rev : Octets) :
    HttpHeaderList.valueLoop c rev =
      if (rev.dropWhile isLWS).length ≤ 1 then [] else rev.dropWhile isLWS := by
  induction rev generalizing c with
  | nil => rfl
  | cons d rev ih =>
    rw [HttpHeaderList.valueLoop, if_pos hc]
    by_cases hd : isLWS d = true
    · rw [ih hd, List.dropWhile_cons_of_pos hd]
    · rw [List.dropWhile_cons_of_neg hd]
      cases rev with
      | nil => rfl
      | cons e rev =>
        rw [HttpHeaderList.valueLoop, if_neg hd, if_neg (by simp)]

/-- The value that a line's text is read as. -/
theorem valueLoop_reverse (text : Octets) :
    (HttpHeaderList.valueLoop LF text.reverse).reverse =
      if (text.rdropWhile isLWS).length ≤ 1 then [] else text.rdropWhile isLWS := by
  rw [valueLoop_eq (by decide), List.rdropWhile, List.length_reverse]
  split <;> simp

theorem trimLWS_eq_nil : trimLWS text = [] ↔ text.dropWhile isLWS = [] := by
  rw [trimLWS, List.rdropWhile_eq_nil_iff]
  refine ⟨fun hall => ?_, fun h => by simp [h]⟩
  by_contra hne
  have hhead := List.head_dropWhile_not isLWS hne
  rw [hall _ (List.head_mem hne)] at hhead
  cases hhead

/-! ## A line -/

namespace HttpHeaderList

/-- The line is passed, and what is stored is the text behind the colon without white space around
    it. -/
def StoresLine (before : UInt8 → Bool) (behind : Nat → UInt8) (l : HttpHeaderList)
    (name text rest : Octets) : Prop :=
  parseLine before behind l (name ++ COLON :: (text ++ LF :: rest)) =
    some (name.length + text.length + 2, l.set name (trimLWS text) false, ⟨name, trimLWS text⟩)

variable {l : HttpHeaderList}

/-- What the parser does with the rest of a line behind a name. -/
theorem parseLine_name (hname : IsToken name) (rest : Octets) :
    parseLine before behind l (name ++ COLON :: rest) =
      let field := rest.dropWhile isLWS
      let text := field.takeWhile (· ≠ LF)
      let eol := field.dropWhile (· ≠ LF)
      if eol.headD (behind 0) ≠ LF then none
      else
        let value := (valueLoop LF text.reverse).reverse
        some ((name ++ COLON :: rest).length - eol.length + 1, l.set name value false,
          ⟨name, value⟩) := by
  have hstop : ∀ x ∈ name, decide (x ≠ COLON) = true := fun x hx =>
    decide_eq_true (hname.ne hx).1
  rw [parseLine, takeWhile_append_stop hstop (by decide), dropWhile_append_stop hstop (by decide)]
  simp only [hname.isValidToken, Bool.not_true, Bool.false_eq_true, if_false]

/-- A line whose text is not only white space. -/
theorem parseLine_text (hname : IsToken name) (htext : ∀ c ∈ text, c ≠ LF)
    (hne : trimLWS text ≠ []) :
    let value := if (trimLWS text).length ≤ 1 then [] else trimLWS text
    parseLine before behind l (name ++ COLON :: (text ++ LF :: rest)) =
      some (name.length + text.length + 2, l.set name value false, ⟨name, value⟩) := by
  have hfield : (text ++ LF :: rest).dropWhile isLWS = text.dropWhile isLWS ++ LF :: rest := by
    rw [List.dropWhile_append, if_neg]
    simpa using trimLWS_eq_nil.not.mp hne
  have hstop : ∀ x ∈ text.dropWhile isLWS, decide (x ≠ LF) = true := fun x hx =>
    decide_eq_true (htext x ((List.dropWhile_sublist _).subset hx))
  rw [parseLine_name hname]
  simp only
  rw [hfield, takeWhile_append_stop hstop (by decide), dropWhile_append_stop hstop (by decide),
    valueLoop_reverse, if_neg (by simp)]
  simp only [List.length_append, List.length_cons, Option.some.injEq, Prod.mk.injEq]
  exact ⟨by omega, rfl, rfl⟩

/-- A line whose text is only white space is not the only one that is passed. -/
theorem parseLine_blank (hname : IsToken name) (hblank : trimLWS text = [])
    {n : Nat} {l' : HttpHeaderList} {h : HttpHeader}
    (hline : parseLine before behind l (name ++ COLON :: (text ++ LF :: rest)) = some (n, l', h)) :
    name.length + text.length + 2 < n := by
  rw [parseLine_name hname] at hline
  simp only at hline
  split at hline
  · cases hline
  cases hline
  have hfield : (text ++ LF :: rest).dropWhile isLWS = rest.dropWhile isLWS := by
    rw [List.dropWhile_append, trimLWS_eq_nil.mp hblank]
    rfl
  have hle : ((rest.dropWhile isLWS).dropWhile (· ≠ LF)).length ≤ rest.length :=
    ((List.dropWhile_sublist _).trans (List.dropWhile_sublist _)).length_le
  rw [hfield]
  simp only [List.length_append, List.length_cons]
  omega

/-- A line is stored if and only if two octets are left of its text. -/
theorem storesLine_iff (hname : IsToken name) (htext : ∀ c ∈ text, c ≠ LF) :
    StoresLine before behind l name text rest ↔ 2 ≤ (trimLWS text).length := by
  rw [StoresLine]
  constructor
  · intro h
    by_cases hblank : trimLWS text = []
    · have := parseLine_blank hname hblank h
      omega
    · rw [parseLine_text hname htext hblank] at h
      have hvalue := congrArg HttpHeader.value (Prod.mk.inj (Prod.mk.inj (Option.some.inj h)).2).2
      simp only at hvalue
      split at hvalue
      · exact absurd hvalue.symm hblank
      · omega
  · intro h
    have hne : trimLWS text ≠ [] := fun hnil => by simp [hnil] at h
    rw [parseLine_text hname htext hne]
    simp only [show ¬ (trimLWS text).length ≤ 1 by omega, if_false]

/-! ## A header -/

theorem parse_of_line {input : Octets} {n : Nat} {l' : HttpHeaderList} {h : HttpHeader}
    (hne : input ≠ []) (hline : parseLine before behind l input = some (n, l', h)) :
    parse before behind l input =
      let rest := parseCRLF (input.drop n)
      if rest.headD (behind (n - input.length)) = LF then (true, l')
      else parse before behind l' rest := by
  rw [parse, if_neg hne]
  split
  · rename_i hnone
    rw [hline] at hnone
    cases hnone
  · rename_i hsome
    rw [hline] at hsome
    cases hsome
    rfl

theorem parse_of_none {input : Octets} (hne : input ≠ [])
    (hline : parseLine before behind l input = none) :
    parse before behind l input = (false, l) := by
  rw [parse, if_neg hne]
  split
  · rfl
  · rename_i hsome
    rw [hline] at hsome
    cases hsome

/-- A line that `toString` writes. -/
def line (h : HttpHeader) : Octets :=
  h.header ++ ascii ": " ++ h.value ++ ascii "\r\n"

/-- The empty line behind a header. -/
def emptyLine : Octets := [CR, LF]

theorem line_append (h : HttpHeader) (rest : Octets) :
    line h ++ rest = h.header ++ COLON :: ((0x20 :: (h.value ++ [CR])) ++ LF :: rest) := by
  have hsep : ascii ": " = [COLON, 0x20] := by decide
  have hend : ascii "\r\n" = [CR, LF] := by decide
  simp [line, hsep, hend]

/-- The text of a line that `toString` writes is the value and white space around it. -/
theorem trimLWS_line (hvalue : IsValue value) : trimLWS (0x20 :: (value ++ [CR])) = value := by
  obtain ⟨c, cs, rfl⟩ := List.exists_cons_of_ne_nil hvalue.nonempty
  have hhead : isLWS c = false := hvalue.head c rfl
  rw [trimLWS, List.dropWhile_cons_of_pos (by decide), List.cons_append,
    List.dropWhile_cons_of_neg (by simp [hhead]), ← List.cons_append,
    List.rdropWhile_concat_pos _ _ _ (by decide), List.rdropWhile_eq_self_iff]
  intro hne
  rw [hvalue.last _ (List.getLast?_eq_some_getLast hne)]
  exact Bool.false_ne_true

theorem trimLWS_value (hvalue : IsValue value) : trimLWS value = value := by
  obtain ⟨c, cs, rfl⟩ := List.exists_cons_of_ne_nil hvalue.nonempty
  have hhead : isLWS c = false := hvalue.head c rfl
  rw [trimLWS, List.dropWhile_cons_of_neg (by simp [hhead]), List.rdropWhile_eq_self_iff]
  intro hne
  rw [hvalue.last _ (List.getLast?_eq_some_getLast hne)]
  exact Bool.false_ne_true

/-- A value of a new name is added, unless it is empty. -/
theorem set_new {h : HttpHeader} (hvalue : trimLWS h.value = h.value)
    (hnew : ∀ a ∈ l.headers, folded a.header ≠ folded h.header) :
    (l.set h.header h.value false).headers =
      if h.value = [] then l.headers else l.headers ++ [h] := by
  have hnone : l.headers.findIdx? (HttpHeader.named h.header) = none :=
    List.findIdx?_eq_none_iff.mpr fun a ha => by simpa [HttpHeader.named] using hnew a ha
  unfold set setHeader
  simp only [hnone, hvalue]

/-- A line that `toString` writes is passed, and its header is added if its value is longer than one
    octet. -/
theorem parseLine_line {h : HttpHeader} (hname : IsToken h.header) (hvalue : IsValue h.value)
    (hnew : ∀ a ∈ l.headers, folded a.header ≠ folded h.header) (rest : Octets) :
    ∃ l' h', parseLine before behind l (line h ++ rest) = some ((line h).length, l', h') ∧
      l'.headers = l.headers ++ [h].filter fun h => 1 < h.value.length := by
  have htext : ∀ c ∈ (0x20 : UInt8) :: (h.value ++ [CR]), c ≠ LF := by
    intro c hc
    rcases List.mem_cons.mp hc with rfl | hc
    · decide
    · rcases List.mem_append.mp hc with hc | hc
      · exact (hvalue.noBreak c hc).1
      · obtain rfl := List.mem_singleton.mp hc
        decide
  have hlen : (line h).length = h.header.length + ((0x20 : UInt8) :: (h.value ++ [CR])).length + 2 := by
    have := congrArg List.length (line_append h [])
    simpa [Nat.add_assoc] using this
  have hne : trimLWS (0x20 :: (h.value ++ [CR])) ≠ [] := by
    rw [trimLWS_line hvalue]
    exact hvalue.nonempty
  rw [line_append, hlen, parseLine_text hname htext hne, trimLWS_line hvalue]
  refine ⟨_, _, rfl, ?_⟩
  by_cases hone : h.value.length ≤ 1
  · have hset : (l.set h.header [] false).headers = l.headers :=
      (set_new (h := ⟨h.header, []⟩) rfl hnew).trans (if_pos rfl)
    rw [if_pos hone, hset, List.filter_cons_of_neg (by simpa using hone), List.filter_nil,
      List.append_nil]
  · have hset : (l.set h.header h.value false).headers = l.headers ++ [h] :=
      (set_new (trimLWS_value hvalue) hnew).trans (if_neg hvalue.nonempty)
    rw [if_neg hone, hset, List.filter_cons_of_pos (by simpa using hone), List.filter_nil]

/-- The text of some headers and the empty line, behind the headers of a list. -/
theorem parse_lines {hs : List HttpHeader} (hne : hs ≠ [])
    (hall : ∀ h ∈ hs, IsToken h.header ∧ IsValue h.value) {l : HttpHeaderList}
    (hdistinct : DistinctNames (l.headers ++ hs)) :
    (parse before behind l (hs.flatMap line ++ emptyLine)).1 = true ∧
      (parse before behind l (hs.flatMap line ++ emptyLine)).2.headers =
        l.headers ++ hs.filter fun h => 1 < h.value.length := by
  induction hs generalizing l with
  | nil => exact absurd rfl hne
  | cons h hs ih =>
    obtain ⟨hname, hvalue⟩ := hall h List.mem_cons_self
    have hnew : ∀ a ∈ l.headers, folded a.header ≠ folded h.header := by
      intro a ha
      rw [DistinctNames, List.map_append, List.nodup_append] at hdistinct
      exact hdistinct.2.2 _ (List.mem_map_of_mem ha) _ (List.mem_map_of_mem List.mem_cons_self)
    obtain ⟨l', h', hline, hheaders⟩ := parseLine_line hname hvalue hnew
      (hs.flatMap line ++ emptyLine)
    have hinput : line h ++ (hs.flatMap line ++ emptyLine) ≠ [] := by simp [emptyLine]
    rw [List.flatMap_cons, List.append_assoc, parse_of_line hinput hline]
    simp only [List.drop_left]
    cases hs with
    | nil =>
      have hend : parseCRLF (List.flatMap line [] ++ emptyLine) = [LF] := by decide
      simp only [hend, List.headD_cons, if_true]
      exact ⟨trivial, hheaders⟩
    | cons h2 hs =>
      obtain ⟨hname2, -⟩ := hall h2 (.tail _ List.mem_cons_self)
      obtain ⟨c, cs, hc⟩ := List.exists_cons_of_ne_nil hname2.1
      obtain ⟨-, hlf, hcr⟩ := hname2.ne (hc ▸ List.mem_cons_self : c ∈ h2.header)
      have hkept : parseCRLF ((h2 :: hs).flatMap line ++ emptyLine) =
          (h2 :: hs).flatMap line ++ emptyLine := by
        rw [List.flatMap_cons, List.append_assoc, line_append, hc]
        exact List.dropWhile_cons_of_neg (by simpa using hcr)
      have hhead : ((h2 :: hs).flatMap line ++ emptyLine).headD
          (behind ((line h).length - (line h ++ ((h2 :: hs).flatMap line ++ emptyLine)).length)) ≠
            LF := by
        rw [List.flatMap_cons, List.append_assoc, line_append, hc]
        exact hlf
      have hrest : DistinctNames (l'.headers ++ h2 :: hs) := by
        refine List.Nodup.sublist (List.Sublist.map _ ?_) hdistinct
        rw [hheaders, List.append_assoc]
        exact ((List.filter_sublist (l := [h])).append_right (h2 :: hs)).append_left l.headers
      rw [hkept, if_neg hhead]
      obtain ⟨hresult, hlist⟩ := ih (List.cons_ne_nil _ _)
        (fun x hx => hall x (.tail _ hx)) hrest
      refine ⟨hresult, ?_⟩
      rw [hlist, hheaders, List.append_assoc, ← List.filter_append, List.singleton_append]

/-- Parsing the text of the list, followed by an empty line, yields the list. -/
def RoundTrips (l : HttpHeaderList) : Prop :=
  ∀ before behind, (parse before behind empty (l.toString ++ emptyLine)).2 = l

/-- What is read back are the headers whose value is longer than one octet. -/
theorem parse_toString (before : UInt8 → Bool) (behind : Nat → UInt8) (l : HttpHeaderList)
    (hall : ∀ h ∈ l.headers, IsToken h.header ∧ IsValue h.value) :
    (parse before behind empty (l.toString ++ emptyLine)).2.headers =
      l.headers.filter fun h => 1 < h.value.length := by
  have htext : l.toString = l.headers.flatMap line := rfl
  have hdistinct : DistinctNames (empty.headers ++ l.headers) := l.distinct
  rw [htext]
  by_cases hne : l.headers = []
  · have hempty : parse before behind empty emptyLine = (false, empty) :=
      parse_of_none (List.cons_ne_nil _ _) rfl
    rw [hne, List.flatMap_nil, List.nil_append, hempty]
    rfl
  · rw [(parse_lines hne hall hdistinct).2]
    rfl

/-- The list comes back, and a line is stored, if and only if every value has two octets. -/
theorem roundTrips_iff (l : HttpHeaderList) (before : UInt8 → Bool) (behind : Nat → UInt8)
    (name text rest : List UInt8) :
    ((∀ h ∈ l.headers, IsToken h.header ∧ IsValue h.value) →
      (RoundTrips l ↔ ∀ h ∈ l.headers, 2 ≤ h.value.length)) ∧
    (IsToken name → (∀ c ∈ text, c ≠ LF) →
      (StoresLine before behind l name text rest ↔ 2 ≤ (trimLWS text).length)) := by
  refine ⟨fun hall => ?_, storesLine_iff⟩
  have hiff : l.headers.filter (fun h => 1 < h.value.length) = l.headers ↔
      ∀ h ∈ l.headers, 2 ≤ h.value.length := by
    rw [List.filter_eq_self]
    simp [Nat.succ_le_iff]
  rw [← hiff]
  constructor
  · intro h
    rw [← parse_toString (fun _ => false) (fun _ => 0) l hall, h]
  · intro h before behind
    exact HttpHeaderList.ext ((parse_toString before behind l hall).trans h)

/-- A list of one header. -/
def single (header value : String) : HttpHeaderList :=
  ⟨[⟨ascii header, ascii value⟩], List.nodup_singleton _⟩

theorem single_legal {header value : String} (hname : IsToken (ascii header))
    (hvalue : IsValue (ascii value)) :
    ∀ h ∈ (single header value).headers, IsToken h.header ∧ IsValue h.value := by
  intro h hh
  obtain rfl := List.mem_singleton.mp hh
  exact ⟨hname, hvalue⟩

theorem close_legal : ∀ h ∈ (single "Connection" "close").headers,
    IsToken h.header ∧ IsValue h.value :=
  single_legal ⟨by decide +kernel, by decide +kernel⟩
    ⟨by decide +kernel, by decide +kernel, by decide +kernel, by decide +kernel⟩

theorem roundTrips_close : RoundTrips (single "Connection" "close") ∧
    StoresLine (fun _ => false) (fun _ => 0) empty (ascii "Allow") (ascii " GET \r") [] := by
  constructor
  · exact ((roundTrips_iff _ (fun _ => false) (fun _ => 0) [] [] []).1 close_legal).mpr
      (by decide +kernel)
  · exact ((roundTrips_iff _ _ _ _ _ _).2 ⟨by decide +kernel, by decide +kernel⟩
      (by decide +kernel)).mpr (by decide +kernel)

/-- A value of one octet. -/
theorem not_roundTrips_oneOctet :
    (∀ h ∈ (single "Age" "5").headers, IsToken h.header ∧ IsValue h.value) ∧
      ¬ RoundTrips (single "Age" "5") := by
  have hlegal : ∀ h ∈ (single "Age" "5").headers, IsToken h.header ∧ IsValue h.value :=
    single_legal ⟨by decide +kernel, by decide +kernel⟩
      ⟨by decide +kernel, by decide +kernel, by decide +kernel, by decide +kernel⟩
  refine ⟨hlegal, fun h => ?_⟩
  have hlist := parse_toString (fun _ => false) (fun _ => 0) (single "Age" "5") hlegal
  rw [h] at hlist
  revert hlist
  decide +kernel

end HttpHeaderList

end EsOs.Escort
