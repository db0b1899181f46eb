import Mathlib.Data.List.DropRight
import Mathlib.Data.List.Nodup

/-!
# HTTP headers

`HttpHeaderList` of `escort/src/http/HTTPHeader.cpp` and what it uses of
`escort/src/http/HTTPUtil.cpp`: a list of named values, the parser of one header line and of a whole
header, and its text. No two headers of a list have names that are equal up to case.

A text is a list of octets; a `char` is signed. What a pointer finds at `end` and behind is
`behind`, and what `tokenCharMap` seems to hold for a negative index is `before`.
-/

namespace EsOs.Escort

/-- The octets of a text. -/
abbrev Octets := List UInt8

def LF : UInt8 := 0x0a
def CR : UInt8 := 0x0d
def COLON : UInt8 := 0x3a

/-- `isLWS` (`HTTPUtil.h:28-31`). -/
def isLWS (c : UInt8) : Bool :=
  c == LF || c == CR || c == 0x09 || c == 0x20

/-- `trimLWS` (`HTTPUtil.cpp:69-87`). -/
def trimLWS (v : Octets) : Octets :=
  (v.dropWhile isLWS).rdropWhile isLWS

/-- `tokenCharMap` (`HTTPUtil.cpp:30-47`), by rows of 16. -/
def tokenCharMap : List Bool :=
  ([[0, 0, 0, 0, 0, 0, 0, 0, 0, 0, 0, 0, 0, 0, 0, 0],
    [0, 0, 0, 0, 0, 0, 0, 0, 0, 0, 0, 0, 0, 0, 0, 0],
    [0, 1, 0, 1, 1, 1, 1, 1, 0, 0, 1, 1, 0, 1, 1, 0],
    [1, 1, 1, 1, 1, 1, 1, 1, 1, 1, 0, 0, 0, 0, 0, 0],
    [0, 1, 1, 1, 1, 1, 1, 1, 1, 1, 1, 1, 1, 1, 1, 1],
    [1, 1, 1, 1, 1, 1, 1, 1, 1, 1, 1, 0, 0, 0, 1, 1],
    [1, 1, 1, 1, 1, 1, 1, 1, 1, 1, 1, 1, 1, 1, 1, 1],
    [1, 1, 1, 1, 1, 1, 1, 1, 1, 1, 1, 0, 1, 0, 1, 0]].flatten).map (· == 1)

/-- `isTokenChar` (`HTTPUtil.cpp:129-132`). -/
def isTokenChar (before : UInt8 → Bool) (c : UInt8) : Bool :=
  if c.toNat < 128 then tokenCharMap.getD c.toNat false else before c

/-- `isValidToken` (`HTTPUtil.cpp:134-143`). -/
def isValidToken (before : UInt8 → Bool) (name : Octets) : Bool :=
  !name.isEmpty && name.all (isTokenChar before)

/-- `tolower` of the C locale. -/
def tolower (c : UInt8) : UInt8 :=
  if 0x41 ≤ c ∧ c ≤ 0x5a then c + 0x20 else c

/-- What `strcasecmp` compares of a `std::string`'s `c_str`. -/
def folded (s : Octets) : Octets :=
  (s.takeWhile (· ≠ 0)).map tolower

/-- `HttpHeader` (`HTTPHeader.h:26-40`). -/
structure HttpHeader where
  header : Octets
  value : Octets
deriving DecidableEq, Repr

/-- `HttpHeader::operator==` (`HTTPHeader.h:37-39`). -/
def HttpHeader.named (name : Octets) (h : HttpHeader) : Bool :=
  folded h.header == folded name

/-- The octets of an ASCII text. -/
def ascii (s : String) : Octets :=
  s.toList.map Char.toUInt8

/-- `canCommaSeparated` (`HTTPHeader.cpp:31-64`). -/
def canCommaSeparated (header : Octets) : Bool :=
  ["Accept", "Accept-Charset", "Accept-Encoding", "Accept-Language", "Accept-Ranges", "Allow",
    "Cache-Control", "Connection", "Content-Encoding", "Content-Language", "Expect", "If-Match",
    "If-None-Match", "Pragma", "TE", "Trailer", "Transfer-Encoding", "Upgrade", "Vary", "Via",
    "Warning"].any fun name => folded (ascii name) == folded header

/-- The names differ, also when case is ignored. -/
def DistinctNames (l : List HttpHeader) : Prop :=
  (l.map fun h => folded h.header).Nodup

/-- `HttpHeaderList::set` (`HTTPHeader.cpp:89-107`) on the `deque`. -/
def setHeader (l : List HttpHeader) (header value : Octets) (merge : Bool) : List HttpHeader :=
  let v := trimLWS value
  match l.findIdx? (HttpHeader.named header) with
  | none => if v = [] then l else l ++ [⟨header, v⟩]
  | some i =>
    if v = [] then if merge then l else l.eraseIdx i
    else if merge ∧ canCommaSeparated header then
      l.modify i fun h => { h with value := h.value ++ ascii ", " ++ v }
    else l.modify i fun h => { h with value := v }

theorem DistinctNames.modify {l : List HttpHeader} (h : DistinctNames l) (i : Nat)
    {f : HttpHeader → HttpHeader} (hf : ∀ x, (f x).header = x.header) :
    DistinctNames (l.modify i f) := by
  have hmap : (l.modify i f).map (fun h => folded h.header) = l.map fun h => folded h.header := by
    apply List.ext_getElem? fun j => ?_
    rw [List.getElem?_map, List.getElem?_map, List.getElem?_modify]
    cases l[j]? with
    | none => rfl
    | some x =>
      simp only [Option.map_eq_map, Option.map_some]
      split
      · rw [hf]
      · rfl
  rw [DistinctNames, hmap]
  exact h

theorem DistinctNames.setHeader {l : List HttpHeader} (h : DistinctNames l)
    (header value : Octets) (merge : Bool) : DistinctNames (setHeader l header value merge) := by
  unfold Escort.setHeader
  rcases hfind : l.findIdx? (HttpHeader.named header) with - | i
  · simp only
    split
    · exact h
    · rw [DistinctNames, List.map_append, List.map_singleton, List.nodup_append_comm,
        List.singleton_append, List.nodup_cons]
      refine ⟨fun hmem => ?_, h⟩
      obtain ⟨a, ha, hname⟩ := List.mem_map.mp hmem
      simpa [HttpHeader.named, hname] using List.findIdx?_eq_none_iff.mp hfind a ha
  · simp only
    split
    · split
      · exact h
      · exact h.sublist ((List.eraseIdx_sublist ..).map _)
    split
    · exact h.modify i fun _ => rfl
    · exact h.modify i fun _ => rfl

/-- `HttpHeaderList` (`HTTPHeader.h:42-75`). -/
structure HttpHeaderList where
  headers : List HttpHeader
  distinct : DistinctNames headers

namespace HttpHeaderList

@[ext] theorem ext {l l' : HttpHeaderList} (h : l.headers = l'.headers) : l = l' := by
  cases l
  cases l'
  cases h
  rfl

/-- The list of the constructor. -/
def empty : HttpHeaderList := ⟨[], List.nodup_nil⟩

/-- `HttpHeaderList::set` (`HTTPHeader.cpp:89-107`). -/
def set (l : HttpHeaderList) (header value : Octets) (merge : Bool) : HttpHeaderList :=
  ⟨setHeader l.headers header value merge, l.distinct.setHeader header value merge⟩

/-- The loop of `parseLine` that looks for the end of the value, from the octet `c` at `eol`
    backwards over those before it (`HTTPHeader.cpp:138-144`): the value from its end on. -/
def valueLoop : UInt8 → Octets → Octets
  | _, [] => []
  | c, d :: rest => if isLWS c then valueLoop d rest else c :: d :: rest

/-- `HttpHeaderList::parseLine` (`HTTPHeader.cpp:109-149`): how far `start` gets, the list, and the
    header read; nothing where the result is null. -/
def parseLine (before : UInt8 → Bool) (behind : Nat → UInt8) (l : HttpHeaderList)
    (input : Octets) : Option (Nat × HttpHeaderList × HttpHeader) :=
  let name := input.takeWhile (· ≠ COLON)
  match input.dropWhile (· ≠ COLON) with
  | [] => none
  | _ :: rest =>
    if !isValidToken before name then none
    else
      let field := rest.dropWhile isLWS
      let text := field.takeWhile (· ≠ LF)
      let eol := field.dropWhile (· ≠ LF)
      if eol.headD (behind 0) ≠ LF then none
      else
        let value := (valueLoop LF text.reverse).reverse
        some (input.length - eol.length + 1, l.set name value false, ⟨name, value⟩)

theorem parseLine_pos {before : UInt8 → Bool} {behind : Nat → UInt8} {l l' : HttpHeaderList}
    {input : Octets} {n : Nat} {h : HttpHeader}
    (hline : parseLine before behind l input = some (n, l', h)) : 0 < n := by
  unfold parseLine at hline
  split at hline
  · cases hline
  simp only at hline
  split at hline
  · cases hline
  split at hline
  · cases hline
  cases hline
  exact Nat.succ_pos _

/-- `parseCRLF` (`HTTPUtil.cpp:317-329`). -/
def parseCRLF (input : Octets) : Octets :=
  input.dropWhile (· = CR)

/-- `HttpHeaderList::parse` (`HTTPHeader.cpp:151-161`): the result and the list. -/
def parse (before : UInt8 → Bool) (behind : Nat → UInt8) (l : HttpHeaderList) (input : Octets) :
    Bool × HttpHeaderList :=
  if input = [] then (false, l)
  else
    match hline : parseLine before behind l input with
    | none => (false, l)
    | some (n, l', _) =>
      let rest := parseCRLF (input.drop n)
      if rest.headD (behind (n - input.length)) = LF then (true, l')
      else parse before behind l' rest
termination_by input.length
decreasing_by
  have hpos := parseLine_pos hline
  have hle : (parseCRLF (input.drop n)).length ≤ (input.drop n).length :=
    (List.dropWhile_sublist _).length_le
  have hne : 0 < input.length := List.length_pos_of_ne_nil ‹_›
  rw [List.length_drop] at hle
  omega

/-- `HttpHeaderList::toString` (`HTTPHeader.cpp:163-170`). -/
def toString (l : HttpHeaderList) : Octets :=
  l.headers.flatMap fun h => h.header ++ ascii ": " ++ h.value ++ ascii "\r\n"

end HttpHeaderList

end EsOs.Escort
