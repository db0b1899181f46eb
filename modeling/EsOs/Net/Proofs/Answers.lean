import EsOs.Net.HostName
import EsOs.Net.Proofs.HostName

/-!
# Which record of a response is taken

`resolve` steps over every record by its name and its data. `getHostName` does so for the name only,
and the next turn reads the fields of the record as a name.
-/

namespace EsOs.Net.Resolver

open EsOs.Lib EsOs.Digits

section Fields

variable {msg rest : List UInt8} {i n : Nat}

theorem length_bytes16 (n : Nat) : (bytes16 n).length = 2 := rfl

/-- A number is read as it was sent. -/
theorem be16_of_drop (hn : n < 65536) (h : msg.drop i = bytes16 n ++ rest) : be16 msg i = n := by
  have hlow : msg.drop (i + 1) = UInt8.ofNat n :: rest := by
    rw [← List.drop_drop, h]
    rfl
  rw [be16, getD_of_drop h, getD_of_drop hlow, UInt8.toNat_ofNat', UInt8.toNat_ofNat']
  omega

theorem length_of_drop {w : List UInt8} (h : msg.drop i = w ++ rest) :
    i ≤ msg.length ∨ w ++ rest = [] := by
  by_cases hi : i ≤ msg.length
  · exact .inl hi
  · rw [List.drop_eq_nil_of_le (by omega)] at h
    exact .inr h.symm

theorem length_eq_of_drop {w : List UInt8} (hne : w ≠ []) (h : msg.drop i = w ++ rest) :
    msg.length = i + (w.length + rest.length) := by
  have hlen := congrArg List.length h
  have hpos := List.length_pos_iff.mpr hne
  rw [List.length_drop, List.length_append] at hlen
  omega

end Fields

/-! ## Names of records -/

theorem and_mask_pointer {count : Nat} (h : 192 ≤ count) (hlt : count < 256) :
    count &&& 0xc0 = 0xc0 := by
  have hall : ∀ c : Fin 64, (192 + c.val) &&& 0xc0 = 0xc0 := by decide +kernel
  have hthis := hall ⟨count - 192, by omega⟩
  rwa [show 192 + (count - 192) = count by omega] at hthis

section Names

variable {msg rest : List UInt8} {ptr : Nat}

theorem skipName_pointer {p q : UInt8} (hp : 192 ≤ p.toNat) (h : msg.drop ptr = p :: q :: rest) :
    skipName msg ptr = some (ptr + 2) := by
  have hlen := length_eq_of_drop (w := [p, q]) (List.cons_ne_nil _ _) h
  have hmask := and_mask_pointer hp p.toNat_lt
  rw [skipName, if_pos (lt_of_drop h)]
  simp only [getD_of_drop h, hmask]
  rw [if_neg (by omega), if_pos (by decide), if_neg (by decide), Nat.min_eq_left]
  simp only [List.length_cons, List.length_nil] at hlen
  omega

theorem skipName_name {name : List UInt8} (hname : IsName name) (h : msg.drop ptr = name ++ rest) :
    skipName msg ptr = some (ptr + name.length) := by
  obtain ⟨ls, tail, rfl, hls, htail⟩ := hname
  rw [List.append_assoc] at h
  have hbehind := drop_behind h
  rw [skipName_wire hls h, List.length_append, ← Nat.add_assoc]
  rcases htail with rfl | ⟨p, q, rfl, hp⟩
  · exact skipName_root hbehind
  · exact skipName_pointer hp hbehind

/-- A pointer is followed. -/
theorem copyTurn_pointer {namelen : Nat} {name : List UInt8} {p q : UInt8} (hp : 192 ≤ p.toNat)
    (h : msg.drop ptr = p :: q :: rest) :
    copyTurn msg ⟨ptr, namelen, name⟩ =
      .goes ⟨(p.toNat - 192) * 256 + q.toNat, namelen, name⟩ := by
  have hlen := length_eq_of_drop (w := [p, q]) (List.cons_ne_nil _ _) h
  have hmask := and_mask_pointer hp p.toNat_lt
  have hnext : msg.drop (ptr + 1) = q :: rest := by
    rw [← List.drop_drop, h]
    rfl
  have htarget : be16 msg ptr % 0x4000 = (p.toNat - 192) * 256 + q.toNat := by
    have hplt := p.toNat_lt
    have hqlt := q.toNat_lt
    rw [be16, getD_of_drop h, getD_of_drop hnext]
    omega
  simp only [List.length_cons, List.length_nil] at hlen
  unfold copyTurn
  rw [if_pos (lt_of_drop h)]
  simp only [getD_of_drop h, hmask, htarget]
  rw [if_pos (by decide), if_neg (by decide), if_neg (by omega)]

theorem DirectNameAt.starts {ls : List (List UInt8)} (h : DirectNameAt msg ptr ls) :
    ls ≠ [] ∧ ∃ b rest, msg.drop ptr = b :: rest ∧ b ≠ 0 := by
  induction h with
  | last hl hdrop => exact ⟨List.cons_ne_nil _ _, _, _, hdrop, hl.count_ne_zero⟩
  | label hl hdrop _ _ => exact ⟨List.cons_ne_nil _ _, _, _, hdrop, hl.count_ne_zero⟩
  | pointer hdrop hp _ ih =>
    refine ⟨ih.1, _, _, hdrop, ?_⟩
    rintro rfl
    exact absurd hp (by decide)

/-- `copyName` copies a name whose root stands behind a label. -/
theorem copies_direct {ls : List (List UInt8)} (h : DirectNameAt msg ptr ls) :
    ∀ (namelen : Nat) (name : List UInt8), (wire ls).length ≤ namelen →
      ∃ n last, iterated (copyNext msg) n ⟨ptr, namelen, name⟩ = some last ∧
        copyTurn msg last = .returns (some (name ++ joined dot ls)) := by
  induction h with
  | @last ptr l rest hl hdrop =>
    intro namelen name hlen
    rw [wire_cons, List.length_append, List.length_cons] at hlen
    refine ⟨0, _, rfl, ?_⟩
    rw [joined_singleton, copyTurn_label _ _ hl hdrop (by omega), if_neg (by simp)]
  | @label ptr l rest ls hl hdrop hls ih =>
    intro namelen name hlen
    obtain ⟨hne, b, behind, hstart, hb⟩ := hls.starts
    have hrest := drop_label hdrop
    rw [← Nat.add_assoc, hstart] at hrest
    rw [← hrest] at hdrop
    rw [wire_cons, List.length_append, List.length_cons] at hlen
    have hturn := copyTurn_label namelen name hl hdrop (by omega)
    rw [if_pos hb] at hturn
    obtain ⟨n, last, hrun, hlast⟩ := ih (namelen - (l.length + 1))
      (name ++ l ++ [dot]) (by omega)
    refine ⟨n + 1, last, ?_, ?_⟩
    · rw [iterated_of_next (by rw [copyNext, hturn]), hrun]
    · rw [hlast, joined_cons _ hne]
      simp
  | @pointer ptr p q rest ls hdrop hp hls ih =>
    intro namelen name hlen
    obtain ⟨n, last, hrun, hlast⟩ := ih namelen name hlen
    refine ⟨n + 1, last, ?_, hlast⟩
    rw [iterated_of_next (by rw [copyNext, copyTurn_pointer hp hdrop]), hrun]

end Names

/-! ## Records -/

section Records

variable {msg more : List UInt8} {opt : Nat}

theorem Record.length_encode (rr : Record) :
    rr.encode.length = rr.owner.length + 10 + rr.rdata.length := by
  simp only [encode, head, List.length_append, length_bytes16]

/-- What the loops read of a record behind its name. -/
structure ReadsRecord (msg : List UInt8) (opt : Nat) (rr : Record) (more : List UInt8) : Prop where
  skip : skipName msg opt = some (opt + rr.owner.length)
  type : be16 msg (opt + rr.owner.length) = rr.type.toNat
  cls : be16 msg (opt + rr.owner.length + 2) = rr.cls.toNat
  rdlength : be16 msg (opt + rr.owner.length + 8) = rr.rdata.length
  data : msg.drop (opt + rr.owner.length + rrSize) = rr.rdata ++ more
  length : msg.length = opt + rr.owner.length + (rrSize + rr.rdata.length + more.length)

theorem readsRecord {rr : Record} (hname : IsName rr.owner) (hlen : rr.rdata.length < 65536)
    (h : msg.drop opt = rr.encode ++ more) : ReadsRecord msg opt rr more := by
  simp only [Record.encode, Record.head, List.append_assoc] at h
  have htype := drop_behind h
  have hcls := drop_behind htype
  have httl := drop_behind hcls
  have httl' := drop_behind httl
  have hrdlength := drop_behind httl'
  have hdata := drop_behind hrdlength
  simp only [length_bytes16] at hcls httl httl' hrdlength hdata
  refine ⟨skipName_name hname h, be16_of_drop rr.type.toNat_lt htype,
    be16_of_drop rr.cls.toNat_lt hcls, be16_of_drop hlen hrdlength, hdata, ?_⟩
  rw [length_eq_of_drop (w := bytes16 rr.type.toNat) (List.cons_ne_nil _ _) htype]
  simp only [List.length_append, length_bytes16, rrSize]
  omega

/-- A record that has no room for the padding of `DNSRR` is the last one. -/
theorem ReadsRecord.last {rr : Record} {answers : List Record}
    (h : ReadsRecord msg opt rr (answers.flatMap Record.encode ++ more))
    (hroom : msg.length - (opt + rr.owner.length) < rrSizeof) :
    answers = [] ∧ rr.rdata.length < 2 := by
  have hlen := h.length
  have hsize : rrSize = 10 ∧ rrSizeof = 12 := ⟨rfl, rfl⟩
  cases answers with
  | nil => exact ⟨rfl, by omega⟩
  | cons p answers =>
    rw [List.flatMap_cons, List.length_append, List.length_append, p.length_encode] at hlen
    omega

theorem isAddress_iff {rr : Record} : rr.IsAddress ↔ rr.type.toNat = 1 ∧ rr.cls.toNat = 1 := by
  rw [Record.IsAddress, ← UInt16.toNat_inj, ← UInt16.toNat_inj]
  rfl

theorem isPointer_iff {rr : Record} : rr.IsPointer ↔ rr.type.toNat = 12 ∧ rr.cls.toNat = 1 := by
  rw [Record.IsPointer, ← UInt16.toNat_inj, ← UInt16.toNat_inj]
  rfl

/-- The loop of `resolve` takes the first address. -/
theorem addressLoop_answers {answers : List Record} (howners : ∀ rr ∈ answers, IsName rr.owner)
    (hlengths : ∀ rr ∈ answers, rr.rdata.length < 65536)
    (haddresses : ∀ rr ∈ answers, rr.IsAddress → rr.rdata.length = 4) :
    ∀ {opt : Nat}, msg.drop opt = answers.flatMap Record.encode ++ more →
      addressLoop msg answers.length opt =
        match answers.find? fun rr => rr.IsAddress with
        | some rr => .found rr.rdata
        | none => .again := by
  induction answers with
  | nil => exact fun _ => rfl
  | cons rr answers ih =>
    intro opt h
    rw [List.flatMap_cons, List.append_assoc] at h
    have hread := readsRecord (howners rr List.mem_cons_self) (hlengths rr List.mem_cons_self) h
    have haddress := haddresses rr List.mem_cons_self
    have hlen := hread.length
    rw [List.length_cons, addressLoop]
    simp only [hread.skip]
    by_cases hroom : msg.length - (opt + rr.owner.length) < rrSizeof
    · obtain ⟨rfl, hshort⟩ := hread.last hroom
      have hother : ¬ rr.IsAddress := fun hrr => by have := haddress hrr; omega
      rw [if_pos hroom, List.find?_cons_of_neg (by simpa using hother)]
      rfl
    rw [if_neg hroom]
    simp only [hread.type, hread.cls, hread.rdlength]
    rw [if_neg (by omega)]
    by_cases hrr : rr.IsAddress
    · obtain ⟨htype, hcls⟩ := isAddress_iff.mp hrr
      have hfour := haddress hrr
      rw [if_neg (by omega), hread.data, ← hfour, List.take_left,
        List.find?_cons_of_pos (by simpa using hrr)]
    · have hother : rr.type.toNat ≠ 1 ∨ rr.cls.toNat ≠ 1 ∨ rr.rdata.length ≠ 4 := by
        by_cases htype : rr.type.toNat = 1
        · exact .inr (.inl fun hcls => hrr (isAddress_iff.mpr ⟨htype, hcls⟩))
        · exact .inl htype
      have hbehind := drop_behind hread.data
      rw [Nat.add_assoc] at hbehind
      rw [if_pos hother, List.find?_cons_of_neg (by simpa using hrr)]
      exact ih (fun p hp => howners p (List.mem_cons_of_mem _ hp))
        (fun p hp => hlengths p (List.mem_cons_of_mem _ hp))
        (fun p hp => haddresses p (List.mem_cons_of_mem _ hp)) hbehind

end Records

/-! ## Responses -/

namespace Response

theorem length_hdr (r : Response) : r.hdr.length = 12 := rfl

theorem hdr_fields (r : Response) :
    be16 r.encode 0 = r.id.toNat ∧ be16 r.encode 2 = r.flags.toNat ∧ be16 r.encode 4 = 1 ∧
      be16 r.encode 6 = r.answers.length := by
  have hid : r.encode.drop 0 = bytes16 r.id.toNat ++ r.encode.drop 2 := rfl
  have hflags : r.encode.drop 2 = bytes16 r.flags.toNat ++ r.encode.drop 4 := rfl
  have hone : r.encode.drop 4 = bytes16 1 ++ r.encode.drop 6 := rfl
  have hcount : r.encode.drop 6 = bytes16 r.answers.length ++ r.encode.drop 8 := rfl
  exact ⟨be16_of_drop r.id.toNat_lt hid, be16_of_drop r.flags.toNat_lt hflags,
    be16_of_drop (by decide) hone, be16_of_drop r.count hcount⟩

theorem id_query (r : Response) : be16 r.query 0 = r.id.toNat := by
  have hid : r.query.drop 0 = bytes16 r.id.toNat ++ r.query.drop 2 := rfl
  exact be16_of_drop r.id.toNat_lt hid

theorem length_question (q : Question) : q.encode.length = (wire q.labels).length + 5 := by
  simp only [Question.encode, List.length_append, List.length_cons, length_bytes16]

theorem drop_hdr (r : Response) :
    r.encode.drop hdrSize = r.question.encode ++ (r.answers.flatMap Record.encode ++ r.more) := rfl

theorem drop_question (r : Response) :
    r.encode.drop (hdrSize + r.question.encode.length) =
      r.answers.flatMap Record.encode ++ r.more :=
  drop_behind r.drop_hdr

/-- The question is that of the query. -/
theorem question_encode (r : Response) :
    Resolver.question r.query r.encode = .found (hdrSize + r.question.encode.length) := by
  have hskip : skipName r.encode hdrSize = some (hdrSize + (wire r.question.labels).length + 1) :=
    skipName_wire_root r.labels (by rw [drop_hdr, Question.encode, List.append_assoc]; rfl)
  have hlen := length_question r.question
  have hend : hdrSize + (wire r.question.labels).length + 1 + 4 =
      hdrSize + r.question.encode.length := by omega
  have hquery : r.query.length = hdrSize + r.question.encode.length := by
    rw [query, List.length_append]
    rfl
  have hmsg := length_eq_of_drop (by rw [Question.encode]; exact List.append_ne_nil_of_right_ne_nil _ (List.cons_ne_nil _ _))
    r.drop_hdr
  have hsame : (r.query.take (hdrSize + r.question.encode.length)).drop hdrSize =
      (r.encode.take (hdrSize + r.question.encode.length)).drop hdrSize := by
    rw [List.drop_take, List.drop_take, drop_hdr, Nat.add_sub_cancel_left, List.take_left,
      query, drop_queryHdr, List.take_length]
  rw [Resolver.question, hskip]
  simp only [hend]
  rw [if_neg (by omega), if_neg]
  rintro (hshort | hdiffers)
  · omega
  · exact hdiffers hsame

theorem hdrSize_lt (r : Response) : hdrSize < r.encode.length := by
  have hmsg := length_eq_of_drop
    (by rw [Question.encode]; exact List.append_ne_nil_of_right_ne_nil _ (List.cons_ne_nil _ _))
    r.drop_hdr
  have hlen := length_question r.question
  omega

/-- `resolve` takes the first address. -/
theorem resolve_encode (r : Response) :
    resolve r.query r.encode =
      match r.answers.find? fun rr => rr.IsAddress with
      | some rr => .found rr.rdata
      | none => .again := by
  obtain ⟨hid, hflags, hqd, han⟩ := r.hdr_fields
  have hresponse := r.isResponse
  rw [resolve, if_neg (Nat.not_le.mpr r.hdrSize_lt), hid, hflags, hqd, han, r.id_query,
    if_neg (by omega), if_neg (by have := r.noError; omega)]
  by_cases hnone : r.answers = []
  · rw [if_pos (by rw [hnone]; rfl), hnone]
    rfl
  · rw [if_neg (by rw [List.length_eq_zero_iff]; exact hnone), r.question_encode]
    exact addressLoop_answers r.owners r.lengths r.addresses r.drop_question

/-- `getHostName` begins with the first record. -/
theorem pointer_encode (r : Response) :
    pointer r.query r.encode =
      pointerLoop r.encode r.answers.length (hdrSize + r.question.encode.length) := by
  obtain ⟨hid, hflags, hqd, han⟩ := r.hdr_fields
  have hresponse := r.isResponse
  rw [pointer, if_neg (Nat.not_le.mpr r.hdrSize_lt), hid, hflags, hqd, han, r.id_query]
  by_cases hnone : r.answers = []
  · rw [if_pos (by rw [hnone]; simp), hnone]
    rfl
  · have hcount : r.answers.length ≠ 0 := fun h => hnone (List.length_eq_zero_iff.mp h)
    rw [if_neg (by omega), r.question_encode]

/-- Its name and its fields are read as they are. -/
theorem pointerLoop_first {r : Response} {rr : Record} {back : List Record}
    (hanswers : r.answers = rr :: back) :
    pointerLoop r.encode r.answers.length (hdrSize + r.question.encode.length) =
      if r.encode.length - (hdrSize + r.question.encode.length + rr.owner.length) < rrSizeof ∨
          ¬ rr.IsPointer then
        pointerLoop r.encode back.length (hdrSize + r.question.encode.length + rr.owner.length)
      else .found (r.dataAt [] rr) := by
  have hmem : rr ∈ r.answers := hanswers ▸ List.mem_cons_self
  have hdrop := r.drop_question
  rw [hanswers, List.flatMap_cons, List.append_assoc] at hdrop
  have hread := readsRecord (r.owners rr hmem) (r.lengths rr hmem) hdrop
  have hlen := hread.length
  rw [hanswers, List.length_cons, pointerLoop]
  simp only [hread.skip]
  by_cases hroom : r.encode.length - (hdrSize + r.question.encode.length + rr.owner.length) < rrSizeof
  · rw [if_pos hroom, if_pos (.inl hroom)]
  rw [if_neg hroom, hread.type, hread.cls, hread.rdlength]
  by_cases hrr : rr.IsPointer
  · obtain ⟨htype, hcls⟩ := isPointer_iff.mp hrr
    have hdata : hdrSize + r.question.encode.length + rr.owner.length + rrSize = r.dataAt [] rr := by
      simp only [dataAt, List.flatMap_nil, List.length_nil, Record.head, List.length_append,
        length_bytes16, length_hdr, hdrSize, rrSize]
      omega
    rw [if_neg (by omega), if_neg (by omega), if_neg (by rintro (h | h); exacts [hroom h, h hrr]),
      hdata]
  · have hother : rr.type.toNat ≠ 12 ∨ rr.cls.toNat ≠ 1 := by
      by_cases htype : rr.type.toNat = 12
      · exact .inr fun hcls => hrr (isPointer_iff.mpr ⟨htype, hcls⟩)
      · exact .inl htype
    rw [if_pos hother, if_pos (.inr hrr)]

end Response

theorem DirectNameAt.two_le {msg : List UInt8} {ptr : Nat} {ls : List (List UInt8)}
    (h : DirectNameAt msg ptr ls) : ptr + 2 ≤ msg.length := by
  have hlabel {l rest : List UInt8} (hl : IsWireLabel l)
      (hdrop : msg.drop ptr = UInt8.ofNat l.length :: l ++ rest) : ptr + 2 ≤ msg.length := by
    have hlen := length_eq_of_drop (List.cons_ne_nil _ _) hdrop
    have hpos := List.length_pos_iff.mpr hl.1
    rw [List.length_cons] at hlen
    omega
  cases h with
  | last hl hdrop => exact hlabel hl hdrop
  | label hl hdrop _ => exact hlabel hl hdrop
  | @pointer _ p q rest _ hdrop _ _ =>
    have hlen := length_eq_of_drop (w := [p, q]) (List.cons_ne_nil _ _) hdrop
    simp only [List.length_cons, List.length_nil] at hlen
    omega

/-- A response whose first record is the only one, or a PTR record with a direct name, is answered with
    the first record of each kind. -/
theorem selectsFirst_of_firstOrOnly {r : Response} (h : FirstOrOnly r) : SelectsFirst r where
  address := r.resolve_encode
  name front rr back ls hanswers hfront hrr hname hlen := by
    cases front with
    | nil =>
      have hdirect := h rr back hanswers
      rw [if_pos hrr] at hdirect
      replace hdirect := hdirect ls hname
      have hroom := hdirect.two_le
      have hdata : r.dataAt [] rr =
          hdrSize + r.question.encode.length + rr.owner.length + rrSize := by
        simp only [Response.dataAt, List.flatMap_nil, List.length_nil, Record.head,
          List.length_append, length_bytes16, Response.length_hdr, hdrSize, rrSize]
        omega
      have hsize : rrSize = 10 ∧ rrSizeof = 12 := ⟨rfl, rfl⟩
      obtain ⟨n, last, hrun, hlast⟩ := copies_direct hdirect nameMax [] (by omega)
      refine ⟨_, ?_, n, last, hrun, hlast⟩
      rw [r.pointer_encode, Response.pointerLoop_first hanswers, if_neg]
      rintro (hno | hno)
      · omega
      · exact hno hrr
    | cons p front =>
      have honly := h p (front ++ rr :: back) hanswers
      rw [if_neg (hfront p List.mem_cons_self)] at honly
      exact absurd honly (List.append_ne_nil_of_right_ne_nil _ (List.cons_ne_nil _ _))
  noName hnone := by
    refine .inl ?_
    rw [r.pointer_encode]
    cases hanswers : r.answers with
    | nil => rfl
    | cons p back =>
      have hp : ¬ p.IsPointer := hnone p (hanswers ▸ List.mem_cons_self)
      have honly := h p back hanswers
      rw [if_neg hp] at honly
      rw [← hanswers, Response.pointerLoop_first hanswers, if_pos (.inr hp), honly]
      rfl

/-- A response with one address. -/
def oneAddress : Response where
  id := 7
  flags := 0x8180
  nscount := 0
  arcount := 0
  question := ⟨[[97]], 1, 1⟩
  answers := [⟨[0xc0, 12], 1, 1, 60, [10, 0, 0, 2]⟩]
  more := []
  isResponse := by decide
  noError := by decide
  labels l hl := List.mem_singleton.mp hl ▸ ⟨by decide, by decide⟩
  count := by decide
  owners rr hrr := by
    rw [List.mem_singleton.mp hrr]
    exact ⟨[], [0xc0, 12], rfl, (fun l hl => nomatch hl), .inr ⟨0xc0, 12, rfl, by decide⟩⟩
  lengths := by decide
  addresses := by decide

theorem selectsFirst_oneAddress : SelectsFirst oneAddress := by
  refine selectsFirst_of_firstOrOnly fun rr back hanswers => ?_
  obtain ⟨rfl, rfl⟩ := List.cons.inj hanswers
  rw [if_neg (by decide)]

/-- An alias, as it comes in front of the record that is asked for. -/
def aliasFirst : Response where
  id := 7
  flags := 0x8180
  nscount := 0
  arcount := 0
  question := ⟨[[97]], 12, 1⟩
  answers := [⟨[0xc0, 12], 5, 1, 60, [1, 98, 0]⟩, ⟨[1, 98, 0], 12, 1, 60, [1, 99, 0]⟩]
  more := []
  isResponse := by decide
  noError := by decide
  labels l hl := List.mem_singleton.mp hl ▸ ⟨by decide, by decide⟩
  count := by decide
  owners := by
    intro rr hrr
    rcases List.mem_cons.mp hrr with rfl | hrr
    · exact ⟨[], [0xc0, 12], rfl, (fun l hl => nomatch hl), .inr ⟨0xc0, 12, rfl, by decide⟩⟩
    · rw [List.mem_singleton.mp hrr]
      exact ⟨[[98]], [0], rfl, fun l hl => List.mem_singleton.mp hl ▸ ⟨by decide, by decide⟩, .inl rfl⟩
  lengths := by decide
  addresses := by decide

/-- The name behind the alias is not found. -/
theorem not_selectsFirst_alias : ¬ SelectsFirst aliasFirst := by
  intro h
  have hagain : pointer aliasFirst.query aliasFirst.encode = .again := by
    -- the second turn begins at the type of the alias, whose first byte is the root
    have hroot : aliasFirst.encode.drop 21 = 0 :: aliasFirst.encode.drop 22 := rfl
    have hsecond : skipName aliasFirst.encode 21 = some 22 := skipName_root hroot
    have hloop : pointerLoop aliasFirst.encode 1 21 = .again := by
      rw [pointerLoop, hsecond]
      decide
    rw [aliasFirst.pointer_encode, Response.pointerLoop_first rfl, if_pos (.inr (by decide))]
    exact hloop
  have hbehind : NameAt aliasFirst.encode (aliasFirst.dataAt [⟨[0xc0, 12], 5, 1, 60, [1, 98, 0]⟩]
      ⟨[1, 98, 0], 12, 1, 60, [1, 99, 0]⟩) [[99]] :=
    @NameAt.label _ _ _ [0] _ ⟨by decide, by decide⟩ rfl (@NameAt.root _ _ [] rfl)
  obtain ⟨ptr, hptr, -⟩ := h.name [⟨[0xc0, 12], 5, 1, 60, [1, 98, 0]⟩]
    ⟨[1, 98, 0], 12, 1, 60, [1, 99, 0]⟩ [] [[99]] rfl (by decide) (by decide)
    hbehind (by decide)
  rw [hagain] at hptr
  cases hptr

end EsOs.Net.Resolver
