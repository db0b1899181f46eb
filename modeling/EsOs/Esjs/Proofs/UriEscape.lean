import EsOs.Esjs.UriEscape
import EsOs.Es.Proofs.Utf
import Mathlib.Data.List.Forall2

/-!
# Escapes in URIs come back

What `encode` writes, `decode` reads back. Of the strings that `encode` has not written, `decode`
treats well those whose escapes mean characters, and those with a fault that it notices before any
other one; it takes most malformed escapes as they are.
-/

namespace EsOs.Esjs

open EsOs.Lib EsOs.Es

variable {reserved unescapedSet : List UInt8}

/-! ## The octets of a character -/

theorem leadingOnes_ascii : ∀ n < 128, leadingOnes (UInt8.ofNat n) = 0 := by
  decide +kernel

theorem leadingOnes_two : ∀ n < 32, leadingOnes (UInt8.ofNat (n + 0xc0)) = 2 := by
  decide +kernel

theorem leadingOnes_three : ∀ n < 16, leadingOnes (UInt8.ofNat (n + 0xe0)) = 3 := by
  decide +kernel

theorem leadingOnes_four : ∀ n < 8, leadingOnes (UInt8.ofNat (n + 0xf0)) = 4 := by
  decide +kernel

/-- The octets of a character: one below 80h, or one that tells how many follow. -/
inductive CharOctets : List UInt8 → Prop
  | ascii {b : UInt8} : b.toNat < 0x80 → CharOctets [b]
  | sequence {lead : UInt8} {tails : List UInt8} : 0x80 ≤ lead.toNat →
      leadingOnes lead = tails.length + 1 → tails.length ≤ 3 → (∀ b ∈ tails, 0x80 ≤ b.toNat) →
      CharOctets (lead :: tails)

theorem charOctets (ch : Char) : CharOctets (String.utf8EncodeChar ch) := by
  have htail : ∀ n, 0x80 ≤ (UInt8.ofNat (n % 0x40 + 0x80)).toNat := fun n => (isTail_ofNat n).1
  rw [utf8EncodeChar_eq]
  split
  · rename_i h
    refine .ascii ?_
    rw [UInt8.toNat_ofNat']
    omega
  split
  · refine .sequence ?_ (leadingOnes_two _ (Nat.mod_lt _ (by decide))) (by simp) ?_
    · rw [UInt8.toNat_ofNat']
      omega
    · simpa only [List.forall_mem_cons, List.not_mem_nil, false_implies, implies_true, and_true]
        using htail _
  split
  · refine .sequence ?_ (leadingOnes_three _ (Nat.mod_lt _ (by decide))) (by simp) ?_
    · rw [UInt8.toNat_ofNat']
      omega
    · simpa only [List.forall_mem_cons, List.not_mem_nil, false_implies, implies_true, and_true]
        using ⟨htail _, htail _⟩
  · refine .sequence ?_ (leadingOnes_four _ (Nat.mod_lt _ (by decide))) (by simp) ?_
    · rw [UInt8.toNat_ofNat']
      omega
    · simpa only [List.forall_mem_cons, List.not_mem_nil, false_implies, implies_true, and_true]
        using ⟨htail _, htail _, htail _⟩

/-! ## Decoding -/

@[simp] theorem prepend_returns (r s : List UInt8) :
    (Decoding.returns s).prepend r = .returns (r ++ s) := rfl

theorem prepend_eq_uriError {r : List UInt8} {d : Decoding} :
    d.prepend r = .uriError ↔ d = .uriError := by
  cases d <;> simp [Decoding.prepend]

theorem prepend_prepend (r s : List UInt8) (d : Decoding) :
    (d.prepend s).prepend r = d.prepend (r ++ s) := by
  cases d <;> simp [Decoding.prepend]

theorem decodeLoop_plain {c : UInt8} (hc : c ≠ percentSign) (uri : List UInt8) :
    decodeLoop reserved 0 (c :: uri) = (decodeLoop reserved 0 uri).prepend [c] := by
  rw [decodeLoop.eq_def]
  simp only [hc, if_false, ne_eq, not_true_eq_false]

theorem decodeLoop_escape {t : List UInt8} {b : UInt8} (ht : IsEscape t b) (seq : Nat)
    (uri : List UInt8) :
    decodeLoop reserved seq (t ++ uri) =
      (decodeLoop reserved (nextSeq seq b) uri).prepend
        (if reserved.contains b then t else [b]) := by
  obtain ⟨x, y, h, l, rfl, hx, hy, rfl⟩ := ht
  simp only [List.cons_append, List.nil_append, decodeLoop, if_true, hx, hy]

/-- The escapes for the octets that a character's first one has announced. -/
theorem decodeLoop_tails {tails : List UInt8} {texts : List (List UInt8)}
    (ht : Escapes texts tails) (hout : ∀ b ∈ tails, b ∉ reserved) (uri : List UInt8) :
    decodeLoop reserved tails.length (texts.flatten ++ uri) =
      (decodeLoop reserved 0 uri).prepend tails := by
  induction ht with
  | nil => cases h : decodeLoop reserved 0 uri <;> simp [h, Decoding.prepend]
  | @cons t b texts tails htb htexts ih =>
    rw [List.flatten_cons, List.append_assoc, decodeLoop_escape htb, nextSeq, List.length_cons,
      if_neg (Nat.succ_ne_zero _), Nat.add_sub_cancel, ih fun c hc => hout c (.tail _ hc),
      if_neg (by simpa using hout b (.head _)), prepend_prepend]
    rfl

/-- The escapes for a character. -/
theorem decodeLoop_char (hascii : ∀ c ∈ reserved, c.toNat < 0x80) (ch : Char)
    {texts : List (List UInt8)} (ht : Escapes texts (String.utf8EncodeChar ch))
    (uri : List UInt8) :
    decodeLoop reserved 0 (texts.flatten ++ uri) =
      (decodeLoop reserved 0 uri).prepend
        (if reserved.any (fun c => String.utf8EncodeChar ch = [c]) then texts.flatten
          else String.utf8EncodeChar ch) := by
  have hout : ∀ b : UInt8, 0x80 ≤ b.toNat → b ∉ reserved := fun b hb hmem => by
    have := hascii b hmem
    omega
  have hchar := charOctets ch
  generalize String.utf8EncodeChar ch = octets at ht hchar ⊢
  cases hchar with
  | @ascii b hb =>
    obtain ⟨t, texts, htb, htexts, rfl⟩ := List.forall₂_cons_right_iff.mp ht
    obtain rfl := List.forall₂_nil_right_iff.mp htexts
    have hones : leadingOnes b = 0 := by
      have := leadingOnes_ascii b.toNat hb
      rwa [UInt8.ofNat_toNat] at this
    have hmem : reserved.any (fun c => decide ([b] = [c])) = reserved.contains b := by
      rw [Bool.eq_iff_iff]
      simp
    rw [List.flatten_cons, List.flatten_nil, List.append_nil, decodeLoop_escape htb, nextSeq,
      if_pos rfl, hones, hmem]
  | @sequence lead tails hlead hones hlen htails =>
    obtain ⟨t, texts, htb, htexts, rfl⟩ := List.forall₂_cons_right_iff.mp ht
    have hnone : reserved.any (fun c => decide (lead :: tails = [c])) = false := by
      rw [List.any_eq_false]
      intro c hc heq
      have := (List.cons.inj (of_decide_eq_true heq)).1
      exact hout lead hlead (this ▸ hc)
    rw [List.flatten_cons, List.append_assoc, decodeLoop_escape htb, nextSeq, if_pos rfl, hones,
      Nat.add_sub_cancel, decodeLoop_tails htexts fun b hb => hout b (htails b hb),
      if_neg (by simpa using hout lead hlead), prepend_prepend, hnone]
    rfl

/-- A string whose escapes mean something is decoded to it. -/
theorem Unescaped.decode (hascii : ∀ c ∈ reserved, c.toNat < 0x80) {uri result : List UInt8}
    (h : Unescaped reserved uri result) : decode uri reserved = .returns result := by
  unfold Esjs.decode
  induction h with
  | nil => rfl
  | plain hc _ ih => rw [decodeLoop_plain hc, ih, prepend_returns, List.singleton_append]
  | char ch ht _ ih => rw [decodeLoop_char hascii ch ht, ih, prepend_returns]

/-- The errors that are thrown are the faults that are noticed. -/
theorem uriError_of_noticed {seq : Nat} {uri : List UInt8} (h : Noticed seq uri) :
    decodeLoop reserved seq uri = .uriError := by
  induction h with
  | lone seq => rfl
  | cut uri hc =>
    rw [decodeLoop.eq_def]
    simp only [hc, if_false, ne_eq, Nat.succ_ne_zero, not_false_eq_true, if_true]
  | plain hc _ ih => rw [decodeLoop_plain hc, prepend_eq_uriError, ih]
  | escape ht _ ih => rw [decodeLoop_escape ht, prepend_eq_uriError, ih]

theorem noticed_of_uriError {seq : Nat} {uri : List UInt8}
    (h : decodeLoop reserved seq uri = .uriError) : Noticed seq uri := by
  fun_induction decodeLoop reserved seq uri with
  | case1 seq => cases h
  | case2 seq => exact .lone seq
  | case3 seq c => cases h
  | case4 seq x y rest m n hy hx c ih =>
    exact .escape ⟨x, y, m, n, rfl, hx, hy, rfl⟩ (ih (prepend_eq_uriError.mp h))
  | case5 => cases h
  | case6 seq c rest hc hseq =>
    obtain ⟨n, rfl⟩ := Nat.exists_eq_succ_of_ne_zero hseq
    exact .cut rest hc
  | case7 seq c rest hc hseq ih =>
    obtain rfl := not_not.mp hseq
    exact .plain hc (ih (prepend_eq_uriError.mp h))

/-! ## Encoding -/

theorem encodeLoop_tails {tails : List UInt8} (rest : List UInt8) :
    encodeLoop unescapedSet tails.length (tails ++ rest) =
      (encodeLoop unescapedSet 0 rest).map (tails.flatMap escape ++ ·) := by
  induction tails with
  | nil => simp
  | cons b tails ih =>
    rw [List.length_cons, List.cons_append, encodeLoop, ih, Option.map_map]
    simp [Function.comp_def]

/-- What is written for a character: itself, if it is one octet that may stay, or escapes. -/
theorem encodeLoop_char (hascii : ∀ c ∈ unescapedSet, c.toNat < 0x80) (ch : Char)
    (rest : List UInt8) :
    (∃ b, String.utf8EncodeChar ch = [b] ∧ isUnescaped b unescapedSet = true ∧
      encodeLoop unescapedSet 0 (String.utf8EncodeChar ch ++ rest) =
        (encodeLoop unescapedSet 0 rest).map (b :: ·)) ∨
    ((∀ b, String.utf8EncodeChar ch = [b] → b ∉ unescapedSet) ∧
      encodeLoop unescapedSet 0 (String.utf8EncodeChar ch ++ rest) =
        (encodeLoop unescapedSet 0 rest).map
          ((String.utf8EncodeChar ch).flatMap escape ++ ·)) := by
  have hchar := charOctets ch
  generalize String.utf8EncodeChar ch = octets at hchar ⊢
  cases hchar with
  | @ascii b hb =>
    have hones : leadingOnes b = 0 := by
      have := leadingOnes_ascii b.toNat hb
      rwa [UInt8.ofNat_toNat] at this
    rw [List.singleton_append, encodeLoop]
    by_cases hmem : unescapedSet.contains b = true
    · refine .inl ⟨b, rfl, by rw [isUnescaped, hmem, Bool.or_true], by rw [if_pos hmem]⟩
    rw [if_neg hmem, hones]
    simp only [Nat.not_lt_zero, if_false, true_and]
    by_cases hun : isUnescaped b unescapedSet = true
    · exact .inl ⟨b, rfl, hun, by rw [if_pos hun]⟩
    · refine .inr ⟨fun b' hb' => ?_, ?_⟩
      · obtain rfl := (List.cons.inj hb').1
        simpa using hmem
      · rw [if_neg hun]
        simp
  | @sequence lead tails hlead hones hlen htails =>
    have hmem : ¬ unescapedSet.contains lead = true := by
      intro h
      have := hascii lead (by simpa using h)
      omega
    refine .inr ⟨fun b hb => ?_, ?_⟩
    · obtain ⟨rfl, rfl⟩ := List.cons.inj hb
      simpa using hmem
    · rw [List.cons_append, encodeLoop, if_neg hmem, hones]
      simp only [Nat.succ_ne_zero, false_and, if_false, Nat.add_sub_cancel]
      rw [if_neg (by omega), encodeLoop_tails, Option.map_map]
      simp [Function.comp_def]

theorem escapes_flatMap (octets : List UInt8) : Escapes (octets.map escape) octets := by
  induction octets with
  | nil => exact .nil
  | cons b octets ih => exact .cons (isEscape_escape b) ih

theorem escaped_flatMap {uri : List UInt8} (octets : List UInt8) (h : Escaped unescapedSet uri) :
    Escaped unescapedSet (octets.flatMap escape ++ uri) := by
  induction octets with
  | nil => exact h
  | cons b octets ih =>
    rw [List.flatMap_cons, List.append_assoc]
    exact .escape b ih

/-- What is written means the text. -/
theorem encode_unescaped (hascii : ∀ c ∈ unescapedSet, c.toNat < 0x80)
    (hpercent : isUnescaped percentSign unescapedSet = false)
    (hkept : ∀ c ∈ reserved, c ∈ unescapedSet) (text : List Char) :
    ∃ uri, encode (text.flatMap String.utf8EncodeChar) unescapedSet = some uri ∧
      Unescaped reserved uri (text.flatMap String.utf8EncodeChar) ∧ Escaped unescapedSet uri := by
  unfold encode
  induction text with
  | nil => exact ⟨[], rfl, .nil, .nil⟩
  | cons ch text ih =>
    obtain ⟨uri, huri, hmeans, hescaped⟩ := ih
    rw [List.flatMap_cons]
    rcases encodeLoop_char hascii ch (text.flatMap String.utf8EncodeChar) with
      ⟨b, hb, hun, heq⟩ | ⟨hout, heq⟩
    · refine ⟨b :: uri, by rw [heq, huri]; rfl, ?_, .plain hun hescaped⟩
      rw [hb]
      refine .plain (fun hp => ?_) hmeans
      rw [hp, hpercent] at hun
      cases hun
    · refine ⟨_, by rw [heq, huri]; rfl, ?_, escaped_flatMap _ hescaped⟩
      have hnone : reserved.any (fun c => String.utf8EncodeChar ch = [c]) = false := by
        rw [List.any_eq_false]
        exact fun c hc heq => hout c (of_decide_eq_true heq) (hkept c hc)
      have hmeans' := Unescaped.char ch (escapes_flatMap _) hmeans
      rw [hnone] at hmeans'
      exact hmeans'

/-! ## The functions of the global object -/

theorem UriFunctions.reserved_ascii (f : UriFunctions) : ∀ c ∈ f.reserved, c.toNat < 0x80 := by
  cases f <;> decide +kernel

theorem UriFunctions.unescapedSet_ascii (f : UriFunctions) :
    ∀ c ∈ f.unescapedSet, c.toNat < 0x80 := by
  cases f <;> decide +kernel

theorem UriFunctions.percentSign_escaped (f : UriFunctions) :
    isUnescaped percentSign f.unescapedSet = false := by
  cases f <;> decide +kernel

theorem UriFunctions.reserved_kept (f : UriFunctions) :
    ∀ c ∈ f.reserved, c ∈ f.unescapedSet := by
  cases f <;> decide +kernel

/-- Every text comes back, and a string is decoded well if and only if its escapes mean something or
    it has a fault that is noticed. -/
theorem UriFunctions.escapes_iff (f : UriFunctions) :
    (∀ text, f.RoundTrips text) ∧
      ∀ uri, DecodesWell uri f.reserved ↔
        (∃ result, Unescaped f.reserved uri result) ∨ Noticed 0 uri := by
  refine ⟨fun text => ?_, fun uri => ⟨?_, ?_⟩⟩
  · obtain ⟨uri, huri, hmeans, hescaped⟩ :=
      encode_unescaped f.unescapedSet_ascii f.percentSign_escaped f.reserved_kept text
    exact ⟨uri, huri, hmeans.decode f.reserved_ascii, hescaped⟩
  · rintro (⟨result, hmeans, -⟩ | ⟨-, herror⟩)
    · exact .inl ⟨result, hmeans⟩
    · exact .inr (noticed_of_uriError herror)
  · intro h
    by_cases hmeans : ∃ result, Unescaped f.reserved uri result
    · obtain ⟨result, hresult⟩ := hmeans
      exact .inl ⟨result, hresult, hresult.decode f.reserved_ascii⟩
    · exact .inr ⟨hmeans, uriError_of_noticed (h.resolve_left hmeans)⟩

/-- An escape with one digit at the end, and one that is not of a character. -/
theorem not_decodesWell_truncated :
    ¬ DecodesWell (octetsOf "%4") UriFunctions.component.reserved ∧
      decode (octetsOf "%4") UriFunctions.component.reserved = .readsPastEnd ∧
      decode (octetsOf "%C3%41") UriFunctions.component.reserved = .returns [0xc3, 0x41] := by
  have hpast : decode (octetsOf "%4") UriFunctions.component.reserved = .readsPastEnd := by
    decide +kernel
  refine ⟨?_, hpast, by decide +kernel⟩
  rintro (⟨result, -, hreturns⟩ | ⟨-, herror⟩)
  · rw [hpast] at hreturns
    cases hreturns
  · rw [hpast] at herror
    cases herror

end EsOs.Esjs
