import EsOs.Lib.Word
import EsOs.Lib.OnesComplement
import EsOs.Net.Transport

/-! # The checksums of TCP and UDP

A sum of little-endian words is the sum of the big-endian words with their bytes exchanged. So the
folded sum is the one's complement sum of the bytes, and a checksum that is stored in the place of a
zero word brings the sum to all ones. -/

namespace EsOs.Net

open EsOs.Lib

/-! ## Sums -/

theorem addS32_ok {a b : Nat} (h : a + b < 2147483648) : addS32 a b = .ok (a + b) := if_pos h

theorem foldSum_lt {turns n : Nat} (h : n < 65536) : foldSum turns n = n := by
  cases turns with
  | zero => rfl
  | succ turns =>
    rw [foldSum, if_pos]
    rw [Nat.shiftRight_eq_div_pow]
    omega

theorem foldSum_turn {turns n : Nat} (h : 65536 ≤ n) :
    foldSum (turns + 1) n = foldSum turns (n % 65536 + n / 65536) := by
  have hshift : n >>> 16 = n / 65536 := Nat.shiftRight_eq_div_pow n 16
  have hand : n &&& 0xffff = n % 65536 := Nat.and_two_pow_sub_one_eq_mod n 16
  rw [foldSum, hshift, hand, if_neg (by omega)]

/-- The folded sum is the word that the sum comes to. -/
theorem foldSum_eq {n : Nat} (h : n < 2147483648) :
    foldSum 3 n = OnesComplement.norm 65535 n := by
  have hcarry := OnesComplement.norm_carry (M := 65535) (by decide)
  have hword := fun x hx => OnesComplement.norm_of_le (M := 65535) (x := x) (by decide) hx
  by_cases h1 : n < 65536
  · rw [foldSum_lt h1, hword n (by omega)]
  · rw [foldSum_turn (by omega), ← hcarry n]
    generalize hn' : n % 65536 + n / 65536 = n'
    by_cases h2 : n' < 65536
    · rw [foldSum_lt h2, hword n' (by omega)]
    · rw [foldSum_turn (by omega), ← hcarry n']
      generalize hn'' : n' % 65536 + n' / 65536 = n''
      by_cases h3 : n'' < 65536
      · rw [foldSum_lt h3, hword n'' (by omega)]
      · rw [foldSum_turn (by omega), foldSum_lt (by omega), ← hcarry n'',
          hword _ (by omega)]

theorem complement_toNat {n : Nat} (h : n < 2147483648) :
    (complement n).toNat = 65535 - OnesComplement.norm 65535 n := by
  have hle := OnesComplement.norm_le (M := 65535) (n := n) (by decide)
  rw [complement, foldSum_eq h, BitVec.toNat_not, BitVec.toNat_ofNat]
  omega

/-- A complement is zero when the sum comes to all ones. -/
theorem complement_eq_zero {n : Nat} (h : n < 2147483648)
    (hnorm : OnesComplement.norm 65535 n = 65535) : complement n = 0 := by
  apply BitVec.eq_of_toNat_eq
  rw [complement_toNat h, hnorm]
  rfl

/-! ## Bytes -/

/-- The sum of the words as the machine loads them. -/
def total (bytes : List UInt8) : Nat := ((OnesComplement.words bytes).map (OnesComplement.swap 256)).sum

theorem total_nil : total [] = 0 := rfl

theorem total_cons (b0 b1 : UInt8) (bytes : List UInt8) :
    total (b0 :: b1 :: bytes) = b0.toNat + b1.toNat * 256 + total bytes := by
  have h0 := b0.toNat_lt
  have h1 := b1.toNat_lt
  simp only [total, OnesComplement.words, List.map_cons, List.sum_cons, OnesComplement.swap]
  omega

theorem total_single (b : UInt8) : total [b] = b.toNat := by
  have := b.toNat_lt
  simp only [total, OnesComplement.words, List.map_cons, List.map_nil, List.sum_cons,
    List.sum_nil, OnesComplement.swap]
  omega

theorem total_append {bytes : List UInt8} (h : bytes.length % 2 = 0) (more : List UInt8) :
    total (bytes ++ more) = total bytes + total more := by
  rw [total, OnesComplement.words_append h, List.map_append, List.sum_append]
  rfl

/-- A sum of `n` bytes is not more than that of `n` bytes that are all ones. -/
theorem total_le (bytes : List UInt8) :
    total bytes ≤ bytes.length / 2 * 65535 + bytes.length % 2 * 255 := by
  fun_induction OnesComplement.words bytes with
  | case1 b0 b1 bytes ih =>
    have h0 := b0.toNat_lt
    have h1 := b1.toNat_lt
    rw [total_cons, List.length_cons, List.length_cons]
    omega
  | case2 b =>
    have := b.toNat_lt
    rw [total_single, List.length_singleton]
    omega
  | case3 => simp [total, OnesComplement.words]

theorem sumUpLoop_eq {bytes : List UInt8} {sum : Nat} (h : sum + total bytes < 2147483648) :
    InetMessenger.sumUpLoop bytes sum = .ok (sum + total bytes) := by
  fun_induction InetMessenger.sumUpLoop bytes sum with
  | case1 b0 b1 bytes sum ih =>
    rw [total_cons] at h
    rw [total_cons, ← Nat.add_assoc sum _ (total bytes), addS32_ok (by omega)]
    exact ih (sum + (b0.toNat + b1.toNat * 256)) (by omega)
  | case2 b sum =>
    rw [total_single] at h
    rw [addS32_ok (by omega), total_single]
  | case3 sum => rfl

theorem set16_length (bytes : List UInt8) (i v : Nat) : (set16 bytes i v).length = bytes.length := by
  simp [set16]

theorem get16_lt (bytes : List UInt8) (i : Nat) : get16 bytes i < 65536 := by
  have h0 := (bytes.getD i 0).toNat_lt
  have h1 := (bytes.getD (i + 1) 0).toNat_lt
  unfold get16
  omega

theorem get16_set16 {bytes : List UInt8} {i v : Nat} (hi : i + 1 < bytes.length) (hv : v < 65536) :
    get16 (set16 bytes i v) i = v := by
  have h0 : (set16 bytes i v).getD i 0 = UInt8.ofNat v := by
    simp [set16, List.getD_eq_getElem?_getD, show i < bytes.length by omega]
  have h1 : (set16 bytes i v).getD (i + 1) 0 = UInt8.ofNat (v / 256) := by
    simp [set16, List.getD_eq_getElem?_getD, hi]
  rw [get16, h0, h1, UInt8.toNat_ofNat', UInt8.toNat_ofNat']
  omega

/-- A word at another place is not changed. -/
theorem get16_set16_of_ne {bytes : List UInt8} {i j v : Nat} (h : i + 2 ≤ j ∨ j + 2 ≤ i) :
    get16 (set16 bytes i v) j = get16 bytes j := by
  have hget : ∀ k, k ≠ i → k ≠ i + 1 → (set16 bytes i v).getD k 0 = bytes.getD k 0 := by
    intro k hk hk'
    simp [set16, List.getD_eq_getElem?_getD, Ne.symm hk,
      Ne.symm hk']
  rw [get16, get16, hget j (by omega) (by omega), hget (j + 1) (by omega) (by omega)]

theorem set16_set16 (bytes : List UInt8) (i v w : Nat) :
    set16 (set16 bytes i v) i w = set16 bytes i w := by
  simp only [set16]
  rw [List.set_comm _ _ (show i + 1 ≠ i by omega), List.set_set, List.set_set]

/-- A word that is zero already. -/
theorem set16_zero {bytes : List UInt8} {i : Nat} (hi : i + 1 < bytes.length)
    (hzero : get16 bytes i = 0) : set16 bytes i 0 = bytes := by
  have h0 : bytes[i] = 0 := by
    have : (bytes.getD i 0).toNat = 0 := by
      unfold get16 at hzero
      omega
    rw [List.getD_eq_getElem _ _ (by omega)] at this
    exact UInt8.toNat_inj.mp this
  have h1 : bytes[i + 1] = 0 := by
    have : (bytes.getD (i + 1) 0).toNat = 0 := by
      unfold get16 at hzero
      omega
    rw [List.getD_eq_getElem _ _ hi] at this
    exact UInt8.toNat_inj.mp this
  have hset : ∀ j (hj : j < bytes.length), bytes[j] = 0 → bytes.set j 0 = bytes := by
    intro j hj h
    conv => rhs; rw [← List.set_getElem_self hj]
    rw [h]
  show (bytes.set i 0).set (i + 1) 0 = bytes
  rw [hset i (by omega) h0, hset (i + 1) hi h1]

theorem drop_set16 (bytes : List UInt8) (p i v : Nat) :
    (set16 bytes (p + i) v).drop p = set16 (bytes.drop p) i v := by
  rw [set16, set16, List.drop_set, List.drop_set, if_neg (by omega), if_neg (by omega)]
  congr 2 <;> omega

/-- Another word at an even place changes the sum by the difference of the words. -/
theorem total_set16 {bytes : List UInt8} {i v : Nat} (hi : 2 * i + 1 < bytes.length)
    (hv : v < 65536) :
    total (set16 bytes (2 * i) v) + get16 bytes (2 * i) = total bytes + v := by
  induction i generalizing bytes with
  | zero =>
    obtain ⟨b0, b1, rest, rfl⟩ : ∃ b0 b1 rest, bytes = b0 :: b1 :: rest := by
      match bytes, hi with
      | b0 :: b1 :: rest, _ => exact ⟨b0, b1, rest, rfl⟩
    simp only [set16, get16, Nat.mul_zero, List.set_cons_zero, List.set_cons_succ, Nat.zero_add,
      List.getD_cons_zero, List.getD_cons_succ, total_cons, UInt8.toNat_ofNat']
    omega
  | succ i ih =>
    obtain ⟨b0, b1, rest, rfl⟩ : ∃ b0 b1 rest, bytes = b0 :: b1 :: rest := by
      match bytes, hi with
      | b0 :: b1 :: rest, _ => exact ⟨b0, b1, rest, rfl⟩
    have := @ih rest (by simp only [List.length_cons] at hi; omega)
    simp only [set16, get16, Nat.mul_add, Nat.mul_one, List.set_cons_succ, List.getD_cons_succ,
      total_cons] at this ⊢
    omega

theorem bind_ok {α β : Type} (a : α) (f : α → Except Fault β) : (.ok a >>= f) = f a := rfl

/-! ## The pseudo header -/

theorem sumUp_eq (addr : InAddr) :
    addr.sumUp = addr.toNat / 65536 + addr.toNat % 65536 := by
  have hand : addr.toNat &&& 0xffff = addr.toNat % 65536 :=
    Nat.and_two_pow_sub_one_eq_mod addr.toNat 16
  rw [InAddr.sumUp, hand, Nat.shiftRight_eq_div_pow]

theorem sumUp_le (addr : InAddr) : addr.sumUp ≤ 131070 := by
  have := addr.isLt
  rw [sumUp_eq]
  omega

theorem total_octets (addr : InAddr) : total addr.octets = addr.sumUp := by
  have := addr.isLt
  rw [sumUp_eq]
  simp only [InAddr.octets, total_cons, total_nil, UInt8.toNat_ofNat']
  omega

theorem octets_length (addr : InAddr) : addr.octets.length = 4 := rfl

theorem pseudoHeader_length (source destination : InAddr) (proto len : Nat) :
    (pseudoHeader source destination proto len).length = 12 := rfl

/-- What the checksums add to the sum of the bytes. -/
theorem total_pseudoHeader (source destination : InAddr) {proto : Nat} (hproto : proto < 256)
    (len : Nat) :
    total (pseudoHeader source destination proto len) =
      source.sumUp + destination.sumUp + ntohs proto + ntohs len := by
  rw [pseudoHeader, total_append (by rw [List.length_append, octets_length, octets_length]),
    total_append (by rw [octets_length]), total_octets, total_octets]
  simp only [total_cons, total_nil, ntohs, UInt8.toNat_ofNat', UInt8.toNat_zero]
  omega

theorem ntohs_lt (v : Nat) : ntohs v < 65536 := by
  unfold ntohs
  omega

theorem ntohs_ntohs {v : Nat} (h : v < 65536) : ntohs (ntohs v) = v := by
  have hlow : (v % 256 * 256 + v / 256 % 256) % 256 = v / 256 := by omega
  have hhigh : (v % 256 * 256 + v / 256 % 256) / 256 = v % 256 := by omega
  rw [ntohs, ntohs, hlow, hhigh]
  omega

theorem ntohs_eq_swap {v : Nat} (h : v < 65536) : ntohs v = OnesComplement.swap 256 v := by
  unfold ntohs OnesComplement.swap
  omega

/-- The word at a place, read in network order, is the checksum of the bytes when it is the
    complement of what the machine makes of their sum. -/
theorem ntohs_complement (bytes : List UInt8) :
    ntohs (65535 - OnesComplement.norm 65535 (total bytes)) = OnesComplement.checksum bytes := by
  have hle := OnesComplement.norm_le (M := 65535) (n := (OnesComplement.words bytes).sum)
    (by decide)
  rw [total, OnesComplement.norm_sum_swap (by rfl) (by decide), OnesComplement.checksum,
    OnesComplement.sum_eq (by decide) (OnesComplement.words_le bytes)]
  generalize OnesComplement.norm 65535 (OnesComplement.words bytes).sum = x at hle
  have hlow : (65535 - (x % 256 * 256 + x / 256)) % 256 = 255 - x / 256 := by omega
  have hhigh : (65535 - (x % 256 * 256 + x / 256)) / 256 = 255 - x % 256 := by omega
  rw [ntohs, OnesComplement.swap, hlow, hhigh]
  omega

/-! ## Messengers -/

namespace InetMessenger

variable {m : InetMessenger} {i v : Nat}

theorem fix_of_le {count : Nat} (hpos : 0 < count) (hle : count ≤ m.getLength) :
    m.fix count = some (m.bytes.take count) := by
  unfold getLength at hle
  exact if_neg (by omega)

theorem bytes_length (m : InetMessenger) : m.bytes.length = m.getLength := by
  simp [bytes, getLength]

theorem movePosition_back {count : Nat} (h : count ≤ m.position) :
    m.movePosition (-count) = { m with position := m.position - count } := by
  unfold movePosition
  rw [if_neg (by omega)]
  congr 1
  omega

theorem store_bytes (m : InetMessenger) (i v : Nat) : (m.store i v).bytes = set16 m.bytes i v :=
  drop_set16 m.chunk m.position i v

theorem store_getLength (m : InetMessenger) (i v : Nat) :
    (m.store i v).getLength = m.getLength := by
  simp [store, getLength, set16_length]

/-- No sum of the bytes of a datagram overflows. -/
theorem sumUp_of_le {count : Nat} (hle : count ≤ m.getLength) (hmax : count ≤ 65515) :
    m.sumUp count = .ok (total (m.bytes.take count)) := by
  have hlen : (m.bytes.take count).length = count := by
    rw [List.length_take, bytes_length]
    omega
  have htotal := total_le (m.bytes.take count)
  unfold sumUp
  split
  · rename_i h
    rw [h]
    rfl
  · rw [fix_of_le (by omega) hle]
    simp only
    rw [sumUpLoop_eq (by omega), Nat.zero_add]

end InetMessenger

/-- A sum over the pseudo header and the bytes of a datagram. -/
def grandTotal (m : InetMessenger) (bytes : List UInt8) (proto : Nat) : Nat :=
  total (pseudoHeader m.localAddr m.remoteAddr proto bytes.length ++ bytes)

theorem grandTotal_eq (m : InetMessenger) (bytes : List UInt8) {proto : Nat}
    (hproto : proto < 256) :
    grandTotal m bytes proto =
      total bytes + m.remoteAddr.sumUp + m.localAddr.sumUp + ntohs bytes.length + ntohs proto := by
  rw [grandTotal, total_append (by rw [pseudoHeader_length]), total_pseudoHeader _ _ hproto]
  omega

/-- The largest sum fits a `s32`. -/
theorem grandTotal_lt (m : InetMessenger) {bytes : List UInt8} {proto : Nat} (hproto : proto < 256)
    (hlen : bytes.length ≤ 65515) : grandTotal m bytes proto < 2147483648 := by
  have h1 := sumUp_le m.remoteAddr
  have h2 := sumUp_le m.localAddr
  have h3 := ntohs_lt bytes.length
  have h4 := ntohs_lt proto
  have h5 := total_le bytes
  rw [grandTotal_eq m bytes hproto]
  omega

/-- The sum does not tell the two ends apart. -/
theorem grandTotal_arrived (m : InetMessenger) (bytes : List UInt8) {proto : Nat}
    (hproto : proto < 256) :
    grandTotal m.arrived bytes proto = grandTotal m bytes proto := by
  rw [grandTotal_eq _ _ hproto, grandTotal_eq _ _ hproto]
  simp only [InetMessenger.arrived]
  omega

theorem grandTotal_congr {m m' : InetMessenger} (hlocal : m.localAddr = m'.localAddr)
    (hremote : m.remoteAddr = m'.remoteAddr) (bytes : List UInt8) (proto : Nat) :
    grandTotal m bytes proto = grandTotal m' bytes proto := by
  rw [grandTotal, grandTotal, hlocal, hremote]

/-- A sum is never zero, as its protocol is not. -/
theorem grandTotal_pos (m : InetMessenger) (bytes : List UInt8) {proto : Nat}
    (hproto : proto < 256) (hpos : 0 < proto) : 0 < grandTotal m bytes proto := by
  have : 0 < ntohs proto := by
    unfold ntohs
    omega
  rw [grandTotal_eq m bytes hproto]
  omega

/-- The sum with `v` in the place of a zero word. -/
theorem grandTotal_set16 (m : InetMessenger) {bytes : List UInt8} {proto i v : Nat}
    (hproto : proto < 256) (hi : 2 * i + 1 < bytes.length) (hv : v < 65536)
    (hzero : get16 bytes (2 * i) = 0) :
    grandTotal m (set16 bytes (2 * i) v) proto = grandTotal m bytes proto + v := by
  have htotal := total_set16 hi hv
  rw [grandTotal_eq _ _ hproto, grandTotal_eq _ _ hproto, set16_length]
  omega

/-- A sum that is completed by its complement. -/
theorem complement_completed {n : Nat} (h : n + (65535 - OnesComplement.norm 65535 n) < 2147483648) :
    complement (n + (65535 - OnesComplement.norm 65535 n)) = 0 :=
  complement_eq_zero h (OnesComplement.norm_complement (by decide) n)

/-- A sum that is zero already is completed by all ones. -/
theorem complement_all_ones {n : Nat} (h : n + 65535 < 2147483648)
    (hzero : OnesComplement.norm 65535 n = 65535) : complement (n + 65535) = 0 := by
  have hmod : n % 65535 = 0 := by rw [← OnesComplement.norm_mod, hzero]
  refine complement_eq_zero h (OnesComplement.eq_norm (by decide) (Nat.le_refl _) ?_ ?_).symm
  · omega
  · omega

/-! ## The round trips -/

/-- What a protocol makes of its datagrams: `sent`, of `len` bytes, goes out for `m`, with the checksum
    at `place`. The machine at the other end finds the sum right, and the checksum is `stored` of
    that of the datagram with zero in its place. -/
structure RoundTrip (check : InetMessenger → Except Fault (BitVec 16)) (proto place : Nat)
    (stored : Nat → Nat) (len : Nat) (m sent : InetMessenger) : Prop where
  length : sent.bytes.length = len
  localAddr : sent.localAddr = m.localAddr
  remoteAddr : sent.remoteAddr = m.remoteAddr
  verifies : check sent.arrived = .ok 0
  checksum : ntohs (get16 sent.bytes place) =
    stored (OnesComplement.checksum
      (pseudoHeader m.localAddr m.remoteAddr proto len ++ set16 sent.bytes place 0))

/-- A datagram that is ready but for the checksum is completed by a checksum `c`. -/
theorem RoundTrip.completed {check : InetMessenger → Except Fault (BitVec 16)}
    {proto place i c len : Nat} {stored : Nat → Nat} {m ready sent : InetMessenger}
    (hproto : proto < 256) (hplace : place = 2 * i) (hlen : ready.bytes.length = len)
    (hlocal : ready.localAddr = m.localAddr) (hremote : ready.remoteAddr = m.remoteAddr)
    (hi : place + 1 < len) (hzero : get16 ready.bytes place = 0) (hc : c < 65536)
    (hbytes : sent.bytes = set16 ready.bytes place c) (hlocal' : sent.localAddr = m.localAddr)
    (hremote' : sent.remoteAddr = m.remoteAddr)
    (hcheck : check sent.arrived = .ok (complement (grandTotal sent.arrived sent.bytes proto)))
    (hsum : complement (grandTotal ready ready.bytes proto + c) = 0)
    (hstored : ntohs c =
      stored (ntohs (65535 - OnesComplement.norm 65535 (grandTotal ready ready.bytes proto)))) :
    RoundTrip check proto place stored len m sent := by
  subst hplace
  rw [← hlen] at hi
  refine ⟨by rw [hbytes, set16_length, hlen], hlocal', hremote', ?_, ?_⟩
  · rw [hcheck, grandTotal_arrived _ _ hproto, hbytes,
      grandTotal_congr (hlocal'.trans hlocal.symm) (hremote'.trans hremote.symm),
      grandTotal_set16 ready hproto hi hc hzero, hsum]
  · rw [hbytes, get16_set16 hi hc, set16_set16, set16_zero hi hzero, hstored, grandTotal,
      ntohs_complement, hlocal, hremote, hlen]

namespace TCPReceiver

variable {m : InetMessenger}

theorem checksum_eq (hmax : m.getLength ≤ 65515) :
    checksum m = .ok (complement (grandTotal m m.bytes IPPROTO_TCP)) := by
  have hbytes := m.bytes_length
  have htake : m.bytes.take m.getLength = m.bytes := by rw [← hbytes, List.take_length]
  have hlt := @grandTotal_lt m m.bytes IPPROTO_TCP (by decide) (by omega)
  rw [grandTotal_eq _ _ (by decide), hbytes] at hlt ⊢
  simp only [checksum, InetMessenger.sumUp_of_le (Nat.le_refl _) hmax, htake]
  rw [bind_ok, addS32_ok (by omega), bind_ok, addS32_ok (by omega), bind_ok,
    addS32_ok (by omega), bind_ok, addS32_ok (by omega)]
  rfl

/-- A segment that goes out is summed right at the other end. -/
theorem output_spec (hmin : hdrSize ≤ m.getLength) (hmax : m.getLength ≤ 65515) :
    ∃ sent, output m = .ok (true, sent) ∧
      RoundTrip checksum IPPROTO_TCP 16 id m.getLength m sent := by
  have hlen : 20 ≤ m.getLength := hmin
  let ready := ((m.store 0 (ntohs m.localPort)).store 2 (ntohs m.remotePort)).store 16 0
  have hready : ready.getLength = m.getLength := by
    simp only [ready, InetMessenger.store_getLength]
  have hbytes : ready.bytes.length = m.getLength := ready.bytes_length.trans hready
  have hzero : get16 ready.bytes 16 = 0 := by
    rw [InetMessenger.store_bytes]
    rw [InetMessenger.store_bytes, set16_length] at hbytes
    exact get16_set16 (by omega) (by decide)
  have hlt := @grandTotal_lt ready ready.bytes IPPROTO_TCP (by decide) (by omega)
  have hc := complement_toNat hlt
  generalize hsum : complement (grandTotal ready ready.bytes IPPROTO_TCP) = sum at hc
  let sent : InetMessenger := { ready.store 16 sum.toNat with type := IPPROTO_TCP }
  have hsent : sent.bytes = set16 ready.bytes 16 sum.toNat := ready.store_bytes 16 sum.toNat
  have hsentLen : sent.getLength = m.getLength := by
    rw [← sent.bytes_length, hsent, set16_length, hbytes]
  have harrived : sent.arrived.getLength ≤ 65515 := Nat.le_trans (Nat.le_of_eq hsentLen) hmax
  have hmore : grandTotal ready ready.bytes IPPROTO_TCP + sum.toNat < 2147483648 := by
    rw [← grandTotal_set16 (i := 8) ready (by decide) (by omega) sum.isLt hzero, ← hsent]
    exact grandTotal_lt ready (by decide) (by rw [sent.bytes_length]; omega)
  refine ⟨sent, ?_, .completed (i := 8) (c := sum.toNat) (by decide) rfl hbytes rfl rfl (by omega)
    hzero sum.isLt hsent rfl rfl (checksum_eq harrived) ?_ (by rw [hc]; rfl)⟩
  · simp only [output, InetMessenger.fix_of_le (by decide : 0 < hdrSize) hmin]
    change (checksum ready >>= fun sum =>
      pure (true, { ready.store 16 sum.toNat with type := IPPROTO_TCP })) = _
    rw [checksum_eq (by omega), hsum]
    rfl
  · rw [hc] at hmore ⊢
    exact complement_completed hmore

end TCPReceiver

namespace UDPReceiver

variable {m : InetMessenger}

theorem checksum_eq (hmin : hdrSize ≤ m.getLength) (hmax : m.getLength ≤ 65515)
    (hlen : get16 m.bytes 4 = ntohs m.getLength) :
    checksum m = .ok (complement (grandTotal m m.bytes IPPROTO_UDP)) := by
  have hbytes := m.bytes_length
  have htake : m.bytes.take m.getLength = m.bytes := by rw [← hbytes, List.take_length]
  have hfield : get16 (m.bytes.take hdrSize) 4 = ntohs m.getLength := by
    rw [← hlen]
    simp [get16, hdrSize, List.getD_eq_getElem?_getD]
  have hlt := @grandTotal_lt m m.bytes IPPROTO_UDP (by decide) (by omega)
  rw [grandTotal_eq _ _ (by decide), hbytes] at hlt ⊢
  simp only [checksum, InetMessenger.fix_of_le (by decide : 0 < hdrSize) hmin, hfield,
    ntohs_ntohs (show m.getLength < 65536 by omega),
    InetMessenger.sumUp_of_le (Nat.le_refl _) hmax, htake]
  rw [bind_ok, addS32_ok (by omega), bind_ok, addS32_ok (by omega), bind_ok,
    addS32_ok (by omega), bind_ok, addS32_ok (by omega)]
  rfl

/-- What `output` stores for a checksum: all ones for zero. -/
def stored (c : Nat) : Nat := if c = 0 then 65535 else c

/-- No sum of a datagram that passed the checks of its length overflows. -/
theorem checksum_ok (hmin : hdrSize ≤ m.getLength)
    (hlen : ntohs (get16 m.bytes 4) ≤ m.getLength) (hmax : ntohs (get16 m.bytes 4) ≤ 65515) :
    ∃ c, checksum m = .ok c := by
  have hfield : get16 (m.bytes.take hdrSize) 4 = get16 m.bytes 4 := by
    simp [get16, hdrSize, List.getD_eq_getElem?_getD]
  have h1 := sumUp_le m.remoteAddr
  have h2 := sumUp_le m.localAddr
  have h3 := get16_lt m.bytes 4
  have h4 : ntohs IPPROTO_UDP = 4352 := rfl
  have h5 := total_le (m.bytes.take (ntohs (get16 m.bytes 4)))
  rw [List.length_take, m.bytes_length, Nat.min_eq_left hlen] at h5
  simp only [checksum, InetMessenger.fix_of_le (by decide : 0 < hdrSize) hmin, hfield,
    InetMessenger.sumUp_of_le hlen hmax]
  rw [bind_ok, addS32_ok (by omega), bind_ok, addS32_ok (by omega), bind_ok,
    addS32_ok (by omega), bind_ok, addS32_ok (by omega)]
  exact ⟨_, rfl⟩

/-- A datagram that goes out is summed right at the other end. -/
theorem output_spec (hroom : hdrSize ≤ m.position) (hpos : m.position ≤ m.chunk.length)
    (hmax : hdrSize + m.getLength ≤ 65515) :
    ∃ sent, output m = .ok (true, sent) ∧
      RoundTrip checksum IPPROTO_UDP 6 stored (hdrSize + m.getLength) m sent := by
  have hroom' : 8 ≤ m.position := hroom
  let front : InetMessenger := { m with position := m.position - hdrSize }
  have hmove : m.movePosition (-hdrSize) = front := InetMessenger.movePosition_back hroom
  have hfront : front.getLength = hdrSize + m.getLength := by
    simp only [front, InetMessenger.getLength, hdrSize]
    omega
  have hmin : 8 ≤ hdrSize + m.getLength := Nat.le_add_right _ _
  generalize hlen : hdrSize + m.getLength = len at *
  let ready := (((front.store 0 (ntohs m.localPort)).store 2 (ntohs m.remotePort)).store 4
    (ntohs len)).store 6 0
  have hready : ready.getLength = len := by
    simp only [ready, InetMessenger.store_getLength, hfront]
  have hbytes : ready.bytes.length = len := ready.bytes_length.trans hready
  have hzero : get16 ready.bytes 6 = 0 := by
    rw [InetMessenger.store_bytes]
    rw [InetMessenger.store_bytes, set16_length] at hbytes
    exact get16_set16 (by omega) (by decide)
  have hfield : get16 ready.bytes 4 = ntohs len := by
    simp only [ready, InetMessenger.store_bytes] at hbytes ⊢
    rw [get16_set16_of_ne (by omega)]
    simp only [set16_length] at hbytes
    exact get16_set16 (by simp only [set16_length]; omega) (ntohs_lt len)
  have hlt := @grandTotal_lt ready ready.bytes IPPROTO_UDP (by decide) (by omega)
  have hc := complement_toNat hlt
  generalize hsum : complement (grandTotal ready ready.bytes IPPROTO_UDP) = sum at hc
  generalize hc' : (if sum = 0 then 0xffff else sum.toNat) = c
  have hclt : c < 65536 := by
    have := sum.isLt
    rw [← hc']
    split <;> omega
  let sent : InetMessenger := { ready.store 6 c with type := IPPROTO_UDP }
  have hsent : sent.bytes = set16 ready.bytes 6 c := ready.store_bytes 6 c
  have hsentLen : sent.getLength = len := by
    rw [← sent.bytes_length, hsent, set16_length, hbytes]
  have hmore : grandTotal ready ready.bytes IPPROTO_UDP + c < 2147483648 := by
    rw [← grandTotal_set16 (i := 3) ready (by decide) (by omega) hclt hzero, ← hsent]
    exact grandTotal_lt ready (by decide) (by rw [sent.bytes_length]; omega)
  have hcheck : checksum sent.arrived =
      .ok (complement (grandTotal sent.arrived sent.bytes IPPROTO_UDP)) := by
    refine checksum_eq (m := sent.arrived) ?_ ?_ ?_
    · exact Nat.le_trans hmin (Nat.le_of_eq hsentLen.symm)
    · exact Nat.le_trans (Nat.le_of_eq hsentLen) hmax
    · show get16 sent.bytes 4 = ntohs sent.getLength
      rw [hsent, get16_set16_of_ne (by omega), hfield, hsentLen]
  refine ⟨sent, ?_, .completed (i := 3) (c := c) (by decide) rfl hbytes rfl rfl (by omega)
    hzero hclt hsent rfl rfl hcheck ?_ ?_⟩
  · unfold output
    simp only [hlen, hmove]
    rw [if_neg (by simp only [hdrSize]; omega),
      InetMessenger.fix_of_le (by decide : 0 < hdrSize) (by rw [hfront]; exact hmin)]
    change (checksum ready >>= fun sum =>
      pure (true,
        { ready.store 6 (if sum = 0 then 0xffff else sum.toNat) with type := IPPROTO_UDP })) = _
    rw [checksum_eq (by rw [hready]; exact hmin) (by omega) (by rw [hfield, hready]), hsum, bind_ok,
      hc']
    rfl
  · by_cases hz : sum = 0
    · rw [if_pos hz] at hc'
      rw [hz] at hc
      have hnorm : OnesComplement.norm 65535 (grandTotal ready ready.bytes IPPROTO_UDP) = 65535 := by
        have hle := OnesComplement.norm_le (M := 65535) (n := grandTotal ready ready.bytes IPPROTO_UDP)
          (by decide)
        have : (0 : BitVec 16).toNat = 0 := rfl
        omega
      rw [← hc'] at hmore ⊢
      exact complement_all_ones hmore hnorm
    · rw [if_neg hz, hc] at hc'
      rw [← hc'] at hmore ⊢
      exact complement_completed hmore
  · rw [← hc, ← hc', stored]
    by_cases hz : sum = 0
    · rw [if_pos hz, hz]
      decide
    · have hpos : sum.toNat ≠ 0 := fun h => hz (BitVec.eq_of_toNat_eq h)
      have := sum.isLt
      rw [if_neg hz, if_neg]
      unfold ntohs
      omega

end UDPReceiver

/-- For a segment of every length up to 65515 bytes: no sum overflows, the checksum is that of the
    bytes and the pseudo header (all ones for a zero of UDP), and the sum at the other end is
    zero. -/
theorem transport_checksum (m : InetMessenger) :
    (m.getLength ≤ 65515 → ∃ c, TCPReceiver.checksum m = .ok c) ∧
    (8 ≤ m.getLength → ntohs (get16 m.bytes 4) ≤ m.getLength → m.getLength ≤ 65515 →
      ∃ c, UDPReceiver.checksum m = .ok c) ∧
    (20 ≤ m.getLength → m.getLength ≤ 65515 →
      ∃ sent, TCPReceiver.output m = .ok (true, sent) ∧
        RoundTrip TCPReceiver.checksum IPPROTO_TCP 16 id m.getLength m sent) ∧
    (8 ≤ m.position → m.position ≤ m.chunk.length → 8 + m.getLength ≤ 65515 →
      ∃ sent, UDPReceiver.output m = .ok (true, sent) ∧
        RoundTrip UDPReceiver.checksum IPPROTO_UDP 6 UDPReceiver.stored (8 + m.getLength) m sent) :=
  ⟨fun hmax => ⟨_, TCPReceiver.checksum_eq hmax⟩,
    fun hmin hlen hmax => UDPReceiver.checksum_ok hmin hlen (Nat.le_trans hlen hmax),
    TCPReceiver.output_spec, UDPReceiver.output_spec⟩

/-- A header of zeros, with room in front. -/
def zeros : InetMessenger := ⟨List.replicate 28 0, 8, 0, 0, 0x0100000a, 0x0200000a, 80, 1024, 0⟩

theorem transport_checksum_zeros :
    (∃ sent, TCPReceiver.output zeros = .ok (true, sent) ∧
      RoundTrip TCPReceiver.checksum IPPROTO_TCP 16 id zeros.getLength zeros sent) ∧
    (∃ sent, UDPReceiver.output zeros = .ok (true, sent) ∧
      RoundTrip UDPReceiver.checksum IPPROTO_UDP 6 UDPReceiver.stored (8 + zeros.getLength) zeros
        sent) :=
  ⟨(transport_checksum zeros).2.2.1 (by decide) (by decide),
    (transport_checksum zeros).2.2.2 (by decide) (by decide) (by decide)⟩

end EsOs.Net
