import EsOs.Net.Resolver

/-!
# The replies of a DHCP server

What `DHCPControl::reply` reads of a datagram (`os/net/src/dhcp.cpp`, `include/es/net/dhcp.h`). The
message is the list of the bytes that were received, as many of them as the buffer holds; a pointer
into it is an offset. A read behind it is told apart from results. An address is the list of its
bytes.
-/

namespace EsOs.Net.DHCPControl

open EsOs.Lib

/-! ## Options -/

/-- `DHCPInfo` (`dhcp.cpp:50-75`). -/
structure DHCPInfo where
  ipaddr : List UInt8 := List.replicate 4 0
  netmask : List UInt8 := List.replicate 4 0
  router : List UInt8 := List.replicate 4 0
  dns : List UInt8 × List UInt8 := (List.replicate 4 0, List.replicate 4 0)
  host : List UInt8 := List.replicate 256 0
  domain : List UInt8 := List.replicate 256 0
  ttl : UInt8 := 0
  mtu : Nat := 0
  broadcast : List UInt8 := List.replicate 4 0
  lease : Nat := 0
  server : List UInt8 := List.replicate 4 0
  renewal : Nat := 0
  rebinding : Nat := 0
  staticRoute : List UInt8 := List.replicate 8 0
deriving DecidableEq, Repr

/-- What has been read of the options: `tentative` and the variables of `reply` that outlast a turn of
    its loop. -/
structure Decoded where
  tentative : DHCPInfo := {}
  messageType : UInt8 := 0
  overloaded : Bool := false
  sname : Bool := false
  file : Bool := false
deriving DecidableEq, Repr

/-- `DHCPOption::Pad`, `DHCPOption::End` -/
def pad : UInt8 := 0
def fin : UInt8 := 255

/-- `ntohl(*(u32*) vend)` -/
def be32 (bytes : List UInt8) : Nat :=
  Resolver.be16 bytes 0 * 65536 + Resolver.be16 bytes 2

/-- `memmove(text, vend, len)` and the null character behind it. -/
def terminated (old data : List UInt8) : List UInt8 :=
  data ++ 0 :: old.drop (data.length + 1)

/-- What the loop does with an option: it refuses the length, has no use for the option, or reads so
    many bytes at `vend`. -/
inductive Handling
  | refused
  | ignored
  | reads (n : Nat) (store : List UInt8 → Decoded)

/-- The `switch` over the options (`dhcp.cpp:328-459`) for an option of `len` bytes. -/
def handle (d : Decoded) (type : UInt8) (len : Nat) : Handling :=
  let info := d.tentative
  let set (info : DHCPInfo) : Decoded := { d with tentative := info }
  match type.toNat with
  | 1 => if len ≠ 4 then .refused else .reads 4 fun data => set { info with netmask := data }
  | 3 =>
    if len = 0 ∨ len % 4 ≠ 0 then .refused
    else .reads 4 fun data => set { info with router := data }
  | 6 =>
    if len = 0 ∨ len % 4 ≠ 0 then .refused
    else if 8 ≤ len then .reads 8 fun data => set { info with dns := (data.take 4, data.drop 4) }
    else .reads 4 fun data => set { info with dns := (data, info.dns.2) }
  | 12 => .reads len fun data => set { info with host := terminated info.host data }
  | 15 => .reads len fun data => set { info with domain := terminated info.domain data }
  | 23 =>
    .reads 1 fun data => if 0 < data.getD 0 0 then set { info with ttl := data.getD 0 0 } else d
  | 26 =>
    .reads 2 fun data =>
      if 68 ≤ Resolver.be16 data 0 then set { info with mtu := Resolver.be16 data 0 } else d
  | 28 => if len ≠ 4 then .refused else .reads 4 fun data => set { info with broadcast := data }
  | 33 =>
    if len = 0 ∨ len % 8 ≠ 0 then .refused
    else .reads (min 8 len) fun data => set { info with staticRoute := data }
  | 51 => if len ≠ 4 then .refused else .reads 4 fun data => set { info with lease := be32 data }
  | 52 =>
    if len ≠ 1 ∨ d.overloaded then .refused
    else .reads 1 fun data =>
      { d with
        overloaded := true
        file := d.file || data.getD 0 0 = 1 || data.getD 0 0 = 3
        sname := d.sname || data.getD 0 0 = 2 || data.getD 0 0 = 3 }
  | 53 =>
    if len ≠ 1 then .refused else .reads 1 fun data => { d with messageType := data.getD 0 0 }
  | 54 => if len ≠ 4 then .refused else .reads 4 fun data => set { info with server := data }
  | 58 => if len ≠ 4 then .refused else .reads 4 fun data => set { info with renewal := be32 data }
  | 59 => if len ≠ 4 then .refused else .reads 4 fun data => set { info with rebinding := be32 data }
  | _ => .ignored

/-- What becomes of an option. -/
inductive Stored
  | kept (d : Decoded)
  /-- `reply` returns 0. -/
  | refused
  /-- A byte behind the message is read. -/
  | outside
deriving DecidableEq, Repr

/-- The same with the bytes of the message from `vend` on. -/
def option (d : Decoded) (type : UInt8) (len : Nat) (bytes : List UInt8) : Stored :=
  match handle d type len with
  | .refused => .refused
  | .ignored => .kept d
  | .reads n store => if n ≤ bytes.length then .kept (store (bytes.take n)) else .outside

/-! ## The loop -/

/-- `sizeof(DHCPHdr)` -/
def hdrSize : Nat := 240

/-- The variables of the loop, with `vend` as an offset of the message. -/
structure ReplyState where
  vend : Nat
  optlen : Int
  decoded : Decoded
deriving DecidableEq, Repr

/-- What a turn of the loop comes to. -/
inductive ReplyTurn
  | goes (state : ReplyState)
  | returns (type : UInt8) (tentative : DHCPInfo)
  /-- A byte behind the message is read. -/
  | outside
deriving DecidableEq, Repr

/-- `dhcp->yiaddr` -/
def yiaddr (msg : List UInt8) : List UInt8 := (msg.drop 16).take 4

/-- The addresses that are refused (`dhcp.cpp:486-490`, `inet4.h:250-276`). -/
def RefusedAddress (addr : List UInt8) : Prop :=
  addr.getD 0 0 &&& 0xf0 = 0xe0 ∨ addr.getD 0 0 &&& 0xf8 = 0xf0 ∨ addr = [0, 0, 0, 0] ∨
    addr = [127, 0, 0, 1] ∨ addr = [255, 255, 255, 255]

instance (addr : List UInt8) : Decidable (RefusedAddress addr) := by
  unfold RefusedAddress
  infer_instance

/-- The times of renewal and rebinding (`dhcp.cpp:499-513`). -/
def timers (info : DHCPInfo) : DHCPInfo :=
  let renewal := if info.renewal = 0 ∨ info.lease ≤ info.renewal then info.lease / 2
    else info.renewal
  let rebinding := if info.rebinding = 0 ∨ info.lease ≤ info.rebinding then 7 * info.lease / 8
    else info.rebinding
  let renewal := if rebinding ≤ renewal then 4 * rebinding / 7 else renewal
  { info with renewal := renewal, rebinding := rebinding }

/-- What `reply` does behind the loop (`dhcp.cpp:481-515`): its result, and `tentative`. -/
def finish (msg : List UInt8) (d : Decoded) : UInt8 × DHCPInfo :=
  if (d.messageType = 2 ∨ d.messageType = 5) ∧ RefusedAddress (yiaddr msg) then (0, d.tentative)
  else (d.messageType, timers { d.tentative with ipaddr := yiaddr msg })

/-- Behind an area of options (`dhcp.cpp:465-479`): to the next one that is overloaded. -/
def areaEnd (msg : List UInt8) (d : Decoded) : ReplyTurn :=
  if d.sname then .goes ⟨44, 64, { d with sname := false }⟩
  else if d.file then .goes ⟨108, 128, { d with file := false }⟩
  else .returns (finish msg d).1 (finish msg d).2

/-- A turn of the loop (`dhcp.cpp:305-463`). -/
def replyTurn (msg : List UInt8) (state : ReplyState) : ReplyTurn :=
  let d := state.decoded
  if state.optlen ≤ 0 then areaEnd msg d
  else
    match msg.drop state.vend with
    | [] => .outside
    | type :: rest =>
      if type = fin then areaEnd msg d
      else if type = pad then .goes ⟨state.vend + 2, state.optlen - 2, d⟩
      else if state.optlen - 1 < 1 then .returns 0 d.tentative
      else
        match rest with
        | [] => .outside
        | len :: bytes =>
          if state.optlen - 2 < len.toNat then .returns 0 d.tentative
          else
            match option d type len.toNat bytes with
            | .kept d => .goes ⟨state.vend + 2 + len.toNat, state.optlen - 2 - len.toNat, d⟩
            | .refused => .returns 0 d.tentative
            | .outside => .outside

/-- The state behind a turn that goes on. -/
def replyNext (msg : List UInt8) (state : ReplyState) : Option ReplyState :=
  match replyTurn msg state with
  | .goes state => some state
  | _ => none

/-- `sizeof(sizeof(DHCPHdr))`, the size of a `size_t`. -/
def sizeofSize (wide : Bool) : Nat := if wide then 8 else 4

/-- The state before the loop (`dhcp.cpp:301-302`). -/
def replyStart (wide : Bool) (msg : List UInt8) : ReplyState :=
  ⟨hdrSize, msg.length - sizeofSize wide, {}⟩

/-- The test of the header (`dhcp.cpp:274-286`). -/
def IsReply (xid : Nat) (msg : List UInt8) : Prop :=
  hdrSize ≤ msg.length ∧ msg.getD 0 0 = 2 ∧ msg.getD 1 0 = 1 ∧ msg.getD 2 0 = 6 ∧
    be32 ((msg.drop 4).take 4) = xid ∧ (msg.drop 236).take 4 = [99, 130, 83, 99]

/-- `reply` returns (`dhcp.cpp:272-516`), with `tentative` behind it. -/
inductive ReplyReturns (wide : Bool) (xid : Nat) (msg : List UInt8) (tentative : DHCPInfo) :
    UInt8 → DHCPInfo → Prop
  | refuses : ¬ IsReply xid msg → ReplyReturns wide xid msg tentative 0 tentative
  | returns {n last type info} : IsReply xid msg →
      iterated (replyNext msg) n (replyStart wide msg) = some last →
      replyTurn msg last = .returns type info → ReplyReturns wide xid msg tentative type info

/-! ## The options of a message -/

/-- `dhcp->sname`, `dhcp->file` -/
def snameOf (msg : List UInt8) : List UInt8 := (msg.drop 44).take 64
def fileOf (msg : List UInt8) : List UInt8 := (msg.drop 108).take 128

/-- A sequence of options: pads anywhere, options with their lengths, and the end, which the overloaded
    fields may do without. -/
inductive Options (closed : Bool) : List UInt8 → List (UInt8 × List UInt8) → Prop
  | closes {rest} : Options closed (fin :: rest) []
  | ends : closed = false → Options closed [] []
  | pads {bytes os} : Options closed bytes os → Options closed (pad :: bytes) os
  | option {type len data bytes os} : type ≠ pad → type ≠ fin → len.toNat = data.length →
      (type = 23 → 1 ≤ data.length) → (type = 26 → 2 ≤ data.length) → Options closed bytes os →
      Options closed (type :: len :: (data ++ bytes)) ((type, data) :: os)

/-- What the options say, taken one after the other; nothing if one of them is refused. -/
def decode : Decoded → List (UInt8 × List UInt8) → Option Decoded
  | d, [] => some d
  | d, (type, data) :: os =>
    match option d type data.length data with
    | .kept d => decode d os
    | _ => none

/-- What is known behind a field of the header, which holds options if it is overloaded. -/
def AreaDecodes (overloaded : Bool) (area : List UInt8) (d : Decoded) (r : Option Decoded) : Prop :=
  if overloaded then ∃ os, Options false area os ∧ decode d os = r else r = some d

/-- What the options of a well formed message say: those behind the header, and those of the fields
    that they overload. -/
def Decodes (msg : List UInt8) (r : Option Decoded) : Prop :=
  ∃ os, Options true (msg.drop hdrSize) os ∧
    match decode {} os with
    | none => r = none
    | some d => ∃ r', AreaDecodes d.sname (snameOf msg) { d with sname := false } r' ∧
      match r' with
      | none => r = none
      | some d => AreaDecodes d.file (fileOf msg) { d with file := false } r

/-- What `reply` does with the options: it comes to an end and reads nothing but the message, it says
    what the options say, and the times it gives are in order. -/
structure RepliesRight (wide : Bool) (xid : Nat) (msg : List UInt8) : Prop where
  ends : IsReply xid msg → Halts (replyNext msg) (replyStart wide msg)
  inside : IsReply xid msg → ∀ n state,
    iterated (replyNext msg) n (replyStart wide msg) = some state → replyTurn msg state ≠ .outside
  decodes : IsReply xid msg → ∀ r, Decodes msg r → ∀ tentative type info,
    ReplyReturns wide xid msg tentative type info →
    match r with
    | none => type = 0
    | some d => (type, info) = finish msg d
  timers : ∀ tentative type info, ReplyReturns wide xid msg tentative type info → type ≠ 0 →
    info.renewal ≤ info.rebinding ∧ info.rebinding ≤ info.lease

/-! ## The options that are read as they are -/

/-- The options of an area are read as they are: each pad is followed by another one, and they come to
    the end inside the area, or to an option that is refused. `behind` is what follows the area, and
    `slack` is how far behind it the loop goes. -/
inductive PaddedInPairs (closed : Bool) (slack : Nat) (behind : List UInt8) :
    Decoded → List UInt8 → Prop
  | closes {d rest} : PaddedInPairs closed slack behind d (fin :: rest)
  | ends {d} : closed = false → PaddedInPairs closed slack behind d []
  | last {d} : closed = false → PaddedInPairs closed slack behind d [pad]
  | cut {d type} : closed = false → type ≠ pad → type ≠ fin →
      PaddedInPairs closed slack behind d [type]
  | pads {d bytes} : PaddedInPairs closed slack behind d bytes →
      PaddedInPairs closed slack behind d (pad :: pad :: bytes)
  | long {d type len bytes} : type ≠ pad → type ≠ fin → bytes.length + slack < len.toNat →
      PaddedInPairs closed slack behind d (type :: len :: bytes)
  | refused {d type len bytes} : type ≠ pad → type ≠ fin →
      option d type len.toNat (bytes ++ behind) = .refused →
      PaddedInPairs closed slack behind d (type :: len :: bytes)
  | option {d d' type len bytes} : type ≠ pad → type ≠ fin → len.toNat ≤ bytes.length →
      option d type len.toNat (bytes ++ behind) = .kept d' →
      PaddedInPairs closed slack behind d' (bytes.drop len.toNat) →
      PaddedInPairs closed slack behind d (type :: len :: bytes)

/-- How far the loop goes behind the datagram. -/
def slack (wide : Bool) : Nat := hdrSize - sizeofSize wide

/-- All areas of a message are read as they are, as far as they hold options. -/
structure ReadAsIs (wide : Bool) (msg : List UInt8) : Prop where
  options : PaddedInPairs true (slack wide) [] {} (msg.drop hdrSize)
  sname : ∀ os d os', Options true (msg.drop hdrSize) os → decode {} os = some d → d.sname →
    Options false (snameOf msg) os' →
    PaddedInPairs false 0 (msg.drop 108) { d with sname := false } (snameOf msg)
  file : ∀ os d d' os', Options true (msg.drop hdrSize) os → decode {} os = some d →
    AreaDecodes d.sname (snameOf msg) { d with sname := false } (some d') → d'.file →
    Options false (fileOf msg) os' →
    PaddedInPairs false 0 (msg.drop 236) { d' with file := false } (fileOf msg)

end EsOs.Net.DHCPControl
