import EsOs.Net.Proofs.Received
import EsOs.Net.SackOption

/-! # The SACK option read back

`TCPOptSack` counts an edge for every entry of the table, used or not, and writes the edges of the
used ones last. So the option is right when the whole table is in use and only then. -/

namespace EsOs.Net

open EsOs.Lib

/-! ## Words and edges -/

namespace StreamReceiver

end StreamReceiver

/-! ## The loop over the table -/

section Loop

variable {edge head size : Nat} {offset : BitVec 32} {asb : List Vec}

end Loop

/-! ## The option -/

namespace Ring

/-- The blocks of a ring lie behind its data and hold something. -/
structure Holding (r : Ring) (blocks : List Vec) : Prop where
  wf : r.Wf
  data_lt : ∀ b ∈ blocks, b.data < r.size
  pos : ∀ b ∈ blocks, 0 < b.count
  fits : ∀ b ∈ blocks, r.used + r.blockPos b + b.count ≤ r.size

/-- A run of a ring leads to such blocks. -/
theorem holding_of_run {stream : Nat → UInt8} {maxblock : Nat} {s : Receiving}
    (hrun : (Receiving.system stream maxblock).RunWith Receiving.ShortOfBlocks s) :
    s.ring.Holding s.blocks where
  wf := (Receiving.run_sound hrun).wf
  data_lt b hb := ((Receiving.run_sound hrun).stored b hb).data_lt
  pos b hb := ((Receiving.run_sound hrun).beyond b hb).2
  fits b hb := ((Receiving.run_sound hrun).stored b hb).fits

end Ring

namespace StreamReceiver

variable {s : StreamReceiver}

variable {flag : Flags}

end StreamReceiver

end EsOs.Net
