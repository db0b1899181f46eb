import EsOs.Net.Proofs.SackOption

/-! # The room for the options

`output` counts the size of the options before it adds ACK to the flags, and `countOptionSize` counts
the blocks in use where `TCPOptSack` writes all of its table. So there is no room for a SACK option
that is written all the same. -/

namespace EsOs.Net.StreamReceiver

variable {s s' : StreamReceiver} {flag : Flags}

/-! ## What the sizes depend on -/

/-- The state and the data of the SACK option are the same. -/
structure SameOption (s s' : StreamReceiver) : Prop where
  state : s'.state = s.state
  sack : s'.sack = s.sack
  asb : s'.asb = s.asb

namespace SameOption

theorem refl (s : StreamReceiver) : SameOption s s := ⟨rfl, rfl, rfl⟩

theorem trans {s'' : StreamReceiver} (h : SameOption s s') (h' : SameOption s' s'') :
    SameOption s s'' :=
  ⟨h'.state.trans h.state, h'.sack.trans h.sack, h'.asb.trans h.asb⟩

end SameOption

end EsOs.Net.StreamReceiver
