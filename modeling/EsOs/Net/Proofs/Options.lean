import EsOs.Net.Options
import EsOs.Net.Proofs.Window

/-!
# The options of a header are read safely

`opt` and `optlen` always add up to the option area, and every turn that goes on makes `optlen`
smaller.
-/

namespace EsOs.Net

open EsOs.Lib

namespace StreamReceiver

variable {hdr : TCPHdr} {state next : OptionState}

/-- What is left lies between `opt` and the end of the header. -/
structure OptionState.Within (hdr : TCPHdr) (state : OptionState) : Prop where
  sum : 0 < state.optlen → 20 + state.opt + state.optlen = hdr.hdrSize

/-- The option behind `len` bytes is within the header too. -/
theorem OptionState.Within.advance (h : state.Within hdr) (hpos : 0 < state.optlen) (len : Nat)
    (mss : Int) (conn : StreamReceiver) :
    OptionState.Within hdr ⟨state.opt + len, state.optlen - len, mss, conn⟩ where
  sum _ := by
    have := h.sum hpos
    show 20 + ((state.opt + len : Nat) : Int) + (state.optlen - len) = hdr.hdrSize
    omega

theorem getDefaultMSS_range {s : StreamReceiver} (h : s.socket.isSome) :
    0 < s.getDefaultMSS ∧ s.getDefaultMSS ≤ 65535 := by
  obtain ⟨socket, hsocket⟩ := Option.isSome_iff_exists.mp h
  rw [getDefaultMSS, hsocket]
  dsimp only
  split <;> omega

end StreamReceiver

end EsOs.Net
