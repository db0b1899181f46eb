import EsOs.Lib.Iteration
import EsOs.Net.Input

/-!
# The option area of a TCP header

The loop of `StreamReceiver::option` turn by turn (`os/net/src/streamInput.cpp:556-639`), where a turn
says which bytes of the header it reads. The header ends where `getHdrSize` says; what is behind it
in the buffer may be anything.
-/

namespace EsOs.Net

open EsOs.Lib

namespace TCPHdr

end TCPHdr

namespace StreamReceiver

/-- The variables of the loop, with `opt` as an offset of the option area. -/
structure OptionState where
  opt : Nat
  optlen : Int
  mss : Int
  conn : StreamReceiver

end StreamReceiver

end EsOs.Net
