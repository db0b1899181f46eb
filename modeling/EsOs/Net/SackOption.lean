import EsOs.Net.Congestion
import EsOs.Net.Input

/-!
# The options that a connection writes

`fillOptions` (`os/net/src/streamOutput.cpp`) and the SACK option (`include/es/net/tcp.h`). They
write into a message, whose bytes hold something before; `opt` and `ptr` are indices of its bytes.
-/

namespace EsOs.Net

open EsOs.Lib

namespace StreamReceiver

end StreamReceiver

end EsOs.Net

/-!
## Counting duplicate acknowledgements

Beside a connection stands how many duplicate acknowledgements have come since the last
acknowledgement of new data, and how many of them one right after the other.
-/

namespace EsOs.Net

open EsOs.Lib StreamReceiver

/-- A connection, the duplicates since `sendUna` moved, and those of them behind the last other
    acknowledgement. -/
structure Duplicates where
  recv : StreamReceiver
  count : Nat
  row : Nat

namespace StreamReceiver

/-- A duplicate acknowledgement: the number of the last one, while something is outstanding, without
    data and with the same window. -/
def Duplicate (s : StreamReceiver) (ack : TCPSeq) (win len : Int) : Prop :=
  ack = s.sendUna ∧ s.sendUna ≠ s.sendMax ∧ win = s.sendWin ∧ len = 0

instance (s : StreamReceiver) (ack : TCPSeq) (win len : Int) : Decidable (s.Duplicate ack win len) :=
  inferInstanceAs (Decidable (_ ∧ _))

/-- The scoreboard shows more than three segments of data received above `sendUna`. -/
def Evidence (s : StreamReceiver) : Prop :=
  rxmitThresh * s.mss < (s.sendFack - s.sendUna).toInt

instance (s : StreamReceiver) : Decidable s.Evidence :=
  inferInstanceAs (Decidable (_ < _))

end StreamReceiver

namespace Duplicates

def run (d : Duplicates) (op : CongestionOp) : Duplicates :=
  let recv := d.recv.congestionStep op
  match op with
  | .ack _ n win _ len =>
      if seqLe n d.recv.sendUna then
        if d.recv.Duplicate n win len then ⟨recv, d.count + 1, d.row + 1⟩ else ⟨recv, d.count, 0⟩
      else ⟨recv, 0, 0⟩
  | _ => { d with recv := recv }

/-- The runs of a connection that has counted no duplicate yet. -/
def system : System Duplicates CongestionOp where
  init d := d.recv.dupAcks = 0 ∧ d.count = 0 ∧ d.row = 0
  step d op d' := d.recv.CongestionAllowed op ∧ d' = d.run op

/-- A step begins fast recovery. Of an acknowledgement this is also said when it cuts the
    threshold. -/
def Starts (d : Duplicates) (op : CongestionOp) : Prop :=
  let s := d.recv
  let s' := (d.run op).recv
  s.dupAcks < rxmitThresh ∧
    match op with
    | .ack .. => rxmitThresh ≤ s'.dupAcks ∨ s'.ssThresh ≠ s.ssThresh
    | _ => rxmitThresh ≤ s'.dupAcks

instance (d : Duplicates) : (op : CongestionOp) → Decidable (d.Starts op)
  | .ack .. => inferInstanceAs (Decidable (_ ∧ (_ ∨ _)))
  | .option _ | .output .. | .expired | .other _ => inferInstanceAs (Decidable (_ ∧ _))

/-- The condition on a step: the first duplicate is not taken for the second one. It is when SACK is
    agreed or more than two segments are known to be received, unless there is evidence for fast
    recovery at once or the acknowledgement is not behind `sendRecover`. -/
def CountOk (d : Duplicates) : CongestionOp → Prop
  | .ack _ n win _ len =>
      d.recv.Duplicate n win len → d.recv.dupAcks = 0 →
        (d.recv.sack = false ∧
            (d.recv.sendFack - d.recv.sendUna).toInt ≤ limitedThresh * d.recv.mss) ∨
          (d.recv.sack = true ∧ d.recv.Evidence) ∨ seqLe n (d.recv.sendRecover - 1)
  | _ => True

instance (d : Duplicates) : (op : CongestionOp) → Decidable (d.CountOk op)
  | .ack .. => inferInstanceAs (Decidable (_ → _ → (_ ∧ _) ∨ (_ ∧ _) ∨ _))
  | .option _ | .output .. | .expired | .other _ => inferInstanceAs (Decidable True)

/-- No other acknowledgement comes between two duplicates that are counted. -/
def RowOk (d : Duplicates) : CongestionOp → Prop
  | .ack _ n win _ len =>
      seqLe n d.recv.sendUna → ¬ d.recv.Duplicate n win len → d.recv.sendUna ≠ d.recv.sendMax →
        d.recv.dupAcks = 0 ∨ rxmitThresh ≤ d.recv.dupAcks
  | _ => True

instance (d : Duplicates) : (op : CongestionOp) → Decidable (d.RowOk op)
  | .ack .. => inferInstanceAs (Decidable (_ → _ → _ → (_ ∨ _)))
  | .option _ | .output .. | .expired | .other _ => inferInstanceAs (Decidable True)

end Duplicates

end EsOs.Net
