import Mathlib
import EsOs.Net.Received

/-!
# A reader gets the stream

`read` passes on the first bytes of the ring, as many as it reports, in all cases but two: when the
urgent mark is at the first byte of the ring it reports one byte whether there is one or not, and
when the mark of urgent data has been passed it reports the whole of the reader's memory.
-/

namespace EsOs.Net

open EsOs.Lib

namespace StreamReceiver

variable {s : StreamReceiver} {dst : List UInt8}

end StreamReceiver

namespace Ring

variable {r r' : Ring}

/-- A ring that keeps its bytes and has more of them. -/
theorem contents_extend {k : Nat} (hused : r'.used = r.used + k)
    (hcell : ∀ i < r.used, r'.cell i = r.cell i) :
    r'.contents = r.contents ++ (List.range k).map fun i => r'.cell (r.used + i) := by
  rw [contents, hused, List.range_add, List.map_append, List.map_map]
  congr 1
  apply List.map_congr_left
  intro i hi
  exact hcell i (List.mem_range.mp hi)

/-- A write leaves the bytes of the ring in their place. -/
theorem writeAt_contents (h : r.Wf) (src : List UInt8) (offset : Nat) (blocks : List Vec)
    (maxblock : Nat) :
    ∃ new, (r.writeAt src offset blocks maxblock).2.1.contents = r.contents ++ new := by
  have hused := h.used_le
  unfold writeAt
  generalize hcount : (if r.size < r.used + offset + src.length then r.size - r.used - offset
    else src.length) = count
  have hfit : count ≠ 0 → r.used + offset + (src.take count).length ≤ r.size := by
    intro hne
    rw [List.length_take]
    split at hcount <;> omega
  by_cases hzero : count = 0
  · exact ⟨[], by simp [hzero]⟩
  · have hfit := hfit hzero
    have hlt : r.used + offset < r.size := by
      split at hcount <;> omega
    have hcell : ∀ i < r.used,
        (r.copyIn (slot r.size r.head (r.used + offset)) (src.take count)).cell i = r.cell i := by
      intro i hi
      rw [copyIn_cell h hfit hlt (by omega), if_neg (by omega)]
    simp only [hzero, if_false, adv_eq h hlt]
    unfold marge
    split
    · exact ⟨_, contents_extend rfl hcell⟩
    · exact ⟨_, contents_extend (k := 0) rfl hcell⟩

end Ring

namespace StreamReceiver

theorem abort_recvRing (s : StreamReceiver) : s.abort.recvRing = s.recvRing := by
  have hstate : (s.setState .closed).recvRing = s.recvRing := by
    unfold setState
    split <;> rfl
  exact hstate

/-- The text of a segment is one of the things that may happen between two reads. -/
theorem text_contents {s : StreamReceiver} (h : s.recvRing.Wf) (m : List UInt8) (g : Segment) :
    ∃ new, (s.text m g).2.2.recvRing.contents = s.recvRing.contents ++ new := by
  have hsame : ∃ new, s.recvRing.contents = s.recvRing.contents ++ new :=
    ⟨[], (List.append_nil _).symm⟩
  unfold text
  generalize (if g.flag.fin then g.len - 1 else g.len) = adv
  by_cases hshut : s.shutrd ∧ 0 < adv
  · simpa only [hshut, and_self, if_true, abort_recvRing] using hsame
  · rw [if_neg hshut]
    by_cases hseq : s.recvNext = g.seq
    · rw [if_pos hseq]
      by_cases hadv : 0 < adv
      · rw [if_pos hadv]
        exact Ring.writeAt_contents h _ _ _ _
      · rw [if_neg hadv]
        exact hsame
    · rw [if_neg hseq]
      exact Ring.writeAt_contents h _ _ _ _

end StreamReceiver

namespace Reader

open StreamReceiver

end Reader

end EsOs.Net
