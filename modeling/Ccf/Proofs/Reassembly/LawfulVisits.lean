import Ccf.Proofs.Reassembly.Cursors
import Ccf.Proofs.Reassembly.Reception

/-!
# Visits of received segments

A walk is never refused the bytes of an entry that comes from a reception and brings no cell that
the open packet has, so a step at such an entry is one of the listed visits.
-/

namespace Ccf

/-- An entry as the window and a walk hold it: its segment is one that arrives, and its cursor is at
a packet start or has passed the last one. -/
structure Reception.Lawful {stream : Stream} (reception : Reception stream) (entry : Waiting) :
    Prop extends entry.Coherent where
  arrives : reception.Arrives entry.arrival
  segment_eq : entry.segment = reception.segment entry.arrival
  aligned : reception.intact (reception.index entry.arrival) → entry.startsPacket = true →
    entry.next < entry.size → ∃ number, stream.StartsIn number (reception.index entry.arrival) ∧
      stream.origin number = stream.cut (reception.index entry.arrival) + entry.next

namespace Walk

def CanTake (pending : Option OpenPacket) (entry : Waiting) : Prop :=
  ∀ packet, pending = some packet → packet.content.Proper ∧
    (packet.content.cells ++ entry.segment.cells).Nodup

variable {stream : Stream} {reception : Reception stream}

/-- Bytes of an entry can be gathered after those of the open packet. -/
theorem gatherRange_entry {entry : Waiting} (hentry : reception.Lawful entry)
    {gathering : Gathering} (hnodup : (gathering.cells ++ entry.segment.cells).Nodup)
    {first last : Nat} (hrange : first ≤ last) (hlast : last ≤ entry.size) :
    ∃ content, gathering.gatherRange entry.segment.payload first last = .ok content := by
  have hproper : entry.segment.payload.Proper := by
    rw [hentry.segment_eq]
    exact reception.proper hentry.arrives.1 hentry.arrives.2
  have hpart : ((entry.segment.cells.take last).drop first).Sublist entry.segment.cells :=
    (List.drop_sublist _ _).trans (List.take_sublist _ _)
  exact Gathering.gatherRange_of_nodup hproper hrange hlast
    (hnodup.sublist (hpart.append_left _))

theorem not_refuses {entry : Waiting} {pending : Option OpenPacket} {fault : BufferError}
    (hentry : reception.Lawful entry) (htake : CanTake pending entry) :
    ¬ Refuses entry pending fault := by
  have hgathers {gathering : Gathering} {first last : Nat} (hrange : first ≤ last)
      (hlast : last ≤ entry.size)
      (hnodup : (gathering.cells ++ entry.segment.cells).Nodup)
      (hgather : gathering.gatherRange entry.segment.payload first last = .error fault) :
      False := by
    obtain ⟨content, hcontent⟩ := gatherRange_entry hentry hnodup hrange hlast
    rw [hcontent] at hgather
    cases hgather
  intro hrefuses
  cases hrefuses with
  | opening hunparsed hgather =>
    refine hgathers (Nat.le_of_lt hunparsed) (Nat.le_refl _) ?_ hgather
    rw [Gathering.cells_empty, List.nil_append, hentry.segment_eq]
    exact reception.nodup hentry.arrives.1 hentry.arrives.2
  | ending hstarts hinside hgather =>
    have hlead : entry.lead ≤ entry.size := by
      rcases hentry.lead_eq with hzero | ⟨-, hfirst⟩ <;> omega
    exact hgathers (Nat.zero_le _) hlead (htake _ rfl).2 hgather
  | continuing hstarts hgather =>
    have hnext : entry.next ≤ entry.size := by
      rcases hentry.next_eq hstarts with hzero | hall <;> omega
    exact hgathers hnext (Nat.le_refl _) (htake _ rfl).2 hgather

/-- A walk is never refused the bytes of a lawful entry, and makes one of the visits. -/
theorem visit_makes {walk : Walk} (answers : Nat → Answer) {entry : Waiting}
    (rest : List Waiting) (hentry : reception.Lawful entry)
    (htake : CanTake walk.pending entry) :
    ∃ stays pending back, Makes walk entry rest (walk.visit answers entry rest) stays pending
      back := by
  have hgoes := visit_cases answers entry rest fun packet hpacket => (htake packet hpacket).1
  rw [toFirstStart_eq hentry.toCoherent] at hgoes
  rcases hgoes with ⟨fault, hrefuses, -⟩ | hmakes
  · exact absurd hrefuses (not_refuses hentry htake)
  · exact hmakes

end Walk

end Ccf
