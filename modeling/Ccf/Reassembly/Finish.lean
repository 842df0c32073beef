import Ccf.Reassembly.Walk

/-!
# Walking to the end

A walk ends because every step without a fault makes its measure smaller: the number of entries
ahead, then whether a packet is open, then the unparsed bytes of the entry at hand.  The measure
drops in its last place only when a packet is completed within one entry, and a packet has at least
the four bytes of its header.
-/

namespace Ccf.Walk

/-- The unparsed bytes of the entry at hand. -/
def unparsed (walk : Walk) : Nat :=
  match walk.ahead with
  | [] => 0
  | entry :: _ => entry.size - entry.next

def measure (walk : Walk) : Nat × Nat × Nat :=
  (walk.ahead.length, walk.pending.toList.length, walk.unparsed)

/-- The order of measures: the first place that differs decides. -/
def Smaller : Nat × Nat × Nat → Nat × Nat × Nat → Prop :=
  Prod.Lex (· < ·) (Prod.Lex (· < ·) (· < ·))

theorem smaller_of_length {walk other : Walk} (hlength : walk.ahead.length < other.ahead.length) :
    Smaller walk.measure other.measure :=
  Prod.Lex.left _ _ hlength

theorem smaller_of_pending {walk other : Walk}
    (hlength : walk.ahead.length = other.ahead.length)
    (hwalk : walk.pending = none) {packet : OpenPacket} (hother : other.pending = some packet) :
    Smaller walk.measure other.measure := by
  simp only [measure, hlength, hwalk, hother]
  exact Prod.Lex.right _ (Prod.Lex.left _ _ (by simp))

theorem smaller_of_unparsed {walk other : Walk}
    (hlength : walk.ahead.length = other.ahead.length) (hpending : walk.pending = other.pending)
    (hunparsed : walk.unparsed < other.unparsed) : Smaller walk.measure other.measure := by
  simp only [measure, hlength, hpending]
  exact Prod.Lex.right _ (Prod.Lex.right _ hunparsed)

@[simp]
theorem pending_closePending (walk : Walk) (how : Release) :
    (walk.closePending how).1.pending = none := by
  unfold closePending
  split
  · assumption
  · rfl

/-- Completing a packet within an entry moves the entry's cursor by the size of the packet. -/
theorem parsedTo_next {entry : Waiting} {content : Gathering} {block : Nat}
    (hsize : content.size = entry.size - entry.next) (hunparsed : entry.next < entry.size)
    (hblock : content.completeSize? = some block) :
    (parsedTo entry content block).next = entry.next + block ∧
      entry.next + block ≤ entry.size := by
  obtain ⟨_, hle⟩ := Gathering.completeSize?_bounds hblock
  simp only [parsedTo]
  omega

theorem toFirstStart_size (entry : Waiting) : (toFirstStart entry).size = entry.size := by
  unfold toFirstStart
  split <;> rfl

theorem le_toFirstStart_next (entry : Waiting) : entry.next ≤ (toFirstStart entry).next := by
  unfold toFirstStart
  split
  · exact Nat.le_max_left _ _
  · exact Nat.le_refl _

theorem openAt_smaller {walk : Walk} {answers : Nat → Answer} {entry front : Waiting}
    {rest : List Waiting} (hahead : walk.ahead = front :: rest)
    (hsize : entry.size = front.size) (hnext : front.next ≤ entry.next)
    (hfault : (walk.openAt answers entry rest).fault = none) :
    Smaller (walk.openAt answers entry rest).walk.measure walk.measure := by
  revert hfault
  unfold openAt
  split
  · split
    · exact fun _ => smaller_of_length (by simp [hahead])
    · exact fun _ => smaller_of_length (by simp [keep, hahead])
  · split
    · exact fun _ => smaller_of_length (by simp [keep, hahead])
    · split
      · exact fun hfault => nomatch hfault
      · rename_i content hgather
        split
        · rename_i block hblock
          intro _
          have hsize := (Gathering.size_gatherRange hgather).trans (Nat.zero_add _)
          obtain ⟨hparsed, hle⟩ := parsedTo_next hsize (by omega) hblock
          obtain ⟨hpositive, _⟩ := Gathering.completeSize?_bounds hblock
          simp only [MacHeader.wireSize] at hpositive
          refine smaller_of_unparsed (by simp [hahead]) (by simp [deliver]) ?_
          have hparsedSize : (parsedTo entry content block).size = entry.size := rfl
          simp only [unparsed, hahead, hparsedSize, hparsed]
          omega
        · exact fun _ => smaller_of_length (by simp [hahead])

theorem endAt_smaller {walk : Walk} {answers : Nat → Answer} {packet : OpenPacket}
    {entry front : Waiting} {rest : List Waiting} (hahead : walk.ahead = front :: rest)
    (hpending : walk.pending = some packet)
    (hfault : (walk.endAt answers packet entry rest).fault = none) :
    Smaller (walk.endAt answers packet entry rest).walk.measure walk.measure := by
  revert hfault
  unfold endAt
  split
  · exact fun hfault => nomatch hfault
  · simp only
    split
    · exact fun _ => smaller_of_pending (by simp [hahead]) (by simp) hpending
    · exact fun _ => smaller_of_pending (by simp [hahead]) (by simp) hpending

theorem continueAt_smaller {walk : Walk} {answers : Nat → Answer} {packet : OpenPacket}
    {entry front : Waiting} {rest : List Waiting} (hahead : walk.ahead = front :: rest)
    (hpending : walk.pending = some packet)
    (hfault : (walk.continueAt answers packet entry rest).fault = none) :
    Smaller (walk.continueAt answers packet entry rest).walk.measure walk.measure := by
  revert hfault
  unfold continueAt
  split
  · exact fun hfault => nomatch hfault
  · split
    · simp only
      split
      · exact fun _ => smaller_of_length (by simp [hahead])
      · exact fun _ => smaller_of_pending (by simp [hahead]) (by simp) hpending
    · exact fun _ => smaller_of_length (by simp [hahead])

/-- A step that does not fault makes the measure smaller. -/
theorem step_smaller {walk : Walk} {answers : Nat → Answer} {outcome : WalkOutcome}
    (hstep : walk.step answers = some outcome) (hfault : outcome.fault = none) :
    Smaller outcome.walk.measure walk.measure := by
  unfold step at hstep
  split at hstep
  · cases hstep
  · rename_i entry rest hahead
    cases hstep
    revert hfault
    unfold visit
    split
    · exact fun _ => smaller_of_length (by simp [rejectEntry, hahead])
    · simp only
      split
      · exact openAt_smaller hahead (toFirstStart_size entry) (le_toFirstStart_next entry)
      · rename_i packet hpending
        split
        · exact endAt_smaller hahead hpending
        · exact continueAt_smaller hahead hpending

/-- Walk to the end of the run, or up to a fault. -/
def finish (walk : Walk) (answers : Nat → Answer) : WalkOutcome :=
  match _hstep : walk.step answers with
  | none => { walk := walk, reports := [], fault := none }
  | some outcome =>
    match _hfault : outcome.fault with
    | some _ => outcome
    | none =>
      let later := outcome.walk.finish answers
      { later with reports := outcome.reports ++ later.reports }
termination_by walk.measure
decreasing_by exact step_smaller _hstep _hfault

end Ccf.Walk
