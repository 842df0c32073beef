import Ccf.Proofs.Buffer.GatheredCells
import Ccf.Proofs.Reassembly.Calls

/-!
# What a walk does to an entry

`Visits` lists what a step can do to the entry at hand, one constructor for each thing: which
entries it adds to those that stay, which packet is open afterwards, what it puts back in front of
the entries ahead, and what it reports.  The contents of packets appear as cells.  A step that makes
none of the listed visits is refused the bytes it gathers; it leaves the walk as it was and reports
nothing (`visit_cases`).

An invariant of walks needs one case for each constructor and nothing about the code of the walk.
-/

namespace Ccf

namespace Walk

/-- What closing the open packet leaves in the window, and what it reports. -/
def closing (how : Release) : Option OpenPacket → List Waiting × List ReassemblerReport
  | none => ([], [])
  | some packet => retire how packet.entries.reverse

theorem closePending_eq (walk : Walk) (how : Release) :
    walk.closePending how =
      ({ walk with kept := (closing how walk.pending).1 ++ walk.kept, pending := none },
        (closing how walk.pending).2) := by
  unfold closePending
  cases hpending : walk.pending with
  | none =>
    cases walk
    simp_all [closing]
  | some packet => rfl

/-- The table that is handed out for the first `block` bytes of gathered content. -/
def handedOut (content : Gathering) (block : Nat) : PieceTable :=
  (content.table .macHeader).truncate block

theorem cells_handedOut (content : Gathering) (block : Nat) :
    (handedOut content block).cells = content.cells.take block := by
  rw [handedOut, PieceTable.cells_truncate, Gathering.cells_table]

theorem proper_handedOut {content : Gathering} (hproper : content.Proper) (block : Nat) :
    (handedOut content block).Proper :=
  Pieces.Proper.take hproper block

/-- What is handed out when added bytes complete a packet are all the bytes before, and some of the
added ones. -/
theorem cells_handedOut_of_completes {opened content : Gathering} {more : List Cell} {block : Nat}
    (hopened : opened.Proper) (hproper : content.Proper)
    (hcells : content.cells = opened.cells ++ more) (hopen : opened.completeSize? = none)
    (hcomplete : content.completeSize? = some block) :
    opened.size < block ∧ block - opened.size ≤ more.length ∧
      (handedOut content block).cells = opened.cells ++ more.take (block - opened.size) := by
  have hgrows := Gathering.size_lt_of_completes hopened hproper hcells hopen hcomplete
  obtain ⟨-, hbound⟩ := Gathering.completeSize?_bounds hcomplete
  have hlength := congrArg List.length hcells
  rw [List.length_append, Gathering.length_cells, Gathering.length_cells] at hlength
  have hfits : opened.cells.length ≤ block := by
    rw [Gathering.length_cells]
    exact Nat.le_of_lt hgrows
  refine ⟨hgrows, by omega, ?_⟩
  calc (handedOut content block).cells
      = content.cells.take block := cells_handedOut content block
    _ = (opened.cells ++ more).take block := by rw [hcells]
    _ = opened.cells ++ more.take (block - opened.size) := by
        rw [List.take_append, List.take_of_length_le hfits, Gathering.length_cells]

/-- A visit of `entry` with the given packet open: entries that stay, the packet open afterwards,
entries put back ahead, and reports. -/
inductive Visits (entry : Waiting) : Option OpenPacket → List Waiting → Option OpenPacket →
    List Waiting → List ReassemblerReport → Prop
  /-- The packet start is past the content. -/
  | reject {pending : Option OpenPacket} (hstarts : entry.startsPacket = true)
      (hpast : entry.size ≤ entry.firstStart) :
      Visits entry pending (closing .drop pending).1 none []
        ((closing .drop pending).2 ++ [.dropped entry.segment])
  /-- Everything has been parsed and nothing is owed. -/
  | letGo (hparsed : entry.size ≤ entry.next) (hlead : entry.lead = 0) :
      Visits entry none [] none [] [.recycled entry.segment]
  /-- Everything has been parsed, but the front is owed. -/
  | owe (hparsed : entry.size ≤ entry.next) (hlead : 0 < entry.lead) :
      Visits entry none [entry] none [] []
  /-- No packet starts here. -/
  | await (hstarts : entry.startsPacket = false) (hunparsed : entry.next < entry.size) :
      Visits entry none [entry] none [] []
  /-- A packet starts and ends in the entry. -/
  | parse {content : Gathering} {block : Nat} (answer : Answer)
      (hstarts : entry.startsPacket = true) (hunparsed : entry.next < entry.size)
      (hproper : content.Proper)
      (hcells : content.cells = entry.segment.cells.drop entry.next)
      (hcomplete : content.completeSize? = some block) :
      Visits entry none [] none [parsedTo entry content block]
        [.delivered (handedOut content block) answer]
  /-- A packet starts in the entry and goes on after it. -/
  | begin {content : Gathering} (hstarts : entry.startsPacket = true)
      (hunparsed : entry.next < entry.size) (hproper : content.Proper)
      (hcells : content.cells = entry.segment.cells.drop entry.next)
      (hopen : content.completeSize? = none) :
      Visits entry none [] (some { entries := [entry], content := content }) [] []
  /-- The bytes before the packet start complete the open packet. -/
  | finish {packet : OpenPacket} {content : Gathering} {block : Nat} (answer : Answer)
      (hstarts : entry.startsPacket = true) (hinside : entry.firstStart < entry.size)
      (hproper : content.Proper)
      (hcells : content.cells = packet.content.cells ++ entry.segment.cells.take entry.lead)
      (hcomplete : content.completeSize? = some block) :
      Visits entry (some packet) (closing .recycle (some packet)).1 none
        [{ entry with lead := 0 }]
        (.delivered (handedOut content block) answer :: (closing .recycle (some packet)).2)
  /-- They do not complete it. -/
  | abandon {packet : OpenPacket} {content : Gathering}
      (hstarts : entry.startsPacket = true) (hinside : entry.firstStart < entry.size)
      (hproper : content.Proper)
      (hcells : content.cells = packet.content.cells ++ entry.segment.cells.take entry.lead)
      (hopen : content.completeSize? = none) :
      Visits entry (some packet) (closing .drop (some packet)).1 none
        [{ entry with lead := 0 }] (closing .drop (some packet)).2
  /-- The open packet ends where the entry ends. -/
  | complete {packet : OpenPacket} {content : Gathering} {block : Nat} (answer : Answer)
      (hstarts : entry.startsPacket = false) (hproper : content.Proper)
      (hcells : content.cells = packet.content.cells ++ entry.segment.cells.drop entry.next)
      (hcomplete : content.completeSize? = some block)
      (hparsed : entry.size ≤ (parsedTo entry content block).next) :
      Visits entry (some packet) (closing .recycle (some packet)).1 none
        [parsedTo entry content block]
        (.delivered (handedOut content block) answer :: (closing .recycle (some packet)).2)
  /-- The open packet ends before the entry does. -/
  | overrun {packet : OpenPacket} {content : Gathering} {block : Nat} (answer : Answer)
      (hstarts : entry.startsPacket = false) (hproper : content.Proper)
      (hcells : content.cells = packet.content.cells ++ entry.segment.cells.drop entry.next)
      (hcomplete : content.completeSize? = some block)
      (hunparsed : (parsedTo entry content block).next < entry.size) :
      Visits entry (some packet) (closing .recycle (some packet)).1 none []
        (.delivered (handedOut content block) answer :: (closing .recycle (some packet)).2 ++
          [.dropped entry.segment])
  /-- The entry continues the open packet. -/
  | continue {packet : OpenPacket} {content : Gathering} (hstarts : entry.startsPacket = false)
      (hproper : content.Proper)
      (hcells : content.cells = packet.content.cells ++ entry.segment.cells.drop entry.next)
      (hopen : content.completeSize? = none) :
      Visits entry (some packet) []
        (some { entries := entry :: packet.entries, content := content }) [] []

/-- An outcome that made a visit. -/
structure Makes (walk : Walk) (entry : Waiting) (rest : List Waiting) (outcome : WalkOutcome)
    (stays : List Waiting) (pending : Option OpenPacket) (back : List Waiting) : Prop where
  visits : Visits entry walk.pending stays pending back outcome.reports
  fault_eq : outcome.fault = none
  kept_eq : outcome.walk.kept = stays ++ walk.kept
  pending_eq : outcome.walk.pending = pending
  ahead_eq : outcome.walk.ahead = back ++ rest

/-- Bytes of `entry` that a step is refused, with the given packet open. -/
inductive Refuses (entry : Waiting) : Option OpenPacket → BufferError → Prop
  /-- Those from the cursor on, to begin a packet with. -/
  | opening {fault : BufferError} (hunparsed : entry.next < entry.size)
      (hgather : Gathering.empty.gatherRange entry.segment.payload entry.next entry.size =
        .error fault) :
      Refuses entry none fault
  /-- The lead bytes, to end the open packet with. -/
  | ending {packet : OpenPacket} {fault : BufferError} (hstarts : entry.startsPacket = true)
      (hinside : entry.firstStart < entry.size)
      (hgather : packet.content.gatherRange entry.segment.payload 0 entry.lead = .error fault) :
      Refuses entry (some packet) fault
  /-- All bytes, to continue the open packet with. -/
  | continuing {packet : OpenPacket} {fault : BufferError} (hstarts : entry.startsPacket = false)
      (hgather : packet.content.gatherRange entry.segment.payload entry.next entry.size =
        .error fault) :
      Refuses entry (some packet) fault

def stoppedAt (walk : Walk) (entry : Waiting) (rest : List Waiting) (fault : BufferError) :
    WalkOutcome where
  walk := { walk with ahead := entry :: rest }
  reports := []
  fault := some fault

/-- A step is refused bytes of the entry at hand, or makes a visit. -/
def Goes (walk : Walk) (entry : Waiting) (rest : List Waiting) (outcome : WalkOutcome) : Prop :=
  (∃ fault, Refuses entry walk.pending fault ∧ outcome = walk.stoppedAt entry rest fault) ∨
    ∃ stays later back, Makes walk entry rest outcome stays later back

theorem take_size_cells (entry : Waiting) :
    entry.segment.cells.take entry.size = entry.segment.cells :=
  List.take_of_length_le (Nat.le_of_eq (Segment.length_cells _))

/-- Gathering from the cursor on adds all cells from there on. -/
theorem gatherRange_rest {gathering content : Gathering} {entry : Waiting}
    (hgathering : gathering.Proper)
    (hgather : gathering.gatherRange entry.segment.payload entry.next entry.size =
      .ok content) :
    content.Proper ∧
      content.cells = gathering.cells ++ entry.segment.cells.drop entry.next := by
  have hcells := Gathering.gatherRange_cells hgathering hgather
  rwa [← Segment.cells, take_size_cells] at hcells

theorem openAt_goes {walk : Walk} (answers : Nat → Answer) (entry : Waiting)
    (rest : List Waiting) (hpending : walk.pending = none) :
    Goes walk entry rest (walk.openAt answers entry rest) := by
  unfold openAt
  split
  · rename_i hparsed
    split
    · rename_i hlead
      refine Or.inr ⟨[], none, [], ⟨?_, rfl, rfl, hpending, rfl⟩⟩
      rw [hpending]
      exact .letGo hparsed hlead
    · rename_i hlead
      refine Or.inr ⟨[entry], none, [], ⟨?_, rfl, rfl, hpending, rfl⟩⟩
      rw [hpending]
      exact .owe hparsed (Nat.pos_of_ne_zero hlead)
  · rename_i hunparsed
    rw [Nat.not_le] at hunparsed
    split
    · rename_i hstarts
      refine Or.inr ⟨[entry], none, [], ⟨?_, rfl, rfl, hpending, rfl⟩⟩
      rw [hpending]
      exact .await (by simpa using hstarts) hunparsed
    · rename_i hstarts
      replace hstarts : entry.startsPacket = true := by simpa using hstarts
      cases hgather : Gathering.empty.gatherRange entry.segment.payload entry.next
          entry.size with
      | error fault =>
        refine Or.inl ⟨fault, ?_, rfl⟩
        rw [hpending]
        exact .opening hunparsed hgather
      | ok content =>
        obtain ⟨hproper, hcells⟩ := gatherRange_rest Gathering.proper_empty hgather
        rw [Gathering.cells_empty, List.nil_append] at hcells
        simp only
        split
        · rename_i block hcomplete
          refine Or.inr ⟨[], none, [parsedTo entry content block],
            ⟨?_, rfl, rfl, hpending, rfl⟩⟩
          rw [hpending]
          exact .parse _ hstarts hunparsed hproper hcells hcomplete
        · rename_i hopen
          refine Or.inr ⟨[], some { entries := [entry], content := content }, [],
            ⟨?_, rfl, rfl, rfl, rfl⟩⟩
          rw [hpending]
          exact .begin hstarts hunparsed hproper hcells hopen

theorem endAt_goes {walk : Walk} (answers : Nat → Answer) {packet : OpenPacket}
    (entry : Waiting) (rest : List Waiting) (hstarts : entry.startsPacket = true)
    (hinside : entry.firstStart < entry.size) (hpacket : packet.content.Proper)
    (hpending : walk.pending = some packet) :
    Goes walk entry rest (walk.endAt answers packet entry rest) := by
  unfold endAt
  cases hgather : packet.content.gatherRange entry.segment.payload 0 entry.lead with
  | error fault =>
    refine Or.inl ⟨fault, ?_, rfl⟩
    rw [hpending]
    exact .ending hstarts hinside hgather
  | ok content =>
    obtain ⟨hproper, hcells⟩ := Gathering.gatherRange_cells hpacket hgather
    rw [List.drop_zero, ← Segment.cells] at hcells
    simp only
    split
    · rename_i block hcomplete
      refine Or.inr ⟨(closing .recycle (some packet)).1, none, [{ entry with lead := 0 }],
        ⟨?_, rfl, ?_, ?_, ?_⟩⟩
      · rw [hpending, closePending_eq]
        simp only [deliver, hpending]
        exact .finish _ hstarts hinside hproper hcells hcomplete
      · simp [closePending_eq, deliver, hpending]
      · simp [closePending_eq]
      · simp
    · rename_i hopen
      refine Or.inr ⟨(closing .drop (some packet)).1, none, [{ entry with lead := 0 }],
        ⟨?_, rfl, ?_, ?_, ?_⟩⟩
      · rw [hpending, closePending_eq]
        simp only [hpending]
        exact .abandon hstarts hinside hproper hcells hopen
      · simp [closePending_eq, hpending]
      · simp [closePending_eq]
      · simp

theorem continueAt_goes {walk : Walk} (answers : Nat → Answer) {packet : OpenPacket}
    (entry : Waiting) (rest : List Waiting) (hstarts : entry.startsPacket = false)
    (hpacket : packet.content.Proper) (hpending : walk.pending = some packet) :
    Goes walk entry rest (walk.continueAt answers packet entry rest) := by
  unfold continueAt
  cases hgather : packet.content.gatherRange entry.segment.payload entry.next entry.size with
  | error fault =>
    refine Or.inl ⟨fault, ?_, rfl⟩
    rw [hpending]
    exact .continuing hstarts hgather
  | ok content =>
    obtain ⟨hproper, hcells⟩ := gatherRange_rest hpacket hgather
    simp only
    split
    · rename_i block hcomplete
      have hsize : (parsedTo entry content block).size = entry.size := rfl
      split
      · rename_i hunparsed
        refine Or.inr ⟨(closing .recycle (some packet)).1, none, [], ⟨?_, rfl, ?_, ?_, rfl⟩⟩
        · rw [hpending, closePending_eq]
          simp only [deliver, hpending]
          exact .overrun _ hstarts hproper hcells hcomplete (hsize ▸ hunparsed)
        · simp [closePending_eq, deliver, hpending]
        · simp [closePending_eq]
      · rename_i hparsed
        refine Or.inr ⟨(closing .recycle (some packet)).1, none, [parsedTo entry content block],
          ⟨?_, rfl, ?_, ?_, ?_⟩⟩
        · rw [hpending, closePending_eq]
          simp only [deliver, hpending]
          exact .complete _ hstarts hproper hcells hcomplete (by omega)
        · simp [closePending_eq, deliver, hpending]
        · simp [closePending_eq]
        · simp
    · rename_i hopen
      refine Or.inr ⟨[], some { entries := entry :: packet.entries, content := content }, [],
        ⟨?_, rfl, rfl, rfl, rfl⟩⟩
      rw [hpending]
      exact .continue hstarts hproper hcells hopen

@[simp]
theorem segment_toFirstStart (entry : Waiting) :
    (toFirstStart entry).segment = entry.segment := by
  unfold toFirstStart
  split <;> rfl

@[simp]
theorem arrival_toFirstStart (entry : Waiting) :
    (toFirstStart entry).arrival = entry.arrival := by
  unfold toFirstStart
  split <;> rfl

/-- What a step does to the entry at hand, its cursor moved to the packet start. -/
theorem visit_cases {walk : Walk} (answers : Nat → Answer) (entry : Waiting)
    (rest : List Waiting)
    (hproper : ∀ packet, walk.pending = some packet → packet.content.Proper) :
    Goes walk (toFirstStart entry) rest (walk.visit answers entry rest) := by
  have hsegment := segment_toFirstStart entry
  have hstart : (toFirstStart entry).startsPacket = entry.startsPacket := by
    rw [Waiting.startsPacket, hsegment, Waiting.startsPacket]
  have hfirst : (toFirstStart entry).firstStart = entry.firstStart := by
    rw [Waiting.firstStart, hsegment, Waiting.firstStart]
  have hsize := toFirstStart_size entry
  unfold visit
  split
  · rename_i hreject
    rw [Bool.and_eq_true, decide_eq_true_eq] at hreject
    refine Or.inr ⟨(closing .drop walk.pending).1, none, [], ⟨?_, rfl, ?_, ?_, rfl⟩⟩
    · simp only [rejectEntry, closePending_eq]
      rw [← hsegment]
      exact .reject (hstart.trans hreject.1) (by omega)
    · simp [rejectEntry, closePending_eq]
    · simp [rejectEntry, closePending_eq]
  · rename_i hreject
    simp only [Bool.and_eq_true, decide_eq_true_eq, not_and, Nat.not_le] at hreject
    simp only
    split
    · rename_i hpending
      exact openAt_goes answers _ rest hpending
    · rename_i packet hpending
      have hpacket := hproper packet hpending
      split
      · rename_i hstarts
        have hinside := hreject (hstart ▸ hstarts)
        exact endAt_goes answers _ rest hstarts (by omega) hpacket hpending
      · rename_i hstarts
        exact continueAt_goes answers _ rest (by simpa using hstarts) hpacket hpending

/-- A step is a visit of the first entry ahead. -/
theorem exists_visit {walk : Walk} {answers : Nat → Answer} {outcome : WalkOutcome}
    (hmade : walk.step answers = some outcome) :
    ∃ entry rest, walk.ahead = entry :: rest ∧ walk.visit answers entry rest = outcome := by
  unfold step at hmade
  split at hmade
  · cases hmade
  · rename_i entry rest hahead
    exact ⟨entry, rest, hahead, Option.some.inj hmade⟩

theorem finish_of_end {walk : Walk} {answers : Nat → Answer} (hend : walk.step answers = none) :
    walk.finish answers = { walk := walk, reports := [], fault := none } := by
  rw [finish]
  split
  · rfl
  · rename_i hmade
    rw [hend] at hmade
    cases hmade

theorem finish_of_step {walk : Walk} {answers : Nat → Answer} {outcome : WalkOutcome}
    (hmade : walk.step answers = some outcome) (hfault : outcome.fault = none) :
    walk.finish answers =
      { outcome.walk.finish answers with
        reports := outcome.reports ++ (outcome.walk.finish answers).reports } := by
  rw [finish]
  split
  · rename_i hend
    rw [hmade] at hend
    cases hend
  · rename_i other hother
    rw [hmade, Option.some.injEq] at hother
    subst hother
    split
    · rename_i fault hfaulty
      rw [hfault] at hfaulty
      cases hfaulty
    · rfl

theorem finish_of_fault {walk : Walk} {answers : Nat → Answer} {outcome : WalkOutcome}
    (hmade : walk.step answers = some outcome) {fault : BufferError}
    (hfault : outcome.fault = some fault) : walk.finish answers = outcome := by
  rw [finish]
  split
  · rename_i hend
    rw [hmade] at hend
    cases hend
  · rename_i other hother
    rw [hmade, Option.some.injEq] at hother
    subst hother
    split
    · rfl
    · rename_i hnone
      rw [hfault] at hnone
      cases hnone

/-- A walk to the end keeps what every step without a fault keeps, and leaves what its last step
leaves. -/
theorem finish_induction (invariant : List ReassemblerReport → Walk → Prop)
    (result : Option BufferError → List ReassemblerReport → Walk → Prop)
    (answers : Nat → Answer)
    (hend : ∀ (reports : List ReassemblerReport) (walk : Walk), invariant reports walk →
      walk.ahead = [] → result none reports walk)
    (hfault : ∀ (reports : List ReassemblerReport) (walk : Walk) (entry : Waiting)
      (rest : List Waiting), invariant reports walk → walk.ahead = entry :: rest →
      ∀ fault, (walk.visit answers entry rest).fault = some fault →
        result (some fault) (reports ++ (walk.visit answers entry rest).reports)
          (walk.visit answers entry rest).walk)
    (hstep : ∀ (reports : List ReassemblerReport) (walk : Walk) (entry : Waiting)
      (rest : List Waiting), invariant reports walk → walk.ahead = entry :: rest →
      (walk.visit answers entry rest).fault = none →
        invariant (reports ++ (walk.visit answers entry rest).reports)
          (walk.visit answers entry rest).walk)
    (walk : Walk) (reports : List ReassemblerReport) (hwalk : invariant reports walk) :
    result (walk.finish answers).fault (reports ++ (walk.finish answers).reports)
      (walk.finish answers).walk := by
  induction walk using finish.induct answers generalizing reports with
  | case1 walk hmade =>
    have hahead : walk.ahead = [] := by
      unfold step at hmade
      split at hmade
      · assumption
      · cases hmade
    rw [finish_of_end hmade, List.append_nil]
    exact hend reports walk hwalk hahead
  | case2 walk outcome hmade fault hfaulty =>
    obtain ⟨entry, rest, hahead, rfl⟩ := exists_visit hmade
    rw [finish_of_fault hmade hfaulty, hfaulty]
    exact hfault reports walk entry rest hwalk hahead fault hfaulty
  | case3 walk outcome hmade hnone ih =>
    obtain ⟨entry, rest, hahead, rfl⟩ := exists_visit hmade
    rw [finish_of_step hmade hnone]
    simp only [← List.append_assoc]
    exact ih _ (hstep reports walk entry rest hwalk hahead hnone)

/-- A walk whose steps keep an invariant and do not fault comes to its end. -/
theorem finish_faultless (invariant : List ReassemblerReport → Walk → Prop)
    (answers : Nat → Answer)
    (hstep : ∀ (reports : List ReassemblerReport) (walk : Walk) (entry : Waiting)
      (rest : List Waiting), invariant reports walk → walk.ahead = entry :: rest →
      (walk.visit answers entry rest).fault = none ∧
        invariant (reports ++ (walk.visit answers entry rest).reports)
          (walk.visit answers entry rest).walk)
    (walk : Walk) (reports : List ReassemblerReport) (hwalk : invariant reports walk) :
    (walk.finish answers).fault = none ∧ (walk.finish answers).walk.ahead = [] ∧
      invariant (reports ++ (walk.finish answers).reports) (walk.finish answers).walk := by
  apply finish_induction invariant
    (fun fault reports walk => fault = none ∧ walk.ahead = [] ∧ invariant reports walk) answers
    _ _ _ walk reports hwalk
  · exact fun reports walk hwalk hahead => ⟨rfl, hahead, hwalk⟩
  · intro reports walk entry rest hwalk hahead fault hfault
    rw [(hstep reports walk entry rest hwalk hahead).1] at hfault
    cases hfault
  · intro reports walk entry rest hwalk hahead _
    exact (hstep reports walk entry rest hwalk hahead).2

end Walk

end Ccf
