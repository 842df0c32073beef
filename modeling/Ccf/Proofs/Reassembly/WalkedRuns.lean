import Ccf.Proofs.Reassembly.Blocks
import Ccf.Proofs.Reassembly.PacketOrigins
import Ccf.Proofs.Reassembly.Tours
import Mathlib.Data.List.Permutation

/-!
# The runs that calls walk

A call that takes a segment in walks the longest run through it.  A call that walks every run finds
the heads once, at its beginning, while each walk changes the window before the next head is looked
up.  It still walks every block of the window once, because what a walk puts back has numbers of its
own block only, and so no other block is joined to it or changed.
-/

namespace Ccf

namespace Window

/-- The window is made of entries that are set aside and of blocks that are apart from these. -/
structure Falls (window aside : List Waiting) (blocks : List (List Waiting)) : Prop where
  sorted : Sorted window
  nodup : (window.map Waiting.arrival).Nodup
  perm : window.Perm (aside ++ blocks.flatten)
  parted : Blocks blocks
  apart : Apart aside blocks.flatten

section Falls

variable {anchor : Anchor} {aside block : List Waiting} {later : List (List Waiting)}
  (hfalls : Falls anchor.entries aside (block :: later))
include hfalls

theorem Falls.apart_block : Apart block (aside ++ later.flatten) := by
  have hlater := (List.pairwise_cons.1 hfalls.parted.apart).1
  intro entry hentry other hother
  rcases List.mem_append.1 hother with haside | hrest
  · have hblock : entry ∈ (block :: later).flatten := by
      rw [List.flatten_cons]
      exact List.mem_append_left _ hentry
    exact hfalls.apart.symm entry hblock other haside
  · obtain ⟨next, hnext, hmem⟩ := List.mem_flatten.1 hrest
    exact hlater next hnext entry hentry other hmem

/-- The longest run through an entry of a block is the block. -/
theorem Falls.cut_perm (hanchor : anchor.entry ∈ block) :
    anchor.cut.1.Perm block ∧ anchor.cut.2.window.Perm (aside ++ later.flatten) := by
  obtain ⟨earlier, after, between, hcut⟩ := anchor.cut_cutsRun
  have hparts : anchor.entries.Perm (anchor.cut.1 ++ anchor.cut.2.window) :=
    anchor.cut_perm.symm.trans List.perm_append_comm
  have hwindow : anchor.entries.Perm (block ++ (aside ++ later.flatten)) := by
    refine hfalls.perm.trans ?_
    rw [List.flatten_cons, ← List.append_assoc, ← List.append_assoc]
    exact List.perm_append_comm.append_right _
  have hsame : anchor.cut.1.Perm block :=
    perm_of_shared hfalls.nodup.of_map hparts hwindow hcut.longestRun.chained
      (hfalls.parted.chained block List.mem_cons_self) (hcut.apart hfalls.sorted)
      hfalls.apart_block hcut.longestRun.mem hanchor
  refine ⟨hsame, (List.perm_append_left_iff block).1 ?_⟩
  calc (block ++ anchor.cut.2.window).Perm (anchor.cut.1 ++ anchor.cut.2.window) :=
        hsame.symm.append_right _
    List.Perm _ anchor.entries := hparts.symm
    List.Perm _ (block ++ (aside ++ later.flatten)) := hwindow

/-- When something of a block is put back, the other blocks are still there. -/
theorem Falls.fill (hanchor : anchor.entry ∈ block) {left : List Waiting}
    (hleft : (left.map Waiting.label).Sublist (anchor.cut.1.map Waiting.label)) :
    Falls (anchor.cut.2.fill left) (aside ++ left) later := by
  obtain ⟨hrun, hgap⟩ := hfalls.cut_perm hanchor
  constructor
  case sorted => exact Gap.fill_sorted (hfalls.sorted.sublist anchor.gap_sublist) _
  case nodup => exact anchor.nodup_fill hfalls.nodup hleft
  case perm =>
    refine (Gap.fill_perm _ _).trans ((hgap.append_right left).trans ?_)
    rw [List.append_assoc, List.append_assoc]
    exact List.perm_append_comm.append_left _
  case parted =>
    have hnonempty := hfalls.parted.nonempty
    rw [List.mem_cons, not_or] at hnonempty
    exact ⟨hnonempty.2, fun other hother =>
      hfalls.parted.chained other (List.mem_cons_of_mem _ hother), hfalls.parted.apart.of_cons⟩
  case apart =>
    have hsequences := hleft.map fun label => label.1.sequence
    rw [List.map_map, List.map_map] at hsequences
    have hblock : Apart later.flatten block := fun other hother entry hentry hadjacent =>
      hfalls.apart_block entry hentry other (List.mem_append_right _ hother) hadjacent.symm
    have hback : Apart left later.flatten := by
      apply (hblock.of_sequences _).symm
      exact fun number hnumber => (hrun.map Waiting.sequence).subset (hsequences.subset hnumber)
    intro entry hentry other hother
    rcases List.mem_append.1 hentry with haside | hput
    · refine hfalls.apart entry haside other ?_
      rw [List.flatten_cons]
      exact List.mem_append_right _ hother
    · exact hback entry hput other hother

end Falls

/-- The first entry with the first number of a block is in the block. -/
theorem Falls.mem_block {anchor : Anchor} {aside block : List Waiting}
    {later : List (List Waiting)} (hfalls : Falls anchor.entries aside (block :: later))
    {first : Waiting} (hfirst : first ∈ block)
    (hanchor : anchor.entry.sequence = first.sequence) : anchor.entry ∈ block := by
  have hmem : anchor.entry ∈ anchor.entries := List.mem_append_right _ List.mem_cons_self
  have hadjacent : first.Adjacent anchor.entry :=
    Or.inr (Waiting.follows_of_sequence_eq hanchor)
  rcases List.mem_append.1 (hfalls.perm.subset hmem) with haside | hparts
  · exact absurd hadjacent
      (hfalls.apart_block first hfirst _ (List.mem_append_left _ haside))
  · rw [List.flatten_cons] at hparts
    rcases List.mem_append.1 hparts with hblock | hlater
    · exact hblock
    · exact absurd hadjacent
        (hfalls.apart_block first hfirst _ (List.mem_append_right _ hlater))

end Window

namespace Reassembler

variable {reassembler : Reassembler}

/-- The walk of the run through an entry of a block walks the block, and leaves the other blocks. -/
theorem walkRun_walksBlock (reassembler : Reassembler) (answers : Nat → Answer) {anchor : Anchor}
    {aside block : List Waiting} {later : List (List Waiting)} (delivered : Nat)
    (hfalls : Window.Falls anchor.entries aside (block :: later))
    (hanchor : anchor.entry ∈ block) :
    let tour := reassembler.tourOf answers anchor delivered
    let walked := reassembler.walkRun answers anchor delivered
    walked.reports = tour.outcome.reports ∧ tour.run.Perm block ∧
      walked.state.window.Perm (aside ++ tour.outcome.walk.held ++ later.flatten) ∧
      Window.Falls walked.state.window (aside ++ tour.outcome.walk.remaining) later := by
  intro tour walked
  obtain ⟨hrun, hgap⟩ := hfalls.cut_perm hanchor
  have hleft : (tour.outcome.walk.remaining.map Waiting.label).Sublist
      (anchor.cut.1.map Waiting.label) := tour.disposes.2
  refine ⟨rfl, hrun, ?_, hfalls.fill hanchor hleft⟩
  calc walked.state.window.Perm
        (anchor.cut.2.window ++ tour.outcome.walk.remaining) := Gap.fill_perm _ _
    List.Perm _ ((aside ++ later.flatten) ++ tour.outcome.walk.held) :=
      hgap.append (Walk.remaining_perm _)
    _ = aside ++ (later.flatten ++ tour.outcome.walk.held) := List.append_assoc _ _ _
    List.Perm _ (aside ++ (tour.outcome.walk.held ++ later.flatten)) :=
      List.perm_append_comm.append_left _
    _ = aside ++ tour.outcome.walk.held ++ later.flatten := (List.append_assoc _ _ _).symm

/-- Walking the runs with the first numbers of the blocks walks the blocks, up to a fault. -/
theorem walkHeads_walksBlocks (answers : Nat → Answer) {aside : List Waiting}
    {blocks : List (List Waiting)} (delivered : Nat)
    (hfalls : Window.Falls reassembler.window aside blocks) :
    let tours := headTours answers (Window.firstNumbers blocks) reassembler delivered
    let walked := walkHeads answers (Window.firstNumbers blocks) reassembler delivered
    walked.reports = tours.flatMap (fun tour => tour.outcome.reports) ∧
      ∃ unwalked, (tours.flatMap Tour.run ++ unwalked).Perm blocks.flatten ∧
        walked.state.window.Perm
          (aside ++ tours.flatMap (fun tour => tour.outcome.walk.held) ++ unwalked) ∧
        ∀ total, walked.value = .ok total → unwalked = [] := by
  induction blocks generalizing reassembler aside delivered with
  | nil =>
    refine ⟨rfl, [], .refl _, ?_, fun _ _ => rfl⟩
    simpa [Window.firstNumbers, headTours, walkHeads] using hfalls.perm
  | cons block later ih =>
    have hnonempty := hfalls.parted.nonempty
    rw [List.mem_cons, not_or] at hnonempty
    obtain ⟨first, rest, rfl⟩ := List.exists_cons_of_ne_nil (Ne.symm hnonempty.1)
    have hfirst : first ∈ reassembler.window := hfalls.perm.symm.subset (by simp)
    obtain ⟨anchor, hanchor⟩ := Window.exists_anchorAt? hfalls.sorted hfirst
    rw [← Window.entries_anchorAt? hanchor] at hfalls
    have hblock := hfalls.mem_block List.mem_cons_self (Window.anchorAt?_spec hanchor).1
    obtain ⟨hreports, hrun, hwindow, hlater⟩ :=
      reassembler.walkRun_walksBlock answers delivered hfalls hblock
    generalize htour : reassembler.tourOf answers anchor delivered = tour at *
    generalize hwalked : reassembler.walkRun answers anchor delivered = walked at *
    rw [Window.firstNumbers_cons, headTours, walkHeads, hanchor]
    simp only [htour, hwalked]
    cases hvalue : walked.value with
    | error fault =>
      refine ⟨by simpa using hreports, later.flatten, ?_, ?_, fun total htotal => ?_⟩
      · simpa using hrun.append_right later.flatten
      · simpa using hwindow
      · cases hvalue.symm.trans htotal
    | ok total =>
      obtain ⟨hreports', unwalked, hperm, hafter, hall⟩ := ih total hlater
      refine ⟨?_, unwalked, ?_, ?_, hall⟩
      · rw [List.flatMap_cons, ← hreports, ← hreports']
        rfl
      · rw [List.flatMap_cons, List.append_assoc, List.flatten_cons]
        exact hrun.append hperm
      · refine hafter.trans ?_
        rw [List.flatMap_cons, List.append_assoc, List.append_assoc, List.append_assoc,
          List.append_assoc]
        exact ((Walk.remaining_perm _).append_right _).append_left _

end Reassembler

/-- The packets that a walk hands out are made of parts of its run. -/
theorem Tour.exists_origins {tour : Tour}
    (hchained : tour.run.IsChain fun previous entry => entry.follows previous = true)
    (hnodup : (tour.run.map Waiting.arrival).Nodup)
    (hrun : ∀ entry ∈ tour.run, entry.Coherent ∧ entry.Fresh) :
    ∃ origins, List.Forall₂ (PieceTable.MadeOf (tour.run.map Waiting.label))
      (deliveredTables tour.outcome.reports) origins := by
  have hbegin : Walk.Traces (tour.run.map Waiting.label) [] [] tour.first :=
    { traced := ⟨hnodup, fun _ hentry => List.mem_map_of_mem hentry,
        fun entry hentry => (hrun entry hentry).1, [], .nil, List.nodup_nil,
        fun _ _ _ hplace => by cases hplace⟩
      fresh := Walk.keepsFresh_begin (fun entry hentry => (hrun entry hentry).2) _ _
      chained := hchained
      unfinished := fun _ hpacket => by cases hpacket }
  obtain ⟨origins, hmade, -⟩ := (hbegin.finish tour.answers).1.origins
  exact ⟨origins, hmade⟩

/-! ## Calls -/

namespace Reassembler

/-- What a call that takes a segment in does before it gives anything up.  It makes one tour, of the
longest run through the new entry, and besides it reports requests.  What is beside the run stays as
it is and where it is; each segment of the run stays or is let go, and packets are made of parts of
these segments. -/
structure WalksRunOf (reassembler : Reassembler) (segment : Segment) (now : Instant)
    (answers : ReassemblerAnswers) (anchor : Anchor) (tour : Tour) : Prop where
  anchored : anchor.entry = reassembler.arriving segment now
  sorted : Window.Sorted anchor.entries
  entries_perm : anchor.entries.Perm (reassembler.arriving segment now :: reassembler.window)
  longest : ∃ others, anchor.LongestRun tour.run others ∧ anchor.cut.2.window.Perm others
  tours_eq : reassembler.callTours (.process (some segment) now answers) = [tour]
  reports_eq : ∃ requests, (reassembler.receive segment now answers).reports =
      requests ++ tour.outcome.reports ∧
    ∀ report ∈ requests, ∃ cluster bytes answer, report = .requested cluster bytes answer
  beside : anchor.cut.2.window.Sublist reassembler.window
  stays : anchor.cut.2.window.Sublist (reassembler.receive segment now answers).state.window
  window_perm : (reassembler.receive segment now answers).state.window.Perm
    (anchor.cut.2.window ++ tour.outcome.walk.held)
  disposes : Disposes (tour.run.map Waiting.label) tour.outcome.reports
    (tour.outcome.walk.held.map Waiting.label)
  origins : ∃ origins, List.Forall₂ (PieceTable.MadeOf (tour.run.map Waiting.label))
    (deliveredTables tour.outcome.reports) origins

/-- What a call that walks every run does before it gives anything up.  Its reports are those of its
tours, no entry is in two of these, and all entries are in one of them unless a walk faults. -/
structure WalksEachOnce (reassembler : Reassembler) (now : Instant)
    (answers : ReassemblerAnswers) (tours : List Tour) (unwalked : List Waiting) : Prop where
  tours_eq : reassembler.callTours (.process none now answers) = tours
  reports_eq : (reassembler.walkAll answers.packet).reports =
    tours.flatMap fun tour => tour.outcome.reports
  runs_perm : (tours.flatMap Tour.run ++ unwalked).Perm reassembler.window
  window_perm : (reassembler.walkAll answers.packet).state.window.Perm
    (tours.flatMap (fun tour => tour.outcome.walk.held) ++ unwalked)
  all : ∀ delivered, (reassembler.walkAll answers.packet).value = .ok delivered → unwalked = []

variable {reassembler : Reassembler} {labels : List (Segment × Nat)}
  {reports : List ReassemblerReport}

theorem exists_walksRunOf (hsorted : Window.Sorted reassembler.window)
    (htraces : reassembler.Traces labels reports) (segment : Segment) (now : Instant)
    (answers : ReassemblerAnswers) :
    ∃ tour, reassembler.WalksRunOf segment now answers
      (Window.anchorFor (reassembler.arriving segment now) reassembler.window) tour := by
  obtain ⟨refused, requests, hreport, hrequests⟩ :=
    reassembler.report_eq segment.header answers.request
  obtain ⟨entry, hentry⟩ : ∃ entry, entry = reassembler.arriving segment now := ⟨_, rfl⟩
  have hinformed : ({ reassembler with refusals := refused } : Reassembler).arriving segment now =
      entry := hentry.symm
  obtain ⟨anchor, hanchor⟩ : ∃ anchor, anchor = Window.anchorFor entry reassembler.window :=
    ⟨_, rfl⟩
  rw [← hentry, ← hanchor]
  have hentries : anchor.entries.Perm (entry :: reassembler.window) :=
    hanchor ▸ Window.entries_anchorFor_perm entry reassembler.window
  have hfilled : Window.Sorted anchor.entries := hanchor ▸ Window.sorted_anchorFor hsorted entry
  obtain ⟨earlier, later, between, hcut⟩ := anchor.cut_cutsRun
  let tour : Tour :=
    { run := anchor.cut.1, delivered := 0, refused := refused, answers := answers.packet }
  have hstate : (reassembler.receive segment now answers).state.window =
      anchor.cut.2.fill tour.outcome.walk.remaining := by
    simp only [receive, hreport, hinformed, ← hanchor]
    rfl
  have hrun : ∀ other ∈ anchor.cut.1, other ∈ entry :: reassembler.window := fun other hother =>
    hentries.subset (anchor.cut_perm.subset (List.mem_append_right _ hother))
  have htraced := htraces.traced.arriving htraces.arrived segment now
  rw [← hentry] at htraced
  have hfresh : ∀ other ∈ entry :: reassembler.window, other.Fresh :=
    List.forall_mem_cons.2 ⟨hentry ▸ .arriving _ _ _, htraces.fresh⟩
  have hnodup : (anchor.cut.1.map Waiting.arrival).Nodup := by
    have hparts := ((anchor.cut_perm.trans hentries).map Waiting.arrival).nodup_iff.2 htraced.nodup
    rw [List.map_append] at hparts
    exact hparts.of_append_right
  refine ⟨tour, ?_⟩
  constructor
  case anchored => rw [hanchor, ← hentry, (Window.anchorFor_eq entry reassembler.window).1]
  case sorted => exact hfilled
  case entries_perm => rwa [← hentry]
  case longest => exact ⟨between, hcut.longestRun, hcut.window_perm⟩
  case tours_eq =>
    simp only [callTours, processTours, hreport, hinformed, ← hanchor]
    rfl
  case reports_eq =>
    refine ⟨requests, ?_, hrequests⟩
    simp only [receive, hreport, hinformed, ← hanchor]
    rfl
  case beside => rw [hanchor]; exact Window.gap_sublist entry reassembler.window
  case stays => rw [hstate]; exact anchor.cut.2.window_sublist_fill _
  case window_perm =>
    rw [hstate]
    exact (Gap.fill_perm _ _).trans ((Walk.remaining_perm _).append_left _)
  case disposes => exact tour.disposes.1
  case origins =>
    exact Tour.exists_origins hcut.chained hnodup fun other hother =>
      ⟨htraced.coherent other (hrun other hother), hfresh other (hrun other hother)⟩

theorem exists_walksEachOnce (hsorted : Window.Sorted reassembler.window)
    (hnodup : (reassembler.window.map Waiting.arrival).Nodup) (now : Instant)
    (answers : ReassemblerAnswers) :
    ∃ tours unwalked, reassembler.WalksEachOnce now answers tours unwalked := by
  obtain ⟨blocks, hblocks, hperm, hheads⟩ := Window.exists_blocks hsorted
  have hfalls : Window.Falls reassembler.window [] blocks :=
    ⟨hsorted, hnodup, hperm.symm, hblocks, List.forall_mem_nil _⟩
  obtain ⟨hreports, unwalked, hruns, hwindow, hall⟩ :=
    walkHeads_walksBlocks answers.packet 0 hfalls
  rw [hheads] at hreports hruns hwindow hall
  exact ⟨_, unwalked, rfl, hreports, hruns.trans hperm, hwindow, hall⟩

/-- Which runs calls walk.  After any calls the window is ordered by number, and no segment waits in
it twice.  What is cut out through any of its entries is the longest run through it; a call that
takes a segment in walks only the longest run through this segment; and a call that walks every run
walks every entry once, if no walk faults. -/
theorem run_walksRuns (settings : ReassemblerSettings) (calls : List ReassemblerCall) :
    let reassembler := ((start settings).run calls).state
    Window.Sorted reassembler.window ∧
      (reassembler.window.map Waiting.arrival).Nodup ∧
      (∀ anchor : Anchor, anchor.entries = reassembler.window →
        ∃ others, anchor.LongestRun anchor.cut.1 others ∧
          anchor.cut.2.window.Perm others ∧ anchor.cut.2.window.Sublist reassembler.window) ∧
      (∀ segment now answers, ∃ tour, reassembler.WalksRunOf segment now answers
        (Window.anchorFor (reassembler.arriving segment now) reassembler.window) tour) ∧
      ∀ now answers, ∃ tours unwalked, reassembler.WalksEachOnce now answers tours unwalked := by
  intro reassembler
  have hsorted : Window.Sorted reassembler.window := sorted_run calls List.Pairwise.nil
  have hnodup := arrivals_nodup settings calls
  refine ⟨hsorted, hnodup, fun anchor hanchor => ?_,
    exists_walksRunOf hsorted ((traces_start settings).run calls),
    exists_walksEachOnce hsorted hnodup⟩
  obtain ⟨earlier, later, between, hcut⟩ := anchor.cut_cutsRun
  exact ⟨between, hcut.longestRun, hcut.window_perm, hanchor ▸ anchor.gap_sublist⟩

/-- Four segments without a packet start, two of them with the number 0: the one with the last
number comes before both, and the number 5 is a run of its own.  Walking every run walks all
four. -/
theorem run_walksRuns_wrapped :
    let answers : ReassemblerAnswers := { request := .accepted, packet := fun _ => .accepted }
    let takesIn (number : UInt16) : ReassemblerCall :=
      .process (some { header := { SegmentHeader.blank with sequence := number },
                       payload := .ofPacket (.raw 0 [7]) }) .zero answers
    let calls := [takesIn 0, takesIn 8191, takesIn 5, takesIn 0]
    Window.sequences ((start .standard).run calls).state.window = [⟨0⟩, ⟨0⟩, ⟨5⟩, ⟨8191⟩] ∧
      (∃ (anchor : Anchor) (others : List Waiting), anchor.entries =
          ((start .standard).run calls).state.window ∧
        Window.sequences anchor.cut.1 = [⟨8191⟩, ⟨0⟩, ⟨0⟩] ∧
        anchor.LongestRun anchor.cut.1 others) ∧
      (((start .standard).run calls).state.walkAll answers.packet).value = .ok 0 ∧
      ∃ tours, ((start .standard).run calls).state.WalksEachOnce .zero answers tours [] := by
  intro answers takesIn calls
  have hwindow : Window.sequences ((start .standard).run calls).state.window =
      [⟨0⟩, ⟨0⟩, ⟨5⟩, ⟨8191⟩] := by cbv
  have hcut : (Window.anchorAt? ⟨0⟩ ((start .standard).run calls).state.window).map
      (fun anchor => Window.sequences anchor.cut.1) = some [⟨8191⟩, ⟨0⟩, ⟨0⟩] := by cbv
  have hvalue : (((start .standard).run calls).state.walkAll answers.packet).value = .ok 0 := by
    cbv
  obtain ⟨anchor, hanchor, hrun⟩ := Option.map_eq_some_iff.1 hcut
  have hentries := Window.entries_anchorAt? hanchor
  obtain ⟨-, -, hruns, -, hall⟩ := run_walksRuns .standard calls
  obtain ⟨others, hlongest, -⟩ := hruns anchor hentries
  obtain ⟨tours, unwalked, honce⟩ := hall .zero answers
  obtain rfl := honce.all 0 hvalue
  exact ⟨hwindow, ⟨anchor, others, hentries, hrun, hlongest⟩, hvalue, tours, honce⟩

end Reassembler

end Ccf
