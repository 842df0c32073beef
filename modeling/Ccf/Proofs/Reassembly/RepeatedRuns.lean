import Ccf.Proofs.Reassembly.Evictions
import Ccf.Proofs.Reassembly.Processing
import Ccf.Proofs.Reassembly.Repetitions

/-!
# Runs with repetitions

In a run with repetitions each entry holds the segment of the one before it or the next one.  All
that a walk along such a run hands out is genuine, and so is all that a reassembler hands out whose
segments are fewer than the sequence numbers.  What the reassembler gives up does not matter here.
-/

namespace Ccf

namespace Reception

open Walk

variable {stream : Stream} (reception : Reception stream)

/-- Arrivals of the same segment, or of one segment and the next. -/
def Successive (previous arrival : Nat) : Prop :=
  reception.index arrival = reception.index previous ∨
    reception.index arrival = reception.index previous + 1

/-- A walk along a run with repetitions, and what has been handed out so far. -/
structure Replays (run : List Waiting) (reports : List ReassemblerReport) (walk : Walk) :
    Prop where
  lawful : ∀ entry ∈ walk.held, reception.Lawful entry
  subperm : (walk.held.map Waiting.arrival).Subperm (run.map Waiting.arrival)
  nodup : (run.map Waiting.arrival).Nodup
  chained : List.IsChain reception.Successive
    ((openEntries walk.pending ++ walk.ahead).map Waiting.arrival)
  composed : ∀ packet, walk.pending = some packet → reception.Composed packet
  gathered : ∀ packet, walk.pending = some packet → reception.Gathered packet
  fresh : walk.KeepsFresh
  genuine : ∀ table ∈ deliveredTables reports, reception.Genuine table

/-- Entries of different arrivals among the first ones. -/
structure Buffered (arrivals : Nat) (entries : List Waiting) : Prop where
  lawful : ∀ entry ∈ entries, reception.Lawful entry
  fresh : ∀ entry ∈ entries, entry.Fresh
  nodup : (entries.map Waiting.arrival).Nodup
  le : ∀ arrival ∈ entries.map Waiting.arrival, arrival ≤ arrivals

/-- A window of segments some of which may have arrived repeatedly, and what has been handed out so
far. -/
structure Sincere (arrivals : Nat) (reports : List ReassemblerReport) (reassembler : Reassembler) :
    Prop where
  arrivals_eq : reassembler.arrivals = arrivals
  sorted : Window.Sorted reassembler.window
  buffered : reception.Buffered arrivals reassembler.window
  genuine : ∀ table ∈ deliveredTables reports, reception.Genuine table

variable {reception}

/-- A visit along a run with repetitions hands out what is genuine, and does not fault. -/
theorem replays_visit (hsound : ¬ reception.Damaged) {run : List Waiting}
    {reports : List ReassemblerReport} {walk : Walk} (answers : Nat → Answer) {entry : Waiting}
    {rest : List Waiting} (hreplays : reception.Replays run reports walk)
    (hahead : walk.ahead = entry :: rest) :
    (walk.visit answers entry rest).fault = none ∧
      reception.Replays run (reports ++ (walk.visit answers entry rest).reports)
        (walk.visit answers entry rest).walk := by
  have hentry := hreplays.lawful entry (entry_mem_held hahead)
  have hdistinct : ∀ other ∈ openEntries walk.pending, other.arrival ≠ entry.arrival := by
    obtain ⟨arrivals, hperm, hsublist⟩ := hreplays.subperm
    exact arrival_ne_of_nodup hahead (hperm.nodup_iff.1 (hreplays.nodup.sublist hsublist))
  have htake := canTake_of_composed hentry hreplays.composed hdistinct
  have hgathered : ∀ packet, walk.pending = some packet →
      reception.Gathered packet ∧ reception.Adjacent packet entry ∧ entry.Fresh := by
    intro packet hpacket
    refine ⟨hreplays.gathered packet hpacket, fun newest older hentries => ?_,
      hreplays.fresh.ahead packet hpacket entry (by rw [hahead]; exact List.mem_cons_self)⟩
    have hchained := hreplays.chained
    rw [hpacket, openEntries, hentries, hahead, List.reverse_cons, List.append_assoc,
      List.singleton_append, List.map_append, List.map_cons, List.map_cons,
      List.isChain_append_cons_cons] at hchained
    exact hchained.2.1
  obtain ⟨stays, later, back, hmakes⟩ := visit_makes answers rest hentry htake
  obtain ⟨hgenuine, hlater⟩ := genuine_of_visits hsound hentry hgathered htake hmakes.visits
  refine ⟨hmakes.fault_eq, ⟨?_, ?_, hreplays.nodup, ?_, ?_, ?_, ?_, ?_⟩⟩
  · exact lawful_held hahead hmakes hreplays.lawful hreplays.composed
  · exact (arrivals_subperm hahead hmakes).trans hreplays.subperm
  · exact hreplays.chained.suffix (arrivals_suffix hahead hmakes)
  · rw [hmakes.pending_eq]
    exact composed_of_visits hentry hreplays.composed htake hmakes.visits
  · rw [hmakes.pending_eq]
    exact hlater
  · exact hreplays.fresh.makes hahead
      (fun other hother => (hreplays.lawful other hother).toCoherent) hmakes
  · intro table htable
    rw [deliveredTables_append] at htable
    rcases List.mem_append.1 htable with hold | hnew
    · exact hreplays.genuine table hold
    · exact hgenuine table hnew

/-- A walk along a run with repetitions hands out what is genuine, and does not fault. -/
theorem replays_finish (hsound : ¬ reception.Damaged) {run : List Waiting}
    {reports : List ReassemblerReport} {walk : Walk} (answers : Nat → Answer)
    (hreplays : reception.Replays run reports walk) :
    (walk.finish answers).fault = none ∧ (walk.finish answers).walk.ahead = [] ∧
      reception.Replays run (reports ++ (walk.finish answers).reports)
        (walk.finish answers).walk := by
  apply finish_faultless (reception.Replays run) answers _ walk reports hreplays
  intro reports walk entry rest hreplays hahead
  exact replays_visit hsound answers hreplays hahead

theorem Buffered.perm {arrivals : Nat} {entries others : List Waiting}
    (hbuffered : reception.Buffered arrivals entries) (hperm : entries.Perm others) :
    reception.Buffered arrivals others where
  lawful entry hentry := hbuffered.lawful entry (hperm.mem_iff.2 hentry)
  fresh entry hentry := hbuffered.fresh entry (hperm.mem_iff.2 hentry)
  nodup := (hperm.map Waiting.arrival).nodup_iff.1 hbuffered.nodup
  le arrival harrival := hbuffered.le arrival ((hperm.map Waiting.arrival).mem_iff.2 harrival)

theorem Buffered.sublist {arrivals : Nat} {entries others : List Waiting}
    (hbuffered : reception.Buffered arrivals entries) (hsublist : others.Sublist entries) :
    reception.Buffered arrivals others where
  lawful entry hentry := hbuffered.lawful entry (hsublist.subset hentry)
  fresh entry hentry := hbuffered.fresh entry (hsublist.subset hentry)
  nodup := hbuffered.nodup.sublist (hsublist.map Waiting.arrival)
  le arrival harrival := hbuffered.le arrival ((hsublist.map Waiting.arrival).subset harrival)

/-- A segment that arrives is buffered. -/
theorem Buffered.cons {reassembler : Reassembler}
    (hbuffered : reception.Buffered reassembler.arrivals reassembler.window)
    (harrives : reception.Arrives (reassembler.arrivals + 1)) (now : Instant) :
    reception.Buffered (reassembler.arrivals + 1)
      (reassembler.arriving (reception.segment (reassembler.arrivals + 1)) now ::
        reassembler.window) := by
  have hlatest : (reassembler.arriving (reception.segment (reassembler.arrivals + 1)) now).arrival =
      reassembler.arrivals + 1 := rfl
  refine ⟨?_, ?_, ?_, ?_⟩
  · exact List.forall_mem_cons.2 ⟨lawful_arriving harrives, hbuffered.lawful⟩
  · exact List.forall_mem_cons.2 ⟨.arriving _ _ _, hbuffered.fresh⟩
  · rw [List.map_cons, hlatest, List.nodup_cons]
    exact ⟨fun hmem => absurd (hbuffered.le _ hmem) (by omega), hbuffered.nodup⟩
  · rw [List.map_cons, hlatest]
    exact List.forall_mem_cons.2 ⟨Nat.le_refl _, fun arrival harrival =>
      Nat.le_succ_of_le (hbuffered.le arrival harrival)⟩

/-- What a walk leaves of a run is buffered, together with the rest of the window. -/
theorem Replays.buffered {arrivals : Nat} {aside run : List Waiting}
    {reports : List ReassemblerReport} {walk : Walk}
    (hbuffered : reception.Buffered arrivals (aside ++ run))
    (hreplays : reception.Replays run reports walk) (hended : walk.ahead = []) :
    reception.Buffered arrivals (aside ++ walk.held) := by
  have hsubset := hreplays.subperm.subset
  have hnodup := hbuffered.nodup
  have hle := hbuffered.le
  rw [List.map_append] at hnodup hle
  obtain ⟨haside, hrun, hapart⟩ := List.nodup_append'.1 hnodup
  obtain ⟨arrivals', hperm, hsublist⟩ := hreplays.subperm
  refine ⟨?_, ?_, ?_, ?_⟩
  · intro entry hentry
    rcases List.mem_append.1 hentry with hold | hheld
    · exact hbuffered.lawful entry (List.mem_append_left _ hold)
    · exact hreplays.lawful entry hheld
  · intro entry hentry
    rcases List.mem_append.1 hentry with hold | hheld
    · exact hbuffered.fresh entry (List.mem_append_left _ hold)
    · rw [held, hended, List.append_nil] at hheld
      exact hreplays.fresh.others entry (List.mem_append_left _ hheld)
  · rw [List.map_append]
    exact List.nodup_append'.2 ⟨haside, hperm.nodup_iff.1 (hrun.sublist hsublist),
      fun arrival hold hheld => hapart hold (hsubset hheld)⟩
  · rw [List.map_append]
    intro arrival harrival
    rcases List.mem_append.1 harrival with hold | hheld
    · exact hle arrival (List.mem_append_left _ hold)
    · exact hle arrival (List.mem_append_right _ (hsubset hheld))

theorem sincere_start (settings : ReassemblerSettings) :
    reception.Sincere 0 [] (Reassembler.start settings) where
  arrivals_eq := rfl
  sorted := List.Pairwise.nil
  buffered := ⟨nofun, nofun, List.nodup_nil, nofun⟩
  genuine := nofun

/-- Adjacent numbers are those of the same segment or of successive ones if no number comes
again. -/
theorem successive_of_follows (hlength : stream.segments.length < sequenceSpace)
    {previous entry : Waiting} (hprevious : reception.Lawful previous)
    (hentry : reception.Lawful entry) (hfollows : entry.follows previous = true) :
    reception.Successive previous.arrival entry.arrival := by
  have hvalue := hentry.sequence_value_eq
  have hvalue' := hprevious.sequence_value_eq
  have hlt := hentry.index_lt
  have hlt' := hprevious.index_lt
  rw [Nat.mod_eq_of_lt (Nat.lt_trans hlt hlength)] at hvalue
  rw [Nat.mod_eq_of_lt (Nat.lt_trans hlt' hlength)] at hvalue'
  rcases (SequenceNumber.follows_iff _ _).1 hfollows with hsame | hnext
  · rw [hsame, hvalue'] at hvalue
    exact Or.inl hvalue.symm
  · rw [hnext, SequenceNumber.next, hvalue', Nat.mod_eq_of_lt (by omega)] at hvalue
    exact Or.inr hvalue.symm

/-- The walk along a run that is cut out of a window is one with repetitions. -/
theorem replays_begin (hlength : stream.segments.length < sequenceSpace) {arrivals : Nat}
    {run : List Waiting} (hrun : reception.Buffered arrivals run)
    (hchained : List.IsChain (fun previous entry => entry.follows previous = true) run)
    {reports : List ReassemblerReport}
    (hgenuine : ∀ table ∈ deliveredTables reports, reception.Genuine table) (refused : Nat) :
    reception.Replays run reports (Walk.begin run 0 refused) where
  lawful := hrun.lawful
  subperm := List.Subperm.refl _
  nodup := hrun.nodup
  chained := by
    refine (List.isChain_map _).2 (hchained.imp_of_mem_imp fun previous entry hprevious hentry
      hfollows => ?_)
    exact successive_of_follows hlength (hrun.lawful previous hprevious)
      (hrun.lawful entry hentry) hfollows
  composed := nofun
  gathered := nofun
  fresh := keepsFresh_begin hrun.fresh 0 refused
  genuine := hgenuine

/-- A call that takes a segment in hands out what is genuine. -/
theorem Sincere.process (hsound : ¬ reception.Damaged)
    (hlength : stream.segments.length < sequenceSpace) {reports : List ReassemblerReport}
    {reassembler : Reassembler}
    (hsincere : reception.Sincere reassembler.arrivals reports reassembler)
    (harrives : reception.Arrives (reassembler.arrivals + 1)) (now : Instant)
    (answers : ReassemblerAnswers) :
    reception.Sincere (reassembler.arrivals + 1)
      (reports ++ (reassembler.process
        (some (reception.segment (reassembler.arrivals + 1))) now answers).reports)
      (reassembler.process (some (reception.segment (reassembler.arrivals + 1))) now
        answers).state := by
  obtain ⟨front, refused, htables, -, hprocess⟩ := reassembler.process_some
    (reception.segment (reassembler.arrivals + 1)) now answers
  have hbuffered := hsincere.buffered.cons harrives now
  generalize reassembler.arriving (reception.segment (reassembler.arrivals + 1)) now = entry
    at hprocess hbuffered
  dsimp only at hprocess
  have hgap := Window.gap_sublist entry reassembler.window
  have hparts := hbuffered.perm (Window.cut_perm entry reassembler.window).symm
  obtain ⟨earlier, later, between, hcut⟩ :=
    (Window.anchorFor entry reassembler.window).cut_cutsRun
  have hchained := hcut.chained
  generalize (Window.anchorFor entry reassembler.window).cut = parts
    at hprocess hgap hparts hchained
  have hgenuine : ∀ table ∈ deliveredTables (reports ++ front), reception.Genuine table := by
    rw [deliveredTables_append, htables, List.append_nil]
    exact hsincere.genuine
  obtain ⟨hfault, hended, hreplays⟩ := replays_finish hsound answers.packet (replays_begin hlength
    (hparts.sublist (List.sublist_append_right _ _)) hchained hgenuine refused)
  rw [hprocess hfault]
  have hevicted := Reassembler.evict_sublist
    { settings := reassembler.settings
      window := parts.2.fill ((Walk.begin parts.1 0 refused).finish answers.packet).walk.remaining
      arrivals := reassembler.arrivals + 1
      refusals := ((Walk.begin parts.1 0 refused).finish answers.packet).walk.refused } now
  refine ⟨rfl, ?_, ?_, ?_⟩
  · exact (Gap.fill_sorted (hsincere.sorted.sublist hgap) _).sublist hevicted
  · have hperm : (parts.2.fill
        ((Walk.begin parts.1 0 refused).finish answers.packet).walk.remaining).Perm
        (parts.2.window ++ ((Walk.begin parts.1 0 refused).finish answers.packet).walk.held) := by
      apply (Gap.fill_perm _ _).trans
      exact (remaining_perm _).append_left _
    exact ((hreplays.buffered hparts hended).perm hperm.symm).sublist hevicted
  · rw [← List.append_assoc, deliveredTables_append, Reassembler.deliveredTables_evict,
      List.append_nil, ← List.append_assoc]
    exact hreplays.genuine

end Reception

end Ccf
