import Ccf.Proofs.Reassembly.WindowBound
import Mathlib.Data.List.Count

/-!
# What is given up

Giving up takes segments out of the window for two reasons, one after the other.  A segment is stale
when it has waited for longer than the timeout; of those that are not, the earliest arrivals go when
there are more than the bound.  The segments that are taken out are dropped once each, and the
others, which are the latest arrivals, keep their cursors and their order.

The window is ordered by number while age goes by arrival, so taking out the earliest arrival again
and again is compared with putting the window into order of arrival first.
-/

namespace Ccf

/-- Whether a segment has waited for longer than a timeout, if there is one. -/
def Waiting.isStale (timeout : Option Instant) (now : Instant) (entry : Waiting) : Bool :=
  timeout.any fun duration => (entry.arrivedAt.add duration).before now

namespace Window

/-- Whether an entry has not arrived after another one. -/
def arrivedBy (entry other : Waiting) : Bool := decide (entry.arrival ≤ other.arrival)

def byArrival (window : List Waiting) : List Waiting := window.mergeSort arrivedBy

def earliest (count : Nat) (window : List Waiting) : List Waiting := (byArrival window).take count

/-- How many entries have arrived after one. -/
def countLater (window : List Waiting) (entry : Waiting) : Nat :=
  window.countP fun other => decide (entry.arrival < other.arrival)

def latest (bound : Nat) (window : List Waiting) : List Waiting :=
  window.filter fun entry => decide (countLater window entry < bound)

def stale (timeout : Option Instant) (now : Instant) (window : List Waiting) : List Waiting :=
  window.filter fun entry => entry.isStale timeout now

def fresh (timeout : Option Instant) (now : Instant) (window : List Waiting) : List Waiting :=
  window.filter fun entry => !entry.isStale timeout now

theorem arrivedBy_iff {entry other : Waiting} :
    arrivedBy entry other = true ↔ entry.arrival ≤ other.arrival :=
  decide_eq_true_iff

theorem byArrival_perm (window : List Waiting) : (byArrival window).Perm window :=
  List.mergeSort_perm window arrivedBy

theorem byArrival_pairwise (window : List Waiting) :
    (byArrival window).Pairwise fun entry other => entry.arrival ≤ other.arrival := by
  have hordered : (byArrival window).Pairwise fun entry other => arrivedBy entry other = true := by
    apply List.pairwise_mergeSort
    · intro first second third hfirst hsecond
      rw [arrivedBy_iff] at hfirst hsecond ⊢
      exact Nat.le_trans hfirst hsecond
    · intro entry other
      rw [Bool.or_eq_true, arrivedBy_iff, arrivedBy_iff]
      exact Nat.le_total _ _
  exact hordered.imp fun hpair => arrivedBy_iff.1 hpair

/-- If no more entries wait than the bound, all of them are among the latest. -/
theorem latest_of_length_le {bound : Nat} {window : List Waiting}
    (hlength : window.length ≤ bound) :
    latest bound window = window := by
  refine List.filter_eq_self.2 fun entry hentry => decide_eq_true ?_
  have hself : decide (entry.arrival < entry.arrival) = false := by simp
  have hfew : countLater window entry < window.length :=
    List.countP_lt_length_iff.2 ⟨entry, hentry, hself⟩
  exact Nat.lt_of_lt_of_le hfew hlength

section Oldest

variable {front back : List Waiting} {entry : Waiting}
  (hearliest : ∀ other ∈ front ++ back, entry.arrival < other.arrival)
include hearliest

/-- The earliest arrival comes first. -/
theorem byArrival_of_earliest (hnodup : ((front ++ back).map Waiting.arrival).Nodup) :
    byArrival (front ++ entry :: back) = entry :: byArrival (front ++ back) := by
  have hperm : (byArrival (front ++ entry :: back)).Perm (entry :: byArrival (front ++ back)) :=
    (byArrival_perm _).trans (List.perm_middle.trans ((byArrival_perm _).symm.cons entry))
  have hordered : (entry :: byArrival (front ++ back)).Pairwise
      fun entry other => entry.arrival ≤ other.arrival :=
    List.pairwise_cons.2 ⟨fun other hother =>
      Nat.le_of_lt (hearliest other ((byArrival_perm _).subset hother)), byArrival_pairwise _⟩
  have hdistinct : ((entry :: byArrival (front ++ back)).map Waiting.arrival).Nodup := by
    refine List.nodup_cons.2 ⟨fun hmem => ?_, ?_⟩
    · obtain ⟨other, hother, hsame⟩ := List.mem_map.1 hmem
      have hlater := hearliest other ((byArrival_perm _).subset hother)
      omega
    · exact ((byArrival_perm _).map _).nodup_iff.2 hnodup
  apply hperm.eq_of_pairwise _ (byArrival_pairwise _) hordered
  intro first second hfirst hsecond hle hge
  exact List.inj_on_of_nodup_map hdistinct (hperm.subset hfirst) hsecond (Nat.le_antisymm hle hge)

/-- The earliest arrival beyond the bound is not among the latest. -/
theorem latest_of_earliest {bound : Nat} (hbound : bound ≤ (front ++ back).length) :
    latest bound (front ++ entry :: back) = latest bound (front ++ back) := by
  have hmiddle (kind : Waiting → Bool) :
      (front ++ entry :: back).countP kind = (entry :: (front ++ back)).countP kind :=
    List.perm_middle.countP_eq kind
  have hall : countLater (front ++ entry :: back) entry = (front ++ back).length := by
    rw [countLater, hmiddle, List.countP_cons_of_neg (by simp)]
    exact List.countP_eq_length.2 fun other hother => decide_eq_true (hearliest other hother)
  have hothers : ∀ other ∈ front ++ back,
      countLater (front ++ entry :: back) other = countLater (front ++ back) other := by
    intro other hother
    have hlater := hearliest other hother
    rw [countLater, hmiddle, List.countP_cons_of_neg (by simp; omega), countLater]
  have hgone : ¬ countLater (front ++ entry :: back) entry < bound := by
    rw [hall]
    exact Nat.not_lt.2 hbound
  rw [latest, List.filter_append, List.filter_cons_of_neg (by simpa using hgone),
    ← List.filter_append, latest]
  exact List.filter_congr fun other hother => by rw [hothers other hother]

end Oldest

end Window

namespace Reassembler

open Window

/-- The entry that has arrived first, with what is before and after it. -/
theorem exists_earliest {window : List Waiting} (hnodup : (window.map Waiting.arrival).Nodup)
    {oldest : Nat} (holdest : (window.map Waiting.arrival).min? = some oldest) :
    ∃ front entry back, window = front ++ entry :: back ∧
      (window.find? fun other => other.arrival == oldest) = some entry ∧
      (window.eraseP fun other => other.arrival == oldest) = front ++ back ∧
      ((front ++ back).map Waiting.arrival).Nodup ∧
      ∀ other ∈ front ++ back, entry.arrival < other.arrival := by
  obtain ⟨hmem, hleast⟩ := List.min?_eq_some_iff.1 holdest
  obtain ⟨entry, hentry, rfl⟩ := List.mem_map.1 hmem
  obtain ⟨front, back, rfl⟩ := List.append_of_mem hentry
  obtain ⟨hfresh, hothers⟩ :=
    List.nodup_cons.1 ((List.perm_middle.map Waiting.arrival).nodup_iff.1 hnodup)
  have hdiffer : ∀ other ∈ front ++ back, other.arrival ≠ entry.arrival := by
    intro other hother hsame
    exact hfresh (hsame ▸ List.mem_map_of_mem hother)
  have hfront : ∀ other ∈ front, ¬ (other.arrival == entry.arrival) = true :=
    fun other hother hsame => hdiffer other (List.mem_append_left _ hother) (beq_iff_eq.1 hsame)
  refine ⟨front, entry, back, rfl, ?_, ?_, hothers, fun other hother => ?_⟩
  · rw [List.find?_append, List.find?_eq_none.2 hfront, Option.none_or,
      List.find?_cons_of_pos (by exact beq_self_eq_true _)]
  · rw [List.eraseP_append_right _ hfront, List.eraseP_cons_of_pos (by exact beq_self_eq_true _)]
  · have hle := hleast _ (List.mem_map_of_mem (List.perm_middle.symm.subset
      (List.mem_cons_of_mem entry hother)))
    exact Nat.lt_of_le_of_ne hle (hdiffer other hother).symm

/-- Taking out the earliest arrivals beyond a bound takes them out in order of arrival, and leaves
the latest ones. -/
theorem takeOldest_eq {window : List Waiting} (bound : Nat)
    (hnodup : (window.map Waiting.arrival).Nodup) :
    takeOldest (window.length - bound) window =
      (earliest (window.length - bound) window, latest bound window) := by
  generalize hcount : window.length - bound = count
  induction count generalizing window with
  | zero => rw [takeOldest, earliest, List.take_zero, latest_of_length_le (by omega)]
  | succ count ih =>
    rw [takeOldest]
    split
    · rename_i hnone
      rw [List.min?_eq_none_iff, List.map_eq_nil_iff] at hnone
      rw [hnone, List.length_nil, Nat.zero_sub] at hcount
      cases hcount
    · rename_i oldest holdest
      obtain ⟨front, entry, back, rfl, hfind, herase, hothers, hearliest⟩ :=
        exists_earliest hnodup holdest
      have hlength : (front ++ entry :: back).length = (front ++ back).length + 1 :=
        List.perm_middle.length_eq
      rw [hfind, herase, ih hothers (by omega), latest_of_earliest hearliest (by omega), earliest,
        earliest, byArrival_of_earliest hearliest hothers]
      rfl

theorem divideStale_eq (settings : ReassemblerSettings) (now : Instant) (window : List Waiting) :
    divideStale settings now window =
      (stale settings.stallTimeout now window, fresh settings.stallTimeout now window) := by
  unfold divideStale stale fresh Waiting.isStale
  cases settings.stallTimeout with
  | none => simp
  | some timeout => exact List.partition_eq_filter_filter

/-- Giving up in terms of the window. -/
theorem evict_eq {reassembler : Reassembler} {timeout : Option Instant} {bound : Nat}
    (htimeout : reassembler.settings.stallTimeout = timeout)
    (hbound : reassembler.settings.windowBound = bound)
    (hnodup : (reassembler.window.map Waiting.arrival).Nodup) (now : Instant) :
    let waiting := fresh timeout now reassembler.window
    let given := stale timeout now reassembler.window ++
      earliest (waiting.length - bound) waiting
    reassembler.evict now =
        { state := { reassembler with window := latest bound waiting }
          reports := given.map fun entry => .dropped entry.segment
          value := given.length } ∧
      (given ++ latest bound waiting).Perm reassembler.window := by
  subst htimeout hbound
  intro waiting given
  have hwaiting : (waiting.map Waiting.arrival).Nodup :=
    hnodup.sublist (List.filter_sublist.map Waiting.arrival)
  have hdivided := divideStale_perm reassembler.settings now reassembler.window
  have htaken := takeOldest_perm (waiting.length - reassembler.settings.windowBound) waiting
  rw [divideStale_eq] at hdivided
  rw [takeOldest_eq _ hwaiting] at htaken
  constructor
  · simp only [evict, divideStale_eq, given]
    rw [takeOldest_eq _ hwaiting, List.length_append]
  · rw [List.append_assoc]
    exact (htaken.append_left _).trans hdivided

/-- A call that succeeds leaves nothing stale and no more than the bound. -/
theorem process_givesUp {reassembler : Reassembler} {arriving : Option Segment}
    {now : Instant} {answers : ReassemblerAnswers} {delivered : Nat}
    (hvalue : (reassembler.process arriving now answers).value = .ok delivered) :
    (reassembler.process arriving now answers).state.window.length ≤
        reassembler.settings.windowBound ∧
      ∀ entry ∈ (reassembler.process arriving now answers).state.window,
        entry.isStale reassembler.settings.stallTimeout now = false := by
  have hsettings := reassembler.settings_walkFor arriving now answers
  rw [process_eq] at hvalue ⊢
  generalize reassembler.walkFor arriving now answers = walked at hvalue hsettings
  cases hwalked : walked.value with
  | error fault =>
    simp only [hwalked] at hvalue
    cases hvalue
  | ok count =>
    rw [← hsettings]
    refine ⟨walked.state.evict_window_le now, fun entry hentry => ?_⟩
    have hfresh : entry ∈ (divideStale walked.state.settings now walked.state.window).2 :=
      (takeOldest_sublist _ _).subset hentry
    rw [divideStale_eq] at hfresh
    simpa using (List.mem_filter.1 hfresh).2

/-- What giving up takes, after any calls.  It drops each stale segment, in window order, and then
of the others the earliest arrivals, in order of arrival, until no more are left than the bound; it
drops nothing else, says how many it has dropped, and leaves the latest arrivals as they were and in
their order.  After a call that takes a segment in or walks every run, if it succeeds, no segment is
stale at its time and no more wait than the bound. -/
theorem run_givesUpOldest (settings : ReassemblerSettings) (calls : List ReassemblerCall) :
    let reassembler := ((start settings).run calls).state
    (∀ now : Instant,
      let waiting := fresh settings.stallTimeout now reassembler.window
      let given := stale settings.stallTimeout now reassembler.window ++
        earliest (waiting.length - settings.windowBound) waiting
      let outcome := reassembler.evict now
      outcome.reports = given.map (fun entry => .dropped entry.segment) ∧
        outcome.value = given.length ∧
        outcome.state = { reassembler with window := latest settings.windowBound waiting } ∧
        (given ++ outcome.state.window).Perm reassembler.window) ∧
      ∀ arriving now answers delivered,
        let outcome := reassembler.process arriving now answers
        outcome.value = .ok delivered →
          outcome.state.window.length ≤ settings.windowBound ∧
            ∀ entry ∈ outcome.state.window, entry.isStale settings.stallTimeout now = false := by
  intro reassembler
  obtain ⟨htimeout, hbound⟩ := (start settings).limits_run calls
  constructor
  · intro now waiting given outcome
    obtain ⟨heq, hperm⟩ := evict_eq htimeout hbound (arrivals_nodup settings calls) now
    have hleft : outcome.state =
        { reassembler with window := latest settings.windowBound waiting } :=
      congrArg Outcome.state heq
    refine ⟨congrArg Outcome.reports heq, congrArg Outcome.value heq, hleft, ?_⟩
    rw [hleft]
    exact hperm
  · intro arriving now answers delivered outcome hvalue
    have hgiven := process_givesUp hvalue
    rwa [htimeout, hbound] at hgiven

/-- Two segments that begin with the same bytes of one packet: the call that brings the second one
fails and gives nothing up, so with room for one segment both wait.  Giving up takes out the first,
and a call that succeeds has given up all but the last arrival. -/
theorem run_givesUpOldest_overfull :
    let settings : ReassemblerSettings := { ReassemblerSettings.standard with windowBound := 1 }
    let answers : ReassemblerAnswers := { request := .accepted, packet := fun _ => .accepted }
    let takesIn (header : SegmentHeader) : ReassemblerCall :=
      .process (some { header := header, payload := .ofPacket (.raw 0 [0, 0, 0, 100]) }) .zero
        answers
    let last : Segment := .ofContent 1 { SegmentHeader.blank with sequence := 100 } [7]
    let calls := [takesIn { SegmentHeader.blank with pfi := true, sequence := 30 },
      takesIn { SegmentHeader.blank with sequence := 31 }]
    Window.sequences ((start settings).run calls).state.window = [⟨30⟩, ⟨31⟩] ∧
      (((start settings).run calls).state.evict .zero).value = 1 ∧
      Window.sequences (((start settings).run calls).state.evict .zero).state.window = [⟨31⟩] ∧
      (((start settings).run calls).state.process (some last) .zero answers).value = .ok 0 ∧
      (((start settings).run calls).state.process (some last) .zero answers).state.window.length ≤
        settings.windowBound := by
  intro settings answers takesIn last calls
  have hwindow : Window.sequences ((start settings).run calls).state.window = [⟨30⟩, ⟨31⟩] := by
    cbv
  have hcount : (((start settings).run calls).state.evict .zero).value = 1 := by cbv
  have hleft :
      Window.sequences (((start settings).run calls).state.evict .zero).state.window = [⟨31⟩] := by
    cbv
  have hvalue :
      (((start settings).run calls).state.process (some last) .zero answers).value = .ok 0 := by
    cbv
  obtain ⟨-, hprocess⟩ := run_givesUpOldest settings calls
  exact ⟨hwindow, hcount, hleft, hvalue, (hprocess (some last) .zero answers 0 hvalue).1⟩

end Reassembler

end Ccf
