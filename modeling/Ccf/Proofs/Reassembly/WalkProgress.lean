import Ccf.Proofs.Reassembly.Cursors
import Mathlib.Algebra.BigOperators.Group.List.Basic
import Mathlib.Algebra.GroupWithZero.Nat
import Mathlib.Data.List.Chain
import Mathlib.Logic.Relation

/-!
# How a walk comes to its end

A step may leave the entry at hand where it is, to be visited again: when a packet has ended inside
it, and when its packet start has ended or contradicted the open packet.  Such a step closes a
packet that has bytes, or it takes a whole packet from the entry, and a packet has at least the four
bytes of its header.  So an entry is visited at most once for every four of its unparsed bytes, once
to close the packet that was open when the walk came to it, and once to move past it.

Nothing is asked of the run.  Headers, cursors and bytes may be anything, segments may be empty, and
so may the packets in them.
-/

namespace Ccf.Walk

def LeadsTo (earlier later : Walk) : Prop :=
  ∃ answers outcome, earlier.step answers = some outcome ∧ outcome.fault = none ∧
    outcome.walk = later

/-- What a step gets done. -/
inductive Progresses (walk : Walk) (outcome : WalkOutcome) : Prop
  /-- The walk moves past the entry at hand, which stays or is part of the open packet. -/
  | passes {entry : Waiting} (hahead : walk.ahead = entry :: outcome.walk.ahead)
      (hstays : entry.label ∈
        (outcome.walk.kept ++ openEntries outcome.walk.pending).map Waiting.label)
  /-- The segment of the entry at hand leaves the window, and the walk moves past its place. -/
  | retires {entry : Waiting} {front : List ReassemblerReport} (how : Release)
      (hahead : walk.ahead = entry :: outcome.walk.ahead)
      (hreports : outcome.reports = front ++ [how.report entry.segment])
  /-- The open packet has bytes and is closed. -/
  | closes {packet : OpenPacket} {entry again : Waiting} {rest : List Waiting}
      (hahead : walk.ahead = entry :: rest) (hback : outcome.walk.ahead = again :: rest)
      (hsame : again.label = entry.label) (hopen : walk.pending = some packet)
      (hbytes : 0 < packet.content.size) (hclosed : outcome.walk.pending = none)
      (hunparsed : outcome.walk.unparsed ≤ walk.unparsed)
  /-- At least four more bytes of the entry at hand have been parsed. -/
  | consumes {entry again : Waiting} {rest : List Waiting}
      (hahead : walk.ahead = entry :: rest) (hback : outcome.walk.ahead = again :: rest)
      (hsame : again.label = entry.label) (hnone : walk.pending = none)
      (hclosed : outcome.walk.pending = none) (hraised : entry.next + 4 ≤ again.next)
      (hinside : again.next ≤ again.size)

/-- The open packet has bytes, in pieces that lie within their packets. -/
def Gathers (pending : Option OpenPacket) : Prop :=
  ∀ packet, pending = some packet → packet.content.Proper ∧ 0 < packet.content.size

section Steps

variable {walk : Walk} {entry : Waiting} {rest stays back : List Waiting} {outcome : WalkOutcome}
  {pending later : Option OpenPacket} {reports : List ReassemblerReport}

/-- A visit opens packets with bytes only. -/
theorem gathers_of_visits (hpending : Gathers pending)
    (hvisits : Visits entry pending stays later back reports) : Gathers later := by
  intro packet hpacket
  refine ⟨proper_of_visits hvisits packet hpacket, ?_⟩
  subst hpacket
  rw [← Gathering.length_cells]
  cases hvisits with
  | «begin» hstarts hunparsed hproper hcells =>
    have hlength : entry.segment.cells.length = entry.size := Segment.length_cells _
    rw [hcells, List.length_drop]
    omega
  | @«continue» opened content hstarts hproper hcells =>
    have hopened := (hpending opened rfl).2
    rw [← Gathering.length_cells] at hopened
    rw [hcells, List.length_append]
    omega

/-- A visit moves past the entry at hand, closes a packet with bytes, or takes a packet. -/
theorem progresses_of_makes (hgathers : Gathers walk.pending) (hahead : walk.ahead = entry :: rest)
    (hmakes : Makes walk (toFirstStart entry) rest outcome stays later back) :
    Progresses walk outcome := by
  have hlabel := label_toFirstStart entry
  have hsize := toFirstStart_size entry
  have hnext := le_toFirstStart_next entry
  have hfront := hmakes.ahead_eq
  have hpassed (hback : back = []) : walk.ahead = entry :: outcome.walk.ahead := by
    rw [hahead, hfront, hback, List.nil_append]
  have hkept : entry.label ∈ (stays ++ openEntries later).map Waiting.label →
      entry.label ∈ (outcome.walk.kept ++ openEntries outcome.walk.pending).map Waiting.label := by
    rw [hmakes.kept_eq, hmakes.pending_eq]
    intro hstays
    obtain ⟨other, hother, hsame⟩ := List.mem_map.1 hstays
    refine List.mem_map.2 ⟨other, ?_, hsame⟩
    rcases List.mem_append.1 hother with hmem | hmem
    · exact List.mem_append_left _ (List.mem_append_left _ hmem)
    · exact List.mem_append_right _ hmem
  have hless {again : Waiting} (hback : back = [again])
      (hagain : again.size - again.next ≤ entry.size - entry.next) :
      outcome.walk.unparsed ≤ walk.unparsed := by
    simpa only [unparsed, hahead, hfront, hback, List.singleton_append] using hagain
  have hvisits := hmakes.visits
  have hclosed := hmakes.pending_eq
  generalize hopen : walk.pending = pending at hvisits hgathers
  generalize hreports : outcome.reports = reports at hvisits
  cases hvisits with
  | reject =>
    rw [segment_toFirstStart] at hreports
    exact .retires .drop (hpassed rfl) hreports
  | letGo =>
    rw [segment_toFirstStart] at hreports
    exact .retires .recycle (hpassed rfl) (hreports.trans (List.nil_append _).symm)
  | owe => exact .passes (hpassed rfl) (hkept (by simp [hlabel]))
  | await => exact .passes (hpassed rfl) (hkept (by simp [hlabel]))
  | @parse content block answer hstarts hunparsed hproper hcells hcomplete =>
    obtain ⟨hraised, hinside⟩ := parsedTo_next_of_cells hunparsed hcells hcomplete
    obtain ⟨hheader, -⟩ := Gathering.completeSize?_bounds hcomplete
    refine .consumes hahead hfront hlabel hopen hclosed ?_ (Nat.sub_le _ _)
    simp only [MacHeader.wireSize] at hheader
    omega
  | «begin» => exact .passes (hpassed rfl) (hkept (by simp [openEntries, hlabel]))
  | @finish packet =>
    refine .closes hahead hfront hlabel hopen (hgathers packet rfl).2 hclosed (hless rfl ?_)
    simp only [Waiting.size] at hsize ⊢
    omega
  | @abandon packet =>
    refine .closes hahead hfront hlabel hopen (hgathers packet rfl).2 hclosed (hless rfl ?_)
    simp only [Waiting.size] at hsize ⊢
    omega
  | @complete packet content block answer hstarts hproper hcells hcomplete hparsed =>
    refine .closes hahead hfront hlabel hopen (hgathers packet rfl).2 hclosed (hless rfl ?_)
    have hend : (parsedTo (toFirstStart entry) content block).size =
        (toFirstStart entry).size := rfl
    omega
  | overrun =>
    rw [segment_toFirstStart] at hreports
    exact .retires .drop (hpassed rfl) hreports
  | «continue» => exact .passes (hpassed rfl) (hkept (by simp [openEntries, hlabel]))

/-- Every step that does not fault gets one of these things done. -/
theorem progresses {answers : Nat → Answer} (hgathers : Gathers walk.pending)
    (hmade : walk.step answers = some outcome) (hfault : outcome.fault = none) :
    Progresses walk outcome ∧ Gathers outcome.walk.pending := by
  obtain ⟨entry, rest, hahead, rfl⟩ := exists_visit hmade
  rcases visit_cases answers entry rest fun packet hpacket => (hgathers packet hpacket).1 with
    ⟨_, -, hstopped⟩ | ⟨stays, later, back, hmakes⟩
  · rw [hstopped] at hfault
    cases hfault
  · refine ⟨progresses_of_makes hgathers hahead hmakes, ?_⟩
    rw [hmakes.pending_eq]
    exact gathers_of_visits hgathers hmakes.visits

end Steps

/-! ## How many steps there are -/

/-- How often a walk can go on to visit the entry at hand, after the present visit. -/
def visitsHere (walk : Walk) : Nat := walk.pending.toList.length + walk.unparsed / 4

/-- How often a walk can visit entries that it comes to. -/
def allowance (entries : List Waiting) : Nat :=
  (entries.map fun entry => (entry.size - entry.next) / 4 + 2).sum

def budget (walk : Walk) : Nat :=
  match walk.ahead with
  | [] => 0
  | _ :: rest => walk.visitsHere + 1 + allowance rest

theorem budget_le_allowance (walk : Walk) : walk.budget ≤ allowance walk.ahead := by
  have hopen : walk.pending.toList.length ≤ 1 := by
    cases walk.pending <;> simp
  unfold budget visitsHere unparsed
  cases walk.ahead with
  | nil => exact Nat.zero_le _
  | cons entry rest =>
    simp only [allowance, List.map_cons, List.sum_cons]
    omega

section Bounds

variable {walk : Walk} {outcome : WalkOutcome}

/-- A step moves past the entry at hand, or lowers the number of visits that it still allows. -/
theorem Progresses.passes_or_lowers (hprogress : Progresses walk outcome) :
    (∃ entry, walk.ahead = entry :: outcome.walk.ahead) ∨
      ∃ entry again rest, walk.ahead = entry :: rest ∧ outcome.walk.ahead = again :: rest ∧
        outcome.walk.visitsHere < walk.visitsHere := by
  cases hprogress with
  | @passes entry hahead => exact Or.inl ⟨entry, hahead⟩
  | @retires entry _ _ hahead => exact Or.inl ⟨entry, hahead⟩
  | @closes packet entry again rest hahead hback _ hopen _ hclosed hunparsed =>
    refine Or.inr ⟨entry, again, rest, hahead, hback, ?_⟩
    simp only [visitsHere, hopen, hclosed, Option.toList_none, Option.toList_some,
      List.length_nil, List.length_singleton]
    omega
  | @consumes entry again rest hahead hback hsame hnone hclosed hraised hinside =>
    refine Or.inr ⟨entry, again, rest, hahead, hback, ?_⟩
    have hsize : again.size = entry.size :=
      congrArg (fun label : Segment × Nat => label.1.size) hsame
    simp only [visitsHere, hnone, hclosed, unparsed, hahead, hback]
    omega

theorem Progresses.budget_lt (hprogress : Progresses walk outcome) :
    outcome.walk.budget < walk.budget := by
  rcases hprogress.passes_or_lowers with ⟨entry, hahead⟩ | ⟨entry, again, rest, hahead, hback, hless⟩
  · have hrest := outcome.walk.budget_le_allowance
    simp only [budget, hahead] at hrest ⊢
    omega
  · simp only [budget, hahead, hback]
    omega

/-- A step that stays at an entry lowers the number of visits that it still allows. -/
theorem Progresses.visitsHere_lt (hprogress : Progresses walk outcome)
    (hstays : outcome.walk.ahead.length = walk.ahead.length) :
    outcome.walk.visitsHere < walk.visitsHere := by
  rcases hprogress.passes_or_lowers with ⟨entry, hahead⟩ | ⟨entry, again, rest, -, -, hless⟩
  · rw [hahead, List.length_cons] at hstays
    omega
  · exact hless

/-- The number of walks in a chain along which a quantity becomes less. -/
theorem length_le_of_lowers {quantity : Walk → Nat} {walks : List Walk}
    (hchain : (walk :: walks).IsChain fun earlier later => quantity later < quantity earlier) :
    walks.length ≤ quantity walk := by
  induction walks generalizing walk with
  | nil => exact Nat.zero_le _
  | cons next later ih =>
    obtain ⟨hless, hlater⟩ := List.isChain_cons_cons.1 hchain
    have hlength := ih hlater
    rw [List.length_cons]
    omega

theorem LeadsTo.progresses {later : Walk} (hleads : LeadsTo walk later)
    (hgathers : Gathers walk.pending) :
    Gathers later.pending ∧ ∃ outcome, Progresses walk outcome ∧ outcome.walk = later := by
  obtain ⟨answers, outcome, hmade, hfault, rfl⟩ := hleads
  obtain ⟨hprogress, hlater⟩ := Walk.progresses hgathers hmade hfault
  exact ⟨hlater, outcome, hprogress, rfl⟩

/-- Along a chain of steps, everything progresses. -/
theorem isChain_progresses {walks : List Walk} (hgathers : Gathers walk.pending)
    (hchain : (walk :: walks).IsChain LeadsTo) :
    (walk :: walks).IsChain fun earlier later =>
      ∃ outcome, Progresses earlier outcome ∧ outcome.walk = later := by
  induction walks generalizing walk with
  | nil => exact List.isChain_singleton _
  | cons next later ih =>
    obtain ⟨hleads, hlater⟩ := List.isChain_cons_cons.1 hchain
    obtain ⟨hnext, hprogress⟩ := hleads.progresses hgathers
    exact List.isChain_cons_cons.2 ⟨hprogress, ih hnext hlater⟩

theorem length_le_budget {walks : List Walk} (hgathers : Gathers walk.pending)
    (hchain : (walk :: walks).IsChain LeadsTo) : walks.length ≤ walk.budget := by
  apply length_le_of_lowers
  refine (isChain_progresses hgathers hchain).imp ?_
  rintro earlier _ ⟨outcome, hprogress, rfl⟩
  exact hprogress.budget_lt

theorem length_le_visitsHere {walks : List Walk} (hgathers : Gathers walk.pending)
    (hchain : (walk :: walks).IsChain LeadsTo)
    (hstay : ∀ later ∈ walks, later.ahead.length = walk.ahead.length) :
    walks.length ≤ walk.visitsHere := by
  have hplace : ∀ later ∈ walk :: walks, later.ahead.length = walk.ahead.length :=
    List.forall_mem_cons.2 ⟨rfl, hstay⟩
  apply length_le_of_lowers
  refine (isChain_progresses hgathers hchain).imp_of_mem_imp ?_
  rintro earlier _ hearlier hlater ⟨outcome, hprogress, rfl⟩
  exact hprogress.visitsHere_lt ((hplace _ hlater).trans (hplace _ hearlier).symm)

end Bounds

/-- Nothing is ahead of the walk, or its next step faults; it has come to this result. -/
def Stops (walk : Walk) (answers : Nat → Answer) (result : WalkOutcome) : Prop :=
  walk.ahead = [] ∧ result.walk = walk ∧ result.fault = none ∨
    ∃ outcome fault, walk.step answers = some outcome ∧ outcome.fault = some fault ∧
      result.walk = outcome.walk ∧ result.fault = some fault

/-- Going on step by step as long as there are steps leads to where a walk stops. -/
theorem exists_stops_of_finish (walk : Walk) (answers : Nat → Answer) :
    ∃ last, Relation.ReflTransGen LeadsTo walk last ∧ last.Stops answers (walk.finish answers) := by
  induction walk using finish.induct answers with
  | case1 walk hend =>
    have hahead : walk.ahead = [] := by
      unfold step at hend
      split at hend
      · assumption
      · cases hend
    rw [finish_of_end hend]
    exact ⟨walk, .refl, Or.inl ⟨hahead, rfl, rfl⟩⟩
  | case2 walk outcome hmade fault hfault =>
    rw [finish_of_fault hmade hfault]
    exact ⟨walk, .refl, Or.inr ⟨outcome, fault, hmade, hfault, rfl, hfault⟩⟩
  | case3 walk outcome hmade hnone ih =>
    obtain ⟨last, hreached, hstops⟩ := ih
    rw [finish_of_step hmade hnone]
    exact ⟨last, .head ⟨answers, outcome, hmade, hnone, rfl⟩ hreached, hstops⟩

/-- A walk of a run always ends.  Each of its steps moves past the entry at hand, closes an open
packet that has bytes, or consumes at least four bytes of the entry.  There is a bound on the steps
at one entry and one on all of them, and going on as long as there are steps leads to the end of the
run or to a fault. -/
theorem begin_ends (run : List Waiting) (delivered refused : Nat) :
    let first := begin run delivered refused
    (∀ walk, Relation.ReflTransGen LeadsTo first walk →
      (∀ answers outcome, walk.step answers = some outcome → outcome.fault = none →
        Progresses walk outcome) ∧
      ∀ walks, (walk :: walks).IsChain LeadsTo →
        (∀ later ∈ walks, later.ahead.length = walk.ahead.length) →
        walks.length ≤ walk.pending.toList.length + walk.unparsed / 4) ∧
    (∀ walks, (first :: walks).IsChain LeadsTo →
      walks.length ≤ (run.map fun entry => (entry.size - entry.next) / 4 + 2).sum) ∧
    ∀ answers, ∃ last, Relation.ReflTransGen LeadsTo first last ∧
      last.Stops answers (first.finish answers) := by
  intro first
  have hfirst : Gathers first.pending := fun packet hpacket => by cases hpacket
  have hreached {walk : Walk} (hwalk : Relation.ReflTransGen LeadsTo first walk) :
      Gathers walk.pending := by
    induction hwalk with
    | refl => exact hfirst
    | tail _ hleads ih => exact (hleads.progresses ih).1
  refine ⟨fun walk hwalk => ⟨?_, ?_⟩, ?_, first.exists_stops_of_finish⟩
  · exact fun answers outcome hmade hfault => (progresses (hreached hwalk) hmade hfault).1
  · exact fun walks hchain hstay => length_le_visitsHere (hreached hwalk) hchain hstay
  · exact fun walks hchain =>
      Nat.le_trans (length_le_budget hfirst hchain) first.budget_le_allowance

/-- Three packets without content, taken one after another while the walk stays at the entry. -/
example :
    let segment : Segment := .ofContent 0 { SegmentHeader.blank with pfi := true }
      (List.replicate 12 0)
    let entry : Waiting :=
      { arrival := 1, segment := segment, lead := 0, next := 0, arrivedAt := .zero }
    let result := (begin [entry] 0 0).finish fun _ => .accepted
    result.fault = none ∧ result.walk.ahead = [] ∧ result.walk.delivered = 3 ∧
      result.reports.getLast? = some (.recycled segment) := by cbv

end Ccf.Walk
