import Ccf.Proofs.Reassembly.Refusals
import Ccf.Proofs.Reassembly.WireRuns
import Ccf.Proofs.Wire.FrameStreams

/-!
# What a walk leaves, and walking it again

A walk to the end of a run leaves entries in two parts (`Leftover`).  The first part has entries in
which no packet starts, and entries of which only the lead bytes are left.  The second part, if
there is one, is the packet that stayed open: it begins in the first of its entries, goes on through
the others without a packet start, and all of their bytes together hold no whole packet.

Walking such entries again delivers nothing, and changes nothing unless one of the first part is
empty.  A walk leaves no empty entry there; but one of an open packet may come to be there when the
entry that the packet begins in is given up.
-/

namespace Ccf

namespace MacFrame

/-- A string that begins with no packet has no such beginning either. -/
theorem next?_of_prefix {source longer : List UInt8} (hpart : source <+: longer)
    (hlonger : next? longer = none) : next? source = none := by
  apply next?_eq_none_iff.2
  intro frame hframe hsource
  exact next?_eq_none_iff.1 hlonger frame hframe (hsource.trans hpart)

/-- A string begins with a packet if it has the bytes that the header in front announces. -/
theorem next?_eq_none_iff_decode (source : List UInt8) :
    next? source = none ↔
      ∀ header, MacHeader.decode (source.take MacHeader.wireSize) = .ok header →
        source.length < header.packetSize := by
  match source with
  | [] => simp [next?, MacHeader.decode]
  | [_] => simp [next?, MacHeader.decode, MacHeader.wireSize]
  | [_, _] => simp [next?, MacHeader.decode, MacHeader.wireSize]
  | [_, _, _] => simp [next?, MacHeader.decode, MacHeader.wireSize]
  | a :: b :: c :: d :: rest =>
    simp only [next?, MacHeader.decode, MacHeader.wireSize, MacHeader.packetSize,
      List.take_succ_cons, List.length_take, List.length_cons, Except.ok.injEq, forall_eq',
      ite_eq_right_iff, reduceCtorEq, imp_false]
    omega

end MacFrame

/-- Gathered content is complete exactly if its bytes begin with a packet. -/
theorem Gathering.Proper.completeSize?_eq_none_iff {gathering : Gathering}
    (hproper : gathering.Proper) :
    gathering.completeSize? = none ↔
      MacFrame.next? (gathering.cells.map Cell.byte) = none := by
  have hlength : (gathering.cells.map Cell.byte).length = gathering.size := by
    rw [List.length_map, Gathering.length_cells]
  have hlead : gathering.lead = (gathering.cells.map Cell.byte).take MacHeader.wireSize := by
    rw [gathering.lead_eq, ← Gathering.bytes, hproper.bytes_eq]
  rw [MacFrame.next?_eq_none_iff_decode, hlength, ← hlead]
  unfold Gathering.completeSize?
  cases MacHeader.decode gathering.lead with
  | error fault => simp
  | ok header => simp

/-! ## Leftovers -/

def Waiting.unparsed (entry : Waiting) : List UInt8 := entry.rest.cells.map Cell.byte

def Consecutive (entries : List Waiting) : Prop :=
  (Window.sequences entries).IsChain fun previous next => next = previous.next

/-- No packet starts in the entry, or everything from its packet start on has been parsed and the
bytes before it are owed. -/
def Waiting.Stays (entry : Waiting) : Prop :=
  entry.startsPacket = false ∨
    entry.startsPacket = true ∧ entry.firstStart < entry.size ∧ entry.size ≤ entry.next ∧
      0 < entry.lead

def Waiting.StaysFilled (entry : Waiting) : Prop := entry.Stays ∧ 0 < entry.size

/-- Entries of the first kind, then at most one packet that stays open. -/
inductive Leftover (stays : Waiting → Prop) : List Waiting → Prop where
  | nil : Leftover stays []
  | pass {entry : Waiting} {rest : List Waiting} (hstays : stays entry)
      (hrest : Leftover stays rest) : Leftover stays (entry :: rest)
  | opening {entry : Waiting} {others : List Waiting} (hstarts : entry.startsPacket = true)
      (hunparsed : entry.next < entry.size)
      (hothers : ∀ other ∈ others, other.startsPacket = false)
      (hconsecutive : Consecutive (entry :: others))
      (hopen : MacFrame.next? ((entry :: others).flatMap Waiting.unparsed) = none) :
      Leftover stays (entry :: others)

namespace Consecutive

variable {entries front back : List Waiting}

theorem of_infix (hentries : Consecutive entries) (hpart : front <:+: entries) :
    Consecutive front :=
  List.IsChain.infix hentries (hpart.map Waiting.sequence)

/-- An entry that is not the first has its predecessor before it. -/
theorem exists_previous {first : Waiting} (hentries : Consecutive (front ++ first :: back))
    (hfront : front ≠ []) : ∃ previous ∈ front, first.sequence = previous.sequence.next := by
  obtain ⟨earlier, previous, rfl⟩ := (List.eq_nil_or_concat front).resolve_left hfront
  have hpair : [previous, first] <:+: earlier.concat previous ++ first :: back :=
    ⟨earlier, back, by simp⟩
  have hchain := hentries.of_infix hpair
  exact ⟨previous, by simp, (List.isChain_cons_cons.1 hchain).1⟩

end Consecutive

namespace Leftover

variable {stays others : Waiting → Prop} {entries front back : List Waiting}

theorem mono (himp : ∀ entry, stays entry → others entry) (hentries : Leftover stays entries) :
    Leftover others entries := by
  induction hentries with
  | nil => exact .nil
  | pass hstays _ ih => exact .pass (himp _ hstays) ih
  | opening hstarts hunparsed hothers hconsecutive hopen =>
    exact .opening hstarts hunparsed hothers hconsecutive hopen

theorem of_forall (hentries : ∀ entry ∈ entries, stays entry) : Leftover stays entries := by
  induction entries with
  | nil => exact .nil
  | cons entry rest ih =>
    obtain ⟨hentry, hrest⟩ := List.forall_mem_cons.1 hentries
    exact .pass hentry (ih hrest)

theorem append (hfront : ∀ entry ∈ front, stays entry) (hback : Leftover stays back) :
    Leftover stays (front ++ back) := by
  induction front with
  | nil => exact hback
  | cons entry rest ih =>
    obtain ⟨hentry, hrest⟩ := List.forall_mem_cons.1 hfront
    exact .pass hentry (ih hrest)

/-- The beginning of an open packet is an open packet. -/
theorem of_prefix (hentries : Leftover stays entries) (hpart : front <+: entries) :
    Leftover stays front := by
  induction hentries generalizing front with
  | nil =>
    rw [List.prefix_nil.1 hpart]
    exact .nil
  | pass hstays _ ih =>
    rcases List.prefix_cons_iff.1 hpart with rfl | ⟨more, rfl, hmore⟩
    · exact .nil
    · exact .pass hstays (ih hmore)
  | opening hstarts hunparsed hothers hconsecutive hopen =>
    rcases List.prefix_cons_iff.1 hpart with rfl | ⟨more, rfl, hmore⟩
    · exact .nil
    · apply opening hstarts hunparsed
      · exact fun other hother => hothers other (hmore.subset hother)
      · exact hconsecutive.of_infix hpart.isInfix
      · exact MacFrame.next?_of_prefix (hpart.flatMap _) hopen

/-- What follows in an open packet stays. -/
theorem of_suffix (hstays : ∀ entry, entry.startsPacket = false → stays entry)
    (hentries : Leftover stays entries) (hpart : back <:+ entries) : Leftover stays back := by
  induction hentries with
  | nil =>
    rw [List.suffix_nil.1 hpart]
    exact .nil
  | pass hentry hrest ih =>
    rcases List.suffix_cons_iff.1 hpart with rfl | hmore
    · exact .pass hentry hrest
    · exact ih hmore
  | opening hstarts hunparsed hothers hconsecutive hopen =>
    rcases List.suffix_cons_iff.1 hpart with rfl | hmore
    · exact .opening hstarts hunparsed hothers hconsecutive hopen
    · exact of_forall fun other hother => hstays other (hothers other (hmore.subset hother))

/-- So does what follows, up to an entry whose predecessor is missing. -/
theorem of_foremost_suffix (hentries : Leftover stays entries) (hpart : back <:+ entries)
    (hforemost : ∀ first ∈ back.head?, ∀ entry ∈ entries,
      first.sequence ≠ entry.sequence.next) : Leftover stays back := by
  induction hentries with
  | nil =>
    rw [List.suffix_nil.1 hpart]
    exact .nil
  | pass hentry hrest ih =>
    rcases List.suffix_cons_iff.1 hpart with rfl | hmore
    · exact .pass hentry hrest
    · apply ih hmore
      exact fun first hfirst other hother =>
        hforemost first hfirst other (List.mem_cons_of_mem _ hother)
  | @opening entry others hstarts hunparsed hothers hconsecutive hopen =>
    rcases List.suffix_cons_iff.1 hpart with rfl | ⟨skipped, rfl⟩
    · exact .opening hstarts hunparsed hothers hconsecutive hopen
    · -- The entry before the first one in the packet is the predecessor of the first one.
      cases back with
      | nil => exact .nil
      | cons first later =>
        rw [← List.cons_append] at hconsecutive hforemost
        obtain ⟨previous, hprevious, hnext⟩ :=
          hconsecutive.exists_previous (List.cons_ne_nil _ _)
        exact absurd hnext (hforemost first rfl previous (List.mem_append_left _ hprevious))

end Leftover

namespace Walk

/-- A walk that does not fault comes to the end of its run. -/
theorem finish_ahead (walk : Walk) (answers : Nat → Answer)
    (hfault : (walk.finish answers).fault = none) : (walk.finish answers).walk.ahead = [] := by
  revert hfault
  apply finish_induction (fun _ _ => True)
    (fun fault _ walk => fault = none → walk.ahead = []) answers _ _ _ walk [] trivial
  · exact fun _ _ _ hahead _ => hahead
  · exact fun _ _ _ _ _ _ _ _ hnone => nomatch hnone
  · exact fun _ _ _ _ _ _ _ => trivial

variable {walk : Walk} {entry : Waiting} {rest stays back : List Waiting} {outcome : WalkOutcome}
  {later : Option OpenPacket}

/-- What stays of a packet that is closed owes its lead bytes. -/
theorem staysFilled_of_closing {how : Release} {pending : Option OpenPacket} {other : Waiting}
    (hopen : ∀ old ∈ openEntries pending, old.Coherent ∧
      (old.startsPacket = true → old.next < old.size))
    (hother : other ∈ (closing how pending).1) : other.StaysFilled := by
  obtain ⟨oldest, holdest, hlead, rfl⟩ := mem_closing hother
  obtain ⟨hcoherent, hunparsed⟩ := hopen oldest holdest
  have hstarts := hcoherent.startsPacket_of_lead hlead
  have hnext := hunparsed hstarts
  have hinside : oldest.firstStart < oldest.size :=
    Nat.lt_of_le_of_lt (hcoherent.start_le hstarts) hnext
  exact ⟨Or.inr ⟨hstarts, hinside, Nat.le_refl _, hlead⟩, Nat.zero_lt_of_lt hnext⟩

section Steps

variable (hsteady : walk.Steady) (hahead : walk.ahead = entry :: rest)
include hsteady hahead

/-- What a step leaves behind has bytes, and stays. -/
theorem staysFilled_of_visit {answers : Nat → Answer}
    (hmakes : Makes walk entry rest (walk.visit answers entry rest) stays later back) :
    ∀ other ∈ stays, other.StaysFilled := by
  have hentry := hsteady.coherent_at hahead
  have hclosing (how : Release) :
      ∀ other ∈ (closing how walk.pending).1, other.StaysFilled := fun other hother =>
    staysFilled_of_closing (fun old hold => ⟨hsteady.coherent_open hahead old hold,
      next_lt_of_unfinished hsteady.unfinished old hold⟩) hother
  by_cases hpast : entry.startsPacket = true ∧ entry.size ≤ entry.firstStart
  · -- Such an entry is dropped, whatever its cursor and its lead are.
    have hkept := hmakes.kept_eq
    unfold visit at hkept
    rw [hpast.1, decide_eq_true hpast.2, Bool.and_self, if_pos rfl, rejectEntry, closePending_eq,
      List.append_left_inj] at hkept
    rw [← hkept]
    exact hclosing .drop
  · have hvisits := hmakes.visits
    generalize walk.pending = pending at hvisits hclosing
    generalize (walk.visit answers entry rest).reports = reports at hvisits
    cases hvisits with
    | reject => exact hclosing .drop
    | letGo => exact List.forall_mem_nil _
    | owe hparsed hlead =>
      have hstarts := hentry.startsPacket_of_lead hlead
      have hinside : entry.firstStart < entry.size :=
        Nat.lt_of_not_le fun hle => hpast ⟨hstarts, hle⟩
      exact List.forall_mem_singleton.2
        ⟨Or.inr ⟨hstarts, hinside, hparsed, hlead⟩, Nat.zero_lt_of_lt hinside⟩
    | await hstarts hunparsed =>
      exact List.forall_mem_singleton.2 ⟨Or.inl hstarts, Nat.zero_lt_of_lt hunparsed⟩
    | parse => exact List.forall_mem_nil _
    | «begin» => exact List.forall_mem_nil _
    | finish => exact hclosing .recycle
    | abandon => exact hclosing .drop
    | complete => exact hclosing .recycle
    | overrun => exact hclosing .recycle
    | «continue» => exact List.forall_mem_nil _

end Steps

end Walk

namespace Tour

variable {tour : Tour} (hrun : ∀ entry ∈ tour.run, entry.IsSteady)
include hrun

/-- A walk stops as it would stop between two steps, and what it has passed has bytes, and stays. -/
theorem staysFilled_kept :
    tour.outcome.walk.Steady ∧ ∀ other ∈ tour.outcome.walk.kept, other.StaysFilled := by
  obtain ⟨-, hended⟩ := Tour.steps_keep hrun
    (fun _ walk => walk.Steady ∧ ∀ other ∈ walk.kept, other.StaysFilled) []
    ⟨Tour.steady_first hrun, List.forall_mem_nil _⟩ <| by
      intro step hstep _ hsteady hbefore entry rest stays later back hahead hmakes
      refine ⟨hsteady.makes hahead hmakes, ?_⟩
      rw [hmakes.kept_eq]
      obtain ⟨entry', rest', hahead', hvisit⟩ := tour.first.exists_visit_of_mem_trail _ step hstep
      obtain ⟨rfl, rfl⟩ := List.cons.inj (hahead.symm.trans hahead')
      rw [← hvisit] at hmakes
      exact List.forall_mem_append.2
        ⟨Walk.staysFilled_of_visit hsteady hahead hmakes, hbefore.2⟩
  exact hended

/-- A walk to the end of a run leaves entries with bytes that stay, then at most one packet that
stayed open. -/
theorem leftover (hconsecutive : Consecutive tour.run) (hfault : tour.outcome.fault = none) :
    Leftover Waiting.StaysFilled tour.outcome.walk.remaining := by
  obtain ⟨hsteady, hkept⟩ := Tour.staysFilled_kept hrun
  obtain ⟨-, hopen⟩ := Tour.steps_keep hrun
    (fun _ walk => Consecutive (Walk.openEntries walk.pending ++ walk.ahead)) [] hconsecutive <| by
      intro _ _ _ _ hopen entry rest stays later back hahead hmakes
      have hlabels := (Walk.labels_suffix hahead hmakes).map fun label => label.1.sequence
      rw [List.map_map, List.map_map] at hlabels
      exact List.IsChain.suffix hopen hlabels
  have hended := tour.first.finish_ahead tour.answers hfault
  rw [Tour.outcome] at hsteady hkept hopen ⊢
  generalize (tour.first.finish tour.answers).walk = walk at hsteady hkept hopen hended ⊢
  rw [hended, List.append_nil] at hopen
  rw [Walk.remaining_eq, hended, List.append_nil]
  apply Leftover.append fun other hother => hkept other (List.mem_reverse.1 hother)
  cases hpending : walk.pending with
  | none => exact .nil
  | some packet =>
    have hpacket := hsteady.unfinished packet hpending
    obtain ⟨oldest, others, hentries, hstarts, hunparsed, hothers⟩ := hpacket.opened
    rw [hpending] at hopen
    rw [Walk.openEntries, hentries] at hopen ⊢
    apply Leftover.opening hstarts hunparsed (fun other hother => (hothers other hother).1) hopen
    have hbytes := hpacket.proper.completeSize?_eq_none_iff.1 hpacket.incomplete
    rw [hpacket.cells_eq, hentries, List.flatMap_map, List.map_flatMap] at hbytes
    exact hbytes

end Tour

/-! ## Walking it again -/

namespace Walk

/-- The entries ahead have been left by a walk, the open packet with them if there is one. -/
def Barren (stays : Waiting → Prop) (walk : Walk) : Prop :=
  match walk.pending with
  | none => Leftover stays walk.ahead
  | some packet =>
    (∀ other ∈ walk.ahead, other.startsPacket = false) ∧
      MacFrame.next? ((packet.entries.reverse ++ walk.ahead).flatMap Waiting.unparsed) = none

/-- A step that moves past the entry at hand and delivers nothing.  If no empty entries stay, it
changes nothing either. -/
structure Passes (stays : Waiting → Prop) (walk : Walk) (outcome : WalkOutcome) : Prop where
  barren : outcome.walk.Barren stays
  ahead_eq : outcome.walk.ahead = walk.ahead.tail
  delivers : deliveredTables outcome.reports = []
  stands : (∀ other, stays other → 0 < other.size) →
    outcome.reports = [] ∧ outcome.walk.remaining = walk.remaining

/-- Bytes that hold no packet do not complete one. -/
theorem not_complete {content : Gathering} {block : Nat} {entries : List Waiting}
    (hproper : content.Proper) (hcomplete : content.completeSize? = some block)
    (hpart : content.cells.map Cell.byte <+: entries.flatMap Waiting.unparsed) :
    MacFrame.next? (entries.flatMap Waiting.unparsed) ≠ none := by
  intro hnone
  have hopen := hproper.completeSize?_eq_none_iff.2 (MacFrame.next?_of_prefix hpart hnone)
  rw [hcomplete] at hopen
  cases hopen

section Steps

variable {walk : Walk} {entry : Waiting} {rest back : List Waiting} {outcome : WalkOutcome}
  {stays : Waiting → Prop} {kept : List Waiting} {later : Option OpenPacket}
  (hsteady : walk.Steady) (hahead : walk.ahead = entry :: rest)
  (hmakes : Makes walk entry rest outcome kept later back)
include hsteady hahead hmakes

/-- Passing an entry that stays. -/
theorem passes_of_stays (hpending : walk.pending = none) (hfresh : entry.Fresh)
    (hstays : stays entry) (hentry : entry.Stays) (hrest : Leftover stays rest) :
    Passes stays walk outcome := by
  have hcoherent := hsteady.coherent_at hahead
  have hvisits := hmakes.visits
  have hkept := hmakes.kept_eq
  have hbarren : back = [] → later = none →
      outcome.walk.Barren stays ∧ outcome.walk.ahead = walk.ahead.tail := by
    rintro rfl rfl
    rw [Barren, hmakes.pending_eq, hmakes.ahead_eq, hahead]
    exact ⟨hrest, rfl⟩
  have hsame : back = [] → later = none → kept = [entry] →
      outcome.walk.remaining = walk.remaining := by
    rintro rfl rfl rfl
    simp [remaining_eq, hkept, hmakes.pending_eq, hmakes.ahead_eq, hpending, hahead, openEntries]
  have hnot (hstarts : entry.startsPacket = true) (hunparsed : entry.next < entry.size) :
      False := by
    rcases hentry with hnone | ⟨-, -, hparsed, -⟩
    · rw [hstarts] at hnone
      cases hnone
    · omega
  rw [hpending] at hvisits
  generalize hreports : outcome.reports = reports at hvisits
  cases hvisits with
  | letGo hparsed hlead =>
    obtain ⟨hleft, htail⟩ := hbarren rfl rfl
    refine ⟨hleft, htail, by rw [hreports]; rfl, fun hfilled => ?_⟩
    exfalso
    have hsize := hfilled entry hstays
    rcases hentry with hnone | ⟨-, -, -, howes⟩
    · rw [hfresh hnone] at hparsed
      omega
    · omega
  | owe =>
    obtain ⟨hleft, htail⟩ := hbarren rfl rfl
    exact ⟨hleft, htail, by rw [hreports]; rfl, fun _ => ⟨hreports, hsame rfl rfl rfl⟩⟩
  | await =>
    obtain ⟨hleft, htail⟩ := hbarren rfl rfl
    exact ⟨hleft, htail, by rw [hreports]; rfl, fun _ => ⟨hreports, hsame rfl rfl rfl⟩⟩
  | reject hstarts hpast =>
    exfalso
    rcases hentry with hnone | ⟨-, hinside, -, -⟩
    · rw [hstarts] at hnone
      cases hnone
    · omega
  | parse answer hstarts hunparsed => exact (hnot hstarts hunparsed).elim
  | «begin» hstarts hunparsed => exact (hnot hstarts hunparsed).elim

/-- Opening the packet that stayed open. -/
theorem passes_of_opening (hpending : walk.pending = none) (hstarts : entry.startsPacket = true)
    (hunparsed : entry.next < entry.size)
    (hothers : ∀ other ∈ rest, other.startsPacket = false)
    (hopen : MacFrame.next? ((entry :: rest).flatMap Waiting.unparsed) = none) :
    Passes stays walk outcome := by
  have hinside := (hsteady.coherent_at hahead).start_le hstarts
  have hvisits := hmakes.visits
  have hkept := hmakes.kept_eq
  rw [hpending] at hvisits
  generalize hreports : outcome.reports = reports at hvisits
  cases hvisits with
  | letGo => omega
  | owe => omega
  | await hnone =>
    rw [hstarts] at hnone
    cases hnone
  | reject hstarts hpast => omega
  | parse answer hstarts hunparsed hproper hcells hcomplete =>
    refine absurd hopen (not_complete hproper hcomplete ?_)
    rw [hcells, ← Waiting.cells_rest, List.flatMap_cons]
    exact List.prefix_append _ _
  | «begin» =>
    refine ⟨?_, ?_, by rw [hreports]; rfl, fun _ => ⟨hreports, ?_⟩⟩
    · rw [Barren, hmakes.pending_eq, hmakes.ahead_eq]
      exact ⟨hothers, hopen⟩
    · rw [hmakes.ahead_eq, hahead]
      rfl
    · simp [remaining_eq, hkept, hmakes.pending_eq, hmakes.ahead_eq, hpending, hahead, openEntries]

/-- Going on with it. -/
theorem passes_of_open {packet : OpenPacket} (hpending : walk.pending = some packet)
    (hothers : ∀ other ∈ entry :: rest, other.startsPacket = false)
    (hopen : MacFrame.next?
      ((packet.entries.reverse ++ entry :: rest).flatMap Waiting.unparsed) = none) :
    Passes stays walk outcome := by
  have hnone := hothers entry List.mem_cons_self
  have hpacket := hsteady.unfinished packet hpending
  have hvisits := hmakes.visits
  have hkept := hmakes.kept_eq
  have hpart {content : Gathering}
      (hcells : content.cells = packet.content.cells ++ entry.segment.cells.drop entry.next) :
      content.cells.map Cell.byte <+:
        (packet.entries.reverse ++ entry :: rest).flatMap Waiting.unparsed := by
    rw [hcells, ← Waiting.cells_rest, hpacket.cells_eq, List.flatMap_append, List.flatMap_cons,
      ← List.append_assoc, List.map_append, List.flatMap_map, List.map_flatMap]
    exact List.prefix_append _ _
  rw [hpending] at hvisits
  generalize hreports : outcome.reports = reports at hvisits
  cases hvisits with
  | reject hstarts =>
    rw [hstarts] at hnone
    cases hnone
  | finish answer hstarts =>
    rw [hstarts] at hnone
    cases hnone
  | abandon hstarts =>
    rw [hstarts] at hnone
    cases hnone
  | complete answer _ hproper hcells hcomplete =>
    exact absurd hopen (not_complete hproper hcomplete (hpart hcells))
  | overrun answer _ hproper hcells hcomplete =>
    exact absurd hopen (not_complete hproper hcomplete (hpart hcells))
  | «continue» =>
    refine ⟨?_, ?_, by rw [hreports]; rfl, fun _ => ⟨hreports, ?_⟩⟩
    · rw [Barren, hmakes.pending_eq, hmakes.ahead_eq]
      refine ⟨fun other hother => hothers other (List.mem_cons_of_mem _ hother), ?_⟩
      simpa using hopen
    · rw [hmakes.ahead_eq, hahead]
      rfl
    · simp [remaining_eq, hkept, hmakes.pending_eq, hmakes.ahead_eq, hpending, hahead, openEntries]

/-- A step ahead of what a walk has left delivers nothing. -/
theorem passes (hstays : ∀ other, stays other → other.Stays) (hfresh : entry.Fresh)
    (hbarren : walk.Barren stays) : Passes stays walk outcome := by
  unfold Barren at hbarren
  cases hpending : walk.pending with
  | some packet =>
    rw [hpending, hahead] at hbarren
    exact passes_of_open hsteady hahead hmakes hpending hbarren.1 hbarren.2
  | none =>
    rw [hpending, hahead] at hbarren
    cases hbarren with
    | pass hentry hrest =>
      exact passes_of_stays hsteady hahead hmakes hpending hfresh hentry (hstays entry hentry) hrest
    | opening hstarts hunparsed hothers hconsecutive hopen =>
      exact passes_of_opening hsteady hahead hmakes hpending hstarts hunparsed hothers hopen

end Steps

/-- A step counts the packet that it delivers. -/
theorem delivered_visit (walk : Walk) (answers : Nat → Answer) (entry : Waiting)
    (rest : List Waiting) :
    (walk.visit answers entry rest).walk.delivered =
      walk.delivered + (deliveredTables (walk.visit answers entry rest).reports).length := by
  unfold visit
  split
  · simp [rejectEntry, closePending_eq]
  · cases walk.pending with
    | none =>
      simp only
      unfold openAt
      split
      · split <;> rfl
      · split
        · rfl
        · cases Gathering.empty.gatherRange (toFirstStart entry).segment.payload
            (toFirstStart entry).next (toFirstStart entry).size with
          | error fault => rfl
          | ok content =>
            simp only
            split <;> rfl
    | some packet =>
      simp only
      split
      · unfold endAt
        cases packet.content.gatherRange (toFirstStart entry).segment.payload 0
            (toFirstStart entry).lead with
        | error fault => rfl
        | ok content =>
          simp only
          split <;> simp [closePending_eq, deliver]
      · unfold continueAt
        cases packet.content.gatherRange (toFirstStart entry).segment.payload
            (toFirstStart entry).next (toFirstStart entry).size with
        | error fault => rfl
        | ok content =>
          simp only
          split
          · split <;> simp [closePending_eq, deliver]
          · rfl

/-- A walk counts the packets that it delivers. -/
theorem delivered_finish (walk : Walk) (answers : Nat → Answer) :
    (walk.finish answers).walk.delivered =
      walk.delivered + (deliveredTables (walk.finish answers).reports).length := by
  induction walk using finish.induct answers with
  | case1 walk hend =>
    rw [finish_of_end hend]
    rfl
  | case2 walk outcome hmade fault hfault =>
    obtain ⟨entry, rest, -, rfl⟩ := exists_visit hmade
    rw [finish_of_fault hmade hfault]
    exact walk.delivered_visit answers entry rest
  | case3 walk outcome hmade hnone ih =>
    obtain ⟨entry, rest, -, rfl⟩ := exists_visit hmade
    rw [finish_of_step hmade hnone, deliveredTables_append, List.length_append, ← Nat.add_assoc,
      ← walk.delivered_visit answers entry rest]
    exact ih

end Walk

/-- A walk of what a walk has left delivers nothing.  If no empty entries stay, it reports nothing
and leaves all entries as they are. -/
theorem Tour.outcome_of_leftover {tour : Tour} (hrun : ∀ entry ∈ tour.run, entry.IsSteady)
    {stays : Waiting → Prop} (hstays : ∀ other, stays other → other.Stays)
    (hleft : Leftover stays tour.run) :
    deliveredTables tour.outcome.reports = [] ∧
      ((∀ other, stays other → 0 < other.size) →
        tour.outcome.reports = [] ∧ tour.outcome.walk.remaining = tour.run) := by
  have hsteps := Tour.steps_keep hrun
    (fun earlier walk => (∀ other ∈ walk.ahead, other.Fresh) ∧ walk.Barren stays ∧
      deliveredTables earlier = [] ∧ ((∀ other, stays other → 0 < other.size) →
        earlier = [] ∧ walk.remaining = tour.run)) []
    ⟨fun other hother => (hrun other hother).2, hleft, rfl, fun _ => ⟨rfl, rfl⟩⟩ <| by
      intro step _ earlier hsteady hbefore entry rest stays' later back hahead hmakes
      obtain ⟨hfresh, hbarren, hnone, hstands⟩ := hbefore
      have hentry := hfresh entry (by rw [hahead]; exact List.mem_cons_self)
      have hpasses := Walk.passes hsteady hahead hmakes hstays hentry hbarren
      refine ⟨?_, hpasses.barren, ?_, fun hfilled => ?_⟩
      · rw [hpasses.ahead_eq]
        exact fun other hother => hfresh other (List.mem_of_mem_tail hother)
      · rw [deliveredTables_append, hnone, hpasses.delivers]
        rfl
      · obtain ⟨hsilent, hsame⟩ := hstands hfilled
        obtain ⟨hsilent', hsame'⟩ := hpasses.stands hfilled
        exact ⟨by rw [hsilent, hsilent']; rfl, hsame'.trans hsame⟩
  exact ⟨hsteps.2.2.2.1, hsteps.2.2.2.2⟩

end Ccf
