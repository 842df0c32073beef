import Ccf.Proofs.Reassembly.Visits
import Mathlib.Data.List.Nodup
import Mathlib.Data.List.Perm.Subperm

/-!
# What a walk lets go

A segment is known by its label, which is the segment together with its place in the order of
arrival.  Of the labels that a step finds, each stays, or the step reports its segment as recycled
or as dropped; nothing is reported twice and nothing is left out.  The same then holds of a walk,
wherever it ends.
-/

namespace Ccf

def Waiting.label (entry : Waiting) : Segment × Nat := (entry.segment, entry.arrival)

/-- Of the labels `before`, some stay, and the reports let the segments of all others go. -/
def Disposes (before : List (Segment × Nat)) (reports : List ReassemblerReport)
    (after : List (Segment × Nat)) : Prop :=
  ∃ recycled dropped : List (Segment × Nat),
    recycledSegments reports = recycled.map Prod.fst ∧
    droppedSegments reports = dropped.map Prod.fst ∧
    (after ++ (recycled ++ dropped)).Perm before

namespace Disposes

variable {before middle after : List (Segment × Nat)} {reports later : List ReassemblerReport}

/-- Reports that let nothing go leave everything. -/
theorem silent (labels : List (Segment × Nat)) (hrecycled : recycledSegments reports = [])
    (hdropped : droppedSegments reports = []) : Disposes labels reports labels :=
  ⟨[], [], hrecycled, hdropped, List.Perm.of_eq (by simp)⟩

theorem refl (labels : List (Segment × Nat)) : Disposes labels [] labels :=
  silent labels rfl rfl

theorem trans (hfirst : Disposes before reports middle) (hsecond : Disposes middle later after) :
    Disposes before (reports ++ later) after := by
  obtain ⟨recycled, dropped, hrecycled, hdropped, hperm⟩ := hfirst
  obtain ⟨recycled', dropped', hrecycled', hdropped', hperm'⟩ := hsecond
  refine ⟨recycled ++ recycled', dropped ++ dropped', ?_, ?_, ?_⟩
  · rw [recycledSegments_append, hrecycled, hrecycled', List.map_append]
  · rw [droppedSegments_append, hdropped, hdropped', List.map_append]
  · refine List.Perm.trans ?_ ((hperm'.append_right (recycled ++ dropped)).trans hperm)
    rw [List.perm_iff_count]
    intro label
    simp only [List.count_append]
    omega

/-- What is disposed of side by side. -/
theorem append {before' after' : List (Segment × Nat)} (hleft : Disposes before reports after)
    (hright : Disposes before' later after') :
    Disposes (before ++ before') (reports ++ later) (after ++ after') := by
  obtain ⟨recycled, dropped, hrecycled, hdropped, hperm⟩ := hleft
  obtain ⟨recycled', dropped', hrecycled', hdropped', hperm'⟩ := hright
  refine ⟨recycled ++ recycled', dropped ++ dropped', ?_, ?_, ?_⟩
  · rw [recycledSegments_append, hrecycled, hrecycled', List.map_append]
  · rw [droppedSegments_append, hdropped, hdropped', List.map_append]
  · refine List.Perm.trans ?_ (hperm.append hperm')
    rw [List.perm_iff_count]
    intro label
    simp only [List.count_append]
    omega

/-- What is set aside stays. -/
theorem frame (aside : List (Segment × Nat)) (hdisposes : Disposes before reports after) :
    Disposes (aside ++ before) reports (aside ++ after) :=
  (refl aside).append hdisposes

theorem frame_right (aside : List (Segment × Nat)) (hdisposes : Disposes before reports after) :
    Disposes (before ++ aside) reports (after ++ aside) := by
  have hboth := hdisposes.append (refl aside)
  rwa [List.append_nil] at hboth

theorem congr {before' after' : List (Segment × Nat)} (hdisposes : Disposes before reports after)
    (hbefore : before.Perm before') (hafter : after.Perm after') :
    Disposes before' reports after' := by
  obtain ⟨recycled, dropped, hrecycled, hdropped, hperm⟩ := hdisposes
  exact ⟨recycled, dropped, hrecycled, hdropped,
    (hafter.symm.append_right _).trans (hperm.trans hbefore)⟩

/-- Letting entries go in one way. -/
theorem release (how : Release) (entries : List Waiting) :
    Disposes (entries.map Waiting.label) (entries.map fun entry => how.report entry.segment)
      [] := by
  cases how with
  | recycle =>
    exact ⟨entries.map Waiting.label, [],
      by simp [recycledSegments, Release.report, List.filterMap_map, Function.comp_def,
        Waiting.label],
      by simp [droppedSegments, Release.report, List.filterMap_map], List.Perm.of_eq (by simp)⟩
  | drop =>
    exact ⟨[], entries.map Waiting.label,
      by simp [recycledSegments, Release.report, List.filterMap_map],
      by simp [droppedSegments, Release.report, List.filterMap_map, Function.comp_def,
        Waiting.label], List.Perm.of_eq (by simp)⟩

theorem subset (hdisposes : Disposes before reports after) : after ⊆ before := by
  obtain ⟨recycled, dropped, -, -, hperm⟩ := hdisposes
  exact fun label hlabel => hperm.subset (List.mem_append_left _ hlabel)

/-- What stays has arrived in places of what there was. -/
theorem arrivals_subperm (hdisposes : Disposes before reports after) :
    (after.map Prod.snd).Subperm (before.map Prod.snd) := by
  obtain ⟨recycled, dropped, -, -, hperm⟩ := hdisposes
  exact ((List.sublist_append_left _ _).map Prod.snd).subperm.trans (hperm.map Prod.snd).subperm

end Disposes

namespace Walk

def openEntries : Option OpenPacket → List Waiting
  | none => []
  | some packet => packet.entries.reverse

def held (walk : Walk) : List Waiting := walk.kept ++ openEntries walk.pending ++ walk.ahead

theorem remaining_perm (walk : Walk) : walk.remaining.Perm walk.held := by
  rw [remaining, List.reverseAux_eq, held, List.append_assoc]
  apply (List.reverse_perm _).append
  cases hpending : walk.pending with
  | none => exact List.Perm.refl _
  | some packet => exact List.Perm.of_eq List.reverseAux_eq

theorem remaining_eq (walk : Walk) :
    walk.remaining = walk.kept.reverse ++ (openEntries walk.pending ++ walk.ahead) := by
  rw [remaining, List.reverseAux_eq]
  cases walk.pending with
  | none => rfl
  | some packet => exact congrArg _ List.reverseAux_eq

/-- Closing a packet leaves its oldest entry, parsed to its end, if that owes lead bytes. -/
theorem closing_eq (how : Release) (packet : OpenPacket) {oldest : Waiting}
    {others : List Waiting} (hentries : packet.entries.reverse = oldest :: others) :
    (closing how (some packet)).1 =
      if 0 < oldest.lead then [{ oldest with next := oldest.size }] else [] := by
  rw [closing, hentries, retire]
  split <;> rfl

/-- Closing a packet hands nothing out. -/
@[simp]
theorem deliveredTables_closing (how : Release) (pending : Option OpenPacket) :
    deliveredTables (closing how pending).2 = [] := by
  cases pending with
  | none => rfl
  | some packet =>
    rw [closing]
    cases packet.entries.reverse with
    | nil => rfl
    | cons oldest others =>
      rw [retire]
      split
      · exact deliveredTables_release how others
      · exact deliveredTables_release how (oldest :: others)

theorem disposes_closing (how : Release) (pending : Option OpenPacket) :
    Disposes ((openEntries pending).map Waiting.label) (closing how pending).2
      ((closing how pending).1.map Waiting.label) := by
  cases pending with
  | none => exact .refl []
  | some packet =>
    rw [openEntries, closing]
    cases packet.entries.reverse with
    | nil => exact .refl []
    | cons oldest others =>
      rw [retire]
      split
      · exact (Disposes.release how others).frame [oldest.label]
      · exact .release how (oldest :: others)

/-! ## Visits -/

section Visits

variable {entry : Waiting} {pending later : Option OpenPacket} {stays back : List Waiting}
  {reports : List ReassemblerReport}

/-- A visit leaves each segment in the walk or lets it go. -/
theorem disposes_of_visits (hvisits : Visits entry pending stays later back reports) :
    Disposes ((openEntries pending ++ [entry]).map Waiting.label) reports
      ((stays ++ openEntries later ++ back).map Waiting.label) := by
  have hclosed (how : Release) (front : List ReassemblerReport) (other : Waiting)
      (hother : other.label = entry.label) (hrecycled : recycledSegments front = [])
      (hdropped : droppedSegments front = []) :
      Disposes ((openEntries pending ++ [entry]).map Waiting.label)
        (front ++ (closing how pending).2)
        (((closing how pending).1 ++ openEntries none ++ [other]).map Waiting.label) := by
    have hboth := (Disposes.silent _ hrecycled hdropped).trans
      ((disposes_closing how pending).append (.refl [entry.label]))
    simpa [openEntries, hother] using hboth
  have hgiven (how : Release) (front : List ReassemblerReport)
      (hrecycled : recycledSegments front = []) (hdropped : droppedSegments front = []) :
      Disposes ((openEntries pending ++ [entry]).map Waiting.label)
        (front ++ ((closing how pending).2 ++ [.dropped entry.segment]))
        (((closing how pending).1 ++ openEntries none ++ []).map Waiting.label) := by
    have hboth := (Disposes.silent _ hrecycled hdropped).trans
      ((disposes_closing how pending).append (.release .drop [entry]))
    simpa [openEntries, Release.report] using hboth
  cases hvisits with
  | reject => exact hgiven .drop [] rfl rfl
  | letGo => exact .release .recycle [entry]
  | owe => exact .refl _
  | await => exact .refl _
  | parse answer => exact .silent _ rfl rfl
  | «begin» => exact .refl _
  | finish answer => exact hclosed .recycle [.delivered _ answer] _ rfl rfl rfl
  | abandon => exact hclosed .drop [] _ rfl rfl rfl
  | complete answer => exact hclosed .recycle [.delivered _ answer] _ rfl rfl rfl
  | overrun answer =>
    rw [List.cons_append]
    exact hgiven .recycle [.delivered _ answer] rfl rfl
  | «continue» =>
    rw [openEntries, openEntries, List.reverse_cons, List.nil_append, List.append_nil]
    exact .refl _

/-- A visit leaves an end of the stretch of labels that it looks at. -/
theorem labels_suffix_of_visits (hvisits : Visits entry pending stays later back reports) :
    ((openEntries later ++ back).map Waiting.label) <:+
      ((openEntries pending ++ [entry]).map Waiting.label) := by
  have hput (other : Waiting) (hother : other.label = entry.label) :
      ((openEntries none ++ [other]).map Waiting.label) <:+
        ((openEntries pending ++ [entry]).map Waiting.label) := by
    rw [openEntries, List.nil_append, List.map_append, List.map_singleton, List.map_singleton,
      hother]
    exact List.suffix_append _ _
  cases hvisits with
  | reject => exact List.nil_suffix
  | letGo => exact List.nil_suffix
  | owe => exact List.nil_suffix
  | await => exact List.nil_suffix
  | parse => exact hput _ rfl
  | «begin» => exact List.suffix_refl _
  | finish => exact hput _ rfl
  | abandon => exact hput _ rfl
  | complete => exact hput _ rfl
  | overrun => exact List.nil_suffix
  | «continue» => exact ⟨[], by simp [openEntries]⟩

/-- A visit leaves labels in the order in which it finds them. -/
theorem labels_sublist_of_visits
    (hvisits : Visits entry pending stays later back reports) :
    ((stays.reverse ++ (openEntries later ++ back)).map Waiting.label).Sublist
      ((openEntries pending ++ [entry]).map Waiting.label) := by
  have hclosing (how : Release) (left : List Waiting)
      (hleft : (left.map Waiting.label).Sublist [entry.label]) :
      (((closing how pending).1.reverse ++ (openEntries none ++ left)).map Waiting.label).Sublist
        ((openEntries pending ++ [entry]).map Waiting.label) := by
    rw [openEntries, List.nil_append, List.map_append, List.map_append]
    refine List.Sublist.append ?_ hleft
    cases pending with
    | none => exact List.nil_sublist _
    | some packet =>
      cases hentries : packet.entries.reverse with
      | nil =>
        rw [closing, hentries, retire]
        exact List.nil_sublist _
      | cons oldest others =>
        rw [closing_eq how packet hentries, openEntries, hentries]
        split
        · exact (List.nil_sublist _).cons_cons oldest.label
        · exact List.nil_sublist _
  cases hvisits with
  | reject => exact hclosing .drop [] (List.nil_sublist _)
  | letGo => exact List.nil_sublist _
  | owe => exact List.Sublist.refl _
  | await => exact List.Sublist.refl _
  | parse => exact List.Sublist.refl _
  | «begin» => exact List.Sublist.refl _
  | finish => exact hclosing .recycle _ (List.Sublist.refl _)
  | abandon => exact hclosing .drop _ (List.Sublist.refl _)
  | complete => exact hclosing .recycle _ (List.Sublist.refl _)
  | overrun => exact hclosing .recycle [] (List.nil_sublist _)
  | «continue» => simp [openEntries]

end Visits

section Makes

variable {walk : Walk} {entry : Waiting} {rest stays back : List Waiting} {outcome : WalkOutcome}
  {later : Option OpenPacket}

/-- What a walk holds, with what a visit looks at in the end. -/
theorem held_perm (hahead : walk.ahead = entry :: rest) :
    walk.held.Perm ((walk.kept ++ rest) ++ (openEntries walk.pending ++ [entry])) := by
  rw [held, hahead, List.perm_iff_count]
  intro other
  simp only [List.count_append, List.count_cons, List.count_nil]
  omega

theorem mem_held (hahead : walk.ahead = entry :: rest) :
    ∀ other ∈ openEntries walk.pending ++ [entry], other ∈ walk.held :=
  fun _ hother => (held_perm hahead).mem_iff.2 (List.mem_append_right _ hother)

theorem entry_mem_held (hahead : walk.ahead = entry :: rest) : entry ∈ walk.held :=
  mem_held hahead entry (List.mem_append_right _ (List.mem_singleton_self entry))

/-- The entry at hand has not arrived with one of the open packet. -/
theorem arrival_ne_of_nodup (hahead : walk.ahead = entry :: rest)
    (hnodup : (walk.held.map Waiting.arrival).Nodup) :
    ∀ other ∈ openEntries walk.pending, other.arrival ≠ entry.arrival := by
  have hpairs := ((held_perm hahead).map Waiting.arrival).nodup_iff.1 hnodup
  rw [List.map_append, List.map_append, List.map_append] at hpairs
  intro other hother heq
  exact (List.nodup_append'.1 (List.nodup_append'.1 hpairs).2.1).2.2
    (List.mem_map_of_mem hother) (by simp [heq])

/-- What a walk holds after a visit, with what the visit leaves in the end. -/
theorem held_perm_of_makes (hmakes : Makes walk entry rest outcome stays later back) :
    outcome.walk.held.Perm ((walk.kept ++ rest) ++ (stays ++ openEntries later ++ back)) := by
  rw [held, hmakes.kept_eq, hmakes.pending_eq, hmakes.ahead_eq, List.perm_iff_count]
  intro other
  simp only [List.count_append]
  omega

theorem disposes_of_makes (hahead : walk.ahead = entry :: rest)
    (hmakes : Makes walk entry rest outcome stays later back) :
    Disposes (walk.held.map Waiting.label) outcome.reports
      (outcome.walk.held.map Waiting.label) := by
  have hboth := (disposes_of_visits hmakes.visits).frame ((walk.kept ++ rest).map Waiting.label)
  rw [← List.map_append, ← List.map_append] at hboth
  exact hboth.congr ((held_perm hahead).map Waiting.label).symm
    ((held_perm_of_makes hmakes).map Waiting.label).symm

/-- A visit brings no new segments. -/
theorem arrivals_subperm (hahead : walk.ahead = entry :: rest)
    (hmakes : Makes walk entry rest outcome stays later back) :
    (outcome.walk.held.map Waiting.arrival).Subperm (walk.held.map Waiting.arrival) := by
  have hlabels := (disposes_of_makes hahead hmakes).arrivals_subperm
  simpa only [List.map_map, Function.comp_def, Waiting.label] using hlabels

/-- A visit leaves the order of the labels. -/
theorem labels_sublist_of_makes (hahead : walk.ahead = entry :: rest)
    (hmakes : Makes walk entry rest outcome stays later back) :
    (outcome.walk.remaining.map Waiting.label).Sublist (walk.remaining.map Waiting.label) := by
  have hframe := ((List.Sublist.refl (walk.kept.reverse.map Waiting.label)).append
    (labels_sublist_of_visits hmakes.visits)).append
      (List.Sublist.refl (rest.map Waiting.label))
  rw [remaining_eq, remaining_eq, hmakes.kept_eq, hmakes.pending_eq, hmakes.ahead_eq, hahead]
  simpa using hframe

/-- A visit leaves an end of the run ahead of the walk. -/
theorem labels_suffix (hahead : walk.ahead = entry :: rest)
    (hmakes : Makes walk entry rest outcome stays later back) :
    ((openEntries outcome.walk.pending ++ outcome.walk.ahead).map Waiting.label) <:+
      ((openEntries walk.pending ++ walk.ahead).map Waiting.label) := by
  obtain ⟨front, hfront⟩ := labels_suffix_of_visits hmakes.visits
  refine ⟨front, ?_⟩
  rw [hmakes.pending_eq, hmakes.ahead_eq, hahead, ← List.append_assoc, List.map_append,
    ← List.append_assoc, hfront]
  simp

theorem arrivals_suffix (hahead : walk.ahead = entry :: rest)
    (hmakes : Makes walk entry rest outcome stays later back) :
    ((openEntries outcome.walk.pending ++ outcome.walk.ahead).map Waiting.arrival) <:+
      ((openEntries walk.pending ++ walk.ahead).map Waiting.arrival) := by
  have hlabels := (labels_suffix hahead hmakes).map Prod.snd
  simpa only [List.map_map, Function.comp_def, Waiting.label] using hlabels

end Makes

/-! ## Whole walks -/

theorem label_toFirstStart (entry : Waiting) : (toFirstStart entry).label = entry.label := by
  rw [Waiting.label, segment_toFirstStart, arrival_toFirstStart, Waiting.label]

/-- A visit opens no packet whose pieces do not lie within their packets. -/
theorem proper_of_visits {entry : Waiting} {pending later : Option OpenPacket}
    {stays back : List Waiting} {reports : List ReassemblerReport}
    (hvisits : Visits entry pending stays later back reports) :
    ∀ packet, later = some packet → packet.content.Proper := by
  intro packet hpacket
  subst hpacket
  cases hvisits with
  | «begin» hstarts hunparsed hproper => exact hproper
  | «continue» hstarts hproper => exact hproper

/-- A visit moves the cursor to the packet start first.  Then it stops there, or it leaves what one
of the visits leaves. -/
theorem visit_moved {walk : Walk} (answers : Nat → Answer) (entry : Waiting)
    (rest : List Waiting)
    (hproper : ∀ packet, walk.pending = some packet → packet.content.Proper) :
    let moved : Walk := { walk with ahead := toFirstStart entry :: rest }
    (walk.visit answers entry rest).walk = moved ∧
        (walk.visit answers entry rest).reports = [] ∨
      ∃ stays later back, Makes moved (toFirstStart entry) rest (walk.visit answers entry rest)
        stays later back := by
  intro moved
  rcases visit_cases answers entry rest hproper with ⟨fault, -, hstopped⟩ |
    ⟨stays, later, back, hmakes⟩
  · rw [hstopped]
    exact Or.inl ⟨rfl, rfl⟩
  · exact Or.inr ⟨stays, later, back, hmakes.visits, hmakes.fault_eq, hmakes.kept_eq,
      hmakes.pending_eq, hmakes.ahead_eq⟩

/-- A step leaves each segment in the walk or lets it go, also when it is refused bytes, and leaves
the order of the labels. -/
theorem disposes_visit {walk : Walk} (answers : Nat → Answer) {entry : Waiting}
    {rest : List Waiting} (hahead : walk.ahead = entry :: rest)
    (hproper : ∀ packet, walk.pending = some packet → packet.content.Proper) :
    (∀ packet, (walk.visit answers entry rest).walk.pending = some packet →
        packet.content.Proper) ∧
      Disposes (walk.held.map Waiting.label) (walk.visit answers entry rest).reports
        ((walk.visit answers entry rest).walk.held.map Waiting.label) ∧
      ((walk.visit answers entry rest).walk.remaining.map Waiting.label).Sublist
        (walk.remaining.map Waiting.label) := by
  obtain ⟨moved, hmoved⟩ : ∃ moved : Walk,
      moved = { walk with ahead := toFirstStart entry :: rest } := ⟨_, rfl⟩
  have hheld : moved.held.map Waiting.label = walk.held.map Waiting.label := by
    simp [hmoved, held, hahead, label_toFirstStart]
  have hremaining : moved.remaining.map Waiting.label = walk.remaining.map Waiting.label := by
    simp [hmoved, remaining_eq, hahead, label_toFirstStart]
  have hpending : moved.pending = walk.pending := by rw [hmoved]
  have hcases := visit_moved answers entry rest hproper
  rw [← hheld, ← hremaining]
  rw [← hmoved] at hcases
  rcases hcases with ⟨hwalk, hreports⟩ | ⟨stays, later, back, hmakes⟩
  · rw [hwalk, hreports, hpending]
    exact ⟨hproper, .refl _, List.Sublist.refl _⟩
  · have hahead' : moved.ahead = toFirstStart entry :: rest := by rw [hmoved]
    rw [hmakes.pending_eq]
    exact ⟨proper_of_visits hmakes.visits, disposes_of_makes hahead' hmakes,
      labels_sublist_of_makes hahead' hmakes⟩

/-- A walk leaves each segment in the window or lets it go, wherever it ends, and leaves the order
of the labels. -/
theorem disposes_finish (walk : Walk) (answers : Nat → Answer)
    (hproper : ∀ packet, walk.pending = some packet → packet.content.Proper) :
    Disposes (walk.held.map Waiting.label) (walk.finish answers).reports
        ((walk.finish answers).walk.held.map Waiting.label) ∧
      ((walk.finish answers).walk.remaining.map Waiting.label).Sublist
        (walk.remaining.map Waiting.label) := by
  have hkeeps (reports : List ReassemblerReport) (walk' : Walk) (entry : Waiting)
      (rest : List Waiting)
      (hwalk' : (∀ packet, walk'.pending = some packet → packet.content.Proper) ∧
        Disposes (walk.held.map Waiting.label) reports (walk'.held.map Waiting.label) ∧
        (walk'.remaining.map Waiting.label).Sublist (walk.remaining.map Waiting.label))
      (hahead : walk'.ahead = entry :: rest) :
      (∀ packet, (walk'.visit answers entry rest).walk.pending = some packet →
          packet.content.Proper) ∧
        Disposes (walk.held.map Waiting.label)
          (reports ++ (walk'.visit answers entry rest).reports)
          ((walk'.visit answers entry rest).walk.held.map Waiting.label) ∧
        ((walk'.visit answers entry rest).walk.remaining.map Waiting.label).Sublist
          (walk.remaining.map Waiting.label) := by
    obtain ⟨hproper', hdisposes, hsublist⟩ := disposes_visit answers hahead hwalk'.1
    exact ⟨hproper', hwalk'.2.1.trans hdisposes, hsublist.trans hwalk'.2.2⟩
  exact finish_induction _
    (fun _ reports walk' =>
      Disposes (walk.held.map Waiting.label) reports (walk'.held.map Waiting.label) ∧
        (walk'.remaining.map Waiting.label).Sublist (walk.remaining.map Waiting.label)) answers
    (fun _ _ hwalk' _ => hwalk'.2)
    (fun _ _ _ _ hwalk' hahead _ _ => (hkeeps _ _ _ _ hwalk' hahead).2)
    (fun _ _ _ _ hwalk' hahead _ => hkeeps _ _ _ _ hwalk' hahead) walk []
    ⟨hproper, .refl _, List.Sublist.refl _⟩

end Walk

end Ccf
