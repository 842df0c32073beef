import Ccf.Proofs.Reassembly.SegmentConservation

/-!
# The order of the window

After any calls the window is ordered by number.  What is put back after a walk goes between the
entries that were left, and these stay in their order.
-/

namespace Ccf

section Merging

variable {α : Type} (le : α → α → Bool)

/-- Both lists keep their order when they are merged. -/
theorem sublist_merge (front back : List α) :
    front.Sublist (front.merge back le) ∧ back.Sublist (front.merge back le) := by
  induction front, back using List.merge.induct le with
  | case1 back => simp
  | case2 front hnonempty => simp
  | case3 first front second back hle ih =>
    rw [List.cons_merge_cons_pos le front back hle]
    exact ⟨ih.1.cons_cons first, ih.2.cons first⟩
  | case4 first front second back hgt ih =>
    rw [List.cons_merge_cons_neg le front back hgt]
    exact ⟨ih.1.cons second, ih.2.cons_cons second⟩

end Merging

namespace Gap

/-- The entries beside the run keep their order when entries are put back. -/
theorem window_sublist_fill (gap : Gap) (entries : List Waiting) :
    gap.window.Sublist (gap.fill entries) := by
  unfold fill
  split
  · rw [window_eq, List.reverseAux_eq]
    exact (List.sublist_append_right _ _).append_left _
  · exact (sublist_merge _ _ _).1

end Gap

namespace Anchor

theorem gap_sublist (anchor : Anchor) : anchor.cut.2.window.Sublist anchor.entries :=
  anchor.others_sublist.trans ((List.sublist_cons_self _ _).append_left _)

/-- What is left of a run has arrived in places of its own. -/
theorem nodup_fill {anchor : Anchor} (hnodup : (anchor.entries.map Waiting.arrival).Nodup)
    {left : List Waiting}
    (hleft : (left.map Waiting.label).Sublist (anchor.cut.1.map Waiting.label)) :
    ((anchor.cut.2.fill left).map Waiting.arrival).Nodup := by
  have hparts := (anchor.cut_perm.map Waiting.arrival).nodup_iff.2 hnodup
  have harrivals := hleft.map Prod.snd
  rw [List.map_map, List.map_map] at harrivals
  rw [List.map_append] at hparts
  apply ((Gap.fill_perm anchor.cut.2 left).map Waiting.arrival).nodup_iff.2
  rw [List.map_append]
  exact hparts.sublist (harrivals.append_left _)

end Anchor

namespace Window

theorem entries_anchorAt? {sequence : SequenceNumber} {window : List Waiting} {anchor : Anchor}
    (hanchor : anchorAt? sequence window = some anchor) : anchor.entries = window :=
  anchorAt?_eq hanchor

/-- The entry that is found has the number, and those before it have smaller ones. -/
theorem anchorAt?_spec {sequence : SequenceNumber} {window : List Waiting} {anchor : Anchor}
    (hanchor : anchorAt? sequence window = some anchor) :
    anchor.entry.sequence = sequence ∧
      ∀ other ∈ anchor.before, other.sequence.value < sequence.value := by
  rw [anchorAt?, pass_eq, List.append_nil] at hanchor
  split at hanchor
  · cases hanchor
  · rename_i before entry after hpass
    obtain ⟨rfl, -⟩ := Prod.mk.inj hpass
    split at hanchor
    · rename_i hfound
      cases hanchor
      refine ⟨hfound, fun other hother => ?_⟩
      have hless := List.all_eq_true.1 List.all_takeWhile other (List.mem_reverse.1 hother)
      exact of_decide_eq_true hless
    · cases hanchor

/-- A number that is in the window is found. -/
theorem exists_anchorAt? {window : List Waiting} (hsorted : Sorted window) {entry : Waiting}
    (hentry : entry ∈ window) : ∃ anchor, anchorAt? entry.sequence window = some anchor := by
  obtain ⟨less, hless⟩ : ∃ less : Waiting → Bool,
      less = fun other => decide (other.sequence.value < entry.sequence.value) := ⟨_, rfl⟩
  rw [anchorAt?, ← hless, pass_eq, List.append_nil]
  have hrest : entry ∈ window.dropWhile less := by
    rw [← List.takeWhile_append_dropWhile (p := less) (l := window)] at hentry
    refine (List.mem_append.1 hentry).resolve_left fun htaken => ?_
    have hself := List.all_eq_true.1 List.all_takeWhile entry htaken
    simp [hless] at hself
  have hsuffix := hsorted.sublist (List.dropWhile_suffix less).sublist
  have hfirst := List.head?_dropWhile_not less window
  cases hdrop : window.dropWhile less with
  | nil => simp [hdrop] at hrest
  | cons first after =>
    rw [hdrop] at hrest hsuffix hfirst
    have hge : entry.sequence.value ≤ first.sequence.value := by simpa [hless] using hfirst
    have hle : first.sequence.value ≤ entry.sequence.value := by
      rcases List.mem_cons.1 hrest with rfl | hlater
      · exact Nat.le_refl _
      · exact notAfter_iff.1 ((List.pairwise_cons.1 hsuffix).1 entry hlater)
    exact ⟨_, if_pos (Waiting.sequence_eq_iff.2 (Nat.le_antisymm hle hge))⟩

theorem entries_anchorFor_perm (entry : Waiting) (window : List Waiting) :
    (anchorFor entry window).entries.Perm (entry :: window) := by
  obtain ⟨hentry, hring⟩ := anchorFor_eq entry window
  rw [Anchor.entries, hentry]
  exact List.perm_middle.trans (List.Perm.of_eq (by rw [hring]))

/-- An entry goes to its place in the order. -/
theorem sorted_anchorFor {window : List Waiting} (hwindow : Sorted window) (entry : Waiting) :
    Sorted (anchorFor entry window).entries := by
  obtain ⟨hentry, hring⟩ := anchorFor_eq entry window
  obtain ⟨hle, hgt⟩ := anchorFor_spec entry hwindow
  rw [← hring] at hwindow
  obtain ⟨hbefore, hafter, hcross⟩ := List.pairwise_append.1 hwindow
  rw [Anchor.entries, hentry]
  refine List.pairwise_append.2 ⟨hbefore, List.pairwise_cons.2 ⟨fun other hother => ?_, hafter⟩,
    fun other hother => List.forall_mem_cons.2
      ⟨hle other (List.mem_reverse.1 hother), hcross other hother⟩⟩
  have htotal := notAfter_total entry other
  rwa [hgt other hother, Bool.or_false] at htotal

end Window

namespace Reassembler

variable {reassembler : Reassembler}

theorem sorted_walkRun (answers : Nat → Answer) {anchor : Anchor} (delivered : Nat)
    (hsorted : Window.Sorted anchor.entries) :
    Window.Sorted (reassembler.walkRun answers anchor delivered).state.window :=
  Gap.fill_sorted (hsorted.sublist anchor.gap_sublist) _

theorem sorted_walkHeads (answers : Nat → Answer) (heads : List SequenceNumber) (delivered : Nat)
    (hsorted : Window.Sorted reassembler.window) :
    Window.Sorted (walkHeads answers heads reassembler delivered).state.window := by
  refine walkHeads_keeps (motive := fun walked => Window.Sorted walked.window) answers
    (fun walked head anchor delivered hanchor hwalked => ?_) heads delivered hsorted
  have hentries : anchor.entries = walked.window := Window.entries_anchorAt? hanchor
  exact sorted_walkRun answers delivered (hentries ▸ hwalked)

theorem sorted_walkFor (arriving : Option Segment) (now : Instant) (answers : ReassemblerAnswers)
    (hsorted : Window.Sorted reassembler.window) :
    Window.Sorted (reassembler.walkFor arriving now answers).state.window := by
  cases arriving with
  | some segment =>
    obtain ⟨refused, front, hreport, -⟩ := reassembler.report_eq segment.header answers.request
    simp only [walkFor, receive, hreport, Outcome.after]
    exact sorted_walkRun _ _ (Window.sorted_anchorFor hsorted _)
  | none => exact sorted_walkHeads _ _ _ hsorted

/-- Every call keeps the window in order. -/
theorem sorted_perform (call : ReassemblerCall) (hsorted : Window.Sorted reassembler.window) :
    Window.Sorted (reassembler.perform call).state.window := by
  cases call with
  | process arriving now answers =>
    have hwalked := sorted_walkFor arriving now answers hsorted
    simp only [perform, answering, process_eq]
    split
    · exact hwalked
    · exact hwalked.sublist (evict_sublist _ now)
  | evict now => exact hsorted.sublist (evict_sublist _ now)
  | clear => exact List.Pairwise.nil
  | setMultiplier multiplier =>
    rw [(reassembler.perform_setMultiplier multiplier).2.1]
    exact hsorted

theorem sorted_run (calls : List ReassemblerCall) (hsorted : Window.Sorted reassembler.window) :
    Window.Sorted (reassembler.run calls).state.window := by
  induction calls generalizing reassembler with
  | nil => exact hsorted
  | cons call later ih => exact ih (sorted_perform call hsorted)

end Reassembler

end Ccf
