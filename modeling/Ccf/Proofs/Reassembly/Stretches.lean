import Ccf.Proofs.Reassembly.Leftovers
import Ccf.Proofs.Reassembly.Runs

/-!
# Stretches of a window

A stretch is made of entries of the window whose numbers follow one another.  When a run is walked
and what the walk leaves is put back, nothing that was beside the run is adjacent to it; so a
stretch of the new window lies in what was beside the run, or it is cut out of what the walk left.
-/

namespace Ccf

section Keys

variable {α : Type} {key : α → Nat} {first : α} {entries stretch : List α}

theorem key_le_of_isChain
    (hstretch : (first :: stretch).IsChain fun previous next => key next = key previous + 1) :
    ∀ entry ∈ first :: stretch, key first ≤ key entry := by
  induction stretch generalizing first with
  | nil => exact List.forall_mem_singleton.2 (Nat.le_refl _)
  | cons next later ih =>
    obtain ⟨hnext, hlater⟩ := List.isChain_cons_cons.1 hstretch
    refine List.forall_mem_cons.2 ⟨Nat.le_refl _, fun entry hentry => ?_⟩
    have hle := ih hlater entry hentry
    omega

/-- Elements with keys that follow one another are the beginning of a list with growing keys, if it
begins with the first of them. -/
theorem isPrefix_of_keys
    (hentries : (first :: entries).Pairwise fun entry later => key entry < key later)
    (hsubset : stretch ⊆ first :: entries)
    (hstretch : (first :: stretch).IsChain fun previous next => key next = key previous + 1) :
    first :: stretch <+: first :: entries := by
  induction stretch generalizing first entries with
  | nil => exact ⟨entries, rfl⟩
  | cons next later ih =>
    obtain ⟨hfirst, hrest⟩ := List.pairwise_cons.1 hentries
    obtain ⟨hnext, hlater⟩ := List.isChain_cons_cons.1 hstretch
    have hinside : ∀ entry ∈ next :: later, entry ∈ entries := by
      intro entry hentry
      have hle := key_le_of_isChain hlater entry hentry
      rcases List.mem_cons.1 (hsubset hentry) with rfl | hmem
      · omega
      · exact hmem
    cases entries with
    | nil => cases hinside next List.mem_cons_self
    | cons head tail =>
      have hhead : next = head := by
        rcases List.mem_cons.1 (hinside next List.mem_cons_self) with rfl | htail
        · rfl
        · have hlow := hfirst head List.mem_cons_self
          have hhigh := (List.pairwise_cons.1 hrest).1 next htail
          omega
      subst hhead
      have hpart := ih hrest
        (fun entry hentry => hinside entry (List.mem_cons_of_mem _ hentry)) hlater
      exact (List.prefix_cons_inj first).2 hpart

/-- Elements with keys that follow one another are next to each other in a list with growing
keys. -/
theorem isInfix_of_keys (hentries : entries.Pairwise fun entry later => key entry < key later)
    (hsubset : stretch ⊆ entries)
    (hstretch : stretch.IsChain fun previous next => key next = key previous + 1) :
    stretch <:+: entries := by
  induction entries with
  | nil =>
    obtain rfl := List.subset_nil.1 hsubset
    exact List.nil_infix
  | cons entry rest ih =>
    obtain ⟨hentry, hrest⟩ := List.pairwise_cons.1 hentries
    cases stretch with
    | nil => exact List.nil_infix
    | cons first later =>
      rcases List.mem_cons.1 (hsubset List.mem_cons_self) with rfl | hmem
      · apply List.IsPrefix.isInfix
        exact isPrefix_of_keys hentries (fun other hother =>
          hsubset (List.mem_cons_of_mem _ hother)) hstretch
      · apply List.infix_cons
        apply ih hrest
        intro other hother
        have hlow := hentry first hmem
        have hle := key_le_of_isChain hstretch other hother
        rcases List.mem_cons.1 (hsubset hother) with rfl | hinside
        · omega
        · exact hinside

end Keys

/-! ## Stretches of a run -/

namespace Consecutive

/-- How far the numbers of a run are ahead of an anchor's that has room for the run behind it. -/
theorem map_distance {anchor : Anchor} {first : Waiting} {rest : List Waiting}
    (hrun : Consecutive (first :: rest))
    (hroom : anchor.distance first + rest.length < sequenceSpace) :
    (first :: rest).map anchor.distance =
      List.range' (anchor.distance first) (rest.length + 1) := by
  induction rest generalizing first with
  | nil => rfl
  | cons next later ih =>
    obtain ⟨hnext, hlater⟩ := List.isChain_cons_cons.1 hrun
    rw [List.length_cons] at hroom
    have hdistance : anchor.distance next = anchor.distance first + 1 := by
      rw [(anchor.distance_next_iff next first).1 hnext]
      exact Nat.mod_eq_of_lt (by omega)
    calc (first :: next :: later).map anchor.distance
        = anchor.distance first :: List.range' (anchor.distance next) (later.length + 1) := by
          rw [List.map_cons, ih hlater (by omega)]
      _ = List.range' (anchor.distance first) (later.length + 1 + 1) := by
          rw [hdistance, ← List.range'_succ]

/-- Distances grow one by one, up to the end of the ring of numbers. -/
theorem isChain_distance {anchor : Anchor} {entries : List Waiting}
    (hentries : Consecutive entries)
    (hbound : ∀ entry ∈ entries, anchor.distance entry + 1 < sequenceSpace) :
    entries.IsChain fun previous next =>
      anchor.distance next = anchor.distance previous + 1 := by
  refine ((List.isChain_map Waiting.sequence).1 hentries).imp_of_mem_imp ?_
  intro previous next hprevious _ hnext
  rw [(anchor.distance_next_iff next previous).1 hnext]
  exact Nat.mod_eq_of_lt (hbound previous hprevious)

/-- Seen from its first number, a run that does not fill the ring of numbers counts up from zero. -/
theorem exists_origin {first : Waiting} {rest : List Waiting}
    (hrun : Consecutive (first :: rest)) (hroom : rest.length < sequenceSpace) :
    ∃ origin : Anchor, origin.distance first = 0 ∧
      (first :: rest).map origin.distance = List.range' 0 (rest.length + 1) := by
  let origin : Anchor := { before := [], entry := first, after := rest }
  have hzero : origin.distance first = 0 := origin.distance_self
  have hplaces : (first :: rest).map origin.distance =
      List.range' (origin.distance first) (rest.length + 1) := hrun.map_distance (by omega)
  rw [hzero] at hplaces
  exact ⟨origin, hzero, hplaces⟩

/-- The first number of such a run is not the one after any other. -/
theorem head_ne_next {first : Waiting} {rest : List Waiting} (hrun : Consecutive (first :: rest))
    (hroom : rest.length + 1 < sequenceSpace) :
    ∀ entry ∈ first :: rest, first.sequence ≠ entry.sequence.next := by
  obtain ⟨origin, hzero, hplaces⟩ := hrun.exists_origin (by omega)
  intro entry hentry hnext
  have hplace : origin.distance entry ∈ List.range' 0 (rest.length + 1) :=
    hplaces ▸ List.mem_map_of_mem hentry
  have hdistance := (origin.distance_next_iff first entry).1 hnext
  rw [List.mem_range'_1] at hplace
  rw [hzero, Nat.mod_eq_of_lt (by omega)] at hdistance
  omega

variable {run left stretch : List Waiting}

/-- Entries with numbers that follow one another lie next to each other in what is left of a run. -/
theorem isInfix_of_subset (hrun : Consecutive run) (hroom : run.length < sequenceSpace)
    (hleft : (Window.sequences left).Sublist (Window.sequences run)) (hsubset : stretch ⊆ left)
    (hstretch : Consecutive stretch) : stretch <:+: left := by
  cases run with
  | nil =>
    have hnone : left = [] := List.map_eq_nil_iff.1 (List.sublist_nil.1 hleft)
    rw [hnone] at hsubset
    obtain rfl := List.subset_nil.1 hsubset
    exact List.nil_infix
  | cons first rest =>
    rw [List.length_cons] at hroom
    obtain ⟨origin, -, hplaces⟩ := hrun.exists_origin (by omega)
    have hdistances : (left.map origin.distance).Sublist (List.range' 0 (rest.length + 1)) := by
      have hvalues := hleft.map fun number : SequenceNumber =>
        (number.value + sequenceSpace - origin.entry.sequence.value) % sequenceSpace
      rw [Window.sequences, Window.sequences, List.map_map, List.map_map] at hvalues
      rw [← hplaces]
      exact hvalues
    have hgrowing : (List.range' 0 (rest.length + 1)).Pairwise (· < ·) := List.pairwise_lt_range'
    apply isInfix_of_keys (List.pairwise_map.1 (hgrowing.sublist hdistances)) hsubset
    apply isChain_distance hstretch
    intro entry hentry
    have hplace := hdistances.subset (List.mem_map_of_mem (hsubset hentry))
    rw [List.mem_range'_1] at hplace
    omega

end Consecutive

/-! ## Stretches of a window -/

/-- Entries of the window with different numbers that follow one another. -/
structure Window.Stretch (window stretch : List Waiting) : Prop where
  subset : stretch ⊆ window
  nodup : (Window.sequences stretch).Nodup
  consecutive : Consecutive stretch

/-- Nothing in the window comes right before the stretch. -/
def Window.Foremost (window stretch : List Waiting) : Prop :=
  ∀ first ∈ stretch.head?, ∀ entry ∈ window, first.sequence ≠ entry.sequence.next

/-- Whatever run a walk may find in the window or in a part of it, it is what a walk has left. -/
def Window.Still (window : List Waiting) : Prop :=
  ∀ stretch, Stretch window stretch → Leftover Waiting.Stays stretch

/-- The runs that a walk finds in the whole window have no empty entries ahead of an open packet. -/
def Window.Firm (window : List Waiting) : Prop :=
  ∀ stretch, Stretch window stretch → Foremost window stretch →
    Leftover Waiting.StaysFilled stretch

namespace Window

variable {window others stretch : List Waiting}

theorem Stretch.mono (hstretch : Stretch window stretch) (hsubset : window ⊆ others) :
    Stretch others stretch where
  subset := fun _ hentry => hsubset (hstretch.subset hentry)
  nodup := hstretch.nodup
  consecutive := hstretch.consecutive

theorem Still.mono (hstill : Still window) (hsubset : others ⊆ window) : Still others :=
  fun stretch hstretch => hstill stretch (hstretch.mono hsubset)

end Window

/-- Entries whose numbers follow one another do so in a run. -/
theorem Consecutive.follows {entries : List Waiting} (hentries : Consecutive entries) :
    entries.IsChain fun previous entry => entry.follows previous = true :=
  ((List.isChain_map Waiting.sequence).1 hentries).imp fun _ _ hnext =>
    (SequenceNumber.follows_iff _ _).2 (Or.inr hnext)

/-- In a run of different numbers, every number is the one after the number before it. -/
theorem Consecutive.of_follows {run : List Waiting}
    (hchained : run.IsChain fun previous entry => entry.follows previous = true)
    (hnodup : (Window.sequences run).Nodup) : Consecutive run := by
  induction run with
  | nil => exact List.isChain_nil
  | cons entry rest ih =>
    obtain ⟨hfresh, hothers⟩ := List.nodup_cons.1 hnodup
    cases rest with
    | nil => exact List.isChain_singleton _
    | cons next later =>
      obtain ⟨hfollows, hlater⟩ := List.isChain_cons_cons.1 hchained
      refine List.isChain_cons_cons.2 ⟨?_, ih hlater hothers⟩
      rcases (SequenceNumber.follows_iff _ _).1 hfollows with hsame | hnext
      · rw [← hsame] at hfresh
        exact absurd (List.mem_map_of_mem List.mem_cons_self) hfresh
      · exact hnext

namespace Anchor

/-- An anchor in an ordered window of different numbers. -/
theorem distinct_of_sorted {anchor : Anchor} (hsorted : Window.Sorted anchor.entries)
    (hnodup : (Window.sequences anchor.entries).Nodup) : anchor.Distinct := by
  have hperm : anchor.entries.Perm (anchor.entry :: (anchor.before.reverse ++ anchor.after)) :=
    List.perm_middle
  have hdiffer := (hperm.map Waiting.sequence).nodup_iff.1 hnodup
  obtain ⟨-, hback, hcross⟩ := List.pairwise_append.1 hsorted
  constructor
  case sorted => exact hsorted.sublist ((List.sublist_cons_self _ _).append_left _)
  case nodup => exact hdiffer
  case before_le =>
    exact fun other hother => hcross other (List.mem_reverse.2 hother) _ List.mem_cons_self
  case after_gt =>
    intro other hother
    have hnext := (List.pairwise_cons.1 hback).1 other hother
    rw [Bool.eq_false_iff]
    intro hbefore
    have hsame := Window.sequence_eq_of_notAfter hnext hbefore
    exact (List.nodup_cons.1 hdiffer).1
      (hsame ▸ List.mem_map_of_mem (List.mem_append_right _ hother))

theorem run_length_lt (anchor : Anchor) (hroom : anchor.entries.length < sequenceSpace) :
    (anchor.cut.1).length < sequenceSpace := by
  calc (anchor.cut.1).length
      ≤ (anchor.cut.2.window ++ anchor.cut.1).length :=
        (List.sublist_append_right _ _).length_le
    _ = anchor.entries.length := anchor.cut_perm.length_eq
    _ < sequenceSpace := hroom

section Cut

variable {anchor : Anchor} (hanchor : anchor.Distinct)
include hanchor

theorem Distinct.cut_nodup :
    (Window.sequences (anchor.cut.2.window ++ anchor.cut.1)).Nodup := by
  have hperm := anchor.cut_perm.trans List.perm_middle
  exact (hperm.map Waiting.sequence).nodup_iff.2 hanchor.nodup

/-- The run through the anchor is a stretch. -/
theorem Distinct.run_stretch : Window.Stretch anchor.entries anchor.cut.1 := by
  obtain ⟨earlier, later, between, hcut⟩ := anchor.cut_cutsRun
  have hrun : (anchor.cut.1).Sublist (anchor.cut.2.window ++ anchor.cut.1) :=
    List.sublist_append_right _ _
  have hnodup := hanchor.cut_nodup.sublist (hrun.map Waiting.sequence)
  constructor
  case subset => exact fun entry hentry => anchor.cut_perm.subset (hrun.subset hentry)
  case nodup => exact hnodup
  case consecutive => exact .of_follows hcut.chained hnodup

/-- Putting back a whole run restores the window. -/
theorem Distinct.fill_cut (hsorted : Window.Sorted anchor.entries) :
    anchor.cut.2.fill anchor.cut.1 = anchor.entries := by
  have hperm : (anchor.cut.2.fill anchor.cut.1).Perm anchor.entries :=
    (Gap.fill_perm _ _).trans anchor.cut_perm
  have hnodup : (Window.sequences anchor.entries).Nodup :=
    (List.perm_middle.map Waiting.sequence).nodup_iff.2 hanchor.nodup
  have hfilled : Window.Sorted (anchor.cut.2.fill anchor.cut.1) :=
    Gap.fill_sorted (hanchor.sorted.sublist anchor.others_sublist) _
  apply List.Perm.eq_of_pairwise _ hfilled hsorted hperm
  intro entry other hentry hother hle hge
  apply List.inj_on_of_nodup_map hnodup (hperm.subset hentry) hother
  exact Window.sequence_eq_of_notAfter hle hge

variable (hroom : anchor.entries.length < sequenceSpace)
include hroom

/-- Nothing comes right before the run, not even its own end. -/
theorem Distinct.run_foremost : Window.Foremost anchor.entries anchor.cut.1 := by
  obtain ⟨earlier, later, between, hcut⟩ := anchor.cut_cutsRun
  have hrun := hanchor.run_stretch.consecutive
  have hlength := anchor.run_length_lt hroom
  have hperm := anchor.cut_perm
  generalize anchor.cut.1 = run at hcut hrun hlength hperm
  intro first hfirst entry hentry hnext
  cases run with
  | nil => cases hfirst
  | cons head rest =>
    obtain rfl := Option.some.inj hfirst
    rcases List.mem_append.1 (hperm.symm.subset hentry) with hgap | hinside
    · exact (hcut.not_adjacent hanchor hgap List.mem_cons_self).2 hnext
    · exact hrun.head_ne_next hlength entry hinside hnext

/-- What is put back is cut out of what there was. -/
theorem Distinct.stretch_fill {left stretch : List Waiting}
    (hleft : (Window.sequences left).Sublist (Window.sequences anchor.cut.1))
    (hstretch : Window.Stretch (anchor.cut.2.fill left) stretch) :
    Window.Stretch anchor.cut.2.window stretch ∨ stretch <:+: left := by
  obtain ⟨earlier, later, between, hcut⟩ := anchor.cut_cutsRun
  have hsubset : stretch ⊆ anchor.cut.2.window ++ left := fun entry hentry =>
    (Gap.fill_perm _ left).subset (hstretch.subset hentry)
  have hapart : Window.Apart anchor.cut.2.window left :=
    (hcut.apart hanchor.sorted_entries).symm.of_sequences hleft.subset
  rcases Window.subset_or_subset hsubset hstretch.consecutive.follows hapart with hgap | hinside
  · exact Or.inl ⟨hgap, hstretch.nodup, hstretch.consecutive⟩
  · exact Or.inr (hanchor.run_stretch.consecutive.isInfix_of_subset (anchor.run_length_lt hroom)
      hleft hinside hstretch.consecutive)

section Fill

variable {old left : List Waiting}
  (hleft : (Window.sequences left).Sublist (Window.sequences anchor.cut.1))
  (hleftover : Leftover Waiting.StaysFilled left)
include hleft hleftover

theorem Distinct.still_fill (hgap : anchor.cut.2.window ⊆ old) (hstill : Window.Still old) :
    Window.Still (anchor.cut.2.fill left) := by
  intro stretch hstretch
  rcases hanchor.stretch_fill hroom hleft hstretch with hbeside | hinside
  · exact hstill stretch (hbeside.mono hgap)
  · obtain ⟨front, back, rfl⟩ := hinside
    have hstays := hleftover.mono fun _ hentry => hentry.1
    rw [List.append_assoc] at hstays
    have hsuffix := hstays.of_suffix (fun _ => Or.inl) (List.suffix_append front _)
    exact hsuffix.of_prefix (List.prefix_append stretch back)

theorem Distinct.firm_fill (hgap : anchor.cut.2.window ⊆ old)
    (hold : old ⊆ anchor.cut.2.window ++ anchor.cut.1) (hfirm : Window.Firm old) :
    Window.Firm (anchor.cut.2.fill left) := by
  obtain ⟨earlier, later, between, hcut⟩ := anchor.cut_cutsRun
  have hperm := Gap.fill_perm anchor.cut.2 left
  intro stretch hstretch hforemost
  rcases hanchor.stretch_fill hroom hleft hstretch with hbeside | hinside
  · apply hfirm stretch (hbeside.mono hgap)
    intro first hfirst entry hentry
    rcases List.mem_append.1 (hold hentry) with hother | hrun
    · exact hforemost first hfirst entry (hperm.symm.subset (List.mem_append_left _ hother))
    · exact (hcut.not_adjacent hanchor (hbeside.subset (List.mem_of_head? hfirst)) hrun).1
  · obtain ⟨front, back, rfl⟩ := hinside
    cases stretch with
    | nil => exact .nil
    | cons first rest =>
      have hsuffix : Leftover Waiting.StaysFilled (first :: rest ++ back) := by
        apply hleftover.of_foremost_suffix ⟨front, by rw [← List.append_assoc]⟩
        intro other hother entry hentry
        exact hforemost other hother entry (hperm.symm.subset (List.mem_append_right _ hentry))
      exact hsuffix.of_prefix (List.prefix_append _ back)

end Fill

end Cut

end Anchor

end Ccf
