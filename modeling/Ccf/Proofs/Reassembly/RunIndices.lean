import Ccf.Proofs.Reassembly.Runs
import Ccf.Proofs.Reassembly.WalkAccounts
import Mathlib.Data.List.Perm.Subperm

/-!
# Runs of a reception

Sequence numbers repeat, but segments whose indices lie close together have different numbers, and
adjacent numbers mean adjacent indices.  A run of such segments is a stretch of the stream, and a
packet all of whose segments are in the window has them in one run.
-/

namespace Ccf.Reception

open Walk

variable {stream : Stream} {reception : Reception stream}

theorem Lawful.sequence_value_eq {entry : Waiting} (hentry : reception.Lawful entry) :
    entry.sequence.value = reception.indexOf entry % sequenceSpace := by
  rw [Waiting.sequence, hentry.segment_eq]
  exact reception.sequence_eq hentry.arrives.1 hentry.arrives.2

structure Assembled (reception : Reception stream) (base : Nat) (entries : List Waiting) :
    Prop where
  lawful : ∀ entry ∈ entries, reception.Lawful entry
  nodup : (entries.map reception.indexOf).Nodup
  close : reception.Close base entries

section Assembled

variable {base : Nat} {entries : List Waiting} (hentries : Assembled reception base entries)
include hentries

theorem Assembled.perm {others : List Waiting} (hperm : entries.Perm others) :
    Assembled reception base others where
  lawful entry hentry := hentries.lawful entry (hperm.mem_iff.2 hentry)
  nodup := (hperm.map reception.indexOf).nodup_iff.1 hentries.nodup
  close entry hentry := hentries.close entry (hperm.mem_iff.2 hentry)

theorem Assembled.sublist {others : List Waiting} (hsublist : others.Sublist entries) :
    Assembled reception base others where
  lawful entry hentry := hentries.lawful entry (hsublist.subset hentry)
  nodup := hentries.nodup.sublist (hsublist.map reception.indexOf)
  close entry hentry := hentries.close entry (hsublist.subset hentry)

theorem Assembled.length_lt : entries.length < sequenceSpace := by
  have hsubset : entries.map reception.indexOf ⊆ List.range' base (sequenceSpace - 1) := by
    intro index hindex
    obtain ⟨entry, hentry, rfl⟩ := List.mem_map.1 hindex
    obtain ⟨hlow, hhigh⟩ := hentries.close entry hentry
    rw [List.mem_range'_1]
    simp only [sequenceSpace] at hhigh ⊢
    omega
  have hlength := (hentries.nodup.subperm hsubset).length_le
  rw [List.length_map, List.length_range'] at hlength
  simp only [sequenceSpace] at hlength ⊢
  omega

/-- Equal numbers mean equal indices. -/
theorem Assembled.indexOf_eq {entry other : Waiting} (hentry : entry ∈ entries)
    (hother : other ∈ entries) (hsequence : entry.sequence = other.sequence) :
    reception.indexOf entry = reception.indexOf other := by
  have hvalue := (hentries.lawful entry hentry).sequence_value_eq
  rw [hsequence, (hentries.lawful other hother).sequence_value_eq] at hvalue
  obtain ⟨hlow, hhigh⟩ := hentries.close entry hentry
  obtain ⟨hlow', hhigh'⟩ := hentries.close other hother
  simp only [sequenceSpace] at *
  omega

/-- Adjacent numbers mean adjacent indices. -/
theorem Assembled.next_iff {entry other : Waiting} (hentry : entry ∈ entries)
    (hother : other ∈ entries) :
    entry.sequence = other.sequence.next ↔
      reception.indexOf entry = reception.indexOf other + 1 := by
  have hvalue := (hentries.lawful entry hentry).sequence_value_eq
  have hvalue' := (hentries.lawful other hother).sequence_value_eq
  obtain ⟨hlow, hhigh⟩ := hentries.close entry hentry
  obtain ⟨hlow', hhigh'⟩ := hentries.close other hother
  have hnext : entry.sequence = other.sequence.next ↔
      entry.sequence.value = (other.sequence.value + 1) % sequenceSpace := by
    cases entry.sequence
    simp [SequenceNumber.next]
  rw [hnext, hvalue, hvalue']
  simp only [sequenceSpace] at *
  omega

theorem Assembled.sequences_nodup : (Window.sequences entries).Nodup := by
  have hpairs := List.pairwise_map.1 hentries.nodup
  refine List.pairwise_map.2 (hpairs.imp_of_mem fun hentry hother hne hsame => ?_)
  exact hne (hentries.indexOf_eq hentry hother hsame)

end Assembled

theorem eq_range'_of_isChain {first : Nat} {rest : List Nat}
    (hchain : List.IsChain (fun previous next => next = previous + 1) (first :: rest)) :
    first :: rest = List.range' first (rest.length + 1) := by
  induction rest generalizing first with
  | nil => rfl
  | cons next later ih =>
    obtain ⟨rfl, hlater⟩ := List.isChain_cons_cons.1 hchain
    have hlength : ((first + 1) :: later).length = later.length + 1 := rfl
    rw [hlength, List.range'_succ, ih hlater]

theorem isChain_indexOf {base : Nat} {run : List Waiting}
    (hrun : Assembled reception base run)
    (hchain : List.IsChain (fun previous entry => entry.follows previous = true) run) :
    List.IsChain (fun previous next => next = previous + 1) (run.map reception.indexOf) := by
  induction run with
  | nil => exact List.isChain_nil
  | cons entry rest ih =>
    have hrest := hrun.sublist (List.sublist_cons_self entry rest)
    cases rest with
    | nil => exact List.isChain_singleton _
    | cons next later =>
      obtain ⟨hfollows, hlater⟩ := List.isChain_cons_cons.1 hchain
      refine List.isChain_cons_cons.2 ⟨?_, ih hrest hlater⟩
      have hentry : entry ∈ entry :: next :: later := List.mem_cons_self
      have hnext : next ∈ entry :: next :: later := List.mem_cons_of_mem _ List.mem_cons_self
      rcases (SequenceNumber.follows_iff _ _).1 hfollows with hsame | hsucc
      · have hindex := hrun.indexOf_eq hnext hentry hsame
        have hpairs := (List.nodup_cons.1 hrun.nodup).1
        exact absurd (hindex ▸ List.mem_map_of_mem List.mem_cons_self) hpairs
      · exact (hrun.next_iff hnext hentry).1 hsucc

/-- The entries of a run are a stretch of the stream. -/
theorem consecutive_of_isChain {base : Nat} {run : List Waiting}
    (hrun : Assembled reception base run)
    (hchain : List.IsChain (fun previous entry => entry.follows previous = true) run) :
    ∃ first, run.map reception.indexOf = List.range' first run.length := by
  have hindices := isChain_indexOf hrun hchain
  cases run with
  | nil => exact ⟨0, rfl⟩
  | cons entry rest =>
    refine ⟨reception.indexOf entry, ?_⟩
    rw [List.map_cons] at hindices ⊢
    rw [eq_range'_of_isChain hindices, List.length_map, List.length_cons]

/-- If the window has every segment that a packet touches, a run that has one of them has all of
them. -/
theorem mem_run_of_touches {base : Nat} {anchor : Anchor} {run earlier later between : List Waiting}
    {gap : Gap} (hanchor : anchor.Distinct)
    (hcut : anchor.CutsRun run gap earlier later between)
    (hentries : Assembled reception base (run ++ gap.window)) {number : Nat}
    (hheld : ∀ index, stream.Touches index number →
      ∃ entry ∈ run ++ gap.window, reception.indexOf entry = index)
    {start : Nat} (hstart : stream.Touches start number)
    (hinside : ∃ entry ∈ run, reception.indexOf entry = start) :
    ∀ index, stream.Touches index number → ∃ entry ∈ run, reception.indexOf entry = index := by
  have hneighbour {index other : Nat} (hother : stream.Touches other number)
      (hnext : other = index + 1 ∨ index = other + 1)
      (hindex : ∃ entry ∈ run, reception.indexOf entry = index) :
      ∃ entry ∈ run, reception.indexOf entry = other := by
    obtain ⟨entry, hentry, rfl⟩ := hindex
    obtain ⟨neighbour, hmem, rfl⟩ := hheld other hother
    rcases List.mem_append.1 hmem with hrun | hgap
    · exact ⟨neighbour, hrun, rfl⟩
    · exfalso
      have hadjacent := hcut.not_adjacent hanchor hgap hentry
      have hentry' := List.mem_append_left gap.window hentry
      rcases hnext with heq | heq
      · exact hadjacent.1 ((hentries.next_iff hmem hentry').2 heq)
      · exact hadjacent.2 ((hentries.next_iff hentry' hmem).2 heq)
  have hbetween {index other place : Nat} (hindex : stream.Touches index number)
      (hother : stream.Touches other number) (hlow : index ≤ place) (hhigh : place ≤ other) :
      stream.Touches place number :=
    ⟨Nat.lt_of_le_of_lt (stream.cut_mono hhigh) hother.1,
      Nat.lt_of_lt_of_le hindex.2 (stream.cut_mono (Nat.succ_le_succ hlow))⟩
  intro index hindex
  rcases Nat.le_total start index with hle | hge
  · induction index, hle using Nat.le_induction with
    | base => exact hinside
    | succ index hle ih =>
      have hprevious := hbetween hstart hindex hle (Nat.le_succ index)
      exact hneighbour hindex (Or.inl rfl) (ih hprevious)
  · obtain ⟨distance, hdistance⟩ := Nat.exists_eq_add_of_le hge
    induction distance generalizing index with
    | zero =>
      rw [Nat.add_zero] at hdistance
      rwa [← hdistance]
    | succ distance ih =>
      have hnext := hbetween hindex hstart (Nat.le_succ index) (by omega)
      exact hneighbour hindex (Or.inr rfl) (ih (index + 1) hnext (by omega) (by omega))

end Ccf.Reception
