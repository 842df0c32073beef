import Ccf.Proofs.Reassembly.Blocks
import Ccf.Proofs.Reassembly.Tours

/-!
# Segments with the same number

Segments with the same number wait in a line.  A new one goes to its end, and those that leave do
not change the order of the others.

There is one exception.  If the ring is one run all the way round, the run through an anchor begins
with the entry after it, and the anchor is put back last.  If the entry after it has the same
number, the anchor has then gone behind those that it stood in front of.
-/

namespace Ccf

namespace Window

def numbered (number : SequenceNumber) (window : List Waiting) : List Waiting :=
  window.filter fun entry => decide (entry.sequence = number)

def InOrderOfArrival (window : List Waiting) : Prop :=
  window.Pairwise fun entry later =>
    entry.sequence.value < later.sequence.value ∨
      entry.sequence = later.sequence ∧ entry.arrival < later.arrival

variable {number : SequenceNumber} {window front back : List Waiting}

@[simp]
theorem numbered_append (number : SequenceNumber) (front back : List Waiting) :
    numbered number (front ++ back) = numbered number front ++ numbered number back :=
  List.filter_append ..

@[simp]
theorem numbered_numbered (number : SequenceNumber) (window : List Waiting) :
    numbered number (numbered number window) = numbered number window := by
  rw [numbered, numbered, List.filter_filter]
  simp only [Bool.and_self]

theorem mem_numbered {entry : Waiting} :
    entry ∈ numbered number window ↔ entry ∈ window ∧ entry.sequence = number := by
  rw [numbered, List.mem_filter, decide_eq_true_iff]

theorem numbered_eq_nil_iff :
    numbered number window = [] ↔ ∀ entry ∈ window, entry.sequence ≠ number := by
  simp [numbered]

@[simp]
theorem numbered_self (entry : Waiting) : numbered entry.sequence [entry] = [entry] :=
  List.filter_cons_of_pos (decide_eq_true rfl)

theorem numbered_of_ne {entry : Waiting} (hne : entry.sequence ≠ number) :
    numbered number [entry] = [] :=
  numbered_eq_nil_iff.2 (List.forall_mem_singleton.2 hne)

/-- A number is on one side only if no two entries with it are on different sides. -/
theorem numbered_eq_nil_or (hnever : ∀ entry ∈ front, ∀ other ∈ back,
      entry.sequence = number → other.sequence ≠ number) :
    numbered number front = [] ∨ numbered number back = [] := by
  by_contra hboth
  rw [not_or] at hboth
  obtain ⟨entry, hentry⟩ := List.exists_mem_of_ne_nil _ hboth.1
  obtain ⟨other, hother⟩ := List.exists_mem_of_ne_nil _ hboth.2
  rw [mem_numbered] at hentry hother
  exact hnever entry hentry.1 other hother.1 hentry.2 hother.2

theorem numbered_sublist (hpart : front.Sublist back) (number : SequenceNumber) :
    (numbered number front).Sublist (numbered number back) :=
  hpart.filter _

theorem length_numbered (hperm : front.Perm back) (number : SequenceNumber) :
    (numbered number front).length = (numbered number back).length :=
  (hperm.filter _).length_eq

/-- Lists that are apart have no number in common. -/
theorem Apart.numbered (hapart : Apart front back) (number : SequenceNumber) :
    numbered number front = [] ∨ numbered number back = [] := by
  refine numbered_eq_nil_or fun entry hentry other hother hnumber hsame => ?_
  exact hapart entry hentry other hother
    (Or.inl (Waiting.follows_of_sequence_eq (hnumber.trans hsame.symm)))

/-- Two parts of an ordered window have a number in common only if the entries where they meet
do. -/
theorem numbered_of_sorted (hsorted : Sorted (front ++ back)) {last first : Waiting}
    (hlast : front.getLast? = some last) (hfirst : back.head? = some first)
    (hne : last.sequence ≠ first.sequence) (number : SequenceNumber) :
    numbered number front = [] ∨ numbered number back = [] := by
  refine numbered_eq_nil_or fun entry hentry other hother hnumber hsame => ?_
  obtain ⟨hfront, hback, hcross⟩ := List.pairwise_append.1 hsorted
  simp only [notAfter_iff] at hfront hback hcross
  have hlow := key_le_of_getLast? hfront hlast entry hentry
  have hhigh := le_key_of_head? hback hfirst other hother
  have hmiddle := hcross last (List.mem_of_getLast? hlast) first (List.mem_of_head? hfirst)
  rw [hnumber] at hlow
  rw [hsame] at hhigh
  exact hne (Waiting.sequence_eq_iff.2 (by omega))

/-- Reading an ordered window as a ring parts no entries with the same number, unless the ring
begins and ends with such. -/
theorem numbered_of_isRotated (hsorted : Sorted window) {first last : Waiting}
    {ring : List Waiting} (hring : window ~r ring) (hfirst : ring.head? = some first)
    (hlast : ring.getLast? = some last) (hne : last.sequence ≠ first.sequence)
    (number : SequenceNumber) : numbered number ring = numbered number window := by
  obtain ⟨rest, rfl⟩ := List.head?_eq_some_iff.1 hfirst
  obtain ⟨front, more, rfl, rfl⟩ := exists_parts_of_isRotated hring
  rw [← List.cons_append, numbered_append, numbered_append]
  cases front.eq_nil_or_concat with
  | inl hnil =>
    rw [hnil]
    exact List.append_nil _
  | inr hconcat =>
    obtain ⟨init, final, rfl⟩ := hconcat
    have hend : (init.concat final).getLast? = some last := by
      rw [← List.cons_append] at hlast
      rwa [List.getLast?_append_of_ne_nil _ (by simp)] at hlast
    rcases numbered_of_sorted hsorted hend rfl hne number with hnone | hnone
    · rw [hnone, List.append_nil, List.nil_append]
    · rw [hnone, List.append_nil, List.nil_append]

end Window

namespace Gap

open Window

/-- Entries with a number keep their order when they are put back. -/
theorem numbered_sublist_fill (gap : Gap) (entries : List Waiting) (number : SequenceNumber) :
    (numbered number entries).Sublist (gap.fill entries) := by
  unfold fill
  split
  · rw [List.reverseAux_eq]
    exact List.filter_sublist.trans
      ((List.sublist_append_left _ _).trans (List.sublist_append_right _ _))
  · have hties : (numbered number entries).Pairwise fun entry later =>
        entry.notAfter later = true := by
      rw [List.pairwise_iff_forall_sublist]
      intro entry later hpair
      have hentry := (mem_numbered.1 (hpair.subset List.mem_cons_self)).2
      have hlater := (mem_numbered.1 (hpair.subset (by simp : later ∈ [entry, later]))).2
      rw [notAfter_iff, hentry, hlater]
    exact (List.sublist_mergeSort notAfter_trans notAfter_total hties List.filter_sublist).trans
      (sublist_merge _ _ _).2

/-- If a number is on one side only, the entries with it have the order that they have there. -/
theorem numbered_fill (gap : Gap) (entries : List Waiting) {number : SequenceNumber}
    (hone : numbered number gap.window = [] ∨ numbered number entries = []) :
    numbered number (gap.fill entries) =
      numbered number gap.window ++ numbered number entries := by
  have hlength := length_numbered (gap.fill_perm entries) number
  rw [numbered_append, List.length_append] at hlength
  rcases hone with hnone | hnone
  · have hsublist := numbered_sublist (gap.numbered_sublist_fill entries number) number
    rw [numbered_numbered] at hsublist
    rw [hnone, List.length_nil, Nat.zero_add] at hlength
    rw [hnone, List.nil_append]
    exact (hsublist.eq_of_length hlength.symm).symm
  · have hsublist := numbered_sublist (gap.window_sublist_fill entries) number
    rw [hnone, List.length_nil, Nat.add_zero] at hlength
    rw [hnone, List.append_nil]
    exact (hsublist.eq_of_length hlength.symm).symm

end Gap

namespace Anchor

open Window

/-- Whether the ring has no head, all the way round from the anchor, and the entry after the anchor
has the same number. -/
def turns (anchor : Anchor) : Bool :=
  (headsAfter anchor.entry (anchor.after ++ anchor.before.reverse ++ [anchor.entry])).isEmpty &&
    anchor.after.head?.any fun next => decide (next.sequence = anchor.entry.sequence)

theorem turns_iff {anchor : Anchor} :
    anchor.turns = true ↔
      (anchor.after ++ anchor.before.reverse ++ [anchor.entry]).IsChain
          (fun previous entry => entry.follows previous = true) ∧
        ∃ next, anchor.after.head? = some next ∧ next.sequence = anchor.entry.sequence := by
  rw [turns, Bool.and_eq_true, List.isEmpty_iff, headsAfter_eq_nil_iff]
  cases anchor.after with
  | nil => simp
  | cons next more =>
    rw [List.cons_append, List.cons_append, List.isChain_cons_cons]
    constructor
    · rintro ⟨⟨-, hchained⟩, hsame⟩
      exact ⟨hchained, next, rfl, by simpa using hsame⟩
    · rintro ⟨hchained, other, hother, hsame⟩
      obtain rfl := Option.some.inj hother
      exact ⟨⟨Waiting.follows_of_sequence_eq hsame, hchained⟩, by simpa using hsame⟩

/-- The run goes back all the way round and begins after the anchor, or it begins with an entry that
does not follow the one before it on the ring. -/
theorem cut_backwards (anchor : Anchor) :
    anchor.cut.1 = anchor.after ++ anchor.before.reverse ++ [anchor.entry] ∧
        anchor.cut.2.window = [] ∨
      ∃ back previous rest,
        anchor.before ++ anchor.after.reverse = back ++ previous :: rest ∧
        (back.getLastD anchor.entry).follows previous = false ∧
        anchor.cut.1.head? = some (back.getLastD anchor.entry) ∧
        (anchor.cut.2.window = [] → anchor.cut.1.getLast? = some previous) := by
  obtain ⟨back, before, after, later, before', after', hbackward, hforward, hcut⟩ :=
    anchor.cut_extensions
  have hring := hbackward.ring_eq
  have hwindow : anchor.cut.2.window = before'.reverse ++ after' := by rw [hcut, Gap.window_eq]
  have hfirst : anchor.cut.1.head? = some (back.getLastD anchor.entry) := by
    rw [hcut, List.head?_append, List.head?_reverse, List.head?_cons, List.getLastD_eq_getLast?]
    cases back.getLast? <;> rfl
  have hfound : (before ++ after.reverse).reverse = later ++ (after' ++ before'.reverse) := by
    rw [← hforward.ring_eq, List.reverse_append, List.reverse_reverse]
  cases hrest : before ++ after.reverse with
  | nil =>
    rw [hrest, List.append_nil] at hring
    rw [hrest, List.reverse_nil, eq_comm, List.append_eq_nil_iff, List.append_eq_nil_iff] at hfound
    obtain ⟨rfl, rfl, hbefore⟩ := hfound
    refine Or.inl ⟨?_, by rw [hwindow, hbefore]; rfl⟩
    rw [hcut, ← hring, List.reverse_append, List.reverse_reverse]
  | cons previous rest =>
    refine Or.inr ⟨back, previous, rest, hrest ▸ hring,
      hbackward.stops previous (by rw [hrest]; rfl), hfirst, fun hnone => ?_⟩
    rw [hwindow, List.append_eq_nil_iff] at hnone
    rw [hrest, hnone.1, hnone.2, List.nil_append, List.append_nil, List.reverse_cons] at hfound
    rw [hcut, ← hfound, List.getLast?_append, ← List.cons_append, List.getLast?_concat,
      Option.some_or]

/-- If every entry follows the one before it, all the way round, the run begins after the anchor. -/
theorem cut_of_closed {anchor : Anchor}
    (hclosed : (anchor.after ++ anchor.before.reverse ++ [anchor.entry]).IsChain
      fun previous entry => entry.follows previous = true) :
    anchor.cut.1 = anchor.after ++ anchor.before.reverse ++ [anchor.entry] ∧
      anchor.cut.2.window = [] := by
  refine anchor.cut_backwards.resolve_right ?_
  rintro ⟨back, previous, rest, hring, hstop, -⟩
  have hturned := List.isChain_reverse.2 hclosed
  rw [List.reverse_append, List.reverse_append, List.reverse_reverse, hring,
    List.reverse_singleton, List.singleton_append, ← List.cons_append] at hturned
  have hlast : (anchor.entry :: back).getLast? = some (back.getLastD anchor.entry) := by
    rw [List.getLast?_cons, List.getLastD_eq_getLast?]
  have hfollows := (List.isChain_append.1 hturned).2.2 _ hlast previous rfl
  rw [hstop] at hfollows
  cases hfollows

/-- If something is beside the run, the entries with a number are all of the run or all beside it,
and have the order that they had in the window. -/
theorem numbered_cut_of_rest {anchor : Anchor} (hsorted : Sorted anchor.entries)
    (hrest : anchor.cut.2.window ≠ []) (number : SequenceNumber) :
    numbered number anchor.cut.2.window ++ numbered number anchor.cut.1 =
      numbered number anchor.entries := by
  obtain ⟨earlier, later, between, hcut⟩ := anchor.cut_cutsRun
  have hrun := hcut.longestRun
  have hbetween : between ≠ [] := by
    rintro rfl
    exact hrest hcut.window_perm.eq_nil
  have hfirst := List.head?_eq_some_head (List.ne_nil_of_mem hrun.mem)
  have hlast := List.getLast?_eq_some_getLast hbetween
  have hring : numbered number (anchor.cut.1 ++ between) = numbered number anchor.entries := by
    apply numbered_of_isRotated hsorted hrun.ring
    · rw [List.head?_append, hfirst, Option.some_or]
    · rw [List.getLast?_append, hlast, Option.some_or]
    · exact Waiting.sequence_ne_of_follows_eq_false (hrun.stops_before _ hfirst _ hlast)
  rw [numbered_append] at hring
  rcases (hrun.apart hsorted).numbered number with hnone | hnone
  · have hsame := numbered_sublist anchor.gap_sublist number
    rw [hnone, List.nil_append] at hring
    rw [hnone, List.append_nil]
    apply hsame.eq_of_length
    rw [← hring, length_numbered hcut.window_perm]
  · have hempty : numbered number anchor.cut.2.window = [] := by
      rw [← List.length_eq_zero_iff, length_numbered hcut.window_perm, hnone, List.length_nil]
    rw [hempty, List.nil_append, ← hring, hnone, List.append_nil]

/-- If the run is the whole ring and the anchor does not turn, the ring is cut between two numbers,
and so the entries with a number have the order that they had in the window. -/
theorem numbered_cut_of_all {anchor : Anchor} (hsorted : Sorted anchor.entries)
    (hall : anchor.cut.2.window = []) (hturns : anchor.turns = false) (number : SequenceNumber) :
    numbered number anchor.cut.1 = numbered number anchor.entries := by
  obtain ⟨earlier, later, between, hcut⟩ := anchor.cut_cutsRun
  have hrun := hcut.longestRun
  have hring : anchor.entries ~r anchor.cut.1 := by
    have hbetween : between = [] := (hall ▸ hcut.window_perm).nil_eq.symm
    simpa [hbetween] using hrun.ring
  rcases anchor.cut_backwards with ⟨haround, -⟩ | ⟨back, previous, rest, -, hstop, hhead, hend⟩
  · cases hafter : anchor.after with
    | nil => rw [haround, entries, hafter, List.nil_append]
    | cons next more =>
      have hhead : anchor.cut.1.head? = some next := by rw [haround, hafter]; rfl
      have hend : anchor.cut.1.getLast? = some anchor.entry := by
        rw [haround, List.getLast?_concat]
      refine numbered_of_isRotated hsorted hring hhead hend (fun hsame => ?_) number
      have hturned : anchor.turns = true :=
        turns_iff.2 ⟨haround ▸ hrun.chained, next, by rw [hafter]; rfl, hsame.symm⟩
      rw [hturns] at hturned
      cases hturned
  · exact numbered_of_isRotated hsorted hring hhead (hend hall)
      (Waiting.sequence_ne_of_follows_eq_false hstop) number

/-- Where the anchor does not turn, the entries with a number have one order in the window and in
the run. -/
theorem numbered_cut {anchor : Anchor} (hsorted : Sorted anchor.entries)
    (hturns : anchor.turns = false) (number : SequenceNumber) :
    numbered number anchor.cut.2.window ++ numbered number anchor.cut.1 =
      numbered number anchor.entries := by
  by_cases hall : anchor.cut.2.window = []
  · rw [← numbered_cut_of_all hsorted hall hturns, hall]
    rfl
  · exact numbered_cut_of_rest hsorted hall number

/-- Where an anchor turns that is the first with its number, it goes behind the others with the
number. -/
theorem numbered_cut_of_turns {anchor : Anchor} (hsorted : Sorted anchor.entries)
    (hturns : anchor.turns = true)
    (hfirst : ∀ other ∈ anchor.before, other.sequence ≠ anchor.entry.sequence) :
    anchor.cut.2.window = [] ∧
      numbered anchor.entry.sequence anchor.entries =
        anchor.entry :: numbered anchor.entry.sequence anchor.after ∧
      numbered anchor.entry.sequence anchor.cut.1 =
        numbered anchor.entry.sequence anchor.after ++ [anchor.entry] ∧
      ∀ number, number ≠ anchor.entry.sequence →
        numbered number anchor.cut.1 = numbered number anchor.entries := by
  obtain ⟨hclosed, -⟩ := turns_iff.1 hturns
  obtain ⟨hrun, hnone⟩ := cut_of_closed hclosed
  have hbefore : numbered anchor.entry.sequence anchor.before.reverse = [] :=
    numbered_eq_nil_iff.2 fun other hother => hfirst other (List.mem_reverse.1 hother)
  have hentries : anchor.entries = anchor.before.reverse ++ ([anchor.entry] ++ anchor.after) := rfl
  refine ⟨hnone, ?_, ?_, fun number hnumber => ?_⟩
  · rw [hentries, numbered_append, numbered_append, hbefore, numbered_self]
    rfl
  · rw [hrun, numbered_append, numbered_append, hbefore, numbered_self, List.append_nil]
  · -- The anchor parts smaller numbers from greater ones.
    have hone : numbered number anchor.before.reverse = [] ∨ numbered number anchor.after = [] := by
      refine numbered_eq_nil_or fun entry hentry later hlater hsmaller hgreater => ?_
      obtain ⟨-, hback, hcross⟩ := List.pairwise_append.1 hsorted
      have hle := notAfter_iff.1 (hcross entry hentry _ List.mem_cons_self)
      have hge := notAfter_iff.1 ((List.pairwise_cons.1 hback).1 later hlater)
      have hsame : entry.sequence = anchor.entry.sequence :=
        Waiting.sequence_eq_iff.2 (by rw [hgreater] at hge; rw [hsmaller] at hle ⊢; omega)
      exact hnumber (hsmaller.symm.trans hsame)
    rw [hrun, hentries, numbered_append, numbered_append, numbered_append, numbered_append,
      numbered_of_ne hnumber.symm, List.append_nil, List.nil_append]
    rcases hone with hnil | hnil
    · rw [hnil, List.append_nil, List.nil_append]
    · rw [hnil, List.append_nil, List.nil_append]

end Anchor

/-! ## Lines -/

/-- Whoever turns goes to the end of the line. -/
def requeue (line : List Nat) (anchor : Anchor) : List Nat :=
  if anchor.turns then line.erase anchor.entry.arrival ++ [anchor.entry.arrival] else line

theorem requeue_perm {line : List Nat} {anchor : Anchor} (hanchor : anchor.entry.arrival ∈ line) :
    (requeue line anchor).Perm line := by
  unfold requeue
  split
  · exact (List.perm_append_singleton _ _).trans (List.perm_cons_erase hanchor).symm
  · exact .refl _

/-- The window is in order, and segments with the same number wait in the order of the line. -/
structure Queues (window : List Waiting) (line : List Nat) : Prop where
  sorted : Window.Sorted window
  nodup : (window.map Waiting.arrival).Nodup
  queued : ∀ number, ((Window.numbered number window).map Waiting.arrival).Sublist line

namespace Queues

open Window

variable {window : List Waiting} {line : List Nat}

theorem mem_line (hqueues : Queues window line) : ∀ entry ∈ window, entry.arrival ∈ line := by
  intro entry hentry
  exact (hqueues.queued entry.sequence).subset
    (List.mem_map_of_mem (mem_numbered.2 ⟨hentry, rfl⟩))

theorem sublist {others : List Waiting} (hqueues : Queues window line)
    (hpart : others.Sublist window) : Queues others line where
  sorted := hqueues.sorted.sublist hpart
  nodup := hqueues.nodup.sublist (hpart.map _)
  queued number := ((numbered_sublist hpart number).map _).trans (hqueues.queued number)

/-- Whoever arrives goes to the end of the line. -/
theorem arrive (hqueues : Queues window line) {entry : Waiting} (hentry : entry.arrival ∉ line) :
    Queues (anchorFor entry window).entries (line ++ [entry.arrival]) ∧
      (anchorFor entry window).turns = false := by
  obtain ⟨hanchor, hring⟩ := anchorFor_eq entry window
  obtain ⟨-, hgt⟩ := anchorFor_spec entry hqueues.sorted
  have hafter : ∀ other ∈ (anchorFor entry window).after, other.sequence ≠ entry.sequence := by
    intro other hother hsame
    have hbehind := hgt other hother
    rw [Bool.eq_false_iff, Ne, notAfter_iff, hsame] at hbehind
    exact hbehind (Nat.le_refl _)
  refine ⟨⟨sorted_anchorFor hqueues.sorted entry, ?_, fun number => ?_⟩, ?_⟩
  · apply ((entries_anchorFor_perm entry window).map Waiting.arrival).nodup_iff.2
    refine List.nodup_cons.2 ⟨fun hmem => ?_, hqueues.nodup⟩
    obtain ⟨other, hother, hsame⟩ := List.mem_map.1 hmem
    exact hentry (hsame ▸ hqueues.mem_line other hother)
  · have hline := hqueues.queued number
    rw [← hring, numbered_append] at hline
    have hentries : (anchorFor entry window).entries = (anchorFor entry window).before.reverse ++
        ([entry] ++ (anchorFor entry window).after) := by
      rw [Anchor.entries, hanchor]
      rfl
    rw [hentries, numbered_append, numbered_append]
    by_cases hnumber : number = entry.sequence
    · subst hnumber
      rw [numbered_eq_nil_iff.2 hafter, List.append_nil] at hline ⊢
      rw [numbered_self, List.map_append]
      exact hline.append (List.Sublist.refl _)
    · rw [numbered_of_ne (Ne.symm hnumber), List.nil_append]
      exact hline.trans (List.sublist_append_left _ _)
  · rw [Bool.eq_false_iff]
    intro hturns
    obtain ⟨-, next, hnext, hsame⟩ := Anchor.turns_iff.1 hturns
    rw [hanchor] at hsame
    exact hafter next (List.mem_of_head? hnext) hsame

/-- Walking a run leaves a line. -/
theorem walk {anchor : Anchor} (hqueues : Queues anchor.entries line)
    (hfirst : anchor.turns = true →
      ∀ other ∈ anchor.before, other.sequence ≠ anchor.entry.sequence)
    {left : List Waiting}
    (hleft : (left.map Waiting.label).Sublist (anchor.cut.1.map Waiting.label)) :
    Queues (anchor.cut.2.fill left) (requeue line anchor) := by
  have hnumbers (number : SequenceNumber) :
      ((numbered number left).map Waiting.arrival).Sublist
        ((numbered number anchor.cut.1).map Waiting.arrival) := by
    have hlabels := (hleft.filter fun label => decide (label.1.sequence = number)).map Prod.snd
    rw [List.filter_map, List.filter_map, List.map_map, List.map_map] at hlabels
    exact hlabels
  obtain ⟨earlier, later, between, hcut⟩ := anchor.cut_cutsRun
  have hone (number : SequenceNumber) :
      numbered number anchor.cut.2.window = [] ∨ numbered number left = [] := by
    rcases (hcut.apart hqueues.sorted).numbered number with hnone | hnone
    · have hlength := (hnumbers number).length_le
      rw [hnone, List.map_nil, List.length_nil, List.length_map] at hlength
      exact Or.inr (List.length_eq_zero_iff.1 (Nat.le_zero.1 hlength))
    · exact Or.inl hnone
  constructor
  case sorted => exact Gap.fill_sorted (hqueues.sorted.sublist anchor.gap_sublist) _
  case nodup => exact anchor.nodup_fill hqueues.nodup hleft
  case queued =>
    intro number
    rw [anchor.cut.2.numbered_fill left (hone number), List.map_append]
    refine ((List.Sublist.refl _).append (hnumbers number)).trans ?_
    rw [← List.map_append]
    unfold requeue
    cases hturns : anchor.turns with
    | false =>
      rw [Anchor.numbered_cut hqueues.sorted hturns]
      exact hqueues.queued number
    | true =>
      obtain ⟨hnone, hbefore, hafter, hothers⟩ :=
        Anchor.numbered_cut_of_turns hqueues.sorted hturns (hfirst hturns)
      have hline := hqueues.queued number
      rw [hnone, if_pos rfl]
      change ((numbered number anchor.cut.1).map Waiting.arrival).Sublist _
      by_cases hnumber : number = anchor.entry.sequence
      · subst hnumber
        rw [hbefore, List.map_cons] at hline
        have hbehind := hline.erase anchor.entry.arrival
        rw [List.erase_cons_head] at hbehind
        rw [hafter, List.map_append]
        exact hbehind.append (List.Sublist.refl _)
      · have hfresh : anchor.entry.arrival ∉
            (numbered number anchor.entries).map Waiting.arrival := by
          intro hmem
          obtain ⟨other, hother, hsame⟩ := List.mem_map.1 hmem
          obtain ⟨hinside, hsequence⟩ := mem_numbered.1 hother
          have hentry : anchor.entry ∈ anchor.entries :=
            List.mem_append_right _ List.mem_cons_self
          rw [List.inj_on_of_nodup_map hqueues.nodup hinside hentry hsame] at hsequence
          exact hnumber hsequence.symm
        have hbehind := hline.erase anchor.entry.arrival
        rw [List.erase_of_not_mem hfresh] at hbehind
        rw [hothers number hnumber]
        exact hbehind.trans (List.sublist_append_left _ _)

/-- As long as the line is in order of arrival, so is the window. -/
theorem inOrderOfArrival (hqueues : Queues window line) (hline : line.Pairwise (· < ·)) :
    InOrderOfArrival window := by
  refine List.pairwise_iff_forall_sublist.2 fun {entry later} hpair => ?_
  have hle := notAfter_iff.1 (List.pairwise_iff_forall_sublist.1 hqueues.sorted hpair)
  rcases Nat.lt_or_eq_of_le hle with hlt | heq
  · exact Or.inl hlt
  · have hsame := Waiting.sequence_eq_iff.2 heq
    have hnumbered : numbered later.sequence [entry, later] = [entry, later] :=
      List.filter_eq_self.2 (by simp [hsame])
    have hwaits := (numbered_sublist hpair later.sequence).map Waiting.arrival
    rw [hnumbered] at hwaits
    have hqueued := hwaits.trans (hqueues.queued later.sequence)
    exact Or.inr ⟨hsame, List.pairwise_iff_forall_sublist.1 hline hqueued⟩

end Queues

/-! ## Calls -/

namespace Reassembler

/-- Where the runs with the given first numbers are cut out, as far as no walk faults. -/
def headAnchors (answers : Nat → Answer) : List SequenceNumber → Reassembler → Nat → List Anchor
  | [], _, _ => []
  | head :: later, reassembler, delivered =>
    match Window.anchorAt? head reassembler.window with
    | none => headAnchors answers later reassembler delivered
    | some anchor =>
      let walked := reassembler.walkRun answers anchor delivered
      anchor ::
        match walked.value with
        | .error _ => []
        | .ok total => headAnchors answers later walked.state total

def callAnchors (reassembler : Reassembler) : ReassemblerCall → List Anchor
  | .process (some segment) now _ =>
    [Window.anchorFor (reassembler.arriving segment now) reassembler.window]
  | .process none _ answers =>
    headAnchors answers.packet (Window.runHeads reassembler.window) reassembler 0
  | .evict _ | .clear | .setMultiplier _ => []

def anchors : Reassembler → List ReassemblerCall → List Anchor
  | _, [] => []
  | reassembler, call :: later =>
    reassembler.callAnchors call ++ (reassembler.perform call).state.anchors later

/-- The line after a call: whoever arrives goes to its end, and then whoever turns. -/
def lineThrough (reassembler : Reassembler) (line : List Nat) (call : ReassemblerCall) : List Nat :=
  (reassembler.callAnchors call).foldl requeue
    (line ++ (reassembler.newcomers call).map Waiting.arrival)

def lineAfter : Reassembler → List Nat → List ReassemblerCall → List Nat
  | _, line, [] => line
  | reassembler, line, call :: later =>
    (reassembler.perform call).state.lineAfter (reassembler.lineThrough line call) later

/-- All arrivals are in line, and those that are in the window wait in its order. -/
structure Lined (reassembler : Reassembler) (line : List Nat) : Prop where
  queues : Queues reassembler.window line
  perm : line.Perm (List.range' 1 reassembler.arrivals)

variable {reassembler : Reassembler} {line : List Nat}

theorem Lined.arrival_le (hlined : reassembler.Lined line) :
    ∀ arrival ∈ line, arrival ≤ reassembler.arrivals := by
  intro arrival harrival
  have hplace := hlined.perm.subset harrival
  rw [List.mem_range'_1] at hplace
  omega

/-- The walk of a run leaves a line. -/
theorem Lined.walkRun {anchor : Anchor} (hqueues : Queues anchor.entries line)
    (hperm : line.Perm (List.range' 1 reassembler.arrivals))
    (hfirst : anchor.turns = true →
      ∀ other ∈ anchor.before, other.sequence ≠ anchor.entry.sequence)
    (answers : Nat → Answer) (delivered : Nat) :
    (reassembler.walkRun answers anchor delivered).state.Lined (requeue line anchor) where
  queues := by
    have hleft := (reassembler.tourOf answers anchor delivered).disposes.2
    exact hqueues.walk hfirst hleft
  perm := by
    have hentry : anchor.entry ∈ anchor.entries := List.mem_append_right _ List.mem_cons_self
    exact (requeue_perm (hqueues.mem_line _ hentry)).trans hperm

theorem Lined.walkHeads (hlined : reassembler.Lined line) (answers : Nat → Answer)
    (heads : List SequenceNumber) (delivered : Nat) :
    (Reassembler.walkHeads answers heads reassembler delivered).state.Lined
      ((headAnchors answers heads reassembler delivered).foldl requeue line) := by
  induction heads generalizing reassembler line delivered with
  | nil => exact hlined
  | cons head later ih =>
    rw [Reassembler.walkHeads, headAnchors]
    cases hanchor : Window.anchorAt? head reassembler.window with
    | none => exact ih hlined delivered
    | some anchor =>
      obtain ⟨hsequence, hbefore⟩ := Window.anchorAt?_spec hanchor
      have hqueues := hlined.queues
      rw [← Window.entries_anchorAt? hanchor] at hqueues
      have hwalked := Lined.walkRun hqueues hlined.perm
        (fun _ other hother hsame => by
          have hless := hbefore other hother
          rw [hsame, hsequence] at hless
          exact Nat.lt_irrefl _ hless) answers delivered
      simp only [List.foldl_cons]
      cases hvalue : (reassembler.walkRun answers anchor delivered).value with
      | error fault => exact hwalked
      | ok total => exact ih hwalked total

theorem Lined.arrival_notMem (hlined : reassembler.Lined line) (segment : Segment)
    (now : Instant) : (reassembler.arriving segment now).arrival ∉ line :=
  fun hmem => Nat.not_succ_le_self _ (hlined.arrival_le _ hmem)

/-- Taking a segment in never makes an anchor turn. -/
theorem Lined.turns_anchorFor (hlined : reassembler.Lined line) (segment : Segment)
    (now : Instant) :
    (Window.anchorFor (reassembler.arriving segment now) reassembler.window).turns = false :=
  (hlined.queues.arrive (hlined.arrival_notMem segment now)).2

theorem Lined.receive (hlined : reassembler.Lined line) (segment : Segment) (now : Instant)
    (answers : ReassemblerAnswers) :
    (reassembler.receive segment now answers).state.Lined
      (requeue (line ++ [reassembler.arrivals + 1])
        (Window.anchorFor (reassembler.arriving segment now) reassembler.window)) := by
  obtain ⟨refused, front, hreport, -⟩ := reassembler.report_eq segment.header answers.request
  obtain ⟨anchor, hanchor⟩ : ∃ anchor,
      anchor = Window.anchorFor (reassembler.arriving segment now) reassembler.window := ⟨_, rfl⟩
  have hturns := hlined.turns_anchorFor segment now
  have hqueues : Queues anchor.entries (line ++ [reassembler.arrivals + 1]) :=
    hanchor ▸ (hlined.queues.arrive (hlined.arrival_notMem segment now)).1
  have hperm : (line ++ [reassembler.arrivals + 1]).Perm
      (List.range' 1 (reassembler.arrivals + 1)) := by
    rw [List.range'_1_concat, Nat.add_comm 1]
    exact hlined.perm.append_right _
  let received : Reassembler :=
    { reassembler with refusals := refused, arrivals := reassembler.arrivals + 1 }
  have hwalked : (received.walkRun answers.packet anchor 0).state.Lined
      (requeue (line ++ [reassembler.arrivals + 1]) anchor) := by
    refine Lined.walkRun hqueues hperm (fun hturned => ?_) answers.packet 0
    rw [hanchor, hturns] at hturned
    cases hturned
  simp only [Reassembler.receive, hreport, ← hanchor]
  rw [hanchor] at hwalked ⊢
  exact hwalked

theorem Lined.evict (hlined : reassembler.Lined line) (now : Instant) :
    (reassembler.evict now).state.Lined line where
  queues := hlined.queues.sublist (reassembler.evict_sublist now)
  perm := hlined.perm

/-- Every call leaves a line. -/
theorem Lined.perform (hlined : reassembler.Lined line) (call : ReassemblerCall) :
    (reassembler.perform call).state.Lined (reassembler.lineThrough line call) := by
  cases call with
  | process arriving now answers =>
    have hwalked : (reassembler.walkFor arriving now answers).state.Lined
        (reassembler.lineThrough line (.process arriving now answers)) := by
      cases arriving with
      | some segment => exact hlined.receive segment now answers
      | none =>
        have hheads := hlined.walkHeads answers.packet (Window.runHeads reassembler.window) 0
        rwa [lineThrough, newcomers, Option.toList_none, List.map_nil, List.map_nil,
          List.append_nil]
    simp only [Reassembler.perform, answering, process_eq]
    split
    · exact hwalked
    · exact hwalked.evict now
  | evict now =>
    rw [lineThrough, newcomers, List.map_nil, List.append_nil]
    exact hlined.evict now
  | clear =>
    rw [lineThrough, newcomers, List.map_nil, List.append_nil]
    exact ⟨hlined.queues.sublist (List.nil_sublist _), hlined.perm⟩
  | setMultiplier multiplier =>
    obtain ⟨-, hwindow, harrivals⟩ := reassembler.perform_setMultiplier multiplier
    rw [lineThrough, newcomers, List.map_nil, List.append_nil]
    constructor
    · rw [hwindow]
      exact hlined.queues
    · rw [harrivals]
      exact hlined.perm

theorem Lined.run (hlined : reassembler.Lined line) (calls : List ReassemblerCall) :
    (reassembler.run calls).state.Lined (reassembler.lineAfter line calls) := by
  induction calls generalizing reassembler line with
  | nil => exact hlined
  | cons call later ih => exact ih (hlined.perform call)

theorem foldl_requeue_of_steady {anchors : List Anchor}
    (hsteady : ∀ anchor ∈ anchors, anchor.turns = false) (line : List Nat) :
    anchors.foldl requeue line = line := by
  induction anchors with
  | nil => rfl
  | cons anchor later ih =>
    obtain ⟨hfirst, hlater⟩ := List.forall_mem_cons.1 hsteady
    rw [List.foldl_cons, requeue, hfirst, if_neg Bool.false_ne_true, ih hlater]

/-- Without a turn, arrivals are in line in their order. -/
theorem Lined.pairwise_lineAfter (hlined : reassembler.Lined line)
    (hline : line.Pairwise (· < ·)) (calls : List ReassemblerCall)
    (hsteady : ∀ anchor ∈ reassembler.anchors calls, anchor.turns = false) :
    (reassembler.lineAfter line calls).Pairwise (· < ·) := by
  induction calls generalizing reassembler line with
  | nil => exact hline
  | cons call later ih =>
    rw [anchors, List.forall_mem_append] at hsteady
    have hthrough : reassembler.lineThrough line call =
        line ++ (reassembler.newcomers call).map Waiting.arrival :=
      foldl_requeue_of_steady hsteady.1 _
    refine ih (hlined.perform call) ?_ hsteady.2
    rw [hthrough]
    have hnew : (reassembler.newcomers call).map Waiting.arrival = [] ∨
        (reassembler.newcomers call).map Waiting.arrival = [reassembler.arrivals + 1] := by
      cases call with
      | process arriving now answers =>
        cases arriving with
        | some segment => exact Or.inr rfl
        | none => exact Or.inl rfl
      | evict now => exact Or.inl rfl
      | clear => exact Or.inl rfl
      | setMultiplier multiplier => exact Or.inl rfl
    rcases hnew with hnone | hone
    · rwa [hnone, List.append_nil]
    · rw [hone]
      refine List.pairwise_append.2 ⟨hline, List.pairwise_singleton _ _, ?_⟩
      intro arrival harrival other hother
      rw [List.mem_singleton.1 hother]
      exact Nat.lt_succ_of_le (hlined.arrival_le arrival harrival)

/-- How segments with the same number wait, after any calls.  The window is ordered by number, and
segments with the same number are in the order of a line: whoever arrives goes to its end, and so
does an anchor that turns, which only happens in calls that walk every run.  As long as none has
turned, segments with the same number are in order of arrival. -/
theorem run_queuesDuplicates (settings : ReassemblerSettings) (calls : List ReassemblerCall) :
    let reassembler := ((start settings).run calls).state
    let line := (start settings).lineAfter [] calls
    Window.Sorted reassembler.window ∧
      (∀ number, ((Window.numbered number reassembler.window).map Waiting.arrival).Sublist line) ∧
      line.Perm (List.range' 1 reassembler.arrivals) ∧
      (∀ segment now answers, ∀ anchor ∈
        reassembler.callAnchors (.process (some segment) now answers), anchor.turns = false) ∧
      ((∀ anchor ∈ (start settings).anchors calls, anchor.turns = false) →
        Window.InOrderOfArrival reassembler.window) := by
  intro reassembler line
  have hstart : (start settings).Lined [] :=
    ⟨⟨List.Pairwise.nil, List.nodup_nil, fun _ => List.nil_sublist _⟩, .refl _⟩
  have hlined : reassembler.Lined line := hstart.run calls
  refine ⟨hlined.queues.sorted, hlined.queues.queued, hlined.perm, ?_, fun hsteady => ?_⟩
  · intro segment now answers
    exact List.forall_mem_singleton.2 (hlined.turns_anchorFor segment now)
  · exact hlined.queues.inOrderOfArrival
      (hstart.pairwise_lineAfter List.Pairwise.nil calls hsteady)

/-- Two segments with one number beside a third that is not adjacent to them, and a call that walks
both runs: nobody turns, and the two stay in order of arrival. -/
theorem run_queuesDuplicates_apart :
    let answers : ReassemblerAnswers := { request := .accepted, packet := fun _ => .accepted }
    let takesIn (number : UInt16) : ReassemblerCall :=
      .process (some { header := { SegmentHeader.blank with sequence := number },
                       payload := .ofPacket (.raw 0 [7]) }) .zero answers
    let calls := [takesIn 5, takesIn 9, takesIn 5, .process none .zero answers]
    ((start .standard).run calls).state.window.map Waiting.arrival = [1, 3, 2] ∧
      (∀ anchor ∈ (start .standard).anchors calls, anchor.turns = false) ∧
      Window.InOrderOfArrival ((start .standard).run calls).state.window := by
  intro answers takesIn calls
  have hwindow : ((start .standard).run calls).state.window.map Waiting.arrival = [1, 3, 2] := by
    cbv
  have hturns : ((start .standard).anchors calls).map Anchor.turns = List.replicate 5 false := by
    cbv
  have hsteady : ∀ anchor ∈ (start .standard).anchors calls, anchor.turns = false := by
    intro anchor hanchor
    exact List.eq_of_mem_replicate (hturns ▸ List.mem_map_of_mem hanchor)
  obtain ⟨-, -, -, -, hordered⟩ := run_queuesDuplicates .standard calls
  exact ⟨hwindow, hsteady, hordered hsteady⟩

/-- Two segments with one number, read from the wire, and a call that walks every run: the ring
closes on itself, the run begins with the second one, and the first one is put back behind it. -/
theorem run_reordersDuplicates :
    let answers : ReassemblerAnswers := { request := .accepted, packet := fun _ => .accepted }
    let first : Segment := .ofContent 0 SegmentHeader.blank [1]
    let second : Segment := .ofContent 1 SegmentHeader.blank [2, 3]
    let calls : List ReassemblerCall := [.process (some first) .zero answers,
      .process (some second) .zero answers, .process none .zero answers]
    Segment.ofWire 0 [0, 0, 0, 0, 0, 0, 0, 0, 1] = .ok first ∧
      Segment.ofWire 1 [0, 0, 0, 0, 0, 0, 0, 0, 2, 3] = .ok second ∧
      ((start .standard).run calls).state.window.map Waiting.label = [(second, 2), (first, 1)] ∧
      ¬ Window.InOrderOfArrival ((start .standard).run calls).state.window := by
  intro answers first second calls
  have hwindow : ((start .standard).run calls).state.window.map Waiting.label =
      [(second, 2), (first, 1)] := by
    cbv
  refine ⟨rfl, rfl, hwindow, fun hordered => ?_⟩
  have hlabels : (((start .standard).run calls).state.window.map Waiting.label).Pairwise
      fun label later => label.1.sequence.value < later.1.sequence.value ∨
        label.1.sequence = later.1.sequence ∧ label.2 < later.2 :=
    List.pairwise_map.2 hordered
  rw [hwindow] at hlabels
  revert hlabels
  decide

end Reassembler

end Ccf
