import Ccf.Reassembly.Window
import Mathlib.Data.List.Chain
import Mathlib.Data.List.TakeWhile
import Mathlib.Data.List.Nodup
import Mathlib.Data.List.Rotate

/-!
# Runs cut out of a window

A window is read as a ring that starts at the anchor: the entries after it, then those before it
from the first one on.  `Anchor.cut` takes a front part and a back part of that ring, so that the
back part, the anchor and the front part are a chain of entries that follow each other, and what is
left begins and ends with entries that do not belong to the chain.  Putting entries back keeps the
window ordered.

In an ordered window, nothing that is left is adjacent to any entry of the run.  Read from the run
on, the ring gets ever farther from its beginning, and it does not come so far round that it would
be next to it again.
-/

namespace Ccf

namespace Window

def Sorted (window : List Waiting) : Prop :=
  window.Pairwise fun entry later => entry.notAfter later = true

theorem notAfter_iff {entry other : Waiting} :
    entry.notAfter other = true ↔ entry.sequence.value ≤ other.sequence.value :=
  decide_eq_true_iff

theorem notAfter_trans (entry other third : Waiting) (hfirst : entry.notAfter other = true)
    (hsecond : other.notAfter third = true) : entry.notAfter third = true := by
  rw [notAfter_iff] at *
  exact Nat.le_trans hfirst hsecond

theorem notAfter_total (entry other : Waiting) :
    (entry.notAfter other || other.notAfter entry) = true := by
  rw [Bool.or_eq_true, notAfter_iff, notAfter_iff]
  exact Nat.le_total _ _

theorem sorted_of_isOrdered {window : List Waiting} (hordered : isOrdered window = true) :
    Sorted window := by
  induction window with
  | nil => exact List.Pairwise.nil
  | cons entry rest ih =>
    cases rest with
    | nil => exact List.pairwise_singleton _ _
    | cons next later =>
      rw [isOrdered, Bool.and_eq_true] at hordered
      have hrest := ih hordered.2
      refine List.pairwise_cons.2 ⟨fun other hother => ?_, hrest⟩
      rcases List.mem_cons.1 hother with rfl | hlater
      · exact hordered.1
      · exact notAfter_trans _ _ _ hordered.1 ((List.pairwise_cons.1 hrest).1 other hlater)

theorem pass_eq (toPass : Waiting → Bool) (passed window : List Waiting) :
    pass toPass passed window =
      ((window.takeWhile toPass).reverse ++ passed, window.dropWhile toPass) := by
  induction window generalizing passed with
  | nil => rfl
  | cons entry rest ih =>
    rw [pass, List.takeWhile_cons, List.dropWhile_cons]
    split
    · rw [ih, List.reverse_cons, List.append_assoc]
      rfl
    · rfl

/-- The place of an entry divides the window. -/
theorem anchorFor_eq (entry : Waiting) (window : List Waiting) :
    (anchorFor entry window).entry = entry ∧
      (anchorFor entry window).before.reverse ++ (anchorFor entry window).after = window := by
  simp only [anchorFor, pass_eq, List.append_nil, List.reverse_reverse,
    List.takeWhile_append_dropWhile, and_self]

/-- The entry with a given number is one of the window. -/
theorem anchorAt?_eq {sequence : SequenceNumber} {window : List Waiting} {anchor : Anchor}
    (hanchor : anchorAt? sequence window = some anchor) :
    anchor.before.reverse ++ anchor.entry :: anchor.after = window := by
  rw [anchorAt?, pass_eq, List.append_nil] at hanchor
  split at hanchor
  · cases hanchor
  · rename_i before entry after hpass
    obtain ⟨rfl, hafter⟩ := Prod.mk.inj hpass
    split at hanchor
    · cases hanchor
      rw [List.reverse_reverse, ← hafter, List.takeWhile_append_dropWhile]
    · cases hanchor

/-- In a sorted window, the numbers before the place of an entry are not greater, and those after
it are. -/
theorem anchorFor_spec (entry : Waiting) {window : List Waiting} (hwindow : Sorted window) :
    (∀ other ∈ (anchorFor entry window).before, other.notAfter entry = true) ∧
      ∀ other ∈ (anchorFor entry window).after, other.notAfter entry = false := by
  simp only [anchorFor, pass_eq, List.append_nil]
  constructor
  · intro other hother
    have htaken := List.mem_reverse.1 hother
    exact (List.all_eq_true.1 List.all_takeWhile) other htaken
  · intro other hother
    cases hrest : window.dropWhile fun other => other.notAfter entry with
    | nil => simp [hrest] at hother
    | cons first rest =>
      have hsuffix : (first :: rest) <:+ window := hrest ▸ List.dropWhile_suffix _
      have hfirst : first.notAfter entry = false := by
        have hhead := List.head?_dropWhile_not (fun other => other.notAfter entry) window
        rw [hrest] at hhead
        simpa using hhead
      rw [hrest] at hother
      rcases List.mem_cons.1 hother with rfl | hlater
      · exact hfirst
      · rw [Bool.eq_false_iff] at hfirst ⊢
        intro hle
        have hsorted := List.Pairwise.sublist hsuffix.sublist hwindow
        have hnext := (List.pairwise_cons.1 hsorted).1 other hlater
        exact hfirst (notAfter_trans _ _ _ hnext hle)

end Window

namespace Gap

open Window

theorem window_eq (gap : Gap) : gap.window = gap.before.reverse ++ gap.after :=
  List.reverseAux_eq

/-- Nothing is lost or added when entries are put back. -/
theorem fill_perm (gap : Gap) (entries : List Waiting) :
    (gap.fill entries).Perm (gap.window ++ entries) := by
  unfold fill
  split
  · rw [List.reverseAux_eq, window_eq, List.append_assoc]
    exact List.perm_append_comm.append_left _
  · have hmerge : (gap.window.merge (entries.mergeSort Waiting.notAfter) Waiting.notAfter).Perm
        (gap.window ++ entries.mergeSort Waiting.notAfter) := List.merge_perm_append _
    exact hmerge.trans ((List.mergeSort_perm _ _).append_left _)

theorem fill_sorted {gap : Gap} (hgap : Sorted gap.window) (entries : List Waiting) :
    Sorted (gap.fill entries) := by
  unfold fill
  split
  · rename_i hfits
    rw [fits, Bool.and_eq_true] at hfits
    obtain ⟨hfront, hback⟩ := hfits
    rw [window_eq] at hgap
    obtain ⟨hbefore, hafter, hcross⟩ := List.pairwise_append.1 hgap
    obtain ⟨hhead, hentries, hnext⟩ := List.pairwise_append.1 (sorted_of_isOrdered hfront)
    -- The neighbours of the gap bound everything on their side of it.
    have hlower : ∀ other ∈ gap.before.reverse, ∀ entry ∈ entries,
        other.notAfter entry = true := by
      intro other hother entry hentry
      cases hcase : gap.before with
      | nil => simp [hcase] at hother
      | cons nearest rest =>
        have hnearest := hnext nearest (by simp [hcase]) entry hentry
        rw [hcase, List.reverse_cons] at hother hbefore
        rcases List.mem_append.1 hother with hfar | hsame
        · apply notAfter_trans _ _ _ _ hnearest
          exact (List.pairwise_append.1 hbefore).2.2 other hfar nearest (by simp)
        · rwa [List.mem_singleton.1 hsame]
    have hupper : ∀ entry ∈ entries, ∀ other ∈ gap.after, entry.notAfter other = true := by
      intro entry hentry other hother
      cases hcase : gap.after with
      | nil => simp [hcase] at hother
      | cons nearest rest =>
        obtain ⟨last, hlast⟩ : ∃ last, entries.getLast? = some last :=
          ⟨_, List.getLast?_eq_some_getLast (List.ne_nil_of_mem hentry)⟩
        rw [hlast, hcase] at hback
        have hentrylast : entry.notAfter last = true := by
          obtain ⟨front, rfl⟩ := List.getLast?_eq_some_iff.1 hlast
          rcases List.mem_append.1 hentry with hearly | hsame
          · exact (List.pairwise_append.1 hentries).2.2 entry hearly last (by simp)
          · rw [List.mem_singleton.1 hsame, notAfter_iff]
        have hnearest := notAfter_trans _ _ _ hentrylast (by simpa using hback)
        rw [hcase] at hother hafter
        rcases List.mem_cons.1 hother with rfl | hlater
        · exact hnearest
        · exact notAfter_trans _ _ _ hnearest ((List.pairwise_cons.1 hafter).1 other hlater)
    rw [List.reverseAux_eq]
    refine List.pairwise_append.2 ⟨hbefore, List.pairwise_append.2 ⟨hentries, hafter, hupper⟩, ?_⟩
    intro other hother entry hentry
    rcases List.mem_append.1 hentry with hnew | hold
    · exact hlower other hother entry hnew
    · exact hcross other hother entry hold
  · exact List.pairwise_merge notAfter_trans notAfter_total _ _ hgap
      (List.pairwise_mergeSort notAfter_trans notAfter_total _)

end Gap

namespace Anchor

/-- What an extension of a chain that ends with `last` takes: `taken` from the front of the ring
made of `side` and, behind it, `other` from its far end; `side'` and `other'` are left. -/
structure Extension (adjacent : Waiting → Waiting → Bool) (last : Waiting)
    (side other taken side' other' : List Waiting) : Prop where
  ring_eq : side ++ other.reverse = taken ++ (side' ++ other'.reverse)
  chained : List.IsChain (fun previous entry => adjacent previous entry = true) (last :: taken)
  stops : ∀ entry, (side' ++ other'.reverse).head? = some entry →
    adjacent (taken.getLastD last) entry = false
  side_sublist : side'.Sublist side
  other_sublist : other'.Sublist other

/-- Extending a chain moves entries over, up to the first that is not adjacent. -/
theorem extend_spec (adjacent : Waiting → Waiting → Bool) (last : Waiting)
    (chain entries : List Waiting) :
    ∃ taken left, extend adjacent (last :: chain) entries = (taken.reverse ++ last :: chain, left) ∧
      entries = taken ++ left ∧
      List.IsChain (fun previous entry => adjacent previous entry = true) (last :: taken) ∧
      ∀ entry, left.head? = some entry → adjacent (taken.getLastD last) entry = false := by
  induction entries generalizing last chain with
  | nil => exact ⟨[], [], rfl, rfl, List.isChain_singleton _, by simp⟩
  | cons entry rest ih =>
    rw [extend]
    split
    · rename_i hadjacent
      obtain ⟨taken, left, heq, hsplit, hchain, hstop⟩ := ih entry (last :: chain)
      refine ⟨entry :: taken, left, ?_, by rw [hsplit, List.cons_append],
        List.isChain_cons_cons.2 ⟨hadjacent, hchain⟩, ?_⟩
      · rw [heq, List.reverse_cons, List.append_assoc]
        rfl
      · rwa [List.getLastD_cons]
    · rename_i hadjacent
      refine ⟨[], entry :: rest, rfl, rfl, List.isChain_singleton _, ?_⟩
      intro other hother
      cases hother
      simpa using hadjacent

theorem exists_cons_of_reverse_append (taken : List Waiting) (last : Waiting)
    (chain : List Waiting) :
    ∃ rest, taken.reverse ++ last :: chain = taken.getLastD last :: rest := by
  cases taken.eq_nil_or_concat with
  | inl hnil => exact ⟨chain, by rw [hnil]; rfl⟩
  | inr hconcat =>
    obtain ⟨front, final, rfl⟩ := hconcat
    exact ⟨front.reverse ++ last :: chain, by
      rw [List.concat_eq_append, List.getLastD_concat, List.reverse_concat, List.cons_append]⟩

/-- Extending a chain around the ring. -/
theorem extendAround_extension (adjacent : Waiting → Waiting → Bool) (last : Waiting)
    (chain side other : List Waiting) :
    ∃ taken side' other',
      extendAround adjacent (last :: chain) side other =
        (taken.reverse ++ last :: chain, side', other') ∧
      Extension adjacent last side other taken side' other' := by
  obtain ⟨taken, left, heq, hsplit, hchain, hstop⟩ := extend_spec adjacent last chain side
  obtain ⟨rest, hrest⟩ := exists_cons_of_reverse_append taken last chain
  cases left with
  | cons next later =>
    refine ⟨taken, next :: later, other, by rw [extendAround, heq], ?_, hchain, ?_, ?_,
      List.Sublist.refl _⟩
    · rw [hsplit, List.append_assoc]
    · simpa using hstop
    · rw [hsplit]
      exact List.sublist_append_right _ _
  | nil =>
    rw [List.append_nil] at hsplit
    subst hsplit
    simp only [extendAround, heq, hrest]
    by_cases hfar : ((side.getLastD last :: rest).head?.any
        fun last => other.getLast?.any (adjacent last)) = true
    · simp only [hfar, if_true]
      obtain ⟨more, left, hmore, hother, hfurther, hend⟩ :=
        extend_spec adjacent (side.getLastD last) rest other.reverse
      refine ⟨side ++ more, [], left.reverse, ?_, ?_, ?_, ?_, List.nil_sublist _, ?_⟩
      · rw [hmore, ← hrest, List.reverse_append, List.append_assoc]
      · rw [hother, List.nil_append, List.reverse_reverse, List.append_assoc]
      · rw [← List.cons_append]
        cases hside : side.eq_nil_or_concat with
        | inl hnil =>
          subst hnil
          exact hfurther
        | inr hconcat =>
          obtain ⟨front, final, rfl⟩ := hconcat
          rw [List.concat_eq_append, List.getLastD_concat] at hfurther
          rw [List.concat_eq_append, ← List.cons_append, List.append_assoc] at *
          exact List.isChain_split.2 ⟨hchain, hfurther⟩
      · rw [List.nil_append, List.reverse_reverse]
        intro entry hentry
        have hlast : (side ++ more).getLastD last = more.getLastD (side.getLastD last) := by
          simp only [List.getLastD_eq_getLast?, List.getLast?_append]
          cases more.getLast? <;> rfl
        rw [hlast]
        exact hend entry hentry
      · have hleft : left.reverse.Sublist other.reverse.reverse :=
          List.reverse_sublist.2 (hother ▸ List.sublist_append_right _ _)
        rwa [List.reverse_reverse] at hleft
    · simp only [hfar, Bool.false_eq_true, if_false]
      rw [List.head?_cons, Option.any_some] at hfar
      refine ⟨side, [], other, by rw [hrest], by simp, hchain, ?_, List.nil_sublist _,
        List.Sublist.refl _⟩
      intro entry hentry
      rw [List.nil_append, List.head?_reverse] at hentry
      simpa [hentry] using hfar

/-- What cutting the longest run through an anchor gives. -/
structure CutsRun (anchor : Anchor) (run : List Waiting) (gap : Gap)
    (earlier later between : List Waiting) : Prop where
  run_eq : run = earlier ++ anchor.entry :: later
  ring_eq : anchor.after ++ anchor.before.reverse = later ++ between ++ earlier
  chained : List.IsChain (fun previous entry => entry.follows previous = true) run
  stops_after : ∀ entry, between.head? = some entry →
    entry.follows (later.getLastD anchor.entry) = false
  stops_before : ∀ entry, between.getLast? = some entry →
    (earlier.headD anchor.entry).follows entry = false
  window_perm : gap.window.Perm between
  window_sublist : gap.window.Sublist (anchor.before.reverse ++ anchor.after)

/-- A run is cut in two extensions of the anchor, the first one backwards. -/
theorem cut_extensions (anchor : Anchor) :
    ∃ back before after later before' after',
      Extension (fun first entry => first.follows entry) anchor.entry anchor.before anchor.after
        back before after ∧
      Extension (fun last entry => entry.follows last) anchor.entry after before
        later after' before' ∧
      anchor.cut = (back.reverse ++ anchor.entry :: later,
        { before := before', after := after' }) := by
  obtain ⟨back, before, after, hback, hbackward⟩ :=
    extendAround_extension (fun first entry => first.follows entry) anchor.entry []
      anchor.before anchor.after
  have hreverse : (back.reverse ++ [anchor.entry]).reverse = anchor.entry :: back := by simp
  obtain ⟨later, after', before', hfront, hforward⟩ :=
    extendAround_extension (fun last entry => entry.follows last) anchor.entry back after before
  refine ⟨back, before, after, later, before', after', hbackward, hforward, ?_⟩
  simp only [cut, hback, hreverse, hfront]
  simp

theorem cut_cutsRun (anchor : Anchor) :
    ∃ earlier later between, CutsRun anchor anchor.cut.1 anchor.cut.2 earlier later between := by
  obtain ⟨back, before, after, later, before', after', hbackward, hforward, hcut⟩ :=
    anchor.cut_extensions
  have hring := congrArg List.reverse hbackward.ring_eq
  simp only [List.reverse_append, List.reverse_reverse] at hring
  rw [hforward.ring_eq] at hring
  refine ⟨back.reverse, later, after' ++ before'.reverse, ?_, ?_, ?_, ?_, ?_, ?_, ?_⟩
  · rw [hcut]
  · rw [hring]
  · rw [hcut]
    refine List.isChain_split.2 ⟨?_, hforward.chained⟩
    have hchained := List.isChain_reverse.2 hbackward.chained
    rwa [List.reverse_cons] at hchained
  · exact hforward.stops
  · intro entry hentry
    have hfar : (before ++ after.reverse).head? = some entry := by
      rw [← List.getLast?_reverse, List.reverse_append, List.reverse_reverse, hforward.ring_eq,
        List.getLast?_append, hentry, Option.some_or]
    have hstop := hbackward.stops entry hfar
    rwa [List.headD_eq_head?_getD, List.head?_reverse, ← List.getLastD_eq_getLast?]
  · rw [hcut, Gap.window_eq]
    exact List.perm_append_comm
  · rw [hcut, Gap.window_eq]
    exact (List.reverse_sublist.2 (hforward.other_sublist.trans hbackward.side_sublist)).append
      (hforward.side_sublist.trans hbackward.other_sublist)

/-- What is left of the window keeps its order. -/
theorem others_sublist (anchor : Anchor) :
    anchor.cut.2.window.Sublist (anchor.before.reverse ++ anchor.after) := by
  obtain ⟨earlier, later, between, hcut⟩ := anchor.cut_cutsRun
  exact hcut.window_sublist

/-- A run and what is left of the window have the entries around the anchor. -/
theorem cut_perm (anchor : Anchor) :
    (anchor.cut.2.window ++ anchor.cut.1).Perm
      (anchor.before.reverse ++ anchor.entry :: anchor.after) := by
  obtain ⟨earlier, later, between, hcut⟩ := anchor.cut_cutsRun
  calc (anchor.cut.2.window ++ anchor.cut.1).Perm
        (between ++ anchor.cut.1) := hcut.window_perm.append_right _
    _ = between ++ (earlier ++ anchor.entry :: later) := by rw [hcut.run_eq]
    List.Perm _ (anchor.entry :: (later ++ between ++ earlier)) := by
      rw [List.perm_iff_count]
      intro other
      simp only [List.count_append, List.count_cons]
      omega
    _ = anchor.entry :: (anchor.after ++ anchor.before.reverse) := by rw [hcut.ring_eq]
    List.Perm _ (anchor.before.reverse ++ anchor.entry :: anchor.after) :=
      (List.perm_append_comm.cons _).trans List.perm_middle.symm

end Anchor

namespace Window

/-- The run through a new entry and what is left of the window have the entries of the window and
the new one. -/
theorem cut_perm (entry : Waiting) (window : List Waiting) :
    ((anchorFor entry window).cut.2.window ++ (anchorFor entry window).cut.1).Perm
      (entry :: window) := by
  obtain ⟨hentry, hring⟩ := anchorFor_eq entry window
  have hperm := (anchorFor entry window).cut_perm
  rw [hentry] at hperm
  refine hperm.trans (List.perm_middle.trans (List.Perm.of_eq ?_))
  rw [hring]

theorem gap_sublist (entry : Waiting) (window : List Waiting) :
    (anchorFor entry window).cut.2.window.Sublist window := by
  obtain ⟨-, hring⟩ := anchorFor_eq entry window
  have hsublist := (anchorFor entry window).others_sublist
  rwa [hring] at hsublist

end Window

/-! ## Rings -/

section Ordered

variable {α : Type} {key : α → Nat} {entries : List α}
  (hordered : entries.Pairwise fun entry later => key entry ≤ key later)
include hordered

theorem key_le_of_getLast? {last : α} (hlast : entries.getLast? = some last) :
    ∀ entry ∈ entries, key entry ≤ key last := by
  obtain ⟨front, rfl⟩ := List.getLast?_eq_some_iff.1 hlast
  have hcross := (List.pairwise_append.1 hordered).2.2
  intro entry hentry
  rcases List.mem_append.1 hentry with hearly | hsame
  · exact hcross entry hearly last (List.mem_singleton_self _)
  · rw [List.mem_singleton.1 hsame]

theorem le_key_of_head? {first : α} (hfirst : entries.head? = some first) :
    ∀ entry ∈ entries, key first ≤ key entry := by
  obtain ⟨rest, rfl⟩ := List.head?_eq_some_iff.1 hfirst
  exact List.forall_mem_cons.2 ⟨Nat.le_refl _, (List.pairwise_cons.1 hordered).1⟩

end Ordered

/-- Reading a list as a ring takes a part of it from its front to its end. -/
theorem exists_parts_of_isRotated {α : Type} {list : List α} {first : α} {rest : List α}
    (hring : list ~r first :: rest) :
    ∃ front more, list = front ++ first :: more ∧ rest = more ++ front := by
  obtain ⟨place, hplace⟩ := hring
  have hlength : list.length = rest.length + 1 := by
    rw [← List.length_rotate list place, hplace, List.length_cons]
  have hlt : place % list.length < list.length := Nat.mod_lt _ (by omega)
  rw [← List.rotate_mod, List.rotate_eq_drop_append_take hlt.le,
    List.drop_eq_getElem_cons hlt, List.cons_append] at hplace
  obtain ⟨hfirst, hrest⟩ := List.cons.inj hplace
  refine ⟨list.take (place % list.length), list.drop (place % list.length + 1), ?_, hrest.symm⟩
  rw [← hfirst, List.cons_getElem_drop_succ, List.take_append_drop]

/-! ## Runs and what is beside them -/

namespace Waiting

theorem follows_of_sequence_eq {entry other : Waiting} (hsame : entry.sequence = other.sequence) :
    entry.follows other = true :=
  (SequenceNumber.follows_iff _ _).2 (Or.inl hsame)

theorem follows_self (entry : Waiting) : entry.follows entry = true :=
  follows_of_sequence_eq rfl

theorem sequence_ne_of_follows_eq_false {entry other : Waiting}
    (hstop : entry.follows other = false) : other.sequence ≠ entry.sequence := by
  intro hsame
  rw [follows_of_sequence_eq hsame.symm] at hstop
  cases hstop

def Adjacent (entry other : Waiting) : Prop :=
  entry.follows other = true ∨ other.follows entry = true

theorem sequence_lt (entry : Waiting) : entry.sequence.value < sequenceSpace :=
  SequenceNumber.ofWord_lt _

theorem sequence_eq_iff {entry other : Waiting} :
    entry.sequence = other.sequence ↔ entry.sequence.value = other.sequence.value := by
  cases entry.sequence
  cases other.sequence
  simp

end Waiting

namespace Window

theorem sequence_eq_of_notAfter {entry other : Waiting} (hle : entry.notAfter other = true)
    (hge : other.notAfter entry = true) : entry.sequence = other.sequence := by
  rw [notAfter_iff] at hle hge
  exact Waiting.sequence_eq_iff.2 (Nat.le_antisymm hle hge)

def Apart (entries others : List Waiting) : Prop :=
  ∀ entry ∈ entries, ∀ other ∈ others, ¬ entry.Adjacent other

theorem Apart.symm {entries others : List Waiting} (hapart : Apart entries others) :
    Apart others entries :=
  fun other hother entry hentry hadjacent => hapart entry hentry other hother hadjacent.symm

/-- Whether entries are apart is a matter of their numbers. -/
theorem Apart.of_sequences {entries others changed : List Waiting} (hapart : Apart entries others)
    (hchanged : sequences changed ⊆ sequences others) : Apart entries changed := by
  intro entry hentry other hother hadjacent
  obtain ⟨old, hold, hsame⟩ := List.mem_map.1 (hchanged (List.mem_map_of_mem hother))
  apply hapart entry hentry old hold
  rwa [Waiting.Adjacent, Waiting.follows, Waiting.follows, hsame]

/-- Entries that follow one another are on one side of a list whose sides are apart. -/
theorem subset_or_subset {front back run : List Waiting} (hsubset : run ⊆ front ++ back)
    (hrun : run.IsChain fun previous entry => entry.follows previous = true)
    (hapart : Apart front back) : run ⊆ front ∨ run ⊆ back := by
  induction run with
  | nil => exact Or.inl (List.nil_subset _)
  | cons entry rest ih =>
    obtain ⟨hentry, hrest⟩ := List.cons_subset.1 hsubset
    have hone : entry ∈ front ∨ entry ∈ back := List.mem_append.1 hentry
    cases rest with
    | nil => simpa using hone
    | cons next later =>
      obtain ⟨hnext, hlater⟩ := List.isChain_cons_cons.1 hrun
      rcases hone with hfront | hback
      · rcases ih hrest hlater with hside | hside
        · exact Or.inl (List.cons_subset.2 ⟨hfront, hside⟩)
        · exact absurd (Or.inr hnext) (hapart entry hfront next (hside List.mem_cons_self))
      · rcases ih hrest hlater with hside | hside
        · exact absurd (Or.inl hnext) (hapart next (hside List.mem_cons_self) entry hback)
        · exact Or.inr (List.cons_subset.2 ⟨hback, hside⟩)

/-- Two parts of a window are the same if they share an entry, and in each of them entries follow
one another and are apart from the rest. -/
theorem perm_of_shared {entries run others block rest : List Waiting} (hnodup : entries.Nodup)
    (hparts : entries.Perm (run ++ others)) (hblocks : entries.Perm (block ++ rest))
    (hrun : run.IsChain fun previous entry => entry.follows previous = true)
    (hblock : block.IsChain fun previous entry => entry.follows previous = true)
    (hbeside : Apart run others) (hapart : Apart block rest) {shared : Waiting}
    (hleft : shared ∈ run) (hright : shared ∈ block) : run.Perm block := by
  have hself : shared.Adjacent shared := Or.inl (Waiting.follows_self _)
  have hinside : run ⊆ block := by
    have hwithin : run ⊆ block ++ rest := fun entry hentry =>
      hblocks.subset (hparts.symm.subset (List.mem_append_left _ hentry))
    refine (subset_or_subset hwithin hrun hapart).resolve_right fun hother => ?_
    exact hapart _ hright _ (hother hleft) hself
  have hcovers : block ⊆ run := by
    have hwithin : block ⊆ run ++ others := fun entry hentry =>
      hparts.subset (hblocks.symm.subset (List.mem_append_left _ hentry))
    refine (subset_or_subset hwithin hblock hbeside).resolve_right fun hother => ?_
    exact hbeside _ hleft _ (hother hright) hself
  have hnodupRun := List.Nodup.of_append_left (hparts.nodup_iff.1 hnodup)
  have hnodupBlock := List.Nodup.of_append_left (hblocks.nodup_iff.1 hnodup)
  exact (List.perm_ext_iff_of_nodup hnodupRun hnodupBlock).2 fun entry =>
    ⟨fun hentry => hinside hentry, fun hentry => hcovers hentry⟩

end Window

namespace Anchor

def entries (anchor : Anchor) : List Waiting :=
  anchor.before.reverse ++ anchor.entry :: anchor.after

/-- How far the number of an entry is ahead of the anchor's, around the ring of numbers. -/
def distance (anchor : Anchor) (entry : Waiting) : Nat :=
  (entry.sequence.value + sequenceSpace - anchor.entry.sequence.value) % sequenceSpace

theorem distance_lt (anchor : Anchor) (entry : Waiting) :
    anchor.distance entry < sequenceSpace :=
  Nat.mod_lt _ (by decide)

theorem distance_self (anchor : Anchor) : anchor.distance anchor.entry = 0 := by
  rw [distance, Nat.add_sub_cancel_left, Nat.mod_self]

/-- Equal numbers are equally far ahead. -/
theorem distance_eq_iff (anchor : Anchor) (entry other : Waiting) :
    entry.sequence = other.sequence ↔ anchor.distance entry = anchor.distance other := by
  have hanchor := anchor.entry.sequence_lt
  have hentry := entry.sequence_lt
  have hother := other.sequence_lt
  rw [Waiting.sequence_eq_iff]
  simp only [distance, sequenceSpace] at *
  omega

/-- Distances differ by one, around the ring, exactly between adjacent numbers. -/
theorem distance_next_iff (anchor : Anchor) (entry previous : Waiting) :
    entry.sequence = previous.sequence.next ↔
      anchor.distance entry = (anchor.distance previous + 1) % sequenceSpace := by
  have hanchor := anchor.entry.sequence_lt
  have hentry := entry.sequence_lt
  have hprevious := previous.sequence_lt
  have hvalue : entry.sequence = previous.sequence.next ↔
      entry.sequence.value = (previous.sequence.value + 1) % sequenceSpace := by
    cases entry.sequence
    simp [SequenceNumber.next]
  rw [hvalue]
  simp only [distance, sequenceSpace] at *
  omega

theorem follows_iff_distance (anchor : Anchor) (entry previous : Waiting) :
    entry.follows previous = true ↔
      anchor.distance entry = anchor.distance previous ∨
        anchor.distance entry = (anchor.distance previous + 1) % sequenceSpace := by
  rw [Waiting.follows, SequenceNumber.follows_iff, anchor.distance_eq_iff,
    anchor.distance_next_iff]

/-- The entries get ever farther from the anchor, and do not come round to it again. -/
structure Spread (anchor : Anchor) (entries : List Waiting) : Prop where
  ordered : entries.Pairwise fun entry later => anchor.distance entry ≤ anchor.distance later
  room : ∀ entry ∈ entries, anchor.distance entry + 1 < sequenceSpace

namespace Spread

variable {anchor : Anchor} {front back : List Waiting}

theorem sublist {entries : List Waiting} (hentries : anchor.Spread entries)
    (hpart : front.Sublist entries) : anchor.Spread front where
  ordered := hentries.ordered.sublist hpart
  room entry hentry := hentries.room entry (hpart.subset hentry)

/-- Where an entry does not follow the one before it, the two sides are apart. -/
theorem apart (hentries : anchor.Spread (front ++ back))
    (hstop : ∀ last ∈ front.getLast?, ∀ first ∈ back.head?, first.follows last = false) :
    Window.Apart front back := by
  intro entry hentry other hother
  obtain ⟨hfront, hback, hcross⟩ := List.pairwise_append.1 hentries.ordered
  obtain ⟨last, hlast⟩ : ∃ last, front.getLast? = some last :=
    ⟨_, List.getLast?_eq_some_getLast (List.ne_nil_of_mem hentry)⟩
  obtain ⟨first, hfirst⟩ : ∃ first, back.head? = some first :=
    ⟨_, List.head?_eq_some_head (List.ne_nil_of_mem hother)⟩
  have hentry_le := key_le_of_getLast? hfront hlast entry hentry
  have hle_other := le_key_of_head? hback hfirst other hother
  have hle := hcross last (List.mem_of_getLast? hlast) first (List.mem_of_head? hfirst)
  have hentry_room := hentries.room entry (List.mem_append_left _ hentry)
  have hother_room := hentries.room other (List.mem_append_right _ hother)
  have hlast_room := hentries.room last (List.mem_append_left _ (List.mem_of_getLast? hlast))
  -- No number lies between two that follow each other.
  have hgap := hstop last hlast first hfirst
  rw [Bool.eq_false_iff, Ne, anchor.follows_iff_distance, Nat.mod_eq_of_lt hlast_room] at hgap
  rintro (hfollows | hfollows)
  · rw [anchor.follows_iff_distance, Nat.mod_eq_of_lt hother_room] at hfollows
    omega
  · rw [anchor.follows_iff_distance, Nat.mod_eq_of_lt hentry_room] at hfollows
    omega

end Spread

/-- A sorted window, read as a ring that begins with an entry which does not follow the last one,
gets ever farther from its beginning. -/
theorem spread_of_isRotated {window : List Waiting} (hsorted : Window.Sorted window)
    {first : Waiting} {rest : List Waiting} (hring : window ~r first :: rest)
    (hstop : first.follows (rest.getLastD first) = false) :
    ∃ origin : Anchor, origin.Spread (first :: rest) := by
  obtain ⟨front, more, rfl, rfl⟩ := exists_parts_of_isRotated hring
  obtain ⟨last, hlast⟩ : ∃ last, last = (more ++ front).getLastD first := ⟨_, rfl⟩
  have hring_last : (first :: more ++ front).getLast? = some last := by
    rw [hlast, List.cons_append, List.getLast?_cons, List.getLastD_eq_getLast?]
  rw [← hlast] at hstop
  obtain ⟨hfront, hback, hcross⟩ := List.pairwise_append.1 hsorted
  simp only [Window.notAfter_iff] at hfront hback hcross
  have hahead : ∀ entry ∈ first :: more, first.sequence.value ≤ entry.sequence.value :=
    le_key_of_head? hback rfl
  -- The entries that come round are behind the first one, since it does not follow the last.
  have hbehind : ∀ entry ∈ front, entry.sequence.value < first.sequence.value := by
    intro entry hentry
    have hend : front.getLast? = some last := by
      rwa [List.getLast?_append_of_ne_nil _ (List.ne_nil_of_mem hentry)] at hring_last
    have hle := key_le_of_getLast? hfront hend entry hentry
    have hle' := hcross last (List.mem_of_getLast? hend) first List.mem_cons_self
    have hne : first.sequence.value ≠ last.sequence.value := by
      intro hsame
      rw [Waiting.follows, (SequenceNumber.follows_iff _ _).2
        (Or.inl (Waiting.sequence_eq_iff.2 hsame))] at hstop
      cases hstop
    omega
  have hlimit (entry : Waiting) : entry.sequence.value < sequenceSpace := entry.sequence_lt
  let origin : Anchor := { before := [], entry := first, after := more ++ front }
  have hordered : (first :: more ++ front).Pairwise
      fun entry later => origin.distance entry ≤ origin.distance later := by
    simp only [distance, sequenceSpace, origin] at hlimit ⊢
    refine List.pairwise_append.2 ⟨?_, ?_, ?_⟩
    · refine hback.imp_of_mem fun {entry later} hentry _ hle => ?_
      have hge := hahead entry hentry
      have hlater_lt := hlimit later
      omega
    · refine hfront.imp_of_mem fun {entry later} hentry hlater hle => ?_
      have hlt := hbehind entry hentry
      have hlater_lt := hbehind later hlater
      have hfirst_lt := hlimit first
      omega
    · intro entry hentry other hother
      have hge := hahead entry hentry
      have hlt := hbehind other hother
      have hentry_lt := hlimit entry
      omega
  refine ⟨origin, hordered, fun entry hentry => ?_⟩
  have hle := key_le_of_getLast? hordered hring_last entry hentry
  have hlast_lt := origin.distance_lt last
  rw [Bool.eq_false_iff, Ne, origin.follows_iff_distance, origin.distance_self] at hstop
  simp only [sequenceSpace] at *
  omega

/-- An anchor in an ordered window whose numbers are all different. -/
structure Distinct (anchor : Anchor) : Prop where
  sorted : Window.Sorted (anchor.before.reverse ++ anchor.after)
  before_le : ∀ other ∈ anchor.before, other.notAfter anchor.entry = true
  after_gt : ∀ other ∈ anchor.after, other.notAfter anchor.entry = false
  nodup : (Window.sequences (anchor.entry :: (anchor.before.reverse ++ anchor.after))).Nodup

theorem Distinct.sorted_entries {anchor : Anchor} (hanchor : anchor.Distinct) :
    Window.Sorted anchor.entries := by
  obtain ⟨hbefore, hafter, hcross⟩ := List.pairwise_append.1 hanchor.sorted
  have hle : ∀ other ∈ anchor.before.reverse, other.notAfter anchor.entry = true :=
    fun other hother => hanchor.before_le other (List.mem_reverse.1 hother)
  refine List.pairwise_append.2 ⟨hbefore, List.pairwise_cons.2 ⟨fun other hother => ?_, hafter⟩,
    fun other hother => List.forall_mem_cons.2 ⟨hle other hother, hcross other hother⟩⟩
  have htotal := Window.notAfter_total anchor.entry other
  rwa [hanchor.after_gt other hother, Bool.or_false] at htotal

/-- A run through the anchor that is as long as can be.  The window, read as a ring, is the run and
then the other entries, and neither end of the run goes on in these. -/
structure LongestRun (anchor : Anchor) (run others : List Waiting) : Prop where
  mem : anchor.entry ∈ run
  chained : run.IsChain fun previous entry => entry.follows previous = true
  ring : anchor.entries ~r run ++ others
  stops_after : ∀ last ∈ run.getLast?, ∀ next ∈ others.head?, next.follows last = false
  stops_before : ∀ first ∈ run.head?, ∀ previous ∈ others.getLast?,
    first.follows previous = false

/-- In an ordered window, nothing is adjacent to an entry of such a run but entries of the run. -/
theorem LongestRun.apart {anchor : Anchor} {run others : List Waiting}
    (hrun : anchor.LongestRun run others) (hsorted : Window.Sorted anchor.entries) :
    Window.Apart run others := by
  intro entry hentry other hother
  have hring := hrun.ring
  obtain ⟨first, rest, rfl⟩ := List.exists_cons_of_ne_nil (List.ne_nil_of_mem hentry)
  obtain ⟨last, hlast⟩ : ∃ last, others.getLast? = some last :=
    ⟨_, List.getLast?_eq_some_getLast (List.ne_nil_of_mem hother)⟩
  have hstop : first.follows ((rest ++ others).getLastD first) = false := by
    rw [List.getLastD_eq_getLast?, List.getLast?_append, hlast]
    exact hrun.stops_before first rfl last hlast
  rw [List.cons_append] at hring
  obtain ⟨origin, hspread⟩ := spread_of_isRotated hsorted hring hstop
  exact hspread.apart hrun.stops_after entry hentry other hother

section CutsRun

variable {anchor : Anchor} {run : List Waiting} {gap : Gap}
  {earlier later between : List Waiting} (hcut : CutsRun anchor run gap earlier later between)
include hcut

theorem CutsRun.longestRun : anchor.LongestRun run between where
  mem := by
    rw [hcut.run_eq]
    exact List.mem_append_right _ List.mem_cons_self
  chained := hcut.chained
  ring := by
    have hring : anchor.entry :: (anchor.after ++ anchor.before.reverse) =
        (anchor.entry :: later ++ between) ++ earlier := by
      rw [hcut.ring_eq, List.cons_append, List.cons_append]
    have hstart : anchor.entries ~r anchor.entry :: (anchor.after ++ anchor.before.reverse) :=
      List.isRotated_append
    have hback : (anchor.entry :: later ++ between) ++ earlier ~r run ++ between := by
      have hturned : (anchor.entry :: later ++ between) ++ earlier ~r
          earlier ++ (anchor.entry :: later ++ between) := List.isRotated_append
      rwa [← List.append_assoc, ← hcut.run_eq] at hturned
    rw [hring] at hstart
    exact hstart.trans hback
  stops_after := by
    intro last hlast next hnext
    rw [hcut.run_eq, List.getLast?_append, List.getLast?_cons, Option.some_or,
      ← List.getLastD_eq_getLast?] at hlast
    obtain rfl := Option.some.inj hlast
    exact hcut.stops_after next hnext
  stops_before := by
    intro first hfirst previous hprevious
    have hhead : earlier.headD anchor.entry = first := by
      rw [hcut.run_eq] at hfirst
      cases earlier with
      | nil => exact Option.some.inj hfirst
      | cons => exact Option.some.inj hfirst
    rw [← hhead]
    exact hcut.stops_before previous hprevious

/-- A run is as long as can be: nothing left in the window is adjacent to any of its entries. -/
theorem CutsRun.apart (hsorted : Window.Sorted anchor.entries) :
    Window.Apart run gap.window := by
  intro entry hentry other hother
  exact hcut.longestRun.apart hsorted entry hentry other (hcut.window_perm.mem_iff.1 hother)

theorem CutsRun.not_adjacent (hanchor : anchor.Distinct) {entry other : Waiting}
    (hentry : entry ∈ gap.window) (hother : other ∈ run) :
    entry.sequence ≠ other.sequence.next ∧ other.sequence ≠ entry.sequence.next := by
  have hapart := hcut.apart hanchor.sorted_entries other hother entry hentry
  constructor
  · exact fun hnext => hapart (Or.inr ((SequenceNumber.follows_iff _ _).2 (Or.inr hnext)))
  · exact fun hnext => hapart (Or.inl ((SequenceNumber.follows_iff _ _).2 (Or.inr hnext)))

end CutsRun

end Anchor

end Ccf
