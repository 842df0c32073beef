import Ccf.Proofs.Reassembly.WindowOrder
import Mathlib.Data.List.SplitBy

/-!
# The runs of a window

An ordered window falls into blocks: each is a run, and no entry of one is adjacent to an entry of
another.  Read from its first head on, the window as a ring gets ever farther from its beginning,
so cutting it before every head gives the blocks, and their first numbers are the heads.  A ring
without a head is one block.
-/

namespace Ccf

namespace Window

/-- Runs of which each is apart from all the others. -/
structure Blocks (blocks : List (List Waiting)) : Prop where
  nonempty : [] ∉ blocks
  chained : ∀ block ∈ blocks,
    block.IsChain fun previous entry => entry.follows previous = true
  apart : blocks.Pairwise Apart

def firstNumbers (blocks : List (List Waiting)) : List SequenceNumber :=
  blocks.filterMap fun block => block.head?.map Waiting.sequence

@[simp]
theorem firstNumbers_cons (first : Waiting) (rest : List Waiting) (blocks : List (List Waiting)) :
    firstNumbers ((first :: rest) :: blocks) = first.sequence :: firstNumbers blocks :=
  rfl

theorem headsAfter_append (previous : Waiting) (front back : List Waiting) :
    headsAfter previous (front ++ back) =
      headsAfter previous front ++ headsAfter (front.getLastD previous) back := by
  induction front generalizing previous with
  | nil => rfl
  | cons entry rest ih =>
    rw [List.cons_append, headsAfter, headsAfter, List.getLastD_cons]
    split
    · exact ih entry
    · rw [ih entry, List.cons_append]

/-- There is no head where every entry follows the one before it. -/
theorem headsAfter_eq_nil_iff {previous : Waiting} {entries : List Waiting} :
    headsAfter previous entries = [] ↔
      (previous :: entries).IsChain fun previous entry => entry.follows previous = true := by
  induction entries generalizing previous with
  | nil => simp [headsAfter]
  | cons entry rest ih =>
    rw [headsAfter, List.isChain_cons_cons]
    by_cases hfollows : entry.follows previous = true
    · rw [if_pos hfollows, ih]
      exact ⟨fun hrest => ⟨hfollows, hrest⟩, And.right⟩
    · rw [if_neg hfollows]
      exact ⟨fun hnil => (List.cons_ne_nil _ _ hnil).elim, fun hboth => absurd hboth.1 hfollows⟩

/-- The first head, with the entries before it. -/
theorem exists_head {previous : Waiting} {entries : List Waiting}
    (hheads : headsAfter previous entries ≠ []) :
    ∃ front head more, entries = front ++ head :: more ∧ headsAfter previous front = [] ∧
      head.follows (front.getLastD previous) = false := by
  induction entries generalizing previous with
  | nil => exact absurd rfl hheads
  | cons entry rest ih =>
    rw [headsAfter] at hheads
    split at hheads
    · rename_i hfollows
      obtain ⟨front, head, more, rfl, hfront, hstop⟩ := ih hheads
      refine ⟨entry :: front, head, more, rfl, ?_, by rwa [List.getLastD_cons]⟩
      rw [headsAfter, if_pos hfollows, hfront]
    · rename_i hfollows
      exact ⟨[], entry, rest, rfl, rfl, by simpa using hfollows⟩

/-- The heads of blocks that follow each other on the ring are their first numbers. -/
theorem headsAfter_flatten {blocks : List (List Waiting)} (hnonempty : [] ∉ blocks)
    (hchained : ∀ block ∈ blocks,
      block.IsChain fun previous entry => entry.follows previous = true)
    (hstops : blocks.IsChain fun block next =>
      ∃ hblock hnext, (next.head hnext).follows (block.getLast hblock) = false)
    {previous : Waiting}
    (hstart : ∀ first ∈ blocks.flatten.head?, first.follows previous = false) :
    headsAfter previous blocks.flatten = firstNumbers blocks := by
  induction blocks generalizing previous with
  | nil => rfl
  | cons block later ih =>
    obtain ⟨hblock, hlater⟩ := List.forall_mem_cons.1 hchained
    rw [List.mem_cons, not_or] at hnonempty
    obtain ⟨first, rest, rfl⟩ := List.exists_cons_of_ne_nil (Ne.symm hnonempty.1)
    have hfirst : first.follows previous = false := hstart first rfl
    have hrest : headsAfter first rest = [] := headsAfter_eq_nil_iff.2 hblock
    rw [List.flatten_cons, List.cons_append, headsAfter, if_neg (by simp [hfirst]),
      headsAfter_append, hrest, List.nil_append, firstNumbers_cons,
      ih hnonempty.2 hlater hstops.of_cons]
    intro head hhead
    cases later with
    | nil => cases hhead
    | cons next others =>
      obtain ⟨hends, hbegins, hstop⟩ := (List.isChain_cons_cons.1 hstops).1
      rw [List.flatten_cons, List.head?_append_of_ne_nil _ hbegins,
        List.head?_eq_some_head hbegins] at hhead
      obtain rfl := Option.some.inj hhead
      rwa [List.getLast_eq_getLastD] at hstop

/-- Cutting a spread list before every head leaves lists that are apart. -/
theorem pairwise_apart_of_spread {origin : Anchor} {blocks : List (List Waiting)}
    (hspread : origin.Spread blocks.flatten)
    (hstops : blocks.IsChain fun block next =>
      ∃ hblock hnext, (next.head hnext).follows (block.getLast hblock) = false) :
    blocks.Pairwise Apart := by
  induction blocks with
  | nil => exact List.Pairwise.nil
  | cons block later ih =>
    rw [List.flatten_cons] at hspread
    refine List.pairwise_cons.2 ⟨fun other hother => ?_,
      ih (hspread.sublist (List.sublist_append_right _ _)) hstops.of_cons⟩
    have hapart : Apart block later.flatten := by
      refine hspread.apart fun last hlast first hfirst => ?_
      cases later with
      | nil => cases hfirst
      | cons next others =>
        obtain ⟨hends, hbegins, hstop⟩ := (List.isChain_cons_cons.1 hstops).1
        rw [List.flatten_cons, List.head?_append_of_ne_nil _ hbegins,
          List.head?_eq_some_head hbegins] at hfirst
        rw [List.getLast?_eq_some_getLast hends] at hlast
        obtain rfl := Option.some.inj hfirst
        obtain rfl := Option.some.inj hlast
        exact hstop
    exact fun entry hentry neighbour hneighbour =>
      hapart entry hentry neighbour (List.mem_flatten_of_mem hother hneighbour)

/-- A ring that begins with a head falls into the runs that its heads begin. -/
theorem blocks_of_ring {window : List Waiting} (hsorted : Sorted window) {head : Waiting}
    {rest : List Waiting} (hring : window ~r head :: rest)
    (hstop : head.follows (rest.getLastD head) = false) :
    ∃ blocks, Blocks blocks ∧ blocks.flatten = head :: rest ∧
      firstNumbers blocks = headsAfter (rest.getLastD head) (head :: rest) := by
  let blocks := (head :: rest).splitBy fun previous entry => entry.follows previous
  have hflatten : blocks.flatten = head :: rest := List.flatten_splitBy _ _
  have hstops := List.isChain_getLast_head_splitBy
    (fun previous entry : Waiting => entry.follows previous) (head :: rest)
  have hnonempty : [] ∉ blocks := List.nil_notMem_splitBy _ _
  have hchained : ∀ block ∈ blocks,
      block.IsChain fun previous entry => entry.follows previous = true :=
    fun block hblock => List.isChain_of_mem_splitBy hblock
  obtain ⟨origin, hspread⟩ := Anchor.spread_of_isRotated hsorted hring hstop
  rw [← hflatten] at hspread
  refine ⟨blocks, ⟨hnonempty, hchained, pairwise_apart_of_spread hspread hstops⟩, hflatten, ?_⟩
  have hheads : headsAfter (rest.getLastD head) blocks.flatten = firstNumbers blocks := by
    apply headsAfter_flatten hnonempty hchained hstops
    intro first hfirst
    rw [hflatten] at hfirst
    obtain rfl := Option.some.inj hfirst
    exact hstop
  rw [← hheads, hflatten]

/-- A window with a head is read as a ring from its first head on.  Before this one there is none,
wherever the ring is said to begin. -/
theorem blocks_of_head {front more : List Waiting} {head : Waiting}
    (hsorted : Sorted (front ++ head :: more))
    (hfront : headsAfter (more.getLastD head) front = [])
    (hstop : head.follows (front.getLastD (more.getLastD head)) = false) :
    ∃ blocks, Blocks blocks ∧ blocks.flatten.Perm (front ++ head :: more) ∧
      firstNumbers blocks = headsAfter (more.getLastD head) (front ++ head :: more) := by
  have hring : front ++ head :: more ~r head :: (more ++ front) := List.isRotated_append
  have hend : (more ++ front).getLastD head = front.getLastD (more.getLastD head) := by
    simp only [List.getLastD_eq_getLast?, List.getLast?_append]
    cases front.getLast? <;> rfl
  obtain ⟨blocks, hblocks, hflatten, hfirsts⟩ := blocks_of_ring hsorted hring (hend ▸ hstop)
  have hturned : headsAfter (front.getLastD (more.getLastD head)) (head :: more ++ front) =
      headsAfter (more.getLastD head) (front ++ head :: more) := by
    rw [headsAfter_append, headsAfter_append, hfront, List.getLastD_cons, hfront, List.append_nil,
      List.nil_append]
  refine ⟨blocks, hblocks, hflatten ▸ hring.perm.symm, ?_⟩
  rw [hfirsts, hend, ← List.cons_append, hturned]

/-- An ordered window falls into runs that are apart, and its heads are their first numbers. -/
theorem exists_blocks {window : List Waiting} (hsorted : Sorted window) :
    ∃ blocks, Blocks blocks ∧ blocks.flatten.Perm window ∧
      firstNumbers blocks = runHeads window := by
  cases window with
  | nil => exact ⟨[], ⟨List.not_mem_nil, List.forall_mem_nil _, List.Pairwise.nil⟩, .refl _, rfl⟩
  | cons first rest =>
    obtain ⟨last, hlast⟩ : ∃ last, last = rest.getLastD first := ⟨_, rfl⟩
    rw [runHeads, ← hlast]
    cases hheads : headsAfter last (first :: rest) with
    | nil =>
      have hchained := (headsAfter_eq_nil_iff.1 hheads).of_cons
      exact ⟨[first :: rest], ⟨by simp, by simpa using hchained, List.pairwise_singleton _ _⟩,
        by simp, rfl⟩
    | cons number others =>
      obtain ⟨front, head, more, hwindow, hfront, hstop⟩ :=
        exists_head (hheads ▸ List.cons_ne_nil number others)
      have hend : last = more.getLastD head := by
        have hgetLast := congrArg List.getLast? hwindow
        rw [List.getLast?_cons, List.getLast?_append, List.getLast?_cons, Option.some_or,
          ← List.getLastD_eq_getLast?, ← List.getLastD_eq_getLast?] at hgetLast
        rw [hlast]
        exact Option.some.inj hgetLast
      rw [hwindow] at hsorted ⊢
      obtain ⟨blocks, hblocks, hperm, hfirsts⟩ :=
        blocks_of_head hsorted (hend ▸ hfront) (hend ▸ hstop)
      rw [← hend, ← hwindow, hheads] at hfirsts
      exact ⟨blocks, hblocks, hperm, hfirsts⟩

end Window

end Ccf
