import Ccf.Simulation.Basic
import Mathlib.Data.List.Forall2
import Mathlib.Data.List.Perm.Basic

/-!
# Orders of arrival

Segments are reordered within chunks, so the segments before the chunk at hand have all arrived and
none behind it has.  `Mixed` describes such orders of numbers, and the order in which a simulation
delivers its segments is one of them: a chunk of bytes in another order is a chunk of places in
another order.
-/

namespace Ccf.Simulation

/-- An order of the numbers from `first` on, in which successive stretches of at most `depth`
numbers are each in any order. -/
inductive Mixed (depth : Nat) : Nat → List Nat → Prop where
  | done (first : Nat) : Mixed depth first []
  | chunk {first count : Nat} {order later : List Nat} (hcount : count ≤ depth)
      (horder : order.Perm (List.range' first count)) (hlater : Mixed depth (first + count) later) :
    Mixed depth first (order ++ later)

/-- Numbers in order are a mixed order. -/
theorem mixed_range' {depth : Nat} (hdepth : 0 < depth) (first count : Nat) :
    Mixed depth first (List.range' first count) := by
  induction count generalizing first with
  | zero => exact .done first
  | succ less ih =>
    have hone : [first].Perm (List.range' first 1) := List.Perm.refl _
    rw [List.range'_succ, ← List.singleton_append]
    exact .chunk hdepth hone (ih (first + 1))

theorem Mixed.perm {depth first : Nat} {order : List Nat} (hmixed : Mixed depth first order) :
    order.Perm (List.range' first order.length) := by
  induction hmixed with
  | done first => exact List.Perm.refl _
  | @chunk first count order later _ horder _ ih =>
    have hlength : order.length = count := by rw [horder.length_eq, List.length_range']
    rw [List.length_append, hlength, ← List.range'_append_1]
    exact horder.append ih

/-- When a number comes, all numbers below some start are there, and none is there that lies further
than `depth` behind the start. -/
theorem Mixed.exists_start {depth first : Nat} {order : List Nat} (hmixed : Mixed depth first order)
    {earlier : List Nat} {number : Nat} (hinitial : earlier ++ [number] <+: order) :
    ∃ start, first ≤ start ∧ (∀ other, first ≤ other → other < start → other ∈ earlier) ∧
      ∀ other ∈ earlier ++ [number], other < start + depth := by
  induction hmixed generalizing earlier with
  | done first =>
    have hlength := hinitial.length_le
    simp at hlength
  | @chunk first count order later hcount horder _ ih =>
    have hrange {other : Nat} (hother : other ∈ order) :
        first ≤ other ∧ other < first + count :=
      List.mem_range'_1.1 (horder.mem_iff.1 hother)
    by_cases hinside : earlier.length < order.length
    · -- The number is in the first chunk, before which nothing is expected.
      have hchunk : earlier ++ [number] <+: order := by
        apply List.prefix_of_prefix_length_le hinitial (List.prefix_append order later)
        rw [List.length_append, List.length_singleton]
        exact hinside
      refine ⟨first, Nat.le_refl _, fun other hlow hhigh => by omega, fun other hother => ?_⟩
      have hbound := (hrange (hchunk.subset hother)).2
      omega
    · have hall : order <+: earlier := by
        apply List.prefix_of_prefix_length_le (List.prefix_append order later)
          ((List.prefix_append earlier [number]).trans hinitial)
        exact Nat.le_of_not_lt hinside
      obtain ⟨rest, rfl⟩ := hall
      rw [List.append_assoc] at hinitial ⊢
      obtain ⟨start, hstart, hthere, hbound⟩ := ih ((List.prefix_append_right_inj order).1 hinitial)
      refine ⟨start, by omega, ?_, ?_⟩
      · intro other hlow hhigh
        by_cases hother : other < first + count
        · exact List.mem_append_left _
            (horder.mem_iff.2 (List.mem_range'_1.2 ⟨hlow, hother⟩))
        · exact List.mem_append_right _ (hthere other (Nat.le_of_not_lt hother) hhigh)
      · intro other hother
        rcases List.mem_append.1 hother with hfirst | hothers
        · have hend := (hrange hfirst).2
          omega
        · exact hbound other hothers

/-- What is a permutation of values is the values in another order. -/
theorem exists_perm_map {α β : Type} {value : α → β} {items : List α} {values : List β}
    (hvalues : values.Perm (items.map value)) :
    ∃ order : List α, order.Perm items ∧ order.map value = values := by
  have hcomp : Relation.Comp (List.Forall₂ fun item result => value item = result) List.Perm
      items values :=
    ⟨items.map value, List.forall₂_map_right_iff.2 (List.forall₂_same.2 fun _ _ => rfl),
      hvalues.symm⟩
  rw [List.forall₂_comp_perm_eq_perm_comp_forall₂] at hcomp
  obtain ⟨order, horder, hsame⟩ := hcomp
  refine ⟨order, horder.symm, ?_⟩
  rw [← List.forall₂_eq_eq_eq, List.forall₂_map_left_iff]
  exact hsame

/-- The chunk in front of a list that is not empty. -/
theorem chunks_eq_cons {α : Type} {depth : Nat} (hdepth : 0 < depth) {items : List α}
    (hitems : items ≠ []) :
    chunks depth items = items.take depth :: chunks depth (items.drop depth) := by
  obtain ⟨less, rfl⟩ := Nat.exists_eq_succ_of_ne_zero (Nat.ne_of_gt hdepth)
  obtain ⟨first, rest, rfl⟩ := List.exists_cons_of_ne_nil hitems
  rw [chunks]
  rfl

/-- Chunks in other orders have the values of a mixed order. -/
theorem exists_mixed {α : Type} (value : Nat → α) {depth : Nat} (hdepth : 0 < depth)
    {arrange : Nat → List α → List α}
    (harrange : ∀ place items, (arrange place items).Perm items) (first count : Nat) :
    ∃ order, Mixed depth first order ∧ order.length = count ∧
      ((chunks depth ((List.range' first count).map value)).mapIdx arrange).flatten =
        order.map value := by
  induction count using Nat.strongRecOn generalizing first arrange with
  | ind count ih =>
    cases count with
    | zero => exact ⟨[], .done first, rfl, by rw [List.range'_zero, List.map_nil, chunks]; rfl⟩
    | succ less =>
      rw [chunks_eq_cons hdepth (by simp), List.mapIdx_cons, List.flatten_cons, ← List.map_take,
        ← List.map_drop]
      by_cases hlast : less + 1 ≤ depth
      · -- All numbers are in one chunk.
        have hlength : (List.range' first (less + 1)).length ≤ depth := by
          rwa [List.length_range']
        rw [List.take_of_length_le hlength, List.drop_of_length_le hlength]
        obtain ⟨order, horder, hvalues⟩ := exists_perm_map
          (harrange 0 ((List.range' first (less + 1)).map value))
        refine ⟨order ++ [], .chunk hlast horder (.done _), ?_, ?_⟩
        · rw [List.append_nil, horder.length_eq, List.length_range']
        · rw [List.map_nil, chunks, List.mapIdx_nil, List.flatten_nil, List.map_append, hvalues]
          rfl
      · rw [List.take_range'_of_length_ge (by omega), List.drop_range', Nat.mul_one]
        obtain ⟨later, hlater, hlength, hothers⟩ :=
          ih (less + 1 - depth) (by omega) (fun place items => harrange (place + 1) items)
            (first + depth)
        obtain ⟨order, horder, hvalues⟩ :=
          exists_perm_map (harrange 0 ((List.range' first depth).map value))
        refine ⟨order ++ later, .chunk (Nat.le_refl _) horder hlater, ?_, ?_⟩
        · rw [List.length_append, horder.length_eq, List.length_range', hlength]
          omega
        · rw [List.map_append, hvalues, hothers]

/-- A list is what it has at its places. -/
theorem map_getD_range' {α : Type} (items : List α) (fallback : α) :
    (List.range' 0 items.length).map (fun index => items.getD index fallback) = items := by
  apply List.ext_getElem
  · simp
  · intro index _ hindex
    simp [hindex]

/-- The largest number of segments that are reordered together; each one is alone if none is
reordered. -/
def mixingDepth : Option Nat → Nat
  | none => 1
  | some depth => min depth reorderMax

/-- Segments arrive in a mixed order. -/
theorem exists_arrivals {chance : Chance} (hfair : chance.Fair) {depth : Option Nat}
    (hdepth : 0 < mixingDepth depth) (wire : List (List UInt8)) :
    ∃ order, Mixed (mixingDepth depth) 0 order ∧ order.length = wire.length ∧
      arrivals chance depth wire = order.map fun index => wire.getD index [] := by
  have hwire := map_getD_range' wire []
  cases depth with
  | none =>
    exact ⟨List.range' 0 wire.length, mixed_range' hdepth 0 _, List.length_range', hwire.symm⟩
  | some depth =>
    obtain ⟨order, hmixed, hlength, hvalues⟩ := exists_mixed (fun index => wire.getD index [])
      hdepth hfair.perm_arrange 0 wire.length
    rw [hwire] at hvalues
    exact ⟨order, hmixed, hlength, hvalues⟩

end Ccf.Simulation
