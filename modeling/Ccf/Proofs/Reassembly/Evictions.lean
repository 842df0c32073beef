import Ccf.Proofs.Reassembly.Disposal

/-!
# Giving up

Giving up takes entries out of the window and drops their segments; the others stay as they are, in
their order.
-/

namespace Ccf

namespace Reassembler

theorem divideStale_perm (settings : ReassemblerSettings) (now : Instant)
    (window : List Waiting) :
    ((divideStale settings now window).1 ++ (divideStale settings now window).2).Perm window := by
  unfold divideStale
  split
  · exact .refl _
  · rw [List.partition_eq_filter_filter]
    exact List.filter_append_perm _ _

/-- The first entry of a kind, and what is left when it is taken out. -/
theorem find?_eraseP_perm (kind : Waiting → Bool) (window : List Waiting) :
    ((window.find? kind).toList ++ window.eraseP kind).Perm window := by
  induction window with
  | nil => exact .refl _
  | cons entry rest ih =>
    cases hentry : kind entry with
    | true =>
      rw [List.find?_cons_of_pos hentry, List.eraseP_cons_of_pos hentry]
      exact .refl _
    | false =>
      rw [List.find?_cons_of_neg (by simp [hentry]), List.eraseP_cons_of_neg (by simp [hentry])]
      exact List.perm_middle.trans (ih.cons entry)

theorem takeOldest_perm (count : Nat) (window : List Waiting) :
    ((takeOldest count window).1 ++ (takeOldest count window).2).Perm window := by
  induction count generalizing window with
  | zero => exact .refl _
  | succ count ih =>
    rw [takeOldest]
    split
    · exact .refl _
    · simp only [List.append_assoc]
      exact ((ih _).append_left _).trans (find?_eraseP_perm _ window)

/-- Giving up leaves each segment in the window or drops it. -/
theorem evict_disposes (reassembler : Reassembler) (now : Instant) :
    Disposes (reassembler.window.map Waiting.label) (reassembler.evict now).reports
      ((reassembler.evict now).state.window.map Waiting.label) := by
  obtain ⟨stale, fresh, hdivide⟩ : ∃ stale fresh,
      divideStale reassembler.settings now reassembler.window = (stale, fresh) := ⟨_, _, rfl⟩
  obtain ⟨surplus, left, htake⟩ : ∃ surplus left,
      takeOldest (fresh.length - reassembler.settings.windowBound) fresh = (surplus, left) :=
    ⟨_, _, rfl⟩
  have hstale := divideStale_perm reassembler.settings now reassembler.window
  have hsurplus := takeOldest_perm (fresh.length - reassembler.settings.windowBound) fresh
  rw [hdivide] at hstale
  rw [htake] at hsurplus
  simp only [evict, hdivide, htake]
  have hgone := (Disposes.release .drop (stale ++ surplus)).frame (left.map Waiting.label)
  rw [List.append_nil, ← List.map_append] at hgone
  refine hgone.congr (List.Perm.map _ ?_) (.refl _)
  calc (left ++ (stale ++ surplus)).Perm ((stale ++ surplus) ++ left) := List.perm_append_comm
    _ = stale ++ (surplus ++ left) := List.append_assoc _ _ _
    List.Perm _ (stale ++ fresh) := hsurplus.append_left _
    List.Perm _ reassembler.window := hstale

theorem takeOldest_sublist (count : Nat) (window : List Waiting) :
    (takeOldest count window).2.Sublist window := by
  induction count generalizing window with
  | zero => exact List.Sublist.refl _
  | succ count ih =>
    rw [takeOldest]
    split
    · exact List.Sublist.refl _
    · exact (ih _).trans List.eraseP_sublist

theorem divideStale_sublist (settings : ReassemblerSettings) (now : Instant)
    (window : List Waiting) : (divideStale settings now window).2.Sublist window := by
  unfold divideStale
  split
  · exact List.Sublist.refl _
  · rw [List.partition_eq_filter_filter]
    exact List.filter_sublist

/-- Giving up only takes entries out of the window. -/
theorem evict_sublist (reassembler : Reassembler) (now : Instant) :
    (reassembler.evict now).state.window.Sublist reassembler.window :=
  (takeOldest_sublist _ _).trans (divideStale_sublist _ _ _)

theorem deliveredTables_evict (reassembler : Reassembler) (now : Instant) :
    deliveredTables (reassembler.evict now).reports = [] := by
  simp [evict, deliveredTables, List.filterMap_map]

end Reassembler

end Ccf
