import Ccf.Simulation.Matching
import Mathlib.Algebra.BigOperators.Finprod
import Mathlib.Data.Multiset.UnionInter
import Mathlib.Algebra.Order.BigOperators.Group.Finset

/-!
# What was sent and what arrived, as multisets

Lexicographic order is total, and entries that may stand ahead of each other are equal.  An entry at
the front of one ordered list that is ahead of the front of the other is therefore not in the other
list at all, and going through both side by side finds what the two lists have in common as
multisets.
-/

namespace Ccf.Matching

theorem notAfter_iff_le {left right : List UInt8} : notAfter left right = true ↔ left ≤ right :=
  decide_eq_true_iff

/-- Sorting puts entries into lexicographic order. -/
theorem pairwise_mergeSort (entries : List (List UInt8)) :
    (entries.mergeSort notAfter).Pairwise fun left right => left ≤ right := by
  have hordered : (entries.mergeSort notAfter).Pairwise
      fun left right => notAfter left right = true := by
    apply List.pairwise_mergeSort
    · intro first second third hfirst hsecond
      rw [notAfter_iff_le] at hfirst hsecond ⊢
      exact List.le_trans hfirst hsecond
    · intro left right
      rw [Bool.or_eq_true, notAfter_iff_le, notAfter_iff_le]
      exact List.le_total left right
  exact hordered.imp fun hpair => notAfter_iff_le.1 hpair

/-- An entry that is ahead of the first one of an ordered list is not in it. -/
theorem not_mem_of_lt {first entry : List UInt8} {others : List (List UInt8)}
    (hordered : (first :: others).Pairwise fun left right => left ≤ right)
    (hle : entry ≤ first) (hne : entry ≠ first) : entry ∉ first :: others := by
  intro hmem
  rcases List.mem_cons.1 hmem with rfl | hother
  · exact hne rfl
  · have hback := (List.pairwise_cons.1 hordered).1 entry hother
    exact hne (List.le_antisymm hle hback)

/-- Going through two ordered lists side by side finds the entries that they have in common. -/
theorem countSorted_eq_card_inter {sent arrived : List (List UInt8)}
    (hsent : sent.Pairwise fun left right => left ≤ right)
    (harrived : arrived.Pairwise fun left right => left ≤ right) :
    countSorted sent arrived = Multiset.card ((sent : Multiset (List UInt8)) ∩ arrived) := by
  induction sent, arrived using countSorted.induct with
  | case1 arrived => simp [countSorted]
  | case2 sent hnone => simp [countSorted]
  | case3 sent entry arrived ih =>
    have hmem : entry ∈ (↑(entry :: arrived) : Multiset (List UInt8)) := by simp
    rw [countSorted, if_pos rfl, ih hsent.of_cons harrived.of_cons, ← Multiset.cons_coe,
      Multiset.cons_inter_of_pos _ hmem, ← Multiset.cons_coe, Multiset.erase_cons_head,
      Multiset.card_cons]
  | case4 entry sent other arrived hne hahead ih =>
    have hfresh := not_mem_of_lt harrived (notAfter_iff_le.1 hahead) hne
    rw [countSorted, if_neg hne, if_pos hahead, ih hsent.of_cons harrived,
      ← Multiset.cons_coe entry, Multiset.cons_inter_of_neg _ (Multiset.mem_coe.not.2 hfresh)]
  | case5 entry sent other arrived hne hbehind ih =>
    have hle : other ≤ entry := by
      rw [notAfter_iff_le] at hbehind
      exact (List.le_total entry other).resolve_left hbehind
    have hfresh := not_mem_of_lt hsent hle (Ne.symm hne)
    rw [countSorted, if_neg hne, if_neg hbehind, ih hsent harrived.of_cons,
      ← Multiset.cons_coe other, Multiset.inter_comm _ (other ::ₘ (arrived : Multiset _)),
      Multiset.cons_inter_of_neg _ (Multiset.mem_coe.not.2 hfresh), Multiset.inter_comm]

/-- The matches are what the two lists have in common, each entry as often as both have it. -/
theorem count_eq_card_inter (sent arrived : List (List UInt8)) :
    count sent arrived = Multiset.card ((sent : Multiset (List UInt8)) ∩ arrived) := by
  have hsorted (entries : List (List UInt8)) :
      (↑(entries.mergeSort notAfter) : Multiset (List UInt8)) = entries :=
    Multiset.coe_eq_coe.2 (List.mergeSort_perm entries notAfter)
  rw [count, countSorted_eq_card_inter (pairwise_mergeSort sent) (pairwise_mergeSort arrived),
    hsorted, hsorted]

/-- Every packet is matched if those that arrived are those that were sent. -/
theorem count_eq_length_of_perm {sent arrived : List (List UInt8)} (hperm : sent.Perm arrived) :
    count sent arrived = sent.length := by
  have hself : (sent : Multiset (List UInt8)) ∩ sent = sent :=
    Multiset.inter_le_left.antisymm (Multiset.le_inter le_rfl le_rfl)
  rw [count_eq_card_inter, ← Multiset.coe_eq_coe.2 hperm, hself, Multiset.coe_card]

theorem count_coe (bytes : List UInt8) (entries : List (List UInt8)) :
    (entries : Multiset (List UInt8)).count bytes = entries.count bytes := by
  rw [Multiset.coe_count]
  exact List.countP_congr fun other _ => by simp

/-- The entries of a list, counted one kind after another. -/
theorem card_eq_finsum (entries : Multiset (List UInt8)) :
    Multiset.card entries = ∑ᶠ bytes, entries.count bytes := by
  have hfinite : (Function.support fun bytes => entries.count bytes) ⊆ ↑entries.toFinset := by
    intro bytes hbytes
    simpa [Multiset.count_eq_zero] using hbytes
  rw [finsum_eq_sum_of_support_subset _ hfinite, Multiset.toFinset_sum_count_eq]

/-- What matching counts.  Every byte string is matched as often as it was sent and as often as it
arrived, whichever is less.  So everything that was sent and everything that arrived is matched
exactly if the two lists have the same entries, equally often, and the order of neither matters. -/
theorem count_intersects (sent arrived : List (List UInt8)) :
    count sent arrived = ∑ᶠ bytes, min (sent.count bytes) (arrived.count bytes) ∧
      ((count sent arrived = sent.length ∧ count sent arrived = arrived.length) ↔
        sent.Perm arrived) ∧
      ∀ sent' arrived', sent'.Perm sent → arrived'.Perm arrived →
        count sent' arrived' = count sent arrived := by
  refine ⟨?_, ?_, ?_⟩
  · rw [count_eq_card_inter, card_eq_finsum]
    exact finsum_congr fun bytes => by rw [Multiset.count_inter, count_coe, count_coe]
  · constructor
    · rintro ⟨hsent, harrived⟩
      rw [count_eq_card_inter] at hsent harrived
      have hinside : (sent : Multiset (List UInt8)) ∩ arrived = sent :=
        Multiset.eq_of_le_of_card_le Multiset.inter_le_left (by rw [Multiset.coe_card, hsent])
      have hinside' : (sent : Multiset (List UInt8)) ∩ arrived = arrived :=
        Multiset.eq_of_le_of_card_le Multiset.inter_le_right (by rw [Multiset.coe_card, harrived])
      exact Multiset.coe_eq_coe.1 (hinside.symm.trans hinside')
    · intro hperm
      have hall := count_eq_length_of_perm hperm
      exact ⟨hall, hall.trans hperm.length_eq⟩
  · intro sent' arrived' hsent harrived
    rw [count_eq_card_inter, count_eq_card_inter, Multiset.coe_eq_coe.2 hsent,
      Multiset.coe_eq_coe.2 harrived]

/-- Of one byte string more are sent, of another more arrive, and a third one only arrives. -/
theorem count_intersects_repeated :
    let sent : List (List UInt8) := [[2], [1], [1], [1]]
    let arrived : List (List UInt8) := [[1], [3], [2], [1], [2]]
    count sent arrived = 3 ∧ ¬ sent.Perm arrived ∧ count sent.reverse arrived = 3 := by
  intro sent arrived
  have hcount : count sent arrived = 3 := by
    rw [count_eq_card_inter]
    rfl
  obtain ⟨-, hall, horder⟩ := count_intersects sent arrived
  refine ⟨hcount, fun hperm => ?_, ?_⟩
  · have hsent := (hall.2 hperm).1
    rw [hcount] at hsent
    exact absurd hsent (by decide)
  · rw [horder sent.reverse arrived (List.reverse_perm sent) (.refl arrived), hcount]

end Ccf.Matching
