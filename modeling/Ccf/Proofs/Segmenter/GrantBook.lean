import Ccf.Proofs.Segmenter.Looks

/-!
# What becomes of every grant

Grants are told apart by the order in which they are handed over: a book keeps for each of them its
number and whether it is queued, has been forgotten or has been looked at.  The calls of a run carry
the book along, and it agrees with the schedule after each of them.

Arriving grants are sorted into the schedule by their times.  The sorting is stable, so grants for
equal times are queued by their numbers, and a look always takes the first of them.
-/

namespace Ccf

section Sorting

variable {α : Type} {le : α → α → Bool}

/-- Sorting keeps elements in their order between which it does not tell. -/
theorem filter_mergeSort_of_tie (htrans : ∀ a b c, le a b = true → le b c = true → le a c = true)
    (htotal : ∀ a b, (le a b || le b a) = true) (list : List α) (pivot : α) :
    (list.mergeSort le).filter (fun a => le pivot a && le a pivot) =
      list.filter fun a => le pivot a && le a pivot := by
  have htied : (list.filter fun a => le pivot a && le a pivot).Pairwise fun a b => le a b := by
    rw [List.pairwise_iff_forall_sublist]
    intro first second hpair
    have hfirst := (List.mem_filter.1 (hpair.subset (by simp : first ∈ [first, second]))).2
    have hsecond := (List.mem_filter.1 (hpair.subset (by simp : second ∈ [first, second]))).2
    rw [Bool.and_eq_true_iff] at hfirst hsecond
    exact htrans _ _ _ hfirst.2 hsecond.1
  -- The ties stay in order in the sorted list, where there are just as many of them.
  have hsublist := (List.sublist_mergeSort htrans htotal htied List.filter_sublist).filter
    fun a => le pivot a && le a pivot
  rw [List.filter_filter] at hsublist
  simp only [Bool.and_self] at hsublist
  exact (hsublist.eq_of_length ((List.mergeSort_perm list le).filter _).length_eq.symm).symm

/-- Sorting puts elements in order, and leaves those between which it does not tell as they are. -/
theorem pairwise_mergeSort_of_ties
    (htrans : ∀ a b c, le a b = true → le b c = true → le a c = true)
    (htotal : ∀ a b, (le a b || le b a) = true) {before : α → α → Prop} {list : List α}
    (hlist : list.Pairwise fun a b => le b a = true → before a b) :
    (list.mergeSort le).Pairwise fun a b => le a b = true ∧ (le b a = true → before a b) := by
  rw [List.pairwise_iff_forall_sublist]
  intro first second hpair
  have hsorted : le first second = true :=
    List.pairwise_iff_forall_sublist.1 (List.pairwise_mergeSort htrans htotal list) hpair
  refine ⟨hsorted, ?_⟩
  intro htie
  have hrefl : le first first = true := by simpa using htotal first first
  -- A tie in the sorted list is one in the list, with its elements in the same order.
  have hkept := hpair.filter fun a => le first a && le a first
  rw [filter_mergeSort_of_tie htrans htotal] at hkept
  simp only [List.filter_cons, hrefl, hsorted, htie, Bool.and_self, if_true, List.filter_nil]
    at hkept
  exact List.pairwise_iff_forall_sublist.1 hlist (hkept.trans List.filter_sublist) htie

end Sorting

/-! ## The book -/

/-- What has become of the grants handed over, each with its number. -/
structure GrantBook where
  arrived : List Grant
  queued : List (Grant × Nat)
  /-- The grants that were given up while they were queued. -/
  forgotten : List (Grant × Nat)
  /-- The looks at grants and the numbers of the grants looked at. -/
  looked : List (Look × Nat)

namespace GrantBook

/-- Whether a grant may stand ahead of another one in a schedule, their numbers aside. -/
def notAfter (grant other : Grant × Nat) : Bool := grant.1.notAfter other.1

/-- A grant stands ahead of another one: it is for an earlier time, or for the same time and has
arrived before. -/
def Ahead (grant other : Grant × Nat) : Prop :=
  notAfter grant other = true ∧ (notAfter other grant = true → grant.2 < other.2)

def empty : GrantBook := { arrived := [], queued := [], forgotten := [], looked := [] }

def grants (book : GrantBook) : List (Grant × Nat) :=
  book.queued ++ (book.forgotten ++ book.looked.map (Prod.map Look.grant id))

/-- The schedule from which a call spends. -/
def readied (book : GrantBook) : SegmenterCall → List (Grant × Nat)
  | .addGrants grants _ _ _ =>
    (book.queued ++ grants.zipIdx book.arrived.length).mergeSort notAfter
  | .clear => []
  | _ => book.queued

def givenUp (book : GrantBook) : SegmenterCall → List (Grant × Nat)
  | .clear => book.queued
  | _ => []

/-- The book after a call that has made the given looks. -/
def record (book : GrantBook) (call : SegmenterCall) (looks : List Look) : GrantBook where
  arrived := book.arrived ++ call.grants
  queued := (book.readied call).drop looks.length
  forgotten := book.forgotten ++ book.givenUp call
  looked := book.looked ++ looks.zip ((book.readied call).map Prod.snd)

/-- The book agrees with a schedule, and has every grant handed over once. -/
structure Tracks (book : GrantBook) (schedule : List Grant) : Prop where
  schedule_eq : schedule = book.queued.map Prod.fst
  ordered : book.queued.Pairwise Ahead
  grants_perm : book.grants.Perm book.arrived.zipIdx

theorem tracks_empty : empty.Tracks [] := ⟨rfl, .nil, .nil⟩

variable {book : GrantBook} {segmenter : Segmenter}

/-- The numbers in the book have been given out. -/
theorem Tracks.number_lt {schedule : List Grant} (htracks : book.Tracks schedule)
    {grant : Grant × Nat} (hgrant : grant ∈ book.queued) : grant.2 < book.arrived.length := by
  have harrived := htracks.grants_perm.mem_iff.1 (List.mem_append_left _ hgrant)
  simpa using List.snd_lt_of_mem_zipIdx harrived

/-- Newly numbered grants are sorted into the schedule. -/
theorem Tracks.ordered_readied {schedule : List Grant} (htracks : book.Tracks schedule)
    (call : SegmenterCall) : (book.readied call).Pairwise Ahead := by
  cases call with
  | addGrants grants piggyback now answers =>
    have htrans (a b c : Grant × Nat) (hab : notAfter a b = true) (hbc : notAfter b c = true) :
        notAfter a c = true := Instant.notAfter_trans hab hbc
    apply pairwise_mergeSort_of_ties htrans fun a b => Instant.notAfter_total a.1.time b.1.time
    have hnumbers : (grants.zipIdx book.arrived.length).Pairwise fun a b => a.2 < b.2 := by
      rw [← List.pairwise_map (f := Prod.snd), List.zipIdx_map_snd]
      exact List.pairwise_lt_range'
    rw [List.pairwise_append]
    refine ⟨htracks.ordered.imp And.right, ?_, ?_⟩
    · apply hnumbers.imp
      intro grant other hlt _
      exact hlt
    · intro grant hgrant other hother _
      exact Nat.lt_of_lt_of_le (htracks.number_lt hgrant) (List.le_snd_of_mem_zipIdx hother)
  | clear => exact .nil
  | process => exact htracks.ordered
  | addPiggyback => exact htracks.ordered
  | setMultiplier => exact htracks.ordered

/-- The schedule from which a call spends is the one in the book. -/
theorem Tracks.schedule_readied (htracks : book.Tracks segmenter.grants) (call : SegmenterCall) :
    (segmenter.readied call).grants = (book.readied call).map Prod.fst := by
  have htakes := segmenter.takesIn_readied call
  generalize segmenter.readied call = taken at htakes
  cases htakes with
  | grants grants =>
    have hnotAfter (a b : Grant × Nat) : notAfter a b = a.1.notAfter b.1 := rfl
    rw [readied, List.map_mergeSort fun a _ b _ => hnotAfter a b, List.map_append,
      List.zipIdx_map_fst, ← htracks.schedule_eq]
    rfl
  | clear => rfl
  | _ => exact htracks.schedule_eq

/-- A call gives up what it does not spend from, and numbers what it brings along. -/
theorem readied_append_givenUp_perm (book : GrantBook) (call : SegmenterCall) :
    (book.readied call ++ book.givenUp call).Perm
      (book.queued ++ call.grants.zipIdx book.arrived.length) := by
  cases call with
  | addGrants grants piggyback now answers =>
    rw [show book.givenUp _ = [] from rfl, List.append_nil]
    exact List.mergeSort_perm _ notAfter
  | clear => exact .of_eq (List.append_nil _).symm
  | process => exact .refl _
  | addPiggyback => exact .refl _
  | setMultiplier => exact .refl _

/-- The numbers that looks take off the schedule. -/
theorem map_zip_looks {schedule : List (Grant × Nat)} {looks : List Look}
    (hgrants : looks.map Look.grant = (schedule.map Prod.fst).take looks.length) :
    (looks.zip (schedule.map Prod.snd)).map (Prod.map Look.grant id) =
      schedule.take looks.length := by
  induction looks generalizing schedule with
  | nil => rfl
  | cons look later ih =>
    cases schedule with
    | nil => cases hgrants
    | cons grant others =>
      obtain ⟨hgrant, hothers⟩ := List.cons.inj hgrants
      exact List.cons_eq_cons.2 ⟨Prod.ext hgrant rfl, ih hothers⟩

/-- A call carries the book along. -/
theorem Tracks.perform (htracks : book.Tracks segmenter.grants) (call : SegmenterCall) :
    (book.record call (segmenter.looks call)).Tracks (segmenter.perform call).state.grants := by
  have hperforms := Segmenter.perform_performs segmenter call
  have hschedule := htracks.schedule_readied call
  have hgrants := hperforms.grants_eq
  rw [hschedule] at hgrants
  obtain ⟨last, -, hstate⟩ := hperforms.follow
  constructor
  case schedule_eq =>
    rw [hstate, hschedule, ← List.map_drop]
    rfl
  case ordered => exact (htracks.ordered_readied call).sublist (List.drop_sublist _ _)
  case grants_perm =>
    rw [List.perm_iff_count]
    intro grant
    have hmoved := (book.readied_append_givenUp_perm call).count_eq grant
    have hknown := htracks.grants_perm.count_eq grant
    have hsplit := congrArg (List.count grant)
      (List.take_append_drop (segmenter.looks call).length (book.readied call))
    simp only [grants, record, List.map_append, map_zip_looks hgrants, List.zipIdx_append,
      Nat.zero_add, List.count_append] at hmoved hknown hsplit ⊢
    omega

/-- A call's looks are entered with their numbers. -/
theorem Tracks.looked_eq (htracks : book.Tracks segmenter.grants) (call : SegmenterCall) :
    (book.record call (segmenter.looks call)).looked.map Prod.fst =
      book.looked.map Prod.fst ++ segmenter.looks call := by
  have hgrants := congrArg List.length (Segmenter.perform_performs segmenter call).grants_eq
  rw [htracks.schedule_readied call, List.length_map, List.length_take, List.length_map] at hgrants
  rw [record, List.map_append, List.map_fst_zip]
  rw [List.length_map]
  omega

end GrantBook

namespace Segmenter

def bookAll (segmenter : Segmenter) (book : GrantBook) : List SegmenterCall → GrantBook
  | [] => book
  | call :: later =>
    (segmenter.perform call).state.bookAll (book.record call (segmenter.looks call)) later

theorem arrived_bookAll (segmenter : Segmenter) (book : GrantBook) (calls : List SegmenterCall) :
    (segmenter.bookAll book calls).arrived =
      book.arrived ++ calls.flatMap SegmenterCall.grants := by
  induction calls generalizing segmenter book with
  | nil => exact (List.append_nil _).symm
  | cons call later ih => rw [bookAll, ih, GrantBook.record, List.flatMap_cons, List.append_assoc]

/-- Grants are forgotten only if they are given up. -/
theorem forgotten_bookAll {calls : List SegmenterCall}
    (hkept : ∀ call ∈ calls, call.isClear = false) (segmenter : Segmenter) (book : GrantBook) :
    (segmenter.bookAll book calls).forgotten = book.forgotten := by
  induction calls generalizing segmenter book with
  | nil => rfl
  | cons call later ih =>
    obtain ⟨hcall, hlater⟩ := List.forall_mem_cons.1 hkept
    have hnone : book.givenUp call = [] := by
      cases call with
      | clear => cases hcall
      | _ => rfl
    rw [bookAll, ih hlater, GrantBook.record, hnone, List.append_nil]

/-- Calls carry the book along and enter their looks. -/
theorem tracks_run (calls : List SegmenterCall) {segmenter : Segmenter} {book : GrantBook}
    (htracks : book.Tracks segmenter.grants) :
    (segmenter.bookAll book calls).Tracks (segmenter.run calls).state.grants ∧
      (segmenter.bookAll book calls).looked.map Prod.fst =
        book.looked.map Prod.fst ++ segmenter.lookAll calls := by
  induction calls generalizing segmenter book with
  | nil => exact ⟨htracks, (List.append_nil _).symm⟩
  | cons call later ih =>
    obtain ⟨hlater, hlooked⟩ := ih (htracks.perform call)
    refine ⟨hlater, ?_⟩
    rw [bookAll, hlooked, htracks.looked_eq, lookAll, List.append_assoc]

/-- After a last call that spent what it could, nothing is left to spend, or nothing to spend it
on. -/
theorem idle_of_getLast? (calls : List SegmenterCall) {segmenter : Segmenter} {accepted : Nat}
    (hlast : (segmenter.run calls).value.getLast? = some (.spent (.ok accepted))) :
    (segmenter.run calls).state.queue = [] ∨ (segmenter.run calls).state.grants = [] := by
  induction calls generalizing segmenter with
  | nil => cases hlast
  | cons call later ih =>
    cases later with
    | nil =>
      have hvalue : (segmenter.perform call).value = .spent (.ok accepted) := by
        simpa [run] using hlast
      exact (perform_performs segmenter call).spent accepted hvalue
    | cons next others =>
      apply ih
      simpa [run] using hlast

/-- What a run with the given looks does with the grants handed over to it. -/
structure AccountsGrants (calls : List SegmenterCall) (looks : List Look) (book : GrantBook)
    (outcome : Outcome Segmenter SegmenterReport (List SegmenterAnswer)) : Prop where
  grants_eq : outcome.state.grants = book.queued.map Prod.fst
  /-- The schedule is ordered by the times, and grants for equal times by their arrival. -/
  ordered : book.queued.Pairwise GrantBook.Ahead
  looked_eq : book.looked.map Prod.fst = looks
  /-- The grants handed over are those queued, those forgotten and those looked at. -/
  grants_perm : (book.queued ++ (book.forgotten ++ book.looked.map (Prod.map Look.grant id))).Perm
    (calls.flatMap SegmenterCall.grants).zipIdx
  /-- No grant has two entries; one that has been looked at is not queued. -/
  numbers_nodup : (book.queued.map Prod.snd ++
    (book.forgotten.map Prod.snd ++ book.looked.map Prod.snd)).Nodup
  forgotten_eq_nil : (∀ call ∈ calls, call.isClear = false) → book.forgotten = []
  /-- A grant that is looked at is discarded if its time has passed at the time of the call, and is
  spent otherwise. -/
  expired_iff : ∀ look ∈ looks, look.fate = .expired ↔ look.grant.isExpired look.now = true
  now_mem : ∀ look ∈ looks, look.now ∈ calls.filterMap SegmenterCall.now?
  /-- What is offered are the segments of the grants that are spent for one, once each. -/
  transmissions_eq : offeredTransmissions outcome.reports = looks.filterMap Look.transmission?
  transmission_eq : ∀ look ∈ looks, ∀ transmission, look.transmission? = some transmission →
    look.fate = .offered transmission ∧ transmission.time = look.grant.time ∧
      transmission.channel = look.grant.channel ∧ transmission.occasion = .sendTimer
  /-- A call that spends without failing leaves no packet or no grant. -/
  idle : ∀ accepted, outcome.value.getLast? = some (.spent (.ok accepted)) →
    outcome.state.queue = [] ∨ outcome.state.grants = []

/-- **Accounting of grants.** After every run, each grant handed over is queued, has been forgotten,
or has been looked at once, and has then expired or been spent for at most one segment, which was
offered once for the time and on the channel of the grant. -/
theorem run_accountsGrants (settings : SegmenterSettings) (calls : List SegmenterCall) :
    AccountsGrants calls ((start settings).lookAll calls) ((start settings).bookAll .empty calls)
      ((start settings).run calls) := by
  have hempty : GrantBook.empty.Tracks (start settings).grants := GrantBook.tracks_empty
  obtain ⟨htracks, hlooked⟩ := tracks_run calls hempty
  have hperm := htracks.grants_perm
  rw [arrived_bookAll] at hperm
  constructor
  case grants_eq => exact htracks.schedule_eq
  case ordered => exact htracks.ordered
  case looked_eq => exact hlooked
  case grants_perm => exact hperm
  case numbers_nodup =>
    have hnumbers := (hperm.map Prod.snd).nodup_iff.2 (by
      rw [List.zipIdx_map_snd]
      exact List.nodup_range')
    simpa [GrantBook.grants, Function.comp_def] using hnumbers
  case forgotten_eq_nil => exact fun hkept => forgotten_bookAll hkept _ _
  case expired_iff => exact fun look _ => look.fate_eq_expired_iff
  case now_mem => exact fun _ hlook => now_mem_of_mem_lookAll hlook
  case transmissions_eq => exact offeredTransmissions_run _ calls
  case transmission_eq =>
    intro look _ transmission htransmission
    obtain ⟨-, -, htime, hoccasion, hchannel⟩ := Look.transmission?_eq_some_iff.1 htransmission
    exact ⟨Look.fate_eq_offered_of_transmission? htransmission, htime, hchannel, hoccasion⟩
  case idle => exact fun accepted hlast => idle_of_getLast? calls hlast

end Segmenter

end Ccf
