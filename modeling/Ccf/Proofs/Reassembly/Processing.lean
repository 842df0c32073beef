import Ccf.Proofs.Reassembly.RunIndices

/-!
# Taking segments in

One call takes one segment in.  Before and after it, the window and the reports account for every
unspoiled packet: one all of whose segments have arrived has been handed out, any other is awaited.
The calls do not fail, and the window stays within its bound as long as the segments in it and the
one that arrives lie within one round of sequence numbers, less one.
-/

namespace Ccf

namespace Reassembler

/-- A call that takes a segment in reports its request, walks the run that it joins, and gives up
what has to be given up. -/
theorem process_some (reassembler : Reassembler) (segment : Segment) (now : Instant)
    (answers : ReassemblerAnswers) :
    ∃ front refused, deliveredTables front = [] ∧ ¬ GivesUp front ∧
      let anchor := Window.anchorFor (reassembler.arriving segment now) reassembler.window
      let outcome := (Walk.begin anchor.cut.1 0 refused).finish answers.packet
      let walked : Reassembler :=
        { settings := reassembler.settings
          window := anchor.cut.2.fill outcome.walk.remaining
          arrivals := reassembler.arrivals + 1
          refusals := outcome.walk.refused }
      outcome.fault = none →
        reassembler.process (some segment) now answers =
          { state := (walked.evict now).state
            reports := front ++ outcome.reports ++ (walked.evict now).reports
            value := .ok outcome.walk.delivered } := by
  obtain ⟨refused, front, heq, hfront⟩ :=
    reassembler.report_eq segment.header answers.request
  have hkept : ¬ GivesUp front := by
    rintro ⟨given, hmem⟩
    obtain ⟨cluster, bytes, answer, hrequest⟩ := hfront _ hmem
    cases hrequest
  refine ⟨front, refused, deliveredTables_of_requests hfront, hkept, ?_⟩
  intro anchor outcome walked hfault
  have harriving : ({ reassembler with refusals := refused } : Reassembler).arriving segment now =
      reassembler.arriving segment now := rfl
  have hfault' : ((Walk.begin (Window.anchorFor (reassembler.arriving segment now)
      reassembler.window).cut.1 0 refused).finish answers.packet).fault = none := hfault
  simp only [process, receive, heq, harriving, walkRun, Outcome.after, hfault']
  rfl

/-- Nothing is given up without a time limit in a window within its bound. -/
theorem evict_eq_self (reassembler : Reassembler)
    (hstall : reassembler.settings.stallTimeout = none)
    (hbound : reassembler.window.length ≤ reassembler.settings.windowBound) (now : Instant) :
    reassembler.evict now = { state := reassembler, reports := [], value := 0 } := by
  simp only [evict, divideStale, hstall, Nat.sub_eq_zero_of_le hbound, takeOldest]
  rfl

end Reassembler

namespace Reception

open Walk

variable {stream : Stream} (reception : Reception stream)

structure Complete (arrivals number : Nat) : Prop where
  emitted : stream.origin (number + 1) ≤ stream.emittedLength
  arrived : ∀ index, stream.Touches index number → reception.ArrivedBy arrivals index

/-- A window and the reports so far account for every unspoiled packet. -/
structure Stands (settings : ReassemblerSettings) (arrivals : Nat) (labels : List (Option Nat))
    (reports : List ReassemblerReport) (reassembler : Reassembler) : Prop where
  settings_eq : reassembler.settings = settings
  arrivals_eq : reassembler.arrivals = arrivals
  sorted : Window.Sorted reassembler.window
  lawful : ∀ entry ∈ reassembler.window, reception.Lawful entry ∧ entry.arrival ≤ arrivals
  nodup : (reassembler.window.map reception.indexOf).Nodup
  status : ∀ number, reception.Unspoiled number →
    reception.Awaited arrivals reassembler.window labels number ∨
      reception.Settled arrivals reassembler.window labels number
  complete : ∀ number, reception.Unspoiled number → reception.Complete arrivals number →
    ¬ reception.Awaited arrivals reassembler.window labels number
  busy : ¬ reception.Damaged → ∀ entry ∈ reassembler.window,
    0 < entry.lead ∨ entry.next < entry.size
  handed : List.Forall₂ reception.Matches labels (deliveredTables reports)
  damaged : GivesUp reports → reception.Damaged

variable {reception}

theorem stands_start (settings : ReassemblerSettings) :
    reception.Stands settings 0 [] [] (Reassembler.start settings) where
  settings_eq := rfl
  arrivals_eq := rfl
  sorted := List.Pairwise.nil
  lawful := nofun
  nodup := List.nodup_nil
  status number _ := Or.inl ⟨by
    rintro index - ⟨arrival, hpositive, hle, -⟩
    omega, nofun⟩
  complete number hnumber hcomplete := by
    have hbegin : stream.origin number < stream.emittedLength :=
      Nat.lt_of_lt_of_le (Stream.origin_lt hnumber.1 (Nat.lt_add_one number)) hcomplete.emitted
    obtain ⟨first, -, hlow, hhigh⟩ := Stream.exists_segment hbegin
    obtain ⟨arrival, hpositive, hle, -⟩ :=
      hcomplete.arrived first (Stream.StartsIn.touches ⟨hnumber.1, hlow, hhigh⟩)
    omega
  busy _ := nofun
  handed := List.Forall₂.nil
  damaged := by simp [GivesUp]

section Arriving

variable {reassembler : Reassembler} {now : Instant}
  (harrives : reception.Arrives (reassembler.arrivals + 1))
include harrives

/-- The entry for a segment that arrives is lawful. -/
theorem lawful_arriving :
    reception.Lawful
      (reassembler.arriving (reception.segment (reassembler.arrivals + 1)) now) where
  toCoherent := .arriving _ _ _
  arrives := harrives
  segment_eq := rfl
  aligned hintact hstarts _ := by
    obtain ⟨original, horiginal⟩ := harrives.original
    have hrepeats := reception.repeats harrives.1 harrives.2 hintact original horiginal
    simp only [Waiting.startsPacket, Reassembler.arriving] at hstarts
    have hpfi := hstarts
    rw [hrepeats.pfi_eq] at hpfi
    obtain ⟨number, hnumber, horigin⟩ := Stream.exists_origin_eq horiginal hpfi
    refine ⟨number, hnumber, ?_⟩
    simp only [Reassembler.arriving, hstarts, if_true, hrepeats.offmac_eq]
    exact horigin

/-- A segment that arrives owes every unspoiled packet that it touches. -/
theorem owes_arriving {number : Nat} (hnumber : reception.Unspoiled number)
    (htouches : stream.Touches (reception.index (reassembler.arrivals + 1)) number) :
    reception.Owes
      (reassembler.arriving (reception.segment (reassembler.arrivals + 1)) now) number := by
  have hentry : reception.Lawful (reassembler.arriving
      (reception.segment (reassembler.arrivals + 1)) now) := lawful_arriving harrives
  have hintact := hentry.intact_of_touches hnumber htouches
  refine ⟨htouches, fun hge => ?_, fun hlt hstarts => ?_, fun _ hstarts => ?_⟩
  · have hstartsIn : stream.StartsIn number (reception.indexOf
        (reassembler.arriving (reception.segment (reassembler.arrivals + 1)) now)) :=
      ⟨hnumber.1, hge, htouches.2⟩
    have hstarts := (hentry.startsPacket_iff hintact).2 ⟨number, hstartsIn⟩
    have hle := hentry.firstStart_le hintact hstartsIn
    simp only [Waiting.startsPacket, Reassembler.arriving] at hstarts
    simp only [Reassembler.arriving, hstarts, if_true]
    exact hle
  · have hend := hentry.origin_succ_eq hintact hstarts ⟨hlt, htouches.1⟩
    have hcrosses : stream.cut (reception.indexOf
        (reassembler.arriving (reception.segment (reassembler.arrivals + 1)) now)) <
          stream.origin (number + 1) := htouches.1
    rw [hend] at hcrosses
    simp only [Waiting.startsPacket, Reassembler.arriving] at hstarts
    simp only [Waiting.firstStart, Reassembler.arriving] at hcrosses
    simp only [Reassembler.arriving, hstarts, if_true]
    omega
  · simp only [Waiting.startsPacket, Reassembler.arriving] at hstarts
    simp [Reassembler.arriving, hstarts]

end Arriving

/-- Where nothing is damaged, the entries of an open packet have bytes to be parsed. -/
theorem busy_of_opened (hsound : ¬ reception.Damaged) {packet : OpenPacket} {next : Nat}
    (hpacket : reception.Composed packet) (hopened : reception.OpenedAt packet next) :
    ∀ entry ∈ packet.entries.reverse, entry.next < entry.size := by
  obtain ⟨oldest, others, whole, hentries, hopened⟩ := hopened
  intro entry hentry
  have hlawful := hpacket.lawful entry (List.mem_reverse.1 hentry)
  cases hwhole : whole with
  | none => exact absurd (hopened.foreign hwhole).1 hsound
  | some number =>
    rw [hentries] at hentry
    rcases List.mem_cons.1 hentry with rfl | hother
    · apply hpacket.unparsed entry _ hopened.starts
      rw [← List.mem_reverse, hentries]
      exact List.mem_cons_self
    · rw [((hopened.gathers number hwhole).plain entry hother).2]
      exact hlawful.size_pos (intact_of_not_damaged hsound hlawful)

/-! ## One call -/

/-- A window that accounts for every packet, and a segment that arrives. -/
structure Receives (reception : Reception stream) (settings : ReassemblerSettings)
    (labels : List (Option Nat)) (reports : List ReassemblerReport) (reassembler : Reassembler)
    (now : Instant) (entry : Waiting) (base : Nat) : Prop where
  stands : reception.Stands settings reassembler.arrivals labels reports reassembler
  arrives : reception.Arrives (reassembler.arrivals + 1)
  entry_eq : entry =
    reassembler.arriving (reception.segment (reassembler.arrivals + 1)) now
  fresh : ¬ reception.ArrivedBy reassembler.arrivals (reception.index (reassembler.arrivals + 1))
  close : reception.Close base (entry :: reassembler.window)

section Receives

variable {settings : ReassemblerSettings} {labels : List (Option Nat)}
  {reports : List ReassemblerReport} {reassembler : Reassembler} {now : Instant} {entry : Waiting}
  {base : Nat}
  (hreceives : Receives reception settings labels reports reassembler now entry base)
include hreceives

theorem Receives.indexOf_eq :
    reception.indexOf entry = reception.index (reassembler.arrivals + 1) := by
  rw [hreceives.entry_eq]
  rfl

theorem Receives.lawful : reception.Lawful entry := by
  rw [hreceives.entry_eq]
  exact lawful_arriving hreceives.arrives

theorem Receives.assembled : Assembled reception base (entry :: reassembler.window) where
  lawful other hother := by
    rcases List.mem_cons.1 hother with rfl | hold
    · exact hreceives.lawful
    · exact (hreceives.stands.lawful other hold).1
  nodup := by
    refine List.nodup_cons.2 ⟨fun hmem => hreceives.fresh ?_, hreceives.stands.nodup⟩
    obtain ⟨other, hother, heq⟩ := List.mem_map.1 hmem
    obtain ⟨hlawful, hle⟩ := hreceives.stands.lawful other hother
    exact ⟨other.arrival, hlawful.arrives.1, hle, heq.trans hreceives.indexOf_eq⟩
  close := hreceives.close

theorem Receives.distinct : (Window.anchorFor entry reassembler.window).Distinct := by
  obtain ⟨hentry, hwindow⟩ := Window.anchorFor_eq entry reassembler.window
  obtain ⟨hbefore, hafter⟩ := Window.anchorFor_spec entry hreceives.stands.sorted
  refine ⟨by rw [hwindow]; exact hreceives.stands.sorted, ?_, ?_, ?_⟩
  · rwa [hentry]
  · rwa [hentry]
  · rw [hentry, hwindow]
    exact hreceives.assembled.sequences_nodup

/-- What an unspoiled packet is to the window it is to the window with the new entry. -/
theorem Receives.status {number : Nat} (hnumber : reception.Unspoiled number) :
    reception.Awaited (reassembler.arrivals + 1) (entry :: reassembler.window) labels number ∨
      reception.Settled (reassembler.arrivals + 1) (entry :: reassembler.window) labels number := by
  have hlater {index : Nat} (harrived : reception.ArrivedBy reassembler.arrivals index) :
      reception.ArrivedBy (reassembler.arrivals + 1) index := by
    obtain ⟨arrival, hpositive, hle, heq⟩ := harrived
    exact ⟨arrival, hpositive, Nat.le_succ_of_le hle, heq⟩
  rcases hreceives.stands.status number hnumber with hawaited | hsettled
  · refine Or.inl ⟨fun index htouches harrived => ?_, hawaited.not_mem⟩
    obtain ⟨arrival, hpositive, hle, rfl⟩ := harrived
    rw [owed_cons]
    rcases Nat.lt_or_ge reassembler.arrivals arrival with hlt | hge
    · have hsame : arrival = reassembler.arrivals + 1 := by omega
      subst hsame
      refine Or.inl ⟨hreceives.indexOf_eq, ?_⟩
      rw [hreceives.entry_eq]
      exact owes_arriving hreceives.arrives hnumber htouches
    · exact Or.inr (hawaited.owed _ htouches ⟨arrival, hpositive, hge, rfl⟩)
  · refine Or.inr ⟨hsettled.emitted, fun index htouches => hlater (hsettled.arrived index htouches),
      fun index howed => ?_, hsettled.count_eq⟩
    rcases owed_cons.1 howed with ⟨-, howes⟩ | hold
    · have htouches := howes.touches
      rw [hreceives.indexOf_eq] at htouches
      exact hreceives.fresh (hsettled.arrived _ htouches)
    · exact hsettled.not_owed index hold

/-- The walk of the run that the new entry joins starts with every packet accounted for. -/
theorem Receives.tracks (refused : Nat) {front : List ReassemblerReport}
    (htables : deliveredTables front = []) (hkept : ¬ GivesUp front) :
    ∃ stop, reception.Tracks (reassembler.arrivals + 1) base
        (Window.anchorFor entry reassembler.window).cut.2.window stop labels (reports ++ front)
        (Walk.begin (Window.anchorFor entry reassembler.window).cut.1 0 refused) ∧
      ∀ other ∈ (Window.anchorFor entry reassembler.window).cut.1,
        reception.indexOf other < stop := by
  obtain ⟨earlier, later, between, hcut⟩ :=
    (Window.anchorFor entry reassembler.window).cut_cutsRun
  have hperm := Window.cut_perm entry reassembler.window
  have hassembled := hreceives.assembled.perm hperm.symm
  obtain ⟨first, hindices⟩ := consecutive_of_isChain
    (hassembled.sublist (List.sublist_append_right _ _)) hcut.chained
  refine ⟨first + (Window.anchorFor entry reassembler.window).cut.1.length,
    ⟨?_, hassembled.close, hassembled.nodup, ⟨first, hindices, rfl⟩, nofun, nofun, nofun, ?_, ?_,
      ?_⟩, ?_⟩
  · intro other hother
    refine ⟨hassembled.lawful other hother, ?_⟩
    rcases List.mem_cons.1 (hperm.mem_iff.1 hother) with rfl | hold
    · rw [hreceives.entry_eq]
      exact Nat.le_refl _
    · exact Nat.le_succ_of_le (hreceives.stands.lawful other hold).2
  · intro number hnumber
    exact (hreceives.status hnumber).imp (Awaited.congr hperm.symm) (Settled.congr hperm.symm)
  · rw [deliveredTables_append, htables, List.append_nil]
    exact hreceives.stands.handed
  · rintro ⟨segment, hsegment⟩
    rcases List.mem_append.1 hsegment with hold | hnew
    · exact hreceives.stands.damaged ⟨segment, hold⟩
    · exact absurd ⟨segment, hnew⟩ hkept
  · intro other hother
    have hmem := List.mem_map_of_mem (f := reception.indexOf) hother
    rw [hindices, List.mem_range'_1] at hmem
    exact hmem.2

/-- A walk to the end of the run leaves no packet awaited that is complete with the new entry. -/
theorem Receives.not_awaited {stop : Nat} {labels' : List (Option Nat)}
    {reports' : List ReassemblerReport} {walk : Walk} (hinitial : labels <+: labels')
    (hrun : ∀ other ∈ (Window.anchorFor entry reassembler.window).cut.1,
      reception.indexOf other < stop)
    (htracks : reception.Tracks (reassembler.arrivals + 1) base
      (Window.anchorFor entry reassembler.window).cut.2.window stop labels' reports' walk)
    (hended : walk.ahead = []) {number : Nat} (hnumber : reception.Unspoiled number)
    (hcomplete : reception.Complete (reassembler.arrivals + 1) number) :
    ¬ reception.Awaited (reassembler.arrivals + 1)
      ((Window.anchorFor entry reassembler.window).cut.2.window ++ walk.held) labels' number := by
  intro hawaited
  have hnew : some number ∉ labels := fun hmem => hawaited.not_mem (hinitial.subset hmem)
  have hbefore := (hreceives.status hnumber).resolve_right fun hsettled => by
    rw [← List.count_eq_zero, hsettled.count_eq] at hnew
    cases hnew
  have htouches : stream.Touches (reception.index (reassembler.arrivals + 1)) number := by
    by_contra hapart
    have hcomplete' : reception.Complete reassembler.arrivals number := by
      refine ⟨hcomplete.emitted, fun index htouches => ?_⟩
      obtain ⟨arrival, hpositive, hle, rfl⟩ := hcomplete.arrived index htouches
      rcases Nat.lt_or_ge reassembler.arrivals arrival with hlt | hge
      · have hsame : arrival = reassembler.arrivals + 1 := by omega
        subst hsame
        exact absurd htouches hapart
      · exact ⟨arrival, hpositive, hge, rfl⟩
    apply hreceives.stands.complete number hnumber hcomplete'
    apply (hreceives.stands.status number hnumber).resolve_right
    intro hsettled
    rw [← List.count_eq_zero, hsettled.count_eq] at hnew
    cases hnew
  obtain ⟨hentry, -⟩ := Window.anchorFor_eq entry reassembler.window
  obtain ⟨earlier, later, between, hcut⟩ :=
    (Window.anchorFor entry reassembler.window).cut_cutsRun
  have hperm := Window.cut_perm entry reassembler.window
  have hassembled := (hreceives.assembled.perm hperm.symm).perm List.perm_append_comm
  have hheld : ∀ index, stream.Touches index number →
      ∃ other ∈ (Window.anchorFor entry reassembler.window).cut.1 ++
        (Window.anchorFor entry reassembler.window).cut.2.window,
        reception.indexOf other = index := by
    intro index hindex
    obtain ⟨other, hother, heq, -⟩ := hbefore.owed index hindex (hcomplete.arrived index hindex)
    exact ⟨other, List.perm_append_comm.mem_iff.1 (hperm.mem_iff.2 hother), heq⟩
  have hinside : ∃ other ∈ (Window.anchorFor entry reassembler.window).cut.1,
      reception.indexOf other = reception.index (reassembler.arrivals + 1) := by
    refine ⟨entry, ?_, hreceives.indexOf_eq⟩
    rw [hcut.run_eq, hentry]
    exact List.mem_append_right _ List.mem_cons_self
  have hall := mem_run_of_touches hreceives.distinct hcut hassembled hheld htouches hinside
  refine not_awaited_of_ended htracks hended hnumber hcomplete.emitted hcomplete.arrived
    (fun index hindex => ?_) (fun other hother hindex => ?_) hawaited
  · obtain ⟨other, hother, rfl⟩ := hall index hindex
    exact hrun other hother
  · obtain ⟨same, hsame, heq⟩ := hall _ hindex
    have hpairs := hassembled.nodup
    rw [List.map_append] at hpairs
    exact (List.nodup_append'.1 hpairs).2.2 (List.mem_map_of_mem hsame)
      (by rw [heq]; exact List.mem_map_of_mem hother)

/-- A call that takes a segment in does not fail and accounts for every packet. -/
theorem Receives.process (hstall : settings.stallTimeout = none)
    (hbound : sequenceSpace ≤ settings.windowBound + 1) (answers : ReassemblerAnswers) :
    (∃ count, (reassembler.process (some (reception.segment (reassembler.arrivals + 1))) now
        answers).value = .ok count) ∧
      ∃ labels', reception.Stands settings (reassembler.arrivals + 1) labels'
        (reports ++ (reassembler.process
          (some (reception.segment (reassembler.arrivals + 1))) now answers).reports)
        (reassembler.process (some (reception.segment (reassembler.arrivals + 1))) now
          answers).state := by
  obtain ⟨front, refused, htables, hkept, hprocess⟩ := reassembler.process_some
    (reception.segment (reassembler.arrivals + 1)) now answers
  rw [← hreceives.entry_eq] at hprocess
  dsimp only at hprocess
  obtain ⟨stop, htracks, hrun⟩ := hreceives.tracks refused htables hkept
  obtain ⟨hfault, hended, labels', hinitial, htracks'⟩ := tracks_finish answers.packet htracks
  generalize houtcome : (Walk.begin (Window.anchorFor entry reassembler.window).cut.1 0
    refused).finish answers.packet = outcome at hprocess hfault hended htracks'
  have hperm : ((Window.anchorFor entry reassembler.window).cut.2.fill
      outcome.walk.remaining).Perm
      ((Window.anchorFor entry reassembler.window).cut.2.window ++ outcome.walk.held) := by
    apply (Gap.fill_perm _ _).trans
    exact outcome.walk.remaining_perm.append_left _
  have hassembled : Assembled reception base
      ((Window.anchorFor entry reassembler.window).cut.2.window ++ outcome.walk.held) :=
    ⟨fun other hother => (htracks'.lawful other hother).1, htracks'.nodup, htracks'.close⟩
  have hlength := (hassembled.perm hperm.symm).length_lt
  have hbounded : ((Window.anchorFor entry reassembler.window).cut.2.fill
      outcome.walk.remaining).length ≤ settings.windowBound := by omega
  rw [← hreceives.stands.settings_eq] at hstall hbounded
  have hevict := Reassembler.evict_eq_self
    { settings := reassembler.settings
      window := (Window.anchorFor entry reassembler.window).cut.2.fill outcome.walk.remaining
      arrivals := reassembler.arrivals + 1
      refusals := outcome.walk.refused } hstall hbounded now
  rw [hprocess hfault, hevict]
  have hgap := Window.gap_sublist entry reassembler.window
  have hsorted := hreceives.stands.sorted.sublist hgap
  refine ⟨⟨_, rfl⟩, labels', hreceives.stands.settings_eq, rfl, Gap.fill_sorted hsorted _, ?_, ?_,
    ?_, ?_, ?_, ?_, ?_⟩
  · intro other hother
    exact htracks'.lawful other (hperm.mem_iff.1 hother)
  · exact (hperm.map reception.indexOf).nodup_iff.2 htracks'.nodup
  · intro number hnumber
    exact (htracks'.status number hnumber).imp (Awaited.congr hperm.symm)
      (Settled.congr hperm.symm)
  · intro number hnumber hcomplete hawaited
    exact hreceives.not_awaited hinitial hrun htracks' hended hnumber hcomplete
      (hawaited.congr hperm)
  · intro hsound other hother
    rcases List.mem_append.1 (hperm.mem_iff.1 hother) with haside | hheld
    · exact hreceives.stands.busy hsound other (hgap.subset haside)
    · rw [held, hended, List.append_nil] at hheld
      rcases List.mem_append.1 hheld with hstayed | hopen
      · exact (htracks'.kept other hstayed).2
      · cases hpending : outcome.walk.pending with
        | none => rw [hpending] at hopen; cases hopen
        | some packet =>
          rw [hpending] at hopen
          exact Or.inr (busy_of_opened hsound (htracks'.composed packet hpending)
            (htracks'.opened packet hpending) other hopen)
  · simpa only [List.append_assoc, List.append_nil] using htracks'.handed
  · simpa only [List.append_assoc, List.append_nil] using htracks'.damaged

end Receives

end Reception

end Ccf
