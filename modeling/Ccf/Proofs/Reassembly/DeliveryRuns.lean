import Ccf.Proofs.Reassembly.Deliveries

/-!
# Accounts of deliveries

After every delivery the reports and the window account for every unspoiled packet.  Where nothing
is damaged this determines them: a packet has been handed out, once, if all its bytes have arrived,
and a segment is in the window if it has bytes of some other packet.
-/

namespace Ccf

open Reception

namespace Stream

variable {stream : Stream} {deliveries : List Delivery}

/-- A stream of fewer segments than there are numbers is confined. -/
theorem Received.confined (hreceived : stream.Received deliveries)
    (hlength : stream.segments.length ≤ 8191) (settings : ReassemblerSettings) :
    Delivery.Confined settings deliveries := by
  have hindex {delivery : Delivery} (hdelivery : delivery ∈ deliveries) :
      delivery.index < 8191 := by
    obtain ⟨original, _, horiginal, -⟩ := hreceived.bears delivery hdelivery
    exact Nat.lt_of_lt_of_le (List.getElem?_eq_some_iff.1 horiginal).1 hlength
  intro earlier delivery hinitial
  refine ⟨0, fun index hmem => ⟨Nat.zero_le _, ?_⟩⟩
  rw [Nat.zero_add]
  rcases List.mem_cons.1 hmem with rfl | hbuffered
  · exact hindex (hinitial.subset (List.mem_append_right _ List.mem_cons_self))
  · obtain ⟨entry, -, hentry⟩ := List.mem_filterMap.1 hbuffered
    obtain ⟨other, hother, rfl⟩ := Option.map_eq_some_iff.1 hentry
    exact hindex (List.mem_of_getElem? hother)

variable {settings : ReassemblerSettings}

section Arrival

variable (hreceived : stream.Received deliveries) {earlier : List Delivery} {delivery : Delivery}
  (hinitial : earlier ++ [delivery] <+: deliveries)
include hinitial

theorem getElem?_of_concat : deliveries[earlier.length]? = some delivery := by
  obtain ⟨later, rfl⟩ := hinitial
  simp

include hreceived in
theorem Received.index_next :
    (stream.reception deliveries hreceived).index (earlier.length + 1) = delivery.index :=
  Delivery.indexAt_eq (getElem?_of_concat hinitial)

/-- A delivery with a new index that is confined with the window is received. -/
theorem Received.receives (hindices : (deliveries.map Delivery.index).Nodup)
    {segment : Segment} (hread : delivery.frame.read = .ok segment) {labels : List (Option Nat)}
    {reports : List ReassemblerReport} {reassembler : Reassembler}
    (hstands : (stream.reception deliveries hreceived).Stands settings earlier.length labels
      reports reassembler) {base : Nat}
    (hclose : ∀ index ∈ delivery.index ::
      Delivery.bufferedIndices deliveries reassembler.window,
      base ≤ index ∧ index < base + 8191) :
    (stream.reception deliveries hreceived).Receives settings labels reports reassembler
      delivery.now (reassembler.arriving segment delivery.now) base := by
  have hplace := getElem?_of_concat hinitial
  have hindex := hreceived.index_next hinitial
  have hsegment : (stream.reception deliveries hreceived).segment (earlier.length + 1) = segment :=
    Delivery.segmentAt_eq hplace hread
  have hlength := hinitial.length_le
  rw [List.length_append, List.length_singleton] at hlength
  have hcount := hstands.arrivals_eq
  rw [← hcount] at hstands hsegment hindex
  refine ⟨hstands, ⟨Nat.succ_pos _, by rw [hcount]; exact hlength⟩, by rw [hsegment], ?_, ?_⟩
  · rintro ⟨arrival, hpositive, hle, hsame⟩
    rw [hindex] at hsame
    obtain ⟨other, _, hother, -, -, -, hindex'⟩ :=
      hreceived.exists_delivery hpositive (Nat.le_trans (hcount ▸ hle) (Nat.le_of_lt hlength))
    have hmapped : (deliveries.map Delivery.index)[earlier.length]? =
        (deliveries.map Delivery.index)[arrival - 1]? := by
      rw [List.getElem?_map, List.getElem?_map, hplace, hother, Option.map_some, Option.map_some,
        ← hsame]
      exact congrArg some hindex'
    have hplaces := (List.getElem?_inj (by rw [List.length_map]; omega) hindices).1 hmapped
    omega
  · intro entry hentry
    have hmem : (stream.reception deliveries hreceived).indexOf entry ∈ delivery.index ::
        Delivery.bufferedIndices deliveries reassembler.window := by
      rcases List.mem_cons.1 hentry with rfl | hold
      · exact List.mem_cons.2 (Or.inl hindex)
      · refine List.mem_cons_of_mem _ (List.mem_filterMap.2 ⟨entry, hold, ?_⟩)
        obtain ⟨hlawful, -⟩ := hstands.lawful entry hold
        obtain ⟨other, _, hother, -, -, -, hindex'⟩ :=
          hreceived.exists_delivery hlawful.arrives.1 hlawful.arrives.2
        rw [hother]
        exact congrArg some hindex'.symm
    obtain ⟨hlow, hhigh⟩ := hclose _ hmem
    simp only [sequenceSpace]
    omega

end Arrival

/-- Every delivery succeeds and leaves every packet accounted for, as long as each comes close to
what is in the window by then. -/
theorem Received.deliverAll_of_close (hreceived : stream.Received deliveries)
    (hindices : (deliveries.map Delivery.index).Nodup)
    (hclose : ∀ earlier delivery, earlier ++ [delivery] <+: deliveries → ∀ labels,
      (stream.reception deliveries hreceived).Stands settings earlier.length labels
        ((Reassembler.start settings).deliverAll earlier).reports
        ((Reassembler.start settings).deliverAll earlier).state →
      ∃ base, ∀ index ∈ delivery.index :: Delivery.bufferedIndices deliveries
          ((Reassembler.start settings).deliverAll earlier).state.window,
        base ≤ index ∧ index < base + 8191)
    (hstall : settings.stallTimeout = none) (hbound : sequenceSpace ≤ settings.windowBound + 1)
    {arrived : List Delivery} (hinitial : arrived <+: deliveries) :
    (∀ value ∈ ((Reassembler.start settings).deliverAll arrived).value,
      ∃ count, value = .ok count) ∧
    ∃ labels, (stream.reception deliveries hreceived).Stands settings arrived.length labels
      ((Reassembler.start settings).deliverAll arrived).reports
      ((Reassembler.start settings).deliverAll arrived).state := by
  induction arrived using List.reverseRecOn with
  | nil => exact ⟨nofun, [], stands_start settings⟩
  | append_singleton earlier delivery ih =>
    obtain ⟨hvalues, labels, hstands⟩ := ih ((List.prefix_append earlier [delivery]).trans hinitial)
    have hplace := getElem?_of_concat hinitial
    obtain ⟨segment, hread, -⟩ := read_cases (hreceived.bears _ (List.mem_of_getElem? hplace))
    obtain ⟨base, hnear⟩ := hclose earlier delivery hinitial labels hstands
    have hreceives := hreceived.receives hinitial hindices hread hstands hnear
    obtain ⟨⟨count, hcount⟩, labels', hstands'⟩ :=
      hreceives.process hstall hbound delivery.answers
    have hsegment : (stream.reception deliveries hreceived).segment (earlier.length + 1) =
        segment := Delivery.segmentAt_eq hplace hread
    rw [hstands.arrivals_eq, hsegment] at hcount hstands'
    rw [Reassembler.deliverAll_concat, Reassembler.deliver_eq_process hread, List.length_append,
      List.length_singleton]
    refine ⟨fun value hvalue => ?_, labels', hstands'⟩
    rcases List.mem_append.1 hvalue with hold | hnew
    · exact hvalues value hold
    · rw [List.mem_singleton.1 hnew, hcount]
      exact ⟨count, rfl⟩

/-- Every delivery of a confined list succeeds and leaves every packet accounted for. -/
theorem Received.deliverAll (hreceived : stream.Received deliveries)
    (hindices : (deliveries.map Delivery.index).Nodup)
    (hconfined : Delivery.Confined settings deliveries)
    (hstall : settings.stallTimeout = none) (hbound : sequenceSpace ≤ settings.windowBound + 1)
    {arrived : List Delivery} (hinitial : arrived <+: deliveries) :
    (∀ value ∈ ((Reassembler.start settings).deliverAll arrived).value,
      ∃ count, value = .ok count) ∧
    ∃ labels, (stream.reception deliveries hreceived).Stands settings arrived.length labels
      ((Reassembler.start settings).deliverAll arrived).reports
      ((Reassembler.start settings).deliverAll arrived).state :=
  hreceived.deliverAll_of_close hindices
    (fun earlier delivery hearlier _ _ => hconfined earlier delivery hearlier) hstall hbound hinitial

end Stream

end Ccf
