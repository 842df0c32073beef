import Ccf.Proofs.Reassembly.Processing

/-!
# Runs of the reassembling end

What is delivered to a reassembler is a segment or the bytes of one, on behalf of the segment of a
stream with some index.  Deliveries whose bytes lie in different places make up a reception, and as
long as no index comes twice every packet is accounted for after each of them.
-/

namespace Ccf

/-- What comes in: a segment, or bytes to be read as one. -/
inductive Frame where
  | direct (segment : Segment)
  | wire (id : Nat) (bytes : List UInt8)

namespace Frame

def read : Frame → Except TransferError Segment
  | direct segment => .ok segment
  | wire id bytes => Segment.ofWire id bytes

def id? : Frame → Option Nat
  | direct _ => none
  | wire id _ => some id

def Conveys : Frame → Segment → Prop
  | direct segment, original => segment = original
  | wire _ bytes, original => original.toWire = .ok bytes

end Frame

/-- One frame that comes in on behalf of the segment with an index. -/
structure Delivery where
  index : Nat
  frame : Frame
  now : Instant
  answers : ReassemblerAnswers

namespace Reassembler

/-- Read a frame and take the segment in. -/
def deliver (reassembler : Reassembler) (delivery : Delivery) :
    Outcome Reassembler ReassemblerReport (Except TransferError Nat) :=
  match delivery.frame.read with
  | .error fault => { state := reassembler, reports := [], value := .error fault }
  | .ok segment =>
    let outcome := reassembler.process (some segment) delivery.now delivery.answers
    { state := outcome.state
      reports := outcome.reports
      value := outcome.value.mapError .buffer }

def deliverAll (reassembler : Reassembler) :
    List Delivery → Outcome Reassembler ReassemblerReport (List (Except TransferError Nat))
  | [] => { state := reassembler, reports := [], value := [] }
  | delivery :: later =>
    let first := reassembler.deliver delivery
    let others := first.state.deliverAll later
    { state := others.state
      reports := first.reports ++ others.reports
      value := first.value :: others.value }

theorem deliverAll_concat (reassembler : Reassembler) (earlier : List Delivery)
    (delivery : Delivery) :
    reassembler.deliverAll (earlier ++ [delivery]) =
      { state := ((reassembler.deliverAll earlier).state.deliver delivery).state
        reports := (reassembler.deliverAll earlier).reports ++
          ((reassembler.deliverAll earlier).state.deliver delivery).reports
        value := (reassembler.deliverAll earlier).value ++
          [((reassembler.deliverAll earlier).state.deliver delivery).value] } := by
  induction earlier generalizing reassembler with
  | nil => simp [deliverAll]
  | cons first later ih => simp [deliverAll, ih]

theorem deliver_eq_process {reassembler : Reassembler} {delivery : Delivery} {segment : Segment}
    (hread : delivery.frame.read = .ok segment) :
    reassembler.deliver delivery =
      { state := (reassembler.process (some segment) delivery.now delivery.answers).state
        reports := (reassembler.process (some segment) delivery.now delivery.answers).reports
        value := (reassembler.process (some segment) delivery.now
          delivery.answers).value.mapError .buffer } := by
  rw [deliver, hread]

end Reassembler

namespace Delivery

def bufferedIndices (deliveries : List Delivery) (window : List Waiting) : List Nat :=
  window.filterMap fun entry => deliveries[entry.arrival - 1]?.map index

/-- Whenever a frame comes in, its index and those in the window lie within 8191 successive ones. -/
def Confined (settings : ReassemblerSettings) (deliveries : List Delivery) : Prop :=
  ∀ earlier delivery, earlier ++ [delivery] <+: deliveries →
    ∃ base, ∀ index ∈ delivery.index ::
      bufferedIndices deliveries ((Reassembler.start settings).deliverAll earlier).state.window,
      base ≤ index ∧ index < base + 8191

/-- Where the bytes that come in lie: in the sent packets, or in a packet that is registered. -/
def source (delivery : Delivery) : Nat ⊕ Nat :=
  match delivery.frame with
  | .direct _ => .inl delivery.index
  | .wire id _ => .inr id

/-- A frame that can be read and has the number of the segment with its index; a frame that is not
read from bytes is that segment. -/
def Bears (segments : List Segment) (delivery : Delivery) : Prop :=
  ∃ original segment, segments[delivery.index]? = some original ∧
    delivery.frame.read = .ok segment ∧ segment.sequence = original.sequence ∧
    (delivery.frame.id? = none → segment = original)

def Faithful (segments : List Segment) (delivery : Delivery) : Prop :=
  ∃ original, segments[delivery.index]? = some original ∧ delivery.frame.Conveys original

theorem nodup_sources {deliveries : List Delivery}
    (hindices : (deliveries.map index).Nodup)
    (hids : (deliveries.filterMap fun delivery => delivery.frame.id?).Nodup) :
    (deliveries.map source).Nodup := by
  induction deliveries with
  | nil => exact List.nodup_nil
  | cons delivery later ih =>
    obtain ⟨hindex, hindices⟩ := List.nodup_cons.1 hindices
    have hlater : (later.filterMap fun delivery => delivery.frame.id?).Nodup :=
      hids.sublist ((List.sublist_cons_self _ _).filterMap _)
    refine List.nodup_cons.2 ⟨fun hmem => ?_, ih hindices hlater⟩
    obtain ⟨other, hother, hsame⟩ := List.mem_map.1 hmem
    simp only [source] at hsame
    cases hframe : delivery.frame with
    | direct segment =>
      cases hframe' : other.frame with
      | direct segment' =>
        simp only [hframe, hframe', Sum.inl.injEq] at hsame
        exact hindex (List.mem_map.2 ⟨other, hother, hsame⟩)
      | wire id' bytes' => simp [hframe, hframe'] at hsame
    | wire id bytes =>
      cases hframe' : other.frame with
      | direct segment' => simp [hframe, hframe'] at hsame
      | wire id' bytes' =>
        simp only [hframe, hframe', Sum.inr.injEq] at hsame
        rw [List.filterMap_cons, hframe] at hids
        refine (List.nodup_cons.1 hids).1 (List.mem_filterMap.2 ⟨other, hother, ?_⟩)
        rw [hframe', ← hsame]
        rfl

/-- The segment that arrives under a number; the first one arrives under the number 1. -/
def segmentAt (deliveries : List Delivery) (arrival : Nat) : Segment :=
  (deliveries[arrival - 1]?.bind fun delivery => delivery.frame.read.toOption).getD default

/-- The index on behalf of which a frame comes in under a number. -/
def indexAt (deliveries : List Delivery) (arrival : Nat) : Nat :=
  (deliveries[arrival - 1]?.map index).getD 0

theorem segmentAt_eq {deliveries : List Delivery} {earlier : Nat} {delivery : Delivery}
    {segment : Segment} (hdelivery : deliveries[earlier]? = some delivery)
    (hread : delivery.frame.read = .ok segment) :
    segmentAt deliveries (earlier + 1) = segment := by
  simp [segmentAt, hdelivery, hread, Except.toOption]

theorem indexAt_eq {deliveries : List Delivery} {earlier : Nat} {delivery : Delivery}
    (hdelivery : deliveries[earlier]? = some delivery) :
    indexAt deliveries (earlier + 1) = delivery.index := by
  simp [indexAt, hdelivery]

end Delivery

namespace Stream

variable {stream : Stream}

/-- Deliveries that make up a reception. -/
structure Received (stream : Stream) (deliveries : List Delivery) : Prop where
  bears : ∀ delivery ∈ deliveries, delivery.Bears stream.segments
  nodup : (deliveries.map Delivery.source).Nodup

/-- A frame brings a segment of the stream or one that has been read. -/
theorem read_cases {delivery : Delivery} (hbears : delivery.Bears stream.segments) :
    ∃ segment, delivery.frame.read = .ok segment ∧
      segment.sequence.value = delivery.index % sequenceSpace ∧
      (delivery.source = .inl delivery.index ∧ stream.segments[delivery.index]? = some segment ∨
        ∃ id header content, delivery.source = .inr id ∧
          segment = .ofContent id header content) := by
  obtain ⟨original, segment, horiginal, hread, hsequence, hdirect⟩ := hbears
  have hnumber := (stream.emitted _ _ horiginal).sequence_eq
  refine ⟨segment, hread, ?_, ?_⟩
  · rw [hsequence]
    simp only [Segment.sequence, SequenceNumber.ofWord, hnumber, Nat.mod_mod]
  · cases hframe : delivery.frame with
    | direct sent =>
      rw [hframe] at hdirect
      exact Or.inl ⟨by rw [Delivery.source, hframe], by rw [hdirect rfl, horiginal]⟩
    | wire id bytes =>
      rw [hframe] at hread
      obtain ⟨header, content, hsegment⟩ := Segment.exists_of_ofWire hread
      exact Or.inr ⟨id, header, content, by rw [Delivery.source, hframe], hsegment⟩

/-- A frame that conveys the segment with its index bears its number. -/
theorem bears_of_faithful {delivery : Delivery} (hfaithful : delivery.Faithful stream.segments) :
    delivery.Bears stream.segments := by
  obtain ⟨original, horiginal, hconveys⟩ := hfaithful
  have hemitted := stream.emitted _ _ horiginal
  cases hframe : delivery.frame with
  | direct segment =>
    rw [hframe] at hconveys
    cases hconveys
    exact ⟨original, original, horiginal, by rw [hframe, Frame.read], rfl, fun _ => rfl⟩
  | wire id bytes =>
    rw [hframe] at hconveys
    have hread := Segment.ofWire_toWire (hemitted.validate_eq_ok stream.cluster_le) id hconveys
    refine ⟨original, Segment.ofContent id original.header original.content, horiginal,
      by rw [hframe, Frame.read, hread], rfl, fun hid => ?_⟩
    rw [hframe] at hid
    cases hid

theorem proper_of_bears {delivery : Delivery} (hbears : delivery.Bears stream.segments)
    {segment : Segment} (hread : delivery.frame.read = .ok segment) :
    segment.payload.Proper ∧ segment.cells.Nodup := by
  obtain ⟨_, hread', -, hcases⟩ := read_cases hbears
  rw [hread] at hread'
  cases hread'
  rcases hcases with ⟨-, hsegment⟩ | ⟨id, header, content, -, rfl⟩
  · exact ⟨(stream.emitted _ _ hsegment).proper, nodup_segment hsegment⟩
  · refine ⟨Segment.proper_ofContent id header content, ?_⟩
    rw [Segment.cells_ofContent]
    exact Packet.nodup_cells _

/-- Frames whose bytes lie in different places share no cells. -/
theorem disjoint_of_bears {delivery other : Delivery} (hbears : delivery.Bears stream.segments)
    (hbears' : other.Bears stream.segments) (hne : delivery.source ≠ other.source)
    {segment segment' : Segment} (hread : delivery.frame.read = .ok segment)
    (hread' : other.frame.read = .ok segment') : segment.cells.Disjoint segment'.cells := by
  have hmixed {index id : Nat} {header : SegmentHeader} {content : List UInt8} {sent : Segment}
      (hsent : stream.segments[index]? = some sent) {cell : Cell} (hcell : cell ∈ sent.cells)
      (hmember : cell ∈ (Segment.ofContent id header content).cells) : False := by
    obtain ⟨id', sequence, bytes, hmac⟩ := stream.mac _ (owner_mem hsent hcell).1
    rw [Segment.cells_ofContent, Packet.mem_cells] at hmember
    rw [hmember.1] at hmac
    unfold Packet.mac at hmac
    split at hmac
    · cases hmac
    · cases hmac
  obtain ⟨_, hsame, -, hcases⟩ := read_cases hbears
  obtain ⟨_, hsame', -, hcases'⟩ := read_cases hbears'
  rw [hread] at hsame
  rw [hread'] at hsame'
  cases hsame
  cases hsame'
  intro cell hcell hcell'
  rcases hcases with ⟨hsource, hsegment⟩ | ⟨id, header, content, hsource, rfl⟩
  · rcases hcases' with ⟨hsource', hsegment'⟩ | ⟨id', header', content', hsource', rfl⟩
    · refine disjoint_segments hsegment hsegment' (fun heq => hne ?_) hcell hcell'
      rw [hsource, hsource', heq]
    · exact hmixed hsegment hcell hcell'
  · rcases hcases' with ⟨hsource', hsegment'⟩ | ⟨id', header', content', hsource', rfl⟩
    · exact hmixed hsegment' hcell' hcell
    · rw [Segment.cells_ofContent, Packet.mem_cells] at hcell hcell'
      have howner : (Packet.ofSegmentContent id header content).id =
          (Packet.ofSegmentContent id' header' content').id := by rw [← hcell.1, hcell'.1]
      exact hne (by rw [hsource, hsource']; exact congrArg Sum.inr howner)

/-- A frame that conveys the segment repeats it. -/
theorem repeats_of_conveys {delivery : Delivery} {original segment : Segment}
    (horiginal : stream.segments[delivery.index]? = some original)
    (hconveys : delivery.frame.Conveys original)
    (hread : delivery.frame.read = .ok segment) : segment.Repeats original := by
  have hemitted := stream.emitted _ _ horiginal
  cases hframe : delivery.frame with
  | direct sent =>
    rw [hframe] at hconveys hread
    cases hread
    cases hconveys
    exact ⟨rfl, rfl, rfl⟩
  | wire id bytes =>
    rw [hframe] at hconveys hread
    have hread' := Segment.ofWire_toWire (hemitted.validate_eq_ok stream.cluster_le) id hconveys
    rw [Frame.read, hread'] at hread
    cases hread
    refine ⟨rfl, rfl, ?_⟩
    rw [Segment.map_byte_cells_ofContent, Segment.content_eq hemitted.proper]

theorem Received.exists_delivery {deliveries : List Delivery}
    (hreceived : stream.Received deliveries) {arrival : Nat} (hpositive : 0 < arrival)
    (hle : arrival ≤ deliveries.length) :
    ∃ delivery segment, deliveries[arrival - 1]? = some delivery ∧
      delivery.Bears stream.segments ∧ delivery.frame.read = .ok segment ∧
      Delivery.segmentAt deliveries arrival = segment ∧
      Delivery.indexAt deliveries arrival = delivery.index := by
  obtain ⟨earlier, rfl⟩ : ∃ earlier, arrival = earlier + 1 := ⟨arrival - 1, by omega⟩
  have hdelivery := List.getElem?_eq_getElem (Nat.lt_of_succ_le hle)
  have hbears := hreceived.bears _ (List.getElem_mem (Nat.lt_of_succ_le hle))
  obtain ⟨segment, hread, -⟩ := read_cases hbears
  exact ⟨_, segment, hdelivery, hbears, hread, Delivery.segmentAt_eq hdelivery hread,
    Delivery.indexAt_eq hdelivery⟩

def reception (stream : Stream) (deliveries : List Delivery)
    (hreceived : stream.Received deliveries) : Reception stream where
  count := deliveries.length
  segment := Delivery.segmentAt deliveries
  index := Delivery.indexAt deliveries
  intact index := ∀ delivery ∈ deliveries, delivery.index = index →
    delivery.Faithful stream.segments
  index_lt hpositive hle := by
    obtain ⟨delivery, segment, -, ⟨original, _, horiginal, -⟩, -, -, hindex⟩ :=
      hreceived.exists_delivery hpositive hle
    rw [hindex]
    exact (List.getElem?_eq_some_iff.1 horiginal).1
  sequence_eq hpositive hle := by
    obtain ⟨delivery, segment, -, hbears, hread, hsegment, hindex⟩ :=
      hreceived.exists_delivery hpositive hle
    obtain ⟨_, hread', hsequence, -⟩ := read_cases hbears
    rw [hread] at hread'
    cases hread'
    rw [hsegment, hindex, hsequence]
  proper hpositive hle := by
    obtain ⟨delivery, segment, -, hbears, hread, hsegment, -⟩ :=
      hreceived.exists_delivery hpositive hle
    rw [hsegment]
    exact (proper_of_bears hbears hread).1
  nodup hpositive hle := by
    obtain ⟨delivery, segment, -, hbears, hread, hsegment, -⟩ :=
      hreceived.exists_delivery hpositive hle
    rw [hsegment]
    exact (proper_of_bears hbears hread).2
  disjoint {arrival other} hpositive hle hpositive' hle' hne := by
    obtain ⟨delivery, segment, hplace, hbears, hread, hsegment, -⟩ :=
      hreceived.exists_delivery hpositive hle
    obtain ⟨delivery', segment', hplace', hbears', hread', hsegment', -⟩ :=
      hreceived.exists_delivery hpositive' hle'
    rw [hsegment, hsegment']
    refine disjoint_of_bears hbears hbears' (fun hsource => hne ?_) hread hread'
    have hmapped : (deliveries.map Delivery.source)[arrival - 1]? =
        (deliveries.map Delivery.source)[other - 1]? := by
      rw [List.getElem?_map, List.getElem?_map, hplace, hplace', Option.map_some, Option.map_some,
        hsource]
    have hsame := (List.getElem?_inj (by rw [List.length_map]; omega) hreceived.nodup).1 hmapped
    omega
  repeats hpositive hle hintact original horiginal := by
    obtain ⟨delivery, segment, hplace, -, hread, hsegment, hindex⟩ :=
      hreceived.exists_delivery hpositive hle
    rw [hindex] at horiginal hintact
    obtain ⟨original', horiginal', hconveys⟩ :=
      hintact delivery (List.mem_of_getElem? hplace) rfl
    rw [horiginal] at horiginal'
    cases horiginal'
    rw [hsegment]
    exact repeats_of_conveys horiginal hconveys hread

end Stream

end Ccf
