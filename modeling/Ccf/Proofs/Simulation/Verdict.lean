import Ccf.CommandLine.Simulate
import Ccf.Proofs.Segmenter.Conservation
import Ccf.Proofs.Simulation.Matching
import Ccf.Proofs.Simulation.Receiving

/-!
# The verdict of a simulation

A simulation comes to its end, and all packets arrive, if the segments of one packet and those that
are reordered together are fewer than there are sequence numbers.  The packing loop leaves a stream
that fills its grants, the way across hands all packets out, and the receiver's notes are what the
summary compares with the packets and the request that were sent.
-/

namespace Ccf

namespace Simulation

section Sent

variable {settings : SegmenterSettings} {packets : List Packet}
  {maxSize size piggyback : Nat} {sender : Sender}

/-- The segments that are sent, as the first part of a line of packets. -/
def Sender.Packs.stream (hpacks : sender.Packs settings packets size piggyback)
    (hsendable : Sendable maxSize packets) : Stream where
  packets := packets
  segments := sender.sent.reverse
  cluster := sender.segmenter.settings.cluster
  mac := hsendable.mac
  nodup := hsendable.nodup
  cluster_le := hpacks.accounts.cluster_le
  emitted := hpacks.accounts.emitted
  cells_prefix := ⟨_, hpacks.accounts.cells_eq⟩

/-- Segments fill their grants inside packets. -/
theorem Sender.Packs.tight_stream (hpacks : sender.Packs settings packets size piggyback)
    (hsendable : Sendable maxSize packets) :
    (hpacks.stream hsendable).Tight (size - SegmentHeader.wireSize) := by
  intro index segment hsegment hroom cell hcell
  have htake : sender.sent.reverse.take (index + 1) =
      sender.sent.reverse.take index ++ [segment] := by
    rw [List.take_add_one]
    exact congrArg (fun next => _ ++ Option.toList next) hsegment
  have hcut : (hpacks.stream hsendable).cut (index + 1) =
      ((sender.sent.reverse.take index ++ [segment]).flatMap Segment.cells).length := by
    rw [Stream.cut, Blocks.boundary, ← List.map_take, ← List.flatMap_def, ← htake]
    rfl
  have hinitial : sender.sent.reverse.take index ++ [segment] <+: sender.sent.reverse :=
    htake ▸ List.take_prefix _ _
  rw [hcut] at hcell
  exact hpacks.tight _ segment hinitial (Nat.add_lt_of_lt_sub hroom) cell hcell

/-- Once the queue is empty, all cells are in segments. -/
theorem Sender.Packs.cells_eq (hpacks : sender.Packs settings packets size piggyback)
    (hqueue : sender.segmenter.queue = []) :
    sender.sent.reverse.flatMap Segment.cells = packets.flatMap Packet.cells := by
  have hcells := hpacks.accounts.cells_eq
  rw [hqueue] at hcells
  exact (List.append_nil _).symm.trans hcells

/-- So are all bytes. -/
theorem Sender.Packs.content_eq (hpacks : sender.Packs settings packets size piggyback)
    (hqueue : sender.segmenter.queue = []) :
    sender.sent.reverse.flatMap Segment.content = packets.flatMap Packet.byteList :=
  calc sender.sent.reverse.flatMap Segment.content
      = (sender.sent.reverse.flatMap Segment.cells).map Cell.byte :=
        Segmenter.flatMap_content_eq hpacks.accounts.emitted
    _ = packets.flatMap fun packet => packet.cells.map Cell.byte := by
        rw [hpacks.cells_eq hqueue, List.map_flatMap]
    _ = packets.flatMap Packet.byteList :=
        List.flatMap_congr fun packet _ => packet.byteList_eq_map_cells.symm

theorem Sender.Packs.exhausted_stream (hpacks : sender.Packs settings packets size piggyback)
    (hsendable : Sendable maxSize packets) (hqueue : sender.segmenter.queue = []) :
    (hpacks.stream hsendable).Exhausted := by
  rw [Stream.Exhausted, Stream.emittedLength_eq]
  exact Nat.le_of_eq (congrArg List.length (hpacks.cells_eq hqueue)).symm

end Sent

def encoded (segment : Segment) : List UInt8 := segment.header.bytes ++ segment.content

/-- Segments of a stream can be written. -/
theorem encodeAll_eq_ok (stream : Stream) :
    encodeAll stream.segments = .ok (stream.segments.map encoded) ∧
      Conveyed stream.segments (stream.segments.map encoded) := by
  have hwire : ∀ segment ∈ stream.segments, segment.toWire = .ok (encoded segment) := by
    intro segment hsegment
    obtain ⟨number, hemitted⟩ := stream.emitted.exists_emitted hsegment
    exact Segment.toWire_eq (hemitted.validate_eq_ok stream.cluster_le)
  constructor
  · apply mapM_eq_ok
    intro segment hsegment
    simp only [hwire segment hsegment]
  · exact List.forall₂_map_right_iff.2 (List.forall₂_same.2 hwire)

/-- Every segment adds a header to its content. -/
theorem length_flatten_encoded (segments : List Segment) :
    (segments.map encoded).flatten.length =
      (segments.flatMap Segment.content).length + SegmentHeader.wireSize * segments.length := by
  induction segments with
  | nil => rfl
  | cons segment others ih =>
    rw [List.map_cons, List.flatten_cons, List.length_append, ih, encoded, List.length_append,
      SegmentHeader.length_bytes, List.flatMap_cons, List.length_append, List.length_cons,
      Nat.mul_succ]
    omega

/-- The stages of a simulation that comes to its end. -/
structure Course (plan : Plan) (chance : Chance) where
  packets : List Packet
  sender : Sender
  wire : List (List UInt8)
  receiver : Receiver
  packets_eq : buildPackets (chance.contents plan.packets plan.maxSize) = .ok packets
  sender_eq : send plan.settings.segmenter packets plan.grantSize plan.piggyback = .ok sender
  wire_eq : encodeAll sender.sent.reverse = .ok wire
  receiver_eq : receive plan.settings.reassembler (arrivals chance plan.reorderDepth wire) =
    .ok receiver

namespace Course

variable {plan : Plan} {chance : Chance}

def summary (course : Course plan chance) : Summary where
  packetsSent := course.packets.length
  packetsReceived := course.receiver.packets.length
  packetsMatched :=
    Matching.count (course.packets.map Packet.byteList) course.receiver.packets
  payloadBytes := (course.packets.flatMap Packet.byteList).length
  segments := course.wire.length
  wireBytes := course.wire.flatten.length
  segmentsDropped := course.receiver.dropped
  windowLeft := course.receiver.reassembler.window.length
  piggybackRequested := plan.piggyback
  piggybackExpected := plan.piggyback - course.sender.segmenter.piggyback
  piggybackReceived := course.receiver.piggyback
  shuffled := plan.reorderDepth.isSome

theorem run_eq (course : Course plan chance) : run plan chance = .ok course.summary := by
  unfold run
  rw [course.packets_eq]
  simp only [bind, Except.bind]
  rw [course.sender_eq]
  simp only
  rw [course.wire_eq]
  simp only
  rw [course.receiver_eq]
  rfl

/-- What chance supplies is sent, and everything arrives. -/
structure Succeeds (course : Course plan chance) : Prop where
  sent_eq : course.summary.packetsSent = plan.packets
  /-- The packets that are sent hold the contents that chance supplies, and are numbered by place. -/
  contents_eq : course.packets.map Packet.byteList =
    (chance.contents plan.packets plan.maxSize).mapIdx fun place content =>
      (MacFrame.ofContent (UInt16.ofNat place) content).bytes
  /-- The packing loop ends because nothing is left to pack. -/
  queue_eq : course.sender.segmenter.queue = []
  /-- The packets that arrive are those that were sent. -/
  packets_perm : course.receiver.packets.Perm (course.packets.map Packet.byteList)
  dropped_eq : course.summary.segmentsDropped = 0
  window_eq : course.summary.windowLeft = 0
  piggyback_eq : course.summary.piggybackReceived = course.summary.piggybackExpected
  wire_eq : course.summary.wireBytes =
    course.summary.payloadBytes + SegmentHeader.wireSize * course.summary.segments

/-- A simulation in which everything arrives is confirmed. -/
theorem Succeeds.isConfirmed {course : Course plan chance} (hsucceeds : course.Succeeds) :
    course.summary.isConfirmed = true := by
  have hreceived : course.summary.packetsReceived = course.summary.packetsSent :=
    calc course.receiver.packets.length
        = (course.packets.map Packet.byteList).length := hsucceeds.packets_perm.length_eq
      _ = course.packets.length := List.length_map _
  have hmatched : course.summary.packetsMatched = course.summary.packetsSent :=
    calc Matching.count (course.packets.map Packet.byteList) course.receiver.packets
        = (course.packets.map Packet.byteList).length :=
          Matching.count_eq_length_of_perm hsucceeds.packets_perm.symm
      _ = course.packets.length := List.length_map _
  rw [Summary.isConfirmed, hmatched, hreceived, hsucceeds.piggyback_eq, hsucceeds.dropped_eq,
    hsucceeds.window_eq]
  simp

end Course

/-- A plan that can be carried out, with room for one packet and for the segments that are reordered
together among the sequence numbers. -/
structure Plan.Feasible (plan : Plan) : Prop where
  segmenter_valid : plan.settings.segmenter.validate = .ok ()
  reassembler_valid : plan.settings.reassembler.validate = .ok ()
  multiplier_eq : plan.settings.reassembler.multiplier = plan.settings.segmenter.multiplier
  patient : plan.settings.reassembler.stallTimeout = none
  window_le : 8191 ≤ plan.settings.reassembler.windowBound
  packets_le : plan.packets ≤ amountMax
  piggyback_le : plan.piggyback ≤ amountMax
  maxSize_pos : 0 < plan.maxSize
  maxSize_le : plan.maxSize ≤ MacHeader.contentMax
  grantSize_gt : SegmentHeader.wireSize < plan.grantSize
  depth_pos : 0 < mixingDepth plan.reorderDepth
  spread_le : (plan.maxSize + MacHeader.wireSize) ⌈/⌉ (plan.grantSize - SegmentHeader.wireSize) +
    1 + mixingDepth plan.reorderDepth ≤ 8191

/-- A plan that can be carried out comes to its end, and everything arrives. -/
theorem Plan.Feasible.exists_course {plan : Plan} (hfeasible : plan.Feasible) {chance : Chance}
    (hfair : chance.Fair) : ∃ course : Course plan chance, course.Succeeds := by
  obtain ⟨hpackets, hsendable⟩ := buildPackets_eq_ok hfeasible.maxSize_le
    (hfair.length_le plan.packets plan.maxSize hfeasible.maxSize_pos)
  have hcount : ((chance.contents plan.packets plan.maxSize).zipIdx.map numbered).length =
      plan.packets := by
    rw [List.length_map, List.length_zipIdx, hfair.length_contents]
  have hcontents := byteList_numbered (chance.contents plan.packets plan.maxSize)
  generalize (chance.contents plan.packets plan.maxSize).zipIdx.map numbered = packets
    at hpackets hsendable hcount hcontents
  have hlength : packets.length * (plan.maxSize + MacHeader.wireSize) < 2 ^ 200 :=
    calc packets.length * (plan.maxSize + MacHeader.wireSize)
        ≤ amountMax * (MacHeader.contentMax + MacHeader.wireSize) :=
          Nat.mul_le_mul (hcount ▸ hfeasible.packets_le)
            (Nat.add_le_add_right hfeasible.maxSize_le _)
      _ < 2 ^ 200 := by decide
  obtain ⟨sender, hsender, hpacks, hqueue⟩ := exists_send hfeasible.segmenter_valid hsendable
    hlength hfeasible.grantSize_gt hfeasible.piggyback_le
  let stream := hpacks.stream hsendable
  obtain ⟨hwire, hconveyed⟩ := encodeAll_eq_ok stream
  obtain ⟨order, hmixed, horder, harrivals⟩ :=
    exists_arrivals hfair hfeasible.depth_pos (stream.segments.map encoded)
  have hcrossing : Crossing stream (stream.segments.map encoded) (mixingDepth plan.reorderDepth)
      order := ⟨hpacks.exhausted_stream hsendable hqueue, hconveyed, hmixed, horder⟩
  have hasked := hpacks.asked_eq
  rw [← hfeasible.multiplier_eq] at hasked
  have hfits : requestedTotal plan.settings.reassembler.multiplier stream.segments ≤ amountMax :=
    Nat.le_trans (Nat.le_of_add_right_le (Nat.le_of_eq hasked)) hfeasible.piggyback_le
  obtain ⟨receiver, hreceiver, hreceived⟩ := hcrossing.exists_receiver
    (hpacks.tight_stream hsendable) (Nat.sub_pos_of_lt hfeasible.grantSize_gt) hsendable.size_le
    hfeasible.spread_le hfeasible.reassembler_valid hfeasible.patient hfeasible.window_le hfits
  rw [← harrivals] at hreceiver
  refine ⟨⟨packets, sender, stream.segments.map encoded, receiver, hpackets, hsender, hwire,
    hreceiver⟩, ?_⟩
  constructor
  case sent_eq => exact hcount
  case contents_eq => exact hcontents
  case queue_eq => exact hqueue
  case packets_perm => exact hreceived.packets_perm
  case dropped_eq => exact hreceived.dropped_eq
  case window_eq => exact congrArg List.length hreceived.window_eq
  case piggyback_eq =>
    have hpending : requestedTotal plan.settings.reassembler.multiplier stream.segments =
        plan.piggyback - sender.segmenter.piggyback := Nat.eq_sub_of_add_eq hasked
    exact hreceived.piggyback_eq.trans hpending
  case wire_eq =>
    have hcontent : stream.segments.flatMap Segment.content = packets.flatMap Packet.byteList :=
      hpacks.content_eq hqueue
    calc (stream.segments.map encoded).flatten.length
        = (stream.segments.flatMap Segment.content).length +
            SegmentHeader.wireSize * stream.segments.length :=
          length_flatten_encoded stream.segments
      _ = (packets.flatMap Packet.byteList).length +
            SegmentHeader.wireSize * (stream.segments.map encoded).length := by
          rw [hcontent, List.length_map]

end Simulation

/-! ## The command -/

namespace CommandLine

/-- The numbers of packets and of bytes of request are words. -/
structure SimulationArguments.FitWords (arguments : SimulationArguments) : Prop where
  packets_le : arguments.packets ≤ amountMax
  piggyback_le : arguments.piggyback ≤ amountMax

theorem amount?_le {text : String} {amount : Nat} (hamount : amount? text = some amount) :
    amount ≤ amountMax := by
  simp only [amount?, Option.ite_none_left_eq_some, Option.ite_none_right_eq_some,
    Option.some.injEq] at hamount
  obtain ⟨-, hfits, rfl⟩ := hamount
  exact hfits

theorem Found.amountOr_le {found : Found} {name : String} {standard : Nat}
    (hstandard : standard ≤ amountMax) : found.amountOr name standard ≤ amountMax := by
  unfold amountOr
  cases hvalue : (found.value? name).bind amount? with
  | none => exact hstandard
  | some amount =>
    obtain ⟨text, -, hamount⟩ := Option.bind_eq_some_iff.1 hvalue
    exact amount?_le hamount

/-- Numbers that a command line supplies are words. -/
theorem fitWords_of_simulationOf? {environmentSeed : Option String} {found : Found}
    {arguments : SimulationArguments}
    (hread : simulationOf? environmentSeed found = some (.simulate arguments)) :
    arguments.FitWords := by
  obtain ⟨seed, -, hsame⟩ := Option.map_eq_some_iff.1 hread
  cases hsame
  constructor
  · exact Found.amountOr_le (by decide)
  · exact Found.amountOr_le (by decide)

namespace SimulationArguments

variable {arguments : SimulationArguments}

def mixing (arguments : SimulationArguments) : Nat :=
  if arguments.shuffle then min arguments.reorderDepth Simulation.reorderMax else 1

theorem validate_eq_ok_iff : arguments.validate = .ok () ↔
    0 < arguments.maxSize ∧ arguments.maxSize ≤ MacHeader.contentMax ∧
      SegmentHeader.wireSize < arguments.grantSize ∧ 0 < arguments.reorderDepth := by
  unfold validate
  split
  · rename_i hsize
    simp only [reduceCtorEq, false_iff]
    omega
  · split
    · simp only [reduceCtorEq, false_iff]
      omega
    · split
      · simp only [reduceCtorEq, false_iff]
        omega
      · simp only [true_iff]
        omega

theorem mixingDepth_plan (settings : LinkSettings) :
    Simulation.mixingDepth (arguments.plan settings).reorderDepth = arguments.mixing := by
  unfold plan mixing
  cases arguments.shuffle <;> rfl

/-- The settings of the plan are the standard ones but for the unit of request. -/
theorem exists_settings_plan (hmultiplier : arguments.multiplier ≠ some 0) :
    ∃ less, (arguments.plan .standard).settings =
      LinkSettings.standard.withMultiplier (less + 1) := by
  unfold plan
  cases hgiven : arguments.multiplier with
  | none => exact ⟨7, rfl⟩
  | some multiplier =>
    have hpositive : multiplier ≠ 0 := fun hzero => hmultiplier (hzero ▸ hgiven)
    obtain ⟨less, rfl⟩ := Nat.exists_eq_succ_of_ne_zero hpositive
    exact ⟨less, rfl⟩

/-- Arguments that pass the check describe a plan that can be carried out. -/
theorem feasible_plan (hvalid : arguments.validate = .ok ())
    (hmultiplier : arguments.multiplier ≠ some 0) (hwords : arguments.FitWords)
    (hspread : (arguments.maxSize + MacHeader.wireSize) ⌈/⌉
      (arguments.grantSize - SegmentHeader.wireSize) + 1 + arguments.mixing ≤ 8191) :
    (arguments.plan .standard).Feasible := by
  obtain ⟨hpositive, hsize, hgrant, hdepth⟩ := validate_eq_ok_iff.1 hvalid
  obtain ⟨less, hsettings⟩ := exists_settings_plan hmultiplier
  constructor
  case segmenter_valid =>
    rw [hsettings]
    rfl
  case reassembler_valid =>
    rw [hsettings]
    rfl
  case multiplier_eq =>
    rw [hsettings]
    rfl
  case patient =>
    rw [hsettings]
    rfl
  case window_le =>
    rw [hsettings]
    exact Nat.le_succ 8191
  case packets_le => exact hwords.packets_le
  case piggyback_le => exact hwords.piggyback_le
  case maxSize_pos => exact hpositive
  case maxSize_le => exact hsize
  case grantSize_gt => exact hgrant
  case depth_pos =>
    rw [mixingDepth_plan, mixing]
    split
    · exact Nat.lt_min.2 ⟨hdepth, by decide⟩
    · exact Nat.one_pos
  case spread_le =>
    rw [mixingDepth_plan]
    exact hspread

end SimulationArguments

/-- The report on a confirmed simulation says so. -/
theorem ok_mem_simulationReport (seed : Nat) {summary : Simulation.Summary}
    (hconfirmed : summary.isConfirmed = true) :
    ("ok", Json.Writing.flag true) ∈ (simulationReport seed summary).members := by
  simp [simulationReport, summaryEntries, hconfirmed]

/-- **A simulation succeeds whenever the sequence numbers suffice.** The segments of one packet and
those that are reordered together may be as many as there are sequence numbers but one.  Then,
whatever chance puts into the packets and in whichever order segments arrive, as many packets as
the arguments say are sent with these contents, all of them arrive, nothing is given up or left
over, and the command reports success. -/
theorem simulate_succeeds {arguments : SimulationArguments} {chance : Chance}
    (hvalid : arguments.validate = .ok ()) (hconfig : arguments.config = none)
    (hmultiplier : arguments.multiplier ≠ some 0) (hwords : arguments.FitWords)
    (hfair : chance.Fair)
    (hspread : (arguments.maxSize + MacHeader.wireSize) ⌈/⌉
      (arguments.grantSize - SegmentHeader.wireSize) + 1 + arguments.mixing ≤ 8191) :
    ∃ course : Simulation.Course (arguments.plan .standard) chance,
      course.Succeeds ∧
        course.summary.packetsSent = arguments.packets ∧
        ("ok", Json.Writing.flag true) ∈
          (simulationReport arguments.seed course.summary).members ∧
        ∀ readFile complaint format, simulate readFile complaint arguments format chance =
          .success ((simulationReport arguments.seed course.summary).print format) := by
  obtain ⟨course, hsucceeds⟩ :=
    (SimulationArguments.feasible_plan hvalid hmultiplier hwords hspread).exists_course hfair
  refine ⟨course, hsucceeds, hsucceeds.sent_eq,
    ok_mem_simulationReport _ hsucceeds.isConfirmed, ?_⟩
  intro readFile complaint format
  rw [simulate, hvalid, hconfig]
  simp only [loadSettings]
  rw [course.run_eq]
  simp only [endingOf, hsucceeds.isConfirmed, if_true]

/-- Packets that may be spread over 4095 segments, while 4096 are reordered together. -/
theorem simulate_succeeds_tight :
    let arguments : SimulationArguments :=
      { packets := 100
        maxSize := 4090
        grantSize := 9
        multiplier := none
        piggyback := 357
        seed := 1
        shuffle := true
        reorderDepth := 5000
        config := none }
    ∃ course : Simulation.Course (arguments.plan .standard) (.seeded 1),
      course.Succeeds ∧ course.summary.packetsSent = 100 ∧
        simulate (fun _ => .error .notFound) id arguments .json (.seeded 1) =
          .success ((simulationReport 1 course.summary).print .json) := by
  intro arguments
  have hvalid : arguments.validate = .ok () := rfl
  obtain ⟨course, hsucceeds, hsent, -, hends⟩ := simulate_succeeds hvalid rfl (by decide)
    ⟨by decide, by decide⟩ (Chance.fair_seeded 1) (by decide)
  exact ⟨course, hsucceeds, hsent, hends _ id .json⟩

end CommandLine

end Ccf
