import Ccf.Proofs.PiggybackTransfer
import Ccf.Proofs.Wire.FrameStreams
import Ccf.Simulation.Basic

/-!
# What the packing loop of a simulation leaves behind

The sending end of a simulation has all packets and the whole request before the first grant, and
then gets one grant after another.  Every grant comes while the queue is not empty and has room for
content, so it takes a segment off the queue: the loop ends with the queue empty, after no more
grants than there are bytes.

`Sender.Packs` is what every grant keeps.  Beyond the account of cells and requests it says where a
segment may leave room in its grant: only ahead of a packet start, or at the end of everything.
-/

namespace Ccf

/-- A whole number is not before zero, as long as it is below the largest exponent. -/
theorem Instant.ofNat_before_zero {count : Nat} (hcount : count < 2 ^ 200) :
    (ofNat count).before .zero = false := by
  by_cases hzero : count = 0
  · rw [hzero]
    decide
  · have hexponent : count.log2 < 200 := (Nat.log2_lt hzero).2 hcount
    have hpositive : (ofNat count).isNegative = false := by
      rw [ofNat, if_neg hzero]
      simp only [isNegative, signBit, binadeSize, UInt64.toNat_ofNat', decide_eq_false_iff_not]
      omega
    have hplace : ¬ (ofNat count).place < zero.place := by
      rw [place, hpositive]
      exact Int.not_lt.2 (Int.natCast_nonneg _)
    rw [before, decide_eq_false hplace, Bool.and_false]

namespace Segmenter

variable {packets : List Packet} {built : List Segment}

/-- A queue in order has cells, unless it is empty. -/
theorem queueCells_eq_nil_iff {queue : List QueuedPacket} (hready : QueueReady queue) :
    queueCells queue = [] ↔ queue = [] := by
  cases queue with
  | nil => simp
  | cons front others =>
    have hpos : 0 < front.piece.length :=
      Nat.sub_pos_of_lt (hready.placed_lt front List.mem_cons_self)
    have hcells : (queueCells (front :: others)).length ≠ 0 := by
      rw [queueCells_cons, List.length_append, Piece.length_cells]
      omega
    constructor
    · intro hnil
      exact absurd (congrArg List.length hnil) hcells
    · intro hnil
      cases hnil

/-- What comes off a queue first begins a packet, if nothing of the packet has been placed. -/
theorem position_of_untouched {next : QueuedPacket} {others : List QueuedPacket}
    (hnext : next.placed < next.packet.size) (hplaced : next.placed = 0) {cell : Cell}
    (hcell : (queueCells (next :: others))[0]? = some cell) : cell.position = 0 := by
  have hsize : 0 < next.packet.cells.length := by
    rw [Packet.length_cells]
    omega
  rw [queueCells_cons, next.cells_piece_of_untouched hplaced,
    List.getElem?_append_left hsize] at hcell
  have hfirst : next.packet.cells[0]? = some { owner := next.packet, position := 0 } := by
    rw [hplaced] at hnext
    simp [Packet.cells, hnext]
  rw [hfirst] at hcell
  cases hcell
  rfl

/-- A grant with room for content takes something off a queue that is not empty. -/
theorem Accounts.exists_segment? {look : Look} (haccounts : look.segmenter.Accounts packets built)
    (hpackets : packets.Nodup) (hlive : look.grant.isExpired look.now = false)
    (hroom : 0 < look.grant.capacity) (hqueue : look.segmenter.queue ≠ []) :
    ∃ segment, look.segment? = some segment := by
  obtain ⟨header, content, hfilled⟩ := haccounts.exists_filled hpackets look.grant
  have hstamps := Filling.place_stamps look.grant.capacity haccounts.ready Gathering.proper_empty
    (Nat.zero_le _) (notes_blank _) hfilled.result_eq
  have hpos : 0 < content.size := by
    by_contra hempty
    have hcells : queueCells look.segmenter.queue ≠ [] :=
      fun hnil => hqueue ((queueCells_eq_nil_iff haccounts.ready).1 hnil)
    have hnone : content.cells = [] := by
      rw [← List.length_eq_zero_iff, Gathering.length_cells]
      omega
    rcases hstamps.room (by omega) with hspent | ⟨-, hfar, -⟩
    · have hsame := hfilled.cells_eq
      rw [hnone, filling, hspent] at hsame
      exact hcells hsame.symm
    · omega
  have hyields := look.segmenter.build_yields look.grant
  obtain ⟨segment, hvalue⟩ : ∃ segment,
      (look.segmenter.build look.grant).value = .ok (some segment) := by
    generalize look.segmenter.build look.grant = outcome at hyields
    cases hyields with
    | small hcapacity => omega
    | refused fault hresult => cases hfilled.result_eq.symm.trans hresult
    | hollow other placed hresult hempty =>
      cases hfilled.result_eq.symm.trans hresult
      omega
    | segment => exact ⟨_, rfl⟩
  exact ⟨segment, Look.segment?_eq_some_iff.2 ⟨hlive, hvalue⟩⟩

end Segmenter

namespace Simulation

open Segmenter

/-! ## One grant after the other -/

/-- What a sender has made of packets in grants of `size` bytes and of a request. -/
structure Sender.Packs (settings : SegmenterSettings) (packets : List Packet)
    (size piggyback : Nat) (sender : Sender) : Prop where
  settings_eq : sender.segmenter.settings = settings
  grants_eq : sender.segmenter.grants = []
  accounts : sender.segmenter.Accounts packets sender.sent.reverse
  /-- Where a segment leaves room, a packet begins behind it, or no cell is left. -/
  tight : ∀ earlier segment, earlier ++ [segment] <+: sender.sent.reverse →
    segment.size + SegmentHeader.wireSize < size → ∀ cell,
      (packets.flatMap Packet.cells)[((earlier ++ [segment]).flatMap Segment.cells).length]? =
        some cell → cell.position = 0
  /-- The request is asked for by segments or pending. -/
  asked_eq : requestedTotal settings.multiplier sender.sent.reverse +
    sender.segmenter.piggyback = piggyback

/-- The bytes that are not placed are as many as the cells in the queue. -/
theorem Sender.remaining_eq (sender : Sender) :
    sender.remaining = (queueCells sender.segmenter.queue).length := by
  rw [remaining, flatMap_rest_eq, List.length_map]

def Sender.look (sender : Sender) (size time : Nat) : Look :=
  let grant : Grant := { channel := 0, time := .ofNat time, size := size }
  { segmenter := { sender.segmenter.addPiggyback 0 with grants := [grant] }
    grant := grant
    now := .zero
    answer := .accepted }

/-- The sender once a look has built a segment. -/
def Sender.sending (sender : Sender) (look : Look) (segment : Segment) : Sender where
  segmenter := { look.after with grants := [] }
  sent := segment :: sender.sent

/-- A single grant that yields a segment is spent at once. -/
theorem Sender.addGrants_eq {sender : Sender} {size time : Nat} {segment : Segment}
    (hgrants : sender.segmenter.grants = []) (hqueue : sender.segmenter.queue ≠ [])
    (hsegment : (sender.look size time).segment? = some segment) :
    ∃ accepted, sender.segmenter.addGrants [{ channel := 0, time := .ofNat time, size := size }] 0
        .zero (fun _ => .accepted) =
      { state := { (sender.look size time).after with grants := [] }
        reports := (sender.look size time).reports
        value := .ok accepted } := by
  let grant : Grant := { channel := 0, time := .ofNat time, size := size }
  have hidle : (!grant.isExpired .zero && (sender.segmenter.addPiggyback 0).queue.isEmpty) =
      false := by
    have hbusy : sender.segmenter.queue.isEmpty = false := by simpa using hqueue
    rw [addPiggyback, hbusy, Bool.and_false]
  obtain ⟨transmission, htransmission, -⟩ := Option.map_eq_some_iff.1 hsegment
  have hfate := Look.fate_eq_offered_of_transmission? htransmission
  rw [Sender.look] at hfate
  rw [addGrants_of_sorted hgrants (List.pairwise_singleton _ _), resume, spend_cons]
  simp only [grant] at hidle
  simp only [hidle, Bool.false_eq_true, if_false, hfate]
  exact ⟨_, by rw [Outcome.after, spend, List.append_nil]; rfl⟩

section Grant

variable {settings : SegmenterSettings} {packets : List Packet} {size piggyback time : Nat}
  {sender : Sender} {segment : Segment}

theorem Sender.Packs.accounts_look (hpacks : sender.Packs settings packets size piggyback) :
    (sender.look size time).segmenter.Accounts packets sender.sent.reverse :=
  hpacks.accounts.congr rfl rfl rfl

/-- The segment of a look takes its cells over from the queue. -/
theorem Sender.Packs.accounts_sending (hpacks : sender.Packs settings packets size piggyback)
    (hpackets : packets.Nodup) (hsegment : (sender.look size time).segment? = some segment) :
    (sender.look size time).after.Accounts packets (sender.sent.reverse ++ [segment]) := by
  have hvalue := (Look.segment?_eq_some_iff.1 hsegment).2
  obtain ⟨other, hbuilds⟩ :=
    build_builds hpacks.accounts_look hpackets (sender.look size time).grant
  obtain rfl : other = some segment := by
    have hsame := hbuilds.value_eq.symm.trans hvalue
    exact Except.ok.inj hsame
  obtain ⟨transmission, htransmission, -⟩ := Option.map_eq_some_iff.1 hsegment
  have hafter : (sender.look size time).after = (sender.look size time).built.state := by
    rw [Look.after, Look.fate_eq_offered_of_transmission? htransmission]
    rfl
  rw [hafter]
  exact hbuilds.accounts

/-- A look that builds a segment keeps what has been made. -/
theorem Sender.Packs.sending (hpacks : sender.Packs settings packets size piggyback)
    (hpackets : packets.Nodup) (hfits : piggyback ≤ amountMax)
    (hsegment : (sender.look size time).segment? = some segment) :
    (sender.sending (sender.look size time) segment).Packs settings packets size piggyback := by
  have haccounts := hpacks.accounts_sending hpackets hsegment
  obtain ⟨header, content, hbuilds⟩ := (sender.look size time).exists_builds hsegment
  have hsent : (segment :: sender.sent).reverse = sender.sent.reverse ++ [segment] :=
    List.reverse_cons
  constructor
  case settings_eq =>
    rw [Sender.sending, Look.settings_after]
    exact hpacks.settings_eq
  case grants_eq => rfl
  case accounts =>
    rw [Sender.sending, hsent]
    exact haccounts.congr rfl rfl rfl
  case tight =>
    rw [Sender.sending, hsent]
    intro earlier last hinitial hroom cell hcell
    rcases List.prefix_concat_iff.1 hinitial with hall | hold
    · obtain ⟨rfl, hlast⟩ := List.append_inj' hall rfl
      obtain rfl : last = segment := by simpa using hlast
      rw [← haccounts.cells_eq, List.getElem?_append_right (Nat.le_refl _), Nat.sub_self] at hcell
      rcases (hbuilds.fills hpacks.accounts_look.ready).room hroom with hspent | ⟨-, -, hnext⟩
      · rw [hspent] at hcell
        cases hcell
      · obtain ⟨next, others, hqueue, hplaced⟩ := hnext
        rw [hqueue] at hcell
        exact position_of_untouched (haccounts.ready.placed_lt next (hqueue ▸ List.mem_cons_self))
          hplaced hcell
    · exact hpacks.tight earlier last hold hroom cell hcell
  case asked_eq =>
    have hpending : sender.segmenter.piggyback ≤ amountMax := by
      have hasked := hpacks.asked_eq
      omega
    have hafter := (sender.look size time).piggyback_after
    rw [Look.asked_of_segment? hsegment] at hafter
    have hbefore : (sender.look size time).segmenter.piggyback = sender.segmenter.piggyback :=
      Nat.min_eq_left hpending
    have hone : requestedTotal settings.multiplier [segment] = segment.asked settings.multiplier :=
      List.sum_singleton
    have hasked := hpacks.asked_eq
    have hmultiplier : (sender.look size time).segmenter.settings.multiplier =
        settings.multiplier := congrArg SegmenterSettings.multiplier hpacks.settings_eq
    rw [Sender.sending, hsent, requestedTotal_append, hone]
    rw [hmultiplier] at hafter
    simp only
    omega

/-- The reports of a look that builds a segment offer it, and it is accepted. -/
theorem acceptedSegments_look (hsegment : (sender.look size time).segment? = some segment) :
    acceptedSegments (sender.look size time).reports = [segment] := by
  obtain ⟨transmission, htransmission, hsame⟩ := Option.map_eq_some_iff.1 hsegment
  obtain ⟨placed, hreports, -⟩ :=
    (sender.look size time).segmenter.build_reports (sender.look size time).grant
  have hnone : acceptedSegments (placed.map .recycled) = [] := by
    apply List.filterMap_eq_nil_iff.2
    intro report hreport
    obtain ⟨packet, -, rfl⟩ := List.mem_map.1 hreport
    rfl
  rw [Look.reports, Look.fate_eq_offered_of_transmission? htransmission, Look.built, hreports,
    acceptedSegments, List.filterMap_append, ← acceptedSegments, hnone, List.nil_append, ← hsame]
  rfl

/-- A grant that comes while the queue is not empty takes a segment off it. -/
theorem Sender.Packs.grant (hpacks : sender.Packs settings packets size piggyback)
    (hpackets : packets.Nodup) (hfits : piggyback ≤ amountMax)
    (hsize : SegmentHeader.wireSize < size) (htime : time < 2 ^ 200)
    (hqueue : sender.segmenter.queue ≠ []) :
    ∃ later, sender.after (sender.segmenter.addGrants
        [{ channel := 0, time := .ofNat time, size := size }] 0 .zero fun _ => .accepted) =
          .ok later ∧
      later.Packs settings packets size piggyback ∧ later.remaining < sender.remaining := by
  have haccounts : (sender.look size time).segmenter.Accounts packets sender.sent.reverse :=
    hpacks.accounts_look
  obtain ⟨segment, hsegment⟩ := haccounts.exists_segment? hpackets
    (Instant.ofNat_before_zero htime) (Nat.sub_pos_of_lt hsize) hqueue
  obtain ⟨accepted, houtcome⟩ := Sender.addGrants_eq hpacks.grants_eq hqueue hsegment
  have hlater := hpacks.sending hpackets hfits hsegment
  refine ⟨sender.sending (sender.look size time) segment, ?_, hlater, ?_⟩
  · rw [Sender.after, houtcome]
    simp only [acceptedSegments_look hsegment]
    rfl
  · have hbefore := congrArg List.length hpacks.accounts.cells_eq
    have hafter := congrArg List.length hlater.accounts.cells_eq
    have hsegments : (sender.sending (sender.look size time) segment).sent.reverse =
        sender.sent.reverse ++ [segment] := List.reverse_cons
    have hpos : 0 < segment.size := by
      obtain ⟨header, content, hbuilds⟩ := (sender.look size time).exists_builds hsegment
      exact (hbuilds.fills hpacks.accounts_look.ready).size_pos
    rw [hsegments, List.flatMap_append, List.flatMap_singleton, List.append_assoc,
      List.length_append, List.length_append, Segment.length_cells] at hafter
    rw [List.length_append] at hbefore
    rw [Sender.remaining_eq, Sender.remaining_eq]
    omega

/-- **The packing loop.** It ends with an empty queue if it may hand in as many grants as there are
bytes. -/
theorem Sender.Packs.grantAll (hpacks : sender.Packs settings packets size piggyback)
    (hpackets : packets.Nodup) (hfits : piggyback ≤ amountMax)
    (hsize : SegmentHeader.wireSize < size) {grants : Nat} (henough : sender.remaining ≤ grants)
    (htime : time + grants ≤ 2 ^ 200) :
    ∃ last, sender.grantAll size grants time = .ok last ∧
      last.Packs settings packets size piggyback ∧ last.segmenter.queue = [] := by
  induction grants generalizing sender time with
  | zero =>
    rw [Sender.remaining_eq, Nat.le_zero, List.length_eq_zero_iff,
      queueCells_eq_nil_iff hpacks.accounts.ready] at henough
    exact ⟨sender, rfl, hpacks, henough⟩
  | succ grants ih =>
    rw [Sender.grantAll]
    split
    · rename_i hempty
      exact ⟨sender, rfl, hpacks, List.isEmpty_iff.1 hempty⟩
    · rename_i hbusy
      have hqueue : sender.segmenter.queue ≠ [] := fun hnil => hbusy (List.isEmpty_iff.2 hnil)
      obtain ⟨later, hlater, hpacks', hless⟩ :=
        hpacks.grant hpackets hfits hsize (show time < 2 ^ 200 by omega) hqueue
      simp only [hlater]
      exact ih hpacks' (by omega) (by omega)

end Grant

/-- A sender that has got its packets and the request. -/
theorem packs_start {settings : SegmenterSettings} {packets : List Packet} {size piggyback : Nat}
    (hstart : start? settings = .ok (start settings)) (hpackets : packets.Nodup)
    (hfits : piggyback ≤ amountMax) :
    Sender.Packs settings packets size piggyback
      { segmenter := ((start settings).enqueueAll packets).state.addPiggyback piggyback
        sent := [] } := by
  let calls : List SegmenterCall :=
    packets.map fun packet => .process (some packet) .zero fun _ => .accepted
  have hkept : ∀ call ∈ calls, call.isClear = false := by
    intro call hcall
    obtain ⟨packet, -, rfl⟩ := List.mem_map.1 hcall
    rfl
  have hcalls : SegmenterCall.packets calls = packets := by
    simp [calls, SegmenterCall.packets, List.filterMap_map, Function.comp_def,
      SegmenterCall.packet?]
  have hgrants : (start settings).grants = [] := rfl
  obtain ⟨hstate, hreports⟩ := run_process hgrants .zero (fun _ => .accepted) packets
  have hnone : builtSegments ((start settings).enqueueAll packets).reports = [] := by
    simp [enqueueAll, builtSegments, SegmenterReport.segment?]
  constructor
  case settings_eq => rfl
  case grants_eq => rfl
  case accounts =>
    have haccounts := run_start_accounts hstart calls hkept (hcalls ▸ hpackets)
    rw [hstate, hreports, hnone, hcalls] at haccounts
    exact haccounts.congr rfl rfl rfl
  case tight =>
    intro earlier segment hinitial
    have hlength := hinitial.length_le
    simp at hlength
  case asked_eq => simp [requestedTotal, addPiggyback, enqueueAll, start, hfits]

/-! ## Packets with given contents -/

/-- Results are computed one after another if none of them fails. -/
theorem mapM_eq_ok {α β ε : Type} {compute : α → Except ε β} {value : α → β} {items : List α}
    (hitems : ∀ item ∈ items, compute item = .ok (value item)) :
    items.mapM compute = .ok (items.map value) := by
  induction items with
  | nil => rfl
  | cons item others ih =>
    obtain ⟨hitem, hothers⟩ := List.forall_mem_cons.1 hitems
    rw [List.mapM_cons, hitem, ih hothers]
    rfl

/-- The packet with a content, numbered by the place of the content. -/
def numbered (entry : List UInt8 × Nat) : Packet :=
  let header : MacHeader :=
    { sequence := UInt16.ofNat entry.2, length := UInt16.ofNat entry.1.length }
  { id := entry.2, kind := .mac header, bytes := (header.bytes ++ entry.1).toArray }

theorem mac_eq_numbered {entry : List UInt8 × Nat}
    (hlength : entry.1.length ≤ MacHeader.contentMax) :
    Packet.mac entry.2 (UInt16.ofNat entry.2) entry.1 = .ok (numbered entry) := by
  rw [Packet.mac, MacHeader.ofContentSize, if_neg (Nat.not_lt.2 hlength)]
  rfl

theorem size_numbered (entry : List UInt8 × Nat) :
    (numbered entry).size = MacHeader.wireSize + entry.1.length := by
  simp [numbered, Packet.size]

/-- Numbered packets are written as frames of their contents are. -/
theorem byteList_numbered (contents : List (List UInt8)) :
    (contents.zipIdx.map numbered).map Packet.byteList = contents.mapIdx fun place content =>
      (MacFrame.ofContent (UInt16.ofNat place) content).bytes := by
  rw [List.map_map, List.mapIdx_eq_zipIdx_map]
  rfl

structure Sendable (maxSize : Nat) (packets : List Packet) : Prop where
  nodup : packets.Nodup
  mac : ∀ packet ∈ packets, packet.IsMac
  size_le : ∀ packet ∈ packets, packet.size ≤ maxSize + MacHeader.wireSize

/-- Contents that headers can announce make packets. -/
theorem buildPackets_eq_ok {contents : List (List UInt8)} {maxSize : Nat}
    (hmax : maxSize ≤ MacHeader.contentMax)
    (hcontents : ∀ content ∈ contents, content.length ≤ maxSize) :
    buildPackets contents = .ok (contents.zipIdx.map numbered) ∧
      Sendable maxSize (contents.zipIdx.map numbered) := by
  have hmac : ∀ entry ∈ contents.zipIdx,
      Packet.mac entry.2 (UInt16.ofNat entry.2) entry.1 = .ok (numbered entry) := by
    intro entry hentry
    have hlength := hcontents entry.1 (List.fst_mem_of_mem_zipIdx hentry)
    exact mac_eq_numbered (Nat.le_trans hlength hmax)
  constructor
  · apply mapM_eq_ok
    intro entry hentry
    simp only [hmac entry hentry]
  · constructor
    case nodup =>
      apply List.Nodup.of_map Packet.id
      rw [List.map_map]
      have hplaces : contents.zipIdx.map (Packet.id ∘ numbered) =
          List.range' 0 contents.length := List.zipIdx_map_snd 0 contents
      rw [hplaces]
      exact List.nodup_range'
    case mac =>
      intro packet hpacket
      obtain ⟨entry, hentry, rfl⟩ := List.mem_map.1 hpacket
      exact ⟨_, _, _, hmac entry hentry⟩
    case size_le =>
      intro packet hpacket
      obtain ⟨entry, hentry, rfl⟩ := List.mem_map.1 hpacket
      have hlength := hcontents entry.1 (List.fst_mem_of_mem_zipIdx hentry)
      rw [size_numbered]
      omega

namespace Sendable

variable {maxSize : Nat} {packets : List Packet}

/-- Packets have no more cells than as many largest packets have. -/
theorem length_le (hsendable : Sendable maxSize packets) :
    (packets.flatMap Packet.cells).length ≤ packets.length * (maxSize + MacHeader.wireSize) := by
  have hsize := hsendable.size_le
  clear hsendable
  induction packets with
  | nil => simp
  | cons packet others ih =>
    obtain ⟨hfirst, hothers⟩ := List.forall_mem_cons.1 hsize
    have hrest := ih hothers
    rw [List.flatMap_cons, List.length_append, Packet.length_cells, List.length_cons,
      Nat.succ_mul]
    omega

end Sendable

/-- Packets are sent until none is left, whatever the size of the grants, as long as there is room
for content in them. -/
theorem exists_send {settings : SegmenterSettings} (hvalid : settings.validate = .ok ())
    {maxSize : Nat} {packets : List Packet} (hsendable : Sendable maxSize packets)
    (hlength : packets.length * (maxSize + MacHeader.wireSize) < 2 ^ 200) {size piggyback : Nat}
    (hsize : SegmentHeader.wireSize < size) (hfits : piggyback ≤ amountMax) :
    ∃ sender, send settings packets size piggyback = .ok sender ∧
      sender.Packs settings packets size piggyback ∧ sender.segmenter.queue = [] := by
  have hstart : start? settings = .ok (start settings) := by rw [start?, hvalid]
  let first : Sender :=
    { segmenter := ((start settings).enqueueAll packets).state.addPiggyback piggyback, sent := [] }
  have hpacks : first.Packs settings packets size piggyback :=
    packs_start hstart hsendable.nodup hfits
  have hremaining : first.remaining = (packets.flatMap Packet.cells).length := by
    rw [Sender.remaining_eq, ← hpacks.accounts.cells_eq]
    rfl
  have hcells := hsendable.length_le
  have htime : 1 + first.remaining ≤ 2 ^ 200 := by omega
  rw [send, hstart]
  exact hpacks.grantAll hsendable.nodup hfits hsize (Nat.le_refl _) htime

end Simulation

end Ccf
