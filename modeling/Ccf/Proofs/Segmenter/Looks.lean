import Ccf.Proofs.Segmenter.Ledger

/-!
# The grants that a segmenting run looks at

A call first takes in what it is handed and then spends grants, and spending looks at one grant
after another.  A look keeps the state in which it was made, so that the looks of a run say for every
grant when it was taken from the schedule and what has become of it, and for every segment in which
state and within which grant it was built.

What a call reports and leaves behind is told by its looks alone.  A property of the state that
every look and the beginning of every call keep holds at every look of a run.
-/

namespace Ccf

inductive Fate where
  /-- Its time had passed. -/
  | expired
  | unused
  | failed (fault : BufferError)
  | offered (transmission : Transmission)
deriving DecidableEq, Repr

/-- One look at a grant. -/
structure Look where
  /-- The state in which the grant is looked at. -/
  segmenter : Segmenter
  grant : Grant
  now : Instant
  /-- The answer to a segment that is built. -/
  answer : Answer

namespace Look

/-- The segment built within the grant, or none, unless the grant's time has passed. -/
def built (look : Look) : Outcome Segmenter SegmenterReport (Except BufferError (Option Segment)) :=
  look.segmenter.build look.grant

def fate (look : Look) : Fate :=
  if look.grant.isExpired look.now then .expired
  else
    match look.built.value with
    | .error fault => .failed fault
    | .ok none => .unused
    | .ok (some segment) =>
      .offered
        { time := look.grant.time
          occasion := .sendTimer
          segment := segment
          channel := look.grant.channel }

def transmission? (look : Look) : Option Transmission :=
  match look.fate with
  | .offered transmission => some transmission
  | _ => none

def segment? (look : Look) : Option Segment := look.transmission?.map Transmission.segment

def after (look : Look) : Segmenter :=
  match look.fate with
  | .expired => look.segmenter
  | .offered _ => look.built.state.heed look.answer
  | _ => look.built.state

def reports (look : Look) : List SegmenterReport :=
  match look.fate with
  | .expired => []
  | .offered transmission => look.built.reports ++ [.offered transmission look.answer]
  | _ => look.built.reports

end Look

def SegmenterReport.transmission? : SegmenterReport → Option Transmission
  | .offered transmission _ => some transmission
  | _ => none

def offeredTransmissions (reports : List SegmenterReport) : List Transmission :=
  reports.filterMap SegmenterReport.transmission?

@[simp]
theorem offeredTransmissions_append (reports later : List SegmenterReport) :
    offeredTransmissions (reports ++ later) =
      offeredTransmissions reports ++ offeredTransmissions later :=
  List.filterMap_append

@[simp]
theorem offeredTransmissions_dropped (packets : List Packet) :
    offeredTransmissions (packets.map .dropped) = [] := by
  simp [offeredTransmissions, List.filterMap_map, Function.comp_def,
    SegmenterReport.transmission?]

/-- The segments of reports are those of their transmissions. -/
theorem builtSegments_eq_map (reports : List SegmenterReport) :
    builtSegments reports = (offeredTransmissions reports).map Transmission.segment := by
  rw [builtSegments, offeredTransmissions, List.map_filterMap]
  apply List.filterMap_congr
  intro report _
  cases report <;> rfl

/-- A look offers what it hands to the scheduler and nothing else. -/
theorem Look.offeredTransmissions_reports (look : Look) :
    offeredTransmissions look.reports = look.transmission?.toList := by
  obtain ⟨placed, hreports, -⟩ := look.segmenter.build_reports look.grant
  unfold Look.reports Look.transmission? Look.built
  rw [hreports]
  split <;> simp_all [offeredTransmissions, SegmenterReport.transmission?]

namespace Look

variable {look : Look}

/-- Exactly the grants whose time has passed expire. -/
theorem fate_eq_expired_iff (look : Look) :
    look.fate = .expired ↔ look.grant.isExpired look.now = true := by
  unfold fate
  cases look.grant.isExpired look.now with
  | true => simp
  | false =>
    rcases look.built.value with fault | segment
    · simp
    · cases segment <;> simp

theorem fate_eq_offered_of_transmission? {transmission : Transmission}
    (htransmission : look.transmission? = some transmission) :
    look.fate = .offered transmission := by
  unfold transmission? at htransmission
  split at htransmission
  · rename_i hfate
    rw [hfate, Option.some.inj htransmission]
  · cases htransmission

/-- A look hands over what it has built, for the time and on the channel of the grant. -/
theorem transmission?_eq_some_iff {transmission : Transmission} :
    look.transmission? = some transmission ↔
      look.grant.isExpired look.now = false ∧
        look.built.value = .ok (some transmission.segment) ∧
        transmission.time = look.grant.time ∧ transmission.occasion = .sendTimer ∧
        transmission.channel = look.grant.channel := by
  obtain ⟨time, occasion, segment, channel⟩ := transmission
  unfold transmission? fate
  cases look.grant.isExpired look.now with
  | true => simp
  | false =>
    rcases hvalue : look.built.value with fault | segment
    · simp
    · cases segment with
      | none => simp
      | some segment => simp [eq_comm, and_assoc, and_comm, and_left_comm]

theorem segment?_eq_some_iff {segment : Segment} :
    look.segment? = some segment ↔
      look.grant.isExpired look.now = false ∧ look.built.value = .ok (some segment) := by
  unfold segment? transmission? fate
  cases look.grant.isExpired look.now with
  | true => simp
  | false =>
    rcases hvalue : look.built.value with fault | segment
    · simp
    · cases segment <;> simp

/-- The content of the segment that a look builds, and what the look does to the state. -/
structure Builds (look : Look) (segment : Segment) (header : SegmentHeader) (content : Gathering) :
    Prop where
  result_eq : (look.segmenter.filling look.grant).result = .ok (header, content)
  size_pos : 0 < content.size
  segment_eq : segment =
    { header := (look.segmenter.stamp header).2, payload := content.table .delegate }
  queue_eq : look.after.queue = (look.segmenter.filling look.grant).queue
  after_eq : ∃ refusals, look.after =
    { (look.segmenter.stamp header).1 with queue := look.after.queue, refusals := refusals }

/-- A look changes the queue only, or it builds a segment. -/
theorem after_cases (look : Look) :
    (look.segment? = none ∧ look.after = { look.segmenter with queue := look.after.queue }) ∨
    ∃ segment header content, look.segment? = some segment ∧
      look.Builds segment header content := by
  cases hexpired : look.grant.isExpired look.now with
  | true => exact Or.inl (by simp [segment?, transmission?, after, fate, hexpired])
  | false =>
    have hyields := look.segmenter.build_yields look.grant
    generalize hbuild : look.segmenter.build look.grant = outcome at hyields
    cases hyields with
    | small | refused | hollow =>
      refine Or.inl ?_
      simp [segment?, transmission?, after, fate, built, hexpired, hbuild]
    | segment header content hresult hpos =>
      refine Or.inr ⟨_, header, content, ?_, hresult, hpos, rfl, ?_, ?_⟩
      · rw [segment?_eq_some_iff, built, hbuild]
        exact ⟨hexpired, rfl⟩
      · simp only [after, fate, built, hexpired, hbuild]
        cases look.answer <;> rfl
      · simp only [after, fate, built, hexpired, hbuild]
        cases look.answer
        · exact ⟨_, rfl⟩
        · exact ⟨_, rfl⟩

/-- A look that builds a segment. -/
theorem exists_builds {segment : Segment} (hsegment : look.segment? = some segment) :
    ∃ header content, look.Builds segment header content := by
  rcases look.after_cases with ⟨hnone, -⟩ | ⟨other, header, content, hsome, hbuilds⟩
  · rw [hnone] at hsegment
    cases hsegment
  · obtain rfl := Option.some.inj (hsome.symm.trans hsegment)
    exact ⟨header, content, hbuilds⟩

/-- No look changes the settings. -/
theorem settings_after (look : Look) : look.after.settings = look.segmenter.settings := by
  rcases look.after_cases with ⟨-, hafter⟩ | ⟨_, _, _, -, hbuilds⟩
  · rw [hafter]
  · obtain ⟨refusals, hafter⟩ := hbuilds.after_eq
    rw [hafter]
    rfl

/-- The queue after a look is the one that building leaves, or it is as before. -/
theorem queue_after (look : Look) :
    look.after.queue = look.segmenter.queue ∨ look.after.queue = look.built.state.queue := by
  unfold after
  split
  · exact Or.inl rfl
  · cases look.answer <;> exact Or.inr rfl
  · exact Or.inr rfl

/-- The packets in the queue after a look have been in it before. -/
theorem mem_queue_of_after {packet : Packet}
    (hpacket : packet ∈ look.after.queue.map QueuedPacket.packet) :
    packet ∈ look.segmenter.queue.map QueuedPacket.packet := by
  obtain ⟨placed, -, hqueue⟩ := look.segmenter.build_reports look.grant
  rcases look.queue_after with hafter | hafter
  · rwa [hafter] at hpacket
  · rw [hafter] at hpacket
    exact hqueue ▸ List.mem_append_right placed hpacket

end Look

def SegmenterCall.grants : SegmenterCall → List Grant
  | .addGrants grants _ _ _ => grants
  | _ => []

def SegmenterCall.now? : SegmenterCall → Option Instant
  | .process _ now _ => some now
  | .addGrants _ _ now _ => some now
  | _ => none

namespace Segmenter

/-! ## The looks of one call -/

/-- The looks of spending grants in order, `offered` segments having been offered before in the same
call. -/
def looksAt (now : Instant) (answers : Nat → Answer) : List Grant → Segmenter → Nat → List Look
  | [], _, _ => []
  | grant :: later, segmenter, offered =>
    let look : Look :=
      { segmenter := segmenter, grant := grant, now := now, answer := answers offered }
    if !grant.isExpired now && segmenter.queue.isEmpty then []
    else
      match look.fate with
      | .failed _ => [look]
      | .offered _ => look :: looksAt now answers later look.after (offered + 1)
      | _ => look :: looksAt now answers later look.after offered

/-- Looks that come after one another, from a state to another one. -/
inductive Follow : Segmenter → List Look → Segmenter → Prop where
  | done (segmenter : Segmenter) : Follow segmenter [] segmenter
  | look (look : Look) {later : List Look} {last : Segmenter}
      (hlater : Follow look.after later last) :
    Follow look.segmenter (look :: later) last

/-- What spending grants from a state does, in terms of its looks. -/
structure Spends (now : Instant) (grants : List Grant) (segmenter : Segmenter) (looks : List Look)
    (outcome : Outcome Segmenter SegmenterReport (Except BufferError Nat)) : Prop where
  follow : ∃ last, Follow segmenter looks last ∧
    outcome.state = { last with grants := grants.drop looks.length }
  grants_eq : looks.map Look.grant = grants.take looks.length
  now_eq : ∀ look ∈ looks, look.now = now
  reports_eq : outcome.reports = looks.flatMap Look.reports
  /-- Nothing that could be spent is left. -/
  spent : ∀ accepted, outcome.value = .ok accepted →
    outcome.state.queue = [] ∨ outcome.state.grants = []

/-- Spending that goes on after a look. -/
theorem Spends.cons (look : Look) {later : List Grant} {looks : List Look}
    {outcome : Outcome Segmenter SegmenterReport (Except BufferError Nat)}
    (hlater : Spends look.now later look.after looks outcome) :
    Spends look.now (look.grant :: later) look.segmenter (look :: looks)
      (outcome.after look.reports) where
  follow := by
    obtain ⟨last, hfollow, hstate⟩ := hlater.follow
    exact ⟨last, .look look hfollow, hstate⟩
  grants_eq := congrArg (look.grant :: ·) hlater.grants_eq
  now_eq := List.forall_mem_cons.2 ⟨rfl, hlater.now_eq⟩
  reports_eq := congrArg (look.reports ++ ·) hlater.reports_eq
  spent := hlater.spent

/-- Spending looks at the grant in front and goes on from there. -/
theorem spend_cons (now : Instant) (answers : Nat → Answer) (grant : Grant) (later : List Grant)
    (segmenter : Segmenter) (offered accepted : Nat) :
    let look : Look :=
      { segmenter := segmenter, grant := grant, now := now, answer := answers offered }
    spend now answers (grant :: later) segmenter offered accepted =
      if !grant.isExpired now && segmenter.queue.isEmpty then
        { state := { segmenter with grants := grant :: later }
          reports := []
          value := .ok accepted }
      else
        match look.fate with
        | .failed fault =>
          { state := { look.after with grants := later }
            reports := look.reports
            value := .error fault }
        | .offered _ =>
          (spend now answers later look.after (offered + 1)
            (if look.answer.isAccepted then accepted + 1 else accepted)).after look.reports
        | _ => (spend now answers later look.after offered accepted).after look.reports := by
  intro look
  cases hexpired : grant.isExpired now with
  | true => simp [spend, look, Look.fate, Look.after, Look.reports, hexpired, Outcome.after]
  | false =>
    cases hqueue : segmenter.queue.isEmpty with
    | true => simp [spend, hexpired, hqueue]
    | false =>
      rcases hvalue : (segmenter.build grant).value with fault | segment
      · simp [spend, look, Look.fate, Look.after, Look.reports, Look.built, hexpired, hqueue,
          hvalue]
      · cases segment <;>
          simp [spend, look, Look.fate, Look.after, Look.reports, Look.built, hexpired, hqueue,
            hvalue]

/-- Spending is told by its looks. -/
theorem spend_spends (now : Instant) (answers : Nat → Answer) (grants : List Grant)
    (segmenter : Segmenter) (offered accepted : Nat) :
    Spends now grants segmenter (looksAt now answers grants segmenter offered)
      (spend now answers grants segmenter offered accepted) := by
  induction grants generalizing segmenter offered accepted with
  | nil => exact ⟨⟨segmenter, .done _, rfl⟩, rfl, nofun, rfl, fun _ _ => Or.inr rfl⟩
  | cons grant later ih =>
    let look : Look :=
      { segmenter := segmenter, grant := grant, now := now, answer := answers offered }
    have hcons (offered accepted : Nat) :
        Spends now (grant :: later) segmenter
          (look :: looksAt now answers later look.after offered)
          ((spend now answers later look.after offered accepted).after look.reports) :=
      Spends.cons look (ih look.after offered accepted)
    rw [spend_cons, looksAt]
    split
    · rename_i hidle
      refine ⟨⟨segmenter, .done _, rfl⟩, rfl, nofun, rfl, fun _ _ => Or.inl ?_⟩
      exact List.isEmpty_iff.1 (Bool.and_eq_true_iff.1 hidle).2
    · simp only
      split
      · exact ⟨⟨look.after, .look look (.done _), rfl⟩, rfl, List.forall_mem_singleton.2 rfl,
          (List.append_nil _).symm, nofun⟩
      · exact hcons _ _
      · exact hcons _ _

/-- The state once a call has taken in what it is handed, before it spends anything. -/
def readied (segmenter : Segmenter) : SegmenterCall → Segmenter
  | .process none _ _ => segmenter
  | .process (some packet) _ _ =>
    if packet.isEmpty then segmenter
    else { segmenter with queue := segmenter.queue ++ [{ packet := packet, placed := 0 }] }
  | .addGrants grants piggyback _ _ =>
    { segmenter.addPiggyback piggyback with grants := Grant.schedule segmenter.grants grants }
  | .addPiggyback bytes => segmenter.addPiggyback bytes
  | .setMultiplier multiplier => (segmenter.setMultiplier multiplier).toOption.getD segmenter
  | .clear => { segmenter with queue := [], grants := [] }

/-- What a call can take in. -/
inductive TakesIn (segmenter : Segmenter) : SegmenterCall → Segmenter → Prop where
  | nothing (now : Instant) (answers : Nat → Answer) :
    TakesIn segmenter (.process none now answers) segmenter
  /-- A packet without bytes is not queued. -/
  | hollow (packet : Packet) (now : Instant) (answers : Nat → Answer)
      (hempty : packet.isEmpty = true) :
    TakesIn segmenter (.process (some packet) now answers) segmenter
  | packet (packet : Packet) (now : Instant) (answers : Nat → Answer)
      (hbytes : packet.isEmpty = false) :
    TakesIn segmenter (.process (some packet) now answers)
      { segmenter with queue := segmenter.queue ++ [{ packet := packet, placed := 0 }] }
  | grants (grants : List Grant) (piggyback : Nat) (now : Instant) (answers : Nat → Answer) :
    TakesIn segmenter (.addGrants grants piggyback now answers)
      { segmenter with
        grants := Grant.schedule segmenter.grants grants
        piggyback := min (segmenter.piggyback + piggyback) amountMax }
  | piggyback (bytes : Nat) :
    TakesIn segmenter (.addPiggyback bytes)
      { segmenter with piggyback := min (segmenter.piggyback + bytes) amountMax }
  /-- Units without bytes are not taken. -/
  | noMultiplier : TakesIn segmenter (.setMultiplier 0) segmenter
  | multiplier (multiplier : Nat) (hpos : 0 < multiplier) :
    TakesIn segmenter (.setMultiplier multiplier)
      { segmenter with settings := { segmenter.settings with multiplier := multiplier } }
  | clear : TakesIn segmenter .clear { segmenter with queue := [], grants := [] }

theorem takesIn_readied (segmenter : Segmenter) (call : SegmenterCall) :
    TakesIn segmenter call (segmenter.readied call) := by
  cases call with
  | process packet now answers =>
    cases packet with
    | none => exact .nothing now answers
    | some packet =>
      cases hempty : packet.isEmpty with
      | true =>
        simp only [readied, hempty, if_true]
        exact .hollow packet now answers hempty
      | false =>
        simp only [readied, hempty, Bool.false_eq_true, if_false]
        exact .packet packet now answers hempty
  | addGrants grants piggyback now answers => exact .grants grants piggyback now answers
  | addPiggyback bytes => exact .piggyback bytes
  | setMultiplier multiplier =>
    cases multiplier with
    | zero => exact .noMultiplier
    | succ less => exact .multiplier (less + 1) (Nat.succ_pos less)
  | clear => exact .clear

/-- The grants that a call finds or brings along are those that it may spend. -/
theorem mem_grants_readied {segmenter : Segmenter} {call : SegmenterCall} {grant : Grant}
    (hgrant : grant ∈ (segmenter.readied call).grants) :
    grant ∈ segmenter.grants ++ call.grants := by
  have htakes := segmenter.takesIn_readied call
  generalize segmenter.readied call = taken at htakes hgrant
  cases htakes with
  | grants grants => exact (List.mergeSort_perm _ Grant.notAfter).mem_iff.1 hgrant
  | clear => cases hgrant
  | _ => exact List.mem_append_left _ hgrant

def givenUp (segmenter : Segmenter) : SegmenterCall → List Packet
  | .process (some packet) _ _ => if packet.isEmpty then [packet] else []
  | .clear => segmenter.queue.map QueuedPacket.packet
  | _ => []

def looks (segmenter : Segmenter) (call : SegmenterCall) : List Look :=
  match call with
  | .process _ now answers | .addGrants _ _ now answers =>
    looksAt now answers (segmenter.readied call).grants (segmenter.readied call) 0
  | _ => []

/-- What a call does, in terms of its looks. -/
structure Performs (segmenter : Segmenter) (call : SegmenterCall) : Prop where
  follow : ∃ last, Follow (segmenter.readied call) (segmenter.looks call) last ∧
    (segmenter.perform call).state =
      { last with grants := (segmenter.readied call).grants.drop (segmenter.looks call).length }
  grants_eq : (segmenter.looks call).map Look.grant =
    (segmenter.readied call).grants.take (segmenter.looks call).length
  now_eq : ∀ look ∈ segmenter.looks call, call.now? = some look.now
  reports_eq : (segmenter.perform call).reports =
    (segmenter.givenUp call).map .dropped ++ (segmenter.looks call).flatMap Look.reports
  /-- If the call spends grants and succeeds, nothing that could be spent is left. -/
  spent : ∀ accepted, (segmenter.perform call).value = .spent (.ok accepted) →
    (segmenter.perform call).state.queue = [] ∨ (segmenter.perform call).state.grants = []

/-- A call that does not spend grants. -/
theorem performs_quietly {segmenter : Segmenter} {call : SegmenterCall}
    (hlooks : segmenter.looks call = [])
    (hstate : (segmenter.perform call).state = segmenter.readied call)
    (hreports : (segmenter.perform call).reports = (segmenter.givenUp call).map .dropped)
    (hvalue : ∀ accepted, (segmenter.perform call).value ≠ .spent (.ok accepted)) :
    Performs segmenter call where
  follow := ⟨segmenter.readied call, hlooks ▸ .done _, by rw [hstate, hlooks]; rfl⟩
  grants_eq := by rw [hlooks]; rfl
  now_eq := by rw [hlooks]; exact nofun
  reports_eq := by rw [hreports, hlooks, List.flatMap_nil, List.append_nil]
  spent accepted haccepted := absurd haccepted (hvalue accepted)

/-- A call that takes something in and then spends grants. -/
theorem performs_spending {segmenter : Segmenter} {call : SegmenterCall} {now : Instant}
    (answers : Nat → Answer) (hnow : call.now? = some now)
    (hlooks : segmenter.looks call =
      looksAt now answers (segmenter.readied call).grants (segmenter.readied call) 0)
    (hperform : segmenter.perform call = answering
      (((segmenter.readied call).resume now answers).after
        ((segmenter.givenUp call).map .dropped)) .spent) :
    Performs segmenter call := by
  have hspends := spend_spends now answers (segmenter.readied call).grants
    (segmenter.readied call) 0 0
  rw [← hlooks] at hspends
  constructor
  case follow => rw [hperform]; exact hspends.follow
  case grants_eq => exact hspends.grants_eq
  case now_eq => exact fun look hlook => hnow.trans (congrArg some (hspends.now_eq look hlook).symm)
  case reports_eq => rw [hperform]; exact congrArg (_ ++ ·) hspends.reports_eq
  case spent =>
    rw [hperform]
    exact fun accepted haccepted => hspends.spent accepted (SegmenterAnswer.spent.inj haccepted)

/-- Every call is told by its looks. -/
theorem perform_performs (segmenter : Segmenter) (call : SegmenterCall) :
    Performs segmenter call := by
  cases call with
  | process packet now answers =>
    apply performs_spending answers rfl rfl
    cases packet with
    | none => rfl
    | some packet =>
      cases hempty : packet.isEmpty <;>
        simp [perform, enqueue, readied, givenUp, hempty, Outcome.after]
  | addGrants grants piggyback now answers =>
    exact performs_spending answers rfl rfl rfl
  | addPiggyback bytes =>
    refine performs_quietly rfl rfl rfl ?_
    intro accepted hvalue
    cases hvalue
  | setMultiplier multiplier =>
    obtain ⟨hstate, hreports, hvalue⟩ :
        (segmenter.perform (.setMultiplier multiplier)).state =
            segmenter.readied (.setMultiplier multiplier) ∧
          (segmenter.perform (.setMultiplier multiplier)).reports = [] ∧
          (segmenter.perform (.setMultiplier multiplier)).value =
            .set ((segmenter.setMultiplier multiplier).map fun _ => ()) := by
      simp only [perform, readied]
      cases segmenter.setMultiplier multiplier <;> exact ⟨rfl, rfl, rfl⟩
    refine performs_quietly rfl hstate hreports ?_
    intro accepted hspent
    cases hvalue.symm.trans hspent
  | clear =>
    refine performs_quietly rfl rfl (List.map_map ..).symm ?_
    intro accepted hvalue
    cases hvalue

/-- A call offers what its looks hand to the scheduler. -/
theorem offeredTransmissions_perform (segmenter : Segmenter) (call : SegmenterCall) :
    offeredTransmissions (segmenter.perform call).reports =
      (segmenter.looks call).filterMap Look.transmission? := by
  rw [(perform_performs segmenter call).reports_eq, offeredTransmissions_append,
    offeredTransmissions_dropped, List.nil_append, offeredTransmissions, List.filterMap_flatMap,
    List.filterMap_eq_flatMap_toList]
  exact List.flatMap_congr fun look _ => look.offeredTransmissions_reports

/-! ## The looks of a run -/

def lookAll (segmenter : Segmenter) : List SegmenterCall → List Look
  | [] => []
  | call :: later => segmenter.looks call ++ (segmenter.perform call).state.lookAll later

/-- A run looks at grants that it finds or that are handed over to it. -/
theorem grant_mem_of_mem_lookAll {segmenter : Segmenter} {calls : List SegmenterCall} {look : Look}
    (hlook : look ∈ segmenter.lookAll calls) :
    look.grant ∈ segmenter.grants ++ calls.flatMap SegmenterCall.grants := by
  induction calls generalizing segmenter with
  | nil => cases hlook
  | cons call later ih =>
    have hperforms := perform_performs segmenter call
    have hmem {grant : Grant} (hgrant : grant ∈ segmenter.grants ++ call.grants) :
        grant ∈ segmenter.grants ++ (call :: later).flatMap SegmenterCall.grants := by
      rw [List.flatMap_cons, ← List.append_assoc]
      exact List.mem_append_left _ hgrant
    rcases List.mem_append.1 hlook with hfirst | hothers
    · have hgrant := List.mem_map_of_mem (f := Look.grant) hfirst
      rw [hperforms.grants_eq] at hgrant
      exact hmem (mem_grants_readied (List.mem_of_mem_take hgrant))
    · rcases List.mem_append.1 (ih hothers) with hkept | hlater
      · obtain ⟨last, -, hstate⟩ := hperforms.follow
        rw [hstate] at hkept
        exact hmem (mem_grants_readied (List.mem_of_mem_drop hkept))
      · rw [List.flatMap_cons]
        exact List.mem_append_right _ (List.mem_append_right _ hlater)

/-- The looks of a run are made at the times of its calls. -/
theorem now_mem_of_mem_lookAll {segmenter : Segmenter} {calls : List SegmenterCall} {look : Look}
    (hlook : look ∈ segmenter.lookAll calls) : look.now ∈ calls.filterMap SegmenterCall.now? := by
  induction calls generalizing segmenter with
  | nil => cases hlook
  | cons call later ih =>
    rcases List.mem_append.1 hlook with hfirst | hothers
    · have hnow := (perform_performs segmenter call).now_eq look hfirst
      rw [List.filterMap_cons_some hnow]
      exact List.mem_cons_self
    · obtain ⟨other, hother, hnow⟩ := List.mem_filterMap.1 (ih hothers)
      exact List.mem_filterMap.2 ⟨other, List.mem_cons_of_mem _ hother, hnow⟩

/-- A run offers what its looks hand to the scheduler. -/
theorem offeredTransmissions_run (segmenter : Segmenter) (calls : List SegmenterCall) :
    offeredTransmissions (segmenter.run calls).reports =
      (segmenter.lookAll calls).filterMap Look.transmission? := by
  induction calls generalizing segmenter with
  | nil => rfl
  | cons call later ih =>
    rw [run, lookAll, offeredTransmissions_append, offeredTransmissions_perform, ih,
      List.filterMap_append]

/-- The segments that a run builds are those of its looks. -/
theorem builtSegments_run (segmenter : Segmenter) (calls : List SegmenterCall) :
    builtSegments (segmenter.run calls).reports =
      (segmenter.lookAll calls).filterMap Look.segment? := by
  rw [builtSegments_eq_map, offeredTransmissions_run, List.map_filterMap]
  rfl

/-- A property of the state that calls keep, whatever grants are scheduled. -/
structure Upheld (calls : List SegmenterCall) (holds : Segmenter → Prop) : Prop where
  congr : ∀ segmenter grants, holds segmenter → holds { segmenter with grants := grants }
  readied : ∀ segmenter, ∀ call ∈ calls, holds segmenter → holds (segmenter.readied call)
  looked : ∀ look : Look, holds look.segmenter → holds look.after

namespace Upheld

variable {calls : List SegmenterCall} {holds : Segmenter → Prop}

theorem follow (hupheld : Upheld calls holds) {first last : Segmenter} {looks : List Look}
    (hfollow : Follow first looks last) (hfirst : holds first) :
    (∀ look ∈ looks, holds look.segmenter) ∧ holds last := by
  induction hfollow with
  | done segmenter => exact ⟨nofun, hfirst⟩
  | look look _ ih =>
    obtain ⟨hlater, hlast⟩ := ih (hupheld.looked look hfirst)
    exact ⟨List.forall_mem_cons.2 ⟨hfirst, hlater⟩, hlast⟩

theorem perform (hupheld : Upheld calls holds) {segmenter : Segmenter} (hholds : holds segmenter)
    {call : SegmenterCall} (hcall : call ∈ calls) :
    (∀ look ∈ segmenter.looks call, holds look.segmenter) ∧
      holds (segmenter.perform call).state := by
  obtain ⟨last, hfollow, hstate⟩ := (perform_performs segmenter call).follow
  obtain ⟨hlooks, hlast⟩ := hupheld.follow hfollow (hupheld.readied segmenter call hcall hholds)
  rw [hstate]
  exact ⟨hlooks, hupheld.congr last _ hlast⟩

/-- The property holds at every look of a run, and after it. -/
theorem run (hupheld : Upheld calls holds) {segmenter : Segmenter} (hholds : holds segmenter) :
    (∀ look ∈ segmenter.lookAll calls, holds look.segmenter) ∧
      holds (segmenter.run calls).state := by
  induction calls generalizing segmenter with
  | nil => exact ⟨nofun, hholds⟩
  | cons call later ih =>
    obtain ⟨hlooks, hnext⟩ := hupheld.perform hholds List.mem_cons_self
    obtain ⟨hothers, hlast⟩ := ih ⟨hupheld.congr, fun segmenter other hother =>
      hupheld.readied segmenter other (List.mem_cons_of_mem _ hother), hupheld.looked⟩ hnext
    exact ⟨List.forall_mem_append.2 ⟨hlooks, hothers⟩, hlast⟩

end Upheld

end Segmenter

end Ccf
