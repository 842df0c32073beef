import Ccf.Proofs.Segmenter.Calls

/-!
# Invariants of segmenting runs

Calls do three things to the queue: a packet is put at its end, a packet without bytes is given up,
or a segment is built from its front and offered.  A property of the packets handed over, the
reports, the faults and the state that these three keep holds after every run that gives nothing up,
whatever the scheduler answers and whether calls fail or not.
-/

namespace Ccf

def SegmenterAnswer.fault? : SegmenterAnswer → Option BufferError
  | .spent result => faultOf result
  | _ => none

namespace Segmenter

/-- What is reported after building, for each of its results. -/
inductive Offers : Except BufferError (Option Segment) → List SegmenterReport → Prop
  | segment (transmission : Transmission) (answer : Answer) :
    Offers (.ok (some transmission.segment)) [.offered transmission answer]
  | nothing : Offers (.ok none) []
  | fault (fault : BufferError) : Offers (.error fault) []

/-- A property that calls keep. -/
structure Invariant
    (invariant : List Packet → List SegmenterReport → List BufferError → Segmenter → Prop) :
    Prop where
  /-- It depends on the queue, the number and the cluster only. -/
  congr : ∀ packets reports faults (segmenter other : Segmenter),
    other.queue = segmenter.queue → other.sequence = segmenter.sequence →
      other.settings.cluster = segmenter.settings.cluster →
        invariant packets reports faults segmenter → invariant packets reports faults other
  queues : ∀ packets reports faults (segmenter : Segmenter) packet, packet.isEmpty = false →
    invariant packets reports faults segmenter →
      invariant (packets ++ [packet]) reports faults
        { segmenter with queue := segmenter.queue ++ [{ packet := packet, placed := 0 }] }
  givesUp : ∀ packets reports faults segmenter packet, packet.isEmpty = true →
    invariant packets reports faults segmenter →
      invariant (packets ++ [packet]) (reports ++ [.dropped packet]) faults segmenter
  builds : ∀ packets reports faults segmenter grant offers,
    Offers (segmenter.build grant).value offers → invariant packets reports faults segmenter →
      invariant packets (reports ++ ((segmenter.build grant).reports ++ offers))
        (faults ++ (faultOf (segmenter.build grant).value).toList) (segmenter.build grant).state

def HoldsAfter
    (invariant : List Packet → List SegmenterReport → List BufferError → Segmenter → Prop)
    (packets : List Packet) (reports : List SegmenterReport) (faults : List BufferError)
    (outcome : Outcome Segmenter SegmenterReport (Except BufferError Nat)) : Prop :=
  invariant packets (reports ++ outcome.reports) (faults ++ (faultOf outcome.value).toList)
    outcome.state

/-- A call that is done with nothing to report. -/
theorem holdsAfter_done
    {invariant : List Packet → List SegmenterReport → List BufferError → Segmenter → Prop}
    {packets : List Packet} {reports : List SegmenterReport} {faults : List BufferError}
    {segmenter : Segmenter} (hholds : invariant packets reports faults segmenter)
    (accepted : Nat) :
    HoldsAfter invariant packets reports faults
      { state := segmenter, reports := [], value := .ok accepted } := by
  simpa [HoldsAfter, faultOf] using hholds

namespace Invariant

variable {invariant : List Packet → List SegmenterReport → List BufferError → Segmenter → Prop}
  (hkept : Invariant invariant) {packets : List Packet} {reports : List SegmenterReport}
  {faults : List BufferError}
include hkept

theorem heed {segmenter : Segmenter} (hholds : invariant packets reports faults segmenter)
    (answer : Answer) : invariant packets reports faults (segmenter.heed answer) := by
  cases answer with
  | accepted => exact hholds
  | refused why => exact hkept.congr _ _ _ segmenter _ rfl rfl rfl hholds

/-- What spending grants keeps: every one of them is looked at once, and builds at most one
segment. -/
theorem spend (now : Instant) (answers : Nat → Answer) (grants : List Grant)
    {segmenter : Segmenter} (hholds : invariant packets reports faults segmenter)
    (offered accepted : Nat) :
    HoldsAfter invariant packets reports faults
      (spend now answers grants segmenter offered accepted) := by
  induction grants generalizing segmenter reports offered accepted with
  | nil =>
    apply holdsAfter_done
    exact hkept.congr _ _ _ segmenter _ rfl rfl rfl hholds
  | cons grant later ih =>
    simp only [Segmenter.spend]
    split
    · exact ih hholds offered accepted
    · split
      · apply holdsAfter_done
        exact hkept.congr _ _ _ segmenter _ rfl rfl rfl hholds
      · have hbuilds := hkept.builds packets reports faults segmenter grant
        cases hvalue : (segmenter.build grant).value with
        | error fault =>
          rw [hvalue] at hbuilds
          have hfailed := hbuilds [] (.fault fault) hholds
          rw [List.append_nil] at hfailed
          exact hkept.congr _ _ _ (segmenter.build grant).state _ rfl rfl rfl hfailed
        | ok segment =>
          simp only [hvalue, faultOf, Option.toList_none, List.append_nil] at hbuilds
          cases segment with
          | none =>
            have hlater := ih (hbuilds [] .nothing hholds) offered accepted
            simpa only [HoldsAfter, Outcome.after, List.append_nil, List.append_assoc] using hlater
          | some segment =>
            let transmission : Transmission :=
              { time := grant.time, occasion := .sendTimer, segment := segment,
                channel := grant.channel }
            have hoffered := hbuilds _ (.segment transmission (answers offered)) hholds
            have hlater := ih (hkept.heed hoffered (answers offered)) (offered + 1)
              (if (answers offered).isAccepted then accepted + 1 else accepted)
            simpa only [HoldsAfter, Outcome.after, List.append_assoc] using hlater

theorem resume {segmenter : Segmenter} (hholds : invariant packets reports faults segmenter)
    (now : Instant) (answers : Nat → Answer) :
    HoldsAfter invariant packets reports faults (segmenter.resume now answers) :=
  hkept.spend now answers segmenter.grants hholds 0 0

theorem enqueue {segmenter : Segmenter} (hholds : invariant packets reports faults segmenter)
    (packet : Packet) (now : Instant) (answers : Nat → Answer) :
    HoldsAfter invariant (packets ++ [packet]) reports faults
      (segmenter.enqueue packet now answers) := by
  unfold Segmenter.enqueue
  split
  · rename_i hempty
    have hresumed := hkept.resume (hkept.givesUp _ _ _ _ packet hempty hholds) now answers
    simpa only [HoldsAfter, Outcome.after, List.append_assoc] using hresumed
  · rename_i hbytes
    exact hkept.resume (hkept.queues _ _ _ _ packet (by simpa using hbytes) hholds) now answers

theorem addGrants {segmenter : Segmenter} (hholds : invariant packets reports faults segmenter)
    (grants : List Grant) (piggyback : Nat) (now : Instant) (answers : Nat → Answer) :
    HoldsAfter invariant packets reports faults
      (segmenter.addGrants grants piggyback now answers) := by
  unfold Segmenter.addGrants
  apply hkept.resume
  exact hkept.congr _ _ _ segmenter _ rfl rfl rfl hholds

/-- A call that gives nothing up keeps the property. -/
theorem perform {segmenter : Segmenter} (hholds : invariant packets reports faults segmenter)
    (call : SegmenterCall) (hcall : call.isClear = false) :
    invariant (packets ++ call.packet?.toList) (reports ++ (segmenter.perform call).reports)
      (faults ++ (segmenter.perform call).value.fault?.toList) (segmenter.perform call).state := by
  have hsilent {other : Segmenter} (hother : invariant packets reports faults other) :
      invariant (packets ++ []) (reports ++ []) (faults ++ []) other := by
    rwa [List.append_nil, List.append_nil, List.append_nil]
  cases call with
  | process packet now answers =>
    cases packet with
    | none =>
      simp only [SegmenterCall.packet?, Option.toList_none, List.append_nil]
      exact hkept.resume hholds now answers
    | some packet => exact hkept.enqueue hholds packet now answers
  | addGrants grants piggyback now answers =>
    simp only [SegmenterCall.packet?, Option.toList_none, List.append_nil]
    exact hkept.addGrants hholds grants piggyback now answers
  | addPiggyback bytes =>
    exact hsilent (hkept.congr _ _ _ segmenter _ rfl rfl rfl hholds)
  | setMultiplier multiplier =>
    simp only [Segmenter.perform, setMultiplier]
    cases validateMultiplier multiplier with
    | error fault => exact hsilent hholds
    | ok => exact hsilent (hkept.congr _ _ _ segmenter _ rfl rfl rfl hholds)
  | clear => cases hcall

/-- A run that gives nothing up keeps the property. -/
theorem run (calls : List SegmenterCall) {segmenter : Segmenter}
    (hholds : invariant packets reports faults segmenter)
    (hcalls : ∀ call ∈ calls, call.isClear = false) :
    invariant (packets ++ SegmenterCall.packets calls) (reports ++ (segmenter.run calls).reports)
      (faults ++ (segmenter.run calls).value.filterMap SegmenterAnswer.fault?)
      (segmenter.run calls).state := by
  induction calls generalizing segmenter packets reports faults with
  | nil => simpa [Segmenter.run, SegmenterCall.packets] using hholds
  | cons call later ih =>
    have hfaults : (segmenter.run (call :: later)).value.filterMap SegmenterAnswer.fault? =
        (segmenter.perform call).value.fault?.toList ++
          ((segmenter.perform call).state.run later).value.filterMap SegmenterAnswer.fault? := by
      cases hvalue : (segmenter.perform call).value.fault? <;> simp [Segmenter.run, hvalue]
    have hfirst := hkept.perform hholds call (hcalls call List.mem_cons_self)
    have hlater := ih hfirst fun other hother => hcalls other (List.mem_cons_of_mem _ hother)
    rw [SegmenterCall.packets_cons, hfaults]
    simpa only [Segmenter.run, List.append_assoc] using hlater

end Invariant

end Segmenter

end Ccf
