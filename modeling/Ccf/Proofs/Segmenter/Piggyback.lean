import Mathlib.Algebra.BigOperators.Group.List.Basic
import Mathlib.Algebra.GroupWithZero.Nat
import Ccf.Proofs.Segmenter.Stamping

/-!
# The piggyback bytes that segments ask for

Calls supply piggyback bytes, and every segment takes a request out of those that are pending: as
many whole units as there are, and no more than its header has room for.  What a segment does not
take stays for the next one, so nothing is lost as long as the bytes supplied fit a word of 64 bits.
-/

namespace Ccf

namespace SegmenterCall

def supplied : SegmenterCall → Nat
  | addGrants _ piggyback _ _ => piggyback
  | addPiggyback bytes => bytes
  | _ => 0

def suppliedBytes (calls : List SegmenterCall) : Nat := (calls.map supplied).sum

def keepsMultiplier (multiplier : Nat) : SegmenterCall → Bool
  | setMultiplier other => other == multiplier || other == 0
  | _ => true

end SegmenterCall

def Segment.asked (segment : Segment) (multiplier : Nat) : Nat :=
  segment.header.request.toNat * multiplier

namespace Segmenter

theorem requestUnits_le (segmenter : Segmenter) : segmenter.requestUnits ≤ 65535 :=
  Nat.min_le_right _ _

/-- A request takes whole units of what is pending. -/
theorem requestUnits_mul_le (segmenter : Segmenter) :
    segmenter.requestUnits * segmenter.settings.multiplier ≤ segmenter.piggyback := by
  calc segmenter.requestUnits * segmenter.settings.multiplier
      ≤ segmenter.piggyback / segmenter.settings.multiplier * segmenter.settings.multiplier :=
        Nat.mul_le_mul_right _ (Nat.min_le_left _ _)
    _ ≤ segmenter.piggyback := Nat.div_mul_le_self _ _

/-- A request leaves less than a unit, or is as large as a request can be. -/
theorem rest_lt_or_requestUnits_eq {segmenter : Segmenter}
    (hmultiplier : 0 < segmenter.settings.multiplier) :
    segmenter.piggyback - segmenter.requestUnits * segmenter.settings.multiplier <
        segmenter.settings.multiplier ∨
      segmenter.requestUnits = 65535 := by
  by_cases hfits : segmenter.piggyback / segmenter.settings.multiplier ≤ 65535
  · left
    have hunits : segmenter.requestUnits = segmenter.piggyback / segmenter.settings.multiplier :=
      Nat.min_eq_left hfits
    rw [hunits, ← Nat.mod_eq_sub_div_mul]
    exact Nat.mod_lt _ hmultiplier
  · exact Or.inr (Nat.min_eq_right (Nat.le_of_not_le hfits))

end Segmenter

namespace Look

def asked (look : Look) : Nat :=
  match look.segment? with
  | none => 0
  | some segment => segment.asked look.segmenter.settings.multiplier

theorem asked_of_segment? {look : Look} {segment : Segment}
    (hsegment : look.segment? = some segment) :
    look.asked = segment.asked look.segmenter.settings.multiplier := by
  rw [asked, hsegment]

theorem Builds.request_toNat {look : Look} {segment : Segment} {header : SegmentHeader}
    {content : Gathering} (hbuilds : look.Builds segment header content) :
    segment.header.request.toNat = look.segmenter.requestUnits := by
  have hle := look.segmenter.requestUnits_le
  rw [hbuilds.request_eq, UInt16.toNat_ofNat']
  omega

theorem Builds.piggyback_eq {look : Look} {segment : Segment} {header : SegmentHeader}
    {content : Gathering} (hbuilds : look.Builds segment header content) :
    look.after.piggyback = look.segmenter.piggyback -
      look.segmenter.requestUnits * look.segmenter.settings.multiplier := by
  obtain ⟨refusals, hafter⟩ := hbuilds.after_eq
  rw [hafter]
  rfl

/-- What a look asks for comes out of what is pending. -/
theorem piggyback_after (look : Look) :
    look.after.piggyback + look.asked = look.segmenter.piggyback := by
  rcases look.after_cases with ⟨hnone, hafter⟩ | ⟨segment, header, content, hsome, hbuilds⟩
  · rw [hafter, asked, hnone]
    rfl
  · have hle := look.segmenter.requestUnits_mul_le
    rw [asked_of_segment? hsome, Segment.asked, hbuilds.request_toNat, hbuilds.piggyback_eq]
    omega

end Look

def askedBytes (looks : List Look) : Nat := (looks.map Look.asked).sum

theorem askedBytes_append (looks later : List Look) :
    askedBytes (looks ++ later) = askedBytes looks + askedBytes later := by
  rw [askedBytes, List.map_append, List.sum_append]
  rfl

namespace Segmenter

/-- Looks that come after one another ask for what is pending before and not after them. -/
theorem Follow.piggyback_eq {first last : Segmenter} {looks : List Look}
    (hfollow : Follow first looks last) :
    last.piggyback + askedBytes looks = first.piggyback := by
  induction hfollow with
  | done segmenter => rfl
  | look look hlater ih =>
    rw [← look.piggyback_after, ← ih, askedBytes, List.map_cons, List.sum_cons, askedBytes]
    omega

/-- What is supplied is pending, if all of it fits. -/
theorem piggyback_readied {segmenter : Segmenter} {call : SegmenterCall}
    (hfits : segmenter.piggyback + call.supplied ≤ amountMax) :
    (segmenter.readied call).piggyback = segmenter.piggyback + call.supplied := by
  have htakes := segmenter.takesIn_readied call
  generalize segmenter.readied call = taken at htakes
  cases htakes with
  | grants => exact Nat.min_eq_left hfits
  | piggyback => exact Nat.min_eq_left hfits
  | _ => rfl

/-- A call asks for what is pending and supplied, and leaves the rest pending. -/
theorem piggyback_perform {segmenter : Segmenter} {call : SegmenterCall}
    (hfits : segmenter.piggyback + call.supplied ≤ amountMax) :
    (segmenter.perform call).state.piggyback + askedBytes (segmenter.looks call) =
      segmenter.piggyback + call.supplied := by
  obtain ⟨last, hfollow, hstate⟩ := (perform_performs segmenter call).follow
  rw [hstate, ← piggyback_readied hfits]
  exact hfollow.piggyback_eq

theorem piggyback_run {segmenter : Segmenter} {calls : List SegmenterCall}
    (hfits : segmenter.piggyback + SegmenterCall.suppliedBytes calls ≤ amountMax) :
    (segmenter.run calls).state.piggyback + askedBytes (segmenter.lookAll calls) =
      segmenter.piggyback + SegmenterCall.suppliedBytes calls := by
  induction calls generalizing segmenter with
  | nil => rfl
  | cons call later ih =>
    have hsupplied : SegmenterCall.suppliedBytes (call :: later) =
        call.supplied + SegmenterCall.suppliedBytes later := List.sum_cons
    have hstate : (segmenter.run (call :: later)).state =
      ((segmenter.perform call).state.run later).state := rfl
    have hcall := piggyback_perform
      (show segmenter.piggyback + call.supplied ≤ amountMax by omega)
    have hlater := ih (show (segmenter.perform call).state.piggyback +
      SegmenterCall.suppliedBytes later ≤ amountMax by omega)
    rw [hstate, lookAll, askedBytes_append]
    omega

/-- There are units of request, and what is pending fits. -/
structure Solvent (segmenter : Segmenter) : Prop where
  multiplier_pos : 0 < segmenter.settings.multiplier
  piggyback_le : segmenter.piggyback ≤ amountMax

theorem solvent_of_start? {settings : SegmenterSettings} {segmenter : Segmenter}
    (hstart : start? settings = .ok segmenter) : Solvent segmenter := by
  obtain ⟨rfl, -⟩ := eq_of_start? hstart
  refine ⟨Nat.pos_of_ne_zero fun hzero => ?_, Nat.zero_le _⟩
  have hfault : validateMultiplier settings.multiplier = .error .zeroMultiplier := if_pos hzero
  rw [start?, SegmenterSettings.validate, hfault] at hstart
  cases hstart

theorem upheld_solvent (calls : List SegmenterCall) : Upheld calls Solvent where
  congr := fun _ _ hsolvent => ⟨hsolvent.multiplier_pos, hsolvent.piggyback_le⟩
  readied := by
    intro segmenter call _ hsolvent
    have htakes := segmenter.takesIn_readied call
    generalize segmenter.readied call = taken at htakes
    cases htakes with
    | grants => exact ⟨hsolvent.multiplier_pos, Nat.min_le_right _ _⟩
    | piggyback => exact ⟨hsolvent.multiplier_pos, Nat.min_le_right _ _⟩
    | multiplier _ hpos => exact ⟨hpos, hsolvent.piggyback_le⟩
    | _ => exact ⟨hsolvent.multiplier_pos, hsolvent.piggyback_le⟩
  looked := by
    intro look hsolvent
    have hpiggyback := look.piggyback_after
    have hle := hsolvent.piggyback_le
    exact ⟨look.settings_after ▸ hsolvent.multiplier_pos, by omega⟩

/-- Calls that leave the units of request as they are. -/
theorem upheld_multiplier {calls : List SegmenterCall} {multiplier : Nat}
    (hkept : ∀ call ∈ calls, call.keepsMultiplier multiplier = true) :
    Upheld calls fun segmenter => segmenter.settings.multiplier = multiplier where
  congr := fun _ _ hmultiplier => hmultiplier
  readied := by
    intro segmenter call hcall hmultiplier
    have htakes := segmenter.takesIn_readied call
    generalize segmenter.readied call = taken at htakes
    cases htakes with
    | multiplier other hpos =>
      have hother : other = multiplier ∨ other = 0 := by
        simpa [SegmenterCall.keepsMultiplier] using hkept _ hcall
      exact hother.resolve_right (Nat.ne_of_gt hpos)
    | _ => exact hmultiplier
  looked := fun look hmultiplier => by rw [look.settings_after, hmultiplier]

end Segmenter

/-! ## What a run asks for -/

/-- The request of the segment that a look builds, taken out of what is pending. -/
structure Look.Asks (look : Look) (segment : Segment) : Prop where
  asked_le : segment.asked look.segmenter.settings.multiplier ≤ look.segmenter.piggyback
  piggyback_le : look.segmenter.piggyback ≤ amountMax
  after_eq : look.after.piggyback + segment.asked look.segmenter.settings.multiplier =
    look.segmenter.piggyback
  /-- Less than a unit is left, or the request is as large as a request can be. -/
  rest : look.after.piggyback < look.segmenter.settings.multiplier ∨
    segment.header.request.toNat = 65535

theorem Look.asks {look : Look} {segment : Segment} (hsegment : look.segment? = some segment)
    (hsolvent : look.segmenter.Solvent) : look.Asks segment := by
  have hafter := look.piggyback_after
  rw [asked_of_segment? hsegment] at hafter
  constructor
  case asked_le => omega
  case piggyback_le => exact hsolvent.piggyback_le
  case after_eq => exact hafter
  case rest =>
    obtain ⟨header, content, hbuilds⟩ := look.exists_builds hsegment
    rw [hbuilds.piggyback_eq, hbuilds.request_toNat]
    exact Segmenter.rest_lt_or_requestUnits_eq hsolvent.multiplier_pos

namespace Segmenter

/-- What the segments of a run ask for is what its calls supply, apart from what is pending. -/
structure AsksForSupplies (segmenter : Segmenter) (calls : List SegmenterCall) : Prop where
  built_eq : ∀ earlier, earlier <+: calls →
    builtSegments (segmenter.run earlier).reports =
      (segmenter.lookAll earlier).filterMap Look.segment?
  asks : ∀ look ∈ segmenter.lookAll calls, ∀ segment, look.segment? = some segment →
    look.Asks segment
  /-- It is like that after every call ... -/
  supplied_eq : ∀ earlier, earlier <+: calls →
    SegmenterCall.suppliedBytes earlier =
      askedBytes (segmenter.lookAll earlier) + (segmenter.run earlier).state.piggyback
  /-- ... and no call supplies more than fits. -/
  supplied_le : ∀ earlier call, earlier ++ [call] <+: calls →
    (segmenter.run earlier).state.piggyback + call.supplied ≤ amountMax

theorem suppliedBytes_append (calls later : List SegmenterCall) :
    SegmenterCall.suppliedBytes (calls ++ later) =
      SegmenterCall.suppliedBytes calls + SegmenterCall.suppliedBytes later := by
  rw [SegmenterCall.suppliedBytes, List.map_append, List.sum_append]
  rfl

theorem run_asksForSupplies {settings : SegmenterSettings} {segmenter : Segmenter}
    (hstart : start? settings = .ok segmenter) {calls : List SegmenterCall}
    (hsupplied : SegmenterCall.suppliedBytes calls ≤ amountMax) :
    AsksForSupplies segmenter calls := by
  have hsolvent := solvent_of_start? hstart
  have hempty : segmenter.piggyback = 0 := by
    obtain ⟨rfl, -⟩ := eq_of_start? hstart
    rfl
  have hpaid {earlier : List SegmenterCall} (hearlier : earlier <+: calls) :
      SegmenterCall.suppliedBytes earlier ≤ amountMax ∧
        SegmenterCall.suppliedBytes earlier =
          askedBytes (segmenter.lookAll earlier) + (segmenter.run earlier).state.piggyback := by
    obtain ⟨later, rfl⟩ := hearlier
    rw [suppliedBytes_append] at hsupplied
    have hrun := piggyback_run
      (show segmenter.piggyback + SegmenterCall.suppliedBytes earlier ≤ amountMax by omega)
    exact ⟨by omega, by omega⟩
  constructor
  case built_eq => exact fun earlier _ => builtSegments_run segmenter earlier
  case asks =>
    intro look hlook segment hsegment
    exact Look.asks hsegment (((upheld_solvent calls).run hsolvent).1 look hlook)
  case supplied_eq => exact fun earlier hearlier => (hpaid hearlier).2
  case supplied_le =>
    intro earlier call hcall
    have hbefore := (hpaid ((List.prefix_append _ _).trans hcall)).2
    have hafter := (hpaid hcall).1
    have hone : SegmenterCall.suppliedBytes [call] = call.supplied := List.sum_singleton
    rw [suppliedBytes_append, hone] at hafter
    omega

end Segmenter

end Ccf
