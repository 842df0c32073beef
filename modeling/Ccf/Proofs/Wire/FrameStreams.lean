import Ccf.Wire.MacFrame
import Mathlib.Data.List.Infix

/-!
# Streams of MAC packets

Packets that are written one after another are read back one after another, up to the bytes that
hold no whole packet.  Both directions rest on one fact: a packet is taken from the front of a byte
string exactly if its bytes are what the string begins with.

`MacFrame.next?` and `MacFrame.split` return what is left of the source.  A reader that works in
place, checks the header as a step of its own and could fail there does the same: it never fails,
and where it finds no packet it leaves the source alone.
-/

namespace Ccf

namespace MacFrame

def ofContent (sequence : UInt16) (content : List UInt8) : MacFrame where
  header := { sequence := sequence, length := UInt16.ofNat content.length }
  content := content

def bytes (frame : MacFrame) : List UInt8 := frame.header.bytes ++ frame.content

/-- Whether the header announces the content that there is. -/
def Announced (frame : MacFrame) : Prop := frame.header.length.toNat = frame.content.length

def parts (frame : MacFrame) : UInt16 × List UInt8 := (frame.header.sequence, frame.content)

/-- Write packets with the given numbers and contents after the bytes of `destination`. -/
def appendAll : List (UInt16 × List UInt8) → List UInt8 → Except WireError (List UInt8)
  | [], destination => .ok destination
  | (sequence, content) :: later, destination =>
    match appendTo sequence content destination with
    | .error fault => .error fault
    | .ok written => appendAll later written

/-- Take a whole packet from the front of the source. -/
def takeNext : EStateM WireError (List UInt8) (Option MacFrame) := do
  let source ← get
  if source.length < MacHeader.wireSize then
    pure none
  else
    match MacHeader.decode source with
    | .error fault => throw fault
    | .ok header =>
      if source.length < header.packetSize then
        pure none
      else
        let body := source.drop MacHeader.wireSize
        set (body.drop header.length.toNat)
        pure (some { header := header, content := body.take header.length.toNat })

/-- Taking packets from `source` until there is none gives `frames` and leaves `left`. -/
inductive Takes : (source : List UInt8) → (frames : List MacFrame) → (left : List UInt8) →
    Prop where
  | stop {source left : List UInt8} (hnone : takeNext.run source = .ok none left) :
    Takes source [] left
  | take {source rest left : List UInt8} {frame : MacFrame} {frames : List MacFrame}
      (hsome : takeNext.run source = .ok (some frame) rest) (hlater : Takes rest frames left) :
    Takes source (frame :: frames) left

theorem length_bytes (frame : MacFrame) : frame.bytes.length = frame.wireSize := by
  rw [bytes, List.length_append, MacHeader.length_bytes, wireSize]

theorem Announced.packetSize_eq {frame : MacFrame} (hframe : frame.Announced) :
    frame.header.packetSize = frame.wireSize := by
  rw [MacHeader.packetSize, hframe, wireSize]

theorem announced_ofContent (sequence : UInt16) {content : List UInt8}
    (hcontent : content.length ≤ MacHeader.contentMax) :
    (ofContent sequence content).Announced := by
  unfold Announced ofContent
  rw [UInt16.toNat_ofNat']
  apply Nat.mod_eq_of_lt
  exact Nat.lt_succ_of_le hcontent

theorem Announced.length_le {frame : MacFrame} (hframe : frame.Announced) :
    frame.content.length ≤ MacHeader.contentMax := by
  rw [← hframe]
  exact Nat.le_of_lt_succ frame.header.length.toNat_lt

theorem Announced.ofContent_parts {frame : MacFrame} (hframe : frame.Announced) :
    ofContent frame.parts.1 frame.parts.2 = frame := by
  have hlength : UInt16.ofNat frame.content.length = frame.header.length := by
    rw [← hframe, UInt16.ofNat_toNat]
  cases frame
  simp_all [ofContent, parts]

/-- What is read from the front of a string is a packet whose bytes the string begins with. -/
theorem next?_eq_some_iff {source rest : List UInt8} {frame : MacFrame} :
    next? source = some (frame, rest) ↔ frame.Announced ∧ source = frame.bytes ++ rest := by
  constructor
  · intro hnext
    match source, hnext with
    | a :: b :: c :: d :: tail, hnext =>
      simp only [next?] at hnext
      split at hnext
      · rename_i hlength
        cases hnext
        refine ⟨hlength.symm, ?_⟩
        simp [bytes, MacHeader.bytes, Word.toBytes_ofBytes]
      · cases hnext
  · rintro ⟨hframe, rfl⟩
    obtain ⟨⟨sequence, length⟩, content⟩ := frame
    have hlength : length.toNat = content.length := hframe
    simp only [bytes, MacHeader.bytes, Word.toBytes, List.cons_append, List.nil_append, next?,
      Word.ofBytes_toBytes]
    rw [hlength, List.take_left, List.drop_left, if_pos rfl]

/-- No packet is read exactly if the string begins with none. -/
theorem next?_eq_none_iff {source : List UInt8} :
    next? source = none ↔ ∀ frame : MacFrame, frame.Announced → ¬ frame.bytes <+: source := by
  rw [Option.eq_none_iff_forall_ne_some]
  constructor
  · rintro hnone frame hframe ⟨rest, hrest⟩
    exact hnone (frame, rest) (next?_eq_some_iff.2 ⟨hframe, hrest.symm⟩)
  · rintro hnone ⟨frame, rest⟩ hnext
    obtain ⟨hframe, hsource⟩ := next?_eq_some_iff.1 hnext
    exact hnone frame hframe ⟨rest, hsource.symm⟩

/-- A packet that is cut somewhere is not read. -/
theorem next?_of_cut {frame : MacFrame} (hframe : frame.Announced) {cut : List UInt8}
    (hpart : cut <+: frame.bytes) (hproper : cut ≠ frame.bytes) : next? cut = none := by
  apply next?_eq_none_iff.2
  rintro other hother ⟨rest, rfl⟩
  obtain ⟨more, hmore⟩ := hpart
  have hwhole : next? frame.bytes = some (frame, []) :=
    next?_eq_some_iff.2 ⟨hframe, (List.append_nil _).symm⟩
  have hother' : next? frame.bytes = some (other, rest ++ more) :=
    next?_eq_some_iff.2 ⟨hother, by rw [← List.append_assoc, hmore]⟩
  rw [hwhole] at hother'
  have hrest : rest ++ more = [] := (congrArg Prod.snd (Option.some.inj hother')).symm
  apply hproper
  rw [← hmore, (List.append_eq_nil_iff.1 hrest).2, List.append_nil]

theorem appendTo_eq (sequence : UInt16) {content : List UInt8}
    (hcontent : content.length ≤ MacHeader.contentMax) (destination : List UInt8) :
    appendTo sequence content destination =
      .ok (destination ++ (ofContent sequence content).bytes) := by
  unfold appendTo MacHeader.ofContentSize
  rw [if_neg (Nat.not_lt.2 hcontent)]
  exact congrArg Except.ok (List.append_assoc _ _ _)

theorem appendTo_eq_ok_iff {sequence : UInt16} {content written : List UInt8} :
    appendTo sequence content [] = .ok written ↔
      content.length ≤ MacHeader.contentMax ∧ written = (ofContent sequence content).bytes := by
  constructor
  · intro happend
    by_cases hcontent : content.length ≤ MacHeader.contentMax
    · rw [appendTo_eq sequence hcontent] at happend
      exact ⟨hcontent, (Except.ok.inj happend).symm⟩
    · unfold appendTo MacHeader.ofContentSize at happend
      rw [if_pos (Nat.lt_of_not_le hcontent)] at happend
      cases happend
  · rintro ⟨hcontent, rfl⟩
    exact appendTo_eq sequence hcontent []

theorem appendAll_eq {packets : List (UInt16 × List UInt8)}
    (hpackets : ∀ packet ∈ packets, packet.2.length ≤ MacHeader.contentMax)
    (destination : List UInt8) :
    appendAll packets destination =
      .ok (destination ++ packets.flatMap fun packet => (ofContent packet.1 packet.2).bytes) := by
  induction packets generalizing destination with
  | nil => rw [appendAll, List.flatMap_nil, List.append_nil]
  | cons packet later ih =>
    obtain ⟨hfirst, hlater⟩ := List.forall_mem_cons.1 hpackets
    unfold appendAll
    rw [appendTo_eq packet.1 hfirst]
    simp only
    rw [ih hlater, List.flatMap_cons, List.append_assoc]

/-! ## All packets -/

theorem split_of_none {source : List UInt8} (hnone : next? source = none) :
    split source = ([], source) := by
  unfold split
  split
  · rfl
  · rename_i hsome
    rw [hnone] at hsome
    cases hsome

theorem split_of_some {source rest : List UInt8} {frame : MacFrame}
    (hsome : next? source = some (frame, rest)) :
    split source = (frame :: (split rest).1, (split rest).2) := by
  rw [split]
  split
  · rename_i hnone
    rw [hsome] at hnone
    cases hnone
  · rename_i hsome'
    rw [hsome] at hsome'
    cases hsome'
    rfl

/-- Packets that were written are read back, and what follows them is read after them. -/
theorem split_append {frames : List MacFrame} (hframes : ∀ frame ∈ frames, frame.Announced)
    (tail : List UInt8) :
    split (frames.flatMap bytes ++ tail) = (frames ++ (split tail).1, (split tail).2) := by
  induction frames with
  | nil => rfl
  | cons frame later ih =>
    obtain ⟨hfirst, hlater⟩ := List.forall_mem_cons.1 hframes
    have hnext : next? ((frame :: later).flatMap bytes ++ tail) =
        some (frame, later.flatMap bytes ++ tail) := by
      apply next?_eq_some_iff.2
      exact ⟨hfirst, by rw [List.flatMap_cons, List.append_assoc]⟩
    rw [split_of_some hnext, ih hlater]
    rfl

/-- What reading gives is what the source is made of, and no packet is left. -/
theorem split_spec (source : List UInt8) :
    (∀ frame ∈ (split source).1, frame.Announced) ∧
      (split source).1.flatMap bytes ++ (split source).2 = source ∧
      next? (split source).2 = none := by
  fun_induction split source with
  | case1 source hnone => exact ⟨List.forall_mem_nil _, rfl, hnone⟩
  | case2 source frame rest hsome later ih =>
    obtain ⟨hframe, hsource⟩ := next?_eq_some_iff.1 hsome
    obtain ⟨hannounced, hrest, hleft⟩ := ih
    refine ⟨List.forall_mem_cons.2 ⟨hframe, hannounced⟩, ?_, hleft⟩
    calc (frame :: later.1).flatMap bytes ++ later.2
        = frame.bytes ++ (later.1.flatMap bytes ++ later.2) := by
          rw [List.flatMap_cons, List.append_assoc]
      _ = frame.bytes ++ rest := by rw [hrest]
      _ = source := hsource.symm

/-! ## Reading in place -/

/-- In place, the same packet is taken, nothing fails, and without a packet the source stays. -/
theorem run_takeNext (source : List UInt8) :
    takeNext.run source =
      match next? source with
      | none => .ok none source
      | some (frame, rest) => .ok (some frame) rest := by
  rw [takeNext, EStateM.run_bind, EStateM.run_get]
  simp only
  by_cases hshort : source.length < MacHeader.wireSize
  · have hnone : next? source = none := by
      apply next?_eq_none_iff.2
      intro frame _ hpart
      have hle := hpart.length_le
      rw [bytes, List.length_append, MacHeader.length_bytes] at hle
      omega
    rw [if_pos hshort, hnone]
    rfl
  · rw [if_neg hshort]
    match source, hshort with
    | a :: b :: c :: d :: tail, _ =>
      simp only [MacHeader.decode, MacHeader.packetSize, MacHeader.wireSize, List.length_cons,
        next?, List.length_take, List.drop_succ_cons, List.drop_zero]
      generalize (Word.ofBytes c d).toNat = length
      by_cases hcut : tail.length < length
      · rw [if_pos (by omega), if_neg (by omega)]
        rfl
      · rw [if_neg (by omega), if_pos (by omega)]
        rfl
    | [], hshort | [_], hshort | [_, _], hshort | [_, _, _], hshort =>
      exact absurd (by simp [MacHeader.wireSize]) hshort

theorem run_takeNext_eq_none_iff {source left : List UInt8} :
    takeNext.run source = .ok none left ↔ next? source = none ∧ left = source := by
  rw [run_takeNext]
  cases next? source with
  | none => simp [eq_comm]
  | some => simp

theorem run_takeNext_eq_some_iff {source rest : List UInt8} {frame : MacFrame} :
    takeNext.run source = .ok (some frame) rest ↔ next? source = some (frame, rest) := by
  rw [run_takeNext]
  cases next? source with
  | none => simp
  | some => simp [Prod.ext_iff]

theorem takes_split (source : List UInt8) :
    Takes source (split source).1 (split source).2 := by
  fun_induction split source with
  | case1 source hnone => exact .stop (run_takeNext_eq_none_iff.2 ⟨hnone, rfl⟩)
  | case2 source frame rest hsome later ih => exact .take (run_takeNext_eq_some_iff.2 hsome) ih

/-- Taking packets until there is none ends, whatever the source, with what `split` gives. -/
theorem takes_iff {source left : List UInt8} {frames : List MacFrame} :
    Takes source frames left ↔ split source = (frames, left) := by
  constructor
  · intro htakes
    induction htakes with
    | stop hnone =>
      obtain ⟨hnext, rfl⟩ := run_takeNext_eq_none_iff.1 hnone
      exact split_of_none hnext
    | take hsome _ ih => rw [split_of_some (run_takeNext_eq_some_iff.1 hsome), ih]
  · intro hsplit
    have htakes := takes_split source
    rwa [hsplit] at htakes

/-- **Framing is exact.** Taking packets from a byte string until there is none always comes to an
end.  From packets written one after another, followed by a part of one more, it gives those packets
and leaves that part.  From any string it gives packets that, written again in front of what is
left, are that string, and no packet lies in front of what is left.  Taking a single packet never
fails, and where there is none the source stays. -/
theorem split_inverts_appendAll :
    (∀ (packets : List (UInt16 × List UInt8)) (sequence : UInt16)
        (content encoded cut : List UInt8),
      (∀ packet ∈ packets, packet.2.length ≤ MacHeader.contentMax) →
      appendTo sequence content [] = .ok encoded → cut <+: encoded → cut ≠ encoded →
      ∃ written frames, appendAll packets [] = .ok written ∧ frames.map parts = packets ∧
        (∀ frame ∈ frames, frame.Announced) ∧ split (written ++ cut) = (frames, cut)) ∧
      (∀ source : List UInt8, ∃ written,
        appendAll ((split source).1.map parts) [] = .ok written ∧
          written ++ (split source).2 = source ∧
          ∀ sequence content encoded, appendTo sequence content [] = .ok encoded →
            ¬ encoded <+: (split source).2) ∧
      (∀ (source left : List UInt8) (frames : List MacFrame),
        Takes source frames left ↔ split source = (frames, left)) ∧
      ∀ source : List UInt8, ∃ found left, takeNext.run source = .ok found left ∧
        found = (next? source).map Prod.fst ∧ (found = none → left = source) := by
  refine ⟨?_, ?_, fun _ _ _ => takes_iff, ?_⟩
  · intro packets sequence content encoded cut hpackets hencoded hpart hproper
    obtain ⟨hcontent, rfl⟩ := appendTo_eq_ok_iff.1 hencoded
    have hcut := next?_of_cut (announced_ofContent sequence hcontent) hpart hproper
    let frames := packets.map fun packet => ofContent packet.1 packet.2
    have hframes : ∀ frame ∈ frames, frame.Announced := by
      intro frame hframe
      obtain ⟨packet, hpacket, rfl⟩ := List.mem_map.1 hframe
      exact announced_ofContent packet.1 (hpackets packet hpacket)
    refine ⟨frames.flatMap bytes, frames, ?_, ?_, hframes, ?_⟩
    · rw [appendAll_eq hpackets, List.nil_append, List.flatMap_map]
    · rw [List.map_map]
      exact List.map_id' packets
    · rw [split_append hframes, split_of_none hcut, List.append_nil]
  · intro source
    obtain ⟨hframes, hsource, hleft⟩ := split_spec source
    refine ⟨(split source).1.flatMap bytes, ?_, hsource, ?_⟩
    · have hlengths : ∀ packet ∈ (split source).1.map parts,
          packet.2.length ≤ MacHeader.contentMax :=
        List.forall_mem_map.2 fun frame hframe => (hframes frame hframe).length_le
      rw [appendAll_eq hlengths, List.nil_append, List.flatMap_map]
      apply congrArg Except.ok
      apply List.flatMap_congr
      intro frame hframe
      rw [(hframes frame hframe).ofContent_parts]
    · intro sequence content encoded hencoded
      obtain ⟨hcontent, rfl⟩ := appendTo_eq_ok_iff.1 hencoded
      exact next?_eq_none_iff.1 hleft _ (announced_ofContent sequence hcontent)
  · intro source
    rw [run_takeNext]
    cases next? source with
    | none => exact ⟨none, source, rfl, rfl, fun _ => rfl⟩
    | some taken => exact ⟨some taken.1, taken.2, rfl, rfl, nofun⟩

/-- Two packets, one of them without content, and a third that is cut inside its length. -/
theorem split_inverts_appendAll_cut :
    let packets : List (UInt16 × List UInt8) := [(7, [1, 2, 3]), (65535, [])]
    let cut : List UInt8 := [0, 9, 0]
    (∀ packet ∈ packets, packet.2.length ≤ MacHeader.contentMax) ∧
      appendTo 9 [4, 5] [] = .ok [0, 9, 0, 2, 4, 5] ∧
      ∃ written frames, appendAll packets [] = .ok written ∧ frames.map parts = packets ∧
        (∀ frame ∈ frames, frame.Announced) ∧ split (written ++ cut) = (frames, cut) := by
  intro packets cut
  have hpackets : ∀ packet ∈ packets, packet.2.length ≤ MacHeader.contentMax := by decide
  have hencoded : appendTo 9 [4, 5] [] = .ok [0, 9, 0, 2, 4, 5] := by decide
  refine ⟨hpackets, hencoded, ?_⟩
  exact split_inverts_appendAll.1 packets 9 [4, 5] [0, 9, 0, 2, 4, 5] cut hpackets hencoded
    (by decide) (by decide)

end MacFrame

end Ccf
