import Ccf.Proofs.Wire.SegmentFrame

/-!
# Segments and their bytes

Segments whose headers fit the wire and byte strings that have room for a header correspond: writing
and reading undo each other in both directions, whatever the pieces of the content are.

A header is written over the front of a destination or after its end.  Both refuse a header for the
first field that does not fit, in the order of the fields, and write the same bytes otherwise.  The
functions return what a destination becomes; done in place, word by word, they do the same, and the
refusals come before anything is written.
-/

namespace Ccf

namespace SegmentHeader

/-- The first field of a header that does not fit the wire. -/
inductive Misfit (header : SegmentHeader) : WireError → Prop where
  | offmac (hover : offmacMax < header.offmac.toNat) :
    Misfit header (.fieldOverflow .offmac header.offmac.toNat offmacMax)
  | sequence (hoffmac : header.offmac.toNat ≤ offmacMax)
      (hover : sequenceMax < header.sequence.toNat) :
    Misfit header (.fieldOverflow .sequence header.sequence.toNat sequenceMax)
  | cluster (hoffmac : header.offmac.toNat ≤ offmacMax)
      (hsequence : header.sequence.toNat ≤ sequenceMax) (hover : clusterMax < header.sc.toNat) :
    Misfit header (.fieldOverflow .cluster header.sc.toNat clusterMax)

variable {header : SegmentHeader} {fault : WireError}

theorem Misfit.validate_eq (hmisfit : header.Misfit fault) : header.validate = .error fault := by
  unfold validate
  cases hmisfit with
  | offmac hover => exact if_pos hover
  | sequence hoffmac hover => rw [if_neg (Nat.not_lt.2 hoffmac), if_pos hover]
  | cluster hoffmac hsequence hover =>
    rw [if_neg (Nat.not_lt.2 hoffmac), if_neg (Nat.not_lt.2 hsequence), if_pos hover]

/-- Validation names the first field that does not fit. -/
theorem validate_eq_error_iff : header.validate = .error fault ↔ header.Misfit fault := by
  refine ⟨fun hvalidate => ?_, Misfit.validate_eq⟩
  unfold validate at hvalidate
  split at hvalidate
  · rename_i hover
    cases hvalidate
    exact .offmac hover
  · rename_i hoffmac
    split at hvalidate
    · rename_i hover
      cases hvalidate
      exact .sequence (Nat.le_of_not_lt hoffmac) hover
    · rename_i hsequence
      split at hvalidate
      · rename_i hover
        cases hvalidate
        exact .cluster (Nat.le_of_not_lt hoffmac) (Nat.le_of_not_lt hsequence) hover
      · cases hvalidate

/-- Writing over the front of a destination with room for a header. -/
theorem encodeInto_of_length (header : SegmentHeader) {destination : List UInt8}
    (hroom : wireSize ≤ destination.length) :
    header.encodeInto destination =
      match header.validate with
      | .error fault => .error fault
      | .ok () => .ok (wireSize, header.bytes ++ destination.drop wireSize) := by
  have hempty : ¬ destination.isEmpty = true := by
    rw [List.isEmpty_iff_length_eq_zero]
    exact Nat.ne_of_gt (Nat.lt_of_lt_of_le (by decide) hroom)
  unfold encodeInto
  exact (if_neg hempty).trans (if_neg (Nat.not_lt.2 hroom))

theorem encodeInto_eq_error_iff {destination : List UInt8}
    (hroom : wireSize ≤ destination.length) :
    header.encodeInto destination = .error fault ↔ header.Misfit fault := by
  rw [header.encodeInto_of_length hroom, ← validate_eq_error_iff]
  cases header.validate <;> simp

theorem appendTo_eq_error_iff {destination : List UInt8} :
    header.appendTo destination = .error fault ↔ header.Misfit fault := by
  rw [appendTo, ← validate_eq_error_iff]
  cases header.validate <;> simp

/-! ## Writing in place -/

def words (header : SegmentHeader) : List UInt16 :=
  [header.startWord, header.numberWord, header.request, header.hcs]

theorem bytes_eq_flatMap_words (header : SegmentHeader) :
    header.bytes = header.words.flatMap Word.toBytes := by
  rw [bytes, words]
  simp

/-- Put words over the bytes of a destination, from a position on. -/
def overwriteWords (position : Nat) : List UInt16 → EStateM WireError (List UInt8) Unit
  | [] => pure ()
  | word :: later => do
    modify fun destination =>
      destination.take position ++ (Word.toBytes word ++ destination.drop (position + 2))
    overwriteWords (position + 2) later

def appendWords : List UInt16 → EStateM WireError (List UInt8) Unit
  | [] => pure ()
  | word :: later => do
    modify fun destination => destination ++ Word.toBytes word
    appendWords later

/-- Write a header over the front of a destination, word by word. -/
def encodeInPlace (header : SegmentHeader) : EStateM WireError (List UInt8) Nat := do
  let destination ← get
  if destination.isEmpty then
    pure wireSize
  else if destination.length < wireSize then
    throw (.truncated wireSize destination.length)
  else
    match header.validate with
    | .error fault => throw fault
    | .ok () =>
      overwriteWords 0 header.words
      pure wireSize

/-- Write a header after the bytes of a destination, word by word. -/
def appendInPlace (header : SegmentHeader) : EStateM WireError (List UInt8) Unit :=
  match header.validate with
  | .error fault => throw fault
  | .ok () => appendWords header.words

/-- A word over two bytes of a destination moves nothing else. -/
theorem take_drop_overwritten (word : UInt16) {position : Nat} {destination : List UInt8}
    (hroom : position + 2 ≤ destination.length) (count : Nat) {overwritten : List UInt8}
    (hoverwritten : overwritten =
      destination.take position ++ (Word.toBytes word ++ destination.drop (position + 2))) :
    overwritten.length = destination.length ∧
      overwritten.take (position + 2) = destination.take position ++ Word.toBytes word ∧
      overwritten.drop (position + 2 + count) = destination.drop (position + 2 + count) := by
  have hfront : (destination.take position).length = position :=
    List.length_take_of_le (by omega)
  have hwritten : (destination.take position ++ Word.toBytes word).length = position + 2 := by
    rw [List.length_append, hfront, Word.length_toBytes]
  rw [hoverwritten, ← List.append_assoc]
  refine ⟨?_, List.take_left' hwritten, ?_⟩
  · rw [List.length_append, hwritten, List.length_drop]
    omega
  · rw [← List.drop_drop, List.drop_left' hwritten, List.drop_drop]

/-- Words go over the bytes that they need, and the rest of the destination stays. -/
theorem run_overwriteWords (words : List UInt16) {position : Nat} {destination : List UInt8}
    (hroom : position + 2 * words.length ≤ destination.length) :
    (overwriteWords position words).run destination =
      .ok () (destination.take position ++
        (words.flatMap Word.toBytes ++ destination.drop (position + 2 * words.length))) := by
  induction words generalizing position destination with
  | nil =>
    rw [overwriteWords, EStateM.run_pure, List.flatMap_nil, List.nil_append, List.length_nil,
      Nat.mul_zero, Nat.add_zero, List.take_append_drop]
  | cons word later ih =>
    rw [List.length_cons] at hroom
    rw [overwriteWords, EStateM.run_bind, EStateM.run_modify]
    generalize hnext : destination.take position ++
      (Word.toBytes word ++ destination.drop (position + 2)) = next
    -- The later words leave this one in the front part alone.
    obtain ⟨hlength, htake, hdrop⟩ :=
      take_drop_overwritten word (by omega) (2 * later.length) hnext.symm
    have hend : position + 2 + 2 * later.length = position + 2 * (later.length + 1) := by omega
    rw [hend] at hdrop
    have hlater := ih (show position + 2 + 2 * later.length ≤ next.length by omega)
    rw [hend, htake, hdrop, List.append_assoc, ← List.append_assoc (Word.toBytes word)] at hlater
    exact hlater

/-- Words go after the bytes of the destination. -/
theorem run_appendWords (words : List UInt16) (destination : List UInt8) :
    (appendWords words).run destination = .ok () (destination ++ words.flatMap Word.toBytes) := by
  induction words generalizing destination with
  | nil => rw [appendWords, EStateM.run_pure, List.flatMap_nil, List.append_nil]
  | cons word later ih =>
    rw [appendWords, EStateM.run_bind, EStateM.run_modify, List.flatMap_cons, ← List.append_assoc]
    exact ih _

/-- Over the front of a destination, and nothing is written on a refusal. -/
theorem run_encodeInPlace (header : SegmentHeader) (destination : List UInt8) :
    header.encodeInPlace.run destination =
      match header.encodeInto destination with
      | .ok (size, written) => .ok size written
      | .error fault => .error fault destination := by
  rw [encodeInPlace, EStateM.run_bind, EStateM.run_get, encodeInto]
  by_cases hempty : destination.isEmpty = true
  · simp only [if_pos hempty, EStateM.run_pure]
  · by_cases hshort : destination.length < wireSize
    · simp only [if_neg hempty, if_pos hshort]
      rfl
    · simp only [if_neg hempty, if_neg hshort]
      cases header.validate with
      | error fault => rfl
      | ok =>
        have hroom : 0 + 2 * header.words.length ≤ destination.length := Nat.le_of_not_lt hshort
        have hwords := run_overwriteWords header.words hroom
        rw [List.take_zero, List.nil_append, ← bytes_eq_flatMap_words] at hwords
        simp only [EStateM.run_bind, hwords, EStateM.run_pure]
        rfl

/-- After the bytes of a destination, and nothing is written on a refusal. -/
theorem run_appendInPlace (header : SegmentHeader) (destination : List UInt8) :
    header.appendInPlace.run destination =
      match header.appendTo destination with
      | .ok written => .ok () written
      | .error fault => .error fault destination := by
  rw [appendInPlace, appendTo]
  cases header.validate with
  | error fault => exact EStateM.run_throw fault destination
  | ok =>
    rw [bytes_eq_flatMap_words]
    exact run_appendWords header.words destination

/-- What writing a header does to destinations of every length. -/
structure Writes (header : SegmentHeader) : Prop where
  /-- An empty destination asks for the size. -/
  encode_nil : header.encodeInto [] = .ok (wireSize, [])
  /-- A destination without room is refused. -/
  encode_short : ∀ destination, 0 < destination.length → destination.length < wireSize →
    header.encodeInto destination = .error (.truncated wireSize destination.length)
  /-- With room, the header is refused for the first field that does not fit. -/
  encode_refuses : ∀ destination fault, wireSize ≤ destination.length →
    (header.encodeInto destination = .error fault ↔ header.Misfit fault)
  /-- So it is after the end, where there is always room. -/
  append_refuses : ∀ destination fault,
    header.appendTo destination = .error fault ↔ header.Misfit fault
  /-- A header that fits is written as the same bytes over the front, where the rest stays, and
  after the end. -/
  written : (∀ fault, ¬ header.Misfit fault) → ∃ bytes : List UInt8, bytes.length = wireSize ∧
    (∀ destination, wireSize ≤ destination.length →
      header.encodeInto destination = .ok (wireSize, bytes ++ destination.drop wireSize)) ∧
    ∀ destination, header.appendTo destination = .ok (destination ++ bytes)
  /-- Done in place, a refusal leaves the destination as it was. -/
  encode_in_place : ∀ destination, header.encodeInPlace.run destination =
    match header.encodeInto destination with
    | .ok (size, written) => .ok size written
    | .error fault => .error fault destination
  append_in_place : ∀ destination, header.appendInPlace.run destination =
    match header.appendTo destination with
    | .ok written => .ok () written
    | .error fault => .error fault destination

/-- A header without a misfit is valid. -/
theorem validate_eq_ok_of_fits (hfits : ∀ fault, ¬ header.Misfit fault) :
    header.validate = .ok () := by
  cases hvalidate : header.validate with
  | error fault => exact absurd (validate_eq_error_iff.1 hvalidate) (hfits fault)
  | ok => rfl

theorem writes (header : SegmentHeader) : header.Writes where
  encode_nil := rfl
  encode_short := by
    intro destination hsome hshort
    have hempty : ¬ destination.isEmpty = true := by
      rw [List.isEmpty_iff_length_eq_zero]
      omega
    rw [encodeInto, if_neg hempty, if_pos hshort]
  encode_refuses := fun _ _ hroom => encodeInto_eq_error_iff hroom
  append_refuses := fun _ _ => appendTo_eq_error_iff
  written := by
    intro hfits
    have hvalid := validate_eq_ok_of_fits hfits
    refine ⟨header.bytes, header.length_bytes, ?_, ?_⟩
    · intro destination hroom
      rw [header.encodeInto_of_length hroom, hvalid]
    · intro destination
      rw [appendTo, hvalid]
  encode_in_place := header.run_encodeInPlace
  append_in_place := header.run_appendInPlace

end SegmentHeader

namespace Segment

/-- Segments with valid headers and byte strings with room for a header correspond: each is what
the other reads or writes as, shorter strings are refused as truncated, and headers are written the
same way over the front of a destination and after its end. -/
theorem wire_bijection :
    (∀ (segment : Segment) (id : Nat), segment.header.validate = .ok () →
      ∃ bytes parsed, segment.toWire = .ok bytes ∧ ofWire id bytes = .ok parsed ∧
        parsed.header = segment.header ∧ parsed.content = segment.content) ∧
      (∀ (id : Nat) (bytes : List UInt8), SegmentHeader.wireSize ≤ bytes.length →
        ∃ segment, ofWire id bytes = .ok segment ∧ segment.header.validate = .ok () ∧
          segment.toWire = .ok bytes) ∧
      (∀ (id : Nat) (bytes : List UInt8), bytes.length < SegmentHeader.wireSize →
        ofWire id bytes = .error (.wire (.truncated SegmentHeader.wireSize bytes.length))) ∧
      ∀ header : SegmentHeader, header.Writes := by
  have hcontent (id : Nat) (header : SegmentHeader) (content : List UInt8) :
      (ofContent id header content).content = content := by
    rw [content_eq (proper_ofContent id header content), map_byte_cells_ofContent]
  refine ⟨?_, ?_, ?_, SegmentHeader.writes⟩
  · intro segment id hvalid
    have hwire := toWire_eq hvalid
    exact ⟨_, _, hwire, ofWire_toWire hvalid id hwire, rfl, hcontent _ _ _⟩
  · intro id bytes hlong
    obtain ⟨header, hdecode, hvalid, hbytes⟩ := SegmentHeader.exists_decode_of_length hlong
    refine ⟨ofContent id header (bytes.drop SegmentHeader.wireSize), ?_, hvalid, ?_⟩
    · rw [ofWire, hdecode]
    · rw [toWire_eq hvalid, hcontent]
      exact congrArg _ hbytes
  · intro id bytes hshort
    rw [ofWire, SegmentHeader.decode_of_length_lt hshort]

/-- The last sequence number over two pieces of a packet, and bytes that set the reserved bit in
front of a single byte of content. -/
theorem wire_bijection_last :
    let packet := Packet.raw 3 [1, 2, 3, 4, 5]
    let segment : Segment :=
      { header := { SegmentHeader.blank with pfi := true, sequence := 8191, request := 4 }
        payload :=
          { pieces := [{ owner := packet, offset := 3, length := 2 },
              { owner := packet, offset := 0, length := 2 }]
            format := .delegate } }
    let bytes : List UInt8 := [64, 0, 255, 255, 0, 0, 0, 7, 42]
    segment.toWire = .ok [128, 0, 255, 248, 0, 4, 0, 0, 4, 5, 1, 2] ∧
      (∃ written parsed, segment.toWire = .ok written ∧ ofWire 9 written = .ok parsed ∧
        parsed.header = segment.header ∧ parsed.content = segment.content) ∧
      ∃ parsed, ofWire 9 bytes = .ok parsed ∧ parsed.header.validate = .ok () ∧
        parsed.toWire = .ok bytes := by
  intro packet segment bytes
  obtain ⟨hwritten, hread, -⟩ := wire_bijection
  exact ⟨by decide, hwritten segment 9 (by decide), hread 9 bytes (by decide)⟩

end Segment

end Ccf
