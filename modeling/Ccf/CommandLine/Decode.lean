import Ccf.CommandLine.Exit
import Ccf.CommandLine.Report

/-!
# Decoding a segment

The decoder shows the header of one segment and, if a packet starts in its content, the whole MAC
packets from there on.
-/

namespace Ccf.CommandLine

/-- What the content of a segment holds from its first packet start on. -/
structure MacContents where
  /-- The bytes before the first packet start. -/
  lead : Nat
  frames : List MacFrame
  /-- The bytes after the last whole packet. -/
  trailing : Nat
deriving DecidableEq, Repr

namespace MacContents

/-- The packets in a segment's content, if one starts there. -/
def ofContent? (header : SegmentHeader) (content : List UInt8) : Option MacContents :=
  let lead := header.offmac.toNat
  if header.pfi && decide (lead < content.length) then
    let (frames, rest) := MacFrame.split (content.drop lead)
    some { lead := lead, frames := frames, trailing := rest.length }
  else
    none

def json (contents : MacContents) : String :=
  Json.Writing.object
    [("lead", Json.Writing.count contents.lead),
      ("packets", Json.Writing.array (contents.frames.map fun frame =>
        Json.Writing.object
          [("sequence", Json.Writing.count frame.header.sequence.toNat),
            ("length", Json.Writing.count frame.header.length.toNat),
            ("wire_size", Json.Writing.count frame.wireSize)])),
      ("partial", Json.Writing.count contents.trailing)]

def rows (contents : MacContents) : List Text.Row :=
  [{ field := "mac_lead", value := toString contents.lead }] ++
    (contents.frames.map fun frame =>
      { field := "mac_packet"
        value := "sequence=" ++ toString frame.header.sequence.toNat ++ " length=" ++
          toString frame.header.length.toNat ++ " wire_size=" ++ toString frame.wireSize }) ++
    [{ field := "mac_partial", value := toString contents.trailing }]

end MacContents

def headerJson (header : SegmentHeader) : String :=
  Json.Writing.object
    [("pfi", Json.Writing.flag header.pfi), ("reserved", Json.Writing.flag header.reserved),
      ("offmac", Json.Writing.count header.offmac.toNat),
      ("sequence", Json.Writing.count header.sequence.toNat),
      ("sc", Json.Writing.count header.sc.toNat),
      ("request", Json.Writing.count header.request.toNat),
      ("hcs", Json.Writing.count header.hcs.toNat)]

def headerRows (header : SegmentHeader) : List Text.Row :=
  [{ field := "pfi", value := Json.Writing.flag header.pfi },
    { field := "reserved", value := Json.Writing.flag header.reserved },
    { field := "offmac", value := toString header.offmac.toNat },
    { field := "sequence", value := toString header.sequence.toNat },
    { field := "sc", value := toString header.sc.toNat },
    { field := "request", value := toString header.request.toNat },
    { field := "hcs", value := "0x" ++ Hex.render (Word.toBytes header.hcs) }]

/-- The identifier of the form that the decoder's JSON reports have. -/
def headerSchema : String :=
  "https://schemas.3leaps.dev/ccfprims/cli/v1/ccf-header.schema.json"

def previewLimit : Nat := 32

def decodeReport (header : SegmentHeader) (content : List UInt8) : Report :=
  let preview := Hex.preview content previewLimit
  let contents := MacContents.ofContent? header content
  { members :=
      [("schema_id", Json.Writing.text headerSchema), ("header", headerJson header),
        ("content_length", Json.Writing.count content.length),
        ("content", Json.Writing.text preview),
        ("mac",
          match contents with
          | none => "null"
          | some contents => contents.json)]
    rows :=
      headerRows header ++ [{ field := "content_length", value := toString content.length }] ++
        (if content.isEmpty then [] else [{ field := "content", value := preview }]) ++
        (match contents with
        | none => []
        | some contents => contents.rows) }

/-- Show the segment that a text spells in hexadecimal. -/
def decode (hex : String) (format : ReportFormat) : Ending :=
  match Hex.parse hex with
  | .error fault => .ofError (.ofHex fault)
  | .ok bytes =>
    match SegmentHeader.decode bytes with
    | .error fault => .ofError (.ofWire "decode" fault)
    | .ok header =>
      .success ((decodeReport header (bytes.drop SegmentHeader.wireSize)).print format)

end Ccf.CommandLine
