import Ccf.Json.Fields
import Ccf.Segmenter.Grant
import Ccf.Settings
import Ccf.Wire.SequenceNumber

/-!
# The documents that are read

Settings of the two ends, of which absent fields keep their standard values; grants, of which every
field has to be given; and bare sequence numbers, which are not reduced.
-/

namespace Ccf

def SegmenterSettings.ofJson? (document : Json) : Option SegmenterSettings :=
  match document.fields? ["piggyback_multiplier", "sid_cluster"] with
  | some [multiplier, cluster] =>
    match Json.orElse? Json.amount? SegmenterSettings.standard.multiplier multiplier,
      Json.orElse? (Json.natural? 255) SegmenterSettings.standard.cluster.toNat cluster with
    | some multiplier, some cluster =>
      some { multiplier := multiplier, cluster := UInt8.ofNat cluster }
    | _, _ => none
  | _ => none

def ReassemblerSettings.ofJson? (document : Json) : Option ReassemblerSettings :=
  match document.fields? ["piggyback_multiplier", "stall_timeout", "max_window_segments"] with
  | some [multiplier, timeout, bound] =>
    match Json.orElse? Json.amount? ReassemblerSettings.standard.multiplier multiplier,
      Json.orElse? (Json.nullable? Json.instant?) ReassemblerSettings.standard.stallTimeout timeout,
      Json.orElse? Json.amount? ReassemblerSettings.standard.windowBound bound with
    | some multiplier, some timeout, some bound =>
      some { multiplier := multiplier, stallTimeout := timeout, windowBound := bound }
    | _, _, _ => none
  | _ => none

def Grant.ofJson? (document : Json) : Option Grant :=
  match document.fields? ["channel_id", "time", "size"] with
  | some [channel, time, size] =>
    match Json.required? (Json.integer? (-2147483648) 2147483647) channel,
      Json.required? Json.instant? time, Json.required? Json.amount? size with
    | some channel, some time, some size => some { channel := channel, time := time, size := size }
    | _, _, _ => none
  | _ => none

def SequenceNumber.ofJson? (document : Json) : Option SequenceNumber :=
  (document.natural? 65535).map SequenceNumber.mk

/-- The settings of both ends that a document holds; it may hold nothing else. -/
def LinkSettings.ofJson? (document : Json) : Option LinkSettings :=
  match document.closedFields? ["packer", "unpacker"] with
  | some [segmenter, reassembler] =>
    match Json.orElse? SegmenterSettings.ofJson? .standard segmenter,
      Json.orElse? ReassemblerSettings.ofJson? .standard reassembler with
    | some segmenter, some reassembler =>
      some { segmenter := segmenter, reassembler := reassembler }
    | _, _ => none
  | _ => none

end Ccf
