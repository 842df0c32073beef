import Ccf.Decimal.Shortest
import Ccf.Wire.SegmentHeader

/-!
# Settings of the two ends

The segmenting end has a piggyback multiplier and the cluster stamped on its segments; the
reassembling end has a multiplier, a time after which a waiting segment is given up, and a bound on
the number of waiting segments.  `validate` names the first setting that cannot be used.
-/

namespace Ccf

/-- Why settings cannot be used. -/
inductive SettingsError where
  | zeroMultiplier
  | wideCluster (cluster : UInt8)
  | badTimeout (timeout : Instant)
  | emptyWindow
deriving DecidableEq, Repr

def SettingsError.reason : SettingsError → String
  | .zeroMultiplier => "piggyback_multiplier must be at least 1"
  | .wideCluster cluster =>
    "sid_cluster " ++ toString cluster.toNat ++ " exceeds " ++ toString SegmentHeader.clusterMax
  | .badTimeout timeout => "stall_timeout must be positive and finite, got " ++ timeout.decimal
  | .emptyWindow => "max_window_segments must be at least 1"

def SettingsError.message (fault : SettingsError) : String :=
  "invalid configuration: " ++ fault.reason

/-- The number of bytes in a unit of request, unless told otherwise. -/
def defaultMultiplier : Nat := 8

/-- The number of segments that may wait, unless told otherwise: one for every sequence number. -/
def defaultWindowBound : Nat := 8192

/-- A multiplier is at least 1. -/
def validateMultiplier (multiplier : Nat) : Except SettingsError Unit :=
  if multiplier = 0 then .error .zeroMultiplier else .ok ()

structure SegmenterSettings where
  /-- Bytes in a unit of the request field. -/
  multiplier : Nat
  /-- The cluster stamped on every segment. -/
  cluster : UInt8
deriving DecidableEq, Repr

namespace SegmenterSettings

def standard : SegmenterSettings := { multiplier := defaultMultiplier, cluster := 0 }

instance : Inhabited SegmenterSettings := ⟨standard⟩

/-- Whether the settings can be used; the first that cannot is named. -/
def validate (settings : SegmenterSettings) : Except SettingsError Unit :=
  match validateMultiplier settings.multiplier with
  | .error fault => .error fault
  | .ok () =>
    if SegmentHeader.clusterMax < settings.cluster.toNat then
      .error (.wideCluster settings.cluster)
    else
      .ok ()

end SegmenterSettings

structure ReassemblerSettings where
  /-- Bytes in a unit of the request field. -/
  multiplier : Nat
  /-- How long a segment may wait; without a limit it waits until its packet completes. -/
  stallTimeout : Option Instant
  windowBound : Nat
deriving DecidableEq, Repr

namespace ReassemblerSettings

def standard : ReassemblerSettings :=
  { multiplier := defaultMultiplier, stallTimeout := none, windowBound := defaultWindowBound }

instance : Inhabited ReassemblerSettings := ⟨standard⟩

/-- A time limit is a finite number above zero. -/
def validateTimeout : Option Instant → Except SettingsError Unit
  | none => .ok ()
  | some timeout =>
    if timeout.isFinite && timeout.isPositive then .ok () else .error (.badTimeout timeout)

/-- Whether the settings can be used; the first that cannot is named. -/
def validate (settings : ReassemblerSettings) : Except SettingsError Unit :=
  match validateMultiplier settings.multiplier with
  | .error fault => .error fault
  | .ok () =>
    match validateTimeout settings.stallTimeout with
    | .error fault => .error fault
    | .ok () => if settings.windowBound = 0 then .error .emptyWindow else .ok ()

end ReassemblerSettings

structure LinkSettings where
  segmenter : SegmenterSettings
  reassembler : ReassemblerSettings
deriving DecidableEq, Repr

namespace LinkSettings

def standard : LinkSettings := { segmenter := .standard, reassembler := .standard }

/-- The settings with the given bytes in a unit of request at both ends. -/
def withMultiplier (settings : LinkSettings) (multiplier : Nat) : LinkSettings where
  segmenter := { settings.segmenter with multiplier := multiplier }
  reassembler := { settings.reassembler with multiplier := multiplier }

end LinkSettings

end Ccf
