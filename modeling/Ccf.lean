import Ccf.Buffer.Error
import Ccf.Buffer.Gathering
import Ccf.Buffer.Packet
import Ccf.Buffer.Piece
import Ccf.Buffer.PieceTable
import Ccf.Buffer.Reading
import Ccf.Collaborator
import Ccf.CommandLine.Arguments
import Ccf.CommandLine.Decode
import Ccf.CommandLine.Exit
import Ccf.CommandLine.Report
import Ccf.CommandLine.Run
import Ccf.CommandLine.Simulate
import Ccf.Decimal.Shortest
import Ccf.Json.Documents
import Ccf.Json.Fields
import Ccf.Json.Reader
import Ccf.Json.Token
import Ccf.Json.Value
import Ccf.Json.Writing
import Ccf.Main
import Ccf.Reassembly.Basic
import Ccf.Reassembly.Finish
import Ccf.Reassembly.Walk
import Ccf.Reassembly.Window
import Ccf.Segment
import Ccf.Segmenter.Basic
import Ccf.Segmenter.Filling
import Ccf.Segmenter.Grant
import Ccf.Settings
import Ccf.Simulation.Basic
import Ccf.Simulation.Chance
import Ccf.Simulation.Matching
import Ccf.Text.Blank
import Ccf.Text.Hex
import Ccf.Text.Quoted
import Ccf.Text.Table
import Ccf.Time.Instant
import Ccf.Wire.Error
import Ccf.Wire.MacFrame
import Ccf.Wire.SegmentHeader
import Ccf.Wire.SequenceNumber
import Ccf.Wire.Word
import Ccf.Proofs.Wire.Correspondence
import Ccf.Proofs.Buffer.BlockSizes
import Ccf.Proofs.Buffer.CanonicalForm
import Ccf.Proofs.Buffer.Cells
import Ccf.Proofs.Buffer.Copies
import Ccf.Proofs.Buffer.Edits
import Ccf.Proofs.Buffer.GatheredCells
import Ccf.Proofs.Buffer.Readers
import Ccf.Proofs.Segmenter.Calls
import Ccf.Proofs.Segmenter.Conservation
import Ccf.Proofs.Segmenter.Emission
import Ccf.Proofs.Segmenter.Filling
import Ccf.Proofs.Segmenter.GrantBook
import Ccf.Proofs.Segmenter.Ledger
import Ccf.Proofs.Segmenter.Looks
import Ccf.Proofs.Segmenter.Losses
import Ccf.Proofs.Segmenter.Piggyback
import Ccf.Proofs.Segmenter.RunInvariants
import Ccf.Proofs.Segmenter.Stamping
import Ccf.Proofs.Reassembly.Consumption
import Ccf.Proofs.Reassembly.PacketOrigins
import Ccf.Proofs.Reassembly.Requests
import Ccf.Proofs.Reassembly.SegmentConservation
import Ccf.Proofs.Reassembly.WindowBound
import Ccf.Proofs.Damage
import Ccf.Proofs.Decoding
import Ccf.Proofs.Duplicates
import Ccf.Proofs.PiggybackTransfer
import Ccf.Proofs.Wire.FrameStreams
import Ccf.Proofs.Text.HexRenderings
import Ccf.Proofs.Reassembly.Refusals
import Ccf.Proofs.Segmenter.Refusals
import Ccf.Proofs.Refusals
import Ccf.Proofs.Reassembly.Retries
import Ccf.Proofs.Reassembly.Leftovers
import Ccf.Proofs.Reassembly.Stretches
import Ccf.Proofs.Reassembly.GivingUp
import Ccf.Proofs.Reassembly.WalkedRuns
import Ccf.Proofs.Reassembly.Queueing
import Ccf.Proofs.Reassembly.RestingCursors
import Ccf.Proofs.Reassembly.WalkProgress
import Ccf.Proofs.Simulation.Packing
import Ccf.Proofs.Simulation.Reordering
import Ccf.Proofs.Simulation.Crossing
import Ccf.Proofs.Simulation.Receiving
import Ccf.Proofs.Simulation.Matching
import Ccf.Proofs.Simulation.Verdict
