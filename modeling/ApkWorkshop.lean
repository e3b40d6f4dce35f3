import ApkWorkshop.Archive.Facts
import ApkWorkshop.Desktop.Program
import ApkWorkshop.Desktop.Snapshot
import ApkWorkshop.Main
import ApkWorkshop.Proofs.ArchiveCalls
import ApkWorkshop.Proofs.ArchiveRoundTrip
import ApkWorkshop.Proofs.BatchCounts
import ApkWorkshop.Proofs.CompilerRuns
import ApkWorkshop.Proofs.CompleteChunks
import ApkWorkshop.Proofs.ConstantCodec
import ApkWorkshop.Proofs.CurrentVersion
import ApkWorkshop.Proofs.EditorSaving
import ApkWorkshop.Proofs.FunctionLabels
import ApkWorkshop.Proofs.ListingEdits
import ApkWorkshop.Proofs.LiteralMeaning
import ApkWorkshop.Proofs.NameFields
import ApkWorkshop.Proofs.OperandCarry
import ApkWorkshop.Proofs.PackingProgress
import ApkWorkshop.Proofs.PositionPass
import ApkWorkshop.Proofs.PrintedOffsets
import ApkWorkshop.Proofs.RepeatedDecoding
import ApkWorkshop.Proofs.ReportedSuccess
import ApkWorkshop.Proofs.ScriptSearch
import ApkWorkshop.Proofs.UnpackedFiles
import ApkWorkshop.Proofs.RecordedUpdate
import ApkWorkshop.World.Scenario
