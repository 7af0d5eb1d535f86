import HookRig.Accumulator
import HookRig.Bench
import HookRig.Binary64.Basic
import HookRig.Binary64.Layout
import HookRig.Binary64.Reader
import HookRig.Binary64.Rounding
import HookRig.Binary64.Shortest
import HookRig.Coin
import HookRig.CommandLine.Arguments
import HookRig.CommandLine.Exit
import HookRig.CommandLine.Token
import HookRig.CommandLine.Value
import HookRig.Hook.Basic
import HookRig.Hook.ParityMonitor
import HookRig.Hook.Script
import HookRig.Hook.Stock
import HookRig.Keystream.ChaCha
import HookRig.Main
import HookRig.Program
import HookRig.Reporting.Diagnostic
import HookRig.Reporting.Journal
import HookRig.Reporting.Outlets
import HookRig.Rig
import HookRig.Run.Progress
import HookRig.Run.Settings
import HookRig.Run.Summary
import HookRig.Text.Basic
import HookRig.Text.Terminal
import HookRig.Proofs.Indices
import HookRig.Proofs.Loop
import HookRig.Proofs.Agreement
import HookRig.Proofs.Observation
import HookRig.Proofs.Reports
import HookRig.Proofs.Wrapping
import HookRig.Proofs.Chain
import HookRig.Proofs.Monitor
import HookRig.Proofs.MonitoredChain
import HookRig.Proofs.Reruns
import HookRig.Proofs.Negations
import HookRig.Proofs.HandDriven
import HookRig.Proofs.Counterparts
import HookRig.Proofs.Nesting
import HookRig.Proofs.Draws
import HookRig.Proofs.Extension
import HookRig.Proofs.Tally
import HookRig.Proofs.Interruption
import HookRig.Proofs.MonitorByHand
import HookRig.Proofs.Affine
import HookRig.Proofs.StockRuns
import HookRig.Proofs.Magnitude
import HookRig.Proofs.UnitInterval
import HookRig.Proofs.SummaryLine
import HookRig.Proofs.Trace
import HookRig.Proofs.Restraint
import HookRig.Proofs.Consecutive
import HookRig.Proofs.MonitorSimulation
import HookRig.Proofs.SameTurns
import HookRig.Proofs.SignCheck
import HookRig.Proofs.CoinSchedule
import HookRig.Proofs.JournalAndBuffer
import HookRig.Proofs.BiasCoupling
import HookRig.Proofs.SharedBuffers
import HookRig.Proofs.EntryPoints
import HookRig.Proofs.Recorder
import HookRig.Proofs.PeriodicFailures
import HookRig.Proofs.DecimalText
import HookRig.Proofs.SummaryText
import HookRig.Proofs.DiagnosticText
