import RamOverlay.Ascending
import RamOverlay.Command.Arguments
import RamOverlay.Command.Host
import RamOverlay.Command.Memory
import RamOverlay.Command.Options
import RamOverlay.Command.Run
import RamOverlay.Command.Sizing
import RamOverlay.Command.Table
import RamOverlay.Event
import RamOverlay.Flow.AddressSet
import RamOverlay.Flow.Block
import RamOverlay.Flow.Call
import RamOverlay.Flow.Component
import RamOverlay.Flow.Discovery
import RamOverlay.Flow.Formation
import RamOverlay.Flow.Graph
import RamOverlay.Flow.Linking
import RamOverlay.Flow.LocalCall
import RamOverlay.Flow.Nesting
import RamOverlay.Flow.Routine
import RamOverlay.Keyed
import RamOverlay.Main
import RamOverlay.Number.Binary64
import RamOverlay.Number.Reading
import RamOverlay.Number.Shortest
import RamOverlay.Placement.Config
import RamOverlay.Placement.DataSection
import RamOverlay.Placement.Decision
import RamOverlay.Placement.Forced
import RamOverlay.Placement.Location
import RamOverlay.Placement.MathProg
import RamOverlay.Placement.Problem
import RamOverlay.Program
import RamOverlay.Proofs.Call.Accounted
import RamOverlay.Proofs.Call.OwnUnit
import RamOverlay.Proofs.Call.Resolution
import RamOverlay.Proofs.Code.Begins
import RamOverlay.Proofs.Code.Components
import RamOverlay.Proofs.Code.Conditional
import RamOverlay.Proofs.Code.Corrected
import RamOverlay.Proofs.Code.Cutting
import RamOverlay.Proofs.Code.Edges
import RamOverlay.Proofs.Code.Flows
import RamOverlay.Proofs.Code.Harmless
import RamOverlay.Proofs.Code.Joined
import RamOverlay.Proofs.Code.Linked
import RamOverlay.Proofs.Code.LostLoops
import RamOverlay.Proofs.Code.Marks
import RamOverlay.Proofs.Code.OtherCalls
import RamOverlay.Proofs.Code.OtherUnits
import RamOverlay.Proofs.Code.Partition
import RamOverlay.Proofs.Code.Parts
import RamOverlay.Proofs.Code.Reached
import RamOverlay.Proofs.Code.RoutineEdges
import RamOverlay.Proofs.Code.Suppressed
import RamOverlay.Proofs.Code.Tails
import RamOverlay.Proofs.Code.UnitGraph
import RamOverlay.Proofs.Command.Files
import RamOverlay.Proofs.Exit.Frame
import RamOverlay.Proofs.Exit.Goal
import RamOverlay.Proofs.Exit.Lines
import RamOverlay.Proofs.Exit.Machine
import RamOverlay.Proofs.Exit.Operands
import RamOverlay.Proofs.Exit.Outcome
import RamOverlay.Proofs.Exit.Reading
import RamOverlay.Proofs.Exit.Transfer
import RamOverlay.Proofs.Keyed
import RamOverlay.Proofs.Loop.DepthFirst
import RamOverlay.Proofs.Loop.HeaderChain
import RamOverlay.Proofs.Loop.HeaderCycle
import RamOverlay.Proofs.Loop.HeaderMerge
import RamOverlay.Proofs.Loop.HeaderOrder
import RamOverlay.Proofs.Loop.NaturalLoop
import RamOverlay.Proofs.Loop.Reanalysis
import RamOverlay.Proofs.Loop.Route
import RamOverlay.Proofs.Loop.SearchTree
import RamOverlay.Proofs.Loop.SingleEntry
import RamOverlay.Proofs.Loop.Stage
import RamOverlay.Proofs.Loop.TreeHeaders
import RamOverlay.Proofs.Placement.BlockNames
import RamOverlay.Proofs.Placement.DecisionRows
import RamOverlay.Proofs.Placement.ExportedProblem
import RamOverlay.Proofs.Placement.MarkLocations
import RamOverlay.Proofs.Placement.SolverData
import RamOverlay.Proofs.Relocation.Accesses
import RamOverlay.Proofs.Relocation.BlockChange
import RamOverlay.Proofs.Relocation.Changes
import RamOverlay.Proofs.Relocation.Crossings
import RamOverlay.Proofs.Relocation.EditLog
import RamOverlay.Proofs.Relocation.EntryLabels
import RamOverlay.Proofs.Relocation.FallthroughLabels
import RamOverlay.Proofs.Relocation.LabelLines
import RamOverlay.Proofs.Relocation.Layout
import RamOverlay.Proofs.Relocation.LineChange
import RamOverlay.Proofs.Relocation.Obstacles
import RamOverlay.Proofs.Relocation.Passages
import RamOverlay.Proofs.Relocation.References
import RamOverlay.Proofs.Relocation.Regions
import RamOverlay.Proofs.Relocation.Rewritten
import RamOverlay.Proofs.Size.Asking
import RamOverlay.Proofs.Size.CachedSizes
import RamOverlay.Proofs.Size.RegisterLists
import RamOverlay.Proofs.Size.SharedFile
import RamOverlay.Proofs.Size.StaleSizes
import RamOverlay.Proofs.Size.WrittenSizes
import RamOverlay.Proofs.Source.Comments
import RamOverlay.Proofs.Source.Entries
import RamOverlay.Proofs.Source.Metadata
import RamOverlay.Proofs.Text.Numerals
import RamOverlay.Proofs.Text.Pieces
import RamOverlay.Proofs.Text.Records
import RamOverlay.Proofs.Weight.Arrangement
import RamOverlay.Proofs.Weight.CallChain
import RamOverlay.Proofs.Weight.Closure
import RamOverlay.Proofs.Weight.Monotone
import RamOverlay.Proofs.Weight.ProfileCounts
import RamOverlay.Proofs.Weight.Renaming
import RamOverlay.Proofs.Weight.UnitOrder
import RamOverlay.Proofs.Weight.UnitRoutines
import RamOverlay.Proofs.Weight.Workload
import RamOverlay.Relocation.EditList
import RamOverlay.Relocation.Exit
import RamOverlay.Relocation.Overlay
import RamOverlay.Relocation.References
import RamOverlay.Relocation.Unit
import RamOverlay.Size.Assembler
import RamOverlay.Size.Cache
import RamOverlay.Size.CacheText
import RamOverlay.Size.Cost
import RamOverlay.Size.Oracle
import RamOverlay.Size.Table
import RamOverlay.Source.Line
import RamOverlay.Source.Unit
import RamOverlay.Text.Blank
import RamOverlay.Text.Numeral
import RamOverlay.Text.Quoted
import RamOverlay.Text.Split
import RamOverlay.Text.Unprintable
import RamOverlay.Text.Utf8
import RamOverlay.Thumb2.Condition
import RamOverlay.Thumb2.Cycles
import RamOverlay.Thumb2.Instruction
import RamOverlay.Thumb2.Mnemonic
import RamOverlay.Total
import RamOverlay.Traced
import RamOverlay.Weight.Count
import RamOverlay.Weight.Estimate
import RamOverlay.Weight.Profile
