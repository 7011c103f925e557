import TreeCompiler.Storage
import TreeCompiler.Tree.Ty
import TreeCompiler.Tree.Expr
import TreeCompiler.Tree.Program
import TreeCompiler.Symbol
import TreeCompiler.Scope
import TreeCompiler.Diagnostic
import TreeCompiler.Analysis.Options
import TreeCompiler.Analysis.Resolution
import TreeCompiler.Analysis.Typing
import TreeCompiler.Machine.Register
import TreeCompiler.Machine.Bank
import TreeCompiler.Machine.Assembly
import TreeCompiler.Lowering.Gen
import TreeCompiler.Lowering.Expr
import TreeCompiler.Lowering.Stmt
import TreeCompiler.Lowering.Unit
import TreeCompiler.Delivery
import TreeCompiler.Session
import TreeCompiler.Samples
import TreeCompiler.Directory
import TreeCompiler.CommandLine
import TreeCompiler.Main
import TreeCompiler.Proofs.Bytes
import TreeCompiler.Proofs.Evaluation
import TreeCompiler.Proofs.Machine
import TreeCompiler.Proofs.Yields
import TreeCompiler.Proofs.Registers
import TreeCompiler.Proofs.Labels
import TreeCompiler.Proofs.Stack
import TreeCompiler.Proofs.ExprSimulation
import TreeCompiler.Proofs.Events
import TreeCompiler.Proofs.Walk
import TreeCompiler.Proofs.Binding
import TreeCompiler.Proofs.Generated
import TreeCompiler.Proofs.Accepted
import TreeCompiler.Proofs.Execution
import TreeCompiler.Proofs.Statements
import TreeCompiler.Proofs.StmtSimulation
import TreeCompiler.Proofs.Emission
import TreeCompiler.Proofs.Routine
import TreeCompiler.Proofs.LeafMaps
import TreeCompiler.Proofs.Annotations
import TreeCompiler.Proofs.Exhaustion
import TreeCompiler.Proofs.LexicalScope
import TreeCompiler.Proofs.TypeSystem
import TreeCompiler.Proofs.Layout
import TreeCompiler.Proofs.Admission
import TreeCompiler.Proofs.WellFormed
import TreeCompiler.Proofs.Accesses
import TreeCompiler.Proofs.Placement
import TreeCompiler.Proofs.MemorySafety
import TreeCompiler.Proofs.FrameLayout
import TreeCompiler.Proofs.Balance
import TreeCompiler.Proofs.UnitText
import TreeCompiler.Proofs.LocalLabels
import TreeCompiler.Proofs.Places
import TreeCompiler.Proofs.StackDiscipline
import TreeCompiler.Proofs.Signatures
import TreeCompiler.Proofs.ArgumentWords
import TreeCompiler.Proofs.CallConvention
import TreeCompiler.Proofs.Contents
import TreeCompiler.Proofs.ResolveRules
import TreeCompiler.Proofs.CheckRules
import TreeCompiler.Proofs.Lookups
import TreeCompiler.Proofs.FirstReport
import TreeCompiler.Proofs.LowerRules
import TreeCompiler.Proofs.Reanalysis
import TreeCompiler.Proofs.Linkage
import TreeCompiler.Proofs.Displacements
import TreeCompiler.Proofs.LimitedOutput
import TreeCompiler.Proofs.Relabelling
import TreeCompiler.Proofs.NameIndependence
import TreeCompiler.Proofs.Redeclaration
import TreeCompiler.Proofs.PlainScopes
import TreeCompiler.Proofs.RegisterDiscipline
import TreeCompiler.Proofs.BranchChains
import TreeCompiler.Proofs.ChainBuilding
import TreeCompiler.Proofs.ResolutionFrame
import TreeCompiler.Proofs.ArrayStorage
import TreeCompiler.Proofs.Compatibility
import TreeCompiler.Proofs.Rendering
