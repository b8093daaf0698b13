import ScriptSsa.Construction
import ScriptSsa.LogFormat
import ScriptSsa.Syntax.Walk
import ScriptSsa.Proofs.LexicalScope
import ScriptSsa.Proofs.BuilderStep
import ScriptSsa.Proofs.Yields
import ScriptSsa.Proofs.Trace
import ScriptSsa.Proofs.OpenBlocks
import ScriptSsa.Proofs.Summary
import ScriptSsa.Proofs.LoweringRules
import ScriptSsa.Proofs.LoweringClosure
import ScriptSsa.Proofs.CodeRules
import ScriptSsa.Proofs.LoweringTrace
import ScriptSsa.Proofs.NameLookup
import ScriptSsa.Proofs.ControlFlow
import ScriptSsa.Proofs.Numbering
import ScriptSsa.Proofs.Availability
import ScriptSsa.Proofs.Dominance
import ScriptSsa.Proofs.Semantics
import ScriptSsa.Proofs.Growth
import ScriptSsa.Proofs.Evaluation
import ScriptSsa.Proofs.Simulation
import ScriptSsa.Proofs.Preservation
import ScriptSsa.Proofs.Edges
import ScriptSsa.Proofs.PhiTable
import ScriptSsa.Proofs.Account
import ScriptSsa.Proofs.Acceptance
import ScriptSsa.Proofs.IdSupply
import ScriptSsa.Proofs.JumpChains
import ScriptSsa.Proofs.LoopLayout
import ScriptSsa.Proofs.Renaming
import ScriptSsa.Proofs.Relabeling
import ScriptSsa.Proofs.Relocation
import ScriptSsa.Proofs.FunctionTree
import ScriptSsa.Proofs.Steps
import ScriptSsa.Proofs.LoweringSteps
import ScriptSsa.Proofs.FunctionGraphs
import ScriptSsa.Proofs.EntryCode
import ScriptSsa.Proofs.LocalVariables
import ScriptSsa.Proofs.Coherence
import ScriptSsa.Proofs.OpenEnds
import ScriptSsa.Proofs.Promises
import ScriptSsa.Proofs.NameIndependence
import ScriptSsa.Proofs.Respelling
import ScriptSsa.Proofs.SpellingIndependence
import ScriptSsa.Proofs.NodeReading
import ScriptSsa.Proofs.TreeWriter
import ScriptSsa.Proofs.JsonPresentation
import ScriptSsa.Proofs.FreeNames
import ScriptSsa.Proofs.NamedValues
import ScriptSsa.Proofs.NameOrId
import ScriptSsa.Proofs.LocalBindings
import ScriptSsa.Proofs.OperandSpans
import ScriptSsa.Proofs.EffectMachine
import ScriptSsa.Proofs.EffectRules
import ScriptSsa.Proofs.EffectOperations
import ScriptSsa.Proofs.EvaluationOrder
import ScriptSsa.Proofs.MemberPaths
import ScriptSsa.Proofs.Legibility
import ScriptSsa.Proofs.ReadsAndCalls
import ScriptSsa.Proofs.Course
import ScriptSsa.Proofs.LoweringCourse
import ScriptSsa.Proofs.IdAccounting
import ScriptSsa.Proofs.ArgumentStack
import ScriptSsa.Proofs.PhiHistory
