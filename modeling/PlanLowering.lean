import PlanLowering.IdMap
import PlanLowering.Json.Reader
import PlanLowering.Json.Record
import PlanLowering.Text.FlagList
import PlanLowering.Text.Quoted
import PlanLowering.Register.Pool
import PlanLowering.Environment
import PlanLowering.Options
import PlanLowering.Page.Spec
import PlanLowering.Plan.Scope
import PlanLowering.Plan.Format
import PlanLowering.Instruction.Assembly
import PlanLowering.Catalog.Filter
import PlanLowering.Page.Registry
import PlanLowering.Random.ChaCha
import PlanLowering.FreshIds
import PlanLowering.Catalog.Builtin
import PlanLowering.Lowering
import PlanLowering.Action.Renaming
import PlanLowering.Action.Build
import PlanLowering.Action.Expansion
import PlanLowering.Action.Selection
import PlanLowering.Batch
import PlanLowering.Code.Legal
import PlanLowering.Allocation.Spill
import PlanLowering.Program.Lower
import PlanLowering.Proofs.Outcome
import PlanLowering.Proofs.Choice
import PlanLowering.Proofs.Scan
import PlanLowering.Proofs.Wiring
import PlanLowering.Proofs.Interval
import PlanLowering.Proofs.Catalog
import PlanLowering.Proofs.Machine
import PlanLowering.Proofs.AllocatedCode
import PlanLowering.Proofs.SpillCode
import PlanLowering.Proofs.Flow
import PlanLowering.Proofs.Reloads
import PlanLowering.Proofs.ValueFlow
import PlanLowering.Proofs.ValuePreservation
import PlanLowering.Proofs.StateFrame
import PlanLowering.Proofs.FunctionIds
import PlanLowering.Proofs.FirstBlock
import PlanLowering.Proofs.Calls
import PlanLowering.Proofs.Operands
import PlanLowering.Proofs.Complete
import PlanLowering.Proofs.Rv64Catalog
import PlanLowering.Proofs.StepActions
import PlanLowering.Proofs.Pins
import PlanLowering.Proofs.SelectionSteps
import PlanLowering.Proofs.Selected
import PlanLowering.Proofs.ExpansionSteps
import PlanLowering.Proofs.Expanded
import PlanLowering.Proofs.Legalized
import PlanLowering.Proofs.Placeholders
import PlanLowering.Proofs.Drawn
import PlanLowering.Proofs.Lodging
import PlanLowering.Proofs.Spawned
import PlanLowering.Proofs.Supplied
import PlanLowering.Proofs.Spelling
import PlanLowering.Proofs.SpillWindow
import PlanLowering.Proofs.LegalCode
import PlanLowering.Proofs.Conventional
import PlanLowering.Proofs.FunctionCode
import PlanLowering.Proofs.ReturnAddress
import PlanLowering.Proofs.StackBalance
import PlanLowering.Proofs.FieldFiles
import PlanLowering.Proofs.OwnValues
import PlanLowering.Proofs.SingleFiled
import PlanLowering.Proofs.LegalFiles
import PlanLowering.Proofs.BatchValues
import PlanLowering.Proofs.RegisterFiles
import PlanLowering.Proofs.IdSupply
import PlanLowering.Proofs.Numbering
import PlanLowering.Proofs.CanonicalForm
import PlanLowering.Proofs.Hygiene
import PlanLowering.Proofs.BuiltActions
import PlanLowering.Proofs.StepRenaming
import PlanLowering.Proofs.StepNames
import PlanLowering.Proofs.Handover
import PlanLowering.Proofs.RuntimeAccess
import PlanLowering.Proofs.RuntimeValues
import PlanLowering.Proofs.TestCode
import PlanLowering.Proofs.WorkedLists
import PlanLowering.Proofs.ExpansionShapes
import PlanLowering.Proofs.ProgramReferences
import PlanLowering.Proofs.AssertionLabels
import PlanLowering.Proofs.LabelResolution
import PlanLowering.Proofs.FaultLabels
import PlanLowering.Proofs.Lockstep
import PlanLowering.Proofs.RenumberedActions
import PlanLowering.Proofs.RenumberedCode
import PlanLowering.Proofs.RenumberedLegal
import PlanLowering.Proofs.RenumberedAllocation
import PlanLowering.Proofs.RenumberedRoutines
import PlanLowering.Proofs.RemarkedTests
import PlanLowering.Proofs.CommentedPlans
import PlanLowering.Proofs.Insertion
import PlanLowering.Proofs.DefinedSources
import PlanLowering.Proofs.Success
import PlanLowering.Proofs.Expandable
import PlanLowering.Proofs.AssertedCode
import PlanLowering.Proofs.Stock
import PlanLowering.Proofs.Selectable
import PlanLowering.Proofs.PlainActions
import PlanLowering.Proofs.ScratchBudget
import PlanLowering.Proofs.OrdinaryCode
import PlanLowering.Proofs.PlainCode
import PlanLowering.Proofs.FrameCode
import PlanLowering.Proofs.LoweredTests
import PlanLowering.Proofs.PlainPlans
import PlanLowering.Proofs.LeastSpills
import PlanLowering.Proofs.SpillOrder
import PlanLowering.Proofs.ExactIntervals
import PlanLowering.Proofs.GluedLabels
import PlanLowering.Proofs.PageStore
import PlanLowering.Proofs.Numerals
import PlanLowering.Proofs.FlagText
import PlanLowering.Proofs.JsonTokens
import PlanLowering.Proofs.JsonReading
import PlanLowering.Proofs.Records
import PlanLowering.Proofs.PlanText
import PlanLowering.Proofs.ExpansionRuns
import PlanLowering.Proofs.LegalLabels
import PlanLowering.Proofs.OpenSources
import PlanLowering.Proofs.TypedSources
import PlanLowering.Proofs.ExpansionOrder
import PlanLowering.Proofs.EffectiveAddress
import PlanLowering.Proofs.WrittenValues
import PlanLowering.Proofs.RestoredCsrs
import PlanLowering.Proofs.OperandLists
import PlanLowering.Proofs.DeclaredCatalogs
import PlanLowering.Proofs.MirroredSteps
import PlanLowering.Proofs.ArithmeticWiring
import PlanLowering.Proofs.SingleDefinitions
import PlanLowering.Proofs.Renaming
import PlanLowering.Proofs.RegisterNames
