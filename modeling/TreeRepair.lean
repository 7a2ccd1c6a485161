import TreeRepair.Name
import TreeRepair.Text
import TreeRepair.Flag
import TreeRepair.Position
import TreeRepair.Decimal
import TreeRepair.Constant
import TreeRepair.Tree.Basic
import TreeRepair.Tree.Traversal
import TreeRepair.Conventions.Basic
import TreeRepair.Setting
import TreeRepair.Type.Resolve
import TreeRepair.Type.Text
import TreeRepair.Type.Written
import TreeRepair.Descent
import TreeRepair.Type.Lookup
import TreeRepair.Conventions.Table
import TreeRepair.Checked.DefaultArguments
import TreeRepair.Checked.Repair
import TreeRepair.Checked.Recursion
import TreeRepair.CaseClass.Clean
import TreeRepair.CaseClass.Restore
import TreeRepair.Cleanup.InferredTypes
import TreeRepair.Cleanup.InsertedArguments
import TreeRepair.Cleanup.Reset
import TreeRepair.Cleanup.SelfAccess
import TreeRepair.Session.Basic
import TreeRepair.Conventions.Load
import TreeRepair.Proofs.Occurrence
import TreeRepair.Proofs.Same
import TreeRepair.Proofs.Surface
import TreeRepair.Proofs.SurfacePasses
import TreeRepair.Proofs.Surroundings
import TreeRepair.Proofs.RoundTrip
import TreeRepair.Proofs.RepairEnds
import TreeRepair.Proofs.RepairReach
import TreeRepair.Proofs.AccessorFamilies
import TreeRepair.Proofs.AddedAnnotations
import TreeRepair.Proofs.RepairContents
import TreeRepair.Proofs.LostAccessors
import TreeRepair.Proofs.RepairFixpoint
import TreeRepair.Proofs.InertAnnotations
import TreeRepair.Proofs.OrderlyTrees
import TreeRepair.Proofs.OrderlyRepaired
import TreeRepair.Proofs.RepairSize
import TreeRepair.Proofs.RepairDrift
import TreeRepair.Proofs.RepairedNodes
import TreeRepair.Proofs.SuppliedArguments
import TreeRepair.Proofs.AnnotationCounts
import TreeRepair.Proofs.HelperReferences
import TreeRepair.Proofs.WritingEnds
import TreeRepair.Proofs.TypeSyntax
import TreeRepair.Proofs.TypeSyntaxPasses
import TreeRepair.Proofs.CasePlaces
import TreeRepair.Proofs.MisplacedCases
import TreeRepair.Proofs.DetachedReferences
import TreeRepair.Proofs.EndingTasks
import TreeRepair.Proofs.RestoredTwice
import TreeRepair.Proofs.CopiedHelpers
import TreeRepair.Proofs.OwnerPaths
import TreeRepair.Proofs.StaticTypes
import TreeRepair.Proofs.EndingOperations
import TreeRepair.Proofs.CheckerCalls
import TreeRepair.Proofs.ResetLeftovers
import TreeRepair.Proofs.Aliases
import TreeRepair.Proofs.UnwritableTypes
import TreeRepair.Proofs.WrittenParts
import TreeRepair.Proofs.CleanedTypes
import TreeRepair.Proofs.SelectedPaths
import TreeRepair.Proofs.ErasedNames
import TreeRepair.Proofs.AnchoredPaths
import TreeRepair.Proofs.DeclaredMentions
import TreeRepair.Proofs.DenotedSymbols
import TreeRepair.Proofs.UnaliasedTypes
import TreeRepair.Proofs.OwnerChains
import TreeRepair.Proofs.SelfAccesses
import TreeRepair.Proofs.CapturedNames
import TreeRepair.Proofs.ArgumentMarks
import TreeRepair.Proofs.SweptMarks
import TreeRepair.Proofs.ConventionFields
import TreeRepair.Proofs.ConventionTables
import TreeRepair.Proofs.RenamedTrees
import TreeRepair.Proofs.ConstantValues
import TreeRepair.Proofs.StandardForms
import TreeRepair.Proofs.MergedAnnotations
import TreeRepair.Proofs.StructuralEquality
import TreeRepair.Proofs.WalkedPlaces
