import GraphQLCheck.Command.Arguments
import GraphQLCheck.Command.LogLevel
import GraphQLCheck.Command.Run
import GraphQLCheck.Files.Collection
import GraphQLCheck.Files.FileSystem
import GraphQLCheck.Files.Path
import GraphQLCheck.IntrospectionQuery
import GraphQLCheck.Language.Document
import GraphQLCheck.Language.Reading.Basic
import GraphQLCheck.Language.Reading.Document
import GraphQLCheck.Language.Reading.TypeSystem
import GraphQLCheck.Language.Reading.Value
import GraphQLCheck.Language.Token
import GraphQLCheck.Language.Token.Number
import GraphQLCheck.Language.Token.Quoted
import GraphQLCheck.Language.Token.Scan
import GraphQLCheck.Language.TypeExpr
import GraphQLCheck.Language.TypeSystem
import GraphQLCheck.Language.Value
import GraphQLCheck.Main
import GraphQLCheck.Node
import GraphQLCheck.Node.Walk
import GraphQLCheck.Number.Double
import GraphQLCheck.OrderedMap
import GraphQLCheck.Proofs.Command.Arguments
import GraphQLCheck.Proofs.Command.Reports
import GraphQLCheck.Proofs.Command.Verdict
import GraphQLCheck.Proofs.Document.GivenArguments
import GraphQLCheck.Proofs.Document.Occurrences
import GraphQLCheck.Proofs.Document.SortedFields
import GraphQLCheck.Proofs.Except
import GraphQLCheck.Proofs.Files.Collection
import GraphQLCheck.Proofs.Files.PathOrder
import GraphQLCheck.Proofs.ListsInOrder
import GraphQLCheck.Proofs.OrderedMap
import GraphQLCheck.Proofs.Rules.IntrospectionQuery
import GraphQLCheck.Proofs.Rules.NestingState
import GraphQLCheck.Proofs.Rules.Places
import GraphQLCheck.Proofs.Rules.UndefinedFields
import GraphQLCheck.Proofs.Rules.UndefinedVariables
import GraphQLCheck.Proofs.Rules.UniqueArguments
import GraphQLCheck.Proofs.Rules.UnknownArguments
import GraphQLCheck.Proofs.Rules.UnknownNames
import GraphQLCheck.Proofs.Rules.VariableTypes
import GraphQLCheck.Proofs.Schema.Appending
import GraphQLCheck.Proofs.Schema.Assembly
import GraphQLCheck.Proofs.Schema.BadReferences
import GraphQLCheck.Proofs.Schema.Buildable
import GraphQLCheck.Proofs.Schema.Building
import GraphQLCheck.Proofs.Schema.Closed
import GraphQLCheck.Proofs.Schema.DistinctRoots
import GraphQLCheck.Proofs.Schema.ExtensionOrder
import GraphQLCheck.Proofs.Schema.Failures
import GraphQLCheck.Proofs.Schema.IntrospectionTypes
import GraphQLCheck.Proofs.Schema.Loading
import GraphQLCheck.Proofs.Schema.MemberErrors
import GraphQLCheck.Proofs.Schema.Merging
import GraphQLCheck.Proofs.Schema.NamesAsKeys
import GraphQLCheck.Proofs.Schema.Order
import GraphQLCheck.Proofs.Schema.Parameters
import GraphQLCheck.Proofs.Schema.References
import GraphQLCheck.Proofs.Schema.ReservedNames
import GraphQLCheck.Proofs.Schema.ResolvedTypes
import GraphQLCheck.Proofs.Schema.Roots
import GraphQLCheck.Proofs.Schema.SourceFiles
import GraphQLCheck.Proofs.Schema.Sources
import GraphQLCheck.Proofs.Schema.TrueErrors
import GraphQLCheck.Proofs.Schema.UnnamedSources
import GraphQLCheck.Proofs.Schema.WellFormed
import GraphQLCheck.Proofs.Schema.Written
import GraphQLCheck.Proofs.Text.ByteOrder
import GraphQLCheck.Proofs.Text.JsonText
import GraphQLCheck.Proofs.Text.RawText
import GraphQLCheck.Proofs.Text.TypeText
import GraphQLCheck.Proofs.Traversal.Calls
import GraphQLCheck.Proofs.Traversal.CarriedType
import GraphQLCheck.Proofs.Traversal.Coverage
import GraphQLCheck.Proofs.Traversal.DirectiveArguments
import GraphQLCheck.Proofs.Traversal.Expansion
import GraphQLCheck.Proofs.Traversal.FragmentContexts
import GraphQLCheck.Proofs.Traversal.Independence
import GraphQLCheck.Proofs.Traversal.LocalRules
import GraphQLCheck.Proofs.Traversal.Locations
import GraphQLCheck.Proofs.Traversal.ObservedCalls
import GraphQLCheck.Proofs.Traversal.Paths
import GraphQLCheck.Proofs.Traversal.Steps
import GraphQLCheck.Proofs.Traversal.SyntaxTree
import GraphQLCheck.Proofs.Traversal.Termination
import GraphQLCheck.Proofs.Traversal.TypesInEffect
import GraphQLCheck.Proofs.Traversal.WellKinded
import GraphQLCheck.Report
import GraphQLCheck.Schema.AnnotatedType
import GraphQLCheck.Schema.Basic
import GraphQLCheck.Schema.BuildError
import GraphQLCheck.Schema.Builder
import GraphQLCheck.Schema.Introspection
import GraphQLCheck.Schema.Location
import GraphQLCheck.Schema.Members
import GraphQLCheck.Schema.ReferenceError
import GraphQLCheck.Schema.References
import GraphQLCheck.Schema.Types
import GraphQLCheck.Text.Blank
import GraphQLCheck.Text.Json
import GraphQLCheck.Text.Position
import GraphQLCheck.Text.Raw
import GraphQLCheck.Validation.Rule
import GraphQLCheck.Validation.Rules.FieldsOnCorrectType
import GraphQLCheck.Validation.Rules.KnownArgumentNames
import GraphQLCheck.Validation.Rules.KnownFragmentNames
import GraphQLCheck.Validation.Rules.KnownTypeNames
import GraphQLCheck.Validation.Rules.NoUndefinedVariables
import GraphQLCheck.Validation.Rules.UniqueArgumentNames
import GraphQLCheck.Validation.Rules.VariablesAreInputTypes
import GraphQLCheck.Validation.Traversal
import GraphQLCheck.Validation.TypeState
import GraphQLCheck.Validation.Validate
