import GraphQL.Response
import GraphQL.Script.Conversions
import GraphQL.Script.Recipe
import GraphQL.Session
import GraphQL.Proofs.Execution.Runs
import GraphQL.Proofs.Collection
import GraphQL.Proofs.Outcome.Executions
import GraphQL.Proofs.Dispatch
import GraphQL.Proofs.Conformance
import GraphQL.Proofs.Execution.Evaluation
import GraphQL.Proofs.NullPropagation
import GraphQL.Proofs.ErrorOrder
import GraphQL.Proofs.Execution.Liveness
import GraphQL.Proofs.Liveness
import GraphQL.Proofs.Plain
import GraphQL.Proofs.Stateless
import GraphQL.Proofs.ScheduleIndependence
import GraphQL.Proofs.Lookups
import GraphQL.Proofs.StaticTypes
import GraphQL.Proofs.Substitution
import GraphQL.Proofs.Isolation
import GraphQL.Proofs.Declarations
import GraphQL.Proofs.Coercion
import GraphQL.Proofs.Arguments
import GraphQL.Proofs.InterfaceCalls
import GraphQL.Proofs.Execution.Calls
import GraphQL.Proofs.Assembly
import GraphQL.Proofs.Execution.Timing
import GraphQL.Proofs.Calls
import GraphQL.Proofs.Numbers
import GraphQL.Proofs.Quiet
import GraphQL.Proofs.Sameness
import GraphQL.Proofs.Echo
import GraphQL.Proofs.Shows
import GraphQL.Proofs.WellTyped
import GraphQL.Proofs.WellFormed
import GraphQL.Proofs.Literals
import GraphQL.Proofs.Delays
import GraphQL.Proofs.Timing
import GraphQL.Proofs.Execution.Sequence
import GraphQL.Proofs.Execution.Shift
import GraphQL.Proofs.Execution.Stages
import GraphQL.Proofs.Execution.Promises
import GraphQL.Proofs.Composition
import GraphQL.Proofs.Restriction
import GraphQL.Proofs.Mutations
import GraphQL.Proofs.Defaults
import GraphQL.Proofs.Replacement
import GraphQL.Proofs.Invocations
import GraphQL.Proofs.Classification
import GraphQL.Proofs.Overlap
import GraphQL.Proofs.KindIndependence
import GraphQL.Proofs.Merging
import GraphQL.Proofs.Renaming.Executions
import GraphQL.Proofs.PossibleTypes
import GraphQL.Proofs.Binding.Findings
import GraphQL.Proofs.Objects
import GraphQL.Proofs.Json.InputValues
import GraphQL.Proofs.Json.Responses
import GraphQL.Proofs.LazyFields
import GraphQL.Proofs.CoercionDepth
import GraphQL.Proofs.Grouping
import GraphQL.Proofs.Execution.Answers
import GraphQL.Proofs.Termination
