import Federation.Composition
import Federation.Proofs.Order.Composition
import Federation.Proofs.Resolvability.FetchPlan
import Federation.Proofs.Resolvability.Termination
import Federation.Proofs.Graph.Provenance
import Federation.Proofs.Graph.Origin
import Federation.Proofs.Subgraph.References
import Federation.Proofs.Supergraph.Closure
import Federation.Proofs.Subgraph.Proper
import Federation.Proofs.Supergraph.Canonical
import Federation.Proofs.Subgraph.Definitions
import Federation.Proofs.Graph.Single
import Federation.Proofs.Supergraph.Idempotence
import Federation.Proofs.Resolvability.Provided
import Federation.Proofs.Supergraph.Applications
import Federation.Proofs.Graph.Selections
import Federation.Proofs.Separation.Composition
import Federation.Proofs.Supergraph.Placement
import Federation.Proofs.FieldSet.Reading
import Federation.Proofs.FieldSet.RoundTrip
import Federation.Proofs.Condition.Composition
import Federation.Proofs.Resolvability.KeyJumps
import Federation.Proofs.Resolvability.ReportedPaths
import Federation.Proofs.Resolvability.Prefixes
import Federation.Proofs.Resolvability.Ancestors
import Federation.Proofs.Resolvability.Inherited
import Federation.Proofs.Resolvability.Culprits
import Federation.Proofs.Resolvability.AcceptedFields
import Federation.Proofs.Resolvability.Overrides
import Federation.Proofs.Resolvability.Covering
import Federation.Proofs.Resolvability.AddedKeys
import Federation.Proofs.Graph.Directives
import Federation.Proofs.Graph.ReturnTypes
import Federation.Proofs.Graph.Bases
import Federation.Proofs.Graph.Attributions
import Federation.Proofs.Graph.Sharing
import Federation.Proofs.Graph.Covariance
import Federation.Proofs.Resolvability.Fragments
import Federation.Proofs.Renaming.Schemas
import Federation.Proofs.Subgraph.Kinds
import Federation.Proofs.Subgraph.Splitting
import Federation.Proofs.Subgraph.Reordering
import Federation.Proofs.Subgraph.Plumbing
