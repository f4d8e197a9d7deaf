import Federation.Blank
import Federation.Error
import Federation.Graph.Implementation
import Federation.Graph.Merge
import Federation.Options
import Federation.Supergraph

/-!
# Composition

A batch of subgraphs is composed in three steps: their schemas are checked one by one
(`schemas?`), what they contribute is merged into a graph (`Graph.ofSchemas`), and the graph is
walked to see whether every field can be resolved.  Faults of single subgraphs end the
composition; conflicts and unresolvable fields are reported together.
-/

namespace Federation

/-! ### Checking -/

/-- What is wrong with the names of the subgraphs from a position of the batch on, where `seen`
are the names before. -/
def nameFaults (position : Nat) (seen : List String) : List Subgraph → List NameFault
  | [] => []
  | s :: rest =>
    if isBlankText s.name then .blank position :: nameFaults (position + 1) seen rest
    else if s.name ∈ seen then .taken s.name :: nameFaults (position + 1) seen rest
    else nameFaults (position + 1) (s.name :: seen) rest

/-- The errors that faults of a subgraph are. -/
def faultErrors (s : Subgraph) (faults : List Fault) : List CompositionError :=
  faults.map (.subgraph s.name)

/-- Everything that is wrong with the subgraphs of a batch on their own. -/
def batchErrors (batch : List Subgraph) : List CompositionError :=
  (nameFaults 0 [] batch).map .name ++
    batch.flatMap fun s => faultErrors s (s.document.faults s.name)

/-- The schemas of a batch, or everything that is wrong with its subgraphs. -/
def schemas? (batch : List Subgraph) : Except (List CompositionError) (List Schema) :=
  let errors := batchErrors batch
  if errors.isEmpty then .ok (oks (batch.map Subgraph.schema?)) else .error errors

/-! ### Merging -/

/-- The graph of what some schemas contribute. -/
def graphOf (schemas : List Schema) : Graph := .ofSchemas (schemas.map Schema.contribution)

/-- All conflicts between some contributions: those of the fold, and those of the merged graph. -/
def conflicts (contributions : List Schema) : List Conflict :=
  let g := Graph.ofSchemas contributions
  mergeConflicts (contributions.map (·.name)) g.nameOf ∅ (contributed contributions) ++
    g.baseConflicts ++ g.sharingConflicts ++ g.implementationConflicts

/-! ### Composing -/

/-- Everything that is wrong between some schemas. -/
def compositionErrors (options : Options) (schemas : List Schema) : List CompositionError :=
  (conflicts (schemas.map Schema.contribution)).map .conflict ++
    if options.disableResolvabilityValidation then []
    else (graphOf schemas).unresolvables.map .unresolvable

/-- The supergraph of a batch, or everything that is wrong with it. -/
def compose (options : Options) (batch : List Subgraph) :
    Except (List CompositionError) Supergraph :=
  match schemas? batch with
  | .error errors => .error errors
  | .ok schemas =>
    let errors := compositionErrors options schemas
    if errors.isEmpty then .ok (.ofGraph (graphOf schemas)) else .error errors

end Federation
