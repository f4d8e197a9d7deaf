import Federation.Graph.Conflict
import Federation.Resolvability.Unresolvable
import Federation.Subgraph.Fault

/-!
# Composition errors

Everything that can keep a batch of subgraphs from being composed: a name, a fault of a single
subgraph, a conflict between subgraphs, or a field that cannot be resolved.  Every error has a
stable code.
-/

namespace Federation

/-- What can be wrong with the name of a subgraph. -/
inductive NameFault where
  /-- The subgraph at this position of the batch has no name. -/
  | blank (position : Nat)
  /-- Another subgraph has the name already. -/
  | taken (name : String)
deriving DecidableEq

/-- The fault in words. -/
def NameFault.message : NameFault → String
  | blank position => s!"The subgraph at position {position} has an empty name"
  | taken name => s!"The subgraph name \"{name}\" is used by more than one subgraph"

/-- An error of composition. -/
inductive CompositionError where
  /-- A subgraph has a name that it cannot have. -/
  | name (fault : NameFault)
  /-- There is something wrong with a single subgraph. -/
  | subgraph (name : String) (fault : Fault)
  /-- There is something wrong between subgraphs. -/
  | conflict (conflict : Conflict)
  /-- A field cannot be resolved. -/
  | unresolvable (field : Unresolvable)
deriving DecidableEq

namespace CompositionError

/-- The stable code of an error. -/
def code : CompositionError → String
  | name _ => "INVALID_SUBGRAPH_NAME"
  | subgraph _ f => if f.isDirectiveUsage then "DIRECTIVE_USAGE" else "PARSE"
  | conflict c => c.kind.code
  | unresolvable _ => "UNRESOLVABLE_FIELD"

/-- Whether the error was found between subgraphs, as against in a single one or on the walk. -/
def isMergeError : CompositionError → Bool
  | conflict _ => true
  | _ => false

/-- The error in words.  A fault of a subgraph starts with the name of the subgraph. -/
def message : CompositionError → String
  | name f => f.message
  | subgraph s f => s!"[{s}] {f.message}"
  | conflict c => c.message
  | unresolvable u => u.message

end CompositionError

end Federation
