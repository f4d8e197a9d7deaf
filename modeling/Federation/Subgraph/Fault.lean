import Federation.Coordinate
import Federation.DirectiveRule
import Federation.FieldSet.Parser

/-!
# Faults of a subgraph

Everything that can be wrong with a single subgraph, as its cause.  A fault is either about the
schema itself or about the use of a directive; `Fault.isDirectiveUsage` tells which, and
`Fault.message` puts it into words.
-/

namespace Federation

/-- Why a field set does not fit the types that it selects from. -/
inductive SelectionFault where
  /-- The type that is selected from is not defined. -/
  | undefinedType (type : Name)
  /-- The field is not declared. -/
  | noField (type field : Name)
  /-- The field returns a composite type and nothing is selected below it. -/
  | missingSelection (type field returns : Name)
  /-- The field returns a leaf type and something is selected below it. -/
  | leafSelection (type field returns : Name)
  /-- A fragment is restricted to a type that has no fields to select. -/
  | leafCondition (type : Name)
deriving DecidableEq

/-- The fault in words. -/
def SelectionFault.message : SelectionFault → String
  | undefinedType t => s!"type \"{t.text}\" is not defined"
  | noField t f => s!"field \"{t.text}.{f.text}\" does not exist"
  | missingSelection t f r =>
    s!"field \"{t.text}.{f.text}\" returns composite type \"{r.text}\" " ++
      "and needs a selection of subfields"
  | leafSelection t f r =>
    s!"field \"{t.text}.{f.text}\" returns leaf type \"{r.text}\" " ++
      "and cannot have a selection of subfields"
  | leafCondition t => s!"type condition \"{t.text}\" is not a composite type"

/-- Something wrong with a subgraph. -/
inductive Fault where
  /-- The document holds an operation or a fragment. -/
  | executableDefinition
  /-- A type has the name under which another one is composed as a root operation type. -/
  | rootConflict (type renamed : Name)
  /-- A part is defined more than once. -/
  | redefinition (part : Coordinate)
  /-- A type is declared as two kinds of type. -/
  | kindClash (type : Name) (first second : TypeKind)
  /-- An object or interface type has no fields. -/
  | noFields (type : Name)
  /-- A type implements something that is no interface. -/
  | notInterface (type implemented : Name)
  /-- A union includes something that is no object type. -/
  | notObject (union member : Name)
  /-- A field returns an input object type. -/
  | inputAsOutput (part : Coordinate) (type : Name)
  /-- An argument or input field has a composite type. -/
  | outputAsInput (part : Coordinate) (kind : TypeKind) (type : Name)
  /-- A type is referred to and not defined. -/
  | undefinedReference (part : Coordinate) (type : Name)
  /-- A directive that composition does not honour. -/
  | unsupportedDirective (directive : String) (target : DirectiveTarget) (part : Coordinate)
  /-- A directive in a place where it does not belong. -/
  | misplacedDirective (directive : String) (target : DirectiveTarget) (part : Coordinate)
  /-- A directive that is applied twice where once is allowed. -/
  | repeatedDirective (directive : String) (target : DirectiveTarget) (part : Coordinate)
  /-- A key says of its resolvability something other than yes or no. -/
  | resolvableNotBoolean (type : Name)
  /-- A directive lacks the text of its field set. -/
  | noFieldSet (directive : String) (part : Coordinate)
  /-- A directive has a text that is no field set. -/
  | unreadableFieldSet (directive : String) (part : Coordinate) (fault : FieldSetFault)
  /-- A directive has a field set that does not fit. -/
  | unfitFieldSet (directive : String) (part : Coordinate) (fault : SelectionFault)
  /-- A field provides selections below a leaf. -/
  | leafProvides (part : Coordinate) (returns : Name)
  /-- A field overrides the subgraph that it is in. -/
  | selfOverride (part : Coordinate) (subgraph : String)
  /-- A field overrides no subgraph. -/
  | noOverride (part : Coordinate)
deriving DecidableEq

namespace Fault

/-- Whether the fault is in the use of a directive. -/
def isDirectiveUsage : Fault → Bool
  | unsupportedDirective .. | misplacedDirective .. | repeatedDirective .. => true
  | resolvableNotBoolean .. | noFieldSet .. | unreadableFieldSet .. | unfitFieldSet .. => true
  | leafProvides .. | selfOverride .. | noOverride .. => true
  | _ => false

/-- The fault in words. -/
def message : Fault → String
  | executableDefinition => "Executable definitions are not allowed in a subgraph schema"
  | rootConflict t r =>
    s!"Type \"{t.text}\" conflicts with root operation type \"{r.text}\", " ++
      s!"which is composed as \"{t.text}\""
  | redefinition p => s!"{p.noun} \"{p.text}\" is defined more than once"
  | kindClash t k l =>
    s!"Type \"{t.text}\" is declared both as {k.text} type and as {l.text} type"
  | noFields t => s!"Type \"{t.text}\" must define at least one field"
  | notInterface t i =>
    s!"Type \"{t.text}\" implements \"{i.text}\", " ++
      "which is not an interface type defined in this subgraph"
  | notObject u m =>
    s!"Union \"{u.text}\" includes \"{m.text}\", " ++
      "which is not an object type defined in this subgraph"
  | inputAsOutput p t => s!"\"{p.text}\" uses input object type \"{t.text}\" as an output type"
  | outputAsInput p k t => s!"\"{p.text}\" uses {k.text} type \"{t.text}\" as an input type"
  | undefinedReference p t => s!"\"{p.text}\" references undefined type \"{t.text}\""
  | unsupportedDirective d t p =>
    s!"The directive \"@{d}\" applied on {t.text} \"{p.text}\" is not supported by composition"
  | misplacedDirective d t p =>
    s!"The directive \"@{d}\" cannot be applied on {t.text} \"{p.text}\""
  | repeatedDirective d t p =>
    s!"The directive \"@{d}\" cannot be applied more than once on {t.text} \"{p.text}\""
  | resolvableNotBoolean t =>
    s!"The \"resolvable\" argument of @key on type \"{t.text}\" must be a boolean"
  | noFieldSet d p => s!"The directive \"@{d}\" on \"{p.text}\" requires a string \"fields\" argument"
  | unreadableFieldSet d p f => s!"The directive \"@{d}\" on \"{p.text}\" is invalid: {f.message}"
  | unfitFieldSet d p f => s!"The directive \"@{d}\" on \"{p.text}\" is invalid: {f.message}"
  | leafProvides p r =>
    s!"The directive \"@provides\" on \"{p.text}\" requires a composite return type, " ++
      s!"but the field returns \"{r.text}\""
  | selfOverride p s =>
    s!"The directive \"@override\" on \"{p.text}\" cannot override its own subgraph \"{s}\""
  | noOverride p =>
    s!"The directive \"@override\" on \"{p.text}\" requires a string \"from\" argument"

end Fault

end Federation
