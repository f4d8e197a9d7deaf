import Federation.FirstSeen
import Federation.Subgraph.Block
import Federation.Subgraph.Declaration

/-!
# Assembling declarations

The blocks of a document are folded into one declaration per type, in the order of the document.
The first description counts, directives add up, and interfaces, fields, members, values and
input fields are kept once each in first-seen order.  Repeating a field, an enum value or an
input field is a fault; repeating an interface or a member is not.

What a block adds (`TypeDeclaration.absorb`) and what is wrong with it
(`TypeDeclaration.redefinitions`) are separate functions, so a declaration does not depend on the
faults found on the way.
-/

namespace Federation

/-! ### Names seen again -/

/-- The names that occur again, either among `seen` or further up in their list. -/
def repeats (seen : List Name) : List Name → List Name
  | [] => []
  | n :: ns => if n ∈ seen then n :: repeats seen ns else repeats (n :: seen) ns

/-- A table with those entries added whose names are new. -/
def Table.addNew {α : Type} (t : Table α) (es : List (Name × α)) : Table α :=
  es.foldl (fun t e => t.insertNew e.1 e.2) t

/-! ### Folding a block in -/

namespace Block

/-- Whether the block counts as the definition of its type. -/
def isDefinition (b : Block) : Bool := !b.isExtension && !hasDirective b.directives "extends"

/-- A field of the block.  A mark on the block counts for every field of it. -/
def declare (b : Block) (f : FieldDefinition) : FieldDeclaration where
  definition := f
  shareable := hasDirective b.directives "shareable" || hasDirective f.directives "shareable"
  external := hasDirective b.directives "external" || hasDirective f.directives "external"

end Block

namespace TypeDeclaration

/-- The declaration with what a block of the same kind adds. -/
def absorb (t : TypeDeclaration) (b : Block) : TypeDeclaration :=
  { t with
    description := t.description.or b.description
    directives := t.directives ++ b.directives
    interfaces := appendNew t.interfaces b.body.interfaces
    fields := t.fields.addNew (b.body.fields.map fun f => (f.1, b.declare f.2))
    members := appendNew t.members b.body.members
    values := t.values.addNew b.body.values
    inputs := t.inputs.addNew b.body.inputs }

/-- What fields define again, where the fields in `seen` are there already: the field itself, or
an argument of a field that is new. -/
def fieldRedefinitions (type : Name) (seen : List Name) :
    List (Name × FieldDefinition) → List Fault
  | [] => []
  | (n, f) :: fs =>
    if n ∈ seen then .redefinition (.field type n) :: fieldRedefinitions type seen fs
    else
      (repeats [] (f.arguments.map Prod.fst)).map (fun a => .redefinition (.argument type n a)) ++
        fieldRedefinitions type (n :: seen) fs

/-- What a block defines again. -/
def redefinitions (name : Name) (t : TypeDeclaration) (b : Block) : List Fault :=
  fieldRedefinitions name t.fields.names b.body.fields ++
    (repeats t.values.names (b.body.values.map Prod.fst)).map
      (fun v => .redefinition (.enumValue name v)) ++
    (repeats t.inputs.names (b.body.inputs.map Prod.fst)).map
      (fun f => .redefinition (.inputField name f))

end TypeDeclaration

/-! ### Folding all blocks -/

/-- The declarations made of some blocks. -/
structure Assembly where
  /-- The declarations so far. -/
  types : Table TypeDeclaration := ∅
  /-- The types of which a definition has been seen. -/
  defined : List Name := []
  /-- What was wrong with the blocks. -/
  faults : List Fault := []

namespace Assembly

/-- The assembly with a block folded in.  A second definition of a type, or a block of another
kind than the type has, adds nothing but a fault. -/
def add (a : Assembly) (b : Block) : Assembly :=
  if b.isDefinition && a.defined.contains b.name then
    { a with faults := a.faults ++ [.redefinition (.type b.name)] }
  else
    let defined := if b.isDefinition then b.name :: a.defined else a.defined
    -- The first block of a type fixes its kind, be it a definition or an extension.
    let t := (a.types.get? b.name).getD { kind := b.body.kind }
    if t.kind ≠ b.body.kind then
      { a with defined, faults := a.faults ++ [.kindClash b.name t.kind b.body.kind] }
    else
      { types := a.types.alter b.name fun _ => t.absorb b
        defined
        faults := a.faults ++ t.redefinitions b.name b }

/-- The assembly of some blocks. -/
def ofBlocks (bs : List Block) : Assembly := bs.foldl add {}

/-- The declarations that are there to compose: a root operation type that nothing but plumbing
was declared for is left out. -/
def declarations (a : Assembly) : Table TypeDeclaration :=
  a.types.filter fun n t =>
    !(rootTypeNames.contains n && t.kind = .object && t.fields.isEmpty)

end Assembly

end Federation
