import Federation.Subgraph
import Federation.Subgraph.Annotation
import Federation.Subgraph.Assembly
import Federation.Version

/-!
# Schemas

The schema of a subgraph is what its document says once it has been checked and brought into
canonical form: extensions folded in, root operation types under their canonical names, plumbing
left out, and every federation directive read.  `Subgraph.schema?` answers it, or everything that
is wrong with the subgraph.

The faults come in the order of the checks: directives on the schema, blocks, assembly,
references, directives on types.
-/

namespace Federation

/-- A checked subgraph. -/
structure Schema where
  name : String
  url : String
  version : FederationVersion
  types : Table TypeDeclaration
deriving DecidableEq

namespace Document

/-- The blocks that a document leaves to compose, and what is wrong with them. -/
def blocks (d : Document) : List (Except Fault Block) :=
  d.filterMap (Definition.block? d.rootRenames)

/-- The assembly of the blocks of a document. -/
def assembly (d : Document) : Assembly := Assembly.ofBlocks (oks d.blocks)

/-- The declarations of a document, without annotations. -/
def declarations (d : Document) : Table TypeDeclaration := d.assembly.declarations

/-- What is wrong with the directives that a document applies to its schema. -/
def schemaFaults (d : Document) : List Fault :=
  d.flatMap fun e => placementFaults .schema .schema [] e.schemaDirectives

/-- Everything that is wrong with a document as that of a given subgraph. -/
def faults (d : Document) (subgraph : String) : List Fault :=
  d.schemaFaults ++ errors d.blocks ++ d.assembly.faults ++ referenceFaults d.declarations ++
    directiveFaults d.declarations subgraph

/-! ### Versions -/

/-- The part of a link's address by which a document asks for Federation 2. -/
def version2Address : List Char := "specs.apollo.dev/federation/v2".toList

/-- Whether a text holds another one. -/
def holdsText (part : List Char) : List Char → Bool
  | [] => part.isEmpty
  | c :: cs => part.isPrefixOf (c :: cs) || holdsText part cs

/-- Whether an applied directive links the document to Federation 2. -/
def linksVersion2 (d : Directive) : Bool :=
  canonicalName d.name == "link" &&
    ((d.argument? "url").bind Value.text?).any fun url => holdsText version2Address url.toList

/-- The version that a document is written against: it asks for Federation 2 by a link, or by
using a directive that needs it. -/
def version (d : Document) : FederationVersion :=
  let schemaDirectives := d.flatMap Definition.schemaDirectives
  if schemaDirectives.any linksVersion2 || needVersion2 schemaDirectives ||
      d.declarations.values.any fun t => needVersion2 t.appliedDirectives
  then .v2 else .v1

end Document

/-- The schema of a subgraph, or everything that is wrong with it. -/
def Subgraph.schema? (s : Subgraph) : Except (List Fault) Schema :=
  let faults := s.document.faults s.name
  if faults.isEmpty then
    .ok ⟨s.name, s.url, s.document.version, annotate s.document.declarations s.name⟩
  else .error faults

end Federation
