import Federation.Document.Parser

/-!
# Subgraphs

A subgraph is a schema that some team owns, known under a name and reached at an address.
Composition takes a batch of them, and their order in the batch is the order of everything it
reports.
-/

namespace Federation

/-- One of the schemas that are composed. -/
structure Subgraph where
  name : String
  url : String
  document : Document
deriving DecidableEq

/-- The subgraph whose schema is a text, if the text is a document. -/
def Subgraph.ofText? (name url text : String) : Option Subgraph :=
  (Document.ofText? text).map fun d => ⟨name, url, d⟩

/-- The batch of subgraphs that are given by their names and texts; what is no document is passed
over. -/
def Subgraph.batchOfTexts (texts : List (String × String)) : List Subgraph :=
  texts.filterMap fun t => Subgraph.ofText? t.1 "" t.2

end Federation
