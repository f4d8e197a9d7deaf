import Federation.Proofs.Condition.Documents
import Federation.Proofs.Subgraph.Written

/-!
# Root operation types

A document may name any of its object types for an operation, in as many schema blocks as it likes.
The renamings are collected by the names of these types, so a type that is named for one operation
only is composed under the canonical name of that operation (`Document.apply_rootRenames`), be the
names swapped, chained or repeated.  Every block of such a type is kept, under the canonical name
(`Document.exists_block`), or there is a fault; so if nothing is wrong with the document, each of
its fields is declared there, and the operation is not lost (`Subgraph.keepsRoot`).

Two kinds of types named for an operation do not come through: types whose names say that they are
plumbing are left out, and of a type that is named for several operations only one is kept
(`Subgraph.not_keepsRoot_lost`).
-/

namespace Federation

/-! ### Renamings -/

/-- The type definition or extension that a definition holds. -/
def Definition.typeBlock? : Definition → Option TypeBlock
  | type t => some t.block
  | typeExtension b => some b
  | _ => none

namespace Document

/-- The operations that a document names types for, with these types. -/
def roots (d : Document) : List (OperationType × Name) := d.flatMap Definition.rootOperations

instance (d : Document) (r : OperationType × Name) : Decidable (r ∈ d.roots) :=
  List.instDecidableMemOfLawfulBEq r d.roots

/-- The type blocks of a document, in which the types have their own names. -/
def typeBlocks (d : Document) : List TypeBlock := d.filterMap Definition.typeBlock?

/-- A document names a type for an operation, and for no other one. -/
structure NamesFor (d : Document) (o : OperationType) (n : Name) : Prop where
  mem : (o, n) ∈ d.roots
  only : ∀ o', (o', n) ∈ d.roots → o' = o

variable {d : Document} {o : OperationType} {n : Name}

theorem namesFor_iff : d.NamesFor o n ↔ (o, n) ∈ d.roots ∧ ∀ r ∈ d.roots, r.2 = n → r.1 = o := by
  constructor
  · rintro ⟨hmem, honly⟩
    exact ⟨hmem, fun r hr hn => honly r.1 (hn ▸ hr)⟩
  · rintro ⟨hmem, honly⟩
    exact ⟨hmem, fun o' h => honly _ h rfl⟩

instance (d : Document) (o : OperationType) (n : Name) : Decidable (d.NamesFor o n) :=
  decidable_of_iff _ namesFor_iff.symm

/-- What the roots of a document make of a type that they name for one operation at most. -/
theorem get?_foldl_addRoot {roots : List (OperationType × Name)}
    (honly : ∀ o', (o', n) ∈ roots → o' = o) (renames : RootRenames) :
    (roots.foldl addRoot renames).get? n =
      if (o, n) ∈ roots ∧ n ≠ o.rootName then some o.rootName else renames.get? n := by
  induction roots generalizing renames with
  | nil => simp
  | cons root roots ih =>
    rw [List.foldl_cons, ih fun o' h => honly o' (List.mem_cons_of_mem _ h)]
    obtain ⟨o', m⟩ := root
    by_cases hm : n = m
    · subst hm
      obtain rfl := honly o' List.mem_cons_self
      by_cases hroot : n = o'.rootName
      · simp [addRoot, hroot]
      · simp [addRoot, hroot]
    · -- The renaming of another type.
      have hget : (addRoot renames (o', m)).get? n = renames.get? n := by
        unfold addRoot
        split
        · rfl
        · exact Table.get?_alter_of_ne _ _ hm
      simp [hget, hm]

/-- A type is renamed only to the name of an operation that it is named for. -/
theorem exists_root_of_get?_foldl_addRoot {roots : List (OperationType × Name)}
    {renames : RootRenames} {r : Name} (h : (roots.foldl addRoot renames).get? n = some r) :
    renames.get? n = some r ∨ ∃ o, (o, n) ∈ roots ∧ n ≠ o.rootName ∧ r = o.rootName := by
  induction roots generalizing renames with
  | nil => exact .inl h
  | cons root roots ih =>
    rcases ih h with hold | ⟨o, ho, hrenamed⟩
    · unfold addRoot at hold
      split at hold
      · exact .inl hold
      · rename_i hne
        by_cases hn : n = root.2
        · subst hn
          rw [Table.get?_alter_self, Option.some.injEq] at hold
          exact .inr ⟨root.1, List.mem_cons_self, hne, hold.symm⟩
        · rw [Table.get?_alter_of_ne _ _ hn] at hold
          exact .inl hold
    · exact .inr ⟨o, List.mem_cons_of_mem _ ho, hrenamed⟩

theorem exists_root_of_get?_rootRenames {r : Name} (h : d.rootRenames.get? n = some r) :
    ∃ o, (o, n) ∈ d.roots ∧ n ≠ o.rootName ∧ r = o.rootName :=
  (exists_root_of_get?_foldl_addRoot h).resolve_left nofun

/-- A type that is named for one operation, under another name, is renamed. -/
theorem get?_rootRenames (h : d.NamesFor o n) (hne : n ≠ o.rootName) :
    d.rootRenames.get? n = some o.rootName :=
  (get?_foldl_addRoot h.only ∅).trans (if_pos ⟨h.mem, hne⟩)

/-- **A type that is named for one operation is composed under the name of that operation.** -/
theorem apply_rootRenames (h : d.NamesFor o n) : d.rootRenames.apply n = o.rootName := by
  rw [RootRenames.apply]
  by_cases hn : n = o.rootName
  · have hget := get?_foldl_addRoot h.only ∅
    rw [if_neg fun h => h.2 hn] at hget
    rw [rootRenames, ← roots, hget, Table.get?_empty, Option.getD_none, hn]
  · rw [get?_rootRenames h hn, Option.getD_some]

end Document

/-- Whether some type is composed under a name instead of its own can be told by looking up. -/
theorem RootRenames.isSome_source?_iff {renames : RootRenames} {n : Name} :
    (renames.source? n).isSome = true ↔ ∃ m, renames.get? m = some n := by
  rw [source?, Option.isSome_map, List.find?_isSome]
  constructor
  · rintro ⟨e, he, hn⟩
    exact ⟨e.1, Table.get?_eq_some_iff.2 (of_decide_eq_true hn ▸ he)⟩
  · rintro ⟨m, hm⟩
    exact ⟨(m, n), Table.get?_eq_some_iff.1 hm, decide_eq_true rfl⟩

/-! ### Blocks -/

/-- Which fields of a type are kept: on the query type, those that are no plumbing. -/
def keepsField (type field : Name) : Bool :=
  !(type = OperationType.query.rootName && isPlumbingField field)

/-- What is left of a type block but for the fault that may be in it: only whether there is one
depends on which type was renamed. -/
theorem map_toOption_composedBlock? (renames : RootRenames) (isExtension : Bool)
    (description : Option String) (b : TypeBlock) :
    (composedBlock? renames isExtension description b).map Except.toOption =
      if isPlumbingType b.name then none
      else some (if (renames.get? b.name).isNone && (renames.source? b.name).isSome then none
        else some ⟨isExtension, description, renames.apply b.name, b.directives,
          b.body.rename renames (keepsField (renames.apply b.name))⟩) := by
  unfold composedBlock?
  cases isPlumbingType b.name with
  | true => rfl
  | false => cases renames.get? b.name <;> cases renames.source? b.name <;> rfl

theorem composedBlock?_of_plumbing {renames : RootRenames} {isExtension : Bool}
    {description : Option String} {b : TypeBlock} (hplumbing : isPlumbingType b.name = true) :
    composedBlock? renames isExtension description b = none :=
  if_pos hplumbing

/-- A type block whose name no other type takes is kept. -/
theorem composedBlock?_eq_ok {renames : RootRenames} {isExtension : Bool}
    {description : Option String} {b : TypeBlock} (hplumbing : isPlumbingType b.name = false)
    (hfree : renames.get? b.name = none → (renames.source? b.name).isSome = false) :
    composedBlock? renames isExtension description b =
      some (.ok ⟨isExtension, description, renames.apply b.name, b.directives,
        b.body.rename renames (keepsField (renames.apply b.name))⟩) := by
  unfold composedBlock?
  rw [hplumbing]
  cases hget : renames.get? b.name with
  | some r => rfl
  | none =>
    have hnone := Option.isNone_iff_eq_none.1 (Option.isSome_eq_false_iff.1 (hfree hget))
    rw [hnone]
    rfl

/-- A type block that is no plumbing is kept under the name that its type is composed under, or
there is a fault. -/
theorem composedBlock?_cases {renames : RootRenames} {isExtension : Bool}
    {description : Option String} {b : TypeBlock} (hplumbing : isPlumbingType b.name = false) :
    (∃ fault, composedBlock? renames isExtension description b = some (.error fault)) ∨
    composedBlock? renames isExtension description b =
      some (.ok ⟨isExtension, description, renames.apply b.name, b.directives,
        b.body.rename renames (keepsField (renames.apply b.name))⟩) := by
  unfold composedBlock?
  rw [hplumbing]
  simp only [Bool.false_eq_true, if_false]
  split
  · exact .inl ⟨_, rfl⟩
  · exact .inr rfl

namespace Document

variable {d : Document}

/-- What a definition with a type block leaves is what is left of the block. -/
theorem exists_block?_eq {e : Definition} {b : TypeBlock} (h : e.typeBlock? = some b)
    (renames : RootRenames) : ∃ isExtension description,
      e.block? renames = composedBlock? renames isExtension description b := by
  cases e with
  | type t =>
    cases h
    exact ⟨_, _, rfl⟩
  | typeExtension t =>
    cases h
    exact ⟨_, _, rfl⟩
  | _ => cases h

/-- Unless something is wrong with the blocks, each type block that is no plumbing is kept. -/
theorem exists_block (herrors : errors d.blocks = []) {b : TypeBlock} (hb : b ∈ d.typeBlocks)
    (hplumbing : isPlumbingType b.name = false) :
    ∃ c ∈ oks d.blocks, c.name = d.rootRenames.apply b.name ∧
      c.body = b.body.rename d.rootRenames (keepsField c.name) := by
  obtain ⟨e, he, heb⟩ := List.mem_filterMap.1 hb
  obtain ⟨isExtension, description, hblock⟩ := exists_block?_eq heb d.rootRenames
  rcases composedBlock?_cases hplumbing with ⟨fault, hr⟩ | hr
  · have hmem : fault ∈ errors d.blocks :=
      mem_errors.2 (List.mem_filterMap.2 ⟨e, he, hblock.trans hr⟩)
    rw [herrors] at hmem
    cases hmem
  · exact ⟨_, mem_oks.2 (List.mem_filterMap.2 ⟨e, he, hblock.trans hr⟩), rfl, rfl⟩

/-- Each block that is kept is one of the document that is no plumbing, renamed; and if it has kept
its name, then no other type has taken that. -/
theorem exists_typeBlock_of_mem_blocks {b : Block} (hb : b ∈ oks d.blocks) :
    ∃ c ∈ d.typeBlocks, isPlumbingType c.name = false ∧
      (d.rootRenames.get? c.name = none → (d.rootRenames.source? c.name).isSome = false) ∧
      b.name = d.rootRenames.apply c.name ∧
      b.body = c.body.rename d.rootRenames (keepsField b.name) := by
  obtain ⟨e, he, hblock⟩ := List.mem_filterMap.1 (mem_oks.1 hb)
  obtain ⟨c, hc⟩ : ∃ c, e.typeBlock? = some c := by
    cases e <;> first | exact ⟨_, rfl⟩ | cases hblock
  obtain ⟨isExtension, description, heq⟩ := exists_block?_eq hc d.rootRenames
  have hkept := map_toOption_composedBlock? d.rootRenames isExtension description c
  rw [← heq, hblock, Option.map_some, Except.toOption] at hkept
  refine ⟨c, List.mem_filterMap.2 ⟨e, he, hc⟩, ?_⟩
  split at hkept
  · cases hkept
  · rename_i hplumbing
    split at hkept
    · cases hkept
    · rename_i hfree
      cases hkept
      refine ⟨eq_false_of_ne_true hplumbing, fun hnone => ?_, rfl, rfl⟩
      simpa [hnone] using hfree

end Document

/-! ### Fields of root operation types -/

/-- A document declares a field in a block of an object type, under the type's own name. -/
def Document.WritesField (d : Document) (n m : Name) (f : FieldDefinition) : Prop :=
  ∃ b ∈ d.typeBlocks, b.name = n ∧ b.body.kind = .object ∧ (m, f) ∈ b.body.fields

/-- A document has the type as an object type with some field that is no plumbing. -/
def Document.HasRootField (d : Document) (n : Name) : Prop :=
  ∃ m f, d.WritesField n m f ∧ isPlumbingField m = false

theorem Document.hasRootField_iff {d : Document} {n : Name} : d.HasRootField n ↔
    ∃ b ∈ d.typeBlocks, b.name = n ∧ b.body.kind = .object ∧
      ∃ e ∈ b.body.fields, isPlumbingField e.1 = false := by
  constructor
  · rintro ⟨m, f, ⟨b, hb, hname, hobject, hf⟩, hm⟩
    exact ⟨b, hb, hname, hobject, (m, f), hf, hm⟩
  · rintro ⟨b, hb, hname, hobject, e, he, hm⟩
    exact ⟨e.1, e.2, ⟨b, hb, hname, hobject, he⟩, hm⟩

instance (d : Document) (n : Name) : Decidable (d.HasRootField n) :=
  decidable_of_iff _ Document.hasRootField_iff.symm

/-- A schema has an object type under the canonical name of an operation, and all fields that a
document writes on the type that it names for the operation are there, but for the plumbing of the
query type. -/
def Schema.KeepsRoot (schema : Schema) (d : Document) (o : OperationType) (n : Name) : Prop :=
  ∃ t, schema.types.get? o.rootName = some t ∧ t.kind = .object ∧
    ∀ m f, d.WritesField n m f → ¬ (o = .query ∧ isPlumbingField m = true) →
      ∃ e, t.fields.get? m = some e ∧ e.definition = f.renameType d.rootRenames

/-- All fields of a type that is composed for an operation are kept, but for the plumbing of the
query type. -/
theorem keepsField_rootName {o : OperationType} {m : Name}
    (h : ¬ (o = .query ∧ isPlumbingField m = true)) : keepsField o.rootName m = true := by
  have hquery : ∀ o : OperationType, o.rootName = OperationType.query.rootName → o = .query := by
    intro o
    cases o <;> decide
  simp only [keepsField, Bool.not_eq_true', Bool.and_eq_false_imp, decide_eq_true_eq]
  intro ho
  simpa [hquery o ho] using h

namespace Subgraph

variable {s : Subgraph} {o : OperationType} {n m : Name} {f : FieldDefinition}

/-- A subgraph has a schema if nothing is wrong with it. -/
theorem schema?_eq_ok_iff {schema : Schema} :
    s.schema? = .ok schema ↔ s.document.faults s.name = [] ∧ schema = s.schema := by
  unfold Subgraph.schema?
  simp only
  split
  · rename_i h
    simp [List.isEmpty_iff.1 h, Subgraph.schema, eq_comm]
  · rename_i h
    have hne : s.document.faults s.name ≠ [] := fun hnil => h (List.isEmpty_iff.2 hnil)
    simp [hne]

/-- What a root type declares is written under the canonical name. -/
theorem exists_writes_of_writesField (herrors : errors s.document.blocks = [])
    (hroot : s.document.NamesFor o n) (hplumbing : isPlumbingType n = false)
    (hf : s.document.WritesField n m f) (hkeeps : keepsField o.rootName m = true) :
    ∃ b, s.Writes o.rootName m b (f.renameType s.document.rootRenames) := by
  obtain ⟨b, hb, rfl, hobject, hf⟩ := hf
  obtain ⟨c, hc, hname, hbody⟩ := Document.exists_block herrors hb hplumbing
  rw [Document.apply_rootRenames hroot] at hname
  refine ⟨c, List.mem_filter.2 ⟨hc, decide_eq_true hname⟩, ?_, ?_⟩
  · rw [hbody, TypeBody.kind_rename, hobject]
  · rw [hbody, TypeBody.fields_rename, hname]
    exact List.mem_map.2 ⟨_, List.mem_filter.2 ⟨hf, hkeeps⟩, rfl⟩

/-- **No root operation is lost** of those that a checked subgraph names an object type for, if the
type has a field that is no plumbing, is not named for another operation as well, and has not the
name of plumbing. -/
theorem keepsRoot {schema : Schema} (hschema : s.schema? = .ok schema)
    (hroot : s.document.NamesFor o n) (hplumbing : isPlumbingType n = false)
    (hfield : s.document.HasRootField n) : schema.KeepsRoot s.document o n := by
  obtain ⟨hfaults, rfl⟩ := schema?_eq_ok_iff.1 hschema
  have herrors : errors s.document.blocks = [] := (Document.faults_eq_nil_iff.1 hfaults).2.1
  -- Every field that is kept is declared on the type of the canonical name.
  have hdeclared : ∀ m f, s.document.WritesField n m f →
      ¬ (o = .query ∧ isPlumbingField m = true) →
      ∃ t, s.document.declarations.get? o.rootName = some t ∧ t.kind = .object ∧
        ∃ e, t.fields.get? m = some e ∧ e.definition = f.renameType s.document.rootRenames := by
    intro m f hf hkept
    obtain ⟨b, hb⟩ := exists_writes_of_writesField herrors hroot hplumbing hf
      (keepsField_rootName hkept)
    obtain ⟨t, ht, hobject, hfield⟩ := hb.exists_declaration hfaults
    exact ⟨t, ht, hobject, _, hfield, rfl⟩
  obtain ⟨m₀, f₀, hf₀, hm₀⟩ := hfield
  obtain ⟨t, ht, hobject, _⟩ := hdeclared m₀ f₀ hf₀ (by simp [hm₀])
  refine ⟨annotateType s.document.declarations s.name o.rootName t, ?_, hobject, ?_⟩
  · rw [get?_types_schema, ht, Option.map_some]
  · intro m f hf hkept
    obtain ⟨t', ht', _, e, he, hdefinition⟩ := hdeclared m f hf hkept
    obtain rfl := Option.some.inj (ht.symm.trans ht')
    refine ⟨annotateField s.document.declarations s.name t.kind o.rootName m e, ?_, ?_⟩
    · show (t.fields.mapEntries _).get? m = _
      rw [Table.get?_mapEntries, he, Option.map_some]
    · rw [definition_annotateField, hdefinition]

end Subgraph

/-! ### Roots that are kept and roots that are lost -/

/-- The subgraph with a text as its schema. -/
def Subgraph.ofSchemaText (text : String) : Subgraph :=
  ⟨"a", "", (Document.ofText? text).getD []⟩

/-- Two root types, one of them under the canonical name of the other one's operation. -/
def chainedRoots : Subgraph := .ofSchemaText <|
  "schema \x7b query: Root \x7d extend schema \x7b mutation: Query \x7d " ++
    "type Root \x7b _service: Int a: [Query!] \x7d extend type Root \x7b b: Int \x7d " ++
    "type Query \x7b c: Root \x7d"

namespace Subgraph

/-- The root type of the query operation is kept, although its canonical name is that of the other
root type, and with the field of its extension. -/
theorem keepsRoot_chainedRoots : chainedRoots.schema? = .ok chainedRoots.schema ∧
    chainedRoots.document.NamesFor .query ⟨"Root", by decide⟩ ∧
    isPlumbingType ⟨"Root", by decide⟩ = false ∧
    chainedRoots.document.HasRootField ⟨"Root", by decide⟩ ∧
    chainedRoots.schema.KeepsRoot chainedRoots.document .query ⟨"Root", by decide⟩ := by
  have hread : chainedRoots.schema? = .ok chainedRoots.schema ∧
      chainedRoots.document.NamesFor .query ⟨"Root", by decide⟩ ∧
      isPlumbingType ⟨"Root", by decide⟩ = false ∧
      chainedRoots.document.HasRootField ⟨"Root", by decide⟩ := by decide +kernel
  obtain ⟨hschema, hroot, hplumbing, hfield⟩ := hread
  exact ⟨hschema, hroot, hplumbing, hfield, keepsRoot hschema hroot hplumbing hfield⟩

/-- A root type whose name is that of plumbing. -/
def plumbingRoot : Subgraph := .ofSchemaText <|
  "schema \x7b query: link__X \x7d type link__X \x7b a: Int \x7d type T \x7b a: Int \x7d"

/-- A root type of two operations. -/
def sharedRoot : Subgraph := .ofSchemaText <|
  "schema \x7b query: X mutation: X \x7d type X \x7b a: Int \x7d"

/-- Both are checked, and the query operation is lost in both. -/
theorem not_keepsRoot_lost :
    (plumbingRoot.schema? = .ok plumbingRoot.schema ∧
      (.query, ⟨"link__X", by decide⟩) ∈ plumbingRoot.document.roots ∧
      plumbingRoot.document.HasRootField ⟨"link__X", by decide⟩ ∧
      ¬ plumbingRoot.schema.KeepsRoot plumbingRoot.document .query ⟨"link__X", by decide⟩) ∧
    sharedRoot.schema? = .ok sharedRoot.schema ∧
      (.query, ⟨"X", by decide⟩) ∈ sharedRoot.document.roots ∧
      sharedRoot.document.HasRootField ⟨"X", by decide⟩ ∧
      ¬ sharedRoot.schema.KeepsRoot sharedRoot.document .query ⟨"X", by decide⟩ := by
  have hplumbing : plumbingRoot.schema? = .ok plumbingRoot.schema ∧
      (.query, ⟨"link__X", by decide⟩) ∈ plumbingRoot.document.roots ∧
      plumbingRoot.document.HasRootField ⟨"link__X", by decide⟩ ∧
      plumbingRoot.schema.types.get? OperationType.query.rootName = none := by decide +kernel
  have hshared : sharedRoot.schema? = .ok sharedRoot.schema ∧
      (.query, ⟨"X", by decide⟩) ∈ sharedRoot.document.roots ∧
      sharedRoot.document.HasRootField ⟨"X", by decide⟩ ∧
      sharedRoot.schema.types.get? OperationType.query.rootName = none := by decide +kernel
  -- There is no type under the canonical name at all.
  have hlost : ∀ {schema : Schema} {d : Document} {n : Name},
      schema.types.get? OperationType.query.rootName = none → ¬ schema.KeepsRoot d .query n := by
    rintro schema d n hnone ⟨t, ht, _⟩
    rw [hnone] at ht
    cases ht
  obtain ⟨hschema, hroot, hfield, hnone⟩ := hplumbing
  obtain ⟨hschema', hroot', hfield', hnone'⟩ := hshared
  exact ⟨⟨hschema, hroot, hfield, hlost hnone⟩, hschema', hroot', hfield', hlost hnone'⟩

end Subgraph

end Federation
