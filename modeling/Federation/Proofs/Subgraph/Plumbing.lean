import Federation.Proofs.Subgraph.Roots
import Federation.Proofs.Table
import Mathlib.Data.List.Induction

/-!
# Plumbing

Federation-aware servers add definitions of their own to a schema: directives, some types, and the
fields `_service` and `_entities` of the query type.  None of it is composed.  Directive definitions
and types with names of plumbing leave no block (`Definition.Plumbing.block?_eq`), and an extension
of the query type by plumbing fields leaves one without any parts, which adds nothing to the query
type, and makes up an empty one if there is none, which is left out in the end
(`Assembly.add_emptyQuery`).

So plumbing at the end of a document changes neither what is wrong with it nor its schema
(`Subgraph.schema?_append_plumbing`).  This goes for a type that is composed as the query type and
nothing else: a type that is named for another operation as well may be composed as that, and there
the fields are fields like others (`Subgraph.not_schema?_append_plumbing`).
-/

namespace Federation

/-! ### Plumbing in a document -/

/-- An extension of a type by plumbing fields of the query type, and by nothing else. -/
def TypeBlock.AddsPlumbing (n : Name) (b : TypeBlock) : Prop :=
  b.name = n ∧ b.directives = [] ∧ b.body.kind = .object ∧ b.body.interfaces = [] ∧
    ∀ f ∈ b.body.fields, isPlumbingField f.1 = true

instance (n : Name) (b : TypeBlock) : Decidable (b.AddsPlumbing n) :=
  inferInstanceAs (Decidable (_ ∧ _))

/-- What a federation-aware server adds to a document whose query type has a given name. -/
def Definition.Plumbing (n : Name) : Definition → Prop
  | directive _ => True
  | type t => isPlumbingType t.block.name = true
  | typeExtension b => isPlumbingType b.name = true ∨ b.AddsPlumbing n
  | schema .. | operation .. | fragment .. => False

instance (n : Name) (e : Definition) : Decidable (e.Plumbing n) := by
  cases e <;> unfold Definition.Plumbing <;> infer_instance

/-- A document has a type as its query type: it names the type for the query operation, or it names
none for that and the type has the canonical name, and is not named for another operation.  Under
the name of the type, the document has nothing but object types. -/
structure Document.NamesQuery (d : Document) (n : Name) : Prop where
  named : (.query, n) ∈ d.roots ∨
    n = OperationType.query.rootName ∧ ∀ r ∈ d.roots, r.1 ≠ .query ∧ r.2 ≠ n
  object : ∀ b ∈ d.typeBlocks, b.name = n → b.body.kind = .object

/-- The query type of a document is composed as nothing else: it is named for no other operation,
no other type takes its name if that is the canonical one, and none that is composed along with it
is of another kind. -/
structure Document.QueryType (d : Document) (n : Name) : Prop extends d.NamesQuery n where
  only : ∀ r ∈ d.roots, r.2 = n → r.1 = .query
  sole : n = OperationType.query.rootName → ∀ r ∈ d.roots, r.1 = .query → r.2 = n
  others : ∀ b ∈ d.typeBlocks, (.query, b.name) ∈ d.roots → b.body.kind = .object

instance (d : Document) (n : Name) : Decidable (d.NamesQuery n) :=
  decidable_of_iff (_ ∧ _) ⟨fun h => ⟨h.1, h.2⟩, fun h => ⟨h.named, h.object⟩⟩

instance (d : Document) (n : Name) : Decidable (d.QueryType n) :=
  decidable_of_iff (d.NamesQuery n ∧ _ ∧ _ ∧ _)
    ⟨fun h => ⟨h.1, h.2.1, h.2.2.1, h.2.2.2⟩,
      fun h => ⟨h.toNamesQuery, h.only, h.sole, h.others⟩⟩

theorem OperationType.eq_query_of_rootName {o : OperationType}
    (h : o.rootName = OperationType.query.rootName) : o = .query := by
  cases o
  · rfl
  · exact absurd h (by decide)
  · exact absurd h (by decide)

/-! ### The query type -/

namespace Document.QueryType

variable {d : Document} {n : Name} (h : d.QueryType n)

include h

/-- Unless it has the canonical name, the query type is renamed. -/
theorem get?_rootRenames (hn : n ≠ OperationType.query.rootName) :
    d.rootRenames.get? n = some OperationType.query.rootName :=
  Document.get?_rootRenames
    (namesFor_iff.2 ⟨h.named.resolve_right fun hquery => hn hquery.1, h.only⟩) hn

theorem apply_rootRenames : d.rootRenames.apply n = OperationType.query.rootName := by
  rw [RootRenames.apply]
  by_cases hn : n = OperationType.query.rootName
  · cases hget : d.rootRenames.get? n with
    | none => rw [Option.getD_none, hn]
    | some r =>
      obtain ⟨o, ho, hne, rfl⟩ := exists_root_of_get?_rootRenames hget
      obtain rfl := h.only _ ho rfl
      exact absurd hn hne
  · rw [h.get?_rootRenames hn, Option.getD_some]

/-- No other type takes its name. -/
theorem isSome_source?_eq (hget : d.rootRenames.get? n = none) :
    (d.rootRenames.source? n).isSome = false := by
  have hn : n = OperationType.query.rootName := by
    by_contra hne
    rw [h.get?_rootRenames hne] at hget
    cases hget
  rw [← Bool.not_eq_true, RootRenames.isSome_source?_iff]
  rintro ⟨m, hm⟩
  obtain ⟨o, ho, hne, hname⟩ := exists_root_of_get?_rootRenames hm
  obtain rfl := OperationType.eq_query_of_rootName (hname.symm.trans hn)
  exact hne ((h.sole hn _ ho rfl).trans hname)

/-- All blocks that are composed under the canonical name are of object types. -/
theorem object_of_mem_blocks {b : Block} (hb : b ∈ oks d.blocks)
    (hname : b.name = OperationType.query.rootName) : b.body.kind = .object := by
  obtain ⟨c, hc, _, hget, hrenamed, hbody⟩ := exists_typeBlock_of_mem_blocks hb
  rw [hbody, TypeBody.kind_rename]
  cases hrename : d.rootRenames.get? c.name with
  | some r =>
    rw [RootRenames.apply, hrename, Option.getD_some] at hrenamed
    obtain ⟨o, ho, _, hr⟩ := exists_root_of_get?_rootRenames hrename
    obtain rfl := OperationType.eq_query_of_rootName
      (hr.symm.trans (hrenamed.symm.trans hname))
    exact h.others c hc ho
  | none =>
    rw [RootRenames.apply, hrename, Option.getD_none] at hrenamed
    by_cases hn : n = OperationType.query.rootName
    · exact h.object c hc (hrenamed.symm.trans (hname.trans hn.symm))
    · -- The query type would be composed under the name of this one.
      have hsource : (d.rootRenames.source? c.name).isSome = true := by
        rw [RootRenames.isSome_source?_iff, ← hrenamed, hname]
        exact ⟨n, h.get?_rootRenames hn⟩
      rw [hget hrename] at hsource
      cases hsource

end Document.QueryType

/-! ### What plumbing leaves -/

/-- What is left of an extension of the query type by plumbing fields. -/
def emptyQuery : Block := ⟨true, none, OperationType.query.rootName, [], .object [] []⟩

/-- No field is left of an extension of the query type by plumbing fields. -/
theorem TypeBlock.AddsPlumbing.rename_eq {n : Name} {b : TypeBlock} (h : b.AddsPlumbing n)
    (renames : RootRenames) :
    b.body.rename renames (keepsField OperationType.query.rootName) = .object [] [] := by
  obtain ⟨_, _, hkind, hinterfaces, hfields⟩ := h
  cases hbody : b.body with
  | object is fs =>
    rw [hbody] at hinterfaces hfields
    obtain rfl : is = [] := hinterfaces
    have hnone : fs.filter (fun f => keepsField OperationType.query.rootName f.1) = [] := by
      refine List.filter_eq_nil_iff.2 fun f hf => ?_
      rw [keepsField, hfields f hf]
      decide
    rw [TypeBody.rename, hnone, List.map_nil]
  | _ =>
    rw [hbody] at hkind
    cases hkind

/-- **What plumbing leaves to compose**: nothing, or an extension of the query type that has no
parts. -/
theorem Definition.Plumbing.block?_eq {n : Name} {e : Definition} (he : e.Plumbing n)
    {d : Document} (h : d.QueryType n) :
    e.block? d.rootRenames = none ∨ e.block? d.rootRenames = some (.ok emptyQuery) := by
  cases e with
  | directive _ => exact .inl rfl
  | type t => exact .inl (composedBlock?_of_plumbing he)
  | typeExtension b =>
    cases hplumbing : isPlumbingType b.name with
    | true => exact .inl (composedBlock?_of_plumbing hplumbing)
    | false =>
      have hb : b.AddsPlumbing n := he.resolve_left (by simp [hplumbing])
      have hrename := hb.rename_eq d.rootRenames
      obtain ⟨rfl, hdirectives, _⟩ := hb
      refine .inr ((composedBlock?_eq_ok hplumbing h.isSome_source?_eq).trans ?_)
      rw [h.apply_rootRenames, hdirectives, hrename]
      rfl
  | _ => cases he

/-! ### Folding it in -/

theorem TypeDeclaration.absorb_emptyQuery (t : TypeDeclaration) : t.absorb emptyQuery = t := by
  simp only [absorb, emptyQuery, TypeBody.interfaces, TypeBody.fields, TypeBody.members,
    TypeBody.values, TypeBody.inputs, List.append_nil, List.map_nil, appendNew, Option.or_none]
  rfl

namespace Assembly

/-- The kind of a type is that of one of its blocks, whatever else may be wrong with them. -/
theorem exists_block_of_get?_ofBlocks {bs : List Block} {n : Name} {t : TypeDeclaration}
    (h : (ofBlocks bs).types.get? n = some t) : ∃ b ∈ bs, b.name = n ∧ t.kind = b.body.kind := by
  induction bs using List.reverseRecOn generalizing t with
  | nil => cases h
  | append_singleton bs b ih =>
    have hold : ∀ {t}, (ofBlocks bs).types.get? n = some t →
        ∃ c ∈ bs ++ [b], c.name = n ∧ t.kind = c.body.kind := by
      intro t ht
      obtain ⟨c, hc, hkind⟩ := ih ht
      exact ⟨c, List.mem_append_left _ hc, hkind⟩
    rw [ofBlocks, List.foldl_append, List.foldl_cons, List.foldl_nil, ← ofBlocks, add] at h
    -- a block that is refused, by its definition or by its kind, leaves the types as they were
    split at h
    · exact hold h
    · simp only at h
      split at h
      · exact hold h
      · rename_i hkind
        by_cases hn : n = b.name
        · subst hn
          rw [Table.get?_alter_self, Option.some.injEq] at h
          rw [not_not] at hkind
          exact ⟨b, by simp, rfl, h ▸ hkind⟩
        · rw [Table.get?_alter_of_ne _ _ hn] at h
          exact hold h

variable {a : Assembly}

/-- It adds an object type without fields under the canonical name, unless there is a type. -/
theorem add_emptyQuery_eq
    (h : ∀ t, a.types.get? OperationType.query.rootName = some t → t.kind = .object) :
    a.add emptyQuery = { a with types := a.types.alter OperationType.query.rootName fun _ =>
      (a.types.get? OperationType.query.rootName).getD { kind := .object } } := by
  have hkind : ((a.types.get? OperationType.query.rootName).getD { kind := .object }).kind =
      .object := by
    cases ht : a.types.get? OperationType.query.rootName with
    | none => rfl
    | some t => exact h t ht
  have hdef : emptyQuery.isDefinition = false := rfl
  have hname : emptyQuery.name = OperationType.query.rootName := rfl
  have hbody : emptyQuery.body.kind = .object := rfl
  have hredefines : ∀ t : TypeDeclaration, t.redefinitions emptyQuery.name emptyQuery = [] :=
    fun _ => rfl
  simp only [add, hdef, Bool.false_and, Bool.false_eq_true, if_false, hbody, hname, hkind, ne_eq,
    not_true_eq_false, TypeDeclaration.absorb_emptyQuery]
  rw [← hname, hredefines, List.append_nil]

/-- **An extension of the query type without any parts changes nothing**, as long as the query type
is an object type. -/
theorem add_emptyQuery
    (h : ∀ t, a.types.get? OperationType.query.rootName = some t → t.kind = .object) :
    (a.add emptyQuery).faults = a.faults ∧ (a.add emptyQuery).declarations = a.declarations ∧
      ∀ t, (a.add emptyQuery).types.get? OperationType.query.rootName = some t →
        t.kind = .object := by
  rw [add_emptyQuery_eq h]
  cases ht : a.types.get? OperationType.query.rootName with
  | some t =>
    have htypes : (a.types.alter OperationType.query.rootName fun _ => t) = a.types := by
      refine Table.ext_get? ?_ fun n => ?_
      · rw [Table.names_alter, if_pos (Table.mem_names_iff.2 ⟨t, ht⟩)]
      · by_cases hn : n = OperationType.query.rootName
        · rw [hn, Table.get?_alter_self, ht]
        · rw [Table.get?_alter_of_ne _ _ hn]
    rw [Option.getD_some, htypes]
    exact ⟨rfl, rfl, h⟩
  | none =>
    refine ⟨rfl, ?_, fun t ht' => ?_⟩
    · -- The type is the last one, and it is left out.
      refine Table.ext ?_
      simp only [declarations, Table.filter, Option.getD_none,
        Table.entries_alter_of_notMem (Table.get?_eq_none_iff.1 ht), List.filter_append]
      rw [List.filter_cons_of_neg (by decide), List.filter_nil, List.append_nil]
    · rw [Table.get?_alter_self, Option.some.injEq] at ht'
      rw [← ht']
      rfl

theorem foldl_add_emptyQuery {bs : List Block} (hbs : ∀ b ∈ bs, b = emptyQuery)
    (h : ∀ t, a.types.get? OperationType.query.rootName = some t → t.kind = .object) :
    (bs.foldl add a).faults = a.faults ∧ (bs.foldl add a).declarations = a.declarations := by
  induction bs generalizing a with
  | nil => exact ⟨rfl, rfl⟩
  | cons b bs ih =>
    obtain rfl := hbs b List.mem_cons_self
    obtain ⟨hfaults, hdeclarations, hobject⟩ := add_emptyQuery h
    obtain ⟨hfaults', hdeclarations'⟩ := ih (fun b hb => hbs b (List.mem_cons_of_mem _ hb)) hobject
    exact ⟨hfaults'.trans hfaults, hdeclarations'.trans hdeclarations⟩

end Assembly

/-! ### Documents with plumbing -/

namespace Document

variable {d added : Document} {n : Name}

/-- What is read off schema blocks alone is the same with plumbing. -/
theorem flatMap_append_plumbing (hadded : ∀ e ∈ added, e.Plumbing n) {α : Type}
    {f : Definition → List α} (hf : ∀ e : Definition, e.Plumbing n → f e = []) :
    (d ++ added).flatMap f = d.flatMap f := by
  have hnil : added.flatMap f = [] := List.flatMap_eq_nil_iff.2 fun e he => hf e (hadded e he)
  rw [List.flatMap_append, hnil, List.append_nil]

/-- Plumbing adds nothing to the blocks but extensions of the query type that have no parts. -/
theorem blocks_append_plumbing (h : d.QueryType n) (hadded : ∀ e ∈ added, e.Plumbing n) :
    ∃ bs : List Block, (∀ b ∈ bs, b = emptyQuery) ∧
      errors (d ++ added).blocks = errors d.blocks ∧
      oks (d ++ added).blocks = oks d.blocks ++ bs := by
  have hrenames : (d ++ added).rootRenames = d.rootRenames := by
    have hroots := flatMap_append_plumbing (d := d) hadded (f := Definition.rootOperations)
      fun e he => by cases e <;> first | rfl | cases he
    rw [rootRenames, rootRenames, hroots]
  have hplumbing : ∀ r ∈ added.filterMap (Definition.block? d.rootRenames), r = .ok emptyQuery := by
    intro r hr
    obtain ⟨e, he, hblock⟩ := List.mem_filterMap.1 hr
    rcases (hadded e he).block?_eq h with hnone | hempty
    · rw [hnone] at hblock
      cases hblock
    · rw [hempty] at hblock
      exact (Option.some.inj hblock).symm
  have herrors : errors (added.filterMap (Definition.block? d.rootRenames)) = [] := by
    refine List.eq_nil_iff_forall_not_mem.2 fun fault hfault => ?_
    cases hplumbing _ (mem_errors.1 hfault)
  rw [blocks, blocks, hrenames, List.filterMap_append, errors_append, herrors, List.append_nil,
    oks_append]
  refine ⟨_, fun b hb => ?_, rfl, rfl⟩
  cases hplumbing _ (mem_oks.1 hb)
  rfl

/-- **Plumbing changes no declaration**, and nothing that is wrong with the blocks. -/
theorem assembly_append_plumbing (h : d.QueryType n) (hadded : ∀ e ∈ added, e.Plumbing n) :
    errors (d ++ added).blocks = errors d.blocks ∧
      (d ++ added).assembly.faults = d.assembly.faults ∧
      (d ++ added).declarations = d.declarations := by
  obtain ⟨bs, hbs, herrors, hoks⟩ := blocks_append_plumbing h hadded
  have hobject : ∀ t, d.assembly.types.get? OperationType.query.rootName = some t →
      t.kind = .object := by
    intro t ht
    obtain ⟨b, hb, hname, hkind⟩ := Assembly.exists_block_of_get?_ofBlocks ht
    rw [hkind]
    exact h.object_of_mem_blocks hb hname
  obtain ⟨hfaults, hdeclarations⟩ := Assembly.foldl_add_emptyQuery hbs hobject
  have hassembly : (d ++ added).assembly = bs.foldl Assembly.add d.assembly := by
    rw [assembly, assembly, hoks, Assembly.ofBlocks, List.foldl_append]
    rfl
  rw [declarations, declarations, hassembly]
  exact ⟨herrors, hfaults, hdeclarations⟩

end Document

namespace Subgraph

/-- **Plumbing is invisible.**  With the definitions of a federation-aware server at its end, a
subgraph has the same schema, or the same is wrong with it. -/
theorem schema?_append_plumbing {d added : Document} {n : Name} (h : d.QueryType n)
    (hadded : ∀ e ∈ added, e.Plumbing n) (name url : String) :
    (Subgraph.mk name url (d ++ added)).schema? = (Subgraph.mk name url d).schema? := by
  obtain ⟨herrors, hassembly, hdeclarations⟩ := Document.assembly_append_plumbing h hadded
  have hdirectives : (d ++ added).flatMap Definition.schemaDirectives =
      d.flatMap Definition.schemaDirectives :=
    Document.flatMap_append_plumbing hadded fun e he => by cases e <;> first | rfl | cases he
  have hschema : (d ++ added).schemaFaults = d.schemaFaults :=
    Document.flatMap_append_plumbing hadded fun e he => by cases e <;> first | rfl | cases he
  have hfaults : (d ++ added).faults name = d.faults name := by
    rw [Document.faults, Document.faults, hschema, herrors, hassembly, hdeclarations]
  have hversion : (d ++ added).version = d.version := by
    rw [Document.version, Document.version, hdirectives, hdeclarations]
  simp only [schema?, hfaults, hversion, hdeclarations]

/-! ### Plumbing that is not seen and plumbing that is -/

/-- A document that names a query type and declares nothing for it. -/
def rootless : Subgraph := .ofSchemaText <|
  "schema \x7b query: Root \x7d type T @key(fields: \"a\") \x7b a: Int \x7d"

/-- What a federation-aware server adds to it. -/
def serverPlumbing : Subgraph := .ofSchemaText <|
  "directive @key on OBJECT scalar _Any type _Service \x7b sdl: Int \x7d " ++
    "extend type Root \x7b _service: _Service! _entities(of: _Any): Int \x7d"

/-- With these definitions, which are four, the document has the schema that it has without. -/
theorem schema?_append_plumbing_rootless :
    rootless.document.QueryType ⟨"Root", by decide⟩ ∧ serverPlumbing.document.length = 4 ∧
    (∀ e ∈ serverPlumbing.document, e.Plumbing ⟨"Root", by decide⟩) ∧
    rootless.schema? = .ok rootless.schema ∧
    (Subgraph.mk "a" "" (rootless.document ++ serverPlumbing.document)).schema? =
      .ok rootless.schema := by
  have hread : rootless.document.QueryType ⟨"Root", by decide⟩ ∧
      serverPlumbing.document.length = 4 ∧
      (∀ e ∈ serverPlumbing.document, e.Plumbing ⟨"Root", by decide⟩) ∧
      rootless.schema? = .ok rootless.schema := by decide +kernel
  obtain ⟨hquery, hlength, hplumbing, hschema⟩ := hread
  exact ⟨hquery, hlength, hplumbing, hschema,
    (schema?_append_plumbing hquery hplumbing "a" "").trans hschema⟩

/-- A type that is named for the query operation under the canonical name, along with another one,
and that is not there. -/
def twoRoots : Subgraph := .ofSchemaText <|
  "schema \x7b query: Query \x7d extend schema \x7b query: B \x7d type B \x7b a: Int \x7d"

/-- A type that is named for the query operation along with a scalar, and that is not there. -/
def scalarRoot : Subgraph := .ofSchemaText <|
  "schema \x7b query: A \x7d extend schema \x7b query: B \x7d scalar B type T \x7b a: Int \x7d"

/-- An extension of a type by plumbing. -/
def serviceOf (n : Name) : Document :=
  (ofSchemaText ("extend type " ++ n.text ++ " \x7b _service: Int \x7d")).document

/-- Plumbing is seen on a query type that is composed as the type of another operation, whose name
another query type takes, or that is composed along with a type of another kind. -/
theorem not_schema?_append_plumbing :
    (sharedRoot.document.NamesQuery ⟨"X", by decide⟩ ∧
      (∀ e ∈ serviceOf ⟨"X", by decide⟩, e.Plumbing ⟨"X", by decide⟩) ∧
      sharedRoot.schema? = .ok sharedRoot.schema ∧
      (Subgraph.mk "a" "" (sharedRoot.document ++ serviceOf ⟨"X", by decide⟩)).schema? ≠
        sharedRoot.schema?) ∧
    (twoRoots.document.NamesQuery ⟨"Query", by decide⟩ ∧
      (∀ e ∈ serviceOf ⟨"Query", by decide⟩, e.Plumbing ⟨"Query", by decide⟩) ∧
      twoRoots.schema? = .ok twoRoots.schema ∧
      (Subgraph.mk "a" "" (twoRoots.document ++ serviceOf ⟨"Query", by decide⟩)).schema? ≠
        twoRoots.schema?) ∧
    scalarRoot.document.NamesQuery ⟨"A", by decide⟩ ∧
      (∀ e ∈ serviceOf ⟨"A", by decide⟩, e.Plumbing ⟨"A", by decide⟩) ∧
      scalarRoot.schema? = .ok scalarRoot.schema ∧
      (Subgraph.mk "a" "" (scalarRoot.document ++ serviceOf ⟨"A", by decide⟩)).schema? ≠
        scalarRoot.schema? := by
  decide +kernel

end Subgraph

end Federation
