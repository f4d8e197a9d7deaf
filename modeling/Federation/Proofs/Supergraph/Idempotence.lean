import Federation.Proofs.Graph.Single
import Federation.Proofs.Supergraph.Document

/-!
# Composing a supergraph again

A composed supergraph can be a subgraph of its own, and composing it alone changes none of its types
(`compose_document`): their order, descriptions, directives, fields, arguments, members, values and
interfaces are as before.  Only the version may go back to what the types still ask for, and with
it the directives that the supergraph defines.

Nothing is wrong with the document of a canonical supergraph (`Supergraph.faults_document`).  What
the subgraph contributes is plain, so its graph has the definitions that it is made of
(`TypeDefinition.definition_ofDeclaration`) and its walk ends nowhere (`Single`).  Its types
implement their interfaces because those of the first graph do, and the two graphs are alike
(`TypeNode.alike_of_body_eq`).
-/

namespace Federation

/-! ### Types with equal bodies -/

/-- Tidy types with the same body are alike. -/
theorem TypeNode.alike_of_body_eq {t t' : TypeNode} (ht : t.Tidy) (ht' : t'.Tidy)
    (hbody : t'.body = t.body) : t.Alike t' := by
  have hkind : t'.kind = t.kind := by rw [← kind_body, hbody, kind_body]
  -- Each field of one of them is seen in the body, and so is a field of the other.
  have hfield : ∀ {u u' : TypeNode}, u.Tidy → u.body = u'.body → ∀ {m f},
      u.fields.get? m = some f → ∃ f', u'.fields.get? m = some f' ∧
        f'.definition = f.definition := by
    intro u u' hu hbody m f hf
    have hmem : (m, f.definition) ∈ u.body.fields :=
      mem_fields_body_iff.2 ⟨hu.hasFields hf, f, hf, rfl⟩
    rw [hbody] at hmem
    exact (mem_fields_body_iff.1 hmem).2
  refine ⟨hkind, fun m => ?_, fun i => ?_, fun m => ?_⟩
  · cases hf : t.fields.get? m with
    | none =>
      cases hf' : t'.fields.get? m with
      | none => exact .none
      | some f' =>
        obtain ⟨f, hsome, _⟩ := hfield ht' hbody hf'
        rw [hf] at hsome
        cases hsome
    | some f =>
      obtain ⟨f', hf', hdef⟩ := hfield ht hbody.symm hf
      rw [hf']
      exact .some ⟨by rw [hdef], fun x => by rw [hdef]⟩
  · have hmem : i ∈ t'.body.interfaces ↔ i ∈ t.body.interfaces := by rw [hbody]
    rw [mem_interfaces_body_iff, mem_interfaces_body_iff] at hmem
    constructor
    · exact fun hi => (hmem.1 ⟨ht'.interface hi, hi⟩).2
    · exact fun hi => (hmem.2 ⟨ht.interface hi, hi⟩).2
  · have hmem : m ∈ t'.body.members ↔ m ∈ t.body.members := by rw [hbody]
    rw [mem_members_body_iff, mem_members_body_iff] at hmem
    constructor
    · exact fun hm => (hmem.1 ⟨ht'.member hm, hm⟩).2
    · exact fun hm => (hmem.2 ⟨ht.member hm, hm⟩).2

/-! ### What a canonical supergraph contributes -/

/-- What a definition contributes where nothing is renamed. -/
def TypeDefinition.contribution (version : FederationVersion) (d : TypeDefinition) :
    TypeDeclaration := d.toBlock.declaration.contribution version

/-- The type that a canonical definition contributes to a graph alone has that definition. -/
theorem TypeDefinition.definition_ofDeclaration {d : TypeDefinition} (hd : d.Canonical)
    (hdistinct : d.block.body.Distinct) (version : FederationVersion) (names : List String) :
    (TypeNode.ofDeclaration names (d.contribution version)).definition d.block.name = d := by
  have hdescription : (TypeNode.ofDeclaration names (d.contribution version)).description =
      d.description := by
    show mergeDescription none ((none : Option String).or d.description) = d.description
    cases htext : d.description with
    | none => rfl
    | some text => simp [mergeDescription, hd.description text htext]
  have hdirectives : (TypeNode.ofDeclaration names (d.contribution version)).directives =
      d.block.directives := by
    show appendNew [] (persistedDirectives d.block.directives) = d.block.directives
    rw [hd.directives.persistedDirectives_eq]
    exact appendNew_of_nodup hd.nodup
  have hbody : (TypeNode.ofDeclaration names (d.contribution version)).body = d.block.body := by
    have hplain : ∀ {m f}, (d.contribution version).fields.get? m = some f →
        f.external = false := fun hf =>
      (plain_of_get?_fields_contribution_declaration hdistinct hd.directives hd.body hf).1
    rw [TypeNode.body_ofDeclaration ?_ ?_ hplain]
    · exact body_contribution_declaration hdistinct hd.directives hd.body version
    · exact (Block.interfaces_declaration (b := d.toBlock) hdistinct).symm ▸ hdistinct.interfaces
    · exact (Block.members_declaration (b := d.toBlock) hdistinct).symm ▸ hdistinct.members
  rw [TypeNode.definition, hdescription, hdirectives, hbody]

namespace Supergraph

/-- A supergraph as a subgraph. -/
def toSubgraph (s : Supergraph) (name url : String) : Subgraph := ⟨name, url, s.document⟩

variable {s : Supergraph} (hs : s.Canonical) (name url : String)

include hs

theorem entries_types_contribution : (s.toSubgraph name url).schema.contribution.types.entries =
    s.types.map fun d => (d.block.name, d.contribution s.document.version) := by
  show ((annotate s.document.declarations name).map
    (TypeDeclaration.contribution s.document.version)).entries = _
  rw [annotate_document hs, Table.map, Table.mapEntries]
  show s.document.declarations.entries.map _ = _
  rw [entries_declarations_document hs, List.map_map]
  rfl

theorem get?_types_contribution_iff {n : Name} {d : TypeDeclaration} :
    (s.toSubgraph name url).schema.contribution.types.get? n = some d ↔
      ∃ e ∈ s.types, e.block.name = n ∧ e.contribution s.document.version = d := by
  rw [Table.get?_eq_some_iff, entries_types_contribution hs, List.mem_map]
  simp only [Prod.mk.injEq]

theorem plain_contribution : (s.toSubgraph name url).schema.contribution.Plain := by
  intro n d m f hd hf
  obtain ⟨e, he, rfl, rfl⟩ := (get?_types_contribution_iff hs name url).1 hd
  exact plain_of_get?_fields_contribution_declaration (hs.closed.distinct e he)
    (hs.type e he).directives (hs.type e he).body hf

/-- The graph of a canonical supergraph has the definitions of the supergraph. -/
theorem types_ofGraph_ofSchemas :
    (ofGraph (.ofSchemas [(s.toSubgraph name url).schema.contribution])).types = s.types := by
  rw [ofGraph, entries_types_ofSchemas_singleton, entries_types_contribution hs, List.map_map,
    List.map_map]
  refine (List.map_congr_left fun d hd => ?_).trans (List.map_id s.types)
  exact TypeDefinition.definition_ofDeclaration (hs.type d hd) (hs.closed.distinct d hd) _ _

end Supergraph

/-! ### Composing it alone -/

section Recomposition

variable {g : Graph} (hs : (Supergraph.ofGraph g).Canonical)
  (htidy : ∀ {n t}, g.types.get? n = some t → t.Tidy) {name : String} (url : String)

include hs

/-- With a name that is not blank, a canonical supergraph has a schema. -/
theorem schemas?_toSubgraph (hname : isBlankText name = false) :
    schemas? [(Supergraph.ofGraph g).toSubgraph name url] =
      .ok [((Supergraph.ofGraph g).toSubgraph name url).schema] := by
  refine schemas?_eq_ok_iff.2 ⟨⟨?_, ?_, ?_⟩, rfl⟩
  · exact List.forall_mem_singleton.2 hname
  · exact List.nodup_singleton _
  · exact List.forall_mem_singleton.2 (Supergraph.faults_document hs name)

include htidy

/-- The graph of the supergraph alone is like the graph that it was composed from. -/
theorem alike_ofSchemas_toSubgraph : g.Alike
    (.ofSchemas [((Supergraph.ofGraph g).toSubgraph name url).schema.contribution]) := by
  intro n
  cases ht : g.types.get? n with
  | none =>
    cases ht' : (Graph.ofSchemas
        [((Supergraph.ofGraph g).toSubgraph name url).schema.contribution]).types.get? n with
    | none => exact .none
    | some t' =>
      obtain ⟨d, hd, rfl⟩ := get?_types_ofSchemas_singleton_iff.1 ht'
      obtain ⟨e, he, hen, rfl⟩ := (Supergraph.get?_types_contribution_iff hs name url).1 hd
      obtain ⟨m, t, hmt, rfl⟩ := Supergraph.mem_types_ofGraph_iff.1 he
      replace hen : m = n := hen
      rw [hen, ht] at hmt
      cases hmt
  -- one declaration is merged with nothing, so the type is read back from its own definition
  | some t =>
    have hmem := Supergraph.mem_types_ofGraph_iff.2 ⟨n, t, ht, rfl⟩
    have hd : ((Supergraph.ofGraph g).toSubgraph name url).schema.contribution.types.get? n =
        some ((t.definition n).contribution (Supergraph.ofGraph g).document.version) :=
      (Supergraph.get?_types_contribution_iff hs name url).2 ⟨t.definition n, hmem, rfl, rfl⟩
    rw [get?_types_ofSchemas_singleton_iff.2 ⟨_, hd, rfl⟩]
    have hcontributed := Subgraph.contributed_of_get?_types (Supergraph.faults_document hs name) hd
    refine .some (TypeNode.alike_of_body_eq (htidy ht) ?_ ?_)
    · exact TypeNode.tidy_ofDeclarations fun e he => by
        rw [List.mem_singleton.1 he]
        exact ⟨rfl, hcontributed.proper⟩
    · have hdef := TypeDefinition.definition_ofDeclaration (hs.type _ hmem)
        (hs.closed.distinct _ hmem) (Supergraph.ofGraph g).document.version
      exact congrArg (fun d => d.block.body) (hdef _)

/-- **A supergraph of a graph whose types implement their interfaces composes to itself.** -/
theorem compose_toSubgraph (hargs : g.DistinctArguments) (himpl : g.implementationConflicts = [])
    (hname : isBlankText name = false) (options : Options) :
    compose options [(Supergraph.ofGraph g).toSubgraph name url] =
      .ok ⟨(Supergraph.ofGraph g).document.version, (Supergraph.ofGraph g).types⟩ := by
  have hschemas := schemas?_toSubgraph hs url hname
  have hplain := Supergraph.plain_contribution hs name url
  refine compose_eq_ok_iff.2 ⟨_, hschemas, conflicts_eq_nil_iff.2 ⟨?_, ?_, ?_, ?_⟩, .inr ?_, ?_⟩
  · refine mergeConflicts_eq_nil_of_nodup ?_
    rw [List.map_singleton, contributed_singleton, List.map_map]
    exact Table.distinct _
  · exact hplain.baseConflicts_eq_nil
  · exact hplain.sharingConflicts_eq_nil
  · exact (alike_ofSchemas_toSubgraph hs htidy url).implementationConflicts_eq_nil hargs
      (normalized_of_schemas? hschemas).distinctArguments himpl
  · exact hplain.unresolvables_eq_nil
  · have htypes := Supergraph.types_ofGraph_ofSchemas hs name url
    have hversion : (Supergraph.ofGraph
        (graphOf [((Supergraph.ofGraph g).toSubgraph name url).schema])).version =
          (Supergraph.ofGraph g).document.version := by
      show FederationVersion.highest [(Supergraph.ofGraph g).document.version] = _
      cases (Supergraph.ofGraph g).document.version <;> rfl
    rw [← htypes, ← hversion]
    rfl

end Recomposition

/-- **Composition is idempotent**: what a batch composes to, composed alone under any name that is
not blank, is a supergraph with the same types. -/
theorem compose_document {options : Options} {batch : List Subgraph} {s : Supergraph}
    (h : compose options batch = .ok s) {name : String} (hname : isBlankText name = false)
    (url : String) (options' : Options) :
    compose options' [⟨name, url, s.document⟩] = .ok ⟨s.document.version, s.types⟩ := by
  obtain ⟨schemas, hschemas, hc, _, rfl⟩ := compose_eq_ok_iff.1 h
  have hargs : (graphOf schemas).DistinctArguments :=
    (normalized_of_schemas? hschemas).distinctArguments
  have himpl := (conflicts_eq_nil_iff.1 hc).2.2.2
  exact compose_toSubgraph (Supergraph.canonical_ofGraph hschemas hc)
    (tidy_of_get?_types hschemas hc) url hargs himpl hname options'

/-- Two subgraphs that share an entity: fields with an argument and a description that only one of
them has, a label, and a field that both of them resolve. -/
def labelledBatch : List Subgraph := Subgraph.batchOfTexts
  [("a", "type Query \x7b t: T \x7d type T @key(fields: \"id\") \x7b id: ID! " ++
      "f: Int @shareable \x7d"),
    ("b", "\"a thing\" type T @key(fields: \"id\") @tag(name: \"l\") \x7b id: ID! " ++
      "f(x: [E]): Int @shareable \x7d enum E \x7b A \x7d")]

/-- Their supergraph is one of Federation 2, and composed alone it is one of Federation 1, since
nothing in it tells that the field was shared.  The types are the same. -/
theorem compose_document_labelled : ∃ s, compose {} labelledBatch = .ok s ∧ s.version = .v2 ∧
    isBlankText "all" = false ∧ compose {} [⟨"all", "", s.document⟩] = .ok ⟨.v1, s.types⟩ := by
  have hversions : (compose {} labelledBatch).toOption.map
      (fun s => (s.version, s.document.version)) = some (.v2, .v1) := by decide +kernel
  obtain ⟨s, hs, hversions⟩ := Option.map_eq_some_iff.1 hversions
  have hok : compose {} labelledBatch = .ok s := eq_ok_of_toOption hs
  have hname : isBlankText "all" = false := by decide
  have hagain := compose_document hok hname "" {}
  rw [(Prod.mk.inj hversions).2] at hagain
  exact ⟨s, hok, (Prod.mk.inj hversions).1, hname, hagain⟩

/-- A subgraph with one field. -/
def oneFieldBatch : List Subgraph :=
  Subgraph.batchOfTexts [("a", "type Query \x7b x: Int \x7d")]

/-- A name that is not empty but blank is no name for a supergraph as a subgraph. -/
theorem not_compose_document_blank : " " ≠ "" ∧ ∃ s, compose {} oneFieldBatch = .ok s ∧
    ∀ s', compose {} [⟨" ", "", s.document⟩] ≠ .ok s' := by
  have hok : (compose {} oneFieldBatch).isOk = true := by decide +kernel
  obtain ⟨s, hs⟩ := exists_of_isOk hok
  refine ⟨by decide, s, hs, fun s' hs' => ?_⟩
  obtain ⟨schemas, hschemas, _⟩ := compose_eq_ok_iff.1 hs'
  have hblank : isBlankText " " = false :=
    (schemas?_eq_ok_iff.1 hschemas).1.1 _ List.mem_cons_self
  exact absurd hblank (by decide)

end Federation
