import Federation.Proofs.Supergraph.Bodies

/-!
# Closed supergraphs

A composed supergraph is a schema of its own: no name is defined twice, nothing is listed twice in
one definition, and everything that a definition refers to is defined, with a kind that fits
(`Supergraph.Closed`, `closed_of_compose`).

Every reference was checked in the subgraph that makes it.  The merge puts a type together from
declarations of one kind (`Concordant`) and makes no reference up, so what is referred to is in the
supergraph with the kind that it has in that subgraph (`TypeNode.refers_ofDeclarations`).
-/

namespace Federation

/-- Whether a body lists nothing twice. -/
structure TypeBody.Distinct (b : TypeBody) : Prop where
  fields : (b.fields.map Prod.fst).Nodup
  arguments : ∀ f ∈ b.fields, (f.2.arguments.map Prod.fst).Nodup
  values : (b.values.map Prod.fst).Nodup
  inputs : (b.inputs.map Prod.fst).Nodup
  members : b.members.Nodup
  interfaces : b.interfaces.Nodup

/-- Whether a supergraph defines a name as a type of some kind. -/
def Supergraph.Defines (s : Supergraph) (n : Name) (k : TypeKind) : Prop :=
  ∃ d ∈ s.types, d.block.name = n ∧ d.block.body.kind = k

/-- Whether a supergraph is a schema of its own. -/
structure Supergraph.Closed (s : Supergraph) : Prop where
  /-- No name is defined twice. -/
  names : (s.types.map fun d => d.block.name).Nodup
  /-- No definition lists anything twice. -/
  distinct : ∀ d ∈ s.types, d.block.body.Distinct
  /-- Whatever a definition refers to is defined with a kind that fits. -/
  refers : ∀ d ∈ s.types, d.block.body.Refers s.Defines

/-! ### The supergraph of a graph -/

theorem Supergraph.mem_types_ofGraph_iff {g : Graph} {d : TypeDefinition} :
    d ∈ (ofGraph g).types ↔ ∃ n t, g.types.get? n = some t ∧ d = t.definition n := by
  simp only [ofGraph, List.mem_map, Prod.exists, ← Table.get?_eq_some_iff, eq_comm (a := d)]

theorem Supergraph.defines_ofGraph_iff {g : Graph} {n : Name} {k : TypeKind} :
    (ofGraph g).Defines n k ↔ ∃ t, g.types.get? n = some t ∧ t.kind = k := by
  constructor
  · rintro ⟨d, hd, rfl, rfl⟩
    obtain ⟨n, t, ht, rfl⟩ := mem_types_ofGraph_iff.1 hd
    exact ⟨t, ht, TypeNode.kind_body.symm⟩
  · rintro ⟨t, ht, rfl⟩
    exact ⟨t.definition n, mem_types_ofGraph_iff.2 ⟨n, t, ht, rfl⟩, rfl, TypeNode.kind_body⟩

/-- A merged type lists nothing twice. -/
theorem Graph.DistinctArguments.distinct_body {g : Graph} (hg : g.DistinctArguments) {n : Name}
    {t : TypeNode} (ht : g.types.get? n = some t) : t.body.Distinct := by
  have hnodup : ∀ {α β : Type} (p : Prop) [Decidable p] (table : Table α) (f : α → β),
      ((if p then table.entries.map fun e => (e.1, f e.2) else []).map Prod.fst).Nodup := by
    intro α β p _ table f
    split
    · exact (table.map f).distinct
    · exact List.nodup_nil
  have hnames : ∀ {α : Type} (p : Prop) [Decidable p] (table : Table α),
      (if p then table.names else []).Nodup := by
    intro α p _ table
    split
    · exact table.nodup_names
    · exact List.nodup_nil
  rw [TypeNode.body_eq]
  constructor
  · rw [TypeBody.fields_ofParts]
    exact hnodup _ t.fields _
  · rintro ⟨m, f⟩ hf
    rw [← TypeNode.body_eq] at hf
    obtain ⟨_, node, hnode, rfl⟩ := TypeNode.mem_fields_body_iff.1 hf
    exact hg ht hnode
  · rw [TypeBody.values_ofParts]
    have h := hnodup (t.kind = .enum) t.values id
    simpa using h
  · rw [TypeBody.inputs_ofParts]
    exact hnodup _ t.inputs _
  · rw [TypeBody.members_ofParts]
    exact hnames _ t.members
  · rw [TypeBody.interfaces_ofParts]
    exact hnames _ t.interfaces

/-! ### Composed supergraphs -/

/-- Checked subgraphs without conflicts merge to a closed supergraph. -/
theorem Supergraph.closed_ofGraph {batch : List Subgraph} {schemas : List Schema}
    (hschemas : schemas? batch = .ok schemas)
    (hc : conflicts (schemas.map Schema.contribution) = []) :
    (ofGraph (graphOf schemas)).Closed := by
  have hn := normalized_of_schemas? hschemas
  have hconc := concordant_of_conflicts_eq_nil hn hc
  refine ⟨?_, ?_, ?_⟩
  · have hnames : ((ofGraph (graphOf schemas)).types.map fun d => d.block.name) =
        (graphOf schemas).types.names := by
      rw [ofGraph, List.map_map]
      rfl
    rw [hnames]
    exact Table.nodup_names _
  · intro d hd
    obtain ⟨n, t, ht, rfl⟩ := mem_types_ofGraph_iff.1 hd
    exact hn.distinctArguments.distinct_body ht
  · intro d hd
    obtain ⟨n, t, ht, rfl⟩ := mem_types_ofGraph_iff.1 hd
    obtain ⟨names, kind, ds, rfl, hne, hds⟩ := exists_declares_of_get?_ofSchemas hconc.kind ht
    refine TypeNode.refers_ofDeclarations hne fun e he => ⟨(hds e he).1, ?_⟩
    -- The references of a declaration were checked in its own subgraph.
    refine (refers_of_declares hschemas (hds e he).2).mono fun n k hk => ?_
    obtain ⟨d, hd, rfl⟩ := hk
    rw [defines_ofGraph_iff]
    exact ⟨_, exists_get?_ofSchemas hconc.kind hd, TypeNode.kind_ofDeclarations⟩

/-- **Composed supergraphs are closed**, for every batch of subgraphs that composes. -/
theorem closed_of_compose {options : Options} {batch : List Subgraph} {s : Supergraph}
    (h : compose options batch = .ok s) : s.Closed := by
  obtain ⟨schemas, hschemas, hc, _, rfl⟩ := compose_eq_ok_iff.1 h
  exact Supergraph.closed_ofGraph hschemas hc

/-- Two subgraphs that share an entity.  The first one has a query type of another name, and the
second one has nothing but plumbing in its query type. -/
def renamedRootBatch : List Subgraph := Subgraph.batchOfTexts
  [("a", "schema \x7b query: Root \x7d type Root \x7b t(x: In, y: [E!]): [T] u: U i: I \x7d " ++
      "interface I \x7b id: ID! \x7d union U = T | Root enum E \x7b A B \x7d scalar S " ++
      "type T implements I @key(fields: \"id\") \x7b id: ID! s: S \x7d " ++
      "input In \x7b e: E n: In \x7d"),
    ("b", "type Query \x7b _service: _Service! \x7d type _Service \x7b sdl: String \x7d " ++
      "type T @key(fields: \"id\") \x7b id: ID! f(k: K): F \x7d " ++
      "enum F \x7b C \x7d input K \x7b a: Int \x7d")]

/-- The two subgraphs compose, and their supergraph is closed. -/
theorem closed_of_compose_renamedRoot : ∃ s, compose {} renamedRootBatch = .ok s ∧
    s.types.map (·.block.name.text) = ["Query", "I", "U", "E", "S", "T", "In", "F", "K"] ∧
    s.Closed := by
  have hnames : (compose {} renamedRootBatch).toOption.map
      (fun s => s.types.map (·.block.name.text)) =
        some ["Query", "I", "U", "E", "S", "T", "In", "F", "K"] := by decide +kernel
  obtain ⟨s, hs, hnames⟩ := Option.map_eq_some_iff.1 hnames
  have hok : compose {} renamedRootBatch = .ok s := eq_ok_of_toOption hs
  exact ⟨s, hok, hnames, closed_of_compose hok⟩

end Federation
