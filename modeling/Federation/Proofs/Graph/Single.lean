import Federation.Proofs.Graph.Provenance
import Federation.Proofs.Resolvability.Covering
import Federation.Proofs.Subgraph.References
import Federation.Proofs.Supergraph.Composed

/-!
# Graphs of a single schema

What a schema contributes alone is merged to a graph that has one type for each declaration, in
their order and with their bodies (`entries_types_ofSchemas_singleton`,
`TypeNode.body_ofDeclaration`).  If none of its fields is external or annotated (`Schema.Plain`),
the schema resolves all of them, so nothing is in conflict, and it is never lost on a walk
(`Schema.Plain.sustains`), so nothing is unresolvable (`Schema.Plain.unresolvables_eq_nil`).
-/

namespace Federation

/-! ### Types made of one declaration -/

theorem Table.entries_mergeIn_empty {α β : Type} (f : α → Option β → β) (new : Table α) :
    (new.mergeIn f ∅).entries = new.entries.map fun e => (e.1, f e.2 none) := by
  refine (entries_foldl_alter Prod.fst (fun e => f e.2) ?_).trans (List.nil_append _)
  rw [names_empty, List.nil_append]
  exact new.distinct

namespace TypeNode

/-- The type that one declaration makes up, of the first subgraph of a batch. -/
def ofDeclaration (names : List String) (d : TypeDeclaration) : TypeNode :=
  ofDeclarations names d.kind [(0, d)]

variable {names : List String} {d : TypeDeclaration} {m : Name}

theorem get?_fields_ofDeclaration_iff {f : FieldNode} :
    (ofDeclaration names d).fields.get? m = some f ↔
      ∃ e, d.fields.get? m = some e ∧ (FieldNode.start e).absorb names 0 e = f := by
  show (d.fields.mergeIn _ ∅).get? m = some f ↔ _
  rw [Table.get?_mergeIn]
  cases d.fields.get? m with
  | none => simp
  | some e => simp

theorem entries_fields_ofDeclaration : (ofDeclaration names d).fields.entries =
    d.fields.entries.map fun e => (e.1, (FieldNode.start e.2).absorb names 0 e.2) :=
  Table.entries_mergeIn_empty _ d.fields

/-- A declaration that is not external settles its field as it is. -/
theorem definition_absorb_start {e : FieldDeclaration} (he : e.external = false) :
    ((FieldNode.start e).absorb names 0 e).definition = e.definition := by
  have hargs : mergeArguments e.definition.arguments e.definition.arguments =
      e.definition.arguments := by
    have hnone : (e.definition.arguments.filter fun a =>
        !e.definition.arguments.any fun b => b.1 = a.1) = [] := by
      rw [List.filter_eq_nil_iff]
      intro a ha
      simpa using ⟨a.2, ha⟩
    rw [mergeArguments, hnone, List.append_nil]
  simp only [FieldNode.absorb, FieldNode.settle, FieldNode.start, he, hargs]

/-- A type of one declaration has the body of the declaration, where that lists nothing twice and
no field is external. -/
theorem body_ofDeclaration (hinterfaces : d.interfaces.Nodup) (hmembers : d.members.Nodup)
    (hfields : ∀ {m f}, d.fields.get? m = some f → f.external = false) :
    (ofDeclaration names d).body = d.body := by
  have hfieldEntries : ((ofDeclaration names d).fields.entries.map fun f =>
      (f.1, f.2.definition)) = d.fields.entries.map fun f => (f.1, f.2.definition) := by
    rw [entries_fields_ofDeclaration, List.map_map]
    refine List.map_congr_left fun e he => ?_
    show (e.1, ((FieldNode.start e.2).absorb names 0 e.2).definition) = _
    rw [definition_absorb_start (hfields (Table.mem_entries_iff.1 he))]
  have hvalueEntries : (ofDeclaration names d).values.entries = d.values.entries :=
    (Table.entries_mergeIn_empty _ d.values).trans (List.map_id _)
  have hinputEntries : ((ofDeclaration names d).inputs.entries.map fun v =>
      (v.1, v.2.definition)) = d.inputs.entries := by
    have hentries : (ofDeclaration names d).inputs.entries =
        d.inputs.entries.map fun v => (v.1, InputNode.absorb 0 v.2 none) :=
      Table.entries_mergeIn_empty _ d.inputs
    rw [hentries, List.map_map]
    exact List.map_id _
  have hinterfaceNames : (ofDeclaration names d).interfaces.names = d.interfaces :=
    (names_addMemberships 0 d.interfaces ∅).trans (appendNew_of_nodup hinterfaces)
  have hmemberNames : (ofDeclaration names d).members.names = d.members :=
    (names_addMemberships 0 d.members ∅).trans (appendNew_of_nodup hmembers)
  rw [body_eq, hfieldEntries, hvalueEntries, hinputEntries, hinterfaceNames, hmemberNames]
  rfl

end TypeNode

/-! ### The graph -/

section Graph

variable {c : Schema}

theorem contributed_singleton (c : Schema) :
    contributed [c] = c.types.entries.map fun t => ⟨0, t.1, t.2⟩ := by
  simp [contributed]

/-- The graph of one schema has a type for each declaration. -/
theorem entries_types_ofSchemas_singleton (c : Schema) : (Graph.ofSchemas [c]).types.entries =
    c.types.entries.map fun t => (t.1, TypeNode.ofDeclaration [c.name] t.2) := by
  have hnames : ((∅ : Table TypeNode).names ++ (contributed [c]).map Contributed.name).Nodup := by
    rw [contributed_singleton, List.map_map, Table.names_empty, List.nil_append]
    exact c.types.distinct
  have hfold := Table.entries_foldl_alter Contributed.name (fun c' node? =>
    TypeNode.absorbNext [c.name] node? (c'.subgraph, c'.declaration)) hnames
  rw [contributed_singleton, List.map_map, Table.entries_empty, List.nil_append] at hfold
  show ((contributed [c]).foldl (mergeType [c.name]) ∅).entries = _
  rw [contributed_singleton]
  refine hfold.trans (List.map_congr_left fun t _ => ?_)
  simp [TypeNode.absorbNext, TypeNode.ofDeclaration, TypeNode.ofDeclarations]

theorem get?_types_ofSchemas_singleton_iff {n : Name} {t : TypeNode} :
    (Graph.ofSchemas [c]).types.get? n = some t ↔
      ∃ d, c.types.get? n = some d ∧ TypeNode.ofDeclaration [c.name] d = t := by
  rw [Table.get?_eq_some_iff, entries_types_ofSchemas_singleton, Table.mem_map_entries_iff]

/-- Declarations of different types have nothing to disagree about. -/
theorem mergeConflicts_eq_nil_of_nodup {names : List String} {nameOf : SubgraphId → String}
    {types : Table TypeNode} {cs : List Contributed}
    (h : (types.names ++ cs.map Contributed.name).Nodup) :
    mergeConflicts names nameOf types cs = [] := by
  induction cs generalizing types with
  | nil => rfl
  | cons e cs ih =>
    have hnew : e.name ∉ types.names := fun hmem =>
      (List.nodup_append.1 h).2.2 _ hmem _ List.mem_cons_self rfl
    have hnames : (mergeType names types e).names = types.names ++ [e.name] := by
      rw [mergeType, Table.names_alter, if_neg hnew]
    have hhead : typeConflicts nameOf types e = [] := by
      rw [typeConflicts, Table.get?_eq_none_iff.2 hnew]
    rw [mergeConflicts, hhead, List.nil_append]
    refine ih ?_
    rw [hnames, List.append_assoc]
    exact h

/-! ### Plain schemas -/

/-- Whatever is possible the one subgraph declares. -/
theorem mem_of_mem_possibleTypes {n o : Name} {t : TypeNode} {s : SubgraphSet}
    (ht : (Graph.ofSchemas [c]).types.get? n = some t)
    (ho : (o, s) ∈ (Graph.ofSchemas [c]).possibleTypes n t) : 0 ∈ s := by
  obtain ⟨node, hnode, _, hs⟩ := Graph.mem_possibleTypes_iff.1 ho
  obtain ⟨d, _, rfl⟩ := get?_types_ofSchemas_singleton_iff.1 ht
  obtain ⟨e, _, rfl⟩ := get?_types_ofSchemas_singleton_iff.1 hnode
  unfold Graph.membership? at hs
  split at hs
  · obtain ⟨⟨d', hd', hlisted⟩, hmem⟩ := TypeNode.get?_members_iff.1 hs
    obtain rfl := List.mem_singleton.1 hd'
    exact (hmem 0).2 ⟨d, hd', hlisted⟩
  · obtain ⟨⟨d', hd', hlisted⟩, hmem⟩ := TypeNode.get?_interfaces_iff.1 hs
    obtain rfl := List.mem_singleton.1 hd'
    exact (hmem 0).2 ⟨e, hd', hlisted⟩
  · cases hs

/-- Whether a schema resolves all of its fields on its own: none of them is external, requires
anything or is taken over from elsewhere. -/
def Schema.Plain (c : Schema) : Prop :=
  ∀ ⦃n d m f⦄, c.types.get? n = some d → d.fields.get? m = some f →
    f.external = false ∧ f.requires = none ∧ f.overrides = none

namespace Schema.Plain

variable (hc : c.Plain) {n m : Name} {t : TypeNode} {f : FieldNode}

include hc

/-- A field of the graph is resolved by the one subgraph, which requires nothing for it. -/
theorem resolvers_and_requires (ht : (Graph.ofSchemas [c]).types.get? n = some t)
    (hf : t.fields.get? m = some f) :
    (∀ i, i ∈ f.resolvers ↔ i = 0) ∧ f.requires.get? 0 = none := by
  obtain ⟨d, hd, rfl⟩ := get?_types_ofSchemas_singleton_iff.1 ht
  obtain ⟨e, he, rfl⟩ := TypeNode.get?_fields_ofDeclaration_iff.1 hf
  obtain ⟨hexternal, hrequires, hoverrides⟩ := hc hd he
  constructor
  · intro i
    rw [FieldNode.mem_resolvers_iff]
    simp [FieldNode.overriddenIn, FieldNode.absorb, FieldNode.start, hexternal, hoverrides,
      SubgraphMap.insert?]
  · simp [FieldNode.absorb, FieldNode.start, hrequires, SubgraphMap.insert?]

theorem baseConflicts_eq_nil : (Graph.ofSchemas [c]).baseConflicts = [] := by
  rw [Graph.baseConflicts_eq_nil_iff]
  intro n t ht m f hf _
  exact SubgraphSet.isEmpty_eq_false_iff.2 ⟨0, ((hc.resolvers_and_requires ht hf).1 0).2 rfl⟩

/-- There are no two subgraphs to share a field. -/
theorem sharingConflicts_eq_nil : (Graph.ofSchemas [c]).sharingConflicts = [] := by
  rw [Graph.sharingConflicts_eq_nil_iff]
  intro n t ht m f hf _ hsize
  have hresolvers : f.resolvers = .singleton 0 := by
    refine SubgraphSet.ext_mem fun i => ?_
    rw [(hc.resolvers_and_requires ht hf).1 i, SubgraphSet.mem_singleton]
  rw [hresolvers] at hsize
  have hone : (SubgraphSet.singleton 0).size = 1 := rfl
  omega

/-- The subgraph is never lost. -/
theorem sustains : (Graph.ofSchemas [c]).Sustains 0 where
  field ht hf := ((hc.resolvers_and_requires ht hf).1 0).2 rfl
  required ht hf hF := by
    rw [(hc.resolvers_and_requires ht hf).2] at hF
    cases hF
  possible ht ho := mem_of_mem_possibleTypes ht ho

/-- **Nothing is unresolvable in a plain schema alone.** -/
theorem unresolvables_eq_nil : (Graph.ofSchemas [c]).unresolvables = [] :=
  hc.sustains.unresolvables_eq_nil

end Schema.Plain

end Graph

end Federation
