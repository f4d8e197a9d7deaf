import Federation.Proofs.Order.Arguments
import Federation.Proofs.Order.Walk

/-!
# Composing in another order

Two orders of a batch have the same outcome (`SameOutcome`) when both or neither of them compose,
and the supergraphs that they compose to define the same things: types, interfaces, fields,
arguments, members, values and input fields (`Supergraph.entries`), up to order.

The outcome of a batch that composes in some order is the same in every order exactly when no
external declaration in it has a stray argument (`sameOutcome_iff_not_hasStray`).  With one, the
external declaration can be put before or behind another one that lacks the argument, which leaves
the argument in or out.
-/

namespace Federation

/-! ### What a supergraph defines -/

namespace Supergraph

/-- One thing that a supergraph defines. -/
inductive Entry where
  | type (name : Name) (kind : TypeKind)
  | interface (type interface : Name)
  | field (type field : Name) (ref : TypeRef)
  | argument (type field argument : Name) (ref : TypeRef)
  | member (type member : Name)
  | value (type value : Name)
  | input (type field : Name) (ref : TypeRef)
deriving DecidableEq

/-- The type that an entry is about. -/
def Entry.owner : Entry → Name
  | type n _ | interface n _ | field n .. | argument n .. | member n _ | value n _ | input n .. => n

end Supergraph

/-- What a field of a type defines. -/
def FieldDefinition.entries (type name : Name) (f : FieldDefinition) : List Supergraph.Entry :=
  .field type name f.type :: f.arguments.map fun a => .argument type name a.1 a.2.type

/-- What the body of a type defines. -/
def TypeBody.entries (type : Name) (b : TypeBody) : List Supergraph.Entry :=
  b.interfaces.map (.interface type) ++ b.fields.flatMap (fun f => f.2.entries type f.1) ++
    b.members.map (.member type) ++ b.values.map (fun v => .value type v.1) ++
    b.inputs.map fun f => .input type f.1 f.2.type

/-- What a type definition defines. -/
def TypeDefinition.entries (d : TypeDefinition) : List Supergraph.Entry :=
  .type d.block.name d.block.body.kind :: d.block.body.entries d.block.name

/-- Everything that a supergraph defines. -/
def Supergraph.entries (s : Supergraph) : List Supergraph.Entry := s.types.flatMap (·.entries)

/-! ### Every entry once -/

theorem FieldDefinition.mem_entries_iff {f : FieldDefinition} {type name : Name}
    {e : Supergraph.Entry} : e ∈ f.entries type name ↔
      e = .field type name f.type ∨
        ∃ x v, (x, v) ∈ f.arguments ∧ e = .argument type name x v.type := by
  simp only [entries, List.mem_cons, List.mem_map, Prod.exists, eq_comm (a := e)]

/-- Where no argument is repeated, they can be looked up. -/
theorem FieldDefinition.mem_entries_iff_of_nodup {f : FieldDefinition} {type name : Name}
    (hf : (f.arguments.map Prod.fst).Nodup) {e : Supergraph.Entry} :
    e ∈ f.entries type name ↔ e = .field type name f.type ∨
      ∃ x r, f.argumentType? x = some r ∧ e = .argument type name x r := by
  rw [mem_entries_iff]
  refine or_congr_right ⟨?_, ?_⟩
  · rintro ⟨x, v, hv, rfl⟩
    exact ⟨x, v.type, (argumentType?_eq_some_iff hf).2 ⟨v, hv, rfl⟩, rfl⟩
  · rintro ⟨x, r, hr, rfl⟩
    obtain ⟨v, hv, rfl⟩ := (argumentType?_eq_some_iff hf).1 hr
    exact ⟨x, v, hv, rfl⟩

theorem FieldDefinition.nodup_entries {f : FieldDefinition} {type name : Name}
    (hf : (f.arguments.map Prod.fst).Nodup) : (f.entries type name).Nodup := by
  refine List.nodup_cons.2 ⟨by simp, ?_⟩
  have hinj : f.arguments.Pairwise fun a b => a.1 ≠ b.1 := List.pairwise_map.1 hf
  refine List.pairwise_map.2 (hinj.imp fun h e => ?_)
  simp only [Supergraph.Entry.argument.injEq, true_and] at e
  exact h e.1

theorem TypeBody.owner_of_mem_entries {b : TypeBody} {type : Name} {e : Supergraph.Entry}
    (h : e ∈ b.entries type) : e.owner = type := by
  simp only [entries, FieldDefinition.entries, List.mem_append, List.mem_map, List.mem_flatMap,
    List.mem_cons] at h
  rcases h with (((⟨_, _, rfl⟩ | ⟨_, _, rfl | ⟨_, _, rfl⟩⟩) | ⟨_, _, rfl⟩) | ⟨_, _, rfl⟩) |
    ⟨_, _, rfl⟩ <;> rfl

theorem TypeBody.nodup_entries {b : TypeBody} {type : Name} (hinterfaces : b.interfaces.Nodup)
    (hfields : (b.fields.map Prod.fst).Nodup)
    (hargs : ∀ f ∈ b.fields, (f.2.arguments.map Prod.fst).Nodup) (hmembers : b.members.Nodup)
    (hvalues : (b.values.map Prod.fst).Nodup) (hinputs : (b.inputs.map Prod.fst).Nodup) :
    (b.entries type).Nodup := by
  have hinterfaceEntries : (b.interfaces.map (Supergraph.Entry.interface type)).Nodup :=
    hinterfaces.map fun _ _ h => (Supergraph.Entry.interface.inj h).2
  have hmemberEntries : (b.members.map (Supergraph.Entry.member type)).Nodup :=
    hmembers.map fun _ _ h => (Supergraph.Entry.member.inj h).2
  have hvalueEntries : (b.values.map fun v => Supergraph.Entry.value type v.1).Nodup :=
    List.pairwise_map.2 ((List.pairwise_map.1 hvalues).imp fun h e =>
      h (Supergraph.Entry.value.inj e).2)
  have hinputEntries : (b.inputs.map fun f => Supergraph.Entry.input type f.1 f.2.type).Nodup :=
    List.pairwise_map.2 ((List.pairwise_map.1 hinputs).imp fun h e =>
      h (Supergraph.Entry.input.inj e).2.1)
  have hfieldEntries : (b.fields.flatMap fun f => f.2.entries type f.1).Nodup := by
    refine List.nodup_flatMap.2 ⟨fun f hf => FieldDefinition.nodup_entries (hargs f hf), ?_⟩
    refine (List.pairwise_map.1 hfields).imp fun {f f'} h e he he' => ?_
    rw [FieldDefinition.mem_entries_iff] at he he'
    rcases he with rfl | ⟨_, _, _, rfl⟩ <;> rcases he' with he' | ⟨_, _, _, he'⟩ <;> simp at he'
    · exact h he'.1
    · exact h he'.1
  -- The five parts have entries of five sorts.
  simp only [entries, List.nodup_append, hinterfaceEntries, hmemberEntries, hvalueEntries,
    hinputEntries, hfieldEntries, List.mem_append, List.mem_map, List.mem_flatMap, true_and,
    FieldDefinition.mem_entries_iff]
  refine ⟨⟨⟨?_, ?_⟩, ?_⟩, ?_⟩
  · rintro _ ⟨_, _, rfl⟩ _ ⟨_, _, rfl | ⟨_, _, _, rfl⟩⟩ <;> simp
  · rintro _ (⟨_, _, rfl⟩ | ⟨_, _, rfl | ⟨_, _, _, rfl⟩⟩) _ ⟨_, _, rfl⟩ <;> simp
  · rintro _ ((⟨_, _, rfl⟩ | ⟨_, _, rfl | ⟨_, _, _, rfl⟩⟩) | ⟨_, _, rfl⟩) _ ⟨_, _, rfl⟩ <;> simp
  · rintro _ (((⟨_, _, rfl⟩ | ⟨_, _, rfl | ⟨_, _, _, rfl⟩⟩) | ⟨_, _, rfl⟩) | ⟨_, _, rfl⟩) _
      ⟨_, _, rfl⟩ <;> simp

/-! ### Entries of a graph -/

namespace TypeNode

variable {t : TypeNode} {n : Name}

theorem nodup_entries_body (hargs : ∀ m f, t.fields.get? m = some f →
    (f.definition.arguments.map Prod.fst).Nodup) : (t.body.entries n).Nodup := by
  have hfields : (t.fields.entries.map fun f => f.1).Nodup := t.fields.distinct
  have hvalues : (t.values.entries.map Prod.fst).Nodup := t.values.distinct
  have hinputs : (t.inputs.entries.map fun f => f.1).Nodup := t.inputs.distinct
  refine TypeBody.nodup_entries ?_ ?_ ?_ ?_ ?_ ?_
  · unfold body
    cases t.kind <;> simp [TypeBody.interfaces, Table.nodup_names]
  · unfold body
    cases t.kind <;> simp [TypeBody.fields, Function.comp_def, hfields]
  · rintro ⟨m, d⟩ hd
    obtain ⟨_, f, hf, rfl⟩ := mem_fields_body_iff.1 hd
    exact hargs m f hf
  · unfold body
    cases t.kind <;> simp [TypeBody.members, Table.nodup_names]
  · unfold body
    cases t.kind <;> simp [TypeBody.values, hvalues]
  · unfold body
    cases t.kind <;> simp [TypeBody.inputs, Function.comp_def, hinputs]

end TypeNode

namespace Supergraph

/-- A supergraph defines nothing twice. -/
theorem nodup_entries {g : Graph} (hargs : g.DistinctArguments) : (ofGraph g).entries.Nodup := by
  rw [entries, ofGraph, List.flatMap_map]
  refine List.nodup_flatMap.2 ⟨fun e he => ?_, ?_⟩
  · refine List.nodup_cons.2 ⟨?_, TypeNode.nodup_entries_body fun m f hf =>
      hargs (Table.get?_eq_some_iff.2 he) hf⟩
    simp [TypeBody.entries, FieldDefinition.entries]
  · -- Entries of different types have different owners.
    refine (List.pairwise_map.1 g.types.distinct).imp fun {e e'} h x hx hx' => h ?_
    have howner : ∀ {e : Name × TypeNode}, x ∈ (e.2.definition e.1).entries → x.owner = e.1 := by
      intro e hx
      rcases List.mem_cons.1 hx with rfl | hx
      · rfl
      · exact TypeBody.owner_of_mem_entries hx
    exact (howner hx).symm.trans (howner hx')

end Supergraph

namespace TypeNode

section Entries

variable {t : TypeNode} {n : Name} {e : Supergraph.Entry}
  (hargs : ∀ m f, t.fields.get? m = some f → (f.definition.arguments.map Prod.fst).Nodup)

include hargs

theorem mem_fields_entries_iff : (∃ f ∈ t.body.fields, e ∈ f.2.entries n f.1) ↔
    ∃ m f, t.kind.hasFields = true ∧ t.fields.get? m = some f ∧
      (e = .field n m f.definition.type ∨
        ∃ x r, f.definition.argumentType? x = some r ∧ e = .argument n m x r) := by
  constructor
  · rintro ⟨⟨m, d⟩, hd, he⟩
    obtain ⟨hkind, f, hf, rfl⟩ := mem_fields_body_iff.1 hd
    exact ⟨m, f, hkind, hf, (FieldDefinition.mem_entries_iff_of_nodup (hargs m f hf)).1 he⟩
  · rintro ⟨m, f, hkind, hf, he⟩
    exact ⟨(m, f.definition), mem_fields_body_iff.2 ⟨hkind, f, hf, rfl⟩,
      (FieldDefinition.mem_entries_iff_of_nodup (hargs m f hf)).2 he⟩

/-- What the definition of a type of the graph defines, said by look-ups. -/
theorem mem_entries_definition_iff :
    e ∈ (t.definition n).entries ↔ e = .type n t.kind ∨
      (∃ i, (t.kind.hasFields = true ∧ i ∈ t.interfaces.names) ∧ e = .interface n i) ∨
      (∃ m f, t.kind.hasFields = true ∧ t.fields.get? m = some f ∧
        (e = .field n m f.definition.type ∨
          ∃ x r, f.definition.argumentType? x = some r ∧ e = .argument n m x r)) ∨
      (∃ m, (t.kind = .union ∧ m ∈ t.members.names) ∧ e = .member n m) ∨
      (∃ v, (t.kind = .enum ∧ v ∈ t.values.names) ∧ e = .value n v) ∨
      ∃ m r, (t.kind = .inputObject ∧ (t.inputs.get? m).map (·.definition.type) = some r) ∧
        e = .input n m r := by
  have hvalues : (∃ v ∈ t.body.values, .value n v.1 = e) ↔
      ∃ v, (t.kind = .enum ∧ v ∈ t.values.names) ∧ e = .value n v := by
    constructor
    · rintro ⟨⟨v, d⟩, hv, rfl⟩
      obtain ⟨hkind, hv⟩ := mem_values_body_iff.1 hv
      exact ⟨v, ⟨hkind, Table.mem_names_iff.2 ⟨d, hv⟩⟩, rfl⟩
    · rintro ⟨v, ⟨hkind, hv⟩, rfl⟩
      obtain ⟨d, hv⟩ := Table.mem_names_iff.1 hv
      exact ⟨(v, d), mem_values_body_iff.2 ⟨hkind, hv⟩, rfl⟩
  have hinputs : (∃ f ∈ t.body.inputs, .input n f.1 f.2.type = e) ↔ ∃ m r,
      (t.kind = .inputObject ∧ (t.inputs.get? m).map (·.definition.type) = some r) ∧
        e = .input n m r := by
    constructor
    · rintro ⟨⟨m, v⟩, hv, rfl⟩
      obtain ⟨hkind, node, hnode, rfl⟩ := mem_inputs_body_iff.1 hv
      exact ⟨m, _, ⟨hkind, Option.map_eq_some_iff.2 ⟨node, hnode, rfl⟩⟩, rfl⟩
    · rintro ⟨m, r, ⟨hkind, hr⟩, rfl⟩
      obtain ⟨node, hnode, rfl⟩ := Option.map_eq_some_iff.1 hr
      exact ⟨(m, node.definition), mem_inputs_body_iff.2 ⟨hkind, node, hnode, rfl⟩, rfl⟩
  show e ∈ .type n t.body.kind :: t.body.entries n ↔ _
  simp only [List.mem_cons, TypeBody.entries, List.mem_append, List.mem_map, List.mem_flatMap,
    kind_body, mem_fields_entries_iff hargs, hvalues, hinputs, mem_interfaces_body_iff,
    mem_members_body_iff, or_assoc, eq_comm (a := e)]

end Entries

/-- A renumbered type defines the same, if its fields have the same arguments. -/
theorem Renumbered.mem_entries {σ : Equiv.Perm SubgraphId} {t t' : TypeNode}
    (h : t.Renumbered σ t')
    (hargs : ∀ m f, t.fields.get? m = some f → (f.definition.arguments.map Prod.fst).Nodup)
    (hargs' : ∀ m f, t'.fields.get? m = some f → (f.definition.arguments.map Prod.fst).Nodup)
    (hsame : ∀ m f f', t.fields.get? m = some f → t'.fields.get? m = some f' →
      ∀ x, f'.definition.argumentType? x = f.definition.argumentType? x)
    {n : Name} {e : Supergraph.Entry} (he : e ∈ (t.definition n).entries) :
    e ∈ (t'.definition n).entries := by
  have hnames : ∀ {a a' : Table SubgraphSet} {k : Name},
      a'.get? k = (a.get? k).map (·.renumber σ) → k ∈ a.names → k ∈ a'.names := by
    intro a a' k hk hmem
    obtain ⟨s, hs⟩ := Table.mem_names_iff.1 hmem
    exact Table.mem_names_iff.2 ⟨s.renumber σ, by rw [hk, hs, Option.map_some]⟩
  rw [mem_entries_definition_iff hargs']
  rw [mem_entries_definition_iff hargs] at he
  rw [h.kind]
  rcases he with he | ⟨i, ⟨hk, hi⟩, he⟩ | ⟨m, f, hk, hf, he⟩ | ⟨m, ⟨hk, hm⟩, he⟩ |
    ⟨v, ⟨hk, hv⟩, he⟩ | ⟨m, r, ⟨hk, hm⟩, he⟩
  · exact .inl he
  · exact .inr (.inl ⟨i, ⟨hk, hnames (h.interface i) hi⟩, he⟩)
  · obtain ⟨f', hf', hff⟩ := h.exists_field hf
    refine .inr (.inr (.inl ⟨m, f', hk, hf', ?_⟩))
    rwa [hff.type, funext (hsame m f f' hf hf')]
  · exact .inr (.inr (.inr (.inl ⟨m, ⟨hk, hnames (h.member m) hm⟩, he⟩)))
  · exact .inr (.inr (.inr (.inr (.inl ⟨v, ⟨hk, (h.value v).2 hv⟩, he⟩))))
  · exact .inr (.inr (.inr (.inr (.inr ⟨m, r, ⟨hk, by rw [h.input, hm]⟩, he⟩))))

end TypeNode

namespace Supergraph

variable {g g' : Graph}

theorem mem_entries_ofGraph_iff {e : Entry} : e ∈ (ofGraph g).entries ↔
    ∃ n t, g.types.get? n = some t ∧ e ∈ (t.definition n).entries := by
  simp only [entries, ofGraph, List.mem_flatMap, List.mem_map, Prod.exists, Table.get?_eq_some_iff]
  constructor
  · rintro ⟨_, ⟨n, t, ht, rfl⟩, he⟩
    exact ⟨n, t, ht, he⟩
  · rintro ⟨n, t, ht, he⟩
    exact ⟨_, ⟨n, t, ht, rfl⟩, he⟩

/-- A renumbered graph with the same arguments makes up a supergraph that defines the same. -/
theorem entries_perm {σ : Equiv.Perm SubgraphId} (hg : g.Renumbered σ g')
    (hargs : g.DistinctArguments) (hargs' : g'.DistinctArguments) (hsame : g.SameArguments g') :
    (ofGraph g).entries.Perm (ofGraph g').entries := by
  refine (List.perm_ext_iff_of_nodup (nodup_entries hargs) (nodup_entries hargs')).2 fun e => ?_
  rw [mem_entries_ofGraph_iff, mem_entries_ofGraph_iff]
  constructor
  · rintro ⟨n, t, ht, he⟩
    obtain ⟨t', ht', hrel⟩ := hg.exists_type ht
    exact ⟨n, t', ht', hrel.mem_entries (fun _ _ => hargs ht) (fun _ _ => hargs' ht')
      (fun _ _ _ hf hf' => hsame ht ht' hf hf') he⟩
  · rintro ⟨n, t', ht', he⟩
    obtain ⟨t, ht, hrel⟩ := hg.symm.exists_type ht'
    exact ⟨n, t, ht, hrel.mem_entries (fun _ _ => hargs' ht') (fun _ _ => hargs ht)
      (fun _ _ _ hf' hf x => (hsame ht ht' hf hf' x).symm) he⟩

end Supergraph

/-! ### Outcomes -/

/-- Whether two compositions come to the same: both fail, or the supergraphs define the same up to
order. -/
def SameOutcome (r r' : Except (List CompositionError) Supergraph) : Prop :=
  match r, r' with
  | .ok s, .ok s' => s.entries.Perm s'.entries
  | .error _, .error _ => True
  | _, _ => False

theorem sameOutcome_iff {r r' : Except (List CompositionError) Supergraph} :
    SameOutcome r r' ↔
      (∀ s, r = .ok s → ∃ s', r' = .ok s' ∧ s.entries.Perm s'.entries) ∧
      ∀ s', r' = .ok s' → ∃ s, r = .ok s := by
  cases r <;> cases r' <;> simp [SameOutcome]

/-- Without strays, a batch that composes also does so in every other order, to a supergraph that
defines the same. -/
theorem exists_compose_of_perm {options : Options} {batch batch' : List Subgraph}
    (hp : batch.Perm batch') (hstray : ¬ HasStray (contributionsOf batch)) {s : Supergraph}
    (h : compose options batch = .ok s) :
    ∃ s', compose options batch' = .ok s' ∧ s.entries.Perm s'.entries := by
  obtain ⟨schemas, hs, hc, hu, rfl⟩ := compose_eq_ok_iff.1 h
  obtain ⟨schemas', hs', hsp⟩ := exists_schemas?_of_perm hp hs
  have hperm := hsp.map Schema.contribution
  have hn := normalized_of_schemas? hs
  rw [← contributionsOf_eq hs] at hstray
  have hconcordant := concordant_of_conflicts_eq_nil hn hc
  obtain ⟨σ, hσ⟩ := exists_renumbering hperm
  have hg := hconcordant.renumbered hn hperm hσ
  have hsame := hconcordant.sameArguments hperm (argumentsAgree_of_conflicts_eq_nil hn hc) hstray
  refine ⟨_, compose_eq_ok_iff.2 ⟨schemas', hs', conflicts_of_perm hperm hn hstray hc, ?_, rfl⟩,
    Supergraph.entries_perm hg hn.distinctArguments (hn.of_perm hperm).distinctArguments hsame⟩
  refine hu.imp id fun hu => ?_
  -- A report of the other order would be one of this order.
  rw [List.eq_nil_iff_forall_not_mem]
  intro u hmem
  have hentry := hg.symm.mem_entries (List.mem_map_of_mem (f := Unresolvable.entry) hmem)
  have hnil : (Graph.ofSchemas (schemas.map Schema.contribution)).unresolvables = [] := hu
  rw [hnil] at hentry
  cases hentry

/-! ### What a stray does -/

/-- The arguments of a field in the supergraph are those of the field that its declarations make
up. -/
theorem argument_mem_entries_iff {options : Options} {batch : List Subgraph} {s : Supergraph}
    (h : compose options batch = .ok s) {n m x : Name} {r : TypeRef} {d : TypeDeclaration}
    (hd : Declares (contributionsOf batch) n d) (hkind : d.kind.hasFields = true) :
    .argument n m x r ∈ s.entries ↔ ∃ f,
      FieldNode.ofDeclarations? ((contributionsOf batch).map (·.name))
        (TypeNode.fieldsOf (declarationsOf (contributionsOf batch) n) m) = some f ∧
      f.definition.argumentType? x = some r := by
  obtain ⟨schemas, hs, hc, _, rfl⟩ := compose_eq_ok_iff.1 h
  have hn := normalized_of_schemas? hs
  have hconcordant := concordant_of_conflicts_eq_nil hn hc
  rw [← contributionsOf_eq hs] at hd ⊢
  have hnode := exists_get?_ofSchemas hconcordant.kind hd
  rw [Supergraph.mem_entries_ofGraph_iff]
  constructor
  · rintro ⟨n', t, ht, he⟩
    rw [TypeNode.mem_entries_definition_iff fun _ _ => hn.distinctArguments ht] at he
    simp only [reduceCtorEq, and_false, exists_false, false_or, or_false,
      Supergraph.Entry.argument.injEq] at he
    obtain ⟨_, f, _, hf, _, _, hx, rfl, rfl, rfl, rfl⟩ := he
    refine ⟨f, ?_, hx⟩
    have ht' : (Graph.ofSchemas (schemas.map Schema.contribution)).types.get? n = some t := ht
    rw [hnode, Option.some.injEq] at ht'
    rwa [← ht', TypeNode.get?_fields] at hf
  · rintro ⟨f, hf, hx⟩
    refine ⟨n, _, hnode, ?_⟩
    rw [TypeNode.mem_entries_definition_iff fun _ _ => hn.distinctArguments hnode]
    refine .inr (.inr (.inl ⟨m, f, by simpa using hkind, by rw [TypeNode.get?_fields, hf],
      .inr ⟨x, r, hx, rfl⟩⟩))

/-- The declarations of a field in the first two of some schemas come first. -/
theorem exists_fieldsOf_cons_cons (schemas : List Schema) {a b : Schema} {n m : Name}
    {d d' : TypeDeclaration} {e f : FieldDeclaration} (ha : a.types.get? n = some d)
    (he : d.fields.get? m = some e) (hb : b.types.get? n = some d')
    (hf : d'.fields.get? m = some f) :
    ∃ rest, TypeNode.fieldsOf (declarationsOf (a :: b :: schemas) n) m =
      (0, e) :: (1, f) :: rest := by
  simp [declarationsOf, TypeNode.fieldsOf, List.zipIdx_cons, ha, hb, he, hf]

/-- A stray argument is in the supergraph when its declaration comes first and one that lacks it
comes next, and it is not there, or not with its type, the other way round. -/
theorem argument_mem_entries_of_stray {options : Options} {a b : Subgraph} {batch : List Subgraph}
    {s s' : Supergraph} (hs : compose options (a :: b :: batch) = .ok s)
    (hs' : compose options (b :: a :: batch) = .ok s') {n m x : Name} {t : TypeRef}
    {d d' : TypeDeclaration} {e f : FieldDeclaration}
    (hd : a.schema.contribution.types.get? n = some d) (he : d.fields.get? m = some e)
    (hd' : b.schema.contribution.types.get? n = some d') (hf : d'.fields.get? m = some f)
    (hkind : d.kind.hasFields = true) (hexternal : e.external = true)
    (hx : e.definition.argumentType? x = some t) (hbase : f.external = false)
    (hlacks : f.definition.argumentType? x = none)
    (hnone : ∀ f', DeclaresField (contributionsOf (b :: a :: batch)) n m f' →
      f'.external = false → f'.definition.argumentType? x ≠ some t) :
    .argument n m x t ∈ s.entries ∧ .argument n m x t ∉ s'.entries := by
  have hdecl : Declares (contributionsOf (a :: b :: batch)) n d :=
    ⟨_, List.mem_cons_self, hd⟩
  have hdecl' : Declares (contributionsOf (b :: a :: batch)) n d :=
    ⟨_, List.mem_cons_of_mem _ List.mem_cons_self, hd⟩
  rw [argument_mem_entries_iff hs hdecl hkind, argument_mem_entries_iff hs' hdecl' hkind]
  constructor
  · obtain ⟨rest, hes⟩ := exists_fieldsOf_cons_cons (contributionsOf batch) hd he hd' hf
    have hsplit : FieldNode.Split (TypeNode.fieldsOf
        (declarationsOf (contributionsOf (a :: b :: batch)) n) m) [(0, e)] (1, f) rest :=
      ⟨hes, by simpa using hexternal, hbase⟩
    obtain ⟨g, hg, _, hargs⟩ := FieldNode.exists_of_split _ hsplit
    exact ⟨g, hg, by simp [hargs, FieldNode.head?_said, FieldNode.settledArgument?, hlacks, hx]⟩
  · rintro ⟨g, hg, hgx⟩
    obtain ⟨rest, hes⟩ := exists_fieldsOf_cons_cons (contributionsOf batch) hd' hf hd he
    have hsplit : FieldNode.Split (TypeNode.fieldsOf
        (declarationsOf (contributionsOf (b :: a :: batch)) n) m) [] (0, f) ((1, e) :: rest) :=
      ⟨hes, by simp, hbase⟩
    obtain ⟨g', hg', _, hargs⟩ := FieldNode.exists_of_split _ hsplit
    rw [hg, Option.some.injEq] at hg'
    subst hg'
    -- What is left to say the type are the declarations that are not external.
    simp only [hargs, FieldNode.head?_said, FieldNode.settledArgument?, hlacks, List.head?_nil,
      Option.bind_none, Option.none_or] at hgx
    obtain ⟨e', he', hext', hx'⟩ :=
      FieldNode.mem_argumentTypes_iff.1 (List.mem_of_head? hgx)
    refine hnone e'.2 (declaresField_iff.2 ⟨e'.1, ?_⟩) hext' hx'
    rw [hsplit.eq]
    exact List.mem_cons_of_mem _ he'

/-- With a stray argument there are two orders that cannot both compose to the same. -/
theorem exists_orders_of_hasStray {batch : List Subgraph}
    (hn : Normalized (contributionsOf batch)) (hstray : HasStray (contributionsOf batch)) :
    ∃ b₁ b₂, batch.Perm b₁ ∧ batch.Perm b₂ ∧ ∀ options s₁ s₂, compose options b₁ = .ok s₁ →
      compose options b₂ = .ok s₂ → ¬ s₁.entries.Perm s₂.entries := by
  obtain ⟨n, m, e, f, x, t, ⟨d, ⟨_, hdecl, hd⟩, he⟩, hexternal, hx, ⟨d', ⟨_, hdecl', hd'⟩, hf⟩,
    hbase, hlacks, hnone⟩ := hstray
  have hkind : d.kind.hasFields = true := by
    rw [hn.external ⟨_, hdecl, hd⟩ he hexternal]
    rfl
  obtain ⟨a, ha, rfl⟩ := List.mem_map.1 hdecl
  obtain ⟨c, hc, rfl⟩ := List.mem_map.1 hdecl'
  -- Two declarations of one subgraph would be the same one.
  have hne : c ≠ a := by
    rintro rfl
    rw [hd, Option.some.injEq] at hd'
    subst hd'
    rw [he, Option.some.injEq] at hf
    rw [← hf, hexternal] at hbase
    cases hbase
  have hpa : batch.Perm (a :: batch.erase a) := List.perm_cons_erase ha
  have hca : c ∈ batch.erase a := (List.mem_erase_of_ne hne).2 hc
  have hp₁ : batch.Perm (a :: c :: (batch.erase a).erase c) :=
    hpa.trans ((List.perm_cons_erase hca).cons a)
  have hp₂ := hp₁.trans (List.Perm.swap c a _)
  have hcontributions : (contributionsOf batch).Perm
      (contributionsOf (c :: a :: (batch.erase a).erase c)) := hp₂.map _
  refine ⟨_, _, hp₁, hp₂, fun options s₁ s₂ hs₁ hs₂ hperm => ?_⟩
  obtain ⟨hmem, hnot⟩ := argument_mem_entries_of_stray hs₁ hs₂ hd he hd' hf hkind hexternal hx
    hbase hlacks fun f' hf' => hnone f' ((declaresField_iff_of_perm hcontributions).2 hf')
  exact hnot (hperm.mem_iff.1 hmem)

/-- **When the order does not matter**: every order of a batch has the same outcome exactly when no
order composes or no external declaration has a stray argument. -/
theorem sameOutcome_iff_not_hasStray (options : Options) (batch : List Subgraph) :
    (∀ batch', batch.Perm batch' →
      SameOutcome (compose options batch) (compose options batch')) ↔
    ((∃ batch' s, batch.Perm batch' ∧ compose options batch' = .ok s) →
      ¬ HasStray (contributionsOf batch)) := by
  constructor
  · rintro hsame ⟨b, s, hp, hs⟩ hstray
    obtain ⟨s₀, hs₀⟩ := (sameOutcome_iff.1 (hsame b hp)).2 s hs
    have hn : Normalized (contributionsOf batch) := by
      obtain ⟨schemas, hok, _⟩ := compose_eq_ok_iff.1 hs₀
      rw [← contributionsOf_eq hok]
      exact normalized_of_schemas? hok
    obtain ⟨b₁, b₂, hp₁, hp₂, hdiffer⟩ := exists_orders_of_hasStray hn hstray
    obtain ⟨s₁, hs₁, hperm₁⟩ := (sameOutcome_iff.1 (hsame b₁ hp₁)).1 s₀ hs₀
    obtain ⟨s₂, hs₂, hperm₂⟩ := (sameOutcome_iff.1 (hsame b₂ hp₂)).1 s₀ hs₀
    exact hdiffer options s₁ s₂ hs₁ hs₂ (hperm₁.symm.trans hperm₂)
  · intro h batch' hp
    refine sameOutcome_iff.2 ⟨fun s hs => ?_, fun s' hs' => ?_⟩
    · exact exists_compose_of_perm hp (h ⟨batch, s, .refl _, hs⟩) hs
    · have hstray := h ⟨batch', s', hp, hs'⟩
      have hp' : (contributionsOf batch).Perm (contributionsOf batch') := hp.map _
      rw [hasStray_iff_of_perm hp'] at hstray
      obtain ⟨s, hs, _⟩ := exists_compose_of_perm hp.symm hstray hs'
      exact ⟨s, hs⟩

/-! ### An order that composes and one that does not -/

/-- Three subgraphs of which the second one declares a field externally, with an argument that the
first one lacks and to which the third one gives another type. -/
def strayBatch : List Subgraph := Subgraph.batchOfTexts
  [("a", "type Query \x7b t: T \x7d type T @key(fields: \"id\") \x7b id: ID! f: Int \x7d"),
    ("b", "type T @key(fields: \"id\") \x7b id: ID! f(x: Int): Int @external " ++
      "g: Int @requires(fields: \"f\") \x7d"),
    ("c", "type T @key(fields: \"id\") \x7b id: ID! f(x: String): Int \x7d")]

/-- A batch with its first two subgraphs exchanged. -/
def exchangeFirst : List Subgraph → List Subgraph
  | a :: b :: rest => b :: a :: rest
  | batch => batch

theorem perm_exchangeFirst : ∀ batch : List Subgraph, batch.Perm (exchangeFirst batch)
  | a :: b :: rest => .swap b a rest
  | [_] => .refl _
  | [] => .refl _

/-- The three subgraphs compose in one order, and not in another one. -/
theorem not_sameOutcome_strayBatch : strayBatch.Perm (exchangeFirst strayBatch) ∧
    ¬ SameOutcome (compose {} strayBatch) (compose {} (exchangeFirst strayBatch)) := by
  have hok : (compose {} strayBatch).isOk = true := by decide +kernel
  have herror : (compose {} (exchangeFirst strayBatch)).isOk = false := by decide +kernel
  refine ⟨perm_exchangeFirst strayBatch, fun h => ?_⟩
  obtain ⟨s, hs⟩ := exists_of_isOk hok
  obtain ⟨s', hs', _⟩ := (sameOutcome_iff.1 h).1 s hs
  rw [hs'] at herror
  cases herror

end Federation
