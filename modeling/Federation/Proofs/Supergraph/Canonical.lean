import Federation.Proofs.Subgraph.Proper
import Federation.Proofs.Supergraph.Closure

/-!
# Canonical supergraphs

A composed supergraph has a form that composing it again can leave as it is (`Supergraph.Canonical`,
`Supergraph.canonical_ofGraph`).  It is closed, none of its types or query fields is plumbing, and
its directives are those that a supergraph keeps.  Of what the merge folds by rules of its own, the
descriptions of types are not blank, and the directives of types are not repeated.
-/

namespace Federation

/-! ### Kept directives -/

/-- Whether a supergraph keeps some applied directives as they are. -/
def Persisted (ds : List Directive) : Prop := ∀ d ∈ ds, d.name ∈ persistedNames

/-- Whether a supergraph keeps all directives of a field and of its arguments. -/
def FieldDefinition.Persisted (f : FieldDefinition) : Prop :=
  Federation.Persisted f.directives ∧ ∀ a ∈ f.arguments, Federation.Persisted a.2.directives

/-- Whether a supergraph keeps all directives of the parts of a body. -/
def TypeBody.Persisted : TypeBody → Prop
  | object _ fs | interface _ fs => ∀ f ∈ fs, f.2.Persisted
  | union _ | scalar => True
  | enum vs => ∀ v ∈ vs, Federation.Persisted v.2.directives
  | inputObject vs => ∀ v ∈ vs, Federation.Persisted v.2.directives

theorem TypeBody.persisted_iff {b : TypeBody} : b.Persisted ↔
    (∀ f ∈ b.fields, f.2.Persisted) ∧ (∀ v ∈ b.values, Federation.Persisted v.2.directives) ∧
      ∀ v ∈ b.inputs, Federation.Persisted v.2.directives := by
  cases b <;> simp [Persisted, fields, values, inputs]

theorem persisted_persistedDirectives (ds : List Directive) : Persisted (persistedDirectives ds) :=
  fun _ => name_mem_of_mem_persistedDirectives

theorem FieldDefinition.persisted_contribution (f : FieldDefinition) :
    f.contribution.Persisted := by
  refine ⟨persisted_persistedDirectives _, fun a ha => ?_⟩
  obtain ⟨b, _, rfl⟩ := List.mem_map.1 ha
  exact persisted_persistedDirectives _

theorem TypeBody.persisted_contribution (b : TypeBody) : b.contribution.Persisted := by
  cases b with
  | object is fs => exact List.forall_mem_map.2 fun f _ => f.2.persisted_contribution
  | interface is fs => exact List.forall_mem_map.2 fun f _ => f.2.persisted_contribution
  | union ms => trivial
  | scalar => trivial
  | enum vs => exact List.forall_mem_map.2 fun v _ => persisted_persistedDirectives _
  | inputObject vs => exact List.forall_mem_map.2 fun v _ => persisted_persistedDirectives _

theorem FieldDefinition.MadeOf.persisted {source : FieldDefinition → Prop} {f : FieldDefinition}
    (h : f.MadeOf source) (hsource : ∀ g, source g → g.Persisted) : f.Persisted := by
  refine ⟨fun x hx => ?_, fun a ha => ?_⟩
  · obtain ⟨g, hg, hgx⟩ := h.directive x hx
    exact (hsource g hg).1 x hgx
  · obtain ⟨g, hg, hga⟩ := h.argument a ha
    exact (hsource g hg).2 a hga

theorem TypeBody.MadeOf.persisted {source : TypeBody → Prop} {b : TypeBody} (h : b.MadeOf source)
    (hsource : ∀ c, source c → c.Persisted) : b.Persisted := by
  have hparts := fun c hc => TypeBody.persisted_iff.1 (hsource c hc)
  refine TypeBody.persisted_iff.2 ⟨fun e he => ?_, fun e he x hx => ?_, fun e he x hx => ?_⟩
  · refine (h.field e he).persisted ?_
    rintro g ⟨c, hc, hg⟩
    exact (hparts c hc).1 _ hg
  · obtain ⟨c, hc, v, hv, hxv⟩ := h.value e he x hx
    exact (hparts c hc).2.1 _ hv x hxv
  · obtain ⟨c, hc, v, hv, hxv⟩ := h.inputDirective e he x hx
    exact (hparts c hc).2.2 _ hv x hxv

/-! ### Canonical definitions -/

/-- A type definition that composing leaves as it is. -/
structure TypeDefinition.Canonical (d : TypeDefinition) : Prop where
  name : isPlumbingType d.block.name = false
  queryField : d.block.name = OperationType.query.rootName →
    ∀ f ∈ d.block.body.fields, isPlumbingField f.1 = false
  description : ∀ text, d.description = some text → isBlankText text = false
  nodup : d.block.directives.Nodup
  directives : Persisted d.block.directives
  body : d.block.body.Persisted

/-- A closed supergraph of such definitions. -/
structure Supergraph.Canonical (s : Supergraph) : Prop where
  closed : s.Closed
  type : ∀ d ∈ s.types, d.Canonical

/-! ### Contributions -/

/-- A declaration as it is contributed: proper under its name, with kept directives alone. -/
structure TypeDeclaration.Contributed (n : Name) (d : TypeDeclaration) : Prop where
  proper : d.Proper n
  directives : Persisted d.directives
  body : d.body.Persisted

theorem Subgraph.contributed_of_get?_types {s : Subgraph}
    (hfaults : s.document.faults s.name = []) {n : Name} {d : TypeDeclaration}
    (hd : s.schema.contribution.types.get? n = some d) : d.Contributed n := by
  rw [Subgraph.get?_types_contribution] at hd
  obtain ⟨t, ht, rfl⟩ := Option.map_eq_some_iff.1 hd
  have hproper :=
    Document.proper_of_get?_declarations (Document.assembly_faults_eq_nil hfaults) ht
  refine ⟨?_, persisted_persistedDirectives _, ?_⟩
  · have hfield : ∀ {m f}, ((annotateType s.document.declarations s.name n t).contribution
        s.document.version).fields.get? m = some f → ∃ f', t.fields.get? m = some f' := by
      intro m f hf
      rw [get?_fields_contribution] at hf
      obtain ⟨f', hf', _⟩ := Option.map_eq_some_iff.1 hf
      exact ⟨f', hf'⟩
    refine ⟨hproper.name, fun hn m f hf => ?_, fun hf => ?_, hproper.interface, hproper.member⟩
    · obtain ⟨f', hf'⟩ := hfield hf
      exact hproper.queryField hn hf'
    · obtain ⟨f', hf'⟩ := hfield hf
      exact hproper.hasFields hf'
  · rw [body_contribution]
    exact TypeBody.persisted_contribution _

/-! ### Merged types -/

namespace TypeNode

/-- Whether a merged type has only parts that belong to its kind. -/
structure Tidy (t : TypeNode) : Prop where
  hasFields : ∀ {m f}, t.fields.get? m = some f → t.kind.hasFields = true
  interface : ∀ {i}, i ∈ t.interfaces.names → t.kind.hasFields = true
  member : ∀ {m}, m ∈ t.members.names → t.kind = .union

variable {names : List String} {kind : TypeKind} {ds : List (SubgraphId × TypeDeclaration)}
  {n : Name}

theorem tidy_ofDeclarations (hds : ∀ d ∈ ds, d.2.kind = kind ∧ d.2.Proper n) :
    (ofDeclarations names kind ds).Tidy := by
  have hkind : (ofDeclarations names kind ds).kind = kind := kind_ofDeclarations
  refine ⟨fun hf => ?_, fun hi => ?_, fun hm => ?_⟩
  · obtain ⟨_, ⟨d, hd, e, he, _⟩, _⟩ := (madeOf_of_get?_fields hf).type
    obtain ⟨hdkind, hproper⟩ := hds d hd
    rw [hkind, ← hdkind]
    exact hproper.hasFields he
  · obtain ⟨s, hs⟩ := Table.mem_names_iff.1 hi
    obtain ⟨⟨d, hd, hdi⟩, _⟩ := get?_interfaces_iff.1 hs
    obtain ⟨hdkind, hproper⟩ := hds d hd
    rw [hkind, ← hdkind]
    exact hproper.interface hdi
  · obtain ⟨s, hs⟩ := Table.mem_names_iff.1 hm
    obtain ⟨⟨d, hd, hdm⟩, _⟩ := get?_members_iff.1 hs
    obtain ⟨hdkind, hproper⟩ := hds d hd
    rw [hkind, ← hdkind]
    exact hproper.member hdm

/-- A blank description is never merged into a type. -/
theorem description_ofDeclarations {text : String}
    (h : (ofDeclarations names kind ds).description = some text) : isBlankText text = false := by
  revert text
  refine List.foldlRecOn (motive := fun t : TypeNode =>
    ∀ {text}, t.description = some text → isBlankText text = false) ds _ (fun h => by cases h) ?_
  intro t ht d _ text h
  replace h : mergeDescription t.description d.2.description = some text := h
  unfold mergeDescription at h
  split at h
  · rename_i hnew
    rw [Bool.and_eq_true, h] at hnew
    simpa using hnew.1
  · exact ht h

theorem directives_ofDeclarations (hds : ∀ d ∈ ds, Persisted d.2.directives) :
    (ofDeclarations names kind ds).directives.Nodup ∧
      Persisted (ofDeclarations names kind ds).directives := by
  refine List.foldlRecOn (motive := fun t : TypeNode =>
    t.directives.Nodup ∧ Persisted t.directives) ds _ ⟨List.nodup_nil, by simp [Persisted]⟩ ?_
  rintro t ⟨hnodup, hpersisted⟩ d hd
  refine ⟨nodup_appendNew hnodup, fun x hx => ?_⟩
  exact (mem_appendNew.1 hx).elim (hpersisted x) (hds d hd x)

/-- The parts of a merged type have kept directives if those of its declarations do. -/
theorem persisted_body_ofDeclarations
    (hds : ∀ d ∈ ds, d.2.kind = kind ∧ d.2.body.Persisted) :
    (ofDeclarations names kind ds).body.Persisted := by
  refine (madeOf_ofDeclarations fun d hd => (hds d hd).1).persisted ?_
  rintro _ ⟨d, hd, rfl⟩
  exact (hds d hd).2

/-- A type that is merged from contributions of its kind has a canonical definition. -/
theorem canonical_definition (hne : ds ≠ [])
    (hds : ∀ d ∈ ds, d.2.kind = kind ∧ d.2.Contributed n) :
    ((ofDeclarations names kind ds).definition n).Canonical := by
  have hdirectives : (ofDeclarations names kind ds).directives.Nodup ∧
      Persisted (ofDeclarations names kind ds).directives :=
    directives_ofDeclarations fun d hd => (hds d hd).2.directives
  refine ⟨?_, fun hn ⟨m, f⟩ hf => ?_, fun text h => description_ofDeclarations h, hdirectives.1,
    hdirectives.2, persisted_body_ofDeclarations fun d hd => ⟨(hds d hd).1, (hds d hd).2.body⟩⟩
  · obtain ⟨d, hd⟩ := List.exists_mem_of_ne_nil ds hne
    exact (hds d hd).2.proper.name
  · obtain ⟨_, node, hnode, _⟩ := mem_fields_body_iff.1 hf
    obtain ⟨_, ⟨d, hd, e, he, _⟩, _⟩ := (madeOf_of_get?_fields hnode).type
    exact (hds d hd).2.proper.queryField hn he

end TypeNode

/-! ### Composed supergraphs -/

section Batch

variable {batch : List Subgraph} {schemas : List Schema}
  (hschemas : schemas? batch = .ok schemas)
  (hc : conflicts (schemas.map Schema.contribution) = [])

include hschemas hc

/-- The types of a merged graph are made of contributions of their kind. -/
theorem exists_contributed_of_get?_types {n : Name} {t : TypeNode}
    (ht : (graphOf schemas).types.get? n = some t) :
    ∃ names kind ds, t = TypeNode.ofDeclarations names kind ds ∧ ds ≠ [] ∧
      ∀ d ∈ ds, d.2.kind = kind ∧ d.2.Contributed n := by
  have hconc := concordant_of_conflicts_eq_nil (normalized_of_schemas? hschemas) hc
  obtain ⟨names, kind, ds, rfl, hne, hds⟩ := exists_declares_of_get?_ofSchemas hconc.kind ht
  refine ⟨names, kind, ds, rfl, hne, fun d hd => ⟨(hds d hd).1, ?_⟩⟩
  obtain ⟨s, _, hfaults, _, hsd⟩ := exists_subgraph_of_declares hschemas (hds d hd).2
  exact Subgraph.contributed_of_get?_types hfaults hsd

theorem tidy_of_get?_types {n : Name} {t : TypeNode}
    (ht : (graphOf schemas).types.get? n = some t) : t.Tidy := by
  obtain ⟨names, kind, ds, rfl, _, hds⟩ := exists_contributed_of_get?_types hschemas hc ht
  exact TypeNode.tidy_ofDeclarations fun d hd => ⟨(hds d hd).1, (hds d hd).2.proper⟩

/-- **Composed supergraphs are canonical.** -/
theorem Supergraph.canonical_ofGraph : (ofGraph (graphOf schemas)).Canonical := by
  refine ⟨closed_ofGraph hschemas hc, fun d hd => ?_⟩
  obtain ⟨n, t, ht, rfl⟩ := mem_types_ofGraph_iff.1 hd
  obtain ⟨names, kind, ds, rfl, hne, hds⟩ := exists_contributed_of_get?_types hschemas hc ht
  exact TypeNode.canonical_definition hne hds

end Batch

end Federation
