import Federation.Composition
import Federation.Proofs.Graph.Concordance
import Federation.Proofs.Subgraph.Annotation
import Federation.Proofs.Subgraph.Consistent
import Federation.Proofs.Subgraph.Placements

/-!
# What checked subgraphs guarantee

A batch of which nothing is wrong on its own has schemas (`schemas?_eq_ok_iff`), and what they
contribute is `Normalized`: names are distinct, only fields of object types are external, and no
field repeats an argument.  A declaration has these facts of the blocks that make it up
(`TypeDeclaration.Gathered.assembled`); where `@external` may stand follows from the placement
rules.
-/

namespace Federation

/-! ### Assembled declarations -/

namespace TypeDeclaration

/-- What holds of the fields of a declaration that is made of blocks. -/
structure Assembled (t : TypeDeclaration) : Prop where
  /-- Only types of some kinds have fields. -/
  hasFields : ∀ {m f}, t.fields.get? m = some f → t.kind.hasFields = true
  /-- A field is external by a mark on itself or on its type. -/
  external : ∀ {m f}, t.fields.get? m = some f → f.external = true →
    hasDirective t.directives "external" = true ∨
      hasDirective f.definition.directives "external" = true
  /-- No argument is repeated. -/
  arguments : ∀ {m f}, t.fields.get? m = some f → (f.definition.arguments.map Prod.fst).Nodup

/-- What blocks make up that repeat no argument is as it should be. -/
theorem Gathered.assembled {bs : List Block} {t : TypeDeclaration} (h : Gathered bs t)
    (hargs : ∀ b ∈ bs, ∀ f ∈ b.body.fields, (f.2.arguments.map Prod.fst).Nodup) :
    t.Assembled where
  hasFields hf := by
    obtain ⟨b, hb, g, hg, rfl⟩ := h.get?_fields_iff.1 hf
    rw [← h.kind b hb]
    exact TypeBody.hasFields_of_mem_fields hg
  external hf hext := by
    obtain ⟨b, hb, g, hg, rfl⟩ := h.get?_fields_iff.1 hf
    rw [Block.declare, Bool.or_eq_true] at hext
    refine hext.imp_left fun hmark => ?_
    -- The directives of the block are among those of the type.
    obtain ⟨d, hd, hname⟩ := List.any_eq_true.1 hmark
    refine List.any_eq_true.2 ⟨d, ?_, hname⟩
    rw [h.directives]
    exact List.mem_flatMap.2 ⟨b, hb, hd⟩
  arguments hf := by
    obtain ⟨b, hb, g, hg, rfl⟩ := h.get?_fields_iff.1 hf
    exact hargs b hb _ hg

end TypeDeclaration

/-- Blocks with nothing wrong assemble to declarations that are as they should be. -/
theorem Document.assembled_of_get?_declarations {d : Document} (h : d.assembly.faults = [])
    {n : Name} {t : TypeDeclaration} (ht : d.declarations.get? n = some t) : t.Assembled := by
  have hbs := Assembly.faults_ofBlocks_eq_nil_iff.1 h
  exact (gathered_of_get?_declarations hbs ht).assembled fun b hb =>
    hbs.arguments b (List.mem_filter.1 hb).1

/-! ### Where directives stand -/

/-- The rule for `@external`: it stands on object types and their fields. -/
theorem targets_of_external {d : Directive} (hd : canonicalName d.name = "external") :
    ∃ r, DirectiveRule.of? d = some r ∧ r.targets = [.type .object, .objectField] := by
  refine ⟨{ name := "external", targets := [.type .object, .objectField], needsVersion2 := false },
    ?_, rfl⟩
  rw [DirectiveRule.of?, hd]
  rfl

theorem mem_targets_of_hasDirective {target : DirectiveTarget} {part : Coordinate}
    {ds : List Directive} (h : placementFaults target part [] ds = [])
    (hext : hasDirective ds "external" = true) :
    target = .type .object ∨ target = .objectField := by
  obtain ⟨d, hd, hname⟩ := List.any_eq_true.1 hext
  obtain ⟨r, hr, htargets⟩ := targets_of_external (beq_iff_eq.1 hname)
  have := mem_targets_of_placementFaults h hd hr
  simpa [htargets] using this

theorem object_of_external {types : Table TypeDeclaration} {subgraph : String} {n m : Name}
    {t : TypeDeclaration} {f : FieldDeclaration} (ht : t.Assembled)
    (hf : t.fields.get? m = some f) (hext : f.external = true)
    (hfaults : typeDirectiveFaults types subgraph n t = []) : t.kind = .object := by
  obtain ⟨htype, _, hfields, _, _⟩ := typeDirectiveFaults_eq_nil_iff.1 hfaults
  rcases ht.external hf hext with hmark | hmark
  · rcases mem_targets_of_hasDirective htype hmark with h | h
    · simpa using h
    · simp at h
  · -- On a field the mark leaves the kinds that have fields and are no interfaces.
    have hfield := fieldDirectiveFaults_eq_nil_iff.1 (hfields _ (Table.get?_eq_some_iff.1 hf))
    have hplace := mem_targets_of_hasDirective hfield.1 hmark
    have hkind := ht.hasFields hf
    cases hk : t.kind <;> simp_all [DirectiveTarget.ofFieldOf, TypeKind.hasFields]

/-! ### Schemas -/

/-- The schema that a subgraph has if nothing is wrong with it. -/
def Subgraph.schema (s : Subgraph) : Schema :=
  ⟨s.name, s.url, s.document.version, annotate s.document.declarations s.name⟩

theorem nameFaults_eq_nil_iff {position : Nat} {seen : List String} {batch : List Subgraph} :
    nameFaults position seen batch = [] ↔ (∀ s ∈ batch, isBlankText s.name = false) ∧
      (batch.map (·.name)).Nodup ∧ ∀ s ∈ batch, s.name ∉ seen := by
  induction batch generalizing position seen with
  | nil => simp [nameFaults]
  | cons s batch ih =>
    unfold nameFaults
    split
    · rename_i h
      simp [h]
    · rename_i hblank
      split
      · rename_i h
        simp [h]
      · rename_i hseen
        rw [ih, List.map_cons, List.nodup_cons, List.forall_mem_cons, List.forall_mem_cons]
        simp only [List.mem_cons, not_or, List.mem_map, not_exists, not_and, forall_and]
        have hb : isBlankText s.name = false := by simpa using hblank
        tauto

/-- A batch has schemas when its names are fit and distinct and nothing is wrong with any subgraph
on its own. -/
theorem schemas?_eq_ok_iff {batch : List Subgraph} {schemas : List Schema} :
    schemas? batch = .ok schemas ↔ ((∀ s ∈ batch, isBlankText s.name = false) ∧
      (batch.map (·.name)).Nodup ∧ ∀ s ∈ batch, s.document.faults s.name = []) ∧
      schemas = batch.map Subgraph.schema := by
  have herrors : (batchErrors batch).isEmpty = true ↔
      (∀ s ∈ batch, isBlankText s.name = false) ∧ (batch.map (·.name)).Nodup ∧
        ∀ s ∈ batch, s.document.faults s.name = [] := by
    rw [List.isEmpty_iff, batchErrors, List.append_eq_nil_iff, List.map_eq_nil_iff,
      nameFaults_eq_nil_iff, List.flatMap_eq_nil_iff]
    simp only [faultErrors, List.map_eq_nil_iff, List.not_mem_nil, not_false_eq_true,
      implies_true, and_true, and_assoc]
  unfold schemas?
  simp only
  split
  · rename_i h
    have hok := herrors.1 h
    -- Every subgraph answers with its schema.
    have hmap : batch.map Subgraph.schema? = (batch.map Subgraph.schema).map .ok := by
      rw [List.map_map]
      refine List.map_congr_left fun s hs => ?_
      simp [Subgraph.schema?, hok.2.2 s hs, Subgraph.schema]
    have hschemas : oks (batch.map Subgraph.schema?) = batch.map Subgraph.schema := by
      rw [hmap, oks, List.filterMap_map]
      exact List.filterMap_some
    rw [hschemas, Except.ok.injEq, eq_comm]
    exact ⟨fun h => ⟨hok, h⟩, And.right⟩
  · rename_i h
    rw [herrors] at h
    simp only [reduceCtorEq, false_iff, not_and]
    exact fun hok => absurd hok h

/-- The order of the batch does not matter for whether it has schemas, and shows in them as it
is. -/
theorem exists_schemas?_of_perm {batch batch' : List Subgraph} (hp : batch.Perm batch')
    {schemas : List Schema} (h : schemas? batch = .ok schemas) :
    ∃ schemas', schemas? batch' = .ok schemas' ∧ schemas.Perm schemas' := by
  obtain ⟨⟨hblank, hnames, hfaults⟩, rfl⟩ := schemas?_eq_ok_iff.1 h
  refine ⟨batch'.map Subgraph.schema, schemas?_eq_ok_iff.2 ⟨⟨?_, ?_, ?_⟩, rfl⟩, hp.map _⟩
  · exact fun s hs => hblank s (hp.mem_iff.2 hs)
  · exact (hp.map (·.name)).nodup_iff.1 hnames
  · exact fun s hs => hfaults s (hp.mem_iff.2 hs)

/-! ### Contributions -/

section Contributions

variable {types : Table TypeDeclaration} {subgraph : String} {n m : Name}

@[simp] theorem external_annotateField {kind : TypeKind} {f : FieldDeclaration} :
    (annotateField types subgraph kind n m f).external = f.external := by
  unfold annotateField
  split <;> rfl

@[simp] theorem definition_annotateField {kind : TypeKind} {f : FieldDeclaration} :
    (annotateField types subgraph kind n m f).definition = f.definition := by
  unfold annotateField
  split <;> rfl

theorem get?_fields_contribution {version : FederationVersion} {t : TypeDeclaration} :
    ((annotateType types subgraph n t).contribution version).fields.get? m =
      (t.fields.get? m).map fun f => (annotateField types subgraph t.kind n m f).contribution
        version ((annotateType types subgraph n t).keyFieldNames.contains m) := by
  simp only [TypeDeclaration.contribution, annotateType, Table.get?_mapEntries, Option.map_map]
  rfl

theorem Subgraph.get?_types_schema {s : Subgraph} : s.schema.types.get? n =
    (s.document.declarations.get? n).map (annotateType s.document.declarations s.name n) :=
  get?_annotate

theorem Subgraph.get?_types_contribution {s : Subgraph} :
    s.schema.contribution.types.get? n = (s.document.declarations.get? n).map fun t =>
      (annotateType s.document.declarations s.name n t).contribution s.document.version := by
  show (s.schema.types.map _).get? n = _
  rw [Table.get?_map, get?_types_schema, Option.map_map]
  rfl

/-- A field that is contributed comes from a declaration that its document was assembled to. -/
theorem exists_assembled {s : Subgraph} (hfaults : s.document.faults s.name = [])
    {d : TypeDeclaration} {f : FieldDeclaration}
    (hd : s.schema.contribution.types.get? n = some d) (hf : d.fields.get? m = some f) :
    ∃ t f', t.Assembled ∧ t.kind = d.kind ∧ t.fields.get? m = some f' ∧
      (f.external = true → f'.external = true) ∧
      f.definition.arguments.map Prod.fst = f'.definition.arguments.map Prod.fst ∧
      typeDirectiveFaults s.document.declarations s.name n t = [] := by
  rw [Subgraph.get?_types_contribution] at hd
  obtain ⟨t, ht, rfl⟩ := Option.map_eq_some_iff.1 hd
  rw [get?_fields_contribution] at hf
  obtain ⟨f', hf', rfl⟩ := Option.map_eq_some_iff.1 hf
  have hassembled :=
    Document.assembled_of_get?_declarations (Document.assembly_faults_eq_nil hfaults) ht
  refine ⟨t, f', hassembled, rfl, hf', ?_, ?_, Document.typeDirectiveFaults_eq_nil hfaults ht⟩
  · simp only [FieldDeclaration.contribution, external_annotateField, Bool.and_eq_true]
    exact And.left
  · simp only [FieldDeclaration.contribution, definition_annotateField,
      FieldDefinition.contribution, List.map_map]
    rfl

end Contributions

/-- What is declared in a batch of contributions comes from a subgraph with nothing wrong. -/
theorem exists_subgraph_of_declares {batch : List Subgraph} {schemas : List Schema}
    (h : schemas? batch = .ok schemas) {n : Name} {d : TypeDeclaration}
    (hd : Declares (schemas.map Schema.contribution) n d) :
    ∃ s ∈ batch, s.document.faults s.name = [] ∧ s.schema.contribution ∈
      schemas.map Schema.contribution ∧ s.schema.contribution.types.get? n = some d := by
  obtain ⟨⟨_, _, hfaults⟩, rfl⟩ := schemas?_eq_ok_iff.1 h
  obtain ⟨c, hc, hd⟩ := hd
  obtain ⟨schema, hschema, rfl⟩ := List.mem_map.1 hc
  obtain ⟨s, hs, rfl⟩ := List.mem_map.1 hschema
  exact ⟨s, hs, hfaults s hs, hc, hd⟩

/-- **What checked subgraphs guarantee** of their contributions. -/
theorem normalized_of_schemas? {batch : List Subgraph} {schemas : List Schema}
    (h : schemas? batch = .ok schemas) : Normalized (schemas.map Schema.contribution) := by
  refine ⟨?_, ?_, ?_⟩
  · obtain ⟨⟨_, hnames, _⟩, rfl⟩ := schemas?_eq_ok_iff.1 h
    simp only [List.map_map]
    exact hnames
  · intro n d m f hd hf hext
    obtain ⟨s, _, hfaults, _, hd⟩ := exists_subgraph_of_declares h hd
    obtain ⟨t, f', ht, hkind, hf', hext', _, hdir⟩ := exists_assembled hfaults hd hf
    rw [← hkind]
    exact object_of_external ht hf' (hext' hext) hdir
  · rintro n m f ⟨d, hd, hf⟩
    obtain ⟨s, _, hfaults, _, hd⟩ := exists_subgraph_of_declares h hd
    obtain ⟨t, f', ht, _, hf', _, hargs, _⟩ := exists_assembled hfaults hd hf
    rw [hargs]
    exact ht.arguments hf'

end Federation
