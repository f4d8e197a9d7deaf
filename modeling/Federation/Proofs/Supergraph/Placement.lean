import Federation.Proofs.Supergraph.Applications
import Federation.Proofs.Supergraph.Canonical

/-!
# Where directives are applied in a supergraph

Whatever directive is applied in a composed supergraph is one that a supergraph keeps, under its
canonical name; and where it is a federation directive, the supergraph defines it for the place at
which it is applied (`placements_of_compose`).

The places are all those for which `@tag` and `@inaccessible` are defined
(`location_mem_placements`).  What remains is the version, on which it depends whether
`@inaccessible` is defined at all.  The merge makes no directive up, so one that is applied in the
supergraph was applied, under some spelling, in the declarations of a subgraph
(`exists_declares_of_mem_gathered`); there it asked for Federation 2, and the version of the
supergraph is the highest of its subgraphs.
-/

namespace Federation

/-! ### Places -/

/-- The place that a type of some kind is for a directive. -/
def TypeKind.location : TypeKind → DirectiveLocation
  | object => .object
  | interface => .interface
  | union => .union
  | scalar => .scalar
  | enum => .enum
  | inputObject => .inputObject

/-- The directives applied in a definition, to the type and to the parts of it, each with its
place. -/
def TypeDefinition.placements (d : TypeDefinition) : List (DirectiveLocation × Directive) :=
  d.block.directives.map (d.block.body.kind.location, ·) ++
    d.block.body.fields.flatMap (fun f => f.2.directives.map (.fieldDefinition, ·) ++
      f.2.arguments.flatMap fun a => a.2.directives.map (.argumentDefinition, ·)) ++
    d.block.body.values.flatMap (fun v => v.2.directives.map (.enumValue, ·)) ++
    d.block.body.inputs.flatMap fun v => v.2.directives.map (.inputFieldDefinition, ·)

namespace TypeDefinition

variable {d : TypeDefinition} {x : Directive}

/-- The directives with a place are those of the type and those of the parts of its body. -/
theorem exists_mem_placements_iff : (∃ l, (l, x) ∈ d.placements) ↔
    ∃ xs ∈ d.block.directives :: d.block.body.applications, x ∈ xs := by
  simp only [placements, List.mem_append, List.mem_flatMap, List.mem_map, Prod.mk.injEq,
    List.mem_cons, TypeBody.mem_applications_iff, Prod.exists]
  constructor
  · rintro ⟨l, ((⟨y, hy, -, rfl⟩ | ⟨m, f, hf, ⟨y, hy, -, rfl⟩ | ⟨k, v, hv, y, hy, -, rfl⟩⟩) |
      ⟨m, v, hv, y, hy, -, rfl⟩) | ⟨m, v, hv, y, hy, -, rfl⟩⟩
    · exact ⟨_, .inl rfl, hy⟩
    · exact ⟨_, .inr (.inl ⟨m, f, hf, .inl rfl⟩), hy⟩
    · exact ⟨_, .inr (.inl ⟨m, f, hf, .inr ⟨k, v, hv, rfl⟩⟩), hy⟩
    · exact ⟨_, .inr (.inr (.inl ⟨m, v, hv, rfl⟩)), hy⟩
    · exact ⟨_, .inr (.inr (.inr ⟨m, v, hv, rfl⟩)), hy⟩
  · rintro ⟨_, rfl | ⟨m, f, hf, rfl | ⟨k, v, hv, rfl⟩⟩ | ⟨m, v, hv, rfl⟩ | ⟨m, v, hv, rfl⟩, hx⟩
    · exact ⟨_, .inl (.inl (.inl ⟨x, hx, rfl, rfl⟩))⟩
    · exact ⟨_, .inl (.inl (.inr ⟨m, f, hf, .inl ⟨x, hx, rfl, rfl⟩⟩))⟩
    · exact ⟨_, .inl (.inl (.inr ⟨m, f, hf, .inr ⟨k, v, hv, x, hx, rfl, rfl⟩⟩))⟩
    · exact ⟨_, .inl (.inr ⟨m, v, hv, x, hx, rfl, rfl⟩)⟩
    · exact ⟨_, .inr ⟨m, v, hv, x, hx, rfl, rfl⟩⟩

theorem location_mem_markLocations (k : TypeKind) :
    k.location ∈ FederationVersion.markLocations := by
  cases k <;> decide

/-- At every place of a definition `@tag` and `@inaccessible` may stand. -/
theorem location_mem_placements {p : DirectiveLocation × Directive} (hp : p ∈ d.placements) :
    p.1 ∈ FederationVersion.markLocations := by
  simp only [placements, List.mem_append, List.mem_flatMap, List.mem_map, Prod.exists] at hp
  rcases hp with ((⟨_, _, rfl⟩ | ⟨_, _, _, ⟨_, _, rfl⟩ | ⟨_, _, _, _, _, rfl⟩⟩) |
    ⟨_, _, _, _, _, rfl⟩) | ⟨_, _, _, _, _, rfl⟩
  · exact location_mem_markLocations _
  all_goals exact of_decide_eq_true rfl

end TypeDefinition

/-! ### Where an applied directive comes from -/

namespace TypeDeclaration

variable {t : TypeDeclaration} {x : Directive}

theorem mem_appliedDirectives_iff : x ∈ t.appliedDirectives ↔ x ∈ t.directives ∨
    (∃ m f, t.fields.get? m = some f ∧ (x ∈ f.definition.directives ∨
      ∃ k v, (k, v) ∈ f.definition.arguments ∧ x ∈ v.directives)) ∨
    (∃ m v, t.values.get? m = some v ∧ x ∈ v.directives) ∨
    ∃ m v, t.inputs.get? m = some v ∧ x ∈ v.directives := by
  simp only [appliedDirectives, Table.values, List.mem_append, List.mem_flatMap, List.mem_map,
    Prod.exists, exists_eq_right, Table.get?_eq_some_iff, or_assoc]
  grind

/-- A directive of a contribution is one of the declaration, as the supergraph keeps it. -/
theorem exists_of_mem_appliedDirectives_contribution {types : Table TypeDeclaration}
    {subgraph : String} {n : Name} {version : FederationVersion}
    (hx : x ∈ ((annotateType types subgraph n t).contribution version).appliedDirectives) :
    ∃ y ∈ t.appliedDirectives, y.persisted? = some x := by
  have hkept : ∀ {ds : List Directive}, (∀ y ∈ ds, y ∈ t.appliedDirectives) →
      x ∈ persistedDirectives ds → ∃ y ∈ t.appliedDirectives, y.persisted? = some x := by
    intro ds hds hx
    obtain ⟨y, hy, hyx⟩ := List.mem_filterMap.1 hx
    exact ⟨y, hds y hy, hyx⟩
  rcases mem_appliedDirectives_iff.1 hx with
    hx | ⟨m, f, hf, hx⟩ | ⟨m, v, hv, hx⟩ | ⟨m, v, hv, hx⟩
  · exact hkept (fun y hy => mem_appliedDirectives_iff.2 (.inl hy)) hx
  · rw [get?_fields_contribution] at hf
    obtain ⟨f', hf', rfl⟩ := Option.map_eq_some_iff.1 hf
    simp only [FieldDeclaration.contribution, definition_annotateField] at hx
    rcases hx with hx | ⟨k, v, hv, hx⟩
    · exact hkept (fun y hy => mem_appliedDirectives_iff.2 (.inr (.inl ⟨m, f', hf', .inl hy⟩))) hx
    · obtain ⟨a, ha, he⟩ := List.mem_map.1 hv
      cases he
      exact hkept (fun y hy =>
        mem_appliedDirectives_iff.2 (.inr (.inl ⟨m, f', hf', .inr ⟨_, _, ha, hy⟩⟩))) hx
  · obtain ⟨v', hv', rfl⟩ := Option.map_eq_some_iff.1 ((Table.get?_map _ _ _).symm.trans hv)
    exact hkept (fun y hy => mem_appliedDirectives_iff.2 (.inr (.inr (.inl ⟨m, v', hv', hy⟩)))) hx
  · obtain ⟨v', hv', rfl⟩ := Option.map_eq_some_iff.1 ((Table.get?_map _ _ _).symm.trans hv)
    exact hkept (fun y hy => mem_appliedDirectives_iff.2 (.inr (.inr (.inr ⟨m, v', hv', hy⟩)))) hx

end TypeDeclaration

/-- **The merge makes no directive up**: one that a batch gathers for a type or for a part of it is
applied to the type, or to a part of it, in some declaration. -/
theorem exists_declares_of_mem_gathered {schemas : List Schema} {n : Name}
    {ls : List (List Directive)} (hls : Gathers schemas n ls) {x : Directive}
    (hx : x ∈ ls.flatten) : ∃ d, Declares schemas n d ∧ x ∈ d.appliedDirectives := by
  have hdeclared : ∀ {e}, e ∈ declarationsOf schemas n → Declares schemas n e.2 :=
    fun {e} he => declares_iff.2 ⟨e.1, he⟩
  obtain ⟨l, hl, hxl⟩ := List.mem_flatten.1 hx
  simp only [TypeDeclaration.mem_appliedDirectives_iff]
  -- what is gathered for a part comes from the declarations that have the part
  cases hls with
  | type =>
    rcases List.mem_cons.1 hl with rfl | hl
    · cases hxl
    · obtain ⟨e, he, rfl⟩ := List.mem_map.1 hl
      exact ⟨e.2, hdeclared he, .inl hxl⟩
  | @field _ m =>
    obtain ⟨e, he, rfl⟩ := List.mem_map.1 hl
    obtain ⟨d, hd, hf⟩ := TypeNode.mem_fieldsOf_iff.1 (List.mem_of_mem_filter he)
    exact ⟨d, hdeclared hd, .inr (.inl ⟨m, e.2, hf, .inl hxl⟩)⟩
  | @argument _ m k v _ _ hv =>
    obtain rfl := List.mem_singleton.1 hl
    obtain ⟨e, he, hkv⟩ := FieldNode.exists_of_argumentOf? hv
    obtain ⟨d, hd, hf⟩ := TypeNode.mem_fieldsOf_iff.1 he
    have hmem := FieldDefinition.mem_arguments_of_argument? hkv
    exact ⟨d, hdeclared hd, .inr (.inl ⟨m, e.2, hf, .inr ⟨k, v, hmem, hxl⟩⟩)⟩
  | @value _ m =>
    obtain ⟨e, he, hel⟩ := List.mem_filterMap.1 hl
    obtain ⟨v, hv, rfl⟩ := Option.map_eq_some_iff.1 hel
    exact ⟨e.2, hdeclared he, .inr (.inr (.inl ⟨m, v, hv, hxl⟩))⟩
  | @input _ m =>
    obtain ⟨e, he, hel⟩ := List.mem_filterMap.1 hl
    obtain ⟨v, hv, rfl⟩ := Option.map_eq_some_iff.1 hel
    exact ⟨e.2, hdeclared he, .inr (.inr (.inr ⟨m, v, hv, hxl⟩))⟩

/-! ### Versions -/

/-- A directive that the supergraph keeps has the name that it was applied under, but for the
federation namespace. -/
theorem canonicalName_of_persisted? {x y : Directive} (h : y.persisted? = some x) :
    canonicalName y.name = x.name.text := by
  obtain ⟨n, hn, rfl⟩ := Option.map_eq_some_iff.1 h
  have htext := List.find?_some hn
  exact (beq_iff_eq.1 htext).symm

/-- However it is written, `@inaccessible` makes a subgraph a Federation 2 subgraph. -/
theorem needVersion2_of_inaccessible {ds : List Directive} {y : Directive} (hy : y ∈ ds)
    (hname : canonicalName y.name = inaccessibleName.text) : needVersion2 ds = true := by
  refine List.any_eq_true.2 ⟨y, hy, ?_⟩
  rw [DirectiveRule.of?, hname]
  decide

theorem Document.version_eq_v2 {d : Document} {n : Name} {t : TypeDeclaration}
    (ht : d.declarations.get? n = some t) (h : needVersion2 t.appliedDirectives = true) :
    d.version = .v2 := by
  have hany : (d.declarations.values.any fun t => needVersion2 t.appliedDirectives) = true :=
    List.any_eq_true.2 ⟨t, List.mem_map.2 ⟨(n, t), Table.get?_eq_some_iff.1 ht, rfl⟩, h⟩
  simp [version, hany]

/-! ### Composed supergraphs -/

section Batch

variable {batch : List Subgraph} {schemas : List Schema}
  (hschemas : schemas? batch = .ok schemas)
  (hc : conflicts (schemas.map Schema.contribution) = [])

include hschemas hc

/-- Where something in a merged graph is hidden, some subgraph is written against Federation 2, and
so the graph is. -/
theorem version_eq_v2_of_inaccessible {d : TypeDefinition}
    (hd : d ∈ (Supergraph.ofGraph (graphOf schemas)).types)
    {l : DirectiveLocation} {x : Directive} (hx : (l, x) ∈ d.placements)
    (hname : x.name = inaccessibleName) : (graphOf schemas).version = .v2 := by
  have hn := normalized_of_schemas? hschemas
  have hconcordant := concordant_of_conflicts_eq_nil hn hc
  -- What is hidden is traced back to the schema in which some subgraph applies the directive.
  obtain ⟨xs, hxs, hmem⟩ := TypeDefinition.exists_mem_placements_iff.1 ⟨l, hx⟩
  obtain ⟨n, ls, hls, rfl⟩ := (exists_type_applications_iff hn hconcordant).1 ⟨d, hd, hxs⟩
  obtain ⟨t, ht, hxt⟩ := exists_declares_of_mem_gathered hls (mem_gathered.1 hmem)
  obtain ⟨s, _, _, hs, hst⟩ := exists_subgraph_of_declares hschemas ht
  rw [Subgraph.get?_types_contribution] at hst
  obtain ⟨t', ht', rfl⟩ := Option.map_eq_some_iff.1 hst
  obtain ⟨y, hy, hyx⟩ := TypeDeclaration.exists_of_mem_appliedDirectives_contribution hxt
  -- There it made the subgraph one of Federation 2, before it was given its canonical name.
  have hversion : s.schema.contribution.version = .v2 :=
    Document.version_eq_v2 ht' (needVersion2_of_inaccessible hy
      ((canonicalName_of_persisted? hyx).trans (congrArg Name.text hname)))
  have hmem : FederationVersion.v2 ∈ (graphOf schemas).subgraphs.map (·.version) := by
    simp only [graphOf, Graph.ofSchemas, List.map_map]
    obtain ⟨schema, hschema, he⟩ := List.mem_map.1 hs
    exact List.mem_map.2 ⟨schema, hschema, (congrArg Schema.version he).trans hversion⟩
  rw [Graph.version, FederationVersion.highest, if_pos hmem]

/-- Whatever is applied in the types of a merged graph is a directive that a supergraph keeps. -/
theorem name_mem_of_mem_placements {d : TypeDefinition}
    (hd : d ∈ (Supergraph.ofGraph (graphOf schemas)).types)
    {l : DirectiveLocation} {x : Directive} (hx : (l, x) ∈ d.placements) :
    x.name ∈ persistedNames := by
  have hcanonical := (Supergraph.canonical_ofGraph hschemas hc).type d hd
  obtain ⟨hfields, hvalues, hinputs⟩ := TypeBody.persisted_iff.1 hcanonical.body
  obtain ⟨xs, hxs, hmem⟩ := TypeDefinition.exists_mem_placements_iff.1 ⟨l, hx⟩
  rcases List.mem_cons.1 hxs with rfl | hxs
  · exact hcanonical.directives x hmem
  · rcases TypeBody.mem_applications_iff.1 hxs with
      ⟨m, f, hf, rfl | ⟨k, v, hv, rfl⟩⟩ | ⟨m, v, hv, rfl⟩ | ⟨m, v, hv, rfl⟩
    · exact (hfields _ hf).1 x hmem
    · exact (hfields _ hf).2 _ hv x hmem
    · exact hvalues _ hv x hmem
    · exact hinputs _ hv x hmem

end Batch

theorem FederationVersion.exists_definition_of_tag (version : FederationVersion) :
    ∃ e ∈ version.directiveDefinitions, e.name = tagName ∧ e.locations = markLocations :=
  ⟨tagDefinition, by cases version <;> simp [directiveDefinitions], rfl, rfl⟩

theorem Supergraph.mem_types_of_mem_document {s : Supergraph} {d : TypeDefinition}
    (hd : Definition.type d ∈ s.document) : d ∈ s.types := by
  simpa [document] using hd

theorem Supergraph.mem_document_of_mem_directiveDefinitions {s : Supergraph}
    {e : DirectiveDefinition} (he : e ∈ s.version.directiveDefinitions) :
    Definition.directive e ∈ s.document := by
  simpa [document] using he

/-- **Only what a supergraph defines is applied in it**: every directive applied to a type of a
composed supergraph, or to a part of one, is one of the four that a supergraph keeps, written
without the federation namespace.  Where it is `@tag` or `@inaccessible`, the same document defines
it for the place where it is applied; and only a Federation 2 supergraph hides anything. -/
theorem placements_of_compose {options : Options} {batch : List Subgraph} {s : Supergraph}
    (hs : compose options batch = .ok s) {d : TypeDefinition}
    (hd : Definition.type d ∈ s.document) {l : DirectiveLocation} {x : Directive}
    (hx : (l, x) ∈ d.placements) :
    x.name.text ∈ ["deprecated", "specifiedBy", "tag", "inaccessible"] ∧
    (x.name = tagName ∨ x.name = inaccessibleName →
      ∃ e, Definition.directive e ∈ s.document ∧ e.name = x.name ∧ l ∈ e.locations) ∧
    (x.name = inaccessibleName → s.version = .v2) := by
  obtain ⟨schemas, hok, hconflicts, _, rfl⟩ := compose_eq_ok_iff.1 hs
  have hd := Supergraph.mem_types_of_mem_document hd
  have hl := TypeDefinition.location_mem_placements hx
  have hversion : x.name = inaccessibleName →
      (Supergraph.ofGraph (graphOf schemas)).version = .v2 :=
    version_eq_v2_of_inaccessible hok hconflicts hd hx
  refine ⟨?_, ?_, hversion⟩
  · exact List.mem_map_of_mem (name_mem_of_mem_placements hok hconflicts hd hx)
  · rintro (hname | hname)
    · obtain ⟨e, he, hename, hlocations⟩ := FederationVersion.exists_definition_of_tag
        (Supergraph.ofGraph (graphOf schemas)).version
      exact ⟨e, Supergraph.mem_document_of_mem_directiveDefinitions he, hename.trans hname.symm,
        hlocations ▸ hl⟩
    · have he : FederationVersion.inaccessibleDefinition ∈
          (Supergraph.ofGraph (graphOf schemas)).version.directiveDefinitions := by
        rw [hversion hname]
        simp [FederationVersion.directiveDefinitions]
      exact ⟨_, Supergraph.mem_document_of_mem_directiveDefinitions he, hname.symm, hl⟩

/-- A subgraph that hides an enum value and labels an argument, both with the federation namespace,
and uses a directive of its own. -/
def hiddenValueBatch : List Subgraph := Subgraph.batchOfTexts
  [("a", "type Query \x7b a(x: Int @federation__tag(name: \"t\")): E @own \x7d " ++
    "enum E \x7b V @federation__inaccessible W \x7d"),
   ("b", "type Query \x7b b: Int \x7d")]

/-- In the supergraph that it composes to, with one that asks for Federation 1, the value is hidden
under the canonical name, and the document defines the directive for enum values. -/
theorem placements_of_compose_hiddenValue :
    ∃ s, compose {} hiddenValueBatch = .ok s ∧ s.version = .v2 ∧
      ∃ d, Definition.type d ∈ s.document ∧
        (DirectiveLocation.enumValue, ⟨inaccessibleName, []⟩) ∈ d.placements ∧
        ∃ e, Definition.directive e ∈ s.document ∧ e.name = inaccessibleName ∧
          DirectiveLocation.enumValue ∈ e.locations := by
  have hhidden : (compose {} hiddenValueBatch).toOption.any (fun s => s.types.any fun d =>
      decide (Definition.type d ∈ s.document ∧
        (DirectiveLocation.enumValue, ⟨inaccessibleName, []⟩) ∈ d.placements)) = true := by
    decide +kernel
  obtain ⟨s, hs, h⟩ := exists_of_any_toOption hhidden
  obtain ⟨d, _, h⟩ := List.any_eq_true.1 h
  obtain ⟨hd, hx⟩ := of_decide_eq_true h
  obtain ⟨_, hdefined, hversion⟩ := placements_of_compose hs hd hx
  exact ⟨s, hs, hversion rfl, d, hd, hx, hdefined (.inr rfl)⟩

end Federation
