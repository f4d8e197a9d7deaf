import Federation.Proofs.Renaming.Declarations
import Federation.Proofs.Subgraph.Proper
import Federation.Proofs.Subgraph.Selections

/-!
# Schemas of documents with renamed root types

Composing renames root types everywhere but in the conditions of field sets.  A condition that names
a root type by a name of the document's own names no type that is left (`not_stale_of_fieldSetOf`),
so it is a fault wherever field sets are read, and elsewhere the directive itself is misplaced: a
document with such a condition on anything that it declares has no schema
(`Document.not_hasStaleCondition`).

So a document has the schema of the document with the canonical names, if it has no such condition,
and else it has none (`Subgraph.schema?_renames_iff`), although the other document may have one
(`Subgraph.not_schema?_renames_staleCondition`).
-/

namespace Federation

/-! ### Where conditions on root types can stand -/

/-- Keys stand on types that have fields, and the other directives with field sets on fields of
object types. -/
theorem targets_of_carrier {x : Directive}
    (hx : canonicalName x.name ∈ ["key", "requires", "provides"]) :
    ∃ r, DirectiveRule.of? x = some r ∧ ∀ target ∈ r.targets,
      canonicalName x.name = "key" ∧ (target = .type .object ∨ target = .type .interface) ∨
      (canonicalName x.name = "requires" ∨ canonicalName x.name = "provides") ∧
        target = .objectField := by
  have hrules : ∀ s ∈ ["key", "requires", "provides"],
      ∃ r ∈ DirectiveRule.all.find? fun r => r.name == s, ∀ target ∈ r.targets,
        s = "key" ∧ (target = .type .object ∨ target = .type .interface) ∨
        (s = "requires" ∨ s = "provides") ∧ target = .objectField := by decide
  exact hrules _ hx

/-- A directive with a field set stands on a type or a field. -/
theorem Directive.Stale.target {renames : RootRenames} {x : Directive} (hx : x.Stale renames)
    {target : DirectiveTarget} {part : Coordinate} {ds : List Directive}
    (hplace : placementFaults target part [] ds = []) (hmem : x ∈ ds) :
    canonicalName x.name = "key" ∧ (target = .type .object ∨ target = .type .interface) ∨
      (canonicalName x.name = "requires" ∨ canonicalName x.name = "provides") ∧
        target = .objectField := by
  obtain ⟨r, hr, htargets⟩ := targets_of_carrier hx.1
  exact htargets _ (mem_targets_of_placementFaults hplace hmem hr)

/-! ### Conditions on types that are not declared -/

theorem FieldSet.FitsIn.isComposite_of_mem_conditions {types : Table TypeDeclaration} {F : FieldSet}
    {parent c : Name} (h : F.FitsIn types parent) (hc : c ∈ F.conditions) :
    IsComposite types c := by
  induction F generalizing parent with
  | empty => cases hc
  | field n sub rest ihs ihr =>
    obtain ⟨⟨t, f, _, _, hsub⟩, hrest⟩ := h
    rcases List.mem_append.1 hc with hc | hc
    · -- What has a condition is not empty.
      have hne : sub.isEmpty = false := by
        cases sub with
        | empty => cases hc
        | field | fragment => rfl
      exact ihs (hsub hne).2 hc
    · exact ihr hrest hc
  | fragment c' sub rest ihs ihr =>
    obtain ⟨hcomposite, hsub, hrest⟩ := h
    simp only [conditions, List.mem_append] at hc
    rcases hc with (hc | hc) | hc
    · rw [Option.mem_toList] at hc
      cases hc
      exact hcomposite
    · exact ihs hsub hc
    · exact ihr hrest hc

section Reading

variable {types : Table TypeDeclaration} {renames : RootRenames}
  (hnames : ∀ c ∈ types.names, renames.apply c = c)

/-- The field set that is read off a directive is the one that it carries. -/
theorem fieldSet?_of_fieldSetOf {part : Coordinate} {target : Name} {x : Directive} {F : FieldSet}
    (h : fieldSetOf types part target x = .ok F) : x.fieldSet? = some F := by
  obtain ⟨source, hsource, hread, _⟩ := fieldSetOf_eq_ok_iff.1 h
  rw [Directive.fieldSet?, hsource, Option.bind_some, hread]
  rfl

include hnames

/-- **A field set that is read has no condition on a renamed type.** -/
theorem not_stale_of_fieldSetOf {part : Coordinate} {target : Name} {x : Directive} {F : FieldSet}
    (h : fieldSetOf types part target x = .ok F) : ¬ x.Stale renames := by
  rintro ⟨_, G, hG, c, hc, hne⟩
  obtain rfl := Option.some.inj ((fieldSet?_of_fieldSetOf h).symm.trans hG)
  have hcomposite := (fitsIn_of_fieldSetOf h).2.isComposite_of_mem_conditions hc
  have hdeclared : c ∈ types.names := by
    obtain ⟨k, hk, _⟩ := (Option.any_eq_true _ _).1 hcomposite
    obtain ⟨t, ht, _⟩ := Option.map_eq_some_iff.1 hk
    exact Table.mem_names_iff.2 ⟨t, ht⟩
  exact hne (hnames c hdeclared)

/-- The keys of a type without faults have no condition on a renamed type. -/
theorem not_stale_of_keysOf {n : Name} {t : TypeDeclaration}
    (hkeys : ∀ r ∈ keysOf types n t, ∃ k, r = .ok k) (hkind : t.kind.hasFields = true)
    {x : Directive} (hx : x ∈ t.directives) (hname : canonicalName x.name = "key") :
    ¬ x.Stale renames := by
  obtain ⟨k, hk⟩ := hkeys _ (mem_keysOf_iff.2 ⟨hkind, x, hx, hname, rfl⟩)
  exact not_stale_of_fieldSetOf hnames (keyOf_eq_ok_iff.1 hk).1

/-- An annotation of a field without faults has no condition on a renamed type. -/
theorem not_stale_of_annotationFaults {subgraph : String} {n m : Name} {f : FieldDefinition}
    {x : Directive} (h : annotationFaults types subgraph n m f x = [])
    (hname : canonicalName x.name = "requires" ∨ canonicalName x.name = "provides") :
    ¬ x.Stale renames := by
  rcases hname with hname | hname <;> simp only [annotationFaults, hname] at h <;>
    obtain ⟨F, hF⟩ := errors_eq_nil_iff.1 h _ (List.mem_singleton_self _)
  · exact not_stale_of_fieldSetOf hnames hF
  · exact not_stale_of_fieldSetOf hnames (providesOf_eq_ok_iff.1 hF).2

/-- What stands on a field without faults, or on an argument of it, has no condition on a renamed
type. -/
theorem not_stale_of_fieldDirectiveFaults {subgraph : String} {kind : TypeKind} {n m : Name}
    {f : FieldDefinition} (h : fieldDirectiveFaults types subgraph kind n m f = [])
    (hkind : kind.hasFields = true) {x : Directive}
    (hx : x ∈ f.directives ++ f.arguments.flatMap fun a => a.2.directives) : ¬ x.Stale renames := by
  obtain ⟨hplace, harguments, hannotations⟩ := fieldDirectiveFaults_eq_nil_iff.1 h
  intro hstale
  rcases List.mem_append.1 hx with hx | hx
  · rcases hstale.target hplace hx with ⟨_, htarget⟩ | ⟨hname, htarget⟩
    · cases kind <;> simp [DirectiveTarget.ofFieldOf] at htarget
    · -- Fields of interfaces are another place.
      have hobject : kind = .object := by
        cases kind <;> simp_all [DirectiveTarget.ofFieldOf, TypeKind.hasFields]
      exact not_stale_of_annotationFaults hnames (hannotations hobject x hx) hname hstale
  · obtain ⟨a, ha, hx⟩ := List.mem_flatMap.1 hx
    rcases hstale.target (harguments a ha) hx with ⟨_, h | h⟩ | ⟨_, h⟩ <;> cases h

/-- **What stands on a type without faults, or on anything in it, has no condition on a renamed
type.** -/
theorem not_stale_of_typeDirectiveFaults {subgraph : String} {n : Name} {t : TypeDeclaration}
    (h : typeDirectiveFaults types subgraph n t = []) (ht : t.Assembled) {x : Directive}
    (hx : x ∈ t.appliedDirectives) : ¬ x.Stale renames := by
  obtain ⟨hown, hkeys, hfields, hvalues, hinputs⟩ := typeDirectiveFaults_eq_nil_iff.1 h
  intro hstale
  simp only [TypeDeclaration.appliedDirectives, Table.values, List.flatMap_map, List.mem_append,
    List.mem_flatMap] at hx
  rcases hx with ((hx | ⟨e, he, hx⟩) | ⟨e, he, hx⟩) | ⟨e, he, hx⟩
  · -- On the type itself there are keys alone.
    rcases hstale.target hown hx with ⟨hkey, hkind⟩ | ⟨_, hkind⟩
    · refine not_stale_of_keysOf hnames hkeys ?_ hx hkey hstale
      simp only [DirectiveTarget.type.injEq] at hkind
      rcases hkind with hkind | hkind <;> rw [hkind] <;> rfl
    · cases hkind
  · have hkind := ht.hasFields (Table.get?_eq_some_iff.2 he)
    refine not_stale_of_fieldDirectiveFaults hnames (hfields e he) hkind ?_ hstale
    simpa only [List.mem_append, List.mem_flatMap] using hx
  · rcases hstale.target (hvalues e he) hx with ⟨_, h | h⟩ | ⟨_, h⟩ <;> cases h
  · rcases hstale.target (hinputs e he) hx with ⟨_, h | h⟩ | ⟨_, h⟩ <;> cases h

end Reading

/-! ### Schemas -/

namespace Document

variable {d d' : Document}

/-- Something that a document declares has a condition that names a root type, and not by its
canonical name. -/
def HasStaleCondition (d : Document) : Prop :=
  ∃ n t, d.declarations.get? n = some t ∧ ∃ x ∈ t.appliedDirectives, x.Stale d.rootRenames

theorem hasStaleCondition_iff : d.HasStaleCondition ↔
    ∃ e ∈ d.declarations.entries, ∃ x ∈ e.2.appliedDirectives, x.Stale d.rootRenames := by
  simp only [HasStaleCondition, Table.get?_eq_some_iff, Prod.exists]

instance (d : Document) : Decidable d.HasStaleCondition :=
  decidable_of_iff _ hasStaleCondition_iff.symm

/-- A type is declared under the name that it is composed under. -/
theorem exists_apply_of_get?_declarations (hfaults : d.assembly.faults = []) {n : Name}
    {t : TypeDeclaration} (ht : d.declarations.get? n = some t) :
    ∃ m, n = d.rootRenames.apply m := by
  have hbs := Assembly.faults_ofBlocks_eq_nil_iff.1 hfaults
  obtain ⟨b, hb, _⟩ := TypeDeclaration.kind_gathered? ((get?_declarations_eq_some_iff hbs).1 ht).1
  obtain ⟨hb, hname⟩ := List.mem_filter.1 hb
  obtain ⟨c, _, _, _, hrenamed, _⟩ := exists_typeBlock_of_mem_blocks hb
  exact ⟨c.name, (of_decide_eq_true hname).symm.trans hrenamed⟩

/-- **Conditions that name root types are faults.** -/
theorem not_hasStaleCondition (hfree : d.RenamesFreely) {subgraph : String}
    (hfaults : d.faults subgraph = []) : ¬ d.HasStaleCondition := by
  have hassembly := assembly_faults_eq_nil hfaults
  rintro ⟨n, t, ht, x, hx, hstale⟩
  -- No declared name is one that is renamed.
  have hnames : ∀ c ∈ d.declarations.names, d.rootRenames.apply c = c := by
    intro c hc
    obtain ⟨u, hu⟩ := Table.mem_names_iff.1 hc
    obtain ⟨m, rfl⟩ := exists_apply_of_get?_declarations hassembly hu
    refine RootRenames.apply_eq_self (not_not.1 fun hget => ?_)
    exact hfree.apply_ne hget m rfl
  exact not_stale_of_typeDirectiveFaults hnames (typeDirectiveFaults_eq_nil hfaults ht)
    (assembled_of_get?_declarations hassembly ht) hx hstale

namespace Renames

variable (h : d.Renames d') (hfree : d.RenamesFreely)

include h

theorem schemaFaults_eq : d'.schemaFaults = d.schemaFaults := by
  refine flatMap_eq_of_forall₂ h fun e e' he => ?_
  cases he with
  | schema h => exact placementFaults_congr (names_of_renames h) _ _ _
  | _ => rfl

/-- Directives on a schema without faults carry no field sets, so they stay as they are. -/
theorem schemaDirectives_eq (hfaults : d.schemaFaults = []) :
    d'.flatMap Definition.schemaDirectives = d.flatMap Definition.schemaDirectives := by
  have hplace := List.flatMap_eq_nil_iff.1 hfaults
  refine flatMap_eq_of_forall₂ (forall₂_and_mem h) fun e e' he => ?_
  obtain ⟨hd, he⟩ := he
  cases he with
  | schema h =>
    refine directives_eq_of_fresh h fun x hx hstale => ?_
    rcases hstale.target (hplace _ hd) hx with ⟨_, h | h⟩ | ⟨_, h⟩ <;> cases h
  | _ => rfl

include hfree

/-- Without conditions that name root types, the declarations are the very same. -/
theorem declarations_eq (hfresh : ¬ d.HasStaleCondition) : d'.declarations = d.declarations := by
  refine Table.ext (eq_of_forall₂ (h.declarations hfree) fun e he e' hr => ?_)
  refine Prod.ext hr.1 (hr.2.eq_of_fresh fun x hx hstale => ?_)
  exact hfresh ⟨e.1, e.2, Table.get?_eq_some_iff.2 he, x, hx, hstale⟩

theorem faults_eq (hfresh : ¬ d.HasStaleCondition) (subgraph : String) :
    d'.faults subgraph = d.faults subgraph := by
  rw [Document.faults, Document.faults, h.schemaFaults_eq,
    ResultRel.errors_eq (h.blocks hfree), (h.assembly hfree).faults, h.declarations_eq hfree hfresh]

theorem version_eq (hfresh : ¬ d.HasStaleCondition) (hfaults : d.schemaFaults = []) :
    d'.version = d.version := by
  simp only [Document.version, h.schemaDirectives_eq hfaults, h.declarations_eq hfree hfresh]

/-- Checked documents without such conditions have the same schema. -/
theorem schema_eq (hfresh : ¬ d.HasStaleCondition) {name : String} (hfaults : d.faults name = [])
    (url : String) : Subgraph.schema ⟨name, url, d'⟩ = Subgraph.schema ⟨name, url, d⟩ := by
  have hschema : d.schemaFaults = [] := (faults_eq_nil_iff.1 hfaults).1
  simp only [Subgraph.schema, h.version_eq hfree hfresh hschema, h.declarations_eq hfree hfresh]

/-- The document has the schemas of the document with the canonical names, if it has no such
condition. -/
theorem schema?_eq_ok_iff (name url : String) (schema : Schema) :
    Subgraph.schema? ⟨name, url, d⟩ = .ok schema ↔
      Subgraph.schema? ⟨name, url, d'⟩ = .ok schema ∧ ¬ d.HasStaleCondition := by
  rw [Subgraph.schema?_eq_ok_iff, Subgraph.schema?_eq_ok_iff]
  show d.faults name = [] ∧ schema = Subgraph.schema ⟨name, url, d⟩ ↔
    (d'.faults name = [] ∧ schema = Subgraph.schema ⟨name, url, d'⟩) ∧ ¬ d.HasStaleCondition
  constructor
  · rintro ⟨hfaults, rfl⟩
    have hfresh := not_hasStaleCondition hfree hfaults
    exact ⟨⟨(h.faults_eq hfree hfresh name).trans hfaults,
      (h.schema_eq hfree hfresh hfaults url).symm⟩, hfresh⟩
  · rintro ⟨⟨hfaults', rfl⟩, hfresh⟩
    have hfaults := (h.faults_eq hfree hfresh name).symm.trans hfaults'
    exact ⟨hfaults, h.schema_eq hfree hfresh hfaults url⟩

end Renames

end Document

/-- **Naming root types is naming them canonically, but for conditions.**  A document whose root
types can go by the canonical names has the schema that it has with these names, if nothing that it
declares has a condition that names a root type by another name; and else it has none.  So the two
documents have the same schema, or both have none, unless there is such a condition in the one and
the other has a schema. -/
theorem Subgraph.schema?_renames_iff {d d' : Document} (h : d.Renames d') (hfree : d.RenamesFreely)
    (name url : String) :
    (∀ schema, Subgraph.schema? ⟨name, url, d⟩ = .ok schema ↔
      Subgraph.schema? ⟨name, url, d'⟩ = .ok schema ∧ ¬ d.HasStaleCondition) ∧
    ((∀ schema, Subgraph.schema? ⟨name, url, d⟩ = .ok schema ↔
        Subgraph.schema? ⟨name, url, d'⟩ = .ok schema) ↔
      ¬ (d.HasStaleCondition ∧ ∃ schema, Subgraph.schema? ⟨name, url, d'⟩ = .ok schema)) := by
  have hiff := h.schema?_eq_ok_iff hfree name url
  refine ⟨hiff, ?_, ?_⟩
  · rintro hpure ⟨hstale, schema, hs⟩
    exact ((hiff schema).1 ((hpure schema).2 hs)).2 hstale
  · intro hnone schema
    refine ⟨fun hs => ((hiff schema).1 hs).1, fun hs => (hiff schema).2 ⟨hs, fun hstale => ?_⟩⟩
    exact hnone ⟨hstale, schema, hs⟩

/-! ### Names of the document's own and canonical names -/

namespace Subgraph

/-- Two root types under names of the document's own, with references of all kinds. -/
def ownRoots : Subgraph := .ofSchemaText <|
  "schema \x7b query: Root \x7d extend schema \x7b mutation: Change \x7d " ++
    "type Root \x7b self: [Root!] \x7d extend type Root \x7b t: T \x7d union T = Root " ++
    "type Change \x7b start: Root \x7d"

/-- The same with the canonical names. -/
def canonicalRoots : Subgraph := .ofSchemaText <|
  "schema \x7b query: Query \x7d extend schema \x7b mutation: Mutation \x7d " ++
    "type Query \x7b self: [Query!] \x7d extend type Query \x7b t: T \x7d union T = Query " ++
    "type Mutation \x7b start: Query \x7d"

/-- Both have the same schema. -/
theorem schema?_renames_iff_ownRoots : ownRoots.document.Renames canonicalRoots.document ∧
    ownRoots.document.RenamesFreely ∧ ¬ ownRoots.document.HasStaleCondition ∧
    canonicalRoots.schema? = .ok canonicalRoots.schema ∧
    ownRoots.schema? = .ok canonicalRoots.schema := by
  have hread : ownRoots.document.Renames canonicalRoots.document ∧
      ownRoots.document.RenamesFreely ∧ ¬ ownRoots.document.HasStaleCondition ∧
      canonicalRoots.schema? = .ok canonicalRoots.schema := by decide +kernel
  obtain ⟨hrenames, hfree, hfresh, hschema⟩ := hread
  have hiff := (schema?_renames_iff hrenames hfree "a" "").1 canonicalRoots.schema
  exact ⟨hrenames, hfree, hfresh, hschema, hiff.2 ⟨hschema, hfresh⟩⟩

/-- A root type in a condition, under the name of the document's own. -/
def staleCondition : Subgraph := .ofSchemaText <|
  "schema \x7b query: Root \x7d type Root \x7b r: Root " ++
    "t: T @provides(fields: \"... on Root \x7b x \x7d\") x: Int \x7d union T = Root"

/-- The same with the canonical name. -/
def canonicalCondition : Subgraph := .ofSchemaText <|
  "schema \x7b query: Query \x7d type Query \x7b r: Query " ++
    "t: T @provides(fields: \"... on Query \x7b x \x7d\") x: Int \x7d union T = Query"

/-- The document with the canonical name has a schema, and the other one has none. -/
theorem not_schema?_renames_staleCondition :
    staleCondition.document.Renames canonicalCondition.document ∧
    staleCondition.document.RenamesFreely ∧
    canonicalCondition.schema? = .ok canonicalCondition.schema ∧
    ¬ ∃ schema, staleCondition.schema? = .ok schema := by
  have hread : staleCondition.document.Renames canonicalCondition.document ∧
      staleCondition.document.RenamesFreely ∧
      canonicalCondition.schema? = .ok canonicalCondition.schema ∧
      staleCondition.document.faults staleCondition.name ≠ [] := by decide +kernel
  obtain ⟨hrenames, hfree, hschema, hfaults⟩ := hread
  exact ⟨hrenames, hfree, hschema, fun ⟨_, hs⟩ => hfaults (schema?_eq_ok_iff.1 hs).1⟩

end Subgraph

end Federation
