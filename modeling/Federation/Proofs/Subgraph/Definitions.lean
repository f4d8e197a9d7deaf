import Federation.Proofs.Subgraph.Normalized
import Federation.Proofs.Supergraph.Canonical
import Mathlib.Data.List.Basic

/-!
# Definitions with kept directives

Blocks that define different types and list nothing twice assemble to one declaration each
(`Assembly.ofBlocks_of_distinct`), with the body of the block (`Block.body_declaration`).  If the
directives in it are among those that a supergraph keeps, nothing is wrong with them, they annotate
no field, and what is contributed has the same body and directives
(`body_contribution_declaration`).
-/

namespace Federation

/-! ### Kept directives -/

section Persisted

variable {ds : List Directive}

theorem canonicalName_persistedNames : ∀ n ∈ persistedNames, canonicalName n = n.text := by decide

/-- Kept directives have no canonical name but their own. -/
theorem canonicalName_ne {n : Name} (h : n ∈ persistedNames) {name : String}
    (hname : ∀ m ∈ persistedNames, m.text ≠ name) : canonicalName n ≠ name := by
  rw [canonicalName_persistedNames n h]
  exact hname n h

theorem Directive.persisted?_of_mem {d : Directive} (h : d.name ∈ persistedNames) :
    d.persisted? = some d := by
  have hfind : ∀ n ∈ persistedNames,
      (persistedNames.find? fun m => m.text == canonicalName n) = some n := by decide
  rw [persisted?, hfind d.name h]
  rfl

theorem Persisted.persistedDirectives_eq (h : Persisted ds) : persistedDirectives ds = ds := by
  have hall : ∀ d ∈ ds, d.persisted? = some d := fun d hd => Directive.persisted?_of_mem (h d hd)
  rw [persistedDirectives, List.filterMap_congr hall, List.filterMap_some]

/-- None of the kept directives is one that composition goes by. -/
theorem Persisted.hasDirective_eq_false (h : Persisted ds) {name : String}
    (hname : ∀ n ∈ persistedNames, n.text ≠ name) : hasDirective ds name = false := by
  rw [hasDirective, List.any_eq_false]
  intro d hd
  simpa using canonicalName_ne (h d hd) hname

/-- Kept directives may stand anywhere but on the schema, any number of times. -/
theorem Persisted.placementFaults_eq_nil (h : Persisted ds) {target : DirectiveTarget}
    (htarget : target ≠ .schema) {part : Coordinate} {applied : List String} :
    placementFaults target part applied ds = [] := by
  have hrules : ∀ n ∈ persistedNames,
      ∀ r ∈ DirectiveRule.all.find? fun r => r.name == canonicalName n,
        r.supported = true ∧ r.repeatable = true ∧ r.targets = DirectiveTarget.anywhere := by
    decide
  have hanywhere : target ∈ DirectiveTarget.anywhere := by
    cases target with
    | type kind => cases kind <;> decide
    | schema => exact absurd rfl htarget
    | _ => decide
  refine placementFaults_eq_nil_iff.2 ⟨fun d hd r hr => ?_, ?_⟩
  · obtain ⟨hsupported, hrepeatable, htargets⟩ := hrules d.name (h d hd) r hr
    refine ⟨hsupported, htargets ▸ hanywhere, fun hn => ?_⟩
    rw [hrepeatable] at hn
    cases hn
  · exact List.pairwise_of_forall_mem_list fun d hd _ _ r hr _ =>
      (hrules d.name (h d hd) r hr).2.1

theorem FieldDefinition.Persisted.contribution_eq {f : FieldDefinition} (h : f.Persisted) :
    f.contribution = f := by
  have hargs : f.arguments.map (fun a => (a.1, a.2.contribution)) = f.arguments := by
    refine (List.map_congr_left fun a ha => ?_).trans (List.map_id f.arguments)
    rw [InputValue.contribution, (h.2 a ha).persistedDirectives_eq]
    rfl
  rw [contribution, hargs, h.1.persistedDirectives_eq]

theorem TypeBody.Persisted.contribution_eq {b : TypeBody} (h : b.Persisted) :
    b.contribution = b := by
  have hfields : ∀ {fs : List (Name × FieldDefinition)}, (∀ f ∈ fs, f.2.Persisted) →
      (fs.map fun f => (f.1, f.2.contribution)) = fs := by
    intro fs hfs
    refine (List.map_congr_left fun f hf => ?_).trans (List.map_id fs)
    rw [(hfs f hf).contribution_eq]
    rfl
  cases b with
  | object is fs => exact congrArg (object is) (hfields h)
  | interface is fs => exact congrArg (interface is) (hfields h)
  | union ms => rfl
  | scalar => rfl
  | enum vs =>
    refine congrArg enum ((List.map_congr_left fun v hv => ?_).trans (List.map_id vs))
    rw [EnumValueDefinition.contribution, (h v hv).persistedDirectives_eq]
    rfl
  | inputObject vs =>
    refine congrArg inputObject ((List.map_congr_left fun v hv => ?_).trans (List.map_id vs))
    rw [InputValue.contribution, (h v hv).persistedDirectives_eq]
    rfl

end Persisted

/-! ### Assembling definitions -/

namespace Block

variable {b : Block}

/-- What a block declares on its own. -/
def declaration (b : Block) : TypeDeclaration :=
  ({ kind := b.body.kind } : TypeDeclaration).absorb b

theorem entries_fields_declaration (hb : b.body.Distinct) :
    b.declaration.fields.entries = b.body.fields.map fun f => (f.1, b.declare f.2) := by
  refine (Table.entries_addNew ?_).trans (List.nil_append _)
  rw [Table.names_empty, List.nil_append, List.map_map]
  exact hb.fields

theorem entries_values_declaration (hb : b.body.Distinct) :
    b.declaration.values.entries = b.body.values := by
  refine (Table.entries_addNew ?_).trans (List.nil_append _)
  rw [Table.names_empty, List.nil_append]
  exact hb.values

theorem entries_inputs_declaration (hb : b.body.Distinct) :
    b.declaration.inputs.entries = b.body.inputs := by
  refine (Table.entries_addNew ?_).trans (List.nil_append _)
  rw [Table.names_empty, List.nil_append]
  exact hb.inputs

theorem interfaces_declaration (hb : b.body.Distinct) :
    b.declaration.interfaces = b.body.interfaces :=
  appendNew_of_nodup hb.interfaces

theorem members_declaration (hb : b.body.Distinct) : b.declaration.members = b.body.members :=
  appendNew_of_nodup hb.members

/-- A block that lists nothing twice declares its body. -/
theorem body_declaration (hb : b.body.Distinct) : b.declaration.body = b.body := by
  have hfields : (b.declaration.fields.entries.map fun f => (f.1, f.2.definition)) =
      b.body.fields := by
    rw [entries_fields_declaration hb, List.map_map]
    exact List.map_id _
  rw [TypeDeclaration.body, hfields, entries_values_declaration hb, entries_inputs_declaration hb,
    interfaces_declaration hb, members_declaration hb]
  exact TypeBody.ofParts_self b.body

theorem redefinitions_eq_nil (hb : b.body.Distinct) :
    ({ kind := b.body.kind } : TypeDeclaration).redefinitions b.name b = [] := by
  simp only [TypeDeclaration.redefinitions, Table.names_empty, List.append_eq_nil_iff,
    List.map_eq_nil_iff, TypeDeclaration.fieldRedefinitions_eq_nil_iff, repeats_eq_nil_iff,
    List.not_mem_nil, not_false_eq_true, implies_true, and_true, true_and]
  exact ⟨⟨⟨hb.fields, hb.arguments⟩, hb.values⟩, hb.inputs⟩

end Block

namespace Assembly

theorem add_of_new {a : Assembly} {b : Block} (hdef : b.isDefinition = true)
    (hdefined : b.name ∉ a.defined) (hnew : b.name ∉ a.types.names) (hb : b.body.Distinct) :
    a.add b = ⟨a.types.alter b.name fun _ => b.declaration, b.name :: a.defined, a.faults⟩ := by
  have hget : a.types.get? b.name = none := Table.get?_eq_none_iff.2 hnew
  unfold add
  simp [hdef, hdefined, hget, Block.redefinitions_eq_nil hb, Block.declaration]

/-- Such blocks add their declarations, and no faults. -/
theorem foldl_add_of_new {bs : List Block} {a : Assembly} (hdef : ∀ b ∈ bs, b.isDefinition = true)
    (hdist : ∀ b ∈ bs, b.body.Distinct) (hnames : (a.types.names ++ bs.map (·.name)).Nodup)
    (hdefined : ∀ n ∈ a.defined, n ∈ a.types.names) :
    (bs.foldl add a).faults = a.faults ∧ (bs.foldl add a).types =
      bs.foldl (fun t b => t.alter b.name fun _ => b.declaration) a.types := by
  induction bs generalizing a with
  | nil => exact ⟨rfl, rfl⟩
  | cons b bs ih =>
    obtain ⟨hbdef, hdef⟩ := List.forall_mem_cons.1 hdef
    obtain ⟨hbdist, hdist⟩ := List.forall_mem_cons.1 hdist
    have hnew : b.name ∉ a.types.names := fun hmem =>
      (List.nodup_append.1 hnames).2.2 _ hmem _ List.mem_cons_self rfl
    have hadd := add_of_new hbdef (fun h => hnew (hdefined _ h)) hnew hbdist
    have hadded : (a.add b).types.names = a.types.names ++ [b.name] := by
      rw [hadd, Table.names_alter, if_neg hnew]
    -- what is new stays new: the names that are taken grow by the name of the block
    have hrest : ((a.add b).types.names ++ bs.map (·.name)).Nodup := by
      rw [hadded, List.append_assoc]
      exact hnames
    have hall : ∀ n ∈ (a.add b).defined, n ∈ (a.add b).types.names := by
      rw [hadded, hadd]
      refine List.forall_mem_cons.2 ⟨by simp, fun n hn => ?_⟩
      exact List.mem_append_left _ (hdefined n hn)
    obtain ⟨hfaults, htypes⟩ := ih hdef hdist hrest hall
    rw [List.foldl_cons, List.foldl_cons, hfaults, htypes, hadd]
    exact ⟨rfl, rfl⟩

/-- Blocks of different names that are definitions and list nothing twice assemble without faults,
each to a declaration of its own. -/
theorem ofBlocks_of_distinct {bs : List Block} (hnames : (bs.map (·.name)).Nodup)
    (hdef : ∀ b ∈ bs, b.isDefinition = true) (hdist : ∀ b ∈ bs, b.body.Distinct) :
    (ofBlocks bs).faults = [] ∧
      (ofBlocks bs).types.entries = bs.map fun b => (b.name, b.declaration) := by
  have hempty : ((∅ : Table TypeDeclaration).names ++ bs.map (·.name)).Nodup := by
    rw [Table.names_empty, List.nil_append]
    exact hnames
  obtain ⟨hfaults, htypes⟩ := foldl_add_of_new (a := {}) hdef hdist hempty fun _ h => by cases h
  refine ⟨hfaults, ?_⟩
  rw [ofBlocks, htypes]
  exact (Table.entries_foldl_alter (fun b : Block => b.name) (fun b _ => b.declaration)
    hempty).trans (List.nil_append _)

end Assembly

/-! ### Annotations of kept directives -/

section Annotations

variable {types : Table TypeDeclaration} {subgraph : String} {n m : Name}

theorem annotationFaults_eq_nil {f : FieldDefinition} {d : Directive}
    (h : d.name ∈ persistedNames) : annotationFaults types subgraph n m f d = [] := by
  unfold annotationFaults
  split
  · rename_i hname
    exact absurd hname (canonicalName_ne h (by decide))
  · rename_i hname
    exact absurd hname (canonicalName_ne h (by decide))
  · rename_i hname
    exact absurd hname (canonicalName_ne h (by decide))
  · rfl

theorem Persisted.firstRead?_eq_none {ds : List Directive} (h : Persisted ds) {α : Type}
    {name : String} (hname : ∀ x ∈ persistedNames, x.text ≠ name)
    (read : Directive → Except Fault α) : firstRead? name read ds = none := by
  rw [firstRead?, List.findSome?_eq_none_iff]
  intro d hd
  simp [canonicalName_ne (h d hd) hname]

/-- Kept directives annotate a field with nothing. -/
theorem annotateField_declare {b : Block} {kind : TypeKind} {f : FieldDefinition}
    (h : Persisted f.directives) :
    annotateField types subgraph kind n m (b.declare f) = b.declare f := by
  unfold annotateField
  split
  · simp only [Block.declare]
    rw [h.firstRead?_eq_none (by decide), h.firstRead?_eq_none (by decide),
      h.firstRead?_eq_none (by decide)]
  · rfl

theorem keysOf_eq_nil {t : TypeDeclaration} (h : Persisted t.directives) :
    keysOf types n t = [] := by
  have hkeys : (t.directives.filter fun d => canonicalName d.name == "key") = [] := by
    rw [List.filter_eq_nil_iff]
    intro d hd
    have hne : canonicalName d.name ≠ "key" := canonicalName_ne (h d hd) (by decide)
    simpa using hne
  unfold keysOf
  rw [hkeys]
  split <;> rfl

variable {b : Block} (hdistinct : b.body.Distinct) (hdirectives : Persisted b.directives)
  (hbody : b.body.Persisted)

include hdistinct hdirectives hbody

/-- A declaration with kept directives alone has no annotations. -/
theorem annotateType_declaration : annotateType types subgraph n b.declaration = b.declaration := by
  have hfields : b.declaration.fields.mapEntries
      (annotateField types subgraph b.declaration.kind n) = b.declaration.fields := by
    refine Table.mapEntries_eq_self ?_
    rw [Block.entries_fields_declaration hdistinct]
    refine List.forall_mem_map.2 fun f hf => ?_
    exact annotateField_declare ((TypeBody.persisted_iff.1 hbody).1 f hf).1
  have hkeys : keysOf types n b.declaration = [] := keysOf_eq_nil hdirectives
  rw [annotateType, hfields, hkeys]
  rfl

/-- Nor is anything wrong with its directives. -/
theorem typeDirectiveFaults_declaration :
    typeDirectiveFaults types subgraph n b.declaration = [] := by
  obtain ⟨hfields, hvalues, hinputs⟩ := TypeBody.persisted_iff.1 hbody
  have hkeys : keysOf types n b.declaration = [] := keysOf_eq_nil hdirectives
  have htype : placementFaults (.type b.declaration.kind) (.type n) [] b.declaration.directives =
      [] := hdirectives.placementFaults_eq_nil (by simp)
  have htarget : DirectiveTarget.ofFieldOf b.declaration.kind ≠ .schema := by
    unfold DirectiveTarget.ofFieldOf
    split <;> simp
  rw [typeDirectiveFaults_eq_nil_iff, hkeys, Block.entries_fields_declaration hdistinct,
    Block.entries_values_declaration hdistinct, Block.entries_inputs_declaration hdistinct]
  refine ⟨htype, by simp, List.forall_mem_map.2 fun f hf => ?_, fun v hv => ?_, fun v hv => ?_⟩
  · obtain ⟨hfield, hargs⟩ := hfields f hf
    refine fieldDirectiveFaults_eq_nil_iff.2 ⟨hfield.placementFaults_eq_nil htarget,
      fun a ha => (hargs a ha).placementFaults_eq_nil (by simp), fun _ d hd => ?_⟩
    exact annotationFaults_eq_nil (hfield d hd)
  · exact (hvalues v hv).placementFaults_eq_nil (by simp)
  · exact (hinputs v hv).placementFaults_eq_nil (by simp)

/-- What it contributes has the same body and directives, and none of its fields is external or
annotated. -/
theorem body_contribution_declaration (version : FederationVersion) :
    (b.declaration.contribution version).body = b.body := by
  have h := @body_contribution ∅ "" b.name version b.declaration
  rw [annotateType_declaration hdistinct hdirectives hbody, Block.body_declaration hdistinct,
    hbody.contribution_eq] at h
  exact h

theorem plain_of_get?_fields_contribution_declaration {version : FederationVersion}
    {f : FieldDeclaration}
    (hf : (b.declaration.contribution version).fields.get? m = some f) :
    f.external = false ∧ f.requires = none ∧ f.overrides = none := by
  simp only [TypeDeclaration.contribution, Table.get?_mapEntries, Option.map_eq_some_iff] at hf
  obtain ⟨e, he, rfl⟩ := hf
  rw [Table.get?_eq_some_iff, Block.entries_fields_declaration hdistinct] at he
  obtain ⟨g, hg, heq⟩ := List.mem_map.1 he
  cases heq
  have hpersisted := ((TypeBody.persisted_iff.1 hbody).1 g hg).1
  have hexternal : (b.declare g.2).external = false := by
    show (hasDirective b.directives "external" || hasDirective g.2.directives "external") = false
    rw [hdirectives.hasDirective_eq_false (by decide),
      hpersisted.hasDirective_eq_false (by decide)]
    rfl
  refine ⟨?_, rfl, rfl⟩
  simp [FieldDeclaration.contribution, hexternal]

end Annotations

end Federation
