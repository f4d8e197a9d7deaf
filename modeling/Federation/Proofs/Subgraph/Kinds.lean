import Federation.Proofs.Subgraph.Consistent
import Federation.Proofs.Subgraph.References
import Federation.Proofs.Subgraph.Roots

/-!
# Kinds of the types that are referred to

A name denotes the kind under which it is declared, and a built-in scalar only if it is not declared
(`denoted?`).  The fields and input fields of a schema refer to types in two roles, as what is
returned and as what is taken, and each `Role` admits some kinds.

The check of a subgraph compares roles and kinds for all names but those of built-in scalars, which
it lets pass unseen.  A document may declare a type of such a name, of any kind; so all references
of a checked subgraph denote kinds that fit exactly if none goes to a built-in name of which the
document has a block of an unfit kind (`Subgraph.kindsFit_iff`).
-/

namespace Federation

/-! ### References -/

/-- The two roles in which types are referred to. -/
inductive Role where
  /-- The type of a field. -/
  | output
  /-- The type of an argument or of an input field. -/
  | input
deriving DecidableEq

/-- Whether types of a kind can be referred to in a role. -/
def Role.Admits : Role → TypeKind → Prop
  | output, k => k ≠ .inputObject
  | input, k => k.isInput = true

instance (r : Role) (k : TypeKind) : Decidable (r.Admits k) := by
  cases r <;> unfold Role.Admits <;> infer_instance

/-- Scalars can be referred to in both roles. -/
theorem Role.admits_scalar (r : Role) : r.Admits .scalar := by
  cases r <;> decide

/-- What a field refers to, by its type and by its arguments. -/
def FieldDefinition.references (f : FieldDefinition) : List (Role × Name) :=
  (.output, f.type.innerName) :: f.arguments.map fun a => (.input, a.2.type.innerName)

/-- What a body refers to, by its fields and by its input fields. -/
def TypeBody.references (b : TypeBody) : List (Role × Name) :=
  b.fields.flatMap (fun f => f.2.references) ++
    b.inputs.map fun v => (.input, v.2.type.innerName)

/-- What a declaration refers to, by its fields and by its input fields. -/
def TypeDeclaration.references (t : TypeDeclaration) : List (Role × Name) :=
  t.fields.entries.flatMap (fun f => f.2.definition.references) ++
    t.inputs.entries.map fun v => (.input, v.2.type.innerName)

/-- The kind that a name denotes: that of the type declared under it, and otherwise a scalar if the
language has a scalar of the name. -/
def denoted? (types : Table TypeDeclaration) (n : Name) : Option TypeKind :=
  (kindOf? types n).or (if isBuiltInScalar n then some .scalar else none)

/-- A reference denotes a kind that its role admits. -/
def Denotes (types : Table TypeDeclaration) (r : Role × Name) : Prop :=
  ∃ k ∈ denoted? types r.2, r.1.Admits k

instance (types : Table TypeDeclaration) (r : Role × Name) : Decidable (Denotes types r) :=
  inferInstanceAs (Decidable (∃ k ∈ denoted? types r.2, r.1.Admits k))

/-- Everything that a schema refers to denotes a kind that fits. -/
def Schema.KindsFit (schema : Schema) : Prop :=
  ∀ e ∈ schema.types.entries, ∀ r ∈ e.2.references, Denotes schema.types r

instance (schema : Schema) : Decidable schema.KindsFit :=
  inferInstanceAs (Decidable (∀ e ∈ schema.types.entries, ∀ r ∈ e.2.references, _))

namespace Document

/-- A reference goes to the name of a built-in scalar, of which the document has a block of a kind
that does not fit. -/
def Misuses (d : Document) (r : Role × Name) : Prop :=
  isBuiltInScalar r.2 = true ∧ ∃ c ∈ oks d.blocks, c.name = r.2 ∧ ¬ r.1.Admits c.body.kind

instance (d : Document) (r : Role × Name) : Decidable (d.Misuses r) :=
  inferInstanceAs (Decidable (_ ∧ _))

/-- Some block of the document has such a reference. -/
def MisusesBuiltIn (d : Document) : Prop :=
  ∃ b ∈ oks d.blocks, ∃ r ∈ b.body.references, d.Misuses r

instance (d : Document) : Decidable d.MisusesBuiltIn :=
  inferInstanceAs (Decidable (∃ b ∈ oks d.blocks, ∃ r ∈ b.body.references, d.Misuses r))

end Document

/-! ### Annotations refer to nothing -/

section Annotations

variable {types : Table TypeDeclaration} {subgraph : String}

theorem references_annotateType (n : Name) (t : TypeDeclaration) :
    (annotateType types subgraph n t).references = t.references := by
  have hfields : (annotateType types subgraph n t).fields.entries.flatMap
      (fun f => f.2.definition.references) =
        t.fields.entries.flatMap fun f => f.2.definition.references := by
    simp only [annotateType, Table.mapEntries, List.flatMap_map, definition_annotateField]
  rw [TypeDeclaration.references, hfields]
  rfl

theorem kindOf?_annotate (n : Name) : kindOf? (annotate types subgraph) n = kindOf? types n := by
  rw [kindOf?, kindOf?, get?_annotate, Option.map_map]
  rfl

theorem denotes_annotate_iff {r : Role × Name} :
    Denotes (annotate types subgraph) r ↔ Denotes types r := by
  rw [Denotes, Denotes, denoted?, denoted?, kindOf?_annotate]

end Annotations

/-! ### References of declarations and of blocks -/

section Blocks

variable {bs : List Block} {t : TypeDeclaration} {r : Role × Name}

/-- A declaration refers to what its blocks refer to. -/
theorem TypeDeclaration.Gathered.mem_references_iff (h : Gathered bs t) :
    r ∈ t.references ↔ ∃ b ∈ bs, r ∈ b.body.references := by
  have hfields : t.fields.entries.flatMap (fun f => f.2.definition.references) =
      bs.flatMap fun b => b.body.fields.flatMap fun f => f.2.references := by
    rw [h.fields, List.flatMap_assoc]
    refine List.flatMap_congr fun b _ => ?_
    rw [Block.declaredFields, List.flatMap_map]
    rfl
  rw [references, hfields, h.inputs, List.map_flatMap]
  simp only [List.mem_append, TypeBody.references, List.mem_flatMap (l := bs)]
  constructor
  · rintro (⟨b, hb, hr⟩ | ⟨b, hb, hr⟩)
    · exact ⟨b, hb, .inl hr⟩
    · exact ⟨b, hb, .inr hr⟩
  · rintro ⟨b, hb, hr | hr⟩
    · exact .inl ⟨b, hb, hr⟩
    · exact .inr ⟨b, hb, hr⟩

/-- Only types that have fields or input fields refer to anything. -/
theorem TypeBody.exists_of_mem_references {b : TypeBody} (h : r ∈ b.references) :
    b.kind ≠ .object ∨ ∃ f, f ∈ b.fields := by
  cases b with
  | object is fs =>
    have hmem : r ∈ fs.flatMap fun f => f.2.references := by
      simpa only [references, fields, inputs, List.map_nil, List.append_nil] using h
    obtain ⟨f, hf, _⟩ := List.mem_flatMap.1 hmem
    exact .inr ⟨f, hf⟩
  | _ => exact .inl (by simp [kind])

theorem FieldDefinition.refers_iff {defines : Name → TypeKind → Prop} {f : FieldDefinition} :
    f.Refers defines ↔ ∀ r ∈ f.references, RefersTo defines r.1.Admits r.2 := by
  rw [references, List.forall_mem_cons, List.forall_mem_map]
  rfl

/-- A body that refers to what is defined does so with each of its references. -/
theorem TypeBody.Refers.refersTo {defines : Name → TypeKind → Prop} {b : TypeBody}
    (h : b.Refers defines) (hr : r ∈ b.references) : RefersTo defines r.1.Admits r.2 := by
  obtain ⟨_, hfields, _, _, hinputs⟩ := TypeBody.refers_iff.1 h
  rcases List.mem_append.1 hr with hr | hr
  · obtain ⟨f, hf, hr⟩ := List.mem_flatMap.1 hr
    exact FieldDefinition.refers_iff.1 (hfields f hf) r hr
  · obtain ⟨v, hv, rfl⟩ := List.mem_map.1 hr
    exact hinputs v hv

end Blocks

/-! ### Kinds that fit -/

theorem isBuiltInScalar_rootTypeNames : ∀ r ∈ rootTypeNames, isBuiltInScalar r = false := by decide

namespace Subgraph

variable {s : Subgraph}

/-- The check of references says of every reference but those to built-in scalars that it goes to a
type of a kind that fits. -/
theorem refersTo_of_mem_references (hfaults : s.document.faults s.name = []) {n : Name}
    {t : TypeDeclaration} (ht : s.document.declarations.get? n = some t) {r : Role × Name}
    (hr : r ∈ t.references) :
    RefersTo (fun n k => kindOf? s.document.declarations n = some k) r.1.Admits r.2 := by
  have hassembled : t.Assembled :=
    Document.assembled_of_get?_declarations (Document.assembly_faults_eq_nil hfaults) ht
  have hgathered := gathered_of_get?_declarations hfaults ht
  have hrefers : t.body.Refers fun n k => kindOf? s.document.declarations n = some k :=
    typeReferenceFaults_eq_nil_iff.1 (Document.typeReferenceFaults_eq_nil hfaults ht)
  -- Fields and input fields of a declaration belong to its kind, so they are in its body.
  rcases List.mem_append.1 hr with hr' | hr'
  · obtain ⟨e, he, hre⟩ := List.mem_flatMap.1 hr'
    have hget := Table.get?_eq_some_iff.2 he
    refine hrefers.refersTo (List.mem_append_left _ (List.mem_flatMap.2 ⟨(e.1, e.2.definition),
      TypeDeclaration.mem_fields_body_iff.2 ⟨hassembled.hasFields hget, _, hget, rfl⟩, hre⟩))
  · obtain ⟨e, he, rfl⟩ := List.mem_map.1 hr'
    have hkind := hgathered.kind_of_get?_inputs (Table.get?_eq_some_iff.2 he)
    refine hrefers.refersTo (List.mem_append_right _ (List.mem_map.2 ⟨e, ?_, rfl⟩))
    exact TypeDeclaration.mem_inputs_body_iff.2 ⟨hkind, Table.get?_eq_some_iff.2 he⟩

/-- **A reference denotes a kind that fits** exactly if it does not go to a built-in name of which
the document has a block of an unfit kind. -/
theorem denotes_iff (hfaults : s.document.faults s.name = []) {n : Name} {t : TypeDeclaration}
    (ht : s.document.declarations.get? n = some t) {r : Role × Name} (hr : r ∈ t.references) :
    Denotes s.document.declarations r ↔ ¬ s.document.Misuses r := by
  have hbs := consistent_blocks hfaults
  have hrefers := refersTo_of_mem_references hfaults ht hr
  cases hbuiltIn : isBuiltInScalar r.2 with
  | false =>
    obtain ⟨k, hk, hfits⟩ := hrefers hbuiltIn
    refine iff_of_true ⟨k, ?_, hfits⟩ fun h => ?_
    · rw [denoted?, hk]
      rfl
    · rw [h.1] at hbuiltIn
      cases hbuiltIn
  | true =>
    -- a root type without a block is not declared either, but it is not built in
    have hroot : r.2 ∉ rootTypeNames := by
      intro hmem
      rw [isBuiltInScalar_rootTypeNames _ hmem] at hbuiltIn
      cases hbuiltIn
    cases hk : kindOf? s.document.declarations r.2 with
    | none =>
      refine iff_of_true ⟨.scalar, ?_, r.1.admits_scalar⟩ ?_
      · -- A built-in name that the document does not declare is a scalar, which every role admits.
        rw [denoted?, hk, hbuiltIn]
        rfl
      · rintro ⟨_, c, hc, hname, _⟩
        obtain ⟨u, hu, _⟩ := Document.exists_declaration hbs hc (.inl (hname ▸ hroot))
        rw [kindOf?, ← hname, hu] at hk
        cases hk
    | some k =>
      have hdenoted : denoted? s.document.declarations r.2 = some k := by
        rw [denoted?, hk]
        rfl
      obtain ⟨u, hu, rfl⟩ := Option.map_eq_some_iff.1 hk
      rw [Denotes, hdenoted]
      simp only [Option.mem_def, Option.some.injEq, exists_eq_left', Document.Misuses, hbuiltIn,
        true_and, not_exists, not_and, not_not]
      exact TypeDeclaration.kind_iff_of_gathered? hbs
        ((Document.get?_declarations_eq_some_iff hbs).1 hu).1

/-- **The kinds of everything that a checked subgraph refers to fit** exactly if no reference of the
document goes to the name of a built-in scalar of which it has a block of an unfit kind.  This can
be told reference by reference: all others denote kinds that fit. -/
theorem kindsFit_iff {schema : Schema} (h : s.schema? = .ok schema) :
    (schema.KindsFit ↔ ¬ s.document.MisusesBuiltIn) ∧
    ∀ n t, schema.types.get? n = some t → ∀ r ∈ t.references,
      (Denotes schema.types r ↔ ¬ s.document.Misuses r) := by
  obtain ⟨hfaults, rfl⟩ := schema?_eq_ok_iff.1 h
  have hbs := consistent_blocks hfaults
  have heach : ∀ n t, s.schema.types.get? n = some t → ∀ r ∈ t.references,
      (Denotes s.schema.types r ↔ ¬ s.document.Misuses r) := by
    intro n t ht r hr
    rw [get?_types_schema] at ht
    obtain ⟨u, hu, rfl⟩ := Option.map_eq_some_iff.1 ht
    rw [references_annotateType] at hr
    exact denotes_annotate_iff.trans (denotes_iff hfaults hu hr)
  refine ⟨?_, heach⟩
  constructor
  · rintro hfit ⟨b, hb, r, hr, hmisuses⟩
    -- The block with the reference is declared, and the declaration has the reference.
    obtain ⟨t, ht, _⟩ := Document.exists_declaration hbs hb
      (.inr (TypeBody.exists_of_mem_references hr))
    have hget : s.schema.types.get? b.name =
        some (annotateType s.document.declarations s.name b.name t) := by
      rw [get?_types_schema, ht, Option.map_some]
    have hmem : r ∈ (annotateType s.document.declarations s.name b.name t).references := by
      rw [references_annotateType,
        (Document.gathered_of_get?_declarations hbs ht).mem_references_iff]
      exact ⟨b, List.mem_filter.2 ⟨hb, decide_eq_true rfl⟩, hr⟩
    exact (heach _ _ hget r hmem).1 (hfit _ (Table.get?_eq_some_iff.1 hget) r hmem) hmisuses
  · intro hnone e he r hr
    have hget := Table.get?_eq_some_iff.2 he
    refine (heach e.1 e.2 hget r hr).2 fun hmisuses => hnone ?_
    rw [get?_types_schema] at hget
    obtain ⟨t, ht, hte⟩ := Option.map_eq_some_iff.1 hget
    rw [← hte, references_annotateType,
      (Document.gathered_of_get?_declarations hbs ht).mem_references_iff] at hr
    obtain ⟨b, hb, hr⟩ := hr
    exact ⟨b, (List.mem_filter.1 hb).1, r, hr, hmisuses⟩

/-! ### Documents that define built-in names -/

/-- A document that defines two built-in names, one as an input object that only arguments refer to
and one as a scalar. -/
def definedScalars : Subgraph := .ofSchemaText <|
  "type Query \x7b a(x: [ID!]): Int \x7d input ID \x7b i: Int \x7d scalar Int"

/-- All its references fit. -/
theorem kindsFit_iff_definedScalars : definedScalars.schema? = .ok definedScalars.schema ∧
    ¬ definedScalars.document.MisusesBuiltIn ∧ definedScalars.schema.KindsFit := by
  have hread : definedScalars.schema? = .ok definedScalars.schema ∧
      ¬ definedScalars.document.MisusesBuiltIn := by decide +kernel
  exact ⟨hread.1, hread.2, (kindsFit_iff hread.1).1.2 hread.2⟩

/-- A document that defines a built-in name as an object type, to which an argument refers. -/
def objectAsScalar : Subgraph := .ofSchemaText <|
  "type Query \x7b a(x: Int): Query \x7d type Int \x7b b: Query \x7d"

/-- It is checked, and the argument is of an object type. -/
theorem not_kindsFit_objectAsScalar : objectAsScalar.schema? = .ok objectAsScalar.schema ∧
    ¬ objectAsScalar.schema.KindsFit := by
  decide +kernel

end Subgraph

end Federation
