import Federation.Proofs.Subgraph.Normalized

/-!
# References within a schema

`TypeBody.Refers` asks of a body that every name which one of its fields, arguments, input fields,
interfaces or members refers to is defined, with a kind that fits.  The check of a subgraph finds
nothing wrong with its references exactly when the bodies of all declarations do that
(`typeReferenceFaults_eq_nil_iff`).  A contribution leaves out directives, and these refer to
nothing (`TypeBody.Refers.contribution`), so a checked batch declares what it refers to
(`refers_of_declares`).
-/

namespace Federation

/-- Whether a name is that of a built-in scalar, or is defined with a kind that fits. -/
def RefersTo (defines : Name → TypeKind → Prop) (fits : TypeKind → Prop) (n : Name) : Prop :=
  isBuiltInScalar n = false → ∃ k, defines n k ∧ fits k

/-- Whether an argument or input field is of a scalar, enum or input object type. -/
def InputValue.Refers (defines : Name → TypeKind → Prop) (v : InputValue) : Prop :=
  RefersTo defines (fun k => k.isInput = true) v.type.innerName

/-- Whether a field is not of an input object type, and its arguments are of input types. -/
def FieldDefinition.Refers (defines : Name → TypeKind → Prop) (f : FieldDefinition) : Prop :=
  RefersTo defines (fun k => k ≠ .inputObject) f.type.innerName ∧
    ∀ a ∈ f.arguments, a.2.Refers defines

/-- Whether everything that a body refers to is defined with a kind that fits, and an object or
interface has a field. -/
def TypeBody.Refers (defines : Name → TypeKind → Prop) : TypeBody → Prop
  | object is fs | interface is fs =>
    fs ≠ [] ∧ (∀ f ∈ fs, f.2.Refers defines) ∧ ∀ i ∈ is, defines i .interface
  | union ms => ∀ m ∈ ms, defines m .object
  | scalar | enum _ => True
  | inputObject vs => ∀ v ∈ vs, v.2.Refers defines

section Refers

variable {defines defines' : Name → TypeKind → Prop}

theorem RefersTo.mono (hd : ∀ n k, defines n k → defines' n k) {fits : TypeKind → Prop} {n : Name}
    (h : RefersTo defines fits n) : RefersTo defines' fits n := by
  intro hn
  obtain ⟨k, hk, hfits⟩ := h hn
  exact ⟨k, hd n k hk, hfits⟩

theorem FieldDefinition.Refers.mono (hd : ∀ n k, defines n k → defines' n k) {f : FieldDefinition}
    (h : f.Refers defines) : f.Refers defines' :=
  ⟨h.1.mono hd, fun a ha => (h.2 a ha).mono hd⟩

/-- More definitions do no harm. -/
theorem TypeBody.Refers.mono (hd : ∀ n k, defines n k → defines' n k) {b : TypeBody}
    (h : b.Refers defines) : b.Refers defines' := by
  cases b with
  | object is fs => exact ⟨h.1, fun f hf => (h.2.1 f hf).mono hd, fun i hi => hd _ _ (h.2.2 i hi)⟩
  | interface is fs =>
    exact ⟨h.1, fun f hf => (h.2.1 f hf).mono hd, fun i hi => hd _ _ (h.2.2 i hi)⟩
  | union ms => exact fun m hm => hd _ _ (h m hm)
  | scalar => trivial
  | enum vs => trivial
  | inputObject vs => exact fun v hv => (h v hv).mono hd

/-- What a body refers to, part by part. -/
theorem TypeBody.refers_iff {b : TypeBody} : b.Refers defines ↔
    (b.kind.hasFields = true → b.fields ≠ []) ∧ (∀ f ∈ b.fields, f.2.Refers defines) ∧
    (∀ i ∈ b.interfaces, defines i .interface) ∧ (∀ m ∈ b.members, defines m .object) ∧
    ∀ v ∈ b.inputs, v.2.Refers defines := by
  cases b <;> simp [Refers, kind, TypeKind.hasFields, fields, interfaces, members, inputs]

theorem FieldDefinition.Refers.contribution {f : FieldDefinition} (h : f.Refers defines) :
    f.contribution.Refers defines := by
  refine ⟨h.1, fun a ha => ?_⟩
  obtain ⟨b, hb, rfl⟩ := List.mem_map.1 ha
  exact h.2 b hb

/-! ### Bodies of declarations -/

/-- A body with the directives that the supergraph keeps. -/
def TypeBody.contribution : TypeBody → TypeBody
  | object is fs => object is (fs.map fun f => (f.1, f.2.contribution))
  | interface is fs => interface is (fs.map fun f => (f.1, f.2.contribution))
  | union ms => union ms
  | scalar => scalar
  | enum vs => enum (vs.map fun v => (v.1, v.2.contribution))
  | inputObject vs => inputObject (vs.map fun v => (v.1, v.2.contribution))

theorem TypeBody.Refers.contribution {b : TypeBody} (h : b.Refers defines) :
    b.contribution.Refers defines := by
  have hfields : ∀ {fs : List (Name × FieldDefinition)},
      (fs ≠ [] ∧ ∀ f ∈ fs, f.2.Refers defines) →
        (fs.map fun f => (f.1, f.2.contribution)) ≠ [] ∧
          ∀ f ∈ fs.map fun f => (f.1, f.2.contribution), f.2.Refers defines := by
    rintro fs ⟨hne, hall⟩
    refine ⟨by simpa using hne, fun f hf => ?_⟩
    obtain ⟨e, he, rfl⟩ := List.mem_map.1 hf
    exact (hall e he).contribution
  cases b with
  | object is fs => exact ⟨(hfields ⟨h.1, h.2.1⟩).1, (hfields ⟨h.1, h.2.1⟩).2, h.2.2⟩
  | interface is fs => exact ⟨(hfields ⟨h.1, h.2.1⟩).1, (hfields ⟨h.1, h.2.1⟩).2, h.2.2⟩
  | union ms => exact h
  | scalar => trivial
  | enum vs => trivial
  | inputObject vs =>
    intro v hv
    obtain ⟨e, he, rfl⟩ := List.mem_map.1 hv
    exact h e he

/-- The body that a declaration would have if it were written as one definition. -/
def TypeDeclaration.body (t : TypeDeclaration) : TypeBody :=
  .ofParts t.kind t.interfaces (t.fields.entries.map fun f => (f.1, f.2.definition)) t.members
    t.values.entries t.inputs.entries

theorem TypeDeclaration.kind_body (t : TypeDeclaration) : t.body.kind = t.kind :=
  TypeBody.kind_ofParts

theorem TypeDeclaration.mem_fields_body_iff {t : TypeDeclaration} {m : Name}
    {f : FieldDefinition} : (m, f) ∈ t.body.fields ↔
      t.kind.hasFields = true ∧ ∃ e, t.fields.get? m = some e ∧ e.definition = f := by
  rw [body, TypeBody.mem_fields_ofParts, Table.mem_map_entries_iff]

theorem TypeDeclaration.mem_values_body_iff {t : TypeDeclaration} {m : Name}
    {v : EnumValueDefinition} : (m, v) ∈ t.body.values ↔
      t.kind = .enum ∧ t.values.get? m = some v := by
  rw [body, TypeBody.mem_values_ofParts, Table.get?_eq_some_iff]

theorem TypeDeclaration.mem_inputs_body_iff {t : TypeDeclaration} {m : Name} {v : InputValue} :
    (m, v) ∈ t.body.inputs ↔ t.kind = .inputObject ∧ t.inputs.get? m = some v := by
  rw [body, TypeBody.mem_inputs_ofParts, Table.get?_eq_some_iff]

/-- A contribution keeps of a body all but some directives. -/
theorem body_contribution {types : Table TypeDeclaration} {subgraph : String} {n : Name}
    {version : FederationVersion} {t : TypeDeclaration} :
    ((annotateType types subgraph n t).contribution version).body = t.body.contribution := by
  have hfields : ((annotateType types subgraph n t).contribution version).fields.entries.map
      (fun f => (f.1, f.2.definition)) =
        (t.fields.entries.map fun f => (f.1, f.2.definition)).map
          fun f => (f.1, f.2.contribution) := by
    simp only [TypeDeclaration.contribution, annotateType, Table.mapEntries, List.map_map]
    refine List.map_congr_left fun f _ => ?_
    simp [FieldDeclaration.contribution]
  rw [TypeDeclaration.body, hfields]
  show TypeBody.ofParts t.kind t.interfaces _ t.members _ _ = t.body.contribution
  rw [TypeDeclaration.body]
  cases t.kind <;> rfl

end Refers

/-! ### What the check of a subgraph guarantees -/

section Checks

variable {types : Table TypeDeclaration} {n : Name} {t : TypeDeclaration}

theorem outputFaults_eq_nil_iff {part : Coordinate} : outputFaults types part n = [] ↔
    RefersTo (fun n k => kindOf? types n = some k) (fun k => k ≠ .inputObject) n := by
  unfold outputFaults RefersTo
  cases isBuiltInScalar n with
  | true => simp
  | false =>
    cases hk : kindOf? types n with
    | none => simp [hk]
    | some k => cases k <;> simp [hk]

theorem inputFaults_eq_nil_iff {part : Coordinate} : inputFaults types part n = [] ↔
    RefersTo (fun n k => kindOf? types n = some k) (fun k => k.isInput = true) n := by
  unfold inputFaults RefersTo
  cases isBuiltInScalar n with
  | true => simp
  | false =>
    cases hk : kindOf? types n with
    | none => simp [hk]
    | some k => simp [hk]

theorem fieldReferenceFaults_eq_nil_iff {m : Name} {f : FieldDefinition} :
    fieldReferenceFaults types n m f = [] ↔ f.Refers fun n k => kindOf? types n = some k := by
  rw [fieldReferenceFaults, List.append_eq_nil_iff, outputFaults_eq_nil_iff,
    List.flatMap_eq_nil_iff]
  simp only [inputFaults_eq_nil_iff, FieldDefinition.Refers, InputValue.Refers]

/-- **What the check of references checks**: nothing is wrong with a declaration exactly when all
that it refers to is declared with a kind that fits. -/
theorem typeReferenceFaults_eq_nil_iff : typeReferenceFaults types n t = [] ↔
    t.body.Refers fun n k => kindOf? types n = some k := by
  have hempty : t.fields.isEmpty = true ↔ t.fields.entries = [] := List.isEmpty_iff
  unfold typeReferenceFaults TypeDeclaration.body
  cases t.kind <;>
    simp only [TypeBody.ofParts, TypeBody.Refers, List.append_eq_nil_iff, List.flatMap_eq_nil_iff,
      List.map_eq_nil_iff, List.filter_eq_nil_iff, fieldReferenceFaults_eq_nil_iff,
      inputFaults_eq_nil_iff, InputValue.Refers, List.forall_mem_map, hempty, ite_eq_right_iff,
      decide_eq_true_eq, not_not, ne_eq, reduceCtorEq, imp_false, and_assoc]

/-- What a subgraph declares refers to what it declares. -/
theorem Subgraph.refers_of_faults {s : Subgraph} (hfaults : s.document.faults s.name = [])
    {d : TypeDeclaration} (hd : s.schema.contribution.types.get? n = some d) :
    d.body.Refers fun n k => ∃ d, s.schema.contribution.types.get? n = some d ∧ d.kind = k := by
  rw [Subgraph.get?_types_contribution] at hd
  obtain ⟨t, ht, rfl⟩ := Option.map_eq_some_iff.1 hd
  have htype := Document.typeReferenceFaults_eq_nil hfaults ht
  rw [body_contribution]
  refine (typeReferenceFaults_eq_nil_iff.1 htype).contribution.mono fun n k hk => ?_
  obtain ⟨u, hu, rfl⟩ := Option.map_eq_some_iff.1 hk
  rw [Subgraph.get?_types_contribution, hu]
  exact ⟨_, rfl, rfl⟩

/-- So does what a checked batch declares. -/
theorem refers_of_declares {batch : List Subgraph} {schemas : List Schema}
    (h : schemas? batch = .ok schemas) {d : TypeDeclaration}
    (hd : Declares (schemas.map Schema.contribution) n d) :
    d.body.Refers fun n k =>
      ∃ d, Declares (schemas.map Schema.contribution) n d ∧ d.kind = k := by
  obtain ⟨s, _, hfaults, hmem, hd⟩ := exists_subgraph_of_declares h hd
  refine (Subgraph.refers_of_faults hfaults hd).mono ?_
  rintro n _ ⟨e, he, rfl⟩
  exact ⟨e, ⟨_, hmem, he⟩, rfl⟩

end Checks

end Federation
