import Federation.Proofs.Related
import Federation.Subgraph.Annotation

/-!
# What is looked up in the types

References are checked and field sets are read against all types of a subgraph.  Of a type that is
looked up nothing is seen but its kind and the types that its fields return, so tables that are
alike in that (`LookAlike`) give the same answers, whatever else their types have and in whichever
order.
-/

namespace Federation

/-- Tables of types that have the same kinds, and fields that return the same types. -/
def LookAlike (types types' : Table TypeDeclaration) : Prop :=
  ∀ n, Option.Rel (fun t t' => t'.kind = t.kind ∧ ∀ m,
      Option.Rel (fun f f' => f'.definition.type = f.definition.type)
        (t.fields.get? m) (t'.fields.get? m))
    (types.get? n) (types'.get? n)

namespace LookAlike

variable {types types' : Table TypeDeclaration} (h : LookAlike types types')

include h

/-! ### References -/

theorem kindOf?_eq (n : Name) : kindOf? types' n = kindOf? types n := by
  rcases rel_cases (h n) with ⟨hn, hn'⟩ | ⟨t, t', hn, hn', htt⟩
  · rw [kindOf?, kindOf?, hn, hn']
  · rw [kindOf?, kindOf?, hn, hn', Option.map_some, Option.map_some, htt.1]

theorem isCompositeType_eq (n : Name) : isCompositeType types' n = isCompositeType types n := by
  rw [isCompositeType, isCompositeType, h.kindOf?_eq]

theorem contains_eq (n : Name) : types'.contains n = types.contains n := by
  rw [Bool.eq_iff_iff, Table.contains_iff, Table.contains_iff, Table.mem_names_iff,
    Table.mem_names_iff]
  rcases rel_cases (h n) with ⟨hn, hn'⟩ | ⟨t, t', hn, hn', _⟩
  · rw [hn, hn']
  · simp [hn, hn']

theorem inputFaults_eq (part : Coordinate) (type : Name) :
    inputFaults types' part type = inputFaults types part type := by
  rw [inputFaults, inputFaults, h.kindOf?_eq]

theorem fieldReferenceFaults_eq (type field : Name) (f : FieldDefinition) :
    fieldReferenceFaults types' type field f = fieldReferenceFaults types type field f := by
  simp only [fieldReferenceFaults, outputFaults, h.kindOf?_eq, h.inputFaults_eq]

/-! ### Field sets -/

theorem misfit?_eq (parent : Name) (F : FieldSet) :
    misfit? types' parent F = misfit? types parent F := by
  induction F generalizing parent with
  | empty => rfl
  | field n sub rest ihs ihr =>
    have hfield : Option.Rel (fun f f' : FieldDeclaration =>
        f'.definition.type = f.definition.type)
        ((types.get? parent).bind fun p => p.fields.get? n)
        ((types'.get? parent).bind fun p => p.fields.get? n) := by
      rcases rel_cases (h parent) with ⟨hp, hp'⟩ | ⟨t, t', hp, hp', htt⟩
      · rw [hp, hp']
        exact .none
      · rw [hp, hp', Option.bind_some, Option.bind_some]
        exact htt.2 n
    rcases rel_cases hfield with ⟨hf, hf'⟩ | ⟨f, f', hf, hf', hff⟩
    · rw [misfit?, misfit?, hf, hf']
    · rw [misfit?, misfit?, hf, hf']
      simp only [hff, h.isCompositeType_eq, ihs, ihr]
  | fragment c sub rest ihs ihr =>
    rw [misfit?, misfit?, h.isCompositeType_eq, ihs, ihr]

theorem fieldSetOf_eq (part : Coordinate) (target : Name) (d : Directive) :
    fieldSetOf types' part target d = fieldSetOf types part target d := by
  simp only [fieldSetOf, selectionFault?, h.contains_eq, h.misfit?_eq]

/-! ### Annotations -/

theorem keyOf_eq (type : Name) (d : Directive) : keyOf types' type d = keyOf types type d := by
  rw [keyOf, keyOf, h.fieldSetOf_eq]

theorem providesOf_eq (part : Coordinate) (returns : Name) (d : Directive) :
    providesOf types' part returns d = providesOf types part returns d := by
  rw [providesOf, providesOf, h.isCompositeType_eq, h.fieldSetOf_eq]

theorem annotateField_eq (subgraph : String) (kind : TypeKind) (type field : Name)
    (f : FieldDeclaration) : annotateField types' subgraph kind type field f =
      annotateField types subgraph kind type field f := by
  simp only [annotateField, funext (h.providesOf_eq _ _), funext (h.fieldSetOf_eq _ _)]

theorem fieldDirectiveFaults_eq (subgraph : String) (kind : TypeKind) (type field : Name)
    (f : FieldDefinition) : fieldDirectiveFaults types' subgraph kind type field f =
      fieldDirectiveFaults types subgraph kind type field f := by
  have hannotation : annotationFaults types' subgraph type field f =
      annotationFaults types subgraph type field f := by
    funext d
    simp only [annotationFaults, h.providesOf_eq, h.fieldSetOf_eq]
  simp only [fieldDirectiveFaults, hannotation]

end LookAlike

end Federation
