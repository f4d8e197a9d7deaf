import Federation.Document.Definition

/-!
# Bodies by their parts

The kind of a body says which of its parts there are: fields and interfaces, members, values or
input fields.  `TypeBody.ofParts` makes a body of all of them and leaves out those that its kind
lacks; a body is made of its own parts (`ofParts_self`).
-/

namespace Federation.TypeBody

/-- The body of some kind that has the parts which belong to the kind. -/
def ofParts (kind : TypeKind) (interfaces : List Name) (fields : List (Name × FieldDefinition))
    (members : List Name) (values : List (Name × EnumValueDefinition))
    (inputs : List (Name × InputValue)) : TypeBody :=
  match kind with
  | .object => .object interfaces fields
  | .interface => .interface interfaces fields
  | .union => .union members
  | .scalar => .scalar
  | .enum => .enum values
  | .inputObject => .inputObject inputs

variable {kind : TypeKind} {interfaces : List Name} {fields : List (Name × FieldDefinition)}
  {members : List Name} {values : List (Name × EnumValueDefinition)}
  {inputs : List (Name × InputValue)}

@[simp] theorem kind_ofParts :
    (ofParts kind interfaces fields members values inputs).kind = kind := by
  cases kind <;> rfl

@[simp] theorem interfaces_ofParts :
    (ofParts kind interfaces fields members values inputs).interfaces =
      if kind.hasFields then interfaces else [] := by
  cases kind <;> rfl

@[simp] theorem fields_ofParts :
    (ofParts kind interfaces fields members values inputs).fields =
      if kind.hasFields then fields else [] := by
  cases kind <;> rfl

@[simp] theorem members_ofParts :
    (ofParts kind interfaces fields members values inputs).members =
      if kind = .union then members else [] := by
  cases kind <;> rfl

@[simp] theorem values_ofParts :
    (ofParts kind interfaces fields members values inputs).values =
      if kind = .enum then values else [] := by
  cases kind <;> rfl

@[simp] theorem inputs_ofParts :
    (ofParts kind interfaces fields members values inputs).inputs =
      if kind = .inputObject then inputs else [] := by
  cases kind <;> rfl

theorem mem_interfaces_ofParts {n : Name} :
    n ∈ (ofParts kind interfaces fields members values inputs).interfaces ↔
      kind.hasFields = true ∧ n ∈ interfaces := by
  cases kind <;> simp [TypeKind.hasFields]

theorem mem_fields_ofParts {f : Name × FieldDefinition} :
    f ∈ (ofParts kind interfaces fields members values inputs).fields ↔
      kind.hasFields = true ∧ f ∈ fields := by
  cases kind <;> simp [TypeKind.hasFields]

theorem mem_members_ofParts {n : Name} :
    n ∈ (ofParts kind interfaces fields members values inputs).members ↔
      kind = .union ∧ n ∈ members := by
  cases kind <;> simp

theorem mem_values_ofParts {v : Name × EnumValueDefinition} :
    v ∈ (ofParts kind interfaces fields members values inputs).values ↔
      kind = .enum ∧ v ∈ values := by
  cases kind <;> simp

theorem mem_inputs_ofParts {v : Name × InputValue} :
    v ∈ (ofParts kind interfaces fields members values inputs).inputs ↔
      kind = .inputObject ∧ v ∈ inputs := by
  cases kind <;> simp

theorem ofParts_self (b : TypeBody) :
    ofParts b.kind b.interfaces b.fields b.members b.values b.inputs = b := by
  cases b <;> rfl

/-- Only objects and interfaces have fields. -/
theorem hasFields_of_mem_fields {b : TypeBody} {e : Name × FieldDefinition} (h : e ∈ b.fields) :
    b.kind.hasFields = true := by
  cases b with
  | object => rfl
  | interface => rfl
  | _ => cases h

theorem hasFields_of_mem_interfaces {b : TypeBody} {i : Name} (h : i ∈ b.interfaces) :
    b.kind.hasFields = true := by
  cases b with
  | object => rfl
  | interface => rfl
  | _ => cases h

theorem kind_of_mem_members {b : TypeBody} {m : Name} (h : m ∈ b.members) :
    b.kind = .union := by
  cases b with
  | union => rfl
  | _ => cases h

theorem kind_of_mem_inputs {b : TypeBody} {v : Name × InputValue} (h : v ∈ b.inputs) :
    b.kind = .inputObject := by
  cases b with
  | inputObject => rfl
  | _ => cases h

end Federation.TypeBody
