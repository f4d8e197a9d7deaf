import Federation.Composition

/-!
# Graphs without conflicts

What it means for a merged graph that one of its checks finds nothing, said by look-ups: every
field of an object type has a resolver (`baseConflicts_eq_nil_iff`), fields with several resolvers
are shareable in all of them (`sharingConflicts_eq_nil_iff`), and types have the fields of the
interfaces that they implement, with types that are admitted and with all arguments
(`implementationConflicts_eq_nil_iff`).
-/

namespace Federation

/-- The type of an argument of a field. -/
def FieldDefinition.argumentType? (f : FieldDefinition) (x : Name) : Option TypeRef :=
  (f.arguments.find? fun a => a.1 = x).map fun a => a.2.type

theorem Table.mem_entries_iff {α : Type} {t : Table α} {e : Name × α} :
    e ∈ t.entries ↔ t.get? e.1 = some e.2 := Table.get?_eq_some_iff.symm

theorem conflicts_eq_nil_iff {contributions : List Schema} :
    conflicts contributions = [] ↔
      mergeConflicts (contributions.map (·.name)) (Graph.ofSchemas contributions).nameOf ∅
        (contributed contributions) = [] ∧
      (Graph.ofSchemas contributions).baseConflicts = [] ∧
      (Graph.ofSchemas contributions).sharingConflicts = [] ∧
      (Graph.ofSchemas contributions).implementationConflicts = [] := by
  simp only [conflicts, List.append_eq_nil_iff, and_assoc]

namespace Graph

variable {g : Graph}

theorem baseConflicts_eq_nil_iff :
    g.baseConflicts = [] ↔ ∀ n t, g.types.get? n = some t → ∀ m f, t.fields.get? m = some f →
      t.kind = .object → f.resolvers.isEmpty = false := by
  simp only [baseConflicts, List.flatMap_eq_nil_iff, List.filterMap_eq_nil_iff,
    Table.mem_entries_iff, Prod.forall]
  refine forall₃_congr fun n t _ => forall₃_congr fun m f _ => ?_
  by_cases hk : t.kind = .object <;> simp [hk]

theorem sharingConflicts_eq_nil_iff :
    g.sharingConflicts = [] ↔ ∀ n t, g.types.get? n = some t → ∀ m f, t.fields.get? m = some f →
      t.kind = .object → 2 ≤ f.resolvers.size → ∀ i ∈ f.resolvers, i ∈ f.shareableIn := by
  simp only [sharingConflicts, List.flatMap_eq_nil_iff, List.filterMap_eq_nil_iff,
    Table.mem_entries_iff, Prod.forall]
  refine forall₃_congr fun n t _ => forall₃_congr fun m f _ => ?_
  have hempty : (f.resolvers.filter fun i => i ∉ f.shareableIn).isEmpty = true ↔
      ∀ i ∈ f.resolvers, i ∈ f.shareableIn := by
    rw [SubgraphSet.isEmpty_iff]
    simp
  by_cases hk : t.kind = .object
  · by_cases hs : 2 ≤ f.resolvers.size
    · simp [hk, hs, ← hempty]
    · simp [hk, hs]
  · simp [hk]

theorem argumentConflicts_eq_nil_iff {type interface name : Name} {f asked : FieldDefinition} :
    argumentConflicts type interface name f asked = [] ↔
      ∀ x v, (x, v) ∈ asked.arguments → f.argumentType? x = some v.type := by
  simp only [argumentConflicts, List.filterMap_eq_nil_iff, Prod.forall,
    FieldDefinition.argumentType?]
  refine forall₃_congr fun x v _ => ?_
  cases f.arguments.find? fun b => b.1 = x with
  | none => simp
  | some b => simp

theorem fieldConflicts_eq_nil_iff {n i m : Name} {t : TypeNode} {asked : FieldDefinition} :
    g.fieldConflicts n t i m asked = [] ↔ ∃ f, t.fields.get? m = some f ∧
      g.admitsType f.definition.type asked.type = true ∧
      ∀ x v, (x, v) ∈ asked.arguments → f.definition.argumentType? x = some v.type := by
  unfold fieldConflicts
  cases t.fields.get? m with
  | none => simp
  | some f => simp [argumentConflicts_eq_nil_iff]

theorem interfaceConflicts_eq_nil_iff {n i : Name} {t : TypeNode} :
    g.interfaceConflicts n t i = [] ↔ ∃ a, g.types.get? i = some a ∧ a.kind = .interface ∧
      ∀ m asked, a.fields.get? m = some asked →
        g.fieldConflicts n t i m asked.definition = [] := by
  unfold interfaceConflicts
  cases g.types.get? i with
  | none => simp
  | some a =>
    by_cases hk : a.kind = .interface
    · simp [hk, List.flatMap_eq_nil_iff, Table.mem_entries_iff]
    · simp [hk]

theorem implementationConflicts_eq_nil_iff :
    g.implementationConflicts = [] ↔ ∀ n t, g.types.get? n = some t → t.kind.hasFields = true →
      ∀ i s, t.interfaces.get? i = some s → ∃ a, g.types.get? i = some a ∧ a.kind = .interface ∧
        ∀ m asked, a.fields.get? m = some asked → ∃ f, t.fields.get? m = some f ∧
          g.admitsType f.definition.type asked.definition.type = true ∧
          ∀ x v, (x, v) ∈ asked.definition.arguments →
            f.definition.argumentType? x = some v.type := by
  simp only [implementationConflicts, List.flatMap_eq_nil_iff, Table.mem_entries_iff, Prod.forall]
  refine forall₃_congr fun n t _ => ?_
  by_cases hk : t.kind.hasFields = true
  · simp only [hk, if_true, List.flatMap_eq_nil_iff, Table.mem_names_iff, forall_exists_index,
      interfaceConflicts_eq_nil_iff, fieldConflicts_eq_nil_iff, true_implies]
  · simp [hk]

end Graph

end Federation
