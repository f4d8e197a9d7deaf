import Federation.Proofs.Graph.Agreement
import Federation.Proofs.Related

/-!
# Graphs that implement alike

The check of implementations reads little of a graph: the kinds of its types, which interfaces they
implement and which members they have, and the types of fields and arguments.  Two graphs are
`Alike` when they have the same of these, in whichever order and from whichever subgraphs; then the
check finds something in both of them or in neither (`Graph.Alike.implementationConflicts_eq_nil`).
-/

namespace Federation

/-- Fields with the same type and the same types of arguments. -/
structure FieldDefinition.Alike (f f' : FieldDefinition) : Prop where
  type : f'.type = f.type
  argument : ∀ x, f'.argumentType? x = f.argumentType? x

/-- Types of the same kind with the same fields, interfaces and members. -/
structure TypeNode.Alike (t t' : TypeNode) : Prop where
  kind : t'.kind = t.kind
  field : ∀ m, Option.Rel (fun f f' : FieldNode => f.definition.Alike f'.definition)
    (t.fields.get? m) (t'.fields.get? m)
  interface : ∀ i, i ∈ t'.interfaces.names ↔ i ∈ t.interfaces.names
  member : ∀ m, m ∈ t'.members.names ↔ m ∈ t.members.names

namespace Graph

/-- Whether two graphs have the same types, as far as implementations go. -/
def Alike (g g' : Graph) : Prop :=
  ∀ n, Option.Rel TypeNode.Alike (g.types.get? n) (g'.types.get? n)

/-- Whether no field of a graph repeats an argument. -/
def DistinctArguments (g : Graph) : Prop :=
  ∀ ⦃n t m f⦄, g.types.get? n = some t → t.fields.get? m = some f →
    (f.definition.arguments.map Prod.fst).Nodup

namespace Alike

variable {g g' : Graph} (hg : g.Alike g')

include hg

theorem isSubtype_eq (n super : Name) : g'.isSubtype n super = g.isSubtype n super := by
  unfold isSubtype
  congr 1
  rcases rel_cases (hg n) with ⟨h, h'⟩ | ⟨t, t', h, h', ht⟩
  · rw [h, h']
  · rcases rel_cases (hg super) with ⟨hs, hs'⟩ | ⟨s, s', hs, hs', hss⟩
    · rw [h, h', hs, hs']
    · have hmember : s'.members.contains n = s.members.contains n := by
        rw [Bool.eq_iff_iff, Table.contains_iff, Table.contains_iff, hss.member]
      have hinterface : t'.interfaces.contains super = t.interfaces.contains super := by
        rw [Bool.eq_iff_iff, Table.contains_iff, Table.contains_iff, ht.interface]
      simp only [h, h', hs, hs', hss.kind, hmember, hinterface]

theorem admitsType_eq (ref asked : TypeRef) : g'.admitsType ref asked = g.admitsType ref asked := by
  induction ref generalizing asked with
  | named n r => cases asked <;> simp only [admitsType, hg.isSubtype_eq]
  | list t r ih => cases asked <;> simp only [admitsType, ih]

/-- Where nothing is wrong with the implementations in a graph, nothing is in one that is alike. -/
theorem implementationConflicts_eq_nil (hargs : g.DistinctArguments)
    (hargs' : g'.DistinctArguments) (h : g.implementationConflicts = []) :
    g'.implementationConflicts = [] := by
  rw [implementationConflicts_eq_nil_iff] at h ⊢
  intro n t' ht' hkind' i s' hi'
  obtain ⟨t, ht, hrel⟩ := exists_of_rel_right (hg n) ht'
  obtain ⟨s, hi⟩ := Table.mem_names_iff.1
    ((hrel.interface i).1 (Table.mem_names_iff.2 ⟨s', hi'⟩))
  obtain ⟨a, haa, hkind, hall⟩ := h n t ht (by rw [← hrel.kind, hkind']) i s hi
  obtain ⟨a', ha', harel⟩ := exists_of_rel (hg i) haa
  refine ⟨a', ha', by rw [harel.kind, hkind], fun m asked' hasked' => ?_⟩
  obtain ⟨asked, hasked, hask⟩ := exists_of_rel_right (harel.field m) hasked'
  obtain ⟨f, hf, hadmits, hfargs⟩ := hall m asked hasked
  obtain ⟨f', hf', hff⟩ := exists_of_rel (hrel.field m) hf
  refine ⟨f', hf', ?_, fun x v hv => ?_⟩
  · rw [hg.admitsType_eq, hff.type, hask.type, hadmits]
  · -- The argument is asked for in the other graph as well, and given there.
    have hx : asked.definition.argumentType? x = some v.type := by
      rw [← hask.argument]
      exact (argumentType?_eq_some_iff (hargs' ha' hasked')).2 ⟨v, hv, rfl⟩
    obtain ⟨w, hw, hwt⟩ := (argumentType?_eq_some_iff (hargs haa hasked)).1 hx
    rw [hff.argument, hfargs x w hw, hwt]

end Alike

end Graph

end Federation
