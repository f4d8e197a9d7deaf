import Federation.Composition
import Federation.Proofs.Condition.Merging
import Federation.Proofs.Graph.Alike

/-!
# Conditions, conflicts and the supergraph

What is wrong between subgraphs is read off the definitions, the resolvers and the shareability of
fields, and the supergraph off the definitions.  No field set takes part in that, so graphs that are
equal but for conditions have the same conflicts (`EqualContributions.conflicts_eq`) and are the
same supergraph (`Graph.EqualUpTo.supergraph_eq`).
-/

namespace Federation

variable {sites : List String}

theorem FieldNode.EqualUpTo.resolvers_eq {type : Name} {returns : SubgraphId → Name}
    {f f' : FieldNode} (h : FieldNode.EqualUpTo sites type returns f f') :
    f'.resolvers = f.resolvers := by
  rw [resolvers, resolvers, overriddenIn, overriddenIn, h.declaredIn, h.externalIn, h.overrides]

namespace Graph.EqualUpTo

variable {returns : Name → Name → SubgraphId → Name} {g g' : Graph}
  (h : g.EqualUpTo sites returns g')

include h

theorem nameOf_eq : g'.nameOf = g.nameOf := by
  funext i
  rw [nameOf, nameOf, h.subgraphs]

theorem namesOf_eq (s : SubgraphSet) : g'.namesOf s = g.namesOf s := by
  rw [namesOf, namesOf, h.nameOf_eq]

theorem alike : g.Alike g' := by
  intro n
  refine rel_imp (h.types.get? n) fun t t' ht => ⟨ht.kind, fun m => ?_, ?_, ?_⟩
  · refine rel_imp (ht.fields.get? m) fun f f' hf => ⟨?_, fun x => ?_⟩
    · rw [hf.definition]
    · rw [hf.definition]
  · intro i
    rw [ht.interfaces]
  · intro m
    rw [ht.members]

/-! ### Conflicts -/

theorem baseConflicts_eq : g'.baseConflicts = g.baseConflicts := by
  refine h.types.flatMap_entries_eq fun n t t' ht => ?_
  refine ht.fields.filterMap_entries_eq fun m f f' hf => ?_
  simp only [ht.kind, hf.resolvers_eq, hf.declaredIn, h.namesOf_eq]

theorem sharingConflicts_eq : g'.sharingConflicts = g.sharingConflicts := by
  refine h.types.flatMap_entries_eq fun n t t' ht => ?_
  refine ht.fields.filterMap_entries_eq fun m f f' hf => ?_
  simp only [ht.kind, hf.resolvers_eq, hf.shareableIn, h.namesOf_eq]

theorem fieldConflicts_eq {n i m : Name} {t t' : TypeNode}
    (ht : TypeNode.EqualUpTo sites n (returns n) t t') (asked : FieldDefinition) :
    g'.fieldConflicts n t' i m asked = g.fieldConflicts n t i m asked := by
  unfold fieldConflicts
  rcases rel_cases (ht.fields.get? m) with ⟨hm, hm'⟩ | ⟨f, f', hm, hm', hf⟩
  · rw [hm, hm']
  · rw [hm, hm']
    simp only [hf.definition, h.alike.admitsType_eq]

theorem implementationConflicts_eq : g'.implementationConflicts = g.implementationConflicts := by
  refine h.types.flatMap_entries_eq fun n t t' ht => ?_
  have hinterface : g'.interfaceConflicts n t' = g.interfaceConflicts n t := by
    funext i
    unfold interfaceConflicts
    rcases rel_cases (h.types.get? i) with ⟨hi, hi'⟩ | ⟨a, a', hi, hi', ha⟩
    · rw [hi, hi']
    · rw [hi, hi']
      simp only [ha.kind]
      refine if_congr Iff.rfl ?_ rfl
      exact ha.fields.flatMap_entries_eq fun m f f' hf => by
        rw [h.fieldConflicts_eq ht, hf.definition]
  simp only [ht.kind, ht.interfaces, hinterface]

/-! ### The supergraph -/

/-- **Graphs that are equal but for conditions are the same supergraph.** -/
theorem supergraph_eq : Supergraph.ofGraph g' = Supergraph.ofGraph g := by
  have htypes : g'.types.entries.map (fun t => t.2.definition t.1) =
      g.types.entries.map fun t => t.2.definition t.1 := by
    refine h.types.map_entries_eq fun n t t' ht => ?_
    have hfields : t'.fields.entries.map (fun f => (f.1, f.2.definition)) =
        t.fields.entries.map fun f => (f.1, f.2.definition) :=
      ht.fields.map_entries_eq fun m f f' hf => by rw [hf.definition]
    simp only [TypeNode.definition, TypeNode.body, ht.description, ht.directives, ht.kind,
      ht.interfaces, hfields, ht.members, ht.values, ht.inputs]
  rw [Supergraph.ofGraph, Supergraph.ofGraph, htypes, version, version, h.subgraphs]

end Graph.EqualUpTo

/-- **Contributions that are equal but for conditions have the same conflicts.** -/
theorem EqualContributions.conflicts_eq {cs cs' : List Schema}
    (h : EqualContributions sites cs cs') : conflicts cs' = conflicts cs := by
  have hg := h.graph
  simp only [conflicts, h.names_eq, hg.nameOf_eq, hg.baseConflicts_eq, hg.sharingConflicts_eq,
    hg.implementationConflicts_eq, mergeConflicts_eq h.contributed Table.rel_empty]

end Federation
