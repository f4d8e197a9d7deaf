import Federation.Proofs.Graph.Alike
import Federation.Proofs.Subgraph.Normalized

/-!
# Composed supergraphs

A batch composes when nothing is wrong with its subgraphs, between them and on the walk
(`compose_eq_ok_iff`), and what it composes to are the definitions of the types of the merged graph.
The lemmas on `TypeNode.body` say what such a definition declares; its fields repeat no argument
(`Normalized.distinctArguments`).
-/

namespace Federation

/-! ### When a batch composes -/

theorem exists_of_isOk {r : Except (List CompositionError) Supergraph} (h : r.isOk = true) :
    ∃ s, r = .ok s := by
  cases r with
  | ok s => exact ⟨s, rfl⟩
  | error errors => cases h

theorem compose_eq_ok_iff {options : Options} {batch : List Subgraph} {s : Supergraph} :
    compose options batch = .ok s ↔ ∃ schemas, schemas? batch = .ok schemas ∧
      conflicts (schemas.map Schema.contribution) = [] ∧
      (options.disableResolvabilityValidation = true ∨ (graphOf schemas).unresolvables = []) ∧
      s = .ofGraph (graphOf schemas) := by
  unfold compose
  cases schemas? batch with
  | error errors => simp
  | ok schemas =>
    have herrors : (compositionErrors options schemas).isEmpty = true ↔
        conflicts (schemas.map Schema.contribution) = [] ∧
        (options.disableResolvabilityValidation = true ∨
          (graphOf schemas).unresolvables = []) := by
      rw [List.isEmpty_iff, compositionErrors, List.append_eq_nil_iff, List.map_eq_nil_iff]
      cases options.disableResolvabilityValidation <;> simp
    simp only [Except.ok.injEq, exists_eq_left']
    split
    · rename_i h
      obtain ⟨hc, hu⟩ := herrors.1 h
      rw [Except.ok.injEq, eq_comm]
      exact ⟨fun hs => ⟨hc, hu, hs⟩, fun hs => hs.2.2⟩
    · rename_i h
      rw [herrors] at h
      simp only [reduceCtorEq, false_iff]
      exact fun ⟨hc, hu, _⟩ => h ⟨hc, hu⟩

/-- What the subgraphs of a batch contribute, if nothing is wrong with them. -/
def contributionsOf (batch : List Subgraph) : List Schema :=
  batch.map fun s => s.schema.contribution

theorem contributionsOf_eq {batch : List Subgraph} {schemas : List Schema}
    (h : schemas? batch = .ok schemas) :
    schemas.map Schema.contribution = contributionsOf batch := by
  rw [(schemas?_eq_ok_iff.1 h).2, List.map_map]
  rfl

/-! ### Definitions of the types of a graph -/

namespace TypeNode

variable {t : TypeNode} {n : Name}

theorem body_eq : t.body = .ofParts t.kind t.interfaces.names
    (t.fields.entries.map fun f => (f.1, f.2.definition)) t.members.names t.values.entries
    (t.inputs.entries.map fun f => (f.1, f.2.definition)) := by
  unfold body TypeBody.ofParts
  cases t.kind <;> rfl

theorem kind_body : t.body.kind = t.kind := by
  rw [body_eq, TypeBody.kind_ofParts]

theorem mem_interfaces_body_iff :
    n ∈ t.body.interfaces ↔ t.kind.hasFields = true ∧ n ∈ t.interfaces.names := by
  rw [body_eq, TypeBody.mem_interfaces_ofParts]

theorem mem_fields_body_iff {d : FieldDefinition} : (n, d) ∈ t.body.fields ↔
    t.kind.hasFields = true ∧ ∃ f, t.fields.get? n = some f ∧ f.definition = d := by
  rw [body_eq, TypeBody.mem_fields_ofParts, Table.mem_map_entries_iff]

theorem mem_members_body_iff :
    n ∈ t.body.members ↔ t.kind = .union ∧ n ∈ t.members.names := by
  rw [body_eq, TypeBody.mem_members_ofParts]

theorem mem_values_body_iff {v : EnumValueDefinition} :
    (n, v) ∈ t.body.values ↔ t.kind = .enum ∧ t.values.get? n = some v := by
  rw [body_eq, TypeBody.mem_values_ofParts, Table.get?_eq_some_iff]

theorem mem_inputs_body_iff {v : InputValue} : (n, v) ∈ t.body.inputs ↔
    t.kind = .inputObject ∧ ∃ node, t.inputs.get? n = some node ∧ node.definition = v := by
  rw [body_eq, TypeBody.mem_inputs_ofParts, Table.mem_map_entries_iff]

end TypeNode

variable {schemas : List Schema}

/-! ### Arguments of merged fields -/

theorem nodup_mergeArguments {merged new : List (Name × InputValue)}
    (hmerged : (merged.map Prod.fst).Nodup) (hnew : (new.map Prod.fst).Nodup) :
    ((mergeArguments merged new).map Prod.fst).Nodup := by
  rw [mergeArguments, List.map_append]
  refine List.nodup_append.2 ⟨hmerged, hnew.sublist (List.filter_sublist.map _), ?_⟩
  intro x hx y hy hxy
  obtain ⟨a, ha, rfl⟩ := List.mem_map.1 hx
  obtain ⟨b, hb, hba⟩ := List.mem_map.1 hy
  -- What is appended is not there yet.
  have hnot := (List.mem_filter.1 hb).2
  simp only [Bool.not_eq_true', List.any_eq_false, decide_eq_true_eq] at hnot
  exact hnot a ha (hxy.trans hba.symm)

/-- A step of the merge repeats no argument that its declaration does not repeat. -/
theorem FieldNode.nodup_arguments_settle {f : FieldNode} {d : FieldDeclaration} (i : SubgraphId)
    (hf : (f.definition.arguments.map Prod.fst).Nodup)
    (hd : (d.definition.arguments.map Prod.fst).Nodup) :
    ((f.settle i d).1.arguments.map Prod.fst).Nodup := by
  unfold settle
  split
  · exact nodup_mergeArguments hd hf
  · exact hf
  · exact hf
  · exact nodup_mergeArguments hf hd

theorem FieldNode.nodup_arguments {names : List String}
    {es : List (SubgraphId × FieldDeclaration)}
    (hes : ∀ e ∈ es, (e.2.definition.arguments.map Prod.fst).Nodup) {f : FieldNode}
    (hf : ofDeclarations? names es = some f) : (f.definition.arguments.map Prod.fst).Nodup := by
  obtain ⟨e, rest, hcons, rfl⟩ := ofDeclarations?_eq_some_iff.1 hf
  refine List.foldlRecOn (motive := fun f : FieldNode =>
    (f.definition.arguments.map Prod.fst).Nodup) es _ ?_ ?_
  · exact hes e (by simp [hcons])
  · exact fun f hf d hd => nodup_arguments_settle d.1 hf (hes d hd)

/-- A merged field has every argument once. -/
theorem Normalized.distinctArguments (hn : Normalized schemas) :
    (Graph.ofSchemas schemas).DistinctArguments := by
  intro n t m f ht hf
  rw [get?_ofSchemas] at ht
  obtain ⟨d, _, rfl⟩ := Option.map_eq_some_iff.1 ht
  rw [TypeNode.get?_fields] at hf
  refine FieldNode.nodup_arguments (fun e he => ?_) hf
  obtain ⟨d', hd', hf'⟩ := TypeNode.mem_fieldsOf_iff.1 he
  exact hn.arguments ⟨d', declares_iff.2 ⟨e.1, (List.mem_filter.1 hd').1⟩, hf'⟩

end Federation
