import Federation.Proofs.Graph.Merged

/-!
# Where merged definitions come from

The merge makes nothing up: the type of a merged field, each of its arguments and each of its
directives stands in one of its declarations (`FieldNode.madeOf_ofDeclarations?`), and so do the
types and directives of input fields and the directives of enum values and of types.  All of it is
kept by every step of the fold, whatever the order of the declarations.
-/

namespace Federation

/-! ### Fields -/

/-- Whether a field is put together from others: its type, each argument and each directive is
that of one of them. -/
structure FieldDefinition.MadeOf (source : FieldDefinition → Prop) (f : FieldDefinition) :
    Prop where
  type : ∃ g, source g ∧ f.type = g.type
  argument : ∀ a ∈ f.arguments, ∃ g, source g ∧ a ∈ g.arguments
  directive : ∀ d ∈ f.directives, ∃ g, source g ∧ d ∈ g.directives

section Fields

variable {source : FieldDefinition → Prop}

theorem FieldDefinition.madeOf_self {f : FieldDefinition} (h : source f) : f.MadeOf source :=
  ⟨⟨f, h, rfl⟩, fun _ ha => ⟨f, h, ha⟩, fun _ hd => ⟨f, h, hd⟩⟩

theorem FieldDefinition.MadeOf.mono {source' : FieldDefinition → Prop} {f : FieldDefinition}
    (h : f.MadeOf source) (hsource : ∀ g, source g → source' g) : f.MadeOf source' := by
  refine ⟨?_, fun a ha => ?_, fun d hd => ?_⟩
  · obtain ⟨g, hg, hgt⟩ := h.type
    exact ⟨g, hsource g hg, hgt⟩
  · obtain ⟨g, hg, hga⟩ := h.argument a ha
    exact ⟨g, hsource g hg, hga⟩
  · obtain ⟨g, hg, hgd⟩ := h.directive d hd
    exact ⟨g, hsource g hg, hgd⟩

theorem mem_of_mem_mergeArguments {merged new : List (Name × InputValue)} {a : Name × InputValue}
    (h : a ∈ mergeArguments merged new) : a ∈ merged ∨ a ∈ new :=
  (List.mem_append.1 h).imp_right fun h => (List.mem_filter.1 h).1

/-- A step of the merge puts a field together from itself and one more declaration. -/
theorem FieldNode.madeOf_settle {f : FieldNode} (hf : f.definition.MadeOf source)
    {d : FieldDeclaration} (hd : source d.definition) (i : SubgraphId) :
    (f.settle i d).1.MadeOf source := by
  have hargs : ∀ {merged new : FieldDefinition}, merged.MadeOf source → new.MadeOf source →
      ∀ a ∈ mergeArguments merged.arguments new.arguments, ∃ g, source g ∧ a ∈ g.arguments :=
    fun hm hn a ha => (mem_of_mem_mergeArguments ha).elim (hm.argument a) (hn.argument a)
  have hself := FieldDefinition.madeOf_self hd
  unfold settle
  split
  · exact ⟨hself.type, hargs hself hf, hself.directive⟩
  · exact hf
  · exact hf
  · refine ⟨hf.type, hargs hf hself, fun x hx => ?_⟩
    exact (mem_appendNew.1 hx).elim (hf.directive x) (hself.directive x)

theorem FieldNode.madeOf_ofDeclarations? {names : List String}
    {es : List (SubgraphId × FieldDeclaration)} {f : FieldNode}
    (h : ofDeclarations? names es = some f) :
    f.definition.MadeOf fun g => ∃ e ∈ es, e.2.definition = g := by
  obtain ⟨e, rest, hes, rfl⟩ := ofDeclarations?_eq_some_iff.1 h
  have he : e ∈ es := by simp [hes]
  refine List.foldlRecOn (motive := fun f : FieldNode => f.definition.MadeOf _) es _ ?_ ?_
  · exact FieldDefinition.madeOf_self ⟨e, he, rfl⟩
  · exact fun f hf d hd => madeOf_settle hf ⟨d, hd, rfl⟩ d.1

end Fields

/-! ### Other parts of types -/

namespace TypeNode

variable {names : List String} {kind : TypeKind} {ds : List (SubgraphId × TypeDeclaration)}
  {m : Name}

/-- A merged field is put together from the declarations of the field. -/
theorem madeOf_of_get?_fields {f : FieldNode}
    (h : (ofDeclarations names kind ds).fields.get? m = some f) :
    f.definition.MadeOf fun g => ∃ d ∈ ds, ∃ e, d.2.fields.get? m = some e ∧ e.definition = g := by
  rw [get?_fields] at h
  refine (FieldNode.madeOf_ofDeclarations? h).mono ?_
  rintro _ ⟨⟨i, e⟩, he, rfl⟩
  obtain ⟨d, hd, hf⟩ := mem_fieldsOf_iff.1 he
  exact ⟨(i, d), hd, e, hf, rfl⟩

/-- The type of a merged input field, and each of its directives, is that of a declaration. -/
theorem exists_of_get?_inputs {node : InputNode}
    (h : (ofDeclarations names kind ds).inputs.get? m = some node) :
    (∃ d ∈ ds, ∃ v, d.2.inputs.get? m = some v ∧ node.definition.type = v.type) ∧
      ∀ x ∈ node.definition.directives, ∃ d ∈ ds, ∃ v, d.2.inputs.get? m = some v ∧
        x ∈ v.directives := by
  revert node
  refine List.foldlRecOn (motive := fun t : TypeNode => ∀ {node}, t.inputs.get? m = some node →
    (∃ d ∈ ds, ∃ v, d.2.inputs.get? m = some v ∧ node.definition.type = v.type) ∧
      ∀ x ∈ node.definition.directives, ∃ d ∈ ds, ∃ v, d.2.inputs.get? m = some v ∧
        x ∈ v.directives) ds _ (fun h => by cases h) fun t ht d hd => ?_
  intro node h
  replace h : (d.2.inputs.mergeIn (InputNode.absorb d.1) t.inputs).get? m = some node := h
  rw [Table.get?_mergeIn] at h
  cases hv : d.2.inputs.get? m with
  | none =>
    rw [hv] at h
    exact ht h
  | some v =>
    rw [hv, Option.elim_some, Option.some.injEq] at h
    subst h
    cases hold : t.inputs.get? m with
    | none => exact ⟨⟨d, hd, v, hv, rfl⟩, fun x hx => ⟨d, hd, v, hv, hx⟩⟩
    | some old =>
      obtain ⟨htype, hdirective⟩ := ht hold
      refine ⟨htype, fun x hx => ?_⟩
      exact (mem_appendNew.1 hx).elim (hdirective x) fun hx => ⟨d, hd, v, hv, hx⟩

/-- Each directive of a merged enum value is one of a declaration. -/
theorem exists_of_get?_values {v : EnumValueDefinition}
    (h : (ofDeclarations names kind ds).values.get? m = some v) :
    ∀ x ∈ v.directives, ∃ d ∈ ds, ∃ w, d.2.values.get? m = some w ∧ x ∈ w.directives := by
  revert v
  refine List.foldlRecOn (motive := fun t : TypeNode => ∀ {v}, t.values.get? m = some v →
    ∀ x ∈ v.directives, ∃ d ∈ ds, ∃ w, d.2.values.get? m = some w ∧ x ∈ w.directives) ds _
    (fun h => by cases h) fun t ht d hd => ?_
  intro v h x hx
  replace h : (d.2.values.mergeIn EnumValueDefinition.absorb t.values).get? m = some v := h
  rw [Table.get?_mergeIn] at h
  cases hw : d.2.values.get? m with
  | none =>
    rw [hw] at h
    exact ht h x hx
  | some w =>
    rw [hw, Option.elim_some, Option.some.injEq] at h
    subst h
    cases hold : t.values.get? m with
    | none =>
      rw [hold] at hx
      exact ⟨d, hd, w, hw, hx⟩
    | some old =>
      rw [hold] at hx
      exact (mem_appendNew.1 hx).elim (ht hold x) fun hx => ⟨d, hd, w, hw, hx⟩

end TypeNode

end Federation
