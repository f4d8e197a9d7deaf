import Federation.Proofs.Graph.Origin
import Federation.Proofs.Subgraph.References
import Federation.Proofs.Supergraph.Composed

/-!
# Where the bodies of a supergraph come from

The body of a merged type is put together from the bodies of its declarations
(`TypeNode.madeOf_ofDeclarations`): whatever it lists, one of them lists under the same name.  So a
property of the parts of bodies passes from the declarations to the merged type; here it is the one
that asks for references to be defined (`TypeBody.MadeOf.refers`).
-/

namespace Federation

/-- Whether a body is put together from others: what it lists is listed by one of them, with the
type and the directives that it has there. -/
structure TypeBody.MadeOf (source : TypeBody → Prop) (b : TypeBody) : Prop where
  field : ∀ e ∈ b.fields, e.2.MadeOf fun f => ∃ c, source c ∧ (e.1, f) ∈ c.fields
  interface : ∀ i ∈ b.interfaces, ∃ c, source c ∧ i ∈ c.interfaces
  member : ∀ m ∈ b.members, ∃ c, source c ∧ m ∈ c.members
  value : ∀ e ∈ b.values, ∀ x ∈ e.2.directives,
    ∃ c, source c ∧ ∃ v, (e.1, v) ∈ c.values ∧ x ∈ v.directives
  inputType : ∀ e ∈ b.inputs, ∃ c, source c ∧ ∃ v, (e.1, v) ∈ c.inputs ∧ e.2.type = v.type
  inputDirective : ∀ e ∈ b.inputs, ∀ x ∈ e.2.directives,
    ∃ c, source c ∧ ∃ v, (e.1, v) ∈ c.inputs ∧ x ∈ v.directives

/-! ### Merged types -/

namespace TypeNode

variable {names : List String} {kind : TypeKind} {ds : List (SubgraphId × TypeDeclaration)}

/-- **The body of a merged type is put together from those of its declarations**, which are all of
its kind. -/
theorem madeOf_ofDeclarations (hds : ∀ d ∈ ds, d.2.kind = kind) :
    (ofDeclarations names kind ds).body.MadeOf fun b => ∃ d ∈ ds, d.2.body = b := by
  have hkind : (ofDeclarations names kind ds).kind = kind := kind_ofDeclarations
  -- Each part is traced to a declaration that has it.  A body shows a part only where its kind has
  -- such parts; the merged type shows this one, and the declaration is of the same kind.
  constructor
  case field =>
    rintro ⟨m, f⟩ hf
    obtain ⟨hfields, node, hnode, rfl⟩ := mem_fields_body_iff.1 hf
    refine (madeOf_of_get?_fields hnode).mono ?_
    rintro _ ⟨d, hd, e, he, rfl⟩
    refine ⟨d.2.body, ⟨d, hd, rfl⟩, TypeDeclaration.mem_fields_body_iff.2 ⟨?_, e, he, rfl⟩⟩
    rw [hds d hd, ← hkind, hfields]
  case interface =>
    intro i hi
    obtain ⟨hfields, hi⟩ := mem_interfaces_body_iff.1 hi
    obtain ⟨s, hs⟩ := Table.mem_names_iff.1 hi
    obtain ⟨⟨d, hd, hdi⟩, _⟩ := get?_interfaces_iff.1 hs
    refine ⟨d.2.body, ⟨d, hd, rfl⟩, TypeBody.mem_interfaces_ofParts.2 ⟨?_, hdi⟩⟩
    rw [hds d hd, ← hkind, hfields]
  case member =>
    intro m hm
    obtain ⟨hunion, hm⟩ := mem_members_body_iff.1 hm
    obtain ⟨s, hs⟩ := Table.mem_names_iff.1 hm
    obtain ⟨⟨d, hd, hdm⟩, _⟩ := get?_members_iff.1 hs
    refine ⟨d.2.body, ⟨d, hd, rfl⟩, TypeBody.mem_members_ofParts.2 ⟨?_, hdm⟩⟩
    rw [hds d hd, ← hkind, hunion]
  case value =>
    rintro ⟨m, v⟩ hv x hx
    obtain ⟨henum, hv⟩ := mem_values_body_iff.1 hv
    obtain ⟨d, hd, w, hw, hxw⟩ := exists_of_get?_values hv x hx
    refine ⟨d.2.body, ⟨d, hd, rfl⟩, w, TypeDeclaration.mem_values_body_iff.2 ⟨?_, hw⟩, hxw⟩
    rw [hds d hd, ← hkind, henum]
  case inputType =>
    rintro ⟨m, v⟩ hv
    obtain ⟨hinput, node, hnode, rfl⟩ := mem_inputs_body_iff.1 hv
    obtain ⟨⟨d, hd, w, hw, htype⟩, _⟩ := exists_of_get?_inputs hnode
    refine ⟨d.2.body, ⟨d, hd, rfl⟩, w, TypeDeclaration.mem_inputs_body_iff.2 ⟨?_, hw⟩, htype⟩
    rw [hds d hd, ← hkind, hinput]
  case inputDirective =>
    rintro ⟨m, v⟩ hv x hx
    obtain ⟨hinput, node, hnode, rfl⟩ := mem_inputs_body_iff.1 hv
    obtain ⟨d, hd, w, hw, hxw⟩ := (exists_of_get?_inputs hnode).2 x hx
    refine ⟨d.2.body, ⟨d, hd, rfl⟩, w, TypeDeclaration.mem_inputs_body_iff.2 ⟨?_, hw⟩, hxw⟩
    rw [hds d hd, ← hkind, hinput]

theorem exists_get?_fields {d : SubgraphId × TypeDeclaration} (hd : d ∈ ds) {m : Name}
    {f : FieldDeclaration} (hf : d.2.fields.get? m = some f) :
    ∃ node, (ofDeclarations names kind ds).fields.get? m = some node := by
  have hmem : (d.1, f) ∈ fieldsOf ds m := mem_fieldsOf_iff.2 ⟨d.2, hd, hf⟩
  rw [get?_fields]
  cases hes : fieldsOf ds m with
  | nil => simp [hes] at hmem
  | cons e es => exact ⟨_, rfl⟩

/-- A merged type has a field if one of its declarations has any. -/
theorem fields_body_ne_nil {d : SubgraphId × TypeDeclaration} (hd : d ∈ ds)
    (hkind : d.2.kind = kind) (h : d.2.body.fields ≠ []) :
    (ofDeclarations names kind ds).body.fields ≠ [] := by
  obtain ⟨⟨m, f⟩, hf⟩ := List.exists_mem_of_ne_nil _ h
  obtain ⟨hfields, e, he, _⟩ := TypeDeclaration.mem_fields_body_iff.1 hf
  obtain ⟨node, hnode⟩ : ∃ node, (ofDeclarations names kind ds).fields.get? m = some node :=
    exists_get?_fields hd he
  refine List.ne_nil_of_mem (mem_fields_body_iff.2 ⟨?_, node, hnode, rfl⟩)
  rw [kind_ofDeclarations, ← hkind, hfields]

end TypeNode

/-! ### References -/

section Refers

variable {defines : Name → TypeKind → Prop}

theorem FieldDefinition.MadeOf.refers {source : FieldDefinition → Prop} {f : FieldDefinition}
    (h : f.MadeOf source) (hsource : ∀ g, source g → g.Refers defines) : f.Refers defines := by
  obtain ⟨g, hg, hgt⟩ := h.type
  refine ⟨?_, fun a ha => ?_⟩
  · rw [hgt]
    exact (hsource g hg).1
  · obtain ⟨g, hg, hga⟩ := h.argument a ha
    exact (hsource g hg).2 a hga

theorem TypeBody.MadeOf.refers {source : TypeBody → Prop} {b : TypeBody} (h : b.MadeOf source)
    (hsource : ∀ c, source c → c.Refers defines)
    (hfields : b.kind.hasFields = true → b.fields ≠ []) : b.Refers defines := by
  have hparts := fun c hc => TypeBody.refers_iff.1 (hsource c hc)
  refine TypeBody.refers_iff.2
    ⟨hfields, fun e he => ?_, fun i hi => ?_, fun m hm => ?_, fun e he => ?_⟩
  · refine (h.field e he).refers ?_
    rintro g ⟨c, hc, hg⟩
    exact (hparts c hc).2.1 _ hg
  · obtain ⟨c, hc, hi⟩ := h.interface i hi
    exact (hparts c hc).2.2.1 i hi
  · obtain ⟨c, hc, hm⟩ := h.member m hm
    exact (hparts c hc).2.2.2.1 m hm
  · obtain ⟨c, hc, v, hv, htype⟩ := h.inputType e he
    rw [InputValue.Refers, htype]
    exact (hparts c hc).2.2.2.2 _ hv

/-- A type that is merged from declarations of its kind refers to what they refer to. -/
theorem TypeNode.refers_ofDeclarations {names : List String} {kind : TypeKind}
    {ds : List (SubgraphId × TypeDeclaration)} (hne : ds ≠ [])
    (hds : ∀ d ∈ ds, d.2.kind = kind ∧ d.2.body.Refers defines) :
    (ofDeclarations names kind ds).body.Refers defines := by
  refine (madeOf_ofDeclarations fun d hd => (hds d hd).1).refers ?_ fun hfields => ?_
  · rintro _ ⟨d, hd, rfl⟩
    exact (hds d hd).2
  · -- Each of the declarations has a field already.
    obtain ⟨d, hd⟩ := List.exists_mem_of_ne_nil ds hne
    obtain ⟨hdkind, hrefers⟩ := hds d hd
    refine fields_body_ne_nil hd hdkind ((TypeBody.refers_iff.1 hrefers).1 ?_)
    rw [TypeDeclaration.kind_body, hdkind, ← hfields, kind_body, kind_ofDeclarations]

end Refers

end Federation
