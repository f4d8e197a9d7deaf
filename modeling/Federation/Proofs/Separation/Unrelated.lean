import Federation.Proofs.Subgraph.Proper
import Federation.Proofs.Subgraph.Selections

/-!
# Unrelated batches

Two batches of contributions are `Unrelated` when they share no types but root operation types, on
which they declare different fields, and when nothing but the operations themselves leads to a root
operation type: no field returns one, no union has one as a member, and none implements an
interface.

What a checked batch refers to it declares itself (`Grounded`).  So from the types that the other
batch does not declare (`Avoids`), nothing leads to one that it does: fields return such types
again (`Unrelated.avoids_returns`), and so are the possible types of abstract types
(`Unrelated.avoids_member`, `Unrelated.avoids_implementation`).
-/

namespace Federation

variable {schemas a b : List Schema} {n m : Name}

/-! ### Grounded batches -/

/-- Whether a batch declares all types of some declarations, with all of their fields. -/
def DeclaresEach (schemas : List Schema) (types : Table TypeDeclaration) : Prop :=
  ∀ n t, types.get? n = some t → ∃ d, Declares schemas n d ∧
    ∀ m f, t.fields.get? m = some f → ∃ f', d.fields.get? m = some f'

/-- Whether a field set fits a type of some declarations that a batch has all of. -/
def Selects (schemas : List Schema) (n : Name) (F : FieldSet) : Prop :=
  ∃ types, DeclaresEach schemas types ∧ F.FitsIn types n

/-- A batch that declares whatever its declarations refer to. -/
structure Grounded (schemas : List Schema) : Prop where
  returns : ∀ {n m f}, DeclaresField schemas n m f →
    isBuiltInScalar f.definition.type.innerName = true ∨
      ∃ d, Declares schemas f.definition.type.innerName d
  interface : ∀ {n d i}, Declares schemas n d → i ∈ d.interfaces →
    ∃ e, Declares schemas i e ∧ e.kind = .interface
  member : ∀ {n d o}, Declares schemas n d → o ∈ d.members → ∃ e, Declares schemas o e
  input : ∀ {n d m v}, Declares schemas n d → d.inputs.get? m = some v → d.kind = .inputObject
  key : ∀ {n d k}, Declares schemas n d → k ∈ d.keys → Selects schemas n k.fields
  required : ∀ {n d m f F}, Declares schemas n d → d.fields.get? m = some f →
    f.requires = some F → Selects schemas n F

section Batch

variable {batch : List Subgraph} {s : Subgraph}

/-- A batch declares what each of its subgraphs does. -/
theorem declaresEach_of_mem (hs : s.schema.contribution ∈ schemas) :
    DeclaresEach schemas s.document.declarations := by
  intro n t ht
  refine ⟨_, ⟨_, hs, by rw [Subgraph.get?_types_contribution, ht, Option.map_some]⟩, ?_⟩
  intro m f hf
  exact ⟨_, by rw [get?_fields_contribution, hf, Option.map_some]⟩

/-- A checked batch declares the types of its fields, but for built-in scalars. -/
theorem declares_returns_of_schemas? (h : schemas? batch = .ok schemas) {f : FieldDeclaration}
    (hf : DeclaresField (schemas.map Schema.contribution) n m f) :
    isBuiltInScalar f.definition.type.innerName = true ∨
      ∃ d, Declares (schemas.map Schema.contribution) f.definition.type.innerName d := by
  obtain ⟨d, hd, hf⟩ := hf
  obtain ⟨_, _, _, t, _, hproper, rfl⟩ := exists_proper_of_declares h hd
  have hkind : t.kind.hasFields = true := by
    rw [get?_fields_contribution] at hf
    obtain ⟨f', hf', _⟩ := Option.map_eq_some_iff.1 hf
    exact hproper.hasFields hf'
  have hfield := (TypeBody.refers_iff.1 (refers_of_declares h hd)).2.1 (m, f.definition)
    (TypeDeclaration.mem_fields_body_iff.2 ⟨hkind, f, hf, rfl⟩)
  cases hbuiltIn : isBuiltInScalar f.definition.type.innerName with
  | true => exact .inl rfl
  | false =>
    obtain ⟨_, ⟨e, he, _⟩, _⟩ := hfield.1 hbuiltIn
    exact .inr ⟨e, he⟩

/-- **What checked subgraphs refer to they declare.** -/
theorem grounded_of_schemas? (h : schemas? batch = .ok schemas) :
    Grounded (schemas.map Schema.contribution) where
  returns := declares_returns_of_schemas? h
  interface := by
    intro n d i hd hi
    obtain ⟨_, _, _, t, _, hproper, rfl⟩ := exists_proper_of_declares h hd
    -- a declaration refers to the interfaces that its body shows, and only those kinds have any
    refine (TypeBody.refers_iff.1 (refers_of_declares h hd)).2.2.1 i ?_
    exact TypeBody.mem_interfaces_ofParts.2 ⟨hproper.interface hi, hi⟩
  member := by
    intro n d o hd ho
    obtain ⟨_, _, _, t, _, hproper, rfl⟩ := exists_proper_of_declares h hd
    obtain ⟨e, he, _⟩ := (TypeBody.refers_iff.1 (refers_of_declares h hd)).2.2.2.1 o
      (TypeBody.mem_members_ofParts.2 ⟨hproper.member ho, ho⟩)
    exact ⟨e, he⟩
  input := by
    intro n d m v hd hv
    obtain ⟨s, _, hfaults, t, ht, _, rfl⟩ := exists_proper_of_declares h hd
    have hinputs : (t.inputs.map InputValue.contribution).get? m = some v := hv
    rw [Table.get?_map] at hinputs
    obtain ⟨v', hv', _⟩ := Option.map_eq_some_iff.1 hinputs
    show t.kind = .inputObject
    exact (Subgraph.gathered_of_get?_declarations hfaults ht).kind_of_get?_inputs hv'
  key := by
    intro n d k hd hk
    obtain ⟨s, _, hfaults, hmem, hd⟩ := exists_subgraph_of_declares h hd
    exact ⟨_, declaresEach_of_mem hmem, (Subgraph.fitsIn_of_faults hfaults hd).1 k hk⟩
  required := by
    intro n d m f F hd hf hF
    obtain ⟨s, _, hfaults, hmem, hd⟩ := exists_subgraph_of_declares h hd
    exact ⟨_, declaresEach_of_mem hmem, ((Subgraph.fitsIn_of_faults hfaults hd).2 m f hf).1 F hF⟩

end Batch

/-! ### Unrelated batches -/

/-- Whether two batches of contributions have nothing to do with each other: they share root
operation types at most, on which they declare different fields, and nothing refers to a root
operation type. -/
structure Unrelated (a b : List Schema) : Prop where
  /-- No type has the name of a built-in scalar. -/
  builtIn : ∀ c ∈ contributed (a ++ b), isBuiltInScalar c.name = false
  /-- A type of both is a root operation type, declared as an object type with different fields. -/
  shared : ∀ c ∈ contributed a, ∀ e ∈ contributed b, c.name = e.name →
    c.name ∈ rootTypeNames ∧ c.declaration.kind = .object ∧ e.declaration.kind = .object ∧
      ∀ m ∈ c.declaration.fields.names, m ∉ e.declaration.fields.names
  /-- No field returns a root operation type. -/
  returns : ∀ c ∈ contributed (a ++ b), ∀ f ∈ c.declaration.fields.values,
    f.definition.type.innerName ∉ rootTypeNames
  /-- No union has a root operation type as a member. -/
  member : ∀ c ∈ contributed (a ++ b), ∀ o ∈ c.declaration.members, o ∉ rootTypeNames
  /-- No root operation type implements an interface. -/
  interface : ∀ c ∈ contributed (a ++ b), c.name ∈ rootTypeNames → c.declaration.interfaces = []

instance (a b : List Schema) : Decidable (Unrelated a b) :=
  decidable_of_iff (_ ∧ _ ∧ _ ∧ _ ∧ _)
    ⟨fun h => ⟨h.1, h.2.1, h.2.2.1, h.2.2.2.1, h.2.2.2.2⟩,
      fun h => ⟨h.builtIn, h.shared, h.returns, h.member, h.interface⟩⟩

theorem exists_contributed_of_declares {d : TypeDeclaration} (hd : Declares schemas n d) :
    ∃ c ∈ contributed schemas, c.name = n ∧ c.declaration = d := by
  obtain ⟨i, hi⟩ := declares_iff.1 hd
  rw [← filterMap_contributed, List.mem_filterMap] at hi
  obtain ⟨c, hc, hi⟩ := hi
  simp only [Option.ite_none_right_eq_some, Option.some.injEq, Prod.mk.injEq] at hi
  exact ⟨c, hc, hi.1, hi.2.2⟩

theorem declares_of_mem_contributed {c : Contributed} (hc : c ∈ contributed schemas) :
    Declares schemas c.name c.declaration := by
  refine declares_iff.2 ⟨c.subgraph, ?_⟩
  rw [← filterMap_contributed, List.mem_filterMap]
  exact ⟨c, hc, by simp⟩

theorem declares_append_iff {d : TypeDeclaration} :
    Declares (a ++ b) n d ↔ Declares a n d ∨ Declares b n d := by
  simp only [Declares, List.mem_append, or_and_right, exists_or]

theorem declaresField_append_iff {f : FieldDeclaration} :
    DeclaresField (a ++ b) n m f ↔ DeclaresField a n m f ∨ DeclaresField b n m f := by
  simp only [DeclaresField, declares_append_iff, or_and_right, exists_or]

/-- Whether no schema of a batch declares a type of a name. -/
def Avoids (schemas : List Schema) (n : Name) : Prop := ∀ d, ¬ Declares schemas n d

namespace Unrelated

variable {d e : TypeDeclaration}

/-- The relation has no direction. -/
theorem symm (h : Unrelated a b) : Unrelated b a := by
  have hswap : ∀ c ∈ contributed (b ++ a), ∃ c' ∈ contributed (a ++ b),
      c'.name = c.name ∧ c'.declaration = c.declaration := fun c hc =>
    exists_contributed_of_declares (declares_append_iff.2
      (declares_append_iff.1 (declares_of_mem_contributed hc)).symm)
  refine ⟨fun c hc => ?_, fun c hc e he hname => ?_, fun c hc => ?_, fun c hc => ?_,
    fun c hc => ?_⟩
  · obtain ⟨c', hc', hn, _⟩ := hswap c hc
    rw [← hn]
    exact h.builtIn c' hc'
  · obtain ⟨hroot, hek, hck, hfields⟩ := h.shared e he c hc hname.symm
    exact ⟨hname ▸ hroot, hck, hek, fun m hm hm' => hfields m hm' hm⟩
  · obtain ⟨c', hc', _, hd⟩ := hswap c hc
    rw [← hd]
    exact h.returns c' hc'
  · obtain ⟨c', hc', _, hd⟩ := hswap c hc
    rw [← hd]
    exact h.member c' hc'
  · obtain ⟨c', hc', hn, hd⟩ := hswap c hc
    rw [← hn, ← hd]
    exact h.interface c' hc'

section Names

variable (h : Unrelated a b)

include h

/-- What both batches declare is a root operation type, of which they declare different fields. -/
theorem of_declares (hd : Declares a n d) (he : Declares b n e) :
    n ∈ rootTypeNames ∧ d.kind = .object ∧ e.kind = .object ∧
      ∀ m f, d.fields.get? m = some f → e.fields.get? m = none := by
  obtain ⟨c, hc, rfl, rfl⟩ := exists_contributed_of_declares hd
  obtain ⟨c', hc', hn, rfl⟩ := exists_contributed_of_declares he
  obtain ⟨hroot, hk, hk', hfields⟩ := h.shared c hc c' hc' hn.symm
  refine ⟨hroot, hk, hk', fun m f hf => ?_⟩
  rw [Table.get?_eq_none_iff]
  exact hfields m (Table.mem_names_iff.2 ⟨f, hf⟩)

theorem avoids_builtIn (hn : isBuiltInScalar n = true) : Avoids b n := by
  intro d hd
  obtain ⟨c, hc, rfl, _⟩ :=
    exists_contributed_of_declares (declares_append_iff.2 (.inr hd) : Declares (a ++ b) n d)
  rw [h.builtIn c hc] at hn
  cases hn

/-- Apart from root operation types, what one batch declares the other one does not. -/
theorem avoids_of_declares (hd : Declares a n d) (hn : n ∉ rootTypeNames) : Avoids b n :=
  fun _ he => hn (h.of_declares hd he).1

/-- A field of one batch returns a type that the other one does not declare. -/
theorem avoids_returns (ha : Grounded a) {f : FieldDeclaration} (hf : DeclaresField a n m f) :
    Avoids b f.definition.type.innerName := by
  rcases ha.returns hf with hbuiltIn | ⟨d, hd⟩
  · exact h.avoids_builtIn hbuiltIn
  · refine h.avoids_of_declares hd ?_
    obtain ⟨e, he, hf⟩ := hf
    obtain ⟨c, hc, rfl, rfl⟩ :=
      exists_contributed_of_declares (declares_append_iff.2 (.inl he) : Declares (a ++ b) n e)
    exact h.returns c hc f (Graph.mem_values_of_get? hf)

/-- A member of a union of one batch is a type that the other one does not declare. -/
theorem avoids_member (ha : Grounded a) (hd : Declares a n d) {o : Name} (ho : o ∈ d.members) :
    Avoids b o := by
  obtain ⟨e, he⟩ := ha.member hd ho
  refine h.avoids_of_declares he ?_
  obtain ⟨c, hc, rfl, rfl⟩ :=
    exists_contributed_of_declares (declares_append_iff.2 (.inl hd) : Declares (a ++ b) n d)
  exact h.member c hc o ho

/-- A type that implements an interface which only one batch declares is not declared by the
other. -/
theorem avoids_implementation (hb : Grounded b) {i : Name} (hi : Avoids b i)
    (hd : Declares (a ++ b) n d) (hdi : i ∈ d.interfaces) : Avoids b n := by
  rcases declares_append_iff.1 hd with hda | hdb
  · refine h.avoids_of_declares hda fun hroot => ?_
    obtain ⟨c, hc, rfl, rfl⟩ := exists_contributed_of_declares hd
    rw [h.interface c hc hroot] at hdi
    cases hdi
  · obtain ⟨e, he, _⟩ := hb.interface hdb hdi
    exact absurd he (hi e)

end Names

end Unrelated

end Federation
