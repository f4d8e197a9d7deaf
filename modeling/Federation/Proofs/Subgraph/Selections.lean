import Federation.Proofs.Subgraph.References

/-!
# Field sets of a checked subgraph

The check of a subgraph reads every field set against the declarations of that subgraph.
`FieldSet.FitsIn` says what it has found of a field set that it let pass: each selected field is
declared where it is selected, with a selection below it only if it returns a composite type, and
each condition names a composite type (`fitsIn_of_fieldSetOf`).  This holds of all keys, of what is
required for a field, and of what is provided below it (`Subgraph.fitsIn_of_faults`).
-/

namespace Federation

/-- Whether a type is defined as one that fields can be selected from. -/
def IsComposite (types : Table TypeDeclaration) (n : Name) : Prop := isCompositeType types n = true

/-- Whether a field set selects what the types of a subgraph declare. -/
def FieldSet.FitsIn (types : Table TypeDeclaration) : Name → FieldSet → Prop
  | _, .empty => True
  | parent, .field n sub rest =>
    (∃ t f, types.get? parent = some t ∧ t.fields.get? n = some f ∧
      (sub.isEmpty = false → IsComposite types f.definition.type.innerName ∧
        sub.FitsIn types f.definition.type.innerName)) ∧
      rest.FitsIn types parent
  | parent, .fragment c sub rest =>
    IsComposite types (c.getD parent) ∧ sub.FitsIn types (c.getD parent) ∧ rest.FitsIn types parent

section Reading

variable {types : Table TypeDeclaration}

theorem fitsIn_of_misfit? {F : FieldSet} {parent : Name} (h : misfit? types parent F = none) :
    F.FitsIn types parent := by
  induction F generalizing parent with
  | empty => trivial
  | field n sub rest ihs ihr =>
    unfold misfit? at h
    split at h
    · cases h
    · rename_i f hf
      obtain ⟨t, ht, hf⟩ := Option.bind_eq_some_iff.1 hf
      -- Of the four combinations the check lets those pass in which both sides are alike.
      cases hcomposite : isCompositeType types f.definition.type.innerName <;>
        cases hsub : sub.isEmpty <;> simp only [hcomposite, hsub, reduceCtorEq] at h
      · exact ⟨⟨t, f, ht, hf, by simp [hsub]⟩, ihr h⟩
      · obtain ⟨hs, hr⟩ := Option.or_eq_none_iff.1 h
        exact ⟨⟨t, f, ht, hf, fun _ => ⟨hcomposite, ihs hs⟩⟩, ihr hr⟩
  | fragment c sub rest ihs ihr =>
    unfold misfit? at h
    simp only at h
    split at h
    · rename_i hcomposite
      obtain ⟨hs, hr⟩ := Option.or_eq_none_iff.1 h
      exact ⟨hcomposite, ihs hs, ihr hr⟩
    · cases h

/-- A field set that is read off a directive fits the type that it is read for, which is
declared. -/
theorem fitsIn_of_fieldSetOf {part : Coordinate} {target : Name} {d : Directive} {F : FieldSet}
    (h : fieldSetOf types part target d = .ok F) :
    types.contains target = true ∧ F.FitsIn types target := by
  obtain ⟨_, _, _, hnone⟩ := fieldSetOf_eq_ok_iff.1 h
  obtain ⟨hcontains, hmisfit⟩ := selectionFault?_eq_none_iff.1 hnone
  exact ⟨hcontains, fitsIn_of_misfit? hmisfit⟩

/-- The keys that are read off a type fit it. -/
theorem fitsIn_of_mem_keysOf {n : Name} {t : TypeDeclaration} {k : EntityKey}
    (h : k ∈ oks (keysOf types n t)) : k.fields.FitsIn types n := by
  obtain ⟨_, d, _, _, hk⟩ := mem_keysOf_iff.1 (mem_oks.1 h)
  exact (fitsIn_of_fieldSetOf (keyOf_eq_ok_iff.1 hk).1).2

/-- What an annotated field requires fits the type of the field, and what it provides fits the type
that it returns. -/
theorem fitsIn_of_annotateField {subgraph : String} {kind : TypeKind} {n m : Name}
    {f : FieldDeclaration} (hrequires : f.requires = none) (hprovides : f.provides = none)
    {F : FieldSet} :
    ((annotateField types subgraph kind n m f).requires = some F → F.FitsIn types n) ∧
    ((annotateField types subgraph kind n m f).provides = some F →
      IsComposite types f.definition.type.innerName ∧
        F.FitsIn types f.definition.type.innerName) := by
  unfold annotateField
  split
  · constructor
    · intro h
      obtain ⟨d, _, _, hd⟩ := exists_of_firstRead? h
      exact (fitsIn_of_fieldSetOf hd).2
    · intro h
      obtain ⟨d, _, _, hd⟩ := exists_of_firstRead? h
      obtain ⟨hcomposite, hd⟩ := providesOf_eq_ok_iff.1 hd
      exact ⟨hcomposite, (fitsIn_of_fieldSetOf hd).2⟩
  · simp [hrequires, hprovides]

end Reading

/-! ### Contributions -/

/-- Whether the fields of a declaration have no annotations yet. -/
def TypeDeclaration.Plain (t : TypeDeclaration) : Prop :=
  ∀ m f, t.fields.get? m = some f → f.requires = none ∧ f.provides = none

theorem Document.plain_of_get?_declarations {d : Document} (h : d.assembly.faults = []) {n : Name}
    {t : TypeDeclaration} (ht : d.declarations.get? n = some t) : t.Plain := by
  intro m f hf
  have hgathered := gathered_of_get?_declarations (Assembly.faults_ofBlocks_eq_nil_iff.1 h) ht
  -- A block declares fields without annotations.
  obtain ⟨b, _, g, _, rfl⟩ := hgathered.get?_fields_iff.1 hf
  exact ⟨rfl, rfl⟩

/-- **The field sets that a subgraph contributes**: its keys and what is required for its fields fit
the types that they are declared for, and what is provided with a field fits the type of the field,
as the subgraph declares them. -/
theorem Subgraph.fitsIn_of_faults {s : Subgraph} (hfaults : s.document.faults s.name = [])
    {n : Name} {d : TypeDeclaration} (hd : s.schema.contribution.types.get? n = some d) :
    (∀ k ∈ d.keys, k.fields.FitsIn s.document.declarations n) ∧
    ∀ m f, d.fields.get? m = some f →
      (∀ F, f.requires = some F → F.FitsIn s.document.declarations n) ∧
      ∀ F, f.provides = some F →
        IsComposite s.document.declarations f.definition.type.innerName ∧
          F.FitsIn s.document.declarations f.definition.type.innerName := by
  have hassembly := Document.assembly_faults_eq_nil hfaults
  rw [Subgraph.get?_types_contribution] at hd
  obtain ⟨t, ht, rfl⟩ := Option.map_eq_some_iff.1 hd
  refine ⟨fun k hk => fitsIn_of_mem_keysOf hk, fun m f hf => ?_⟩
  rw [get?_fields_contribution] at hf
  obtain ⟨f', hf', rfl⟩ := Option.map_eq_some_iff.1 hf
  obtain ⟨hrequires, hprovides⟩ := Document.plain_of_get?_declarations hassembly ht m f' hf'
  have hfits := fun F => @fitsIn_of_annotateField s.document.declarations s.name t.kind n m f'
    hrequires hprovides F
  have hreturns : ∀ version inKey, ((annotateField s.document.declarations s.name t.kind n m
      f').contribution version inKey).definition.type = f'.definition.type := by
    intro version inKey
    rw [FieldDeclaration.contribution, definition_annotateField]
    rfl
  rw [hreturns]
  exact ⟨fun F => (hfits F).1, fun F => (hfits F).2⟩

end Federation
