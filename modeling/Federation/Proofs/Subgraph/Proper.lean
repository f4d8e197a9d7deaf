import Federation.Proofs.Subgraph.Normalized
import Federation.Proofs.Subgraph.Roots

/-!
# What is left of a document

The blocks that a document leaves to compose are no plumbing, under whichever names they are
composed, and a block has only the parts that belong to its kind.  A declaration has nothing but
what its blocks have, so every declaration of a document is `Proper`
(`Document.proper_of_get?_declarations`), and what a checked batch declares comes from such
declarations (`exists_proper_of_declares`).
-/

namespace Federation

/-! ### Blocks -/

theorem isPlumbingType_rootTypeNames : ∀ r ∈ rootTypeNames, isPlumbingType r = false := by decide

/-- A type is only ever renamed to a root operation type. -/
theorem Document.mem_rootTypeNames_of_get?_rootRenames {d : Document} {n r : Name}
    (h : d.rootRenames.get? n = some r) : r ∈ rootTypeNames := by
  obtain ⟨o, _, _, rfl⟩ := exists_root_of_get?_rootRenames h
  cases o <;> decide

theorem TypeBody.keepsField_of_mem_fields_rename {renames : RootRenames} {keepsField : Name → Bool}
    {b : TypeBody} {f : Name × FieldDefinition} (h : f ∈ (b.rename renames keepsField).fields) :
    keepsField f.1 = true := by
  cases b with
  | object is fs =>
    obtain ⟨e, he, rfl⟩ := List.mem_map.1 h
    exact (List.mem_filter.1 he).2
  | interface is fs =>
    obtain ⟨e, he, rfl⟩ := List.mem_map.1 h
    exact (List.mem_filter.1 he).2
  | _ => cases h

/-- What a document leaves to compose is no plumbing. -/
theorem Document.not_plumbing_of_mem_blocks {d : Document} {b : Block} (h : b ∈ oks d.blocks) :
    isPlumbingType b.name = false ∧
      (b.name = OperationType.query.rootName →
        ∀ f ∈ b.body.fields, isPlumbingField f.1 = false) := by
  obtain ⟨c, _, hplumbing, _, hname, hbody⟩ := exists_typeBlock_of_mem_blocks h
  refine ⟨?_, fun hquery f hf => ?_⟩
  · rw [hname, RootRenames.apply]
    cases hr : d.rootRenames.get? c.name with
    | none => exact hplumbing
    | some r => exact isPlumbingType_rootTypeNames r (mem_rootTypeNames_of_get?_rootRenames hr)
  · rw [hbody] at hf
    have hkeeps := TypeBody.keepsField_of_mem_fields_rename hf
    simpa [keepsField, hquery] using hkeeps

/-! ### Declarations -/

/-- What holds of a declaration under its name: it is no plumbing, and it has only parts that
belong to its kind. -/
structure TypeDeclaration.Proper (n : Name) (t : TypeDeclaration) : Prop where
  name : isPlumbingType n = false
  queryField : n = OperationType.query.rootName →
    ∀ {m f}, t.fields.get? m = some f → isPlumbingField m = false
  hasFields : ∀ {m f}, t.fields.get? m = some f → t.kind.hasFields = true
  interface : ∀ {i}, i ∈ t.interfaces → t.kind.hasFields = true
  member : ∀ {m}, m ∈ t.members → t.kind = .union

/-- **The declarations of a document are proper**, if nothing is wrong with its blocks. -/
theorem Document.proper_of_get?_declarations {d : Document} (h : d.assembly.faults = []) {n : Name}
    {t : TypeDeclaration} (ht : d.declarations.get? n = some t) : t.Proper n := by
  have hbs := Assembly.faults_ofBlocks_eq_nil_iff.1 h
  have hgathered := gathered_of_get?_declarations hbs ht
  have hplumbing : ∀ b ∈ (oks d.blocks).filter (·.name = n), isPlumbingType n = false ∧
      (n = OperationType.query.rootName → ∀ f ∈ b.body.fields, isPlumbingField f.1 = false) := by
    intro b hb
    obtain ⟨hmem, hname⟩ := List.mem_filter.1 hb
    obtain rfl : b.name = n := of_decide_eq_true hname
    exact not_plumbing_of_mem_blocks hmem
  refine ⟨?_, fun hn m f hf => ?_, (assembled_of_get?_declarations h ht).hasFields,
    fun hi => ?_, fun hm => ?_⟩
  · obtain ⟨b, hb, _⟩ :=
      TypeDeclaration.kind_gathered? ((get?_declarations_eq_some_iff hbs).1 ht).1
    exact (hplumbing b hb).1
  · obtain ⟨b, hb, g, hg, rfl⟩ := hgathered.get?_fields_iff.1 hf
    exact (hplumbing b hb).2 hn _ hg
  · rw [hgathered.interfaces, mem_appendNew, List.mem_flatMap] at hi
    obtain ⟨b, hb, hi⟩ := hi.resolve_left List.not_mem_nil
    rw [← hgathered.kind b hb]
    exact TypeBody.hasFields_of_mem_interfaces hi
  · rw [hgathered.members, mem_appendNew, List.mem_flatMap] at hm
    obtain ⟨b, hb, hm⟩ := hm.resolve_left List.not_mem_nil
    rw [← hgathered.kind b hb]
    exact TypeBody.kind_of_mem_members hm

/-- What a checked batch declares is a proper declaration of one of its subgraphs, annotated. -/
theorem exists_proper_of_declares {batch : List Subgraph} {schemas : List Schema}
    (h : schemas? batch = .ok schemas) {n : Name} {d : TypeDeclaration}
    (hd : Declares (schemas.map Schema.contribution) n d) :
    ∃ s ∈ batch, s.document.faults s.name = [] ∧
      ∃ t, s.document.declarations.get? n = some t ∧ t.Proper n ∧
        (annotateType s.document.declarations s.name n t).contribution s.document.version = d := by
  obtain ⟨s, hs, hfaults, _, hd⟩ := exists_subgraph_of_declares h hd
  rw [Subgraph.get?_types_contribution] at hd
  obtain ⟨t, ht, rfl⟩ := Option.map_eq_some_iff.1 hd
  have hassembly := Document.assembly_faults_eq_nil hfaults
  exact ⟨s, hs, hfaults, t, ht, Document.proper_of_get?_declarations hassembly ht, rfl⟩

end Federation
