import Federation.Proofs.Subgraph.Definitions

/-!
# The document of a canonical supergraph

The document of a canonical supergraph can be that of a subgraph.  It has no schema definition, so
nothing is renamed, and no plumbing, so nothing is left out: its blocks are its definitions
(`Supergraph.blocks_document`).  They assemble to one declaration each, and nothing is wrong with
them (`Supergraph.faults_document`).
-/

namespace Federation

/-! ### Blocks -/

/-- The block as which a definition is composed where nothing is renamed. -/
def TypeDefinition.toBlock (d : TypeDefinition) : Block :=
  ⟨false, d.description, d.block.name, d.block.directives, d.block.body⟩

theorem TypeBody.rename_empty {b : TypeBody} {keepsField : Name → Bool}
    (h : ∀ f ∈ b.fields, keepsField f.1 = true) : b.rename ∅ keepsField = b := by
  have hrename : ∀ f : FieldDefinition, f.renameType ∅ = f := fun f => by
    rw [FieldDefinition.renameType]
    exact congrArg (fun t => { f with type := t }) f.type.mapName_id
  have hfields : ∀ {fs : List (Name × FieldDefinition)}, (∀ f ∈ fs, keepsField f.1 = true) →
      ((fs.filter fun f => keepsField f.1).map fun f => (f.1, f.2.renameType ∅)) = fs := by
    intro fs hfs
    rw [List.filter_eq_self.2 hfs]
    refine (List.map_congr_left fun f _ => ?_).trans (List.map_id fs)
    rw [hrename]
    rfl
  cases b with
  | object is fs => exact congrArg (object is) (hfields h)
  | interface is fs => exact congrArg (interface is) (hfields h)
  | union ms => exact congrArg union (List.map_id ms)
  | scalar => rfl
  | enum vs => rfl
  | inputObject vs => rfl

namespace Supergraph

variable {s : Supergraph}

/-- A supergraph defines directives and types alone. -/
theorem exists_of_mem_document {e : Definition} (he : e ∈ s.document) :
    (∃ x, e = .directive x) ∨ ∃ d, e = .type d := by
  rcases List.mem_append.1 he with he | he
  · obtain ⟨x, _, rfl⟩ := List.mem_map.1 he
    exact .inl ⟨x, rfl⟩
  · obtain ⟨d, _, rfl⟩ := List.mem_map.1 he
    exact .inr ⟨d, rfl⟩

theorem rootRenames_document (s : Supergraph) : s.document.rootRenames = ∅ := by
  have hroots : s.document.flatMap Definition.rootOperations = [] := by
    rw [List.flatMap_eq_nil_iff]
    intro e he
    obtain ⟨x, rfl⟩ | ⟨d, rfl⟩ := exists_of_mem_document he <;> rfl
  rw [Document.rootRenames, hroots]
  rfl

theorem block?_of_canonical {d : TypeDefinition} (hd : d.Canonical) :
    Definition.block? ∅ (.type d) = some (.ok d.toBlock) := by
  have hkeeps : ∀ f ∈ d.block.body.fields,
      (!(decide (d.block.name = OperationType.query.rootName) && isPlumbingField f.1)) = true := by
    intro f hf
    by_cases hquery : d.block.name = OperationType.query.rootName
    · simp [hquery, hd.queryField hquery f hf]
    · simp [hquery]
  show composedBlock? ∅ false d.description d.block = _
  unfold composedBlock?
  rw [hd.name]
  show (some (.ok ⟨false, d.description, d.block.name, d.block.directives,
    d.block.body.rename ∅ _⟩) : Option (Except Fault Block)) = _
  rw [TypeBody.rename_empty hkeeps]
  rfl

variable (hs : s.Canonical)

include hs

theorem blocks_document : s.document.blocks = s.types.map fun d => .ok d.toBlock := by
  rw [Document.blocks, rootRenames_document, document, List.filterMap_append, List.filterMap_map,
    List.filterMap_map]
  have hdirectives : s.version.directiveDefinitions.filterMap
      (Definition.block? ∅ ∘ Definition.directive) = [] := by
    rw [List.filterMap_eq_nil_iff]
    exact fun _ _ => rfl
  rw [hdirectives, List.nil_append, ← List.filterMap_eq_map']
  exact List.filterMap_congr fun d hd => block?_of_canonical (hs.type d hd)

theorem oks_blocks_document : oks s.document.blocks = s.types.map TypeDefinition.toBlock := by
  rw [blocks_document hs, oks, List.filterMap_map]
  exact congrFun List.filterMap_eq_map' s.types

theorem errors_blocks_document : errors s.document.blocks = [] := by
  rw [blocks_document hs, errors, List.filterMap_map, List.filterMap_eq_nil_iff]
  exact fun _ _ => rfl

theorem assembly_document : s.document.assembly.faults = [] ∧ s.document.assembly.types.entries =
    s.types.map fun d => (d.block.name, d.toBlock.declaration) := by
  have hnames : ((s.types.map TypeDefinition.toBlock).map fun b => b.name).Nodup := by
    rw [List.map_map]
    exact hs.closed.names
  have hdef : ∀ b ∈ s.types.map TypeDefinition.toBlock, b.isDefinition = true := by
    refine List.forall_mem_map.2 fun d hd => ?_
    have hextends : hasDirective d.block.directives "extends" = false :=
      (hs.type d hd).directives.hasDirective_eq_false (by decide)
    simp [Block.isDefinition, TypeDefinition.toBlock, hextends]
  have hblocks := Assembly.ofBlocks_of_distinct hnames hdef
    (List.forall_mem_map.2 fun d hd => hs.closed.distinct d hd)
  rw [Document.assembly, oks_blocks_document hs]
  refine ⟨hblocks.1, hblocks.2.trans ?_⟩
  rw [List.map_map]
  rfl

theorem entries_declarations_document : s.document.declarations.entries =
    s.types.map fun d => (d.block.name, d.toBlock.declaration) := by
  show s.document.assembly.types.entries.filter _ = _
  rw [(assembly_document hs).2, List.filter_eq_self]
  intro e he
  obtain ⟨d, hd, rfl⟩ := List.mem_map.1 he
  -- An object has a field, so none is left out as having nothing but plumbing.
  have hrefers := hs.closed.refers d hd
  have hdistinct : d.toBlock.body.Distinct := hs.closed.distinct d hd
  by_cases hobject : d.block.body.kind = .object
  · have hne := (TypeBody.refers_iff.1 hrefers).1 (by rw [hobject]; rfl)
    have hfields : d.toBlock.declaration.fields.isEmpty = false := by
      rw [Table.isEmpty, Block.entries_fields_declaration hdistinct, List.isEmpty_eq_false_iff]
      simpa [TypeDefinition.toBlock] using hne
    simp [hfields]
  · have hkind : d.toBlock.declaration.kind ≠ .object := hobject
    simp [hkind]

theorem get?_declarations_document_iff {n : Name} {t : TypeDeclaration} :
    s.document.declarations.get? n = some t ↔
      ∃ d ∈ s.types, d.block.name = n ∧ d.toBlock.declaration = t := by
  rw [Table.get?_eq_some_iff, entries_declarations_document hs, List.mem_map]
  simp only [Prod.mk.injEq]

/-! ### Nothing is wrong with it -/

theorem kindOf?_declarations_document {n : Name} {k : TypeKind} (h : s.Defines n k) :
    kindOf? s.document.declarations n = some k := by
  obtain ⟨d, hd, rfl, rfl⟩ := h
  rw [kindOf?, (get?_declarations_document_iff hs).2 ⟨d, hd, rfl, rfl⟩]
  rfl

theorem referenceFaults_document : referenceFaults s.document.declarations = [] := by
  rw [referenceFaults, entries_declarations_document hs, List.flatMap_eq_nil_iff]
  refine List.forall_mem_map.2 fun d hd => typeReferenceFaults_eq_nil_iff.2 ?_
  have hbody : d.toBlock.declaration.body = d.block.body :=
    Block.body_declaration (hs.closed.distinct d hd)
  rw [hbody]
  exact (hs.closed.refers d hd).mono fun n k => kindOf?_declarations_document hs

theorem directiveFaults_document (subgraph : String) :
    directiveFaults s.document.declarations subgraph = [] := by
  rw [directiveFaults, List.flatMap_eq_nil_iff, entries_declarations_document hs]
  refine List.forall_mem_map.2 fun d hd => ?_
  exact typeDirectiveFaults_declaration (hs.closed.distinct d hd) (hs.type d hd).directives
    (hs.type d hd).body

/-- **A canonical supergraph is a document of which nothing is wrong.** -/
theorem faults_document (subgraph : String) : s.document.faults subgraph = [] := by
  have hschema : s.document.schemaFaults = [] := by
    rw [Document.schemaFaults, List.flatMap_eq_nil_iff]
    intro e he
    obtain ⟨x, rfl⟩ | ⟨d, rfl⟩ := exists_of_mem_document he <;> rfl
  rw [Document.faults, hschema, errors_blocks_document hs, (assembly_document hs).1,
    referenceFaults_document hs, directiveFaults_document hs]
  rfl

theorem annotate_document (subgraph : String) :
    annotate s.document.declarations subgraph = s.document.declarations := by
  refine Table.mapEntries_eq_self ?_
  rw [entries_declarations_document hs]
  refine List.forall_mem_map.2 fun d hd => ?_
  exact annotateType_declaration (hs.closed.distinct d hd) (hs.type d hd).directives
    (hs.type d hd).body

end Supergraph

end Federation
