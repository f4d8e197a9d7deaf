import Federation.Proofs.Subgraph.Normalized

/-!
# What a document writes

A declaration is folded together from all blocks of its name, and what it contributes is computed
from the marks of each block and of each field, from the keys of all blocks and from the version.
When nothing is wrong with the blocks, the fold keeps every field, with the marks of the very block
that it stands in (`TypeDeclaration.Gathered.get?_fields_iff`).

So a contribution can be told from the text of the subgraph (`Subgraph.contributed_iff`): which
fields it writes and marks, which of them its keys select, and from whom it takes them over.
-/

namespace Federation

/-! ### Directives that stand once -/

/-- A field has at most one `@override`. -/
theorem eq_of_overrides {target : DirectiveTarget} {part : Coordinate} {ds : List Directive}
    (h : placementFaults target part [] ds = []) {d e : Directive} (hd : d ∈ ds) (he : e ∈ ds)
    (hdn : canonicalName d.name = "override") (hen : canonicalName e.name = "override") :
    d = e := by
  have hrule : ∀ {x : Directive}, canonicalName x.name = "override" →
      DirectiveRule.of? x = some ⟨"override", [.objectField], true, true, false⟩ := by
    intro x hx
    rw [DirectiveRule.of?, hx]
    rfl
  exact eq_of_placementFaults h rfl hd he (hrule hdn) (hrule hen)

/-! ### The text of a subgraph -/

namespace Subgraph

/-- The blocks that a subgraph has for a type. -/
def blocksOf (s : Subgraph) (n : Name) : List Block := (oks s.document.blocks).filter (·.name = n)

/-- The subgraph writes a field of an object type, in a block of it. -/
structure Writes (s : Subgraph) (n m : Name) (b : Block) (f : FieldDefinition) : Prop where
  block : b ∈ s.blocksOf n
  object : b.body.kind = .object
  field : (m, f) ∈ b.body.fields

/-- The subgraph writes a mark on a field, or on the block that the field stands in. -/
def Marks (s : Subgraph) (mark : String) (n m : Name) : Prop :=
  ∃ b f, s.Writes n m b f ∧
    (hasDirective b.directives mark = true ∨ hasDirective f.directives mark = true)

/-- Some key that the subgraph writes on a type selects a field on the type itself. -/
def KeySelects (s : Subgraph) (n m : Name) : Prop :=
  ∃ b ∈ s.blocksOf n, ∃ d ∈ b.directives, canonicalName d.name = "key" ∧
    ∃ source ∈ (d.argument? "fields").bind Value.text?,
      ∃ F ∈ (FieldSet.ofText? source).toOption, m ∈ F.fieldNames

/-- The subgraph writes a field and takes it over from a subgraph of some name. -/
def TakesFrom (s : Subgraph) (source : String) (n m : Name) : Prop :=
  ∃ b f, s.Writes n m b f ∧ ∃ d ∈ f.directives, canonicalName d.name = "override" ∧
    (d.argument? "from").bind Value.text? = some source

section Computed

variable {s : Subgraph} {n m : Name}

theorem exists_writes_iff {P : Block → FieldDefinition → Prop} :
    (∃ b f, s.Writes n m b f ∧ P b f) ↔ ∃ b ∈ s.blocksOf n, b.body.kind = .object ∧
      ∃ g ∈ b.body.fields, g.1 = m ∧ P b g.2 := by
  constructor
  · rintro ⟨b, f, ⟨hb, hobject, hf⟩, hP⟩
    exact ⟨b, hb, hobject, (m, f), hf, rfl, hP⟩
  · rintro ⟨b, hb, hobject, ⟨k, f⟩, hf, rfl, hP⟩
    exact ⟨b, f, ⟨hb, hobject, hf⟩, hP⟩

instance : Decidable (∃ b f, s.Writes n m b f) :=
  decidable_of_iff (∃ b ∈ s.blocksOf n, b.body.kind = .object ∧
    ∃ g ∈ b.body.fields, g.1 = m ∧ True)
    ((exists_writes_iff (P := fun _ _ => True)).symm.trans (by simp only [and_true]))

instance (mark : String) : Decidable (s.Marks mark n m) :=
  decidable_of_iff _ exists_writes_iff.symm

instance : Decidable (s.KeySelects n m) :=
  inferInstanceAs (Decidable (∃ b ∈ s.blocksOf n, ∃ d ∈ b.directives,
    canonicalName d.name = "key" ∧ ∃ source ∈ (d.argument? "fields").bind Value.text?,
      ∃ F ∈ (FieldSet.ofText? source).toOption, m ∈ F.fieldNames))

instance (source : String) : Decidable (s.TakesFrom source n m) :=
  decidable_of_iff _ exists_writes_iff.symm

end Computed

theorem TakesFrom.writes {s : Subgraph} {source : String} {n m : Name}
    (h : s.TakesFrom source n m) : ∃ b f, s.Writes n m b f := by
  obtain ⟨b, f, hwrites, _⟩ := h
  exact ⟨b, f, hwrites⟩

section Contributed

variable {s : Subgraph} {n m : Name}

/-- A type of which a field is written is declared. -/
theorem Writes.exists_declaration (hfaults : s.document.faults s.name = []) {b : Block}
    {f : FieldDefinition} (h : s.Writes n m b f) :
    ∃ t, s.document.declarations.get? n = some t ∧ t.kind = .object ∧
      t.fields.get? m = some (b.declare f) := by
  obtain ⟨hb, hname⟩ := List.mem_filter.1 h.block
  obtain rfl : b.name = n := of_decide_eq_true hname
  obtain ⟨t, ht, hkind⟩ := Document.exists_declaration (consistent_blocks hfaults) hb
    (.inr (.inr ⟨_, h.field⟩))
  exact ⟨t, ht, hkind.trans h.object, (gathered_of_get?_declarations hfaults ht).get?_fields_iff.2
    ⟨b, h.block, f, h.field, rfl⟩⟩

/-- A mark counts for a field wherever it is written. -/
theorem marks_iff (hfaults : s.document.faults s.name = []) {t : TypeDeclaration}
    (ht : s.document.declarations.get? n = some t) (hobject : t.kind = .object)
    {f : FieldDeclaration} (hf : t.fields.get? m = some f) {mark : String}
    (flag : FieldDeclaration → Bool) (hflag : ∀ (b : Block) g, flag (b.declare g) =
      (hasDirective b.directives mark || hasDirective g.directives mark)) :
    s.Marks mark n m ↔ flag f = true := by
  have hgathered := gathered_of_get?_declarations hfaults ht
  constructor
  · rintro ⟨b, g, ⟨hb, _, hg⟩, hmark⟩
    have hget := hgathered.get?_fields_iff.2 ⟨b, hb, g, hg, rfl⟩
    obtain rfl : f = b.declare g := Option.some.inj (hf.symm.trans hget)
    rw [hflag, Bool.or_eq_true]
    exact hmark
  · intro hmark
    obtain ⟨b, hb, g, hg, rfl⟩ := hgathered.get?_fields_iff.1 hf
    rw [hflag, Bool.or_eq_true] at hmark
    exact ⟨b, g, ⟨hb, (hgathered.kind b hb).trans hobject, hg⟩, hmark⟩

/-- The keys of a type are those that its `@key` directives declare, all of which are read. -/
theorem mem_keys_annotateType_iff (hfaults : s.document.faults s.name = []) {t : TypeDeclaration}
    (ht : s.document.declarations.get? n = some t) (hobject : t.kind = .object) {k : EntityKey} :
    k ∈ (annotateType s.document.declarations s.name n t).keys ↔
      ∃ b ∈ s.blocksOf n, ∃ d ∈ b.directives, canonicalName d.name = "key" ∧
        keyOf s.document.declarations n d = .ok k := by
  have hfields : t.kind.hasFields = true := by rw [hobject]; rfl
  rw [annotateType, mem_oks, mem_keysOf_iff, (gathered_of_get?_declarations hfaults ht).directives]
  simp only [hfields, true_and, List.mem_flatMap]
  constructor
  · rintro ⟨d, ⟨b, hb, hd⟩, hkey⟩
    exact ⟨b, hb, d, hd, hkey⟩
  · rintro ⟨b, hb, d, hd, hkey⟩
    exact ⟨d, ⟨b, hb, hd⟩, hkey⟩

theorem exists_keyOf (hfaults : s.document.faults s.name = []) {t : TypeDeclaration}
    (ht : s.document.declarations.get? n = some t) (hobject : t.kind = .object) {b : Block}
    (hb : b ∈ s.blocksOf n) {d : Directive} (hd : d ∈ b.directives)
    (hkey : canonicalName d.name = "key") :
    ∃ k, keyOf s.document.declarations n d = .ok k := by
  obtain ⟨_, hkeys, _⟩ :=
    typeDirectiveFaults_eq_nil_iff.1 (Document.typeDirectiveFaults_eq_nil hfaults ht)
  have hfields : t.kind.hasFields = true := by rw [hobject]; rfl
  have hdirective : d ∈ t.directives := by
    rw [(gathered_of_get?_declarations hfaults ht).directives]
    exact List.mem_flatMap.2 ⟨b, hb, hd⟩
  exact hkeys _ (mem_keysOf_iff.2 ⟨hfields, d, hdirective, hkey, rfl⟩)

/-- The keys of a type select the fields that its `@key` directives select. -/
theorem keySelects_iff (hfaults : s.document.faults s.name = []) {t : TypeDeclaration}
    (ht : s.document.declarations.get? n = some t) (hobject : t.kind = .object) :
    m ∈ (annotateType s.document.declarations s.name n t).keyFieldNames ↔ s.KeySelects n m := by
  rw [TypeDeclaration.keyFieldNames, List.mem_flatMap]
  simp only [mem_keys_annotateType_iff hfaults ht hobject]
  constructor
  · rintro ⟨k, ⟨b, hb, d, hd, hkey, hk⟩, hm⟩
    obtain ⟨source, hsource, hF, _⟩ := fieldSetOf_eq_ok_iff.1 (keyOf_eq_ok_iff.1 hk).1
    exact ⟨b, hb, d, hd, hkey, source, hsource, k.fields, by simp [hF, Except.toOption], hm⟩
  · rintro ⟨b, hb, d, hd, hkey, source, hsource, F, hF, hm⟩
    obtain ⟨k, hk⟩ := exists_keyOf hfaults ht hobject hb hd hkey
    obtain ⟨source', hsource', hF', _⟩ := fieldSetOf_eq_ok_iff.1 (keyOf_eq_ok_iff.1 hk).1
    obtain rfl : source = source' := Option.some.inj (Eq.trans (Eq.symm hsource) hsource')
    obtain rfl : F = k.fields := Except.ok.inj ((eq_ok_of_toOption hF).symm.trans hF')
    exact ⟨k, ⟨b, hb, d, hd, hkey, hk⟩, hm⟩

/-- A field that is taken over is so by its only `@override`. -/
theorem takesFrom_iff (hfaults : s.document.faults s.name = []) {t : TypeDeclaration}
    (ht : s.document.declarations.get? n = some t) (hobject : t.kind = .object)
    {f : FieldDeclaration} (hf : t.fields.get? m = some f) {source : String} :
    (annotateField s.document.declarations s.name t.kind n m f).overrides = some source ↔
      s.TakesFrom source n m := by
  have hgathered := gathered_of_get?_declarations hfaults ht
  obtain ⟨_, _, hfields, _⟩ :=
    typeDirectiveFaults_eq_nil_iff.1 (Document.typeDirectiveFaults_eq_nil hfaults ht)
  obtain ⟨hplace, _, hannotations⟩ :=
    fieldDirectiveFaults_eq_nil_iff.1 (hfields _ (Table.get?_eq_some_iff.1 hf))
  have hoverrides : (annotateField s.document.declarations s.name t.kind n m f).overrides =
      firstRead? "override" (overrideOf s.name (.field n m)) f.definition.directives := by
    rw [annotateField, if_pos hobject]
  rw [hoverrides]
  constructor
  · intro h
    obtain ⟨b, hb, g, hg, rfl⟩ := hgathered.get?_fields_iff.1 hf
    obtain ⟨d, hd, hname, hread⟩ := exists_of_firstRead? h
    exact ⟨b, g, ⟨hb, (hgathered.kind b hb).trans hobject, hg⟩, d, hd, hname,
      (overrideOf_eq_ok_iff.1 hread).1⟩
  · rintro ⟨b, g, ⟨hb, _, hg⟩, d, hd, hname, hsource⟩
    have hget := hgathered.get?_fields_iff.2 ⟨b, hb, g, hg, rfl⟩
    obtain rfl : f = b.declare g := Option.some.inj (hf.symm.trans hget)
    -- The directive can be read, for nothing is wrong with it.
    have hnone : errors [overrideOf s.name (.field n m) d] = [] := by
      simpa only [annotationFaults, hname] using hannotations hobject d hd
    obtain ⟨x, hx⟩ := errors_eq_nil_iff.1 hnone _ (List.mem_singleton_self _)
    obtain rfl : source = x :=
      Option.some.inj (hsource.symm.trans (overrideOf_eq_ok_iff.1 hx).1)
    exact firstRead?_eq_some_of_unique hd hname hx fun e he hename =>
      eq_of_overrides hplace he hd hename hname

/-- A subgraph contributes the fields of object types that it writes. -/
theorem exists_contribution_iff (hfaults : s.document.faults s.name = []) :
    (∃ D d, s.schema.contribution.types.get? n = some D ∧ D.kind = .object ∧
      D.fields.get? m = some d) ↔ ∃ b f, s.Writes n m b f := by
  constructor
  · rintro ⟨D, d, hD, hobject, hd⟩
    rw [get?_types_contribution] at hD
    obtain ⟨t, ht, rfl⟩ := Option.map_eq_some_iff.1 hD
    rw [get?_fields_contribution] at hd
    obtain ⟨f, hf, rfl⟩ := Option.map_eq_some_iff.1 hd
    have hgathered := gathered_of_get?_declarations hfaults ht
    obtain ⟨b, hb, g, hg, rfl⟩ := hgathered.get?_fields_iff.1 hf
    exact ⟨b, g, hb, (hgathered.kind b hb).trans hobject, hg⟩
  · rintro ⟨b, f, h⟩
    obtain ⟨t, ht, hobject, hf⟩ := h.exists_declaration hfaults
    have hD := s.get?_types_contribution (n := n)
    rw [ht, Option.map_some] at hD
    exact ⟨_, _, hD, hobject, by rw [get?_fields_contribution, hf, Option.map_some]⟩

/-- **What a subgraph contributes** can be told from its text: a field is external if it is marked
so and no key selects it, shareable if it is marked so or a key selects it or the subgraph is a
Federation 1 one, and taken over from whom the text says. -/
theorem contributed_iff (hfaults : s.document.faults s.name = []) {D : TypeDeclaration}
    (hD : s.schema.contribution.types.get? n = some D) (hobject : D.kind = .object)
    {d : FieldDeclaration} (hd : D.fields.get? m = some d) :
    (d.external = true ↔ s.Marks "external" n m ∧ ¬ s.KeySelects n m) ∧
    (d.shareable = true ↔
      s.Marks "shareable" n m ∨ s.KeySelects n m ∨ s.document.version = .v1) ∧
    ∀ source, d.overrides = some source ↔ s.TakesFrom source n m := by
  rw [get?_types_contribution] at hD
  obtain ⟨t, ht, rfl⟩ := Option.map_eq_some_iff.1 hD
  rw [get?_fields_contribution] at hd
  obtain ⟨f, hf, rfl⟩ := Option.map_eq_some_iff.1 hd
  refine ⟨?_, ?_, fun source => ?_⟩
  · rw [marks_iff hfaults ht hobject hf FieldDeclaration.external fun _ _ => rfl,
      ← keySelects_iff hfaults ht hobject]
    simp [FieldDeclaration.contribution]
  · rw [marks_iff hfaults ht hobject hf FieldDeclaration.shareable fun _ _ => rfl,
      ← keySelects_iff hfaults ht hobject]
    have hshareable : (annotateField s.document.declarations s.name t.kind n m f).shareable =
        f.shareable := by
      unfold annotateField
      split <;> rfl
    simp [FieldDeclaration.contribution, hshareable, or_assoc]
  · rw [← takesFrom_iff hfaults ht hobject hf]
    rfl

end Contributed

end Subgraph

end Federation
