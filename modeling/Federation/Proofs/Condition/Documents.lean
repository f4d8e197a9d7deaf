import Federation.Proofs.Condition.Directives

/-!
# Conditions in documents

Two documents that differ in nothing but conditions on the type itself (`Document.Conditioned`)
leave the same blocks to compose, which again differ in nothing else
(`Document.Conditioned.blocks`): a condition names a type as the document has it, so it still does
after root types have been renamed, unless it is one of these.  The blocks assemble to the same
declarations, with the same faults (`Document.Conditioned.declarations`,
`Document.Conditioned.assembly`).
-/

namespace Federation

/-! ### Definitions and blocks -/

/-- A field definition whose directives may have got conditions; what a site is depends on the type
that the field returns. -/
structure FieldDefinition.Conditioned (site : Name → String → Option Name)
    (f f' : FieldDefinition) : Prop where
  description : f'.description = f.description
  arguments : f'.arguments = f.arguments
  type : f'.type = f.type
  directives : Conditions (site f.type.innerName) f.directives f'.directives

theorem FieldDefinition.Conditioned.refl (site : Name → String → Option Name)
    (f : FieldDefinition) : FieldDefinition.Conditioned site f f :=
  ⟨rfl, rfl, rfl, .refl _ _⟩

/-- Named fields whose directives may have got conditions. -/
def ConditionedFields (site : Name → String → Option Name) :
    List (Name × FieldDefinition) → List (Name × FieldDefinition) → Prop :=
  List.Forall₂ fun f f' => f'.1 = f.1 ∧ FieldDefinition.Conditioned site f.2 f'.2

/-- A body in which directives of fields may have got conditions. -/
structure TypeBody.Conditioned (site : Name → String → Option Name) (b b' : TypeBody) :
    Prop where
  kind : b'.kind = b.kind
  interfaces : b'.interfaces = b.interfaces
  fields : ConditionedFields site b.fields b'.fields
  members : b'.members = b.members
  values : b'.values = b.values
  inputs : b'.inputs = b.inputs

theorem TypeBody.Conditioned.refl (site : Name → String → Option Name) (b : TypeBody) :
    TypeBody.Conditioned site b b :=
  ⟨rfl, rfl, List.forall₂_same.2 fun f _ => ⟨rfl, .refl site f.2⟩, rfl, rfl, rfl⟩

/-- A type block whose directives may have got conditions. -/
structure Block.Conditioned (sites : List String) (b b' : Block) : Prop where
  isExtension : b'.isExtension = b.isExtension
  description : b'.description = b.description
  name : b'.name = b.name
  directives : Conditions (keySite sites b.name) b.directives b'.directives
  body : TypeBody.Conditioned (fieldSite sites b.name) b.body b'.body

/-- The types on which conditions may be put: those that keep their names. -/
def keptSite (renames : RootRenames) (site : String → Option Name) (directive : String) :
    Option Name := (site directive).filter fun T => (renames.get? T).isNone

/-- A type block of a document whose directives may have got conditions. -/
structure TypeBlock.Conditioned (sites : List String) (renames : RootRenames)
    (b b' : TypeBlock) : Prop where
  name : b'.name = b.name
  directives : Conditions (keptSite renames (keySite sites b.name)) b.directives b'.directives
  body : TypeBody.Conditioned (fun returns => keptSite renames (fieldSite sites b.name returns))
    b.body b'.body

/-- A definition of a document whose directives may have got conditions. -/
inductive Definition.Conditioned (sites : List String) (renames : RootRenames) :
    Definition → Definition → Prop
  | refl (d : Definition) : Definition.Conditioned sites renames d d
  | type {description : Option String} {b b' : TypeBlock}
      (h : TypeBlock.Conditioned sites renames b b') :
      Definition.Conditioned sites renames (.type ⟨description, b⟩) (.type ⟨description, b'⟩)
  | typeExtension {b b' : TypeBlock} (h : TypeBlock.Conditioned sites renames b b') :
      Definition.Conditioned sites renames (.typeExtension b) (.typeExtension b')

/-- **Conditions on the type itself**: the second document is the first one, where any number of
the directives in `sites` have their field set behind a condition on the type from which it
selects, which is no renamed root type. -/
def Document.Conditioned (sites : List String) (d d' : Document) : Prop :=
  List.Forall₂ (Definition.Conditioned sites d.rootRenames) d d'

/-! ### Deciding -/

instance (site : Name → String → Option Name) (f f' : FieldDefinition) :
    Decidable (FieldDefinition.Conditioned site f f') :=
  decidable_of_iff (f'.description = f.description ∧ f'.arguments = f.arguments ∧
      f'.type = f.type ∧ Conditions (site f.type.innerName) f.directives f'.directives)
    ⟨fun ⟨hd, ha, ht, h⟩ => ⟨hd, ha, ht, h⟩,
      fun h => ⟨h.description, h.arguments, h.type, h.directives⟩⟩

instance (site : Name → String → Option Name) (fs fs' : List (Name × FieldDefinition)) :
    Decidable (ConditionedFields site fs fs') :=
  inferInstanceAs (Decidable (List.Forall₂ _ fs fs'))

instance (site : Name → String → Option Name) (b b' : TypeBody) :
    Decidable (TypeBody.Conditioned site b b') :=
  decidable_of_iff (b'.kind = b.kind ∧ b'.interfaces = b.interfaces ∧
      ConditionedFields site b.fields b'.fields ∧ b'.members = b.members ∧
      b'.values = b.values ∧ b'.inputs = b.inputs)
    ⟨fun ⟨hk, his, hfs, hms, hvs, hins⟩ => ⟨hk, his, hfs, hms, hvs, hins⟩,
      fun h => ⟨h.kind, h.interfaces, h.fields, h.members, h.values, h.inputs⟩⟩

instance (sites : List String) (renames : RootRenames) (b b' : TypeBlock) :
    Decidable (TypeBlock.Conditioned sites renames b b') :=
  decidable_of_iff (b'.name = b.name ∧
      Conditions (keptSite renames (keySite sites b.name)) b.directives b'.directives ∧
      TypeBody.Conditioned (fun returns => keptSite renames (fieldSite sites b.name returns))
        b.body b'.body)
    ⟨fun ⟨hn, hds, hb⟩ => ⟨hn, hds, hb⟩, fun h => ⟨h.name, h.directives, h.body⟩⟩

/-- The whole type definition that a definition is. -/
def Definition.wholeType? : Definition → Option TypeDefinition
  | type t => some t
  | _ => none

/-- The type extension that a definition is. -/
def Definition.extension? : Definition → Option TypeBlock
  | typeExtension b => some b
  | _ => none

theorem Definition.conditioned_iff {sites : List String} {renames : RootRenames}
    {d d' : Definition} : Definition.Conditioned sites renames d d' ↔ d' = d ∨
      (∃ t ∈ d.wholeType?, ∃ t' ∈ d'.wholeType?, t'.description = t.description ∧
        TypeBlock.Conditioned sites renames t.block t'.block) ∨
      ∃ b ∈ d.extension?, ∃ b' ∈ d'.extension?, TypeBlock.Conditioned sites renames b b' := by
  constructor
  · rintro (_ | h | h)
    · exact .inl rfl
    · exact .inr (.inl ⟨_, rfl, _, rfl, rfl, h⟩)
    · exact .inr (.inr ⟨_, rfl, _, rfl, h⟩)
  · rintro (rfl | ⟨t, ht, t', ht', hdescription, h⟩ | ⟨b, hb, b', hb', h⟩)
    · exact .refl _
    · cases d <;> cases ht
      cases d' <;> cases ht'
      obtain ⟨description, b⟩ := t
      obtain ⟨_, b'⟩ := t'
      obtain rfl : _ = description := hdescription
      exact .type h
    · cases d <;> cases hb
      cases d' <;> cases hb'
      exact .typeExtension h

instance (sites : List String) (renames : RootRenames) (d d' : Definition) :
    Decidable (Definition.Conditioned sites renames d d') :=
  decidable_of_iff _ Definition.conditioned_iff.symm

instance (sites : List String) (d d' : Document) : Decidable (Document.Conditioned sites d d') :=
  inferInstanceAs (Decidable (List.Forall₂ _ d d'))

/-! ### The blocks of a document -/

section Bodies

variable (renames : RootRenames) (keeps : Name → Bool) (b : TypeBody)

theorem TypeBody.kind_rename : (b.rename renames keeps).kind = b.kind := by
  cases b <;> rfl

theorem TypeBody.interfaces_rename : (b.rename renames keeps).interfaces = b.interfaces := by
  cases b <;> rfl

theorem TypeBody.fields_rename : (b.rename renames keeps).fields =
    (b.fields.filter fun f => keeps f.1).map fun f => (f.1, f.2.renameType renames) := by
  cases b <;> rfl

theorem TypeBody.members_rename :
    (b.rename renames keeps).members = b.members.map renames.apply := by
  cases b <;> rfl

theorem TypeBody.values_rename : (b.rename renames keeps).values = b.values := by
  cases b <;> rfl

theorem TypeBody.inputs_rename : (b.rename renames keeps).inputs = b.inputs := by
  cases b <;> rfl

end Bodies

section Renaming

variable {renames : RootRenames} {sites : List String}

theorem keptSite_eq_some_iff {site : String → Option Name} {s : String} {T : Name} :
    keptSite renames site s = some T ↔ site s = some T ∧ renames.get? T = none := by
  simp [keptSite, Option.filter_eq_some_iff]

theorem RootRenames.apply_eq_self {T : Name} (h : renames.get? T = none) :
    renames.apply T = T := by
  rw [apply, h]
  rfl

/-- A condition on a type that keeps its name is one on the type as it is composed. -/
theorem keySite_apply {T U : Name} {s : String}
    (h : keptSite renames (keySite sites T) s = some U) :
    keySite sites (renames.apply T) s = some U := by
  obtain ⟨h, hU⟩ := keptSite_eq_some_iff.1 h
  simp only [keySite, Option.ite_none_right_eq_some, Option.some.injEq] at h ⊢
  obtain ⟨hs, rfl⟩ := h
  exact ⟨hs, RootRenames.apply_eq_self hU⟩

theorem fieldSite_apply {T R U : Name} {s : String}
    (h : keptSite renames (fieldSite sites T R) s = some U) :
    fieldSite sites (renames.apply T) (renames.apply R) s = some U := by
  obtain ⟨h, hU⟩ := keptSite_eq_some_iff.1 h
  unfold fieldSite at h ⊢
  split at h
  · rename_i hs
    cases h
    rw [if_pos hs, RootRenames.apply_eq_self hU]
  · rename_i hs
    rw [if_neg hs]
    split at h
    · rename_i hs
      cases h
      rw [if_pos hs, RootRenames.apply_eq_self hU]
    · cases h

theorem FieldDefinition.Conditioned.renameType {T : Name} {f f' : FieldDefinition}
    (h : FieldDefinition.Conditioned (fun R => keptSite renames (fieldSite sites T R)) f f') :
    FieldDefinition.Conditioned (fieldSite sites (renames.apply T)) (f.renameType renames)
      (f'.renameType renames) where
  description := h.description
  arguments := h.arguments
  type := congrArg (TypeRef.mapName renames.apply) h.type
  directives := by
    refine h.directives.mono fun s U hU => ?_
    show fieldSite sites (renames.apply T) (f.type.mapName renames.apply).innerName s = some U
    rw [TypeRef.innerName_mapName]
    exact fieldSite_apply hU

theorem TypeBody.Conditioned.rename {T : Name} {b b' : TypeBody}
    (h : TypeBody.Conditioned (fun R => keptSite renames (fieldSite sites T R)) b b')
    (keeps : Name → Bool) :
    TypeBody.Conditioned (fieldSite sites (renames.apply T)) (b.rename renames keeps)
      (b'.rename renames keeps) where
  kind := by rw [kind_rename, kind_rename, h.kind]
  interfaces := by rw [interfaces_rename, interfaces_rename, h.interfaces]
  fields := by
    rw [fields_rename, fields_rename]
    have hkept := forall₂_filter (p := fun f => keeps f.1) (q := fun f => keeps f.1) h.fields
      fun _ _ hf => congrArg keeps hf.1
    exact forall₂_map hkept fun _ _ hf => ⟨hf.1, hf.2.renameType⟩
  members := by rw [members_rename, members_rename, h.members]
  values := by rw [values_rename, values_rename, h.values]
  inputs := by rw [inputs_rename, inputs_rename, h.inputs]

/-- The block that is left of a type block is the same, but for the conditions. -/
theorem TypeBlock.Conditioned.composedBlock? {isExtension : Bool} {description : Option String}
    {b b' : TypeBlock} (h : TypeBlock.Conditioned sites renames b b') :
    Option.Rel (ResultRel (Block.Conditioned sites))
      (Federation.composedBlock? renames isExtension description b)
      (Federation.composedBlock? renames isExtension description b') := by
  unfold Federation.composedBlock?
  rw [h.name]
  split
  · exact .none
  · cases renames.get? b.name <;> cases renames.source? b.name
    case none.some => exact .some (.error _)
    all_goals
      have hdirectives := h.directives.mono fun _ _ => keySite_apply
      have hbody := h.body.rename
        fun f => !(renames.apply b.name = OperationType.query.rootName && isPlumbingField f)
      exact .some (.ok ⟨rfl, rfl, rfl, hdirectives, hbody⟩)

theorem Definition.Conditioned.block? {d d' : Definition}
    (h : Definition.Conditioned sites renames d d') :
    Option.Rel (ResultRel (Block.Conditioned sites)) (d.block? renames) (d'.block? renames) := by
  have hrefl : ∀ b : Block, Block.Conditioned sites b b := fun b =>
    ⟨rfl, rfl, rfl, .refl _ _, .refl _ _⟩
  cases h with
  | refl d =>
    cases d.block? renames with
    | none => exact .none
    | some r => exact .some (.refl hrefl r)
  | type h => exact h.composedBlock?
  | typeExtension h => exact h.composedBlock?

end Renaming

namespace Document.Conditioned

variable {sites : List String} {d d' : Document} (h : Document.Conditioned sites d d')

include h

theorem rootRenames_eq : d'.rootRenames = d.rootRenames := by
  have hroots : d'.flatMap Definition.rootOperations = d.flatMap Definition.rootOperations :=
    flatMap_eq_of_forall₂ h fun _ _ hd => by cases hd <;> rfl
  rw [Document.rootRenames, Document.rootRenames, hroots]

theorem schemaDirectives_eq :
    d'.flatMap Definition.schemaDirectives = d.flatMap Definition.schemaDirectives :=
  flatMap_eq_of_forall₂ h fun _ _ hd => by cases hd <;> rfl

theorem schemaFaults_eq : d'.schemaFaults = d.schemaFaults :=
  flatMap_eq_of_forall₂ h fun _ _ hd => by cases hd <;> rfl

theorem blocks : List.Forall₂ (ResultRel (Block.Conditioned sites)) d.blocks d'.blocks := by
  rw [Document.blocks, Document.blocks, h.rootRenames_eq]
  exact forall₂_filterMap h fun _ _ hd => hd.block?

end Document.Conditioned

/-! ### Declarations -/

/-- A declared field whose directives, and so what it provides and requires, may have got
conditions. -/
structure FieldDeclaration.Conditioned (sites : List String) (type : Name)
    (f f' : FieldDeclaration) : Prop where
  definition : FieldDefinition.Conditioned (fieldSite sites type) f.definition f'.definition
  shareable : f'.shareable = f.shareable
  external : f'.external = f.external
  provides : Option.Rel (FieldSet.Conditioned
    (fieldSite sites type f.definition.type.innerName "provides")) f.provides f'.provides
  requires : Option.Rel (FieldSet.Conditioned
    (fieldSite sites type f.definition.type.innerName "requires")) f.requires f'.requires
  overrides : f'.overrides = f.overrides

/-- A declared type whose directives and keys may have got conditions. -/
structure TypeDeclaration.Conditioned (sites : List String) (type : Name)
    (t t' : TypeDeclaration) : Prop where
  kind : t'.kind = t.kind
  description : t'.description = t.description
  directives : Conditions (keySite sites type) t.directives t'.directives
  interfaces : t'.interfaces = t.interfaces
  fields : Table.Rel (fun _ => FieldDeclaration.Conditioned sites type) t.fields t'.fields
  members : t'.members = t.members
  values : t'.values = t.values
  inputs : t'.inputs = t.inputs
  keys : List.Forall₂ (EntityKey.Conditioned (keySite sites type "key")) t.keys t'.keys

/-- Declarations that may have got conditions. -/
def ConditionedTypes (sites : List String) : Table TypeDeclaration → Table TypeDeclaration → Prop :=
  Table.Rel (TypeDeclaration.Conditioned sites)

theorem FieldDeclaration.Conditioned.refl (sites : List String) (type : Name)
    (f : FieldDeclaration) : FieldDeclaration.Conditioned sites type f f where
  definition := .refl _ _
  shareable := rfl
  external := rfl
  provides := optionRel_refl (.refl _) _
  requires := optionRel_refl (.refl _) _
  overrides := rfl

theorem TypeDeclaration.Conditioned.refl (sites : List String) (type : Name)
    (t : TypeDeclaration) : TypeDeclaration.Conditioned sites type t t where
  kind := rfl
  description := rfl
  directives := .refl _ _
  interfaces := rfl
  fields := Table.rel_refl (fun _ => .refl sites type) _
  members := rfl
  values := rfl
  inputs := rfl
  keys := List.forall₂_same.2 fun k _ => .refl _ k

/-- New entries that are related leave related tables. -/
theorem Table.Rel.addNew {α β : Type} {R : Name → α → β → Prop} {t : Table α} {t' : Table β}
    {es : List (Name × α)} {es' : List (Name × β)} (h : Table.Rel R t t')
    (hes : List.Forall₂ (fun e e' => e'.1 = e.1 ∧ R e.1 e.2 e'.2) es es') :
    Table.Rel R (t.addNew es) (t'.addNew es') := by
  refine Table.Rel.foldl_alter hes (fun _ _ he => he.1) ?_ h
  rintro e e' he a? b? hab
  cases hab with
  | none => exact he.2
  | some hab => exact hab

section Blocks

variable {sites : List String} {b b' : Block} (h : Block.Conditioned sites b b')

include h

theorem Block.Conditioned.isDefinition_eq : b'.isDefinition = b.isDefinition := by
  rw [Block.isDefinition, Block.isDefinition, h.isExtension, h.directives.hasDirective_eq]

theorem Block.Conditioned.declare {f f' : FieldDefinition}
    (hf : FieldDefinition.Conditioned (fieldSite sites b.name) f f') :
    FieldDeclaration.Conditioned sites b.name (b.declare f) (b'.declare f') where
  definition := hf
  shareable := by
    show (_ || _) = (_ || _)
    rw [h.directives.hasDirective_eq, hf.directives.hasDirective_eq]
  external := by
    show (_ || _) = (_ || _)
    rw [h.directives.hasDirective_eq, hf.directives.hasDirective_eq]
  provides := .none
  requires := .none
  overrides := rfl

/-- Folding in blocks that differ in conditions leaves declarations that do. -/
theorem TypeDeclaration.Conditioned.absorb {t t' : TypeDeclaration}
    (ht : TypeDeclaration.Conditioned sites b.name t t') :
    TypeDeclaration.Conditioned sites b.name (t.absorb b) (t'.absorb b') where
  kind := ht.kind
  description := by
    show t'.description.or b'.description = t.description.or b.description
    rw [ht.description, h.description]
  directives := ht.directives.append h.directives
  interfaces := by
    show appendNew t'.interfaces b'.body.interfaces = appendNew t.interfaces b.body.interfaces
    rw [ht.interfaces, h.body.interfaces]
  fields := ht.fields.addNew (forall₂_map h.body.fields fun _ _ hf => ⟨hf.1, h.declare hf.2⟩)
  members := by
    show appendNew t'.members b'.body.members = appendNew t.members b.body.members
    rw [ht.members, h.body.members]
  values := by
    show t'.values.addNew b'.body.values = t.values.addNew b.body.values
    rw [ht.values, h.body.values]
  inputs := by
    show t'.inputs.addNew b'.body.inputs = t.inputs.addNew b.body.inputs
    rw [ht.inputs, h.body.inputs]
  keys := ht.keys

omit h in
/-- What fields define again depends on nothing but their names and those of their arguments. -/
theorem fieldRedefinitions_congr (type : Name) {fs fs' : List (Name × FieldDefinition)}
    (hfs : List.Forall₂ (fun f f' => f'.1 = f.1 ∧
      f'.2.arguments.map Prod.fst = f.2.arguments.map Prod.fst) fs fs')
    (seen : List Name) : TypeDeclaration.fieldRedefinitions type seen fs' =
      TypeDeclaration.fieldRedefinitions type seen fs := by
  induction hfs generalizing seen with
  | nil => rfl
  | @cons f f' _ _ hf _ ih =>
    obtain ⟨n, f⟩ := f
    obtain ⟨n', f'⟩ := f'
    obtain ⟨rfl, harguments⟩ := hf
    rw [TypeDeclaration.fieldRedefinitions, TypeDeclaration.fieldRedefinitions, harguments]
    simp only [ih]

theorem redefinitions_eq {t t' : TypeDeclaration}
    (ht : TypeDeclaration.Conditioned sites b.name t t') :
    t'.redefinitions b.name b' = t.redefinitions b.name b := by
  have hfields := h.body.fields.imp fun _ _ hf =>
    And.intro hf.1 (congrArg (List.map Prod.fst) hf.2.arguments)
  rw [TypeDeclaration.redefinitions, TypeDeclaration.redefinitions, ht.fields.names_eq, ht.values,
    ht.inputs, h.body.values, h.body.inputs, fieldRedefinitions_congr b.name hfields]

end Blocks

/-- Assemblies of related declarations, with the same definitions and faults. -/
structure Assembly.Rel (R : Name → TypeDeclaration → TypeDeclaration → Prop) (a a' : Assembly) :
    Prop where
  types : Table.Rel R a.types a'.types
  defined : a'.defined = a.defined
  faults : a'.faults = a.faults

/-- Blocks of the same name and kind that add related parts to related declarations, and define the
same again, leave the assemblies related. -/
theorem Assembly.Rel.add {R : Name → TypeDeclaration → TypeDeclaration → Prop} {a a' : Assembly}
    {b b' : Block} (ha : Assembly.Rel R a a') (hdefinition : b'.isDefinition = b.isDefinition)
    (hname : b'.name = b.name) (hkind : b'.body.kind = b.body.kind)
    (hnew : R b.name { kind := b.body.kind } { kind := b.body.kind })
    (hadd : ∀ t t', R b.name t t' → t'.kind = t.kind ∧
      t'.redefinitions b.name b' = t.redefinitions b.name b ∧
      R b.name (t.absorb b) (t'.absorb b')) : Assembly.Rel R (a.add b) (a'.add b') := by
  have ht : R b.name ((a.types.get? b.name).getD { kind := b.body.kind })
      ((a'.types.get? b.name).getD { kind := b.body.kind }) := by
    rcases rel_cases (ha.types.get? b.name) with ⟨hnone, hnone'⟩ | ⟨t, t', hsome, hsome', ht⟩
    · rw [hnone, hnone']
      exact hnew
    · rw [hsome, hsome']
      exact ht
  obtain ⟨htkind, hredefinitions, habsorb⟩ := hadd _ _ ht
  -- A block is refused for what it is called, what it is and what has been defined, all of which
  -- it shares with its counterpart.
  unfold Assembly.add
  rw [hdefinition, ha.defined, hname, ha.faults, hkind]
  split
  · exact ⟨ha.types, rfl, rfl⟩
  · simp only [htkind]
    split
    · exact ⟨ha.types, rfl, rfl⟩
    · refine ⟨ha.types.alter b.name fun _ _ _ => habsorb, rfl, ?_⟩
      show _ ++ _ = _ ++ _
      rw [hredefinitions]

/-- Assemblies of declarations that may have got conditions. -/
structure Assembly.Conditioned (sites : List String) (a a' : Assembly) : Prop where
  types : ConditionedTypes sites a.types a'.types
  defined : a'.defined = a.defined
  faults : a'.faults = a.faults

theorem Assembly.Conditioned.add {sites : List String} {a a' : Assembly} {b b' : Block}
    (ha : Assembly.Conditioned sites a a') (h : Block.Conditioned sites b b') :
    Assembly.Conditioned sites (a.add b) (a'.add b') := by
  have hrel : Assembly.Rel (TypeDeclaration.Conditioned sites) a a' :=
    ⟨ha.types, ha.defined, ha.faults⟩
  obtain ⟨htypes, hdefined, hfaults⟩ := hrel.add h.isDefinition_eq h.name h.body.kind (.refl _ _ _)
    fun t t' ht => ⟨ht.kind, redefinitions_eq h ht, ht.absorb h⟩
  exact ⟨htypes, hdefined, hfaults⟩

namespace Document.Conditioned

variable {sites : List String} {d d' : Document} (h : Document.Conditioned sites d d')

include h

theorem assembly : Assembly.Conditioned sites d.assembly d'.assembly :=
  List.rel_foldl (P := Assembly.Conditioned sites) (R := Block.Conditioned sites)
    (fun _ _ ha _ _ hb => ha.add hb)
    (show Assembly.Conditioned sites {} {} from ⟨Table.rel_empty, rfl, rfl⟩)
    (ResultRel.oks h.blocks)

theorem declarations : ConditionedTypes sites d.declarations d'.declarations :=
  h.assembly.types.filter fun _ _ _ ht => by rw [ht.kind, ht.fields.isEmpty_eq]

end Document.Conditioned

end Federation
