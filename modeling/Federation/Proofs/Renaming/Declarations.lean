import Federation.Proofs.Renaming.Documents

/-!
# Declarations of documents with renamed root types

The blocks of a document and of the one with the canonical names assemble to the same declarations,
with the same faults, but for the conditions that name root types (`Document.Renames.assembly`,
`Document.Renames.declarations`).  A declaration without such a condition is the very same
(`TypeDeclaration.Renames.eq_of_fresh`).
-/

namespace Federation

/-! ### Declarations -/

/-- A declared field whose directives are renamed. -/
structure FieldDeclaration.Renames (renames : RootRenames) (f f' : FieldDeclaration) : Prop where
  definition : FieldDefinition.Renames renames (fun n => n) f.definition f'.definition
  shareable : f'.shareable = f.shareable
  external : f'.external = f.external
  provides : f'.provides = f.provides
  requires : f'.requires = f.requires
  overrides : f'.overrides = f.overrides

/-- A declared type whose directives are renamed. -/
structure TypeDeclaration.Renames (renames : RootRenames) (t t' : TypeDeclaration) : Prop where
  kind : t'.kind = t.kind
  description : t'.description = t.description
  directives : List.Forall₂ (Directive.Renames renames) t.directives t'.directives
  interfaces : t'.interfaces = t.interfaces
  fields : Table.Rel (fun _ => FieldDeclaration.Renames renames) t.fields t'.fields
  members : t'.members = t.members
  values : Table.Rel (fun _ => EnumValueDefinition.Renames renames) t.values t'.values
  inputs : Table.Rel (fun _ => InputValue.Renames renames) t.inputs t'.inputs
  keys : t'.keys = t.keys

/-! ### Declarations that stay as they are -/

section Fresh

variable {renames : RootRenames}

/-- Without conditions that name root types, directives stay as they are. -/
theorem directives_eq_of_fresh {ds ds' : List Directive}
    (h : List.Forall₂ (Directive.Renames renames) ds ds')
    (hfresh : ∀ d ∈ ds, ¬ d.Stale renames) : ds' = ds :=
  eq_of_forall₂ h fun d hd _ hr => hr.elim (fun hr => absurd hr.1 (hfresh d hd)) And.right

theorem eq_of_named {α : Type} {R : α → α → Prop} {l l' : List (Name × α)}
    (h : List.Forall₂ (Named R) l l') (heq : ∀ e ∈ l, ∀ a, R e.2 a → a = e.2) : l' = l :=
  eq_of_forall₂ h fun e he _ hr => Prod.ext hr.1 (heq e he _ hr.2)

theorem Table.Rel.eq_of_forall {α : Type} {R : α → α → Prop} {t t' : Table α}
    (h : Table.Rel (fun _ => R) t t') (heq : ∀ e ∈ t.entries, ∀ a, R e.2 a → a = e.2) : t' = t :=
  Table.ext (eq_of_named h heq)

theorem InputValue.Renames.eq_of_fresh {v v' : InputValue} (h : InputValue.Renames renames v v')
    (hfresh : ∀ d ∈ v.directives, ¬ d.Stale renames) : v' = v := by
  have hdirectives := directives_eq_of_fresh h.directives hfresh
  obtain ⟨hdescription, htype, hdefault, _⟩ := h
  cases v'
  cases v
  subst hdescription htype hdefault hdirectives
  rfl

theorem EnumValueDefinition.Renames.eq_of_fresh {v v' : EnumValueDefinition}
    (h : EnumValueDefinition.Renames renames v v')
    (hfresh : ∀ d ∈ v.directives, ¬ d.Stale renames) : v' = v := by
  have hdirectives := directives_eq_of_fresh h.directives hfresh
  obtain ⟨hdescription, _⟩ := h
  cases v'
  cases v
  subst hdescription hdirectives
  rfl

theorem FieldDefinition.Renames.eq_of_fresh {f f' : FieldDefinition}
    (h : FieldDefinition.Renames renames (fun n => n) f f')
    (hfresh : ∀ d ∈ f.directives ++ f.arguments.flatMap fun a => a.2.directives,
      ¬ d.Stale renames) : f' = f := by
  have hdirectives := directives_eq_of_fresh h.directives fun d hd =>
    hfresh d (List.mem_append_left _ hd)
  have harguments := eq_of_named h.arguments fun a ha _ hr => hr.eq_of_fresh fun d hd =>
    hfresh d (List.mem_append_right _ (List.mem_flatMap.2 ⟨a, ha, hd⟩))
  have htype : f'.type = f.type := h.type.trans (TypeRef.mapName_id _)
  obtain ⟨hdescription, _, _, _⟩ := h
  cases f'
  cases f
  subst hdescription harguments htype hdirectives
  rfl

theorem FieldDeclaration.Renames.eq_of_fresh {f f' : FieldDeclaration}
    (h : FieldDeclaration.Renames renames f f')
    (hfresh : ∀ d ∈ f.definition.directives ++
      f.definition.arguments.flatMap fun a => a.2.directives, ¬ d.Stale renames) : f' = f := by
  have hdefinition := h.definition.eq_of_fresh hfresh
  obtain ⟨_, hshareable, hexternal, hprovides, hrequires, hoverrides⟩ := h
  cases f'
  cases f
  subst hdefinition hshareable hexternal hprovides hrequires hoverrides
  rfl

/-- **A declaration that has no condition on a root type stays as it is.** -/
theorem TypeDeclaration.Renames.eq_of_fresh {t t' : TypeDeclaration}
    (h : TypeDeclaration.Renames renames t t')
    (hfresh : ∀ d ∈ t.appliedDirectives, ¬ d.Stale renames) : t' = t := by
  simp only [TypeDeclaration.appliedDirectives, List.forall_mem_append] at hfresh
  obtain ⟨⟨⟨hown, hfields⟩, hvalues⟩, hinputs⟩ := hfresh
  have hdirectives := directives_eq_of_fresh h.directives hown
  have hfields := h.fields.eq_of_forall fun e he _ hr => hr.eq_of_fresh fun d hd =>
    hfields d (List.mem_flatMap.2 ⟨e.2, List.mem_map_of_mem he, hd⟩)
  have hvalues := h.values.eq_of_forall fun e he _ hr => hr.eq_of_fresh fun d hd =>
    hvalues d (List.mem_flatMap.2 ⟨e.2, List.mem_map_of_mem he, hd⟩)
  have hinputs := h.inputs.eq_of_forall fun e he _ hr => hr.eq_of_fresh fun d hd =>
    hinputs d (List.mem_flatMap.2 ⟨e.2, List.mem_map_of_mem he, hd⟩)
  obtain ⟨hkind, hdescription, _, hinterfaces, _, hmembers, _, _, hkeys⟩ := h
  cases t'
  cases t
  subst hkind hdescription hdirectives hinterfaces hfields hmembers hvalues hinputs hkeys
  rfl

end Fresh

/-! ### Folding blocks in -/

section Blocks

variable {renames : RootRenames} {b b' : Block}

theorem Directive.Renames.name_eq {d d' : Directive} (h : Directive.Renames renames d d') :
    d'.name = d.name := by
  rcases h with ⟨_, h⟩ | ⟨_, rfl⟩
  · exact h.name
  · rfl

theorem names_of_renames {ds ds' : List Directive}
    (h : List.Forall₂ (Directive.Renames renames) ds ds') :
    List.Forall₂ (fun d d' => d'.name = d.name) ds ds' :=
  h.imp fun _ _ hd => hd.name_eq

theorem map_fst_of_named {α : Type} {R : α → α → Prop} {l l' : List (Name × α)}
    (h : List.Forall₂ (Named R) l l') : l'.map Prod.fst = l.map Prod.fst :=
  map_eq_of_forall₂ h fun _ _ he => he.1

variable (h : Block.Renames renames b b')

include h

theorem Block.Renames.isDefinition_eq : b'.isDefinition = b.isDefinition := by
  rw [Block.isDefinition, Block.isDefinition, h.isExtension,
    hasDirective_congr (names_of_renames h.directives)]

theorem Block.Renames.declare {f f' : FieldDefinition}
    (hf : FieldDefinition.Renames renames (fun n => n) f f') :
    FieldDeclaration.Renames renames (b.declare f) (b'.declare f') where
  definition := hf
  shareable := by
    show (_ || _) = (_ || _)
    rw [hasDirective_congr (names_of_renames h.directives),
      hasDirective_congr (names_of_renames hf.directives)]
  external := by
    show (_ || _) = (_ || _)
    rw [hasDirective_congr (names_of_renames h.directives),
      hasDirective_congr (names_of_renames hf.directives)]
  provides := rfl
  requires := rfl
  overrides := rfl

/-- Folding in renamed blocks leaves renamed declarations. -/
theorem TypeDeclaration.Renames.absorb {t t' : TypeDeclaration}
    (ht : TypeDeclaration.Renames renames t t') :
    TypeDeclaration.Renames renames (t.absorb b) (t'.absorb b') where
  kind := ht.kind
  description := by
    show t'.description.or b'.description = t.description.or b.description
    rw [ht.description, h.description]
  directives := List.rel_append ht.directives h.directives
  interfaces := by
    show appendNew t'.interfaces b'.body.interfaces = appendNew t.interfaces b.body.interfaces
    rw [ht.interfaces, h.body.interfaces]
  fields := ht.fields.addNew (forall₂_map h.body.fields fun _ _ hf => ⟨hf.1, h.declare hf.2⟩)
  members := by
    show appendNew t'.members b'.body.members = appendNew t.members b.body.members
    rw [ht.members, h.body.members, List.map_id']
  values := ht.values.addNew h.body.values
  inputs := ht.inputs.addNew h.body.inputs
  keys := ht.keys

theorem TypeDeclaration.Renames.redefinitions_eq {t t' : TypeDeclaration}
    (ht : TypeDeclaration.Renames renames t t') (n : Name) :
    t'.redefinitions n b' = t.redefinitions n b := by
  have hfields := h.body.fields.imp fun _ _ hf => And.intro hf.1 (map_fst_of_named hf.2.arguments)
  rw [TypeDeclaration.redefinitions, TypeDeclaration.redefinitions, ht.fields.names_eq,
    ht.values.names_eq, ht.inputs.names_eq, map_fst_of_named h.body.values,
    map_fst_of_named h.body.inputs, fieldRedefinitions_congr n hfields]

end Blocks

namespace Document.Renames

variable {d d' : Document} (h : d.Renames d') (hfree : d.RenamesFreely)

include h hfree

theorem assembly : Assembly.Rel (fun _ => TypeDeclaration.Renames d.rootRenames) d.assembly
    d'.assembly := by
  have hnew : ∀ k, TypeDeclaration.Renames d.rootRenames { kind := k } { kind := k } := fun k =>
    ⟨rfl, rfl, .nil, rfl, Table.rel_empty, rfl, Table.rel_empty, Table.rel_empty, rfl⟩
  refine List.rel_foldl (R := Block.Renames d.rootRenames) (fun a a' ha b b' hb => ?_)
    (show Assembly.Rel _ {} {} from ⟨Table.rel_empty, rfl, rfl⟩) (ResultRel.oks (h.blocks hfree))
  exact ha.add hb.isDefinition_eq hb.name hb.body.kind (hnew _) fun t t' ht =>
    ⟨ht.kind, ht.redefinitions_eq hb _, ht.absorb hb⟩

/-- **The declarations are the same**, but for conditions. -/
theorem declarations : Table.Rel (fun _ => TypeDeclaration.Renames d.rootRenames) d.declarations
    d'.declarations :=
  (h.assembly hfree).types.filter fun _ _ _ ht => by rw [ht.kind, ht.fields.isEmpty_eq]

end Document.Renames

end Federation
