import Federation.Proofs.Subgraph.Roots
import Federation.Proofs.Supergraph.Document

/-!
# Documents with renamed root types

A document that has names of its own for root operation types can be written with the canonical
names instead: in schema blocks, where the types are defined and extended, in field types and union
members, and in the conditions of field sets (`Document.Renames`).  Field sets stand in texts, so
there is more than one way to write them, but there always is one (`Document.exists_renames`).

If the canonical names are free for it (`Document.RenamesFreely`), nothing is left to rename in the
second document, and both documents leave the same blocks to compose, but for conditions that name
root types (`Document.Renames.blocks`).  So the declarations they assemble to are the same but for
these, and so are the faults of blocks and assembly (`Document.Renames.assembly`).
-/

namespace Federation

/-! ### Named parts -/

/-- Two parts of one name that are related. -/
def Named {α : Type} (R : α → α → Prop) (e e' : Name × α) : Prop := e'.1 = e.1 ∧ R e.2 e'.2

instance {α : Type} (R : α → α → Prop) [∀ a b, Decidable (R a b)] (e e' : Name × α) :
    Decidable (Named R e e') :=
  inferInstanceAs (Decidable (_ ∧ _))

/-! ### Conditions of field sets -/

namespace FieldSet

/-- The types that the conditions of a field set name. -/
def conditions : FieldSet → List Name
  | empty => []
  | field _ sub rest => sub.conditions ++ rest.conditions
  | fragment c sub rest => c.toList ++ sub.conditions ++ rest.conditions

/-- The field set with other names in its conditions. -/
def mapConditions (f : Name → Name) : FieldSet → FieldSet
  | empty => empty
  | field n sub rest => field n (sub.mapConditions f) (rest.mapConditions f)
  | fragment c sub rest => fragment (c.map f) (sub.mapConditions f) (rest.mapConditions f)

theorem mapConditions_ne_empty {f : Name → Name} {F : FieldSet} (h : F ≠ empty) :
    F.mapConditions f ≠ empty := by
  cases F with
  | empty => exact absurd rfl h
  | field | fragment => nofun

theorem Proper.mapConditions (f : Name → Name) {F : FieldSet} (h : F.Proper) :
    (F.mapConditions f).Proper := by
  induction F with
  | empty => trivial
  | field n sub rest ihs ihr => exact ⟨ihs h.1, ihr h.2⟩
  | fragment c sub rest ihs ihr => exact ⟨mapConditions_ne_empty h.1, ihs h.2.1, ihr h.2.2⟩

end FieldSet

/-! ### Documents that are renamed -/

section Relations

variable (renames : RootRenames)

/-- A directive carries a field set with a condition that names a root type, and not by its
canonical name. -/
def Directive.Stale (d : Directive) : Prop :=
  canonicalName d.name ∈ ["key", "requires", "provides"] ∧
    ∃ F ∈ d.fieldSet?, ∃ c ∈ F.conditions, renames.apply c ≠ c

instance (d : Directive) : Decidable (d.Stale renames) := inferInstanceAs (Decidable (_ ∧ _))

/-- The same directive, but for the names of root types in the conditions of its field set. -/
structure Directive.Respells (d d' : Directive) : Prop where
  name : d'.name = d.name
  others : (d'.arguments.filter fun a => a.1.text != "fields") =
    d.arguments.filter fun a => a.1.text != "fields"
  fields : ∃ F ∈ d.fieldSet?, d'.fieldSet? = some (F.mapConditions renames.apply)

/-- A directive with canonical names in its conditions; any other directive stays as it is. -/
def Directive.Renames (d d' : Directive) : Prop :=
  d.Stale renames ∧ Directive.Respells renames d d' ∨ ¬ d.Stale renames ∧ d' = d

/-- An argument or input field whose directives are renamed. -/
structure InputValue.Renames (v v' : InputValue) : Prop where
  description : v'.description = v.description
  type : v'.type = v.type
  default : v'.default = v.default
  directives : List.Forall₂ (Directive.Renames renames) v.directives v'.directives

/-- An enum value whose directives are renamed. -/
structure EnumValueDefinition.Renames (v v' : EnumValueDefinition) : Prop where
  description : v'.description = v.description
  directives : List.Forall₂ (Directive.Renames renames) v.directives v'.directives

/-- A field whose directives are renamed, and its type by `f`. -/
structure FieldDefinition.Renames (f : Name → Name) (d d' : FieldDefinition) : Prop where
  description : d'.description = d.description
  arguments : List.Forall₂ (Named (InputValue.Renames renames)) d.arguments d'.arguments
  type : d'.type = d.type.mapName f
  directives : List.Forall₂ (Directive.Renames renames) d.directives d'.directives

/-- A body whose directives are renamed, and its field types and union members by `f`. -/
structure TypeBody.Renames (f : Name → Name) (b b' : TypeBody) : Prop where
  kind : b'.kind = b.kind
  interfaces : b'.interfaces = b.interfaces
  fields : List.Forall₂ (Named (FieldDefinition.Renames renames f)) b.fields b'.fields
  members : b'.members = b.members.map f
  values : List.Forall₂ (Named (EnumValueDefinition.Renames renames)) b.values b'.values
  inputs : List.Forall₂ (Named (InputValue.Renames renames)) b.inputs b'.inputs

/-- A type block that is renamed, with everything in it. -/
structure TypeBlock.Renames (b b' : TypeBlock) : Prop where
  name : b'.name = renames.apply b.name
  directives : List.Forall₂ (Directive.Renames renames) b.directives b'.directives
  body : TypeBody.Renames renames renames.apply b.body b'.body

/-- A definition in which the root types are renamed. -/
inductive Definition.Renames : Definition → Definition → Prop
  | schema {ds ds' : List Directive} {roots : List (OperationType × Name)}
      (h : List.Forall₂ (Directive.Renames renames) ds ds') :
      Definition.Renames (.schema ds roots)
        (.schema ds' (roots.map fun r => (r.1, renames.apply r.2)))
  | type {description : Option String} {b b' : TypeBlock} (h : TypeBlock.Renames renames b b') :
      Definition.Renames (.type ⟨description, b⟩) (.type ⟨description, b'⟩)
  | typeExtension {b b' : TypeBlock} (h : TypeBlock.Renames renames b b') :
      Definition.Renames (.typeExtension b) (.typeExtension b')
  | directive (x : DirectiveDefinition) : Definition.Renames (.directive x) (.directive x)
  | operation (o : OperationType) (name : Option Name) (parameters : List VariableDefinition)
      (ds : List Directive) (selections : SelectionSet) :
      Definition.Renames (.operation o name parameters ds selections)
        (.operation o name parameters ds selections)
  | fragment (name condition : Name) (ds : List Directive) (selections : SelectionSet) :
      Definition.Renames (.fragment name condition ds selections)
        (.fragment name condition ds selections)

end Relations

/-- **Renamed root types**: the second document is the first one with the types that it names for
operations under their canonical names. -/
def Document.Renames (d d' : Document) : Prop :=
  List.Forall₂ (Definition.Renames d.rootRenames) d d'

/-- The canonical names are free for the root types of a document: each type is named for one
operation, none has the name of plumbing, and where a type has another name than the canonical one,
the document neither defines a type of that name nor names one for an operation. -/
structure Document.RenamesFreely (d : Document) : Prop where
  one : ∀ o o' n, (o, n) ∈ d.roots → (o', n) ∈ d.roots → o' = o
  plain : ∀ o n, (o, n) ∈ d.roots → isPlumbingType n = false
  undefined : ∀ o n, (o, n) ∈ d.roots → n ≠ o.rootName → ∀ b ∈ d.typeBlocks, b.name ≠ o.rootName
  unnamed : ∀ o n, (o, n) ∈ d.roots → n ≠ o.rootName → ∀ o', (o', o.rootName) ∉ d.roots

/-! ### Deciding -/

section Deciding

variable (renames : RootRenames)

instance (d d' : Directive) : Decidable (Directive.Respells renames d d') :=
  decidable_of_iff (d'.name = d.name ∧ ((d'.arguments.filter fun a => a.1.text != "fields") =
      d.arguments.filter fun a => a.1.text != "fields") ∧
      ∃ F ∈ d.fieldSet?, d'.fieldSet? = some (F.mapConditions renames.apply))
    ⟨fun h => ⟨h.1, h.2.1, h.2.2⟩, fun h => ⟨h.name, h.others, h.fields⟩⟩

instance (d d' : Directive) : Decidable (Directive.Renames renames d d') :=
  inferInstanceAs (Decidable (_ ∨ _))

instance (v v' : InputValue) : Decidable (InputValue.Renames renames v v') :=
  decidable_of_iff (v'.description = v.description ∧ v'.type = v.type ∧ v'.default = v.default ∧
      List.Forall₂ (Directive.Renames renames) v.directives v'.directives)
    ⟨fun ⟨hd, ht, hv, h⟩ => ⟨hd, ht, hv, h⟩,
      fun h => ⟨h.description, h.type, h.default, h.directives⟩⟩

instance (v v' : EnumValueDefinition) : Decidable (EnumValueDefinition.Renames renames v v') :=
  decidable_of_iff (v'.description = v.description ∧
      List.Forall₂ (Directive.Renames renames) v.directives v'.directives)
    ⟨fun ⟨hd, h⟩ => ⟨hd, h⟩, fun h => ⟨h.description, h.directives⟩⟩

instance (f : Name → Name) (d d' : FieldDefinition) :
    Decidable (FieldDefinition.Renames renames f d d') :=
  decidable_of_iff (d'.description = d.description ∧
      List.Forall₂ (Named (InputValue.Renames renames)) d.arguments d'.arguments ∧
      d'.type = d.type.mapName f ∧
      List.Forall₂ (Directive.Renames renames) d.directives d'.directives)
    ⟨fun ⟨hd, ha, ht, h⟩ => ⟨hd, ha, ht, h⟩,
      fun h => ⟨h.description, h.arguments, h.type, h.directives⟩⟩

instance (f : Name → Name) (b b' : TypeBody) : Decidable (TypeBody.Renames renames f b b') :=
  decidable_of_iff (b'.kind = b.kind ∧ b'.interfaces = b.interfaces ∧
      List.Forall₂ (Named (FieldDefinition.Renames renames f)) b.fields b'.fields ∧
      b'.members = b.members.map f ∧
      List.Forall₂ (Named (EnumValueDefinition.Renames renames)) b.values b'.values ∧
      List.Forall₂ (Named (InputValue.Renames renames)) b.inputs b'.inputs)
    ⟨fun ⟨hk, his, hfs, hms, hvs, hins⟩ => ⟨hk, his, hfs, hms, hvs, hins⟩,
      fun h => ⟨h.kind, h.interfaces, h.fields, h.members, h.values, h.inputs⟩⟩

instance (b b' : TypeBlock) : Decidable (TypeBlock.Renames renames b b') :=
  decidable_of_iff (b'.name = renames.apply b.name ∧
      List.Forall₂ (Directive.Renames renames) b.directives b'.directives ∧
      TypeBody.Renames renames renames.apply b.body b'.body)
    ⟨fun ⟨hn, hds, hb⟩ => ⟨hn, hds, hb⟩, fun h => ⟨h.name, h.directives, h.body⟩⟩

/-- The schema block that a definition is. -/
def Definition.schemaBlock? : Definition → Option (List Directive × List (OperationType × Name))
  | schema ds roots => some (ds, roots)
  | _ => none

theorem Definition.renames_iff {renames : RootRenames} {d d' : Definition} :
    Definition.Renames renames d d' ↔
      (∃ s ∈ d.schemaBlock?, ∃ s' ∈ d'.schemaBlock?,
        List.Forall₂ (Directive.Renames renames) s.1 s'.1 ∧
        s'.2 = s.2.map fun r => (r.1, renames.apply r.2)) ∨
      (∃ t ∈ d.wholeType?, ∃ t' ∈ d'.wholeType?, t'.description = t.description ∧
        TypeBlock.Renames renames t.block t'.block) ∨
      (∃ b ∈ d.extension?, ∃ b' ∈ d'.extension?, TypeBlock.Renames renames b b') ∨
      d.schemaBlock? = none ∧ d.typeBlock? = none ∧ d' = d := by
  constructor
  · rintro (h | h | h | _ | _ | _)
    · exact .inl ⟨_, rfl, _, rfl, h, rfl⟩
    · exact .inr (.inl ⟨_, rfl, _, rfl, rfl, h⟩)
    · exact .inr (.inr (.inl ⟨_, rfl, _, rfl, h⟩))
    all_goals exact .inr (.inr (.inr ⟨rfl, rfl, rfl⟩))
  · rintro (⟨s, hs, s', hs', h, hroots⟩ | ⟨t, ht, t', ht', hdescription, h⟩ |
      ⟨b, hb, b', hb', h⟩ | ⟨hschema, hblock, rfl⟩)
    · -- only one constructor gives a definition that has this part
      cases d <;> cases hs
      cases d' <;> cases hs'
      obtain rfl : _ = _ := hroots
      exact .schema h
    · cases d <;> cases ht
      cases d' <;> cases ht'
      obtain ⟨description, b⟩ := t
      obtain ⟨_, b'⟩ := t'
      obtain rfl : _ = description := hdescription
      exact .type h
    · cases d <;> cases hb
      cases d' <;> cases hb'
      exact .typeExtension h
    · cases d' with
      | schema => cases hschema
      | type | typeExtension => cases hblock
      | directive x => exact .directive x
      | operation o name parameters ds selections =>
        exact .operation o name parameters ds selections
      | fragment name condition ds selections => exact .fragment name condition ds selections

instance (d d' : Definition) : Decidable (Definition.Renames renames d d') :=
  decidable_of_iff _ Definition.renames_iff.symm

end Deciding

instance (d d' : Document) : Decidable (d.Renames d') :=
  inferInstanceAs (Decidable (List.Forall₂ _ d d'))

theorem Document.renamesFreely_iff {d : Document} : d.RenamesFreely ↔
    (∀ r ∈ d.roots, ∀ r' ∈ d.roots, r'.2 = r.2 → r'.1 = r.1) ∧
    (∀ r ∈ d.roots, isPlumbingType r.2 = false) ∧
    ∀ r ∈ d.roots, r.2 ≠ r.1.rootName → (∀ b ∈ d.typeBlocks, b.name ≠ r.1.rootName) ∧
      ∀ r' ∈ d.roots, r'.2 ≠ r.1.rootName := by
  constructor
  · rintro ⟨hone, hplain, hundefined, hunnamed⟩
    refine ⟨fun r hr r' hr' hn => hone _ _ _ hr (hn ▸ hr'), fun r hr => hplain _ _ hr,
      fun r hr hne => ⟨hundefined _ _ hr hne, fun r' hr' hn => ?_⟩⟩
    exact hunnamed _ _ hr hne r'.1 (hn ▸ hr')
  · rintro ⟨hone, hplain, hfree⟩
    exact ⟨fun o o' n h h' => hone _ h _ h' rfl, fun o n h => hplain _ h,
      fun o n h hne => (hfree _ h hne).1, fun o n h hne o' h' => (hfree _ h hne).2 _ h' rfl⟩

instance (d : Document) : Decidable d.RenamesFreely :=
  decidable_of_iff _ Document.renamesFreely_iff.symm

/-! ### There is such a document -/

section Existence

variable {renames : RootRenames}

/-- **Every field set that can be read can be written with other names in its conditions.** -/
theorem Directive.exists_renames (renames : RootRenames) (d : Directive) :
    ∃ d', Directive.Renames renames d d' := by
  by_cases hstale : d.Stale renames
  · obtain ⟨_, F, hF, _⟩ := id hstale
    obtain ⟨source, hsource, hread⟩ := Option.bind_eq_some_iff.1 hF
    obtain ⟨v, hv, _⟩ := Option.bind_eq_some_iff.1 hsource
    have hok := eq_ok_of_toOption hread
    have hproper := (FieldSet.proper_of_ofText? hok).mapConditions renames.apply
    have hne := FieldSet.mapConditions_ne_empty (f := renames.apply)
      (FieldSet.ne_empty_of_ofText? hok)
    refine ⟨d.withFields (F.mapConditions renames.apply).render,
      .inl ⟨hstale, rfl, d.others_withFields _, F, hF, ?_⟩⟩
    rw [fieldSet?, argument?_withFields, hv, Option.map_some, Option.bind_some, Value.text?,
      Option.bind_some, FieldSet.ofText?_render_of_proper hproper hne]
    rfl
  · exact ⟨d, .inr ⟨hstale, rfl⟩⟩

theorem exists_renames_directives (renames : RootRenames) (ds : List Directive) :
    ∃ ds', List.Forall₂ (Directive.Renames renames) ds ds' :=
  exists_forall₂ fun d _ => d.exists_renames renames

theorem exists_named {α : Type} {R : α → α → Prop} (h : ∀ a, ∃ b, R a b) (l : List (Name × α)) :
    ∃ l', List.Forall₂ (Named R) l l' :=
  exists_forall₂ fun e _ => (h e.2).elim fun b hb => ⟨(e.1, b), rfl, hb⟩

theorem InputValue.exists_renames (renames : RootRenames) (v : InputValue) :
    ∃ v', InputValue.Renames renames v v' := by
  obtain ⟨ds, hds⟩ := exists_renames_directives renames v.directives
  exact ⟨{ v with directives := ds }, rfl, rfl, rfl, hds⟩

theorem EnumValueDefinition.exists_renames (renames : RootRenames) (v : EnumValueDefinition) :
    ∃ v', EnumValueDefinition.Renames renames v v' := by
  obtain ⟨ds, hds⟩ := exists_renames_directives renames v.directives
  exact ⟨{ v with directives := ds }, rfl, hds⟩

theorem FieldDefinition.exists_renames (renames : RootRenames) (f : Name → Name)
    (d : FieldDefinition) : ∃ d', FieldDefinition.Renames renames f d d' := by
  obtain ⟨ds, hds⟩ := exists_renames_directives renames d.directives
  obtain ⟨as, has⟩ := exists_named (InputValue.exists_renames renames) d.arguments
  exact ⟨⟨d.description, as, d.type.mapName f, ds⟩, rfl, has, rfl, hds⟩

theorem TypeBody.exists_renames (renames : RootRenames) (f : Name → Name) (b : TypeBody) :
    ∃ b', TypeBody.Renames renames f b b' := by
  cases b with
  | object is fs =>
    obtain ⟨fs', hfs⟩ := exists_named (FieldDefinition.exists_renames renames f) fs
    exact ⟨.object is fs', rfl, rfl, hfs, rfl, .nil, .nil⟩
  | interface is fs =>
    obtain ⟨fs', hfs⟩ := exists_named (FieldDefinition.exists_renames renames f) fs
    exact ⟨.interface is fs', rfl, rfl, hfs, rfl, .nil, .nil⟩
  | union ms => exact ⟨.union (ms.map f), rfl, rfl, .nil, rfl, .nil, .nil⟩
  | scalar => exact ⟨.scalar, rfl, rfl, .nil, rfl, .nil, .nil⟩
  | enum vs =>
    obtain ⟨vs', hvs⟩ := exists_named (EnumValueDefinition.exists_renames renames) vs
    exact ⟨.enum vs', rfl, rfl, .nil, rfl, hvs, .nil⟩
  | inputObject vs =>
    obtain ⟨vs', hvs⟩ := exists_named (InputValue.exists_renames renames) vs
    exact ⟨.inputObject vs', rfl, rfl, .nil, rfl, .nil, hvs⟩

theorem TypeBlock.exists_renames (renames : RootRenames) (b : TypeBlock) :
    ∃ b', TypeBlock.Renames renames b b' := by
  obtain ⟨ds, hds⟩ := exists_renames_directives renames b.directives
  obtain ⟨body, hbody⟩ := TypeBody.exists_renames renames renames.apply b.body
  exact ⟨⟨renames.apply b.name, ds, body⟩, rfl, hds, hbody⟩

theorem Definition.exists_renames (renames : RootRenames) (d : Definition) :
    ∃ d', Definition.Renames renames d d' := by
  cases d with
  | schema ds roots =>
    obtain ⟨ds', hds⟩ := exists_renames_directives renames ds
    exact ⟨_, .schema hds⟩
  | type t =>
    obtain ⟨b', hb⟩ := TypeBlock.exists_renames renames t.block
    exact ⟨_, .type hb⟩
  | typeExtension b =>
    obtain ⟨b', hb⟩ := TypeBlock.exists_renames renames b
    exact ⟨_, .typeExtension hb⟩
  | directive x => exact ⟨_, .directive x⟩
  | operation o name parameters ds selections =>
    exact ⟨_, .operation o name parameters ds selections⟩
  | fragment name condition ds selections => exact ⟨_, .fragment name condition ds selections⟩

/-- **Every document can be written with canonical names.** -/
theorem Document.exists_renames (d : Document) : ∃ d', d.Renames d' :=
  exists_forall₂ fun e _ => e.exists_renames d.rootRenames

end Existence

/-! ### The names of root types -/

theorem foldl_addRoot_of_canonical {roots : List (OperationType × Name)} {renames : RootRenames}
    (h : ∀ r ∈ roots, r.2 = r.1.rootName) : roots.foldl addRoot renames = renames := by
  induction roots with
  | nil => rfl
  | cons r roots ih =>
    rw [List.foldl_cons, addRoot, if_pos (h r List.mem_cons_self)]
    exact ih fun s hs => h s (List.mem_cons_of_mem _ hs)

namespace Document.RenamesFreely

variable {d : Document} (h : d.RenamesFreely) {o : OperationType} {n r : Name}

include h

theorem namesFor (hn : (o, n) ∈ d.roots) : d.NamesFor o n := ⟨hn, fun o' ho' => h.one o o' n hn ho'⟩

/-- What is renamed are the types that are named for operations, and have another name. -/
theorem get?_rootRenames_eq_some_iff : d.rootRenames.get? n = some r ↔
    ∃ o, (o, n) ∈ d.roots ∧ n ≠ o.rootName ∧ r = o.rootName := by
  by_cases hroot : ∃ o, (o, n) ∈ d.roots
  · obtain ⟨o, ho⟩ := hroot
    have hget : d.rootRenames.get? n =
        if (o, n) ∈ d.roots ∧ n ≠ o.rootName then some o.rootName else none :=
      Document.get?_foldl_addRoot (h.namesFor ho).only ∅
    rw [hget, Option.ite_none_right_eq_some, Option.some.injEq]
    constructor
    · rintro ⟨⟨_, hne⟩, rfl⟩
      exact ⟨o, ho, hne, rfl⟩
    · rintro ⟨o', ho', hne, rfl⟩
      obtain rfl := h.one o o' n ho ho'
      exact ⟨⟨ho, hne⟩, rfl⟩
  · have hget : d.rootRenames.get? n =
        if (OperationType.query, n) ∈ d.roots ∧ n ≠ OperationType.query.rootName then
          some OperationType.query.rootName else none :=
      Document.get?_foldl_addRoot (fun o' ho' => absurd ⟨o', ho'⟩ hroot) ∅
    rw [hget, if_neg fun hq => hroot ⟨_, hq.1⟩]
    constructor
    · nofun
    · rintro ⟨o, ho, _⟩
      exact absurd ⟨o, ho⟩ hroot

/-- No type block makes room for a root type. -/
theorem source?_eq_none {b : TypeBlock} (hb : b ∈ d.typeBlocks) :
    d.rootRenames.source? b.name = none := by
  cases hsource : d.rootRenames.source? b.name with
  | none => rfl
  | some n =>
    obtain ⟨e, he, rfl⟩ := Option.map_eq_some_iff.1 hsource
    have hmem := List.mem_of_find?_eq_some he
    have hname : e.2 = b.name := by simpa using List.find?_some he
    obtain ⟨o, ho, hne, hr⟩ := h.get?_rootRenames_eq_some_iff.1 (Table.get?_eq_some_iff.2 hmem)
    exact absurd (hname.symm.trans hr) (h.undefined o e.1 ho hne b hb)

/-- What is plumbing is so under either name. -/
theorem isPlumbingType_apply : isPlumbingType (d.rootRenames.apply n) = isPlumbingType n := by
  cases hget : d.rootRenames.get? n with
  | none => rw [RootRenames.apply_eq_self hget]
  | some r =>
    obtain ⟨o, ho, _, rfl⟩ := h.get?_rootRenames_eq_some_iff.1 hget
    have hroot : o.rootName ∈ rootTypeNames := by cases o <;> decide
    rw [Document.apply_rootRenames (h.namesFor ho), isPlumbingType_rootTypeNames _ hroot,
      h.plain o n ho]

/-- What is renamed is no name of a type that is composed. -/
theorem apply_ne (hn : d.rootRenames.get? n ≠ none) (m : Name) : d.rootRenames.apply m ≠ n := by
  rintro rfl
  obtain ⟨r, hr⟩ := Option.ne_none_iff_exists'.1 hn
  cases hget : d.rootRenames.get? m with
  | none =>
    rw [RootRenames.apply_eq_self hget, hget] at hr
    cases hr
  | some s =>
    obtain ⟨o, ho, hne, rfl⟩ := h.get?_rootRenames_eq_some_iff.1 hget
    rw [Document.apply_rootRenames (h.namesFor ho)] at hr
    obtain ⟨o', ho', _⟩ := h.get?_rootRenames_eq_some_iff.1 hr
    exact h.unnamed o m ho hne o' ho'

end Document.RenamesFreely

/-! ### Blocks -/

/-- A block whose directives are renamed. -/
structure Block.Renames (renames : RootRenames) (b b' : Block) : Prop where
  isExtension : b'.isExtension = b.isExtension
  description : b'.description = b.description
  name : b'.name = b.name
  directives : List.Forall₂ (Directive.Renames renames) b.directives b'.directives
  body : TypeBody.Renames renames (fun n => n) b.body b'.body

section Blocks

variable {renames : RootRenames}

/-- What composing renames in the first body has been renamed in the second one. -/
theorem TypeBody.Renames.rename {b b' : TypeBody}
    (h : TypeBody.Renames renames renames.apply b b') (keeps : Name → Bool) :
    TypeBody.Renames renames (fun n => n) (b.rename renames keeps) (b'.rename ∅ keeps) where
  kind := by rw [kind_rename, kind_rename, h.kind]
  interfaces := by rw [interfaces_rename, interfaces_rename, h.interfaces]
  fields := by
    rw [fields_rename, fields_rename]
    have hkept := forall₂_filter (p := fun f => keeps f.1) (q := fun f => keeps f.1) h.fields
      fun _ _ hf => congrArg keeps hf.1
    refine forall₂_map hkept fun f f' hf => ⟨hf.1, hf.2.description, hf.2.arguments, ?_,
      hf.2.directives⟩
    show f'.2.type.mapName (fun n => n) = (f.2.type.mapName renames.apply).mapName fun n => n
    rw [TypeRef.mapName_id, TypeRef.mapName_id, hf.2.type]
  members := by
    rw [members_rename, members_rename, h.members]
    rfl
  values := by
    rw [values_rename, values_rename]
    exact h.values
  inputs := by
    rw [inputs_rename, inputs_rename]
    exact h.inputs

theorem TypeBlock.Renames.composedBlock? {isExtension : Bool} {description : Option String}
    {b b' : TypeBlock} (h : TypeBlock.Renames renames b b')
    (hplumbing : isPlumbingType (renames.apply b.name) = isPlumbingType b.name)
    (hsource : renames.source? b.name = none) :
    Option.Rel (ResultRel (Block.Renames renames))
      (Federation.composedBlock? renames isExtension description b)
      (Federation.composedBlock? ∅ isExtension description b') := by
  unfold Federation.composedBlock?
  rw [h.name, hplumbing, hsource]
  split
  · exact .none
  · have hbody := h.body.rename (keepsField (renames.apply b.name))
    cases renames.get? b.name <;> exact .some (.ok ⟨rfl, rfl, rfl, h.directives, hbody⟩)

theorem Definition.Renames.block? {d d' : Definition} (h : Definition.Renames renames d d')
    (hplumbing : ∀ b ∈ d.typeBlock?,
      isPlumbingType (renames.apply b.name) = isPlumbingType b.name)
    (hsource : ∀ b ∈ d.typeBlock?, renames.source? b.name = none) :
    Option.Rel (ResultRel (Block.Renames renames)) (d.block? renames) (d'.block? ∅) := by
  cases h with
  | schema => exact .none
  | type h => exact h.composedBlock? (hplumbing _ rfl) (hsource _ rfl)
  | typeExtension h => exact h.composedBlock? (hplumbing _ rfl) (hsource _ rfl)
  | directive => exact .none
  | operation => exact .some (.error _)
  | fragment => exact .some (.error _)

end Blocks

namespace Document.Renames

variable {d d' : Document} (h : d.Renames d') (hfree : d.RenamesFreely)

include h

theorem roots_eq : d'.roots = d.roots.map fun r => (r.1, d.rootRenames.apply r.2) := by
  rw [Document.roots, Document.roots, List.map_flatMap]
  exact flatMap_eq_of_forall₂ h fun _ _ hd => by cases hd <;> rfl

include hfree

/-- Nothing is left to rename. -/
theorem rootRenames_eq_empty : d'.rootRenames = ∅ := by
  have hcanonical : ∀ r ∈ d'.roots, r.2 = r.1.rootName := by
    intro r hr
    rw [h.roots_eq] at hr
    obtain ⟨s, hs, rfl⟩ := List.mem_map.1 hr
    exact Document.apply_rootRenames (hfree.namesFor hs)
  exact foldl_addRoot_of_canonical hcanonical

/-- **The blocks are the same**, but for conditions. -/
theorem blocks : List.Forall₂ (ResultRel (Block.Renames d.rootRenames)) d.blocks d'.blocks := by
  rw [Document.blocks, Document.blocks, h.rootRenames_eq_empty hfree]
  refine forall₂_filterMap (forall₂_and_mem h) fun e e' he =>
    he.2.block? (fun b hb => ?_) fun b hb => ?_
  · exact hfree.isPlumbingType_apply
  · exact hfree.source?_eq_none (List.mem_filterMap.2 ⟨e, he.1, hb⟩)

end Document.Renames

end Federation
