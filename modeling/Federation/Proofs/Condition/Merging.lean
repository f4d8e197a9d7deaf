import Federation.Proofs.Condition.Schemas
import Federation.Proofs.Graph.Merged

/-!
# Conditions and the merge

A key marks the fields that it selects on its type: they are shareable and not external.  It does
not mark those that it selects behind a condition, even one on the type itself.  But for that, what
a schema contributes is equal up to the conditions: it is what the other schema contributes if its
keys mark no more fields (`Schema.contributionMarking`, `Schema.Conditioned.contribution`).  Where
the marks that are lost make no difference (`Schema.KeepsMarks`), that is what the other schema
contributes (`Schema.contributionMarking_eq`).

Contributions that are equal up to conditions make up graphs that are, part by part
(`EqualContributions.graph`).
-/

namespace Federation

/-! ### Contributions -/

/-- A field of a type with all that it contributes equal but for conditions. -/
structure FieldDeclaration.EqualUpTo (sites : List String) (type : Name)
    (f f' : FieldDeclaration) : Prop where
  definition : f'.definition = f.definition
  shareable : f'.shareable = f.shareable
  external : f'.external = f.external
  provides : Option.Rel (FieldSet.Conditioned
    (fieldSite sites type f.definition.type.innerName "provides")) f.provides f'.provides
  requires : Option.Rel (FieldSet.Conditioned
    (fieldSite sites type f.definition.type.innerName "requires")) f.requires f'.requires
  overrides : f'.overrides = f.overrides

/-- A type with all that it contributes equal but for conditions. -/
structure TypeDeclaration.EqualUpTo (sites : List String) (type : Name)
    (t t' : TypeDeclaration) : Prop where
  kind : t'.kind = t.kind
  description : t'.description = t.description
  directives : t'.directives = t.directives
  interfaces : t'.interfaces = t.interfaces
  fields : Table.Rel (fun _ => FieldDeclaration.EqualUpTo sites type) t.fields t'.fields
  members : t'.members = t.members
  values : t'.values = t.values
  inputs : t'.inputs = t.inputs
  keys : List.Forall₂ (EntityKey.Conditioned (keySite sites type "key")) t.keys t'.keys

/-- A schema with all that it contributes equal but for conditions. -/
structure Schema.EqualUpTo (sites : List String) (s s' : Schema) : Prop where
  name : s'.name = s.name
  url : s'.url = s.url
  version : s'.version = s.version
  types : Table.Rel (TypeDeclaration.EqualUpTo sites) s.types s'.types

/-! ### Marks -/

/-- A type as it is contributed if the fields that its keys mark are the given ones. -/
def TypeDeclaration.contributionMarking (marked : List Name) (version : FederationVersion)
    (t : TypeDeclaration) : TypeDeclaration :=
  { t.contribution version with
    fields := t.fields.mapEntries fun n f => f.contribution version (marked.contains n) }

/-- The fields that the keys of a schema mark on a type. -/
def Schema.marks (s : Schema) (type : Name) : List Name :=
  (s.types.get? type).elim [] TypeDeclaration.keyFieldNames

/-- What a schema contributes if the fields that its keys mark are the given ones. -/
def Schema.contributionMarking (marks : Name → List Name) (s : Schema) : Schema :=
  { s with types := s.types.mapEntries fun n t => t.contributionMarking (marks n) s.version }

/-- Whether it makes no difference to a type that its keys mark the given fields: each of its fields
is marked by them if it is by its keys, or is shareable and not external on its own account. -/
def TypeDeclaration.KeepsMarks (marked : List Name) (version : FederationVersion)
    (t : TypeDeclaration) : Prop :=
  ∀ f ∈ t.fields.entries, (f.1 ∈ marked ↔ f.1 ∈ t.keyFieldNames) ∨
    f.2.external = false ∧ (f.2.shareable = true ∨ version = .v1)

instance (marked : List Name) (version : FederationVersion) (t : TypeDeclaration) :
    Decidable (t.KeepsMarks marked version) :=
  inferInstanceAs (Decidable (∀ f ∈ t.fields.entries, _))

/-- Whether it makes no difference to a schema that its keys mark the given fields. -/
def Schema.KeepsMarks (marks : Name → List Name) (s : Schema) : Prop :=
  ∀ t ∈ s.types.entries, t.2.KeepsMarks (marks t.1) s.version

instance (marks : Name → List Name) (s : Schema) : Decidable (s.KeepsMarks marks) :=
  inferInstanceAs (Decidable (∀ t ∈ s.types.entries, _))

/-- A field that is shareable and not external is contributed alike in a key and without. -/
theorem FieldDeclaration.contribution_eq {f : FieldDeclaration} {version : FederationVersion}
    (hexternal : f.external = false) (hshareable : f.shareable = true ∨ version = .v1)
    (inKey : Bool) : f.contribution version inKey = f.contribution version true := by
  have hshared : (f.shareable || inKey || decide (version = .v1)) = true := by
    rcases hshareable with h | h <;> simp [h]
  unfold contribution
  rw [hshared, hexternal]
  simp

theorem TypeDeclaration.contributionMarking_eq {marked : List Name} {version : FederationVersion}
    {t : TypeDeclaration} (h : t.KeepsMarks marked version) :
    t.contributionMarking marked version = t.contribution version := by
  have hfields : (t.fields.mapEntries fun n f => f.contribution version (marked.contains n)) =
      t.fields.mapEntries fun n f => f.contribution version (t.keyFieldNames.contains n) := by
    refine Table.mapEntries_congr fun m f hm => ?_
    rcases h (m, f) (Table.get?_eq_some_iff.1 hm) with hmarked | ⟨hexternal, hshareable⟩
    · have hcontains : marked.contains m = t.keyFieldNames.contains m := by
        rw [Bool.eq_iff_iff, List.contains_iff_mem, List.contains_iff_mem, hmarked]
      rw [hcontains]
    · rw [FieldDeclaration.contribution_eq hexternal hshareable (marked.contains m),
        FieldDeclaration.contribution_eq hexternal hshareable (t.keyFieldNames.contains m)]
  rw [contributionMarking, hfields]
  rfl

theorem Schema.contributionMarking_eq {marks : Name → List Name} {s : Schema}
    (h : s.KeepsMarks marks) : s.contributionMarking marks = s.contribution := by
  have htypes : (s.types.mapEntries fun n t => t.contributionMarking (marks n) s.version) =
      s.types.mapEntries fun _ t => t.contribution s.version :=
    Table.mapEntries_congr fun n t hn =>
      TypeDeclaration.contributionMarking_eq (h (n, t) (Table.get?_eq_some_iff.1 hn))
  rw [contributionMarking, htypes]
  rfl

section Contributions

variable {sites : List String}

/-- A field contributes the same but for conditions, if it is in a key or if it is not. -/
theorem FieldDeclaration.Conditioned.contribution {T : Name} {version : FederationVersion}
    {inKey : Bool} {f f' : FieldDeclaration} (h : FieldDeclaration.Conditioned sites T f f') :
    FieldDeclaration.EqualUpTo sites T (f.contribution version inKey)
      (f'.contribution version inKey) := by
  have hdefinition : f'.definition.contribution = f.definition.contribution := by
    have hd := h.definition.directives.persistedDirectives_eq (onlyFieldSets_fieldSite sites T _)
    show FieldDefinition.mk _ _ _ _ = FieldDefinition.mk _ _ _ _
    rw [h.definition.description, h.definition.arguments, h.definition.type, hd]
  refine ⟨hdefinition, ?_, ?_, h.provides, h.requires, h.overrides⟩
  · show (f'.shareable || _ || _) = (f.shareable || _ || _)
    rw [h.shareable]
  · show (f'.external && !_) = (f.external && !_)
    rw [h.external]

theorem TypeDeclaration.Conditioned.contribution {T : Name} {t t' : TypeDeclaration}
    {version : FederationVersion} (h : TypeDeclaration.Conditioned sites T t t') :
    TypeDeclaration.EqualUpTo sites T (t.contributionMarking t'.keyFieldNames version)
      (t'.contribution version) where
  kind := h.kind
  description := h.description
  directives := h.directives.persistedDirectives_eq (onlyFieldSets_keySite sites T)
  interfaces := h.interfaces
  fields := by
    dsimp only [TypeDeclaration.contributionMarking, TypeDeclaration.contribution]
    exact h.fields.mapEntries fun _ _ _ hf => hf.contribution
  members := h.members
  values := congrArg (Table.map _) h.values
  inputs := congrArg (Table.map _) h.inputs
  keys := h.keys

/-- **But for the marks that are lost, schemas contribute the same up to conditions.** -/
theorem Schema.Conditioned.contribution {s s' : Schema} (h : Schema.Conditioned sites s s') :
    Schema.EqualUpTo sites (s.contributionMarking s'.marks) s'.contribution where
  name := h.name
  url := h.url
  version := h.version
  types := by
    show Table.Rel _ (s.types.mapEntries _) (s'.types.mapEntries _)
    rw [h.version]
    refine h.types.with_get?.mapEntries fun n t t' ht => ?_
    obtain ⟨_, hn', ht⟩ := ht
    rw [marks, hn']
    exact ht.contribution

end Contributions

/-! ### Graphs -/

/-- A field of the graph that is equal but for conditions, where `returns` is what the field returns
in each subgraph. -/
structure FieldNode.EqualUpTo (sites : List String) (type : Name) (returns : SubgraphId → Name)
    (f f' : FieldNode) : Prop where
  definition : f'.definition = f.definition
  authority : f'.authority = f.authority
  declaredIn : f'.declaredIn = f.declaredIn
  shareableIn : f'.shareableIn = f.shareableIn
  externalIn : f'.externalIn = f.externalIn
  provides : ∀ i, Option.Rel (FieldSet.Conditioned (fieldSite sites type (returns i) "provides"))
    (f.provides.get? i) (f'.provides.get? i)
  requires : ∀ i, Option.Rel (FieldSet.Conditioned (fieldSite sites type (returns i) "requires"))
    (f.requires.get? i) (f'.requires.get? i)
  overrides : f'.overrides = f.overrides

/-- A type of the graph that is equal but for conditions. -/
structure TypeNode.EqualUpTo (sites : List String) (type : Name)
    (returns : Name → SubgraphId → Name) (t t' : TypeNode) : Prop where
  kind : t'.kind = t.kind
  description : t'.description = t.description
  directives : t'.directives = t.directives
  fields : Table.Rel (fun m => FieldNode.EqualUpTo sites type (returns m)) t.fields t'.fields
  interfaces : t'.interfaces = t.interfaces
  members : t'.members = t.members
  values : t'.values = t.values
  inputs : t'.inputs = t.inputs
  subgraphs : t'.subgraphs = t.subgraphs
  keys : ∀ i, Option.Rel (List.Forall₂ (EntityKey.Conditioned (keySite sites type "key")))
    (t.keys.get? i) (t'.keys.get? i)

/-- Tables of types that are equal but for conditions. -/
def EqualTypes (sites : List String) (returns : Name → Name → SubgraphId → Name) :
    Table TypeNode → Table TypeNode → Prop :=
  Table.Rel fun n => TypeNode.EqualUpTo sites n (returns n)

/-- Graphs that are equal but for conditions. -/
structure Graph.EqualUpTo (sites : List String) (returns : Name → Name → SubgraphId → Name)
    (g g' : Graph) : Prop where
  subgraphs : g'.subgraphs = g.subgraphs
  types : EqualTypes sites returns g.types g'.types

/-- What a field returns in a subgraph. -/
def declaredReturn (schemas : List Schema) (type field : Name) (i : SubgraphId) : Name :=
  ((schemas[i]?.bind fun s => s.types.get? type).bind fun t => t.fields.get? field).elim type
    fun f => f.definition.type.innerName

section Merging

variable {sites : List String}

/-- Related values that are inserted leave related values for each subgraph. -/
theorem rel_insert? {α : Type} {R : SubgraphId → α → α → Prop} {m m' : SubgraphMap α}
    (h : ∀ i, Option.Rel (R i) (m.get? i) (m'.get? i)) {i : SubgraphId} {a? a?' : Option α}
    (ha : Option.Rel (R i) a? a?') (j : SubgraphId) :
    Option.Rel (R j) ((m.insert? i a?).get? j) ((m'.insert? i a?').get? j) := by
  rw [SubgraphMap.get?_insert?, SubgraphMap.get?_insert?]
  split
  · rename_i hij
    subst hij
    rcases rel_cases ha with ⟨rfl, rfl⟩ | ⟨a, a', rfl, rfl, haa⟩
    · exact h j
    · exact .some haa
  · exact h j

section Fields

variable {type : Name} {returns : SubgraphId → Name} {i : SubgraphId} {d d' : FieldDeclaration}
  (hd : FieldDeclaration.EqualUpTo sites type d d')

include hd

theorem FieldNode.EqualUpTo.start : FieldNode.EqualUpTo sites type returns (start d) (start d') :=
  ⟨hd.definition, rfl, rfl, rfl, rfl, fun _ => .none, fun _ => .none, rfl⟩

theorem FieldNode.EqualUpTo.settle_eq {f f' : FieldNode}
    (h : FieldNode.EqualUpTo sites type returns f f') : f'.settle i d' = f.settle i d := by
  unfold settle
  rw [h.authority, hd.external, hd.definition, h.definition]

theorem FieldNode.EqualUpTo.absorb (hreturns : returns i = d.definition.type.innerName)
    {f f' : FieldNode} (h : FieldNode.EqualUpTo sites type returns f f') (names : List String) :
    FieldNode.EqualUpTo sites type returns (f.absorb names i d) (f'.absorb names i d') where
  definition := congrArg Prod.fst (h.settle_eq hd)
  authority := congrArg Prod.snd (h.settle_eq hd)
  declaredIn := congrArg (SubgraphSet.insert · i) h.declaredIn
  shareableIn := by
    show (if d'.shareable then _ else _) = if d.shareable then _ else _
    rw [hd.shareable, h.shareableIn]
  externalIn := by
    show (if d'.external then _ else _) = if d.external then _ else _
    rw [hd.external, h.externalIn]
  provides := rel_insert? h.provides (by rw [hreturns]; exact hd.provides)
  requires := rel_insert? h.requires (by rw [hreturns]; exact hd.requires)
  overrides := by
    show f'.overrides.insert? i _ = f.overrides.insert? i _
    rw [h.overrides, hd.overrides]

theorem FieldNode.EqualUpTo.conflicts_eq {f f' : FieldNode}
    (h : FieldNode.EqualUpTo sites type returns f f') (nameOf : SubgraphId → String)
    (n m : Name) :
    FieldNode.conflicts nameOf n m i d' f' = FieldNode.conflicts nameOf n m i d f := by
  unfold FieldNode.conflicts
  rw [h.authority, h.definition, hd.external, hd.definition]

end Fields

section Types

variable {type : Name} {returns : Name → SubgraphId → Name} {i : SubgraphId}
  {d d' : TypeDeclaration} (hd : TypeDeclaration.EqualUpTo sites type d d')

include hd

theorem TypeNode.EqualUpTo.absorb
    (hreturns : ∀ m f, d.fields.get? m = some f → returns m i = f.definition.type.innerName)
    {t t' : TypeNode} (h : TypeNode.EqualUpTo sites type returns t t') (names : List String) :
    TypeNode.EqualUpTo sites type returns (t.absorb names i d) (t'.absorb names i d') where
  kind := h.kind
  description := by
    show mergeDescription _ _ = mergeDescription _ _
    rw [h.description, hd.description]
  directives := by
    show appendNew _ _ = appendNew _ _
    rw [h.directives, hd.directives]
  fields := by
    refine Table.Rel.foldl_alter hd.fields.with_get? (fun _ _ he => he.1) ?_ h.fields
    rintro ⟨m, f⟩ ⟨m', f'⟩ ⟨_, hm, _, hf⟩ a? b? hab
    -- A field that is new to the node starts from its own declaration.
    have hstart : FieldNode.EqualUpTo sites type (returns m) (a?.getD (FieldNode.start f))
        (b?.getD (FieldNode.start f')) := by
      rcases rel_cases hab with ⟨rfl, rfl⟩ | ⟨a, b, rfl, rfl, haa⟩
      · exact .start hf
      · exact haa
    exact hstart.absorb hf (hreturns m f hm) names
  interfaces := by
    show addMemberships i _ _ = addMemberships i _ _
    rw [h.interfaces, hd.interfaces]
  members := by
    show addMemberships i _ _ = addMemberships i _ _
    rw [h.members, hd.members]
  values := by
    show Table.mergeIn _ _ _ = Table.mergeIn _ _ _
    rw [h.values, hd.values]
  inputs := by
    show Table.mergeIn _ _ _ = Table.mergeIn _ _ _
    rw [h.inputs, hd.inputs]
  subgraphs := congrArg (SubgraphSet.insert · i) h.subgraphs
  keys j := by
    have hempty : d'.keys.isEmpty = d.keys.isEmpty := by
      rw [Bool.eq_iff_iff, List.isEmpty_iff_length_eq_zero, List.isEmpty_iff_length_eq_zero,
        hd.keys.length_eq]
    show Option.Rel _ ((if d.keys.isEmpty then t.keys else t.keys.insert i d.keys).get? j)
      ((if d'.keys.isEmpty then t'.keys else t'.keys.insert i d'.keys).get? j)
    rw [hempty]
    split
    · exact h.keys j
    · exact rel_insert? h.keys (.some hd.keys) j

theorem TypeNode.EqualUpTo.conflicts_eq {t t' : TypeNode}
    (h : TypeNode.EqualUpTo sites type returns t t') (nameOf : SubgraphId → String) (n : Name) :
    TypeNode.conflicts nameOf n i d' t' = TypeNode.conflicts nameOf n i d t := by
  have hfields : d'.fields.entries.flatMap (fun e =>
        (t'.fields.get? e.1).elim [] (FieldNode.conflicts nameOf n e.1 i e.2)) =
      d.fields.entries.flatMap fun e =>
        (t.fields.get? e.1).elim [] (FieldNode.conflicts nameOf n e.1 i e.2) := by
    refine hd.fields.flatMap_entries_eq fun m f f' hf => ?_
    rcases rel_cases (h.fields.get? m) with ⟨hm, hm'⟩ | ⟨a, a', hm, hm', ha⟩
    · rw [hm, hm']
      rfl
    · rw [hm, hm']
      exact ha.conflicts_eq hf nameOf n m
  rw [TypeNode.conflicts, TypeNode.conflicts, hd.inputs, h.inputs, hfields]

end Types

/-! ### The fold -/

/-- A declaration of a subgraph that is equal but for conditions. -/
structure Contributed.EqualUpTo (sites : List String) (returns : Name → Name → SubgraphId → Name)
    (c c' : Contributed) : Prop where
  subgraph : c'.subgraph = c.subgraph
  name : c'.name = c.name
  declaration : TypeDeclaration.EqualUpTo sites c.name c.declaration c'.declaration
  returns : ∀ m f, c.declaration.fields.get? m = some f →
    returns c.name m c.subgraph = f.definition.type.innerName

section Fold

variable {returns : Name → Name → SubgraphId → Name}

theorem EqualTypes.mergeType {types types' : Table TypeNode} {c c' : Contributed}
    (h : EqualTypes sites returns types types') (hc : Contributed.EqualUpTo sites returns c c')
    (names : List String) :
    EqualTypes sites returns (Federation.mergeType names types c)
      (Federation.mergeType names types' c') := by
  unfold Federation.mergeType
  rw [hc.name, hc.subgraph, hc.declaration.kind]
  refine h.alter c.name fun a? b? hab => ?_
  have hstart : TypeNode.EqualUpTo sites c.name (returns c.name)
      (a?.getD { kind := c.declaration.kind }) (b?.getD { kind := c.declaration.kind }) := by
    rcases rel_cases hab with ⟨rfl, rfl⟩ | ⟨a, b, rfl, rfl, haa⟩
    · exact ⟨rfl, rfl, rfl, Table.rel_empty, rfl, rfl, rfl, rfl, rfl,
        fun _ => .none⟩
    · exact haa
  simp only [hstart.kind]
  split
  · exact hstart.absorb hc.declaration (hc.returns) names
  · exact hstart

theorem EqualTypes.typeConflicts_eq {types types' : Table TypeNode} {c c' : Contributed}
    (h : EqualTypes sites returns types types') (hc : Contributed.EqualUpTo sites returns c c')
    (nameOf : SubgraphId → String) :
    typeConflicts nameOf types' c' = typeConflicts nameOf types c := by
  unfold typeConflicts
  rw [hc.name, hc.subgraph, hc.declaration.kind]
  rcases rel_cases (h.get? c.name) with ⟨hn, hn'⟩ | ⟨t, t', hn, hn', ht⟩
  · rw [hn, hn']
  · rw [hn, hn']
    simp only [ht.kind, ht.subgraphs, ht.conflicts_eq hc.declaration]

theorem mergeConflicts_eq {cs cs' : List Contributed}
    (hcs : List.Forall₂ (Contributed.EqualUpTo sites returns) cs cs')
    {types types' : Table TypeNode}
    (h : EqualTypes sites returns types types') (names : List String)
    (nameOf : SubgraphId → String) :
    mergeConflicts names nameOf types' cs' = mergeConflicts names nameOf types cs := by
  -- Conflicts are found against the types merged so far, which stay equal but for conditions.
  induction hcs generalizing types types' with
  | nil => rfl
  | cons hc _ ih =>
    rw [mergeConflicts, mergeConflicts, h.typeConflicts_eq hc, ih (h.mergeType hc names)]

end Fold

/-! ### Contributions of a batch -/

/-- Contributions that are equal but for conditions. -/
def EqualContributions (sites : List String) : List Schema → List Schema → Prop :=
  List.Forall₂ (Schema.EqualUpTo sites)

namespace EqualContributions

variable {cs cs' : List Schema} (h : EqualContributions sites cs cs')

include h

theorem names_eq : cs'.map (·.name) = cs.map (·.name) := map_eq_of_forall₂ h fun _ _ hs => hs.name

theorem contributed : List.Forall₂ (Contributed.EqualUpTo sites (declaredReturn cs))
    (Federation.contributed cs) (Federation.contributed cs') := by
  refine forall₂_flatMap (forall₂_zipIdx h) fun s s' hs => ?_
  obtain ⟨hindex, hmem, hs⟩ := hs
  rw [hindex]
  refine forall₂_map hs.types.with_get? fun e e' he => ?_
  obtain ⟨n, t⟩ := e
  obtain ⟨n', t'⟩ := e'
  obtain ⟨rfl, hn, _, ht⟩ := he
  refine ⟨rfl, rfl, ht, fun m f hm => ?_⟩
  show declaredReturn cs n' m s.2 = _
  rw [declaredReturn, hmem, Option.bind_some, hn, Option.bind_some, hm]
  rfl

/-- **The graphs of contributions that are equal but for conditions are.** -/
theorem graph : Graph.EqualUpTo sites (declaredReturn cs) (.ofSchemas cs) (.ofSchemas cs') where
  subgraphs := map_eq_of_forall₂ h fun _ _ hs => by rw [hs.name, hs.url, hs.version]
  types := by
    show EqualTypes _ _ ((Federation.contributed cs).foldl _ ∅)
      ((Federation.contributed cs').foldl _ ∅)
    rw [h.names_eq]
    exact List.rel_foldl (P := EqualTypes sites (declaredReturn cs))
      (R := Contributed.EqualUpTo sites (declaredReturn cs))
      (fun _ _ ht _ _ hc => ht.mergeType hc _) Table.rel_empty h.contributed

end EqualContributions

end Merging

end Federation
