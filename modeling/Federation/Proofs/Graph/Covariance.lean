import Federation.Proofs.Separation.Walk
import Federation.Proofs.Supergraph.Closure

/-!
# Covariant implementations

A field may implement a field of an interface with a narrower type.  `Graph.Narrows` says what
narrower means for the values: as many list wrappers, required wherever the other type is, and no
object type that the other one cannot resolve to.

The check of implementations keeps the wrappers (`Graph.admitsType_iff`), and of named types it asks
that the one is declared to be directly below the other.  That is enough for object types, and so
for unions.  An interface below another one is admitted without a look at its own implementations,
and an object type that implements only the lower one is an `Outlier`.  In a graph without
conflicts, an interface field admits only what is narrower exactly if its type has no outlier
(`Graph.admitsSoundly_iff`), and there are graphs that have one
(`Graph.not_covariant_passedOver`).
-/

namespace Federation

/-! ### Wrappers -/

namespace TypeRef

/-- The number of list wrappers. -/
def depth : TypeRef → Nat
  | named .. => 0
  | list t _ => t.depth + 1

/-- Which levels are required, the outermost one first and the named type last. -/
def levels : TypeRef → List Bool
  | named _ r => [r]
  | list t r => r :: t.levels

@[simp] theorem length_levels (t : TypeRef) : t.levels.length = t.depth + 1 := by
  induction t with
  | named n r => rfl
  | list t r ih => simp [levels, depth, ih]

@[simp] theorem levels_mapName (f : Name → Name) (t : TypeRef) :
    (t.mapName f).levels = t.levels := by
  induction t with
  | named n r => rfl
  | list t r ih => simp [mapName, levels, ih]

/-- A type is required at every level at which another one is, and has as many levels. -/
def AtLeast (ref asked : TypeRef) : Prop :=
  List.Forall₂ (fun r s => s = true → r = true) ref.levels asked.levels

theorem AtLeast.depth_eq {ref asked : TypeRef} (h : ref.AtLeast asked) :
    ref.depth = asked.depth := by
  have hlength := h.length_eq
  rw [length_levels, length_levels] at hlength
  exact Nat.succ.inj hlength

theorem atLeast_mapName (f : Name → Name) (t : TypeRef) : (t.mapName f).AtLeast t := by
  rw [AtLeast, levels_mapName]
  exact List.forall₂_same.2 fun _ _ => id

end TypeRef

namespace Graph

variable {g : Graph} {n super o : Name}

/-- **What the check of types checks**: the wrappers level by level, and the named types below
them. -/
theorem admitsType_iff {ref asked : TypeRef} : g.admitsType ref asked = true ↔
    ref.AtLeast asked ∧ g.isSubtype ref.innerName asked.innerName = true := by
  have hlevel : ∀ r s : Bool, (r || !s) = true ↔ (s = true → r = true) := by decide
  induction ref generalizing asked with
  | named n r =>
    cases asked with
    | named m s =>
      simp [admitsType, TypeRef.AtLeast, TypeRef.levels, TypeRef.innerName, hlevel]
    | list u s =>
      -- The levels below the wrapper have no counterpart.
      have hne : ¬ (TypeRef.named n r).AtLeast (.list u s) := fun h => by cases h.depth_eq
      simp [admitsType, hne]
  | list t r ih =>
    cases asked with
    | named m s =>
      have hne : ¬ (TypeRef.list t r).AtLeast (.named m s) := fun h => by cases h.depth_eq
      simp [admitsType, hne]
    | list u s =>
      rw [admitsType, Bool.and_eq_true, hlevel]
      simp [ih, TypeRef.AtLeast, TypeRef.levels, TypeRef.innerName, and_assoc]

/-! ### Object types -/

/-- An object type is one that a value of a named type can have: the named type itself, or one of
its possible types. -/
def ResolvesTo (g : Graph) (n o : Name) : Prop :=
  ∃ t, g.types.get? n = some t ∧ (t.kind = .object ∧ o = n ∨ ∃ s, (o, s) ∈ g.possibleTypes n t)

/-- A type narrows another one: it has as many list wrappers, is required wherever the other one is,
and resolves to no other object types. -/
structure Narrows (g : Graph) (ref asked : TypeRef) : Prop where
  depth : ref.depth = asked.depth
  required : ref.AtLeast asked
  resolves : ∀ o, g.ResolvesTo ref.innerName o → g.ResolvesTo asked.innerName o

/-- Whatever is admitted as the type of an implementation of a field with some type narrows that
type. -/
def AdmitsSoundly (g : Graph) (asked : TypeRef) : Prop :=
  ∀ ref, g.admitsType ref asked = true → g.Narrows ref asked

/-- The interfaces of the graph admit only what narrows the types of their fields. -/
def Covariant (g : Graph) : Prop :=
  ∀ i t m f, g.types.get? i = some t → t.kind = .interface → t.fields.get? m = some f →
    g.AdmitsSoundly f.definition.type

/-- Some subgraph declares that a type implements an interface. -/
def DeclaresInterface (g : Graph) (n i : Name) : Prop :=
  ∃ t s, g.types.get? n = some t ∧ t.interfaces.get? i = some s

/-- The kind under which the graph has a name. -/
def kind? (g : Graph) (n : Name) : Option TypeKind := (g.types.get? n).map (·.kind)

/-- An object type implements an interface, and not the interface that this one implements. -/
structure Outlier (g : Graph) (super n o : Name) : Prop where
  above : g.kind? super = some .interface
  below : g.kind? n = some .interface
  object : g.kind? o = some .object
  implements : g.DeclaresInterface n super
  member : g.DeclaresInterface o n
  missing : ¬ g.DeclaresInterface o super

/-- A type has an outlier: an object type of an interface below it that is not below the type. -/
def HasOutlier (g : Graph) (super : Name) : Prop := ∃ n o, g.Outlier super n o

theorem kind?_eq_some_iff {k : TypeKind} :
    g.kind? n = some k ↔ ∃ t, g.types.get? n = some t ∧ t.kind = k :=
  Option.map_eq_some_iff

theorem mem_names_of_kind? {k : TypeKind} (h : g.kind? n = some k) : n ∈ g.types.names := by
  obtain ⟨t, ht, _⟩ := kind?_eq_some_iff.1 h
  exact Table.mem_names_iff.2 ⟨t, ht⟩

theorem declaresInterface_iff_isSome {i : Name} : g.DeclaresInterface n i ↔
    ((g.types.get? n).bind (·.interfaces.get? i)).isSome = true := by
  simp only [DeclaresInterface, Option.isSome_iff_exists, Option.bind_eq_some_iff]
  exact exists_comm

instance (n i : Name) : Decidable (g.DeclaresInterface n i) :=
  decidable_of_iff _ declaresInterface_iff_isSome.symm

theorem outlier_iff : g.Outlier super n o ↔ g.kind? super = some .interface ∧
    g.kind? n = some .interface ∧ g.kind? o = some .object ∧ g.DeclaresInterface n super ∧
    g.DeclaresInterface o n ∧ ¬ g.DeclaresInterface o super :=
  ⟨fun ⟨h₁, h₂, h₃, h₄, h₅, h₆⟩ => ⟨h₁, h₂, h₃, h₄, h₅, h₆⟩,
    fun ⟨h₁, h₂, h₃, h₄, h₅, h₆⟩ => ⟨h₁, h₂, h₃, h₄, h₅, h₆⟩⟩

instance (super n o : Name) : Decidable (g.Outlier super n o) := decidable_of_iff _ outlier_iff.symm

theorem hasOutlier_iff : g.HasOutlier super ↔
    ∃ n ∈ g.types.names, ∃ o ∈ g.types.names, g.Outlier super n o :=
  ⟨fun ⟨n, o, h⟩ => ⟨n, mem_names_of_kind? h.below, o, mem_names_of_kind? h.object, h⟩,
    fun ⟨n, _, o, _, h⟩ => ⟨n, o, h⟩⟩

instance (super : Name) : Decidable (g.HasOutlier super) := decidable_of_iff _ hasOutlier_iff.symm

/-- The object types of an interface are those that implement it. -/
theorem resolvesTo_iff_of_interface (hn : g.kind? n = some .interface) :
    g.ResolvesTo n o ↔ g.kind? o = some .object ∧ g.DeclaresInterface o n := by
  obtain ⟨t, ht, hkind⟩ := kind?_eq_some_iff.1 hn
  simp only [ResolvesTo, ht, Option.some.injEq, exists_eq_left', hkind, reduceCtorEq, false_and,
    false_or, mem_possibleTypes_iff, membership?, kind?_eq_some_iff, DeclaresInterface]
  constructor
  · rintro ⟨s, node, hnode, hobject, hs⟩
    exact ⟨⟨node, hnode, hobject⟩, node, s, hnode, hs⟩
  · rintro ⟨⟨node, hnode, hobject⟩, node', s, hnode', hs⟩
    obtain rfl := Option.some.inj (hnode.symm.trans hnode')
    exact ⟨s, node, hnode, hobject, hs⟩

/-- An object type resolves to itself alone. -/
theorem eq_of_resolvesTo_of_object (hn : g.kind? n = some .object) (h : g.ResolvesTo n o) :
    o = n := by
  obtain ⟨t, ht, hkind⟩ := kind?_eq_some_iff.1 hn
  obtain ⟨t', ht', ⟨_, rfl⟩ | ⟨s, hs⟩⟩ := h
  · rfl
  · obtain rfl := Option.some.inj (ht.symm.trans ht')
    obtain ⟨node, _, _, hs⟩ := mem_possibleTypes_iff.1 hs
    simp [membership?, hkind] at hs

/-! ### What the merge leaves below a type -/

/-- What a merged graph without conflicts has below its abstract types: object types in unions, and
types that have fields below interfaces. -/
structure Layered (g : Graph) : Prop where
  member : ∀ {u t m s}, g.types.get? u = some t → t.kind = .union → t.members.get? m = some s →
    g.kind? m = some .object
  implementation : ∀ {n t i s}, g.types.get? n = some t → t.interfaces.get? i = some s →
    t.kind = .object ∨ t.kind = .interface

/-- **Checked subgraphs without conflicts merge to a layered graph.** -/
theorem layered_graphOf {batch : List Subgraph} {schemas : List Schema}
    (hschemas : schemas? batch = .ok schemas)
    (hc : conflicts (schemas.map Schema.contribution) = []) : (graphOf schemas).Layered := by
  have hclosed := Supergraph.closed_ofGraph hschemas hc
  have hconc := concordant_of_conflicts_eq_nil (normalized_of_schemas? hschemas) hc
  constructor
  · intro u t m s ht hunion hm
    -- The union of the supergraph refers to its members as object types.
    have hrefers := hclosed.refers _ (Supergraph.mem_types_ofGraph_iff.2 ⟨u, t, ht, rfl⟩)
    have hbody : t.body = .union t.members.names := by rw [TypeNode.body, hunion]
    have hmembers : ∀ m ∈ t.members.names,
        (Supergraph.ofGraph (graphOf schemas)).Defines m .object := by
      simpa only [TypeNode.definition, hbody, TypeBody.Refers] using hrefers
    have hdefines := hmembers m (Table.mem_names_iff.2 ⟨s, hm⟩)
    exact kind?_eq_some_iff.2 (Supergraph.defines_ofGraph_iff.1 hdefines)
  · intro n t i s ht hi
    obtain ⟨d, hd, hid⟩ := exists_declares_of_get?_interfaces ht hi
    obtain ⟨_, _, _, t', _, hproper, rfl⟩ := exists_proper_of_declares hschemas hd
    have hfields : t'.kind.hasFields = true := hproper.interface hid
    have hkind : t.kind = t'.kind := by
      obtain rfl := Option.some.inj (ht.symm.trans (exists_get?_ofSchemas hconc.kind hd))
      exact TypeNode.kind_ofDeclarations
    rw [hkind]
    cases hk : t'.kind <;> simp_all [TypeKind.hasFields]

/-! ### Soundness -/

/-- What is declared to be below a type resolves to nothing else, but for outliers. -/
theorem resolvesTo_of_isSubtype (hg : g.Layered) (hsub : g.isSubtype n super = true)
    (hnone : ¬ g.HasOutlier super) (ho : g.ResolvesTo n o) : g.ResolvesTo super o := by
  rw [isSubtype, Bool.or_eq_true, decide_eq_true_eq] at hsub
  obtain rfl | hsub := hsub
  · exact ho
  split at hsub
  case h_2 => cases hsub
  case h_1 node superNode hnode hsuper =>
  cases hkind : superNode.kind <;> simp only [hkind, Bool.false_eq_true, Table.contains_iff,
    Table.mem_names_iff] at hsub
  case union =>
    obtain ⟨s, hs⟩ := hsub
    have hobject := hg.member hsuper hkind hs
    obtain rfl := eq_of_resolvesTo_of_object hobject ho
    obtain ⟨node, hnode, hobject⟩ := kind?_eq_some_iff.1 hobject
    exact ⟨superNode, hsuper, .inr ⟨s, mem_possibleTypes_iff.2
      ⟨node, hnode, hobject, by simpa only [membership?, hkind] using hs⟩⟩⟩
  case interface =>
    obtain ⟨s, hs⟩ := hsub
    have hinterface : g.kind? super = some .interface := kind?_eq_some_iff.2 ⟨_, hsuper, hkind⟩
    have hbelow : g.DeclaresInterface n super := ⟨node, s, hnode, hs⟩
    rw [resolvesTo_iff_of_interface hinterface]
    rcases hg.implementation hnode hs with hobject | hlower
    · have hobject : g.kind? n = some .object := kind?_eq_some_iff.2 ⟨_, hnode, hobject⟩
      obtain rfl := eq_of_resolvesTo_of_object hobject ho
      exact ⟨hobject, hbelow⟩
    · -- Both are interfaces: an object that is in the lower one only would be an outlier.
      have hlower : g.kind? n = some .interface := kind?_eq_some_iff.2 ⟨_, hnode, hlower⟩
      obtain ⟨hobject, hmember⟩ := (resolvesTo_iff_of_interface hlower).1 ho
      refine ⟨hobject, by_contra fun hmissing => hnone ⟨n, o, ?_⟩⟩
      exact ⟨hinterface, hlower, hobject, hbelow, hmember, hmissing⟩

/-- An outlier is admitted where the interface above is asked for. -/
theorem Outlier.isSubtype (h : g.Outlier super n o) : g.isSubtype n super = true := by
  obtain ⟨superNode, hsuper, hkind⟩ := kind?_eq_some_iff.1 h.above
  obtain ⟨node, s, hnode, hs⟩ := h.implements
  have hcontains : node.interfaces.contains super = true :=
    Table.contains_iff.2 (Table.mem_names_iff.2 ⟨s, hs⟩)
  simp [Graph.isSubtype, hnode, hsuper, hkind, hcontains]

/-- A type is asked for soundly exactly if it has no outlier. -/
theorem admitsSoundly_iff_not_hasOutlier (hg : g.Layered) (asked : TypeRef) :
    g.AdmitsSoundly asked ↔ ¬ g.HasOutlier asked.innerName := by
  constructor
  · rintro hsound ⟨n, o, h⟩
    -- The lower interface is admitted in the wrappers that are asked for.
    have hadmits : g.admitsType (asked.mapName fun _ => n) asked = true :=
      admitsType_iff.2 ⟨asked.atLeast_mapName _, by simpa using h.isSubtype⟩
    have hresolves := (hsound _ hadmits).resolves o (by
      rw [TypeRef.innerName_mapName]
      exact (resolvesTo_iff_of_interface h.below).2 ⟨h.object, h.member⟩)
    exact h.missing ((resolvesTo_iff_of_interface h.above).1 hresolves).2
  · intro hnone ref hadmits
    obtain ⟨hrequired, hsub⟩ := admitsType_iff.1 hadmits
    exact ⟨hrequired.depth_eq, hrequired, fun o => resolvesTo_of_isSubtype hg hsub hnone⟩

/-- **When implementations are covariant**, in every graph that checked subgraphs merge to without
conflicts: a type that is admitted always has the wrappers that are asked for and is required
wherever that is asked; and all that is admitted for a type resolves to nothing else exactly if the
type has no outlier.  So the interfaces of the graph are implemented covariantly exactly if the type
of no field of theirs has an outlier. -/
theorem admitsSoundly_iff {batch : List Subgraph} {schemas : List Schema}
    (hschemas : schemas? batch = .ok schemas)
    (hc : conflicts (schemas.map Schema.contribution) = []) :
    (∀ ref asked, (graphOf schemas).admitsType ref asked = true →
      ref.depth = asked.depth ∧ ref.AtLeast asked) ∧
    (∀ asked, (graphOf schemas).AdmitsSoundly asked ↔
      ¬ (graphOf schemas).HasOutlier asked.innerName) ∧
    ((graphOf schemas).Covariant ↔ ¬ ∃ i t m f, (graphOf schemas).types.get? i = some t ∧
      t.kind = .interface ∧ t.fields.get? m = some f ∧ (graphOf schemas).HasOutlier f.returns) := by
  have hiff := admitsSoundly_iff_not_hasOutlier (layered_graphOf hschemas hc)
  refine ⟨fun ref asked hadmits => ?_, hiff, ?_⟩
  · obtain ⟨hrequired, _⟩ := admitsType_iff.1 hadmits
    exact ⟨hrequired.depth_eq, hrequired⟩
  · simp only [Covariant, hiff, FieldNode.returns]
    push Not
    rfl

end Graph

/-! ### An interface that is passed over -/

/-- A subgraph with an object type of the lower one of two interfaces only, and a field that narrows
the upper one to the lower one. -/
def passedOverBatch : List Subgraph := Subgraph.batchOfTexts
  [("a", "type Query \x7b n: N \x7d interface N \x7b f: A \x7d " ++
      "type T implements N \x7b f: B \x7d interface A \x7b x: Int \x7d " ++
      "interface B implements A \x7b x: Int \x7d type O implements B \x7b x: Int \x7d")]

/-- The schema of the subgraph. -/
def passedOverSchemas : List Schema := (schemas? passedOverBatch).toOption.getD []

theorem passedOver_read : schemas? passedOverBatch = .ok passedOverSchemas ∧
    conflicts (passedOverSchemas.map Schema.contribution) = [] ∧
    (∃ t ∈ (graphOf passedOverSchemas).types.get? ⟨"N", by decide⟩, t.kind = .interface ∧
      ∃ f ∈ t.fields.get? ⟨"f", by decide⟩, f.definition.type = .named ⟨"A", by decide⟩ false) ∧
    (graphOf passedOverSchemas).Outlier ⟨"A", by decide⟩ ⟨"B", by decide⟩ ⟨"O", by decide⟩ := by
  decide +kernel

namespace Graph

/-- The type of the upper interface has an outlier, and that of the lower one has none. -/
theorem admitsSoundly_passedOver :
    (schemas? passedOverBatch = .ok passedOverSchemas ∧
      conflicts (passedOverSchemas.map Schema.contribution) = []) ∧
    ¬ (graphOf passedOverSchemas).AdmitsSoundly (.named ⟨"A", by decide⟩ false) ∧
    (graphOf passedOverSchemas).AdmitsSoundly (.named ⟨"B", by decide⟩ false) := by
  obtain ⟨hschemas, hc, _, houtlier⟩ := passedOver_read
  obtain ⟨_, hiff, _⟩ := admitsSoundly_iff hschemas hc
  have hnone : ¬ (graphOf passedOverSchemas).HasOutlier ⟨"B", by decide⟩ := by decide +kernel
  exact ⟨⟨hschemas, hc⟩, fun hsound => (hiff _).1 hsound ⟨_, _, houtlier⟩, (hiff _).2 hnone⟩

/-- A graph without conflicts, where the field of an interface admits the lower interface, which
resolves to an object type that the upper one does not resolve to. -/
theorem not_covariant_passedOver :
    schemas? passedOverBatch = .ok passedOverSchemas ∧
    conflicts (passedOverSchemas.map Schema.contribution) = [] ∧
    ¬ (graphOf passedOverSchemas).Covariant := by
  obtain ⟨hschemas, hc, ⟨t, ht, hkind, f, hf, htype⟩, houtlier⟩ := passedOver_read
  refine ⟨hschemas, hc, fun hcov => ?_⟩
  have hsound := hcov _ t _ f ht hkind hf
  rw [admitsSoundly_iff_not_hasOutlier (layered_graphOf hschemas hc), htype] at hsound
  exact hsound ⟨_, _, houtlier⟩

end Graph

end Federation
