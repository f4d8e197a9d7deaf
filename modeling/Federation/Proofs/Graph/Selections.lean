import Federation.Proofs.Subgraph.Selections
import Federation.Resolvability.Reach
import Mathlib.Data.List.Nodup

/-!
# Field sets in a merged graph

A field set is checked against the declarations of its own subgraph, and read against the merged
graph, whose definitions may come from elsewhere.  Where nothing is wrong with the merge, both have
the same fields with the same types (`DeclaresAll`), so what fits the declarations fits the graph
(`FieldSet.Fits`, `fits_of_fitsIn`).

`canResolve` goes on where a field or a type is not there: it answers no, or stays at the type that
it is at.  `Graph.resolves?` has no answer in these cases.  On field sets that fit, both give the
same answer (`resolves?_eq_of_fits`), so a missing field or type never decides anything
(`fieldSets_fit`).
-/

namespace Federation

/-- Whether a field set selects what the types of a graph have: each selected field is there on the
type that it is selected on, there is a type to select from below it if something is, and each
condition is a type. -/
def FieldSet.Fits (g : Graph) : Name → FieldSet → Prop
  | _, .empty => True
  | parent, .field n sub rest =>
    (∃ t f, g.types.get? parent = some t ∧ t.fields.get? n = some f ∧
      (sub.isEmpty = false → (∃ u, g.types.get? f.returns = some u) ∧ sub.Fits g f.returns)) ∧
      rest.Fits g parent
  | parent, .fragment c sub rest =>
    (∃ t, g.types.get? (c.getD parent) = some t) ∧ sub.Fits g (c.getD parent) ∧ rest.Fits g parent

namespace Graph

/-- Whether some available subgraphs can resolve a selection on a type of a given name; no answer
where a selected field, the type below one with selections, or the type of a condition is not
there, no matter what the answer would depend on. -/
def resolves? (g : Graph) : SubgraphSet → Name → FieldSet → Option Bool
  | _, _, .empty => some true
  | available, parent, .field n sub rest => do
    let t ← g.types.get? parent
    let f ← t.fields.get? n
    let resolving := f.resolvers.inter available
    let below ← if sub.isEmpty then some true else do
      let _ ← g.types.get? f.returns
      g.resolves? resolving f.returns sub
    let after ← g.resolves? available parent rest
    some (!resolving.isEmpty && below && after)
  | available, parent, .fragment c sub rest => do
    let _ ← g.types.get? (c.getD parent)
    let inside ← g.resolves? available (c.getD parent) sub
    let after ← g.resolves? available parent rest
    some (inside && after)

/-- **Nothing missing decides**: on a field set that fits there is always an answer, and it is that
of `canResolve`. -/
theorem resolves?_eq_of_fits {g : Graph} {F : FieldSet} {n : Name} (hF : F.Fits g n) {t : TypeNode}
    (ht : g.types.get? n = some t) (available : SubgraphSet) :
    g.resolves? available n F = some (g.canResolve available t F) := by
  induction F generalizing n t available with
  | empty => rfl
  | field m sub rest ihs ihr =>
    obtain ⟨⟨t', f, ht', hf, hsub⟩, hrest⟩ := hF
    obtain rfl := Option.some.inj (ht.symm.trans ht')
    rw [resolves?, canResolve, ht, Option.bind_eq_bind, Option.bind_some, hf,
      Option.bind_eq_bind, Option.bind_some, ihr hrest ht]
    cases hempty : sub.isEmpty with
    | true => simp
    | false =>
      obtain ⟨⟨u, hu⟩, hfits⟩ := hsub hempty
      simp [hu, ihs hfits hu]
  | fragment c sub rest ihs ihr =>
    obtain ⟨⟨u, hu⟩, hsub, hrest⟩ := hF
    -- a fragment without a condition goes on at the type itself
    have htarget : (c.bind g.types.get?).getD t = u := by
      cases c with
      | none => exact Option.some.inj (ht.symm.trans hu)
      | some m =>
        rw [Option.getD_some] at hu
        rw [Option.bind_some, hu, Option.getD_some]
    rw [resolves?, canResolve, hu, htarget, Option.bind_eq_bind, Option.bind_some, ihs hsub hu,
      ihr hrest ht]
    rfl

end Graph

/-! ### From declarations to the graph -/

/-- Whether a graph has all types that a subgraph declares, with all fields that it declares, which
return what they do there. -/
def Graph.DeclaresAll (g : Graph) (types : Table TypeDeclaration) : Prop :=
  ∀ n t, types.get? n = some t → ∃ u, g.types.get? n = some u ∧
    ∀ m f, t.fields.get? m = some f → ∃ f', u.fields.get? m = some f' ∧
      f'.returns = f.definition.type.innerName

theorem IsComposite.exists_get? {types : Table TypeDeclaration} {n : Name}
    (h : IsComposite types n) : ∃ t, types.get? n = some t := by
  unfold IsComposite isCompositeType kindOf? at h
  cases ht : types.get? n with
  | none => rw [ht] at h; cases h
  | some t => exact ⟨t, rfl⟩

/-- What fits the declarations of a subgraph fits a graph that has them all. -/
theorem Graph.DeclaresAll.fits {g : Graph} {types : Table TypeDeclaration}
    (hg : g.DeclaresAll types) {F : FieldSet} {n : Name} (hF : F.FitsIn types n) : F.Fits g n := by
  induction F generalizing n with
  | empty => trivial
  | field m sub rest ihs ihr =>
    obtain ⟨⟨t, f, ht, hf, hsub⟩, hrest⟩ := hF
    obtain ⟨u, hu, hfields⟩ := hg n t ht
    obtain ⟨f', hf', hreturns⟩ := hfields m f hf
    refine ⟨⟨u, f', hu, hf', fun hempty => ?_⟩, ihr hrest⟩
    obtain ⟨hcomposite, hfits⟩ := hsub hempty
    obtain ⟨v, hv⟩ := hcomposite.exists_get?
    obtain ⟨w, hw, _⟩ := hg _ v hv
    rw [hreturns]
    exact ⟨⟨w, hw⟩, ihs hfits⟩
  | fragment c sub rest ihs ihr =>
    obtain ⟨hcomposite, hsub, hrest⟩ := hF
    obtain ⟨v, hv⟩ := hcomposite.exists_get?
    obtain ⟨w, hw, _⟩ := hg _ v hv
    exact ⟨⟨w, hw⟩, ihs hsub, ihr hrest⟩

section Batch

variable {batch : List Subgraph} {schemas : List Schema}
  (hschemas : schemas? batch = .ok schemas)
  (hc : conflicts (schemas.map Schema.contribution) = [])

include hschemas hc

/-- A field that is declared is in the graph, with the type that it is declared with. -/
theorem exists_field_of_declaresField {n m : Name} {d : TypeDeclaration} {f : FieldDeclaration}
    (hd : Declares (schemas.map Schema.contribution) n d) (hf : d.fields.get? m = some f) :
    ∃ t f', (graphOf schemas).types.get? n = some t ∧ t.fields.get? m = some f' ∧
      f'.definition.type = f.definition.type := by
  have hconc := concordant_of_conflicts_eq_nil (normalized_of_schemas? hschemas) hc
  obtain ⟨b, hb, hext⟩ := hconc.base ⟨d, hd, hf⟩
  obtain ⟨i, hi⟩ := declaresField_iff.1 hb
  obtain ⟨exts, b, rest, hs⟩ := FieldNode.exists_split ⟨_, hi, hext⟩
  obtain ⟨f', hf', htype, _⟩ :=
    FieldNode.exists_of_split ((schemas.map Schema.contribution).map (·.name)) hs
  refine ⟨_, f', exists_get?_ofSchemas hconc.kind hd, by rw [TypeNode.get?_fields, hf'], ?_⟩
  rw [htype]
  exact (hconc.fieldType ⟨d, hd, hf⟩ (declaresField_iff.2 ⟨b.1, hs.base_mem⟩) hs.base).symm

/-- The graph has what each of the subgraphs declares. -/
theorem declaresAll_graphOf {s : Subgraph} (hs : s ∈ batch) :
    (graphOf schemas).DeclaresAll s.document.declarations := by
  intro n t ht
  have hmem : s.schema.contribution ∈ schemas.map Schema.contribution := by
    rw [(schemas?_eq_ok_iff.1 hschemas).2]
    exact List.mem_map_of_mem (List.mem_map_of_mem hs)
  have hd : s.schema.contribution.types.get? n = some
      ((annotateType s.document.declarations s.name n t).contribution s.document.version) := by
    rw [Subgraph.get?_types_contribution, ht, Option.map_some]
  have hconc := concordant_of_conflicts_eq_nil (normalized_of_schemas? hschemas) hc
  have hu := exists_get?_ofSchemas hconc.kind ⟨_, hmem, hd⟩
  refine ⟨_, hu, fun m f hf => ?_⟩
  obtain ⟨u, f', hu', hf', htype⟩ := exists_field_of_declaresField hschemas hc ⟨_, hmem, hd⟩
    (by rw [get?_fields_contribution, hf, Option.map_some])
  obtain rfl := Option.some.inj (hu.symm.trans hu')
  refine ⟨f', hf', ?_⟩
  rw [FieldNode.returns, htype, FieldDeclaration.contribution, definition_annotateField]
  rfl

/-- What a declaration selects fits the graph. -/
theorem fits_of_declares {n : Name} {d : TypeDeclaration}
    (hd : Declares (schemas.map Schema.contribution) n d) :
    (∀ k ∈ d.keys, k.fields.Fits (graphOf schemas) n) ∧
    ∀ m f, d.fields.get? m = some f →
      (∀ F, f.requires = some F → F.Fits (graphOf schemas) n) ∧
      ∀ F, f.provides = some F →
        (∃ t, (graphOf schemas).types.get? f.definition.type.innerName = some t) ∧
          F.Fits (graphOf schemas) f.definition.type.innerName := by
  obtain ⟨s, hs, hfaults, _, hd⟩ := exists_subgraph_of_declares hschemas hd
  have hg := declaresAll_graphOf hschemas hc hs
  obtain ⟨hkeys, hfields⟩ := Subgraph.fitsIn_of_faults hfaults hd
  refine ⟨fun k hk => hg.fits (hkeys k hk), fun m f hf => ⟨fun F hF => ?_, fun F hF => ?_⟩⟩
  · exact hg.fits ((hfields m f hf).1 F hF)
  · obtain ⟨hcomposite, hfits⟩ := (hfields m f hf).2 F hF
    obtain ⟨u, hu⟩ := hcomposite.exists_get?
    obtain ⟨t, ht, _⟩ := hg _ u hu
    exact ⟨⟨t, ht⟩, hg.fits hfits⟩

/-- What is required for a field of a merged type fits the type. -/
theorem fits_of_get?_requires {n : Name} {t : TypeNode}
    (ht : (graphOf schemas).types.get? n = some t) {m : Name} {f : FieldNode}
    (hf : t.fields.get? m = some f) {i : SubgraphId} {F : FieldSet}
    (hF : f.requires.get? i = some F) : F.Fits (graphOf schemas) n := by
  have hconc := concordant_of_conflicts_eq_nil (normalized_of_schemas? hschemas) hc
  obtain ⟨d₀, hd₀⟩ := isSome_get?_ofSchemas_iff.1 (Option.isSome_iff_exists.2 ⟨t, ht⟩)
  obtain rfl := Option.some.inj (ht.symm.trans (exists_get?_ofSchemas hconc.kind hd₀))
  have hnodup := nodup_declarationsOf (schemas.map Schema.contribution) n
  rw [TypeNode.get?_fields] at hf
  obtain ⟨e, he, hrequires⟩ :=
    (FieldNode.get?_requires_iff (TypeNode.nodup_fieldsOf hnodup m) hf).1 hF
  obtain ⟨d, hd, hde⟩ := TypeNode.mem_fieldsOf_iff.1 he
  exact ((fits_of_declares hschemas hc (declares_iff.2 ⟨i, hd⟩)).2 m e hde).1 F hrequires

/-- **Field sets stay meaningful across the merge**: where checked subgraphs are merged without
conflicts, the keys of a type and what is required for its fields fit the merged type, and what is
provided with a field fits the merged type that the field returns; so when `canResolve` reads one of
them, no missing field or type ever decides its answer. -/
theorem fieldSets_fit {n : Name} {t : TypeNode} (ht : (graphOf schemas).types.get? n = some t) :
    (∀ i ks, t.keys.get? i = some ks → ∀ k ∈ ks, k.fields.Fits (graphOf schemas) n ∧
      ∀ available, (graphOf schemas).resolves? available n k.fields =
        some ((graphOf schemas).canResolve available t k.fields)) ∧
    ∀ m f, t.fields.get? m = some f →
      (∀ i F, f.requires.get? i = some F → F.Fits (graphOf schemas) n ∧
        ∀ available, (graphOf schemas).resolves? available n F =
          some ((graphOf schemas).canResolve available t F)) ∧
      ∀ i F, f.provides.get? i = some F →
        ∃ u, (graphOf schemas).types.get? f.returns = some u ∧
          F.Fits (graphOf schemas) f.returns ∧
          ∀ available, (graphOf schemas).resolves? available f.returns F =
            some ((graphOf schemas).canResolve available u F) := by
  have hconc := concordant_of_conflicts_eq_nil (normalized_of_schemas? hschemas) hc
  obtain ⟨d₀, hd₀⟩ := isSome_get?_ofSchemas_iff.1 (Option.isSome_iff_exists.2 ⟨t, ht⟩)
  have ht₀ := exists_get?_ofSchemas hconc.kind hd₀
  obtain rfl := Option.some.inj (ht.symm.trans ht₀)
  have hnodup := nodup_declarationsOf (schemas.map Schema.contribution) n
  refine ⟨fun i ks hks k hk => ?_, fun m f hf => ⟨fun i F hF => ?_, fun i F hF => ?_⟩⟩
  · obtain ⟨d, hd, _, rfl⟩ := (TypeNode.get?_keys_iff hnodup).1 hks
    have hfits := (fits_of_declares hschemas hc (declares_iff.2 ⟨i, hd⟩)).1 k hk
    exact ⟨hfits, Graph.resolves?_eq_of_fits hfits ht⟩
  · have hfits := fits_of_get?_requires hschemas hc ht hf hF
    exact ⟨hfits, Graph.resolves?_eq_of_fits hfits ht⟩
  · have hf' := hf
    rw [TypeNode.get?_fields] at hf'
    obtain ⟨e, he, hprovides⟩ :=
      (FieldNode.get?_provides_iff (TypeNode.nodup_fieldsOf hnodup m) hf').1 hF
    obtain ⟨d, hd, hde⟩ := TypeNode.mem_fieldsOf_iff.1 he
    have hd := declares_iff.2 ⟨i, hd⟩
    obtain ⟨⟨u, hu⟩, hfits⟩ := ((fits_of_declares hschemas hc hd).2 m e hde).2 F hprovides
    -- The merged field has the type that it is declared with.
    obtain ⟨t', f', ht', hf', htype⟩ := exists_field_of_declaresField hschemas hc hd hde
    obtain rfl := Option.some.inj (ht.symm.trans ht')
    obtain rfl := Option.some.inj (hf.symm.trans hf')
    have hreturns : f.returns = e.definition.type.innerName := by rw [FieldNode.returns, htype]
    rw [hreturns]
    exact ⟨u, hu, hfits, Graph.resolves?_eq_of_fits hfits hu⟩

end Batch

/-- Two subgraphs with nested keys, a condition, and selections that are provided and required. -/
def nestedKeyBatch : List Subgraph := Subgraph.batchOfTexts
  [("a", "type Query \x7b t: Item @provides(fields: \"u \x7b v \x7d\") \x7d " ++
      "type Item @key(fields: \"u \x7b id \x7d\") \x7b u: U \x7d " ++
      "type U \x7b id: ID v: Int @external \x7d"),
    ("b", "type Item @key(fields: \"u \x7b ... on U \x7b id \x7d \x7d\") \x7b u: U " ++
      "w: Int @requires(fields: \"u \x7b v \x7d\") \x7d type U \x7b id: ID v: Int \x7d")]

/-- The schemas of the two subgraphs. -/
def nestedKeySchemas : List Schema := (schemas? nestedKeyBatch).toOption.getD []

/-- The type with the keys. -/
def nestedKeyName : Name := ⟨"Item", by decide⟩

/-- Both keys fit the merged type, and so does what the second subgraph requires. -/
theorem fieldSets_fit_nestedKey : schemas? nestedKeyBatch = .ok nestedKeySchemas ∧
    conflicts (nestedKeySchemas.map Schema.contribution) = [] ∧
    ∃ t, (graphOf nestedKeySchemas).types.get? nestedKeyName = some t ∧
      t.keys.entries.map Prod.fst = [0, 1] ∧
      (∀ i ks, t.keys.get? i = some ks → ∀ k ∈ ks,
        k.fields.Fits (graphOf nestedKeySchemas) nestedKeyName) ∧
      ∃ m f F, t.fields.get? m = some f ∧ f.requires.get? 1 = some F ∧
        F.Fits (graphOf nestedKeySchemas) nestedKeyName := by
  have h : schemas? nestedKeyBatch = .ok nestedKeySchemas ∧
      conflicts (nestedKeySchemas.map Schema.contribution) = [] ∧
      ∃ t ∈ (graphOf nestedKeySchemas).types.get? nestedKeyName,
        t.keys.entries.map Prod.fst = [0, 1] ∧
        ∃ e ∈ t.fields.entries, (e.2.requires.get? 1).isSome = true := by decide +kernel
  obtain ⟨hs, hc, t, ht, hkeys, ⟨m, f⟩, hf, hF⟩ := h
  obtain ⟨F, hF⟩ := Option.isSome_iff_exists.1 hF
  have hf := Table.get?_eq_some_iff.2 hf
  obtain ⟨hfit, hfields⟩ := fieldSets_fit hs hc ht
  exact ⟨hs, hc, t, ht, hkeys, fun i ks hks k hk => (hfit i ks hks k hk).1,
    m, f, F, hf, hF, ((hfields m f hf).1 1 F hF).1⟩

end Federation
