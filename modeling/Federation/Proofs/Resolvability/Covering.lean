import Federation.Composition
import Federation.Proofs.Graph.Selections
import Federation.Proofs.Resolvability.Termination
import Federation.Proofs.Supergraph.Canonical

/-!
# A subgraph that can do everything

If one subgraph resolves every field, declares every implementation and every union membership, and
gets whatever it requires wherever it is (`Graph.Sustains`), then it is never lost on the way: it
resolves what it is asked for at a position, goes along to whatever arrives below, and so resolves
every position of every descent (`Sustains.mem_resolving_of_descent`).  Nothing is stuck where it
is.

In a graph that is merged without conflicts from checked subgraphs, the requirements are no
condition: they select fields that are there (`fits_of_get?_requires`), all of which the subgraph
resolves (`CoveredBy.canResolve_of_fits`).  A single subgraph covers its graph
(`coveredBy_of_length_eq_one`), so it is never told that something is unresolvable
(`unresolvables_eq_nil_of_coveredBy`).
-/

namespace Federation

/-- The only subgraph that declares a field, not externally, resolves it. -/
theorem FieldNode.mem_resolvers_of_alone {names : List String}
    {es : List (SubgraphId × FieldDeclaration)} (hes : (es.map Prod.fst).Nodup) {f : FieldNode}
    (hf : ofDeclarations? names es = some f) {i : SubgraphId} {e : FieldDeclaration}
    (he : (i, e) ∈ es) (hexternal : e.external = false) (halone : ∀ d ∈ es, d.1 = i) :
    i ∈ f.resolvers := by
  rw [mem_resolvers_iff, mem_declaredIn_iff hf, mem_externalIn_iff hf,
    mem_overriddenIn_iff hes hf]
  refine ⟨⟨e, he⟩, ?_, ?_⟩
  · rintro ⟨e', he', hexternal'⟩
    have heq := List.inj_on_of_nodup_map hes he he' rfl
    cases heq
    rw [hexternal] at hexternal'
    cases hexternal'
  · rintro ⟨_, j, d, _, hd, hne, _⟩
    exact hne (halone _ hd)

namespace Graph

variable {g : Graph} {c : SubgraphId}

/-! ### Subgraphs that are never lost -/

/-- A subgraph that resolves whatever it is asked for, wherever it is, and goes along to whatever
arrives. -/
structure Sustains (g : Graph) (c : SubgraphId) : Prop where
  field : ∀ {n t m f}, g.types.get? n = some t → t.fields.get? m = some f → c ∈ f.resolvers
  required : ∀ {n t m f F}, g.types.get? n = some t → t.fields.get? m = some f →
    f.requires.get? c = some F → ∀ available, c ∈ available → g.canResolve available t F = true
  possible : ∀ {n t o s}, g.types.get? n = some t → (o, s) ∈ g.possibleTypes n t → c ∈ s

namespace Sustains

variable (hc : g.Sustains c)

include hc

/-- It resolves every field of a position that it resolves. -/
theorem mem_nextAt {p : Position} (hp : c ∈ p.resolving) {t : TypeNode}
    (ht : g.types.get? p.type = some t) {m : Name} {f : FieldNode}
    (hf : t.fields.get? m = some f) : c ∈ g.nextAt p t m f := by
  have hreach : c ∈ g.reach t p.resolving := subset_reach hp
  have hrequired : (f.requires.get? c).all (g.canResolve (g.reach t p.resolving) t) = true := by
    cases hF : f.requires.get? c with
    | none => rfl
    | some F => exact hc.required ht hf hF _ hreach
  rw [nextAt, resolversAt, SubgraphSet.mem_filter]
  exact ⟨hreach, by simp [hc.field ht hf, hrequired]⟩

/-- It resolves what arrives below a field that it resolves. -/
theorem mem_resolving_of_mem_arrivals {returns : Name} {resolving : SubgraphSet}
    {provided : SubgraphMap FieldSet} {a : Option Name × Position} (h : c ∈ resolving)
    (ha : a ∈ g.arrivals returns resolving provided) : c ∈ a.2.resolving := by
  obtain ⟨t, ht, ⟨_, rfl⟩ | ⟨_, ha⟩⟩ := mem_arrivals_iff.1 ha
  · exact h
  · obtain ⟨o, s, ho, _, rfl⟩ := mem_possibleArrivals_iff.1 ha
    exact SubgraphSet.mem_inter.2 ⟨subset_reach h, hc.possible ht ho⟩

/-- **It resolves every position of every descent.** -/
theorem mem_resolving_of_descent {r : RootField} (hr : r ∈ g.rootFields) {path : Path}
    {p : Position} (hp : g.Descent r path p) : c ∈ p.resolving := by
  induction hp with
  | start hs =>
    obtain ⟨a, ha, rfl⟩ := List.mem_map.1 hs
    obtain ⟨_, t, ht, _, hf, _⟩ := mem_rootFields_iff.1 hr
    exact hc.mem_resolving_of_mem_arrivals (hc.field ht hf) ha
  | through _ hnode hf _ hq ih =>
    exact hc.mem_resolving_of_mem_arrivals (hc.mem_nextAt ih hnode hf) hq

/-- **Nothing is reported.** -/
theorem unresolvables_eq_nil : g.unresolvables = [] := by
  rw [List.eq_nil_iff_forall_not_mem]
  intro u hu
  obtain ⟨r, hr, path, p, hp, _, ⟨node, f, hnode, hf, hnext, _⟩, _⟩ :=
    exists_descent_of_mem_unresolvables hu
  have hmem := hc.mem_nextAt (hc.mem_resolving_of_descent hr hp) hnode hf
  exact SubgraphSet.isEmpty_iff.1 hnext c hmem

end Sustains

/-! ### Subgraphs that cover a graph -/

/-- A subgraph that resolves every field of every object and interface type, and declares every
implementation of an interface and every membership of a union. -/
structure CoveredBy (g : Graph) (c : SubgraphId) : Prop where
  field : ∀ n t, g.types.get? n = some t → t.kind.hasFields = true →
    ∀ m f, t.fields.get? m = some f → c ∈ f.resolvers
  interface : ∀ n t, g.types.get? n = some t → ∀ i s, t.interfaces.get? i = some s → c ∈ s
  member : ∀ n t, g.types.get? n = some t → ∀ o s, t.members.get? o = some s → c ∈ s

theorem coveredBy_iff : g.CoveredBy c ↔ ∀ e ∈ g.types.entries,
    (e.2.kind.hasFields = true → ∀ f ∈ e.2.fields.entries, c ∈ f.2.resolvers) ∧
      (∀ i ∈ e.2.interfaces.entries, c ∈ i.2) ∧ ∀ o ∈ e.2.members.entries, c ∈ o.2 := by
  simp only [Prod.forall, ← Table.get?_eq_some_iff]
  constructor
  · intro h n t ht
    exact ⟨h.field n t ht, h.interface n t ht, h.member n t ht⟩
  · intro h
    exact ⟨fun n t ht => (h n t ht).1, fun n t ht => (h n t ht).2.1, fun n t ht => (h n t ht).2.2⟩

instance (g : Graph) (c : SubgraphId) : Decidable (g.CoveredBy c) :=
  decidable_of_iff _ coveredBy_iff.symm

namespace CoveredBy

variable (hc : g.CoveredBy c)

include hc

/-- What is possible is declared by the subgraph. -/
theorem mem_of_mem_possibleTypes {n o : Name} {t : TypeNode} {s : SubgraphSet}
    (ht : g.types.get? n = some t) (h : (o, s) ∈ g.possibleTypes n t) : c ∈ s := by
  obtain ⟨node, hnode, _, hs⟩ := mem_possibleTypes_iff.1 h
  unfold membership? at hs
  split at hs
  · exact hc.member n t ht o s hs
  · exact hc.interface o node hnode n s hs
  · cases hs

/-- Where only types of some kinds have fields, the subgraph resolves all that a selection selects,
if what is selected is there. -/
theorem canResolve_of_fits (htidy : ∀ {n t}, g.types.get? n = some t → t.Tidy) {F : FieldSet}
    {n : Name} (hF : F.Fits g n) {t : TypeNode} (ht : g.types.get? n = some t)
    {available : SubgraphSet} (h : c ∈ available) : g.canResolve available t F = true := by
  -- Below a field those go on who resolve it, the subgraph among them.
  induction F generalizing n t available with
  | empty => rw [canResolve]
  | field m sub rest ihs ihr =>
    obtain ⟨⟨t', f, ht', hf, hsub⟩, hrest⟩ := hF
    obtain rfl := Option.some.inj (ht.symm.trans ht')
    have hmem : c ∈ f.resolvers.inter available :=
      SubgraphSet.mem_inter.2 ⟨hc.field n t ht ((htidy ht).hasFields hf) m f hf, h⟩
    have hne : (f.resolvers.inter available).isEmpty = false :=
      SubgraphSet.isEmpty_eq_false_iff.2 ⟨c, hmem⟩
    rw [canResolve, hf, ihr hrest ht h]
    cases hempty : sub.isEmpty with
    | true => simp [hne]
    | false =>
      obtain ⟨⟨u, hu⟩, hfits⟩ := hsub hempty
      simp [hne, hu, ihs hfits hu hmem]
  | fragment condition sub rest ihs ihr =>
    obtain ⟨⟨u, hu⟩, hsub, hrest⟩ := hF
    have htarget : (condition.bind g.types.get?).getD t = u := by
      cases condition with
      | none => exact Option.some.inj (ht.symm.trans hu)
      | some m =>
        rw [Option.getD_some] at hu
        rw [Option.bind_some, hu, Option.getD_some]
    rw [canResolve, htarget, ihs hsub hu h, ihr hrest ht h]
    rfl

end CoveredBy

end Graph

/-! ### Batches -/

section Batch

variable {batch : List Subgraph} {schemas : List Schema}
  (hschemas : schemas? batch = .ok schemas)
  (hc : conflicts (schemas.map Schema.contribution) = [])

include hschemas hc

/-- Whoever covers the graph is never lost. -/
theorem Graph.CoveredBy.sustains {c : SubgraphId} (h : (graphOf schemas).CoveredBy c) :
    (graphOf schemas).Sustains c where
  field ht hf := h.field _ _ ht ((tidy_of_get?_types hschemas hc ht).hasFields hf) _ _ hf
  required ht hf hF _ hmem :=
    h.canResolve_of_fits (tidy_of_get?_types hschemas hc)
      (fits_of_get?_requires hschemas hc ht hf hF) ht hmem
  possible ht ho := h.mem_of_mem_possibleTypes ht ho

omit hschemas hc in
/-- Everything in the graph of a single subgraph is declared by it. -/
theorem subgraph_eq_zero (hone : schemas.length = 1) {n : Name}
    {d : SubgraphId × TypeDeclaration}
    (hd : d ∈ declarationsOf (schemas.map Schema.contribution) n) : d.1 = 0 := by
  obtain ⟨s, hs, _⟩ := mem_declarationsOf_iff.1 hd
  have hlt : d.1 < (schemas.map Schema.contribution).length := (List.getElem?_eq_some_iff.1 hs).1
  rw [List.length_map, hone] at hlt
  exact Nat.lt_one_iff.1 hlt

/-- **A single subgraph covers its graph**: every field has a declaration that is not external, and
there is nobody else to take it over. -/
theorem coveredBy_of_length_eq_one (hone : schemas.length = 1) : (graphOf schemas).CoveredBy 0 := by
  have hconc := concordant_of_conflicts_eq_nil (normalized_of_schemas? hschemas) hc
  have hmade : ∀ {n t}, (graphOf schemas).types.get? n = some t → ∃ names kind,
      t = TypeNode.ofDeclarations names kind
        (declarationsOf (schemas.map Schema.contribution) n) := by
    intro n t ht
    obtain ⟨d, hd⟩ := isSome_get?_ofSchemas_iff.1 (Option.isSome_iff_exists.2 ⟨t, ht⟩)
    exact ⟨_, _, Option.some.inj (ht.symm.trans (exists_get?_ofSchemas hconc.kind hd))⟩
  refine ⟨fun n t ht _ m f hf => ?_, fun n t ht i s hs => ?_, fun n t ht o s hs => ?_⟩
  · obtain ⟨names, kind, rfl⟩ := hmade ht
    rw [TypeNode.get?_fields] at hf
    -- with one subgraph every declaration stands at position 0
    have hzero : ∀ e ∈ TypeNode.fieldsOf (declarationsOf (schemas.map Schema.contribution) n) m,
        e.1 = 0 := by
      intro e he
      obtain ⟨d, hd, _⟩ := TypeNode.mem_fieldsOf_iff.1 he
      exact subgraph_eq_zero hone hd
    obtain ⟨e, rest, hes, _⟩ := FieldNode.ofDeclarations?_eq_some_iff.1 hf
    obtain ⟨b, hb, hexternal⟩ := hconc.base (declaresField_iff.2 ⟨e.1, hes ▸ List.mem_cons_self⟩)
    obtain ⟨i, hi⟩ := declaresField_iff.1 hb
    obtain rfl := hzero _ hi
    exact FieldNode.mem_resolvers_of_alone
      (TypeNode.nodup_fieldsOf (nodup_declarationsOf _ n) m) hf hi hexternal hzero
  · obtain ⟨names, kind, rfl⟩ := hmade ht
    obtain ⟨⟨d, hd, hdi⟩, hmem⟩ := TypeNode.get?_interfaces_iff.1 hs
    exact (hmem 0).2 ⟨d.2, subgraph_eq_zero hone hd ▸ hd, hdi⟩
  · obtain ⟨names, kind, rfl⟩ := hmade ht
    obtain ⟨⟨d, hd, hdo⟩, hmem⟩ := TypeNode.get?_members_iff.1 hs
    exact (hmem 0).2 ⟨d.2, subgraph_eq_zero hone hd ▸ hd, hdo⟩

/-- **A subgraph that can do everything makes the walk succeed**: where checked subgraphs are merged
without conflicts and one of them resolves every field of every object and interface type and
declares every implementation and every union membership, it resolves every position that the walk
visits, and nothing is reported; and a single subgraph is always such a one. -/
theorem unresolvables_eq_nil_of_coveredBy :
    (∀ c, (graphOf schemas).CoveredBy c →
      (∀ p ∈ (graphOf schemas).visited, c ∈ p.resolving) ∧ (graphOf schemas).unresolvables = []) ∧
    (schemas.length = 1 →
      (graphOf schemas).CoveredBy 0 ∧ (graphOf schemas).unresolvables = []) := by
  have hcovered : ∀ c, (graphOf schemas).CoveredBy c →
      (∀ p ∈ (graphOf schemas).visited, c ∈ p.resolving) ∧
        (graphOf schemas).unresolvables = [] := by
    intro c h
    have hsustains := h.sustains hschemas hc
    refine ⟨?_, hsustains.unresolvables_eq_nil⟩
    rintro p ⟨r, hr, path, hp⟩
    exact hsustains.mem_resolving_of_descent hr hp
  refine ⟨hcovered, fun hone => ?_⟩
  have h := coveredBy_of_length_eq_one hschemas hc hone
  exact ⟨h, (hcovered 0 h).2⟩

end Batch

/-! ### A covering subgraph -/

/-- Two subgraphs with an interface, a union, a key and, in the second one, a cycle with a provided
selection and a nested requirement.  The second one covers both. -/
def coveredBatch : List Subgraph := Subgraph.batchOfTexts
  [("a", "type Query \x7b node: Node @shareable items: [Item] @shareable \x7d " ++
      "interface Node \x7b id: ID! \x7d union Item = P " ++
      "type P implements Node @key(fields: \"id\") \x7b id: ID! \x7d"),
    ("b", "type Query \x7b node: Node @shareable items: [Item] @shareable \x7d " ++
      "interface Node \x7b id: ID! \x7d union Item = P " ++
      "type P implements Node @key(fields: \"id\") \x7b id: ID! " ++
      "next: P @provides(fields: \"id\") " ++
      "cost: Int @requires(fields: \"id next \x7b next \x7b id \x7d \x7d\") \x7d")]

/-- The schemas of the two subgraphs. -/
def coveredSchemas : List Schema := (schemas? coveredBatch).toOption.getD []

/-- The schema of the second one, alone. -/
def coveringSchemas : List Schema := (schemas? (coveredBatch.drop 1)).toOption.getD []

/-- The second subgraph covers the graph, the first one does not, and nothing is reported; nor is
anything for the second one alone. -/
theorem unresolvables_eq_nil_of_coveredBy_covered :
    (schemas? coveredBatch = .ok coveredSchemas ∧
      conflicts (coveredSchemas.map Schema.contribution) = [] ∧
      (graphOf coveredSchemas).CoveredBy 1 ∧ ¬ (graphOf coveredSchemas).CoveredBy 0 ∧
      (∃ p ∈ (graphOf coveredSchemas).visited, 0 ∈ p.resolving ∧ 1 ∈ p.resolving) ∧
      (graphOf coveredSchemas).unresolvables = []) ∧
    schemas? (coveredBatch.drop 1) = .ok coveringSchemas ∧
      conflicts (coveringSchemas.map Schema.contribution) = [] ∧ coveringSchemas.length = 1 ∧
      (graphOf coveringSchemas).unresolvables = [] := by
  have h : (schemas? coveredBatch = .ok coveredSchemas ∧
      conflicts (coveredSchemas.map Schema.contribution) = [] ∧
      (graphOf coveredSchemas).CoveredBy 1 ∧ ¬ (graphOf coveredSchemas).CoveredBy 0 ∧
      ∃ r ∈ (graphOf coveredSchemas).rootFields, ∃ s ∈ (graphOf coveredSchemas).starts r,
        0 ∈ s.2.resolving) ∧
      schemas? (coveredBatch.drop 1) = .ok coveringSchemas ∧
        conflicts (coveringSchemas.map Schema.contribution) = [] ∧
        coveringSchemas.length = 1 := by decide +kernel
  obtain ⟨⟨hs, hc, hcovered, hnot, r, hr, s, hstart, hzero⟩, hs', hc', hone⟩ := h
  obtain ⟨hresolves, hnil⟩ := (unresolvables_eq_nil_of_coveredBy hs hc).1 1 hcovered
  have hvisited : s.2 ∈ (graphOf coveredSchemas).visited := ⟨r, hr, s.1, .start hstart⟩
  exact ⟨⟨hs, hc, hcovered, hnot, ⟨s.2, hvisited, hzero, hresolves _ hvisited⟩, hnil⟩, hs', hc',
    hone, ((unresolvables_eq_nil_of_coveredBy hs' hc').2 hone).2⟩

end Federation
