import Federation.Proofs.Order.Merging
import Federation.Proofs.Resolvability.CycleGuard
import Mathlib.Data.Finset.Dedup

/-!
# Walking a renumbered graph

Renumbering the subgraphs of a graph changes nothing about what its walk finds.  Each of the
functions that the walk is made of commutes with the renumbering, from `canResolve` up to
`nextAt`; the positions below a position are the renumbered ones, in another order; and by induction
on the walk itself so are its findings (`Graph.Renumbered.mem_walk`).

So the fields that a batch is reported to be unable to resolve are the same in every order of the
batch (`unresolvables_of_perm`).
-/

namespace Federation

variable {σ : Equiv.Perm SubgraphId}

theorem FieldNode.Renumbered.returns_eq {f f' : FieldNode} (h : f.Renumbered σ f') :
    f'.returns = f.returns := by
  rw [FieldNode.returns, FieldNode.returns, h.type]

/-- The position with every subgraph renumbered. -/
def Position.renumber (σ : Equiv.Perm SubgraphId) (p : Position) : Position :=
  ⟨p.type, p.resolving.renumber σ, p.provided.renumber σ⟩

theorem Position.renumber_injective : Function.Injective (Position.renumber σ) := by
  rintro ⟨n, s, m⟩ ⟨n', s', m'⟩ h
  simp only [renumber, Position.mk.injEq] at h
  obtain ⟨rfl, hs, hm⟩ := h
  rw [SubgraphSet.renumber_injective hs, SubgraphMap.renumber_injective hm]

/-- The finding with every subgraph renumbered. -/
def Finding.renumber (σ : Equiv.Perm SubgraphId) (x : Finding) : Finding :=
  { x with culprits := x.culprits.renumber σ }

namespace Graph.Renumbered

variable {g g' : Graph} (hg : g.Renumbered σ g')

include hg

/-! ### Resolving selections -/

theorem canResolve_eq {node node' : TypeNode} (hnode : node.Renumbered σ node')
    (available : SubgraphSet) (F : FieldSet) :
    g'.canResolve (available.renumber σ) node' F = g.canResolve available node F := by
  induction F generalizing available node node' with
  | empty => rfl
  | field n sub rest ihs ihr =>
    rw [canResolve, canResolve, ihr hnode]
    rcases rel_cases (hnode.field n) with ⟨h, h'⟩ | ⟨f, f', h, h', hf⟩
    · rw [h, h']
    · rw [h, h']
      simp only [hf.resolvers, hf.returns_eq, ← SubgraphSet.renumber_inter,
        SubgraphSet.isEmpty_renumber]
      rcases rel_cases (hg.type f.returns) with ⟨hc, hc'⟩ | ⟨child, child', hc, hc', hchild⟩
      · rw [hc, hc']
      · simp only [hc, hc', ihs hchild]
  | fragment c sub rest ihs ihr =>
    rw [canResolve, canResolve, ihr hnode]
    have htarget : ((c.bind g.types.get?).getD node).Renumbered σ
        ((c.bind g'.types.get?).getD node') := by
      cases c with
      | none => exact hnode
      | some n =>
        rcases rel_cases (hg.type n) with ⟨h, h'⟩ | ⟨t, t', h, h', ht⟩
        · simpa [h, h'] using hnode
        · simpa [h, h'] using ht
    rw [ihs htarget]

theorem enterable_eq {node node' : TypeNode} (hnode : node.Renumbered σ node')
    (reached : SubgraphSet) :
    g'.enterable node' (reached.renumber σ) = (g.enterable node reached).renumber σ := by
  refine SubgraphSet.eq_renumber_iff.2 fun i => ?_
  rw [mem_enterable_iff, mem_enterable_iff, SubgraphSet.apply_mem_renumber]
  simp only [hnode.resolvableKey, hg.canResolve_eq hnode]

theorem reach_eq {node node' : TypeNode} (hnode : node.Renumbered σ node')
    (reached : SubgraphSet) :
    g'.reach node' (reached.renumber σ) = (g.reach node reached).renumber σ := by
  induction reached using reach.induct g node with
  | case1 reached hend =>
    rw [reach, hg.enterable_eq hnode, SubgraphSet.isEmpty_renumber, if_pos hend, reach, if_pos hend]
  | case2 reached hend ih =>
    conv_rhs => rw [reach, if_neg hend]
    rw [reach, hg.enterable_eq hnode, SubgraphSet.isEmpty_renumber, if_neg hend,
      ← SubgraphSet.renumber_union, ih]

/-! ### Steps -/

theorem resolversAt_eq {node node' : TypeNode} (hnode : node.Renumbered σ node') {f f' : FieldNode}
    (hf : f.Renumbered σ f') (reached : SubgraphSet) (provided : SubgraphMap FieldSet)
    (name : Name) :
    g'.resolversAt node' (reached.renumber σ) (provided.renumber σ) name f' =
      (g.resolversAt node reached provided name f).renumber σ := by
  refine SubgraphSet.eq_renumber_iff.2 fun i => ?_
  have hcan : g'.canResolve (reached.renumber σ) node' = g.canResolve reached node :=
    funext fun F => hg.canResolve_eq hnode reached F
  simp only [resolversAt, SubgraphSet.mem_filter, SubgraphSet.apply_mem_renumber, hf.resolvers,
    hf.requires, hf.declaredIn, SubgraphMap.get?_renumber, Equiv.symm_apply_apply, hcan]

theorem nextAt_eq {p : Position} {node node' : TypeNode} (hnode : node.Renumbered σ node')
    {f f' : FieldNode} (hf : f.Renumbered σ f') (name : Name) :
    g'.nextAt (p.renumber σ) node' name f' = (g.nextAt p node name f).renumber σ := by
  rw [nextAt, nextAt, Position.renumber, hg.reach_eq hnode, hg.resolversAt_eq hnode hf]

omit hg in
theorem providedBelow_eq {f f' : FieldNode} (hf : f.Renumbered σ f')
    (provided : SubgraphMap FieldSet) (name : Name) (next : SubgraphSet) :
    providedBelow (provided.renumber σ) name f' (next.renumber σ) =
      (providedBelow provided name f next).renumber σ := by
  refine SubgraphMap.eq_renumber_iff.2 fun i => ?_
  simp only [providedBelow, SubgraphMap.get?_ofSet, SubgraphSet.apply_mem_renumber, providedAt,
    hf.provides, SubgraphMap.get?_renumber, Equiv.symm_apply_apply]

/-! ### Arrivals -/

theorem mem_possibleTypes {n o : Name} {t t' : TypeNode} (ht : t.Renumbered σ t') {s : SubgraphSet}
    (h : (o, s) ∈ g.possibleTypes n t) : (o, s.renumber σ) ∈ g'.possibleTypes n t' := by
  obtain ⟨node, ho, hkind, hs⟩ := mem_possibleTypes_iff.1 h
  obtain ⟨node', ho', hnode⟩ := hg.exists_type ho
  refine mem_possibleTypes_iff.2 ⟨node', ho', by rw [hnode.kind, hkind], ?_⟩
  unfold membership? at hs ⊢
  rw [ht.kind]
  cases hk : t.kind <;> simp only [hk, reduceCtorEq] at hs ⊢
  · rw [hnode.interface, hs, Option.map_some]
  · rw [ht.member, hs, Option.map_some]

omit hg in
theorem forPossibleType_eq (provided : SubgraphMap FieldSet) (returns o : Name)
    (s : SubgraphSet) :
    ((provided.renumber σ).filter (· ∈ s.renumber σ)).map (FieldSet.forPossibleType returns o) =
      ((provided.filter (· ∈ s)).map (FieldSet.forPossibleType returns o)).renumber σ := by
  refine SubgraphMap.eq_renumber_iff.2 fun i => ?_
  simp only [SubgraphMap.get?_map, SubgraphMap.get?_filter, SubgraphSet.apply_mem_renumber,
    SubgraphMap.get?_renumber, Equiv.symm_apply_apply]

theorem mem_possibleArrivals {returns : Name} {t t' : TypeNode} (ht : t.Renumbered σ t')
    {resolving : SubgraphSet} {provided : SubgraphMap FieldSet} {possible : Option Name}
    {q : Position} (h : (possible, q) ∈ g.possibleArrivals returns t resolving provided) :
    (possible, q.renumber σ) ∈
      g'.possibleArrivals returns t' (resolving.renumber σ) (provided.renumber σ) := by
  obtain ⟨o, s, ho, hne, h⟩ := mem_possibleArrivals_iff.1 h
  cases h
  refine mem_possibleArrivals_iff.2 ⟨o, s.renumber σ, hg.mem_possibleTypes ht ho, ?_, ?_⟩
  · rw [hg.reach_eq ht, ← SubgraphSet.renumber_inter, SubgraphSet.isEmpty_renumber, hne]
  · rw [hg.reach_eq ht, ← SubgraphSet.renumber_inter, forPossibleType_eq]
    rfl

theorem mem_arrivals {returns : Name} {resolving : SubgraphSet} {provided : SubgraphMap FieldSet}
    {possible : Option Name} {q : Position}
    (h : (possible, q) ∈ g.arrivals returns resolving provided) :
    (possible, q.renumber σ) ∈
      g'.arrivals returns (resolving.renumber σ) (provided.renumber σ) := by
  obtain ⟨t, ht, h⟩ := mem_arrivals_iff.1 h
  obtain ⟨t', ht', hrel⟩ := hg.exists_type ht
  refine mem_arrivals_iff.2 ⟨t', ht', ?_⟩
  rw [hrel.kind]
  rcases h with ⟨hkind, h⟩ | ⟨hkind, h⟩
  · cases h
    exact .inl ⟨hkind, rfl⟩
  · exact .inr ⟨hkind, hg.mem_possibleArrivals hrel h⟩

/-! ### The walk -/

theorem stuck_mem_steps {p : Position} {name : Name} {culprits : SubgraphSet}
    (h : .stuck name culprits ∈ g.steps p) :
    .stuck name (culprits.renumber σ) ∈ g'.steps (p.renumber σ) := by
  obtain ⟨node, f, hnode, hf, hnext, hres, rfl⟩ := stuck_mem_steps_iff.1 h
  obtain ⟨node', hnode', hn⟩ := hg.exists_type hnode
  obtain ⟨f', hf', hff⟩ := hn.exists_field hf
  refine stuck_mem_steps_iff.2 ⟨node', f', hnode', hf', ?_, ?_, hff.resolvers.symm⟩
  · rw [hg.nextAt_eq hn hff, SubgraphSet.isEmpty_renumber, hnext]
  · rw [hff.resolvers, SubgraphSet.isEmpty_renumber, hres]

theorem descend_mem_steps {p q : Position} {name : Name} {possible : Option Name}
    (h : .descend name possible q ∈ g.steps p) :
    .descend name possible (q.renumber σ) ∈ g'.steps (p.renumber σ) := by
  obtain ⟨node, f, hnode, hf, hnext, hq⟩ := descend_mem_steps_iff.1 h
  obtain ⟨node', hnode', hn⟩ := hg.exists_type hnode
  obtain ⟨f', hf', hff⟩ := hn.exists_field hf
  refine descend_mem_steps_iff.2 ⟨node', f', hnode', hf', ?_, ?_⟩
  · rw [hg.nextAt_eq hn hff, SubgraphSet.isEmpty_renumber, hnext]
  · rw [hg.nextAt_eq hn hff, hff.returns_eq]
    have hprov : providedBelow (p.renumber σ).provided name f'
        ((g.nextAt p node name f).renumber σ) =
          (providedBelow p.provided name f (g.nextAt p node name f)).renumber σ :=
      providedBelow_eq hff p.provided name _
    rw [hprov]
    exact hg.mem_arrivals hq

/-- What a walk finds, the walk of the renumbered graph finds at the renumbered position. -/
theorem mem_walk (ancestors : List Position) (path : Path) (p : Position) {x : Finding}
    (hx : x ∈ g.walk ancestors path p) :
    x.renumber σ ∈ g'.walk (ancestors.map (.renumber σ)) path (p.renumber σ) := by
  induction ancestors, path, p using walk.induct g with
  | case1 ancestors path p hmem => exact absurd hmem (mem_walk_iff.1 hx).1
  | case2 ancestors path p hmem ih =>
    obtain ⟨_, s, hs, hx⟩ := mem_walk_iff.1 hx
    -- The renumbered position is no ancestor either.
    have hmem' : p.renumber σ ∉ ancestors.map (.renumber σ) := by
      rw [List.mem_map_of_injective Position.renumber_injective]
      exact hmem
    cases s with
    | stuck name culprits =>
      simp only [report, List.mem_singleton] at hx
      subst hx
      exact mem_walk_iff.2 ⟨hmem', _, hg.stuck_mem_steps hs, by simp [report, Finding.renumber,
        Position.renumber]⟩
    | descend name possible q =>
      exact mem_walk_iff.2 ⟨hmem', _, hg.descend_mem_steps hs, ih name possible q hs hx⟩

end Graph.Renumbered

/-! ### Reports -/

/-- What a report says, where the order in which it names subgraphs does not count. -/
structure Unresolvable.Entry where
  rootType : Name
  rootField : Name
  rootFieldType : String
  rootPath : String
  rootSubgraphs : Finset String
  path : String
  type : Name
  field : Name
  culprits : Finset String
deriving DecidableEq

/-- The entry that a report is. -/
def Unresolvable.entry (u : Unresolvable) : Unresolvable.Entry where
  rootType := u.root.type
  rootField := u.root.field
  rootFieldType := u.root.fieldType
  rootPath := u.root.path
  rootSubgraphs := u.root.subgraphs.toFinset
  path := u.path
  type := u.type
  field := u.field
  culprits := u.culprits.toFinset

namespace Graph

namespace Renumbered

variable {g g' : Graph} (hg : g.Renumbered σ g')

include hg

theorem toFinset_namesOf (s : SubgraphSet) :
    (g'.namesOf (s.renumber σ)).toFinset = (g.namesOf s).toFinset := by
  ext x
  simp only [namesOf, List.mem_toFinset, List.mem_map, ← SubgraphSet.mem_def]
  rw [σ.surjective.exists]
  simp only [SubgraphSet.apply_mem_renumber, hg.name]

/-- What is reported for a graph is reported for the renumbered one. -/
theorem mem_entries {e : Unresolvable.Entry} (he : e ∈ g.unresolvables.map Unresolvable.entry) :
    e ∈ g'.unresolvables.map Unresolvable.entry := by
  obtain ⟨u, hu, rfl⟩ := List.mem_map.1 he
  obtain ⟨r, hr, s, hs, x, hx, rfl⟩ := mem_unresolvables_iff.1 hu
  obtain ⟨hn, t, ht, hkind, hf, hres⟩ := mem_rootFields_iff.1 hr
  obtain ⟨t', ht', hrel⟩ := hg.exists_type ht
  obtain ⟨f', hf', hff⟩ := hrel.exists_field hf
  have hr' : ⟨r.type, r.name, f'⟩ ∈ g'.rootFields := by
    refine mem_rootFields_iff.2 ⟨hn, t', ht', by rw [hrel.kind, hkind], hf', ?_⟩
    rw [hff.resolvers, SubgraphSet.isEmpty_renumber, hres]
  obtain ⟨a, ha, rfl⟩ := List.mem_map.1 hs
  have hs' : ((Path.root r.type r.name).into a.1, a.2.renumber σ) ∈
      g'.starts ⟨r.type, r.name, f'⟩ := by
    refine List.mem_map.2 ⟨(a.1, a.2.renumber σ), ?_, rfl⟩
    simp only [hff.returns_eq, hff.resolvers, hff.provides]
    exact hg.mem_arrivals ha
  have hx' := hg.mem_walk [] _ _ hx
  refine List.mem_map.2 ⟨_, mem_unresolvables_iff.2 ⟨_, hr', _, hs', _, hx', rfl⟩, ?_⟩
  -- An entry names subgraphs as a set, so the order in which they are numbered does not show.
  have hroot : ((g'.namesOf f'.resolvers).toFinset) = (g.namesOf r.node.resolvers).toFinset := by
    rw [hff.resolvers, hg.toFinset_namesOf]
  have hnew : ∀ l : List String, (appendNew [] l).toFinset = l.toFinset := fun l => by
    ext x
    simp
  simp only [Unresolvable.entry, unresolvable, origin, RootOrigin.ofNames, Finding.renumber,
    hg.toFinset_namesOf, hnew, hroot, hff.type]

end Renumbered

end Graph

/-- **Reports do not depend on the order of the batch**: for checked subgraphs that are merged
without conflicts, every order of them leads to the same reports, as a set, and up to the order in
which a report names subgraphs. -/
theorem unresolvables_of_perm {batch : List Subgraph} {schemas schemas' : List Schema}
    (hs : schemas? batch = .ok schemas) (hp : schemas.Perm schemas')
    (hc : conflicts (schemas.map Schema.contribution) = [] ∨
      conflicts (schemas'.map Schema.contribution) = []) (e : Unresolvable.Entry) :
    e ∈ (graphOf schemas).unresolvables.map Unresolvable.entry ↔
      e ∈ (graphOf schemas').unresolvables.map Unresolvable.entry := by
  have hperm := hp.map Schema.contribution
  have hn := normalized_of_schemas? hs
  have hconcordant : Concordant (schemas.map Schema.contribution) := by
    rcases hc with hc | hc
    · exact concordant_of_conflicts_eq_nil hn hc
    · exact (concordant_of_conflicts_eq_nil (hn.of_perm hperm) hc).of_perm hperm.symm
  obtain ⟨σ, hσ⟩ := exists_renumbering hperm
  have hg := hconcordant.renumbered hn hperm hσ
  exact ⟨hg.mem_entries, hg.symm.mem_entries⟩

/-- Two subgraphs that declare the type of a root field, neither of which can be entered from the
other. -/
def detachedBatch : List Subgraph := Subgraph.batchOfTexts
  [("a", "type Query \x7b t: T u: T \x7d type T \x7b x: Int \x7d"),
    ("b", "type T \x7b y: Int \x7d")]

/-- The schemas of the two subgraphs. -/
def detachedSchemas : List Schema := (schemas? detachedBatch).toOption.getD []

/-- In both orders of the two subgraphs, the field of the second one is reported below both root
fields. -/
theorem unresolvables_of_perm_detached :
    conflicts (detachedSchemas.map Schema.contribution) = [] ∧
    (graphOf detachedSchemas).unresolvables.map (·.path) = ["Query.t.y", "Query.u.y"] ∧
    ∀ e, e ∈ (graphOf detachedSchemas).unresolvables.map Unresolvable.entry ↔
      e ∈ (graphOf detachedSchemas.reverse).unresolvables.map Unresolvable.entry := by
  have hs : schemas? detachedBatch = .ok detachedSchemas := by decide +kernel
  have hc : conflicts (detachedSchemas.map Schema.contribution) = [] := by decide +kernel
  refine ⟨hc, by decide +kernel, ?_⟩
  exact unresolvables_of_perm hs (List.reverse_perm _).symm (.inl hc)

end Federation
