import Federation.Proofs.Condition.Reach

/-!
# Conditions on what is required and on keys

Where no condition is put on what is provided, nothing of the walk depends on conditions: graphs
that are equal but for conditions have the same steps at every position (`steps_eq`), and so the
same fields are unresolvable, each with its way, its root field and the subgraphs that resolve it
(`unresolvables_eq`).
-/

namespace Federation.Graph

/-- Graphs with the same steps at every position have the same walks. -/
theorem walk_eq_of_steps {g g' : Graph} (h : ∀ p, g'.steps p = g.steps p)
    (ancestors : List Position) (path : Path) (p : Position) :
    g'.walk ancestors path p = g.walk ancestors path p := by
  induction ancestors, path, p using walk.induct g with
  | case1 ancestors path p hmem => rw [walk_eq, walk_eq, if_pos hmem, if_pos hmem]
  | case2 ancestors path p hmem ih =>
    rw [walk_eq, walk_eq, if_neg hmem, if_neg hmem, h]
    refine List.flatMap_congr fun s hs => ?_
    cases s with
    | stuck name culprits => rw [report, report]
    | descend name possible q =>
      rw [report, report]
      exact ih name possible q hs

/-- A root field that is equal but for conditions. -/
structure RootEqualUpTo (sites : List String) (returns : Name → Name → SubgraphId → Name)
    (r r' : RootField) : Prop where
  type : r'.type = r.type
  name : r'.name = r.name
  node : FieldNode.EqualUpTo sites r.type (returns r.type r.name) r.node r'.node

namespace EqualUpTo

variable {sites : List String} {returns : Name → Name → SubgraphId → Name} {g g' : Graph}
  (h : g.EqualUpTo sites returns g')

include h

theorem possibleArrivals_eq {n : Name} {t t' : TypeNode} (hn : g.types.get? n = some t)
    (hn' : g'.types.get? n = some t') (resolving : SubgraphSet) (provided : SubgraphMap FieldSet) :
    g'.possibleArrivals n t' resolving provided = g.possibleArrivals n t resolving provided := by
  rw [possibleArrivals, possibleArrivals, h.reach_eq hn hn',
    h.possibleTypes_eq (h.node_equalUpTo hn hn')]

theorem arrivals_eq (n : Name) (resolving : SubgraphSet) (provided : SubgraphMap FieldSet) :
    g'.arrivals n resolving provided = g.arrivals n resolving provided := by
  unfold arrivals
  rcases rel_cases (h.types.get? n) with ⟨hn, hn'⟩ | ⟨t, t', hn, hn', ht⟩
  · rw [hn, hn']
  · rw [hn, hn']
    simp only [ht.kind, h.possibleArrivals_eq hn hn']

variable (hsites : "provides" ∉ sites)

omit h in
include hsites in
theorem provides_eq {n : Name} {ret : SubgraphId → Name} {f f' : FieldNode}
    (hf : FieldNode.EqualUpTo sites n ret f f') : f'.provides = f.provides := by
  refine SubgraphMap.ext_get? fun i => ?_
  have hi := hf.provides i
  rw [fieldSite_provides_eq_none hsites] at hi
  rcases rel_cases hi with ⟨hi, hi'⟩ | ⟨F, F', hi, hi', hF⟩
  · rw [hi, hi']
  · rw [hi, hi', hF.eq_of_none]

include hsites

theorem fieldSteps_eq {n m : Name} {t t' : TypeNode} (hn : g.types.get? n = some t)
    (hn' : g'.types.get? n = some t') {f f' : FieldNode}
    (hf : FieldNode.EqualUpTo sites n (returns n m) f f') (reached : SubgraphSet)
    (provided : SubgraphMap FieldSet) :
    g'.fieldSteps t' reached provided m f' = g.fieldSteps t reached provided m f := by
  have hreturns : f'.returns = f.returns := by
    rw [FieldNode.returns, FieldNode.returns, hf.definition]
  have hbelow : providedBelow provided m f' = providedBelow provided m f := by
    funext next
    unfold providedBelow
    congr 1
    funext i
    rw [providedAt, providedAt, provides_eq hsites hf]
  simp only [fieldSteps, h.resolversAt_eq hn hn' reached (.refl provided) hf, hf.resolvers_eq,
    hreturns, hbelow, h.arrivals_eq]

/-- **The same lies below every position.** -/
theorem steps_eq (p : Position) : g'.steps p = g.steps p := by
  unfold steps
  rcases rel_cases (h.types.get? p.type) with ⟨hn, hn'⟩ | ⟨t, t', hn, hn', ht⟩
  · rw [hn, hn']
  · rw [hn, hn']
    simp only [h.reach_eq hn hn']
    exact ht.fields.flatMap_entries_eq fun m f f' hf =>
      h.fieldSteps_eq hsites hn hn' hf _ p.provided

omit hsites in
/-- Root fields are equal but for conditions. -/
theorem rootFields :
    List.Forall₂ (RootEqualUpTo sites returns) g.rootFields g'.rootFields := by
  have hobject : ∀ n, Option.Rel (TypeNode.EqualUpTo sites n (returns n)) (g.object? n)
      (g'.object? n) := by
    intro n
    unfold object?
    rcases rel_cases (h.types.get? n) with ⟨hn, hn'⟩ | ⟨t, t', hn, hn', ht⟩
    · rw [hn, hn']
      exact .none
    · rw [hn, hn', Option.filter_some, Option.filter_some, ht.kind]
      split
      · exact .some ht
      · exact .none
  have hroots : List.Forall₂ (fun t t' : Name × TypeNode => t'.1 = t.1 ∧
      TypeNode.EqualUpTo sites t.1 (returns t.1) t.2 t'.2) g.rootTypes g'.rootTypes := by
    have hnames : List.Forall₂ (fun n n' : Name => n' = n) rootTypeNames rootTypeNames :=
      List.forall₂_same.2 fun _ _ => rfl
    refine forall₂_filterMap hnames fun n n' hn => ?_
    subst hn
    exact rel_map (hobject n') fun t t' ht => ⟨rfl, ht⟩
  refine forall₂_flatMap hroots fun t t' ht => ?_
  have hfields := forall₂_filter (p := fun f => !f.2.resolvers.isEmpty)
    (q := fun f => !f.2.resolvers.isEmpty) ht.2.fields
    fun f f' hf => by rw [hf.2.resolvers_eq]
  exact forall₂_map hfields fun f f' hf => ⟨ht.1, hf.1, hf.2⟩

/-- **The same fields are unresolvable**, for the same reasons, where no condition is put on what is
provided. -/
theorem unresolvables_eq : g'.unresolvables = g.unresolvables := by
  refine flatMap_eq_of_forall₂ h.rootFields fun r r' hr => ?_
  have hreturns : r'.node.returns = r.node.returns := by
    rw [FieldNode.returns, FieldNode.returns, hr.node.definition]
  have hfindings : g'.findings r' = g.findings r := by
    simp only [findings, starts, hr.type, hr.name, hreturns, hr.node.resolvers_eq,
      provides_eq hsites hr.node, h.arrivals_eq, walk_eq_of_steps (h.steps_eq hsites)]
  have horigin : g'.origin r' = g.origin r := by
    simp only [origin, hr.type, hr.name, hr.node.definition, hr.node.resolvers_eq, h.namesOf_eq]
  rw [hfindings, horigin]
  refine List.map_congr_left fun x _ => ?_
  rw [unresolvable, unresolvable, h.namesOf_eq]

end EqualUpTo

end Federation.Graph
