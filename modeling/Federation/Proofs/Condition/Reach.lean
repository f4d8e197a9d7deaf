import Federation.Proofs.Condition.Conflicts
import Federation.Proofs.Resolvability.CycleGuard
import Federation.Proofs.Resolvability.KeyJumps

/-!
# Conditions, keys and what is required

The selection of a key or of `@requires` is resolved at its type.  A condition on that very type
holds there, so the same subgraphs can resolve the selection with and without it
(`Graph.EqualUpTo.canResolve_conditioned`).  From this follow the subgraphs that are in reach
(`Graph.EqualUpTo.reach_eq`) and those that resolve a field (`Graph.EqualUpTo.nextAt_eq`), in graphs
that are equal but for conditions.

What is provided at a position is only read field by field.  Two maps of provided selections from
which the same is read for every field (`ReadAlike`) are as good as each other there.
-/

namespace Federation

/-! ### What is read off provided selections -/

/-- Whether two maps of selections have the same below every field of the type at hand. -/
def ReadAlike (m m' : SubgraphMap FieldSet) : Prop :=
  ∀ i n, (m'.get? i).bind (FieldSet.selectionOf? n) = (m.get? i).bind (FieldSet.selectionOf? n)

theorem ReadAlike.refl (m : SubgraphMap FieldSet) : ReadAlike m m := fun _ _ => rfl

/-- A field is selected exactly if there is a selection below it. -/
theorem any_fieldNames_eq (F? : Option FieldSet) (n : Name) :
    (F?.any fun F => F.fieldNames.contains n) = (F?.bind (FieldSet.selectionOf? n)).isSome := by
  cases F? with
  | none => rfl
  | some F =>
    rw [Option.any_some, Option.bind_some, Bool.eq_iff_iff, List.contains_iff_mem,
      FieldSet.selectionOf?_isSome_iff]

/-! ### The site of a key and of what is required -/

theorem eq_of_keySite {sites : List String} {type T : Name} {s : String}
    (h : keySite sites type s = some T) : T = type := by
  simp only [keySite, Option.ite_none_right_eq_some, Option.some.injEq] at h
  exact h.2.symm

theorem eq_of_fieldSite_requires {sites : List String} {type returns T : Name}
    (h : fieldSite sites type returns "requires" = some T) : T = type := by
  unfold fieldSite at h
  split at h
  · exact (Option.some.inj h).symm
  · split at h
    · rename_i hs
      exact absurd hs.2 (by decide)
    · cases h

theorem eq_of_fieldSite_provides {sites : List String} {type returns T : Name}
    (h : fieldSite sites type returns "provides" = some T) : T = returns := by
  unfold fieldSite at h
  split at h
  · rename_i hs
    exact absurd hs.2 (by decide)
  · split at h
    · exact (Option.some.inj h).symm
    · cases h

/-- What is provided has no site where `@provides` may have no condition. -/
theorem fieldSite_provides_eq_none {sites : List String} (hsites : "provides" ∉ sites)
    (type returns : Name) : fieldSite sites type returns "provides" = none := by
  unfold fieldSite
  rw [if_neg fun h => absurd h.2 (by decide), if_neg fun h => hsites h.1]

namespace Graph.EqualUpTo

variable {sites : List String} {returns : Name → Name → SubgraphId → Name} {g g' : Graph}
  (h : g.EqualUpTo sites returns g')

include h

/-! ### Resolving a selection -/

/-- The same subgraphs can resolve a selection. -/
theorem canResolve_eq (available : SubgraphSet) {n : Name} {t t' : TypeNode}
    (ht : TypeNode.EqualUpTo sites n (returns n) t t') (F : FieldSet) :
    g'.canResolve available t' F = g.canResolve available t F := by
  have hsame : ∀ {n t t'}, TypeNode.EqualUpTo sites n (returns n) t t' → t.SameResolvers t' :=
    fun ht m => rel_imp (ht.fields.get? m) fun f f' hf =>
      ⟨hf.resolvers_eq, by rw [FieldNode.returns, FieldNode.returns, hf.definition]⟩
  exact canResolve_eq_of_sameResolvers (fun n => rel_imp (h.types.get? n) fun _ _ => hsame)
    (hsame ht) available F

section Types

variable {n : Name} {t t' : TypeNode} (hn : g.types.get? n = some t)
  (hn' : g'.types.get? n = some t')

include hn hn'

theorem node_equalUpTo : TypeNode.EqualUpTo sites n (returns n) t t' := by
  obtain ⟨u, hu, ht⟩ := exists_of_rel (h.types.get? n) hn
  rw [hn'] at hu
  cases hu
  exact ht

/-- **A condition on the type itself holds where a selection is resolved.** -/
theorem canResolve_conditioned {site : Option Name} (hsite : ∀ T, site = some T → T = n)
    (available : SubgraphSet) {F F' : FieldSet} (hF : FieldSet.Conditioned site F F') :
    g'.canResolve available t' F' = g.canResolve available t F := by
  have ht := h.node_equalUpTo hn hn'
  rcases hF with rfl | ⟨T, hT, rfl⟩
  · exact h.canResolve_eq available ht F'
  · obtain rfl := hsite T hT
    rw [canResolve, Option.bind_some, hn', Option.getD_some, h.canResolve_eq available ht,
      canResolve, Bool.and_true]

/-! ### Entering through keys -/

theorem enterable_eq (reached : SubgraphSet) :
    g'.enterable t' reached = g.enterable t reached := by
  have hkeys : ∀ (g : Graph) (t : TypeNode) (i : SubgraphId),
      i ∈ g.enterable t reached ↔ i ∉ reached ∧ ∃ ks, t.keys.get? i = some ks ∧
        ks.any (fun k => k.resolvable && g.canResolve reached t k.fields) = true := by
    intro g t i
    simp only [mem_enterable_iff, TypeNode.mem_resolvableKeys_iff_get?, List.any_eq_true,
      Bool.and_eq_true]
    refine and_congr_right fun _ => ⟨?_, ?_⟩
    · rintro ⟨k, ⟨ks, hks, hk, hres⟩, hcan⟩
      exact ⟨ks, hks, k, hk, hres, hcan⟩
    · rintro ⟨ks, hks, k, hk, hres, hcan⟩
      exact ⟨k, ⟨ks, hks, hk, hres⟩, hcan⟩
  -- Keys are compared subgraph by subgraph, since their order does not matter here.
  refine SubgraphSet.ext_mem fun i => ?_
  rw [hkeys, hkeys]
  refine and_congr_right fun _ => ?_
  rcases rel_cases ((h.node_equalUpTo hn hn').keys i) with ⟨hi, hi'⟩ | ⟨ks, ks', hi, hi', hks⟩
  · rw [hi, hi']
    simp
  · have hany : ks'.any (fun k => k.resolvable && g'.canResolve reached t' k.fields) =
        ks.any fun k => k.resolvable && g.canResolve reached t k.fields :=
      any_eq_of_forall₂ hks fun k k' hk => by
        rw [hk.resolvable,
          h.canResolve_conditioned hn hn' (fun _ => eq_of_keySite) reached hk.fields]
    simp only [hi, hi', Option.some.injEq, exists_eq_left', hany]

/-- **The same subgraphs are in reach.** -/
theorem reach_eq (reached : SubgraphSet) : g'.reach t' reached = g.reach t reached := by
  induction reached using reach.induct g t with
  | case1 reached hend => rw [reach, h.enterable_eq hn hn', if_pos hend, reach, if_pos hend]
  | case2 reached hend ih =>
    conv => rhs; rw [reach, if_neg hend]
    rw [reach, h.enterable_eq hn hn', if_neg hend, ih]

/-- **The same subgraphs resolve a field**, where the same is read off what is provided. -/
theorem resolversAt_eq (reached : SubgraphSet) {provided provided' : SubgraphMap FieldSet}
    (hprovided : ReadAlike provided provided') {m : Name} {f f' : FieldNode}
    (hf : FieldNode.EqualUpTo sites n (returns n m) f f') :
    g'.resolversAt t' reached provided' m f' = g.resolversAt t reached provided m f := by
  refine SubgraphSet.ext_mem fun i => ?_
  have hrequired : (f'.requires.get? i).all (g'.canResolve reached t') =
      (f.requires.get? i).all (g.canResolve reached t) := by
    rcases rel_cases (hf.requires i) with ⟨hi, hi'⟩ | ⟨F, F', hi, hi', hF⟩
    · rw [hi, hi']
      rfl
    · rw [hi, hi']
      exact h.canResolve_conditioned hn hn' (fun _ => eq_of_fieldSite_requires) reached hF
  simp only [resolversAt, SubgraphSet.mem_filter, hrequired, hf.resolvers_eq, hf.declaredIn,
    any_fieldNames_eq, hprovided i m]

end Types

theorem nextAt_eq {p p' : Position} (htype : p'.type = p.type)
    (hresolving : p'.resolving = p.resolving) (hprovided : ReadAlike p.provided p'.provided)
    {t t' : TypeNode} (hn : g.types.get? p.type = some t) (hn' : g'.types.get? p'.type = some t')
    {m : Name} {f f' : FieldNode} (hf : FieldNode.EqualUpTo sites p.type (returns p.type m) f f') :
    g'.nextAt p' t' m f' = g.nextAt p t m f := by
  rw [htype] at hn'
  rw [nextAt, nextAt, hresolving, h.reach_eq hn hn', h.resolversAt_eq hn hn' _ hprovided hf]

/-! ### Possible types -/

theorem possibleTypes_eq {n : Name} {t t' : TypeNode}
    (ht : TypeNode.EqualUpTo sites n (returns n) t t') :
    g'.possibleTypes n t' = g.possibleTypes n t := by
  have hmembership : ∀ {o : Name} {u u' : TypeNode},
      TypeNode.EqualUpTo sites o (returns o) u u' →
      membership? n t' (o, u') = membership? n t (o, u) := by
    intro o u u' hu
    simp only [membership?, ht.kind, ht.members, hu.interfaces]
  have hobjects := h.types.filter (p := fun _ t => t.kind = .object)
    (q := fun _ t => t.kind = .object) fun _ _ _ hu => by rw [hu.kind]
  exact hobjects.filterMap_entries_eq fun o u u' hu => by rw [hmembership hu]

end Graph.EqualUpTo

end Federation
