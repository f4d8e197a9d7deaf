import Federation.Graph

/-!
# Reaching subgraphs through keys

From the subgraphs at which an entity has been reached, other subgraphs can be entered through
their keys: a subgraph with a resolvable key joins when the fields of that key can be resolved by
those that are there already.  `Graph.reach` repeats this until nobody can join.  Each round adds
a holder of a key, so it ends.
-/

namespace Federation.Graph

/-! ### Resolving a selection -/

/-- Whether some available subgraphs can resolve a selection on a type.  Below a field, those of
them that resolve the field are available. -/
def canResolve (g : Graph) : SubgraphSet → TypeNode → FieldSet → Bool
  | _, _, .empty => true
  | available, node, .field n sub rest =>
    (match node.fields.get? n with
      | none => false
      | some f =>
        let resolving := f.resolvers.inter available
        !resolving.isEmpty &&
          (sub.isEmpty ||
            match g.types.get? f.returns with
            | none => false
            | some child => g.canResolve resolving child sub)) &&
      g.canResolve available node rest
  | available, node, .fragment c sub rest =>
    g.canResolve available ((c.bind g.types.get?).getD node) sub &&
      g.canResolve available node rest

/-! ### Entering through keys -/

/-- The subgraphs that hold a resolvable key of a type. -/
def keyHolders (node : TypeNode) : SubgraphSet := .ofList (node.resolvableKeys.map Prod.fst)

/-- The subgraphs that can be entered from others through a key. -/
def enterable (g : Graph) (node : TypeNode) (reached : SubgraphSet) : SubgraphSet :=
  .ofList ((node.resolvableKeys.filter fun k =>
    k.1 ∉ reached && g.canResolve reached node k.2.fields).map Prod.fst)

theorem mem_enterable_iff {g : Graph} {node : TypeNode} {reached : SubgraphSet}
    {i : SubgraphId} : i ∈ g.enterable node reached ↔
      i ∉ reached ∧ ∃ k, (i, k) ∈ node.resolvableKeys ∧
        g.canResolve reached node k.fields = true := by
  simp only [enterable, SubgraphSet.mem_ofList, List.mem_map, List.mem_filter, Bool.and_eq_true,
    decide_eq_true_eq]
  constructor
  · rintro ⟨⟨j, k⟩, ⟨hk, hj, hr⟩, rfl⟩
    exact ⟨hj, k, hk, hr⟩
  · rintro ⟨hi, k, hk, hr⟩
    exact ⟨(i, k), ⟨hk, hi, hr⟩, rfl⟩

theorem mem_keyHolders_of_mem_enterable {g : Graph} {node : TypeNode} {reached : SubgraphSet}
    {i : SubgraphId} (h : i ∈ g.enterable node reached) : i ∈ keyHolders node := by
  obtain ⟨_, k, hk, _⟩ := mem_enterable_iff.1 h
  simp only [keyHolders, SubgraphSet.mem_ofList]
  exact List.mem_map_of_mem (f := Prod.fst) hk

/-- The number of key holders that have not been reached. -/
def unreached (node : TypeNode) (reached : SubgraphSet) : Nat :=
  ((keyHolders node).filter (· ∉ reached)).size

theorem length_filter_lt_of_imp {α : Type} {p q : α → Bool} :
    ∀ {l : List α}, (∀ a ∈ l, p a = true → q a = true) →
      (∃ a ∈ l, q a = true ∧ p a = false) → (l.filter p).length < (l.filter q).length
  | [], _, ⟨_, h, _⟩ => by cases h
  | a :: l, himp, hex => by
    have ih : (∃ b ∈ l, q b = true ∧ p b = false) →
        (l.filter p).length < (l.filter q).length :=
      length_filter_lt_of_imp fun b hb => himp b (List.mem_cons_of_mem a hb)
    have hle : (l.filter p).length ≤ (l.filter q).length := by
      rw [← List.countP_eq_length_filter, ← List.countP_eq_length_filter]
      exact List.countP_mono_left fun b hb => himp b (List.mem_cons_of_mem a hb)
    obtain ⟨b, hb, hq, hp⟩ := hex
    -- The item that only the second test lets pass is the head or further down.
    rcases List.mem_cons.1 hb with rfl | hb
    · simp only [List.filter_cons, hq, hp, if_true, Bool.false_eq_true, if_false,
        List.length_cons]
      omega
    · have := ih ⟨b, hb, hq, hp⟩
      by_cases hpa : p a = true
      · simp only [List.filter_cons, hpa, himp a List.mem_cons_self hpa, if_true,
          List.length_cons]
        omega
      · by_cases hqa : q a = true
        · simp only [List.filter_cons, hpa, hqa, if_true, Bool.false_eq_true, if_false,
            List.length_cons]
          omega
        · simpa [List.filter_cons, hpa, hqa] using this

theorem unreached_union_lt {g : Graph} {node : TypeNode} {reached : SubgraphSet}
    (h : (g.enterable node reached).isEmpty = false) :
    unreached node (reached.union (g.enterable node reached)) < unreached node reached := by
  obtain ⟨i, hi⟩ := SubgraphSet.isEmpty_eq_false_iff.1 h
  apply length_filter_lt_of_imp
  · intro a _ ha
    simp only [SubgraphSet.mem_union, not_or, decide_eq_true_eq] at ha ⊢
    exact ha.1
  · refine ⟨i, mem_keyHolders_of_mem_enterable hi, ?_, ?_⟩
    · simpa using (mem_enterable_iff.1 hi).1
    · simp [hi]

/-- The subgraphs that are reached on a type in the end, from those at which it was reached. -/
def reach (g : Graph) (node : TypeNode) (reached : SubgraphSet) : SubgraphSet :=
  if (g.enterable node reached).isEmpty then reached
  else g.reach node (reached.union (g.enterable node reached))
termination_by unreached node reached
decreasing_by
  rename_i h
  exact unreached_union_lt (by simpa using h)

/-- Nothing that was reached is lost. -/
theorem subset_reach {g : Graph} {node : TypeNode} {reached : SubgraphSet} {i : SubgraphId}
    (h : i ∈ reached) : i ∈ g.reach node reached := by
  induction reached using reach.induct g node with
  | case1 reached hend => rwa [reach, if_pos hend]
  | case2 reached hend ih =>
    rw [reach, if_neg hend]
    exact ih (SubgraphSet.mem_union.2 (.inl h))

end Federation.Graph
