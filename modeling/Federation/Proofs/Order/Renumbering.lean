import Federation.Proofs.Graph.Alike
import Federation.Resolvability.Unresolvable
import Mathlib.Data.List.Nodup
import Mathlib.Logic.Equiv.Defs

/-!
# Renumbering subgraphs

A subgraph is known by its position in the batch, so another order of the batch gives every subgraph
another number.  Sets and maps of subgraphs are carried along a permutation `σ` of the numbers
(`SubgraphSet.renumber`, `SubgraphMap.renumber`), and `Graph.Renumbered σ g g'` says that `g'` is
`g` with the subgraphs renumbered, up to the order of types, fields and other parts, and up to what
no walk looks at.
-/

namespace Federation

variable {σ : Equiv.Perm SubgraphId}

/-! ### Sets -/

namespace SubgraphSet

/-- The set with every member renumbered. -/
def renumber (σ : Equiv.Perm SubgraphId) (s : SubgraphSet) : SubgraphSet := .ofList (s.ids.map σ)

variable {s t : SubgraphSet} {i : SubgraphId}

theorem mem_renumber_iff : i ∈ s.renumber σ ↔ σ.symm i ∈ s := by
  rw [renumber, mem_ofList, List.mem_map]
  constructor
  · rintro ⟨j, hj, rfl⟩
    simpa using mem_def.2 hj
  · intro h
    exact ⟨_, h, by simp⟩

@[simp] theorem apply_mem_renumber : σ i ∈ s.renumber σ ↔ i ∈ s := by
  rw [mem_renumber_iff, Equiv.symm_apply_apply]

/-- A set is renumbered to another one when the members correspond. -/
theorem eq_renumber_iff : t = s.renumber σ ↔ ∀ i, σ i ∈ t ↔ i ∈ s := by
  constructor
  · rintro rfl i
    exact apply_mem_renumber
  · intro h
    refine ext_mem fun i => ?_
    rw [mem_renumber_iff, ← h, Equiv.apply_symm_apply]

theorem renumber_injective : Function.Injective (renumber σ) := by
  intro s t h
  refine ext_mem fun i => ?_
  rw [← apply_mem_renumber (σ := σ), h, apply_mem_renumber]

@[simp] theorem isEmpty_renumber : (s.renumber σ).isEmpty = s.isEmpty := by
  rw [Bool.eq_iff_iff, isEmpty_iff, isEmpty_iff]
  simp only [mem_renumber_iff]
  exact σ.symm.forall_congr_left.trans (by simp)

/-- Renumbering back gives the set that it started from. -/
theorem eq_renumber_symm (h : t = s.renumber σ) : s = t.renumber σ.symm := by
  rw [eq_renumber_iff]
  intro i
  rw [h, mem_renumber_iff]

theorem renumber_inter : (s.inter t).renumber σ = (s.renumber σ).inter (t.renumber σ) := by
  refine (eq_renumber_iff.2 fun i => ?_).symm
  simp

theorem renumber_union : (s.union t).renumber σ = (s.renumber σ).union (t.renumber σ) := by
  refine (eq_renumber_iff.2 fun i => ?_).symm
  simp

/-- The renumbered set lists the renumbered members, in the new order. -/
theorem ids_renumber_perm : (s.renumber σ).ids.Perm (s.ids.map σ) := by
  have hnodup : ∀ s : SubgraphSet, s.ids.Nodup := fun s => s.sorted.imp Nat.ne_of_lt
  refine (List.perm_ext_iff_of_nodup (hnodup _) ((hnodup s).map σ.injective)).2 fun i => ?_
  rw [← mem_def, mem_renumber_iff, List.mem_map]
  constructor
  · intro h
    exact ⟨_, h, by simp⟩
  · rintro ⟨j, hj, rfl⟩
    simpa using mem_def.2 hj

@[simp] theorem size_renumber : (s.renumber σ).size = s.size := by
  rw [size, ids_renumber_perm.length_eq, List.length_map, size]

end SubgraphSet

/-! ### Maps -/

namespace SubgraphMap

variable {α β : Type} {m n : SubgraphMap α} {i : SubgraphId}

/-- The map with every subgraph renumbered. -/
def renumber (σ : Equiv.Perm SubgraphId) (m : SubgraphMap α) : SubgraphMap α :=
  .ofSet (.ofList (m.entries.map fun e => σ e.1)) fun i => m.get? (σ.symm i)

@[simp] theorem get?_renumber : (m.renumber σ).get? i = m.get? (σ.symm i) := by
  rw [renumber, get?_ofSet]
  split
  · rfl
  · rename_i h
    -- A subgraph with a value is in the set.
    cases hm : m.get? (σ.symm i) with
    | none => rfl
    | some a =>
      refine absurd ?_ h
      rw [SubgraphSet.mem_ofList, List.mem_map]
      exact ⟨_, get?_eq_some_iff.1 hm, by simp⟩

theorem eq_renumber_iff : n = m.renumber σ ↔ ∀ i, n.get? (σ i) = m.get? i := by
  constructor
  · rintro rfl i
    rw [get?_renumber, Equiv.symm_apply_apply]
  · intro h
    refine ext_get? fun i => ?_
    rw [get?_renumber, ← h, Equiv.apply_symm_apply]

/-- Renumbering back gives the map that it started from. -/
theorem eq_renumber_symm (h : n = m.renumber σ) : m = n.renumber σ.symm := by
  rw [eq_renumber_iff]
  intro i
  rw [h, get?_renumber]

theorem renumber_injective : Function.Injective (renumber σ : SubgraphMap α → SubgraphMap α) := by
  intro m n h
  refine ext_get? fun i => ?_
  have hi : (m.renumber σ).get? (σ i) = (n.renumber σ).get? (σ i) := by rw [h]
  simpa using hi

end SubgraphMap

/-! ### Graphs -/

/-- A field with the subgraphs renumbered. -/
structure FieldNode.Renumbered (σ : Equiv.Perm SubgraphId) (f f' : FieldNode) : Prop where
  type : f'.definition.type = f.definition.type
  declaredIn : f'.declaredIn = f.declaredIn.renumber σ
  resolvers : f'.resolvers = f.resolvers.renumber σ
  shareableIn : f'.shareableIn = f.shareableIn.renumber σ
  provides : f'.provides = f.provides.renumber σ
  requires : f'.requires = f.requires.renumber σ

/-- A type with the subgraphs renumbered. -/
structure TypeNode.Renumbered (σ : Equiv.Perm SubgraphId) (t t' : TypeNode) : Prop where
  kind : t'.kind = t.kind
  field : ∀ m, Option.Rel (FieldNode.Renumbered σ) (t.fields.get? m) (t'.fields.get? m)
  interface : ∀ n, t'.interfaces.get? n = (t.interfaces.get? n).map (·.renumber σ)
  member : ∀ n, t'.members.get? n = (t.members.get? n).map (·.renumber σ)
  resolvableKey : ∀ i k, (σ i, k) ∈ t'.resolvableKeys ↔ (i, k) ∈ t.resolvableKeys
  value : ∀ n, n ∈ t'.values.names ↔ n ∈ t.values.names
  input : ∀ n, (t'.inputs.get? n).map (·.definition.type) =
    (t.inputs.get? n).map (·.definition.type)

/-- A graph with the subgraphs renumbered. -/
structure Graph.Renumbered (σ : Equiv.Perm SubgraphId) (g g' : Graph) : Prop where
  name : ∀ i, g'.nameOf (σ i) = g.nameOf i
  type : ∀ n, Option.Rel (TypeNode.Renumbered σ) (g.types.get? n) (g'.types.get? n)

theorem TypeNode.Renumbered.exists_field {t t' : TypeNode} (h : t.Renumbered σ t') {m : Name}
    {f : FieldNode} (hf : t.fields.get? m = some f) :
    ∃ f', t'.fields.get? m = some f' ∧ f.Renumbered σ f' := exists_of_rel (h.field m) hf

theorem Graph.Renumbered.exists_type {g g' : Graph} (h : g.Renumbered σ g') {n : Name}
    {t : TypeNode} (ht : g.types.get? n = some t) :
    ∃ t', g'.types.get? n = some t' ∧ t.Renumbered σ t' := exists_of_rel (h.type n) ht

/-! ### Back again -/

theorem FieldNode.Renumbered.symm {f f' : FieldNode} (h : f.Renumbered σ f') :
    f'.Renumbered σ.symm f where
  type := h.type.symm
  declaredIn := SubgraphSet.eq_renumber_symm h.declaredIn
  resolvers := SubgraphSet.eq_renumber_symm h.resolvers
  shareableIn := SubgraphSet.eq_renumber_symm h.shareableIn
  provides := SubgraphMap.eq_renumber_symm h.provides
  requires := SubgraphMap.eq_renumber_symm h.requires

theorem map_renumber_symm {s? t? : Option SubgraphSet} (h : t? = s?.map (·.renumber σ)) :
    s? = t?.map (·.renumber σ.symm) := by
  rw [h, Option.map_map]
  cases s? with
  | none => rfl
  | some s => exact congrArg some (SubgraphSet.eq_renumber_symm rfl)

theorem TypeNode.Renumbered.symm {t t' : TypeNode} (h : t.Renumbered σ t') :
    t'.Renumbered σ.symm t where
  kind := h.kind.symm
  field m := by
    have hm := h.field m
    generalize t.fields.get? m = f? at hm
    generalize t'.fields.get? m = f'? at hm
    cases hm with
    | none => exact .none
    | some hf => exact .some hf.symm
  interface n := map_renumber_symm (h.interface n)
  member n := map_renumber_symm (h.member n)
  resolvableKey i k := by rw [← h.resolvableKey, Equiv.apply_symm_apply]
  value n := (h.value n).symm
  input n := (h.input n).symm

/-- If one graph is the other one renumbered, then so the other way round. -/
theorem Graph.Renumbered.symm {g g' : Graph} (h : g.Renumbered σ g') : g'.Renumbered σ.symm g where
  name i := by rw [← h.name, Equiv.apply_symm_apply]
  type n := by
    have hn := h.type n
    generalize g.types.get? n = t? at hn
    generalize g'.types.get? n = t'? at hn
    cases hn with
    | none => exact .none
    | some ht => exact .some ht.symm

end Federation
