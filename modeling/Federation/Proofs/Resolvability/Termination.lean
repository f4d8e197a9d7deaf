import Federation.Proofs.Resolvability.CycleGuard
import Mathlib.Data.Set.Card

/-!
# The walk ends

Descents go round in cycles and carry provided selections with them, to which every field appends.
All the same they come to finitely many positions: whatever lies below a start keeps to the extent
of that start (`within_extent_of_onward`), and so do the selections, which never weigh more than
twice the heaviest that comes with some field (`weight_le_of_mem_visited`).

The walk adds the guard.  `Call.Makes` says which calls a call of the walk makes
(`walk_eq_of_makes`); the positions on the way to a call are all different (`Called.ancestors`), so
calls are never nested deeper than there are positions, and there is no endless chain of them
(`finite_visited_and_wellFounded_makes`).
-/

namespace Federation.Graph

variable {g : Graph}

/-! ### Positions of descents -/

/-- The positions that descents from root fields come to. -/
def visited (g : Graph) : Set Position :=
  {p | ∃ r ∈ g.rootFields, ∃ path, g.Descent r path p}

/-- Steps lead to positions within the extent of the position that they start from. -/
theorem within_extent_of_onward {ancestors : List Position} {p q : Position}
    (h : Relation.ReflTransGen (g.Onward ancestors) p q) : q.Within (g.extent p) := by
  induction h with
  | refl => exact within_extent g p
  | tail _ hstep ih =>
    obtain ⟨⟨_, _, hstep⟩, _⟩ := hstep
    exact (covers_extent g p).within_of_mem_steps ih hstep

/-- A position of a descent lies within the extent of some start. -/
theorem exists_start_of_mem_visited {p : Position} (hp : p ∈ g.visited) :
    ∃ r ∈ g.rootFields, ∃ s ∈ g.starts r, p.Within (g.extent s.2) := by
  obtain ⟨r, hr, path, hp⟩ := hp
  obtain ⟨s, hs, hsp⟩ := hp.exists_start
  exact ⟨r, hr, s, hs, within_extent_of_onward hsp⟩

/-- There are finitely many starts, and finitely many positions within the extent of each. -/
theorem finite_visited (g : Graph) : g.visited.Finite := by
  have hlist := (g.rootFields.flatMap fun r => (g.starts r).flatMap fun s =>
    (g.extent s.2).positions).finite_toSet
  refine hlist.subset fun p hp => ?_
  obtain ⟨r, hr, s, hs, hps⟩ := exists_start_of_mem_visited hp
  exact List.mem_flatMap.2 ⟨r, hr, List.mem_flatMap.2 ⟨s, hs, Extent.mem_positions_iff.2 hps⟩⟩

/-! ### Selections of descents -/

/-- What is provided at a start comes with its root field, or is a restriction of that. -/
theorem exists_provision_of_mem_starts {r : RootField} (hr : r ∈ g.rootFields)
    {s : Path × Position} (hs : s ∈ g.starts r) {i : SubgraphId} {F : FieldSet}
    (hF : s.2.provided.get? i = some F) :
    ∃ G ∈ g.provisions, F.weight ≤ G.weight ∧ ∀ n ∈ F.allNames, n ∈ G.allNames := by
  obtain ⟨_, t, ht, _, hf, _⟩ := mem_rootFields_iff.1 hr
  obtain ⟨a, ha, rfl⟩ := List.mem_map.1 hs
  obtain ⟨G, hG, hFG⟩ := (arrives_of_mem_arrivals ha).provided i F hF
  refine ⟨G, ?_, ?_⟩
  · simp only [provisions, List.mem_flatMap]
    exact ⟨t, mem_values_of_get? ht, r.node, mem_values_of_get? hf,
      List.mem_map_of_mem (f := Prod.snd) (SubgraphMap.get?_eq_some_iff.1 hG)⟩
  · rcases hFG with rfl | ⟨holds, rfl⟩
    · exact ⟨Nat.le_refl _, fun n hn => hn⟩
    · exact ⟨FieldSet.weight_restrict_le holds G,
        fun n hn => FieldSet.mem_allNames_of_mem_restrict hn⟩

/-- What a start provides is no heavier than the heaviest that comes with some field. -/
theorem weight_extent_le {r : RootField} (hr : r ∈ g.rootFields) {s : Path × Position}
    (hs : s ∈ g.starts r) :
    (g.extent s.2).weight ≤ 2 * (g.provisions.map FieldSet.weight).max?.getD 0 := by
  refine Nat.max_le.2 ⟨Nat.le_refl _, max?_getD_le fun k hk => ?_⟩
  obtain ⟨⟨i, F⟩, hF, rfl⟩ := List.mem_map.1 hk
  obtain ⟨G, hG, hle, _⟩ :=
    exists_provision_of_mem_starts hr hs (SubgraphMap.get?_eq_some_iff.2 hF)
  have hheaviest : G.weight ≤ (g.provisions.map FieldSet.weight).max?.getD 0 :=
    List.le_max?_getD_of_mem (List.mem_map_of_mem hG)
  show F.weight ≤ _
  omega

/-- What a start provides is made of names that some field of the graph provides. -/
theorem exists_provision_of_mem_names {r : RootField} (hr : r ∈ g.rootFields)
    {s : Path × Position} (hs : s ∈ g.starts r) {n : Name} (hn : n ∈ (g.extent s.2).names) :
    ∃ G ∈ g.provisions, n ∈ G.allNames := by
  simp only [extent, List.mem_append, List.mem_flatMap] at hn
  rcases hn with ⟨⟨i, F⟩, hF, hn⟩ | h
  · obtain ⟨G, hG, _, hnames⟩ :=
      exists_provision_of_mem_starts hr hs (SubgraphMap.get?_eq_some_iff.2 hF)
    exact ⟨G, hG, hnames n hn⟩
  · exact h

/-- **Selections do not grow along a descent**: at no position do they weigh more than twice the
heaviest that comes with some field, and they are made of names that come with some field. -/
theorem weight_le_of_mem_visited {p : Position} (hp : p ∈ g.visited) {i : SubgraphId}
    {F : FieldSet} (hF : p.provided.get? i = some F) :
    F.weight ≤ 2 * (g.provisions.map FieldSet.weight).max?.getD 0 ∧
      ∀ n ∈ F.allNames, ∃ G ∈ g.provisions, n ∈ G.allNames := by
  obtain ⟨r, hr, s, hs, hps⟩ := exists_start_of_mem_visited hp
  obtain ⟨_, hnames, hweight⟩ := hps.2.2 (i, F) (SubgraphMap.get?_eq_some_iff.1 hF)
  exact ⟨Nat.le_trans hweight (weight_extent_le hr hs),
    fun n hn => exists_provision_of_mem_names hr hs (hnames n hn)⟩

/-! ### Calls of the walk -/

/-- A call of the walk: the positions on the way to it, the last one first, and its own one. -/
structure Call where
  ancestors : List Position
  position : Position

/-- The calls that a call of the walk makes: none if it has come back to its own path, and
otherwise one for each step that leads on. -/
def Call.Makes (g : Graph) (c d : Call) : Prop :=
  c.position ∉ c.ancestors ∧ d.ancestors = c.position :: c.ancestors ∧
    ∃ name possible, .descend name possible d.position ∈ g.steps c.position

/-- These are all the calls: a walk needs to know nothing of what is below it but what the calls
report that it makes. -/
theorem walk_eq_of_makes {c : Call} {below : Path → Position → List Finding}
    (h : ∀ d, c.Makes g d → ∀ path, below path d.position = g.walk d.ancestors path d.position)
    (path : Path) :
    g.walk c.ancestors path c.position =
      if c.position ∈ c.ancestors then []
      else (g.steps c.position).flatMap (report path c.position.type below) := by
  rw [walk_eq]
  split
  · rfl
  · rename_i hp
    refine List.flatMap_congr fun s hs => ?_
    cases s with
    | stuck f resolvers => rfl
    | descend f possible next =>
      have hmakes : c.Makes g ⟨c.position :: c.ancestors, next⟩ := ⟨hp, rfl, f, possible, hs⟩
      exact (h _ hmakes _).symm

/-- The calls that are made for a root field. -/
inductive Called (g : Graph) (r : RootField) : Call → Prop
  /-- A walk begins at each start of the root field. -/
  | start {s : Path × Position} (hs : s ∈ g.starts r) : Called g r ⟨[], s.2⟩
  /-- It goes on with the calls that a call makes. -/
  | next {c d : Call} (hc : Called g r c) (h : c.Makes g d) : Called g r d

/-- There is no endless chain of calls. -/
theorem wellFounded_makes (g : Graph) : WellFounded fun d c => Call.Makes g c d := by
  refine Subrelation.wf (fun {d c} h => ?_)
    (InvImage.wf (fun c : Call => g.unvisited c.ancestors c.position) Nat.lt_wfRel.wf)
  obtain ⟨hp, hanc, name, possible, hstep⟩ := h
  show g.unvisited d.ancestors d.position < g.unvisited c.ancestors c.position
  rw [hanc]
  exact unvisited_lt hp hstep

/-- Every call is at a position of a descent. -/
theorem Called.exists_descent {r : RootField} {c : Call} (h : g.Called r c) :
    ∃ path, g.Descent r path c.position := by
  induction h with
  | start hs => exact ⟨_, .start hs⟩
  | next _ h ih =>
    obtain ⟨path, hpath⟩ := ih
    obtain ⟨_, _, name, possible, hstep⟩ := h
    exact ⟨_, hpath.step hstep⟩

/-- The positions on the way to a call are different ones, all of them positions of descents. -/
theorem Called.ancestors {r : RootField} (hr : r ∈ g.rootFields) {c : Call} (h : g.Called r c) :
    c.ancestors.Nodup ∧ ∀ p ∈ c.ancestors, p ∈ g.visited := by
  induction h with
  | start => simp
  | next hc h ih =>
    obtain ⟨hp, hanc, _⟩ := h
    rw [hanc]
    exact ⟨List.nodup_cons.2 ⟨hp, ih.1⟩,
      List.forall_mem_cons.2 ⟨⟨r, hr, hc.exists_descent⟩, ih.2⟩⟩

/-- Calls are nested no deeper than there are positions. -/
theorem Called.length_ancestors_le {r : RootField} (hr : r ∈ g.rootFields) {c : Call}
    (h : g.Called r c) : c.ancestors.length ≤ g.visited.ncard := by
  classical
  obtain ⟨hnodup, hvisited⟩ := h.ancestors hr
  have hsub : (c.ancestors.toFinset : Set Position) ⊆ g.visited := by
    intro p hp
    exact hvisited p (by simpa using hp)
  calc c.ancestors.length = c.ancestors.toFinset.card := (List.toFinset_card_of_nodup hnodup).symm
    _ = (c.ancestors.toFinset : Set Position).ncard := (Set.ncard_coe_finset _).symm
    _ ≤ g.visited.ncard := Set.ncard_le_ncard hsub (finite_visited g)

/-- **The walk ends**: descents of any length come to finitely many positions, and what is
provided there does not grow; what a call reports depends on nothing but its steps and the calls
that it makes, and no chain of calls is endless, whatever call it begins with; and the calls for a
root field, each at one of these positions, are nested no deeper than there are positions. -/
theorem finite_visited_and_wellFounded_makes (g : Graph) :
    g.visited.Finite ∧
    (∀ p ∈ g.visited, ∀ i F, p.provided.get? i = some F →
      F.weight ≤ 2 * (g.provisions.map FieldSet.weight).max?.getD 0 ∧
        ∀ n ∈ F.allNames, ∃ G ∈ g.provisions, n ∈ G.allNames) ∧
    (∀ (c : Call) (below : Path → Position → List Finding),
      (∀ d, c.Makes g d → ∀ path, below path d.position = g.walk d.ancestors path d.position) →
      ∀ path, g.walk c.ancestors path c.position =
        if c.position ∈ c.ancestors then []
        else (g.steps c.position).flatMap (report path c.position.type below)) ∧
    (WellFounded fun d c => Call.Makes g c d) ∧
    ∀ r ∈ g.rootFields, ∀ c, g.Called r c →
      c.position ∈ g.visited ∧ c.ancestors.length ≤ g.visited.ncard :=
  ⟨finite_visited g, fun _ hp _ _ hF => weight_le_of_mem_visited hp hF,
    fun _ _ h path => walk_eq_of_makes h path, wellFounded_makes g,
    fun r hr _ hc => ⟨⟨r, hr, hc.exists_descent⟩, hc.length_ancestors_le hr⟩⟩

end Federation.Graph
