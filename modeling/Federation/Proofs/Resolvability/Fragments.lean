import Federation.Proofs.Graph.Covariance
import Federation.Proofs.Resolvability.AcceptedFields
import Federation.Proofs.Resolvability.Hops
import Federation.Proofs.Resolvability.Provided

/-!
# Provided fragments

A selection that is provided on an abstract type is cut down for each possible type that the walk
fans out to: a fragment is kept if its condition names the one type or the other.  `FieldSet.places`
are the fields of a selection with the conditions around them, so what is kept are the fields with
a place where no condition names anything else (`FansOut.providedOn_iff`).

A condition that names one of the two types holds for the possible type, so nothing is provided on
it that was not selected for it.  But a condition can name a third type, an abstract one that has
the object type as a possible type as well, and then what is selected there is lost.  Provided
selections apply as they are written exactly if no field is selected behind such conditions only
(`appliesAsWritten_iff`); where one is, a field that can be resolved may be reported
(`not_appliesAsWritten_crossed`).
-/

namespace Federation

/-! ### Places -/

namespace FieldSet

/-- The fields selected on the parent type or in fragments on it, each with the conditions of the
fragments around it. -/
def places : FieldSet → List (List Name × Name)
  | empty => []
  | field n _ rest => ([], n) :: rest.places
  | fragment c sub rest => (sub.places.map fun p => (c.toList ++ p.1, p.2)) ++ rest.places

/-- **What a restriction selects**: the fields with a place where all conditions hold. -/
theorem mem_fieldNames_restrict_iff {holds : Name → Bool} {n : Name} {F : FieldSet} :
    n ∈ (F.restrict holds).fieldNames ↔
      ∃ p ∈ F.places, p.2 = n ∧ ∀ c ∈ p.1, holds c = true := by
  induction F with
  | empty => simp [restrict, fieldNames, places]
  | field m sub rest _ ih => simp [restrict, fieldNames, places, ih, eq_comm (a := n)]
  | fragment c sub rest ihs ihr =>
    -- The condition of the fragment is around each of its places.
    have hsub : (∃ p ∈ sub.places.map fun p => (c.toList ++ p.1, p.2),
        p.2 = n ∧ ∀ d ∈ p.1, holds d = true) ↔
          c.all holds = true ∧ n ∈ (sub.restrict holds).fieldNames := by
      rw [ihs]
      cases c <;> simp [and_left_comm]
    simp only [places, List.mem_append, or_and_right, exists_or, hsub, ← ihr, restrict]
    by_cases hc : c.all holds = true <;> simp [hc]

end FieldSet

namespace Graph

variable {g : Graph} {p q : Position} {i : SubgraphId} {F : FieldSet} {o n : Name}

/-! ### Fanning out -/

/-- A field is selected at a place all of whose conditions hold for an object type. -/
def AppliesTo (g : Graph) (F : FieldSet) (o n : Name) : Prop :=
  ∃ place ∈ F.places, place.2 = n ∧ ∀ c ∈ place.1, g.ResolvesTo c o

/-- The walk comes to an abstract type with a selection that a subgraph provides there, and fans
out to one of its possible types. -/
structure FansOut (g : Graph) (p : Position) (i : SubgraphId) (F : FieldSet) (o : Name)
    (q : Position) : Prop where
  visits : g.Visits p
  provided : p.provided.get? i = some F
  possible : ∃ t, g.types.get? p.type = some t ∧ t.kind.isAbstract = true ∧
    (some o, q) ∈ g.possibleArrivals p.type t p.resolving p.provided

/-- A field counts as provided by a subgraph at a position. -/
def ProvidedOn (q : Position) (i : SubgraphId) (n : Name) : Prop :=
  ∃ G, q.provided.get? i = some G ∧ n ∈ G.fieldNames

/-- A condition that names the abstract type or the possible type holds for the possible type. -/
theorem FansOut.resolvesTo (h : g.FansOut p i F o q) {c : Name} (hc : c = p.type ∨ c = o) :
    g.ResolvesTo c o := by
  obtain ⟨t, ht, _, ha⟩ := h.possible
  obtain ⟨_, s, hs, _, hq⟩ := mem_possibleArrivals_iff.1 ha
  cases hq
  obtain rfl | rfl := hc
  · exact ⟨t, ht, .inr ⟨s, hs⟩⟩
  · obtain ⟨node, hnode, hobject, _⟩ := mem_possibleTypes_iff.1 hs
    exact ⟨node, hnode, .inl ⟨hobject, rfl⟩⟩

/-- **What counts as provided**: of the selection of a subgraph that goes along, the fields with a
place where all conditions name the abstract type or the possible one; of the selection of another
subgraph, nothing. -/
theorem FansOut.providedOn_iff (h : g.FansOut p i F o q) : ProvidedOn q i n ↔
    i ∈ q.resolving ∧ ∃ place ∈ F.places, place.2 = n ∧ ∀ c ∈ place.1, c = p.type ∨ c = o := by
  obtain ⟨t, ht, hkind, ha⟩ := h.possible
  have harrives : (some o, q) ∈ g.arrivals p.type p.resolving p.provided :=
    mem_arrivals_iff.2 ⟨t, ht, .inr ⟨hkind, ha⟩⟩
  rw [ProvidedOn, get?_provided_of_mem_arrivals harrives, h.provided]
  by_cases hi : i ∈ q.resolving
  · simp [hi, FieldSet.arriving, FieldSet.forPossibleType, FieldSet.mem_fieldNames_restrict_iff]
  · simp [hi]

/-- Nothing is provided on a possible type that is not selected for it. -/
theorem FansOut.appliesTo_of_providedOn (h : g.FansOut p i F o q) (hn : ProvidedOn q i n) :
    g.AppliesTo F o n := by
  obtain ⟨_, place, hplace, rfl, hnames⟩ := h.providedOn_iff.1 hn
  exact ⟨place, hplace, rfl, fun c hc => h.resolvesTo (hnames c hc)⟩

/-! ### Third types -/

/-- Provided selections apply as they are written: on each possible type that the walk fans out to,
what a subgraph that goes along provides are the fields selected where all conditions hold. -/
def AppliesAsWritten (g : Graph) : Prop :=
  ∀ p i F o q, g.FansOut p i F o q →
    ∀ n, ProvidedOn q i n ↔ i ∈ q.resolving ∧ g.AppliesTo F o n

/-- A field is selected for a possible type, but wherever it is, a condition names a third type. -/
structure Crossed (g : Graph) (p : Position) (F : FieldSet) (o n : Name) : Prop where
  applies : g.AppliesTo F o n
  third : ∀ place ∈ F.places, place.2 = n → (∀ c ∈ place.1, g.ResolvesTo c o) →
    ∃ c ∈ place.1, c ≠ p.type ∧ c ≠ o

/-- Some subgraph provides a field behind conditions that name third types only. -/
def HasCrossed (g : Graph) : Prop :=
  ∃ p i F o q, g.FansOut p i F o q ∧ i ∈ q.resolving ∧ ∃ n, g.Crossed p F o n

/-- A field is lost exactly if it is crossed. -/
theorem FansOut.crossed_iff (h : g.FansOut p i F o q) (hi : i ∈ q.resolving) :
    g.Crossed p F o n ↔ g.AppliesTo F o n ∧ ¬ ProvidedOn q i n := by
  rw [h.providedOn_iff]
  constructor
  · rintro ⟨happlies, hthird⟩
    refine ⟨happlies, fun ⟨_, place, hplace, hn, hnames⟩ => ?_⟩
    obtain ⟨c, hc, hne, hne'⟩ := hthird place hplace hn fun c hc => h.resolvesTo (hnames c hc)
    exact (hnames c hc).elim hne hne'
  · rintro ⟨happlies, hlost⟩
    refine ⟨happlies, fun place hplace hn _ => ?_⟩
    by_contra hnone
    exact hlost ⟨hi, place, hplace, hn, fun c hc => by
      by_contra hc'
      exact hnone ⟨c, hc, not_or.1 hc'⟩⟩

/-- **When provided selections apply as they are written.**  Of the selection of a subgraph that
goes along to a possible type, the fields that count are those with a place where every condition
names the abstract type or the possible one; all of them are selected for the possible type.  They
are all that is selected for it, throughout a graph, exactly if no field is provided behind
conditions that name third types only. -/
theorem appliesAsWritten_iff (g : Graph) :
    (∀ p i F o q, g.FansOut p i F o q → ∀ n,
      (ProvidedOn q i n ↔ i ∈ q.resolving ∧
        ∃ place ∈ F.places, place.2 = n ∧ ∀ c ∈ place.1, c = p.type ∨ c = o) ∧
      (ProvidedOn q i n → g.AppliesTo F o n)) ∧
    (g.AppliesAsWritten ↔ ¬ g.HasCrossed) := by
  refine ⟨fun p i F o q h n => ⟨h.providedOn_iff, h.appliesTo_of_providedOn⟩, ?_, ?_⟩
  · rintro happly ⟨p, i, F, o, q, h, hi, n, hcrossed⟩
    obtain ⟨happlies, hlost⟩ := (h.crossed_iff hi).1 hcrossed
    exact hlost ((happly p i F o q h n).2 ⟨hi, happlies⟩)
  · intro hnone p i F o q h n
    refine ⟨fun hn => ⟨(h.providedOn_iff.1 hn).1, h.appliesTo_of_providedOn hn⟩, ?_⟩
    rintro ⟨hi, happlies⟩
    by_contra hlost
    exact hnone ⟨p, i, F, o, q, h, hi, n, (h.crossed_iff hi).2 ⟨happlies, hlost⟩⟩

/-! ### A fragment on another abstract type -/

/-- A root field that returns a union, with a field that is provided in a fragment on an interface
of the member. -/
def crossedBatch : List Subgraph := Subgraph.batchOfTexts
  [("a", "type Query \x7b pet: Pet @provides(fields: \"... on Named \x7b name \x7d\") \x7d " ++
      "union Pet = Cat interface Named \x7b name: String \x7d " ++
      "type Cat implements Named \x7b name: String @external \x7d"),
    ("b", "type Cat \x7b name: String \x7d")]

/-- What the two subgraphs contribute. -/
def crossedContributions : List Schema :=
  ((schemas? crossedBatch).toOption.getD []).map Schema.contribution

/-- Their graph. -/
def crossedGraph : Graph := ofSchemas crossedContributions

/-- What there is to read off the graph: nothing is wrong with the batch; a root field returns a
union, and the subgraph that resolves it provides a field behind a condition; the walk goes on to
the member and is stuck there at the field; and the member is a possible type of the interface in
the condition as well. -/
theorem crossedGraph_read :
    ((schemas? crossedBatch).isOk = true ∧ conflicts crossedContributions = []) ∧
    (∃ r ∈ crossedGraph.rootFields, r.node.returns = ⟨"Pet", by decide⟩ ∧
      (∃ F ∈ r.node.provides.get? 0,
        F.places = [([⟨"Named", by decide⟩], ⟨"name", by decide⟩)]) ∧
      ∃ t ∈ crossedGraph.types.get? r.node.returns, t.kind = .union ∧
      ∃ a ∈ crossedGraph.possibleArrivals r.node.returns t r.node.resolvers r.node.provides,
        a.1 = some ⟨"Cat", by decide⟩ ∧ 0 ∈ a.2.resolving ∧
        ∃ node ∈ crossedGraph.types.get? a.2.type,
        ∃ f ∈ node.fields.get? ⟨"name", by decide⟩,
          (crossedGraph.nextAt a.2 node ⟨"name", by decide⟩ f).isEmpty = true ∧
          f.resolvers.isEmpty = false ∧
          (((Path.root r.type r.name).into a.1).field ⟨"name", by decide⟩).render =
            "Query.pet ... on Cat name") ∧
    ∃ t ∈ crossedGraph.types.get? ⟨"Named", by decide⟩,
      ∃ e ∈ crossedGraph.possibleTypes ⟨"Named", by decide⟩ t, e.1 = ⟨"Cat", by decide⟩ := by
  decide +kernel

/-- The field is provided on every type that the condition holds for, and reported on one of
them. -/
theorem not_appliesAsWritten_crossed :
    ((schemas? crossedBatch).isOk = true ∧ conflicts crossedContributions = []) ∧
    (∃ p i F q, crossedGraph.FansOut p i F ⟨"Cat", by decide⟩ q ∧ i ∈ q.resolving ∧
      crossedGraph.AppliesTo F ⟨"Cat", by decide⟩ ⟨"name", by decide⟩ ∧
      ¬ ProvidedOn q i ⟨"name", by decide⟩) ∧
    (∃ u ∈ crossedGraph.unresolvables, u.path = "Query.pet ... on Cat name") ∧
    ¬ crossedGraph.AppliesAsWritten := by
  obtain ⟨hok, ⟨r, hr, hpet, ⟨F, hF, hplaces⟩, t, ht, hunion, ⟨_, q⟩, ha, rfl, hi, node, hnode, f,
    hf, hstuck, hresolved, hpath⟩, u, hu, ⟨_, s⟩, ho, rfl⟩ := crossedGraph_read
  have habstract : t.kind.isAbstract = true := by rw [hunion]; rfl
  have h : crossedGraph.FansOut ⟨r.node.returns, r.node.resolvers, r.node.provides⟩ 0 F
      ⟨"Cat", by decide⟩ q :=
    ⟨.root hr ht (by rw [hunion]; rfl), hF, t, ht, habstract, ha⟩
  have happlies : crossedGraph.AppliesTo F ⟨"Cat", by decide⟩ ⟨"name", by decide⟩ := by
    refine ⟨([⟨"Named", by decide⟩], ⟨"name", by decide⟩), ?_, rfl, fun c hc => ?_⟩
    · rw [hplaces]
      exact List.mem_cons_self
    · rw [List.mem_singleton.1 hc]
      exact ⟨u, hu, .inr ⟨s, ho⟩⟩
  -- The one place has a condition that names neither the union nor its member.
  have hlost : ¬ ProvidedOn q 0 ⟨"name", by decide⟩ := by
    intro hn
    obtain ⟨_, place, hplace, _, hnames⟩ := h.providedOn_iff.1 hn
    rw [hplaces, List.mem_singleton] at hplace
    have hthird := hnames ⟨"Named", by decide⟩ (by rw [hplace]; exact List.mem_cons_self)
    rw [hpet] at hthird
    exact absurd hthird (by simp)
  have hstart : ((Path.root r.type r.name).into (some ⟨"Cat", by decide⟩), q) ∈
      crossedGraph.starts r :=
    List.mem_map.2 ⟨_, mem_arrivals_iff.2 ⟨t, ht, .inr ⟨habstract, ha⟩⟩, rfl⟩
  exact ⟨hok, ⟨_, _, F, q, h, hi, happlies, hlost⟩,
    hpath ▸ exists_mem_unresolvables_of_mem_starts hr hstart hnode hf hstuck hresolved,
    fun happly => hlost ((happly _ _ F _ q h _).2 ⟨hi, happlies⟩)⟩

end Graph

end Federation
