import Federation.Composition
import Federation.Proofs.Graph.ConflictFree
import Federation.Proofs.Resolvability.Hops
import Federation.Proofs.Resolvability.KeyJumps
import Federation.Proofs.Resolvability.Termination

/-!
# Adding keys

With more keys more subgraphs are in reach at a position, and so more of them resolve its fields and
go along to the positions below.  The walk then comes to other positions than before, but to each of
them it came before with less: fewer subgraphs and less of what they provide (`Position.LE`).

Where all types are object types this carries over from a position to those below it: whoever was
asked for a field still is (`nextAt_le_nextAt_addKeys`), and what a step leads to has at least what
it had (`le_of_arrivals`).  A step of the walk with more keys is one of the walk before, since
nothing was stuck there.  So nothing is stuck with more keys either
(`unresolvables_addKeys_eq_nil`).

An abstract type can break this: from more subgraphs more of its possible types are in reach, and
something may be stuck there (`not_addedKeys_harmless_sharedInterface`).
-/

namespace Federation

/-! ### Types and graphs with more keys -/

/-- The type with one more key, behind those that its subgraph has already. -/
def TypeNode.addKey (t : TypeNode) (e : SubgraphId × EntityKey) : TypeNode :=
  { t with keys := t.keys.insert e.1 ((t.keys.get? e.1).getD [] ++ [e.2]) }

/-- The type with some more keys, each with its subgraph. -/
def TypeNode.addKeys (t : TypeNode) (added : List (SubgraphId × EntityKey)) : TypeNode :=
  added.foldl addKey t

namespace TypeNode

theorem mem_resolvableKeys_addKey_iff {t : TypeNode} {added e : SubgraphId × EntityKey} :
    e ∈ (t.addKey added).resolvableKeys ↔
      e ∈ t.resolvableKeys ∨ (e = added ∧ e.2.resolvable = true) := by
  obtain ⟨i, k⟩ := e
  obtain ⟨j, l⟩ := added
  rw [mem_resolvableKeys_iff_get?, mem_resolvableKeys_iff_get?, addKey]
  by_cases hij : i = j
  · subst hij
    rw [SubgraphMap.get?_insert_self]
    cases t.keys.get? i with
    | none =>
      simp only [Option.getD_none, List.nil_append, Option.some.injEq, exists_eq_left',
        List.mem_singleton, reduceCtorEq, false_and, exists_false, false_or, Prod.mk.injEq,
        true_and]
    | some ks =>
      simp only [Option.getD_some, Option.some.injEq, exists_eq_left', List.mem_append,
        List.mem_singleton, Prod.mk.injEq, true_and, or_and_right]
  · rw [SubgraphMap.get?_insert_of_ne _ _ hij]
    simp [hij]

/-- The keys that count are those from before, and those of the new ones that are resolvable. -/
theorem mem_resolvableKeys_addKeys_iff {t : TypeNode} {added : List (SubgraphId × EntityKey)}
    {e : SubgraphId × EntityKey} : e ∈ (t.addKeys added).resolvableKeys ↔
      e ∈ t.resolvableKeys ∨ (e ∈ added ∧ e.2.resolvable = true) := by
  induction added generalizing t with
  | nil => simp [addKeys]
  | cons a added ih =>
    have hcons : t.addKeys (a :: added) = (t.addKey a).addKeys added := rfl
    rw [hcons, ih, mem_resolvableKeys_addKey_iff, List.mem_cons]
    tauto

variable (t : TypeNode) (added : List (SubgraphId × EntityKey))

@[simp] theorem fields_addKeys : (t.addKeys added).fields = t.fields :=
  List.foldlRecOn (motive := fun u : TypeNode => u.fields = t.fields) added _ rfl
    fun _ h _ _ => h

@[simp] theorem kind_addKeys : (t.addKeys added).kind = t.kind :=
  List.foldlRecOn (motive := fun u : TypeNode => u.kind = t.kind) added _ rfl fun _ h _ _ => h

end TypeNode

/-- The graph with some more keys on each of its types. -/
def Graph.addKeys (g : Graph) (added : Name → List (SubgraphId × EntityKey)) : Graph :=
  { g with types := g.types.mapEntries fun n t => t.addKeys (added n) }

/-! ### Positions with more -/

/-- A position has at least what another one of the same type has: the subgraphs that resolve it,
and whatever their selections select further down. -/
structure Position.LE (p q : Position) : Prop where
  type : q.type = p.type
  resolving : p.resolving ≤ q.resolving
  provided : ∀ i n hops, (p.provided.get? i).any (FieldSet.selects n hops) = true →
    (q.provided.get? i).any (FieldSet.selects n hops) = true

theorem Position.LE.refl (p : Position) : p.LE p := ⟨rfl, le_rfl, fun _ _ _ h => h⟩

namespace Graph

variable {g : Graph} {added : Name → List (SubgraphId × EntityKey)}

theorem get?_types_addKeys (n : Name) :
    (g.addKeys added).types.get? n = (g.types.get? n).map fun t => t.addKeys (added n) :=
  Table.get?_mapEntries _ _ _

/-- What is asked of a field of the graph with more keys is asked of the field as it was. -/
theorem exists_field_addKeys {n m : Name} {P : TypeNode → FieldNode → Prop} :
    (∃ t f, (g.addKeys added).types.get? n = some t ∧ t.fields.get? m = some f ∧ P t f) ↔
      ∃ t f, g.types.get? n = some t ∧ t.fields.get? m = some f ∧ P (t.addKeys (added n)) f := by
  simp only [get?_types_addKeys, Option.map_eq_some_iff]
  constructor
  · rintro ⟨_, f, ⟨t, ht, rfl⟩, hf, h⟩
    exact ⟨t, f, ht, by rwa [TypeNode.fields_addKeys] at hf, h⟩
  · rintro ⟨t, f, ht, hf, h⟩
    exact ⟨_, f, ⟨t, ht, rfl⟩, by rwa [TypeNode.fields_addKeys], h⟩

theorem mem_rootFields_addKeys {r : RootField} :
    r ∈ (g.addKeys added).rootFields ↔ r ∈ g.rootFields := by
  simp only [mem_rootFields_iff, get?_types_addKeys, Option.map_eq_some_iff]
  refine and_congr_right fun _ => ⟨?_, ?_⟩
  · rintro ⟨_, ⟨t, ht, rfl⟩, h⟩
    exact ⟨t, ht, by rwa [TypeNode.kind_addKeys, TypeNode.fields_addKeys] at h⟩
  · rintro ⟨t, ht, h⟩
    exact ⟨_, ⟨t, ht, rfl⟩, by rwa [TypeNode.kind_addKeys, TypeNode.fields_addKeys]⟩

/-! ### More subgraphs are in reach -/

/-- Keys make no difference to whether a selection can be resolved. -/
theorem canResolve_addKeys (available : SubgraphSet) (t : TypeNode)
    (new : List (SubgraphId × EntityKey)) (F : FieldSet) :
    (g.addKeys added).canResolve available (t.addKeys new) F = g.canResolve available t F := by
  have hsame : ∀ (t : TypeNode) new, t.SameResolvers (t.addKeys new) := fun t new m => by
    rw [TypeNode.fields_addKeys]
    exact optionRel_refl (fun _ => ⟨rfl, rfl⟩) _
  refine canResolve_eq_of_sameResolvers (fun n => ?_) (hsame t new) available F
  rw [get?_types_addKeys]
  cases g.types.get? n with
  | none => exact .none
  | some u => exact .some (hsame u _)

/-- From more subgraphs and with more keys no fewer are reached. -/
theorem reach_le_reach_addKeys {s s' : SubgraphSet} (hs : s ≤ s') (t : TypeNode)
    (new : List (SubgraphId × EntityKey)) :
    g.reach t s ≤ (g.addKeys added).reach (t.addKeys new) s' := by
  have hclosed : g.Closed t ((g.addKeys added).reach (t.addKeys new) s') := by
    intro e he hcan
    refine closed_reach (g.addKeys added) (t.addKeys new) s' e
      (TypeNode.mem_resolvableKeys_addKeys_iff.2 (.inl he)) ?_
    rwa [canResolve_addKeys]
  exact reach_le hclosed (hs.trans (le_reach _ _ s'))

/-- **Whoever was asked for a field still is.** -/
theorem nextAt_le_nextAt_addKeys {p q : Position} (h : p.LE q) (t : TypeNode)
    (new : List (SubgraphId × EntityKey)) (n : Name) (f : FieldNode) :
    g.nextAt p t n f ≤ (g.addKeys added).nextAt q (t.addKeys new) n f := by
  have hreach : g.reach t p.resolving ≤ (g.addKeys added).reach (t.addKeys new) q.resolving :=
    reach_le_reach_addKeys h.resolving t new
  intro i hi
  rw [nextAt, resolversAt, SubgraphSet.mem_filter, Bool.or_eq_true, Bool.and_eq_true,
    Bool.and_eq_true] at hi ⊢
  obtain ⟨hi, ⟨hres, hreq⟩ | ⟨hdecl, hprov⟩⟩ := hi
  · refine ⟨hreach i hi, .inl ⟨hres, ?_⟩⟩
    cases hF : f.requires.get? i with
    | none => rfl
    | some F =>
      rw [hF, Option.all_some] at hreq
      rw [Option.all_some, canResolve_addKeys]
      exact canResolve_mono hreach hreq
  · exact ⟨hreach i hi, .inr ⟨hdecl, h.provided i n [] hprov⟩⟩

/-! ### One walk within the other -/

section ObjectTypes

variable (hobject : ∀ n t, g.types.get? n = some t → t.kind.isAbstract = false)

include hobject

/-- Values arrive at the type itself. -/
theorem mem_arrivals_iff_of_object {returns : Name} {resolving : SubgraphSet}
    {provided : SubgraphMap FieldSet} {a : Option Name × Position} :
    a ∈ g.arrivals returns resolving provided ↔ (∃ t, g.types.get? returns = some t ∧
      t.kind = .object) ∧ a = (none, ⟨returns, resolving, provided⟩) := by
  rw [mem_arrivals_iff]
  constructor
  · rintro ⟨t, ht, ⟨hkind, rfl⟩ | ⟨hkind, _⟩⟩
    · exact ⟨⟨t, ht, hkind⟩, rfl⟩
    · rw [hobject _ t ht] at hkind
      cases hkind
  · rintro ⟨⟨t, ht, hkind⟩, rfl⟩
    exact ⟨t, ht, .inl ⟨hkind, rfl⟩⟩

theorem isAbstract_addKeys (n : Name) (t : TypeNode)
    (ht : (g.addKeys added).types.get? n = some t) : t.kind.isAbstract = false := by
  rw [get?_types_addKeys] at ht
  obtain ⟨u, hu, rfl⟩ := Option.map_eq_some_iff.1 ht
  rw [TypeNode.kind_addKeys]
  exact hobject n u hu

/-- A value arrives with more keys where it did without. -/
theorem mem_arrivals_addKeys {returns : Name} {resolving : SubgraphSet}
    {provided : SubgraphMap FieldSet} {a : Option Name × Position} :
    a ∈ (g.addKeys added).arrivals returns resolving provided ↔
      a ∈ g.arrivals returns resolving provided := by
  rw [mem_arrivals_iff_of_object (isAbstract_addKeys hobject),
    mem_arrivals_iff_of_object hobject, get?_types_addKeys]
  simp

/-- What is below a field has at least what it had, if that holds of the position itself. -/
theorem le_of_arrivals {p q p₁ q₁ : Position} (h : p.LE q) {n : Name} {f : FieldNode}
    {possible : Option Name} {next next' : SubgraphSet} (hnext : next ≤ next')
    (hp₁ : (possible, p₁) ∈ g.arrivals f.returns next (providedBelow p.provided n f next))
    (hq₁ : (possible, q₁) ∈ g.arrivals f.returns next' (providedBelow q.provided n f next')) :
    p₁.LE q₁ := by
  have hselects := fun i m hops => any_selects_of_mem_arrivals hp₁ i m hops
  have hselects' := fun i m hops => any_selects_of_mem_arrivals hq₁ i m hops
  obtain ⟨_, hp₁⟩ := (mem_arrivals_iff_of_object hobject).1 hp₁
  obtain ⟨_, hq₁⟩ := (mem_arrivals_iff_of_object hobject).1 hq₁
  cases hp₁
  cases hq₁
  refine ⟨rfl, hnext, fun i m hops hm => ?_⟩
  obtain ⟨hi, _, hm⟩ := (hselects i m hops).1 hm
  exact (hselects' i m hops).2 ⟨hnext i hi, .inl rfl, hm.imp (h.provided i m _) id⟩

/-- The walks start at the same positions. -/
theorem mem_starts_addKeys {r : RootField} {s : Path × Position} :
    s ∈ (g.addKeys added).starts r ↔ s ∈ g.starts r := by
  simp only [starts, List.mem_map, mem_arrivals_addKeys hobject]

variable (hresolved : g.baseConflicts = []) (hnil : g.unresolvables = [])

include hresolved hnil

/-- A step of the walk with more keys is one of the walk before, in which nothing was stuck. -/
theorem exists_step_of_addKeys {p q q₁ : Position} (h : p.LE q) (hp : p ∈ g.visited) {n : Name}
    {possible : Option Name} (hq₁ : .descend n possible q₁ ∈ (g.addKeys added).steps q) :
    ∃ p₁, .descend n possible p₁ ∈ g.steps p ∧ p₁.LE q₁ := by
  rw [descend_mem_steps_iff, exists_field_addKeys, h.type] at hq₁
  obtain ⟨t, f, ht, hf, _, hq₁⟩ := hq₁
  rw [mem_arrivals_addKeys hobject] at hq₁
  obtain ⟨r, hr, path, hp⟩ := hp
  have hnext : (g.nextAt p t n f).isEmpty = false := by
    -- The field has resolvers, and would be stuck if none of them were in reach.
    by_contra hempty
    obtain ⟨t', ht', hkind⟩ := hp.object
    obtain rfl := Option.some.inj (ht.symm.trans ht')
    have hres := baseConflicts_eq_nil_iff.1 hresolved _ t ht n f hf hkind
    obtain ⟨u, hu, _⟩ := exists_mem_unresolvables hr hp
      ⟨t, f, ht, hf, by simpa using hempty, hres⟩
    rw [hnil] at hu
    cases hu
  obtain ⟨hreturns, hq₁'⟩ := (mem_arrivals_iff_of_object hobject).1 hq₁
  cases hq₁'
  have hp₁ : (none, ⟨f.returns, g.nextAt p t n f,
      providedBelow p.provided n f (g.nextAt p t n f)⟩) ∈ g.arrivals f.returns (g.nextAt p t n f)
        (providedBelow p.provided n f (g.nextAt p t n f)) :=
    (mem_arrivals_iff_of_object hobject).2 ⟨hreturns, rfl⟩
  exact ⟨_, descend_mem_steps_iff.2 ⟨t, f, ht, hf, hnext, hp₁⟩,
    le_of_arrivals hobject h (nextAt_le_nextAt_addKeys h t _ n f) hp₁ hq₁⟩

/-- **To each position the walk came before, with no more.** -/
theorem exists_le_of_mem_visited_addKeys {q : Position} (hq : q ∈ (g.addKeys added).visited) :
    ∃ p ∈ g.visited, p.LE q := by
  have hstart : ∀ r ∈ (g.addKeys added).rootFields, ∃ r' ∈ g.rootFields,
      ∀ s ∈ (g.addKeys added).starts r, ∃ s' ∈ g.starts r', s'.2.LE s.2 ∧ s'.2 ∈ g.visited := by
    intro r hr
    rw [mem_rootFields_addKeys] at hr
    refine ⟨r, hr, fun s hs => ?_⟩
    rw [mem_starts_addKeys hobject] at hs
    exact ⟨s, hs, .refl s.2, r, hr, s.1, .start hs⟩
  have hstep : ∀ q p n possible q₁, (p.LE q ∧ p ∈ g.visited) →
      .descend n possible q₁ ∈ (g.addKeys added).steps q →
      ∃ p₁, .descend n possible p₁ ∈ g.steps p ∧ p₁.LE q₁ ∧ p₁ ∈ g.visited := by
    rintro q p n possible q₁ ⟨hle, hp⟩ hq₁
    obtain ⟨p₁, hp₁, hle₁⟩ := exists_step_of_addKeys hobject hresolved hnil hle hp hq₁
    obtain ⟨r, hr, path, hp⟩ := hp
    exact ⟨p₁, hp₁, hle₁, r, hr, _, hp.step hp₁⟩
  obtain ⟨r, hr, path, hq⟩ := hq
  obtain ⟨_, _, _, p, _, hle, hp⟩ := hq.exists_of_simulation hstart hstep hr
  exact ⟨p, hp, hle⟩

/-- **Nothing is stuck with more keys.** -/
theorem unresolvables_addKeys_eq_nil : (g.addKeys added).unresolvables = [] := by
  rw [List.eq_nil_iff_forall_not_mem]
  intro u hu
  obtain ⟨r, hr, path, q, hq, _, ⟨t, f, ht, hf, hnext, hres⟩, _⟩ :=
    exists_descent_of_mem_unresolvables hu
  obtain ⟨p, ⟨r', hr', path', hp⟩, hle⟩ :=
    exists_le_of_mem_visited_addKeys hobject hresolved hnil ⟨r, hr, path, hq⟩
  -- The field is stuck where the walk came before, too.
  have hstuck : g.Stuck p u.field := by
    rw [get?_types_addKeys, hle.type] at ht
    obtain ⟨t₀, ht₀, rfl⟩ := Option.map_eq_some_iff.1 ht
    rw [TypeNode.fields_addKeys] at hf
    refine ⟨t₀, f, ht₀, hf, ?_, hres⟩
    rw [SubgraphSet.isEmpty_iff] at hnext ⊢
    exact fun i hi => hnext i (nextAt_le_nextAt_addKeys hle t₀ _ u.field f i hi)
  obtain ⟨u', hu', _⟩ := exists_mem_unresolvables hr' hp hstuck
  rw [hnil] at hu'
  cases hu'

end ObjectTypes

/-- **Adding keys never breaks a resolvable graph**: if nothing is wrong with a merge of types none
of which is an interface or a union, and nothing is reported, then nothing is reported either once
any keys, of any subgraphs and types, are added to the graph; and wherever the walk comes then, it
came before, to the same type with no other subgraphs and no other selections than are there now. -/
theorem addedKeys_harmless {contributions : List Schema} (hc : conflicts contributions = [])
    (hobject : ∀ n t, (ofSchemas contributions).types.get? n = some t →
      t.kind ≠ .interface ∧ t.kind ≠ .union)
    (hnil : (ofSchemas contributions).unresolvables = [])
    (added : Name → List (SubgraphId × EntityKey)) :
    ((ofSchemas contributions).addKeys added).unresolvables = [] ∧
      ∀ q ∈ ((ofSchemas contributions).addKeys added).visited,
        ∃ p ∈ (ofSchemas contributions).visited, p.LE q := by
  have hresolved := (conflicts_eq_nil_iff.1 hc).2.1
  have hconcrete : ∀ n t, (ofSchemas contributions).types.get? n = some t →
      t.kind.isAbstract = false := by
    intro n t ht
    obtain ⟨hinterface, hunion⟩ := hobject n t ht
    cases hk : t.kind <;> simp_all [TypeKind.isAbstract]
  exact ⟨unresolvables_addKeys_eq_nil hconcrete hresolved hnil,
    fun q hq => exists_le_of_mem_visited_addKeys hconcrete hresolved hnil hq⟩

/-- A key of the second subgraph on the type `X`, by its field `id`. -/
def idKeys (n : Name) : List (SubgraphId × EntityKey) :=
  if n.text = "X" then [(1, ⟨.field ⟨"id", by decide⟩ .empty .empty, true⟩)] else []

/-- An object type that two subgraphs share and that goes round in a cycle. -/
def sharedCycleBatch : List Subgraph := Subgraph.batchOfTexts
  [("a", "type Query \x7b x: X \x7d type X \x7b id: ID! @shareable x: X @shareable \x7d"),
    ("b", "type X \x7b id: ID! @shareable x: X @shareable \x7d")]

/-- What the two subgraphs contribute. -/
def sharedCycleContributions : List Schema :=
  ((schemas? sharedCycleBatch).toOption.getD []).map Schema.contribution

/-- Their graph. -/
def sharedCycleGraph : Graph := ofSchemas sharedCycleContributions

/-- With the key, the second subgraph comes into reach where the root field arrives, and there is
still nothing to report. -/
theorem addedKeys_harmless_sharedCycle :
    (((schemas? sharedCycleBatch).isOk = true ∧ conflicts sharedCycleContributions = []) ∧
      (∀ e ∈ sharedCycleGraph.types.entries, e.2.kind = .object) ∧
      sharedCycleGraph.unresolvables = [] ∧
      ∃ r ∈ sharedCycleGraph.rootFields, ∃ s ∈ sharedCycleGraph.starts r,
        ∃ t ∈ sharedCycleGraph.types.get? s.2.type,
          1 ∉ sharedCycleGraph.reach t s.2.resolving ∧
          1 ∈ (sharedCycleGraph.addKeys idKeys).reach (t.addKeys (idKeys s.2.type))
            s.2.resolving) ∧
    (sharedCycleGraph.addKeys idKeys).unresolvables = [] := by
  have h : ((schemas? sharedCycleBatch).isOk = true ∧ conflicts sharedCycleContributions = []) ∧
      (∀ e ∈ sharedCycleGraph.types.entries, e.2.kind = .object) ∧
      sharedCycleGraph.unresolvables = [] ∧
      ∃ r ∈ sharedCycleGraph.rootFields, ∃ s ∈ sharedCycleGraph.starts r,
        ∃ t ∈ sharedCycleGraph.types.get? s.2.type,
          1 ∉ sharedCycleGraph.reach t s.2.resolving ∧
          1 ∈ (sharedCycleGraph.addKeys idKeys).reach (t.addKeys (idKeys s.2.type))
            s.2.resolving := by decide +kernel
  refine ⟨h, (addedKeys_harmless h.1.2 (fun n t ht => ?_) h.2.2.1 idKeys).1⟩
  rw [h.2.1 (n, t) (Table.get?_eq_some_iff.1 ht)]
  exact ⟨by decide, by decide⟩

/-- An interface that two subgraphs implement by different types, below a type that they share; the
third one, which cannot be reached, has a field on one of them. -/
def sharedInterfaceBatch : List Subgraph := Subgraph.batchOfTexts
  [("a", "type Query \x7b x: X \x7d type X \x7b id: ID! @shareable i: I @shareable \x7d " ++
      "interface I \x7b n: Int \x7d type A implements I \x7b n: Int \x7d"),
    ("b", "type X \x7b id: ID! @shareable i: I @shareable \x7d " ++
      "interface I \x7b n: Int \x7d type B implements I \x7b n: Int \x7d"),
    ("c", "type B \x7b m: Int \x7d")]

/-- What the three subgraphs contribute. -/
def sharedInterfaceContributions : List Schema :=
  ((schemas? sharedInterfaceBatch).toOption.getD []).map Schema.contribution

/-- With the key, the second subgraph comes into reach, and so does its possible type, whose other
field is then stuck. -/
theorem not_addedKeys_harmless_sharedInterface :
    ((schemas? sharedInterfaceBatch).isOk = true ∧
      conflicts sharedInterfaceContributions = []) ∧
    (ofSchemas sharedInterfaceContributions).unresolvables = [] ∧
    ((ofSchemas sharedInterfaceContributions).addKeys idKeys).unresolvables.map (·.path) =
      ["Query.x.i ... on B m"] := by decide +kernel

end Graph

end Federation
