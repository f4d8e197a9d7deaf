import Federation.Composition
import Federation.Proofs.Resolvability.KeyJumps
import Federation.Proofs.Resolvability.Termination

/-!
# Provided selections and who resolves

Where the walk is, it carries the subgraphs that resolve the position and the selections that
subgraphs provide there.  Below a field and in a possible type the selections are cut down to the
subgraphs that resolve (`providedBelow`, `possibleArrivals`).  At a root field they are not: its
selections are all those of its declarations, of subgraphs that do not resolve the field too.

That is the only leak (`provided_within_resolving_iff`).  Without such a declaration, every
selection at a visited position belongs to a subgraph that resolves it
(`Visits.resolves_of_provided`), and the selections of declarations that are never executed have no
influence on what is reported (`mem_unresolvables_withoutProvides`).  With one, a field can pass for
resolvable that nobody can resolve (`not_provided_within_resolving_takenOver`).
-/

namespace Federation

/-! ### Visited positions of any composite type -/

namespace Graph

variable {g : Graph}

/-- The positions that the walk visits, those of abstract types, which it only passes through on
the way to their possible types, with the others. -/
inductive Visits (g : Graph) : Position → Prop
  /-- The type of a root field, unless it is a leaf. -/
  | root {r : RootField} {t : TypeNode} (hr : r ∈ g.rootFields)
      (ht : g.types.get? r.node.returns = some t) (hkind : t.kind.isComposite = true) :
      Visits g ⟨r.node.returns, r.node.resolvers, r.node.provides⟩
  /-- The type of a field of an object type that some subgraph in reach resolves. -/
  | field {p : Position} {node t : TypeNode} {name : Name} {f : FieldNode} (hp : Visits g p)
      (hnode : g.types.get? p.type = some node) (hobject : node.kind = .object)
      (hf : node.fields.get? name = some f) (hnext : (g.nextAt p node name f).isEmpty = false)
      (ht : g.types.get? f.returns = some t) (hkind : t.kind.isComposite = true) :
      Visits g ⟨f.returns, g.nextAt p node name f,
        providedBelow p.provided name f (g.nextAt p node name f)⟩
  /-- A possible type of an abstract type. -/
  | possible {p : Position} {t : TypeNode} {a : Option Name × Position} (hp : Visits g p)
      (ht : g.types.get? p.type = some t) (hkind : t.kind.isAbstract = true)
      (ha : a ∈ g.possibleArrivals p.type t p.resolving p.provided) : Visits g a.2

theorem isComposite_of_mem_arrivals {returns : Name} {resolving : SubgraphSet}
    {provided : SubgraphMap FieldSet} {a : Option Name × Position}
    (h : a ∈ g.arrivals returns resolving provided) :
    ∃ t, g.types.get? returns = some t ∧ t.kind.isComposite = true := by
  obtain ⟨t, ht, ⟨hkind, _⟩ | ⟨hkind, _⟩⟩ := mem_arrivals_iff.1 h
  · exact ⟨t, ht, by rw [hkind]; rfl⟩
  · refine ⟨t, ht, ?_⟩
    cases hk : t.kind <;> simp_all [TypeKind.isAbstract, TypeKind.isComposite]

/-- Where a value arrives is visited if the position of its type is. -/
theorem Visits.of_mem_arrivals {returns : Name} {resolving : SubgraphSet}
    {provided : SubgraphMap FieldSet} {a : Option Name × Position}
    (hp : g.Visits ⟨returns, resolving, provided⟩)
    (h : a ∈ g.arrivals returns resolving provided) : g.Visits a.2 := by
  obtain ⟨t, ht, ⟨_, rfl⟩ | ⟨hkind, h⟩⟩ := mem_arrivals_iff.1 h
  · exact hp
  · exact .possible hp ht hkind h

theorem Descent.visits {r : RootField} (hr : r ∈ g.rootFields) {path : Path} {p : Position}
    (h : g.Descent r path p) : g.Visits p := by
  induction h with
  | start hs =>
    obtain ⟨a, ha, rfl⟩ := List.mem_map.1 hs
    obtain ⟨t, ht, hkind⟩ := isComposite_of_mem_arrivals ha
    exact Visits.of_mem_arrivals (.root hr ht hkind) ha
  | through hp hnode hf hnext hq ih =>
    obtain ⟨node, hnode', hobject⟩ := hp.object
    obtain rfl : _ = node := Option.some.inj (hnode.symm.trans hnode')
    obtain ⟨t, ht, hkind⟩ := isComposite_of_mem_arrivals hq
    exact Visits.of_mem_arrivals (.field ih hnode hobject hf hnext ht hkind) hq

/-- Conversely, what is visited is passed by a descent: at an object type the descent comes to it,
and at an abstract type it goes on to the possible types from there. -/
theorem Visits.arrives {p : Position} (h : g.Visits p) :
    ∀ a ∈ g.arrivals p.type p.resolving p.provided, a.2 ∈ g.visited := by
  induction h with
  | root hr _ _ => exact fun a ha => ⟨_, hr, _, .start (List.mem_map_of_mem ha)⟩
  | field _ hnode hobject hf hnext _ _ ih =>
    obtain ⟨r, hr, path, hp⟩ := ih _ (mem_arrivals_iff.2 ⟨_, hnode, .inl ⟨hobject, rfl⟩⟩)
    exact fun a ha => ⟨r, hr, _, hp.through hnode hf hnext ha⟩
  | @possible p t b hp ht hkind hb ih =>
    intro a ha
    have hb' := ih b (mem_arrivals_iff.2 ⟨t, ht, .inr ⟨hkind, hb⟩⟩)
    -- A possible type is an object type, so nothing but its own position arrives there.
    have harrival : (b.1, b.2) ∈ g.arrivals p.type p.resolving p.provided :=
      mem_arrivals_iff.2 ⟨t, ht, .inr ⟨hkind, hb⟩⟩
    obtain ⟨node, hnode, hobject⟩ := object_of_mem_arrivals harrival
    obtain ⟨node', hnode', ⟨_, rfl⟩ | ⟨habstract, _⟩⟩ := mem_arrivals_iff.1 ha
    · exact hb'
    · obtain rfl := Option.some.inj (hnode.symm.trans hnode')
      rw [hobject] at habstract
      cases habstract

/-- At object types these are the positions of descents. -/
theorem visits_object_iff {p : Position} :
    (g.Visits p ∧ ∃ t, g.types.get? p.type = some t ∧ t.kind = .object) ↔ p ∈ g.visited := by
  constructor
  · rintro ⟨hp, t, ht, hobject⟩
    exact hp.arrives (none, p) (mem_arrivals_iff.2 ⟨t, ht, .inl ⟨hobject, rfl⟩⟩)
  · rintro ⟨r, hr, path, hp⟩
    exact ⟨hp.visits hr, hp.object⟩

/-! ### Selections of subgraphs that do not resolve the field -/

/-- A root field that is walked has a selection that comes with the declaration of a subgraph
that does not resolve the field. -/
def HasIdleProvision (g : Graph) : Prop :=
  ∃ r ∈ g.rootFields, (∃ t, g.types.get? r.node.returns = some t ∧ t.kind.isComposite = true) ∧
    ∃ i F, r.node.provides.get? i = some F ∧ i ∉ r.node.resolvers

/-- Some subgraph resolves each visited position. -/
theorem Visits.resolving_nonempty {p : Position} (h : g.Visits p) :
    p.resolving.isEmpty = false := by
  cases h with
  | root hr _ _ => exact (mem_rootFields_iff.1 hr).2.choose_spec.2.2.2
  | field _ _ _ _ hnext _ _ => exact hnext
  | possible _ _ _ ha =>
    obtain ⟨o, s, _, hne, rfl⟩ := mem_possibleArrivals_iff.1 ha
    exact hne

/-- What is carried into a possible type belongs to subgraphs that declare the type possible. -/
theorem resolves_of_mem_possibleArrivals {returns : Name} {t : TypeNode} {resolving : SubgraphSet}
    {provided : SubgraphMap FieldSet} {a : Option Name × Position}
    (h : a ∈ g.possibleArrivals returns t resolving provided) {i : SubgraphId} {F : FieldSet}
    (hF : a.2.provided.get? i = some F) : i ∈ a.2.resolving := by
  obtain ⟨o, s, _, _, rfl⟩ := mem_possibleArrivals_iff.1 h
  simp only [SubgraphMap.get?_map, SubgraphMap.get?_filter, decide_eq_true_eq] at hF
  split at hF
  · assumption
  · cases hF

/-- Selections belong to subgraphs that resolve the position, with the exception of those that a
root field brings along. -/
theorem Visits.resolves_of_provided (hidle : ¬ g.HasIdleProvision) {p : Position}
    (h : g.Visits p) {i : SubgraphId} {F : FieldSet} (hF : p.provided.get? i = some F) :
    i ∈ p.resolving := by
  cases h with
  | root hr ht hkind =>
    by_contra hi
    exact hidle ⟨_, hr, ⟨_, ht, hkind⟩, i, F, hF, hi⟩
  | field _ _ _ _ _ _ _ =>
    simp only [providedBelow, SubgraphMap.get?_ofSet] at hF
    split at hF
    · assumption
    · cases hF
  | possible _ _ _ ha => exact resolves_of_mem_possibleArrivals ha hF

end Graph

/-! ### Leaving selections out -/

/-- A field without what some subgraphs provide below it. -/
def FieldNode.withoutProvides (f : FieldNode) (drop : SubgraphId → Bool) : FieldNode :=
  { f with provides := f.provides.filter fun i => !drop i }

namespace FieldNode

variable (f : FieldNode) (drop : SubgraphId → Bool)

@[simp] theorem resolvers_withoutProvides : (f.withoutProvides drop).resolvers = f.resolvers := rfl

@[simp] theorem returns_withoutProvides : (f.withoutProvides drop).returns = f.returns := rfl

end FieldNode

/-- A type without what some subgraphs provide below its fields. -/
def TypeNode.withoutProvides (t : TypeNode) (drop : Name → SubgraphId → Bool) : TypeNode :=
  { t with fields := t.fields.mapEntries fun n f => f.withoutProvides (drop n) }

namespace Graph

/-- The graph as if some declarations of fields, each a type, a field and a subgraph, did not
provide anything. -/
def withoutProvides (g : Graph) (drop : Name → Name → SubgraphId → Bool) : Graph :=
  { g with types := g.types.mapEntries fun n t => t.withoutProvides (drop n) }

variable {g : Graph} {drop : Name → Name → SubgraphId → Bool}

theorem get?_types_withoutProvides (n : Name) :
    (g.withoutProvides drop).types.get? n =
      (g.types.get? n).map fun t => t.withoutProvides (drop n) :=
  Table.get?_mapEntries _ _ _

theorem get?_fields_withoutProvides (t : TypeNode) (d : Name → SubgraphId → Bool) (n : Name) :
    (t.withoutProvides d).fields.get? n =
      (t.fields.get? n).map fun f => f.withoutProvides (d n) :=
  Table.get?_mapEntries _ _ _

/-- Selections are resolved by those who resolve their fields, whatever they provide. -/
theorem canResolve_withoutProvides (available : SubgraphSet) (t : TypeNode)
    (d : Name → SubgraphId → Bool) (F : FieldSet) :
    (g.withoutProvides drop).canResolve available (t.withoutProvides d) F =
      g.canResolve available t F := by
  have hsame : ∀ (t : TypeNode) d, t.SameResolvers (t.withoutProvides d) := by
    intro t d n
    rw [get?_fields_withoutProvides]
    cases t.fields.get? n with
    | none => exact .none
    | some f => exact .some ⟨rfl, rfl⟩
  refine canResolve_eq_of_sameResolvers (fun n => ?_) (hsame t d) available F
  rw [get?_types_withoutProvides]
  cases g.types.get? n with
  | none => exact .none
  | some t => exact .some (hsame t _)

theorem reach_withoutProvides (t : TypeNode) (d : Name → SubgraphId → Bool)
    (reached : SubgraphSet) :
    (g.withoutProvides drop).reach (t.withoutProvides d) reached = g.reach t reached := by
  have henterable : ∀ s, (g.withoutProvides drop).enterable (t.withoutProvides d) s =
      g.enterable t s := fun s => by
    refine SubgraphSet.ext_mem fun i => ?_
    simp only [mem_enterable_iff, canResolve_withoutProvides]
    exact Iff.rfl
  induction reached using reach.induct g t with
  | case1 reached hend => rw [reach, henterable, if_pos hend, reach, if_pos hend]
  | case2 reached hend ih =>
    rw [reach, henterable, if_neg hend, ih]
    conv_rhs => rw [reach, if_neg hend]

theorem nextAt_withoutProvides (p : Position) (t : TypeNode) (d : Name → SubgraphId → Bool)
    (n : Name) (f : FieldNode) (e : SubgraphId → Bool) :
    (g.withoutProvides drop).nextAt p (t.withoutProvides d) n (f.withoutProvides e) =
      g.nextAt p t n f := by
  have hcan : (g.withoutProvides drop).canResolve (g.reach t p.resolving) (t.withoutProvides d) =
      g.canResolve (g.reach t p.resolving) t :=
    funext fun F => canResolve_withoutProvides _ t d F
  rw [nextAt, nextAt, reach_withoutProvides, resolversAt, resolversAt, hcan]
  rfl

theorem possibleTypes_withoutProvides (n : Name) (t : TypeNode) (d : Name → SubgraphId → Bool) :
    ∀ o, o ∈ (g.withoutProvides drop).possibleTypes n (t.withoutProvides d) ↔
      o ∈ g.possibleTypes n t := by
  rintro ⟨o, s⟩
  simp only [mem_possibleTypes_iff, get?_types_withoutProvides, Option.map_eq_some_iff]
  constructor
  · rintro ⟨_, ⟨node, hnode, rfl⟩, hkind, hs⟩
    exact ⟨node, hnode, hkind, hs⟩
  · rintro ⟨node, hnode, hkind, hs⟩
    exact ⟨_, ⟨node, hnode, rfl⟩, hkind, hs⟩

theorem mem_arrivals_withoutProvides {returns : Name} {resolving : SubgraphSet}
    {provided : SubgraphMap FieldSet} {a : Option Name × Position} :
    a ∈ (g.withoutProvides drop).arrivals returns resolving provided ↔
      a ∈ g.arrivals returns resolving provided := by
  simp only [mem_arrivals_iff, get?_types_withoutProvides, Option.map_eq_some_iff]
  constructor
  · rintro ⟨_, ⟨t, ht, rfl⟩, h⟩
    refine ⟨t, ht, h.imp id (And.imp_right fun h => ?_)⟩
    simpa only [mem_possibleArrivals_iff, possibleTypes_withoutProvides,
      reach_withoutProvides] using h
  · rintro ⟨t, ht, h⟩
    refine ⟨_, ⟨t, ht, rfl⟩, h.imp id (And.imp_right fun h => ?_)⟩
    simpa only [mem_possibleArrivals_iff, possibleTypes_withoutProvides,
      reach_withoutProvides] using h

/-- What is asked of some field of the graph is asked of one that keeps all its selections. -/
theorem exists_field_withoutProvides {n m : Name} {P : TypeNode → FieldNode → Prop} :
    (∃ node f, (g.withoutProvides drop).types.get? n = some node ∧ node.fields.get? m = some f ∧
      P node f) ↔
    ∃ node f, g.types.get? n = some node ∧ node.fields.get? m = some f ∧
      P (node.withoutProvides (drop n)) (f.withoutProvides (drop n m)) := by
  simp only [get?_types_withoutProvides, Option.map_eq_some_iff]
  constructor
  · rintro ⟨_, _, ⟨node, hnode, rfl⟩, hf, h⟩
    rw [get?_fields_withoutProvides, Option.map_eq_some_iff] at hf
    obtain ⟨f, hf, rfl⟩ := hf
    exact ⟨node, f, hnode, hf, h⟩
  · rintro ⟨node, f, hnode, hf, h⟩
    refine ⟨_, _, ⟨node, hnode, rfl⟩, ?_, h⟩
    rw [get?_fields_withoutProvides, hf, Option.map_some]

theorem mem_rootFields_withoutProvides {r : RootField} :
    r ∈ (g.withoutProvides drop).rootFields ↔ ∃ r₀ ∈ g.rootFields,
      r = ⟨r₀.type, r₀.name, r₀.node.withoutProvides (drop r₀.type r₀.name)⟩ := by
  simp only [mem_rootFields_iff, get?_types_withoutProvides, Option.map_eq_some_iff]
  constructor
  · rintro ⟨hn, _, ⟨t, ht, rfl⟩, hkind, hf, hres⟩
    rw [get?_fields_withoutProvides, Option.map_eq_some_iff] at hf
    obtain ⟨f, hf, hnode⟩ := hf
    refine ⟨⟨r.type, r.name, f⟩, ⟨hn, t, ht, hkind, hf, ?_⟩, ?_⟩
    · rwa [← hnode] at hres
    · rw [hnode]
  · rintro ⟨r₀, ⟨hn, t, ht, hkind, hf, hres⟩, rfl⟩
    refine ⟨hn, _, ⟨t, ht, rfl⟩, hkind, ?_, hres⟩
    rw [get?_fields_withoutProvides, hf, Option.map_some]

/-! ### Declarations that are never executed -/

/-- A subgraph is asked for a field somewhere: for a root field, or at a visited position. -/
def Executes (g : Graph) (type name : Name) (i : SubgraphId) : Prop :=
  (∃ r ∈ g.rootFields, r.type = type ∧ r.name = name ∧ i ∈ r.node.resolvers) ∨
    ∃ p ∈ g.visited, ∃ node f, p.type = type ∧ g.types.get? type = some node ∧
      node.fields.get? name = some f ∧ i ∈ g.nextAt p node name f

/-- What is carried below a field is what those provide that are asked for it. -/
theorem providedBelow_withoutProvides {next : SubgraphSet} {d : SubgraphId → Bool}
    (h : ∀ i ∈ next, d i = false) (provided : SubgraphMap FieldSet) (n : Name) (f : FieldNode) :
    providedBelow provided n (f.withoutProvides d) next = providedBelow provided n f next := by
  refine SubgraphMap.ext_get? fun i => ?_
  simp only [providedBelow, SubgraphMap.get?_ofSet]
  split
  · rename_i hi
    simp only [providedAt, FieldNode.withoutProvides, SubgraphMap.get?_filter, h i hi,
      Bool.not_false, if_true]
  · rfl

section

variable (hdrop : ∀ n m i, drop n m i = true → ¬ g.Executes n m i)

include hdrop

theorem mem_steps_withoutProvides {p : Position} (hp : p ∈ g.visited) (s : Step) :
    s ∈ (g.withoutProvides drop).steps p ↔ s ∈ g.steps p := by
  cases s with
  | stuck n culprits =>
    rw [stuck_mem_steps_iff, stuck_mem_steps_iff, exists_field_withoutProvides]
    simp only [nextAt_withoutProvides, FieldNode.resolvers_withoutProvides]
  | descend n possible q =>
    rw [descend_mem_steps_iff, descend_mem_steps_iff, exists_field_withoutProvides]
    refine exists_congr fun node => exists_congr fun f => and_congr_right fun hnode =>
      and_congr_right fun hf => ?_
    -- Those who are asked for the field execute their declarations of it.
    have hkeep : ∀ i ∈ g.nextAt p node n f, drop p.type n i = false := by
      intro i hi
      by_contra h
      exact hdrop p.type n i (by simpa using h) (.inr ⟨p, hp, node, f, rfl, hnode, hf, hi⟩)
    rw [nextAt_withoutProvides, providedBelow_withoutProvides hkeep, mem_arrivals_withoutProvides,
      FieldNode.returns_withoutProvides]

/-- A root field starts where it did if all its selections belong to those who resolve it. -/
theorem mem_starts_withoutProvides (hidle : ¬ g.HasIdleProvision) {r : RootField}
    (hr : r ∈ g.rootFields) (s : Path × Position) :
    s ∈ (g.withoutProvides drop).starts
        ⟨r.type, r.name, r.node.withoutProvides (drop r.type r.name)⟩ ↔ s ∈ g.starts r := by
  simp only [starts, List.mem_map, mem_arrivals_withoutProvides,
    FieldNode.returns_withoutProvides, FieldNode.resolvers_withoutProvides]
  refine exists_congr fun a => and_congr_left fun _ => ?_
  by_cases hkind : ∃ t, g.types.get? r.node.returns = some t ∧ t.kind.isComposite = true
  · have hsame : (r.node.withoutProvides (drop r.type r.name)).provides = r.node.provides := by
      refine SubgraphMap.ext_get? fun i => ?_
      rw [FieldNode.withoutProvides, SubgraphMap.get?_filter]
      split
      · rfl
      · rename_i hi
        cases hF : r.node.provides.get? i with
        | none => rfl
        | some F =>
          have hres : i ∈ r.node.resolvers := by
            by_contra h
            exact hidle ⟨r, hr, hkind, i, F, hF, h⟩
          exact absurd (.inl ⟨r, hr, rfl, rfl, hres⟩) (hdrop _ _ i (by simpa using hi))
    rw [hsame]
  · -- Nothing arrives at a leaf.
    exact iff_of_false (fun h => hkind (isComposite_of_mem_arrivals h))
      fun h => hkind (isComposite_of_mem_arrivals h)

/-- **Idle selections have no influence**: if all selections of root fields belong to those who
resolve them, then what is reported stays the same without the selections of declarations that are
never executed. -/
theorem mem_unresolvables_withoutProvides (hidle : ¬ g.HasIdleProvision) (u : Unresolvable) :
    u ∈ (g.withoutProvides drop).unresolvables ↔ u ∈ g.unresolvables := by
  have hwalk : ∀ r ∈ g.rootFields, ∀ s ∈ g.starts r, ∀ x,
      x ∈ (g.withoutProvides drop).walk [] s.1 s.2 ↔ x ∈ g.walk [] s.1 s.2 := by
    intro r hr s hs
    refine mem_walk_iff_of_steps (S := (· ∈ g.visited))
      (fun p hp s => mem_steps_withoutProvides hdrop hp s) ?_ [] s.1 s.2 ⟨r, hr, _, .start hs⟩
    rintro p ⟨r, hr, path, hp⟩ name possible q hstep
    exact ⟨r, hr, _, hp.step hstep⟩
  rw [mem_unresolvables_iff, mem_unresolvables_iff]
  constructor
  · rintro ⟨_, hr', s, hs, x, hx, rfl⟩
    obtain ⟨r, hr, rfl⟩ := mem_rootFields_withoutProvides.1 hr'
    have hs := (mem_starts_withoutProvides hdrop hidle hr s).1 hs
    exact ⟨r, hr, s, hs, x, (hwalk r hr s hs x).1 hx, rfl⟩
  · rintro ⟨r, hr, s, hs, x, hx, rfl⟩
    exact ⟨_, mem_rootFields_withoutProvides.2 ⟨r, hr, rfl⟩, s,
      (mem_starts_withoutProvides hdrop hidle hr s).2 hs, x, (hwalk r hr s hs x).2 hx, rfl⟩

end

/-- **Whose selections are carried**: at every visited position, of an object type or of an
abstract one, some subgraph resolves the position; each selection carried there belongs to such a
subgraph, exactly if no root field brings along a selection of a subgraph that does not resolve
it; and in that case leaving out the selections of declarations that are never executed changes
nothing about what is reported. -/
theorem provided_within_resolving_iff (g : Graph) :
    (∀ p, g.Visits p → p.resolving.isEmpty = false) ∧
    ((∀ p, g.Visits p → ∀ i F, p.provided.get? i = some F → i ∈ p.resolving) ↔
      ¬ g.HasIdleProvision) ∧
    (¬ g.HasIdleProvision → ∀ drop : Name → Name → SubgraphId → Bool,
      (∀ type name i, drop type name i = true → ¬ g.Executes type name i) →
      ∀ u, u ∈ (g.withoutProvides drop).unresolvables ↔ u ∈ g.unresolvables) := by
  refine ⟨fun p hp => hp.resolving_nonempty, ⟨?_, ?_⟩, ?_⟩
  · rintro h ⟨r, hr, ⟨t, ht, hkind⟩, i, F, hF, hi⟩
    exact hi (h _ (.root hr ht hkind) i F hF)
  · exact fun hidle p hp i F hF => hp.resolves_of_provided hidle hF
  · exact fun hidle drop hdrop u => mem_unresolvables_withoutProvides hdrop hidle u

/-! ### A field that passes for resolvable -/

/-- A root field that the second subgraph takes over from the first one, which provides a field
below it that only the third one resolves. -/
def takenOverProvisionBatch : List Subgraph := Subgraph.batchOfTexts
  [("a", "type Query \x7b t: T @provides(fields: \"x\") \x7d " ++
      "type T @key(fields: \"id\") \x7b id: ID! x: Int @external \x7d"),
    ("b", "type Query \x7b t: T @override(from: \"a\") \x7d " ++
      "type T @key(fields: \"id\") \x7b id: ID! \x7d"),
    ("c", "type T \x7b id: ID! x: Int \x7d")]

/-- What the three subgraphs contribute. -/
def takenOverProvisionContributions : List Schema :=
  ((schemas? takenOverProvisionBatch).toOption.getD []).map Schema.contribution

/-- Their graph. -/
def takenOverProvisionGraph : Graph := ofSchemas takenOverProvisionContributions

/-- The declaration of the root field in the first subgraph. -/
def takenOverProvision (type name : Name) (i : SubgraphId) : Bool :=
  type.text = "Query" && name.text = "t" && i = 0

/-- What there is to read off the graph: nothing is wrong with the batch; all types are object types
and no field leads back to the query type; the first subgraph provides something with a root field
that it does not resolve; nothing is stuck where a root field starts, and nothing lies below; and
without what the first subgraph provides there is a report. -/
theorem takenOverProvisionGraph_read :
    ((schemas? takenOverProvisionBatch).isOk = true ∧
      conflicts takenOverProvisionContributions = []) ∧
    (∀ t ∈ takenOverProvisionGraph.types.entries, t.2.kind = .object ∧
      ∀ f ∈ t.2.fields.entries, f.2.returns.text ≠ "Query") ∧
    (∀ r ∈ takenOverProvisionGraph.rootFields, 0 ∉ r.node.resolvers ∧
      ∀ s ∈ takenOverProvisionGraph.starts r, (takenOverProvisionGraph.steps s.2).isEmpty) ∧
    (∃ r ∈ takenOverProvisionGraph.rootFields,
      (∃ t ∈ takenOverProvisionGraph.types.get? r.node.returns, t.kind.isComposite = true) ∧
        ∃ e ∈ r.node.provides.entries, e.1 ∉ r.node.resolvers) ∧
    (takenOverProvisionGraph.withoutProvides takenOverProvision).unresolvables.map (·.path) =
      ["Query.t.x"] := by decide +kernel

/-- No field leads back to the query type. -/
theorem type_ne_of_mem_visited_takenOver {p : Position}
    (hp : p ∈ takenOverProvisionGraph.visited) : p.type.text ≠ "Query" := by
  obtain ⟨_, hreturns, _⟩ := takenOverProvisionGraph_read
  have harrival : ∀ {n m : Name} {t : TypeNode} {f : FieldNode} {s : SubgraphSet}
      {m' : SubgraphMap FieldSet} {a : Option Name × Position},
      takenOverProvisionGraph.types.get? n = some t → t.fields.get? m = some f →
      a ∈ takenOverProvisionGraph.arrivals f.returns s m' → a.2.type.text ≠ "Query" := by
    intro n m t f s m' a ht hf ha
    obtain ⟨t', ht', ⟨_, rfl⟩ | ⟨hkind, _⟩⟩ := mem_arrivals_iff.1 ha
    · exact (hreturns _ (Table.get?_eq_some_iff.1 ht)).2 _ (Table.get?_eq_some_iff.1 hf)
    · rw [(hreturns _ (Table.get?_eq_some_iff.1 ht')).1] at hkind
      cases hkind
  obtain ⟨r, hr, path, hp⟩ := hp
  cases hp with
  | start hs =>
    obtain ⟨_, t, ht, _, hf, _⟩ := mem_rootFields_iff.1 hr
    obtain ⟨a, ha, rfl⟩ := List.mem_map.1 hs
    exact harrival ht hf ha
  | through _ hnode hf _ hq => exact harrival hnode hf hq

theorem not_executes_takenOverProvision {type name : Name} {i : SubgraphId}
    (h : takenOverProvision type name i = true) :
    ¬ takenOverProvisionGraph.Executes type name i := by
  obtain ⟨_, _, hroot, _⟩ := takenOverProvisionGraph_read
  simp only [takenOverProvision, Bool.and_eq_true, decide_eq_true_eq] at h
  obtain ⟨⟨htype, _⟩, rfl⟩ := h
  rintro (⟨r, hr, _, _, hi⟩ | ⟨p, hp, _, _, rfl, _⟩)
  · exact (hroot r hr).1 hi
  · exact type_ne_of_mem_visited_takenOver hp htype

/-- The first subgraph is never asked for the root field, and what it provides below it is all that
makes the field there resolvable: it is carried to a position that the first subgraph does not
resolve, and without it the field is reported. -/
theorem not_provided_within_resolving_takenOver :
    ((schemas? takenOverProvisionBatch).isOk = true ∧
      conflicts takenOverProvisionContributions = []) ∧
    (∃ p, takenOverProvisionGraph.Visits p ∧
      ∃ i F, p.provided.get? i = some F ∧ i ∉ p.resolving) ∧
    takenOverProvisionGraph.unresolvables = [] ∧
    (∀ type name i, takenOverProvision type name i = true →
      ¬ takenOverProvisionGraph.Executes type name i) ∧
    (takenOverProvisionGraph.withoutProvides takenOverProvision).unresolvables.map (·.path) =
      ["Query.t.x"] := by
  obtain ⟨hok, _, hroot, ⟨r, hr, ⟨t, ht, hkind⟩, e, he, hi⟩, hpath⟩ := takenOverProvisionGraph_read
  refine ⟨hok, ?_, ?_, fun _ _ _ => not_executes_takenOverProvision, hpath⟩
  · exact ⟨_, .root hr ht hkind, e.1, e.2, SubgraphMap.get?_eq_some_iff.2 he, hi⟩
  · refine List.eq_nil_iff_forall_not_mem.2 fun u hu => ?_
    obtain ⟨r, hr, s, hs, x, hx, _⟩ := mem_unresolvables_iff.1 hu
    obtain ⟨_, step, hstep, _⟩ := mem_walk_iff.1 hx
    rw [List.isEmpty_iff.1 ((hroot r hr).2 s hs)] at hstep
    cases hstep

end Graph

end Federation
