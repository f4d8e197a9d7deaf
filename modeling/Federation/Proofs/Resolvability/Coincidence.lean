import Federation.Proofs.Resolvability.CycleGuard

/-!
# Walks that stay within some types

Two graphs coincide on some names (`Graph.Coincide`) when they have the same types under these
names and whatever a walk comes to from there has such a name again: what fields return, and the
possible types of abstract types.  The two graphs may differ in everything else.

A walk that starts within these types stays there, and goes on alike in both graphs, function by
function: the subgraphs that it reaches (`reach_eq`), those that resolve a field (`nextAt_eq`), the
positions at which values arrive (`mem_arrivals`), the steps (`mem_steps`), and so what it reports
(`mem_reports_iff`).
-/

namespace Federation.Graph

/-- Whether two graphs have the same types under some names, from which no step leads elsewhere,
and under which they resolve the same selections. -/
structure Coincide (inner : Name → Prop) (g g' : Graph) : Prop where
  type : ∀ {n}, inner n → g'.types.get? n = g.types.get? n
  returns : ∀ {n t m f}, inner n → g.types.get? n = some t → t.fields.get? m = some f →
    inner f.returns
  possible : ∀ {n t o s}, inner n → g.types.get? n = some t → t.kind.isAbstract = true →
    ((o, s) ∈ g'.possibleTypes n t ↔ (o, s) ∈ g.possibleTypes n t)
  possibleInner : ∀ {n t o s}, inner n → g.types.get? n = some t → t.kind.isAbstract = true →
    (o, s) ∈ g.possibleTypes n t → inner o
  key : ∀ {n t i k}, inner n → g.types.get? n = some t → (i, k) ∈ t.resolvableKeys →
    ∀ available, g'.canResolve available t k.fields = g.canResolve available t k.fields
  required : ∀ {n t m f i F}, inner n → g.types.get? n = some t → t.fields.get? m = some f →
    f.requires.get? i = some F →
    ∀ available, g'.canResolve available t F = g.canResolve available t F
  name : ∀ {n t m f i}, inner n → g.types.get? n = some t → t.fields.get? m = some f →
    i ∈ f.resolvers → g'.nameOf i = g.nameOf i

namespace Coincide

variable {inner : Name → Prop} {g g' : Graph} (hg : g.Coincide inner g')

include hg

/-! ### Reaching subgraphs -/

section Types

variable {n : Name} {t : TypeNode} (hn : inner n) (ht : g.types.get? n = some t)

include hn ht

theorem enterable_eq (reached : SubgraphSet) : g'.enterable t reached = g.enterable t reached := by
  refine SubgraphSet.ext_mem fun i => ?_
  rw [mem_enterable_iff, mem_enterable_iff]
  refine and_congr_right fun _ => exists_congr fun k => and_congr_right fun hk => ?_
  rw [hg.key hn ht hk]

theorem reach_eq (reached : SubgraphSet) : g'.reach t reached = g.reach t reached := by
  induction reached using reach.induct g t with
  | case1 reached hend => rw [reach, hg.enterable_eq hn ht, if_pos hend, reach, if_pos hend]
  | case2 reached hend ih =>
    conv => rhs; rw [reach, if_neg hend]
    rw [reach, hg.enterable_eq hn ht, if_neg hend, ih]

theorem resolversAt_eq {m : Name} {f : FieldNode} (hf : t.fields.get? m = some f)
    (reached : SubgraphSet) (provided : SubgraphMap FieldSet) :
    g'.resolversAt t reached provided m f = g.resolversAt t reached provided m f := by
  refine SubgraphSet.ext_mem fun i => ?_
  have hrequired : (f.requires.get? i).all (g'.canResolve reached t) =
      (f.requires.get? i).all (g.canResolve reached t) := by
    cases hF : f.requires.get? i with
    | none => rfl
    | some F => exact hg.required hn ht hf hF reached
  simp only [resolversAt, SubgraphSet.mem_filter, hrequired]

theorem mem_possibleArrivals (habstract : t.kind.isAbstract = true) {resolving : SubgraphSet}
    {provided : SubgraphMap FieldSet} {a : Option Name × Position} :
    a ∈ g'.possibleArrivals n t resolving provided ↔
      a ∈ g.possibleArrivals n t resolving provided := by
  simp only [mem_possibleArrivals_iff, hg.reach_eq hn ht, hg.possible hn ht habstract]

end Types

theorem nextAt_eq {p : Position} (hp : inner p.type) {t : TypeNode}
    (ht : g.types.get? p.type = some t) {m : Name} {f : FieldNode}
    (hf : t.fields.get? m = some f) : g'.nextAt p t m f = g.nextAt p t m f := by
  rw [nextAt, nextAt, hg.reach_eq hp ht, hg.resolversAt_eq hp ht hf]

/-! ### Arrivals -/

section Arrivals

variable {returns : Name} (hreturns : inner returns) {resolving : SubgraphSet}
  {provided : SubgraphMap FieldSet} {a : Option Name × Position}

include hreturns

theorem mem_arrivals :
    a ∈ g'.arrivals returns resolving provided ↔ a ∈ g.arrivals returns resolving provided := by
  rw [mem_arrivals_iff, mem_arrivals_iff, hg.type hreturns]
  refine exists_congr fun t => and_congr_right fun ht => or_congr_right ?_
  exact and_congr_right fun habstract => hg.mem_possibleArrivals hreturns ht habstract

/-- What arrives is within the types. -/
theorem inner_of_mem_arrivals (h : a ∈ g.arrivals returns resolving provided) :
    inner a.2.type := by
  obtain ⟨t, ht, ⟨_, rfl⟩ | ⟨habstract, h⟩⟩ := mem_arrivals_iff.1 h
  · exact hreturns
  · obtain ⟨o, s, ho, _, rfl⟩ := mem_possibleArrivals_iff.1 h
    exact hg.possibleInner hreturns ht habstract ho

end Arrivals

/-! ### The walk -/

theorem mem_steps {p : Position} (hp : inner p.type) (s : Step) :
    s ∈ g'.steps p ↔ s ∈ g.steps p := by
  cases s with
  | stuck name culprits =>
    rw [stuck_mem_steps_iff, stuck_mem_steps_iff, hg.type hp]
    refine exists₂_congr fun t f => and_congr_right fun ht => and_congr_right fun hf => ?_
    rw [hg.nextAt_eq hp ht hf]
  | descend name possible q =>
    rw [descend_mem_steps_iff, descend_mem_steps_iff, hg.type hp]
    refine exists₂_congr fun t f => and_congr_right fun ht => and_congr_right fun hf => ?_
    rw [hg.nextAt_eq hp ht hf, hg.mem_arrivals (hg.returns hp ht hf)]

/-- No step leads out of the types. -/
theorem inner_of_descend {p q : Position} (hp : inner p.type) {name : Name} {possible : Option Name}
    (h : .descend name possible q ∈ g.steps p) : inner q.type := by
  obtain ⟨t, f, ht, hf, _, hq⟩ := descend_mem_steps_iff.1 h
  exact hg.inner_of_mem_arrivals (hg.returns hp ht hf) hq

theorem mem_walk {ancestors : List Position} {path : Path} {p : Position} (hp : inner p.type)
    {x : Finding} : x ∈ g'.walk ancestors path p ↔ x ∈ g.walk ancestors path p :=
  mem_walk_iff_of_steps (S := fun p => inner p.type) (fun _ hp => hg.mem_steps hp)
    (fun _ hp _ _ _ => hg.inner_of_descend hp) ancestors path p hp x

/-- The subgraphs that are named by what a walk finds have the same names in both graphs. -/
theorem nameOf_culprit (ancestors : List Position) (path : Path) (p : Position) (hp : inner p.type)
    {x : Finding} (hx : x ∈ g.walk ancestors path p) :
    ∀ i ∈ x.culprits, g'.nameOf i = g.nameOf i := by
  induction ancestors, path, p using walk.induct g with
  | case1 ancestors path p hmem => exact absurd hmem (mem_walk_iff.1 hx).1
  | case2 ancestors path p _ ih =>
    obtain ⟨_, s, hs, hx⟩ := mem_walk_iff.1 hx
    cases s with
    | stuck name culprits =>
      obtain ⟨t, f, ht, hf, _, _, rfl⟩ := stuck_mem_steps_iff.1 hs
      simp only [report, List.mem_singleton] at hx
      subst hx
      exact fun i hi => hg.name hp ht hf hi
    | descend name possible q => exact ih name possible q hs (hg.inner_of_descend hp hs) hx

omit hg in
theorem namesOf_congr {s : SubgraphSet} (h : ∀ i ∈ s, g'.nameOf i = g.nameOf i) :
    g'.namesOf s = g.namesOf s := List.map_congr_left fun i hi => h i hi

/-- **The same is reported**: a root field that returns one of the types leads to the same reports
in both graphs, if the subgraphs that resolve it have the same names. -/
theorem mem_reports_iff {r : RootField} (hr : inner r.node.returns)
    (hnames : ∀ i ∈ r.node.resolvers, g'.nameOf i = g.nameOf i) {u : Unresolvable} :
    (∃ s ∈ g'.starts r, ∃ x ∈ g'.walk [] s.1 s.2, u = g'.unresolvable (g'.origin r) x) ↔
      ∃ s ∈ g.starts r, ∃ x ∈ g.walk [] s.1 s.2, u = g.unresolvable (g.origin r) x := by
  have hstarts : ∀ s, s ∈ g'.starts r ↔ s ∈ g.starts r := fun s => by
    simp only [starts, List.mem_map, hg.mem_arrivals hr]
  refine exists_congr fun s => ?_
  rw [hstarts]
  refine and_congr_right fun hs => exists_congr fun x => ?_
  obtain ⟨a, ha, rfl⟩ := List.mem_map.1 hs
  have hinner := hg.inner_of_mem_arrivals hr ha
  rw [hg.mem_walk hinner]
  refine and_congr_right fun hx => ?_
  have hculprits := namesOf_congr (hg.nameOf_culprit _ _ _ hinner hx)
  rw [unresolvable, unresolvable, origin, origin, namesOf_congr hnames, hculprits]

end Coincide

end Federation.Graph
