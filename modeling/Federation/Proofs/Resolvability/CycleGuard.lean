import Federation.Resolvability.Unresolvable
import Mathlib.Logic.Relation

/-!
# The cycle guard

The walk stops at a position that is on its own path.  `Graph.Descent` goes down without that
guard, along paths of any length: from a root field through every field that some subgraph in
reach resolves, into the object type of the field or into each possible type that is in reach.

Nothing is lost by the guard and nothing is made up (`unresolvables_iff_stuck_descent`).  A walk
reports the ends of descents (`exists_descent_of_mem_walk`).  Conversely, a descent that comes back
to a position can be shortened to what follows the last visit there
(`eq_or_exists_last_departure`), so a position that is reached at all is reached from below the
present one without coming back to it (`exists_mem_walk`).
-/

namespace Federation.Graph

variable {g : Graph}

/-! ### Descents without the guard -/

/-- The subgraphs that resolve a field of the type of a position there: those in reach that resolve
or provide it. -/
def nextAt (g : Graph) (p : Position) (node : TypeNode) (name : Name) (f : FieldNode) :
    SubgraphSet :=
  g.resolversAt node (g.reach node p.resolving) p.provided name f

/-- The positions that lie below a root field, with the ways to them, no matter whether a position
has been passed before. -/
inductive Descent (g : Graph) (r : RootField) : Path → Position → Prop
  /-- The positions at which a value of the root field arrives. -/
  | start {s : Path × Position} (hs : s ∈ g.starts r) : Descent g r s.1 s.2
  /-- The positions at which a value of a field arrives that some subgraph in reach resolves. -/
  | through {path : Path} {p q : Position} {node : TypeNode} {name : Name} {f : FieldNode}
      {possible : Option Name} (hp : Descent g r path p)
      (hnode : g.types.get? p.type = some node) (hf : node.fields.get? name = some f)
      (hnext : (g.nextAt p node name f).isEmpty = false)
      (hq : (possible, q) ∈ g.arrivals f.returns (g.nextAt p node name f)
        (providedBelow p.provided name f (g.nextAt p node name f))) :
      Descent g r ((path.field name).into possible) q

/-- A field that is resolved by some subgraphs, none of them in reach at a position. -/
def Stuck (g : Graph) (p : Position) (name : Name) : Prop :=
  ∃ node f, g.types.get? p.type = some node ∧ node.fields.get? name = some f ∧
    (g.nextAt p node name f).isEmpty = true ∧ f.resolvers.isEmpty = false

/-- What arrives is of an object type. -/
theorem object_of_mem_arrivals {returns : Name} {resolving : SubgraphSet}
    {provided : SubgraphMap FieldSet} {possible : Option Name} {q : Position}
    (h : (possible, q) ∈ g.arrivals returns resolving provided) :
    ∃ t, g.types.get? q.type = some t ∧ t.kind = .object := by
  obtain ⟨t, ht, ⟨hkind, h⟩ | ⟨_, h⟩⟩ := mem_arrivals_iff.1 h
  · cases h
    exact ⟨t, ht, hkind⟩
  · obtain ⟨o, s, ho, _, h⟩ := mem_possibleArrivals_iff.1 h
    cases h
    obtain ⟨node, hnode, hkind, _⟩ := mem_possibleTypes_iff.1 ho
    exact ⟨node, hnode, hkind⟩

/-- The positions of descents are of object types. -/
theorem Descent.object {r : RootField} {path : Path} {p : Position} (h : g.Descent r path p) :
    ∃ t, g.types.get? p.type = some t ∧ t.kind = .object := by
  cases h with
  | start hs =>
    obtain ⟨a, ha, rfl⟩ := List.mem_map.1 hs
    exact object_of_mem_arrivals ha
  | through _ _ _ _ hq => exact object_of_mem_arrivals hq

/-! ### What the steps of a position are -/

theorem mem_steps_iff {p : Position} {s : Step} :
    s ∈ g.steps p ↔ ∃ node name f, g.types.get? p.type = some node ∧
      node.fields.get? name = some f ∧
      s ∈ g.fieldSteps node (g.reach node p.resolving) p.provided name f := by
  unfold steps
  cases hnode : g.types.get? p.type with
  | none => simp
  | some node =>
    simp only [List.mem_flatMap]
    constructor
    · rintro ⟨⟨name, f⟩, hf, hs⟩
      exact ⟨node, name, f, rfl, Table.get?_eq_some_iff.2 hf, hs⟩
    · rintro ⟨_, name, f, hn, hf, hs⟩
      cases hn
      exact ⟨(name, f), Table.get?_eq_some_iff.1 hf, hs⟩

theorem descend_mem_steps_iff {p q : Position} {name : Name} {possible : Option Name} :
    .descend name possible q ∈ g.steps p ↔ ∃ node f, g.types.get? p.type = some node ∧
      node.fields.get? name = some f ∧ (g.nextAt p node name f).isEmpty = false ∧
      (possible, q) ∈ g.arrivals f.returns (g.nextAt p node name f)
        (providedBelow p.provided name f (g.nextAt p node name f)) := by
  rw [mem_steps_iff]
  constructor
  · rintro ⟨node, n, f, hnode, hf, hs⟩
    simp only [fieldSteps] at hs
    split at hs
    · split at hs <;> simp at hs
    · rename_i hnext
      obtain ⟨a, ha, h⟩ := List.mem_map.1 hs
      cases h
      exact ⟨node, f, hnode, hf, by simpa [nextAt] using hnext, ha⟩
  · rintro ⟨node, f, hnode, hf, hnext, hq⟩
    refine ⟨node, name, f, hnode, hf, ?_⟩
    simp only [nextAt] at hnext hq
    simp only [fieldSteps, hnext, Bool.false_eq_true, if_false]
    exact List.mem_map.2 ⟨(possible, q), hq, rfl⟩

theorem stuck_mem_steps_iff {p : Position} {name : Name} {culprits : SubgraphSet} :
    .stuck name culprits ∈ g.steps p ↔ ∃ node f, g.types.get? p.type = some node ∧
      node.fields.get? name = some f ∧ (g.nextAt p node name f).isEmpty = true ∧
      f.resolvers.isEmpty = false ∧ culprits = f.resolvers := by
  rw [mem_steps_iff]
  constructor
  · rintro ⟨node, n, f, hnode, hf, hs⟩
    simp only [fieldSteps] at hs
    split at hs
    · rename_i hnext
      split at hs
      · simp at hs
      · rename_i hr
        simp only [List.mem_singleton, Step.stuck.injEq] at hs
        obtain ⟨rfl, rfl⟩ := hs
        exact ⟨node, f, hnode, hf, hnext, by simpa using hr, rfl⟩
    · simp at hs
  · rintro ⟨node, f, hnode, hf, hnext, hr, rfl⟩
    refine ⟨node, name, f, hnode, hf, ?_⟩
    simp only [nextAt] at hnext
    simp only [fieldSteps, hnext, hr, if_true, Bool.false_eq_true, if_false, List.mem_singleton]

/-- A field is stuck at a position exactly when that is one of its steps. -/
theorem stuck_iff {p : Position} {name : Name} :
    g.Stuck p name ↔ ∃ culprits, .stuck name culprits ∈ g.steps p := by
  simp only [stuck_mem_steps_iff]
  constructor
  · rintro ⟨node, f, hnode, hf, hnext, hr⟩
    exact ⟨_, node, f, hnode, hf, hnext, hr, rfl⟩
  · rintro ⟨_, node, f, hnode, hf, hnext, hr, _⟩
    exact ⟨node, f, hnode, hf, hnext, hr⟩

/-! ### A walk reports ends of descents -/

theorem mem_walk_iff {ancestors : List Position} {path : Path} {p : Position} {x : Finding} :
    x ∈ g.walk ancestors path p ↔
      p ∉ ancestors ∧ ∃ s ∈ g.steps p, x ∈ report path p.type (g.walk (p :: ancestors)) s := by
  rw [walk_eq]
  split
  · rename_i hp
    simp [hp]
  · rename_i hp
    simp [hp]

/-- Graphs with the same steps at the positions of a set that no step leaves have the same
findings there. -/
theorem mem_walk_iff_of_steps {g' : Graph} {S : Position → Prop}
    (hsteps : ∀ p, S p → ∀ s, s ∈ g'.steps p ↔ s ∈ g.steps p)
    (hclosed : ∀ p, S p → ∀ name possible q, .descend name possible q ∈ g.steps p → S q)
    (ancestors : List Position) (path : Path) (p : Position) (hp : S p) (x : Finding) :
    x ∈ g'.walk ancestors path p ↔ x ∈ g.walk ancestors path p := by
  induction ancestors, path, p using walk.induct g with
  | case1 ancestors path p hmem => rw [mem_walk_iff, mem_walk_iff]; simp [hmem]
  | case2 ancestors path p _ ih =>
    rw [mem_walk_iff, mem_walk_iff]
    refine and_congr_right fun _ => exists_congr fun s => ?_
    rw [hsteps p hp s]
    refine and_congr_right fun hs => ?_
    cases s with
    | stuck name culprits => rw [report, report]
    | descend name possible q =>
      rw [report, report]
      exact ih name possible q hs (hclosed p hp name possible q hs)

/-- A descent goes on with every step that leads to another position. -/
theorem Descent.step {r : RootField} {path : Path} {p q : Position} {name : Name}
    {possible : Option Name} (hp : g.Descent r path p)
    (h : .descend name possible q ∈ g.steps p) :
    g.Descent r ((path.field name).into possible) q := by
  obtain ⟨node, f, hnode, hf, hnext, hq⟩ := descend_mem_steps_iff.1 h
  exact hp.through hnode hf hnext hq

/-- **Soundness**: what a walk reports is stuck at the end of a descent. -/
theorem exists_descent_of_mem_walk {r : RootField} (ancestors : List Position) (path : Path)
    (p : Position) {x : Finding} (hp : g.Descent r path p) (hx : x ∈ g.walk ancestors path p) :
    ∃ path' q, g.Descent r path' q ∧ q.type = x.type ∧ .stuck x.field x.culprits ∈ g.steps q ∧
      x.path = path'.field x.field := by
  induction ancestors, path, p using walk.induct g with
  | case1 ancestors path p hmem => exact absurd hmem (mem_walk_iff.1 hx).1
  | case2 ancestors path p hmem ih =>
    obtain ⟨_, s, hs, hx⟩ := mem_walk_iff.1 hx
    cases s with
    | stuck name culprits =>
      simp only [report, List.mem_singleton] at hx
      subst hx
      exact ⟨path, p, hp, rfl, hs, rfl⟩
    | descend name possible q => exact ih name possible q hs (hp.step hs) hx

/-! ### A walk reports every stuck end -/

/-- What is reached from `a` is `a` itself, or is reached from a place that follows the last visit
to `a`, without coming back to it. -/
theorem eq_or_exists_last_departure {α : Type} {R : α → α → Prop} {a c : α}
    (h : Relation.ReflTransGen R a c) :
    c = a ∨ ∃ b, R a b ∧ b ≠ a ∧ Relation.ReflTransGen (fun x y => R x y ∧ y ≠ a) b c := by
  induction h with
  | refl => exact .inl rfl
  | @tail b c _ hbc ih =>
    by_cases hc : c = a
    · exact .inl hc
    · right
      rcases ih with rfl | ⟨d, had, hd, hdb⟩
      · exact ⟨c, hbc, hc, .refl⟩
      · exact ⟨d, had, hd, hdb.tail ⟨hbc, hc⟩⟩

/-- A step to a position that is not among some others. -/
def Onward (g : Graph) (ancestors : List Position) (p q : Position) : Prop :=
  (∃ name possible, .descend name possible q ∈ g.steps p) ∧ q ∉ ancestors

/-- **Completeness**: whatever is stuck at a position that is reached without passing an ancestor
is reported there. -/
theorem exists_mem_walk {name : Name} {culprits : SubgraphSet} {q : Position} {r : RootField}
    (hs : .stuck name culprits ∈ g.steps q) (ancestors : List Position) (path : Path)
    (p : Position) (hp : p ∉ ancestors) (hd : g.Descent r path p)
    (h : Relation.ReflTransGen (g.Onward ancestors) p q) :
    ∃ path', g.Descent r path' q ∧
      ⟨path'.field name, q.type, name, culprits⟩ ∈ g.walk ancestors path p := by
  induction ancestors, path, p using walk.induct g with
  | case1 ancestors path p hmem => exact absurd hmem hp
  | case2 ancestors path p _ ih =>
    rcases eq_or_exists_last_departure h with rfl | ⟨a, ⟨⟨n, possible, hstep⟩, ha⟩, hne, hrest⟩
    · exact ⟨path, hd, mem_walk_iff.2 ⟨hp, _, hs, by simp [report]⟩⟩
    · -- Below the next position, this one is an ancestor that the rest of the way avoids.
      have hanc : a ∉ p :: ancestors := by simp [hne, ha]
      have hrest' : Relation.ReflTransGen (g.Onward (p :: ancestors)) a q := by
        refine Relation.ReflTransGen.mono (fun x y hxy => ?_) _ _ hrest
        obtain ⟨⟨hxy, hy⟩, hyp⟩ := hxy
        exact ⟨hxy, by simp [hyp, hy]⟩
      obtain ⟨path', hq, hx⟩ := ih n possible a hstep hanc (hd.step hstep) hrest'
      exact ⟨path', hq, mem_walk_iff.2 ⟨hp, _, hstep, hx⟩⟩

/-- A descent is a start of its root field with steps that lead on from there. -/
theorem Descent.exists_start {r : RootField} {path : Path} {q : Position}
    (h : g.Descent r path q) :
    ∃ s ∈ g.starts r, Relation.ReflTransGen (g.Onward []) s.2 q := by
  induction h with
  | start hs => exact ⟨_, hs, .refl⟩
  | through _ hnode hf hnext hq ih =>
    obtain ⟨s, hs, hsp⟩ := ih
    have hstep := descend_mem_steps_iff.2 ⟨_, _, hnode, hf, hnext, hq⟩
    exact ⟨s, hs, hsp.tail ⟨⟨_, _, hstep⟩, List.not_mem_nil⟩⟩

/-! ### Reports and descents -/

theorem mem_unresolvables_iff {u : Unresolvable} :
    u ∈ g.unresolvables ↔ ∃ r ∈ g.rootFields, ∃ s ∈ g.starts r, ∃ x ∈ g.walk [] s.1 s.2,
      u = g.unresolvable (g.origin r) x := by
  simp only [unresolvables, findings, List.mem_flatMap, List.mem_map]
  constructor
  · rintro ⟨r, hr, x, ⟨s, hs, hx⟩, rfl⟩
    exact ⟨r, hr, s, hs, x, hx, rfl⟩
  · rintro ⟨r, hr, s, hs, x, hx, rfl⟩
    exact ⟨r, hr, x, ⟨s, hs, hx⟩, rfl⟩

theorem exists_descent_of_mem_unresolvables {u : Unresolvable} (hu : u ∈ g.unresolvables) :
    ∃ r ∈ g.rootFields, ∃ path p, g.Descent r path p ∧ p.type = u.type ∧ g.Stuck p u.field ∧
      u.root = g.origin r ∧ u.path = (path.field u.field).render := by
  obtain ⟨r, hr, s, hs, x, hx, rfl⟩ := mem_unresolvables_iff.1 hu
  obtain ⟨path, p, hp, hpt, hstep, hpath⟩ := exists_descent_of_mem_walk [] s.1 s.2 (.start hs) hx
  exact ⟨r, hr, path, p, hp, hpt, stuck_iff.2 ⟨_, hstep⟩, rfl, congrArg Path.render hpath⟩

theorem exists_mem_unresolvables {r : RootField} (hr : r ∈ g.rootFields) {path : Path}
    {p : Position} (hp : g.Descent r path p) {name : Name} (hstuck : g.Stuck p name) :
    ∃ u ∈ g.unresolvables, u.type = p.type ∧ u.field = name := by
  obtain ⟨s, hs, hsp⟩ := hp.exists_start
  obtain ⟨culprits, hstep⟩ := stuck_iff.1 hstuck
  obtain ⟨_, _, hx⟩ := exists_mem_walk hstep [] s.1 s.2 List.not_mem_nil (.start hs) hsp
  exact ⟨_, mem_unresolvables_iff.2 ⟨r, hr, s, hs, _, hx, rfl⟩, rfl, rfl⟩

section Simulation

variable {g' : Graph} {S : Position → Position → Prop}
  (hstart : ∀ r ∈ g.rootFields, ∃ r' ∈ g'.rootFields, ∀ s ∈ g.starts r,
    ∃ s' ∈ g'.starts r', S s.2 s'.2)
  (hstep : ∀ p q n o p₁, S p q → .descend n o p₁ ∈ g.steps p →
    ∃ q₁, .descend n o q₁ ∈ g'.steps q ∧ S p₁ q₁)

include hstart hstep

/-- Where each start of one walk has a counterpart in another, and each step from there, each
descent has a counterpart.  It may go another way, as long as it leads to a counterpart. -/
theorem Descent.exists_of_simulation {r : RootField} (hr : r ∈ g.rootFields) {path : Path}
    {p : Position} (hp : g.Descent r path p) :
    ∃ r' ∈ g'.rootFields, ∃ path' q, g'.Descent r' path' q ∧ S p q := by
  obtain ⟨r', hr', hstarts⟩ := hstart r hr
  refine ⟨r', hr', ?_⟩
  induction hp with
  | start hs =>
    obtain ⟨s', hs', hS⟩ := hstarts _ hs
    exact ⟨s'.1, s'.2, .start hs', hS⟩
  | through _ hnode hf hnext hq ih =>
    obtain ⟨path', q, hq', hS⟩ := ih
    obtain ⟨q₁, hq₁, hS₁⟩ :=
      hstep _ _ _ _ _ hS (descend_mem_steps_iff.2 ⟨_, _, hnode, hf, hnext, hq⟩)
    exact ⟨_, q₁, hq'.step hq₁, hS₁⟩

/-- If moreover the same fields are stuck at counterparts, what the first walk reports the second
one reports too. -/
theorem exists_reported_of_simulation (htype : ∀ p q, S p q → q.type = p.type)
    (hstuck : ∀ p q n, S p q → g.Stuck p n → g'.Stuck q n) {type field : Name}
    (h : ∃ u ∈ g.unresolvables, u.type = type ∧ u.field = field) :
    ∃ u ∈ g'.unresolvables, u.type = type ∧ u.field = field := by
  obtain ⟨u, hu, rfl, rfl⟩ := h
  obtain ⟨r, hr, path, p, hp, hpt, hs, -⟩ := exists_descent_of_mem_unresolvables hu
  obtain ⟨r', hr', path', q, hq, hS⟩ := hp.exists_of_simulation hstart hstep hr
  obtain ⟨u', hu', htype', hfield⟩ := exists_mem_unresolvables hr' hq (hstuck p q u.field hS hs)
  exact ⟨u', hu', htype'.trans ((htype p q hS).trans hpt), hfield⟩

end Simulation

/-- **The guard loses nothing and makes nothing up**: a field of a type is reported exactly when
some descent, of any length, ends at a position of the type where the field is stuck; every report
carries its root field and the written way of such a descent; and nothing is reported exactly when
no descent ends at a position where a field is stuck. -/
theorem unresolvables_iff_stuck_descent (g : Graph) :
    (∀ type field, (∃ u ∈ g.unresolvables, u.type = type ∧ u.field = field) ↔
      ∃ r ∈ g.rootFields, ∃ path p, g.Descent r path p ∧ p.type = type ∧ g.Stuck p field) ∧
    (∀ u ∈ g.unresolvables, ∃ r ∈ g.rootFields, ∃ path p, g.Descent r path p ∧
      p.type = u.type ∧ g.Stuck p u.field ∧ u.root = g.origin r ∧
      u.path = (path.field u.field).render) ∧
    (g.unresolvables = [] ↔ ∀ r ∈ g.rootFields, ∀ path p, g.Descent r path p →
      ∀ field, ¬ g.Stuck p field) := by
  refine ⟨fun type field => ⟨?_, ?_⟩, fun u hu => exists_descent_of_mem_unresolvables hu, ?_, ?_⟩
  · rintro ⟨u, hu, rfl, rfl⟩
    obtain ⟨r, hr, path, p, hp, hpt, hstuck, _⟩ := exists_descent_of_mem_unresolvables hu
    exact ⟨r, hr, path, p, hp, hpt, hstuck⟩
  · rintro ⟨r, hr, path, p, hp, rfl, hstuck⟩
    exact exists_mem_unresolvables hr hp hstuck
  · intro hnil r hr path p hp field hstuck
    obtain ⟨u, hu, _⟩ := exists_mem_unresolvables hr hp hstuck
    rw [hnil] at hu
    exact absurd hu List.not_mem_nil
  · intro h
    rw [List.eq_nil_iff_forall_not_mem]
    intro u hu
    obtain ⟨r, hr, path, p, hp, _, hstuck, _⟩ := exists_descent_of_mem_unresolvables hu
    exact h r hr path p hp u.field hstuck

end Federation.Graph
