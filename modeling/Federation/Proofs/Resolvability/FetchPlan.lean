import Federation.Proofs.Graph.ConflictFree
import Federation.Proofs.Resolvability.CycleGuard
import Mathlib.Tactic.ByContra
import Mathlib.Tactic.Tauto

/-!
# Fetch plans

What the walk accepts at a position should be there to fetch.  A fetch plan starts in the subgraphs
that resolve the position; it obtains a field from a subgraph it has entered, once the `@requires`
of that subgraph on the field has been obtained, or because the subgraph provides the field; and it
enters a subgraph once the fields of one of its keys have been obtained (`Graph.Planned`).

The walk is laxer.  `Graph.canResolve` judges the fields that a key or a `@requires` selects by
who resolves them, and does not look at what those subgraphs require in turn
(`canResolve_iff`).  So two things can be accepted that wait for each other: a subgraph that
is entered with a field, and a `@requires` of that field which only this subgraph can serve.  A
`Graph.Circle` is such a set of subgraphs and fields.  Where nothing is reported, the fields of a
position have fetch plans exactly when it has no circle (`planned_iff_not_circle`).
-/

namespace Federation.Graph

/-! ### Selections on the type itself -/

section Selections

variable (g : Graph) (type : Name) (node : TypeNode) (available : SubgraphSet)

/-- Whether a fragment stays on a type: its condition, if it has one, names no other type of the
graph. -/
def staysOn (condition : Option Name) : Bool :=
  condition.all fun n => n = type || (g.types.get? n).isNone

/-- The fields that a selection makes on the type itself. -/
def ownFields : FieldSet → List Name
  | .empty => []
  | .field n _ rest => n :: ownFields rest
  | .fragment c sub rest => (if g.staysOn type c then ownFields sub else []) ++ ownFields rest

/-- Whether some available subgraphs can resolve what is selected on a type, apart from the fields
on the type itself: the selections below those fields, and the fragments on other types. -/
def readsBelow : FieldSet → Bool
  | .empty => true
  | .field n sub rest =>
    (sub.isEmpty ||
      match node.fields.get? n with
      | none => false
      | some f =>
        let resolving := f.resolvers.inter available
        !resolving.isEmpty &&
          match g.types.get? f.returns with
          | none => false
          | some child => g.canResolve resolving child sub) && readsBelow rest
  | .fragment c sub rest =>
    (if g.staysOn type c then readsBelow sub
      else g.canResolve available ((c.bind g.types.get?).getD node) sub) && readsBelow rest

end Selections

variable {g : Graph} {p : Position} {node : TypeNode}

theorem target_of_staysOn {type : Name} {c : Option Name} (hnode : g.types.get? type = some node)
    (hc : g.staysOn type c = true) : (c.bind g.types.get?).getD node = node := by
  cases c with
  | none => rfl
  | some n =>
    simp only [staysOn, Option.all_some, Bool.or_eq_true, decide_eq_true_eq,
      Option.isNone_iff_eq_none] at hc
    rcases hc with rfl | hn
    · simp [hnode]
    · simp [hn]

/-- A selection can be resolved when each field on the type itself has an available resolver, no
matter what that one requires, and when the rest can be resolved. -/
theorem canResolve_iff {type : Name} (hnode : g.types.get? type = some node)
    {available : SubgraphSet} {F : FieldSet} :
    g.canResolve available node F = true ↔
      (∀ n ∈ g.ownFields type F, ∃ f, node.fields.get? n = some f ∧
        ∃ i ∈ available, i ∈ f.resolvers) ∧
      g.readsBelow type node available F = true := by
  induction F with
  | empty => simp [canResolve, ownFields, readsBelow]
  | field n sub rest _ ih =>
    rw [canResolve, ownFields, readsBelow, Bool.and_eq_true, Bool.and_eq_true, ih]
    cases hf : node.fields.get? n with
    | none => simp [hf]
    | some f =>
      have hex : (∃ i ∈ available, i ∈ f.resolvers) ↔
          (f.resolvers.inter available).isEmpty = false := by
        rw [SubgraphSet.isEmpty_eq_false_iff]
        simp only [SubgraphSet.mem_inter, and_comm]
      simp only [List.forall_mem_cons, hf, Option.some.injEq, exists_eq_left', hex,
        Bool.and_eq_true, Bool.or_eq_true, Bool.not_eq_true']
      tauto
  | fragment c sub rest ihs ihr =>
    rw [canResolve, ownFields, readsBelow, Bool.and_eq_true, Bool.and_eq_true, ihr]
    -- A fragment that stays on the type asks for fields of the type itself; any other one asks for
    -- fields of another type, which is left to `readsBelow`.
    by_cases hc : g.staysOn type c = true
    · rw [target_of_staysOn hnode hc, ihs]
      simp only [hc, if_true, List.forall_mem_append]
      tauto
    · simp only [hc, Bool.false_eq_true, if_false, List.nil_append]
      tauto

/-! ### Plans -/

/-- What a fetch plan gets done at a position. -/
inductive Milestone where
  /-- A subgraph can be asked. -/
  | entered (subgraph : SubgraphId)
  /-- A field is there. -/
  | obtained (field : Name)

/-- What can be fetched at a position of a type, one thing after another. -/
inductive Planned (g : Graph) (p : Position) (node : TypeNode) : Milestone → Prop
  /-- The subgraphs that resolve the position are there from the start. -/
  | resolving {i : SubgraphId} (hi : i ∈ p.resolving) : Planned g p node (.entered i)
  /-- A subgraph is entered with the fields of one of its keys, what is selected below them being
  read by subgraphs that have been entered. -/
  | key {i : SubgraphId} {k : EntityKey} {asked : SubgraphSet}
      (hk : (i, k) ∈ node.resolvableKeys)
      (hown : ∀ n ∈ g.ownFields p.type k.fields, Planned g p node (.obtained n))
      (hasked : ∀ j ∈ asked, Planned g p node (.entered j))
      (hbelow : g.readsBelow p.type node asked k.fields = true) : Planned g p node (.entered i)
  /-- An entered subgraph gives a field that it resolves without a requirement. -/
  | resolved {n : Name} {f : FieldNode} {i : SubgraphId} (hf : node.fields.get? n = some f)
      (hi : i ∈ f.resolvers) (hentered : Planned g p node (.entered i))
      (hreq : f.requires.get? i = none) : Planned g p node (.obtained n)
  /-- An entered subgraph gives a field that it resolves once it has what it requires. -/
  | required {n : Name} {f : FieldNode} {i : SubgraphId} {F : FieldSet} {asked : SubgraphSet}
      (hf : node.fields.get? n = some f) (hi : i ∈ f.resolvers)
      (hentered : Planned g p node (.entered i)) (hreq : f.requires.get? i = some F)
      (hown : ∀ m ∈ g.ownFields p.type F, Planned g p node (.obtained m))
      (hasked : ∀ j ∈ asked, Planned g p node (.entered j))
      (hbelow : g.readsBelow p.type node asked F = true) : Planned g p node (.obtained n)
  /-- An entered subgraph gives a field that it provides at the position. -/
  | provided {n : Name} {f : FieldNode} {i : SubgraphId} {F : FieldSet}
      (hf : node.fields.get? n = some f) (hentered : Planned g p node (.entered i))
      (hprov : p.provided.get? i = some F) (hn : n ∈ F.fieldNames) :
      Planned g p node (.obtained n)

/-! ### Circles -/

/-- A selection that cannot be had without one of some milestones: it selects such a field, or only
such subgraphs can read what is below its fields. -/
def Awaits (g : Graph) (p : Position) (node : TypeNode) (C : Milestone → Prop) (F : FieldSet) :
    Prop :=
  (∃ n ∈ g.ownFields p.type F, C (.obtained n)) ∨
    ∀ asked : SubgraphSet, (∀ i ∈ asked, ¬ C (.entered i)) →
      g.readsBelow p.type node asked F = false

/-- It does not wait if it selects no such field and some other subgraphs can read the rest. -/
theorem not_awaits_iff {C : Milestone → Prop} {F : FieldSet} : ¬ g.Awaits p node C F ↔
    (∀ n ∈ g.ownFields p.type F, ¬ C (.obtained n)) ∧
      ∃ asked : SubgraphSet, (∀ i ∈ asked, ¬ C (.entered i)) ∧
        g.readsBelow p.type node asked F = true := by
  simp only [Awaits, not_or, not_exists, not_and, not_forall, Bool.not_eq_false, exists_prop]

/-- A field that some key of a type or some `@requires` on it selects on the type itself. -/
def IsSelected (g : Graph) (p : Position) (node : TypeNode) (n : Name) : Prop :=
  (∃ e ∈ node.resolvableKeys, n ∈ g.ownFields p.type e.2.fields) ∨
    ∃ m f i F, node.fields.get? m = some f ∧ f.requires.get? i = some F ∧
      n ∈ g.ownFields p.type F

/-- Milestones at a position that wait for one another: every way to one of them leads through
another one. -/
structure Circle (g : Graph) (p : Position) (node : TypeNode) (C : Milestone → Prop) : Prop where
  /-- Its subgraphs do not resolve the position. -/
  late : ∀ i, C (.entered i) → i ∉ p.resolving
  /-- Every key of its subgraphs waits for the circle. -/
  key : ∀ i, C (.entered i) → ∀ k, (i, k) ∈ node.resolvableKeys → g.Awaits p node C k.fields
  /-- Whoever resolves one of its fields belongs to it, or requires what waits for it. -/
  resolver : ∀ n, C (.obtained n) → ∀ f, node.fields.get? n = some f → ∀ i ∈ f.resolvers,
    C (.entered i) ∨ ∃ F, f.requires.get? i = some F ∧ g.Awaits p node C F
  /-- Whoever provides one of its fields belongs to it. -/
  provider : ∀ n, C (.obtained n) → ∀ f, node.fields.get? n = some f → ∀ i F,
    p.provided.get? i = some F → n ∈ F.fieldNames → C (.entered i)
  /-- It passes through a field that is selected by a key or a `@requires`, and for which a
  subgraph in reach outside of the circle requires something. -/
  skipped : ∃ n f i F, C (.obtained n) ∧ g.IsSelected p node n ∧ node.fields.get? n = some f ∧
    i ∈ g.reach node p.resolving ∧ ¬ C (.entered i) ∧ i ∈ f.resolvers ∧
    f.requires.get? i = some F

/-- A plan never gets to a milestone of a circle. -/
theorem Circle.not_of_planned {C : Milestone → Prop} (hC : g.Circle p node C) {m : Milestone}
    (hm : g.Planned p node m) : ¬ C m := by
  -- The induction is on the plan: what comes first in it cannot wait for the circle.
  induction hm with
  | resolving hi => exact fun h => hC.late _ h hi
  | key hk _ _ hbelow ihown ihasked =>
    exact fun h => not_awaits_iff.2 ⟨ihown, _, ihasked, hbelow⟩ (hC.key _ h _ hk)
  | resolved hf hi _ hreq ih =>
    intro h
    rcases hC.resolver _ h _ hf _ hi with hCi | ⟨F, hF, _⟩
    · exact ih hCi
    · rw [hreq] at hF
      exact absurd hF (by simp)
  | required hf hi _ hreq _ _ hbelow ih ihown ihasked =>
    intro h
    rcases hC.resolver _ h _ hf _ hi with hCi | ⟨F, hF, hwait⟩
    · exact ih hCi
    · rw [hreq] at hF
      cases hF
      exact not_awaits_iff.2 ⟨ihown, _, ihasked, hbelow⟩ hwait
  | provided hf _ hprov hn ih => exact fun h => ih (hC.provider _ h _ hf _ _ hprov hn)

/-! ### What is accepted without a plan -/

/-- If some subgraph is reached without a plan, then some round of entering subgraphs starts from
planned ones and enters an unplanned one. -/
theorem exists_unplanned_enterable {reached : SubgraphSet}
    (hreached : ∀ i ∈ reached, g.Planned p node (.entered i))
    (h : ∃ i ∈ g.reach node reached, ¬ g.Planned p node (.entered i)) :
    ∃ asked : SubgraphSet, (∀ i ∈ asked, g.Planned p node (.entered i)) ∧
      (∀ i ∈ asked, i ∈ g.reach node reached) ∧
      ∃ i ∈ g.enterable node asked, ¬ g.Planned p node (.entered i) := by
  induction reached using reach.induct g node with
  | case1 reached hend =>
    obtain ⟨i, hi, hnot⟩ := h
    rw [reach, if_pos hend] at hi
    exact absurd (hreached i hi) hnot
  | case2 reached hend ih =>
    by_cases hall : ∀ i ∈ g.enterable node reached, g.Planned p node (.entered i)
    · -- The round adds planned subgraphs only, and a later one is to blame.
      have hunion : ∀ i ∈ reached.union (g.enterable node reached),
          g.Planned p node (.entered i) :=
        fun i hi => (SubgraphSet.mem_union.1 hi).elim (hreached i) (hall i)
      rw [reach, if_neg hend] at h ⊢
      exact ih hunion h
    · simp only [not_forall] at hall
      obtain ⟨i, hi, hnot⟩ := hall
      exact ⟨reached, hreached, fun j hj => subset_reach hj, i, hi, hnot⟩

/-- Where a selection can be resolved by planned subgraphs and still waits for something unplanned,
it selects a field on the type for which a planned subgraph requires something. -/
theorem exists_skipped_of_canResolve (hnode : g.types.get? p.type = some node)
    {asked : SubgraphSet} (hasked : ∀ i ∈ asked, g.Planned p node (.entered i)) {F : FieldSet}
    (hcan : g.canResolve asked node F = true)
    (hwait : ¬ ∀ n ∈ g.ownFields p.type F, g.Planned p node (.obtained n)) :
    ∃ n f i G, n ∈ g.ownFields p.type F ∧ ¬ g.Planned p node (.obtained n) ∧
      node.fields.get? n = some f ∧ i ∈ asked ∧ i ∈ f.resolvers ∧
      f.requires.get? i = some G := by
  simp only [not_forall] at hwait
  obtain ⟨n, hn, hnot⟩ := hwait
  obtain ⟨f, hf, i, hi, hif⟩ := ((canResolve_iff hnode).1 hcan).1 n hn
  cases hreq : f.requires.get? i with
  | none => exact absurd (.resolved hf hif (hasked i hi) hreq) hnot
  | some G => exact ⟨n, f, i, G, hn, hnot, hf, hi, hif, hreq⟩

/-- A field that is accepted and has no plan comes with a field that is selected by a key or a
`@requires`, and whose own `@requires` was not looked at. -/
theorem exists_skipped (hnode : g.types.get? p.type = some node) {n : Name} {f : FieldNode}
    (hf : node.fields.get? n = some f) (hnext : (g.nextAt p node n f).isEmpty = false)
    (hnot : ¬ g.Planned p node (.obtained n)) :
    ∃ m f i F, ¬ g.Planned p node (.obtained m) ∧ g.IsSelected p node m ∧
      node.fields.get? m = some f ∧ i ∈ g.reach node p.resolving ∧
      g.Planned p node (.entered i) ∧ i ∈ f.resolvers ∧ f.requires.get? i = some F := by
  by_cases hall : ∀ i ∈ g.reach node p.resolving, g.Planned p node (.entered i)
  · -- All subgraphs in reach have plans, so the field waits for what is required for it.
    obtain ⟨i, hi⟩ := SubgraphSet.isEmpty_eq_false_iff.1 hnext
    obtain ⟨hreach, hi⟩ := SubgraphSet.mem_filter.1 hi
    simp only [Bool.or_eq_true, Bool.and_eq_true, decide_eq_true_eq] at hi
    rcases hi with ⟨hif, hreq⟩ | ⟨_, hprov⟩
    · cases hF : f.requires.get? i with
      | none => exact absurd (.resolved hf hif (hall i hreach) hF) hnot
      | some F =>
        rw [hF] at hreq
        have hwait : ¬ ∀ m ∈ g.ownFields p.type F, g.Planned p node (.obtained m) := fun hown =>
          hnot (.required hf hif (hall i hreach) hF hown hall ((canResolve_iff hnode).1 hreq).2)
        obtain ⟨m, fm, j, G, hm, hmnot, hfm, hj, hjf, hG⟩ :=
          exists_skipped_of_canResolve hnode hall hreq hwait
        exact ⟨m, fm, j, G, hmnot, .inr ⟨n, f, i, F, hf, hF, hm⟩, hfm, hj, hall j hj, hjf, hG⟩
    · cases hF : p.provided.get? i with
      | none => simp [hF] at hprov
      | some F =>
        simp only [hF, Option.any_some, List.contains_eq_mem, decide_eq_true_eq] at hprov
        exact absurd (.provided hf (hall i hreach) hF hprov) hnot
  · simp only [not_forall, exists_prop] at hall
    obtain ⟨asked, hasked, hsub, i, hi, hinot⟩ :=
      exists_unplanned_enterable (fun i hi => .resolving hi) hall
    obtain ⟨_, k, hk, hcan⟩ := mem_enterable_iff.1 hi
    have hwait : ¬ ∀ m ∈ g.ownFields p.type k.fields, g.Planned p node (.obtained m) := fun hown =>
      hinot (.key hk hown hasked ((canResolve_iff hnode).1 hcan).2)
    obtain ⟨m, fm, j, G, hm, hmnot, hfm, hj, hjf, hG⟩ :=
      exists_skipped_of_canResolve hnode hasked hcan hwait
    exact ⟨m, fm, j, G, hmnot, .inl ⟨(i, k), hk, hm⟩, hfm, hsub j hj, hasked j hj, hjf, hG⟩

/-- Without the milestones that have a plan, what is left is a circle, if an accepted field is
left. -/
theorem circle_of_not_planned (hnode : g.types.get? p.type = some node) {n : Name} {f : FieldNode}
    (hf : node.fields.get? n = some f) (hnext : (g.nextAt p node n f).isEmpty = false)
    (hnot : ¬ g.Planned p node (.obtained n)) :
    g.Circle p node fun m => ¬ g.Planned p node m where
  late i hi hres := hi (.resolving hres)
  -- If nothing that the key or the required selection awaits were missing, a rule of `Planned`
  -- would apply.
  key i hi k hk := by
    by_contra hwait
    obtain ⟨hown, asked, hasked, hbelow⟩ := not_awaits_iff.1 hwait
    exact hi (.key hk (fun n hn => not_not.1 (hown n hn)) (fun j hj => not_not.1 (hasked j hj))
      hbelow)
  resolver m hm fm hfm i hi := by
    by_cases hent : g.Planned p node (.entered i)
    · right
      cases hreq : fm.requires.get? i with
      | none => exact absurd (.resolved hfm hi hent hreq) hm
      | some F =>
        refine ⟨F, rfl, ?_⟩
        by_contra hwait
        obtain ⟨hown, asked, hasked, hbelow⟩ := not_awaits_iff.1 hwait
        exact hm (.required hfm hi hent hreq (fun n hn => not_not.1 (hown n hn))
          (fun j hj => not_not.1 (hasked j hj)) hbelow)
    · exact .inl hent
  provider m hm fm hfm i F hF hmF hent := hm (.provided hfm hent hF hmF)
  skipped := by
    obtain ⟨m, fm, i, F, hm, hsel, hfm, hi, hent, hif, hF⟩ := exists_skipped hnode hf hnext hnot
    exact ⟨m, fm, i, F, hm, hsel, hfm, hi, not_not.2 hent, hif, hF⟩

/-! ### Accepted graphs -/

/-- Where nothing is reported, every field of a visited position is resolved there. -/
theorem nextAt_of_unresolvables_eq_nil (hbase : g.baseConflicts = [])
    (hnil : g.unresolvables = []) {r : RootField} (hr : r ∈ g.rootFields) {path : Path}
    (hp : g.Descent r path p) (hnode : g.types.get? p.type = some node) {n : Name} {f : FieldNode}
    (hf : node.fields.get? n = some f) : (g.nextAt p node n f).isEmpty = false := by
  by_contra hnext
  obtain ⟨t, ht, hobject⟩ := hp.object
  have hkind : node.kind = .object := by
    rw [hnode] at ht
    cases ht
    exact hobject
  have hres := baseConflicts_eq_nil_iff.1 hbase _ _ hnode _ _ hf hkind
  obtain ⟨u, hu, _⟩ := exists_mem_unresolvables hr hp
    ⟨node, f, hnode, hf, by simpa using hnext, hres⟩
  rw [hnil] at hu
  exact absurd hu List.not_mem_nil

/-- A circle needs requirements that follow on each other: where no field that a key or a
`@requires` selects is required anything for, whatever is accepted can be fetched. -/
theorem planned_of_plain_selections (hbase : g.baseConflicts = []) (hnil : g.unresolvables = [])
    {r : RootField} (hr : r ∈ g.rootFields) {path : Path} (hp : g.Descent r path p)
    (hnode : g.types.get? p.type = some node)
    (hplain : ∀ n, g.IsSelected p node n → ∀ f, node.fields.get? n = some f →
      ∀ i ∈ f.resolvers, f.requires.get? i = none) {n : Name} {f : FieldNode}
    (hf : node.fields.get? n = some f) : g.Planned p node (.obtained n) := by
  by_contra hnot
  have hnext := nextAt_of_unresolvables_eq_nil hbase hnil hr hp hnode hf
  obtain ⟨m, fm, i, F, _, hsel, hfm, _, _, hi, hF⟩ :=
    (circle_of_not_planned hnode hf hnext hnot).skipped
  rw [hplain m hsel fm hfm i hi] at hF
  exact absurd hF (by simp)

/-- **What acceptance is worth**: in a graph that is merged without conflicts, and of which the walk
reports nothing, the fields of a visited position all have fetch plans exactly when there is no
circle at it, that is, unless keys and requirements wait for each other through a field whose own
requirement the walk did not look at. -/
theorem planned_iff_not_circle {contributions : List Schema} (hc : conflicts contributions = [])
    (hnil : (ofSchemas contributions).unresolvables = []) {r : RootField}
    (hr : r ∈ (ofSchemas contributions).rootFields) {path : Path} {p : Position}
    (hp : (ofSchemas contributions).Descent r path p) {node : TypeNode}
    (hnode : (ofSchemas contributions).types.get? p.type = some node) :
    (∀ n f, node.fields.get? n = some f →
      (ofSchemas contributions).Planned p node (.obtained n)) ↔
    ¬ ∃ C, (ofSchemas contributions).Circle p node C := by
  constructor
  · rintro hall ⟨C, hC⟩
    obtain ⟨n, f, _, _, hn, _, hf, _⟩ := hC.skipped
    exact hC.not_of_planned (hall n f hf) hn
  · intro hno n f hf
    by_contra hnot
    obtain ⟨_, hbase, _⟩ := conflicts_eq_nil_iff.1 hc
    have hnext := nextAt_of_unresolvables_eq_nil hbase hnil hr hp hnode hf
    exact hno ⟨_, circle_of_not_planned hnode hf hnext hnot⟩

/-! ### A circle that is accepted -/

/-- Two subgraphs of which one is entered with a field that the other one cannot give before it has
been there: a key `k` that requires `x`, where `x` is only known behind the key. -/
def circularBatch : List Subgraph := Subgraph.batchOfTexts
  [("a", "type Query \x7b t: T \x7d " ++
      "type T \x7b k: ID! @requires(fields: \"x\") x: Int @external \x7d"),
    ("b", "type T @key(fields: \"k\") \x7b k: ID! x: Int \x7d")]

/-- What the two subgraphs contribute. -/
def circularContributions : List Schema :=
  ((schemas? circularBatch).toOption.getD []).map Schema.contribution

/-- The graph of the two subgraphs. -/
def circularGraph : Graph := ofSchemas circularContributions

/-- Where the walk gets to from the only root field. -/
def circularPosition : Position := ⟨⟨"T", by decide⟩, .singleton 0, ∅⟩

/-- The type that both subgraphs declare. -/
def circularNode : TypeNode :=
  (circularGraph.types.get? circularPosition.type).getD { kind := .object }

/-- Its two fields, and the subgraph behind the key. -/
def circularMilestone : Milestone → Prop
  | .entered i => i = 1
  | .obtained n => n.text ∈ ["k", "x"]

theorem circularContributions_accepted :
    conflicts circularContributions = [] ∧ circularGraph.unresolvables = [] := by
  decide +kernel

theorem descent_circularPosition :
    ∃ r ∈ circularGraph.rootFields, ∃ path, circularGraph.Descent r path circularPosition := by
  have h : ∃ r ∈ circularGraph.rootFields, ∃ s ∈ circularGraph.starts r,
      s.2 = circularPosition := by decide +kernel
  obtain ⟨r, hr, s, hs, hp⟩ := h
  exact ⟨r, hr, s.1, hp ▸ .start hs⟩

theorem get?_circularNode :
    circularGraph.types.get? circularPosition.type = some circularNode := by decide +kernel

theorem circle_circularMilestone :
    circularGraph.Circle circularPosition circularNode circularMilestone where
  late := by
    rintro i rfl
    decide
  key := by
    have h : ∀ e ∈ circularNode.resolvableKeys, ∃ n ∈ circularGraph.ownFields
        circularPosition.type e.2.fields, n.text ∈ ["k", "x"] := by decide +kernel
    exact fun i _ k hk => .inl (h (i, k) hk)
  resolver := by
    -- The first subgraph requires the other field; the second one is in the circle.
    have h : ∀ e ∈ circularNode.fields.entries, ∀ i ∈ e.2.resolvers.ids, i = 1 ∨
        ∃ F ∈ e.2.requires.get? i, ∃ n ∈ circularGraph.ownFields circularPosition.type F,
          n.text ∈ ["k", "x"] := by decide +kernel
    intro n _ f hf i hi
    rcases h (n, f) (Table.get?_eq_some_iff.1 hf) i hi with h | ⟨F, hF, h⟩
    · exact .inl h
    · exact .inr ⟨F, hF, .inl h⟩
  provider := by
    intro n _ f _ i F hF
    exact absurd hF (by simp [circularPosition])
  skipped := by
    have h : ∃ e ∈ circularNode.fields.entries, e.1.text ∈ ["k", "x"] ∧
        (∃ k ∈ circularNode.resolvableKeys, e.1 ∈ circularGraph.ownFields
          circularPosition.type k.2.fields) ∧
        0 ∈ circularGraph.reach circularNode circularPosition.resolving ∧
        0 ∈ e.2.resolvers ∧ ∃ F, e.2.requires.get? 0 = some F := by
      simp only [← Option.isSome_iff_exists]
      decide +kernel
    obtain ⟨⟨n, f⟩, hf, hn, hk, hreach, hi, F, hF⟩ := h
    exact ⟨n, f, 0, F, hn, .inl hk, Table.get?_eq_some_iff.2 hf, hreach, Nat.zero_ne_one, hi, hF⟩

/-- Acceptance alone gives no fetch plans: in the graph of the two subgraphs nothing is wrong and
nothing is reported, and a field of a visited position has no plan. -/
theorem not_planned_circular : conflicts circularContributions = [] ∧
    circularGraph.unresolvables = [] ∧
    ∃ r ∈ circularGraph.rootFields, ∃ path p node n f, circularGraph.Descent r path p ∧
      circularGraph.types.get? p.type = some node ∧ node.fields.get? n = some f ∧
      ¬ circularGraph.Planned p node (.obtained n) := by
  obtain ⟨hc, hnil⟩ := circularContributions_accepted
  obtain ⟨r, hr, path, hp⟩ := descent_circularPosition
  obtain ⟨n, f, _, _, hn, _, hf, _⟩ := circle_circularMilestone.skipped
  exact ⟨hc, hnil, r, hr, path, circularPosition, circularNode, n, f, hp, get?_circularNode, hf,
    fun hplan => circle_circularMilestone.not_of_planned hplan hn⟩

/-- At the circular batch everything that is assumed of an accepted graph holds. -/
theorem planned_iff_not_circle_circular : ∃ r ∈ circularGraph.rootFields, ∃ path,
    circularGraph.Descent r path circularPosition ∧
    ((∀ n f, circularNode.fields.get? n = some f →
      circularGraph.Planned circularPosition circularNode (.obtained n)) ↔
    ¬ ∃ C, circularGraph.Circle circularPosition circularNode C) := by
  obtain ⟨hc, hnil⟩ := circularContributions_accepted
  obtain ⟨r, hr, path, hp⟩ := descent_circularPosition
  exact ⟨r, hr, path, hp, planned_iff_not_circle hc hnil hr hp get?_circularNode⟩

end Federation.Graph
