import Federation.Proofs.Condition.Conflicts
import Federation.Proofs.Condition.Provisions
import Federation.Proofs.Graph.Selections
import Federation.Proofs.Supergraph.Composed

/-!
# Conditions and composition

A condition on the type itself says nothing that was not said before, but two readers of field sets
look only at what stands outside of all conditions.  So two things are lost behind one: a key does
not mark its fields, and what is provided on an object type is not found.  Nothing else changes.
What comes of a batch with conditions is what comes of the batch without them and without what is
lost (`composeLosing`, `compose_conditioned`), and where nothing is lost the condition is redundant
indeed.

Both losses decide over success (`not_compose_conditioned`).
-/

namespace Federation

/-! ### What fields return -/

/-- Whether every field that provides something returns, in the graph of some contributions, what it
returns in the subgraph that provides it. -/
def ReturnsDeclared (contributions : List Schema) : Prop :=
  ∀ n m f i F, (Graph.ofSchemas contributions).field? n m = some f → f.provides.get? i = some F →
    declaredReturn contributions n m i = f.returns

/-- Without conflicts, fields return what they are declared to return. -/
theorem returnsDeclared_of_conflicts_eq_nil {batch : List Subgraph} {schemas : List Schema}
    (hschemas : schemas? batch = .ok schemas)
    (hc : conflicts (schemas.map Schema.contribution) = []) :
    ReturnsDeclared (schemas.map Schema.contribution) := by
  intro n m f i F hf hF
  obtain ⟨t, ht, hm⟩ := Graph.field?_eq_some_iff.1 hf
  -- Some subgraph declares the field with what it provides.
  have hconc := concordant_of_conflicts_eq_nil (normalized_of_schemas? hschemas) hc
  obtain ⟨d₀, hd₀⟩ := isSome_get?_ofSchemas_iff.1 (Option.isSome_iff_exists.2 ⟨t, ht⟩)
  obtain rfl := Option.some.inj (ht.symm.trans (exists_get?_ofSchemas hconc.kind hd₀))
  have hnodup := nodup_declarationsOf (schemas.map Schema.contribution) n
  have hfields := hm
  rw [TypeNode.get?_fields] at hfields
  obtain ⟨e, he, _⟩ :=
    (FieldNode.get?_provides_iff (TypeNode.nodup_fieldsOf hnodup m) hfields).1 hF
  obtain ⟨d, hd, hde⟩ := TypeNode.mem_fieldsOf_iff.1 he
  obtain ⟨s, hs, hn⟩ := mem_declarationsOf_iff.1 hd
  -- The merged field has the type that it has there.
  obtain ⟨t', f', ht', hf', htype⟩ :=
    exists_field_of_declaresField hschemas hc (declares_iff.2 ⟨i, hd⟩) hde
  obtain rfl := Option.some.inj (ht.symm.trans ht')
  obtain rfl := Option.some.inj (hm.symm.trans hf')
  rw [declaredReturn, hs, Option.bind_some, hn, Option.bind_some, hde, FieldNode.returns, htype]
  rfl

section Contributions

variable {sites : List String} {cs cs' : List Schema} (h : EqualContributions sites cs cs')

include h

theorem EqualContributions.declaredReturn_eq (n m : Name) (i : SubgraphId) :
    declaredReturn cs' n m i = declaredReturn cs n m i := by
  unfold declaredReturn
  rcases rel_cases (rel_getElem? h i) with ⟨hs, hs'⟩ | ⟨s, s', hs, hs', hss⟩
  · rw [hs, hs']
  · rw [hs, hs', Option.bind_some, Option.bind_some]
    rcases rel_cases (hss.types.get? n) with ⟨ht, ht'⟩ | ⟨t, t', ht, ht', htt⟩
    · rw [ht, ht']
    · rw [ht, ht', Option.bind_some, Option.bind_some]
      rcases rel_cases (htt.fields.get? m) with ⟨hf, hf'⟩ | ⟨f, f', hf, hf', hff⟩
      · rw [hf, hf']
      · rw [hf, hf', Option.elim_some, Option.elim_some, hff.definition]

/-- What fields return does not depend on conditions. -/
theorem EqualContributions.returnsDeclared (hreturns : ReturnsDeclared cs') :
    ReturnsDeclared cs := by
  intro n m f i F hf hF
  obtain ⟨t, hn, hm⟩ := Graph.field?_eq_some_iff.1 hf
  obtain ⟨t', f', hn', hm', hff⟩ := h.graph.exists_counterpart hn hm
  obtain ⟨F', hF', _⟩ := exists_of_rel (hff.provides i) hF
  rw [← h.declaredReturn_eq, hreturns n m f' i F' (Graph.field?_eq_some_iff.2 ⟨t', hn', hm'⟩) hF',
    FieldNode.returns, hff.definition, FieldNode.returns]

end Contributions

/-! ### What is lost -/

/-- Everything that is wrong between some contributions if the walk does not see some provided
selections. -/
def errorsLosing (options : Options) (contributions : List Schema)
    (drop : Name → Name → SubgraphId → Bool) : List CompositionError :=
  (conflicts contributions).map .conflict ++
    if options.disableResolvabilityValidation then []
    else ((Graph.ofSchemas contributions).withoutProvides drop).unresolvables.map .unresolvable

/-- The supergraph of some contributions, or what is wrong between them. -/
def outcome (contributions : List Schema) (errors : List CompositionError) :
    Except (List CompositionError) Supergraph :=
  if errors.isEmpty then .ok (.ofGraph (.ofSchemas contributions)) else .error errors

/-- What some schemas contribute if their keys mark the fields that the keys of others mark. -/
def contributionsMarking (schemas schemas' : List Schema) : List Schema :=
  List.zipWith (fun s s' => s.contributionMarking s'.marks) schemas schemas'

/-- What comes of a batch without what it loses when field sets get the conditions that they have in
another one: keys mark no fields but those that they still mark, and selections that are still
provided are the only ones that the walk sees. -/
def composeLosing (options : Options) (batch batch' : List Subgraph) :
    Except (List CompositionError) Supergraph :=
  match schemas? batch with
  | .error errors => .error errors
  | .ok schemas =>
    let contributions := contributionsMarking schemas (batch'.map Subgraph.schema)
    outcome contributions (errorsLosing options contributions
      (Graph.lostProvisions (.ofSchemas contributions) (.ofSchemas (contributionsOf batch'))))

/-- Whether it makes no difference to a batch which fields the keys of another one mark. -/
def KeepsMarks (batch batch' : List Subgraph) : Prop :=
  List.Forall₂ (fun s s' => s.schema.KeepsMarks s'.schema.marks) batch batch'

instance (batch batch' : List Subgraph) : Decidable (KeepsMarks batch batch') :=
  inferInstanceAs (Decidable (List.Forall₂ _ batch batch'))

theorem Graph.withoutProvides_eq_self {g : Graph} {drop : Name → Name → SubgraphId → Bool}
    (h : ∀ n m i, drop n m i = false) : g.withoutProvides drop = g := by
  have hfield : ∀ n m (f : FieldNode), f.withoutProvides (drop n m) = f := by
    intro n m f
    have hkeep : (f.provides.filter fun i => !drop n m i) = f.provides := by
      refine SubgraphMap.ext_get? fun i => ?_
      rw [SubgraphMap.get?_filter, h, Bool.not_false, if_pos rfl]
    rw [FieldNode.withoutProvides, hkeep]
  have htype : ∀ n (t : TypeNode), t.withoutProvides (drop n) = t := by
    intro n t
    rw [TypeNode.withoutProvides, Table.mapEntries_eq_self fun e _ => hfield n e.1 e.2]
  rw [withoutProvides, Table.mapEntries_eq_self fun e _ => htype e.1 e.2]

theorem compose_eq_outcome {options : Options} {batch : List Subgraph} {schemas : List Schema}
    (h : schemas? batch = .ok schemas) :
    compose options batch = outcome (schemas.map Schema.contribution)
      (errorsLosing options (schemas.map Schema.contribution) fun _ _ _ => false) := by
  rw [errorsLosing, Graph.withoutProvides_eq_self fun _ _ _ => rfl]
  simp only [compose, h]
  rfl

theorem composeLosing_eq_outcome {options : Options} {batch batch' : List Subgraph}
    {schemas schemas' : List Schema} (h : schemas? batch = .ok schemas)
    (h' : schemas? batch' = .ok schemas') : composeLosing options batch batch' =
      outcome (contributionsMarking schemas schemas')
        (errorsLosing options (contributionsMarking schemas schemas')
          (Graph.lostProvisions (.ofSchemas (contributionsMarking schemas schemas'))
            (.ofSchemas (schemas'.map Schema.contribution)))) := by
  simp only [composeLosing, h, contributionsOf_eq h', ← (schemas?_eq_ok_iff.1 h').2]

/-! ### What is found -/

/-- The same errors, but for the ways on which unresolvable fields are met. -/
structure SameErrors (es es' : List CompositionError) : Prop where
  others : ∀ e, (∀ u, e ≠ .unresolvable u) → (e ∈ es ↔ e ∈ es')
  unresolvable : ∀ type field, (∃ u, .unresolvable u ∈ es ∧ u.type = type ∧ u.field = field) ↔
    ∃ u, .unresolvable u ∈ es' ∧ u.type = type ∧ u.field = field

/-- Two compositions that come to the same supergraph, or to the same errors. -/
inductive SameFindings : Except (List CompositionError) Supergraph →
    Except (List CompositionError) Supergraph → Prop
  | ok (s : Supergraph) : SameFindings (.ok s) (.ok s)
  | error {es es' : List CompositionError} (h : SameErrors es es') :
      SameFindings (.error es) (.error es')

theorem SameErrors.symm {es es' : List CompositionError} (h : SameErrors es es') :
    SameErrors es' es :=
  ⟨fun e he => (h.others e he).symm, fun type field => (h.unresolvable type field).symm⟩

theorem SameErrors.eq_nil {es es' : List CompositionError} (h : SameErrors es es')
    (hnil : es = []) : es' = [] := by
  subst hnil
  refine List.eq_nil_iff_forall_not_mem.2 fun e he => ?_
  by_cases hu : ∃ u, e = .unresolvable u
  · obtain ⟨u, rfl⟩ := hu
    obtain ⟨_, hmem, _⟩ := (h.unresolvable u.type u.field).2 ⟨u, he, rfl, rfl⟩
    cases hmem
  · exact absurd ((h.others e fun u hu' => hu ⟨u, hu'⟩).2 he) List.not_mem_nil

theorem SameErrors.isEmpty_eq {es es' : List CompositionError} (h : SameErrors es es') :
    es'.isEmpty = es.isEmpty := by
  rw [Bool.eq_iff_iff, List.isEmpty_iff, List.isEmpty_iff]
  exact ⟨h.symm.eq_nil, h.eq_nil⟩

/-- Conflicts with unresolvable fields are the same errors if they are the same conflicts with
fields of the same types and names. -/
theorem SameErrors.of_reported {cs : List Conflict} {us us' : List Unresolvable}
    (h : ∀ type field, (∃ u ∈ us, u.type = type ∧ u.field = field) ↔
      ∃ u ∈ us', u.type = type ∧ u.field = field) :
    SameErrors (cs.map .conflict ++ us.map .unresolvable)
      (cs.map .conflict ++ us'.map .unresolvable) := by
  refine ⟨fun e he => ?_, fun type field => ?_⟩
  · have hnot : ∀ l : List Unresolvable, e ∉ l.map CompositionError.unresolvable := by
      intro l hmem
      obtain ⟨u, _, hu⟩ := List.mem_map.1 hmem
      exact he u hu.symm
    rw [List.mem_append, List.mem_append, or_iff_left (hnot us), or_iff_left (hnot us')]
  · have hmem : ∀ (l : List Unresolvable) (u : Unresolvable), CompositionError.unresolvable u ∈
        cs.map .conflict ++ l.map .unresolvable ↔ u ∈ l := by
      intro l u
      simp
    simpa only [hmem] using h type field

section Outcomes

variable {options : Options} {sites : List String} {cs cs' : List Schema}
  (h : EqualContributions sites cs cs')

include h

/-- Without conditions on what is provided, the same is wrong. -/
theorem EqualContributions.errorsLosing_eq (hsites : "provides" ∉ sites) :
    errorsLosing options cs' (fun _ _ _ => false) =
      errorsLosing options cs (Graph.lostProvisions (.ofSchemas cs) (.ofSchemas cs')) := by
  rw [errorsLosing, errorsLosing, h.conflicts_eq,
    Graph.withoutProvides_eq_self fun _ _ _ => rfl,
    Graph.withoutProvides_eq_self (h.graph.lostProvisions_eq_false hsites),
    h.graph.unresolvables_eq hsites]

/-- With conditions on what is provided, the same is wrong but for the ways. -/
theorem EqualContributions.sameErrors (hreturns : ReturnsDeclared cs') :
    SameErrors (errorsLosing options cs' fun _ _ _ => false)
      (errorsLosing options cs (Graph.lostProvisions (.ofSchemas cs) (.ofSchemas cs'))) := by
  rw [errorsLosing, errorsLosing, h.conflicts_eq,
    Graph.withoutProvides_eq_self fun _ _ _ => rfl]
  split
  · exact ⟨fun _ _ => Iff.rfl, fun _ _ => Iff.rfl⟩
  · exact .of_reported (h.graph.reported_iff (h.returnsDeclared hreturns))

theorem EqualContributions.sameFindings {es es' : List CompositionError}
    (hsame : SameErrors es' es) : SameFindings (outcome cs' es') (outcome cs es) := by
  unfold outcome
  rw [h.graph.supergraph_eq, hsame.isEmpty_eq]
  split
  · exact .ok _
  · exact .error hsame

end Outcomes

/-! ### Composing with conditions -/

/-- Either the same is wrong with the subgraphs on their own, or what they contribute is equal but
for conditions and marks. -/
theorem ConditionedBatch.cases {sites : List String} {batch batch' : List Subgraph}
    (h : ConditionedBatch sites batch batch') :
    (∃ errors, Federation.schemas? batch = .error errors ∧
      Federation.schemas? batch' = .error errors) ∨
    ∃ schemas schemas', Federation.schemas? batch = .ok schemas ∧
      Federation.schemas? batch' = .ok schemas' ∧
      EqualContributions sites (contributionsMarking schemas schemas')
        (schemas'.map Schema.contribution) := by
  have hschemas := h.schemas?
  generalize Federation.schemas? batch = r, Federation.schemas? batch' = r' at hschemas ⊢
  cases hschemas with
  | error errors => exact .inl ⟨errors, rfl, rfl⟩
  | @ok schemas schemas' hss =>
    refine .inr ⟨schemas, schemas', rfl, rfl, ?_⟩
    induction hss with
    | nil => exact .nil
    | cons hs _ ih => exact .cons hs.contribution ih

/-- Where it makes no difference which fields keys mark, nothing is lost but selections. -/
theorem contributionsMarking_eq {batch batch' : List Subgraph} (h : KeepsMarks batch batch') :
    contributionsMarking (batch.map Subgraph.schema) (batch'.map Subgraph.schema) =
      contributionsOf batch := by
  induction h with
  | nil => rfl
  | cons hs _ ih =>
    simp only [contributionsMarking, contributionsOf, List.map_cons, List.zipWith_cons_cons,
      Schema.contributionMarking_eq hs, List.cons.injEq, true_and]
    exact ih

section Composing

variable {options : Options} {sites : List String} {batch batch' : List Subgraph}
  (h : ConditionedBatch sites batch batch')

include h

theorem compose_conditioned_eq (hsites : "provides" ∉ sites) :
    compose options batch' = composeLosing options batch batch' := by
  rcases h.cases with ⟨errors, hs, hs'⟩ | ⟨schemas, schemas', hs, hs', hcs⟩
  · rw [compose, composeLosing, hs, hs']
  · rw [compose_eq_outcome hs', composeLosing_eq_outcome hs hs', hcs.errorsLosing_eq hsites,
      outcome, outcome, hcs.graph.supergraph_eq]

theorem sameFindings_conditioned (hreturns : ReturnsDeclared (contributionsOf batch')) :
    SameFindings (compose options batch') (composeLosing options batch batch') := by
  rcases h.cases with ⟨errors, hs, hs'⟩ | ⟨schemas, schemas', hs, hs', hcs⟩
  · rw [compose, composeLosing, hs, hs']
    exact .error ⟨fun _ _ => Iff.rfl, fun _ _ => Iff.rfl⟩
  · rw [← contributionsOf_eq hs'] at hreturns
    rw [compose_eq_outcome hs', composeLosing_eq_outcome hs hs']
    exact hcs.sameFindings (hcs.sameErrors hreturns)

/-- Success, and the supergraph. -/
theorem compose_conditioned_eq_ok_iff (s : Supergraph) :
    compose options batch' = .ok s ↔ composeLosing options batch batch' = .ok s := by
  rcases h.cases with ⟨errors, hs, hs'⟩ | ⟨schemas, schemas', hs, hs', hcs⟩
  · rw [compose, composeLosing, hs, hs']
  · -- What fields return is known only where there are no conflicts.
    by_cases hc : conflicts (schemas'.map Schema.contribution) = []
    · have hreturns := returnsDeclared_of_conflicts_eq_nil hs' hc
      rw [contributionsOf_eq hs'] at hreturns
      have hsame : SameFindings (compose options batch') (composeLosing options batch batch') :=
        sameFindings_conditioned h hreturns
      generalize compose options batch' = r, composeLosing options batch batch' = r' at hsame
      cases hsame with
      | ok s => exact Iff.rfl
      | error h => exact iff_of_false nofun nofun
    · -- Neither composes where there are conflicts.
      have hfails : ∀ cs drop, conflicts cs ≠ [] →
          outcome cs (errorsLosing options cs drop) ≠ .ok s := by
        intro cs drop hne
        have hempty : (errorsLosing options cs drop).isEmpty = false := by
          simp [errorsLosing, hne]
        rw [outcome, hempty]
        nofun
      rw [compose_eq_outcome hs', composeLosing_eq_outcome hs hs']
      exact iff_of_false (hfails _ _ hc) (hfails _ _ (hcs.conflicts_eq ▸ hc))

end Composing

theorem composeLosing_eq {options : Options} {sites : List String} {batch batch' : List Subgraph}
    (h : ConditionedBatch sites batch batch') (hsites : "provides" ∉ sites)
    (hmarks : KeepsMarks batch batch') :
    composeLosing options batch batch' = compose options batch := by
  rcases h.cases with ⟨errors, hs, hs'⟩ | ⟨schemas, schemas', hs, hs', hcs⟩
  · rw [compose, composeLosing, hs]
  · have hlost := hcs.graph.lostProvisions_eq_false hsites
    have hcontributions := contributionsMarking_eq hmarks
    rw [← (schemas?_eq_ok_iff.1 hs).2, ← (schemas?_eq_ok_iff.1 hs').2, ← contributionsOf_eq hs]
      at hcontributions
    rw [composeLosing_eq_outcome hs hs', compose_eq_outcome hs, errorsLosing, errorsLosing,
      Graph.withoutProvides_eq_self hlost, Graph.withoutProvides_eq_self fun _ _ _ => rfl,
      hcontributions]

/-- **What a condition on the type itself changes.**  Let any number of field sets of directives in
`sites` be put behind conditions on the types from which they select.  What is composed then is what
is composed without these conditions and without what is lost behind them.  So are the errors,
unless a field that provides something returns what it is not declared to, which is a conflict
(`returnsDeclared_of_conflicts_eq_nil`): the same fields are unresolvable, on some way.  If no
condition is put on what is provided, even the ways are the same; and if moreover the fields that
lose the mark of a key are shareable and not external without it, then the conditions mean nothing
at all. -/
theorem compose_conditioned (options : Options) {sites : List String}
    {batch batch' : List Subgraph} (h : ConditionedBatch sites batch batch') :
    (∀ s, compose options batch' = .ok s ↔ composeLosing options batch batch' = .ok s) ∧
    (ReturnsDeclared (contributionsOf batch') →
      SameFindings (compose options batch') (composeLosing options batch batch')) ∧
    ("provides" ∉ sites → compose options batch' = composeLosing options batch batch' ∧
      (KeepsMarks batch batch' → compose options batch' = compose options batch)) := by
  refine ⟨compose_conditioned_eq_ok_iff h, sameFindings_conditioned h, fun hsites => ?_⟩
  have hlosing : compose options batch' = composeLosing options batch batch' :=
    compose_conditioned_eq h hsites
  exact ⟨hlosing, fun hmarks => hlosing.trans (composeLosing_eq h hsites hmarks)⟩

/-- An entity with what its key selects, what is provided of it and what one of its fields
requires. -/
def entityBatch (key provided required : String) : List Subgraph := Subgraph.batchOfTexts
  [("a", "type Query \x7b t: T @provides(fields: \"" ++ provided ++ "\") \x7d " ++
      "type T @key(fields: \"" ++ key ++ "\") \x7b id: ID x: Int @external " ++
      "y: Int @requires(fields: \"" ++ required ++ "\") \x7d"),
    ("b", "type T @key(fields: \"id\") \x7b id: ID x: Int \x7d")]

/-- The entity without conditions. -/
def plainEntity : List Subgraph := entityBatch "id" "x" "x"

/-- The entity with conditions on its key and on what is required. -/
def keyedEntity : List Subgraph :=
  entityBatch "... on T \x7b id \x7d" "x" "... on T \x7b x \x7d"

/-- The entity with conditions everywhere. -/
def conditionedEntity : List Subgraph :=
  entityBatch "... on T \x7b id \x7d" "... on T \x7b x \x7d" "... on T \x7b x \x7d"

theorem conditionedBatch_entity :
    ConditionedBatch ["key", "requires"] plainEntity keyedEntity ∧
    KeepsMarks plainEntity keyedEntity ∧
    ConditionedBatch ["key", "requires", "provides"] plainEntity conditionedEntity ∧
    (composeLosing {} plainEntity conditionedEntity).isOk = true := by decide +kernel

/-- With conditions everywhere the entity composes, as it does without what is lost, on which
nothing depends; with conditions on its key and on what is required it composes to the same. -/
theorem compose_conditioned_entity :
    (ConditionedBatch ["key", "requires", "provides"] plainEntity conditionedEntity ∧
      ∃ s, compose {} conditionedEntity = .ok s) ∧
    ConditionedBatch ["key", "requires"] plainEntity keyedEntity ∧
      compose {} keyedEntity = compose {} plainEntity := by
  obtain ⟨hkeys, hmarks, hall, hok⟩ := conditionedBatch_entity
  obtain ⟨s, hs⟩ := exists_of_isOk hok
  exact ⟨⟨hall, s, ((compose_conditioned {} hall).1 s).2 hs⟩, hkeys,
    ((compose_conditioned {} hkeys).2.2 (by decide)).2 hmarks⟩

/-! ### What decides over success -/

/-- Nothing is reported where nothing lies below the root fields. -/
theorem Graph.unresolvables_eq_nil {g : Graph}
    (h : ∀ r ∈ g.rootFields, ∀ s ∈ g.starts r, g.steps s.2 = []) : g.unresolvables = [] := by
  refine List.eq_nil_iff_forall_not_mem.2 fun u hu => ?_
  obtain ⟨r, hr, s, hs, x, hx, _⟩ := mem_unresolvables_iff.1 hu
  obtain ⟨_, step, hstep, _⟩ := mem_walk_iff.1 hx
  rw [h r hr s hs] at hstep
  cases hstep

/-- Two subgraphs that share the key of an entity. -/
def sharedKeyBatch (key : String) : List Subgraph := Subgraph.batchOfTexts
  [("a", "type Query \x7b t: T @shareable \x7d " ++
      "type T @key(fields: \"" ++ key ++ "\") \x7b id: ID \x7d"),
    ("b", "type T @key(fields: \"id\") \x7b id: ID \x7d")]

/-- A field that can be resolved only where it is provided. -/
def providedFieldBatch (provided : String) : List Subgraph := Subgraph.batchOfTexts
  [("a", "type Query \x7b t: T @provides(fields: \"" ++ provided ++ "\") \x7d " ++
      "type T \x7b x: Int @external \x7d"),
    ("b", "type T \x7b x: Int \x7d")]

theorem compose_providedField : ∃ s, compose {} (providedFieldBatch "x") = .ok s := by
  have h : ∃ schemas ∈ (schemas? (providedFieldBatch "x")).toOption,
      conflicts (schemas.map Schema.contribution) = [] ∧
      ∀ r ∈ (graphOf schemas).rootFields, ∀ s ∈ (graphOf schemas).starts r,
        (graphOf schemas).steps s.2 = [] := by decide +kernel
  obtain ⟨schemas, hschemas, hc, hsteps⟩ := h
  exact ⟨_, compose_eq_ok_iff.2 ⟨schemas, eq_ok_of_toOption hschemas, hc,
    .inr (Graph.unresolvables_eq_nil hsteps), rfl⟩⟩

/-- **A condition that is not redundant**: on a key it takes the mark from a shared field, and on
what is provided it hides the one selection by which a field can be resolved. -/
theorem not_compose_conditioned :
    (ConditionedBatch ["key"] (sharedKeyBatch "id") (sharedKeyBatch "... on T \x7b id \x7d") ∧
      (compose {} (sharedKeyBatch "id")).isOk = true ∧
      (compose {} (sharedKeyBatch "... on T \x7b id \x7d")).isOk = false) ∧
    ConditionedBatch ["provides"] (providedFieldBatch "x")
        (providedFieldBatch "... on T \x7b x \x7d") ∧
      (compose {} (providedFieldBatch "x")).isOk = true ∧
      (compose {} (providedFieldBatch "... on T \x7b x \x7d")).isOk = false := by
  have h : ConditionedBatch ["provides"] (providedFieldBatch "x")
      (providedFieldBatch "... on T \x7b x \x7d") := by decide +kernel
  refine ⟨by decide +kernel, h, ?_, ?_⟩
  · obtain ⟨s, hs⟩ := compose_providedField
    rw [hs]
    rfl
  · -- Without the selection the field cannot be resolved.
    have hlosing : (composeLosing {} (providedFieldBatch "x")
        (providedFieldBatch "... on T \x7b x \x7d")).isOk = false := by decide +kernel
    rw [Bool.eq_false_iff]
    intro hok
    obtain ⟨s, hs⟩ := exists_of_isOk hok
    rw [(compose_conditioned_eq_ok_iff h s).1 hs] at hlosing
    cases hlosing

end Federation
