import Federation.Proofs.Condition.Walk
import Federation.Proofs.Resolvability.Provided

/-!
# Conditions on what is provided

What `@provides` selects is carried to the type that the field returns.  If that is an object type,
fields are looked for outside of conditions only, so a selection behind a condition is as good as
none (`lostProvisions`).  If it is abstract, the condition holds in every possible type, as one on
the type itself, and the selection is carried on as it was (`forPossibleType_conditioned`).

So what is reported with conditions is what is reported without the selections that are lost
(`EqualUpTo.reported_iff`), though not always by the same way: the walk tells positions apart by
what is carried to them, and may come to a field by another way first.  That is why the two walks
are compared by a relation between their positions, step by step (`exists_reported_of_simulation`).
-/

namespace Federation

/-! ### Selections behind a condition -/

theorem FieldSet.fragment_ne (c : Option Name) (F rest : FieldSet) :
    FieldSet.fragment c F rest ≠ F := by
  intro h
  have hweight := congrArg FieldSet.weight h
  simp only [weight] at hweight
  omega

/-- Nothing is selected below a field behind a condition. -/
theorem FieldSet.selectionOf?_conditioned (n T : Name) (F : FieldSet) :
    (FieldSet.fragment (some T) F .empty).selectionOf? n = none := rfl

/-- In a possible type, a condition on the abstract type holds. -/
theorem FieldSet.forPossibleType_conditioned (T o : Name) (F : FieldSet) :
    (FieldSet.fragment (some T) F .empty).forPossibleType T o = F.forPossibleType T o := by
  simp [forPossibleType, restrict]

namespace Graph

/-! ### Positions that are read alike -/

/-- Positions at which the same is resolved, and the same read off what is provided. -/
structure PositionAlike (p q : Position) : Prop where
  type : q.type = p.type
  resolving : q.resolving = p.resolving
  provided : ReadAlike p.provided q.provided

theorem PositionAlike.symm {p q : Position} (h : PositionAlike p q) : PositionAlike q p :=
  ⟨h.type.symm, h.resolving.symm, fun i n => (h.provided i n).symm⟩

/-- Whether the same is read off two maps of selections where a type is returned: at the type
itself if it is an object type, and at each possible type if it is abstract. -/
structure AlikeBelow (g : Graph) (returns : Name) (m m' : SubgraphMap FieldSet) : Prop where
  object : ∀ t, g.types.get? returns = some t → t.kind = .object → ReadAlike m m'
  possible : ∀ t, g.types.get? returns = some t → t.kind.isAbstract = true → ∀ o i,
    (m'.get? i).map (FieldSet.forPossibleType returns o) =
      (m.get? i).map (FieldSet.forPossibleType returns o)

section Alike

variable {g : Graph} {returns : Name} {m m' : SubgraphMap FieldSet}

theorem AlikeBelow.symm (h : AlikeBelow g returns m m') : AlikeBelow g returns m' m :=
  ⟨fun t ht hkind i n => (h.object t ht hkind i n).symm,
    fun t ht hkind o i => (h.possible t ht hkind o i).symm⟩

/-- Values arrive at positions that are read alike. -/
theorem AlikeBelow.exists_arrival (h : AlikeBelow g returns m m') {resolving : SubgraphSet}
    {possible : Option Name} {p : Position}
    (hp : (possible, p) ∈ g.arrivals returns resolving m) :
    ∃ q, (possible, q) ∈ g.arrivals returns resolving m' ∧ PositionAlike p q := by
  obtain ⟨t, ht, ⟨hkind, hp⟩ | ⟨hkind, hp⟩⟩ := mem_arrivals_iff.1 hp
  · cases hp
    exact ⟨⟨returns, resolving, m'⟩, mem_arrivals_iff.2 ⟨t, ht, .inl ⟨hkind, rfl⟩⟩, rfl, rfl,
      h.object t ht hkind⟩
  · obtain ⟨o, s, ho, hne, hp⟩ := mem_possibleArrivals_iff.1 hp
    cases hp
    refine ⟨_, mem_arrivals_iff.2 ⟨t, ht, .inr ⟨hkind, mem_possibleArrivals_iff.2
      ⟨o, s, ho, hne, rfl⟩⟩⟩, rfl, rfl, fun i n => ?_⟩
    simp only [SubgraphMap.get?_map, SubgraphMap.get?_filter]
    split
    · rw [h.possible t ht hkind o i]
    · rfl

/-- What is provided below a field is read alike if what was provided before is, and what the field
provides is. -/
theorem AlikeBelow.providedBelow {provided provided' : SubgraphMap FieldSet}
    (hprovided : ReadAlike provided provided') {f f' : FieldNode}
    (h : AlikeBelow g returns f.provides f'.provides) (n : Name) (next : SubgraphSet) :
    AlikeBelow g returns (Graph.providedBelow provided n f next)
      (Graph.providedBelow provided' n f' next) := by
  refine ⟨fun t ht hkind i k => ?_, fun t ht hkind o i => ?_⟩
  · simp only [Graph.providedBelow, SubgraphMap.get?_ofSet]
    split
    · have hbind := FieldSet.bind_merge? (FieldSet.selectionOf?_append k)
      rw [providedAt, providedAt, hbind, hbind, hprovided i n, h.object t ht hkind i k]
    · rfl
  · simp only [Graph.providedBelow, SubgraphMap.get?_ofSet]
    split
    · have hmap := FieldSet.map_merge? (FieldSet.forPossibleType_append returns o)
      rw [providedAt, providedAt, hmap, hmap, hprovided i n, h.possible t ht hkind o i]
    · rfl

end Alike

/-! ### Selections that are lost -/

/-- A field of the graph. -/
def field? (g : Graph) (type field : Name) : Option FieldNode :=
  (g.types.get? type).bind fun t => t.fields.get? field

theorem field?_eq_some_iff {g : Graph} {n m : Name} {f : FieldNode} : g.field? n m = some f ↔
    ∃ t, g.types.get? n = some t ∧ t.fields.get? m = some f := by
  rw [field?, Option.bind_eq_some_iff]

/-- The selections of a graph that another one has behind a condition on an object type. -/
def lostProvisions (g g' : Graph) (type field : Name) (i : SubgraphId) : Bool :=
  (g.field? type field).any fun f => (g.object? f.returns).isSome &&
    decide ((g'.field? type field).bind (fun f' => f'.provides.get? i) ≠ f.provides.get? i)

/-- What is left of what a field provides. -/
theorem get?_provides_withoutLost {g g' : Graph} {n m : Name} {f f' : FieldNode}
    (hf : g.field? n m = some f) (hf' : g'.field? n m = some f') (i : SubgraphId) :
    (f.withoutProvides (lostProvisions g g' n m)).provides.get? i =
      if (g.object? f.returns).isSome = true ∧ f'.provides.get? i ≠ f.provides.get? i then none
      else f.provides.get? i := by
  have hlost : lostProvisions g g' n m i =
      ((g.object? f.returns).isSome && decide (f'.provides.get? i ≠ f.provides.get? i)) := by
    rw [lostProvisions, hf, Option.any_some, hf', Option.bind_some]
  rw [FieldNode.withoutProvides, SubgraphMap.get?_filter, hlost]
  simp only [Bool.not_eq_true', Bool.and_eq_false_iff, decide_eq_false_iff_not]
  split_ifs <;> first | rfl | (exfalso; simp_all)

/-- A selection is as it was, or it is behind a condition on the type that the field returns. -/
theorem provides_cases {sites : List String} {n : Name} {returns : SubgraphId → Name}
    {f f' : FieldNode} (hf : FieldNode.EqualUpTo sites n returns f f')
    (hreturns : ∀ i F, f.provides.get? i = some F → returns i = f.returns) (i : SubgraphId) :
    f'.provides.get? i = f.provides.get? i ∨ ∃ F, f.provides.get? i = some F ∧
      f'.provides.get? i = some (.fragment (some f.returns) F .empty) := by
  rcases rel_cases (hf.provides i) with ⟨hi, hi'⟩ | ⟨F, F', hi, hi', rfl | ⟨T, hT, rfl⟩⟩
  · exact .inl (hi'.trans hi.symm)
  · exact .inl (hi'.trans hi.symm)
  · rw [eq_of_fieldSite_provides hT, hreturns i F hi] at hi'
    exact .inr ⟨F, hi, hi'⟩

namespace EqualUpTo

variable {sites : List String} {returns : Name → Name → SubgraphId → Name} {g g' : Graph}
  (h : g.EqualUpTo sites returns g')

include h

/-! ### The two walks -/

section Walks

/-- A field of one graph has a counterpart in the other. -/
theorem exists_counterpart {n m : Name} {t : TypeNode} {f : FieldNode}
    (hn : g.types.get? n = some t) (hm : t.fields.get? m = some f) :
    ∃ t' f', g'.types.get? n = some t' ∧ t'.fields.get? m = some f' ∧
      FieldNode.EqualUpTo sites n (returns n m) f f' := by
  obtain ⟨t', hn', ht⟩ := exists_of_rel (h.types.get? n) hn
  obtain ⟨f', hm', hf⟩ := exists_of_rel (ht.fields.get? m) hm
  exact ⟨t', f', hn', hm', hf⟩

theorem exists_counterpart_right {n m : Name} {t' : TypeNode} {f' : FieldNode}
    (hn' : g'.types.get? n = some t') (hm' : t'.fields.get? m = some f') :
    ∃ t f, g.types.get? n = some t ∧ t.fields.get? m = some f ∧
      FieldNode.EqualUpTo sites n (returns n m) f f' := by
  obtain ⟨t, hn, ht⟩ := exists_of_rel_right (h.types.get? n) hn'
  obtain ⟨f, hm, hf⟩ := exists_of_rel_right (ht.fields.get? m) hm'
  exact ⟨t, f, hn, hm, hf⟩

/-- Nothing is lost without a condition on what is provided. -/
theorem lostProvisions_eq_false (hsites : "provides" ∉ sites) (n m : Name) (i : SubgraphId) :
    lostProvisions g g' n m i = false := by
  rw [lostProvisions, Option.any_eq_false]
  intro f hf
  obtain ⟨t, hn, hm⟩ := field?_eq_some_iff.1 hf
  obtain ⟨t', f', hn', hm', hff⟩ := h.exists_counterpart hn hm
  rw [field?_eq_some_iff.2 ⟨t', hn', hm'⟩, Option.bind_some, provides_eq hsites hff]
  simp

theorem stuck_iff_of_alike {drop : Name → Name → SubgraphId → Bool} {p q : Position}
    (hpq : PositionAlike p q) (n : Name) : (g.withoutProvides drop).Stuck p n ↔ g'.Stuck q n := by
  have hwithout : (g.withoutProvides drop).Stuck p n ↔ ∃ t f, g.types.get? p.type = some t ∧
      t.fields.get? n = some f ∧ (g.nextAt p t n f).isEmpty = true ∧
      f.resolvers.isEmpty = false := by
    rw [Stuck, exists_field_withoutProvides]
    simp only [nextAt_withoutProvides, FieldNode.resolvers_withoutProvides]
  rw [hwithout, Stuck, hpq.type]
  constructor
  · rintro ⟨t, f, hn, hm, hnext, hres⟩
    obtain ⟨t', f', hn', hm', hf⟩ := h.exists_counterpart hn hm
    refine ⟨t', f', hn', hm', ?_, hf.resolvers_eq ▸ hres⟩
    rwa [h.nextAt_eq hpq.type hpq.resolving hpq.provided hn (hpq.type ▸ hn') hf]
  · rintro ⟨t', f', hn', hm', hnext, hres⟩
    obtain ⟨t, f, hn, hm, hf⟩ := h.exists_counterpart_right hn' hm'
    refine ⟨t, f, hn, hm, ?_, hf.resolvers_eq ▸ hres⟩
    rwa [h.nextAt_eq hpq.type hpq.resolving hpq.provided hn (hpq.type ▸ hn') hf] at hnext

omit h in
theorem descend_withoutProvides_iff {drop : Name → Name → SubgraphId → Bool} {p p₁ : Position}
    {n : Name} {o : Option Name} : .descend n o p₁ ∈ (g.withoutProvides drop).steps p ↔
      ∃ t f, g.types.get? p.type = some t ∧ t.fields.get? n = some f ∧
        (g.nextAt p t n f).isEmpty = false ∧ (o, p₁) ∈ g.arrivals f.returns (g.nextAt p t n f)
          (Graph.providedBelow p.provided n (f.withoutProvides (drop p.type n))
            (g.nextAt p t n f)) := by
  rw [descend_mem_steps_iff, exists_field_withoutProvides]
  simp only [nextAt_withoutProvides, mem_arrivals_withoutProvides,
    FieldNode.returns_withoutProvides]

/-- The steps of a graph, in terms of one that is equal but for conditions. -/
theorem descend_iff_of_alike {p q q₁ : Position} (hpq : PositionAlike p q) {n : Name}
    {o : Option Name} : .descend n o q₁ ∈ g'.steps q ↔
      ∃ t f t' f', g.types.get? p.type = some t ∧ t.fields.get? n = some f ∧
        g'.types.get? p.type = some t' ∧ t'.fields.get? n = some f' ∧
        (g.nextAt p t n f).isEmpty = false ∧ (o, q₁) ∈ g.arrivals f.returns (g.nextAt p t n f)
          (Graph.providedBelow q.provided n f' (g.nextAt p t n f)) := by
  rw [descend_mem_steps_iff, hpq.type]
  constructor
  · rintro ⟨t', f', hn', hm', hnext, hq₁⟩
    obtain ⟨t, f, hn, hm, hf⟩ := h.exists_counterpart_right hn' hm'
    have heq := h.nextAt_eq hpq.type hpq.resolving hpq.provided hn (hpq.type ▸ hn') hf
    rw [heq, h.arrivals_eq, FieldNode.returns, hf.definition] at hq₁
    exact ⟨t, f, t', f', hn, hm, hn', hm', heq ▸ hnext, hq₁⟩
  · rintro ⟨t, f, t', f', hn, hm, hn', hm', hnext, hq₁⟩
    obtain ⟨u', e', hu', he', hf⟩ := h.exists_counterpart hn hm
    cases hn'.symm.trans hu'
    cases hm'.symm.trans he'
    have heq := h.nextAt_eq hpq.type hpq.resolving hpq.provided hn (hpq.type ▸ hn') hf
    refine ⟨t', f', hn', hm', heq ▸ hnext, ?_⟩
    rwa [heq, h.arrivals_eq, FieldNode.returns, hf.definition]

section Agreeing

variable (hreturns : ∀ n m f i F, g.field? n m = some f → f.provides.get? i = some F →
  returns n m i = f.returns)

include hreturns

/-- What is provided with a field is read alike, in whatever position its type is returned, once the
selections that are lost are left out. -/
theorem alikeBelow_provides {n m : Name} {t t' : TypeNode} {f f' : FieldNode}
    (hn : g.types.get? n = some t) (hn' : g'.types.get? n = some t')
    (hm : t.fields.get? m = some f) (hm' : t'.fields.get? m = some f') :
    AlikeBelow g f.returns (f.withoutProvides (lostProvisions g g' n m)).provides f'.provides := by
  have hf : g.field? n m = some f := field?_eq_some_iff.2 ⟨t, hn, hm⟩
  have hf' : g'.field? n m = some f' := field?_eq_some_iff.2 ⟨t', hn', hm'⟩
  have hff : FieldNode.EqualUpTo sites n (returns n m) f f' := by
    obtain ⟨u', e', hu', he', hff⟩ := h.exists_counterpart hn hm
    cases hn'.symm.trans hu'
    cases hm'.symm.trans he'
    exact hff
  have hcases := provides_cases hff fun i F => hreturns n m f i F hf
  refine ⟨fun u hu hkind i k => ?_, fun u hu hkind o i => ?_⟩
  · have hobject : (g.object? f.returns).isSome = true := by
      simp [object?, hu, hkind]
    -- On an object type nothing is found behind the condition, and the selection is left out.
    rw [get?_provides_withoutLost hf hf' i]
    rcases hcases i with hi | ⟨F, hi, hi'⟩
    · rw [if_neg (fun hne => hne.2 hi), hi]
    · have hne : f'.provides.get? i ≠ f.provides.get? i := by
        rw [hi, hi']
        exact fun heq => FieldSet.fragment_ne _ _ _ (Option.some.inj heq)
      rw [if_pos ⟨hobject, hne⟩, hi', Option.bind_some, FieldSet.selectionOf?_conditioned,
        Option.bind_none]
  · have hobject : (g.object? f.returns).isSome = false := by
      cases hk : u.kind <;> simp_all [object?, TypeKind.isAbstract]
    -- On an abstract type the condition is resolved for each possible type, and nothing is lost.
    rw [get?_provides_withoutLost hf hf' i, if_neg (fun hne => by simp [hobject] at hne)]
    rcases hcases i with hi | ⟨F, hi, hi'⟩
    · rw [hi]
    · rw [hi, hi', Option.map_some, Option.map_some, FieldSet.forPossibleType_conditioned]

/-- A step of one graph is one of the other. -/
theorem exists_step {p q p₁ : Position} (hpq : PositionAlike p q) {n : Name} {o : Option Name}
    (hp₁ : .descend n o p₁ ∈ (g.withoutProvides (lostProvisions g g')).steps p) :
    ∃ q₁, .descend n o q₁ ∈ g'.steps q ∧ PositionAlike p₁ q₁ := by
  obtain ⟨t, f, hn, hm, hnext, hp₁⟩ := descend_withoutProvides_iff.1 hp₁
  obtain ⟨t', f', hn', hm', _⟩ := h.exists_counterpart hn hm
  have hbelow := h.alikeBelow_provides hreturns hn hn' hm hm'
  obtain ⟨q₁, hq₁, halike⟩ := (hbelow.providedBelow hpq.provided n _).exists_arrival hp₁
  exact ⟨q₁, (h.descend_iff_of_alike hpq).2
    ⟨t, f, t', f', hn, hm, hn', hm', hnext, hq₁⟩, halike⟩

theorem exists_step_back {p q q₁ : Position} (hpq : PositionAlike p q) {n : Name}
    {o : Option Name} (hq₁ : .descend n o q₁ ∈ g'.steps q) :
    ∃ p₁, .descend n o p₁ ∈ (g.withoutProvides (lostProvisions g g')).steps p ∧
      PositionAlike p₁ q₁ := by
  obtain ⟨t, f, t', f', hn, hm, hn', hm', hnext, hq₁⟩ := (h.descend_iff_of_alike hpq).1 hq₁
  have hbelow := h.alikeBelow_provides hreturns hn hn' hm hm'
  obtain ⟨p₁, hp₁, halike⟩ := (hbelow.providedBelow hpq.provided n _).symm.exists_arrival hq₁
  exact ⟨p₁, descend_withoutProvides_iff.2 ⟨t, f, hn, hm, hnext, hp₁⟩, halike.symm⟩

/-- The walks of a root field start where the same is read. -/
theorem alikeBelow_root {r r' : RootField} (hr : r ∈ g.rootFields) (hr' : r' ∈ g'.rootFields)
    (hrr : RootEqualUpTo sites returns r r') : AlikeBelow g r.node.returns
      (r.node.withoutProvides (lostProvisions g g' r.type r.name)).provides r'.node.provides := by
  obtain ⟨_, t, hn, _, hm, _⟩ := mem_rootFields_iff.1 hr
  obtain ⟨_, t', hn', _, hm', _⟩ := mem_rootFields_iff.1 hr'
  rw [hrr.type] at hn'
  rw [hrr.name] at hm'
  exact h.alikeBelow_provides hreturns hn hn' hm hm'

/-- **A selection behind a condition on an object type is as good as none**: the fields that are
reported are those that are reported without the selections that are lost. -/
theorem reported_iff (type field : Name) :
    (∃ u ∈ g'.unresolvables, u.type = type ∧ u.field = field) ↔
      ∃ u ∈ (g.withoutProvides (lostProvisions g g')).unresolvables,
        u.type = type ∧ u.field = field := by
  have hstarts' : ∀ {r r' : RootField}, RootEqualUpTo sites returns r r' → ∀ s,
      s ∈ g'.starts r' ↔ ∃ a ∈ g.arrivals r.node.returns r.node.resolvers r'.node.provides,
        ((Path.root r.type r.name).into a.1, a.2) = s := by
    intro r r' hrr s
    rw [starts, List.mem_map, hrr.type, hrr.name, hrr.node.resolvers_eq, h.arrivals_eq,
      FieldNode.returns, hrr.node.definition, FieldNode.returns]
  have hstarts : ∀ (r : RootField) (d : SubgraphId → Bool) s,
      s ∈ (g.withoutProvides (lostProvisions g g')).starts
          ⟨r.type, r.name, r.node.withoutProvides d⟩ ↔
        ∃ a ∈ g.arrivals r.node.returns r.node.resolvers (r.node.withoutProvides d).provides,
          ((Path.root r.type r.name).into a.1, a.2) = s := by
    intro r d s
    simp only [starts, List.mem_map, mem_arrivals_withoutProvides,
      FieldNode.returns_withoutProvides, FieldNode.resolvers_withoutProvides]
  -- Positions that are read alike simulate each other, one way and the other.
  constructor
  · refine exists_reported_of_simulation (S := fun q p => PositionAlike p q) ?_
      (fun q p n o q₁ hpq hq₁ => h.exists_step_back hreturns hpq hq₁)
      (fun q p hpq => hpq.type.symm) (fun q p n hpq hs => (h.stuck_iff_of_alike hpq n).2 hs)
    intro r' hr'
    obtain ⟨r, hr, hrr⟩ := exists_of_forall₂_right h.rootFields hr'
    refine ⟨_, mem_rootFields_withoutProvides.2 ⟨r, hr, rfl⟩, fun s hs => ?_⟩
    obtain ⟨a, ha, rfl⟩ := (hstarts' hrr s).1 hs
    obtain ⟨p, hp, halike⟩ := (h.alikeBelow_root hreturns hr hr' hrr).symm.exists_arrival ha
    exact ⟨_, (hstarts r _ _).2 ⟨(a.1, p), hp, rfl⟩, halike.symm⟩
  · refine exists_reported_of_simulation (S := PositionAlike) ?_
      (fun p q n o p₁ hpq hp₁ => h.exists_step hreturns hpq hp₁) (fun p q hpq => hpq.type)
      (fun p q n hpq hs => (h.stuck_iff_of_alike hpq n).1 hs)
    intro r₁ hr₁
    obtain ⟨r, hr, rfl⟩ := mem_rootFields_withoutProvides.1 hr₁
    obtain ⟨r', hr', hrr⟩ := exists_of_forall₂ h.rootFields hr
    refine ⟨r', hr', fun s hs => ?_⟩
    obtain ⟨a, ha, rfl⟩ := (hstarts r _ s).1 hs
    obtain ⟨q, hq, halike⟩ := (h.alikeBelow_root hreturns hr hr' hrr).exists_arrival ha
    exact ⟨_, (hstarts' hrr _).2 ⟨(a.1, q), hq, rfl⟩, halike⟩

end Agreeing

end Walks

end EqualUpTo

end Graph

end Federation
