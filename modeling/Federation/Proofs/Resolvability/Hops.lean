import Federation.Proofs.Resolvability.CycleGuard

/-!
# Selections along a way

The walk cuts a provided selection down from step to step: to what is selected below the field that
it goes through and, where the field returns an abstract type, to what applies to the possible type
that it goes into.  A `Hop` is such a step as the selection sees it, and `FieldSet.selects` says
whether a field is still selected after some hops.

Joining selections joins what they select (`selects_append`), so for what a position carries it
makes no difference in how many parts it was provided.  After a step, a subgraph has what it had
before one hop earlier, and what it provides with the field (`any_selects_of_mem_arrivals`).
-/

namespace Federation

/-- A step of the walk as a selection sees it: through a field, to the type that it returns, and
into one of its possible types if that is abstract. -/
structure Hop where
  field : Name
  returns : Name
  possible : Option Name

namespace FieldSet

/-- What applies of a selection on a type where the walk goes on: all of it, or what applies to one
of the possible types. -/
def arriving (returns : Name) : Option Name → FieldSet → FieldSet
  | none, F => F
  | some o, F => F.forPossibleType returns o

/-- Whether a field is selected after some hops. -/
def selects (n : Name) : List Hop → FieldSet → Bool
  | [], F => F.fieldNames.contains n
  | h :: hops, F =>
    (F.selectionOf? h.field).any fun S => selects n hops (S.arriving h.returns h.possible)

theorem arriving_append (returns : Name) (possible : Option Name) (F G : FieldSet) :
    (F ++ G).arriving returns possible =
      F.arriving returns possible ++ G.arriving returns possible := by
  cases possible with
  | none => rfl
  | some o => exact restrict_append _ F G

@[simp] theorem arriving_empty (returns : Name) (possible : Option Name) :
    empty.arriving returns possible = empty := by
  cases possible <;> rfl

theorem any_merge? {P : FieldSet → Bool} (hP : ∀ F G, P (F ++ G) = (P F || P G))
    (a b : Option FieldSet) : (merge? a b).any P = (a.any P || b.any P) := by
  cases a <;> cases b <;> simp [merge?, hP]

/-- Joined selections select what one of them selects. -/
theorem selects_append (n : Name) (hops : List Hop) (F G : FieldSet) :
    (F ++ G).selects n hops = (F.selects n hops || G.selects n hops) := by
  induction hops generalizing F G with
  | nil => simp [selects]
  | cons h hops ih =>
    simp only [selects, selectionOf?_append]
    exact any_merge? (fun S T => by rw [arriving_append, ih]) _ _

@[simp] theorem selects_empty (n : Name) (hops : List Hop) : empty.selects n hops = false := by
  cases hops <;> rfl

/-- Selections of nothing can be passed over. -/
theorem any_selects_filter (n : Name) (hops : List Hop) (possible : Option Name) (returns : Name)
    (a : Option FieldSet) :
    ((a.filter fun F => !F.isEmpty).any fun F => (F.arriving returns possible).selects n hops) =
      a.any fun F => (F.arriving returns possible).selects n hops := by
  cases a with
  | none => rfl
  | some F => cases F <;> simp [Option.filter_some, isEmpty]

/-- Whatever is selected somewhere is one of the names of the selection. -/
theorem mem_allNames_of_mem_fieldNames {n : Name} {F : FieldSet} (h : n ∈ F.fieldNames) :
    n ∈ F.allNames := by
  induction F with
  | empty => exact h
  | field m sub rest _ ih =>
    simp only [fieldNames, allNames, List.mem_cons, List.mem_append] at h ⊢
    exact h.imp id fun h => .inr (ih h)
  | fragment c sub rest ihs ihr =>
    simp only [allNames, List.mem_append]
    cases c with
    | none =>
      simp only [fieldNames, List.mem_append] at h
      exact .inr (h.imp ihs ihr)
    | some c => exact .inr (.inr (ihr h))

theorem mem_allNames_of_mem_arriving {n returns : Name} {possible : Option Name} {F : FieldSet}
    (h : n ∈ (F.arriving returns possible).allNames) : n ∈ F.allNames := by
  cases possible with
  | none => exact h
  | some o => exact mem_allNames_of_mem_restrict h

end FieldSet

namespace Graph

variable {g : Graph} {returns : Name} {resolving : SubgraphSet} {provided : SubgraphMap FieldSet}
  {possible : Option Name} {q : Position}

/-- What a subgraph has where a value arrives: what it had, as far as it applies, unless it does not
resolve the possible type. -/
theorem get?_provided_of_mem_arrivals (h : (possible, q) ∈ g.arrivals returns resolving provided)
    (i : SubgraphId) : q.provided.get? i = if possible = none ∨ i ∈ q.resolving then
      (provided.get? i).map (FieldSet.arriving returns possible) else none := by
  obtain ⟨t, _, ⟨_, h⟩ | ⟨_, h⟩⟩ := mem_arrivals_iff.1 h
  · cases h
    rw [if_pos (.inl rfl)]
    cases provided.get? i <;> rfl
  · obtain ⟨o, s, _, _, h⟩ := mem_possibleArrivals_iff.1 h
    cases h
    simp only [SubgraphMap.get?_map, SubgraphMap.get?_filter, decide_eq_true_eq, reduceCtorEq,
      false_or]
    split <;> rfl

/-- What a subgraph selects where a value of a field arrives: what it selected before, one hop
earlier, and what it selects with the field. -/
theorem any_selects_of_mem_arrivals {name : Name} {f : FieldNode} {next : SubgraphSet}
    (h : (possible, q) ∈ g.arrivals f.returns next (providedBelow provided name f next))
    (i : SubgraphId) (n : Name) (hops : List Hop) :
    (q.provided.get? i).any (FieldSet.selects n hops) = true ↔
      i ∈ next ∧ (possible = none ∨ i ∈ q.resolving) ∧
        ((provided.get? i).any (FieldSet.selects n (⟨name, f.returns, possible⟩ :: hops)) = true ∨
          (f.provides.get? i).any
            (fun F => (F.arriving f.returns possible).selects n hops) = true) := by
  rw [get?_provided_of_mem_arrivals h, providedBelow, SubgraphMap.get?_ofSet]
  by_cases hi : i ∈ next
  · by_cases hkeep : possible = none ∨ i ∈ q.resolving
    · have hbind : ((provided.get? i).bind (FieldSet.selectionOf? name)).any
          (fun F => (F.arriving f.returns possible).selects n hops) =
          (provided.get? i).any (FieldSet.selects n (⟨name, f.returns, possible⟩ :: hops)) := by
        cases provided.get? i <;> rfl
      rw [if_pos hi, if_pos hkeep, Option.any_map, providedAt, FieldSet.any_merge? fun F G => by
        rw [FieldSet.arriving_append, FieldSet.selects_append], FieldSet.any_selects_filter, hbind]
      simp [hi, hkeep]
    · simp [hkeep]
  · simp [hi]

end Graph

end Federation
