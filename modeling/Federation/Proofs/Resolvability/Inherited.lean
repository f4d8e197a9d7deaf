import Federation.Proofs.Resolvability.Hops

/-!
# Inherited selections

What is provided at a position is cut down on the way to the positions below it, and joined there
with what comes with the fields on the way.  Both orders give the same selections
(`FieldSet.carried_merge?`): what is selected below a field and what applies to a possible type are
read off each part of a joined selection on its own (`FieldSet.selectionOf?_append`,
`FieldSet.restrict_append`), and only a selection that is empty in all its parts is dropped
(`FieldSet.filter_merge?`).

Restricting a selection leaves no fragments (`FieldSet.fieldsOnly_restrict`), and where there are
none it leaves everything (`FieldSet.restrict_eq_self_iff`), so restricting it once more makes no
difference.
-/

namespace Federation

namespace FieldSet

variable {F G : FieldSet}

/-! ### Restricted selections -/

/-- Only fields are selected on the parent type, and no fragments. -/
def FieldsOnly : FieldSet → Prop
  | empty => True
  | field _ _ rest => rest.FieldsOnly
  | fragment _ _ _ => False

theorem FieldsOnly.append (hF : F.FieldsOnly) (hG : G.FieldsOnly) : (F ++ G).FieldsOnly := by
  induction F with
  | empty => exact hG
  | field n sub rest _ ih => exact ih hF
  | fragment c sub rest => exact hF.elim

theorem fieldsOnly_restrict (holds : Name → Bool) (F : FieldSet) :
    (F.restrict holds).FieldsOnly := by
  induction F with
  | empty => trivial
  | field n sub rest _ ih => exact ih
  | fragment c sub rest ihs ihr =>
    rw [restrict]
    split
    · exact ihs.append ihr
    · exact ihr

theorem restrict_eq_self_iff {holds : Name → Bool} : F.restrict holds = F ↔ F.FieldsOnly := by
  constructor
  · intro h
    exact h ▸ fieldsOnly_restrict holds F
  · intro hF
    induction F with
    | empty => rfl
    | field n sub rest _ ih => rw [restrict, ih hF]
    | fragment c sub rest => exact hF.elim

/-! ### Parts of a selection -/

/-- Selections that select nothing can be dropped before others are joined to them. -/
theorem filter_merge? (a b : Option FieldSet) : (merge? a b).filter (fun F => !F.isEmpty) =
    merge? (a.filter fun F => !F.isEmpty) (b.filter fun F => !F.isEmpty) := by
  cases a with
  | none => simp
  | some F =>
    cases b with
    | none => simp
    | some G => cases F <;> cases G <;> simp [merge?, isEmpty, Option.filter_some]

/-! ### Selections along a way -/

/-- What is left of a selection where the walk arrives after a hop.  What selects nothing below the
field is dropped there. -/
def after? (h : Hop) (a : Option FieldSet) : Option FieldSet :=
  ((a.bind (selectionOf? h.field)).filter fun F => !F.isEmpty).map (arriving h.returns h.possible)

/-- What is left of a selection after some hops. -/
def carried (hops : List Hop) (a : Option FieldSet) : Option FieldSet :=
  hops.foldl (fun a h => after? h a) a

theorem after?_merge? (h : Hop) (a b : Option FieldSet) :
    after? h (merge? a b) = merge? (after? h a) (after? h b) := by
  rw [after?, bind_merge? (selectionOf?_append h.field), filter_merge?,
    map_merge? (arriving_append h.returns h.possible)]
  rfl

/-- Joining selections and carrying them on can be done in either order. -/
theorem carried_merge? (hops : List Hop) (a b : Option FieldSet) :
    carried hops (merge? a b) = merge? (carried hops a) (carried hops b) := by
  induction hops generalizing a b with
  | nil => rfl
  | cons h hops ih => exact (congrArg (carried hops) (after?_merge? h a b)).trans (ih _ _)

theorem carried_none (hops : List Hop) : carried hops none = none := by
  induction hops with
  | nil => rfl
  | cons h hops ih => exact ih

/-- What is provided below a field is what was provided before, carried one hop on, joined with what
comes with the field. -/
theorem map_arriving_providedAt (provided : SubgraphMap FieldSet) (name : Name) (f : FieldNode)
    (i : SubgraphId) (possible : Option Name) :
    (Graph.providedAt provided name f i).map (arriving f.returns possible) =
      merge? (after? ⟨name, f.returns, possible⟩ (provided.get? i))
        ((f.provides.get? i).map (arriving f.returns possible)) :=
  map_merge? (arriving_append f.returns possible) _ _

/-- **The operations on field sets agree**: a field has a selection exactly if it is selected; what
applies to a possible type has no fragments at the top, and applies to it as a whole; and what is
selected below a field or applies to a possible type is, for two field sets joined, that of the one
and then that of the other.  So selections that are joined and then carried along a way are those
that are carried along it and then joined; and of what a subgraph provides below a field, what was
provided above is left as if it had come all the way alone, and what comes with the field too. -/
theorem selections_agree :
    (∀ (F : FieldSet) n, n ∈ F.fieldNames ↔ (F.selectionOf? n).isSome = true) ∧
    (∀ a o F, (forPossibleType a o F).FieldsOnly ∧
      forPossibleType a o (forPossibleType a o F) = forPossibleType a o F) ∧
    (∀ n F G, selectionOf? n (F ++ G) = merge? (selectionOf? n F) (selectionOf? n G)) ∧
    (∀ a o F G, forPossibleType a o (F ++ G) = forPossibleType a o F ++ forPossibleType a o G) ∧
    (∀ hops a b, carried hops (merge? a b) = merge? (carried hops a) (carried hops b)) ∧
    ∀ provided name f next i possible hops,
      carried hops (((Graph.providedBelow provided name f next).get? i).map
          (arriving f.returns possible)) =
        if i ∈ next then
          merge? (carried (⟨name, f.returns, possible⟩ :: hops) (provided.get? i))
            (carried hops ((f.provides.get? i).map (arriving f.returns possible)))
        else none := by
  refine ⟨fun F n => (selectionOf?_isSome_iff n F).symm, fun a o F => ⟨fieldsOnly_restrict _ F, ?_⟩,
    selectionOf?_append, forPossibleType_append, carried_merge?, ?_⟩
  · exact restrict_eq_self_iff.2 (fieldsOnly_restrict _ F)
  · intro provided name f next i possible hops
    rw [Graph.providedBelow, SubgraphMap.get?_ofSet]
    split
    · rw [map_arriving_providedAt, carried_merge?]
      rfl
    · exact carried_none hops

end FieldSet

end Federation
