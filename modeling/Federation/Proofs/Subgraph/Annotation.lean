import Federation.Subgraph.Annotation

/-!
# What annotations declare

When a directive can be read, and what it then declares: a field set is read if the source that the
directive carries is one and fits the type that it selects from (`fieldSetOf_eq_ok_iff`), and keys,
`@provides` and `@override` ask for something on top (`keyOf_eq_ok_iff`, `providesOf_eq_ok_iff`,
`overrideOf_eq_ok_iff`).

A type without faults has all of its directives where they may stand and can be read
(`typeDirectiveFaults_eq_nil_iff`).

Of the directives of one name the first one that can be read counts.  Where all of them are the same
one, and it can be read, it is that one (`firstRead?_eq_some_of_unique`).
-/

namespace Federation

section Reading

variable {types : Table TypeDeclaration} {part : Coordinate} {target : Name} {d : Directive}
  {F : FieldSet}

/-- What is not wrong fits the type that it selects from, which is declared. -/
theorem selectionFault?_eq_none_iff : selectionFault? types target F = none ↔
    types.contains target = true ∧ misfit? types target F = none := by
  unfold selectionFault?
  split <;> simp_all

theorem fieldSetOf_eq_ok_iff : fieldSetOf types part target d = .ok F ↔
    ∃ source, (d.argument? "fields").bind Value.text? = some source ∧
      FieldSet.ofText? source = .ok F ∧ selectionFault? types target F = none := by
  unfold fieldSetOf
  cases hsource : (d.argument? "fields").bind Value.text? with
  | none => simp
  | some source =>
    cases hread : FieldSet.ofText? source with
    | error fault => simp [hread]
    | ok G =>
      simp only [hread, Option.some.injEq, exists_eq_left', Except.ok.injEq]
      constructor
      · intro h
        split at h
        · cases h
        · rename_i hnone
          cases h
          exact ⟨rfl, hnone⟩
      · rintro ⟨rfl, hnone⟩
        rw [hnone]

/-- A key is resolvable unless it says that it is not. -/
theorem keyOf_eq_ok_iff {k : EntityKey} : keyOf types target d = .ok k ↔
    fieldSetOf types (.type target) target d = .ok k.fields ∧
      (d.argument? "resolvable").elim (k.resolvable = true)
        (· = .boolean k.resolvable) := by
  unfold keyOf
  obtain ⟨fields, resolvable⟩ := k
  cases fieldSetOf types (.type target) target d with
  | error fault => simp
  | ok G =>
    cases d.argument? "resolvable" with
    | none => simp [eq_comm]
    | some v => cases v <;> simp

theorem providesOf_eq_ok_iff : providesOf types part target d = .ok F ↔
    isCompositeType types target = true ∧ fieldSetOf types part target d = .ok F := by
  unfold providesOf
  split <;> simp_all

theorem overrideOf_eq_ok_iff {subgraph source : String} :
    overrideOf subgraph part d = .ok source ↔
      (d.argument? "from").bind Value.text? = some source ∧ source ≠ subgraph := by
  unfold overrideOf
  cases (d.argument? "from").bind Value.text? with
  | none => simp
  | some x =>
    by_cases hx : x = subgraph
    · simp only [hx, if_true, reduceCtorEq, Option.some.injEq, false_iff]
      rintro ⟨rfl, hne⟩
      exact hne rfl
    · simp only [hx, if_false, Except.ok.injEq, Option.some.injEq]
      exact ⟨fun h => ⟨h, h ▸ hx⟩, fun h => h.1⟩

/-- A type that has fields has a key for each `@key`. -/
theorem mem_keysOf_iff {t : TypeDeclaration} {r : Except Fault EntityKey} :
    r ∈ keysOf types target t ↔ t.kind.hasFields = true ∧
      ∃ d ∈ t.directives, canonicalName d.name = "key" ∧ keyOf types target d = r := by
  unfold keysOf
  split <;> rename_i h <;> simp [h, and_assoc]

theorem get?_annotate {subgraph : String} {n : Name} : (annotate types subgraph).get? n =
    (types.get? n).map (annotateType types subgraph n) :=
  Table.get?_mapEntries _ _ _

/-! ### When nothing is wrong -/

section Faults

variable {subgraph : String} {n m : Name}

/-- Nothing is wrong with the directives of a field if all of them, and those of its arguments,
stand where they may, and those on fields of object types can be read. -/
theorem fieldDirectiveFaults_eq_nil_iff {kind : TypeKind} {f : FieldDefinition} :
    fieldDirectiveFaults types subgraph kind n m f = [] ↔
      placementFaults (.ofFieldOf kind) (.field n m) [] f.directives = [] ∧
      (∀ a ∈ f.arguments,
        placementFaults .argument (.argument n m a.1) [] a.2.directives = []) ∧
      (kind = .object → ∀ d ∈ f.directives, annotationFaults types subgraph n m f d = []) := by
  simp only [fieldDirectiveFaults, List.append_eq_nil_iff, List.flatMap_eq_nil_iff, and_assoc,
    ite_eq_right_iff]

/-- Nothing is wrong with the directives of a type if its own ones and those of its parts stand
where they may, and its keys and those of its fields can be read. -/
theorem typeDirectiveFaults_eq_nil_iff {t : TypeDeclaration} :
    typeDirectiveFaults types subgraph n t = [] ↔
      placementFaults (.type t.kind) (.type n) [] t.directives = [] ∧
      (∀ r ∈ keysOf types n t, ∃ k, r = .ok k) ∧
      (∀ f ∈ t.fields.entries,
        fieldDirectiveFaults types subgraph t.kind n f.1 f.2.definition = []) ∧
      (∀ v ∈ t.values.entries,
        placementFaults .enumValue (.enumValue n v.1) [] v.2.directives = []) ∧
      (∀ v ∈ t.inputs.entries,
        placementFaults .inputField (.inputField n v.1) [] v.2.directives = []) := by
  simp only [typeDirectiveFaults, List.append_eq_nil_iff, List.flatMap_eq_nil_iff, and_assoc,
    errors_eq_nil_iff]

end Faults

end Reading

/-! ### The first directive of a name -/

section FirstRead

variable {α : Type} {name : String} {read : Directive → Except Fault α} {ds : List Directive}
  {a : α}

theorem exists_of_firstRead? (h : firstRead? name read ds = some a) :
    ∃ d ∈ ds, canonicalName d.name = name ∧ read d = .ok a := by
  obtain ⟨d, hd, h⟩ := List.exists_of_findSome?_eq_some h
  split at h
  · rename_i hname
    exact ⟨d, hd, beq_iff_eq.1 hname, eq_ok_of_toOption h⟩
  · cases h

theorem firstRead?_eq_some_of_unique {d : Directive} (hd : d ∈ ds)
    (hname : canonicalName d.name = name) (hread : read d = .ok a)
    (hunique : ∀ e ∈ ds, canonicalName e.name = name → e = d) :
    firstRead? name read ds = some a := by
  cases hfirst : firstRead? name read ds with
  | none =>
    have hnone := List.findSome?_eq_none_iff.1 hfirst d hd
    simp [hname, hread, Except.toOption] at hnone
  | some b =>
    obtain ⟨e, he, hename, heread⟩ := exists_of_firstRead? hfirst
    rw [hunique e he hename, hread] at heread
    rw [Except.ok.inj heread]

end FirstRead

end Federation
