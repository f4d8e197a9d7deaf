import Federation.Name

/-!
# Field sets

A field set is the selection that a `@key`, `@provides` or `@requires` makes, such as
`id org { id }`: plain fields, each with the selections below it, and inline fragments, with or
without a type condition.  It is not bound to a schema.

A value of `FieldSet` is its first selection with the selections below that and those after it,
so every function on field sets recurses on the data.  `F ++ G` makes the selections of both.

* `fieldNames` are the fields selected on the parent type itself, and `selectionOf? f` is what is
  selected below `f`; it has an answer exactly for those fields (`selectionOf?_isSome_iff`).
* `restrict` drops the fragments whose condition fails and opens the others up.
* Both distribute over `++` (`selectionOf?_append`, `restrict_append`), also where a part may be
  missing (`bind_merge?`, `map_merge?`).
-/

namespace Federation

/-- Selections of fields and inline fragments. -/
inductive FieldSet where
  /-- No further selection. -/
  | empty
  /-- A field with the selections below it, and the selections after it. -/
  | field (name : Name) (sub rest : FieldSet)
  /-- An inline fragment with the selections in it, and the selections after it. -/
  | fragment (condition : Option Name) (sub rest : FieldSet)
deriving DecidableEq

namespace FieldSet

instance : Inhabited FieldSet := ⟨empty⟩

/-- Whether nothing is selected. -/
def isEmpty : FieldSet → Bool
  | empty => true
  | _ => false

/-- The selections of one field set and then those of another. -/
def append : FieldSet → FieldSet → FieldSet
  | empty, g => g
  | field n sub rest, g => field n sub (rest.append g)
  | fragment c sub rest, g => fragment c sub (rest.append g)

instance : Append FieldSet := ⟨append⟩

/-- The fields selected on the parent type itself, fragments without a condition opened up. -/
def fieldNames : FieldSet → List Name
  | empty => []
  | field n _ rest => n :: rest.fieldNames
  | fragment none sub rest => sub.fieldNames ++ rest.fieldNames
  | fragment (some _) _ rest => rest.fieldNames

/-- Two selections that may be missing, as one. -/
def merge? : Option FieldSet → Option FieldSet → Option FieldSet
  | none, g => g
  | f, none => f
  | some f, some g => some (f ++ g)

/-- What is selected below a field, over all its selections on the parent type; nothing where the
field is not selected at all. -/
def selectionOf? (name : Name) : FieldSet → Option FieldSet
  | empty => none
  | field n sub rest =>
    if n = name then merge? (some sub) (rest.selectionOf? name) else rest.selectionOf? name
  | fragment none sub rest => merge? (sub.selectionOf? name) (rest.selectionOf? name)
  | fragment (some _) _ rest => rest.selectionOf? name

/-- The selections that apply where the conditions accepted by `holds` hold, fragments opened
up.  What is selected below a field stays as it is. -/
def restrict (holds : Name → Bool) : FieldSet → FieldSet
  | empty => empty
  | field n sub rest => field n sub (rest.restrict holds)
  | fragment c sub rest =>
    if c.all holds then sub.restrict holds ++ rest.restrict holds else rest.restrict holds

/-- The part of a selection on an abstract type that applies to one of its possible types: a
condition holds if it names either of the two. -/
def forPossibleType (abstractType objectType : Name) : FieldSet → FieldSet :=
  restrict fun c => c = abstractType || c = objectType

/-- The words of a field set, which a space separates when it is written. -/
def words : FieldSet → List String
  | empty => []
  | field n empty rest => n.text :: rest.words
  | field n sub rest => n.text :: "\x7b" :: sub.words ++ "\x7d" :: rest.words
  | fragment none sub rest => "..." :: "\x7b" :: sub.words ++ "\x7d" :: rest.words
  | fragment (some c) sub rest =>
    "..." :: "on" :: c.text :: "\x7b" :: sub.words ++ "\x7d" :: rest.words

/-- A field set as it is written. -/
def render (f : FieldSet) : String := " ".intercalate f.words

/-! ### Appending -/

@[simp] theorem empty_append (g : FieldSet) : empty ++ g = g := rfl

@[simp] theorem field_append (n : Name) (sub rest g : FieldSet) :
    field n sub rest ++ g = field n sub (rest ++ g) := rfl

@[simp] theorem fragment_append (c : Option Name) (sub rest g : FieldSet) :
    fragment c sub rest ++ g = fragment c sub (rest ++ g) := rfl

@[simp] theorem append_empty (f : FieldSet) : f ++ empty = f := by
  induction f with
  | empty => rfl
  | field n sub rest _ ih => simp [ih]
  | fragment c sub rest _ ih => simp [ih]

theorem append_assoc (f g h : FieldSet) : f ++ g ++ h = f ++ (g ++ h) := by
  induction f with
  | empty => rfl
  | field n sub rest _ ih => simp [ih]
  | fragment c sub rest _ ih => simp [ih]

@[simp] theorem fieldNames_append (f g : FieldSet) :
    (f ++ g).fieldNames = f.fieldNames ++ g.fieldNames := by
  induction f with
  | empty => rfl
  | field n sub rest _ ih => simp [fieldNames, ih]
  | fragment c sub rest _ ih => cases c <;> simp [fieldNames, ih]

/-! ### Selections below a field -/

@[simp] theorem merge?_none_left (g : Option FieldSet) : merge? none g = g := by cases g <;> rfl

@[simp] theorem merge?_none_right (f : Option FieldSet) : merge? f none = f := by cases f <;> rfl

theorem merge?_assoc (f g h : Option FieldSet) :
    merge? (merge? f g) h = merge? f (merge? g h) := by
  cases f <;> cases g <;> cases h <;> simp [merge?, append_assoc]

/-- What distributes over `++` distributes over parts that may be missing. -/
theorem map_merge? {φ : FieldSet → FieldSet} (hφ : ∀ f g, φ (f ++ g) = φ f ++ φ g)
    (f g : Option FieldSet) : (merge? f g).map φ = merge? (f.map φ) (g.map φ) := by
  cases f with
  | none => simp
  | some f =>
    cases g with
    | none => simp
    | some g => exact congrArg some (hφ f g)

theorem bind_merge? {φ : FieldSet → Option FieldSet}
    (hφ : ∀ f g, φ (f ++ g) = merge? (φ f) (φ g)) (f g : Option FieldSet) :
    (merge? f g).bind φ = merge? (f.bind φ) (g.bind φ) := by
  cases f with
  | none => simp
  | some f =>
    cases g with
    | none => simp
    | some g => exact hφ f g

theorem selectionOf?_append (name : Name) (f g : FieldSet) :
    (f ++ g).selectionOf? name = merge? (f.selectionOf? name) (g.selectionOf? name) := by
  induction f with
  | empty => simp [selectionOf?]
  | field n sub rest _ ih =>
    by_cases h : n = name <;> simp [selectionOf?, h, ih, merge?_assoc]
  | fragment c sub rest _ ih => cases c <;> simp [selectionOf?, ih, merge?_assoc]

@[simp] theorem isSome_merge? (f g : Option FieldSet) :
    (merge? f g).isSome = (f.isSome || g.isSome) := by
  cases f <;> cases g <;> rfl

/-- A field has a selection exactly when it is selected. -/
theorem selectionOf?_isSome_iff (name : Name) (f : FieldSet) :
    (f.selectionOf? name).isSome = true ↔ name ∈ f.fieldNames := by
  induction f with
  | empty => simp [selectionOf?, fieldNames]
  | field n sub rest _ ih =>
    by_cases h : n = name
    · -- The field at hand is selected, and the rest only adds to what is selected below it.
      simp [selectionOf?, fieldNames, h]
    · simp [selectionOf?, fieldNames, h, ih, eq_comm (a := name)]
  | fragment c sub rest ihs ihr => cases c <;> simp [selectionOf?, fieldNames, ihs, ihr]

/-! ### Restriction -/

theorem restrict_append (holds : Name → Bool) (f g : FieldSet) :
    (f ++ g).restrict holds = f.restrict holds ++ g.restrict holds := by
  induction f with
  | empty => rfl
  | field n sub rest _ ih => simp [restrict, ih]
  | fragment c sub rest _ ih =>
    by_cases h : c.all holds = true <;> simp [restrict, h, ih, append_assoc]

theorem forPossibleType_append (abstractType objectType : Name) (f g : FieldSet) :
    (f ++ g).forPossibleType abstractType objectType =
      f.forPossibleType abstractType objectType ++ g.forPossibleType abstractType objectType :=
  restrict_append _ f g

end FieldSet

/-- A key that a subgraph declares on an entity.  From a resolvable key the subgraph can resolve
the entity on its own. -/
structure EntityKey where
  fields : FieldSet
  resolvable : Bool
deriving DecidableEq

end Federation
