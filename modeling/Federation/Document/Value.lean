import Federation.Name

/-!
# Values and directive applications

A value is what a directive argument or a default is written as.  Numbers keep the text they are
written with, so `1` and `1.0` are different values; the two notations for strings are not told
apart, so a value is its content.  Equality is decided by kind and content (`Value.beq_iff_eq`),
and directive applications are compared by it when they are merged.
-/

namespace Federation

/-- A value of the GraphQL language. -/
inductive Value where
  /-- The absent value. -/
  | null
  /-- A truth value. -/
  | boolean (b : Bool)
  /-- An integer, as its digits. -/
  | int (digits : String)
  /-- A number with a fraction or an exponent, as it is written. -/
  | float (digits : String)
  /-- A text. -/
  | string (text : String)
  /-- A value of an enumeration. -/
  | enum (name : Name)
  /-- A variable of an operation. -/
  | var (name : Name)
  /-- A list of values. -/
  | list (items : List Value)
  /-- Values by field, in the order in which they are written. -/
  | object (fields : List (Name × Value))

namespace Value

mutual

/-- Whether two values are of one kind and have the same content. -/
def beq : Value → Value → Bool
  | null, null => true
  | boolean a, boolean b => a == b
  | int a, int b => a == b
  | float a, float b => a == b
  | string a, string b => a == b
  | enum a, enum b => a == b
  | var a, var b => a == b
  | list a, list b => beqItems a b
  | object a, object b => beqFields a b
  | _, _ => false

/-- Whether two lists of values agree item by item. -/
def beqItems : List Value → List Value → Bool
  | [], [] => true
  | a :: as, b :: bs => beq a b && beqItems as bs
  | _, _ => false

/-- Whether two lists of fields agree field by field, names included. -/
def beqFields : List (Name × Value) → List (Name × Value) → Bool
  | [], [] => true
  | (m, a) :: as, (n, b) :: bs => m == n && beq a b && beqFields as bs
  | _, _ => false

end

mutual

theorem beq_iff_eq : ∀ a b : Value, beq a b = true ↔ a = b
  | null, b => by cases b <;> simp [beq]
  | boolean a, b => by cases b <;> simp [beq]
  | int a, b => by cases b <;> simp [beq]
  | float a, b => by cases b <;> simp [beq]
  | string a, b => by cases b <;> simp [beq]
  | enum a, b => by cases b <;> simp [beq]
  | var a, b => by cases b <;> simp [beq]
  | list a, b => by
    cases b with
    | list b => simp [beq, beqItems_iff_eq a b]
    | _ => simp [beq]
  | object a, b => by
    cases b with
    | object b => simp [beq, beqFields_iff_eq a b]
    | _ => simp [beq]

theorem beqItems_iff_eq : ∀ a b : List Value, beqItems a b = true ↔ a = b
  | [], [] => by simp [beqItems]
  | [], _ :: _ => by simp [beqItems]
  | _ :: _, [] => by simp [beqItems]
  | a :: as, b :: bs => by simp [beqItems, beq_iff_eq a b, beqItems_iff_eq as bs]

theorem beqFields_iff_eq : ∀ a b : List (Name × Value), beqFields a b = true ↔ a = b
  | [], [] => by simp [beqFields]
  | [], _ :: _ => by simp [beqFields]
  | _ :: _, [] => by simp [beqFields]
  | (m, a) :: as, (n, b) :: bs => by
    simp [beqFields, beq_iff_eq a b, beqFields_iff_eq as bs]

end

instance : DecidableEq Value := fun a b => decidable_of_iff _ (beq_iff_eq a b)

/-- The text of a string value. -/
def text? : Value → Option String
  | string s => some s
  | _ => none

end Value

/-- A directive applied somewhere, with its arguments in the order in which they are written. -/
structure Directive where
  /-- The name after the `@`. -/
  name : Name
  /-- The arguments by name. -/
  arguments : List (Name × Value)
deriving DecidableEq

/-- The first argument of a given name. -/
def Directive.argument? (d : Directive) (name : String) : Option Value :=
  (d.arguments.find? fun a => a.1.text == name).map Prod.snd

end Federation
