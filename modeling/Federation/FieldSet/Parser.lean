import Federation.Blank
import Federation.Document.Parser
import Federation.FieldSet

/-!
# Reading field sets

A field set is read as the document that its source makes between two braces: that document has
to be a single selection set, and the selections have to do without labels, arguments, directives
on fields, and named fragments.  `FieldSet.ofText?` answers the field set or what is wrong with
it.
-/

namespace Federation

/-- What can be wrong with the source of a field set. -/
inductive FieldSetProblem where
  /-- The source between braces is no document. -/
  | syntaxError
  /-- It is a document, and not one selection set. -/
  | notOneSelectionSet
  /-- A field is selected under another name. -/
  | label (field : Name)
  /-- A field is selected with arguments. -/
  | arguments (field : Name)
  /-- A directive is applied to a field. -/
  | directives (field : Name)
  /-- A named fragment is used. -/
  | namedFragment (fragment : Name)
deriving DecidableEq

/-- Why a text is no field set. -/
inductive FieldSetFault where
  /-- There is nothing in it. -/
  | blank
  /-- There is something wrong in it. -/
  | unusable (source : String) (problem : FieldSetProblem)
deriving DecidableEq

namespace FieldSetFault

/-- The fault in words. -/
def message : FieldSetFault → String
  | blank => "the field set is empty"
  | unusable source problem =>
    s!"the field set \"{source}\" " ++ match problem with
      | .syntaxError => "is invalid: <syntax error>"
      | .notOneSelectionSet => "must be a single selection set"
      | .label f => s!"cannot use aliases (\"{f.text}\")"
      | .arguments f => s!"cannot select field \"{f.text}\" with arguments"
      | .directives f => s!"cannot apply directives to field \"{f.text}\""
      | .namedFragment f => s!"cannot use the named fragment \"{f.text}\""

end FieldSetFault

namespace FieldSet

/-- The field set that some selections are, or the first problem with them.  Directives on inline
fragments are passed over. -/
def ofSelections? : SelectionSet → Except FieldSetProblem FieldSet
  | .empty => .ok empty
  | .field label name arguments directives sub rest =>
    if label.isSome then .error (.label name)
    else if !arguments.isEmpty then .error (.arguments name)
    else if !directives.isEmpty then .error (.directives name)
    else do return field name (← ofSelections? sub) (← ofSelections? rest)
  | .spread name _ _ => .error (.namedFragment name)
  | .inline condition _ sub rest => do
    return fragment condition (← ofSelections? sub) (← ofSelections? rest)

/-- The field set that a document is, or what is wrong with it. -/
def ofDocument? : Document → Except FieldSetProblem FieldSet
  | [.operation _ _ _ _ selections] => ofSelections? selections
  | _ => .error .notOneSelectionSet

/-- The field set that a text is, or why it is none. -/
def ofText? (source : String) : Except FieldSetFault FieldSet :=
  if isBlankText source then .error .blank
  else
    match Document.ofText? ("\x7b " ++ source ++ " \x7d") with
    | none => .error (.unusable source .syntaxError)
    | some document => (ofDocument? document).mapError (.unusable source)

end FieldSet

end Federation
