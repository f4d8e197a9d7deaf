import Federation.Document.Definition
import Federation.Document.Token

/-!
# Parsing documents

The grammar of the September 2025 edition, on tokens.  `Document.ofText?` answers the definitions
of a text, or `none` if the text is no document; it checks form alone, so names may repeat and
references may lead nowhere.

The grammar is read liberally in a few places:

* a schema block need not list root operations, an extension of it with directives may list none,
  and a root operation without a type is passed over;
* an argument or a field of an object value that is a name alone, without a colon, is passed over;
* a description may take the place of the keyword of a fragment.

It is strict about commas in four places, where none may stand: after the description of a
definition, after the word `extend`, after a spread, and between a label and its colon.

A parser takes the tokens that are left and answers a value with the tokens after it.  It decides
by the next token and never goes back, so where a part has begun it has to be complete.  Parsers
that repeat or nest take a budget `n`, which bounds both how often they repeat and how deep they
nest; each round uses up a token, so the number of tokens of the document is budget enough.
-/

namespace Federation

/-- A parser: a value and the tokens that follow it, or `none` where the tokens do not fit. -/
abbrev Parser := StateT (List Lexeme) Option

namespace Parser

variable {α : Type}

/-! ### Single tokens -/

/-- The next token, taken. -/
def token : Parser Token
  | [] => none
  | t :: ts => some (t.token, ts)

/-- The next token, left where it is. -/
def peek : Parser (Option Token) := fun ts => some (ts.head?.map Lexeme.token, ts)

/-- Makes sure that no comma comes next. -/
def noComma : Parser Unit := fun ts =>
  if ts.head?.any Lexeme.afterComma then none else some ((), ts)

/-- Whether the next token is a given punctuator. -/
def nextIs (p : Punctuator) : Parser Bool := return (← peek) = some (.punct p)

/-- Takes a given punctuator. -/
def expect (p : Punctuator) : Parser Unit := do
  guard ((← token) = .punct p)

/-- Takes a given punctuator if it comes next, and says whether it did. -/
def accept (p : Punctuator) : Parser Bool
  | t :: ts => if t.token = .punct p then some (true, ts) else some (false, t :: ts)
  | [] => some (false, [])

/-- Takes a name, whatever it is. -/
def name : Parser Name := do
  match ← token with
  | .name n => return n
  | _ => failure

/-- Takes a name if one comes next. -/
def name? : Parser (Option Name)
  | ⟨.name n, _⟩ :: ts => some (some n, ts)
  | ts => some (none, ts)

/-- Takes a given word. -/
def expectWord (w : String) : Parser Unit := do
  guard ((← name).text = w)

/-- Takes a given word if it comes next, and says whether it did. -/
def acceptWord (w : String) : Parser Bool
  | ⟨.name n, comma⟩ :: ts =>
    if n.text = w then some (true, ts) else some (false, ⟨.name n, comma⟩ :: ts)
  | ts => some (false, ts)

/-- Takes a string if one comes next: the description of what follows. -/
def description : Parser (Option String)
  | ⟨.string s, _⟩ :: ts => some (some s, ts)
  | ts => some (none, ts)

/-! ### Repetition -/

/-- Items up to a closing punctuator, which is taken too. -/
def itemsTo (close : Punctuator) (item : Parser α) : Nat → Parser (List α)
  | 0 => failure
  | n + 1 => do
    if ← accept close then return []
    let x ← item
    return x :: (← itemsTo close item n)

/-- At least one item between two punctuators. -/
def block (n : Nat) (opening close : Punctuator) (item : Parser α) : Parser (List α) := do
  expect opening
  let xs ← itemsTo close item n
  guard !xs.isEmpty
  return xs

/-- A block, or nothing where its opening punctuator does not come next. -/
def block? (n : Nat) (opening close : Punctuator) (item : Parser α) : Parser (List α) := do
  if ← nextIs opening then block n opening close item else return []

/-- Items as long as a punctuator that starts one comes next. -/
def itemsFrom (start : Punctuator) (item : Parser α) : Nat → Parser (List α)
  | 0 => failure
  | n + 1 => do
    if ← nextIs start then
      let x ← item
      return x :: (← itemsFrom start item n)
    else return []

/-- One or more items with a punctuator between them, which may also stand before the first. -/
def separated (n : Nat) (separator : Punctuator) (item : Parser α) : Parser (List α) := do
  let _ ← accept separator
  let x ← item
  return x :: (← itemsFrom separator (do expect separator; item) n)

/-! ### Types, values, directives -/

/-- A type reference. -/
def typeRef : Nat → Parser TypeRef
  | 0 => failure
  | n + 1 => do
    match ← token with
    | .name m => return .named m (← accept .bang)
    | .punct .bracketL =>
      let item ← typeRef n
      expect .bracketR
      return .list item (← accept .bang)
    | _ => failure

/-- The value that a word is: a constant of the language, or a value of an enumeration. -/
def wordValue (n : Name) : Value :=
  if n.text = "null" then .null
  else if n.text = "true" then .boolean true
  else if n.text = "false" then .boolean false
  else .enum n

/-- A value; a constant one holds no variables. -/
def value (constant : Bool) : Nat → Parser Value
  | 0 => failure
  | n + 1 => do
    match ← token with
    | .int d => return .int d
    | .float d => return .float d
    | .string s => return .string s
    | .name m => return wordValue m
    | .punct .dollar =>
      guard !constant
      return .var (← name)
    | .punct .bracketL => return .list (← itemsTo .bracketR (value constant n) n)
    | .punct .braceL =>
      let field := do
        let m ← name
        -- A name alone is no field.
        if ← accept .colon then return some (m, ← value constant n) else return none
      return .object ((← itemsTo .braceR field n).filterMap id)
    | _ => failure

/-- An argument of a directive or of a selected field.  A name alone is none. -/
def argument (n : Nat) (constant : Bool) : Parser (Option (Name × Value)) := do
  let m ← name
  if ← accept .colon then return some (m, ← value constant n) else return none

/-- The arguments of a directive or of a selected field, if there are any. -/
def arguments (n : Nat) (constant : Bool) : Parser (List (Name × Value)) :=
  return (← block? n .parenL .parenR (argument n constant)).filterMap id

/-- An applied directive. -/
def directive (n : Nat) (constant : Bool) : Parser Directive := do
  expect .at
  let m ← name
  return ⟨m, ← arguments n constant⟩

/-- The directives that come next. -/
def directives (n : Nat) (constant : Bool) : Parser (List Directive) :=
  itemsFrom .at (directive n constant) n

/-! ### Selections -/

/-- Selections up to the closing brace, which is taken too. -/
def selections : Nat → Parser SelectionSet
  | 0 => failure
  | n + 1 => do
    match ← token with
    | .punct .braceR => return .empty
    | .punct .spread =>
      noComma
      match ← peek with
      | some (.name m) =>
        let _ ← token
        -- The word `on` cannot name a fragment; what follows it is a condition, whatever it is.
        if m.text = "on" then
          let condition ← name
          let ds ← directives n false
          expect .braceL
          let sub ← selections n
          guard (sub ≠ .empty)
          return .inline (some condition) ds sub (← selections n)
        else
          let ds ← directives n false
          return .spread m ds (← selections n)
      | _ =>
        let ds ← directives n false
        expect .braceL
        let sub ← selections n
        guard (sub ≠ .empty)
        return .inline none ds sub (← selections n)
    | .name first =>
      -- A colon shows that the first name was a label.
      let (label, m) ←
        if ← nextIs .colon then do
          noComma
          expect .colon
          pure (some first, ← name)
        else pure (none, first)
      let args ← arguments n false
      let ds ← directives n false
      if ← accept .braceL then
        let sub ← selections n
        guard (sub ≠ .empty)
        return .field label m args ds sub (← selections n)
      else
        return .field label m args ds .empty (← selections n)
    | _ => failure

/-- At least one selection between braces. -/
def selectionSet (n : Nat) : Parser SelectionSet := do
  expect .braceL
  let s ← selections n
  guard (s ≠ .empty)
  return s

/-! ### Parts of type definitions -/

/-- An argument of a field or directive, or a field of an input object. -/
def inputValue (n : Nat) : Parser (Name × InputValue) := do
  let d ← description
  let m ← name
  expect .colon
  let type ← typeRef n
  let default ← if ← accept .equals then do pure (some (← value true n)) else pure none
  return (m, ⟨d, type, default, ← directives n true⟩)

/-- A field of an object or interface type. -/
def fieldDefinition (n : Nat) : Parser (Name × FieldDefinition) := do
  let d ← description
  let m ← name
  let arguments ← block? n .parenL .parenR (inputValue n)
  expect .colon
  let type ← typeRef n
  return (m, ⟨d, arguments, type, ← directives n true⟩)

/-- A value of an enum type, which is none of the constants of the language. -/
def enumValueDefinition (n : Nat) : Parser (Name × EnumValueDefinition) := do
  let d ← description
  let m ← name
  guard (wordValue m = .enum m)
  return (m, ⟨d, ← directives n true⟩)

/-- The interfaces that a type implements, if it names any. -/
def interfaces (n : Nat) : Parser (List Name) := do
  if ← acceptWord "implements" then separated n .amp name else return []

/-- A type definition or extension, after its keyword. -/
def typeBlock (n : Nat) (kind : TypeKind) : Parser TypeBlock := do
  let m ← name
  match kind with
  | .object =>
    let is ← interfaces n
    let ds ← directives n true
    return ⟨m, ds, .object is (← block? n .braceL .braceR (fieldDefinition n))⟩
  | .interface =>
    let is ← interfaces n
    let ds ← directives n true
    return ⟨m, ds, .interface is (← block? n .braceL .braceR (fieldDefinition n))⟩
  | .union =>
    let ds ← directives n true
    let ms ← if ← accept .equals then separated n .pipe name else pure []
    return ⟨m, ds, .union ms⟩
  | .scalar => return ⟨m, ← directives n true, .scalar⟩
  | .enum =>
    let ds ← directives n true
    return ⟨m, ds, .enum (← block? n .braceL .braceR (enumValueDefinition n))⟩
  | .inputObject =>
    let ds ← directives n true
    return ⟨m, ds, .inputObject (← block? n .braceL .braceR (inputValue n))⟩

/-- Whether a block says nothing beyond its name; an extension has to say more. -/
def saysNothing (b : TypeBlock) : Bool :=
  b.directives.isEmpty && b.body.interfaces.isEmpty && b.body.fields.isEmpty &&
    b.body.members.isEmpty && b.body.values.isEmpty && b.body.inputs.isEmpty

/-! ### Schema blocks and directive definitions -/

/-- An object type named for an operation.  The type may be missing, and then none is named. -/
def rootOperation : Parser (Option (OperationType × Name)) := do
  let word ← name
  expect .colon
  match OperationType.ofKeyword? word.text with
  | some o => return (← name?).map (o, ·)
  | none => failure

/-- A schema definition, after its keyword. -/
def schemaDefinition (n : Nat) : Parser Definition := do
  let ds ← directives n true
  return .schema ds ((← block? n .braceL .braceR rootOperation).filterMap id)

/-- A schema extension, after its keywords.  It has to say something, but the list of its root
operations may be empty where it has directives. -/
def schemaExtension (n : Nat) : Parser Definition := do
  let ds ← directives n true
  let roots ← if ← accept .braceL then itemsTo .braceR rootOperation n else pure []
  guard !(ds.isEmpty && roots.isEmpty)
  return .schema ds (roots.filterMap id)

/-- A place where a directive may stand. -/
def directiveLocation : Parser DirectiveLocation := do
  match DirectiveLocation.ofText? (← name).text with
  | some l => return l
  | none => failure

/-- A directive definition, after its keyword. -/
def directiveDefinition (n : Nat) (description : Option String) : Parser DirectiveDefinition := do
  expect .at
  let m ← name
  let arguments ← block? n .parenL .parenR (inputValue n)
  let repeatable ← acceptWord "repeatable"
  expectWord "on"
  return ⟨description, m, arguments, repeatable, ← separated n .pipe directiveLocation⟩

/-! ### Executable definitions -/

/-- A variable that an operation takes. -/
def variableDefinition (n : Nat) : Parser VariableDefinition := do
  expect .dollar
  let m ← name
  expect .colon
  let type ← typeRef n
  let default ← if ← accept .equals then do pure (some (← value true n)) else pure none
  return ⟨m, type, default, ← directives n true⟩

/-- An operation, after its keyword. -/
def operation (n : Nat) (type : OperationType) : Parser Definition := do
  let m ← name?
  let vs ← block? n .parenL .parenR (variableDefinition n)
  let ds ← directives n false
  return .operation type m vs ds (← selectionSet n)

/-- A fragment of a given name, after its name. -/
def fragmentNamed (n : Nat) (m : Name) : Parser Definition := do
  expectWord "on"
  let condition ← name
  let ds ← directives n false
  return .fragment m condition ds (← selectionSet n)

/-- A fragment, after its keyword. -/
def fragment (n : Nat) : Parser Definition := do
  let m ← name
  guard (m.text ≠ "on")
  fragmentNamed n m

/-! ### Whole documents -/

/-- An extension, after its keyword. -/
def extension (n : Nat) : Parser Definition := do
  noComma
  let word ← name
  if word.text = "schema" then schemaExtension n
  else match TypeKind.ofKeyword? word.text with
    | some kind =>
      let b ← typeBlock n kind
      guard !saysNothing b
      return .typeExtension b
    | none => failure

/-- A definition that starts with a word, after that word. -/
def definitionAfter (n : Nat) (description : Option String) (word : Name) :
    Parser Definition := do
  match TypeKind.ofKeyword? word.text with
  | some kind => return .type ⟨description, ← typeBlock n kind⟩
  | none =>
    if word.text = "schema" then schemaDefinition n
    else if word.text = "directive" then return .directive (← directiveDefinition n description)
    else if description.isSome then
      -- The description stands for the keyword, so the word is the name of the fragment.
      guard (word.text = "fragment")
      fragmentNamed n word
    else if word.text = "extend" then extension n
    else if word.text = "fragment" then fragment n
    else match OperationType.ofKeyword? word.text with
      | some type => operation n type
      | none => failure

/-- One definition of a document.  A selection set on its own is a query. -/
def definition (n : Nat) : Parser Definition := do
  if ← nextIs .braceL then
    return .operation .query none [] [] (← selectionSet n)
  else
    let d ← description
    if d.isSome then noComma
    definitionAfter n d (← name)

/-- Definitions up to the end of the tokens. -/
def definitions (n : Nat) : Nat → Parser Document
  | 0 => failure
  | k + 1 => do
    match ← peek with
    | none => return []
    | some _ =>
      let d ← definition n
      return d :: (← definitions n k)

/-- The document that some tokens make up, if they make up one of at least one definition. -/
def document? (ts : List Lexeme) : Option Document :=
  let n := ts.length + 1
  match (definitions n n).run ts with
  | some (d :: ds, _) => some (d :: ds)
  | _ => none

end Parser

/-- The document that a text is, if it is one. -/
def Document.ofText? (s : String) : Option Document := (Lexeme.ofText? s).bind Parser.document?

end Federation
