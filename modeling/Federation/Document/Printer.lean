import Federation.Document.BlockString
import Federation.Document.Definition

/-!
# Printing documents

The written form of values, directives and definitions.  Two spaces indent a level.

Values stand on one line in the arguments of directives and in one-line argument lists
(`Value.render`).  Elsewhere lists and objects have a line per item, and a text of several lines
is a block string where it can be one (`Value.renderLines`).  Descriptions are block strings
wherever they can be.
-/

namespace Federation

/-! ### Strings -/

/-- The digits of a code point below 32 in four upper-case hexadecimal places. -/
def controlDigits (n : Nat) : List Char :=
  ['0', '0', (n / 16).digitChar, (n % 16).digitChar.toUpper]

/-- A character as it stands in a quoted string.  Quotes, backslashes and the control characters
are escaped; the tab is not. -/
def quotedChar (c : Char) : List Char :=
  if c = '"' then ['\\', '"']
  else if c = '\\' then ['\\', '\\']
  else if c = '\x08' then ['\\', 'b']
  else if c = '\n' then ['\\', 'n']
  else if c = '\x0c' then ['\\', 'f']
  else if c = '\r' then ['\\', 'r']
  else if c.toNat < 32 ∧ c ≠ '\t' then '\\' :: 'u' :: controlDigits c.toNat
  else [c]

/-- A text as a quoted string. -/
def quotedString (s : String) : String :=
  String.ofList ('"' :: s.toList.flatMap quotedChar ++ ['"'])

/-- The blanks before a line at a level: two spaces for every level. -/
def indentation (level : Nat) : String := String.ofList (List.replicate (2 * level) ' ')

/-- The start of a line at a level. -/
def newLine (level : Nat) : String := "\n" ++ indentation level

/-- A description at a level, with the line break after it. -/
def renderDescription (level : Nat) : Option String → String
  | none => ""
  | some s =>
    (if BlockString.isBlockText s.toList then BlockString.render (indentation level) s.toList
      else quotedString s) ++ newLine level

/-! ### Values -/

namespace Value

mutual

/-- A value on one line. -/
def render : Value → String
  | null => "null"
  | boolean b => if b then "true" else "false"
  | int d => d
  | float d => d
  | string s => quotedString s
  | enum n => n.text
  | var n => "$" ++ n.text
  | list vs => "[" ++ ", ".intercalate (renderItems vs) ++ "]"
  | object fs => "\x7b" ++ ", ".intercalate (renderFields fs) ++ "\x7d"

/-- The items of a list, each on one line. -/
def renderItems : List Value → List String
  | [] => []
  | v :: vs => v.render :: renderItems vs

/-- The fields of an object, each on one line. -/
def renderFields : List (Name × Value) → List String
  | [] => []
  | (n, v) :: fs => (n.text ++ ": " ++ v.render) :: renderFields fs

end

/-- Rendered items between brackets, a line for each. -/
def renderBlock (level : Nat) (opening close : String) (items : List String) : String :=
  if items.isEmpty then opening ++ close
  else opening ++ String.join (items.map fun i => newLine (level + 1) ++ i ++ ",") ++
    newLine level ++ close

mutual

/-- A value with a line for every item of a list or an object. -/
def renderLines (level : Nat) : Value → String
  | string s =>
    if s.toList.contains '\n' && BlockString.isBlockText s.toList then
      BlockString.render (indentation level) s.toList
    else quotedString s
  | list vs => renderBlock level "[" "]" (renderLinesItems (level + 1) vs)
  | object fs => renderBlock level "\x7b" "\x7d" (renderLinesFields (level + 1) fs)
  | v => v.render

/-- The items of a list that has a line for each. -/
def renderLinesItems (level : Nat) : List Value → List String
  | [] => []
  | v :: vs => v.renderLines level :: renderLinesItems level vs

/-- The fields of an object that has a line for each. -/
def renderLinesFields (level : Nat) : List (Name × Value) → List String
  | [] => []
  | (n, v) :: fs => (n.text ++ ": " ++ v.renderLines level) :: renderLinesFields level fs

end

end Value

/-! ### Directives -/

/-- An applied directive, on one line. -/
def Directive.render (d : Directive) : String :=
  "@" ++ d.name.text ++
    if d.arguments.isEmpty then ""
    else "(" ++ ", ".intercalate (Value.renderFields d.arguments) ++ ")"

/-- Applied directives after something else, a space before each. -/
def renderDirectives (ds : List Directive) : String :=
  String.join (ds.map fun d => " " ++ d.render)

/-! ### Parts of type definitions -/

namespace InputValue

/-- An argument on one line, without its description. -/
def renderInline (name : Name) (v : InputValue) : String :=
  name.text ++ ": " ++ v.type.render ++ (v.default.elim "" fun d => " = " ++ d.render) ++
    renderDirectives v.directives

/-- An argument or input field on lines of its own. -/
def render (level : Nat) (name : Name) (v : InputValue) : String :=
  renderDescription level v.description ++ name.text ++ ": " ++ v.type.render ++
    (v.default.elim "" fun d => " = " ++ d.renderLines level) ++ renderDirectives v.directives

/-- Whether an argument keeps its list on one line: it has neither description nor directive. -/
def isPlain (v : InputValue) : Bool := v.description.isNone && v.directives.isEmpty

end InputValue

/-- An argument list: on one line if all arguments are plain, else with a line for each. -/
def renderArguments (level : Nat) (arguments : List (Name × InputValue)) : String :=
  if arguments.isEmpty then ""
  else if arguments.all fun a => a.2.isPlain then
    "(" ++ ", ".intercalate (arguments.map fun a => a.2.renderInline a.1) ++ ")"
  else Value.renderBlock level "(" ")" (arguments.map fun a => a.2.render (level + 1) a.1)

/-- A field on a line of its own. -/
def FieldDefinition.render (level : Nat) (name : Name) (f : FieldDefinition) : String :=
  renderDescription level f.description ++ name.text ++ renderArguments level f.arguments ++
    ": " ++ f.type.render ++ renderDirectives f.directives

/-- An enum value on a line of its own. -/
def EnumValueDefinition.render (level : Nat) (name : Name) (v : EnumValueDefinition) : String :=
  renderDescription level v.description ++ name.text ++ renderDirectives v.directives

/-! ### Definitions -/

/-- Rendered parts between braces, a line for each; nothing where there is none. -/
def renderBraces (parts : List String) : String :=
  if parts.isEmpty then ""
  else " \x7b" ++ String.join (parts.map fun p => newLine 1 ++ p) ++ "\n\x7d"

/-- The interfaces that a type implements. -/
def renderInterfaces (is : List Name) : String :=
  if is.isEmpty then "" else " implements " ++ " & ".intercalate (is.map Name.text)

namespace TypeBody

/-- What follows the directives of a type with this body. -/
def render : TypeBody → String
  | object _ fs => renderBraces (fs.map fun f => f.2.render 1 f.1)
  | interface _ fs => renderBraces (fs.map fun f => f.2.render 1 f.1)
  | union ms => if ms.isEmpty then "" else " = " ++ " | ".intercalate (ms.map Name.text)
  | scalar => ""
  | enum vs => renderBraces (vs.map fun v => v.2.render 1 v.1)
  | inputObject fs => renderBraces (fs.map fun f => f.2.render 1 f.1)

end TypeBody

/-- A type definition. -/
def TypeDefinition.render (d : TypeDefinition) : String :=
  renderDescription 0 d.description ++ d.block.body.kind.keyword ++ " " ++ d.block.name.text ++
    renderInterfaces d.block.body.interfaces ++ renderDirectives d.block.directives ++
    d.block.body.render

/-- A directive definition. -/
def DirectiveDefinition.render (d : DirectiveDefinition) : String :=
  renderDescription 0 d.description ++ "directive @" ++ d.name.text ++
    renderArguments 0 d.arguments ++ (if d.repeatable then " repeatable" else "") ++ " on " ++
    " | ".intercalate (d.locations.map DirectiveLocation.text)

end Federation
