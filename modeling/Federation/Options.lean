import Federation.Escape

/-!
# Options

How a composition is to be run, and the text that options are configured with: a JSON object
with at most the one member `disable_resolvability_validation`, which is a truth value.  A JSON
list of at most that value does as well, since there is only one place for it to belong.  Any
other member, a repeated one, or anything after the value is refused, so that slips in a
configuration surface (`Options.ofText?`).
-/

namespace Federation

/-- How a composition is to be run. -/
structure Options where
  /-- Leaves out the check that every field can be resolved. -/
  disableResolvabilityValidation : Bool := false
deriving DecidableEq, Inhabited

namespace Options

/-- The name of the one member of configured options. -/
def memberName : List Char := "disable_resolvability_validation".toList

/-! ### Reading JSON -/

/-- A text without the blanks at its start. -/
def skipBlanks (cs : List Char) : List Char :=
  cs.dropWhile fun c => c == ' ' || c == '\t' || c == '\n' || c == '\r'

/-- What follows a given word at the start of a text, blanks before the word aside. -/
def after? (word cs : List Char) : Option (List Char) :=
  let cs := skipBlanks cs
  if word.isPrefixOf cs then some (cs.drop word.length) else none

/-- Reads one character of a JSON string.  An escape for half of a surrogate pair is refused. -/
def stringChar? : List Char → Option (Char × List Char)
  | '\\' :: 'u' :: a :: b :: c :: d :: cs =>
    ((Escape.hexNumber? [a, b, c, d]).bind Escape.charOf?).map (·, cs)
  | '\\' :: e :: cs => (Escape.simple? e).map (·, cs)
  | c :: cs => if c = '\\' ∨ c = '"' ∨ c.toNat < 32 then none else some (c, cs)
  | [] => none

/-- What follows a JSON string of a given content, after its first quote. -/
def afterContent? : (content cs : List Char) → Option (List Char)
  | [], '"' :: rest => some rest
  | [], _ => none
  | c :: content, cs =>
    match stringChar? cs with
    | some (d, rest) => if d = c then afterContent? content rest else none
    | none => none

/-- Reads a JSON truth value. -/
def boolean? (cs : List Char) : Option (Bool × List Char) :=
  match after? "true".toList cs, after? "false".toList cs with
  | some rest, _ => some (true, rest)
  | none, some rest => some (false, rest)
  | none, none => none

/-- Reads the member of an options object. -/
def member? (cs : List Char) : Option (Options × List Char) := do
  let cs ← after? ['"'] cs
  let cs ← afterContent? memberName cs
  let cs ← after? [':'] cs
  let (b, cs) ← boolean? cs
  return (⟨b⟩, cs)

/-- Reads an options object. -/
def object? (cs : List Char) : Option (Options × List Char) := do
  let cs ← after? ['{'] cs
  match after? ['}'] cs with
  | some rest => return (default, rest)
  | none =>
    let (options, cs) ← member? cs
    return (options, ← after? ['}'] cs)

/-- Reads a list that holds the value of the one member, or nothing. -/
def list? (cs : List Char) : Option (Options × List Char) := do
  let cs ← after? ['['] cs
  match after? [']'] cs with
  | some rest => return (default, rest)
  | none =>
    let (b, cs) ← boolean? cs
    return (⟨b⟩, ← after? [']'] cs)

/-- The options that a text configures, if it configures any. -/
def ofText? (s : String) : Option Options :=
  match (object? s.toList).or (list? s.toList) with
  | some (options, rest) => if (skipBlanks rest).isEmpty then some options else none
  | none => none

end Options

end Federation
