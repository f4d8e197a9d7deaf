/-!
# Block strings

A block string is a text between triple quotes.  What is written between them is its raw text;
its value is the raw text with the indentation that all lines but the first share taken away, and
with the blank lines at either end dropped (`value`).  Blank means spaces and tabs only.

Not every text is the value of a block string that shows it as it is: `IsBlockText` says which
are, and only those may be written as block strings.
-/

namespace Federation.BlockString

/-! ### Lines -/

/-- The lines of a text; a line ends at a line feed, a carriage return, or the two together. -/
def lines : List Char → List (List Char)
  | [] => [[]]
  | '\r' :: '\n' :: rest => [] :: lines rest
  | c :: rest =>
    if c = '\n' ∨ c = '\r' then [] :: lines rest
    else match lines rest with
      | [] => [[c]]
      | l :: ls => (c :: l) :: ls

/-- Lines put together again, a line feed between each two. -/
def unlines (ls : List (List Char)) : List Char := List.intercalate ['\n'] ls

/-- The characters that indent a line: the space and the tab. -/
def isIndent (c : Char) : Bool := c == ' ' || c == '\t'

/-- Whether a line holds nothing but indentation. -/
def isBlankLine (l : List Char) : Bool := l.all isIndent

/-- The number of characters that indent a line. -/
def indentOf (l : List Char) : Nat := (l.takeWhile isIndent).length

/-! ### Reading -/

/-- The indentation that the lines with some content share; nothing if there is no such line. -/
def commonIndent (ls : List (List Char)) : Nat :=
  ((ls.filter fun l => !isBlankLine l).map indentOf).min?.getD 0

/-- The lines without the blank ones at either end. -/
def trimBlankLines (ls : List (List Char)) : List (List Char) :=
  ((ls.dropWhile isBlankLine).reverse.dropWhile isBlankLine).reverse

/-- The value of a block string with a given raw text. -/
def value (raw : List Char) : List Char :=
  match lines raw with
  | [] => []
  | first :: rest => unlines (trimBlankLines (first :: rest.map (·.drop (commonIndent rest))))

/-! ### Writing -/

/-- Whether a text can be written as a block string and be read back as it is: it has no carriage
return, neither its first nor its last line is blank, and some line starts without
indentation. -/
def isBlockText (s : List Char) : Bool :=
  let ls := lines s
  !s.contains '\r' &&
    !(ls.head?.all isBlankLine) && !(ls.getLast?.all isBlankLine) &&
    ls.any fun l => !isBlankLine l && indentOf l == 0

/-- A text with its triple quotes escaped. -/
def escapeTripleQuotes : List Char → List Char
  | '"' :: '"' :: '"' :: rest => '\\' :: '"' :: '"' :: '"' :: escapeTripleQuotes rest
  | c :: rest => c :: escapeTripleQuotes rest
  | [] => []

/-- The longest text, in bytes of UTF-8, that is written on one line with its quotes. -/
def lineLimit : Nat := 70

/-- Whether a block text goes on one line with its quotes: it is a single line, it is short, and
its end cannot be mistaken for a part of the closing quotes. -/
def fitsOneLine (s : List Char) : Bool :=
  !s.contains '\n' && decide ((String.ofList s).utf8ByteSize ≤ lineLimit) &&
    !(s.getLast?.any fun c => c == '"' || c == '\\')

/-- A block text between triple quotes.  Text that does not go on one line starts on a line of
its own, every line of it after `indent`, lines without a character excepted. -/
def render (indent : String) (s : List Char) : String :=
  if fitsOneLine s then "\"\"\"" ++ String.ofList (escapeTripleQuotes s) ++ "\"\"\""
  else
    let body := (lines (escapeTripleQuotes s)).map fun l =>
      if l.isEmpty then "\n" else "\n" ++ indent ++ String.ofList l
    "\"\"\"" ++ String.join body ++ "\n" ++ indent ++ "\"\"\""

end Federation.BlockString
