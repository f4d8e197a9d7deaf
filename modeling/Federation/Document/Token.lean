import Federation.Document.BlockString
import Federation.Escape
import Federation.Name

/-!
# Tokens

The lexical grammar of GraphQL documents: punctuators, names, numbers and strings, with blanks,
commas, comments and byte order marks ignored between them.  `Lexeme.ofText?` reads a whole text;
it answers `none` when some character belongs to no token.  Of what is ignored it keeps one thing:
whether a comma stands before a token, because a few places of the grammar refuse one.

Every step of the reader leaves less text than it found (`length_scan?_le`), which is why it
ends.
-/

namespace Federation

/-- The punctuation marks of the language. -/
inductive Punctuator where
  | bang | dollar | amp | parenL | parenR | spread | colon | equals | at | bracketL | bracketR
  | braceL | pipe | braceR
deriving DecidableEq

/-- A token of a document. -/
inductive Token where
  /-- A punctuation mark. -/
  | punct (p : Punctuator)
  /-- A name, keywords included. -/
  | name (n : Name)
  /-- An integer, as its digits. -/
  | int (digits : String)
  /-- A number with a fraction or an exponent, as it is written. -/
  | float (digits : String)
  /-- A string of either notation, as its value. -/
  | string (text : String)
deriving DecidableEq

/-- A token where it stands in a text. -/
structure Lexeme where
  token : Token
  /-- Whether a comma stands between the token before and this one, outside of comments. -/
  afterComma : Bool
deriving DecidableEq

namespace Token

open Escape

/-! ### Ignored text -/

/-- The blank characters that may stand anywhere between tokens, as a comma may. -/
def isIgnored (c : Char) : Bool :=
  c == ' ' || c == '\t' || c == '\n' || c == '\r' || c == '\ufeff'

/-- Whether a character ends a line, and with it a comment. -/
def isLineEnd (c : Char) : Bool := c == '\n' || c == '\r'

/-! ### Punctuators and names -/

/-- The punctuator that a character is on its own. -/
def punctuator? : Char → Option Punctuator
  | '!' => some .bang
  | '$' => some .dollar
  | '&' => some .amp
  | '(' => some .parenL
  | ')' => some .parenR
  | ':' => some .colon
  | '=' => some .equals
  | '@' => some .at
  | '[' => some .bracketL
  | ']' => some .bracketR
  | '{' => some .braceL
  | '|' => some .pipe
  | '}' => some .braceR
  | _ => none

/-- What follows three points at the start of a text. -/
def afterSpread? : List Char → Option (List Char)
  | '.' :: '.' :: '.' :: cs => some cs
  | _ => none

/-- The name that starts with `c` and goes on in `cs` as long as it can. -/
def nameAt (c : Char) (cs : List Char) (hc : isNameStart c = true) : Name :=
  .ofChars c (cs.takeWhile isNameContinue) hc (by simp)

/-! ### Numbers -/

/-- The sign at the start of an integer: a minus, or nothing. -/
def integerSign : List Char → List Char
  | '-' :: _ => ['-']
  | _ => []

/-- The sign at the start of an exponent: a plus, a minus, or nothing. -/
def exponentSign : List Char → List Char
  | '+' :: _ => ['+']
  | '-' :: _ => ['-']
  | _ => []

/-- The integer part at the start of a text: a zero, or digits that start with none. -/
def integerPart : List Char → List Char
  | '0' :: _ => ['0']
  | cs => cs.takeWhile Char.isDigit

/-- Splits a fraction off a text: nothing where no point follows, and no answer where no digit
follows the point. -/
def fraction? : List Char → Option (List Char × List Char)
  | '.' :: cs =>
    let ds := cs.takeWhile Char.isDigit
    if ds.isEmpty then none else some ('.' :: ds, cs.dropWhile Char.isDigit)
  | cs => some ([], cs)

/-- Splits an exponent off a text, in the same way. -/
def exponent? : List Char → Option (List Char × List Char)
  | [] => some ([], [])
  | c :: cs =>
    if c = 'e' ∨ c = 'E' then
      let sign := exponentSign cs
      let body := cs.drop sign.length
      let ds := body.takeWhile Char.isDigit
      if ds.isEmpty then none else some (c :: sign ++ ds, body.dropWhile Char.isDigit)
    else some ([], c :: cs)

/-- Whether a number may end before a text: a digit, a letter or a point would belong to it. -/
def endsNumber (cs : List Char) : Bool :=
  cs.head?.all fun c => !(isNameContinue c || c == '.')

/-- Reads a number at the start of a text. -/
def number? (cs : List Char) : Option (Token × List Char) :=
  let sign := integerSign cs
  let whole := integerPart (cs.drop sign.length)
  if whole.isEmpty then none
  else (fraction? (cs.drop (sign.length + whole.length))).bind fun (frac, rest) =>
    (exponent? rest).bind fun (exp, rest) =>
      if endsNumber rest then
        let digits := String.ofList (sign ++ whole ++ frac ++ exp)
        some (if frac.isEmpty && exp.isEmpty then .int digits else .float digits, rest)
      else none

/-! ### Strings -/

/-- Reads what follows `\u`: a code point between braces, or four digits, two times over where
the first four are the first half of a surrogate pair. -/
def unicodeEscape? : List Char → Option (Char × List Char)
  | '{' :: cs =>
    match cs.dropWhile (· != '}') with
    | '}' :: rest => ((hexNumber? (cs.takeWhile (· != '}'))).bind charOf?).map (·, rest)
    | _ => none
  | a :: b :: c :: d :: rest =>
    (hexNumber? [a, b, c, d]).bind fun n =>
      if 0xD800 ≤ n ∧ n < 0xDC00 then
        -- The first half of a pair has to be followed by the second.
        match rest with
        | '\\' :: 'u' :: e :: f :: g :: h :: rest =>
          (hexNumber? [e, f, g, h]).bind fun m =>
            if 0xDC00 ≤ m ∧ m < 0xE000 then
              (charOf? (0x10000 + (n - 0xD800) * 0x400 + (m - 0xDC00))).map (·, rest)
            else none
        | _ => none
      else (charOf? n).map (·, rest)
  | _ => none

/-- Reads one character of a string, escaped or not.  No line ends within a string. -/
def stringChar? : List Char → Option (Char × List Char)
  | '\\' :: 'u' :: cs => unicodeEscape? cs
  | '\\' :: e :: cs => (simple? e).map (·, cs)
  | c :: cs => if c == '\\' || isLineEnd c then none else some (c, cs)
  | [] => none

theorem length_unicodeEscape?_lt {cs rest : List Char} {c : Char}
    (h : unicodeEscape? cs = some (c, rest)) : rest.length < cs.length := by
  unfold unicodeEscape? at h
  split at h
  · rename_i cs'
    split at h
    · rename_i rest' hr
      obtain ⟨_, _, he⟩ := Option.map_eq_some_iff.1 h
      cases he
      have := (List.dropWhile_sublist (l := cs') (· != '}')).length_le
      rw [hr] at this
      simp only [List.length_cons] at this ⊢
      omega
    · cases h
  · obtain ⟨n, _, h⟩ := Option.bind_eq_some_iff.1 h
    split at h
    · split at h
      · obtain ⟨m, _, h⟩ := Option.bind_eq_some_iff.1 h
        split at h
        · obtain ⟨_, _, he⟩ := Option.map_eq_some_iff.1 h
          cases he
          simp only [List.length_cons]; omega
        · cases h
      · cases h
    · obtain ⟨_, _, he⟩ := Option.map_eq_some_iff.1 h
      cases he
      simp only [List.length_cons]; omega
  · cases h

theorem length_stringChar?_lt {cs rest : List Char} {c : Char}
    (h : stringChar? cs = some (c, rest)) : rest.length < cs.length := by
  unfold stringChar? at h
  split at h
  · have := length_unicodeEscape?_lt h
    simp only [List.length_cons]; omega
  · obtain ⟨_, _, he⟩ := Option.map_eq_some_iff.1 h
    cases he
    simp only [List.length_cons]; omega
  · split at h
    · cases h
    · cases h; simp
  · cases h

/-- Reads the characters of a string up to its closing quote. -/
def stringBody? (cs : List Char) : Option (List Char × List Char) :=
  match cs with
  | [] => none
  | '"' :: rest => some ([], rest)
  | c :: cs =>
    match _h : stringChar? (c :: cs) with
    | none => none
    | some (d, rest) =>
      (stringBody? rest).map fun (ds, rest) => (d :: ds, rest)
termination_by cs.length
decreasing_by exact length_stringChar?_lt _h

/-- Reads the raw text of a block string up to its closing quotes. -/
def blockBody? : List Char → Option (List Char × List Char)
  -- This is the only escape there is.
  | '\\' :: '"' :: '"' :: '"' :: cs =>
    (blockBody? cs).map fun (ds, rest) => ('"' :: '"' :: '"' :: ds, rest)
  | '"' :: '"' :: '"' :: cs => some ([], cs)
  | c :: cs => (blockBody? cs).map fun (ds, rest) => (c :: ds, rest)
  | [] => none

/-- The end of line that a string may start with, if one comes first. -/
def stringOpening : List Char → List Char
  | c :: _ => if isLineEnd c then [c] else []
  | [] => []

/-- Reads a string after its first quote. -/
def string? : List Char → Option (Token × List Char)
  -- Three quotes open a block string.
  | '"' :: '"' :: cs =>
    (blockBody? cs).map fun (raw, rest) => (.string (String.ofList (BlockString.value raw)), rest)
  -- The character after the quote, and no other, may end a line.
  | cs =>
    let opening := stringOpening cs
    (stringBody? (cs.drop opening.length)).map fun (ds, rest) =>
      (.string (String.ofList (opening ++ ds)), rest)

/-! ### One token -/

/-- Reads the token that starts with `c` and goes on in `cs`. -/
def scan? (c : Char) (cs : List Char) : Option (Token × List Char) :=
  if hc : isNameStart c then some (.name (nameAt c cs hc), cs.dropWhile isNameContinue)
  else if c.isDigit || c == '-' then number? (c :: cs)
  else if c == '"' then string? cs
  else match punctuator? c with
    | some p => some (.punct p, cs)
    | none => (afterSpread? (c :: cs)).map (.punct .spread, ·)

/-! ### Every step leaves less text -/

theorem length_fraction?_le {cs : List Char} {p : List Char × List Char}
    (h : fraction? cs = some p) : p.2.length ≤ cs.length := by
  unfold fraction? at h
  split at h
  · rename_i cs'
    have := (List.dropWhile_sublist (l := cs') Char.isDigit).length_le
    simp only at h
    split at h
    · cases h
    · cases h
      simp only [List.length_cons]; omega
  · cases h; exact Nat.le_refl _

theorem length_exponent?_le {cs : List Char} {p : List Char × List Char}
    (h : exponent? cs = some p) : p.2.length ≤ cs.length := by
  unfold exponent? at h
  split at h
  · cases h; exact Nat.le_refl _
  · rename_i c cs'
    split at h
    · simp only at h
      split at h
      · cases h
      · cases h
        refine Nat.le_trans (List.dropWhile_sublist _).length_le ?_
        simp only [List.length_drop, List.length_cons]; omega
    · cases h; exact Nat.le_refl _

theorem length_integerPart_le (cs : List Char) : (integerPart cs).length ≤ cs.length := by
  unfold integerPart
  split
  · simp
  · exact (List.takeWhile_sublist _).length_le

theorem length_number?_lt {cs rest : List Char} {t : Token} (h : number? cs = some (t, rest)) :
    rest.length < cs.length := by
  unfold number? at h
  simp only at h
  split at h
  · cases h
  · rename_i hw
    -- The sign and the whole part are taken first; the whole part is not empty.
    obtain ⟨frac, hf, h⟩ := Option.bind_eq_some_iff.1 h
    obtain ⟨exp, he, h⟩ := Option.bind_eq_some_iff.1 h
    have h1 := length_fraction?_le hf
    have h2 := length_exponent?_le he
    have h3 := length_integerPart_le (cs.drop (integerSign cs).length)
    have h4 : 0 < (integerPart (cs.drop (integerSign cs).length)).length := by
      rw [List.length_pos_iff]
      simpa using hw
    simp only [List.length_drop] at h1 h3
    split at h
    · cases h; omega
    · cases h

theorem length_stringBody?_le (cs : List Char) : ∀ {ds rest : List Char},
    stringBody? cs = some (ds, rest) → rest.length ≤ cs.length := by
  fun_induction stringBody? cs with
  | case1 => intro _ _ h; cases h
  | case2 rest => intro _ _ h; cases h; simp
  | case3 => intro _ _ h; cases h
  | case4 c cs _ d rest hd ih =>
    intro ds r h
    obtain ⟨⟨a, b⟩, hb, he⟩ := Option.map_eq_some_iff.1 h
    cases he
    exact Nat.le_trans (ih hb) (Nat.le_of_lt (length_stringChar?_lt hd))

theorem length_blockBody?_le (cs : List Char) : ∀ {ds rest : List Char},
    blockBody? cs = some (ds, rest) → rest.length ≤ cs.length := by
  fun_induction blockBody? cs with
  | case1 cs ih =>
    intro ds r h
    obtain ⟨⟨a, b⟩, hb, he⟩ := Option.map_eq_some_iff.1 h
    cases he
    have := ih hb
    simp only [List.length_cons]; omega
  | case2 cs => intro _ _ h; cases h; simp only [List.length_cons]; omega
  | case3 c cs _ _ ih =>
    intro ds r h
    obtain ⟨⟨a, b⟩, hb, he⟩ := Option.map_eq_some_iff.1 h
    cases he
    have := ih hb
    simp only [List.length_cons]; omega
  | case4 => intro _ _ h; cases h

theorem length_string?_le {cs rest : List Char} {t : Token} (h : string? cs = some (t, rest)) :
    rest.length ≤ cs.length := by
  unfold string? at h
  split at h
  · obtain ⟨⟨a, b⟩, hb, he⟩ := Option.map_eq_some_iff.1 h
    cases he
    have := length_blockBody?_le _ hb
    simp only [List.length_cons]; omega
  · obtain ⟨⟨a, b⟩, hb, he⟩ := Option.map_eq_some_iff.1 h
    cases he
    refine Nat.le_trans (length_stringBody?_le _ hb) ?_
    simp only [List.length_drop]; omega

theorem length_afterSpread?_lt {cs rest : List Char} (h : afterSpread? cs = some rest) :
    rest.length < cs.length := by
  unfold afterSpread? at h
  split at h
  · cases h; simp only [List.length_cons]; omega
  · cases h

/-- The text after a token is no longer than the text after its first character. -/
theorem length_scan?_le {c : Char} {cs rest : List Char} {t : Token}
    (h : scan? c cs = some (t, rest)) : rest.length ≤ cs.length := by
  unfold scan? at h
  split at h
  · cases h; exact (List.dropWhile_sublist _).length_le
  · split at h
    · have := length_number?_lt h
      simp only [List.length_cons] at this; omega
    · split at h
      · exact length_string?_le h
      · split at h
        · cases h; exact Nat.le_refl _
        · obtain ⟨r, hr, he⟩ := Option.map_eq_some_iff.1 h
          cases he
          have := length_afterSpread?_lt hr
          simp only [List.length_cons] at this; omega

end Token

/-! ### Whole texts -/

namespace Lexeme

open Token

/-- The tokens of a text, or `none` where some character belongs to no token.  `comma` says
whether a comma has come since the last token. -/
def ofChars? (comma : Bool) (cs : List Char) : Option (List Lexeme) :=
  match cs with
  | [] => some []
  | c :: cs =>
    if c = ',' then ofChars? true cs
    else if isIgnored c then ofChars? comma cs
    else if c = '#' then ofChars? comma (cs.dropWhile fun d => !isLineEnd d)
    else match _h : scan? c cs with
      | none => none
      | some (t, rest) => (ofChars? false rest).map (⟨t, comma⟩ :: ·)
termination_by cs.length
decreasing_by
  · exact Nat.lt_succ_self _
  · exact Nat.lt_succ_self _
  · exact Nat.lt_succ_of_le (List.dropWhile_sublist _).length_le
  · exact Nat.lt_succ_of_le (length_scan?_le _h)

/-- The tokens of a text. -/
def ofText? (s : String) : Option (List Lexeme) := ofChars? false s.toList

end Lexeme

end Federation
