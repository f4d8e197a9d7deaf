/-!
# Names

A name of the GraphQL language is a letter or an underscore followed by letters, digits and
underscores, all of them ASCII.  `Name` carries the proof that its text has that form, so a name
is never empty and never holds a blank, a brace or a dot; whatever is printed between names can
be told apart from them.

`Name.ofString?` is the only way in from free text (`ofString?_text`, `ofString?_eq_some_iff`).
-/

namespace Federation

/-- The characters a name may start with: the ASCII letters and the underscore. -/
def isNameStart (c : Char) : Bool := c.isAlpha || c == '_'

/-- The characters a name may go on with: those it may start with, and the ASCII digits. -/
def isNameContinue (c : Char) : Bool := c.isAlphanum || c == '_'

/-- A text is a name when it is one starting character followed by continuing ones. -/
def IsName : List Char → Prop
  | [] => False
  | c :: cs => isNameStart c = true ∧ cs.all isNameContinue = true

instance : DecidablePred IsName
  | [] => inferInstanceAs (Decidable False)
  | _ :: _ => inferInstanceAs (Decidable (_ ∧ _))

/-- A text of the form that the language asks of a name. -/
structure Name where
  /-- The name as it is written. -/
  text : String
  /-- The text has the form of a name. -/
  valid : IsName text.toList
deriving DecidableEq

namespace Name

/-- The name that a text is, if it is one. -/
def ofString? (s : String) : Option Name :=
  if h : IsName s.toList then some ⟨s, h⟩ else none

/-- The name made of a starting character and some continuing ones. -/
def ofChars (c : Char) (cs : List Char) (hc : isNameStart c = true)
    (hcs : cs.all isNameContinue = true) : Name :=
  ⟨String.ofList (c :: cs), by rw [String.toList_ofList]; exact ⟨hc, hcs⟩⟩

@[ext] theorem ext {m n : Name} (h : m.text = n.text) : m = n := by
  cases m; cases n; cases h; rfl

theorem text_inj {m n : Name} : m.text = n.text ↔ m = n :=
  ⟨Name.ext, congrArg Name.text⟩

@[simp] theorem text_ofChars (c : Char) (cs : List Char) (hc hcs) :
    (ofChars c cs hc hcs).text.toList = c :: cs := by
  simp [ofChars]

/-- Reading a name's own text gives the name back. -/
@[simp] theorem ofString?_text (n : Name) : ofString? n.text = some n := by
  simp [ofString?, n.valid]

theorem ofString?_eq_some_iff {s : String} {n : Name} : ofString? s = some n ↔ s = n.text := by
  constructor
  · intro h
    unfold ofString? at h
    split at h
    · cases h; rfl
    · cases h
  · rintro rfl
    exact ofString?_text n

theorem ofString?_eq_none_iff {s : String} : ofString? s = none ↔ ¬ IsName s.toList := by
  unfold ofString?
  split <;> simp_all

/-- A name has at least one character. -/
theorem toList_ne_nil (n : Name) : n.text.toList ≠ [] := by
  have h := n.valid
  intro hn
  rw [hn] at h
  exact h

end Name

end Federation
