import Federation.Document.Token
import Mathlib.Data.List.TakeWhile

/-!
# A brace after a text

What the tokens of a text are when a space and a closing brace come after it (`ofChars?_closing`).
No token of the text can reach into what comes after it, be it finished or not, for nothing but a
string may hold a space, and no string is closed by a brace (`scan?_closing`).  A comment does reach
that far where no line ends it (`endsInComment`): then the brace is a part of the comment.
-/

namespace Federation

/-- A space and a closing brace. -/
def closing : List Char := [' ', '}']

/-- A reading of a text with the closing brace after what the reading leaves. -/
def beforeClosing {α : Type} (p : α × List Char) : α × List Char := (p.1, p.2 ++ closing)

@[simp] theorem beforeClosing_mk {α : Type} (a : α) (cs : List Char) :
    beforeClosing (a, cs) = (a, cs ++ closing) := rfl

/-- What a text without a space starts with, before the closing brace, it starts with on its own. -/
theorem exists_eq_append_of_closing {w cs ds : List Char} (hw : ' ' ∉ w)
    (h : cs ++ closing = w ++ ds) : ∃ rest, cs = w ++ rest := by
  rcases List.append_eq_append_iff.1 h with ⟨as, rfl, has⟩ | ⟨bs, rfl, _⟩
  · cases as with
    | nil => exact ⟨[], by simp⟩
    | cons a as =>
      obtain ⟨rfl, _⟩ := List.cons.inj has
      simp at hw
  · exact ⟨bs, rfl⟩

section Runs

variable {p : Char → Bool} (hp : p ' ' = false) (cs : List Char)

include hp

/-- Characters of a kind that the space is not of end where they did before. -/
theorem takeWhile_closing : (cs ++ closing).takeWhile p = cs.takeWhile p := by
  induction cs with
  | nil => simp [closing, hp]
  | cons c cs ih => simp only [List.cons_append, List.takeWhile_cons, ih]

theorem dropWhile_closing : (cs ++ closing).dropWhile p = cs.dropWhile p ++ closing := by
  induction cs with
  | nil => simp [closing, hp]
  | cons c cs ih =>
    simp only [List.cons_append, List.dropWhile_cons, ih]
    split <;> rfl

end Runs

namespace Token

open Escape

/-! ### Numbers -/

theorem integerSign_closing (cs : List Char) : integerSign (cs ++ closing) = integerSign cs := by
  cases cs with
  | nil => rfl
  | cons c cs =>
    unfold integerSign
    split <;> simp_all

theorem integerPart_closing (cs : List Char) : integerPart (cs ++ closing) = integerPart cs := by
  cases cs with
  | nil => rfl
  | cons c cs =>
    unfold integerPart
    split
    · simp_all
    · rename_i h
      rw [takeWhile_closing rfl]
      split
      · simp_all
      · rfl

theorem exponentSign_closing (cs : List Char) :
    exponentSign (cs ++ closing) = exponentSign cs := by
  cases cs with
  | nil => rfl
  | cons c cs =>
    unfold exponentSign
    split <;> simp_all

theorem fraction?_closing (cs : List Char) :
    fraction? (cs ++ closing) = (fraction? cs).map beforeClosing := by
  cases cs with
  | nil => rfl
  | cons c cs =>
    by_cases hc : c = '.'
    · subst hc
      simp only [List.cons_append, fraction?, takeWhile_closing (p := Char.isDigit) rfl,
        dropWhile_closing (p := Char.isDigit) rfl]
      split <;> rfl
    · simp [fraction?, hc]

theorem length_exponentSign_le (cs : List Char) : (exponentSign cs).length ≤ cs.length := by
  unfold exponentSign
  split <;> simp

theorem length_integerSign_le (cs : List Char) : (integerSign cs).length ≤ cs.length := by
  unfold integerSign
  split <;> simp

theorem exponent?_closing (cs : List Char) :
    exponent? (cs ++ closing) = (exponent? cs).map beforeClosing := by
  cases cs with
  | nil => rfl
  | cons c cs =>
    by_cases hc : c = 'e' ∨ c = 'E'
    · simp only [List.cons_append, exponent?, if_pos hc, exponentSign_closing,
        List.drop_append_of_le_length (length_exponentSign_le cs),
        takeWhile_closing (p := Char.isDigit) rfl, dropWhile_closing (p := Char.isDigit) rfl]
      split <;> rfl
    · simp [exponent?, hc]

theorem endsNumber_closing (cs : List Char) : endsNumber (cs ++ closing) = endsNumber cs := by
  cases cs with
  | nil => decide
  | cons c cs => rfl

theorem number?_closing (cs : List Char) :
    number? (cs ++ closing) = (number? cs).map beforeClosing := by
  have hsign := length_integerSign_le cs
  have hwhole := length_integerPart_le (cs.drop (integerSign cs).length)
  rw [List.length_drop] at hwhole
  simp only [number?, integerSign_closing, List.drop_append_of_le_length hsign,
    integerPart_closing]
  rw [List.drop_append_of_le_length (by omega), fraction?_closing]
  split
  · rfl
  · simp only [Option.map_eq_bind, Option.bind_assoc, Option.bind_some, Function.comp_def,
      beforeClosing, exponent?_closing, endsNumber_closing]
    refine Option.bind_congr fun frac _ => ?_
    refine Option.bind_congr fun exp _ => ?_
    split <;> rfl

/-! ### Strings -/

theorem hexNumber?_eq_none {ds : List Char} (h : ' ' ∈ ds) : hexNumber? ds = none := by
  have key : ∀ (ds : List Char) (n : Nat), ' ' ∈ ds →
      ds.foldlM (fun n c => (hexDigit? c).map (16 * n + ·)) n = none := by
    intro ds
    induction ds with
    | nil => intro n h; cases h
    | cons d ds ih =>
      intro n h
      rw [List.foldlM_cons]
      rcases List.mem_cons.1 h with rfl | h
      · rfl
      · exact Option.bind_eq_none_iff.2 fun m _ => ih m h
  unfold hexNumber?
  split
  · rfl
  · exact key ds 0 h

theorem unicodeEscape?_brace {ds : List Char} (hds : '}' ∉ ds) (rest : List Char) :
    unicodeEscape? ('{' :: ds ++ '}' :: rest) =
      ((hexNumber? ds).bind charOf?).map (·, rest) := by
  have hall : ∀ d ∈ ds, (d != '}') = true := by
    intro d hd
    simpa using ne_of_mem_of_not_mem hd hds
  have hdrop : (ds ++ '}' :: rest).dropWhile (· != '}') = '}' :: rest := by
    rw [List.dropWhile_append_of_pos hall]
    simp
  have htake : (ds ++ '}' :: rest).takeWhile (· != '}') = ds := by
    rw [List.takeWhile_append_of_pos hall]
    simp
  simp only [List.cons_append, unicodeEscape?, hdrop, htake]

theorem unicodeEscape?_open {ds : List Char} (hds : '}' ∉ ds) :
    unicodeEscape? ('{' :: ds) = none := by
  have hnil : ds.dropWhile (· != '}') = [] := List.dropWhile_eq_nil_iff.2 fun d hd => by
    simpa using ne_of_mem_of_not_mem hd hds
  simp only [unicodeEscape?, hnil]

/-- Four digits, and four more where they are the first half of a surrogate pair, are not found in
what comes after a text either. -/
theorem unicodeEscape?_digits_closing {a b c d : Char} (ha : a ≠ '{') (rest : List Char) :
    unicodeEscape? (a :: b :: c :: d :: (rest ++ closing)) =
      (unicodeEscape? (a :: b :: c :: d :: rest)).map beforeClosing := by
  rw [unicodeEscape?.eq_2 _ _ _ _ _ ha, unicodeEscape?.eq_2 _ _ _ _ _ ha, Option.map_bind]
  refine Option.bind_congr fun n _ => ?_
  simp only [Function.comp_def]
  split
  · -- Only a second escape with all of its four digits completes a pair, and what comes after the
    -- text has no digits to offer.
    rcases rest with _ | ⟨x, _ | ⟨y, cs⟩⟩
    · rfl
    · by_cases hx : x = '\\' <;> simp [closing, hx]
    · by_cases hxy : x = '\\' ∧ y = 'u'
      · obtain ⟨rfl, rfl⟩ := hxy
        rcases cs with _ | ⟨e, _ | ⟨f, _ | ⟨g, _ | ⟨h, rest⟩⟩⟩⟩
        · rfl
        · rfl
        · simp [closing, hexNumber?_eq_none]
        · simp [closing, hexNumber?_eq_none]
        · simp only [List.cons_append, Option.map_bind, Function.comp_def]
          refine Option.bind_congr fun m _ => ?_
          split
          · rw [Option.map_map]
            rfl
          · rfl
      · have hne : x = '\\' → y ≠ 'u' := fun hx hy => hxy ⟨hx, hy⟩
        split
        · simp_all
        · split
          · simp_all
          · rfl
  · rw [Option.map_map]
    rfl

theorem unicodeEscape?_closing (cs : List Char) :
    unicodeEscape? (cs ++ closing) = (unicodeEscape? cs).map beforeClosing := by
  by_cases hbrace : ∃ ds, cs = '{' :: ds
  · obtain ⟨ds, rfl⟩ := hbrace
    by_cases hmem : '}' ∈ ds
    · obtain ⟨as, bs, rfl, has⟩ := List.eq_append_cons_of_mem hmem
      have heq : '{' :: (as ++ '}' :: bs) ++ closing = '{' :: as ++ '}' :: (bs ++ closing) := by
        simp
      rw [heq, unicodeEscape?_brace has, ← List.cons_append, unicodeEscape?_brace has,
        Option.map_map]
      rfl
    · -- The closing brace ends the code point, which then has a space in it.
      have hspace : '}' ∉ ds ++ [' '] := by simp [hmem]
      have heq : '{' :: ds ++ closing = '{' :: (ds ++ [' ']) ++ '}' :: [] := by simp [closing]
      rw [unicodeEscape?_open hmem, heq, unicodeEscape?_brace hspace,
        hexNumber?_eq_none (by simp)]
      rfl
  · rcases cs with _ | ⟨a, cs⟩
    · rfl
    have ha : a ≠ '{' := fun ha => hbrace ⟨cs, ha ▸ rfl⟩
    rcases cs with _ | ⟨b, _ | ⟨c, _ | ⟨d, rest⟩⟩⟩
    · simp [closing, unicodeEscape?, ha]
    · simp [closing, unicodeEscape?, ha, hexNumber?_eq_none]
    · simp [closing, unicodeEscape?, ha, hexNumber?_eq_none]
    · exact unicodeEscape?_digits_closing ha rest

theorem stringChar?_of_ne {c : Char} (hc : c ≠ '\\') (cs : List Char) :
    stringChar? (c :: cs) = if isLineEnd c then none else some (c, cs) := by
  rw [stringChar?.eq_3]
  · simp [hc]
  · exact fun _ h => absurd h hc
  · exact fun _ _ h => absurd h hc

theorem stringChar?_closing {cs : List Char} (hcs : cs ≠ []) :
    stringChar? (cs ++ closing) = (stringChar? cs).map beforeClosing := by
  rcases cs with _ | ⟨c, cs⟩
  · exact absurd rfl hcs
  by_cases hc : c = '\\'
  · subst hc
    rcases cs with _ | ⟨e, cs⟩
    · rfl
    by_cases he : e = 'u'
    · subst he
      exact unicodeEscape?_closing cs
    · rw [List.cons_append, List.cons_append, stringChar?.eq_2 _ _ he, stringChar?.eq_2 _ _ he,
        Option.map_map]
      rfl
  · rw [List.cons_append, stringChar?_of_ne hc, stringChar?_of_ne hc]
    split <;> rfl

theorem stringBody?_cons {c : Char} (hc : c ≠ '"') (cs : List Char) :
    stringBody? (c :: cs) = (stringChar? (c :: cs)).bind fun p =>
      (stringBody? p.2).map fun q => (p.1 :: q.1, q.2) := by
  rw [stringBody?.eq_3 _ _ hc]
  cases stringChar? (c :: cs) <;> rfl

theorem stringBody?_closing (cs : List Char) :
    stringBody? (cs ++ closing) = (stringBody? cs).map beforeClosing := by
  fun_induction stringBody? cs with
  | case1 => 
    have h : stringBody? [] = none := by simp [stringBody?]
    simp [closing, stringBody?_cons, stringChar?_of_ne, isLineEnd, h]
  | case2 rest => simp [stringBody?]
  | case3 c cs hc hchar =>
    rw [List.cons_append, stringBody?_cons hc, ← List.cons_append,
      stringChar?_closing (List.cons_ne_nil c cs), hchar]
    rfl
  | case4 c cs hc d rest hd ih =>
    rw [List.cons_append, stringBody?_cons hc, ← List.cons_append,
      stringChar?_closing (List.cons_ne_nil c cs), hd, Option.map_some, Option.bind_some,
      beforeClosing, ih, Option.map_map, Option.map_map]
    rfl

theorem blockBody?_closing (cs : List Char) :
    blockBody? (cs ++ closing) = (blockBody? cs).map beforeClosing := by
  fun_induction blockBody? cs with
  | case1 cs ih =>
    simp only [List.cons_append, blockBody?, ih, Option.map_map]
    rfl
  | case2 cs => simp [blockBody?]
  | case3 c cs hescape hquotes ih =>
    rw [List.cons_append, blockBody?.eq_3, ih, Option.map_map, Option.map_map]
    · rfl
    · intro ds hc hds
      obtain ⟨rest, hrest⟩ := exists_eq_append_of_closing (w := ['"', '"', '"']) (by decide) hds
      exact hescape rest hc hrest
    · intro ds hc hds
      obtain ⟨rest, hrest⟩ := exists_eq_append_of_closing (w := ['"', '"']) (by decide) hds
      exact hquotes rest hc hrest
  | case4 => simp [closing, blockBody?]

theorem string?_closing (cs : List Char) :
    string? (cs ++ closing) = (string? cs).map beforeClosing := by
  by_cases hquotes : ∃ ds, cs = '"' :: '"' :: ds
  · obtain ⟨ds, rfl⟩ := hquotes
    simp only [List.cons_append, string?, blockBody?_closing, Option.map_map]
    rfl
  · have hopening : stringOpening (cs ++ closing) = stringOpening cs := by
      cases cs <;> rfl
    have hle : (stringOpening cs).length ≤ cs.length := by
      cases cs with
      | nil => simp [stringOpening]
      | cons c cs =>
        simp only [stringOpening]
        split <;> simp
    rw [string?.eq_2, string?.eq_2, hopening, List.drop_append_of_le_length hle,
      stringBody?_closing, Option.map_map, Option.map_map]
    · rfl
    · exact fun ds h => hquotes ⟨ds, h⟩
    · intro ds h
      exact hquotes (exists_eq_append_of_closing (w := ['"', '"']) (by decide) h)

/-! ### Tokens -/

theorem afterSpread?_closing (cs : List Char) :
    afterSpread? (cs ++ closing) = (afterSpread? cs).map (· ++ closing) := by
  by_cases hspread : ∃ ds, cs = '.' :: '.' :: '.' :: ds
  · obtain ⟨ds, rfl⟩ := hspread
    rfl
  · rw [afterSpread?.eq_2, afterSpread?.eq_2]
    · rfl
    · exact fun ds h => hspread ⟨ds, h⟩
    · intro ds h
      exact hspread (exists_eq_append_of_closing (w := ['.', '.', '.']) (by decide) h)

/-- **Tokens end before the closing brace**: a token is read, or none, as without the brace. -/
theorem scan?_closing (c : Char) (cs : List Char) :
    scan? c (cs ++ closing) = (scan? c cs).map beforeClosing := by
  unfold scan?
  split
  · simp only [nameAt, takeWhile_closing (p := isNameContinue) rfl,
      dropWhile_closing (p := isNameContinue) rfl]
    rfl
  · split
    · exact number?_closing (c :: cs)
    · split
      · exact string?_closing cs
      · split
        · rfl
        · rw [← List.cons_append, afterSpread?_closing, Option.map_map, Option.map_map]
          rfl

end Token

namespace Lexeme

open Token

/-! ### Texts -/

/-- Whether a text ends in a comment. -/
def endsInComment (cs : List Char) : Bool :=
  match cs with
  | [] => false
  | c :: cs =>
    if c = ',' then endsInComment cs
    else if isIgnored c then endsInComment cs
    else if c = '#' then
      let rest := cs.dropWhile fun d => !isLineEnd d
      rest.isEmpty || endsInComment rest
    else match _h : scan? c cs with
      | none => false
      | some (_, rest) => endsInComment rest
termination_by cs.length
decreasing_by
  · exact Nat.lt_succ_self _
  · exact Nat.lt_succ_self _
  · exact Nat.lt_succ_of_le (List.dropWhile_sublist _).length_le
  · exact Nat.lt_succ_of_le (length_scan?_le _h)

theorem ofChars?_of_scan? {c : Char} (hcomma : c ≠ ',') (hignored : isIgnored c = false)
    (hcomment : c ≠ '#') (comma : Bool) (cs : List Char) :
    ofChars? comma (c :: cs) = (scan? c cs).bind fun p =>
      (ofChars? false p.2).map (⟨p.1, comma⟩ :: ·) := by
  rw [ofChars?, if_neg hcomma, if_neg (by simp [hignored]), if_neg hcomment]
  cases scan? c cs <;> rfl

theorem endsInComment_of_scan? {c : Char} (hcomma : c ≠ ',') (hignored : isIgnored c = false)
    (hcomment : c ≠ '#') {cs rest : List Char} {t : Token} (h : scan? c cs = some (t, rest)) :
    endsInComment (c :: cs) = endsInComment rest := by
  rw [endsInComment, if_neg hcomma, if_neg (by simp [hignored]), if_neg hcomment]
  split <;> simp_all

theorem ofChars?_nil (comma : Bool) : ofChars? comma [] = some [] := by rw [ofChars?]

theorem ofChars?_closing_nil (comma : Bool) :
    ofChars? comma closing = some [⟨.punct .braceR, comma⟩] := by
  have hspace : ofChars? comma closing = ofChars? comma ['}'] := by
    rw [closing, ofChars?]
    rfl
  rw [hspace, ofChars?_of_scan? (by decide) (by decide) (by decide)]
  show (ofChars? false []).map _ = _
  rw [ofChars?_nil]
  rfl

/-- **The tokens of a text with a closing brace after it** are those of the text and the brace,
which a comment takes in if the text ends in one. -/
theorem ofChars?_closing (comma : Bool) (cs : List Char) : ∃ b,
    ofChars? comma (cs ++ closing) = (ofChars? comma cs).map
      (· ++ if endsInComment cs then [] else [⟨.punct .braceR, b⟩]) := by
  fun_induction ofChars? comma cs with
  | case1 comma =>
    refine ⟨comma, ?_⟩
    rw [List.nil_append, ofChars?_closing_nil, endsInComment]
    rfl
  | case2 comma cs ih =>
    obtain ⟨b, ih⟩ := ih
    refine ⟨b, ?_⟩
    rw [List.cons_append, ofChars?, if_pos rfl, endsInComment, if_pos rfl, ih]
  | case3 comma c cs hcomma hignored ih =>
    obtain ⟨b, ih⟩ := ih
    refine ⟨b, ?_⟩
    rw [List.cons_append, ofChars?, if_neg hcomma, if_pos hignored, endsInComment, if_neg hcomma,
      if_pos hignored, ih]
  | case4 comma cs hcomma hignored ih =>
    rw [List.cons_append, ofChars?, if_neg hcomma, if_neg hignored, if_pos rfl, endsInComment,
      if_neg hcomma, if_neg hignored, if_pos rfl, List.dropWhile_append]
    split
    · -- No line ends in the comment, so it takes in the closing brace.
      rename_i hrest
      refine ⟨false, ?_⟩
      rw [List.isEmpty_iff.1 hrest, ofChars?_nil]
      show ofChars? comma [] = _
      rw [ofChars?_nil]
      rfl
    · rename_i hrest
      obtain ⟨b, ih⟩ := ih
      refine ⟨b, ?_⟩
      simp only [ih, Bool.eq_false_iff.2 hrest, Bool.false_or]
  | case5 comma c cs hcomma hignored hcomment hscan =>
    refine ⟨false, ?_⟩
    rw [List.cons_append, ofChars?_of_scan? hcomma (by simpa using hignored) hcomment,
      scan?_closing, hscan]
    rfl
  | case6 comma c cs hcomma hignored hcomment t rest hscan ih =>
    obtain ⟨b, ih⟩ := ih
    refine ⟨b, ?_⟩
    rw [Bool.not_eq_true] at hignored
    rw [List.cons_append, ofChars?_of_scan? hcomma hignored hcomment, scan?_closing, hscan,
      endsInComment_of_scan? hcomma hignored hcomment hscan, Option.map_some, Option.bind_some,
      beforeClosing, ih, Option.map_map, Option.map_map]
    rfl

/-- The tokens of a text between braces. -/
theorem ofText?_braces (source : String) : ∃ b,
    ofText? ("\x7b " ++ source ++ " \x7d") = (ofText? source).map fun ls =>
      ⟨.punct .braceL, false⟩ ::
        (ls ++ if endsInComment source.toList then [] else [⟨.punct .braceR, b⟩]) := by
  obtain ⟨b, hb⟩ := ofChars?_closing false source.toList
  refine ⟨b, ?_⟩
  have hlist : ("\x7b " ++ source ++ " \x7d").toList =
      '{' :: ' ' :: (source.toList ++ closing) := by
    simp [closing]
  have hspace : ofChars? false (' ' :: (source.toList ++ closing)) =
      ofChars? false (source.toList ++ closing) := by
    rw [ofChars?, if_neg (by decide), if_pos (by decide)]
  rw [ofText?, hlist, ofChars?_of_scan? (by decide) (by decide) (by decide)]
  show (ofChars? false (' ' :: (source.toList ++ closing))).map _ = _
  rw [hspace, hb, Option.map_map]
  rfl

end Lexeme

end Federation
