import Federation.Proofs.Document.Closing
import Mathlib.Data.List.Forall2

/-!
# Words with spaces between them

A text is written by putting spaces between words, each of which is one token on its own (`IsWord`).
Then the tokens of the text are those of the words, and no comment is among them
(`ofText?_intercalate`, `endsInComment_intercalate`).
-/

namespace Federation

/-- Whether a text is a token, both on its own and where a space comes after it. -/
def IsWord (w : String) (t : Token) : Prop :=
  ∃ c cs, w.toList = c :: cs ∧ c ≠ ',' ∧ Token.isIgnored c = false ∧ c ≠ '#' ∧
    ∀ rest : List Char, (∀ d ∈ rest.head?, d = ' ') → Token.scan? c (cs ++ rest) = some (t, rest)

theorem isWord_braceL : IsWord "\x7b" (.punct .braceL) :=
  ⟨'{', [], by decide, by decide, by decide, by decide, fun _ _ => rfl⟩

theorem isWord_braceR : IsWord "\x7d" (.punct .braceR) :=
  ⟨'}', [], by decide, by decide, by decide, by decide, fun _ _ => rfl⟩

theorem isWord_spread : IsWord "..." (.punct .spread) :=
  ⟨'.', ['.', '.'], by decide, by decide, by decide, by decide, fun _ _ => rfl⟩

theorem isWord_name (n : Name) : IsWord n.text (.name n) := by
  have hvalid := n.valid
  cases hn : n.text.toList with
  | nil => exact absurd hn n.toList_ne_nil
  | cons c cs =>
    rw [hn] at hvalid
    obtain ⟨hstart, hcs⟩ := hvalid
    have hne : ∀ d, isNameStart d = false → c ≠ d := by
      rintro d hd rfl
      rw [hd] at hstart
      cases hstart
    -- A letter or an underscore starts no other token, so the scanner goes on to read a name.
    have hignored : Token.isIgnored c = false := by
      simp [Token.isIgnored, hne ' ' (by decide), hne '\t' (by decide), hne '\n' (by decide),
        hne '\r' (by decide), hne '\ufeff' (by decide)]
    refine ⟨c, cs, hn, hne _ (by decide), hignored, hne _ (by decide), fun rest hrest => ?_⟩
    have htake : rest.takeWhile isNameContinue = [] := by
      cases rest with
      | nil => rfl
      | cons d ds =>
        obtain rfl := hrest d rfl
        rfl
    have hdrop : rest.dropWhile isNameContinue = rest := by
      cases rest with
      | nil => rfl
      | cons d ds =>
        obtain rfl := hrest d rfl
        rfl
    have hname : Token.nameAt c (cs ++ rest) hstart = n := by
      refine Name.ext (String.toList_inj.1 ?_)
      rw [Token.nameAt, Name.text_ofChars, hn,
        List.takeWhile_append_of_pos (List.all_eq_true.1 hcs), htake, List.append_nil]
    rw [Token.scan?, dif_pos hstart, hname,
      List.dropWhile_append_of_pos (List.all_eq_true.1 hcs), hdrop]

namespace Lexeme

variable {w : String} {t : Token} {ws : List String} {ts : List Token}

/-- A word is the first token of the text that it starts. -/
theorem ofChars?_word (h : IsWord w t) (comma : Bool) {rest : List Char}
    (hrest : ∀ d ∈ rest.head?, d = ' ') : ofChars? comma (w.toList ++ rest) =
      (ofChars? false rest).map (⟨t, comma⟩ :: ·) := by
  obtain ⟨c, cs, hw, hcomma, hignored, hcomment, hscan⟩ := h
  rw [hw, List.cons_append, ofChars?_of_scan? hcomma hignored hcomment, hscan rest hrest]
  rfl

theorem endsInComment_word (h : IsWord w t) {rest : List Char}
    (hrest : ∀ d ∈ rest.head?, d = ' ') :
    endsInComment (w.toList ++ rest) = endsInComment rest := by
  obtain ⟨c, cs, hw, hcomma, hignored, hcomment, hscan⟩ := h
  rw [hw, List.cons_append, endsInComment_of_scan? hcomma hignored hcomment (hscan rest hrest)]

theorem ofChars?_space (comma : Bool) (cs : List Char) :
    ofChars? comma (' ' :: cs) = ofChars? comma cs := by
  rw [ofChars?, if_neg (by decide), if_pos (by decide)]

theorem endsInComment_space (cs : List Char) : endsInComment (' ' :: cs) = endsInComment cs := by
  rw [endsInComment, if_neg (by decide), if_pos (by decide)]

/-- **The tokens of words with spaces between them** are those of the words, and no comment is among
them. -/
theorem ofText?_intercalate (h : List.Forall₂ IsWord ws ts) :
    ofText? (" ".intercalate ws) = some (ts.map (⟨·, false⟩)) ∧
      endsInComment (" ".intercalate ws).toList = false := by
  rw [ofText?, String.toList_intercalate]
  show ofChars? false ([' '].intercalate _) = _ ∧ endsInComment ([' '].intercalate _) = false
  induction h with
  | nil => exact ⟨ofChars?_nil false, by rw [List.map_nil, List.intercalate_nil, endsInComment]⟩
  | @cons w t ws ts hw hws ih =>
    -- The word ends in front of a space, or with the text.
    have hsplit : ∃ rest, [' '].intercalate ((w :: ws).map String.toList) = w.toList ++ rest ∧
        (∀ d ∈ rest.head?, d = ' ') ∧ ofChars? false rest = ofChars? false
          ([' '].intercalate (ws.map String.toList)) ∧
        endsInComment rest = endsInComment ([' '].intercalate (ws.map String.toList)) := by
      cases ws with
      | nil => exact ⟨[], by simp [List.intercalate], by simp, rfl, rfl⟩
      | cons w' ws => 
        exact ⟨' ' :: [' '].intercalate ((w' :: ws).map String.toList), 
          by simp [List.intercalate], by simp, ofChars?_space _ _, endsInComment_space _⟩
    obtain ⟨rest, hrest, hspace, hchars, hcomment⟩ := hsplit
    rw [hrest, ofChars?_word hw false hspace, endsInComment_word hw hspace, hchars, hcomment, ih.1,
      ih.2]
    exact ⟨rfl, rfl⟩

end Lexeme

end Federation
