import Federation.Proofs.Document.Closing
import Federation.Proofs.FieldSet.Grammar
import Federation.Results

/-!
# Reading a field set

A field set is read from the document that its source makes between two braces, so the source has a
part in where the document ends.  Between the braces, what the wider grammar derives is read and
nothing else (`DerivesLoosely`), but for commas after a spread, which are refused (`FreeSpreads`).
The closing brace is the one that was put there, unless the source ends in a comment: then the
comment takes it in, and the source has to close the braces itself (`Between`, `ofText?_eq_ok_iff`).

So the grammar is what is read, except for sources that end in a comment and that, as they stand or
without a brace at the end, are field sets, and for those that only the wider grammar derives, with
arguments or directives in them (`readsGrammar_iff`).
-/

namespace Federation

/-! ### Blank texts -/

theorem toNat_of_isBlank {c : Char} (h : isBlank c = true) :
    c.toNat < 0x21 ∨ 0x7e < c.toNat := by
  simp only [isBlank, Bool.or_eq_true, Bool.and_eq_true, decide_eq_true_eq, beq_iff_eq] at h
  omega

/-- No token starts with a blank character. -/
theorem Token.scan?_of_isBlank {c : Char} (h : isBlank c = true) (cs : List Char) :
    scan? c cs = none := by
  -- Every token starts with a visible ASCII character, and a blank is not one of these.
  have hc := toNat_of_isBlank h
  have hne : ∀ d : Char, 0x21 ≤ d.toNat → d.toNat ≤ 0x7e → c ≠ d := by
    rintro d h1 h2 rfl
    omega
  have hstart : isNameStart c = false := by
    have hunderscore := hne '_' (by decide) (by decide)
    have hupper : c.isUpper = decide ('A'.val ≤ c.val ∧ c.val ≤ 'Z'.val) := rfl
    have hlower : c.isLower = (decide ('a'.val ≤ c.val) && decide (c.val ≤ 'z'.val)) := rfl
    have halpha : c.isAlpha = (c.isUpper || c.isLower) := rfl
    rw [isNameStart, halpha, hupper, hlower]
    simp [UInt32.le_iff_toNat_le, hunderscore]
    omega
  have hdigit : (c.isDigit || c == '-') = false := by
    have hminus := hne '-' (by decide) (by decide)
    simp [Char.isDigit, UInt32.le_iff_toNat_le, hminus]
    omega
  have hquote : (c == '"') = false := beq_false_of_ne (hne '"' (by decide) (by decide))
  have hpunctuator : punctuator? c = none := by
    unfold punctuator?
    split
    case h_14 => rfl
    all_goals exact absurd rfl (hne _ (by decide) (by decide))
  have hspread : afterSpread? (c :: cs) = none := by
    simp [afterSpread?, hne '.' (by decide) (by decide)]
  rw [scan?, dif_neg (by simp [hstart]), if_neg (by simp [hdigit]), if_neg (by simp [hquote]),
    hpunctuator, hspread]
  rfl

/-- A blank text has no tokens. -/
theorem Lexeme.eq_nil_of_blank {comma : Bool} {cs : List Char} (hcs : ∀ c ∈ cs, isBlank c = true)
    {ls : List Lexeme} (h : ofChars? comma cs = some ls) : ls = [] := by
  induction cs generalizing comma with
  | nil => simpa [ofChars?_nil] using h.symm
  | cons c cs ih =>
    obtain ⟨hc, hcs⟩ := List.forall_mem_cons.1 hcs
    have hcomma : c ≠ ',' := by
      rintro rfl
      cases hc
    have hcomment : c ≠ '#' := by
      rintro rfl
      cases hc
    by_cases hignored : Token.isIgnored c = true
    · rw [ofChars?, if_neg hcomma, if_pos hignored] at h
      exact ih hcs h
    · rw [ofChars?_of_scan? hcomma (by simpa using hignored) hcomment,
        Token.scan?_of_isBlank hc] at h
      cases h

namespace FieldSet

open Federation.Parser

/-! ### Between braces -/

variable {source : String} {ls : List Lexeme} {f : FieldSet}

/-- What is read between two braces are selections up to the second one. -/
theorem ofDocument?_braceL_eq_ok_iff {b : Bool} :
    (∃ d, document? (⟨.punct .braceL, b⟩ :: ls) = some d ∧ ofDocument? d = .ok f) ↔
      ∃ S, (selections (ls.length + 2)).run ls = some (S, []) ∧ S ≠ .empty ∧
        ofSelections? S = .ok f := by
  constructor
  · rintro ⟨d, hd, hf⟩
    unfold ofDocument? at hf
    split at hf
    · obtain ⟨T, hrun, hne, he⟩ := document?_braceL_eq_singleton_iff.1 hd
      cases he
      exact ⟨_, hrun, hne, hf⟩
    · cases hf
  · rintro ⟨S, hrun, hne, hf⟩
    exact ⟨_, document?_braceL_eq_singleton_iff.2 ⟨S, hrun, hne, rfl⟩, hf⟩

/-- **What is read up to a brace at the end** is what the wider grammar derives before the brace. -/
theorem exists_run_selections_iff
    (hfree : ∀ inner b, ls = inner ++ [⟨.punct .braceR, b⟩] → FreeSpreads inner) :
    (∃ S, (selections (ls.length + 2)).run ls = some (S, []) ∧ S ≠ .empty ∧
        ofSelections? S = .ok f) ↔
      ∃ inner b, ls = inner ++ [⟨.punct .braceR, b⟩] ∧
        DerivesLoosely (inner.map Lexeme.token) f := by
  constructor
  · rintro ⟨S, hrun, hne, hS⟩
    obtain ⟨inner, b, hls, hf⟩ := closes_of_run_selections _ hrun hS
    rcases hf with ⟨_, rfl⟩ | hf
    · exact absurd (ofSelections?_eq_ok_empty_iff.1 hS) hne
    · exact ⟨inner, b, hls, hf⟩
  · rintro ⟨inner, b, rfl, hf⟩
    have hread := hf.readAs rfl (hfree inner b rfl) (endsField_cons (.inl rfl)) (readAs_braceR b [])
    rw [append_empty] at hread
    have hbudget : inner.length + 1 ≤ (inner ++ [(⟨.punct .braceR, b⟩ : Lexeme)]).length + 2 := by
      rw [List.length_append, List.length_singleton]
      omega
    obtain ⟨S, hrun, hS⟩ := hread _ hbudget
    refine ⟨S, hrun, ?_, hS⟩
    rintro rfl
    exact hf.ne_empty (Except.ok.inj hS).symm

/-- A source is read as the document that it makes between braces. -/
theorem ofText?_eq_ok_iff_document : ofText? source = .ok f ↔ isBlankText source = false ∧
    ∃ d, Document.ofText? ("\x7b " ++ source ++ " \x7d") = some d ∧ ofDocument? d = .ok f := by
  unfold ofText?
  cases hblank : isBlankText source with
  | true => simp
  | false =>
    cases Document.ofText? ("\x7b " ++ source ++ " \x7d") with
    | none => simp
    | some d => cases h : ofDocument? d <;> simp [Except.mapError, h]

/-- What is read are the selections that stand between two braces. -/
theorem exists_run_of_ofText? (h : ofText? source = .ok f) : ∃ ls S,
    (Lexeme.ofText? source).isSome = true ∧
      (selections (ls.length + 2)).run ls = some (S, []) ∧ S ≠ .empty ∧
        ofSelections? S = .ok f := by
  obtain ⟨_, d, hd, hf⟩ := ofText?_eq_ok_iff_document.1 h
  obtain ⟨b, hbraces⟩ := Lexeme.ofText?_braces source
  rw [Document.ofText?, hbraces] at hd
  obtain ⟨_, hmap, hd⟩ := Option.bind_eq_some_iff.1 hd
  obtain ⟨ls, hls, rfl⟩ := Option.map_eq_some_iff.1 hmap
  obtain ⟨S, hrun, hne, hS⟩ := ofDocument?_braceL_eq_ok_iff.1 ⟨d, hd, hf⟩
  exact ⟨_, S, Option.isSome_iff_exists.2 ⟨ls, hls⟩, hrun, hne, hS⟩

/-- What stands between the brace before a source and the one that closes it: all tokens of the
source; where the source ends in a comment, which takes in the brace after it, all but a brace that
closes the source. -/
def Between (source : String) (inner : List Lexeme) : Prop :=
  Lexeme.endsInComment source.toList = false ∧ Lexeme.ofText? source = some inner ∨
    Lexeme.endsInComment source.toList = true ∧
      ∃ b, Lexeme.ofText? source = some (inner ++ [⟨.punct .braceR, b⟩])

/-- The tokens that are read, up to the brace that closes them. -/
theorem between_iff {b : Bool} (hls : Lexeme.ofText? source = some ls) {inner : List Lexeme} :
    Between source inner ↔ ∃ c,
      (ls ++ if Lexeme.endsInComment source.toList then [] else [(⟨.punct .braceR, b⟩ : Lexeme)]) =
        inner ++ [⟨.punct .braceR, c⟩] := by
  rw [Between, hls]
  cases Lexeme.endsInComment source.toList with
  | true => simp
  | false =>
    simp only [Option.some.injEq, true_and, Bool.false_eq_true, false_and, or_false, if_false]
    constructor
    · rintro rfl
      exact ⟨b, rfl⟩
    · rintro ⟨c, happend⟩
      exact (List.append_inj' happend rfl).1

/-- What stands between the braces is a part of the source. -/
theorem Between.exists_isInfix {inner : List Lexeme} (h : Between source inner) :
    ∃ ls, Lexeme.ofText? source = some ls ∧ inner <:+: ls := by
  rcases h with ⟨_, hls⟩ | ⟨_, b, hls⟩
  · exact ⟨inner, hls, List.infix_rfl⟩
  · exact ⟨_, hls, List.infix_append_of_infix_left List.infix_rfl⟩

/-- **What a field set is read from**: what the wider grammar derives between the braces. -/
theorem ofText?_eq_ok_iff (hfree : ∀ ls, Lexeme.ofText? source = some ls → FreeSpreads ls) :
    ofText? source = .ok f ↔
      ∃ inner, Between source inner ∧ DerivesLoosely (inner.map Lexeme.token) f := by
  cases hls : Lexeme.ofText? source with
  | none =>
    constructor
    · intro hf
      obtain ⟨_, _, hsome, _⟩ := exists_run_of_ofText? hf
      rw [hls] at hsome
      cases hsome
    · rintro ⟨inner, hinner, _⟩
      obtain ⟨ls, hls', _⟩ := hinner.exists_isInfix
      rw [hls] at hls'
      cases hls'
  | some ls =>
    obtain ⟨b, hbraces⟩ := Lexeme.ofText?_braces source
    rw [hls, Option.map_some] at hbraces
    cases hblank : isBlankText source with
    | true =>
      -- There are no tokens then, and the grammar derives nothing from none.
      obtain rfl : ls = [] := Lexeme.eq_nil_of_blank (List.all_eq_true.1 hblank) hls
      simp only [ofText?, hblank, if_true, reduceCtorEq, false_iff, not_exists, not_and]
      intro inner hinner hf
      obtain ⟨ls, hls', hpart⟩ := hinner.exists_isInfix
      obtain rfl := Option.some.inj (hls.symm.trans hls')
      obtain rfl := List.eq_nil_of_infix_nil hpart
      obtain ⟨t, us, hcons, _⟩ := hf.exists_cons
      cases hcons
    | false =>
      simp only [ofText?_eq_ok_iff_document, hblank, true_and, Document.ofText?, hbraces,
        Option.bind_some, ofDocument?_braceL_eq_ok_iff, between_iff (b := b) hls]
      rw [exists_run_selections_iff]
      · simp only [exists_and_right]
      · intro inner c hinner
        obtain ⟨ls', hls', hpart⟩ := ((between_iff hls).2 ⟨c, hinner⟩).exists_isInfix
        exact (hfree ls' hls').of_isInfix hpart

/-! ### The grammar and what is read -/

/-- Whether a source is read as the grammar says: the field set that its tokens derive, if they
derive one. -/
def ReadsGrammar (source : String) : Prop :=
  ∀ f, ofText? source = .ok f ↔
    ∃ ls, Lexeme.ofText? source = some ls ∧ Derives (ls.map Lexeme.token) f

/-- Whether a source that ends in a comment is a field set, as it stands or without a brace at the
end. -/
def CommentedOut (source : String) : Prop :=
  Lexeme.endsInComment source.toList = true ∧ ∃ ls f, Lexeme.ofText? source = some ls ∧
    (Derives (ls.map Lexeme.token) f ∨
      ∃ inner b, ls = inner ++ [⟨.punct .braceR, b⟩] ∧ Derives (inner.map Lexeme.token) f)

/-- Whether what stands between the braces is a field set but for directives on its inline fragments
and names alone in the place of arguments, and has one of these in it. -/
def PassesOver (source : String) : Prop :=
  ∃ inner f, Between source inner ∧ DerivesLoosely (inner.map Lexeme.token) f ∧
    (.punct .parenL ∈ inner.map Lexeme.token ∨ .punct .at ∈ inner.map Lexeme.token)

/-- No source is a field set both as it stands and without a brace at the end. -/
theorem not_derives_of_concat_braceR {inner : List Lexeme} {b : Bool} {g : FieldSet}
    (h : Derives (inner.map Lexeme.token) f) :
    ¬ Derives ((inner ++ [(⟨.punct .braceR, b⟩ : Lexeme)]).map Lexeme.token) g := by
  intro hg
  have hinner := h.count_braceL
  have houter := hg.count_braceL
  simp only [List.map_append, List.count_append] at houter
  simp [hinner] at houter

/-- What the wider grammar derives from a part of a field set is a field set. -/
theorem DerivesLoosely.derives_of_isInfix {inner : List Lexeme} {g : FieldSet}
    (h : DerivesLoosely (inner.map Lexeme.token) f) (hpart : inner <:+: ls)
    (hls : Derives (ls.map Lexeme.token) g) : Derives (inner.map Lexeme.token) f := by
  obtain ⟨_, hparen, hat⟩ := derives_iff.1 hls
  have hsubset := (hpart.map Lexeme.token).subset
  exact derives_iff.2 ⟨h, fun hmem => hparen (hsubset hmem), fun hmem => hat (hsubset hmem)⟩

/-- Where reading is what the grammar says, it derives what is read from the source as well as from
what stands between the braces. -/
theorem ReadsGrammar.derives (h : ReadsGrammar source)
    (hfree : ∀ ls, Lexeme.ofText? source = some ls → FreeSpreads ls) {inner : List Lexeme}
    (hbetween : Between source inner) (hinner : DerivesLoosely (inner.map Lexeme.token) f) :
    Derives (inner.map Lexeme.token) f ∧
      ∃ ls, Lexeme.ofText? source = some ls ∧ Derives (ls.map Lexeme.token) f := by
  have hread : ofText? source = .ok f := (ofText?_eq_ok_iff hfree).2 ⟨inner, hbetween, hinner⟩
  obtain ⟨ls, hls, hderives⟩ := (h f).1 hread
  obtain ⟨ls', hls', hpart⟩ := hbetween.exists_isInfix
  obtain rfl := Option.some.inj (hls.symm.trans hls')
  exact ⟨hinner.derives_of_isInfix hpart hderives, ls, hls, hderives⟩

/-- **Reading is what the grammar says**, where no comma stands after a spread, exactly if the
source does not end in a comment that hides what it lacks or has too much, and no arguments or
directives are passed over in it. -/
theorem readsGrammar_iff (hfree : ∀ ls, Lexeme.ofText? source = some ls → FreeSpreads ls) :
    ReadsGrammar source ↔ ¬ CommentedOut source ∧ ¬ PassesOver source := by
  constructor
  · intro h
    constructor
    · rintro ⟨hends, ls, f, hls, hf | ⟨inner, b, rfl, hf⟩⟩
      · -- The comment takes in the brace after the source, so the source has to close the braces.
        obtain ⟨inner, hbetween, hinner⟩ := (ofText?_eq_ok_iff hfree).1 ((h f).2 ⟨ls, hls, hf⟩)
        obtain ⟨hderives, _⟩ := h.derives hfree hbetween hinner
        rcases hbetween with ⟨hnot, _⟩ | ⟨_, b, hconcat⟩
        · rw [hends] at hnot
          cases hnot
        · obtain rfl := Option.some.inj (hls.symm.trans hconcat)
          exact not_derives_of_concat_braceR hderives hf
      · obtain ⟨_, ls, hls', hderives⟩ := h.derives hfree (.inr ⟨hends, b, hls⟩) hf.loosely
        obtain rfl := Option.some.inj (hls.symm.trans hls')
        exact not_derives_of_concat_braceR hf hderives
    · rintro ⟨inner, f, hbetween, hinner, hmem⟩
      obtain ⟨hderives, _⟩ := h.derives hfree hbetween hinner
      obtain ⟨_, hparen, hat⟩ := derives_iff.1 hderives
      exact hmem.elim hparen hat
  · rintro ⟨hcomment, hpasses⟩ f
    rw [ofText?_eq_ok_iff hfree]
    constructor
    · rintro ⟨inner, hbetween, hinner⟩
      have hderives : Derives (inner.map Lexeme.token) f := derives_iff.2
        ⟨hinner, fun hmem => hpasses ⟨inner, f, hbetween, hinner, .inl hmem⟩,
          fun hmem => hpasses ⟨inner, f, hbetween, hinner, .inr hmem⟩⟩
      rcases hbetween with ⟨_, hls⟩ | ⟨hends, b, hls⟩
      · exact ⟨inner, hls, hderives⟩
      · exact absurd ⟨hends, _, f, hls, .inr ⟨inner, b, rfl, hderives⟩⟩ hcomment
    · rintro ⟨ls, hls, hderives⟩
      cases hends : Lexeme.endsInComment source.toList with
      | false => exact ⟨ls, .inl ⟨hends, hls⟩, hderives.loosely⟩
      | true => exact absurd ⟨hends, ls, f, hls, .inl hderives⟩ hcomment

/-- A nested field set on two lines, with a comment on the first, is read as the grammar says. -/
theorem readsGrammar_commentedLine :
    ReadsGrammar "id # the key\norg \x7b ... on Org \x7b name \x7d \x7d" := by
  have hread : ∃ ls ∈ Lexeme.ofText? "id # the key\norg \x7b ... on Org \x7b name \x7d \x7d",
      (∀ l ∈ ls, l.afterComma = false) ∧ .punct .parenL ∉ ls.map Lexeme.token ∧
        .punct .at ∉ ls.map Lexeme.token := by decide +kernel
  obtain ⟨ls, hls, hcomma, hargs, hat⟩ := hread
  refine (readsGrammar_iff fun ls' hls' => ?_).2 ⟨?_, ?_⟩
  · obtain rfl := Option.some.inj (hls.symm.trans hls')
    exact freeSpreads_of_afterComma hcomma
  · rintro ⟨hcomment, _⟩
    exact absurd hcomment (by decide +kernel)
  · rintro ⟨inner, _, hbetween, _, hmem⟩
    obtain ⟨ls', hls', hpart⟩ := hbetween.exists_isInfix
    obtain rfl := Option.some.inj (hls.symm.trans hls')
    have hsubset := (hpart.map Lexeme.token).subset
    exact hmem.elim (fun h => hargs (hsubset h)) fun h => hat (hsubset h)

/-- A key with a comment after it is refused, a key with a brace and a comment after it is accepted,
and so is an inline fragment to which a directive is applied. -/
theorem not_readsGrammar :
    ¬ ReadsGrammar "id # key" ∧ ¬ ReadsGrammar "id \x7d #" ∧
      ¬ ReadsGrammar "... @skip(if: true) \x7b id \x7d" := by
  refine ⟨fun h => ?_, fun h => ?_, fun h => ?_⟩
  · -- The tokens without the comment derive the key, so by the grammar it would be accepted.
    have hkey : (Lexeme.ofText? "id # key").map (·.map Lexeme.token) =
        some [.name ⟨"id", by decide⟩] := by decide +kernel
    have hrefused : (ofText? "id # key").toOption = none := by decide +kernel
    obtain ⟨ls, hls, heq⟩ := Option.map_eq_some_iff.1 hkey
    have hderives : Derives (ls.map Lexeme.token) (field ⟨"id", by decide⟩ empty empty) := by
      rw [heq]
      exact .leaf _
    rw [(h _).2 ⟨ls, hls, hderives⟩] at hrefused
    cases hrefused
  · have haccepted : (ofText? "id \x7d #").toOption =
        some (field ⟨"id", by decide⟩ empty empty) := by decide +kernel
    -- a derivation opens as many braces as it closes
    have hclosing : (Lexeme.ofText? "id \x7d #").any (fun ls =>
        (ls.map Lexeme.token).count (.punct .braceL) ≠
          (ls.map Lexeme.token).count (.punct .braceR)) = true := by decide +kernel
    obtain ⟨ls, hls, hf⟩ := (h _).1 (eq_ok_of_toOption haccepted)
    rw [hls] at hclosing
    exact absurd hf.count_braceL (by simpa using hclosing)
  · have haccepted : (ofText? "... @skip(if: true) \x7b id \x7d").toOption =
        some (fragment none (field ⟨"id", by decide⟩ empty empty) empty) := by decide +kernel
    -- no derivation has an `@` in it
    have hat : (Lexeme.ofText? "... @skip(if: true) \x7b id \x7d").any (fun ls =>
        decide (.punct .at ∈ ls.map Lexeme.token)) = true := by decide +kernel
    obtain ⟨ls, hls, hf⟩ := (h _).1 (eq_ok_of_toOption haccepted)
    rw [hls] at hat
    have hmem := hf.mem_cases (of_decide_eq_true hat)
    simp at hmem

end FieldSet

end Federation
