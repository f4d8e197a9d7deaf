import Federation.Proofs.Document.Words
import Federation.Proofs.FieldSet.Reading

/-!
# Writing a field set and reading it again

A field set that has been read, and one that is made of such by the operations on field sets, has no
inline fragment without a selection (`FieldSet.Proper`, `FieldSet.Made.proper`).  So what it is
written as can be read, and it is read as the field set that was written (`ofText?_render`): the
words are tokens that the grammar derives the field set from (`selects_tokens`).
-/

namespace Federation

namespace FieldSet

open Federation.Parser

/-- Whether no inline fragment, at any depth, is without a selection. -/
def Proper : FieldSet → Prop
  | empty => True
  | field _ sub rest => sub.Proper ∧ rest.Proper
  | fragment _ sub rest => sub ≠ empty ∧ sub.Proper ∧ rest.Proper

/-- The field sets that are read, and that are made of these by the operations on field sets. -/
inductive Made : FieldSet → Prop
  | read {source : String} {f : FieldSet} (h : ofText? source = .ok f) : Made f
  | selection {f g : FieldSet} (hf : Made f) (n : Name) (h : f.selectionOf? n = some g) : Made g
  | possible {f : FieldSet} (hf : Made f) (abstractType objectType : Name) :
      Made (f.forPossibleType abstractType objectType)
  | append {f g : FieldSet} (hf : Made f) (hg : Made g) : Made (f ++ g)

/-! ### Fragments without a selection -/

variable {f g : FieldSet}

theorem Proper.append (hf : f.Proper) (hg : g.Proper) : (f ++ g).Proper := by
  induction f with
  | empty => exact hg
  | field n sub rest _ ih => exact ⟨hf.1, ih hf.2⟩
  | fragment c sub rest _ ih => exact ⟨hf.1, hf.2.1, ih hf.2.2⟩

theorem Proper.merge? {f? g? : Option FieldSet} (hf : ∀ f ∈ f?, f.Proper)
    (hg : ∀ g ∈ g?, g.Proper) : ∀ h ∈ FieldSet.merge? f? g?, h.Proper := by
  cases f? with
  | none => simpa using hg
  | some f =>
    cases g? with
    | none => simpa using hf
    | some g =>
      intro h hh
      obtain rfl := Option.some.inj hh
      exact (hf f rfl).append (hg g rfl)

/-- What is selected below a field is as its selections are. -/
theorem Proper.selectionOf? (hf : f.Proper) (n : Name) : ∀ g ∈ f.selectionOf? n, g.Proper := by
  induction f with
  | empty => intro g hg; cases hg
  | field m sub rest _ ih =>
    rw [FieldSet.selectionOf?]
    split
    · refine Proper.merge? (fun g hg => ?_) (ih hf.2)
      obtain rfl := Option.some.inj hg
      exact hf.1
    · exact ih hf.2
  | fragment c sub rest ihs ihr =>
    cases c with
    | none => exact Proper.merge? (ihs hf.2.1) (ihr hf.2.2)
    | some c => exact ihr hf.2.2

theorem Proper.restrict (hf : f.Proper) (holds : Name → Bool) : (f.restrict holds).Proper := by
  induction f with
  | empty => exact hf
  | field n sub rest _ ih => exact ⟨hf.1, ih hf.2⟩
  | fragment c sub rest ihs ihr =>
    rw [FieldSet.restrict]
    split
    · exact (ihs hf.2.1).append (ihr hf.2.2)
    · exact ihr hf.2.2

/-! ### What is read -/

/-- The braces of an inline fragment that is read hold a selection. -/
theorem proper_of_run_selections {n : Nat} {ls rest : List Lexeme} {S : SelectionSet}
    (hrun : (selections n).run ls = some (S, rest)) (hS : ofSelections? S = .ok f) : f.Proper := by
  induction n generalizing ls S f rest with
  | zero => cases hrun
  | succ n ih =>
    obtain ⟨k, t, b, us, hk, rfl, ht⟩ := head_of_run_selections hrun
    obtain rfl := Nat.succ.inj hk
    -- A reading between braces comes back with a selection, or not at all.
    have hnests : ∀ {vs sub s g h}, Nests n vs sub s rest → ofSelections? sub = .ok g →
        ofSelections? s = .ok h → g ≠ empty ∧ g.Proper ∧ h.Proper := by
      rintro vs sub s g h ⟨ws, hsubrun, hne, hsrun⟩ hsub hs
      refine ⟨?_, ih hsubrun hsub, ih hsrun hs⟩
      rintro rfl
      exact hne (ofSelections?_eq_ok_empty_iff.1 hsub)
    rcases ht with rfl | rfl | ⟨m, rfl⟩
    · rw [run_selections_braceR] at hrun
      cases hrun
      cases hS
      trivial
    · rcases exists_of_run_selections_spread hrun with
        ⟨m, ds, s, rfl⟩ | ⟨c, us', _, ds, sub, s, b', vs, rfl, _, h⟩
      · simp [ofSelections?] at hS
      · obtain ⟨g, h', hsub, hs, rfl⟩ := ofSelections?_inline_eq_ok_iff.1 hS
        exact hnests h hsub hs
    · obtain ⟨label, k, us', _, args, ds, sub, s, vs, ws, rfl, _, _, hbraces⟩ :=
        exists_of_run_selections_name hrun
      obtain ⟨_, _, _, g, h, hsub, hs, rfl⟩ := ofSelections?_field_eq_ok_iff.1 hS
      rcases hbraces with ⟨rfl, hrest⟩ | ⟨b', xs, _, h'⟩
      · cases hsub
        exact ⟨trivial, ih hrest hs⟩
      · exact (hnests h' hsub hs).2

theorem proper_of_ofText? {source : String} (h : ofText? source = .ok f) : f.Proper := by
  obtain ⟨ls, S, _, hrun, _, hS⟩ := exists_run_of_ofText? h
  exact proper_of_run_selections hrun hS

/-- What is read selects something. -/
theorem ne_empty_of_ofText? {source : String} (h : ofText? source = .ok f) : f ≠ empty := by
  obtain ⟨ls, S, _, _, hne, hS⟩ := exists_run_of_ofText? h
  rintro rfl
  exact hne (ofSelections?_eq_ok_empty_iff.1 hS)

/-- **Field sets that are made of what is read** have no fragment without a selection. -/
theorem Made.proper (h : Made f) : f.Proper := by
  induction h with
  | read h => exact proper_of_ofText? h
  | selection _ n h ih => exact ih.selectionOf? n _ h
  | possible _ a o ih => exact ih.restrict _
  | append _ _ ihf ihg => exact ihf.append ihg

/-! ### What is written -/

/-- The tokens that a field set is written with. -/
def tokens : FieldSet → List Token
  | empty => []
  | field n empty rest => .name n :: rest.tokens
  | field n sub rest => .name n :: .punct .braceL :: sub.tokens ++ .punct .braceR :: rest.tokens
  | fragment none sub rest =>
    .punct .spread :: .punct .braceL :: sub.tokens ++ .punct .braceR :: rest.tokens
  | fragment (some c) sub rest =>
    .punct .spread :: .name onWord :: .name c :: .punct .braceL :: sub.tokens ++
      .punct .braceR :: rest.tokens

/-- Every word is one token. -/
theorem forall₂_isWord (f : FieldSet) : List.Forall₂ IsWord f.words f.tokens := by
  have hbraces : ∀ {ws vs : List String} {ts us : List Token}, List.Forall₂ IsWord ws ts →
      List.Forall₂ IsWord vs us → List.Forall₂ IsWord ("\x7b" :: ws ++ "\x7d" :: vs)
        (.punct .braceL :: ts ++ .punct .braceR :: us) :=
    fun hws hvs => List.rel_append (.cons isWord_braceL hws) (.cons isWord_braceR hvs)
  induction f with
  | empty => exact .nil
  | field n sub rest ihs ihr =>
    cases sub with
    | empty => exact .cons (isWord_name n) ihr
    | field _ _ _ | fragment _ _ _ => exact .cons (isWord_name n) (hbraces ihs ihr)
  | fragment c sub rest ihs ihr =>
    cases c with
    | none => exact .cons isWord_spread (hbraces ihs ihr)
    | some c =>
      exact .cons isWord_spread (.cons (isWord_name onWord) (.cons (isWord_name c)
        (hbraces ihs ihr)))

/-- **The tokens that a field set is written with derive it**, if it is proper. -/
theorem selects_tokens (hf : f.Proper) : Selects Derives f.tokens f := by
  -- A part in braces holds a selection, so its tokens derive it.
  have hbraces : ∀ {sub : FieldSet}, sub ≠ empty → Selects Derives sub.tokens sub →
      Derives sub.tokens sub := fun hne h => h.resolve_left fun h => hne h.2
  induction f with
  | empty => exact .inl ⟨rfl, rfl⟩
  | field n sub rest ihs ihr =>
    cases sub with
    | empty => exact .inr ((Derives.leaf n).append_selects (ihr hf.2))
    | field _ _ _ | fragment _ _ _ =>
      have hsub := hbraces FieldSet.noConfusion (ihs hf.1)
      have h := (hsub.nested n).append_selects (ihr hf.2)
      exact .inr (by simpa [tokens] using h)
  | fragment c sub rest ihs ihr =>
    have hsub := hbraces hf.1 (ihs hf.2.1)
    cases c with
    | none =>
      have h := hsub.inline.append_selects (ihr hf.2.2)
      exact .inr (by simpa [tokens] using h)
    | some c =>
      have h := (hsub.inlineOn c).append_selects (ihr hf.2.2)
      exact .inr (by simpa [tokens] using h)

/-- A proper field set can be written and read again. -/
theorem ofText?_render_of_proper (hf : f.Proper) (hne : f ≠ empty) :
    ofText? f.render = .ok f := by
  have hderives : Derives f.tokens f := (selects_tokens hf).resolve_left fun h => hne h.2
  obtain ⟨hls, hcomment⟩ := Lexeme.ofText?_intercalate f.forall₂_isWord
  have htokens : (f.tokens.map (⟨·, false⟩ : Token → Lexeme)).map Lexeme.token = f.tokens := by
    rw [List.map_map]
    exact List.map_id _
  rw [← htokens] at hderives
  refine (ofText?_eq_ok_iff fun ls hls' => ?_).2 ⟨_, .inl ⟨hcomment, hls⟩, hderives.loosely⟩
  obtain rfl := Option.some.inj (hls.symm.trans hls')
  refine freeSpreads_of_afterComma fun l hl => ?_
  obtain ⟨t, _, rfl⟩ := List.mem_map.1 hl
  rfl

/-- **Field sets can be written and read again**: whatever is made of field sets that were read is
read back from its own text, unless nothing is selected. -/
theorem ofText?_render (hf : Made f) (hne : f ≠ empty) : ofText? f.render = .ok f :=
  ofText?_render_of_proper hf.proper hne

/-- What is selected below a field, where fields and conditions are named like keywords, and then
the whole selection again for a type, is read back. -/
theorem ofText?_render_keywords : ∃ f g,
    ofText? "org \x7b on ... on on \x7b fragment \x7d \x7d ... on query \x7b type \x7d" = .ok f ∧
      f.selectionOf? ⟨"org", by decide⟩ = some g ∧
      ofText? (g ++ f.forPossibleType ⟨"query", by decide⟩ onWord).render =
        .ok (g ++ f.forPossibleType ⟨"query", by decide⟩ onWord) := by
  have hread : (ofText?
      "org \x7b on ... on on \x7b fragment \x7d \x7d ... on query \x7b type \x7d").toOption =
      some (field ⟨"org", by decide⟩
        (field onWord empty
          (fragment (some onWord) (field ⟨"fragment", by decide⟩ empty empty) empty))
        (fragment (some ⟨"query", by decide⟩) (field ⟨"type", by decide⟩ empty empty) empty)) := by
    decide +kernel
  have hf := Made.read (eq_ok_of_toOption hread)
  refine ⟨_, field onWord empty
    (fragment (some onWord) (field ⟨"fragment", by decide⟩ empty empty) empty),
    eq_ok_of_toOption hread, rfl, ?_⟩
  exact ofText?_render ((hf.selection ⟨"org", by decide⟩ rfl).append (hf.possible _ _))
    FieldSet.noConfusion

end FieldSet

end Federation
