import Federation.FieldSet.Parser
import Federation.Proofs.Document.Phrases

/-!
# The grammar of field sets

`FieldSet.Derives` is the grammar that field sets are written in, on tokens.  The one that they are
read in is wider (`FieldSet.DerivesLoosely`): directives may be applied to inline fragments, and
names alone may stand in the place of arguments, and neither leaves anything behind.  What the
reader of documents takes between two braces, and what is kept of it as a field set, is what the
wider grammar derives (`closes_of_run_selections`, `DerivesLoosely.readAs`), but for commas after a
spread, which are refused.  The two grammars differ in nothing else: what the wider one derives
without a parenthesis or an at sign is what the other one derives (`derives_iff`).
-/

namespace Federation

/-- The word before the condition of an inline fragment. -/
def onWord : Name := ⟨"on", by decide⟩

namespace FieldSet

open Federation.Parser

/-! ### The grammar -/

/-- The field sets that tokens derive: one selection or several.  A selection is a field, a field
with a field set in braces, or an inline fragment of a field set, with a condition or without. -/
inductive Derives : List Token → FieldSet → Prop
  | leaf (n : Name) : Derives [.name n] (field n empty empty)
  | nested (n : Name) {ts : List Token} {f : FieldSet} (h : Derives ts f) :
      Derives (.name n :: .punct .braceL :: ts ++ [.punct .braceR]) (field n f empty)
  | inline {ts : List Token} {f : FieldSet} (h : Derives ts f) :
      Derives (.punct .spread :: .punct .braceL :: ts ++ [.punct .braceR]) (fragment none f empty)
  | inlineOn (c : Name) {ts : List Token} {f : FieldSet} (h : Derives ts f) :
      Derives (.punct .spread :: .name onWord :: .name c :: .punct .braceL :: ts ++
        [.punct .braceR]) (fragment (some c) f empty)
  | append {ts us : List Token} {f g : FieldSet} (hf : Derives ts f) (hg : Derives us g) :
      Derives (ts ++ us) (f ++ g)

/-- The field sets that tokens derive when field sets are read. -/
inductive DerivesLoosely : List Token → FieldSet → Prop
  | leaf (n : Name) {as : List Token} (has : IdleNames as) :
      DerivesLoosely (.name n :: as) (field n empty empty)
  | nested (n : Name) {as ts : List Token} {f : FieldSet} (has : IdleNames as)
      (h : DerivesLoosely ts f) : DerivesLoosely
        (.name n :: as ++ .punct .braceL :: ts ++ [.punct .braceR]) (field n f empty)
  | inline {ds ts : List Token} {f : FieldSet} (hds : Spells (.many .directive) ds)
      (h : DerivesLoosely ts f) : DerivesLoosely
        (.punct .spread :: ds ++ .punct .braceL :: ts ++ [.punct .braceR]) (fragment none f empty)
  | inlineOn (c : Name) {ds ts : List Token} {f : FieldSet} (hds : Spells (.many .directive) ds)
      (h : DerivesLoosely ts f) : DerivesLoosely
        (.punct .spread :: .name onWord :: .name c :: ds ++ .punct .braceL :: ts ++
          [.punct .braceR]) (fragment (some c) f empty)
  | append {ts us : List Token} {f g : FieldSet} (hf : DerivesLoosely ts f)
      (hg : DerivesLoosely us g) : DerivesLoosely (ts ++ us) (f ++ g)

/-- No selection, or those that tokens derive. -/
def Selects (D : List Token → FieldSet → Prop) (ts : List Token) (f : FieldSet) : Prop :=
  ts = [] ∧ f = empty ∨ D ts f

section Derives

variable {ts us : List Token} {f g : FieldSet}

theorem Selects.append_of {D : List Token → FieldSet → Prop} (hg : Selects D us g)
    (happend : D us g → D (ts ++ us) (f ++ g)) (hf : D ts f) : D (ts ++ us) (f ++ g) := by
  rcases hg with ⟨rfl, rfl⟩ | hg
  · simpa using hf
  · exact happend hg

theorem Derives.append_selects (hf : Derives ts f) (hg : Selects Derives us g) :
    Derives (ts ++ us) (f ++ g) :=
  hg.append_of hf.append hf

theorem DerivesLoosely.append_selects (hf : DerivesLoosely ts f)
    (hg : Selects DerivesLoosely us g) : DerivesLoosely (ts ++ us) (f ++ g) :=
  hg.append_of hf.append hf

theorem append_ne_empty (hf : f ≠ empty) : f ++ g ≠ empty := by
  cases f with
  | empty => exact absurd rfl hf
  | field n sub rest => exact FieldSet.noConfusion
  | fragment c sub rest => exact FieldSet.noConfusion

theorem DerivesLoosely.ne_empty (h : DerivesLoosely ts f) : f ≠ empty := by
  induction h with
  | append _ _ ihf _ => exact append_ne_empty ihf
  | _ => exact FieldSet.noConfusion

/-- Tokens that derive a field set start with a name or a spread. -/
theorem DerivesLoosely.exists_cons (h : DerivesLoosely ts f) :
    ∃ t us, ts = t :: us ∧ (t = .punct .spread ∨ ∃ n, t = .name n) := by
  induction h with
  | leaf n => exact ⟨_, _, rfl, .inr ⟨n, rfl⟩⟩
  | nested n _ _ _ => exact ⟨_, _, rfl, .inr ⟨n, rfl⟩⟩
  | inline _ _ _ => exact ⟨_, _, rfl, .inl rfl⟩
  | inlineOn c _ _ _ => exact ⟨_, _, rfl, .inl rfl⟩
  | append _ _ ihf _ =>
    obtain ⟨t, us, rfl, ht⟩ := ihf
    exact ⟨t, _, rfl, ht⟩

/-- Only names, spreads and braces derive a field set. -/
theorem Derives.mem_cases (h : Derives ts f) {t : Token} (ht : t ∈ ts) :
    (∃ n, t = .name n) ∨ t ∈ [Token.punct .spread, .punct .braceL, .punct .braceR] := by
  induction h with
  | append _ _ ihf ihg => exact (List.mem_append.1 ht).elim ihf ihg
  | leaf n => exact .inl ⟨n, List.mem_singleton.1 ht⟩
  | nested n _ ih =>
    simp only [List.cons_append, List.mem_cons, List.mem_append, List.not_mem_nil, or_false] at ht
    rcases ht with rfl | rfl | ht | rfl
    · exact .inl ⟨n, rfl⟩
    · simp
    · exact ih ht
    · simp
  | inline _ ih =>
    simp only [List.cons_append, List.mem_cons, List.mem_append, List.not_mem_nil, or_false] at ht
    rcases ht with rfl | rfl | ht | rfl
    · simp
    · simp
    · exact ih ht
    · simp
  | inlineOn c _ ih =>
    simp only [List.cons_append, List.mem_cons, List.mem_append, List.not_mem_nil, or_false] at ht
    rcases ht with rfl | rfl | rfl | rfl | ht | rfl
    · simp
    · exact .inl ⟨onWord, rfl⟩
    · exact .inl ⟨c, rfl⟩
    · simp
    · exact ih ht
    · simp

/-- Every brace that is opened is closed. -/
theorem Derives.count_braceL (h : Derives ts f) :
    ts.count (.punct .braceL) = ts.count (.punct .braceR) := by
  induction h with
  | leaf n => rfl
  | append _ _ ihf ihg => rw [List.count_append, List.count_append, ihf, ihg]
  | nested n _ ih | inline _ ih | inlineOn c _ ih =>
    simp [List.count_append, ih]

theorem Derives.loosely (h : Derives ts f) : DerivesLoosely ts f := by
  induction h with
  | leaf n => exact .leaf n (.inl rfl)
  | nested n _ ih => exact .nested n (.inl rfl) ih
  | inline _ ih => exact .inline (.none _) ih
  | inlineOn c _ ih => exact .inlineOn c (.none _) ih
  | append _ _ ihf ihg => exact .append ihf ihg

/-- Idle names stand in parentheses. -/
theorem eq_nil_of_idleNames (h : IdleNames ts) (hparen : .punct .parenL ∉ ts) : ts = [] := by
  rcases h with rfl | ⟨ns, _, rfl⟩
  · rfl
  · exact absurd (by simp) hparen

/-- Directives start with an at sign. -/
theorem eq_nil_of_spells_directives (h : Spells (.many .directive) ts)
    (hat : .punct .at ∉ ts) : ts = [] := by
  rcases h.many_cases with rfl | ⟨us, vs, rfl, hone, _⟩
  · rfl
  · obtain ⟨t, us, rfl, _, ht⟩ := hone.exists_cons (by simp)
    rw [ht rfl] at hat
    exact absurd (by simp) hat

/-- **What the two grammars differ in**: what is derived loosely without a parenthesis or an at sign
is derived. -/
theorem derives_iff : Derives ts f ↔
    DerivesLoosely ts f ∧ .punct .parenL ∉ ts ∧ .punct .at ∉ ts := by
  constructor
  · refine fun h => ⟨h.loosely, fun hmem => ?_, fun hmem => ?_⟩
    · simpa using h.mem_cases hmem
    · simpa using h.mem_cases hmem
  · rintro ⟨h, hparen, hat⟩
    induction h with
    | leaf n has =>
      obtain rfl := eq_nil_of_idleNames has fun hmem => hparen (by simp [hmem])
      exact .leaf n
    | nested n has _ ih =>
      obtain rfl := eq_nil_of_idleNames has fun hmem => hparen (by simp [hmem])
      exact .nested n (ih (fun hmem => hparen (by simp [hmem])) fun hmem => hat (by simp [hmem]))
    | inline hds _ ih =>
      obtain rfl := eq_nil_of_spells_directives hds fun hmem => hat (by simp [hmem])
      exact .inline (ih (fun hmem => hparen (by simp [hmem])) fun hmem => hat (by simp [hmem]))
    | inlineOn c hds _ ih =>
      obtain rfl := eq_nil_of_spells_directives hds fun hmem => hat (by simp [hmem])
      exact .inlineOn c
        (ih (fun hmem => hparen (by simp [hmem])) fun hmem => hat (by simp [hmem]))
    | append _ _ ihf ihg =>
      simp only [List.mem_append, not_or] at hparen hat
      exact .append (ihf hparen.1 hat.1) (ihg hparen.2 hat.2)

end Derives

/-! ### Selections as a field set -/

section OfSelections

variable {f : FieldSet}

theorem ofSelections?_field_eq_ok_iff {label : Option Name} {n : Name}
    {args : List (Name × Value)} {ds : List Directive} {sub s : SelectionSet} :
    ofSelections? (.field label n args ds sub s) = .ok f ↔ label = none ∧ args = [] ∧ ds = [] ∧
      ∃ g h, ofSelections? sub = .ok g ∧ ofSelections? s = .ok h ∧ f = field n g h := by
  rw [ofSelections?]
  cases label with
  | some l => simp
  | none =>
    cases args with
    | cons a args => simp
    | nil =>
      cases ds with
      | cons d ds => simp
      | nil =>
        cases ofSelections? sub <;> cases ofSelections? s <;>
          simp [bind, Except.bind, pure, Except.pure, eq_comm]

theorem ofSelections?_inline_eq_ok_iff {c : Option Name} {ds : List Directive}
    {sub s : SelectionSet} : ofSelections? (.inline c ds sub s) = .ok f ↔
      ∃ g h, ofSelections? sub = .ok g ∧ ofSelections? s = .ok h ∧ f = fragment c g h := by
  rw [ofSelections?]
  cases ofSelections? sub <;> cases ofSelections? s <;>
    simp [bind, Except.bind, pure, Except.pure, eq_comm]

theorem ofSelections?_eq_ok_empty_iff {s : SelectionSet} :
    ofSelections? s = .ok empty ↔ s = .empty := by
  cases s with
  | empty => simp [ofSelections?]
  | field label n args ds sub s =>
    rw [ofSelections?_field_eq_ok_iff]
    simp
  | spread n ds s => simp [ofSelections?]
  | inline c ds sub s =>
    rw [ofSelections?_inline_eq_ok_iff]
    simp

end OfSelections

/-! ### What is read is derived -/

/-- What is left by a reading up to a closing brace. -/
def Closes (ls : List Lexeme) (f : FieldSet) (rest : List Lexeme) : Prop :=
  ∃ pre b, ls = pre ++ ⟨.punct .braceR, b⟩ :: rest ∧
    Selects DerivesLoosely (pre.map Lexeme.token) f

variable {ls us rest : List Lexeme} {S sub s : SelectionSet} {f g : FieldSet} {n : Nat}

/-- A selection in front of selections. -/
theorem Closes.cons (hg : Closes us g rest) (pre : List Lexeme)
    (hf : DerivesLoosely (pre.map Lexeme.token) f) : Closes (pre ++ us) (f ++ g) rest := by
  obtain ⟨pre', b, rfl, hg⟩ := hg
  refine ⟨pre ++ pre', b, by simp, .inr ?_⟩
  rw [List.map_append]
  exact hf.append_selects hg

/-- Whether, within a budget, all that is read up to a closing brace is derived. -/
def DerivesWithin (n : Nat) : Prop :=
  ∀ ⦃ls rest S f⦄, (selections n).run ls = some (S, rest) → ofSelections? S = .ok f →
    Closes ls f rest

/-- A selection with others in braces is derived, where the grammar has them in braces after what
stands in front. -/
theorem closes_of_nests (ih : DerivesWithin n) {h : FieldSet} (front : List Lexeme) (b : Bool)
    (hnests : Nests n ls sub s rest) (hsub : ofSelections? sub = .ok g)
    (hs : ofSelections? s = .ok h) (hfront : ∀ ts, DerivesLoosely ts g →
      DerivesLoosely (front.map Lexeme.token ++ .punct .braceL :: ts ++ [.punct .braceR]) f) :
    Closes (front ++ ⟨.punct .braceL, b⟩ :: ls) (f ++ h) rest := by
  obtain ⟨us, hrun, hne, hrest⟩ := hnests
  obtain ⟨pre, b', rfl, hg⟩ := ih hrun hsub
  rcases hg with ⟨_, rfl⟩ | hg
  · exact absurd (ofSelections?_eq_ok_empty_iff.1 hsub) hne
  · have hcons := (ih hrest hs).cons
      (front ++ ⟨.punct .braceL, b⟩ :: pre ++ [⟨.punct .braceR, b'⟩])
      (by simpa using hfront _ hg)
    simpa using hcons

/-- A spread that is read starts an inline fragment, with a condition or without. -/
theorem closes_of_run_spread (ih : DerivesWithin n) {b : Bool}
    (hrun : (selections (n + 1)).run (⟨.punct .spread, b⟩ :: ls) = some (S, rest))
    (hS : ofSelections? S = .ok f) : Closes (⟨.punct .spread, b⟩ :: ls) f rest := by
  rcases exists_of_run_selections_spread hrun with
    ⟨m, ds, s, rfl⟩ | ⟨c, us, hc, ds, sub, s, b', vs, rfl, hds, hnests⟩
  · simp [ofSelections?] at hS
  obtain ⟨g, h, hsub, hs, rfl⟩ := ofSelections?_inline_eq_ok_iff.1 hS
  obtain ⟨pre, rfl, hpre⟩ := takes_directives n hds
  rcases hc with ⟨rfl, rfl⟩ | ⟨w, b₁, m, b₂, hw, rfl, rfl⟩
  · exact closes_of_nests ih (⟨.punct .spread, b⟩ :: pre) b' hnests hsub hs
      fun _ => .inline hpre
  · obtain rfl : w = onWord := Name.ext hw
    exact closes_of_nests ih
      (⟨.punct .spread, b⟩ :: ⟨.name onWord, b₁⟩ :: ⟨.name m, b₂⟩ :: pre) b' hnests hsub hs
      fun _ => .inlineOn m hpre

/-- A name that is read is that of a field, alone or with a field set in braces. -/
theorem closes_of_run_name (ih : DerivesWithin n) {m : Name} {b : Bool}
    (hrun : (selections (n + 1)).run (⟨.name m, b⟩ :: ls) = some (S, rest))
    (hS : ofSelections? S = .ok f) : Closes (⟨.name m, b⟩ :: ls) f rest := by
  obtain ⟨label, k, us, hlabel, args, ds, sub, s, vs, ws, rfl, hargs, hds, hbraces⟩ :=
    exists_of_run_selections_name hrun
  -- What is made a field set has no label, arguments or directives.
  obtain ⟨rfl, rfl, rfl, g, h, hsub, hs, rfl⟩ := ofSelections?_field_eq_ok_iff.1 hS
  obtain ⟨rfl, rfl⟩ := hlabel rfl
  obtain ⟨_, rfl⟩ := not_startsWith_of_run_directives hds
  obtain ⟨pre, rfl, hpre⟩ := exists_of_run_arguments hargs
  rcases hbraces with ⟨rfl, hrest⟩ | ⟨b', xs, rfl, hnests⟩
  · cases hsub
    exact (ih hrest hs).cons (⟨.name k, b⟩ :: pre) (.leaf k hpre)
  · exact closes_of_nests ih (⟨.name k, b⟩ :: pre) b' hnests hsub hs fun _ => .nested k hpre

/-- **What is read up to a closing brace is derived** by the grammar, if it is anything. -/
theorem closes_of_run_selections (n : Nat) : DerivesWithin n := by
  -- The budget falls with every token that starts a selection, so the induction is on it.
  induction n with
  | zero =>
    intro ls rest S f hrun
    cases hrun
  | succ n ih =>
    intro ls rest S f hrun hS
    obtain ⟨k, t, b, us, hk, rfl, ht⟩ := head_of_run_selections hrun
    obtain rfl := Nat.succ.inj hk
    rcases ht with rfl | rfl | ⟨m, rfl⟩
    · rw [run_selections_braceR] at hrun
      cases hrun
      cases hS
      exact ⟨[], b, rfl, .inl ⟨rfl, rfl⟩⟩
    · exact closes_of_run_spread ih hrun hS
    · exact closes_of_run_name ih hrun hS

/-! ### What is derived is read -/

/-- Whether no comma stands after a spread. -/
def FreeSpreads (ls : List Lexeme) : Prop :=
  ∀ a b, [a, b] <:+: ls → a.token = .punct .spread → b.afterComma = false

theorem FreeSpreads.of_isInfix (h : FreeSpreads ls) (hus : us <:+: ls) : FreeSpreads us :=
  fun a b hab => h a b (hab.trans hus)

theorem freeSpreads_of_afterComma (h : ∀ l ∈ ls, l.afterComma = false) : FreeSpreads ls :=
  fun _ b hab _ => h b (hab.subset (by simp))

theorem FreeSpreads.head {b : Bool} (h : FreeSpreads (⟨.punct .spread, b⟩ :: ls)) :
    ls.head?.any Lexeme.afterComma = false := by
  cases ls with
  | nil => rfl
  | cons l ls => exact h _ l ⟨[], ls, rfl⟩ rfl

/-- Whether selections up to a closing brace are read as a field set, with a budget from `k` on. -/
def ReadAs (k : Nat) (ls : List Lexeme) (f : FieldSet) (rest : List Lexeme) : Prop :=
  ∀ n, k ≤ n → ∃ S, (selections n).run ls = some (S, rest) ∧ ofSelections? S = .ok f

theorem readAs_braceR (b : Bool) (rest : List Lexeme) :
    ReadAs 1 (⟨.punct .braceR, b⟩ :: rest) empty rest := by
  intro n hn
  obtain ⟨k, rfl⟩ := Nat.exists_eq_add_of_le' hn
  exact ⟨.empty, run_selections_braceR k b rest, rfl⟩

theorem ReadAs.pos {k : Nat} (h : ReadAs k ls f rest) : 0 < k := by
  rcases Nat.eq_zero_or_pos k with rfl | hk
  · obtain ⟨S, hrun, _⟩ := h 0 (Nat.le_refl 0)
    cases hrun
  · exact hk

theorem ReadAs.mono {k l : Nat} (h : ReadAs k ls f rest) (hkl : k ≤ l) : ReadAs l ls f rest :=
  fun n hn => h n (Nat.le_trans hkl hn)

/-- A field without braces is read before the selections that come after it. -/
theorem ReadAs.leaf {k : Nat} (h : ReadAs k ls g rest) (hends : EndsField ls) (m : Name)
    (b : Bool) (has : IdleNames (us.map Lexeme.token)) :
    ReadAs (us.length + k + 1) (⟨.name m, b⟩ :: (us ++ ls)) (field m empty g) rest := by
  intro n hn
  have hk := h.pos
  obtain ⟨l, rfl⟩ := Nat.exists_eq_add_of_le' (by omega : 2 ≤ n)
  obtain ⟨s, hrun, hs⟩ := h (l + 1) (by omega)
  have hcolon := not_startsWith_colon_of_idleNames has (hends .colon (by decide))
  have hlength : us.length ≤ l + 1 := by omega
  have hargs := run_arguments_of_idleNames false has hlength (hends .parenL (by decide))
  exact ⟨.field none m [] [] .empty s, run_selections_leaf hcolon hargs hends hrun,
    ofSelections?_field_eq_ok_iff.2 ⟨rfl, rfl, rfl, empty, g, rfl, hs, rfl⟩⟩

/-- Whether selections in braces, and those that come after them, are read as two field sets, where
the opening brace has been taken, with a budget from `k` on. -/
def NestsAs (k : Nat) (ls : List Lexeme) (f g : FieldSet) (rest : List Lexeme) : Prop :=
  0 < k ∧ ∀ n, k ≤ n → ∃ sub s, Nests n ls sub s rest ∧ ofSelections? sub = .ok f ∧
    ofSelections? s = .ok g

section NestsAs

variable {k : Nat} (h : NestsAs k ls f g rest)

include h

theorem NestsAs.nested (m : Name) (b c : Bool) (has : IdleNames (us.map Lexeme.token)) :
    ReadAs (us.length + k + 1) (⟨.name m, b⟩ :: (us ++ ⟨.punct .braceL, c⟩ :: ls)) (field m f g)
      rest := by
  intro n hn
  obtain ⟨hk, hnests⟩ := h
  obtain ⟨l, rfl⟩ := Nat.exists_eq_add_of_le' (by omega : 2 ≤ n)
  obtain ⟨sub, s, hnests, hsub, hs⟩ := hnests (l + 1) (by omega)
  have hnot : ∀ {q}, q ≠ .braceL → ¬ StartsWith q (⟨.punct .braceL, c⟩ :: ls) := by
    rintro q hq ⟨_, _, heq⟩
    cases heq
    exact hq rfl
  have hcolon := not_startsWith_colon_of_idleNames has (hnot (by decide))
  have hlength : us.length ≤ l + 1 := by omega
  have hargs := run_arguments_of_idleNames false has hlength (hnot (by decide))
  exact ⟨.field none m [] [] sub s, run_selections_nested hcolon hargs hnests,
    ofSelections?_field_eq_ok_iff.2 ⟨rfl, rfl, rfl, f, g, hsub, hs, rfl⟩⟩

/-- The directives of an inline fragment are read before its brace. -/
theorem NestsAs.exists_directives {n : Nat} (hds : Spells (.many .directive) (us.map Lexeme.token))
    (hn : us.length + k ≤ n) (c : Bool) : ∃ ds sub s,
      (directives n false).run (us ++ ⟨.punct .braceL, c⟩ :: ls) =
          some (ds, ⟨.punct .braceL, c⟩ :: ls) ∧
        Nests n ls sub s rest ∧ ofSelections? sub = .ok f ∧ ofSelections? s = .ok g := by
  obtain ⟨hk, hnests⟩ := h
  obtain ⟨sub, s, hnests, hsub, hs⟩ := hnests n (by omega)
  have hends : EndsPhrase (⟨.punct .braceL, c⟩ :: ls) := endsPhrase_cons (by decide)
  have hat : ¬ StartsWith .at (⟨.punct .braceL, c⟩ :: ls) := by
    rintro ⟨_, _, heq⟩
    cases heq
  obtain ⟨ds, hrun⟩ := reads_directives hds (by omega : us.length < n) hends hat
  exact ⟨ds, sub, s, hrun, hnests, hsub, hs⟩

theorem NestsAs.inline (hds : Spells (.many .directive) (us.map Lexeme.token)) (b c : Bool)
    (hfree : FreeSpreads (⟨.punct .spread, b⟩ :: us ++ [⟨.punct .braceL, c⟩])) :
    ReadAs (us.length + k + 1) (⟨.punct .spread, b⟩ :: (us ++ ⟨.punct .braceL, c⟩ :: ls))
      (fragment none f g) rest := by
  intro n hn
  obtain ⟨l, rfl⟩ := Nat.exists_eq_add_of_le' (by omega : 1 ≤ n)
  obtain ⟨ds, sub, s, hrun, hnests, hsub, hs⟩ :=
    h.exists_directives hds (Nat.le_of_succ_le_succ hn) c
  have hcomma : (us ++ ⟨.punct .braceL, c⟩ :: ls).head?.any Lexeme.afterComma = false := by
    simpa using hfree.head
  exact ⟨.inline none ds sub s, run_selections_inline hcomma hrun hnests,
    ofSelections?_inline_eq_ok_iff.2 ⟨f, g, hsub, hs, rfl⟩⟩

theorem NestsAs.inlineOn (hds : Spells (.many .directive) (us.map Lexeme.token)) (m : Name)
    (b₁ b₂ c : Bool) : ReadAs (us.length + k + 1)
      (⟨.punct .spread, b₁⟩ :: ⟨.name onWord, false⟩ :: ⟨.name m, b₂⟩ ::
        (us ++ ⟨.punct .braceL, c⟩ :: ls)) (fragment (some m) f g) rest := by
  intro n hn
  obtain ⟨l, rfl⟩ := Nat.exists_eq_add_of_le' (by omega : 1 ≤ n)
  obtain ⟨ds, sub, s, hrun, hnests, hsub, hs⟩ :=
    h.exists_directives hds (Nat.le_of_succ_le_succ hn) c
  exact ⟨.inline (some m) ds sub s, run_selections_inlineOn rfl hrun hnests,
    ofSelections?_inline_eq_ok_iff.2 ⟨f, g, hsub, hs, rfl⟩⟩

end NestsAs

/-- What stands in braces is read as a field set, if it is in front of all that is read up to a
closing brace. -/
theorem nestsAs_of_readAs {ts : List Token} (ih : ∀ {rest : List Lexeme} {g : FieldSet}
      {pre post : List Lexeme} {k : Nat}, pre.map Lexeme.token = ts → FreeSpreads pre →
      EndsField post → ReadAs k post g rest → ReadAs (pre.length + k) (pre ++ post) (f ++ g) rest)
    (hf : f ≠ empty) {head inner post : List Lexeme} {b b' : Bool} {k : Nat}
    (hinner : inner.map Lexeme.token = ts)
    (hfree : FreeSpreads (head ++ ⟨.punct .braceL, b⟩ :: inner ++ [⟨.punct .braceR, b'⟩]))
    (hpost : ReadAs k post g rest) :
    NestsAs (inner.length + 1 + k) (inner ++ ⟨.punct .braceR, b'⟩ :: post) f g rest := by
  have hpart : inner <:+: head ++ ⟨.punct .braceL, b⟩ :: inner ++ [⟨.punct .braceR, b'⟩] :=
    ⟨head ++ [⟨.punct .braceL, b⟩], [⟨.punct .braceR, b'⟩], by simp⟩
  have hread := ih hinner (hfree.of_isInfix hpart) (endsField_cons (.inl rfl))
    (readAs_braceR b' post)
  rw [append_empty] at hread
  refine ⟨by omega, fun n hn => ?_⟩
  obtain ⟨sub, hrun, hsub⟩ := hread n (by omega)
  obtain ⟨s, hrun', hs⟩ := hpost n (by omega)
  refine ⟨sub, s, ⟨post, hrun, ?_, hrun'⟩, hsub, hs⟩
  rintro rfl
  exact hf (Except.ok.inj hsub).symm

/-- **What the grammar derives is read**, in front of whatever is read up to a closing brace. -/
theorem DerivesLoosely.readAs {ts : List Token} (h : DerivesLoosely ts f) {pre post : List Lexeme}
    {k : Nat} (hpre : pre.map Lexeme.token = ts) (hfree : FreeSpreads pre) (hends : EndsField post)
    (hpost : ReadAs k post g rest) : ReadAs (pre.length + k) (pre ++ post) (f ++ g) rest := by
  induction h generalizing pre post k g rest with
  | leaf n has =>
    obtain ⟨⟨_, b⟩, us, rfl, rfl, rfl⟩ := List.map_eq_cons_iff.1 hpre
    exact (hpost.leaf hends n b has).mono (by rw [List.length_cons]; omega)
  | nested n has hf ih =>
    obtain ⟨head, b, inner, b', rfl, hhead, hinner⟩ :=
      exists_of_map_token_eq_enclosed (.name n :: _) hpre
    obtain ⟨⟨_, c⟩, us, rfl, rfl, rfl⟩ := List.map_eq_cons_iff.1 hhead
    have hread := (nestsAs_of_readAs ih hf.ne_empty hinner hfree hpost).nested n c b has
    refine ReadAs.mono (?_ : ReadAs (us.length + (inner.length + 1 + k) + 1) _ _ _) (by
      simp only [List.length_append, List.length_cons, List.length_nil]
      omega)
    simpa using hread
  | inline hds hf ih =>
    obtain ⟨head, b, inner, b', rfl, hhead, hinner⟩ :=
      exists_of_map_token_eq_enclosed (.punct .spread :: _) hpre
    obtain ⟨⟨_, c⟩, us, rfl, rfl, rfl⟩ := List.map_eq_cons_iff.1 hhead
    have hstart : FreeSpreads (⟨.punct .spread, c⟩ :: us ++ [⟨.punct .braceL, b⟩]) :=
      hfree.of_isInfix ⟨[], inner ++ [⟨.punct .braceR, b'⟩], by simp⟩
    have hread := (nestsAs_of_readAs ih hf.ne_empty hinner hfree hpost).inline hds c b hstart
    refine ReadAs.mono (?_ : ReadAs (us.length + (inner.length + 1 + k) + 1) _ _ _) (by
      simp only [List.length_append, List.length_cons, List.length_nil]
      omega)
    simpa using hread
  | inlineOn m hds hf ih =>
    obtain ⟨head, b, inner, b', rfl, hhead, hinner⟩ :=
      exists_of_map_token_eq_enclosed (.punct .spread :: .name onWord :: .name m :: _) hpre
    obtain ⟨⟨_, c⟩, on, rfl, rfl, hon⟩ := List.map_eq_cons_iff.1 hhead
    obtain ⟨⟨_, comma⟩, condition, rfl, rfl, hcondition⟩ := List.map_eq_cons_iff.1 hon
    obtain ⟨⟨_, d⟩, us, rfl, rfl, rfl⟩ := List.map_eq_cons_iff.1 hcondition
    -- The word before the condition is what is spread, so no comma stands before it.
    obtain rfl : comma = false := hfree.head
    have hread := (nestsAs_of_readAs ih hf.ne_empty hinner hfree hpost).inlineOn hds m c d b
    refine ReadAs.mono (?_ : ReadAs (us.length + (inner.length + 1 + k) + 1) _ _ _) (by
      simp only [List.length_append, List.length_cons, List.length_nil]
      omega)
    simpa using hread
  | append hf hg ihf ihg =>
    obtain ⟨pre, pre', rfl, rfl, rfl⟩ := List.map_eq_append_iff.1 hpre
    -- The second part starts a selection, so the first part's last field ends before it.
    have hends' : EndsField (pre' ++ post) := by
      obtain ⟨t, us, hcons, ht⟩ := hg.exists_cons
      obtain ⟨l, ls, rfl, rfl, rfl⟩ := List.map_eq_cons_iff.1 hcons
      exact endsField_cons (.inr ht)
    have hread := ihf rfl (hfree.of_isInfix (List.infix_append_of_infix_left List.infix_rfl)) hends'
      (ihg rfl (hfree.of_isInfix (List.infix_append_of_infix_right List.infix_rfl)) hends hpost)
    rw [List.append_assoc, append_assoc, List.length_append, Nat.add_assoc]
    exact hread

end FieldSet

end Federation
