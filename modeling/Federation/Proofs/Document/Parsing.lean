import Federation.Document.Parser
import Mathlib.Data.Option.Basic

/-!
# What parsers take

For each of the parsers that selections are read with, from which tokens it answers what.  A parser
that is a sequence succeeds where its parts do, one after the other (`run_bind_eq_some_iff`); a step
through selections follows the first token of the next one.
-/

namespace Federation.Parser

variable {α β : Type} {ls rest : List Lexeme} {p : Punctuator}

/-! ### Single tokens -/

theorem run_bind_eq_some_iff {x : Parser α} {f : α → Parser β} {r : β × List Lexeme} :
    (x >>= f).run ls = some r ↔ ∃ a ls', x.run ls = some (a, ls') ∧ (f a).run ls' = some r := by
  show Option.bind (x ls) _ = _ ↔ _
  rw [Option.bind_eq_some_iff, Prod.exists]
  rfl

/-- A sequence goes on where its first part ends. -/
theorem run_bind_of_run_eq {x : Parser α} {f : α → Parser β} {a : α} {us : List Lexeme}
    (h : x.run ls = some (a, us)) : (x >>= f).run ls = (f a).run us := by
  show Option.bind (x.run ls) _ = _
  rw [h]
  rfl

theorem run_pure_eq_some_iff {a : α} {r : α × List Lexeme} :
    (pure a : Parser α).run ls = some r ↔ (a, ls) = r :=
  Option.some_inj

theorem run_guard_eq_some_iff {c : Prop} [Decidable c] {r : Unit × List Lexeme} :
    (guard c : Parser Unit).run ls = some r ↔ c ∧ ls = r.2 := by
  obtain ⟨⟨⟩, us⟩ := r
  by_cases h : c
  · rw [guard, if_pos h, run_pure_eq_some_iff]
    simp [h]
  · rw [guard, if_neg h]
    simp only [h, false_and, iff_false]
    exact fun h => by cases h

theorem run_token_cons (l : Lexeme) (ls : List Lexeme) :
    token.run (l :: ls) = some (l.token, ls) :=
  rfl

theorem run_peek (ls : List Lexeme) : peek.run ls = some (ls.head?.map Lexeme.token, ls) := rfl

theorem run_noComma_cons (t : Token) (ls : List Lexeme) :
    noComma.run (⟨t, false⟩ :: ls) = some ((), ⟨t, false⟩ :: ls) :=
  rfl

theorem run_token_eq_some_iff {r : Token × List Lexeme} :
    token.run ls = some r ↔ ∃ b, ls = ⟨r.1, b⟩ :: r.2 := by
  obtain ⟨t, us⟩ := r
  rcases ls with _ | ⟨⟨t', b'⟩, ls⟩ <;> simp [token, StateT.run]

theorem run_expect_eq_some_iff {r : Unit × List Lexeme} :
    (expect p).run ls = some r ↔ ∃ b, ls = ⟨.punct p, b⟩ :: r.2 := by
  simp only [expect, run_bind_eq_some_iff, run_token_eq_some_iff, run_guard_eq_some_iff]
  constructor
  · rintro ⟨_, _, ⟨b, rfl⟩, rfl, rfl⟩
    exact ⟨b, rfl⟩
  · rintro ⟨b, rfl⟩
    exact ⟨_, _, ⟨b, rfl⟩, rfl, rfl⟩

theorem run_name_eq_some_iff {r : Name × List Lexeme} :
    name.run ls = some r ↔ ∃ b, ls = ⟨.name r.1, b⟩ :: r.2 := by
  simp only [name, run_bind_eq_some_iff, run_token_eq_some_iff]
  constructor
  · rintro ⟨t, _, ⟨b, rfl⟩, h⟩
    split at h
    · obtain rfl := run_pure_eq_some_iff.1 h
      exact ⟨b, rfl⟩
    · cases h
  · rintro ⟨b, rfl⟩
    exact ⟨_, _, ⟨b, rfl⟩, rfl⟩

theorem run_noComma_eq_some_iff {r : Unit × List Lexeme} :
    noComma.run ls = some r ↔ ls.head?.any Lexeme.afterComma = false ∧ ls = r.2 := by
  obtain ⟨⟨⟩, us⟩ := r
  cases h : ls.head?.any Lexeme.afterComma <;> simp [noComma, StateT.run, h]

/-- Whether a punctuator comes next. -/
def StartsWith (p : Punctuator) (ls : List Lexeme) : Prop := ∃ b us, ls = ⟨.punct p, b⟩ :: us

theorem head?_token_eq_iff : ls.head?.map Lexeme.token = some (.punct p) ↔ StartsWith p ls := by
  rcases ls with _ | ⟨⟨t, b⟩, ls⟩
  · simp [StartsWith]
  · simp [StartsWith]

theorem run_nextIs_of_startsWith (h : StartsWith p ls) : (nextIs p).run ls = some (true, ls) := by
  obtain ⟨b, us, rfl⟩ := h
  simp only [nextIs, run_bind_eq_some_iff]
  exact ⟨_, _, rfl, by simp⟩

theorem run_nextIs_of_not_startsWith (h : ¬ StartsWith p ls) :
    (nextIs p).run ls = some (false, ls) := by
  simp only [nextIs, run_bind_eq_some_iff]
  exact ⟨_, _, rfl, by simpa [run_pure_eq_some_iff] using mt head?_token_eq_iff.1 h⟩

theorem run_accept_of_not_startsWith (h : ¬ StartsWith p ls) :
    (accept p).run ls = some (false, ls) := by
  rcases ls with _ | ⟨⟨t, b⟩, ls⟩
  · rfl
  · have ht : t ≠ .punct p := fun ht => h ⟨b, ls, ht ▸ rfl⟩
    simp [accept, StateT.run, ht]

theorem run_accept_cons (b : Bool) :
    (accept p).run (⟨.punct p, b⟩ :: ls) = some (true, ls) := by
  simp [accept, StateT.run]

/-! ### Repetition -/

theorem run_itemsTo_cons {item : Parser α} (k : Nat) (b : Bool) :
    (itemsTo p item (k + 1)).run (⟨.punct p, b⟩ :: ls) = some ([], ls) := by
  rw [itemsTo, run_bind_of_run_eq (run_accept_cons b)]
  rfl

/-- Where the items do not end there is another one. -/
theorem run_itemsTo_eq_some_iff {item : Parser α} {k : Nat} (h : ¬ StartsWith p ls)
    {r : List α × List Lexeme} : (itemsTo p item (k + 1)).run ls = some r ↔ ∃ x us xs,
      item.run ls = some (x, us) ∧ (itemsTo p item k).run us = some (xs, r.2) ∧ r.1 = x :: xs := by
  obtain ⟨_, _⟩ := r
  rw [itemsTo, run_bind_of_run_eq (run_accept_of_not_startsWith h)]
  simp only [Bool.false_eq_true, if_false, run_bind_eq_some_iff, run_pure_eq_some_iff,
    Prod.mk.injEq]
  constructor
  · rintro ⟨x, us, hx, xs, _, hxs, rfl, rfl⟩
    exact ⟨x, us, xs, hx, hxs, rfl⟩
  · rintro ⟨x, us, xs, hx, hxs, rfl⟩
    exact ⟨x, us, hx, xs, _, hxs, rfl, rfl⟩

theorem run_itemsFrom_of_not_startsWith {item : Parser α} {k : Nat} (h : ¬ StartsWith p ls) :
    (itemsFrom p item (k + 1)).run ls = some ([], ls) := by
  rw [itemsFrom, run_bind_of_run_eq (run_nextIs_of_not_startsWith h)]
  rfl

/-- Where an item starts it is one of those that are read. -/
theorem run_itemsFrom_eq_some_iff {item : Parser α} {k : Nat} (h : StartsWith p ls)
    {r : List α × List Lexeme} : (itemsFrom p item (k + 1)).run ls = some r ↔ ∃ x us xs,
      item.run ls = some (x, us) ∧ (itemsFrom p item k).run us = some (xs, r.2) ∧
        r.1 = x :: xs := by
  obtain ⟨_, _⟩ := r
  rw [itemsFrom, run_bind_of_run_eq (run_nextIs_of_startsWith h)]
  simp only [if_true, run_bind_eq_some_iff, run_pure_eq_some_iff, Prod.mk.injEq]
  constructor
  · rintro ⟨x, us, hx, xs, _, hxs, rfl, rfl⟩
    exact ⟨x, us, xs, hx, hxs, rfl⟩
  · rintro ⟨x, us, xs, hx, hxs, rfl⟩
    exact ⟨x, us, hx, xs, _, hxs, rfl, rfl⟩

/-! ### Arguments and directives -/

theorem run_directives_of_not_startsWith {n : Nat} (constant : Bool) (h : ¬ StartsWith .at ls) :
    (directives (n + 1) constant).run ls = some ([], ls) :=
  run_itemsFrom_of_not_startsWith h

/-- Where no directive starts, there are none. -/
theorem eq_of_run_directives {n : Nat} {constant : Bool} {r : List Directive × List Lexeme}
    (hat : ¬ StartsWith .at ls) (h : (directives n constant).run ls = some r) : r = ([], ls) := by
  cases n with
  | zero => cases h
  | succ n =>
    rw [run_directives_of_not_startsWith constant hat] at h
    exact (Option.some.inj h).symm

/-- There are no directives only where none starts. -/
theorem not_startsWith_of_run_directives {n : Nat} {constant : Bool}
    (h : (directives n constant).run ls = some ([], rest)) : ¬ StartsWith .at ls ∧ rest = ls := by
  cases n with
  | zero => cases h
  | succ n =>
    by_cases hat : StartsWith .at ls
    · obtain ⟨_, _, _, _, _, h⟩ := (run_itemsFrom_eq_some_iff hat).1 h
      cases h
    · rw [run_directives_of_not_startsWith constant hat] at h
      cases h
      exact ⟨hat, rfl⟩

theorem run_arguments_of_not_startsWith {n : Nat} (constant : Bool) (h : ¬ StartsWith .parenL ls) :
    (arguments n constant).run ls = some ([], ls) := by
  simp only [arguments, block?, run_bind_eq_some_iff]
  exact ⟨_, _, ⟨_, _, run_nextIs_of_not_startsWith h, rfl⟩, rfl⟩

/-- Arguments that start are one or more up to the closing parenthesis. -/
theorem run_arguments_cons_eq_some_iff {n : Nat} {constant b : Bool}
    {r : List (Name × Value) × List Lexeme} :
    (arguments n constant).run (⟨.punct .parenL, b⟩ :: ls) = some r ↔ ∃ xs,
      (itemsTo .parenR (argument n constant) n).run ls = some (xs, r.2) ∧ xs ≠ [] ∧
        r.1 = xs.filterMap id := by
  obtain ⟨args, us⟩ := r
  have hopen : (expect .parenL).run (⟨.punct .parenL, b⟩ :: ls) = some ((), ls) :=
    run_expect_eq_some_iff.2 ⟨b, rfl⟩
  have hblock : (block? n .parenL .parenR (argument n constant)).run
      (⟨.punct .parenL, b⟩ :: ls) = (do
        let xs ← itemsTo .parenR (argument n constant) n
        guard !xs.isEmpty
        return xs : Parser _).run ls := by
    rw [block?, run_bind_of_run_eq (run_nextIs_of_startsWith ⟨b, ls, rfl⟩), if_pos rfl, block,
      run_bind_of_run_eq hopen]
  simp only [arguments, run_bind_eq_some_iff, hblock, run_guard_eq_some_iff, run_pure_eq_some_iff]
  constructor
  · rintro ⟨_, _, ⟨xs, _, hxs, _, _, ⟨hne, rfl⟩, hr⟩, hr'⟩
    cases hr
    cases hr'
    exact ⟨_, hxs, by simpa using hne, rfl⟩
  · rintro ⟨xs, hxs, hne, rfl⟩
    exact ⟨xs, us, ⟨xs, us, hxs, (), us, ⟨by simpa using hne, rfl⟩, rfl⟩, rfl⟩

/-! ### Selections -/

theorem run_selections_braceR (n : Nat) (b : Bool) (ls : List Lexeme) :
    (selections (n + 1)).run (⟨.punct .braceR, b⟩ :: ls) = some (.empty, ls) :=
  rfl

/-- What stands in braces, and what comes after them, where the opening brace has been taken. -/
def Nests (n : Nat) (ls : List Lexeme) (sub s : SelectionSet) (rest : List Lexeme) : Prop :=
  ∃ us, (selections n).run ls = some (sub, us) ∧ sub ≠ .empty ∧
    (selections n).run us = some (s, rest)

theorem run_nested_eq_some_iff {n : Nat} {f : SelectionSet → SelectionSet → SelectionSet}
    {r : SelectionSet × List Lexeme} :
    (do
      let sub ← selections n
      guard (sub ≠ .empty)
      return f sub (← selections n) : Parser SelectionSet).run ls = some r ↔
      ∃ sub s, Nests n ls sub s r.2 ∧ r.1 = f sub s := by
  obtain ⟨S, us⟩ := r
  simp only [run_bind_eq_some_iff, run_guard_eq_some_iff, run_pure_eq_some_iff, Prod.mk.injEq,
    Nests]
  constructor
  · rintro ⟨sub, vs, hsub, _, _, ⟨hne, rfl⟩, s, _, hs, rfl, rfl⟩
    exact ⟨sub, s, ⟨_, hsub, hne, hs⟩, rfl⟩
  · rintro ⟨sub, s, ⟨vs, hsub, hne, hs⟩, rfl⟩
    exact ⟨sub, vs, hsub, (), vs, ⟨hne, rfl⟩, s, us, hs, rfl, rfl⟩

/-- What a field is read from, after its name. -/
theorem exists_of_run_field {n : Nat} {label : Option Name} {m : Name} {S : SelectionSet}
    (h : (do
      let args ← arguments n false
      let ds ← directives n false
      if ← accept .braceL then
        let sub ← selections n
        guard (sub ≠ .empty)
        return .field label m args ds sub (← selections n)
      else
        return .field label m args ds .empty (← selections n) : Parser SelectionSet).run ls =
      some (S, rest)) :
    ∃ args ds sub s us vs, S = .field label m args ds sub s ∧
      (arguments n false).run ls = some (args, us) ∧
      (directives n false).run us = some (ds, vs) ∧
      (sub = .empty ∧ (selections n).run vs = some (s, rest) ∨
        ∃ c ws, vs = ⟨.punct .braceL, c⟩ :: ws ∧ Nests n ws sub s rest) := by
  simp only [run_bind_eq_some_iff] at h
  obtain ⟨args, us, hargs, ds, vs, hds, brace, ws, hbrace, h⟩ := h
  by_cases hstart : StartsWith .braceL vs
  · obtain ⟨c, xs, rfl⟩ := hstart
    rw [run_accept_cons] at hbrace
    obtain ⟨rfl, rfl⟩ := Prod.mk.inj (Option.some.inj hbrace)
    rw [if_pos rfl] at h
    obtain ⟨sub, s, hnests, rfl⟩ := run_nested_eq_some_iff.1 h
    exact ⟨args, ds, sub, s, us, _, rfl, hargs, hds, .inr ⟨c, xs, rfl, hnests⟩⟩
  · rw [run_accept_of_not_startsWith hstart] at hbrace
    cases hbrace
    simp only [Bool.false_eq_true, if_false, run_bind_eq_some_iff, run_pure_eq_some_iff] at h
    obtain ⟨s, _, hs, h⟩ := h
    cases h
    exact ⟨args, ds, .empty, s, us, vs, rfl, hargs, hds, .inl ⟨rfl, hs⟩⟩

/-- **What a field is read from**, with or without a label. -/
theorem exists_of_run_selections_name {n : Nat} {m : Name} {b : Bool} {S : SelectionSet}
    (h : (selections (n + 1)).run (⟨.name m, b⟩ :: ls) = some (S, rest)) :
    ∃ label k us, (label = none → k = m ∧ us = ls) ∧
      ∃ args ds sub s vs ws, S = .field label k args ds sub s ∧
        (arguments n false).run us = some (args, vs) ∧
        (directives n false).run vs = some (ds, ws) ∧
        (sub = .empty ∧ (selections n).run ws = some (s, rest) ∨
          ∃ c xs, ws = ⟨.punct .braceL, c⟩ :: xs ∧ Nests n xs sub s rest) := by
  rw [selections, run_bind_eq_some_iff] at h
  obtain ⟨t, us, ht, h⟩ := h
  cases ht
  rw [run_bind_eq_some_iff] at h
  obtain ⟨colon, us, hcolon, h⟩ := h
  by_cases hstart : StartsWith .colon ls
  · -- The first name is a label, and the field's own name comes after the colon.
    rw [run_nextIs_of_startsWith hstart] at hcolon
    cases hcolon
    rw [if_pos rfl, run_bind_eq_some_iff] at h
    obtain ⟨_, us, _, h⟩ := h
    rw [run_bind_eq_some_iff] at h
    obtain ⟨_, vs, _, h⟩ := h
    rw [run_bind_eq_some_iff] at h
    obtain ⟨k, ws, _, h⟩ := h
    exact ⟨some m, k, ws, (fun hlabel => by cases hlabel), exists_of_run_field h⟩
  · rw [run_nextIs_of_not_startsWith hstart] at hcolon
    cases hcolon
    exact ⟨none, m, ls, fun _ => ⟨rfl, rfl⟩, exists_of_run_field h⟩

/-- What an inline fragment is read from, after its condition. -/
theorem exists_of_run_inline {n : Nat} {c : Option Name} {S : SelectionSet}
    (h : (do
      let ds ← directives n false
      expect .braceL
      let sub ← selections n
      guard (sub ≠ .empty)
      return .inline c ds sub (← selections n) : Parser SelectionSet).run ls = some (S, rest)) :
    ∃ ds sub s b us, S = .inline c ds sub s ∧
      (directives n false).run ls = some (ds, ⟨.punct .braceL, b⟩ :: us) ∧
      Nests n us sub s rest := by
  rw [run_bind_eq_some_iff] at h
  obtain ⟨ds, vs, hds, h⟩ := h
  rw [run_bind_eq_some_iff] at h
  obtain ⟨_, us, hbrace, h⟩ := h
  obtain ⟨b, rfl⟩ := run_expect_eq_some_iff.1 hbrace
  obtain ⟨sub, s, hnests, rfl⟩ := run_nested_eq_some_iff.1 h
  exact ⟨ds, sub, s, b, us, rfl, hds, hnests⟩

/-- **What a spread is read from**: a named fragment in use, or an inline fragment with or without a
condition. -/
theorem exists_of_run_selections_spread {n : Nat} {b : Bool} {S : SelectionSet}
    (h : (selections (n + 1)).run (⟨.punct .spread, b⟩ :: ls) = some (S, rest)) :
    (∃ m ds s, S = .spread m ds s) ∨
      ∃ c us, (c = none ∧ us = ls ∨ ∃ w b' m b'', w.text = "on" ∧ c = some m ∧
          ls = ⟨.name w, b'⟩ :: ⟨.name m, b''⟩ :: us) ∧
        ∃ ds sub s b' vs, S = .inline c ds sub s ∧
          (directives n false).run us = some (ds, ⟨.punct .braceL, b'⟩ :: vs) ∧
          Nests n vs sub s rest := by
  rw [selections, run_bind_eq_some_iff] at h
  obtain ⟨t, us, ht, h⟩ := h
  cases ht
  rw [run_bind_eq_some_iff] at h
  obtain ⟨_, us, hcomma, h⟩ := h
  obtain ⟨_, rfl⟩ := run_noComma_eq_some_iff.1 hcomma
  rw [run_bind_eq_some_iff] at h
  obtain ⟨next, us, hnext, h⟩ := h
  cases hnext
  split at h
  · rename_i w hw
    rw [run_bind_eq_some_iff] at h
    obtain ⟨t, us, ht, h⟩ := h
    obtain ⟨b', rfl⟩ := run_token_eq_some_iff.1 ht
    cases hw
    split at h
    · -- The name is the word before a condition, which has to follow.
      rename_i hon
      rw [run_bind_eq_some_iff] at h
      obtain ⟨m, vs, hm, h⟩ := h
      obtain ⟨b'', rfl⟩ := run_name_eq_some_iff.1 hm
      exact .inr ⟨some m, vs, .inr ⟨w, b', m, b'', hon, rfl, rfl⟩, exists_of_run_inline h⟩
    · simp only [run_bind_eq_some_iff, run_pure_eq_some_iff] at h
      obtain ⟨ds, vs, _, s, _, _, h⟩ := h
      cases h
      exact .inl ⟨w, ds, s, rfl⟩
  · exact .inr ⟨none, ls, .inl ⟨rfl, rfl⟩, exists_of_run_inline h⟩

/-- Nothing else starts a selection or ends the selections. -/
theorem head_of_run_selections {n : Nat} {S : SelectionSet}
    (h : (selections n).run ls = some (S, rest)) :
    ∃ k t b us, n = k + 1 ∧ ls = ⟨t, b⟩ :: us ∧
      (t = .punct .braceR ∨ t = .punct .spread ∨ ∃ m, t = .name m) := by
  cases n with
  | zero => cases h
  | succ n =>
    rw [selections, run_bind_eq_some_iff] at h
    obtain ⟨t, us, ht, h⟩ := h
    obtain ⟨b, rfl⟩ := run_token_eq_some_iff.1 ht
    refine ⟨n, t, b, us, rfl, rfl, ?_⟩
    split at h
    · exact .inl rfl
    · exact .inr (.inl rfl)
    · exact .inr (.inr ⟨_, rfl⟩)
    · cases h

/-- Whether a field ends before some tokens: no label, arguments, directives or selections of it
follow. -/
def EndsField (ls : List Lexeme) : Prop :=
  ∀ p ∈ [Punctuator.colon, .parenL, .at, .braceL], ¬ StartsWith p ls

/-- A field ends before a token that is none of these. -/
theorem endsField_cons {t : Token} {b : Bool}
    (h : t = .punct .braceR ∨ t = .punct .spread ∨ ∃ m, t = .name m) :
    EndsField (⟨t, b⟩ :: ls) := by
  rintro p hp ⟨c, us, heq⟩
  cases heq
  rcases h with h | h | ⟨m, h⟩
  · cases h
    simp at hp
  · cases h
    simp at hp
  · cases h

section Steps

variable {n : Nat} {b : Bool} {m w : Name} {ds : List Directive} {sub s : SelectionSet}
  {us vs : List Lexeme}

/-- What a field is read from after its arguments, if it has no label and no directives. -/
theorem run_selections_name (hcolon : ¬ StartsWith .colon ls)
    (hargs : (arguments (n + 1) false).run ls = some ([], us)) (hat : ¬ StartsWith .at us) :
    (selections (n + 2)).run (⟨.name m, b⟩ :: ls) = (do
      if ← accept .braceL then
        let sub ← selections (n + 1)
        guard (sub ≠ .empty)
        return .field none m [] [] sub (← selections (n + 1))
      else
        return .field none m [] [] .empty (← selections (n + 1)) : Parser SelectionSet).run us := by
  rw [selections, run_bind_of_run_eq (run_token_cons _ _),
    run_bind_of_run_eq (run_nextIs_of_not_startsWith hcolon), if_neg Bool.false_ne_true, pure_bind,
    run_bind_of_run_eq hargs, run_bind_of_run_eq (run_directives_of_not_startsWith false hat)]

theorem run_selections_leaf (hcolon : ¬ StartsWith .colon ls)
    (hargs : (arguments (n + 1) false).run ls = some ([], us)) (hends : EndsField us)
    (hs : (selections (n + 1)).run us = some (s, rest)) :
    (selections (n + 2)).run (⟨.name m, b⟩ :: ls) = some (.field none m [] [] .empty s, rest) := by
  rw [run_selections_name hcolon hargs (hends .at (by decide)),
    run_bind_of_run_eq (run_accept_of_not_startsWith (hends .braceL (by decide))),
    if_neg Bool.false_ne_true, run_bind_of_run_eq hs]
  rfl

theorem run_selections_nested (hcolon : ¬ StartsWith .colon ls)
    (hargs : (arguments (n + 1) false).run ls = some ([], ⟨.punct .braceL, b⟩ :: us))
    (h : Nests (n + 1) us sub s rest) {c : Bool} : (selections (n + 2)).run (⟨.name m, c⟩ :: ls) =
      some (.field none m [] [] sub s, rest) := by
  have hat : ¬ StartsWith .at (⟨.punct .braceL, b⟩ :: us) := by
    rintro ⟨_, vs, heq⟩
    cases heq
  rw [run_selections_name hcolon hargs hat, run_bind_of_run_eq (run_accept_cons b), if_pos rfl]
  exact run_nested_eq_some_iff.2 ⟨sub, s, h, rfl⟩

/-- The rest of an inline fragment, after its condition. -/
theorem run_inline {condition : Option Name}
    (hds : (directives n false).run ls = some (ds, ⟨.punct .braceL, b⟩ :: us))
    (h : Nests n us sub s rest) : (do
      let ds ← directives n false
      expect .braceL
      let sub ← selections n
      guard (sub ≠ .empty)
      return .inline condition ds sub (← selections n) : Parser SelectionSet).run ls =
        some (.inline condition ds sub s, rest) := by
  have hbrace : (expect .braceL).run (⟨.punct .braceL, b⟩ :: us) = some ((), us) :=
    run_expect_eq_some_iff.2 ⟨b, rfl⟩
  rw [run_bind_of_run_eq hds, run_bind_of_run_eq hbrace]
  exact run_nested_eq_some_iff.2 ⟨sub, s, h, rfl⟩

theorem run_selections_inline (hcomma : ls.head?.any Lexeme.afterComma = false)
    (hds : (directives n false).run ls = some (ds, ⟨.punct .braceL, b⟩ :: us))
    (h : Nests n us sub s rest) {c : Bool} :
    (selections (n + 1)).run (⟨.punct .spread, c⟩ :: ls) = some (.inline none ds sub s, rest) := by
  have hfree : noComma.run ls = some ((), ls) := run_noComma_eq_some_iff.2 ⟨hcomma, rfl⟩
  rw [selections, run_bind_of_run_eq (run_token_cons _ _), run_bind_of_run_eq hfree,
    run_bind_of_run_eq (run_peek _)]
  split
  · -- Directives or a brace come next, and not a name.
    rename_i m hm
    have hat : ¬ StartsWith .at ls := by
      rintro ⟨_, vs, rfl⟩
      cases hm
    obtain ⟨-, rfl⟩ := Prod.mk.inj (eq_of_run_directives hat hds)
    cases hm
  · exact run_inline hds h

theorem run_selections_inlineOn (hw : w.text = "on")
    (hds : (directives n false).run ls = some (ds, ⟨.punct .braceL, b⟩ :: us))
    (h : Nests n us sub s rest) {c d : Bool} :
    (selections (n + 1)).run
      (⟨.punct .spread, c⟩ :: ⟨.name w, false⟩ :: ⟨.name m, d⟩ :: ls) =
        some (.inline (some m) ds sub s, rest) := by
  have hm : name.run (⟨.name m, d⟩ :: ls) = some (m, ls) := run_name_eq_some_iff.2 ⟨d, rfl⟩
  rw [selections, run_bind_of_run_eq (run_token_cons _ _),
    run_bind_of_run_eq (run_noComma_cons _ _), run_bind_of_run_eq (run_peek _)]
  simp only [List.head?_cons, Option.map_some]
  rw [run_bind_of_run_eq (run_token_cons _ _), if_pos hw, run_bind_of_run_eq hm]
  exact run_inline hds h

end Steps

/-! ### Documents -/

theorem run_definitions_nil (n k : Nat) : (definitions n (k + 1)).run [] = some ([], []) := rfl

theorem ne_nil_of_run_definitions {n k : Nat} {l : Lexeme} {ds : Document}
    (h : (definitions n k).run (l :: ls) = some (ds, rest)) : ds ≠ [] := by
  cases k with
  | zero => cases h
  | succ k =>
    rw [definitions, run_bind_of_run_eq (run_peek _)] at h
    simp only [List.head?_cons, Option.map_some, run_bind_eq_some_iff, run_pure_eq_some_iff] at h
    obtain ⟨d, _, _, ds', _, _, h⟩ := h
    cases h
    exact List.cons_ne_nil _ _

/-- Between braces stand the selections of a query. -/
theorem run_definition_braceL_eq_some_iff {n : Nat} {b : Bool} {r : Definition × List Lexeme} :
    (definition n).run (⟨.punct .braceL, b⟩ :: ls) = some r ↔
      ∃ S, (selections n).run ls = some (S, r.2) ∧ S ≠ .empty ∧
        r.1 = .operation .query none [] [] S := by
  obtain ⟨d, us⟩ := r
  have hbrace : (expect .braceL).run (⟨.punct .braceL, b⟩ :: ls) = some ((), ls) :=
    run_expect_eq_some_iff.2 ⟨b, rfl⟩
  rw [definition, run_bind_of_run_eq (run_nextIs_of_startsWith ⟨b, ls, rfl⟩), if_pos rfl]
  simp only [selectionSet, run_bind_eq_some_iff, run_pure_eq_some_iff, run_guard_eq_some_iff]
  constructor
  · rintro ⟨S, _, ⟨_, _, hopen, T, _, hT, _, _, ⟨hne, hrest⟩, h⟩, he⟩
    rw [hbrace] at hopen
    cases hopen
    cases h
    cases he
    cases hrest
    exact ⟨S, hT, hne, rfl⟩
  · rintro ⟨S, hS, hne, rfl⟩
    exact ⟨S, us, ⟨(), ls, hbrace, S, us, hS, (), us, ⟨hne, rfl⟩, rfl⟩, rfl⟩

/-- A document of one definition that starts with a brace is a query, and the brace of the query
is closed where the document ends. -/
theorem document?_braceL_eq_singleton_iff {b : Bool} {d : Definition} :
    document? (⟨.punct .braceL, b⟩ :: ls) = some [d] ↔ ∃ S,
      (selections (ls.length + 2)).run ls = some (S, []) ∧ S ≠ .empty ∧
      d = .operation .query none [] [] S := by
  have hrun : ∀ {r}, (definitions (ls.length + 2) (ls.length + 2)).run
      (⟨.punct .braceL, b⟩ :: ls) = some r ↔ ∃ S us ds,
        (selections (ls.length + 2)).run ls = some (S, us) ∧ S ≠ .empty ∧
        (definitions (ls.length + 2) (ls.length + 1)).run us = some (ds, r.2) ∧
        r.1 = .operation .query none [] [] S :: ds := by
    rintro ⟨d, us⟩
    rw [definitions, run_bind_of_run_eq (run_peek _)]
    simp only [List.head?_cons, Option.map_some, run_bind_eq_some_iff, run_pure_eq_some_iff,
      run_definition_braceL_eq_some_iff, Prod.mk.injEq]
    constructor
    · rintro ⟨_, vs, ⟨S, hS, hne, rfl⟩, ds, _, hds, rfl, rfl⟩
      exact ⟨S, vs, ds, hS, hne, hds, rfl⟩
    · rintro ⟨S, vs, ds, hS, hne, hds, rfl⟩
      exact ⟨_, vs, ⟨S, hS, hne, rfl⟩, ds, us, hds, rfl, rfl⟩
  unfold document?
  constructor
  · intro h
    simp only [List.length_cons] at h
    split at h
    · rename_i e es us heq
      cases h
      obtain ⟨S, vs, ds, hS, hne, hds, he⟩ := hrun.1 heq
      cases he
      -- Whatever came after the closing brace would be a second definition.
      cases vs with
      | nil => exact ⟨S, hS, hne, rfl⟩
      | cons l vs => exact absurd rfl (ne_nil_of_run_definitions hds)
    · cases h
  · rintro ⟨S, hS, hne, rfl⟩
    have hdefinitions := (hrun (r := ([.operation .query none [] [] S], []))).2
      ⟨S, [], [], hS, hne, run_definitions_nil _ _, rfl⟩
    simp only [List.length_cons]
    rw [hdefinitions]

end Federation.Parser
