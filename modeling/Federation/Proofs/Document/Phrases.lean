import Federation.Proofs.Document.Parsing

/-!
# What values, arguments and directives are read from

Selections carry arguments and directives, and these carry values.  `Spells` is the grammar of all
three, on tokens.  Their parsers take what it spells and nothing else (`takes_value`,
`takes_argument`, `takes_directive`), and they take all of it with a budget of as many tokens
(`reads_value`, `reads_argument`, `reads_directive`).  Repetition adds no case to this: a parser of
one phrase that takes what is spelled makes a parser of many that does.
-/

namespace Federation.Parser

/-! ### The grammar -/

/-- What is read as part of a selection without being one. -/
inductive Phrase
  | value
  | argument
  | directive
  | many (p : Phrase)

/-- The tokens that spell a phrase.  An argument or a field of an object value may be a name alone,
though nothing comes of it. -/
inductive Spells : Phrase → List Token → Prop
  | int (d : String) : Spells .value [.int d]
  | float (d : String) : Spells .value [.float d]
  | string (s : String) : Spells .value [.string s]
  | word (m : Name) : Spells .value [.name m]
  | var (m : Name) : Spells .value [.punct .dollar, .name m]
  | list {ts : List Token} (h : Spells (.many .value) ts) :
      Spells .value (.punct .bracketL :: ts ++ [.punct .bracketR])
  | object {ts : List Token} (h : Spells (.many .argument) ts) :
      Spells .value (.punct .braceL :: ts ++ [.punct .braceR])
  | name (m : Name) : Spells .argument [.name m]
  | pair (m : Name) {ts : List Token} (h : Spells .value ts) :
      Spells .argument (.name m :: .punct .colon :: ts)
  | bare (m : Name) : Spells .directive [.punct .at, .name m]
  | applied (m : Name) {ts : List Token} (h : Spells (.many .argument) ts) (hne : ts ≠ []) :
      Spells .directive (.punct .at :: .name m :: .punct .parenL :: ts ++ [.punct .parenR])
  | none (p : Phrase) : Spells (.many p) []
  | more {p : Phrase} {ts us : List Token} (h : Spells p ts) (hs : Spells (.many p) us) :
      Spells (.many p) (ts ++ us)

variable {α : Type} {p : Phrase} {item : Parser α} {close start : Punctuator} {n k : Nat}
  {ls pre rest : List Lexeme} {ts : List Token}

/-! ### What is taken is spelled -/

/-- Whether a parser takes nothing but what spells a phrase. -/
def Takes (item : Parser α) (p : Phrase) : Prop :=
  ∀ ⦃ls a rest⦄, item.run ls = some (a, rest) →
    ∃ pre, ls = pre ++ rest ∧ Spells p (pre.map Lexeme.token)

theorem Takes.itemsTo (h : Takes item p) {xs : List α}
    (hrun : (itemsTo close item k).run ls = some (xs, rest)) : ∃ pre b,
      ls = pre ++ ⟨.punct close, b⟩ :: rest ∧ Spells (.many p) (pre.map Lexeme.token) := by
  induction k generalizing ls xs with
  | zero => cases hrun
  | succ k ih =>
    by_cases hstart : StartsWith close ls
    · obtain ⟨b, us, rfl⟩ := hstart
      rw [run_itemsTo_cons] at hrun
      cases hrun
      exact ⟨[], b, rfl, .none p⟩
    · obtain ⟨x, us, xs, hx, hxs, _⟩ := (run_itemsTo_eq_some_iff hstart).1 hrun
      obtain ⟨pre, rfl, hpre⟩ := h hx
      obtain ⟨pre', b, rfl, hpre'⟩ := ih hxs
      refine ⟨pre ++ pre', b, (List.append_assoc ..).symm, ?_⟩
      rw [List.map_append]
      exact .more hpre hpre'

theorem Takes.itemsFrom (h : Takes item p) : Takes (itemsFrom start item k) (.many p) := by
  induction k with
  | zero =>
    intro ls xs rest hrun
    cases hrun
  | succ k ih =>
    intro ls xs rest hrun
    by_cases hstart : StartsWith start ls
    · obtain ⟨x, us, xs, hx, hxs, _⟩ := (run_itemsFrom_eq_some_iff hstart).1 hrun
      obtain ⟨pre, rfl, hpre⟩ := h hx
      obtain ⟨pre', rfl, hpre'⟩ := ih hxs
      refine ⟨pre ++ pre', (List.append_assoc ..).symm, ?_⟩
      rw [List.map_append]
      exact .more hpre hpre'
    · rw [run_itemsFrom_of_not_startsWith hstart] at hrun
      cases hrun
      exact ⟨[], rfl, .none p⟩

theorem takes_argument (h : Takes (value false n) .value) :
    Takes (argument n false) .argument := by
  intro ls a rest hrun
  simp only [argument, run_bind_eq_some_iff, run_name_eq_some_iff] at hrun
  obtain ⟨m, us, ⟨b, rfl⟩, _, _, hcolon, hrun⟩ := hrun
  by_cases hstart : StartsWith .colon us
  · obtain ⟨c, vs, rfl⟩ := hstart
    rw [run_accept_cons] at hcolon
    cases hcolon
    simp only [if_true, run_bind_eq_some_iff, run_pure_eq_some_iff] at hrun
    obtain ⟨v, _, hv, hr⟩ := hrun
    cases hr
    obtain ⟨pre, rfl, hpre⟩ := h hv
    exact ⟨⟨.name m, b⟩ :: ⟨.punct .colon, c⟩ :: pre, rfl, .pair m hpre⟩
  · rw [run_accept_of_not_startsWith hstart] at hcolon
    cases hcolon
    cases hrun
    exact ⟨[⟨.name m, b⟩], rfl, .name m⟩

/-- The fields of an object value are read like arguments. -/
theorem value_succ (constant : Bool) (n : Nat) : value constant (n + 1) = (do
    match ← token with
    | .int d => return .int d
    | .float d => return .float d
    | .string s => return .string s
    | .name m => return wordValue m
    | .punct .dollar =>
      guard !constant
      return .var (← name)
    | .punct .bracketL => return .list (← itemsTo .bracketR (value constant n) n)
    | .punct .braceL => return .object ((← itemsTo .braceR (argument n constant) n).filterMap id)
    | _ => failure) :=
  rfl

theorem takes_value (n : Nat) : Takes (value false n) .value := by
  -- The budget falls with every list or object around a value, so the induction is on it.
  induction n with
  | zero =>
    intro ls v rest hrun
    cases hrun
  | succ n ih =>
    intro ls v rest hrun
    rw [value_succ, run_bind_eq_some_iff] at hrun
    obtain ⟨t, us, ht, hrun⟩ := hrun
    obtain ⟨b, rfl⟩ := run_token_eq_some_iff.1 ht
    split at hrun
    · cases hrun
      exact ⟨[⟨_, b⟩], rfl, .int _⟩
    · cases hrun
      exact ⟨[⟨_, b⟩], rfl, .float _⟩
    · cases hrun
      exact ⟨[⟨_, b⟩], rfl, .string _⟩
    · cases hrun
      exact ⟨[⟨_, b⟩], rfl, .word _⟩
    · simp only [run_bind_eq_some_iff, run_guard_eq_some_iff, run_pure_eq_some_iff,
        run_name_eq_some_iff] at hrun
      obtain ⟨_, _, ⟨_, rfl⟩, m, _, ⟨c, rfl⟩, hr⟩ := hrun
      cases hr
      exact ⟨[⟨_, b⟩, ⟨_, c⟩], rfl, .var m⟩
    · simp only [run_bind_eq_some_iff, run_pure_eq_some_iff] at hrun
      obtain ⟨xs, _, hxs, hr⟩ := hrun
      cases hr
      obtain ⟨pre, c, rfl, hpre⟩ := ih.itemsTo hxs
      exact ⟨⟨.punct .bracketL, b⟩ :: pre ++ [⟨.punct .bracketR, c⟩], by simp,
        by simpa using .list hpre⟩
    · simp only [run_bind_eq_some_iff, run_pure_eq_some_iff] at hrun
      obtain ⟨xs, _, hxs, hr⟩ := hrun
      cases hr
      obtain ⟨pre, c, rfl, hpre⟩ := (takes_argument ih).itemsTo hxs
      exact ⟨⟨.punct .braceL, b⟩ :: pre ++ [⟨.punct .braceR, c⟩], by simp,
        by simpa using .object hpre⟩
    · cases hrun

theorem takes_directive (n : Nat) : Takes (directive n false) .directive := by
  intro ls d rest hrun
  simp only [directive, run_bind_eq_some_iff, run_expect_eq_some_iff, run_name_eq_some_iff,
    run_pure_eq_some_iff] at hrun
  obtain ⟨_, _, ⟨b, rfl⟩, m, us, ⟨c, rfl⟩, args, _, hargs, hr⟩ := hrun
  cases hr
  by_cases hstart : StartsWith .parenL us
  · obtain ⟨d, vs, rfl⟩ := hstart
    obtain ⟨xs, hxs, hne, -⟩ := run_arguments_cons_eq_some_iff.1 hargs
    obtain ⟨pre, e, rfl, hpre⟩ := (takes_argument (takes_value n)).itemsTo hxs
    refine ⟨⟨.punct .at, b⟩ :: ⟨.name m, c⟩ :: ⟨.punct .parenL, d⟩ :: pre ++ [⟨.punct .parenR, e⟩],
      by simp, ?_⟩
    have hpre' : pre.map Lexeme.token ≠ [] := by
      rintro hnil
      obtain rfl := List.map_eq_nil_iff.1 hnil
      cases n with
      | zero => cases hxs
      | succ n =>
        rw [List.nil_append, run_itemsTo_cons] at hxs
        cases hxs
        exact hne rfl
    simpa using .applied m hpre hpre'
  · rw [run_arguments_of_not_startsWith false hstart] at hargs
    cases hargs
    exact ⟨[⟨_, b⟩, ⟨_, c⟩], rfl, .bare m⟩

theorem takes_directives (n : Nat) : Takes (directives n false) (.many .directive) :=
  (takes_directive n).itemsFrom

/-! ### What is spelled is taken -/

/-- The punctuators that carry on a phrase, after a name. -/
def carrying : List Punctuator := [.colon, .parenL]

/-- The punctuators that close what phrases stand in. -/
def closing : List Punctuator := [.parenR, .bracketR, .braceR]

/-- Whether a phrase ends before some tokens. -/
def EndsPhrase (ls : List Lexeme) : Prop := ∀ q ∈ carrying, ¬ StartsWith q ls

/-- Whether a parser takes what spells a phrase, up to a number of tokens. -/
def Reads (item : Parser α) (p : Phrase) (n : Nat) : Prop :=
  ∀ ⦃pre rest⦄, Spells p (pre.map Lexeme.token) → pre.length ≤ n → EndsPhrase rest →
    ∃ a, item.run (pre ++ rest) = some (a, rest)

theorem endsPhrase_cons {t : Token} {b : Bool} (h : ∀ q ∈ carrying, t ≠ .punct q) :
    EndsPhrase (⟨t, b⟩ :: ls) := by
  rintro q hq ⟨c, us, heq⟩
  cases heq
  exact h q hq rfl

theorem endsPhrase_of_mem_closing (h : close ∈ closing) (b : Bool) (ls : List Lexeme) :
    EndsPhrase (⟨.punct close, b⟩ :: ls) := by
  refine endsPhrase_cons fun q hq heq => ?_
  cases heq
  revert close
  decide

/-- Lexemes whose tokens end in a part between two tokens. -/
theorem exists_of_map_token_eq_enclosed (front : List Token) {t u : Token}
    (h : pre.map Lexeme.token = front ++ t :: ts ++ [u]) : ∃ head b inner c,
      pre = head ++ ⟨t, b⟩ :: inner ++ [⟨u, c⟩] ∧ head.map Lexeme.token = front ∧
        inner.map Lexeme.token = ts := by
  obtain ⟨start, last, rfl, hstart, hlast⟩ := List.map_eq_append_iff.1 h
  obtain ⟨head, middle, rfl, hhead, hmiddle⟩ := List.map_eq_append_iff.1 hstart
  obtain ⟨⟨_, b⟩, inner, rfl, rfl, hinner⟩ := List.map_eq_cons_iff.1 hmiddle
  obtain ⟨⟨_, c⟩, rfl, rfl⟩ := List.map_eq_singleton_iff.1 hlast
  exact ⟨head, b, inner, c, rfl, hhead, hinner⟩

/-- One phrase starts with a token that neither carries on another one nor closes anything. -/
theorem Spells.exists_cons (h : Spells p ts) (hp : ∀ q, p ≠ .many q) : ∃ t us, ts = t :: us ∧
    (∀ q ∈ carrying ++ closing, t ≠ .punct q) ∧ (p = .directive → t = .punct .at) := by
  cases h with
  | none q => exact absurd rfl (hp q)
  | @more q => exact absurd rfl (hp q)
  | _ => exact ⟨_, _, rfl, by simp [carrying, closing], by simp⟩

theorem Spells.many_cases (h : Spells (.many p) ts) : ts = [] ∨
    ∃ us vs, ts = us ++ vs ∧ Spells p us ∧ Spells (.many p) vs := by
  cases h with
  | none => exact .inl rfl
  | more h hs => exact .inr ⟨_, _, rfl, h, hs⟩

/-- One of many phrases and those after it. -/
theorem exists_of_spells_many (hp : ∀ q, p ≠ .many q)
    (h : Spells (.many p) (pre.map Lexeme.token)) : pre = [] ∨
      ∃ l us vs, pre = l :: us ++ vs ∧ Spells p ((l :: us).map Lexeme.token) ∧
        Spells (.many p) (vs.map Lexeme.token) ∧
        (∀ q ∈ carrying ++ closing, l.token ≠ .punct q) ∧
        (p = .directive → l.token = .punct .at) := by
  rcases h.many_cases with hnil | ⟨ts, us, happend, hone, hs⟩
  · exact .inl (List.map_eq_nil_iff.1 hnil)
  · obtain ⟨pre, post, rfl, rfl, rfl⟩ := List.map_eq_append_iff.1 happend
    obtain ⟨t, ts, hcons, ht, hat⟩ := hone.exists_cons hp
    obtain ⟨l, ls, rfl, rfl, rfl⟩ := List.map_eq_cons_iff.1 hcons
    exact .inr ⟨l, ls, post, rfl, hone, hs, ht, hat⟩

/-- What is before many phrases, or before what follows them, ends. -/
theorem endsPhrase_append (hp : ∀ q, p ≠ .many q) (h : Spells (.many p) (pre.map Lexeme.token))
    (hrest : EndsPhrase rest) : EndsPhrase (pre ++ rest) := by
  rcases exists_of_spells_many hp h with rfl | ⟨⟨t, b⟩, us, vs, rfl, _, _, ht, _⟩
  · exact hrest
  · exact endsPhrase_cons fun q hq => ht q (List.mem_append_left _ hq)

theorem Reads.itemsTo (h : Reads item p n) (hp : ∀ q, p ≠ .many q) (close : Punctuator) (k : Nat)
    (hclose : close ∈ closing)
    (hpre : Spells (.many p) (pre.map Lexeme.token)) (hn : pre.length ≤ n)
    (hk : pre.length < k) (b : Bool) (rest : List Lexeme) :
    ∃ xs, (itemsTo close item k).run (pre ++ ⟨.punct close, b⟩ :: rest) = some (xs, rest) ∧
      (pre ≠ [] → xs ≠ []) := by
  induction k generalizing pre with
  | zero => omega
  | succ k ih =>
    rcases exists_of_spells_many hp hpre with rfl | ⟨⟨t, c⟩, us, vs, rfl, hone, hmany, ht, _⟩
    · exact ⟨[], run_itemsTo_cons k b, fun hnil => absurd rfl hnil⟩
    · have hstart : ¬ StartsWith close (⟨t, c⟩ :: us ++ vs ++ ⟨.punct close, b⟩ :: rest) := by
        rintro ⟨_, _, heq⟩
        cases heq
        exact ht close (List.mem_append_right _ hclose) rfl
      have hends : EndsPhrase (vs ++ ⟨.punct close, b⟩ :: rest) :=
        endsPhrase_append hp hmany (endsPhrase_of_mem_closing hclose b rest)
      simp only [List.length_append, List.length_cons] at hn hk
      obtain ⟨x, hx⟩ := h hone (by simp only [List.length_cons]; omega) hends
      obtain ⟨xs, hxs, _⟩ := ih hmany (by omega) (by omega)
      rw [← List.append_assoc] at hx
      exact ⟨x :: xs, (run_itemsTo_eq_some_iff hstart).2 ⟨x, _, xs, hx, hxs, rfl⟩,
        fun _ => List.cons_ne_nil _ _⟩

/-- An argument that is a name alone. -/
theorem run_argument_name {m : Name} {b constant : Bool} (h : ¬ StartsWith .colon rest) :
    (argument n constant).run (⟨.name m, b⟩ :: rest) = some (.none, rest) := by
  have hm : name.run (⟨.name m, b⟩ :: rest) = some (m, rest) := run_name_eq_some_iff.2 ⟨b, rfl⟩
  rw [argument, run_bind_of_run_eq hm, run_bind_of_run_eq (run_accept_of_not_startsWith h)]
  rfl

theorem reads_argument (h : Reads (value false n) .value n) :
    Reads (argument n false) .argument n := by
  intro pre rest hpre hn hrest
  generalize hts : pre.map Lexeme.token = ts at hpre
  cases hpre with
  | name m =>
    obtain ⟨⟨_, b⟩, rfl, rfl⟩ := List.map_eq_singleton_iff.1 hts
    exact ⟨.none, run_argument_name (hrest .colon (by decide))⟩
  | pair m hv =>
    obtain ⟨⟨_, b⟩, us, rfl, rfl, hus⟩ := List.map_eq_cons_iff.1 hts
    obtain ⟨⟨_, c⟩, vs, rfl, rfl, rfl⟩ := List.map_eq_cons_iff.1 hus
    simp only [List.length_cons] at hn
    obtain ⟨v, hrun⟩ := h hv (by omega) hrest
    have hm : name.run (⟨.name m, b⟩ :: ⟨.punct .colon, c⟩ :: (vs ++ rest)) =
        some (m, ⟨.punct .colon, c⟩ :: (vs ++ rest)) := run_name_eq_some_iff.2 ⟨b, rfl⟩
    refine ⟨some (m, v), ?_⟩
    rw [argument, List.cons_append, List.cons_append, run_bind_of_run_eq hm,
      run_bind_of_run_eq (run_accept_cons c), if_pos rfl, run_bind_of_run_eq hrun]
    rfl

theorem reads_value (n : Nat) : Reads (value false n) .value n := by
  -- What stands in brackets or braces is shorter, so a smaller budget is enough for it.
  induction n with
  | zero =>
    intro pre rest hpre hn _
    obtain ⟨t, us, hcons, _⟩ := hpre.exists_cons (by simp)
    obtain rfl := List.eq_nil_of_length_eq_zero (Nat.le_zero.1 hn)
    cases hcons
  | succ n ih =>
    intro pre rest hpre hn hrest
    generalize hts : pre.map Lexeme.token = ts at hpre
    cases hpre with
    | int | float | string | word =>
      obtain ⟨⟨_, b⟩, rfl, rfl⟩ := List.map_eq_singleton_iff.1 hts
      exact ⟨_, rfl⟩
    | var m =>
      obtain ⟨⟨_, b⟩, us, rfl, rfl, hus⟩ := List.map_eq_cons_iff.1 hts
      obtain ⟨⟨_, c⟩, rfl, rfl⟩ := List.map_eq_singleton_iff.1 hus
      exact ⟨.var m, rfl⟩
    | list hmany =>
      obtain ⟨head, b, us, c, rfl, hhead, rfl⟩ := exists_of_map_token_eq_enclosed [] hts
      obtain rfl := List.map_eq_nil_iff.1 hhead
      simp only [List.length_append, List.length_cons, List.length_nil] at hn
      obtain ⟨xs, hxs, _⟩ := ih.itemsTo (by simp) .bracketR n (by decide) hmany
        (by omega) (by omega) c rest
      refine ⟨.list xs, ?_⟩
      rw [List.nil_append, List.append_assoc, List.cons_append, value_succ,
        run_bind_of_run_eq (run_token_cons _ _)]
      exact run_bind_of_run_eq hxs
    | object hmany =>
      obtain ⟨head, b, us, c, rfl, hhead, rfl⟩ := exists_of_map_token_eq_enclosed [] hts
      obtain rfl := List.map_eq_nil_iff.1 hhead
      simp only [List.length_append, List.length_cons, List.length_nil] at hn
      obtain ⟨xs, hxs, _⟩ :=
        (reads_argument ih).itemsTo (by simp) .braceR n (by decide) hmany (by omega)
          (by omega) c rest
      refine ⟨.object (xs.filterMap id), ?_⟩
      rw [List.nil_append, List.append_assoc, List.cons_append, value_succ,
        run_bind_of_run_eq (run_token_cons _ _)]
      exact run_bind_of_run_eq hxs

theorem reads_directive (n : Nat) : Reads (directive n false) .directive n := by
  intro pre rest hpre hn hrest
  generalize hts : pre.map Lexeme.token = ts at hpre
  have hopen : ∀ (b c : Bool) (m : Name) (ls : List Lexeme), (directive n false).run
      (⟨.punct .at, b⟩ :: ⟨.name m, c⟩ :: ls) =
        (do return ⟨m, ← arguments n false⟩ : Parser Directive).run ls := by
    intro b c m ls
    have hat : (expect .at).run (⟨.punct .at, b⟩ :: ⟨.name m, c⟩ :: ls) =
        some ((), ⟨.name m, c⟩ :: ls) := run_expect_eq_some_iff.2 ⟨b, rfl⟩
    have hm : name.run (⟨.name m, c⟩ :: ls) = some (m, ls) := run_name_eq_some_iff.2 ⟨c, rfl⟩
    rw [directive, run_bind_of_run_eq hat, run_bind_of_run_eq hm]
  cases hpre with
  | bare m =>
    obtain ⟨⟨_, b⟩, us, rfl, rfl, hus⟩ := List.map_eq_cons_iff.1 hts
    obtain ⟨⟨_, c⟩, rfl, rfl⟩ := List.map_eq_singleton_iff.1 hus
    refine ⟨⟨m, []⟩, ?_⟩
    rw [List.cons_append, List.singleton_append, hopen,
      run_bind_of_run_eq (run_arguments_of_not_startsWith false (hrest .parenL (by decide)))]
    rfl
  | applied m hmany hne =>
    obtain ⟨head, d, ws, e, rfl, hhead, rfl⟩ :=
      exists_of_map_token_eq_enclosed [.punct .at, .name m] hts
    obtain ⟨⟨_, b⟩, us, rfl, rfl, hus⟩ := List.map_eq_cons_iff.1 hhead
    obtain ⟨⟨_, c⟩, rfl, rfl⟩ := List.map_eq_singleton_iff.1 hus
    simp only [List.length_append, List.length_cons, List.length_nil] at hn
    obtain ⟨xs, hxs, hsome⟩ := (reads_argument (reads_value n)).itemsTo (by simp) .parenR n
      (by decide) hmany (by omega) (by omega) e rest
    have hargs : (arguments n false).run
        (⟨.punct .parenL, d⟩ :: (ws ++ ⟨.punct .parenR, e⟩ :: rest)) =
          some (xs.filterMap id, rest) := by
      refine run_arguments_cons_eq_some_iff.2 ⟨xs, hxs, hsome ?_, rfl⟩
      rintro rfl
      exact hne rfl
    refine ⟨⟨m, xs.filterMap id⟩, ?_⟩
    simp only [List.cons_append, List.append_assoc, List.nil_append]
    rw [hopen, run_bind_of_run_eq hargs]
    rfl

/-- Directives are read up to a token that starts none. -/
theorem reads_directives (hpre : Spells (.many .directive) (pre.map Lexeme.token))
    (hn : pre.length < n) (hrest : EndsPhrase rest) (hat : ¬ StartsWith .at rest) :
    ∃ ds, (directives n false).run (pre ++ rest) = some (ds, rest) := by
  have key : ∀ k, pre.length < k →
      ∃ ds, (itemsFrom .at (directive n false) k).run (pre ++ rest) = some (ds, rest) := by
    intro k hk
    induction k generalizing pre with
    | zero => omega
    | succ k ih =>
      rcases exists_of_spells_many (by simp) hpre with
        rfl | ⟨⟨t, c⟩, us, vs, rfl, hone, hmany, _, hstart⟩
      · exact ⟨[], run_itemsFrom_of_not_startsWith hat⟩
      · obtain rfl : t = .punct .at := hstart rfl
        simp only [List.length_append, List.length_cons] at hn hk
        obtain ⟨d, hd⟩ := reads_directive n hone (by simp only [List.length_cons]; omega)
          (endsPhrase_append (by simp) hmany hrest)
        obtain ⟨ds, hds⟩ := ih hmany (by omega) (by omega)
        rw [← List.append_assoc] at hd
        exact ⟨d :: ds, (run_itemsFrom_eq_some_iff ⟨c, _, rfl⟩).2 ⟨d, _, ds, hd, hds, rfl⟩⟩
  exact key n hn

/-! ### Names in the place of arguments -/

/-- What may stand in the place of arguments though nothing comes of it: nothing, or names alone in
parentheses. -/
def IdleNames (ts : List Token) : Prop :=
  ts = [] ∨ ∃ ns : List Name, ns ≠ [] ∧
    ts = .punct .parenL :: ns.map .name ++ [.punct .parenR]

section Idle

variable {constant : Bool}

/-- An argument that comes to nothing is a name alone. -/
theorem run_argument_none (h : (argument n constant).run ls = some (.none, rest)) :
    ∃ m b, ls = ⟨.name m, b⟩ :: rest := by
  simp only [argument, run_bind_eq_some_iff, run_name_eq_some_iff] at h
  obtain ⟨m, us, ⟨b, rfl⟩, colon, vs, hcolon, h⟩ := h
  cases colon with
  | true =>
    simp only [if_true, run_bind_eq_some_iff, run_pure_eq_some_iff] at h
    obtain ⟨_, _, _, h⟩ := h
    cases h
  | false =>
    -- Nothing is taken after the name, which it would be if a colon came next.
    cases h
    by_cases hstart : StartsWith .colon us
    · obtain ⟨b', vs', rfl⟩ := hstart
      rw [run_accept_cons] at hcolon
      cases hcolon
    · rw [run_accept_of_not_startsWith hstart] at hcolon
      cases hcolon
      exact ⟨m, b, rfl⟩

/-- Arguments that all come to nothing are names alone. -/
theorem exists_of_run_itemsTo_argument {xs : List (Option (Name × Value))}
    (h : (itemsTo .parenR (argument n constant) k).run ls = some (xs, rest))
    (hxs : ∀ x ∈ xs, x = .none) : ∃ (pre : List Lexeme) (b : Bool) (ns : List Name),
      ls = pre ++ ⟨.punct .parenR, b⟩ :: rest ∧ pre.map Lexeme.token = ns.map .name ∧
        ns.length = xs.length := by
  induction k generalizing ls xs with
  | zero => cases h
  | succ k ih =>
    by_cases hstart : StartsWith .parenR ls
    · obtain ⟨b, vs, rfl⟩ := hstart
      rw [run_itemsTo_cons] at h
      cases h
      exact ⟨[], b, [], rfl, rfl, rfl⟩
    · obtain ⟨x, us, ys, hx, hys, rfl⟩ := (run_itemsTo_eq_some_iff hstart).1 h
      obtain ⟨hnone, hrest⟩ := List.forall_mem_cons.1 hxs
      obtain ⟨m, c, rfl⟩ := run_argument_none (hnone ▸ hx)
      obtain ⟨pre, b, ns, rfl, hpre, hlength⟩ := ih hys hrest
      exact ⟨⟨.name m, c⟩ :: pre, b, m :: ns, rfl, by simp [hpre], by simp [hlength]⟩

/-- There are no arguments only where none start, or where all of them are names alone. -/
theorem exists_of_run_arguments (h : (arguments n constant).run ls = some ([], rest)) :
    ∃ pre, ls = pre ++ rest ∧ IdleNames (pre.map Lexeme.token) := by
  by_cases hstart : StartsWith .parenL ls
  · obtain ⟨b, us, rfl⟩ := hstart
    obtain ⟨xs, hxs, hne, hnone⟩ := run_arguments_cons_eq_some_iff.1 h
    have hall : ∀ x ∈ xs, x = .none := List.filterMap_eq_nil_iff.1 hnone.symm
    obtain ⟨pre, c, ns, rfl, hpre, hlength⟩ := exists_of_run_itemsTo_argument hxs hall
    refine ⟨⟨.punct .parenL, b⟩ :: pre ++ [⟨.punct .parenR, c⟩], by simp, .inr ⟨ns, ?_, ?_⟩⟩
    · -- Parentheses hold at least one item, whatever comes of it.
      rintro rfl
      exact hne (List.eq_nil_of_length_eq_zero hlength.symm)
    · simp [hpre]
  · rw [run_arguments_of_not_startsWith constant hstart] at h
    cases h
    exact ⟨[], rfl, .inl rfl⟩

theorem run_itemsTo_argument_names {ns : List Name} (hpre : pre.map Lexeme.token = ns.map .name)
    (hk : pre.length < k) (b : Bool) (rest : List Lexeme) :
    (itemsTo .parenR (argument n constant) k).run (pre ++ ⟨.punct .parenR, b⟩ :: rest) =
      some (ns.map fun _ => .none, rest) := by
  induction ns generalizing pre k with
  | nil =>
    obtain rfl := List.map_eq_nil_iff.1 hpre
    obtain ⟨k, rfl⟩ := Nat.exists_eq_add_of_lt hk
    exact run_itemsTo_cons _ b
  | cons m ns ih =>
    obtain ⟨⟨_, c⟩, us, rfl, rfl, hus⟩ := List.map_eq_cons_iff.1 hpre
    obtain ⟨k, rfl⟩ := Nat.exists_eq_add_of_lt hk
    have hstart : ¬ StartsWith .parenR (⟨.name m, c⟩ :: us ++ ⟨.punct .parenR, b⟩ :: rest) := by
      rintro ⟨_, _, heq⟩
      cases heq
    have hcolon : ¬ StartsWith .colon (us ++ ⟨.punct .parenR, b⟩ :: rest) := by
      rintro ⟨_, _, heq⟩
      cases ns with
      | nil =>
        obtain rfl := List.map_eq_nil_iff.1 hus
        cases heq
      | cons m' ns =>
        obtain ⟨⟨_, d⟩, vs, rfl, rfl, _⟩ := List.map_eq_cons_iff.1 hus
        cases heq
    refine (run_itemsTo_eq_some_iff hstart).2
      ⟨.none, _, _, run_argument_name hcolon, ih hus ?_, rfl⟩
    simp only [List.length_cons]
    omega

theorem not_startsWith_colon_of_idleNames (h : IdleNames (pre.map Lexeme.token))
    (hrest : ¬ StartsWith .colon rest) : ¬ StartsWith .colon (pre ++ rest) := by
  rcases h with hnil | ⟨ns, _, heq⟩
  · obtain rfl := List.map_eq_nil_iff.1 hnil
    exact hrest
  · obtain ⟨⟨_, b⟩, us, rfl, rfl, _⟩ := List.map_eq_cons_iff.1 heq
    rintro ⟨_, _, hcons⟩
    cases hcons

/-- Nothing comes of idle names. -/
theorem run_arguments_of_idleNames (constant : Bool) (h : IdleNames (pre.map Lexeme.token))
    (hn : pre.length ≤ n) (hrest : ¬ StartsWith .parenL rest) :
    (arguments n constant).run (pre ++ rest) = some ([], rest) := by
  rcases h with hnil | ⟨ns, hns, heq⟩
  · obtain rfl := List.map_eq_nil_iff.1 hnil
    exact run_arguments_of_not_startsWith constant hrest
  · obtain ⟨head, b, us, c, rfl, hhead, hus⟩ := exists_of_map_token_eq_enclosed [] heq
    obtain rfl := List.map_eq_nil_iff.1 hhead
    simp only [List.length_append, List.length_cons, List.length_nil] at hn
    rw [List.append_assoc]
    refine run_arguments_cons_eq_some_iff.2
      ⟨_, run_itemsTo_argument_names hus (by omega) c rest, by simpa using hns, ?_⟩
    simp

end Idle

end Federation.Parser
