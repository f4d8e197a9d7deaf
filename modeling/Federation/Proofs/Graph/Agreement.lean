import Federation.Proofs.Graph.ConflictFree
import Federation.Proofs.Graph.Merged
import Mathlib.Tactic.Tauto

/-!
# Agreement between declarations

The merge checks each declaration against what was merged before it.  `Checked` says that every item
of a list passes such a check, and falls apart along the parts of the state as the fold itself does
(`checked_iff_parts`).  What is left in the end are checks of single values against the first of
them: the kinds of a type, the types of a field, of an input field, of an argument.  All but the
last say the same in every order of the declarations (`FieldNode.checked_iff_of_split`).

Arguments are different.  The arguments of an external declaration count when it is the first
declaration of its field and comes before the one that settles the field, and otherwise not
(`FieldNode.settledArgument?`).
-/

namespace Federation

/-! ### Checks along a fold -/

/-- Whether each item of a list passes a check against the state that the items before it lead
to. -/
def Checked {S E : Type} (step : S → E → S) (ok : S → E → Prop) : S → List E → Prop
  | _, [] => True
  | s, e :: es => ok s e ∧ Checked step ok (step s e) es

section Checked

variable {S P E F ι : Type} {step : S → E → S} {ok ok' : S → E → Prop}

@[simp] theorem checked_nil {s : S} : Checked step ok s [] := trivial

@[simp] theorem checked_cons {s : S} {e : E} {es : List E} :
    Checked step ok s (e :: es) ↔ ok s e ∧ Checked step ok (step s e) es := Iff.rfl

theorem checked_append {s : S} {l m : List E} :
    Checked step ok s (l ++ m) ↔ Checked step ok s l ∧ Checked step ok (l.foldl step s) m := by
  induction l generalizing s with
  | nil => simp
  | cons e l ih => rw [List.cons_append, checked_cons, checked_cons, ih, and_assoc, List.foldl_cons]

theorem checked_and {s : S} {l : List E} :
    Checked step (fun s e => ok s e ∧ ok' s e) s l ↔
      Checked step ok s l ∧ Checked step ok' s l := by
  induction l generalizing s with
  | nil => simp
  | cons e l ih => simp only [checked_cons, ih]; tauto

/-- Where steps and checks concern each part of the state on its own, a list passes the check when
what is selected from it for each part does. -/
theorem checked_iff_parts (part : ι → S → P) (select : ι → E → Option F) (stepPart : P → F → P)
    (okPart : P → F → Prop) {l : List E}
    (hstep : ∀ k s e, part k (step s e) = (select k e).elim (part k s) (stepPart (part k s)))
    (hok : ∀ s, ∀ e ∈ l, ok s e ↔ ∀ k x, select k e = some x → okPart (part k s) x) {s : S} :
    Checked step ok s l ↔ ∀ k, Checked stepPart okPart (part k s) (l.filterMap (select k)) := by
  induction l generalizing s with
  | nil => simp
  | cons e l ih =>
    rw [checked_cons, hok s e List.mem_cons_self,
      ih fun s e he => hok s e (List.mem_cons_of_mem _ he), ← forall_and]
    refine forall_congr' fun k => ?_
    rw [List.filterMap_cons, hstep]
    cases select k e <;> simp

/-- Where the first item makes the state that it is checked against itself, and passes that check,
a list is checked from there. -/
theorem checked_start (step : S → E → S) (ok : S → E → Prop) (start : E → S)
    (hstart : ∀ e, ok (start e) e) {l : List E} :
    Checked (fun s? e => some (step (s?.getD (start e)) e)) (fun s? e => ∀ s, s? = some s → ok s e)
      none l ↔ ∀ e, l.head? = some e → Checked step ok (start e) l := by
  have key : ∀ (l : List E) (s : S),
      Checked (fun s? e => some (step (s?.getD (start e)) e))
        (fun s? e => ∀ s, s? = some s → ok s e) (some s) l ↔ Checked step ok s l := by
    intro l
    induction l with
    | nil => simp
    | cons e l ih => intro s; simp [ih]
  cases l with
  | nil => simp
  | cons e l => simp [key, hstart]

/-- Whether the values of a list are all the same, and the same as the one that stands already. -/
def Uniform {A : Type} (a? : Option A) (l : List A) : Prop :=
  ∀ a ∈ a?.toList ++ l, ∀ b ∈ a?.toList ++ l, a = b

@[simp] theorem uniform_nil {A : Type} {a? : Option A} : Uniform a? [] := by
  cases a? <;> simp [Uniform]

theorem uniform_append {A : Type} {a? b? : Option A} {l : List A} :
    Uniform a? (b?.toList ++ l) ↔
      (∀ b, b? = some b → ∀ a, a? = some a → a = b) ∧ Uniform (a?.or b?) l := by
  unfold Uniform
  cases a? with
  | none => simp
  | some a =>
    cases b? with
    | none => simp
    | some b =>
      simp only [Option.toList_some, List.singleton_append, Option.some.injEq, forall_eq',
        Option.some_or, List.forall_mem_cons]
      constructor
      · rintro ⟨⟨_, rfl, ha⟩, _, h⟩
        exact ⟨rfl, ⟨trivial, ha⟩, fun c hc => (h c hc).2⟩
      · rintro ⟨rfl, ⟨_, ha⟩, h⟩
        exact ⟨⟨trivial, rfl, ha⟩, ⟨rfl, trivial, ha⟩, fun c hc => ⟨(h c hc).1, h c hc⟩⟩

/-- Where the first value counts, everything is checked against it. -/
theorem checked_first {A : Type} {a? : Option A} {l : List A} :
    Checked (fun a? b => some (a?.getD b)) (fun a? b => ∀ a, a? = some a → a = b) a? l ↔
      Uniform a? l := by
  induction l generalizing a? with
  | nil => simp
  | cons b l ih =>
    have happend : b :: l = (some b).toList ++ l := rfl
    rw [checked_cons, ih, happend, uniform_append]
    cases a? <;> simp

end Checked

/-! ### Arguments -/

theorem find?_mergeArguments (merged new : List (Name × InputValue)) (x : Name) :
    ((mergeArguments merged new).find? fun a => a.1 = x) =
      (merged.find? fun a => a.1 = x).or (new.find? fun a => a.1 = x) := by
  rw [mergeArguments, List.find?_append]
  cases hx : merged.find? fun a => a.1 = x with
  | some a => rfl
  | none =>
    -- No argument of that name is left out.
    rw [Option.none_or, Option.none_or, List.find?_filter]
    congr 1
    funext a
    by_cases ha : a.1 = x
    · subst ha
      simpa using hx
    · simp [ha]

theorem argumentType?_fillIn (merged new : FieldDefinition) (x : Name) :
    (merged.fillIn new).argumentType? x = (merged.argumentType? x).or (new.argumentType? x) := by
  simp only [FieldDefinition.argumentType?, FieldDefinition.fillIn, find?_mergeArguments,
    Option.map_or]

/-- Where no argument is repeated, its type is that of the only argument of its name. -/
theorem argumentType?_eq_some_iff {f : FieldDefinition} (hf : (f.arguments.map Prod.fst).Nodup)
    {x : Name} {t : TypeRef} :
    f.argumentType? x = some t ↔ ∃ v, (x, v) ∈ f.arguments ∧ v.type = t := by
  simp only [FieldDefinition.argumentType?, Option.map_eq_some_iff, Prod.exists]
  constructor
  · rintro ⟨y, v, hv, rfl⟩
    have hy : y = x := by simpa using List.find?_some hv
    subst hy
    exact ⟨v, List.mem_of_find?_eq_some hv, rfl⟩
  · rintro ⟨v, hv, rfl⟩
    cases hfind : f.arguments.find? fun a => a.1 = x with
    | none =>
      have hnot := List.find?_eq_none.1 hfind (x, v) hv
      simp at hnot
    | some a =>
      obtain ⟨y, w⟩ := a
      have hy : y = x := by simpa using List.find?_some hfind
      subst hy
      -- The arguments make up a table, so both values are what it holds under the name.
      have hw := Table.get?_eq_some_iff (t := ⟨f.arguments, hf⟩).2 (List.mem_of_find?_eq_some hfind)
      rw [Table.get?_eq_some_iff (t := ⟨f.arguments, hf⟩).2 hv] at hw
      cases hw
      exact ⟨y, v, rfl, rfl⟩

/-! ### One field -/

namespace FieldNode

/-- Whether a declaration agrees with a field as merged so far. -/
def Agrees (f : FieldNode) (d : FieldDeclaration) : Prop :=
  match f.authority, d.external with
  | .awaited _, true => True
  | .awaited externals, false => ∀ e ∈ externals, e.2 = d.definition.type
  | .settled _, true => f.definition.type = d.definition.type
  | .settled _, false => f.definition.type = d.definition.type ∧
      ∀ a ∈ d.definition.arguments, ∀ t, f.definition.argumentType? a.1 = some t → t = a.2.type

/-- A declaration agrees with the field that it starts. -/
theorem agrees_start (d : FieldDeclaration) : (start d).Agrees d := by
  cases h : d.external <;> simp [Agrees, start, h]

theorem conflicts_eq_nil_iff {nameOf : SubgraphId → String} {type name : Name} {i : SubgraphId}
    {d : FieldDeclaration} {f : FieldNode} :
    f.conflicts nameOf type name i d = [] ↔ f.Agrees d := by
  unfold conflicts Agrees
  cases f.authority with
  | awaited externals =>
    cases d.external with
    | true => simp
    | false => simp [List.filter_eq_nil_iff]
  | settled j =>
    cases d.external with
    | true => simp
    | false =>
      simp only [List.append_eq_nil_iff, List.filterMap_eq_nil_iff, Option.map_eq_none_iff,
        FieldDefinition.argumentType?, Option.map_eq_some_iff]
      refine and_congr (by simp) (forall₂_congr fun a _ => ?_)
      rw [Option.filter_eq_none_iff]
      simp only [decide_eq_true_eq, ne_eq, not_not, Prod.forall, Prod.exists]
      constructor
      · rintro h t ⟨y, v, hv, rfl⟩
        exact h y v hv
      · intro h y v hv
        exact h _ ⟨y, v, hv, rfl⟩

variable {names : List String} {j : SubgraphId} {f : FieldNode}
  {es exts rest : List (SubgraphId × FieldDeclaration)} {b : SubgraphId × FieldDeclaration}
  {x : Name}

theorem absorb_awaited_external {xs : List (SubgraphId × TypeRef)} (hf : f.authority = .awaited xs)
    (names : List String) (i : SubgraphId) {d : FieldDeclaration} (hd : d.external = true) :
    (f.absorb names i d).definition = f.definition ∧
      (f.absorb names i d).authority = .awaited (xs ++ [(i, d.definition.type)]) := by
  simp [absorb, settle, hf, hd]

theorem absorb_awaited_base {xs : List (SubgraphId × TypeRef)} (hf : f.authority = .awaited xs)
    (names : List String) (i : SubgraphId) {d : FieldDeclaration} (hd : d.external = false) :
    (f.absorb names i d).authority = .settled i ∧
      (f.absorb names i d).definition = { d.definition with
        arguments := mergeArguments d.definition.arguments f.definition.arguments } := by
  simp [absorb, settle, hf, hd]

theorem absorb_settled (hf : f.authority = .settled j) (names : List String) (i : SubgraphId)
    (d : FieldDeclaration) : (f.absorb names i d).authority = .settled j ∧
    (f.absorb names i d).definition =
      if d.external then f.definition else f.definition.fillIn d.definition := by
  cases hd : d.external <;> simp [absorb, settle, hf, hd]

/-- External declarations that come first leave the definition as it is, and are only checked
later. -/
theorem foldl_externals (names : List String) (hexts : ∀ e ∈ exts, e.2.external = true)
    {xs : List (SubgraphId × TypeRef)} (hf : f.authority = .awaited xs) :
    (exts.foldl (fun f e => f.absorb names e.1 e.2) f).definition = f.definition ∧
    (exts.foldl (fun f e => f.absorb names e.1 e.2) f).authority =
      .awaited (xs ++ exts.map fun e => (e.1, e.2.definition.type)) ∧
    Checked (fun f e => f.absorb names e.1 e.2) (fun f e => f.Agrees e.2) f exts := by
  induction exts generalizing f xs with
  | nil => simp [hf]
  | cons e exts ih =>
    have he : e.2.external = true := hexts e List.mem_cons_self
    obtain ⟨hdef, hauth⟩ := absorb_awaited_external hf names e.1 he
    obtain ⟨hd, ha, hc⟩ := ih (fun e he => hexts e (List.mem_cons_of_mem _ he)) hauth
    refine ⟨?_, ?_, ?_, hc⟩
    · rw [List.foldl_cons, hd, hdef]
    · rw [List.foldl_cons, ha, List.append_assoc, List.map_cons, List.singleton_append]
    · simp [Agrees, hf, he]

/-- The types that declarations which are not external give an argument. -/
def argumentTypes (es : List (SubgraphId × FieldDeclaration)) (x : Name) : List TypeRef :=
  es.filterMap fun e => if e.2.external then none else e.2.definition.argumentType? x

theorem mem_argumentTypes_iff {t : TypeRef} : t ∈ argumentTypes es x ↔
    ∃ e ∈ es, e.2.external = false ∧ e.2.definition.argumentType? x = some t := by
  simp [argumentTypes]

/-- Once the definition is settled, its type stays, and arguments are only added. -/
theorem foldl_settled (hf : f.authority = .settled j) :
    (rest.foldl (fun f e => f.absorb names e.1 e.2) f).definition.type = f.definition.type ∧
    ∀ x, (rest.foldl (fun f e => f.absorb names e.1 e.2) f).definition.argumentType? x =
      (f.definition.argumentType? x).or (argumentTypes rest x).head? := by
  induction rest generalizing f with
  | nil => simp [argumentTypes]
  | cons e rest ih =>
    obtain ⟨hauth, hdef⟩ := absorb_settled hf names e.1 e.2
    obtain ⟨htype, harg⟩ := ih hauth
    simp only [List.foldl_cons, htype, harg, hdef, argumentTypes, List.filterMap_cons]
    cases he : e.2.external with
    | true => simp
    | false =>
      refine ⟨rfl, fun x => ?_⟩
      simp only [Bool.false_eq_true, if_false, argumentType?_fillIn]
      cases e.2.definition.argumentType? x <;> simp

theorem argumentTypes_cons (e : SubgraphId × FieldDeclaration)
    (es : List (SubgraphId × FieldDeclaration)) (x : Name) :
    argumentTypes (e :: es) x =
      (if e.2.external then none else e.2.definition.argumentType? x).toList ++
        argumentTypes es x := by
  rw [argumentTypes, List.filterMap_cons]
  cases (if e.2.external then none else e.2.definition.argumentType? x) <;> rfl

/-- Declarations agree with a settled definition when they have its type, and when the arguments of
those that are not external have the types that were first given to them. -/
theorem checked_settled_iff (hf : f.authority = .settled j)
    (hargs : ∀ e ∈ rest, (e.2.definition.arguments.map Prod.fst).Nodup) :
    Checked (fun f e => f.absorb names e.1 e.2) (fun f e => f.Agrees e.2) f rest ↔
      (∀ e ∈ rest, f.definition.type = e.2.definition.type) ∧
      ∀ x, Uniform (f.definition.argumentType? x) (argumentTypes rest x) := by
  induction rest generalizing f with
  | nil => simp [argumentTypes]
  | cons e rest ih =>
    obtain ⟨hauth, hdef⟩ := absorb_settled hf names e.1 e.2
    rw [checked_cons, ih hauth fun e he => hargs e (List.mem_cons_of_mem _ he), hdef,
      List.forall_mem_cons]
    simp only [Agrees, hf, argumentTypes_cons]
    cases he : e.2.external with
    | true => simp [and_assoc]
    | false =>
      have hnodup := hargs e List.mem_cons_self
      -- An argument that is new to the definition is added to it, so from here on it has the
      -- type of its first declaration.
      have hnew : (∀ a ∈ e.2.definition.arguments, ∀ t,
          f.definition.argumentType? a.1 = some t → t = a.2.type) ↔
          ∀ x t, e.2.definition.argumentType? x = some t →
            ∀ a, f.definition.argumentType? x = some a → a = t := by
        simp only [argumentType?_eq_some_iff hnodup, Prod.forall]
        constructor
        · rintro h x t ⟨v, hv, rfl⟩ a ha
          exact h x v hv a ha
        · intro h x v hv t ht
          exact h x _ ⟨v, hv, rfl⟩ t ht
      have htype : (f.definition.fillIn e.2.definition).type = f.definition.type := rfl
      simp only [Bool.false_eq_true, if_false, argumentType?_fillIn, uniform_append, forall_and,
        hnew, htype]
      tauto

/-- The declarations of a field, those before the first that is not external told apart. -/
structure Split (es exts : List (SubgraphId × FieldDeclaration)) (b : SubgraphId × FieldDeclaration)
    (rest : List (SubgraphId × FieldDeclaration)) : Prop where
  eq : es = exts ++ b :: rest
  external : ∀ e ∈ exts, e.2.external = true
  base : b.2.external = false

theorem Split.base_mem (hs : Split es exts b rest) : b ∈ es := by
  rw [hs.eq]
  simp

theorem exists_split (h : ∃ e ∈ es, e.2.external = false) :
    ∃ exts b rest, Split es exts b rest := by
  induction es with
  | nil => simp at h
  | cons e es ih =>
    cases he : e.2.external with
    | false => exact ⟨[], e, es, rfl, by simp, he⟩
    | true =>
      have hes : ∃ e ∈ es, e.2.external = false := by simpa [he] using h
      obtain ⟨exts, b, rest, hs⟩ := ih hes
      refine ⟨e :: exts, b, rest, by rw [hs.eq]; rfl, ?_, hs.base⟩
      exact List.forall_mem_cons.2 ⟨he, hs.external⟩

theorem exists_split_of_find? (h : (es.find? fun e => !e.2.external) = some b) :
    ∃ exts rest, Split es exts b rest := by
  obtain ⟨hbase, exts, rest, rfl, hexts⟩ := List.find?_eq_some_iff_append.1 h
  exact ⟨exts, rest, rfl, by simpa using hexts, by simpa using hbase⟩

/-- The type of an argument once the definition is settled: what the settling declaration says, or
else what the first of the external declarations before it says. -/
def settledArgument? (exts : List (SubgraphId × FieldDeclaration))
    (b : SubgraphId × FieldDeclaration) (x : Name) : Option TypeRef :=
  (b.2.definition.argumentType? x).or (exts.head?.bind fun e => e.2.definition.argumentType? x)

/-- What counts of what declarations say about the type of an argument, the first of it first. -/
def said (exts : List (SubgraphId × FieldDeclaration)) (b : SubgraphId × FieldDeclaration)
    (rest : List (SubgraphId × FieldDeclaration)) (x : Name) : List TypeRef :=
  (settledArgument? exts b x).toList ++ argumentTypes rest x

theorem head?_said {x : Name} : (said exts b rest x).head? =
    (settledArgument? exts b x).or (argumentTypes rest x).head? := by
  unfold said
  cases settledArgument? exts b x <;> rfl

/-- What declarations say that are not external all counts. -/
theorem Split.mem_said (hs : Split es exts b rest) {e : SubgraphId × FieldDeclaration}
    (he : e ∈ es) (hbase : e.2.external = false) {x : Name} {t : TypeRef}
    (ht : e.2.definition.argumentType? x = some t) : t ∈ said exts b rest x := by
  rw [hs.eq, List.mem_append, List.mem_cons] at he
  rw [said, List.mem_append]
  rcases he with he | rfl | he
  · rw [hs.external e he] at hbase
    cases hbase
  · exact .inl (by simp [settledArgument?, ht])
  · exact .inr (mem_argumentTypes_iff.2 ⟨e, he, hbase, ht⟩)

/-- Whatever counts is said by a declaration that is not external, or else by an external one about
an argument that the settling one lacks. -/
theorem Split.exists_of_mem_said (hs : Split es exts b rest) {x : Name} {t : TypeRef}
    (ht : t ∈ said exts b rest x) :
    ∃ e ∈ es, e.2.definition.argumentType? x = some t ∧
      (e.2.external = true → b.2.definition.argumentType? x = none) := by
  rw [said, List.mem_append, Option.mem_toList, settledArgument?, Option.or_eq_some_iff,
    Option.bind_eq_some_iff] at ht
  rcases ht with (hbx | ⟨hbx, e, he, hex⟩) | ht
  · refine ⟨b, hs.base_mem, hbx, fun h => ?_⟩
    rw [hs.base] at h
    cases h
  · have hmem : e ∈ es := by
      rw [hs.eq]
      exact List.mem_append_left _ (List.mem_of_head? he)
    exact ⟨e, hmem, hex, fun _ => hbx⟩
  · obtain ⟨e, he, hext, hex⟩ := mem_argumentTypes_iff.1 ht
    refine ⟨e, ?_, hex, fun h => ?_⟩
    · rw [hs.eq]
      exact List.mem_append_right _ (List.mem_cons_of_mem _ he)
    · rw [hext] at h
      cases h

/-- What the declaration that settles a field agrees with, and what it leaves. -/
theorem absorb_base (names : List String) (hexts : ∀ e ∈ exts, e.2.external = true)
    (hb : b.2.external = false) {h : SubgraphId × FieldDeclaration}
    (hh : (exts ++ b :: rest).head? = some h) :
    ∃ f : FieldNode, exts.foldl (fun f e => f.absorb names e.1 e.2) (start h.2) = f ∧
      Checked (fun f e => f.absorb names e.1 e.2) (fun f e => f.Agrees e.2) (start h.2) exts ∧
      (f.Agrees b.2 ↔ ∀ e ∈ exts, e.2.definition.type = b.2.definition.type) ∧
      (f.absorb names b.1 b.2).authority = .settled b.1 ∧
      (f.absorb names b.1 b.2).definition.type = b.2.definition.type ∧
      ∀ x, (f.absorb names b.1 b.2).definition.argumentType? x = settledArgument? exts b x := by
  have hstart : (start h.2).authority = .awaited [] := rfl
  obtain ⟨hdef, hauth, hcheck⟩ := foldl_externals names hexts hstart
  refine ⟨_, rfl, hcheck, ?_, ?_⟩
  · simp only [Agrees, hauth, hb, List.nil_append, List.forall_mem_map]
  · obtain ⟨ha, hd⟩ := absorb_awaited_base hauth names b.1 hb
    refine ⟨ha, by rw [hd], fun x => ?_⟩
    have hfirst : (start h.2).definition = h.2.definition := rfl
    rw [hd, hdef, hfirst, FieldDefinition.argumentType?, find?_mergeArguments, Option.map_or]
    show (b.2.definition.argumentType? x).or (h.2.definition.argumentType? x) = _
    cases exts with
    | nil =>
      -- The settling declaration is the first one, and nothing comes before it.
      simp only [List.nil_append, List.head?_cons, Option.some.injEq] at hh
      subst hh
      simp [settledArgument?]
    | cons e exts =>
      simp only [List.cons_append, List.head?_cons, Option.some.injEq] at hh
      subst hh
      rfl

/-- The field that declarations make up has the type of the first that is not external, and of each
argument the type that is first given to it, where of the external declarations only the first one
of all counts, and only if it comes first. -/
theorem exists_of_split (names : List String) (hs : Split es exts b rest) :
    ∃ f, ofDeclarations? names es = some f ∧ f.definition.type = b.2.definition.type ∧
      ∀ x, f.definition.argumentType? x = (said exts b rest x).head? := by
  obtain ⟨h, hh⟩ : ∃ h, (exts ++ b :: rest).head? = some h := by cases exts <;> simp
  obtain ⟨f, hf, _, _, ha, ht, hx⟩ := absorb_base names hs.external hs.base hh
  have hfold : ofDeclarations? names es =
      some (rest.foldl (fun f e => f.absorb names e.1 e.2) (f.absorb names b.1 b.2)) := by
    rw [ofDeclarations?, hs.eq, hh, Option.map_some, List.foldl_append, List.foldl_cons, hf]
  refine ⟨_, hfold, ?_, fun x => ?_⟩
  · rw [(foldl_settled ha).1, ht]
  · rw [(foldl_settled ha).2, hx, head?_said]

/-- **Agreement on a field**: every declaration has the type of the first that is not external, and
the arguments of the declarations that are not external have the types that were first given to
them. -/
theorem checked_iff_of_split (hs : Split es exts b rest)
    (hargs : ∀ e ∈ es, (e.2.definition.arguments.map Prod.fst).Nodup) :
    (∀ h, es.head? = some h →
      Checked (fun f e => f.absorb names e.1 e.2) (fun f e => f.Agrees e.2) (start h.2) es) ↔
      (∀ e ∈ es, e.2.definition.type = b.2.definition.type) ∧
      ∀ x, Uniform (settledArgument? exts b x) (argumentTypes rest x) := by
  obtain ⟨h, hh⟩ : ∃ h, (exts ++ b :: rest).head? = some h := by cases exts <;> simp
  obtain ⟨f, hf, hcheck, hagree, ha, ht, hx⟩ := absorb_base names hs.external hs.base hh
  have hrest : ∀ e ∈ rest, (e.2.definition.arguments.map Prod.fst).Nodup := by
    intro e he
    refine hargs e ?_
    rw [hs.eq]
    simp [he]
  simp only [hs.eq, hh, Option.some.injEq, forall_eq', checked_append, checked_cons, hf, hagree,
    checked_settled_iff ha hrest, ht, hx, List.forall_mem_append, List.forall_mem_cons,
    eq_comm (a := b.2.definition.type)]
  tauto

end FieldNode

end Federation
