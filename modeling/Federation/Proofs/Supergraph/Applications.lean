import Federation.Proofs.Graph.FillIn
import Federation.Proofs.Supergraph.Closure

/-!
# Directives that may be applied once

Of the directives that a supergraph keeps, `@tag` alone may be applied to one place more than once.
The others are not always applied once only.  The merge leaves out what it has gathered already,
where an application with other arguments is another one; and where it takes a declaration over as
it stands, it takes over what is repeated there.

`Gathers` says which declarations each part of a supergraph has its directives from, and
`IsRepeated` when a directive ends up there more than once.  So a batch has a supergraph in which no
such directive is repeated exactly when it gathers none that is (`appliedOnce_iff`).
-/

namespace Federation

/-! ### Applied directives -/

/-- The directives that a supergraph keeps and that may be applied to one place only once. -/
def nonRepeatableNames : List Name := persistedNames.filter fun n => n ≠ tagName

/-- The directives applied to the parts of a body, part by part. -/
def TypeBody.applications (b : TypeBody) : List (List Directive) :=
  b.fields.flatMap (fun f => f.2.directives :: f.2.arguments.map fun a => a.2.directives) ++
    b.values.map (fun v => v.2.directives) ++ b.inputs.map fun v => v.2.directives

/-- The directives applied in a schema, list by list: to types and their parts, and to the arguments
of directives. -/
def Supergraph.applications (s : Supergraph) : List (List Directive) :=
  s.version.directiveDefinitions.flatMap (fun d => d.arguments.map fun a => a.2.directives) ++
    s.types.flatMap fun t => t.block.directives :: t.block.body.applications

/-- Whether the directives that may be applied only once are, in all of some lists. -/
def AppliedOnce (ls : List (List Directive)) : Prop :=
  ∀ l ∈ ls, ∀ n ∈ nonRepeatableNames, (l.countP fun x => x.name = n) ≤ 1

instance (ls : List (List Directive)) : Decidable (AppliedOnce ls) :=
  inferInstanceAs (Decidable (∀ l ∈ ls, ∀ n ∈ nonRepeatableNames, _))

theorem TypeBody.mem_applications_iff {b : TypeBody} {l : List Directive} :
    l ∈ b.applications ↔
      (∃ m f, (m, f) ∈ b.fields ∧
        (l = f.directives ∨ ∃ x v, (x, v) ∈ f.arguments ∧ l = v.directives)) ∨
      (∃ m v, (m, v) ∈ b.values ∧ l = v.directives) ∨
      ∃ m v, (m, v) ∈ b.inputs ∧ l = v.directives := by
  simp only [applications, List.mem_append, List.mem_flatMap, List.mem_cons, List.mem_map,
    Prod.exists, or_assoc, eq_comm (a := l)]

/-! ### Repetitions in what is gathered -/

/-- Whether a directive comes up more than once among some that are gathered: the first list
repeats it, or it is applied in two ways. -/
def IsRepeated (n : Name) (ls : List (List Directive)) : Prop :=
  1 < ((ls.headD []).countP fun x => x.name = n) ∨
    ∃ x ∈ ls.flatten, ∃ y ∈ ls.flatten, x.name = n ∧ y.name = n ∧ x ≠ y

section Count

variable {α : Type} [DecidableEq α] {p : α → Bool}

theorem countP_le_countP_appendNew (xs ys : List α) :
    xs.countP p ≤ (appendNew xs ys).countP p := by
  rw [appendNew_eq, List.countP_append]
  exact Nat.le_add_right _ _

omit [DecidableEq α] in
/-- Two different items are two. -/
theorem one_lt_countP {xs : List α} {x y : α} (hx : x ∈ xs) (hy : y ∈ xs) (hpx : p x = true)
    (hpy : p y = true) (hne : x ≠ y) : 1 < xs.countP p := by
  have hnodup : [x, y].Nodup := by simpa using hne
  have hsub : [x, y] ⊆ xs.filter p := by
    intro z hz
    rcases List.mem_cons.1 hz with rfl | hz
    · exact List.mem_filter.2 ⟨hx, hpx⟩
    · obtain rfl := List.mem_singleton.1 hz
      exact List.mem_filter.2 ⟨hy, hpy⟩
  rw [List.countP_eq_length_filter]
  exact hnodup.length_le_of_subset hsub

/-- Where all items of a sort are the same and there is at most one before, there is still at most
one after what is new has been appended. -/
theorem countP_appendNew_le_one {xs ys : List α} (hxs : xs.countP p ≤ 1)
    (hsame : ∀ x ∈ xs ++ ys, ∀ y ∈ xs ++ ys, p x = true → p y = true → x = y) :
    (appendNew xs ys).countP p ≤ 1 := by
  induction ys generalizing xs with
  | nil => exact hxs
  | cons b ys ih =>
    rw [appendNew]
    split
    · have hsub : ∀ z ∈ xs ++ ys, z ∈ xs ++ b :: ys := fun z hz =>
        List.mem_append.2 ((List.mem_append.1 hz).imp_right (List.mem_cons_of_mem b))
      exact ih hxs fun x hx y hy => hsame x (hsub x hx) y (hsub y hy)
    · rename_i hb
      refine ih ?_ (by simpa using hsame)
      by_cases hpb : p b = true
      · -- An item of the same sort would be this one, which is new.
        have hnone : xs.countP p = 0 := List.countP_eq_zero.2 fun x hx hpx =>
          hb (hsame x (by simp [hx]) b (by simp) hpx hpb ▸ hx)
        rw [List.countP_append, hnone, Nat.zero_add]
        exact List.countP_le_length
      · simpa [List.countP_append, hpb] using hxs

end Count

theorem one_lt_countP_gathered_iff {n : Name} {ls : List (List Directive)} :
    1 < ((gathered ls).countP fun x => x.name = n) ↔ IsRepeated n ls := by
  constructor
  · intro h
    by_contra hnot
    simp only [IsRepeated, not_or, Nat.not_lt, not_exists, not_and, not_not] at hnot
    obtain ⟨hfirst, hsame⟩ := hnot
    refine absurd h (Nat.not_lt.2 ?_)
    cases ls with
    | nil => exact Nat.zero_le _
    | cons xs rest =>
      refine countP_appendNew_le_one hfirst fun x hx y hy hpx hpy => ?_
      exact hsame x hx y hy (of_decide_eq_true hpx) (of_decide_eq_true hpy)
  · rintro (h | ⟨x, hx, y, hy, hxn, hyn, hne⟩)
    · cases ls with
      | nil => simp at h
      | cons xs rest => exact Nat.lt_of_lt_of_le h (countP_le_countP_appendNew _ _)
    · exact one_lt_countP (mem_gathered.2 hx) (mem_gathered.2 hy) (decide_eq_true hxn)
        (decide_eq_true hyn) hne

/-! ### What a batch gathers -/

/-- The lists of directives that are gathered for a type of a batch and for its parts. -/
inductive Gathers (schemas : List Schema) (n : Name) : List (List Directive) → Prop
  /-- For the type, those of all declarations. -/
  | type {d : TypeDeclaration} (hd : Declares schemas n d) :
      Gathers schemas n ([] :: (declarationsOf schemas n).map fun e => e.2.directives)
  /-- For a field, those of the declarations that are not external. -/
  | field {d : TypeDeclaration} {m : Name} (hd : Declares schemas n d)
      (hkind : d.kind.hasFields = true)
      (hm : TypeNode.fieldsOf (declarationsOf schemas n) m ≠ []) :
      Gathers schemas n ((FieldNode.bases (TypeNode.fieldsOf (declarationsOf schemas n) m)).map
        fun e => e.2.definition.directives)
  /-- For an argument, those of the only declaration that it is taken from. -/
  | argument {d : TypeDeclaration} {m x : Name} {v : InputValue} (hd : Declares schemas n d)
      (hkind : d.kind.hasFields = true)
      (hv : FieldNode.argumentOf? (TypeNode.fieldsOf (declarationsOf schemas n) m) x = some v) :
      Gathers schemas n [v.directives]
  /-- For an enum value, those of all declarations of the value. -/
  | value {d : TypeDeclaration} {m : Name} (hd : Declares schemas n d) (hkind : d.kind = .enum)
      (hm : TypeNode.valueDirectives (declarationsOf schemas n) m ≠ []) :
      Gathers schemas n (TypeNode.valueDirectives (declarationsOf schemas n) m)
  /-- For an input field, those of all declarations of the field. -/
  | input {d : TypeDeclaration} {m : Name} (hd : Declares schemas n d)
      (hkind : d.kind = .inputObject)
      (hm : TypeNode.inputDirectives (declarationsOf schemas n) m ≠ []) :
      Gathers schemas n (TypeNode.inputDirectives (declarationsOf schemas n) m)

/-- Whether a batch gathers a directive more than once that may be applied only once. -/
def HasRepeat (schemas : List Schema) : Prop :=
  ∃ n ls, Gathers schemas n ls ∧ ∃ k ∈ nonRepeatableNames, IsRepeated k ls

section Batch

variable {schemas : List Schema} (hn : Normalized schemas) (hc : Concordant schemas) {n : Name}

include hn hc

/-- A field and its arguments are put together from the declarations of the field. -/
theorem exists_gathered_of_field {m : Name}
    (hm : TypeNode.fieldsOf (declarationsOf schemas n) m ≠ []) : ∃ node : FieldNode,
      FieldNode.ofDeclarations? (schemas.map (·.name))
        (TypeNode.fieldsOf (declarationsOf schemas n) m) = some node ∧
      node.definition.directives =
        gathered ((FieldNode.bases (TypeNode.fieldsOf (declarationsOf schemas n) m)).map
          fun e => e.2.definition.directives) ∧
      ∀ x v, (x, v) ∈ node.definition.arguments ↔
        FieldNode.argumentOf? (TypeNode.fieldsOf (declarationsOf schemas n) m) x = some v := by
  obtain ⟨e, he⟩ := List.exists_mem_of_ne_nil _ hm
  obtain ⟨b, hb, hext⟩ := hc.base (declaresField_iff.2 ⟨e.1, he⟩)
  obtain ⟨i, hi⟩ := declaresField_iff.1 hb
  obtain ⟨exts, b, rest, hs⟩ := FieldNode.exists_split ⟨_, hi, hext⟩
  obtain ⟨node, hnode, _⟩ := FieldNode.exists_of_split (schemas.map (·.name)) hs
  have hnodup := FieldNode.nodup_arguments (fun e he => hn.arguments_of_mem he) hnode
  refine ⟨node, hnode, FieldNode.directives_of_split hs hnode, fun x v => ?_⟩
  rw [← FieldNode.argument?_of_split hs hnode, FieldDefinition.argument?_eq_some_iff hnodup]

/-- **What is applied to a type and its parts** are the gathered lists. -/
theorem mem_applications_ofDeclarations_iff {d : TypeDeclaration} (hd : Declares schemas n d)
    {l : List Directive} :
    (l = (TypeNode.ofDeclarations (schemas.map (·.name)) d.kind
        (declarationsOf schemas n)).directives ∨
      l ∈ (TypeNode.ofDeclarations (schemas.map (·.name)) d.kind
        (declarationsOf schemas n)).body.applications) ↔
      ∃ ls, Gathers schemas n ls ∧ l = gathered ls := by
  rw [TypeBody.mem_applications_iff]
  simp only [TypeNode.mem_fields_body_iff, TypeNode.mem_values_body_iff,
    TypeNode.mem_inputs_body_iff, TypeNode.kind_ofDeclarations, TypeNode.get?_fields]
  -- A list is gathered for the type, a field, one of its arguments, a value or an input: the cases
  -- of `Gathers`, in the order in which a body lists them.
  constructor
  · rintro (rfl | ⟨m, _, ⟨hkind, node, hnode, rfl⟩, hl⟩ | ⟨m, v, ⟨hkind, hv⟩, rfl⟩ |
      ⟨m, _, ⟨hkind, node, hnode, rfl⟩, rfl⟩)
    · exact ⟨_, .type hd, TypeNode.directives_eq⟩
    · have hm : TypeNode.fieldsOf (declarationsOf schemas n) m ≠ [] := by
        intro hm
        rw [hm] at hnode
        cases hnode
      obtain ⟨node', hnode', hdirectives, harguments⟩ := exists_gathered_of_field hn hc hm
      obtain rfl := Option.some.inj (hnode.symm.trans hnode')
      rcases hl with rfl | ⟨x, v, hv, rfl⟩
      · exact ⟨_, .field hd hkind hm, hdirectives⟩
      · exact ⟨_, .argument hd hkind ((harguments x v).1 hv), rfl⟩
    · obtain ⟨hm, hgathered⟩ := TypeNode.exists_get?_values_iff.1 ⟨v, hv, rfl⟩
      exact ⟨_, .value hd hkind hm, hgathered⟩
    · obtain ⟨hm, hgathered⟩ := TypeNode.exists_get?_inputs_iff.1 ⟨node, hnode, rfl⟩
      exact ⟨_, .input hd hkind hm, hgathered⟩
  · rintro ⟨_, hls, rfl⟩
    cases hls with
    | type => exact .inl TypeNode.directives_eq.symm
    | field hd' hkind hm =>
      obtain ⟨node, hnode, hdirectives, _⟩ := exists_gathered_of_field hn hc hm
      exact .inr (.inl ⟨_, _, ⟨hc.kind hd' hd ▸ hkind, node, hnode, rfl⟩, .inl hdirectives.symm⟩)
    | @argument d' m x v hd' hkind hv =>
      have hm : TypeNode.fieldsOf (declarationsOf schemas n) m ≠ [] := by
        intro hm
        rw [hm] at hv
        cases hv
      obtain ⟨node, hnode, _, harguments⟩ := exists_gathered_of_field hn hc hm
      exact .inr (.inl ⟨_, _, ⟨hc.kind hd' hd ▸ hkind, node, hnode, rfl⟩,
        .inr ⟨x, v, (harguments x v).2 hv, rfl⟩⟩)
    | @value d' m hd' hkind hm =>
      obtain ⟨v, hv, hdirectives⟩ := TypeNode.exists_get?_values_iff.2 ⟨hm, rfl⟩
      exact .inr (.inr (.inl ⟨m, v, ⟨hc.kind hd' hd ▸ hkind, hv⟩, hdirectives⟩))
    | @input d' m hd' hkind hm =>
      obtain ⟨node, hnode, hdirectives⟩ := TypeNode.exists_get?_inputs_iff.2 ⟨hm, rfl⟩
      exact .inr (.inr (.inr ⟨m, _, ⟨hc.kind hd' hd ▸ hkind, node, hnode, rfl⟩, hdirectives⟩))

/-- What is applied in the types of the supergraph of a batch is what the batch gathers. -/
theorem exists_type_applications_iff {l : List Directive} :
    (∃ t ∈ (Supergraph.ofGraph (.ofSchemas schemas)).types,
        l ∈ t.block.directives :: t.block.body.applications) ↔
      ∃ n ls, Gathers schemas n ls ∧ l = gathered ls := by
  constructor
  · rintro ⟨_, hdef, hl⟩
    obtain ⟨n, t, ht, rfl⟩ := Supergraph.mem_types_ofGraph_iff.1 hdef
    obtain ⟨d, hd⟩ := isSome_get?_ofSchemas_iff.1 (Option.isSome_iff_exists.2 ⟨t, ht⟩)
    obtain rfl := Option.some.inj (ht.symm.trans (exists_get?_ofSchemas hc.kind hd))
    exact ⟨n, (mem_applications_ofDeclarations_iff hn hc hd).1 (List.mem_cons.1 hl)⟩
  · rintro ⟨n, ls, hls, hl⟩
    obtain ⟨d, hd⟩ : ∃ d, Declares schemas n d := by cases hls <;> exact ⟨_, ‹_›⟩
    refine ⟨_, Supergraph.mem_types_ofGraph_iff.2 ⟨n, _, exists_get?_ofSchemas hc.kind hd, rfl⟩, ?_⟩
    exact List.mem_cons.2 ((mem_applications_ofDeclarations_iff hn hc hd).2 ⟨ls, hls, hl⟩)

end Batch

/-! ### Composed supergraphs -/

theorem directives_of_mem_directiveDefinitions : ∀ (version : FederationVersion),
    ∀ d ∈ version.directiveDefinitions, ∀ a ∈ d.arguments, a.2.directives = []
  | .v1 => by decide
  | .v2 => by decide

/-- **When directives are applied once**: in the supergraph of a batch that composes, each directive
that may be applied to one place only once is applied at most once everywhere, exactly if the batch
gathers none of them more than once for any type, field, argument, enum value or input field. -/
theorem appliedOnce_iff {options : Options} {batch : List Subgraph} {s : Supergraph}
    (hs : compose options batch = .ok s) :
    AppliedOnce s.applications ↔ ¬ HasRepeat (contributionsOf batch) := by
  obtain ⟨schemas, hok, hconflicts, _, rfl⟩ := compose_eq_ok_iff.1 hs
  have hn := normalized_of_schemas? hok
  have hc := concordant_of_conflicts_eq_nil hn hconflicts
  rw [contributionsOf_eq hok] at hn hc
  rw [graphOf, contributionsOf_eq hok]
  have htypes : ∀ {l}, (∃ t ∈ (Supergraph.ofGraph (.ofSchemas (contributionsOf batch))).types,
      l ∈ t.block.directives :: t.block.body.applications) ↔ _ :=
    exists_type_applications_iff hn hc
  constructor
  · rintro h ⟨n, ls, hls, k, hk, hrepeated⟩
    obtain ⟨t, ht, hl⟩ := htypes.2 ⟨n, ls, hls, rfl⟩
    have hle := h _ (List.mem_append_right _ (List.mem_flatMap.2 ⟨t, ht, hl⟩)) k hk
    exact absurd (one_lt_countP_gathered_iff.2 hrepeated) (Nat.not_lt.2 hle)
  · intro h l hl k hk
    rw [Supergraph.applications, List.mem_append, List.mem_flatMap, List.mem_flatMap] at hl
    rcases hl with ⟨d, hd, hl⟩ | hl
    · obtain ⟨a, ha, rfl⟩ := List.mem_map.1 hl
      rw [directives_of_mem_directiveDefinitions _ d hd a ha]
      exact Nat.zero_le _
    · obtain ⟨n, ls, hls, rfl⟩ := htypes.1 hl
      by_contra hlt
      exact h ⟨n, ls, hls, k, hk, one_lt_countP_gathered_iff.1 (Nat.lt_of_not_le hlt)⟩

theorem exists_of_any_toOption {r : Except (List CompositionError) Supergraph}
    {p : Supergraph → Bool} (h : r.toOption.any p = true) : ∃ s, r = .ok s ∧ p s = true := by
  cases r with
  | error errors => simp [Except.toOption] at h
  | ok s => exact ⟨s, rfl, by simpa [Except.toOption] using h⟩

/-- Two subgraphs that deprecate the same field for the same reason, and label it. -/
def labelledDeprecationBatch : List Subgraph := Subgraph.batchOfTexts
  [("a", "type Query \x7b a: Int @deprecated(reason: \"x\") @tag(name: \"s\") \x7d"),
    ("b", "type Query \x7b a: Int @tag(name: \"t\") @deprecated(reason: \"x\") \x7d")]

/-- They compose, the deprecation is applied once, and nothing is gathered more than once that may
be applied only once. -/
theorem appliedOnce_iff_labelledDeprecation :
    ∃ s, compose {} labelledDeprecationBatch = .ok s ∧ AppliedOnce s.applications ∧
      ¬ HasRepeat (contributionsOf labelledDeprecationBatch) := by
  have honce : (compose {} labelledDeprecationBatch).toOption.any
      (fun s => AppliedOnce s.applications) = true := by decide +kernel
  obtain ⟨s, hs, h⟩ := exists_of_any_toOption honce
  have h := of_decide_eq_true h
  exact ⟨s, hs, h, (appliedOnce_iff hs).1 h⟩

/-! ### Directives that end up twice -/

/-- A subgraph that hides a type twice, and a field of it twice. -/
def twiceHiddenBatch : List Subgraph := Subgraph.batchOfTexts
  [("a", "type Query @inaccessible @inaccessible \x7b a: Int @inaccessible @inaccessible \x7d")]

/-- Two subgraphs that deprecate the same field for different reasons. -/
def twiceDeprecatedBatch : List Subgraph := Subgraph.batchOfTexts
  [("a", "type Query \x7b a: Int @deprecated(reason: \"x\") \x7d"),
    ("b", "type Query \x7b a: Int @deprecated(reason: \"y\") \x7d")]

/-- The subgraph composes, and its field is hidden twice in the supergraph, unlike its type.  The
two subgraphs apply every directive once each; they compose, and in their supergraph the field is
deprecated twice. -/
theorem not_appliedOnce_twiceHidden :
    (∃ s, compose {} twiceHiddenBatch = .ok s ∧ ¬ AppliedOnce s.applications ∧
      AppliedOnce (s.types.map (·.block.directives))) ∧
    (∀ s ∈ twiceDeprecatedBatch, ∃ t, compose {} [s] = .ok t ∧ AppliedOnce t.applications) ∧
    ∃ s, compose {} twiceDeprecatedBatch = .ok s ∧ ¬ AppliedOnce s.applications := by
  have hhidden : (compose {} twiceHiddenBatch).toOption.any (fun s =>
      !decide (AppliedOnce s.applications) && AppliedOnce (s.types.map (·.block.directives))) =
        true := by decide +kernel
  have heach : ∀ s ∈ twiceDeprecatedBatch,
      (compose {} [s]).toOption.any (fun t => AppliedOnce t.applications) = true := by
    decide +kernel
  have hboth : (compose {} twiceDeprecatedBatch).toOption.any
      (fun s => !decide (AppliedOnce s.applications)) = true := by decide +kernel
  refine ⟨?_, fun s hs => ?_, ?_⟩
  · obtain ⟨s, hs, h⟩ := exists_of_any_toOption hhidden
    exact ⟨s, hs, by simpa using h⟩
  · obtain ⟨t, ht, h⟩ := exists_of_any_toOption (heach s hs)
    exact ⟨t, ht, of_decide_eq_true h⟩
  · obtain ⟨s, hs, h⟩ := exists_of_any_toOption hboth
    exact ⟨s, hs, by simpa using h⟩

end Federation
