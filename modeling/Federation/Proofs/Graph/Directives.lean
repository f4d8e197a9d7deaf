import Federation.Composition
import Federation.Proofs.Graph.FillIn

/-!
# Whether directives are united

A type of the graph and each of its parts (`Element`) should have those directives applied that some
declaration which counts for it applies, each once.  A declaration of a field counts for the field
and its arguments unless it is external.

What the merge does instead is to gather some lists (`TypeNode.sources`): the first of them as it
stands, and of the others what is new (`TypeNode.directivesAt_ofDeclarations_iff`).  For types this
is the union.  For the other elements the first list may repeat something (`TypeNode.Repeats`).  A
field or an argument may be taken from an external declaration, because no other one has it; and an
argument is taken from one declaration although another one may apply more to it
(`TypeNode.Strays`).  Nothing else goes wrong (`unitesDirectives_iff`).
-/

namespace Federation

/-- A type or a part of it, as something that directives are applied to. -/
inductive Element where
  | type
  | field (name : Name)
  | argument (field name : Name)
  | value (name : Name)
  | input (name : Name)

/-! ### What is applied -/

/-- The directives that a declaration applies to an element, if it declares it. -/
def TypeDeclaration.directivesAt (d : TypeDeclaration) : Element → Option (List Directive)
  | .type => some d.directives
  | .field m => (d.fields.get? m).map (·.definition.directives)
  | .argument m x => ((d.fields.get? m).bind (·.definition.argument? x)).map (·.directives)
  | .value m => (d.values.get? m).map (·.directives)
  | .input m => (d.inputs.get? m).map (·.directives)

/-- Whether what a declaration applies to an element counts: not if it declares the field
externally. -/
def TypeDeclaration.counts (d : TypeDeclaration) : Element → Bool
  | .field m | .argument m _ => (d.fields.get? m).all fun f => !f.external
  | .type | .value _ | .input _ => true

/-- The directives of an element of a merged type, if the type has it. -/
def TypeNode.directivesAt (t : TypeNode) : Element → Option (List Directive)
  | .type => some t.directives
  | .field m => (t.fields.get? m).map (·.definition.directives)
  | .argument m x => ((t.fields.get? m).bind (·.definition.argument? x)).map (·.directives)
  | .value m => (t.values.get? m).map (·.directives)
  | .input m => (t.inputs.get? m).map (·.definition.directives)

/-- Some declaration that counts for an element applies a directive to it. -/
def AppliedAt (ds : List (SubgraphId × TypeDeclaration)) (e : Element) (x : Directive) : Prop :=
  ∃ d ∈ ds, d.2.counts e = true ∧ ∃ xs, d.2.directivesAt e = some xs ∧ x ∈ xs

/-- Whether a declaration applies a directive to an element can be computed. -/
instance (ds : List (SubgraphId × TypeDeclaration)) (e : Element) (x : Directive) :
    Decidable (AppliedAt ds e x) :=
  decidable_of_iff (∃ d ∈ ds, d.2.counts e = true ∧ x ∈ (d.2.directivesAt e).getD []) <|
    exists_congr fun d => and_congr_right fun _ => and_congr_right fun _ => by
      cases d.2.directivesAt e <;> simp

/-! ### What is contributed -/

theorem argument?_contribution (f : FieldDefinition) (x : Name) :
    f.contribution.argument? x = (f.argument? x).map InputValue.contribution := by
  show ((f.arguments.map fun a => (a.1, a.2.contribution)).find? fun a => a.1 = x).map Prod.snd = _
  rw [List.find?_map, FieldDefinition.argument?, Option.map_map, Option.map_map]
  rfl

/-- Of what a subgraph applies to an element it contributes the directives that a supergraph
keeps. -/
theorem TypeDeclaration.directivesAt_contribution (v : FederationVersion) (d : TypeDeclaration)
    (e : Element) :
    (d.contribution v).directivesAt e = (d.directivesAt e).map persistedDirectives := by
  cases e with
  | type => rfl
  | field m =>
    rw [directivesAt, directivesAt, contribution, Table.get?_mapEntries, Option.map_map,
      Option.map_map]
    rfl
  | argument m x =>
    rw [directivesAt, directivesAt, contribution, Table.get?_mapEntries]
    cases d.fields.get? m with
    | none => rfl
    | some f =>
      show (f.definition.contribution.argument? x).map _ = _
      rw [argument?_contribution, Option.map_map, Option.bind_some, Option.map_map]
      rfl
  | value m =>
    rw [directivesAt, directivesAt, contribution, Table.get?_map, Option.map_map, Option.map_map]
    rfl
  | input m =>
    rw [directivesAt, directivesAt, contribution, Table.get?_map, Option.map_map, Option.map_map]
    rfl

/-! ### Gathered lists -/

/-- Only the first list can bring along repetitions. -/
theorem nodup_gathered_iff {α : Type} [DecidableEq α] {ls : List (List α)} :
    (gathered ls).Nodup ↔ (ls.headD []).Nodup := by
  cases ls with
  | nil => exact Iff.rfl
  | cons xs rest =>
    refine ⟨fun h => ?_, fun h => nodup_appendNew h⟩
    rw [gathered, appendNew_eq] at h
    exact (List.nodup_append.1 h).1

/-- What is gathered from those that have something. -/
theorem mem_gathered_filterMap_iff {α β : Type} [DecidableEq β] {part : α → Option (List β)}
    {l : List α} {b : β} :
    b ∈ gathered (l.filterMap part) ↔ ∃ a ∈ l, ∃ bs, part a = some bs ∧ b ∈ bs := by
  rw [mem_gathered, List.mem_flatten]
  simp only [List.mem_filterMap]
  constructor
  · rintro ⟨bs, ⟨a, ha, hbs⟩, hb⟩
    exact ⟨a, ha, bs, hbs, hb⟩
  · rintro ⟨a, ha, bs, hbs, hb⟩
    exact ⟨bs, ⟨a, ha, hbs⟩, hb⟩

namespace FieldNode

variable {names : List String} {f : FieldNode} {es : List (SubgraphId × FieldDeclaration)}

/-- A field that all declarations have externally is the first of them. -/
theorem definition_of_bases_eq_nil (hbases : bases es = []) {h : SubgraphId × FieldDeclaration}
    (hh : es.head? = some h) (hf : ofDeclarations? names es = some f) :
    f.definition = h.2.definition := by
  have hexts : ∀ e ∈ es, e.2.external = true := by
    simpa [bases, List.filter_eq_nil_iff] using hbases
  have hstart : (start h.2).authority = .awaited [] := rfl
  rw [ofDeclarations?, hh, Option.map_some, Option.some.injEq] at hf
  rw [← hf, (foldl_externals names hexts hstart).1]
  rfl

theorem exists_split_of_bases (hbases : bases es ≠ []) : ∃ exts b rest, Split es exts b rest := by
  obtain ⟨e, he⟩ := List.exists_mem_of_ne_nil _ hbases
  obtain ⟨he, hext⟩ := List.mem_filter.1 he
  exact exists_split ⟨e, he, by simpa using hext⟩

/-- The declarations that a field has its directives from: those that are not external, or else the
first one. -/
def gatheredFrom (es : List (SubgraphId × FieldDeclaration)) :
    List (SubgraphId × FieldDeclaration) :=
  if bases es = [] then es.take 1 else bases es

/-- There is a field exactly if there is a first declaration of it. -/
theorem eq_nil_or_exists_head (names : List String) (es : List (SubgraphId × FieldDeclaration)) :
    es = [] ∨ ∃ h rest f, es = h :: rest ∧ ofDeclarations? names es = some f := by
  cases es with
  | nil => exact .inl rfl
  | cons e es => exact .inr ⟨e, es, _, rfl, rfl⟩

/-- **The directives of a field**, external or not. -/
theorem map_directives_ofDeclarations? :
    ((ofDeclarations? names es).map fun f => f.definition.directives) = es.head?.map fun _ =>
      gathered ((gatheredFrom es).map fun e => e.2.definition.directives) := by
  obtain rfl | ⟨h, rest, f, rfl, hf⟩ := eq_nil_or_exists_head names es
  · rfl
  · rw [hf, List.head?_cons, Option.map_some, Option.map_some, gatheredFrom, Option.some.injEq]
    split
    · rename_i hbases
      rw [definition_of_bases_eq_nil hbases rfl hf]
      rfl
    · rename_i hbases
      obtain ⟨exts, b, rest, hs⟩ := exists_split_of_bases hbases
      exact directives_of_split hs hf

/-- **The arguments of a field**, external or not. -/
theorem bind_argument?_ofDeclarations? (x : Name) :
    ((ofDeclarations? names es).bind fun f => f.definition.argument? x) = argumentOf? es x := by
  obtain rfl | ⟨h, rest, f, rfl, hf⟩ := eq_nil_or_exists_head names es
  · rfl
  · rw [hf, Option.bind_some]
    by_cases hbases : bases (h :: rest) = []
    · rw [definition_of_bases_eq_nil hbases rfl hf, argumentOf?, hbases]
      simp
    · obtain ⟨exts, b, rest, hs⟩ := exists_split_of_bases hbases
      exact argument?_of_split hs hf

end FieldNode

namespace TypeNode

variable {names : List String} {kind : TypeKind} {ds : List (SubgraphId × TypeDeclaration)}
  {e : Element} {x : Directive}

/-- The lists that are gathered for an element of a type, from declarations of its kind. -/
def sources (ds : List (SubgraphId × TypeDeclaration)) : Element → List (List Directive)
  | .type => [] :: ds.map fun d => d.2.directives
  | .field m => (FieldNode.gatheredFrom (fieldsOf ds m)).map fun f => f.2.definition.directives
  | .argument m x => (FieldNode.argumentOf? (fieldsOf ds m) x).toList.map fun v => v.directives
  | .value m => valueDirectives ds m
  | .input m => inputDirectives ds m

/-- **The directives of each element are gathered.** -/
theorem directivesAt_ofDeclarations_iff {xs : List Directive} :
    (ofDeclarations names kind ds).directivesAt e = some xs ↔
      sources ds e ≠ [] ∧ gathered (sources ds e) = xs := by
  cases e with
  | type =>
    rw [directivesAt, Option.some.injEq, directives_eq]
    simp [sources]
  | field m =>
    rw [directivesAt, get?_fields, FieldNode.map_directives_ofDeclarations?, sources]
    cases hes : fieldsOf ds m with
    | nil => simp [FieldNode.gatheredFrom, FieldNode.bases]
    | cons f fs =>
      -- a defined field gathers from its definitions, a field without one from all declarations
      have hne : FieldNode.gatheredFrom (f :: fs) ≠ [] := by
        unfold FieldNode.gatheredFrom
        split
        · simp
        · assumption
      simp [hne]
  | argument m x =>
    rw [directivesAt, get?_fields, FieldNode.bind_argument?_ofDeclarations?, sources]
    cases FieldNode.argumentOf? (fieldsOf ds m) x with
    | none => simp
    | some v =>
      have hgathered : gathered [v.directives] = v.directives := rfl
      simp [hgathered]
  | value m =>
    rw [directivesAt, Option.map_eq_some_iff, sources, eq_comm (b := xs),
      ← @exists_get?_values_iff names kind]
    simp only [eq_comm (a := xs)]
  | input m =>
    rw [directivesAt, Option.map_eq_some_iff, sources, eq_comm (b := xs),
      ← @exists_get?_inputs_iff names kind]
    simp only [eq_comm (a := xs)]

/-! ### Who applies what -/

/-- All declarations of a type count for it, and what they apply is gathered.  So it is for enum
values and input fields, which no declaration has externally. -/
theorem appliedAt_type_iff : AppliedAt ds .type x ↔ x ∈ gathered (sources ds .type) := by
  simp [AppliedAt, TypeDeclaration.counts, TypeDeclaration.directivesAt, mem_gathered, sources]

theorem appliedAt_value_iff {m : Name} :
    AppliedAt ds (.value m) x ↔ x ∈ gathered (sources ds (.value m)) := by
  rw [sources, valueDirectives, mem_gathered_filterMap_iff]
  simp only [AppliedAt, TypeDeclaration.counts, TypeDeclaration.directivesAt, true_and]

theorem appliedAt_input_iff {m : Name} :
    AppliedAt ds (.input m) x ↔ x ∈ gathered (sources ds (.input m)) := by
  rw [sources, inputDirectives, mem_gathered_filterMap_iff]
  simp only [AppliedAt, TypeDeclaration.counts, TypeDeclaration.directivesAt, true_and]

/-- A field that counts is one that is not external. -/
theorem exists_mem_bases_iff {m : Name} {P : FieldDeclaration → Prop} :
    (∃ f ∈ FieldNode.bases (fieldsOf ds m), P f.2) ↔ ∃ d ∈ ds,
      (d.2.fields.get? m).all (fun f => !f.external) = true ∧
        ∃ f, d.2.fields.get? m = some f ∧ P f := by
  simp only [FieldNode.bases, List.mem_filter, Prod.exists, mem_fieldsOf_iff]
  constructor
  · rintro ⟨i, f, ⟨⟨d, hd, hf⟩, hext⟩, h⟩
    exact ⟨i, d, hd, by simpa [hf] using hext, f, hf, h⟩
  · rintro ⟨i, d, hd, hcounts, f, hf, h⟩
    exact ⟨i, f, ⟨⟨d, hd, hf⟩, by simpa [hf] using hcounts⟩, h⟩

theorem appliedAt_field_iff {m : Name} : AppliedAt ds (.field m) x ↔
    ∃ f ∈ FieldNode.bases (fieldsOf ds m), x ∈ f.2.definition.directives := by
  rw [@exists_mem_bases_iff ds m fun f => x ∈ f.definition.directives]
  simp [AppliedAt, TypeDeclaration.counts, TypeDeclaration.directivesAt]

theorem appliedAt_argument_iff {m y : Name} : AppliedAt ds (.argument m y) x ↔
    ∃ f ∈ FieldNode.bases (fieldsOf ds m), ∃ v, f.2.definition.argument? y = some v ∧
      x ∈ v.directives := by
  rw [@exists_mem_bases_iff ds m fun f => ∃ v, f.definition.argument? y = some v ∧
    x ∈ v.directives]
  simp only [AppliedAt, TypeDeclaration.counts, TypeDeclaration.directivesAt,
    Option.map_eq_some_iff, Option.bind_eq_some_iff]
  refine exists_congr fun d => and_congr_right fun _ => and_congr_right fun _ => ?_
  constructor
  · rintro ⟨_, ⟨v, ⟨f, hf, hv⟩, rfl⟩, hx⟩
    exact ⟨f, hf, v, hv, hx⟩
  · rintro ⟨f, hf, v, hv, hx⟩
    exact ⟨_, ⟨v, ⟨f, hf, hv⟩, rfl⟩, hx⟩

/-! ### What goes wrong -/

/-- The list that the others are added to, which stays as it is, repeats a directive. -/
def Repeats (ds : List (SubgraphId × TypeDeclaration)) (e : Element) : Prop :=
  ¬ ((sources ds e).headD []).Nodup

/-- Some directives of an element are not applied to it by a declaration that counts, or the other
way round. -/
inductive Strays (ds : List (SubgraphId × TypeDeclaration)) : Element → Prop
  /-- No declaration of a field counts, and it has what the first one applies. -/
  | field {m : Name} {f : SubgraphId × FieldDeclaration} :
      FieldNode.bases (fieldsOf ds m) = [] → (fieldsOf ds m).head? = some f →
        f.2.definition.directives ≠ [] → Strays ds (.field m)
  /-- An argument is taken from the first declaration, which is external and applies a directive to
  it that no declaration which counts does. -/
  | argument {m y : Name} {f : SubgraphId × FieldDeclaration} {v : InputValue} {x : Directive} :
      FieldNode.argumentOf? (fieldsOf ds m) y = some v → (fieldsOf ds m).head? = some f →
        f.2.external = true → f.2.definition.argument? y = some v → x ∈ v.directives →
          ¬ AppliedAt ds (.argument m y) x → Strays ds (.argument m y)
  /-- An argument is taken from one declaration, and another one, which counts, applies more to
  it. -/
  | lost {m y : Name} {f : SubgraphId × FieldDeclaration} {v w : InputValue} {x : Directive} :
      FieldNode.argumentOf? (fieldsOf ds m) y = some v → f ∈ FieldNode.bases (fieldsOf ds m) →
        f.2.definition.argument? y = some w → x ∈ w.directives → x ∉ v.directives →
          Strays ds (.argument m y)

/-- An argument that is not taken from a declaration which counts is taken from the first one. -/
theorem exists_source_of_argumentOf? {m y : Name} {v : InputValue}
    (hv : FieldNode.argumentOf? (fieldsOf ds m) y = some v) :
    (∃ f ∈ FieldNode.bases (fieldsOf ds m), f.2.definition.argument? y = some v) ∨
      ∃ f, (fieldsOf ds m).head? = some f ∧ f.2.external = true ∧
        f.2.definition.argument? y = some v := by
  obtain ⟨f, hf, hargument⟩ := List.exists_of_findSome?_eq_some hv
  rw [List.mem_append, List.mem_append] at hf
  rcases hf with (hf | hf) | hf
  · exact .inl ⟨f, List.mem_of_mem_take hf, hargument⟩
  · by_cases hext : f.2.external = true
    · refine .inr ⟨f, ?_, hext, hargument⟩
      cases hes : fieldsOf ds m with
      | nil => simp [hes] at hf
      | cons e es => simpa [hes, eq_comm] using hf
    · exact .inl ⟨f, List.mem_filter.2 ⟨List.mem_of_mem_take hf, by simpa using hext⟩, hargument⟩
  · exact .inl ⟨f, hf, hargument⟩

/-- An argument is there if a declaration that counts has it. -/
theorem exists_argumentOf? {m y : Name} {f : SubgraphId × FieldDeclaration} {v : InputValue}
    (hf : f ∈ FieldNode.bases (fieldsOf ds m)) (hv : f.2.definition.argument? y = some v) :
    ∃ w, FieldNode.argumentOf? (fieldsOf ds m) y = some w := by
  rw [← Option.isSome_iff_exists, FieldNode.argumentOf?, List.findSome?_isSome_iff]
  exact ⟨f, List.mem_append_right _ hf, by rw [hv]; rfl⟩

/-- The list that stays as it is brings along the only repetitions. -/
theorem nodup_gathered_sources_iff : (gathered (sources ds e)).Nodup ↔ ¬ Repeats ds e := by
  rw [nodup_gathered_iff, Repeats, not_not]

/-- The directives of a type do not repeat. -/
theorem not_repeats_type : ¬ Repeats ds .type := fun h => h List.nodup_nil

theorem mem_gathered_argument_iff {m y : Name} {v : InputValue}
    (hv : FieldNode.argumentOf? (fieldsOf ds m) y = some v) :
    x ∈ gathered (sources ds (.argument m y)) ↔ x ∈ v.directives := by
  rw [sources, hv]
  rfl

theorem gathered_field_of_bases_eq_nil {m : Name} {f : SubgraphId × FieldDeclaration}
    (hbases : FieldNode.bases (fieldsOf ds m) = []) (hf : (fieldsOf ds m).head? = some f) :
    gathered (sources ds (.field m)) = f.2.definition.directives := by
  obtain ⟨es, hes⟩ := List.head?_eq_some_iff.1 hf
  rw [sources, FieldNode.gatheredFrom, if_pos hbases, hes]
  rfl

/-- What strays is gathered without being applied, or applied without being gathered. -/
theorem Strays.not_mem_iff (h : Strays ds e) :
    ¬ ∀ x, x ∈ gathered (sources ds e) ↔ AppliedAt ds e x := by
  intro hmem
  cases h with
  | field hbases hf hne =>
    obtain ⟨x, hx⟩ := List.exists_mem_of_ne_nil _ hne
    rw [← gathered_field_of_bases_eq_nil hbases hf, hmem, appliedAt_field_iff, hbases] at hx
    simp at hx
  | argument hv _ _ _ hx hnot => exact hnot ((hmem _).1 ((mem_gathered_argument_iff hv).2 hx))
  | lost hv hf hw hx hlost =>
    have happlied := appliedAt_argument_iff.2 ⟨_, hf, _, hw, hx⟩
    exact hlost ((mem_gathered_argument_iff hv).1 ((hmem _).2 happlied))

/-- A field with a declaration that counts has the directives of all of those. -/
theorem mem_gathered_field_iff {m : Name} (h : ¬ Strays ds (.field m)) :
    x ∈ gathered (sources ds (.field m)) ↔ AppliedAt ds (.field m) x := by
  rw [appliedAt_field_iff]
  by_cases hbases : FieldNode.bases (fieldsOf ds m) = []
  · cases hf : (fieldsOf ds m).head? with
    | none =>
      rw [List.head?_eq_none_iff] at hf
      simp [sources, FieldNode.gatheredFrom, hf, FieldNode.bases, gathered]
    | some f =>
      have hnil : f.2.definition.directives = [] :=
        by_contra fun hne => h (.field hbases hf hne)
      simp [gathered_field_of_bases_eq_nil hbases hf, hnil, hbases]
  · rw [mem_gathered, sources, FieldNode.gatheredFrom, if_neg hbases]
    simp

/-- An argument has the directives of the declaration that it is taken from, which are those of all
declarations that count. -/
theorem mem_gathered_argument_iff_appliedAt {m y : Name} (h : ¬ Strays ds (.argument m y)) :
    x ∈ gathered (sources ds (.argument m y)) ↔ AppliedAt ds (.argument m y) x := by
  cases hv : FieldNode.argumentOf? (fieldsOf ds m) y with
  | none =>
    rw [appliedAt_argument_iff, sources, hv]
    refine ⟨fun hx => by simp [gathered] at hx, ?_⟩
    rintro ⟨f, hf, w, hw, _⟩
    obtain ⟨v, hv'⟩ := exists_argumentOf? hf hw
    rw [hv] at hv'
    cases hv'
  | some v =>
    rw [mem_gathered_argument_iff hv]
    constructor
    · intro hx
      rcases exists_source_of_argumentOf? hv with ⟨f, hf, hargument⟩ | ⟨f, hf, hext, hargument⟩
      · exact appliedAt_argument_iff.2 ⟨f, hf, v, hargument, hx⟩
      · exact by_contra fun hnot => h (.argument hv hf hext hargument hx hnot)
    · intro happlied
      obtain ⟨f, hf, w, hw, hx⟩ := appliedAt_argument_iff.1 happlied
      exact by_contra fun hlost => h (.lost hv hf hw hx hlost)

/-- **What is gathered for an element is what is applied to it**, except where a directive
strays. -/
theorem mem_gathered_sources_iff :
    (∀ x, x ∈ gathered (sources ds e) ↔ AppliedAt ds e x) ↔ ¬ Strays ds e := by
  refine ⟨fun hmem hstray => hstray.not_mem_iff hmem, fun hstray x => ?_⟩
  cases e with
  | type => exact appliedAt_type_iff.symm
  | field m => exact mem_gathered_field_iff hstray
  | argument m y => exact mem_gathered_argument_iff_appliedAt hstray
  | value m => exact appliedAt_value_iff.symm
  | input m => exact appliedAt_input_iff.symm

end TypeNode

/-! ### The whole graph -/

/-- The declarations that a type of a batch is made of, which are those of its kind. -/
def contributors (models : List Schema) (n : Name) (kind : TypeKind) :
    List (SubgraphId × TypeDeclaration) :=
  (declarationsOf models n).filter fun d => d.2.kind = kind

theorem eq_ofDeclarations_of_get? {models : List Schema} {n : Name} {t : TypeNode}
    (ht : (Graph.ofSchemas models).types.get? n = some t) :
    t = .ofDeclarations (models.map (·.name)) t.kind (contributors models n t.kind) := by
  rw [get?_ofSchemas] at ht
  obtain ⟨d, _, rfl⟩ := Option.map_eq_some_iff.1 ht
  rw [TypeNode.kind_ofDeclarations]
  rfl

/-- **The directives of one element** of a graph: they do not repeat unless the list that they
start with does, and they are those that are applied to it unless some stray. -/
theorem directivesAt_ofSchemas {models : List Schema} {n : Name} {t : TypeNode}
    (ht : (Graph.ofSchemas models).types.get? n = some t) {e : Element} {xs : List Directive}
    (hxs : t.directivesAt e = some xs) :
    (xs.Nodup ↔ ¬ TypeNode.Repeats (contributors models n t.kind) e) ∧
      ((∀ x, x ∈ xs ↔ AppliedAt (contributors models n t.kind) e x) ↔
        ¬ TypeNode.Strays (contributors models n t.kind) e) := by
  rw [eq_ofDeclarations_of_get? ht] at hxs
  obtain ⟨_, rfl⟩ := TypeNode.directivesAt_ofDeclarations_iff.1 hxs
  exact ⟨TypeNode.nodup_gathered_sources_iff, TypeNode.mem_gathered_sources_iff⟩

/-- Directives are united: each element of the graph of a batch has those applied that some
declaration which counts for it applies, each once. -/
def UnitesDirectives (models : List Schema) : Prop :=
  ∀ n t, (Graph.ofSchemas models).types.get? n = some t → ∀ e xs, t.directivesAt e = some xs →
    xs.Nodup ∧ ∀ x, x ∈ xs ↔ AppliedAt (contributors models n t.kind) e x

/-- Some element of the graph of a batch has directives that repeat or stray. -/
def HasLapse (models : List Schema) : Prop :=
  ∃ n t, (Graph.ofSchemas models).types.get? n = some t ∧
    ∃ e xs, t.directivesAt e = some xs ∧
      (TypeNode.Repeats (contributors models n t.kind) e ∨
        TypeNode.Strays (contributors models n t.kind) e)

/-- **When directives are united**: an element of the graph repeats a directive exactly if the list
that its directives start with does, and has other directives than are applied to it exactly if some
stray; a type never does either.  So all directives are united exactly if no element has a lapse of
one kind or the other.  What a declaration applies to an element are those directives, of what the
subgraph has written there, which a supergraph keeps. -/
theorem unitesDirectives_iff (models : List Schema) :
    (∀ n t, (Graph.ofSchemas models).types.get? n = some t →
      (∀ e xs, t.directivesAt e = some xs →
        (xs.Nodup ↔ ¬ TypeNode.Repeats (contributors models n t.kind) e) ∧
          ((∀ x, x ∈ xs ↔ AppliedAt (contributors models n t.kind) e x) ↔
            ¬ TypeNode.Strays (contributors models n t.kind) e)) ∧
      t.directives.Nodup ∧
        ∀ x, x ∈ t.directives ↔ AppliedAt (contributors models n t.kind) .type x) ∧
    (UnitesDirectives models ↔ ¬ HasLapse models) ∧
    ∀ (d : TypeDeclaration) (v : FederationVersion) (e : Element),
      (d.contribution v).directivesAt e = (d.directivesAt e).map persistedDirectives := by
  refine ⟨fun n t ht => ⟨fun e xs => directivesAt_ofSchemas ht, ?_⟩, ⟨?_, ?_⟩,
    fun d v => d.directivesAt_contribution v⟩
  · have htype : t.directivesAt .type = some t.directives := rfl
    obtain ⟨hnodup, hmem⟩ := directivesAt_ofSchemas ht htype
    exact ⟨hnodup.2 TypeNode.not_repeats_type, hmem.2 fun h => by cases h⟩
  · rintro hunites ⟨n, t, ht, e, xs, hxs, hlapse⟩
    obtain ⟨hnodup, hmem⟩ := directivesAt_ofSchemas ht hxs
    obtain ⟨hxsNodup, hxsMem⟩ := hunites n t ht e xs hxs
    rcases hlapse with hrepeats | hstrays
    · exact hnodup.1 hxsNodup hrepeats
    · exact hmem.1 hxsMem hstrays
  · intro hlapse n t ht e xs hxs
    obtain ⟨hnodup, hmem⟩ := directivesAt_ofSchemas ht hxs
    exact ⟨hnodup.2 fun h => hlapse ⟨n, t, ht, e, xs, hxs, .inl h⟩,
      hmem.2 fun h => hlapse ⟨n, t, ht, e, xs, hxs, .inr h⟩⟩

/-! ### Directives that are lost, leaked and repeated -/

/-- Two subgraphs that share a field, of which only the second one hides an argument.  The first one
labels an argument of a field that it has externally, and it hides an enum value twice. -/
def lostDirectiveBatch : List Subgraph := Subgraph.batchOfTexts
  [("a", "type Query \x7b f(x: Int): Int @shareable " ++
      "g(y: Int @tag(name: \"z\")): Int @external \x7d " ++
      "enum E \x7b A @inaccessible @inaccessible \x7d"),
    ("b", "type Query \x7b f(x: Int @inaccessible): Int @shareable g: Int \x7d")]

/-- What the two subgraphs contribute. -/
def lostDirectiveContributions : List Schema :=
  ((schemas? lostDirectiveBatch).toOption.getD []).map Schema.contribution

/-- The argument that only the second subgraph hides, the one that only an external declaration
labels, and the value that is hidden twice. -/
def hiddenArgument : Element := .argument ⟨"f", by decide⟩ ⟨"x", by decide⟩
def labelledArgument : Element := .argument ⟨"g", by decide⟩ ⟨"y", by decide⟩
def hiddenValue : Element := .value ⟨"A", by decide⟩

/-- What hides an element. -/
def hides : Directive := ⟨inaccessibleName, []⟩

/-- What there is to read off the graph of the two subgraphs, on which nothing is wrong. -/
theorem lostDirective_read :
    (compose {} lostDirectiveBatch).isOk = true ∧
    (∃ t ∈ (Graph.ofSchemas lostDirectiveContributions).types.get? ⟨"Query", by decide⟩,
      let ds := contributors lostDirectiveContributions ⟨"Query", by decide⟩ t.kind
      (t.directivesAt hiddenArgument = some [] ∧ AppliedAt ds hiddenArgument hides) ∧
      ∃ xs ∈ t.directivesAt labelledArgument, ∃ x ∈ xs, ¬ AppliedAt ds labelledArgument x) ∧
    ∃ t ∈ (Graph.ofSchemas lostDirectiveContributions).types.get? ⟨"E", by decide⟩,
      t.directivesAt hiddenValue = some [hides, hides] := by
  decide +kernel

/-- The two subgraphs compose.  In their graph the argument that the second one hides is not hidden,
the label of an external declaration is there although no declaration which counts applies it, and
the enum value is hidden twice. -/
theorem not_unitesDirectives_lostDirective :
    (compose {} lostDirectiveBatch).isOk = true ∧ ¬ UnitesDirectives lostDirectiveContributions ∧
    (∃ n t, (Graph.ofSchemas lostDirectiveContributions).types.get? n = some t ∧
      t.directivesAt hiddenArgument = some [] ∧
      AppliedAt (contributors lostDirectiveContributions n t.kind) hiddenArgument hides) ∧
    (∃ n t, (Graph.ofSchemas lostDirectiveContributions).types.get? n = some t ∧
      ∃ xs, t.directivesAt labelledArgument = some xs ∧ ∃ x ∈ xs,
        ¬ AppliedAt (contributors lostDirectiveContributions n t.kind) labelledArgument x) ∧
    ∃ n t, (Graph.ofSchemas lostDirectiveContributions).types.get? n = some t ∧
      t.directivesAt hiddenValue = some [hides, hides] := by
  obtain ⟨hok, ⟨t, ht, ⟨hnone, happlied⟩, hlabel⟩, e, he, htwice⟩ := lostDirective_read
  refine ⟨hok, fun h => ?_, ⟨_, t, ht, hnone, happlied⟩, ⟨_, t, ht, hlabel⟩, _, e, he, htwice⟩
  exact List.not_mem_nil (((h _ t ht _ _ hnone).2 hides).2 happlied)

end Federation
