import Federation.Proofs.Graph.Remarks
import Mathlib.Data.Set.Finite.Basic
import Mathlib.Order.WellFounded

/-!
# Fields without a base

A field of an object type that no subgraph resolves is in conflict, and the conflict says that no
subgraph defines it.  That is so where every declaration of the field is external.  It is not so
where the field is stripped: each subgraph that defines it is overridden by another one
(`reportsBases_iff`).  Subgraphs that define a field and override each other only along chains leave
the end of the chain to resolve it, so what strips a field is a cycle of overrides, or an override
on an external declaration (`Stripped.external_or_cycle`).
-/

namespace Federation

/-- A declaration of a field takes another one over: it overrides the subgraph that the other one is
from. -/
def TakesOver (names : List String) (above below : SubgraphId × FieldDeclaration) : Prop :=
  above.1 ≠ below.1 ∧ ∃ s, above.2.overrides = some s ∧ names.idxOf? s = some below.1

/-- A field is stripped of its resolvers: it is defined, and each declaration that defines it is
taken over. -/
structure Stripped (names : List String) (es : List (SubgraphId × FieldDeclaration)) : Prop where
  defined : ∃ e ∈ es, e.2.external = false
  taken : ∀ e ∈ es, e.2.external = false → ∃ above ∈ es, TakesOver names above e

section OneField

variable {names : List String} {es : List (SubgraphId × FieldDeclaration)} {f : FieldNode}

/-- **Who resolves a field**: who defines it and is not taken over. -/
theorem FieldNode.mem_resolvers_ofDeclarations?_iff (hes : (es.map Prod.fst).Nodup)
    (hf : FieldNode.ofDeclarations? names es = some f) {i : SubgraphId} :
    i ∈ f.resolvers ↔ ∃ d, (i, d) ∈ es ∧ d.external = false ∧
      ∀ above ∈ es, ¬ TakesOver names above (i, d) := by
  rw [mem_resolvers_iff, mem_declaredIn_iff hf, mem_externalIn_iff hf, mem_overriddenIn_iff hes hf]
  constructor
  · rintro ⟨⟨d, hd⟩, hext, hover⟩
    refine ⟨d, hd, Bool.eq_false_iff.2 fun h => hext ⟨d, hd, h⟩, ?_⟩
    rintro ⟨j, d'⟩ hd' ⟨hne, s, hs, htarget⟩
    exact hover ⟨⟨d, hd⟩, j, d', s, hd', hne, hs, htarget⟩
  · rintro ⟨d, hd, hext, hover⟩
    refine ⟨⟨d, hd⟩, ?_, ?_⟩
    · -- A subgraph declares the field at most once.
      rintro ⟨d', hd', hext'⟩
      have hsame : d = d' := by
        have h := List.inj_on_of_nodup_map hes hd hd' rfl
        exact (Prod.mk.inj h).2
      rw [← hsame, hext] at hext'
      cases hext'
    · rintro ⟨_, j, d', s, hd', hne, hs, htarget⟩
      exact hover (j, d') hd' ⟨hne, s, hs, htarget⟩

/-- A field has no resolver where nobody defines it, and where it is stripped. -/
theorem FieldNode.isEmpty_resolvers_iff (hes : (es.map Prod.fst).Nodup)
    (hf : FieldNode.ofDeclarations? names es = some f) :
    f.resolvers.isEmpty = true ↔ (∀ e ∈ es, e.2.external = true) ∨ Stripped names es := by
  have hnone : f.resolvers.isEmpty = true ↔
      ∀ e ∈ es, e.2.external = false → ∃ above ∈ es, TakesOver names above e := by
    simp only [SubgraphSet.isEmpty_iff, mem_resolvers_ofDeclarations?_iff hes hf]
    push Not
    exact ⟨fun h e he hext => h e.1 e.2 he hext, fun h i d hd hext => h (i, d) hd hext⟩
  rw [hnone]
  constructor
  · intro htaken
    by_cases hdefined : ∃ e ∈ es, e.2.external = false
    · exact .inr ⟨hdefined, htaken⟩
    · push Not at hdefined
      exact .inl fun e he => by simpa using hdefined e he
  · rintro (hexternal | hstripped) e he hext
    · rw [hexternal e he] at hext
      cases hext
    · exact hstripped.taken e he hext

/-- A declaration that defines a field takes over another one that does. -/
def Displaces (names : List String) (es : List (SubgraphId × FieldDeclaration))
    (above below : SubgraphId × FieldDeclaration) : Prop :=
  above ∈ es ∧ above.2.external = false ∧ below ∈ es ∧ below.2.external = false ∧
    TakesOver names above below

/-- Where each of finitely many things has one before it, some of them is before itself. -/
theorem exists_transGen_self {α : Type} {r : α → α → Prop} {l : List α} (hl : l ≠ [])
    (h : ∀ a ∈ l, ∃ b ∈ l, r b a) : ∃ a ∈ l, Relation.TransGen r a a := by
  by_contra hnot
  push Not at hnot
  let before : {a // a ∈ l} → {a // a ∈ l} → Prop := fun a b => Relation.TransGen r a.1 b.1
  have : IsTrans _ before := ⟨fun _ _ _ hab hbc => hab.trans hbc⟩
  have : Std.Irrefl before := ⟨fun a => hnot a.1 a.2⟩
  have : Finite {a // a ∈ l} := List.finite_toSet l
  have hwf : WellFounded before := Finite.wellFounded_of_trans_of_irrefl before
  obtain ⟨a, ha⟩ := List.exists_mem_of_ne_nil l hl
  obtain ⟨first, _, hmin⟩ := hwf.has_min Set.univ ⟨⟨a, ha⟩, trivial⟩
  obtain ⟨b, hb, hr⟩ := h first.1 first.2
  exact hmin ⟨b, hb⟩ trivial (.single hr)

/-- **What strips a field**: an override on an external declaration, or overrides that lead round in
a cycle. -/
theorem Stripped.external_or_cycle (h : Stripped names es) :
    (∃ above ∈ es, ∃ below ∈ es, above.2.external = true ∧ below.2.external = false ∧
      TakesOver names above below) ∨
    ∃ e ∈ es, Relation.TransGen (Displaces names es) e e := by
  by_contra hnot
  push Not at hnot
  obtain ⟨hexternal, hcycle⟩ := hnot
  obtain ⟨base, hbase, hdefines⟩ := h.defined
  have hbases : base ∈ es.filter fun e => !e.2.external := by simp [hbase, hdefines]
  obtain ⟨e, he, hround⟩ := exists_transGen_self (r := Displaces names es)
    (List.ne_nil_of_mem hbases) fun below hbelow => by
      obtain ⟨hbelow, hext⟩ := List.mem_filter.1 hbelow
      have hext : below.2.external = false := by simpa using hext
      obtain ⟨above, habove, htakes⟩ := h.taken below hbelow hext
      have habove' : above.2.external = false :=
        Bool.eq_false_iff.2 fun hx => hexternal above habove below hbelow hx hext htakes
      exact ⟨above, by simp [habove, habove'], habove, habove', hbelow, hext, htakes⟩
  exact hcycle e (List.mem_filter.1 he).1 hround

end OneField

/-! ### The whole graph -/

/-- The conflict about a field of an object type that nobody resolves is found once. -/
theorem filter_conflicts_noBase {models : List Schema} {n m : Name} {t : TypeNode} {f : FieldNode}
    (ht : (Graph.ofSchemas models).object? n = some t) (hf : t.fields.get? m = some f) :
    (conflicts models).filter (Conflict.isAbout .noBase n m) = if f.resolvers.isEmpty then
      [.noBase n m ((Graph.ofSchemas models).namesOf f.declaredIn)] else [] := by
  obtain ⟨hget, hobject⟩ := Option.filter_eq_some_iff.1 ht
  rw [filter_conflicts_isAbout (fun n t m f => if t.kind = .object && f.resolvers.isEmpty
    then some (.noBase n m ((Graph.ofSchemas models).namesOf f.declaredIn)) else none) rfl ?_ hget
    hf]
  · rw [hobject, Bool.true_and]
    split <;> rfl
  · intro n t m f c hc
    split at hc <;> cases hc
    exact ⟨rfl, rfl, rfl⟩

theorem exists_noBase_iff {models : List Schema} {n m : Name} {t : TypeNode} {f : FieldNode}
    (ht : (Graph.ofSchemas models).object? n = some t) (hf : t.fields.get? m = some f) :
    (∃ ss, Conflict.noBase n m ss ∈ conflicts models) ↔ f.resolvers.isEmpty = true := by
  have hmem : ∀ ss, Conflict.noBase n m ss ∈ conflicts models ↔ Conflict.noBase n m ss ∈
      (conflicts models).filter (Conflict.isAbout .noBase n m) := by
    simp [Conflict.isAbout, Conflict.kind, Conflict.type, Conflict.resolvedField?]
  simp only [hmem, filter_conflicts_noBase ht hf]
  split <;> simp [*]

/-- Missing bases are reported: a field of an object type is in conflict for want of a base exactly
if every declaration of it is external, and one that some subgraph defines is resolved. -/
def ReportsBases (models : List Schema) : Prop :=
  ∀ n t, (Graph.ofSchemas models).object? n = some t → ∀ m f, t.fields.get? m = some f →
    ((∃ ss, Conflict.noBase n m ss ∈ conflicts models) ↔
      ∀ e ∈ TypeNode.fieldsOf (contributing models n) m, e.2.external = true) ∧
    ((∃ e ∈ TypeNode.fieldsOf (contributing models n) m, e.2.external = false) →
      ∃ i, i ∈ f.resolvers)

/-- Some field of an object type is stripped. -/
def HasStripped (models : List Schema) : Prop :=
  ∃ n t, (Graph.ofSchemas models).object? n = some t ∧ ∃ m f, t.fields.get? m = some f ∧
    Stripped (models.map (·.name)) (TypeNode.fieldsOf (contributing models n) m)

/-- What a schema contributes is external if it is marked so and no key of its type selects it. -/
theorem external_contribution_iff {s : Schema} {n m : Name} {d : TypeDeclaration}
    {f : FieldDeclaration} (hd : s.contribution.types.get? n = some d)
    (hf : d.fields.get? m = some f) : ∃ t g, s.types.get? n = some t ∧ t.fields.get? m = some g ∧
      (f.external = true ↔ g.external = true ∧ m ∉ t.keyFieldNames) := by
  rw [Schema.contribution, Table.get?_map] at hd
  obtain ⟨t, ht, rfl⟩ := Option.map_eq_some_iff.1 hd
  rw [TypeDeclaration.contribution, Table.get?_mapEntries] at hf
  obtain ⟨g, hg, rfl⟩ := Option.map_eq_some_iff.1 hf
  exact ⟨t, g, ht, hg, by simp [FieldDeclaration.contribution]⟩

/-- **When missing bases are reported**: a field of an object type is in conflict, once and naming
its declarers, exactly if every declaration of it is external or it is stripped.  So missing bases
are reported as they ought to be exactly if no field is stripped.  A stripped field has an override
on an external declaration or a cycle of overrides. -/
theorem reportsBases_iff (models : List Schema) :
    (∀ n t, (Graph.ofSchemas models).object? n = some t → ∀ m f, t.fields.get? m = some f →
      let es := TypeNode.fieldsOf (contributing models n) m
      ((conflicts models).filter (Conflict.isAbout .noBase n m) = if f.resolvers.isEmpty then
        [.noBase n m ((Graph.ofSchemas models).namesOf f.declaredIn)] else []) ∧
      (f.resolvers.isEmpty = true ↔
        (∀ e ∈ es, e.2.external = true) ∨ Stripped (models.map (·.name)) es)) ∧
    (ReportsBases models ↔ ¬ HasStripped models) ∧
    (∀ n m, let es := TypeNode.fieldsOf (contributing models n) m
      Stripped (models.map (·.name)) es →
        (∃ above ∈ es, ∃ below ∈ es, above.2.external = true ∧ below.2.external = false ∧
          TakesOver (models.map (·.name)) above below) ∨
        ∃ e ∈ es, Relation.TransGen (Displaces (models.map (·.name)) es) e e) ∧
    ∀ (s : Schema) n m d f, s.contribution.types.get? n = some d → d.fields.get? m = some f →
      ∃ t g, s.types.get? n = some t ∧ t.fields.get? m = some g ∧
        (f.external = true ↔ g.external = true ∧ m ∉ t.keyFieldNames) := by
  have hempty : ∀ n t, (Graph.ofSchemas models).object? n = some t → ∀ m f,
      t.fields.get? m = some f → (f.resolvers.isEmpty = true ↔
        (∀ e ∈ TypeNode.fieldsOf (contributing models n) m, e.2.external = true) ∨
        Stripped (models.map (·.name)) (TypeNode.fieldsOf (contributing models n) m)) := by
    intro n t ht m f hf
    rw [get?_fields_of_contributing (Option.filter_eq_some_iff.1 ht).1] at hf
    exact FieldNode.isEmpty_resolvers_iff
      (TypeNode.nodup_fieldsOf (nodup_contributing models n) m) hf
  refine ⟨fun n t ht m f hf => ⟨filter_conflicts_noBase ht hf, hempty n t ht m f hf⟩, ⟨?_, ?_⟩,
    fun n m => Stripped.external_or_cycle, fun s n m d f => external_contribution_iff⟩
  · -- a stripped field is defined somewhere, but none of its definitions is left to resolve it
    rintro hreports ⟨n, t, ht, m, f, hf, hstripped⟩
    obtain ⟨i, hi⟩ := (hreports n t ht m f hf).2 hstripped.defined
    exact SubgraphSet.isEmpty_iff.1 ((hempty n t ht m f hf).2 (.inr hstripped)) i hi
  · intro hnone n t ht m f hf
    have hnot : ¬ Stripped (models.map (·.name)) (TypeNode.fieldsOf (contributing models n) m) :=
      fun h => hnone ⟨n, t, ht, m, f, hf, h⟩
    have hiff := hempty n t ht m f hf
    rw [or_iff_left hnot] at hiff
    refine ⟨(exists_noBase_iff ht hf).trans hiff, ?_⟩
    rintro ⟨e, he, hext⟩
    rw [← SubgraphSet.isEmpty_eq_false_iff, ← Bool.not_eq_true, hiff]
    intro hall
    rw [hall e he] at hext
    cases hext

/-! ### Fields that are stripped -/

/-- Two subgraphs that take one field over from each other, and of which the second one overrides
another field of the first one where it has it externally. -/
def strippedBatch : List Subgraph := Subgraph.batchOfTexts
  [("a", "type Query \x7b x: Int @shareable @override(from: \"b\") y: Int \x7d"),
    ("b", "type Query \x7b x: Int @shareable @override(from: \"a\") " ++
      "y: Int @external @override(from: \"a\") \x7d")]

/-- What the two subgraphs contribute. -/
def strippedContributions : List Schema :=
  ((schemas? strippedBatch).toOption.getD []).map Schema.contribution

/-- What there is to read off: nothing is wrong with the two subgraphs on their own, and both fields
are in conflict although the first subgraph defines them. -/
theorem stripped_read :
    (schemas? strippedBatch).isOk = true ∧
    conflicts strippedContributions =
      [.noBase ⟨"Query", by decide⟩ ⟨"x", by decide⟩ ["a", "b"],
        .noBase ⟨"Query", by decide⟩ ⟨"y", by decide⟩ ["a", "b"]] ∧
    ∃ t ∈ (Graph.ofSchemas strippedContributions).object? ⟨"Query", by decide⟩,
      t.fields.entries ≠ [] ∧ ∀ e ∈ t.fields.entries,
        (∀ i ∈ e.2.declaredIn.ids, i ∉ e.2.resolvers) ∧
        ∃ d ∈ TypeNode.fieldsOf (contributing strippedContributions ⟨"Query", by decide⟩) e.1,
          d.2.external = false := by
  decide +kernel

/-- The first subgraph defines both fields and neither has a resolver.  Both are in conflict, the
first one over a cycle of overrides and without any external declaration. -/
theorem not_reportsBases_stripped :
    (schemas? strippedBatch).isOk = true ∧
    (∃ t, (Graph.ofSchemas strippedContributions).object? ⟨"Query", by decide⟩ = some t ∧
      ∀ m f, t.fields.get? m = some f → (∀ i, i ∉ f.resolvers) ∧
        ∃ e ∈ TypeNode.fieldsOf (contributing strippedContributions ⟨"Query", by decide⟩) m,
          e.2.external = false) ∧
    conflicts strippedContributions =
      [.noBase ⟨"Query", by decide⟩ ⟨"x", by decide⟩ ["a", "b"],
        .noBase ⟨"Query", by decide⟩ ⟨"y", by decide⟩ ["a", "b"]] ∧
    ¬ ReportsBases strippedContributions := by
  obtain ⟨hok, hconflicts, t, ht, hne, hfields⟩ := stripped_read
  have hnone : ∀ m f, t.fields.get? m = some f → (∀ i, i ∉ f.resolvers) ∧
      ∃ e ∈ TypeNode.fieldsOf (contributing strippedContributions ⟨"Query", by decide⟩) m,
        e.2.external = false := by
    intro m f hf
    obtain ⟨hres, hdefined⟩ := hfields _ (Table.get?_eq_some_iff.1 hf)
    exact ⟨fun i hi => hres i (FieldNode.mem_resolvers_iff.1 hi).1 hi, hdefined⟩
  refine ⟨hok, ⟨t, ht, hnone⟩, hconflicts, fun h => ?_⟩
  obtain ⟨e, he⟩ := List.exists_mem_of_ne_nil _ hne
  obtain ⟨hres, hdefined⟩ := hnone e.1 e.2 (Table.get?_eq_some_iff.2 he)
  obtain ⟨i, hi⟩ := (h _ t ht e.1 e.2 (Table.get?_eq_some_iff.2 he)).2 hdefined
  exact hres i hi

end Federation
