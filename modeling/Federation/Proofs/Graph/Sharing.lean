import Federation.Proofs.Graph.Bases
import Federation.Proofs.Graph.Provenance
import Federation.Proofs.Subgraph.Written

/-!
# Shared fields

Several subgraphs may resolve a field only if all of them share it.  Whether they do is decided in
four passes, over blocks, keys, versions and overrides; here it is said of the texts of the
subgraphs alone.  `Subgraph.Resolves` is who resolves a field and `Subgraph.Reserves` who does not
share it, and a conflict is found exactly where two subgraphs resolve a field of which one is
reserved (`sharing_reported`).
-/

namespace Federation

/-! ### In the texts -/

/-- A subgraph of a batch resolves a field of an object type: it writes the field, nobody takes the
field over from it, and the field is not external unless a key selects it. -/
structure Subgraph.Resolves (batch : List Subgraph) (s : Subgraph) (n m : Name) : Prop where
  writes : ∃ b f, s.Writes n m b f
  kept : ∀ s' ∈ batch, s'.name ≠ s.name → ¬ s'.TakesFrom s.name n m
  defines : ¬ s.Marks "external" n m ∨ s.KeySelects n m

/-- A Federation 2 subgraph reserves a field for itself: no key selects it, and it is not marked as
shareable. -/
structure Subgraph.Reserves (s : Subgraph) (n m : Name) : Prop where
  version : s.document.version = .v2
  key : ¬ s.KeySelects n m
  mark : ¬ s.Marks "shareable" n m

/-- Two subgraphs resolve a field, and one that resolves it reserves it. -/
structure SharingClash (batch : List Subgraph) (n m : Name) : Prop where
  several : ∃ s ∈ batch, ∃ s' ∈ batch, s.name ≠ s'.name ∧ s.Resolves batch n m ∧
    s'.Resolves batch n m
  reserved : ∃ s ∈ batch, s.Resolves batch n m ∧ s.Reserves n m

section Computed

variable {batch : List Subgraph} {s : Subgraph} {n m : Name}

instance : Decidable (s.Resolves batch n m) :=
  decidable_of_iff ((∃ b f, s.Writes n m b f) ∧
      (∀ s' ∈ batch, s'.name ≠ s.name → ¬ s'.TakesFrom s.name n m) ∧
      (¬ s.Marks "external" n m ∨ s.KeySelects n m))
    ⟨fun ⟨hw, hk, hd⟩ => ⟨hw, hk, hd⟩, fun h => ⟨h.writes, h.kept, h.defines⟩⟩

instance : Decidable (s.Reserves n m) :=
  decidable_of_iff (s.document.version = .v2 ∧ ¬ s.KeySelects n m ∧ ¬ s.Marks "shareable" n m)
    ⟨fun ⟨hv, hk, hm⟩ => ⟨hv, hk, hm⟩, fun h => ⟨h.version, h.key, h.mark⟩⟩

instance : Decidable (SharingClash batch n m) :=
  decidable_of_iff ((∃ s ∈ batch, ∃ s' ∈ batch, s.name ≠ s'.name ∧ s.Resolves batch n m ∧
      s'.Resolves batch n m) ∧ ∃ s ∈ batch, s.Resolves batch n m ∧ s.Reserves n m)
    ⟨fun ⟨hs, hr⟩ => ⟨hs, hr⟩, fun h => ⟨h.several, h.reserved⟩⟩

end Computed

/-! ### In the graph -/

section Batch

variable {batch : List Subgraph} {schemas : List Schema} {n m : Name} {t : TypeNode} {f : FieldNode}

/-- A name stands at one position of a checked batch. -/
theorem eq_of_name_eq (h : schemas? batch = .ok schemas) {i j : SubgraphId} {s s' : Subgraph}
    (hs : batch[i]? = some s) (hs' : batch[j]? = some s') (hname : s.name = s'.name) : i = j := by
  have hnames : (batch.map (·.name)).Nodup := (schemas?_eq_ok_iff.1 h).1.2.1
  have hi : (batch.map (·.name)).idxOf? s.name = some i := by
    rw [idxOf?_eq_some_iff_getElem? hnames, List.getElem?_map, hs, Option.map_some]
  have hj : (batch.map (·.name)).idxOf? s.name = some j := by
    rw [idxOf?_eq_some_iff_getElem? hnames, List.getElem?_map, hs', Option.map_some, hname]
  exact Option.some.inj (hi.symm.trans hj)

/-- The declarations of a field that count are those of the subgraphs that write it. -/
theorem mem_fieldsOf_contributing_iff (h : schemas? batch = .ok schemas)
    (ht : (graphOf schemas).object? n = some t) {i : SubgraphId} {d : FieldDeclaration} :
    (i, d) ∈ TypeNode.fieldsOf (contributing (schemas.map Schema.contribution) n) m ↔
      ∃ s, batch[i]? = some s ∧ ∃ D, s.schema.contribution.types.get? n = some D ∧
        D.kind = .object ∧ D.fields.get? m = some d := by
  obtain ⟨_, rfl⟩ := schemas?_eq_ok_iff.1 h
  obtain ⟨hget, hobject⟩ := Option.filter_eq_some_iff.1 ht
  have hkind : t.kind = .object := of_decide_eq_true hobject
  rw [TypeNode.mem_fieldsOf_iff, contributing_eq hget, hkind]
  simp only [contributors, List.mem_filter, mem_declarationsOf_iff, List.map_map,
    List.getElem?_map, Option.map_eq_some_iff, decide_eq_true_eq, Function.comp_apply]
  constructor
  · rintro ⟨D, ⟨⟨_, ⟨s, hs, rfl⟩, hD⟩, hobject⟩, hd⟩
    exact ⟨s, hs, D, hD, hobject, hd⟩
  · rintro ⟨s, hs, D, hD, hobject, hd⟩
    exact ⟨D, ⟨⟨_, ⟨s, hs, rfl⟩, hD⟩, hobject⟩, hd⟩

/-- What is known of a subgraph whose declaration of a field counts. -/
theorem exists_of_mem_fieldsOf_contributing (h : schemas? batch = .ok schemas)
    (ht : (graphOf schemas).object? n = some t) {i : SubgraphId} {d : FieldDeclaration}
    (hd : (i, d) ∈ TypeNode.fieldsOf (contributing (schemas.map Schema.contribution) n) m) :
    ∃ s, batch[i]? = some s ∧ (∃ b f, s.Writes n m b f) ∧
      (d.external = true ↔ s.Marks "external" n m ∧ ¬ s.KeySelects n m) ∧
      (d.shareable = true ↔
        s.Marks "shareable" n m ∨ s.KeySelects n m ∨ s.document.version = .v1) ∧
      ∀ source, d.overrides = some source ↔ s.TakesFrom source n m := by
  obtain ⟨s, hs, D, hD, hobject, hd⟩ := (mem_fieldsOf_contributing_iff h ht).1 hd
  have hfaults := (schemas?_eq_ok_iff.1 h).1.2.2 s (List.mem_of_getElem? hs)
  exact ⟨s, hs, (Subgraph.exists_contribution_iff hfaults).1 ⟨D, d, hD, hobject, hd⟩,
    Subgraph.contributed_iff hfaults hD hobject hd⟩

theorem exists_mem_fieldsOf_contributing (h : schemas? batch = .ok schemas)
    (ht : (graphOf schemas).object? n = some t) {i : SubgraphId} {s : Subgraph}
    (hs : batch[i]? = some s) (hwrites : ∃ b f, s.Writes n m b f) :
    ∃ d, (i, d) ∈ TypeNode.fieldsOf (contributing (schemas.map Schema.contribution) n) m := by
  have hfaults := (schemas?_eq_ok_iff.1 h).1.2.2 s (List.mem_of_getElem? hs)
  obtain ⟨D, d, hD, hobject, hd⟩ := (Subgraph.exists_contribution_iff hfaults).2 hwrites
  exact ⟨d, (mem_fieldsOf_contributing_iff h ht).2 ⟨s, hs, D, hD, hobject, hd⟩⟩

/-- A declaration is taken over by the name of its subgraph. -/
theorem takesOver_iff_takesFrom (h : schemas? batch = .ok schemas) {i j : SubgraphId}
    {d d' : FieldDeclaration} {s s' : Subgraph} (hs : batch[i]? = some s)
    (hs' : batch[j]? = some s')
    (hoverrides : ∀ source, d'.overrides = some source ↔ s'.TakesFrom source n m) :
    TakesOver (batch.map (·.name)) (j, d') (i, d) ↔
      s'.name ≠ s.name ∧ s'.TakesFrom s.name n m := by
  have hnames : (batch.map (·.name)).Nodup := (schemas?_eq_ok_iff.1 h).1.2.1
  have hindex : ∀ source, (batch.map (·.name)).idxOf? source = some i ↔ s.name = source := by
    intro source
    rw [idxOf?_eq_some_iff_getElem? hnames, List.getElem?_map, hs, Option.map_some,
      Option.some.injEq]
  have hne : j ≠ i ↔ s'.name ≠ s.name := by
    refine not_congr ⟨?_, eq_of_name_eq h hs' hs⟩
    rintro rfl
    rw [hs] at hs'
    cases hs'
    rfl
  simp only [TakesOver, hne, hoverrides, hindex]
  exact and_congr_right fun _ => ⟨fun ⟨_, hx, hs⟩ => hs ▸ hx, fun hx => ⟨_, hx, rfl⟩⟩

/-- **Who resolves a field** can be told from the texts. -/
theorem mem_resolvers_graphOf_iff (h : schemas? batch = .ok schemas)
    (ht : (graphOf schemas).object? n = some t) (hf : t.fields.get? m = some f) {i : SubgraphId} :
    i ∈ f.resolvers ↔ ∃ s, batch[i]? = some s ∧ s.Resolves batch n m := by
  have hmodels : (schemas.map Schema.contribution).map (·.name) = batch.map (·.name) := by
    rw [(schemas?_eq_ok_iff.1 h).2, List.map_map, List.map_map]
    rfl
  rw [get?_fields_of_contributing (Option.filter_eq_some_iff.1 ht).1, hmodels] at hf
  rw [FieldNode.mem_resolvers_ofDeclarations?_iff
    (TypeNode.nodup_fieldsOf (nodup_contributing _ n) m) hf]
  -- Subgraphs stand at the same positions in the batch and among the contributions: a declaration
  -- at `i` is what the subgraph at `i` writes, and the other way round.
  constructor
  · rintro ⟨d, hd, hext, hover⟩
    obtain ⟨s, hs, hwrites, hexternal, _, _⟩ := exists_of_mem_fieldsOf_contributing h ht hd
    refine ⟨s, hs, hwrites, fun s' hs' hne htakesFrom => ?_, ?_⟩
    · obtain ⟨j, hj⟩ := List.mem_iff_getElem?.1 hs'
      obtain ⟨d', hd'⟩ := exists_mem_fieldsOf_contributing h ht hj htakesFrom.writes
      obtain ⟨s'', hs'', _, _, _, hoverrides⟩ := exists_of_mem_fieldsOf_contributing h ht hd'
      obtain rfl : s' = s'' := Option.some.inj (hj.symm.trans hs'')
      exact hover (j, d') hd' ((takesOver_iff_takesFrom h hs hj hoverrides).2 ⟨hne, htakesFrom⟩)
    · rw [← Bool.not_eq_true, hexternal] at hext
      by_cases hkey : s.KeySelects n m
      · exact .inr hkey
      · exact .inl fun hmark => hext ⟨hmark, hkey⟩
  · rintro ⟨s, hs, hresolves⟩
    obtain ⟨d, hd⟩ := exists_mem_fieldsOf_contributing h ht hs hresolves.writes
    obtain ⟨s', hs', _, hexternal, _, _⟩ := exists_of_mem_fieldsOf_contributing h ht hd
    obtain rfl : s = s' := Option.some.inj (hs.symm.trans hs')
    refine ⟨d, hd, ?_, ?_⟩
    · rw [← Bool.not_eq_true, hexternal]
      rintro ⟨hmark, hkey⟩
      exact hresolves.defines.elim (fun hnot => hnot hmark) hkey
    · rintro ⟨j, d'⟩ hd' htakesOver
      obtain ⟨s'', hs'', _, _, _, hoverrides⟩ := exists_of_mem_fieldsOf_contributing h ht hd'
      obtain ⟨hne, htakesFrom⟩ := (takesOver_iff_takesFrom h hs hs'' hoverrides).1 htakesOver
      exact hresolves.kept s'' (List.mem_of_getElem? hs'') hne htakesFrom

/-- Who reserves a field is who has it and does not share it. -/
theorem not_mem_shareableIn_graphOf_iff (h : schemas? batch = .ok schemas)
    (ht : (graphOf schemas).object? n = some t) (hf : t.fields.get? m = some f) {i : SubgraphId}
    {s : Subgraph} (hs : batch[i]? = some s) (hwrites : ∃ b f, s.Writes n m b f) :
    i ∉ f.shareableIn ↔ s.Reserves n m := by
  rw [get?_fields_of_contributing (Option.filter_eq_some_iff.1 ht).1] at hf
  rw [FieldNode.mem_shareableIn_iff hf]
  have hreserves : s.Reserves n m ↔ ¬ (s.Marks "shareable" n m ∨ s.KeySelects n m ∨
      s.document.version = .v1) := by
    rw [not_or, not_or]
    constructor
    · rintro ⟨hversion, hkey, hmark⟩
      exact ⟨hmark, hkey, by simp [hversion]⟩
    · rintro ⟨hmark, hkey, hversion⟩
      refine ⟨?_, hkey, hmark⟩
      cases hv : s.document.version with
      | v1 => exact absurd hv hversion
      | v2 => rfl
  rw [hreserves, not_iff_not]
  constructor
  · rintro ⟨d, hd, hshareable⟩
    obtain ⟨s', hs', _, _, hshares, _⟩ := exists_of_mem_fieldsOf_contributing h ht hd
    obtain rfl : s = s' := Option.some.inj (hs.symm.trans hs')
    exact hshares.1 hshareable
  · intro hshares
    obtain ⟨d, hd⟩ := exists_mem_fieldsOf_contributing h ht hs hwrites
    obtain ⟨s', hs', _, _, hshareable, _⟩ := exists_of_mem_fieldsOf_contributing h ht hd
    obtain rfl : s = s' := Option.some.inj (hs.symm.trans hs')
    exact ⟨d, hd, hshareable.2 hshares⟩

/-- Who resolves a field and does not share it, by the texts. -/
theorem mem_unshared_graphOf_iff (h : schemas? batch = .ok schemas)
    (ht : (graphOf schemas).object? n = some t) (hf : t.fields.get? m = some f) {i : SubgraphId} :
    i ∈ (f.resolvers.filter fun i => i ∉ f.shareableIn) ↔
      ∃ s, batch[i]? = some s ∧ s.Resolves batch n m ∧ s.Reserves n m := by
  rw [SubgraphSet.mem_filter, mem_resolvers_graphOf_iff h ht hf, decide_eq_true_eq]
  constructor
  · rintro ⟨⟨s, hs, hresolves⟩, hnot⟩
    exact ⟨s, hs, hresolves,
      (not_mem_shareableIn_graphOf_iff h ht hf hs hresolves.writes).1 hnot⟩
  · rintro ⟨s, hs, hresolves, hreserves⟩
    exact ⟨⟨s, hs, hresolves⟩,
      (not_mem_shareableIn_graphOf_iff h ht hf hs hresolves.writes).2 hreserves⟩

/-- The names of some subgraphs of a graph, by their texts. -/
theorem mem_namesOf_graphOf_iff (h : schemas? batch = .ok schemas) {set : SubgraphSet}
    {P : Subgraph → Prop} (hset : ∀ i, i ∈ set ↔ ∃ s, batch[i]? = some s ∧ P s) {x : String} :
    x ∈ (graphOf schemas).namesOf set ↔ ∃ s ∈ batch, s.name = x ∧ P s := by
  have hname : ∀ {i s}, batch[i]? = some s → (graphOf schemas).nameOf i = s.name := by
    intro i s hs
    rw [(schemas?_eq_ok_iff.1 h).2]
    simp [graphOf, Graph.nameOf, Graph.ofSchemas, hs, Schema.contribution, Subgraph.schema]
  rw [Graph.namesOf, List.mem_map]
  constructor
  · rintro ⟨i, hi, rfl⟩
    obtain ⟨s, hs, hP⟩ := (hset i).1 hi
    exact ⟨s, List.mem_of_getElem? hs, (hname hs).symm, hP⟩
  · rintro ⟨s, hs, rfl, hP⟩
    obtain ⟨i, hi⟩ := List.mem_iff_getElem?.1 hs
    exact ⟨i, (hset i).2 ⟨s, hi, hP⟩, hname hi⟩

theorem SubgraphSet.two_le_size_iff {s : SubgraphSet} :
    2 ≤ s.size ↔ ∃ i ∈ s, ∃ j ∈ s, i ≠ j := by
  have hnodup : s.ids.Nodup := s.sorted.imp Nat.ne_of_lt
  have hcard : s.size = s.ids.toFinset.card := (List.toFinset_card_of_nodup hnodup).symm
  rw [hcard, Nat.succ_le_iff, Finset.one_lt_card]
  simp only [List.mem_toFinset, mem_def]

/-- A field is in a clash exactly if it has two resolvers and one of them reserves it. -/
theorem sharingClash_iff (h : schemas? batch = .ok schemas)
    (ht : (graphOf schemas).object? n = some t) (hf : t.fields.get? m = some f) :
    SharingClash batch n m ↔ 2 ≤ f.resolvers.size ∧
      (f.resolvers.filter fun i => i ∉ f.shareableIn).isEmpty = false := by
  rw [SubgraphSet.two_le_size_iff, SubgraphSet.isEmpty_eq_false_iff]
  simp only [mem_resolvers_graphOf_iff h ht hf, mem_unshared_graphOf_iff h ht hf]
  constructor
  · rintro ⟨⟨s, hs, s', hs', hne, hresolves, hresolves'⟩, s'', hs'', hreserved⟩
    obtain ⟨i, hi⟩ := List.mem_iff_getElem?.1 hs
    obtain ⟨j, hj⟩ := List.mem_iff_getElem?.1 hs'
    obtain ⟨k, hk⟩ := List.mem_iff_getElem?.1 hs''
    refine ⟨⟨i, ⟨s, hi, hresolves⟩, j, ⟨s', hj, hresolves'⟩, ?_⟩, k, s'', hk, hreserved⟩
    rintro rfl
    rw [hi] at hj
    cases hj
    exact hne rfl
  · rintro ⟨⟨i, ⟨s, hs, hresolves⟩, j, ⟨s', hs', hresolves'⟩, hne⟩, k, s'', hs'', hreserved⟩
    have hnames : s.name ≠ s'.name := fun hname => hne (eq_of_name_eq h hs hs' hname)
    exact ⟨⟨s, List.mem_of_getElem? hs, s', List.mem_of_getElem? hs', hnames, hresolves,
      hresolves'⟩, s'', List.mem_of_getElem? hs'', hreserved⟩

/-- The conflict about a field of an object type that is not shared is found once. -/
theorem filter_conflicts_notShareable {models : List Schema}
    (ht : (Graph.ofSchemas models).object? n = some t) (hf : t.fields.get? m = some f) :
    (conflicts models).filter (Conflict.isAbout .notShareable n m) =
      let unshared := f.resolvers.filter fun i => i ∉ f.shareableIn
      if 2 ≤ f.resolvers.size ∧ unshared.isEmpty = false then
        [.notShareable n m ((Graph.ofSchemas models).namesOf f.resolvers)
          ((Graph.ofSchemas models).namesOf unshared)]
      else [] := by
  obtain ⟨hget, hobject⟩ := Option.filter_eq_some_iff.1 ht
  rw [filter_conflicts_isAbout (fun n t m f =>
    let unshared := f.resolvers.filter fun i => i ∉ f.shareableIn
    if t.kind = .object && 2 ≤ f.resolvers.size && !unshared.isEmpty then
      some (.notShareable n m ((Graph.ofSchemas models).namesOf f.resolvers)
        ((Graph.ofSchemas models).namesOf unshared))
    else none) rfl ?_ hget hf]
  · simp only [hobject, Bool.true_and, Bool.and_eq_true, decide_eq_true_eq, Bool.not_eq_true']
    split <;> rfl
  · intro n t m f c hc
    simp only at hc
    split at hc <;> cases hc
    exact ⟨rfl, rfl, rfl⟩

/-- **Shared fields**: for a field of an object type of the graph of a checked batch there is one
conflict about sharing if two subgraphs resolve it and one that resolves it reserves it, and none
otherwise.  The conflict names the subgraphs that resolve the field and those of them that reserve
it. -/
theorem sharing_reported (h : schemas? batch = .ok schemas)
    (ht : (graphOf schemas).object? n = some t) (hf : t.fields.get? m = some f) :
    let found := (conflicts (schemas.map Schema.contribution)).filter
      (Conflict.isAbout .notShareable n m)
    (SharingClash batch n m → ∃ ss us, found = [.notShareable n m ss us] ∧
      (∀ x, x ∈ ss ↔ ∃ s ∈ batch, s.name = x ∧ s.Resolves batch n m) ∧
      ∀ x, x ∈ us ↔ ∃ s ∈ batch, s.name = x ∧ s.Resolves batch n m ∧ s.Reserves n m) ∧
    (¬ SharingClash batch n m → found = []) := by
  intro found
  have hfound : found = _ := filter_conflicts_notShareable ht hf
  have hclash := sharingClash_iff h ht hf
  refine ⟨fun hc => ⟨_, _, hfound.trans (if_pos (hclash.1 hc)), ?_, ?_⟩, fun hc => ?_⟩
  · exact fun x => mem_namesOf_graphOf_iff h fun _ => mem_resolvers_graphOf_iff h ht hf
  · exact fun x => mem_namesOf_graphOf_iff h fun _ => mem_unshared_graphOf_iff h ht hf
  · exact hfound.trans (if_neg fun hnot => hc (hclash.2 hnot))

end Batch

/-! ### A field that is not shared -/

/-- Three subgraphs with a type.  The first one shares one of its fields by the mark of an
extension, and the third one takes this field over; the other field the second one has externally,
by the mark of its block. -/
def unsharedBatch : List Subgraph := Subgraph.batchOfTexts
  [("a", "type Query \x7b t: T @shareable \x7d " ++
      "type T @key(fields: \"id\") \x7b id: ID! x: Int \x7d " ++
      "extend type T @shareable \x7b y: Int \x7d"),
    ("b", "extend type T @key(fields: \"id\") @external \x7b id: ID! x: Int \x7d"),
    ("c", "type T @key(fields: \"id\") \x7b id: ID! x: Int y: Int @override(from: \"a\") \x7d")]

/-- The schemas of the three subgraphs. -/
def unsharedSchemas : List Schema := (schemas? unsharedBatch).toOption.getD []

/-- What is found about sharing at a field. -/
def unsharedConflicts (n m : Name) : List Conflict :=
  (conflicts (unsharedSchemas.map Schema.contribution)).filter
    (Conflict.isAbout .notShareable n m)

/-- The first and the third subgraph resolve the field that neither shares, and it is in conflict.
All three resolve the field of the key and one the field that is taken over, and neither is. -/
theorem sharing_reported_unshared :
    schemas? unsharedBatch = .ok unsharedSchemas ∧
    ∃ t, (graphOf unsharedSchemas).object? ⟨"T", by decide⟩ = some t ∧
      t.fields.names = [⟨"id", by decide⟩, ⟨"x", by decide⟩, ⟨"y", by decide⟩] ∧
      (∃ ss us, unsharedConflicts ⟨"T", by decide⟩ ⟨"x", by decide⟩ =
          [.notShareable ⟨"T", by decide⟩ ⟨"x", by decide⟩ ss us] ∧
        "a" ∈ ss ∧ "b" ∉ ss ∧ "c" ∈ us) ∧
      (∀ s ∈ unsharedBatch, s.Resolves unsharedBatch ⟨"T", by decide⟩ ⟨"id", by decide⟩) ∧
      unsharedConflicts ⟨"T", by decide⟩ ⟨"id", by decide⟩ = [] ∧
      unsharedConflicts ⟨"T", by decide⟩ ⟨"y", by decide⟩ = [] := by
  have hgraph : schemas? unsharedBatch = .ok unsharedSchemas ∧
      ∃ t ∈ (graphOf unsharedSchemas).object? ⟨"T", by decide⟩,
        t.fields.names = [⟨"id", by decide⟩, ⟨"x", by decide⟩, ⟨"y", by decide⟩] := by
    decide +kernel
  -- what is reported follows from the general theorem: only what the texts say is computed
  have htexts : SharingClash unsharedBatch ⟨"T", by decide⟩ ⟨"x", by decide⟩ ∧
      (∃ s ∈ unsharedBatch, s.name = "a" ∧
        s.Resolves unsharedBatch ⟨"T", by decide⟩ ⟨"x", by decide⟩) ∧
      (¬ ∃ s ∈ unsharedBatch, s.name = "b" ∧
        s.Resolves unsharedBatch ⟨"T", by decide⟩ ⟨"x", by decide⟩) ∧
      (∃ s ∈ unsharedBatch, s.name = "c" ∧
        s.Resolves unsharedBatch ⟨"T", by decide⟩ ⟨"x", by decide⟩ ∧
        s.Reserves ⟨"T", by decide⟩ ⟨"x", by decide⟩) ∧
      (∀ s ∈ unsharedBatch, s.Resolves unsharedBatch ⟨"T", by decide⟩ ⟨"id", by decide⟩) ∧
      ¬ SharingClash unsharedBatch ⟨"T", by decide⟩ ⟨"id", by decide⟩ ∧
      ¬ SharingClash unsharedBatch ⟨"T", by decide⟩ ⟨"y", by decide⟩ := by decide +kernel
  obtain ⟨hschemas, t, ht, hnames⟩ := hgraph
  obtain ⟨hclash, ha, hb, hc, hid, hnoId, hnoY⟩ := htexts
  have hfield : ∀ m ∈ t.fields.names, ∃ f, t.fields.get? m = some f :=
    fun _ => Table.mem_names_iff.1
  obtain ⟨i, hi⟩ := hfield ⟨"id", by decide⟩ (by simp [hnames])
  obtain ⟨x, hx⟩ := hfield ⟨"x", by decide⟩ (by simp [hnames])
  obtain ⟨y, hy⟩ := hfield ⟨"y", by decide⟩ (by simp [hnames])
  obtain ⟨ss, us, hfound, hss, hus⟩ := (sharing_reported hschemas ht hx).1 hclash
  exact ⟨hschemas, t, ht, hnames, ⟨ss, us, hfound, (hss "a").2 ha, fun h => hb ((hss "b").1 h),
    (hus "c").2 hc⟩, hid, (sharing_reported hschemas ht hi).2 hnoId,
    (sharing_reported hschemas ht hy).2 hnoY⟩

end Federation
