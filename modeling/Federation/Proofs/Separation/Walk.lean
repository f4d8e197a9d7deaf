import Federation.Proofs.Graph.Origin
import Federation.Proofs.Graph.Selections
import Federation.Proofs.Order.Walk
import Federation.Proofs.Resolvability.Coincidence
import Federation.Proofs.Separation.Part

/-!
# Walking unrelated batches

A walk below a field of one of two unrelated batches stays within the types that the other one does
not declare, where the graph of both and that of the part coincide (`Graph.coincide_ofPart`).  The
only place at which it looks at a type of both is a condition on a root operation type within a
field set, and there it reads fields of its own batch alone (`Graph.canResolve_ofPart`).

So what is reported for both batches together is what is reported for each of them
(`Graph.mem_entries_append_iff`).
-/

namespace Federation.Graph

variable {schemas l x r : List Schema} {n m : Name} {t : TypeNode}

/-! ### What the parts of types are declared with -/

section OfSchemas

variable (ht : (ofSchemas schemas).types.get? n = some t)

include ht

theorem exists_declares_of_get?_interfaces {i : Name} {s : SubgraphSet}
    (hi : t.interfaces.get? i = some s) : ∃ d, Declares schemas n d ∧ i ∈ d.interfaces := by
  obtain ⟨_, ds, rfl, _, hds⟩ := exists_ofDeclarations_of_get?_ofSchemas ht
  obtain ⟨⟨d, hd, hid⟩, _⟩ := TypeNode.get?_interfaces_iff.1 hi
  exact ⟨d.2, declares_iff.2 ⟨d.1, (hds d hd).1⟩, hid⟩

theorem exists_declares_of_get?_members {o : Name} {s : SubgraphSet}
    (ho : t.members.get? o = some s) : ∃ d, Declares schemas n d ∧ o ∈ d.members := by
  obtain ⟨_, ds, rfl, _, hds⟩ := exists_ofDeclarations_of_get?_ofSchemas ht
  obtain ⟨⟨d, hd, hod⟩, _⟩ := TypeNode.get?_members_iff.1 ho
  exact ⟨d.2, declares_iff.2 ⟨d.1, (hds d hd).1⟩, hod⟩

theorem exists_declares_of_mem_resolvableKeys {i : SubgraphId} {k : EntityKey}
    (hk : (i, k) ∈ t.resolvableKeys) : ∃ d, Declares schemas n d ∧ k ∈ d.keys := by
  obtain ⟨_, ds, rfl, hnodup, hds⟩ := exists_ofDeclarations_of_get?_ofSchemas ht
  obtain ⟨d, hd, hkd, _⟩ := (TypeNode.mem_resolvableKeys_iff hnodup).1 hk
  exact ⟨d, declares_iff.2 ⟨i, (hds _ hd).1⟩, hkd⟩

variable {f : FieldNode} (hf : t.fields.get? m = some f)

include hf

theorem exists_declaresField_of_get?_fields :
    ∃ e, DeclaresField schemas n m e ∧ f.definition.type = e.definition.type := by
  obtain ⟨_, ds, rfl, _, hds⟩ := exists_ofDeclarations_of_get?_ofSchemas ht
  obtain ⟨_, ⟨d, hd, e, he, rfl⟩, htype⟩ := (TypeNode.madeOf_of_get?_fields hf).type
  exact ⟨e, ⟨d.2, declares_iff.2 ⟨d.1, (hds d hd).1⟩, he⟩, htype⟩

theorem exists_declares_of_get?_requires {i : SubgraphId} {F : FieldSet}
    (hF : f.requires.get? i = some F) :
    ∃ d e, Declares schemas n d ∧ d.fields.get? m = some e ∧ e.requires = some F := by
  obtain ⟨_, ds, rfl, hnodup, hds⟩ := exists_ofDeclarations_of_get?_ofSchemas ht
  rw [TypeNode.get?_fields] at hf
  obtain ⟨e, he, hF⟩ := (FieldNode.get?_requires_iff (TypeNode.nodup_fieldsOf hnodup m) hf).1 hF
  obtain ⟨d, hd, hde⟩ := TypeNode.mem_fieldsOf_iff.1 he
  exact ⟨d, e, declares_iff.2 ⟨i, (hds _ hd).1⟩, hde, hF⟩

theorem exists_mem_declarationsOf_of_mem_resolvers {i : SubgraphId} (hi : i ∈ f.resolvers) :
    ∃ d, (i, d) ∈ declarationsOf schemas n := by
  obtain ⟨_, ds, rfl, _, hds⟩ := exists_ofDeclarations_of_get?_ofSchemas ht
  rw [TypeNode.get?_fields] at hf
  obtain ⟨e, he⟩ := (FieldNode.mem_declaredIn_iff hf).1 (FieldNode.mem_resolvers_iff.1 hi).1
  obtain ⟨d, hd, _⟩ := TypeNode.mem_fieldsOf_iff.1 he
  exact ⟨d, (hds _ hd).1⟩

end OfSchemas

/-! ### Within a part -/

section Part

theorem exists_declaresField_of_ofPart {f : FieldNode}
    (ht : (ofPart l x r).types.get? n = some t) (hf : t.fields.get? m = some f) :
    ∃ e, DeclaresField x n m e ∧ f.definition.type = e.definition.type := by
  obtain ⟨e, ⟨d, hd, he⟩, htype⟩ := exists_declaresField_of_get?_fields ht hf
  exact ⟨e, ⟨d, declares_partOf_iff.1 hd, he⟩, htype⟩

/-- The subgraphs that resolve a field of the part have their names in the whole batch. -/
theorem nameOf_of_mem_resolvers {f : FieldNode} (ht : (ofPart l x r).types.get? n = some t)
    (hf : t.fields.get? m = some f) {i : SubgraphId} (hi : i ∈ f.resolvers) :
    (ofSchemas (l ++ x ++ r)).nameOf i = (ofPart l x r).nameOf i := by
  obtain ⟨d, hd⟩ := exists_mem_declarationsOf_of_mem_resolvers ht hf hi
  rw [declarationsOf_partOf] at hd
  obtain ⟨⟨j, d'⟩, hd', he⟩ := List.mem_map.1 hd
  have hj := lt_of_mem_declarationsOf hd'
  simp only [rotation_of_lt hj, Prod.mk.injEq] at he
  obtain ⟨rfl, _⟩ := he
  exact nameOf_ofPart (by omega) (by omega)

variable (h : Unrelated x (l ++ r)) (hx : Grounded x)

include h hx

/-- A field of the part returns a type that the rest does not declare. -/
theorem avoids_returns_ofPart {f : FieldNode} (ht : (ofPart l x r).types.get? n = some t)
    (hf : t.fields.get? m = some f) : Avoids (l ++ r) f.returns := by
  obtain ⟨e, he, htype⟩ := exists_declaresField_of_ofPart ht hf
  rw [FieldNode.returns, htype]
  exact h.avoids_returns hx he

/-- **Selections of the part**: a field set that fits declarations of the part is resolved alike in
the graph of the part and in the whole one, on types that have the same fields of those
declarations. -/
theorem canResolve_ofPart {types : Table TypeDeclaration} (htypes : DeclaresEach x types)
    {F : FieldSet} {n : Name} (hF : F.FitsIn types n) {t t' : TypeNode}
    (hfields : ∀ d m f, types.get? n = some d → d.fields.get? m = some f →
      t'.fields.get? m = t.fields.get? m ∧
        ∀ f', t.fields.get? m = some f' → Avoids (l ++ r) f'.returns)
    (available : SubgraphSet) :
    (ofSchemas (l ++ x ++ r)).canResolve available t' F =
      (ofPart l x r).canResolve available t F := by
  induction F generalizing n t t' available with
  | empty => rfl
  | field m sub rest ihs ihr =>
    obtain ⟨⟨d, f, hd, hf, hsub⟩, hrest⟩ := hF
    obtain ⟨hsame, havoids⟩ := hfields d m f hd hf
    rw [canResolve, canResolve, ihr hrest hfields, hsame]
    cases hf' : t.fields.get? m with
    | none => rfl
    | some f' =>
      cases hempty : sub.isEmpty with
      | true => simp
      | false =>
        have hbelow := get?_ofPart (x := x) (havoids f' hf')
        cases hchild : (ofPart l x r).types.get? f'.returns with
        | none => simp only [hbelow, hchild]
        | some child =>
          -- The type below is the same in both graphs.
          have hsub := @ihs _ (hsub hempty).2 child child fun _ _ _ _ _ =>
            ⟨rfl, fun _ hf'' => avoids_returns_ofPart h hx hchild hf''⟩
          simp only [hbelow, hchild, hsub]
  | fragment c sub rest ihs ihr =>
    obtain ⟨hcomposite, hsub, hrest⟩ := hF
    rw [canResolve, canResolve, ihr hrest hfields]
    refine congrArg (· && _) ?_
    cases c with
    | none => exact ihs hsub hfields available
    | some c =>
      obtain ⟨d, hd⟩ := hcomposite.exists_get?
      obtain ⟨e, he, hfields⟩ := htypes c d hd
      obtain ⟨u, u', hu, hu', _, hsame⟩ := exists_types_of_declares h he
      simp only [Option.bind_some, hu, hu', Option.getD_some]
      refine ihs hsub (fun d' m f hd' hf => ?_) available
      obtain rfl := Option.some.inj (hd.symm.trans hd')
      obtain ⟨f', hf'⟩ := hfields m f hf
      exact ⟨hsame m f' ⟨e, he, hf'⟩, fun _ => avoids_returns_ofPart h hx hu⟩

/-- What the part selects on one of its types is resolved alike in both graphs. -/
theorem canResolve_of_selects {F : FieldSet} (ht : (ofPart l x r).types.get? n = some t)
    (hF : Selects x n F) (available : SubgraphSet) :
    (ofSchemas (l ++ x ++ r)).canResolve available t F =
      (ofPart l x r).canResolve available t F := by
  obtain ⟨types, htypes, hF⟩ := hF
  exact canResolve_ofPart h hx htypes hF
    (fun _ _ _ _ _ => ⟨rfl, fun _ => avoids_returns_ofPart h hx ht⟩) available

/-- The possible types of an abstract type of the part are not declared by the rest. -/
theorem avoids_of_membership? (ho : Grounded (l ++ r)) (hn : Avoids (l ++ r) n)
    (ht : (ofPart l x r).types.get? n = some t) {o : Name} {node : TypeNode} {s : SubgraphSet}
    (hnode : (ofSchemas (l ++ x ++ r)).types.get? o = some node ∨
      (ofPart l x r).types.get? o = some node)
    (hs : membership? n t (o, node) = some s) : Avoids (l ++ r) o := by
  unfold membership? at hs
  cases hk : t.kind <;> simp only [hk, reduceCtorEq] at hs
  · -- The object type lists the interface in one of its declarations.
    obtain ⟨d, hd, hnd⟩ : ∃ d, Declares (x ++ (l ++ r)) o d ∧ n ∈ d.interfaces := by
      rcases hnode with hnode | hnode
      · obtain ⟨d, hd, hnd⟩ := exists_declares_of_get?_interfaces hnode hs
        exact ⟨d, declares_append_iff.2 (declares_whole_iff.1 hd), hnd⟩
      · obtain ⟨d, hd, hnd⟩ := exists_declares_of_get?_interfaces hnode hs
        exact ⟨d, declares_append_iff.2 (.inl (declares_partOf_iff.1 hd)), hnd⟩
    exact h.avoids_implementation ho hn hd hnd
  · obtain ⟨d, hd, hod⟩ := exists_declares_of_get?_members ht hs
    exact h.avoids_member hx (declares_partOf_iff.1 hd) hod

/-- **A part and the whole coincide** on the types that the rest does not declare. -/
theorem coincide_ofPart (ho : Grounded (l ++ r)) :
    (ofPart l x r).Coincide (Avoids (l ++ r)) (ofSchemas (l ++ x ++ r)) where
  type := get?_ofPart
  returns _ ht hf := avoids_returns_ofPart h hx ht hf
  -- what is below a type that the rest does not declare is not declared by the rest either
  possible {n t o s} hn ht _ := by
    rw [mem_possibleTypes_iff, mem_possibleTypes_iff]
    constructor
    · rintro ⟨node, hnode, hkind, hs⟩
      have havoids := avoids_of_membership? h hx ho hn ht (.inl hnode) hs
      exact ⟨node, (get?_ofPart havoids).symm.trans hnode, hkind, hs⟩
    · rintro ⟨node, hnode, hkind, hs⟩
      have havoids := avoids_of_membership? h hx ho hn ht (.inr hnode) hs
      exact ⟨node, (get?_ofPart havoids).trans hnode, hkind, hs⟩
  possibleInner {n t o s} hn ht _ hs := by
    obtain ⟨node, hnode, _, hs⟩ := mem_possibleTypes_iff.1 hs
    exact avoids_of_membership? h hx ho hn ht (.inr hnode) hs
  key {n t i k} _ ht hk := by
    obtain ⟨d, hd, hkd⟩ := exists_declares_of_mem_resolvableKeys ht hk
    exact canResolve_of_selects h hx ht (hx.key (declares_partOf_iff.1 hd) hkd)
  required {n t m f i F} _ ht hf hF := by
    obtain ⟨d, e, hd, he, hF⟩ := exists_declares_of_get?_requires ht hf hF
    exact canResolve_of_selects h hx ht (hx.required (declares_partOf_iff.1 hd) he hF)
  name {n t m f i} _ ht hf hi := nameOf_of_mem_resolvers ht hf hi

end Part

/-! ### Reports -/

section Reports

variable (h : Unrelated x (l ++ r))

include h

/-- A root field that the part declares is the same in both graphs. -/
theorem mem_rootFields_ofPart_iff {q : RootField} {e : FieldDeclaration}
    (he : DeclaresField x q.type q.name e) :
    q ∈ (ofSchemas (l ++ x ++ r)).rootFields ↔ q ∈ (ofPart l x r).rootFields := by
  obtain ⟨d, hd, _⟩ := id he
  obtain ⟨t, t', ht, ht', hkind, hsame⟩ := exists_types_of_declares h hd
  simp only [mem_rootFields_iff, ht, ht', Option.some.injEq, exists_eq_left', hkind,
    hsame q.name e he]

variable (hx : Grounded x) (ho : Grounded (l ++ r))

include hx ho

/-- What is reported for the part in its place is what is reported in the whole for the root fields
that the part declares. -/
theorem mem_unresolvables_ofPart_iff {u : Unresolvable} :
    u ∈ (ofPart l x r).unresolvables ↔ ∃ q ∈ (ofSchemas (l ++ x ++ r)).rootFields,
      (∃ e, DeclaresField x q.type q.name e) ∧
        ∃ s ∈ (ofSchemas (l ++ x ++ r)).starts q, ∃ y ∈ (ofSchemas (l ++ x ++ r)).walk [] s.1 s.2,
          u = (ofSchemas (l ++ x ++ r)).unresolvable ((ofSchemas (l ++ x ++ r)).origin q) y := by
  have hreports : ∀ {q}, q ∈ (ofPart l x r).rootFields → (_ ↔ _) := fun {q} hq => by
    obtain ⟨_, t, ht, _, hf, _⟩ := mem_rootFields_iff.1 hq
    exact (coincide_ofPart h hx ho).mem_reports_iff (avoids_returns_ofPart h hx ht hf)
      (fun i hi => nameOf_of_mem_resolvers ht hf hi) (u := u)
  rw [mem_unresolvables_iff]
  constructor
  · rintro ⟨q, hq, hu⟩
    obtain ⟨_, t, ht, _, hf, _⟩ := mem_rootFields_iff.1 hq
    obtain ⟨e, he, _⟩ := exists_declaresField_of_ofPart ht hf
    exact ⟨q, (mem_rootFields_ofPart_iff h he).2 hq, ⟨e, he⟩, (hreports hq).2 hu⟩
  · rintro ⟨q, hq, ⟨e, he⟩, hu⟩
    have hq := (mem_rootFields_ofPart_iff h he).1 hq
    exact ⟨q, hq, (hreports hq).1 hu⟩

end Reports

section Both

variable {a b : List Schema} (h : Unrelated a b) (ha : Grounded a) (hb : Grounded b)

include h ha hb

/-- What is reported for both batches together is what is reported for them in their places. -/
theorem mem_unresolvables_append_iff {u : Unresolvable} :
    u ∈ (ofSchemas (a ++ b)).unresolvables ↔
      u ∈ (ofPart [] a b).unresolvables ∨ u ∈ (ofPart a b []).unresolvables := by
  have hleft := mem_unresolvables_ofPart_iff (l := []) (x := a) (r := b) h ha hb (u := u)
  have hright := mem_unresolvables_ofPart_iff (l := a) (x := b) (r := []) (u := u)
    (by rw [List.append_nil]; exact h.symm) hb (by rw [List.append_nil]; exact ha)
  rw [List.nil_append] at hleft
  rw [List.append_nil] at hright
  rw [hleft, hright, mem_unresolvables_iff]
  constructor
  · rintro ⟨q, hq, hu⟩
    obtain ⟨_, t, ht, _, hf, _⟩ := mem_rootFields_iff.1 hq
    obtain ⟨e, he, _⟩ := exists_declaresField_of_get?_fields ht hf
    exact (declaresField_append_iff.1 he).imp (fun he => ⟨q, hq, ⟨e, he⟩, hu⟩)
      fun he => ⟨q, hq, ⟨e, he⟩, hu⟩
  · rintro (⟨q, hq, _, hu⟩ | ⟨q, hq, _, hu⟩) <;> exact ⟨q, hq, hu⟩

/-- **Reports of unrelated batches**: both together lead to the reports of each of them. -/
theorem mem_entries_append_iff (hnames : ((a ++ b).map (·.name)).Nodup) {e : Unresolvable.Entry} :
    e ∈ (ofSchemas (a ++ b)).unresolvables.map Unresolvable.entry ↔
      e ∈ (ofSchemas a).unresolvables.map Unresolvable.entry ∨
        e ∈ (ofSchemas b).unresolvables.map Unresolvable.entry := by
  have hleft := renumbered_ofPart (l := []) (x := a) (r := b) hnames
  have hright := renumbered_ofPart (l := a) (x := b) (r := []) (by rwa [List.append_nil])
  have hparts : e ∈ (ofSchemas (a ++ b)).unresolvables.map Unresolvable.entry ↔
      e ∈ (ofPart [] a b).unresolvables.map Unresolvable.entry ∨
        e ∈ (ofPart a b []).unresolvables.map Unresolvable.entry := by
    simp only [List.mem_map, mem_unresolvables_append_iff h ha hb, or_and_right, exists_or]
  rw [hparts]
  exact or_congr ⟨hleft.symm.mem_entries, hleft.mem_entries⟩
    ⟨hright.symm.mem_entries, hright.mem_entries⟩

end Both

end Federation.Graph
