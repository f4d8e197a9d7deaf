import Federation.Proofs.Graph.Concordance
import Federation.Proofs.Graph.Directives

/-!
# Conflicts found along the merge

The merge remarks on each declaration against what was merged before it.  `remarks` is what a fold
has to remark on, item by item.  Where a part of the state is itself a fold over parts of the items,
the remarks on that part are those along this fold (`remarks_part`).  So the conflicts about a type
are found along the declarations of its name (`filter_mergeConflicts`), and those about a field or
an input field of it along the declarations of that field in those which count
(`filter_field_mergeConflicts`, `filter_input_mergeConflicts`).
-/

namespace Federation

/-! ### Remarks along a fold -/

/-- What there is to remark on along a fold: for each item, what `remark` says of it in the state
that the items before it lead to. -/
def remarks {S E C : Type} (step : S → E → S) (remark : S → E → List C) : S → List E → List C
  | _, [] => []
  | s, e :: es => remark s e ++ remarks step remark (step s e) es

section Remarks

variable {S P E F C : Type} {step : S → E → S} {remark : S → E → List C}

@[simp] theorem remarks_nil {s : S} : remarks step remark s [] = [] := rfl

@[simp] theorem remarks_cons {s : S} {e : E} {es : List E} :
    remarks step remark s (e :: es) = remark s e ++ remarks step remark (step s e) es := rfl

theorem remarks_append {s : S} {l m : List E} :
    remarks step remark s (l ++ m) =
      remarks step remark s l ++ remarks step remark (l.foldl step s) m := by
  induction l generalizing s with
  | nil => rfl
  | cons e l ih => rw [List.cons_append, remarks_cons, remarks_cons, ih, List.append_assoc,
      List.foldl_cons]

/-- Every remark is on some item, in the state that the items before it lead to. -/
theorem mem_remarks_iff {s : S} {l : List E} {c : C} : c ∈ remarks step remark s l ↔
    ∃ pre e post, l = pre ++ e :: post ∧ c ∈ remark (pre.foldl step s) e := by
  induction l generalizing s with
  | nil => simp
  | cons e l ih =>
    rw [remarks_cons, List.mem_append, ih]
    constructor
    · rintro (h | ⟨pre, d, post, rfl, h⟩)
      · exact ⟨[], e, l, rfl, h⟩
      · exact ⟨e :: pre, d, post, rfl, h⟩
    · rintro ⟨pre, d, post, hl, h⟩
      cases pre with
      | nil =>
        cases hl
        exact .inl h
      | cons e' pre =>
        cases hl
        exact .inr ⟨pre, d, post, rfl, h⟩

/-- The remarks of some sort are those that each item gives rise to of that sort. -/
theorem filter_remarks {p : C → Bool} {s : S} {l : List E} : (remarks step remark s l).filter p =
    remarks step (fun s e => (remark s e).filter p) s l := by
  induction l generalizing s with
  | nil => rfl
  | cons e l ih => rw [remarks_cons, List.filter_append, ih, remarks_cons]

/-- Where each step of a fold changes a part of the state by what it selects from its item, and the
remarks are on that part and on what is selected, they are those along the fold of the part. -/
theorem remarks_part (part : S → P) (select : E → Option F) (stepPart : P → F → P)
    (remarkPart : P → F → List C)
    (hstep : ∀ s e, part (step s e) = (select e).elim (part s) (stepPart (part s)))
    (hremark : ∀ s e, remark s e = (select e).elim [] (remarkPart (part s))) (l : List E) (s : S) :
    remarks step remark s l = remarks stepPart remarkPart (part s) (l.filterMap select) := by
  induction l generalizing s with
  | nil => rfl
  | cons e l ih =>
    rw [remarks_cons, ih, hremark, hstep, List.filterMap_cons]
    cases select e <;> rfl

/-- Where the first item makes the state that it is remarked on in, and there is nothing to remark
on it there, the remarks are those from that state. -/
theorem remarks_start (start : E → S) (hstart : ∀ e, remark (start e) e = []) (l : List E) :
    remarks (fun s? e => some (step (s?.getD (start e)) e))
        (fun s? e => s?.elim [] fun s => remark s e) none l =
      l.head?.elim [] fun e => remarks step remark (start e) l := by
  have key : ∀ (l : List E) (s : S),
      remarks (fun s? e => some (step (s?.getD (start e)) e))
        (fun s? e => s?.elim [] fun s => remark s e) (some s) l = remarks step remark s l := by
    intro l
    induction l with
    | nil => exact fun _ => rfl
    | cons e l ih =>
      intro s
      rw [remarks_cons, ih]
      rfl
  cases l with
  | nil => rfl
  | cons e l =>
    rw [remarks_cons, key, List.head?_cons, Option.elim_some, remarks_cons, hstart]
    rfl

end Remarks

/-- What is found entry by entry of a sort that is about one name is found at the value of this
name. -/
theorem Table.filter_flatMap_entries {α C : Type} {p : C → Bool} {f : Name → α → List C} {m : Name}
    (h : ∀ n, n ≠ m → ∀ a, (f n a).filter p = []) (t : Table α) :
    (t.entries.flatMap fun e => f e.1 e.2).filter p =
      (t.get? m).elim [] fun a => (f m a).filter p := by
  have hselect : ∀ es : List (Name × α), (es.flatMap fun e => f e.1 e.2).filter p =
      (es.filterMap fun e => if e.1 = m then some ((f m e.2).filter p) else none).flatten := by
    intro es
    induction es with
    | nil => rfl
    | cons e es ih =>
      obtain ⟨n, a⟩ := e
      rw [List.flatMap_cons, List.filter_append, ih, List.filterMap_cons]
      by_cases hn : n = m
      · simp [hn]
      · simp [hn, h n hn a]
  rw [hselect, filterMap_entries t m fun a => (f m a).filter p]
  cases t.get? m <;> simp

/-- Two tables are compared entry by entry, so the remarks of a sort that is about one name are
those on the values of this name. -/
theorem Table.filter_flatMap_both {α β C : Type} {p : C → Bool} {f : Name → α → β → List C}
    {m : Name} (h : ∀ n, n ≠ m → ∀ a b, (f n a b).filter p = []) (t : Table α) (u : Table β) :
    (t.entries.flatMap fun e => (u.get? e.1).elim [] (f e.1 e.2)).filter p =
      (t.get? m).elim [] fun a => (u.get? m).elim [] fun b => (f m a b).filter p := by
  have hentry : ∀ n a, ((u.get? n).elim [] (f n a)).filter p =
      (u.get? n).elim [] fun b => (f n a b).filter p := by
    intro n a
    cases u.get? n <;> rfl
  refine (filter_flatMap_entries (m := m) (f := fun n a => (u.get? n).elim [] (f n a))
    (fun n hn a => ?_) t).trans ?_
  · rw [hentry]
    cases u.get? n with
    | none => rfl
    | some b => exact h n hn a b
  · simp only [hentry]

/-! ### What counts for a type -/

/-- The declarations that a type of a batch is made of: those of the kind of the first one. -/
def contributing (schemas : List Schema) (n : Name) : List (SubgraphId × TypeDeclaration) :=
  (declarationsOf schemas n).head?.elim [] fun d => contributors schemas n d.2.kind

theorem contributing_eq {schemas : List Schema} {n : Name} {t : TypeNode}
    (ht : (Graph.ofSchemas schemas).types.get? n = some t) :
    contributing schemas n = contributors schemas n t.kind := by
  rw [get?_ofSchemas] at ht
  obtain ⟨d, hd, rfl⟩ := Option.map_eq_some_iff.1 ht
  rw [contributing, hd, Option.elim_some, TypeNode.kind_ofDeclarations]

/-- A field of a type is made of its declarations in those that count. -/
theorem get?_fields_of_contributing {schemas : List Schema} {n m : Name} {t : TypeNode}
    (ht : (Graph.ofSchemas schemas).types.get? n = some t) : t.fields.get? m =
      FieldNode.ofDeclarations? (schemas.map (·.name))
        (TypeNode.fieldsOf (contributing schemas n) m) := by
  rw [contributing_eq ht, ← TypeNode.get?_fields, ← eq_ofDeclarations_of_get? ht]

theorem nodup_contributing (schemas : List Schema) (n : Name) :
    ((contributing schemas n).map Prod.fst).Nodup := by
  unfold contributing contributors
  cases (declarationsOf schemas n).head? with
  | none => exact List.nodup_nil
  | some d => exact (nodup_declarationsOf schemas n).sublist (List.filter_sublist.map Prod.fst)

theorem mem_declarationsOf_of_mem_contributing {schemas : List Schema} {n : Name}
    {d : SubgraphId × TypeDeclaration} (h : d ∈ contributing schemas n) :
    d ∈ declarationsOf schemas n := by
  unfold contributing contributors at h
  cases hh : (declarationsOf schemas n).head? with
  | none => simp [hh] at h
  | some _ =>
    rw [hh] at h
    exact (List.mem_filter.1 h).1

/-- Every declaration is what the subgraph that it is from says of the type. -/
theorem exists_schema_of_mem_declarationsOf {schemas : List Schema} {n : Name}
    {d : SubgraphId × TypeDeclaration} (h : d ∈ declarationsOf schemas n) :
    ∃ s, schemas[d.1]? = some s ∧ (Graph.ofSchemas schemas).nameOf d.1 = s.name ∧
      s.types.get? n = some d.2 := by
  obtain ⟨s, hs, hget⟩ := mem_declarationsOf_iff.1 h
  exact ⟨s, hs, by simp [Graph.nameOf, Graph.ofSchemas, hs], hget⟩

/-! ### Conflicts about one type -/

namespace Conflict

/-- The field on whose declarations subgraphs disagree. -/
def declaredField? : Conflict → Option Name
  | fieldTypes _ f .. | externalTypes _ f .. | argumentTypes _ f .. => some f
  | _ => none

/-- The input field on whose declarations subgraphs disagree. -/
def inputField? : Conflict → Option Name
  | inputTypes _ f .. => some f
  | _ => none

end Conflict

variable {names : List String} {nameOf : SubgraphId → String} {n m : Name} {i : SubgraphId}
  {c : Conflict}

/-- **The conflicts of a declaration with a field.**  While the field waits for a declaration that
is not external, the first such one is compared with the external ones before it.  From then on each
declaration is compared by its type, and by its arguments unless it is external. -/
theorem FieldNode.mem_conflicts_iff {d : FieldDeclaration} {f : FieldNode} :
    c ∈ f.conflicts nameOf n m i d ↔
      (∃ externals, f.authority = .awaited externals ∧ d.external = false ∧
        ∃ e ∈ externals, e.2 ≠ d.definition.type ∧
          c = .externalTypes n m d.definition.type (nameOf i) e.2 (nameOf e.1)) ∨
      (∃ j, f.authority = .settled j ∧ f.definition.type ≠ d.definition.type ∧
        c = if d.external then
            .externalTypes n m f.definition.type (nameOf j) d.definition.type (nameOf i)
          else .fieldTypes n m f.definition.type (nameOf j) d.definition.type (nameOf i)) ∨
      ∃ j x w v, f.authority = .settled j ∧ d.external = false ∧
        f.definition.argument? x = some w ∧ (x, v) ∈ d.definition.arguments ∧ w.type ≠ v.type ∧
        c = .argumentTypes n m x w.type (nameOf j) v.type (nameOf i) := by
  have htype : ∀ {a b : TypeRef} {k : Conflict},
      (c ∈ if a = b then [] else [k]) ↔ a ≠ b ∧ c = k := by
    intro a b k
    split <;> simp_all
  unfold conflicts
  cases hauthority : f.authority with
  | awaited externals =>
    cases hexternal : d.external with
    | true => simp
    | false => simp [eq_comm (b := c), and_assoc]
  | settled j =>
    cases hexternal : d.external with
    | true => simp [htype]
    | false =>
      have harguments : (c ∈ d.definition.arguments.filterMap fun a =>
          ((f.definition.arguments.find? fun b => b.1 = a.1).filter fun b =>
            b.2.type ≠ a.2.type).map fun b =>
              Conflict.argumentTypes n m a.1 b.2.type (nameOf j) a.2.type (nameOf i)) ↔
          ∃ x w v, f.definition.argument? x = some w ∧ (x, v) ∈ d.definition.arguments ∧
            w.type ≠ v.type ∧
            c = .argumentTypes n m x w.type (nameOf j) v.type (nameOf i) := by
        rw [List.mem_filterMap]
        constructor
        · rintro ⟨⟨x, v⟩, hv, hc⟩
          obtain ⟨⟨y, w⟩, hw, rfl⟩ := Option.map_eq_some_iff.1 hc
          obtain ⟨hfind, hne⟩ := Option.filter_eq_some_iff.1 hw
          exact ⟨x, w, v, Option.map_eq_some_iff.2 ⟨_, hfind, rfl⟩, hv, of_decide_eq_true hne, rfl⟩
        · rintro ⟨x, w, v, hw, hv, hne, rfl⟩
          obtain ⟨⟨y, w⟩, hfind, rfl⟩ := Option.map_eq_some_iff.1 hw
          exact ⟨(x, v), hv, by simp [hfind, hne]⟩
      simp only [List.mem_append, htype, harguments]
      simp

/-- A conflict that a declaration of a field gives rise to is about this field. -/
theorem FieldNode.about_of_mem_conflicts {d : FieldDeclaration} {f : FieldNode}
    (h : c ∈ f.conflicts nameOf n m i d) :
    c.type = n ∧ c.kind = .typeMismatch ∧ c.declaredField? = some m := by
  rcases mem_conflicts_iff.1 h with ⟨_, _, _, _, _, _, rfl⟩ | ⟨_, _, _, rfl⟩ |
    ⟨_, _, _, _, _, _, _, _, _, rfl⟩
  · exact ⟨rfl, rfl, rfl⟩
  · split <;> exact ⟨rfl, rfl, rfl⟩
  · exact ⟨rfl, rfl, rfl⟩

theorem InputNode.about_of_mem_conflicts {v : InputValue} {node : InputNode}
    (h : c ∈ node.conflicts nameOf n m i v) :
    c.type = n ∧ c.kind = .typeMismatch ∧ c.inputField? = some m := by
  unfold conflicts at h
  split at h
  · cases h
  · rw [List.mem_singleton.1 h]
    exact ⟨rfl, rfl, rfl⟩

/-- A declaration of a field has no conflict with the field that it starts. -/
theorem FieldNode.conflicts_start (d : FieldDeclaration) :
    (start d).conflicts nameOf n m i d = [] :=
  conflicts_eq_nil_iff.2 (agrees_start d)

namespace TypeNode

/-- A conflict that a declaration of a type gives rise to is about one of its input fields or
fields. -/
theorem about_of_mem_conflicts {t : TypeNode} {d : TypeDeclaration}
    (h : c ∈ t.conflicts nameOf n i d) : c.type = n ∧ c.kind = .typeMismatch ∧
      ∃ m, c.inputField? = some m ∨ c.declaredField? = some m := by
  rcases List.mem_append.1 h with h | h
  · obtain ⟨e, _, h⟩ := List.mem_flatMap.1 h
    cases hv : t.inputs.get? e.1 with
    | none => simp [hv] at h
    | some v =>
      rw [hv] at h
      obtain ⟨htype, hkind, hinput⟩ := InputNode.about_of_mem_conflicts h
      exact ⟨htype, hkind, e.1, .inl hinput⟩
  · obtain ⟨e, _, h⟩ := List.mem_flatMap.1 h
    cases hf : t.fields.get? e.1 with
    | none => simp [hf] at h
    | some f =>
      rw [hf] at h
      obtain ⟨htype, hkind, hfield⟩ := FieldNode.about_of_mem_conflicts h
      exact ⟨htype, hkind, e.1, .inr hfield⟩

/-- What a declaration disagrees about with the type of its name as merged so far, if there is
one. -/
def nextConflicts (nameOf : SubgraphId → String) (n : Name) (node? : Option TypeNode)
    (d : SubgraphId × TypeDeclaration) : List Conflict :=
  node?.elim [] fun node =>
    if node.kind = d.2.kind then node.conflicts nameOf n d.1 d.2
    else [.kinds n node.kind (nameOf ((node.subgraphs.first?).getD d.1)) d.2.kind (nameOf d.1)]

theorem about_of_mem_nextConflicts {node? : Option TypeNode} {d : SubgraphId × TypeDeclaration}
    (h : c ∈ nextConflicts nameOf n node? d) : c.type = n ∧ c.kind = .typeMismatch := by
  unfold nextConflicts at h
  cases node? with
  | none => cases h
  | some node =>
    simp only [Option.elim_some] at h
    split at h
    · obtain ⟨htype, hkind, _⟩ := about_of_mem_conflicts h
      exact ⟨htype, hkind⟩
    · rw [List.mem_singleton.1 h]
      exact ⟨rfl, rfl⟩

/-- Once the kind of a type is settled, the declarations of that kind count and no others. -/
theorem remarks_absorbNext_some
    {remark : TypeNode → SubgraphId × TypeDeclaration → List Conflict}
    (ds : List (SubgraphId × TypeDeclaration)) (t : TypeNode) :
    remarks (fun t? d => some (absorbNext names t? d))
        (fun t? d => t?.elim [] fun t => if t.kind = d.2.kind then remark t d else []) (some t)
        ds =
      remarks (fun t d => t.absorb names d.1 d.2) remark t
        (ds.filter fun d => d.2.kind = t.kind) := by
  induction ds generalizing t with
  | nil => rfl
  | cons d ds ih =>
    rw [remarks_cons, ih, List.filter_cons]
    by_cases h : t.kind = d.2.kind
    · have hkind : (t.absorb names d.1 d.2).kind = t.kind := rfl
      simp [absorbNext_of_kind_eq h, hkind, h]
    · simp [absorbNext_of_kind_ne h, h, Ne.symm h]

/-- The conflicts of a sort that kinds have no part in, along the declarations of a name: they are
found between those that count. -/
theorem remarks_absorbNext {remark : TypeNode → SubgraphId × TypeDeclaration → List Conflict}
    (hstart : ∀ d : SubgraphId × TypeDeclaration, remark { kind := d.2.kind } d = [])
    (ds : List (SubgraphId × TypeDeclaration)) :
    remarks (fun t? d => some (absorbNext names t? d))
        (fun t? d => t?.elim [] fun t => if t.kind = d.2.kind then remark t d else []) none ds =
      ds.head?.elim [] fun h => remarks (fun t d => t.absorb names d.1 d.2) remark
        { kind := h.2.kind } (ds.filter fun d => d.2.kind = h.2.kind) := by
  cases ds with
  | nil => rfl
  | cons d ds =>
    have hfirst : absorbNext names none d = absorbNext names (some { kind := d.2.kind }) d := rfl
    have hnone : remarks (fun t? d => some (absorbNext names t? d))
        (fun t? d => t?.elim [] fun t => if t.kind = d.2.kind then remark t d else []) none
        (d :: ds) =
      remarks (fun t? d => some (absorbNext names t? d))
        (fun t? d => t?.elim [] fun t => if t.kind = d.2.kind then remark t d else [])
        (some { kind := d.2.kind }) (d :: ds) := by
      rw [remarks_cons, remarks_cons, hfirst]
      simp [hstart]
    rw [hnone, remarks_absorbNext_some, List.head?_cons, Option.elim_some]

end TypeNode

theorem typeConflicts_eq_nextConflicts (types : Table TypeNode) (c : Contributed) :
    typeConflicts nameOf types c =
      TypeNode.nextConflicts nameOf c.name (types.get? c.name) (c.subgraph, c.declaration) := by
  unfold typeConflicts TypeNode.nextConflicts
  cases types.get? c.name <;> rfl

theorem mergeConflicts_eq_remarks (types : Table TypeNode) (cs : List Contributed) :
    mergeConflicts names nameOf types cs =
      remarks (mergeType names) (typeConflicts nameOf) types cs := by
  induction cs generalizing types with
  | nil => rfl
  | cons c cs ih => rw [mergeConflicts, ih, remarks_cons]

/-- **The conflicts about a type** are found along the declarations of its name. -/
theorem filter_mergeConflicts {p : Conflict → Bool} (hp : ∀ c, p c = true → c.type = n)
    (schemas : List Schema) : (mergeConflicts names nameOf ∅ (contributed schemas)).filter p =
      remarks (fun t? d => some (TypeNode.absorbNext names t? d))
        (fun t? d => (TypeNode.nextConflicts nameOf n t? d).filter p) none
        (declarationsOf schemas n) := by
  have hremark : ∀ types (c : Contributed), (typeConflicts nameOf types c).filter p =
      (if c.name = n then some (c.subgraph, c.declaration) else none).elim []
        fun d => (TypeNode.nextConflicts nameOf n (types.get? n) d).filter p := by
    intro types c
    rw [typeConflicts_eq_nextConflicts]
    by_cases hn : c.name = n
    · subst hn
      simp
    · rw [if_neg hn, Option.elim_none, List.filter_eq_nil_iff]
      exact fun x hx hpx => hn ((TypeNode.about_of_mem_nextConflicts hx).1.symm.trans (hp x hpx))
  rw [mergeConflicts_eq_remarks, filter_remarks, ← filterMap_contributed]
  exact remarks_part (fun types : Table TypeNode => types.get? n) _ _ _
    (fun types c => get?_mergeType names types c n) hremark (contributed schemas) ∅

/-- The conflicts that kinds have no part in are found along the declarations that count. -/
theorem filter_mergeConflicts_of_kinds {p : Conflict → Bool}
    (hp : ∀ c, p c = true → c.type = n) (hkinds : ∀ k s l u, p (.kinds n k s l u) = false)
    (schemas : List Schema) : (mergeConflicts names nameOf ∅ (contributed schemas)).filter p =
      (contributing schemas n).head?.elim [] fun h =>
        remarks (fun (t : TypeNode) d => t.absorb names d.1 d.2)
          (fun t d => (t.conflicts nameOf n d.1 d.2).filter p) { kind := h.2.kind }
          (contributing schemas n) := by
  have hnext : ∀ (t? : Option TypeNode) (d : SubgraphId × TypeDeclaration),
      (TypeNode.nextConflicts nameOf n t? d).filter p = t?.elim [] fun t =>
        if t.kind = d.2.kind then (t.conflicts nameOf n d.1 d.2).filter p else [] := by
    intro t? d
    cases t? with
    | none => rfl
    | some t =>
      rw [TypeNode.nextConflicts, Option.elim_some, Option.elim_some]
      split
      · rfl
      · simp [hkinds]
  have hstart : ∀ d : SubgraphId × TypeDeclaration,
      (({ kind := d.2.kind } : TypeNode).conflicts nameOf n d.1 d.2).filter p = [] := by
    intro d
    have hnone : ({ kind := d.2.kind } : TypeNode).conflicts nameOf n d.1 d.2 = [] :=
      TypeNode.conflicts_eq_nil_iff.2 (by simp [TypeNode.Agrees])
    rw [hnone, List.filter_nil]
  rw [filter_mergeConflicts hp]
  simp only [hnext]
  rw [TypeNode.remarks_absorbNext hstart, contributing]
  cases hds : declarationsOf schemas n with
  | nil => rfl
  | cons d ds => simp [contributors, hds]

section OneEntry

variable {p : Conflict → Bool} {t : TypeNode} {d : TypeDeclaration}

/-- The conflicts of a declaration about one field. -/
theorem TypeNode.filter_conflicts_of_field
    (hp : ∀ c, p c = true → c.declaredField? = some m) : (t.conflicts nameOf n i d).filter p =
      (d.fields.get? m).elim [] fun e => (t.fields.get? m).elim [] fun f =>
        (f.conflicts nameOf n m i e).filter p := by
  have hinputs : (d.inputs.entries.flatMap fun e =>
      (t.inputs.get? e.1).elim [] (InputNode.conflicts nameOf n e.1 i e.2)).filter p = [] := by
    rw [List.filter_eq_nil_iff]
    intro c hc hpc
    obtain ⟨e, _, hc⟩ := List.mem_flatMap.1 hc
    cases hv : t.inputs.get? e.1 with
    | none => simp [hv] at hc
    | some v =>
      rw [hv] at hc
      have hinput := (InputNode.about_of_mem_conflicts hc).2.2
      have hfield := hp c hpc
      cases c <;> simp [Conflict.inputField?, Conflict.declaredField?] at hinput hfield
  rw [conflicts, List.filter_append, hinputs, List.nil_append]
  refine Table.filter_flatMap_both (f := fun k e f => f.conflicts nameOf n k i e)
    (fun k hk e f => ?_) d.fields t.fields
  rw [List.filter_eq_nil_iff]
  intro c hc hpc
  have hfield := (FieldNode.about_of_mem_conflicts hc).2.2
  rw [hp c hpc, Option.some.injEq] at hfield
  exact hk hfield.symm

/-- The conflicts of a declaration about one input field. -/
theorem TypeNode.filter_conflicts_of_input
    (hp : ∀ c, p c = true → c.inputField? = some m) : (t.conflicts nameOf n i d).filter p =
      (d.inputs.get? m).elim [] fun v => (t.inputs.get? m).elim [] fun node =>
        (node.conflicts nameOf n m i v).filter p := by
  have hfields : (d.fields.entries.flatMap fun e =>
      (t.fields.get? e.1).elim [] (FieldNode.conflicts nameOf n e.1 i e.2)).filter p = [] := by
    rw [List.filter_eq_nil_iff]
    intro c hc hpc
    obtain ⟨e, _, hc⟩ := List.mem_flatMap.1 hc
    cases hf : t.fields.get? e.1 with
    | none => simp [hf] at hc
    | some f =>
      rw [hf] at hc
      have hfield := (FieldNode.about_of_mem_conflicts hc).2.2
      have hinput := hp c hpc
      cases c <;> simp [Conflict.inputField?, Conflict.declaredField?] at hinput hfield
  rw [conflicts, List.filter_append, hfields, List.append_nil]
  refine Table.filter_flatMap_both (f := fun k v node => node.conflicts nameOf n k i v)
    (fun k hk v node => ?_) d.inputs t.inputs
  rw [List.filter_eq_nil_iff]
  intro c hc hpc
  have hinput := (InputNode.about_of_mem_conflicts hc).2.2
  rw [hp c hpc, Option.some.injEq] at hinput
  exact hk hinput.symm

end OneEntry

/-- **The conflicts about a field** are found along its declarations in those that count. -/
theorem filter_field_mergeConflicts {p : Conflict → Bool}
    (hp : ∀ c, p c = true → c.type = n ∧ c.declaredField? = some m) (schemas : List Schema) :
    (mergeConflicts names nameOf ∅ (contributed schemas)).filter p =
      (TypeNode.fieldsOf (contributing schemas n) m).head?.elim [] fun h =>
        remarks (fun (f : FieldNode) e => f.absorb names e.1 e.2)
          (fun f e => (f.conflicts nameOf n m e.1 e.2).filter p) (.start h.2)
          (TypeNode.fieldsOf (contributing schemas n) m) := by
  have hkinds : ∀ k s l u, p (.kinds n k s l u) = false := fun k s l u =>
    Bool.eq_false_iff.2 fun h => nomatch (hp _ h).2
  have hstart : ∀ e : SubgraphId × FieldDeclaration,
      ((FieldNode.start e.2).conflicts nameOf n m e.1 e.2).filter p = [] := fun e => by
    rw [FieldNode.conflicts_start, List.filter_nil]
  rw [filter_mergeConflicts_of_kinds (fun c hc => (hp c hc).1) hkinds,
    ← remarks_start (fun e : SubgraphId × FieldDeclaration => FieldNode.start e.2) hstart]
  cases hds : contributing schemas n with
  | nil => rfl
  | cons d ds =>
    rw [List.head?_cons, Option.elim_some]
    refine remarks_part (fun t : TypeNode => t.fields.get? m)
      (fun d => (d.2.fields.get? m).map (d.1, ·)) _ _ ?_ (fun t d => ?_) (d :: ds)
      { kind := d.2.kind }
    · exact TypeNode.get?_fields_absorb names m
    · rw [TypeNode.filter_conflicts_of_field fun c hc => (hp c hc).2]
      cases d.2.fields.get? m <;> rfl

/-- **The conflicts about an input field** are found along its declarations in those that count. -/
theorem filter_input_mergeConflicts {p : Conflict → Bool}
    (hp : ∀ c, p c = true → c.type = n ∧ c.inputField? = some m) (schemas : List Schema) :
    (mergeConflicts names nameOf ∅ (contributed schemas)).filter p =
      remarks (fun node? e => some (InputNode.absorb e.1 e.2 node?))
        (fun node? e => node?.elim [] fun node => (node.conflicts nameOf n m e.1 e.2).filter p) none
        (TypeNode.inputsOf (contributing schemas n) m) := by
  have hkinds : ∀ k s l u, p (.kinds n k s l u) = false := fun k s l u =>
    Bool.eq_false_iff.2 fun h => nomatch (hp _ h).2
  rw [filter_mergeConflicts_of_kinds (fun c hc => (hp c hc).1) hkinds]
  cases hds : contributing schemas n with
  | nil => rfl
  | cons d ds =>
    rw [List.head?_cons, Option.elim_some]
    refine remarks_part (fun t : TypeNode => t.inputs.get? m)
      (fun d => (d.2.inputs.get? m).map (d.1, ·)) _ _ ?_ (fun t d => ?_) (d :: ds)
      { kind := d.2.kind }
    · exact TypeNode.get?_inputs_absorb names m
    · rw [TypeNode.filter_conflicts_of_input fun c hc => (hp c hc).2]
      cases d.2.inputs.get? m <;> rfl

/-! ### Conflicts of one kind -/

/-- The conflicts of a kind, each of which is found in a pass of its own. -/
def conflictsOf (schemas : List Schema) : ConflictKind → List Conflict
  | .typeMismatch => mergeConflicts (schemas.map (·.name)) (Graph.ofSchemas schemas).nameOf ∅
      (contributed schemas)
  | .noBase => (Graph.ofSchemas schemas).baseConflicts
  | .notShareable => (Graph.ofSchemas schemas).sharingConflicts
  | .invalidImplementation => (Graph.ofSchemas schemas).implementationConflicts

theorem Graph.kind_of_mem_implementationConflicts {g : Graph}
    (h : c ∈ g.implementationConflicts) : c.kind = .invalidImplementation := by
  obtain ⟨t, _, h⟩ := List.mem_flatMap.1 h
  -- Whatever is missing on the way down - the interface, its kind, a field, its type, an argument -
  -- is a conflict of the one kind.
  split at h
  · obtain ⟨i, _, h⟩ := List.mem_flatMap.1 h
    unfold interfaceConflicts at h
    split at h
    · rw [List.mem_singleton.1 h]
      rfl
    · split at h
      · obtain ⟨f, _, h⟩ := List.mem_flatMap.1 h
        unfold fieldConflicts at h
        split at h
        · rw [List.mem_singleton.1 h]
          rfl
        · rcases List.mem_append.1 h with h | h
          · split at h
            · cases h
            · rw [List.mem_singleton.1 h]
              rfl
          · obtain ⟨a, _, ha⟩ := List.mem_filterMap.1 h
            split at ha
            · cases ha
              rfl
            · split at ha <;> cases ha
              rfl
      · rw [List.mem_singleton.1 h]
        rfl
  · cases h

theorem kind_of_mem_conflictsOf {schemas : List Schema} {k : ConflictKind}
    (h : c ∈ conflictsOf schemas k) : c.kind = k := by
  cases k with
  | typeMismatch =>
    rw [conflictsOf, mergeConflicts_eq_remarks, mem_remarks_iff] at h
    obtain ⟨pre, d, post, _, h⟩ := h
    rw [typeConflicts_eq_nextConflicts] at h
    exact (TypeNode.about_of_mem_nextConflicts h).2
  | noBase =>
    obtain ⟨t, _, h⟩ := List.mem_flatMap.1 h
    obtain ⟨f, _, h⟩ := List.mem_filterMap.1 h
    split at h <;> cases h
    rfl
  | notShareable =>
    obtain ⟨t, _, h⟩ := List.mem_flatMap.1 h
    obtain ⟨f, _, h⟩ := List.mem_filterMap.1 h
    simp only at h
    split at h <;> cases h
    rfl
  | invalidImplementation => exact Graph.kind_of_mem_implementationConflicts h

/-- The conflicts of a sort that has one kind are found in the pass of that kind. -/
theorem filter_conflicts {p : Conflict → Bool} {k : ConflictKind}
    (hp : ∀ c, p c = true → c.kind = k) (schemas : List Schema) :
    (conflicts schemas).filter p = (conflictsOf schemas k).filter p := by
  have hother : ∀ l, l ≠ k → (conflictsOf schemas l).filter p = [] := by
    intro l hl
    rw [List.filter_eq_nil_iff]
    exact fun c hc hpc => hl ((kind_of_mem_conflictsOf hc).symm.trans (hp c hpc))
  have hall : conflicts schemas = conflictsOf schemas .typeMismatch ++
    conflictsOf schemas .noBase ++ conflictsOf schemas .notShareable ++
    conflictsOf schemas .invalidImplementation := rfl
  rw [hall]
  simp only [List.filter_append]
  cases k <;> simp [hother]

theorem mem_conflicts_iff {schemas : List Schema} :
    c ∈ conflicts schemas ↔ c ∈ conflictsOf schemas c.kind := by
  have h := filter_conflicts (p := fun d => d.kind = c.kind) (k := c.kind) (by simp) schemas
  have hmem : ∀ l : List Conflict, c ∈ l ↔ c ∈ l.filter fun d => d.kind = c.kind := by simp
  rw [hmem, h, ← hmem]

/-! ### Conflicts about resolving a field -/

/-- Whether a conflict is of a kind and about resolving a field. -/
def Conflict.isAbout (k : ConflictKind) (n m : Name) (c : Conflict) : Bool :=
  c.kind = k && c.type = n && c.resolvedField? = some m

/-- Where a pass over all fields finds at most one conflict for each, of one kind and about the
field, the conflicts about one field are what it finds there. -/
theorem Graph.filter_pass {g : Graph} {k : ConflictKind}
    {find : Name → TypeNode → Name → FieldNode → Option Conflict}
    (hfind : ∀ n t m f c, find n t m f = some c → c.kind = k ∧ c.type = n ∧
      c.resolvedField? = some m) (n m : Name) :
    (g.types.entries.flatMap fun t => t.2.fields.entries.filterMap fun f =>
        find t.1 t.2 f.1 f.2).filter (Conflict.isAbout k n m) =
      ((g.types.get? n).bind fun t => (t.fields.get? m).bind (find n t m)).toList := by
  have habout : ∀ n' t m' f, (find n' t m' f).toList.filter (Conflict.isAbout k n m) =
      if n' = n ∧ m' = m then (find n' t m' f).toList else [] := by
    intro n' t m' f
    cases hc : find n' t m' f with
    | none => simp
    | some c =>
      obtain ⟨hkind, htype, hfield⟩ := hfind n' t m' f c hc
      by_cases h : n' = n ∧ m' = m <;> simp [Conflict.isAbout, hkind, htype, hfield, h]
  have hfields : ∀ n' t, ((t : TypeNode).fields.entries.filterMap fun f =>
        find n' t f.1 f.2).filter (Conflict.isAbout k n m) =
      (t.fields.get? m).elim [] fun f => if n' = n then (find n' t m f).toList else [] := by
    intro n' t
    rw [List.filterMap_eq_flatMap_toList]
    refine (Table.filter_flatMap_entries (m := m) (f := fun m' f => (find n' t m' f).toList)
      (fun m' hm f => ?_) t.fields).trans ?_
    · rw [habout, if_neg fun h => hm h.2]
    · simp only [habout, and_true]
  -- of all entries only the one at the name can hold a conflict about it, in both tables
  refine (Table.filter_flatMap_entries (m := n) (f := fun n' t =>
    t.fields.entries.filterMap fun f => find n' t f.1 f.2) (fun n' hn t => ?_) g.types).trans ?_
  · rw [hfields]
    cases t.fields.get? m <;> simp [hn]
  · cases g.types.get? n with
    | none => rfl
    | some t =>
      rw [Option.elim_some, hfields, Option.bind_some]
      cases t.fields.get? m <;> simp

/-- The conflicts of the kind of such a pass about one field. -/
theorem filter_conflicts_isAbout {schemas : List Schema} {k : ConflictKind}
    (find : Name → TypeNode → Name → FieldNode → Option Conflict)
    (hpass : conflictsOf schemas k = (Graph.ofSchemas schemas).types.entries.flatMap fun t =>
      t.2.fields.entries.filterMap fun f => find t.1 t.2 f.1 f.2)
    (hfind : ∀ n t m f c, find n t m f = some c → c.kind = k ∧ c.type = n ∧
      c.resolvedField? = some m)
    {t : TypeNode} {f : FieldNode} (ht : (Graph.ofSchemas schemas).types.get? n = some t)
    (hf : t.fields.get? m = some f) :
    (conflicts schemas).filter (Conflict.isAbout k n m) = (find n t m f).toList := by
  have hkind : ∀ c, Conflict.isAbout k n m c = true → c.kind = k := by
    intro c hc
    simp only [Conflict.isAbout, Bool.and_eq_true, decide_eq_true_eq] at hc
    exact hc.1.1
  rw [filter_conflicts hkind, hpass, Graph.filter_pass hfind, ht, Option.bind_some, hf,
    Option.bind_some]

end Federation
