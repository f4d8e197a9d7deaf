import Federation.Proofs.Graph.Remarks

/-!
# What conflicts say of subgraphs

A conflict about kinds, input fields or arguments states two kinds or types, each with the subgraphs
that declare it.  It is truthful if they do (`Conflict.Truthful`), and those about kinds always are
(`truthful_kinds`).

In the others, what was merged before is recorded more coarsely than it is told.  An input field
goes by its first declaration, and the message names everybody who declared it before, agreeing with
the first one or not (`mem_conflicts_input_iff`).  A field goes by its first declaration that is not
external, and the message names that one for every argument, also for those that others added
(`mem_conflicts_argument_iff`).  Nothing else makes a conflict untrue (`truthful_iff`).
-/

namespace Federation

/-! ### Truthful conflicts -/

namespace TypeDeclaration

/-- The declaration gives an input field a type. -/
def GivesInput (d : TypeDeclaration) (m : Name) (r : TypeRef) : Prop :=
  ∃ v ∈ d.inputs.get? m, v.type = r

/-- The declaration gives an argument of a field a type. -/
def GivesArgument (d : TypeDeclaration) (m x : Name) (r : TypeRef) : Prop :=
  ∃ f ∈ d.fields.get? m, ∃ a ∈ f.definition.arguments, a.1 = x ∧ a.2.type = r

instance (d : TypeDeclaration) (m : Name) (r : TypeRef) : Decidable (d.GivesInput m r) :=
  inferInstanceAs (Decidable (∃ v ∈ d.inputs.get? m, v.type = r))

instance (d : TypeDeclaration) (m x : Name) (r : TypeRef) : Decidable (d.GivesArgument m x r) :=
  inferInstanceAs (Decidable (∃ f ∈ d.fields.get? m, ∃ a ∈ f.definition.arguments,
    a.1 = x ∧ a.2.type = r))

end TypeDeclaration

/-- A subgraph of a name declares a type in such a way. -/
def DeclaredBy (models : List Schema) (subgraph : String) (n : Name) (P : TypeDeclaration → Prop) :
    Prop :=
  ∃ s ∈ models, s.name = subgraph ∧ ∃ d ∈ s.types.get? n, P d

instance (models : List Schema) (subgraph : String) (n : Name) (P : TypeDeclaration → Prop)
    [DecidablePred P] : Decidable (DeclaredBy models subgraph n P) :=
  inferInstanceAs (Decidable (∃ s ∈ models, s.name = subgraph ∧ ∃ d ∈ s.types.get? n, P d))

/-- Where a conflict about kinds, input fields or arguments attributes a kind or a type to
subgraphs, they declare it. -/
def Conflict.Truthful (models : List Schema) : Conflict → Prop
  | kinds n k s l u => DeclaredBy models s n (·.kind = k) ∧ DeclaredBy models u n (·.kind = l)
  | inputTypes n m r ss q u => (∀ s ∈ ss, DeclaredBy models s n (·.GivesInput m r)) ∧
      DeclaredBy models u n (·.GivesInput m q)
  | argumentTypes n m x r s q u => DeclaredBy models s n (·.GivesArgument m x r) ∧
      DeclaredBy models u n (·.GivesArgument m x q)
  | _ => True

instance (models : List Schema) : (c : Conflict) → Decidable (c.Truthful models)
  | .kinds .. | .inputTypes .. | .argumentTypes .. => inferInstanceAs (Decidable (_ ∧ _))
  | .fieldTypes .. | .externalTypes .. | .noBase .. | .notShareable .. => .isTrue trivial
  | .notInterface .. | .missingField .. | .invalidFieldType .. => .isTrue trivial
  | .missingArgument .. | .invalidArgumentType .. => .isTrue trivial

section Declared

variable {models : List Schema} {n : Name} {d : SubgraphId × TypeDeclaration}
  {P : TypeDeclaration → Prop}

theorem declaredBy_of_mem (hd : d ∈ declarationsOf models n) (hP : P d.2) :
    DeclaredBy models ((Graph.ofSchemas models).nameOf d.1) n P := by
  obtain ⟨s, hs, hname, hget⟩ := exists_schema_of_mem_declarationsOf hd
  exact ⟨s, List.mem_of_getElem? hs, hname.symm, d.2, hget, hP⟩

/-- Where no two subgraphs have one name, the name of a subgraph stands for its declaration. -/
theorem declaredBy_nameOf_iff (hnames : (models.map (·.name)).Nodup)
    (hd : d ∈ declarationsOf models n) :
    DeclaredBy models ((Graph.ofSchemas models).nameOf d.1) n P ↔ P d.2 := by
  refine ⟨?_, declaredBy_of_mem hd⟩
  rintro ⟨s, hs, hname, d', hd', hP⟩
  obtain ⟨s', hs', hname', hget⟩ := exists_schema_of_mem_declarationsOf hd
  have hsame : s = s' :=
    List.inj_on_of_nodup_map hnames hs (List.mem_of_getElem? hs') (hname.trans hname')
  subst hsame
  rw [hget] at hd'
  cases hd'
  exact hP

end Declared

/-! ### Kinds -/

section Kinds

variable {models : List Schema} {nameOf : SubgraphId → String} {n : Name}

theorem TypeNode.kinds_not_mem_conflicts {t : TypeNode} {i : SubgraphId} {d : TypeDeclaration}
    {k l : TypeKind} {s u : String} : .kinds n k s l u ∉ t.conflicts nameOf n i d := by
  intro h
  obtain ⟨_, _, m, hinput | hfield⟩ := about_of_mem_conflicts h
  · cases hinput
  · cases hfield

/-- The first subgraph of a merged type has one of its declarations. -/
theorem TypeNode.exists_first?_subgraphs {names : List String} {kind : TypeKind}
    {ds : List (SubgraphId × TypeDeclaration)} (hds : ds ≠ []) :
    ∃ d ∈ ds, (ofDeclarations names kind ds).subgraphs.first? = some d.1 := by
  obtain ⟨e, he⟩ := List.exists_mem_of_ne_nil _ hds
  obtain ⟨i, hi⟩ : ∃ i, (ofDeclarations names kind ds).subgraphs.first? = some i := by
    rw [← Option.ne_none_iff_exists', SubgraphSet.first?, ne_eq, List.head?_eq_none_iff]
    exact List.ne_nil_of_mem (mem_subgraphs_iff.2 ⟨e.2, he⟩)
  obtain ⟨d, hd⟩ := mem_subgraphs_iff.1 (List.mem_of_head? hi)
  exact ⟨(i, d), hd, hi⟩

/-- A conflict about kinds is between two declarations of the type. -/
theorem exists_of_kinds_mem_conflicts {k l : TypeKind} {s u : String}
    (h : .kinds n k s l u ∈ conflicts models) :
    ∃ d ∈ declarationsOf models n, ∃ e ∈ declarationsOf models n,
      (k = d.2.kind ∧ s = (Graph.ofSchemas models).nameOf d.1) ∧
      l = e.2.kind ∧ u = (Graph.ofSchemas models).nameOf e.1 := by
  have hpass : .kinds n k s l u ∈ conflictsOf models .typeMismatch := mem_conflicts_iff.1 h
  have hfilter : .kinds n k s l u ∈ (conflictsOf models .typeMismatch).filter (·.type = n) :=
    List.mem_filter.2 ⟨hpass, decide_eq_true rfl⟩
  rw [conflictsOf, filter_mergeConflicts (n := n) (by simp), mem_remarks_iff] at hfilter
  obtain ⟨pre, e, post, hsplit, hc⟩ := hfilter
  have he : e ∈ declarationsOf models n := by simp [hsplit]
  rw [TypeNode.foldl_absorbNext_eq] at hc
  have hc := (List.mem_filter.1 hc).1
  cases hh : pre.head? with
  | none => simp [hh, TypeNode.nextConflicts] at hc
  | some first =>
    rw [hh, Option.map_some, TypeNode.nextConflicts, Option.elim_some] at hc
    split at hc
    · exact absurd hc TypeNode.kinds_not_mem_conflicts
    · rw [List.mem_singleton, Conflict.kinds.injEq] at hc
      obtain ⟨_, rfl, rfl, rfl, rfl⟩ := hc
      -- The first declaration counts, so the type has a first subgraph.
      have hfirst : first ∈ pre.filter fun d => d.2.kind = first.2.kind := by
        simp [List.mem_of_head? hh]
      obtain ⟨d, hd, hi⟩ := @TypeNode.exists_first?_subgraphs (models.map (·.name)) first.2.kind _
        (List.ne_nil_of_mem hfirst)
      obtain ⟨hd, hkind⟩ := List.mem_filter.1 hd
      refine ⟨d, ?_, e, he, ⟨?_, ?_⟩, rfl, rfl⟩
      · rw [hsplit]
        exact List.mem_append_left _ hd
      · rw [TypeNode.kind_ofDeclarations]
        exact (of_decide_eq_true hkind).symm
      · rw [hi, Option.getD_some]

end Kinds

/-! ### Input fields -/

/-- A declaration of an input field that gives it another type than the first one does, with all
that come before it. -/
structure InputClash (es pre : List (SubgraphId × InputValue)) (first e : SubgraphId × InputValue) :
    Prop where
  split : ∃ post, es = pre ++ e :: post
  head : pre.head? = some first
  ne : first.2.type ≠ e.2.type

/-- What is said of such declarations: the type of the first one is attributed to all before. -/
def inputConflict (nameOf : SubgraphId → String) (n m : Name) (pre : List (SubgraphId × InputValue))
    (first e : SubgraphId × InputValue) : Conflict :=
  .inputTypes n m first.2.type ((SubgraphSet.ofList (pre.map Prod.fst)).ids.map nameOf) e.2.type
    (nameOf e.1)

/-- An input field has the type of its first declaration and the subgraphs of all. -/
theorem InputNode.foldl_absorb (first : SubgraphId × InputValue)
    (rest : List (SubgraphId × InputValue)) :
    ∃ node, (first :: rest).foldl (fun node? e => some (InputNode.absorb e.1 e.2 node?)) none =
        some node ∧ node.definition.type = first.2.type ∧
      node.subgraphs = .ofList ((first :: rest).map Prod.fst) := by
  have key : ∀ (es : List (SubgraphId × InputValue)) (node : InputNode),
      ∃ node', es.foldl (fun node? e => some (InputNode.absorb e.1 e.2 node?)) (some node) =
          some node' ∧ node'.definition.type = node.definition.type ∧
        node'.subgraphs = (es.map Prod.fst).foldl SubgraphSet.insert node.subgraphs := by
    intro es
    induction es with
    | nil => exact fun node => ⟨node, rfl, rfl, rfl⟩
    | cons e es ih => exact fun node => ih (InputNode.absorb e.1 e.2 (some node))
  exact key rest ⟨first.2, .singleton first.1⟩

section Inputs

variable {models : List Schema} {n m : Name} {c : Conflict}

/-- **The conflicts about an input field.** -/
theorem mem_conflicts_input_iff :
    (c ∈ conflicts models ∧ c.type = n ∧ c.inputField? = some m) ↔
      ∃ pre first e, InputClash (TypeNode.inputsOf (contributing models n) m) pre first e ∧
        c = inputConflict (Graph.ofSchemas models).nameOf n m pre first e := by
  let p : Conflict → Bool := fun c => c.type = n && c.inputField? = some m
  have hp : ∀ c, p c = true ↔ c.type = n ∧ c.inputField? = some m := by simp [p]
  have hkind : ∀ c, p c = true → c.kind = .typeMismatch := by
    intro c hc
    cases c <;> first | rfl | cases ((hp _).1 hc).2
  rw [← hp, ← List.mem_filter, filter_conflicts hkind, conflictsOf,
    filter_input_mergeConflicts fun c => (hp c).1, mem_remarks_iff]
  -- A declaration is compared with the one that opened the run, and the subgraphs of all before it
  -- are named.
  constructor
  · rintro ⟨pre, e, post, hsplit, hc⟩
    cases pre with
    | nil => cases hc
    | cons first pre =>
      obtain ⟨node, hnode, htype, hsubgraphs⟩ := InputNode.foldl_absorb first pre
      rw [hnode, Option.elim_some, List.mem_filter, InputNode.conflicts, htype, hsubgraphs] at hc
      split at hc
      · cases hc.1
      · rename_i hne
        exact ⟨first :: pre, first, e, ⟨⟨post, hsplit⟩, rfl, hne⟩, List.mem_singleton.1 hc.1⟩
  · rintro ⟨pre, first, e, ⟨⟨post, hsplit⟩, hhead, hne⟩, rfl⟩
    cases pre with
    | nil => cases hhead
    | cons first' pre =>
      cases hhead
      obtain ⟨node, hnode, htype, hsubgraphs⟩ := InputNode.foldl_absorb first pre
      refine ⟨first :: pre, e, post, hsplit, ?_⟩
      rw [hnode, Option.elim_some, List.mem_filter, hp, InputNode.conflicts, htype, hsubgraphs,
        if_neg hne]
      exact ⟨List.mem_singleton.2 rfl, rfl, rfl⟩

end Inputs

/-! ### Arguments -/

/-- The field whose arguments a conflict is about, with the argument. -/
def Conflict.argument? : Conflict → Option (Name × Name)
  | argumentTypes _ m x .. => some (m, x)
  | _ => none

/-- A declaration of a field that gives an argument another type than the field has by then, with
all declarations that come before it and the one of them that settles the field. -/
structure ArgumentClash (es pre : List (SubgraphId × FieldDeclaration))
    (base e : SubgraphId × FieldDeclaration) (x : Name) (w v : InputValue) : Prop where
  split : ∃ post, es = pre ++ e :: post
  base : (pre.find? fun d => !d.2.external) = some base
  defines : e.2.external = false
  given : FieldNode.argumentOf? pre x = some w
  stated : (x, v) ∈ e.2.definition.arguments
  ne : w.type ≠ v.type

/-- What is said of such declarations: the type of the argument is attributed to the declaration
that settles the field. -/
def argumentConflict (nameOf : SubgraphId → String) (n m x : Name)
    (base e : SubgraphId × FieldDeclaration) (w v : InputValue) : Conflict :=
  .argumentTypes n m x w.type (nameOf base.1) v.type (nameOf e.1)

namespace FieldNode

variable {names : List String} {nameOf : SubgraphId → String} {n m : Name} {f : FieldNode}
  {es exts rest : List (SubgraphId × FieldDeclaration)} {b : SubgraphId × FieldDeclaration}

theorem authority_foldl_settled {j : SubgraphId} (hf : f.authority = .settled j) :
    (rest.foldl (fun f e => f.absorb names e.1 e.2) f).authority = .settled j := by
  induction rest generalizing f with
  | nil => exact hf
  | cons e rest ih => exact ih (absorb_settled hf names e.1 e.2).1

/-- The authority of a field is its first declaration that is not external. -/
theorem authority_of_split (hs : Split es exts b rest) (hf : ofDeclarations? names es = some f) :
    f.authority = .settled b.1 := by
  obtain ⟨h, _, _, rfl⟩ := ofDeclarations?_eq_some_iff.1 hf
  have hstart : (start h.2).authority = .awaited [] := rfl
  obtain ⟨_, hauth, _⟩ := foldl_externals names hs.external hstart
  rw [hs.eq, List.foldl_append, List.foldl_cons]
  exact authority_foldl_settled (absorb_awaited_base hauth names b.1 hs.base).1

/-- It has none as long as there is no such declaration. -/
theorem authority_eq_settled_iff {j : SubgraphId} (hf : ofDeclarations? names es = some f) :
    f.authority = .settled j ↔
      ∃ base, (es.find? fun d => !d.2.external) = some base ∧ base.1 = j := by
  cases hb : es.find? fun d => !d.2.external with
  | none =>
    have hexts : ∀ e ∈ es, e.2.external = true := by simpa using List.find?_eq_none.1 hb
    obtain ⟨h, _, _, rfl⟩ := ofDeclarations?_eq_some_iff.1 hf
    have hstart : (start h.2).authority = .awaited [] := rfl
    rw [(foldl_externals names hexts hstart).2.1]
    simp
  | some base =>
    obtain ⟨exts, rest, hs⟩ := exists_split_of_find? hb
    rw [authority_of_split hs hf]
    simp

/-- The conflicts about arguments that a declaration gives rise to. -/
theorem mem_conflicts_argument_iff {i : SubgraphId} {d : FieldDeclaration} {c : Conflict}
    {x : Name} : (c ∈ f.conflicts nameOf n m i d ∧ c.argument? = some (m, x)) ↔
      ∃ j w v, f.authority = .settled j ∧ d.external = false ∧ f.definition.argument? x = some w ∧
        (x, v) ∈ d.definition.arguments ∧ w.type ≠ v.type ∧
        c = .argumentTypes n m x w.type (nameOf j) v.type (nameOf i) := by
  rw [mem_conflicts_iff]
  constructor
  · rintro ⟨⟨_, _, _, _, _, _, rfl⟩ | ⟨_, _, _, rfl⟩ | ⟨j, y, w, v, hauthority, hexternal, hw, hv,
      hne, rfl⟩, hx⟩
    · cases hx
    · split at hx <;> cases hx
    · cases hx
      exact ⟨j, w, v, hauthority, hexternal, hw, hv, hne, rfl⟩
  · rintro ⟨j, w, v, hauthority, hexternal, hw, hv, hne, rfl⟩
    exact ⟨.inr (.inr ⟨j, x, w, v, hauthority, hexternal, hw, hv, hne, rfl⟩), rfl⟩

/-- Those that one gives rise to where others are merged already. -/
theorem mem_conflicts_argument_ofDeclarations?_iff {pre : List (SubgraphId × FieldDeclaration)}
    (hf : ofDeclarations? names pre = some f) {e : SubgraphId × FieldDeclaration} {c : Conflict}
    {x : Name} : (c ∈ f.conflicts nameOf n m e.1 e.2 ∧ c.argument? = some (m, x)) ↔
      ∃ base w v, (pre.find? fun d => !d.2.external) = some base ∧ e.2.external = false ∧
        argumentOf? pre x = some w ∧ (x, v) ∈ e.2.definition.arguments ∧ w.type ≠ v.type ∧
        c = argumentConflict nameOf n m x base e w v := by
  rw [mem_conflicts_argument_iff]
  constructor
  · rintro ⟨j, w, v, hauth, hext, hw, hv, hne, rfl⟩
    obtain ⟨base, hb, rfl⟩ := (authority_eq_settled_iff hf).1 hauth
    obtain ⟨exts, rest, hs⟩ := exists_split_of_find? hb
    rw [argument?_of_split hs hf] at hw
    exact ⟨base, w, v, hb, hext, hw, hv, hne, rfl⟩
  · rintro ⟨base, w, v, hb, hext, hw, hv, hne, rfl⟩
    obtain ⟨exts, rest, hs⟩ := exists_split_of_find? hb
    rw [← argument?_of_split hs hf] at hw
    exact ⟨base.1, w, v, authority_of_split hs hf, hext, hw, hv, hne, rfl⟩

end FieldNode

section Arguments

variable {models : List Schema} {n m x : Name} {c : Conflict}

/-- **The conflicts about an argument.** -/
theorem mem_conflicts_argument_iff :
    (c ∈ conflicts models ∧ c.type = n ∧ c.argument? = some (m, x)) ↔
      ∃ pre base e w v,
        ArgumentClash (TypeNode.fieldsOf (contributing models n) m) pre base e x w v ∧
        c = argumentConflict (Graph.ofSchemas models).nameOf n m x base e w v := by
  let p : Conflict → Bool := fun c => c.type = n && c.argument? = some (m, x)
  have hp : ∀ c, p c = true ↔ c.type = n ∧ c.argument? = some (m, x) := by simp [p]
  have hkind : ∀ c, p c = true → c.kind = .typeMismatch := by
    intro c hc
    cases c <;> first | rfl | cases ((hp _).1 hc).2
  have hfield : ∀ c, p c = true → c.type = n ∧ c.declaredField? = some m := by
    intro c hc
    obtain ⟨htype, hargument⟩ := (hp c).1 hc
    refine ⟨htype, ?_⟩
    cases c <;> cases hargument
    rfl
  rw [← hp, ← List.mem_filter, filter_conflicts hkind, conflictsOf,
    filter_field_mergeConflicts hfield]
  generalize TypeNode.fieldsOf (contributing models n) m = es
  have hmerged : ∀ (h : SubgraphId × FieldDeclaration) (pre : List (SubgraphId × FieldDeclaration)),
      FieldNode.ofDeclarations? (models.map (·.name)) (h :: pre) = some ((h :: pre).foldl
        (fun f e => f.absorb (models.map (·.name)) e.1 e.2) (.start h.2)) := fun _ _ => rfl
  constructor
  · intro hc
    cases es with
    | nil => cases hc
    | cons h es =>
      rw [List.head?_cons, Option.elim_some, mem_remarks_iff] at hc
      obtain ⟨pre, e, post, hsplit, hc⟩ := hc
      rw [List.mem_filter, hp] at hc
      obtain ⟨hc, _, hargument⟩ := hc
      cases pre with
      | nil =>
        -- The first declaration meets a field that nothing settles yet.
        obtain ⟨_, _, _, hauth, _⟩ := FieldNode.mem_conflicts_argument_iff.1 ⟨hc, hargument⟩
        cases hauth
      | cons h' pre =>
        obtain rfl : h = h' := (List.cons.inj hsplit).1
        obtain ⟨base, w, v, hb, hext, hw, hv, hne, rfl⟩ :=
          (FieldNode.mem_conflicts_argument_ofDeclarations?_iff (hmerged h pre)).1 ⟨hc, hargument⟩
        exact ⟨h :: pre, base, e, w, v, ⟨⟨post, hsplit⟩, hb, hext, hw, hv, hne⟩, rfl⟩
  · rintro ⟨pre, base, e, w, v, ⟨⟨post, rfl⟩, hb, hext, hw, hv, hne⟩, rfl⟩
    cases pre with
    | nil => cases hb
    | cons h pre =>
      rw [List.cons_append, List.head?_cons, Option.elim_some, mem_remarks_iff]
      refine ⟨h :: pre, e, post, rfl, List.mem_filter.2 ⟨?_, (hp _).2 ⟨rfl, rfl⟩⟩⟩
      exact ((FieldNode.mem_conflicts_argument_ofDeclarations?_iff (hmerged h pre)).2
        ⟨base, w, v, hb, hext, hw, hv, hne, rfl⟩).1

end Arguments

/-! ### Which conflicts are truthful -/

section Truthful

variable {models : List Schema} {n m x : Name}

/-- A declaration of an input field has the type that it gives the field. -/
theorem declaredBy_of_mem_inputsOf {e : SubgraphId × InputValue}
    (he : e ∈ TypeNode.inputsOf (contributing models n) m) :
    DeclaredBy models ((Graph.ofSchemas models).nameOf e.1) n (·.GivesInput m e.2.type) := by
  obtain ⟨d, hd, hv⟩ := TypeNode.mem_inputsOf_iff.1 he
  exact declaredBy_of_mem (mem_declarationsOf_of_mem_contributing hd) ⟨e.2, hv, rfl⟩

theorem declaredBy_input_iff (hnames : (models.map (·.name)).Nodup) {e : SubgraphId × InputValue}
    (he : e ∈ TypeNode.inputsOf (contributing models n) m) {r : TypeRef} :
    DeclaredBy models ((Graph.ofSchemas models).nameOf e.1) n (·.GivesInput m r) ↔
      e.2.type = r := by
  obtain ⟨d, hd, hv⟩ := TypeNode.mem_inputsOf_iff.1 he
  rw [declaredBy_nameOf_iff hnames (mem_declarationsOf_of_mem_contributing hd),
    TypeDeclaration.GivesInput, hv]
  simp

/-- So do the arguments of a declaration of a field. -/
theorem declaredBy_of_mem_fieldsOf {e : SubgraphId × FieldDeclaration}
    (he : e ∈ TypeNode.fieldsOf (contributing models n) m) {v : InputValue}
    (hv : (x, v) ∈ e.2.definition.arguments) :
    DeclaredBy models ((Graph.ofSchemas models).nameOf e.1) n (·.GivesArgument m x v.type) := by
  obtain ⟨d, hd, hf⟩ := TypeNode.mem_fieldsOf_iff.1 he
  exact declaredBy_of_mem (mem_declarationsOf_of_mem_contributing hd)
    ⟨e.2, hf, (x, v), hv, rfl, rfl⟩

theorem declaredBy_argument_iff (hnames : (models.map (·.name)).Nodup)
    {e : SubgraphId × FieldDeclaration}
    (he : e ∈ TypeNode.fieldsOf (contributing models n) m) {r : TypeRef} :
    DeclaredBy models ((Graph.ofSchemas models).nameOf e.1) n (·.GivesArgument m x r) ↔
      ∃ v, (x, v) ∈ e.2.definition.arguments ∧ v.type = r := by
  obtain ⟨d, hd, hf⟩ := TypeNode.mem_fieldsOf_iff.1 he
  rw [declaredBy_nameOf_iff hnames (mem_declarationsOf_of_mem_contributing hd),
    TypeDeclaration.GivesArgument, hf]
  constructor
  · rintro ⟨f, hf, ⟨y, v⟩, hv, rfl, rfl⟩
    cases hf
    exact ⟨v, hv, rfl⟩
  · rintro ⟨v, hv, rfl⟩
    exact ⟨e.2, rfl, (x, v), hv, rfl, rfl⟩

/-- Conflicts about kinds are truthful. -/
theorem truthful_kinds {k l : TypeKind} {s u : String} (h : .kinds n k s l u ∈ conflicts models) :
    (Conflict.kinds n k s l u).Truthful models := by
  obtain ⟨d, hd, e, he, ⟨rfl, rfl⟩, rfl, rfl⟩ := exists_of_kinds_mem_conflicts h
  exact ⟨declaredBy_of_mem hd rfl, declaredBy_of_mem he rfl⟩

/-- A conflict about an input field is truthful if everybody before agrees with the first one. -/
theorem InputClash.truthful {pre : List (SubgraphId × InputValue)}
    {first e : SubgraphId × InputValue}
    (h : InputClash (TypeNode.inputsOf (contributing models n) m) pre first e)
    (hagree : ∀ g ∈ pre, g.2.type = first.2.type) :
    (inputConflict (Graph.ofSchemas models).nameOf n m pre first e).Truthful models := by
  obtain ⟨post, hsplit⟩ := h.split
  refine ⟨fun s hs => ?_, declaredBy_of_mem_inputsOf (by simp [hsplit])⟩
  obtain ⟨i, hi, rfl⟩ := List.mem_map.1 hs
  obtain ⟨g, hg, rfl⟩ := List.mem_map.1 (SubgraphSet.mem_ofList.1 hi)
  rw [← hagree g hg]
  exact declaredBy_of_mem_inputsOf (by simp [hsplit, hg])

theorem InputClash.not_truthful (hnames : (models.map (·.name)).Nodup)
    {pre : List (SubgraphId × InputValue)} {first e g : SubgraphId × InputValue}
    (h : InputClash (TypeNode.inputsOf (contributing models n) m) pre first e) (hg : g ∈ pre)
    (hne : g.2.type ≠ first.2.type) :
    ¬ (inputConflict (Graph.ofSchemas models).nameOf n m pre first e).Truthful models := by
  obtain ⟨post, hsplit⟩ := h.split
  have hnamed : (Graph.ofSchemas models).nameOf g.1 ∈
      (SubgraphSet.ofList (pre.map Prod.fst)).ids.map (Graph.ofSchemas models).nameOf :=
    List.mem_map_of_mem (SubgraphSet.mem_ofList.2 (List.mem_map_of_mem hg))
  rintro ⟨hall, _⟩
  exact hne ((declaredBy_input_iff hnames (by simp [hsplit, hg])).1 (hall _ hnamed))

/-- A conflict about an argument is truthful if the declaration that settles the field has the
argument. -/
theorem ArgumentClash.truthful {pre : List (SubgraphId × FieldDeclaration)}
    {base e : SubgraphId × FieldDeclaration} {w v : InputValue}
    (h : ArgumentClash (TypeNode.fieldsOf (contributing models n) m) pre base e x w v)
    (hhas : base.2.definition.argument? x ≠ none) :
    (argumentConflict (Graph.ofSchemas models).nameOf n m x base e w v).Truthful models := by
  obtain ⟨post, hsplit⟩ := h.split
  obtain ⟨exts, rest, hs⟩ := FieldNode.exists_split_of_find? h.base
  -- The argument of the settling declaration is the one that the field has.
  obtain ⟨w', hw'⟩ := Option.ne_none_iff_exists'.1 hhas
  have hsame : FieldNode.argumentOf? pre x = some w' := by
    rw [FieldNode.argumentOf?, hs.bases_eq]
    simp [hw']
  obtain rfl : w = w' := Option.some.inj (h.given.symm.trans hsame)
  have hbase : base ∈ pre := hs.base_mem
  exact ⟨declaredBy_of_mem_fieldsOf (by simp [hsplit, hbase])
      (FieldDefinition.mem_arguments_of_argument? hw'),
    declaredBy_of_mem_fieldsOf (by simp [hsplit]) h.stated⟩

theorem ArgumentClash.not_truthful (hnames : (models.map (·.name)).Nodup)
    {pre : List (SubgraphId × FieldDeclaration)} {base e : SubgraphId × FieldDeclaration}
    {w v : InputValue}
    (h : ArgumentClash (TypeNode.fieldsOf (contributing models n) m) pre base e x w v)
    (hlacks : base.2.definition.argument? x = none) :
    ¬ (argumentConflict (Graph.ofSchemas models).nameOf n m x base e w v).Truthful models := by
  obtain ⟨post, hsplit⟩ := h.split
  have hbase : base ∈ pre := List.mem_of_find?_eq_some h.base
  rintro ⟨hbefore, _⟩
  obtain ⟨w', hw', _⟩ := (declaredBy_argument_iff hnames (by simp [hsplit, hbase])).1 hbefore
  exact FieldDefinition.argument?_eq_none_iff.1 hlacks w' hw'

end Truthful

/-- Some conflict says of a subgraph what it does not declare: one about an input field of which an
earlier declaration disagrees with the first one too, or one about an argument that the declaration
which settles the field lacks. -/
inductive HasMisattribution (models : List Schema) : Prop
  | input {n m pre first e g}
      (clash : InputClash (TypeNode.inputsOf (contributing models n) m) pre first e) (mem : g ∈ pre)
      (ne : g.2.type ≠ first.2.type)
  | argument {n m x pre base e w v}
      (clash : ArgumentClash (TypeNode.fieldsOf (contributing models n) m) pre base e x w v)
      (lacks : base.2.definition.argument? x = none)

/-- Each subgraph has at most one declaration of a type that counts. -/
theorem length_contributing_le (models : List Schema) (n : Name) :
    (contributing models n).length ≤ models.length := by
  have hall : (declarationsOf models n).length ≤ models.zipIdx.length :=
    List.length_filterMap_le ..
  rw [List.length_zipIdx] at hall
  unfold contributing contributors
  cases (declarationsOf models n).head? with
  | none => exact Nat.zero_le _
  | some d => exact Nat.le_trans (List.length_filter_le _ _) hall

/-- There are three subgraphs if there are two declarations before one that counts. -/
theorem three_le_of_split {E : Type} {models : List Schema} {n : Name}
    {part : SubgraphId × TypeDeclaration → Option E} {pre post : List E} {a b e : E}
    (hsplit : (contributing models n).filterMap part = pre ++ e :: post) (ha : a ∈ pre)
    (hb : b ∈ pre) (hne : a ≠ b) : 3 ≤ models.length := by
  have hpre : 2 ≤ pre.length := by
    match pre, ha, hb with
    | [_], ha, hb =>
      exact absurd ((List.mem_singleton.1 ha).trans (List.mem_singleton.1 hb).symm) hne
    | _ :: _ :: _, _, _ => simp
  have hlength := (contributing models n).length_filterMap_le part
  rw [hsplit, List.length_append, List.length_cons] at hlength
  have hmodels := length_contributing_le models n
  omega

/-- **A misattribution takes three subgraphs.** -/
theorem HasMisattribution.three_le {models : List Schema} (h : HasMisattribution models) :
    3 ≤ models.length := by
  obtain ⟨hclash, hg, hne⟩ | ⟨hclash, hlacks⟩ := h
  · rename_i n m pre first e g
    obtain ⟨post, hsplit⟩ := hclash.split
    have hdiffer : g ≠ first := fun h => hne (h ▸ rfl)
    exact three_le_of_split hsplit hg (List.mem_of_head? hclash.head) hdiffer
  · rename_i n m x pre base e w v
    obtain ⟨post, hsplit⟩ := hclash.split
    -- The argument comes from a declaration that has it.
    obtain ⟨d, hd, hgives⟩ := FieldNode.exists_of_argumentOf? hclash.given
    have hdiffer : base ≠ d := by
      rintro rfl
      rw [hlacks] at hgives
      cases hgives
    exact three_le_of_split hsplit (List.mem_of_find?_eq_some hclash.base) hd hdiffer

/-- **When conflicts tell the truth**: those about kinds always do, and all do unless one has a
misattribution, for which it takes three subgraphs.  Where no two subgraphs have one name, a
conflict that has it does not tell the truth. -/
theorem truthful_iff (models : List Schema) :
    (∀ n k s l u, .kinds n k s l u ∈ conflicts models →
      (Conflict.kinds n k s l u).Truthful models) ∧
    (¬ HasMisattribution models → ∀ c ∈ conflicts models, c.Truthful models) ∧
    ((models.map (·.name)).Nodup →
      ((∀ c ∈ conflicts models, c.Truthful models) ↔ ¬ HasMisattribution models)) ∧
    (HasMisattribution models → 3 ≤ models.length) := by
  have htruthful : ¬ HasMisattribution models → ∀ c ∈ conflicts models, c.Truthful models := by
    intro hnone c hc
    cases c with
    | kinds => exact truthful_kinds hc
    | inputTypes n m =>
      obtain ⟨pre, first, e, hclash, heq⟩ := mem_conflicts_input_iff.1 ⟨hc, rfl, rfl⟩
      rw [heq]
      exact hclash.truthful fun g hg => by_contra fun hne => hnone (.input hclash hg hne)
    | argumentTypes n m x =>
      obtain ⟨pre, base, e, w, v, hclash, heq⟩ := mem_conflicts_argument_iff.1 ⟨hc, rfl, rfl⟩
      rw [heq]
      exact hclash.truthful fun hlacks => hnone (.argument hclash hlacks)
    | _ => trivial
  refine ⟨fun _ _ _ _ _ => truthful_kinds, htruthful, fun hnames => ⟨?_, htruthful⟩, ?_⟩
  · -- a name that no other subgraph has tells whom the message is wrong about
    rintro hall (⟨hclash, hg, hne⟩ | ⟨hclash, hlacks⟩)
    · have hmem := (mem_conflicts_input_iff.2 ⟨_, _, _, hclash, rfl⟩).1
      exact hclash.not_truthful hnames hg hne (hall _ hmem)
    · have hmem := (mem_conflicts_argument_iff.2 ⟨_, _, _, _, _, hclash, rfl⟩).1
      exact hclash.not_truthful hnames hlacks (hall _ hmem)
  · exact HasMisattribution.three_le

/-! ### Conflicts that are not true -/

/-- Three subgraphs of which the second one adds an argument to a field, and the last two agree on
an input field against the first one. -/
def misledBatch : List Subgraph := Subgraph.batchOfTexts
  [("a", "type Query \x7b f: Int @shareable g(i: I): Int @shareable \x7d input I \x7b x: Int \x7d"),
    ("b", "type Query \x7b f(x: Int): Int @shareable \x7d input I \x7b x: String \x7d"),
    ("c", "type Query \x7b f(x: String): Int @shareable \x7d input I \x7b x: String \x7d")]

/-- What the three subgraphs contribute. -/
def misledContributions : List Schema :=
  ((schemas? misledBatch).toOption.getD []).map Schema.contribution

/-- The type of the argument is attributed to the first subgraph, which does not have the argument,
and the type of the input field in the first subgraph to the second one as well, which disagrees. -/
theorem not_truthful_misled :
    (schemas? misledBatch).isOk = true ∧
    (conflicts misledContributions).map Conflict.message =
      ["Input field \"I.x\" has type \"Int\" in subgraph \"a\" " ++
          "but type \"String\" in subgraph \"b\"",
        "Argument \"Query.f(x:)\" has type \"Int\" in subgraph \"a\" " ++
          "but type \"String\" in subgraph \"c\"",
        "Input field \"I.x\" has type \"Int\" in subgraphs \"a\" and \"b\" " ++
          "but type \"String\" in subgraph \"c\""] ∧
    (conflicts misledContributions).map (fun c => decide (c.Truthful misledContributions)) =
      [true, false, false] ∧
    ¬ ∀ c ∈ conflicts misledContributions, c.Truthful misledContributions := by
  decide +kernel

end Federation
