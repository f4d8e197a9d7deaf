import Federation.Proofs.Graph.Agreement
import Federation.Proofs.Graph.ConflictFree

/-!
# Batches that agree

The merge of a batch is without conflicts when it is for each name of a type, and there for each
field (`mergeConflicts_eq_nil_iff`).  A batch is `Concordant` when what its declarations have to
agree on regardless of their order is the same in all of them; then every type of the graph is made
of all declarations of its name (`get?_ofSchemas_of_kind`).
-/

namespace Federation

/-! ### One type -/

namespace TypeNode

/-- Whether a declaration agrees with a type of its kind as merged so far. -/
def Agrees (t : TypeNode) (d : TypeDeclaration) : Prop :=
  (∀ m v, d.inputs.get? m = some v →
    ∀ u, (t.inputs.get? m).map (·.definition.type) = some u → u = v.type) ∧
  ∀ m f, d.fields.get? m = some f → ∀ g, t.fields.get? m = some g → g.Agrees f

theorem conflicts_eq_nil_iff {nameOf : SubgraphId → String} {name : Name} {i : SubgraphId}
    {d : TypeDeclaration} {t : TypeNode} : t.conflicts nameOf name i d = [] ↔ t.Agrees d := by
  simp only [conflicts, List.append_eq_nil_iff, List.flatMap_eq_nil_iff, Prod.forall,
    ← Table.get?_eq_some_iff, Agrees]
  refine and_congr (forall₃_congr fun m v _ => ?_) (forall₃_congr fun m f _ => ?_)
  · cases t.inputs.get? m with
    | none => simp
    | some node => simp [InputNode.conflicts]
  · cases t.fields.get? m with
    | none => simp
    | some g => simp [FieldNode.conflicts_eq_nil_iff]

variable {names : List String} {ds : List (SubgraphId × TypeDeclaration)}

/-- Declarations of one kind agree when they do on every input field and on every field. -/
theorem checked_iff {kind : TypeKind} :
    Checked (fun t d => t.absorb names d.1 d.2) (fun t d => t.Agrees d.2)
        ({ kind } : TypeNode) ds ↔
      (∀ m, Uniform none (inputTypes ds m)) ∧
      ∀ m h, (fieldsOf ds m).head? = some h →
        Checked (fun f e => f.absorb names e.1 e.2) (fun f e => f.Agrees e.2)
          (FieldNode.start h.2) (fieldsOf ds m) := by
  unfold Agrees
  rw [checked_and]
  refine and_congr ?_ ?_
  · rw [checked_iff_parts (fun m t => (t.inputs.get? m).map (·.definition.type))
      (fun m d => (d.2.inputs.get? m).map (·.type)) (fun u? u => some (u?.getD u))
      (fun u? u => ∀ a, u? = some a → a = u) (type_get?_inputs_absorb names)]
    · exact forall_congr' fun m => checked_first
    · intro t d _
      simp
  · rw [checked_iff_parts (fun m t => t.fields.get? m)
      (fun m d => (d.2.fields.get? m).map (d.1, ·))
      (fun f? e => some ((f?.getD (.start e.2)).absorb names e.1 e.2))
      (fun f? e => ∀ f, f? = some f → f.Agrees e.2) (get?_fields_absorb names)]
    · exact forall_congr' fun m =>
        checked_start (fun (f : FieldNode) e => f.absorb names e.1 e.2) (fun f e => f.Agrees e.2)
          (fun e : SubgraphId × FieldDeclaration => FieldNode.start e.2)
          fun e => FieldNode.agrees_start e.2
    · intro t d _
      simp

/-- The type with one more declaration, which is left out if it is of another kind. -/
def absorbKind (names : List String) (t : TypeNode) (d : SubgraphId × TypeDeclaration) : TypeNode :=
  if t.kind = d.2.kind then t.absorb names d.1 d.2 else t

theorem checked_absorbKind_iff {t : TypeNode} :
    Checked (absorbKind names) (fun t d => t.kind = d.2.kind ∧ t.Agrees d.2) t ds ↔
      (∀ d ∈ ds, t.kind = d.2.kind) ∧
      Checked (fun t d => t.absorb names d.1 d.2) (fun t d => t.Agrees d.2) t ds := by
  induction ds generalizing t with
  | nil => simp
  | cons d ds ih =>
    rw [checked_cons, ih, List.forall_mem_cons, checked_cons]
    by_cases h : t.kind = d.2.kind
    · have hkind : (t.absorb names d.1 d.2).kind = t.kind := rfl
      simp only [absorbKind, h, if_true, hkind]
      tauto
    · simp [h]

end TypeNode

/-! ### A batch -/

theorem typeConflicts_eq_nil_iff {nameOf : SubgraphId → String} {types : Table TypeNode}
    {c : Contributed} : typeConflicts nameOf types c = [] ↔
      ∀ t, types.get? c.name = some t → t.kind = c.declaration.kind ∧ t.Agrees c.declaration := by
  unfold typeConflicts
  cases types.get? c.name with
  | none => simp
  | some t =>
    by_cases h : t.kind = c.declaration.kind
    · simp [h, TypeNode.conflicts_eq_nil_iff]
    · simp [h]

theorem mergeConflicts_eq_nil_iff_checked {names : List String} {nameOf : SubgraphId → String}
    {types : Table TypeNode} {cs : List Contributed} :
    mergeConflicts names nameOf types cs = [] ↔
      Checked (mergeType names) (fun types c => typeConflicts nameOf types c = []) types cs := by
  induction cs generalizing types with
  | nil => simp [mergeConflicts]
  | cons c cs ih => rw [mergeConflicts, List.append_eq_nil_iff, checked_cons, ih]

/-- **What the merge checks**: the declarations of a name are of one kind, they give each input
field one type, and for each field every declaration agrees with what was merged before it. -/
theorem mergeConflicts_eq_nil_iff {names : List String} {nameOf : SubgraphId → String}
    {schemas : List Schema} : mergeConflicts names nameOf ∅ (contributed schemas) = [] ↔
      ∀ n, (∀ d ∈ declarationsOf schemas n, ∀ d' ∈ declarationsOf schemas n,
          d.2.kind = d'.2.kind) ∧
        (∀ m, Uniform none (TypeNode.inputTypes (declarationsOf schemas n) m)) ∧
        ∀ m h, (TypeNode.fieldsOf (declarationsOf schemas n) m).head? = some h →
          Checked (fun f e => f.absorb names e.1 e.2) (fun f e => f.Agrees e.2)
            (FieldNode.start h.2) (TypeNode.fieldsOf (declarationsOf schemas n) m) := by
  have hok : ∀ types, ∀ c ∈ contributed schemas, typeConflicts nameOf types c = [] ↔
      ∀ n d, (if c.name = n then some (c.subgraph, c.declaration) else none) = some d →
        ∀ t, types.get? n = some t → t.kind = d.2.kind ∧ t.Agrees d.2 := by
    intro types c _
    rw [typeConflicts_eq_nil_iff]
    simp
  rw [mergeConflicts_eq_nil_iff_checked, checked_iff_parts (fun n types => types.get? n)
    (fun n c => if c.name = n then some (c.subgraph, c.declaration) else none)
    (fun t? d => some (TypeNode.absorbNext names t? d))
    (fun t? d => ∀ t, t? = some t → t.kind = d.2.kind ∧ t.Agrees d.2)
    (fun n types c => get?_mergeType names types c n) hok]
  -- What is checked for a name only concerns its own declarations, in the order in which they come:
  -- the first opens the type and each later one is compared with it.
  refine forall_congr' fun n => ?_
  rw [filterMap_contributed, Table.get?_empty]
  refine (checked_start (TypeNode.absorbKind names) (fun t d => t.kind = d.2.kind ∧ t.Agrees d.2)
    (fun d : SubgraphId × TypeDeclaration => { kind := d.2.kind }) fun d => ?_).trans ?_
  · simp [TypeNode.Agrees]
  · simp only [TypeNode.checked_absorbKind_iff, TypeNode.checked_iff]
    cases declarationsOf schemas n with
    | nil => simp [TypeNode.inputTypes, TypeNode.fieldsOf]
    | cons h ds =>
      simp only [List.head?_cons, Option.some.injEq, forall_eq']
      refine and_congr_left fun _ => ?_
      constructor
      · intro hk d hd d' hd'
        rw [← hk d hd, ← hk d' hd']
      · intro hk d hd
        exact hk h List.mem_cons_self d hd

/-! ### What declarations agree on in every order -/

/-- Whether some schema of a batch declares a type so. -/
def Declares (schemas : List Schema) (n : Name) (d : TypeDeclaration) : Prop :=
  ∃ s ∈ schemas, s.types.get? n = some d

/-- Whether some schema of a batch declares a field of a type so. -/
def DeclaresField (schemas : List Schema) (n m : Name) (f : FieldDeclaration) : Prop :=
  ∃ d, Declares schemas n d ∧ d.fields.get? m = some f

/-- What checking every subgraph on its own has settled for the batch. -/
structure Normalized (schemas : List Schema) : Prop where
  /-- No two schemas have the same name. -/
  names : (schemas.map (·.name)).Nodup
  /-- Only fields of object types are external. -/
  external : ∀ {n d m f}, Declares schemas n d → d.fields.get? m = some f →
    f.external = true → d.kind = .object
  /-- No field has two arguments of one name. -/
  arguments : ∀ {n m f}, DeclaresField schemas n m f →
    (f.definition.arguments.map Prod.fst).Nodup

/-- A batch whose declarations agree on all but arguments, and in which every field is somewhere
declared other than externally. -/
structure Concordant (schemas : List Schema) : Prop where
  kind : ∀ {n d d'}, Declares schemas n d → Declares schemas n d' → d.kind = d'.kind
  inputType : ∀ {n d d' m v v'}, Declares schemas n d → Declares schemas n d' →
    d.inputs.get? m = some v → d'.inputs.get? m = some v' → v.type = v'.type
  fieldType : ∀ {n m f f'}, DeclaresField schemas n m f → DeclaresField schemas n m f' →
    f'.external = false → f.definition.type = f'.definition.type
  base : ∀ {n m f}, DeclaresField schemas n m f →
    ∃ f', DeclaresField schemas n m f' ∧ f'.external = false

section Declares

variable {schemas : List Schema} {n m : Name}

theorem declares_iff {d : TypeDeclaration} :
    Declares schemas n d ↔ ∃ i, (i, d) ∈ declarationsOf schemas n := by
  simp only [mem_declarationsOf_iff]
  simp only [Declares, List.mem_iff_getElem?]
  constructor
  · rintro ⟨s, ⟨i, hi⟩, hd⟩
    exact ⟨i, s, hi, hd⟩
  · rintro ⟨i, s, hi, hd⟩
    exact ⟨s, ⟨i, hi⟩, hd⟩

theorem declaresField_iff {f : FieldDeclaration} :
    DeclaresField schemas n m f ↔
      ∃ i, (i, f) ∈ TypeNode.fieldsOf (declarationsOf schemas n) m := by
  simp only [DeclaresField, declares_iff, TypeNode.mem_fieldsOf_iff]
  constructor
  · rintro ⟨d, ⟨i, hi⟩, hf⟩
    exact ⟨i, d, hi, hf⟩
  · rintro ⟨i, d, hi, hf⟩
    exact ⟨d, ⟨i, hi⟩, hf⟩

theorem Normalized.arguments_of_mem (hn : Normalized schemas) {e : SubgraphId × FieldDeclaration}
    (he : e ∈ TypeNode.fieldsOf (declarationsOf schemas n) m) :
    (e.2.definition.arguments.map Prod.fst).Nodup :=
  hn.arguments (declaresField_iff.2 ⟨e.1, he⟩)

/-- The types of the graph are those that are declared. -/
theorem isSome_get?_ofSchemas_iff :
    ((Graph.ofSchemas schemas).types.get? n).isSome = true ↔ ∃ d, Declares schemas n d := by
  simp only [get?_ofSchemas, declares_iff]
  cases declarationsOf schemas n with
  | nil => simp
  | cons e es =>
    simp only [List.head?_cons, Option.map_some, Option.isSome_some, true_iff]
    exact ⟨e.2, e.1, List.mem_cons_self⟩

/-- Where the declarations of a name are of one kind, its type is made of all of them. -/
theorem get?_ofSchemas_of_kind (hkind : ∀ {d d'}, Declares schemas n d → Declares schemas n d' →
      d.kind = d'.kind) :
    (Graph.ofSchemas schemas).types.get? n = (declarationsOf schemas n).head?.map fun d =>
      TypeNode.ofDeclarations (schemas.map (·.name)) d.2.kind (declarationsOf schemas n) := by
  rw [get?_ofSchemas]
  cases hh : (declarationsOf schemas n).head? with
  | none => rfl
  | some h =>
    have hmem := List.mem_of_head? hh
    have hall : ((declarationsOf schemas n).filter fun e => e.2.kind = h.2.kind) =
        declarationsOf schemas n := by
      rw [List.filter_eq_self]
      intro e he
      simpa using hkind (declares_iff.2 ⟨e.1, he⟩) (declares_iff.2 ⟨h.1, hmem⟩)
    rw [Option.map_some, Option.map_some, hall]

/-- Where they are of one kind, a type of the graph is made of declarations of its kind. -/
theorem exists_declares_of_get?_ofSchemas (hkind : ∀ {d d'}, Declares schemas n d →
      Declares schemas n d' → d.kind = d'.kind) {t : TypeNode}
    (ht : (Graph.ofSchemas schemas).types.get? n = some t) :
    ∃ names kind ds, t = TypeNode.ofDeclarations names kind ds ∧ ds ≠ [] ∧
      ∀ d ∈ ds, d.2.kind = kind ∧ Declares schemas n d.2 := by
  rw [get?_ofSchemas_of_kind hkind] at ht
  obtain ⟨e, he, rfl⟩ := Option.map_eq_some_iff.1 ht
  have hmem := List.mem_of_head? he
  refine ⟨_, _, _, rfl, List.ne_nil_of_mem hmem, fun d hd => ?_⟩
  have hdeclares := declares_iff.2 ⟨d.1, hd⟩
  exact ⟨hkind hdeclares (declares_iff.2 ⟨e.1, hmem⟩), hdeclares⟩

/-- A type that is declared is in the graph. -/
theorem exists_get?_ofSchemas (hkind : ∀ {d d'}, Declares schemas n d → Declares schemas n d' →
      d.kind = d'.kind) {d : TypeDeclaration} (hd : Declares schemas n d) :
    (Graph.ofSchemas schemas).types.get? n = some
      (TypeNode.ofDeclarations (schemas.map (·.name)) d.kind (declarationsOf schemas n)) := by
  obtain ⟨i, hi⟩ := declares_iff.1 hd
  rw [get?_ofSchemas_of_kind hkind]
  cases hh : (declarationsOf schemas n).head? with
  | none => simp [List.head?_eq_none_iff.1 hh] at hi
  | some h =>
    rw [Option.map_some, hkind (declares_iff.2 ⟨h.1, List.mem_of_head? hh⟩) hd]

/-- A field of an object type has a resolver, which does not declare it externally. -/
theorem exists_base_of_baseConflicts_eq_nil (hkind : ∀ {d d'}, Declares schemas n d →
      Declares schemas n d' → d.kind = d'.kind)
    (hbase : (Graph.ofSchemas schemas).baseConflicts = []) {d : TypeDeclaration}
    (hd : Declares schemas n d) (hobject : d.kind = .object) {f : FieldDeclaration}
    (hf : d.fields.get? m = some f) :
    ∃ f', DeclaresField schemas n m f' ∧ f'.external = false := by
  obtain ⟨i, hi⟩ := declaresField_iff.1 ⟨d, hd, hf⟩
  obtain ⟨node, hfield⟩ : ∃ node, FieldNode.ofDeclarations? (schemas.map (·.name))
      (TypeNode.fieldsOf (declarationsOf schemas n) m) = some node := by
    cases hes : TypeNode.fieldsOf (declarationsOf schemas n) m with
    | nil => simp [hes] at hi
    | cons e es => exact ⟨_, rfl⟩
  have hres := Graph.baseConflicts_eq_nil_iff.1 hbase n _ (exists_get?_ofSchemas hkind hd) m node
    (by rw [TypeNode.get?_fields, hfield]) (by simp [hobject])
  obtain ⟨j, hj⟩ := SubgraphSet.isEmpty_eq_false_iff.1 hres
  obtain ⟨hdecl, hext, _⟩ := FieldNode.mem_resolvers_iff.1 hj
  obtain ⟨f', hf'⟩ := (FieldNode.mem_declaredIn_iff hfield).1 hdecl
  refine ⟨f', declaresField_iff.2 ⟨j, hf'⟩, ?_⟩
  rw [← Bool.not_eq_true]
  exact fun h => hext ((FieldNode.mem_externalIn_iff hfield).2 ⟨f', hf', h⟩)

/-- **What a batch without conflicts agrees on.** -/
theorem concordant_of_conflicts_eq_nil (hn : Normalized schemas) (hc : conflicts schemas = []) :
    Concordant schemas := by
  obtain ⟨hmerge, hbase, _⟩ := conflicts_eq_nil_iff.1 hc
  rw [mergeConflicts_eq_nil_iff] at hmerge
  have hkind : ∀ {n d d'}, Declares schemas n d → Declares schemas n d' → d.kind = d'.kind := by
    intro n d d' hd hd'
    obtain ⟨i, hi⟩ := declares_iff.1 hd
    obtain ⟨j, hj⟩ := declares_iff.1 hd'
    exact (hmerge n).1 _ hi _ hj
  refine ⟨hkind, ?_, ?_, ?_⟩
  · intro n d d' m v v' hd hd' hv hv'
    obtain ⟨i, hi⟩ := declares_iff.1 hd
    obtain ⟨j, hj⟩ := declares_iff.1 hd'
    exact (hmerge n).2.1 m _ (TypeNode.mem_inputTypes_iff.2 ⟨i, d, hi, v, hv, rfl⟩) _
      (TypeNode.mem_inputTypes_iff.2 ⟨j, d', hj, v', hv', rfl⟩)
  · -- A field of the declarations that are not external has the type of the first of these, with
    -- which all declarations were compared.
    intro n m f f' hf hf' hext
    obtain ⟨i, hi⟩ := declaresField_iff.1 hf
    obtain ⟨j, hj⟩ := declaresField_iff.1 hf'
    obtain ⟨exts, b, rest, hs⟩ := FieldNode.exists_split ⟨_, hj, hext⟩
    have htypes := ((FieldNode.checked_iff_of_split hs fun _ he => hn.arguments_of_mem he).1
      ((hmerge n).2.2 m)).1
    rw [htypes _ hi, htypes _ hj]
  · rintro n m f ⟨d, hd, hf⟩
    by_cases hobject : d.kind = .object
    · exact exists_base_of_baseConflicts_eq_nil hkind hbase hd hobject hf
    · refine ⟨f, ⟨d, hd, hf⟩, ?_⟩
      rw [← Bool.not_eq_true]
      exact fun h => hobject (hn.external hd hf h)

end Declares

end Federation
