import Federation.Composition
import Federation.Proofs.Graph.Merged
import Federation.Proofs.Table
import Mathlib.Data.List.Nodup

/-!
# What a merged graph records

The merge loses nothing and repeats nothing.  `Graph.Records` says so part by part, by the
declarations of the batch alone: the names of a graph are those that are declared, in the order in
which they are first seen and each once; a type has the kind of its first declaration and records
all declarations of that kind (`TypeNode.Records`); a field records all of its declarations in those
(`FieldNode.Records`).  `records_ofSchemas` proves it of every batch whose schemas have different
names; the names are what `@override` refers to.

Orders are all of one sort: the parts of a type are tables that every declaration alters, so their
names end up in first-seen order (`TypeNode.names_ofDeclarations`).
-/

namespace Federation

/-! ### Names in first-seen order -/

theorem Table.names_mergeIn {α β : Type} (f : α → Option β → β) (new : Table α) (t : Table β) :
    (new.mergeIn f t).names = appendNew t.names new.names :=
  names_foldl_alter Prod.fst (fun e => f e.2) new.entries t

theorem names_addMemberships (i : SubgraphId) (ns : List Name) (t : Table SubgraphSet) :
    (addMemberships i ns t).names = appendNew t.names ns := by
  have h := Table.names_foldl_alter (fun n : Name => n) (fun _ s => (s.getD ∅).insert i) ns t
  rw [List.map_id'] at h
  exact h

theorem foldl_appendNew {α E : Type} [DecidableEq α] (g : E → List α) (es : List E)
    (xs : List α) : es.foldl (fun xs e => appendNew xs (g e)) xs = appendNew xs (es.flatMap g) := by
  induction es generalizing xs with
  | nil => rfl
  | cons e es ih => rw [List.foldl_cons, ih, List.flatMap_cons, appendNew_append]

namespace TypeNode

variable {names : List String} {kind : TypeKind} {ds : List (SubgraphId × TypeDeclaration)}

/-- Where each declaration appends what it lists to some names of a type, these are in the end
all names that are listed, in first-seen order and each once. -/
theorem names_ofDeclarations (part : TypeNode → List Name) (listed : TypeDeclaration → List Name)
    (hstep : ∀ t (d : SubgraphId × TypeDeclaration),
      part (t.absorb names d.1 d.2) = appendNew (part t) (listed d.2))
    (hstart : part { kind } = []) :
    part (ofDeclarations names kind ds) = (ds.flatMap fun d => listed d.2).eraseDups := by
  have hfold := foldl_part part some (fun ns d => appendNew ns (listed d.2)) hstep ds { kind }
  rw [ofDeclarations, hfold, List.filterMap_some, hstart, foldl_appendNew, appendNew_nil]

/-! ### Sets of subgraphs -/

theorem mem_subgraphs_iff {i : SubgraphId} :
    i ∈ (ofDeclarations names kind ds).subgraphs ↔ ∃ d, (i, d) ∈ ds := by
  have hstep : ∀ (t : TypeNode) (d : SubgraphId × TypeDeclaration),
      (t.absorb names d.1 d.2).subgraphs = (some d.1).elim t.subgraphs t.subgraphs.insert :=
    fun _ _ => rfl
  have hfold := foldl_part (fun t : TypeNode => t.subgraphs)
    (fun d : SubgraphId × TypeDeclaration => some d.1) SubgraphSet.insert hstep ds { kind }
  rw [ofDeclarations, hfold, SubgraphSet.mem_foldl_insert]
  simp

/-- The subgraphs of an input field are those that declare it. -/
theorem mem_subgraphs_of_get?_inputs {m : Name} {node : InputNode}
    (h : (ofDeclarations names kind ds).inputs.get? m = some node) {i : SubgraphId} :
    i ∈ node.subgraphs ↔ ∃ d, (i, d) ∈ ds ∧ m ∈ d.inputs.names := by
  have hstep : ∀ (node? : Option InputNode) (e : SubgraphId × InputValue),
      (some (InputNode.absorb e.1 e.2 node?)).map InputNode.subgraphs =
        (some e.1).elim (node?.map InputNode.subgraphs)
          fun i => some (((node?.map InputNode.subgraphs).getD ∅).insert i) := by
    intro node? e
    cases node? <;> rfl
  have hfold := foldl_part (Option.map InputNode.subgraphs) (fun e => some e.1)
    (fun s? i => some ((s?.getD ∅).insert i)) hstep (inputsOf ds m) none
  rw [get?_inputs] at h
  rw [h, Option.map_none, foldl_insert?_eq, List.filterMap_eq_map'] at hfold
  split at hfold
  · cases hfold
  · rw [Option.map_some, Option.some.injEq] at hfold
    rw [hfold, SubgraphSet.mem_ofList, List.mem_map]
    simp only [Prod.exists, exists_and_right, exists_eq_right, mem_inputsOf_iff,
      Table.mem_names_iff]
    rw [exists_comm]
    simp only [exists_and_left]

end TypeNode

/-! ### Names of subgraphs -/

/-- Where names are different, the position of a name is the only one that it stands at. -/
theorem idxOf?_eq_some_iff_getElem? {names : List String} (hnames : names.Nodup) {s : String}
    {i : SubgraphId} : names.idxOf? s = some i ↔ names[i]? = some s := by
  rw [List.idxOf?_eq_some_iff]
  constructor
  · rintro ⟨hi, hs, _⟩
    rw [List.getElem?_eq_getElem hi, hs]
  · intro h
    obtain ⟨hi, hs⟩ := List.getElem?_eq_some_iff.1 h
    refine ⟨hi, hs, fun j hj hsj => ?_⟩
    have hij := (List.Nodup.getElem_inj_iff hnames).1 (hsj.trans hs.symm)
    omega

/-! ### Records -/

/-- What a field of a graph holds of its declarations, where `names` are the names of the subgraphs
of the batch. -/
structure FieldNode.Records (names : List String) (es : List (SubgraphId × FieldDeclaration))
    (f : FieldNode) : Prop where
  /-- The subgraphs that declare the field. -/
  declaredIn : ∀ i, i ∈ f.declaredIn ↔ ∃ d, (i, d) ∈ es
  /-- Those that declare it externally. -/
  externalIn : ∀ i, i ∈ f.externalIn ↔ ∃ d, (i, d) ∈ es ∧ d.external = true
  /-- Those in which it is shareable. -/
  shareableIn : ∀ i, i ∈ f.shareableIn ↔ ∃ d, (i, d) ∈ es ∧ d.shareable = true
  /-- What each of them provides along with the field. -/
  provides : ∀ i F, f.provides.get? i = some F ↔ ∃ d, (i, d) ∈ es ∧ d.provides = some F
  /-- What each of them requires for the field. -/
  requires : ∀ i F, f.requires.get? i = some F ↔ ∃ d, (i, d) ∈ es ∧ d.requires = some F
  /-- The subgraph that each of them takes the field from, by its name and by its place in the
  batch. -/
  overrides : ∀ i o, f.overrides.get? i = some o ↔
    (∃ d, (i, d) ∈ es ∧ d.overrides = some o.source) ∧
      ∀ j, o.target = some j ↔ names[j]? = some o.source
  /-- Those that are named in the override of another subgraph which declares the field. -/
  overriddenIn : ∀ i, i ∈ f.overriddenIn ↔ (∃ d, (i, d) ∈ es) ∧
    ∃ j d s, (j, d) ∈ es ∧ j ≠ i ∧ d.overrides = some s ∧ names[i]? = some s
  /-- The subgraphs that resolve the field: those of the first set that are in neither of the
  others. -/
  resolvers : ∀ i, i ∈ f.resolvers ↔ i ∈ f.declaredIn ∧ i ∉ f.externalIn ∧ i ∉ f.overriddenIn

/-- What a type of a graph holds of its declarations. -/
structure TypeNode.Records (names : List String) (ds : List (SubgraphId × TypeDeclaration))
    (t : TypeNode) : Prop where
  /-- The subgraphs that declare the type. -/
  subgraphs : ∀ i, i ∈ t.subgraphs ↔ ∃ d, (i, d) ∈ ds
  /-- The fields, values, input fields, members and interfaces are those that are declared, in
  first-seen order and each once. -/
  fieldNames : t.fields.names = (ds.flatMap fun d => d.2.fields.names).eraseDups
  valueNames : t.values.names = (ds.flatMap fun d => d.2.values.names).eraseDups
  inputNames : t.inputs.names = (ds.flatMap fun d => d.2.inputs.names).eraseDups
  memberNames : t.members.names = (ds.flatMap fun d => d.2.members).eraseDups
  interfaceNames : t.interfaces.names = (ds.flatMap fun d => d.2.interfaces).eraseDups
  /-- Every field records its declarations. -/
  field : ∀ m f, t.fields.get? m = some f → f.Records names (TypeNode.fieldsOf ds m)
  /-- The subgraphs of an input field, a member or an interface are those that declare it. -/
  input : ∀ m node, t.inputs.get? m = some node →
    ∀ i, i ∈ node.subgraphs ↔ ∃ d, (i, d) ∈ ds ∧ m ∈ d.inputs.names
  member : ∀ m s, t.members.get? m = some s → ∀ i, i ∈ s ↔ ∃ d, (i, d) ∈ ds ∧ m ∈ d.members
  interface : ∀ m s, t.interfaces.get? m = some s →
    ∀ i, i ∈ s ↔ ∃ d, (i, d) ∈ ds ∧ m ∈ d.interfaces
  /-- The keys are those of the subgraphs that declare any. -/
  keys : ∀ i ks, t.keys.get? i = some ks ↔ ∃ d, (i, d) ∈ ds ∧ d.keys ≠ [] ∧ d.keys = ks

/-- What a graph holds of a batch of schemas. -/
structure Graph.Records (schemas : List Schema) (g : Graph) : Prop where
  /-- The types are those that are declared, in first-seen order and each once. -/
  names : g.types.names = (schemas.flatMap fun s => s.types.names).eraseDups
  /-- A type has the kind of its first declaration, and records the declarations of that kind, in
  the order of the batch. -/
  type : ∀ n t, g.types.get? n = some t → ∃ i d, (declarationsOf schemas n).head? = some (i, d) ∧
    t.kind = d.kind ∧ t.Records (schemas.map (·.name))
      ((declarationsOf schemas n).filter fun e => e.2.kind = d.kind)

variable {names : List String}

/-- A field records the declarations that it is made of. -/
theorem FieldNode.records_ofDeclarations? (hnames : names.Nodup)
    {es : List (SubgraphId × FieldDeclaration)} (hes : (es.map Prod.fst).Nodup) {f : FieldNode}
    (h : ofDeclarations? names es = some f) : f.Records names es where
  declaredIn _ := mem_declaredIn_iff h
  externalIn _ := mem_externalIn_iff h
  shareableIn _ := mem_shareableIn_iff h
  provides _ _ := get?_provides_iff hes h
  requires _ _ := get?_requires_iff hes h
  overrides i o := by
    rw [get?_overrides_iff hes h]
    constructor
    · rintro ⟨d, s, hd, hs, rfl⟩
      exact ⟨⟨d, hd, hs⟩, fun j => idxOf?_eq_some_iff_getElem? hnames⟩
    · rintro ⟨⟨d, hd, hs⟩, htarget⟩
      refine ⟨d, o.source, hd, hs, ?_⟩
      -- Both targets are the only place of the same name.
      have h : o.target = names.idxOf? o.source := Option.ext fun j => by
        rw [htarget, idxOf?_eq_some_iff_getElem? hnames]
      rw [← h]
  overriddenIn i := by
    simp only [mem_overriddenIn_iff hes h, idxOf?_eq_some_iff_getElem? hnames]
  resolvers _ := mem_resolvers_iff

/-- A type records the declarations that it is made of. -/
theorem TypeNode.records_ofDeclarations (hnames : names.Nodup) (kind : TypeKind)
    {ds : List (SubgraphId × TypeDeclaration)} (hds : (ds.map Prod.fst).Nodup) :
    (ofDeclarations names kind ds).Records names ds where
  subgraphs _ := mem_subgraphs_iff
  fieldNames := names_ofDeclarations (fun t => t.fields.names) (fun d => d.fields.names)
    (fun _ _ => Table.names_mergeIn _ _ _) rfl
  valueNames := names_ofDeclarations (fun t => t.values.names) (fun d => d.values.names)
    (fun _ _ => Table.names_mergeIn _ _ _) rfl
  inputNames := names_ofDeclarations (fun t => t.inputs.names) (fun d => d.inputs.names)
    (fun _ _ => Table.names_mergeIn _ _ _) rfl
  memberNames := names_ofDeclarations (fun t => t.members.names) (fun d => d.members)
    (fun _ _ => names_addMemberships _ _ _) rfl
  interfaceNames := names_ofDeclarations (fun t => t.interfaces.names) (fun d => d.interfaces)
    (fun _ _ => names_addMemberships _ _ _) rfl
  field m f hf := by
    rw [get?_fields] at hf
    exact FieldNode.records_ofDeclarations? hnames (nodup_fieldsOf hds m) hf
  input _ _ h _ := mem_subgraphs_of_get?_inputs h
  member _ _ h := (get?_members_iff.1 h).2
  interface _ _ h := (get?_interfaces_iff.1 h).2
  keys _ _ := get?_keys_iff hds

theorem names_ofSchemas (schemas : List Schema) :
    (Graph.ofSchemas schemas).types.names =
      (schemas.flatMap fun s => s.types.names).eraseDups := by
  have hcontributed : (contributed schemas).map (·.name) =
      schemas.flatMap fun s => s.types.names := by
    simp only [contributed, List.map_flatMap, List.map_map]
    have hzip : schemas.flatMap (fun s => s.types.names) =
        (schemas.zipIdx.map Prod.fst).flatMap fun s => s.types.names := by
      rw [List.zipIdx_map_fst]
    rw [hzip, List.flatMap_map]
    rfl
  have hfold := Table.names_foldl_alter Contributed.name (fun c node? =>
    TypeNode.absorbNext (schemas.map (·.name)) node? (c.subgraph, c.declaration))
    (contributed schemas) ∅
  rw [hcontributed, Table.names_empty, appendNew_nil] at hfold
  exact hfold

/-- **The merge loses nothing and repeats nothing**: a graph records the batch that it is merged
from. -/
theorem records_ofSchemas (schemas : List Schema) (hnames : (schemas.map (·.name)).Nodup) :
    (Graph.ofSchemas schemas).Records schemas where
  names := names_ofSchemas schemas
  type n t ht := by
    rw [get?_ofSchemas] at ht
    obtain ⟨⟨i, d⟩, hd, rfl⟩ := Option.map_eq_some_iff.1 ht
    refine ⟨i, d, hd, TypeNode.kind_ofDeclarations, ?_⟩
    have hds := (nodup_declarationsOf schemas n).sublist
      ((List.filter_sublist (p := fun e => decide (e.2.kind = d.kind))).map Prod.fst)
    exact TypeNode.records_ofDeclarations hnames d.kind hds

/-- Three subgraphs: the second one takes a field over from the first one, and the third one
declares a type as another kind than they do. -/
def takenOverBatch : List Subgraph := Subgraph.batchOfTexts
  [("a", "type Query \x7b t: T \x7d type T \x7b x: Int y: Int \x7d enum E \x7b A B \x7d"),
    ("b", "type T \x7b x: Int @override(from: \"a\") z: Int \x7d enum E \x7b C B \x7d"),
    ("c", "scalar T union U = Query type Query \x7b u: U \x7d")]

/-- What the three subgraphs contribute. -/
def takenOverContributions : List Schema :=
  ((schemas? takenOverBatch).toOption.getD []).map Schema.contribution

/-- The field that is taken over is resolved by the second subgraph alone, and the third one has no
part in its type. -/
theorem records_ofSchemas_takenOver :
    (takenOverContributions.map (·.name)).Nodup ∧
    (Graph.ofSchemas takenOverContributions).render =
      "object Query [a, c]\n  t: T [a]\n  u: U [c]\n" ++
      "object T [a, b]\n  x: Int [b]\n  y: Int [a]\n  z: Int [b]\n" ++
      "enum E [a, b]\nunion U [c]\n" ∧
    (Graph.ofSchemas takenOverContributions).Records takenOverContributions := by
  have hnames : (takenOverContributions.map (·.name)).Nodup := by decide +kernel
  exact ⟨hnames, by decide +kernel, records_ofSchemas _ hnames⟩

end Federation
