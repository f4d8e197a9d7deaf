import Federation.Proofs.Graph.Provenance
import Federation.Proofs.Graph.Settlement
import Federation.Proofs.Order.Merging
import Federation.Proofs.Separation.Unrelated

/-!
# Part of a batch

What a part of a batch makes up by itself is found again in the graph of the whole batch.  Between
the two stands the graph of the part in its place (`Graph.ofPart`): the whole batch with every other
schema silenced, so that subgraphs have the numbers of the whole batch and types are made of the
part alone.

The graph of the part by itself is the one in its place with the subgraphs renumbered
(`Graph.renumbered_ofPart`), where the numbering only moves the part to the front (`rotation`).  And
where the part is unrelated to the rest, the graph of the whole batch has the types that the rest
does not declare as they are in the part (`Graph.get?_ofPart`), and of a type that both declare
the fields that the part declares (`Graph.exists_types_of_declares`).
-/

namespace Federation

/-! ### Rotating a batch -/

/-- The renumbering that moves positions behind the first `a` to the front, `b` in number, and the
first `a` behind them. -/
def rotation (a b : Nat) : Equiv.Perm Nat where
  toFun i := if i < b then a + i else if i < a + b then i - b else i
  invFun i := if i < a then i + b else if i < a + b then i - a else i
  left_inv i := by grind
  right_inv i := by grind

theorem rotation_of_lt {a b i : Nat} (h : i < b) : rotation a b i = a + i := if_pos h

/-- A list whose middle is moved to the front has its items at the rotated positions. -/
theorem getElem?_rotation {α : Type} (l x r : List α) (i : Nat) :
    (l ++ x ++ r)[rotation l.length x.length i]? = (x ++ l ++ r)[i]? := by
  show (l ++ x ++ r)[if i < x.length then l.length + i
    else if i < l.length + x.length then i - x.length else i]? = _
  simp only [List.getElem?_append, List.length_append]
  grind

/-! ### Declarations of a part -/

section Declarations

variable {schemas l x r : List Schema} {n m : Name}

theorem declarationsOf_append (a b : List Schema) (n : Name) :
    declarationsOf (a ++ b) n =
      declarationsOf a n ++ (declarationsOf b n).map fun e => (a.length + e.1, e.2) := by
  unfold declarationsOf
  have hshift : b.zipIdx a.length = b.zipIdx.map fun s => (s.1, a.length + s.2) :=
    List.zipIdx_eq_map_add
  rw [List.zipIdx_append, List.filterMap_append, Nat.zero_add, hshift, List.filterMap_map,
    List.map_filterMap]
  congr 1
  refine List.filterMap_congr fun s _ => ?_
  simp [Function.comp_def]

theorem declarationsOf_eq_nil_iff : declarationsOf schemas n = [] ↔ Avoids schemas n := by
  simp only [Avoids, declares_iff, not_exists, List.eq_nil_iff_forall_not_mem, Prod.forall]
  exact forall_comm

theorem lt_of_mem_declarationsOf {i : Nat} {d : TypeDeclaration}
    (h : (i, d) ∈ declarationsOf schemas n) : i < schemas.length := by
  obtain ⟨s, hs, _⟩ := mem_declarationsOf_iff.1 h
  exact (List.getElem?_eq_some_iff.1 hs).1

/-- What no schema of a batch declares of a type leaves no declarations of the field. -/
theorem fieldsOf_eq_nil (h : ∀ d, Declares schemas n d → d.fields.get? m = none) :
    TypeNode.fieldsOf (declarationsOf schemas n) m = [] := by
  refine List.filterMap_eq_nil_iff.2 fun e he => ?_
  rw [h e.2 (declares_iff.2 ⟨e.1, he⟩), Option.map_none]

/-- A schema that declares nothing any more. -/
def Schema.silenced (s : Schema) : Schema := { s with types := ∅ }

/-- A schema without its name. -/
def Schema.unnamed (s : Schema) : Schema := { s with name := "" }

theorem avoids_silenced (schemas : List Schema) (n : Name) : Avoids (schemas.map .silenced) n := by
  rintro d ⟨s, hs, hd⟩
  obtain ⟨s, _, rfl⟩ := List.mem_map.1 hs
  cases hd

/-- The whole batch with all schemas silenced but those of a part. -/
def partOf (l x r : List Schema) : List Schema := l.map .silenced ++ x ++ r.map .silenced

theorem names_partOf : (partOf l x r).map (·.name) = (l ++ x ++ r).map (·.name) := by
  simp [partOf, Schema.silenced, Function.comp_def]

theorem declares_partOf_iff {d : TypeDeclaration} :
    Declares (partOf l x r) n d ↔ Declares x n d := by
  simp only [partOf, declares_append_iff]
  exact ⟨fun h => (h.resolve_right (avoids_silenced r n d)).resolve_left (avoids_silenced l n d),
    fun h => .inl (.inr h)⟩

/-- In its place, a part has the declarations that it has by itself, under rotated numbers. -/
theorem declarationsOf_partOf : declarationsOf (partOf l x r) n =
    (declarationsOf x n).map fun e => (rotation l.length x.length e.1, e.2) := by
  rw [partOf, declarationsOf_append, declarationsOf_append,
    declarationsOf_eq_nil_iff.2 (avoids_silenced l n),
    declarationsOf_eq_nil_iff.2 (avoids_silenced r n), List.map_nil, List.append_nil,
    List.nil_append, List.length_map]
  refine List.map_congr_left fun e he => ?_
  rw [rotation_of_lt (lt_of_mem_declarationsOf he)]

theorem declares_whole_iff {d : TypeDeclaration} :
    Declares (l ++ x ++ r) n d ↔ Declares x n d ∨ Declares (l ++ r) n d := by
  simp only [declares_append_iff]
  tauto

/-- Of a type that the rest of the batch does not declare, the part has all declarations. -/
theorem declarationsOf_of_avoids (h : Avoids (l ++ r) n) :
    declarationsOf (l ++ x ++ r) n = declarationsOf (partOf l x r) n := by
  have hl : Avoids l n := fun d hd => h d (declares_append_iff.2 (.inl hd))
  have hr : Avoids r n := fun d hd => h d (declares_append_iff.2 (.inr hd))
  simp only [partOf, declarationsOf_append, declarationsOf_eq_nil_iff.2 hl,
    declarationsOf_eq_nil_iff.2 hr, declarationsOf_eq_nil_iff.2 (avoids_silenced l n),
    declarationsOf_eq_nil_iff.2 (avoids_silenced r n), List.length_map, List.map_nil]

end Declarations

namespace TypeNode

theorem fieldsOf_append (ds es : List (SubgraphId × TypeDeclaration)) (m : Name) :
    fieldsOf (ds ++ es) m = fieldsOf ds m ++ fieldsOf es m := List.filterMap_append

theorem inputTypes_append (ds es : List (SubgraphId × TypeDeclaration)) (m : Name) :
    inputTypes (ds ++ es) m = inputTypes ds m ++ inputTypes es m := List.filterMap_append

variable (σ : SubgraphId → SubgraphId) (ds : List (SubgraphId × TypeDeclaration)) (m : Name)

theorem fieldsOf_map : fieldsOf (ds.map fun e => (σ e.1, e.2)) m =
    (fieldsOf ds m).map fun e => (σ e.1, e.2) := by
  simp [fieldsOf, List.filterMap_map, List.map_filterMap, Function.comp_def]

theorem inputTypes_map : inputTypes (ds.map fun e => (σ e.1, e.2)) m = inputTypes ds m := by
  simp [inputTypes, List.filterMap_map]

end TypeNode

/-! ### The graph of a part -/

section Graphs

variable {schemas l x r : List Schema} {n m : Name}

/-- A type of a graph is made of declarations of its kind. -/
theorem exists_ofDeclarations_of_get?_ofSchemas {t : TypeNode}
    (ht : (Graph.ofSchemas schemas).types.get? n = some t) :
    ∃ kind ds, t = TypeNode.ofDeclarations (schemas.map (·.name)) kind ds ∧
      (ds.map Prod.fst).Nodup ∧ ∀ e ∈ ds, e ∈ declarationsOf schemas n ∧ e.2.kind = kind := by
  rw [get?_ofSchemas] at ht
  obtain ⟨d, _, rfl⟩ := Option.map_eq_some_iff.1 ht
  refine ⟨_, _, rfl, (nodup_declarationsOf schemas n).sublist (List.filter_sublist.map _),
    fun e he => ?_⟩
  simpa using List.mem_filter.1 he

namespace Graph

/-- The graph of a part of a batch, in its place. -/
def ofPart (l x r : List Schema) : Graph where
  subgraphs := (ofSchemas (l.map .unnamed ++ x ++ r.map .unnamed)).subgraphs
  types := (ofSchemas (partOf l x r)).types

theorem nameOf_ofPart {i : Nat} (hi : l.length ≤ i) (hi' : i < l.length + x.length) :
    (ofSchemas (l ++ x ++ r)).nameOf i = (ofPart l x r).nameOf i := by
  simp only [nameOf, ofPart, ofSchemas, List.getElem?_map, List.getElem?_append,
    List.length_append, List.length_map, Nat.not_lt.2 hi, hi', if_true, if_false]

/-- What the rest of the batch does not declare is as in the part. -/
theorem get?_ofPart (h : Avoids (l ++ r) n) :
    (ofSchemas (l ++ x ++ r)).types.get? n = (ofPart l x r).types.get? n := by
  show _ = (ofSchemas (partOf l x r)).types.get? n
  rw [get?_ofSchemas, get?_ofSchemas, declarationsOf_of_avoids h, names_partOf]

theorem get?_types_ofPart : (ofPart l x r).types.get? n = (declarationsOf x n).head?.map fun d =>
    TypeNode.ofDeclarations ((l ++ x ++ r).map (·.name)) d.2.kind
      (((declarationsOf x n).filter fun e => e.2.kind = d.2.kind).map fun e =>
        (rotation l.length x.length e.1, e.2)) := by
  show (ofSchemas (partOf l x r)).types.get? n = _
  rw [get?_ofSchemas, declarationsOf_partOf, names_partOf, List.head?_map, Option.map_map]
  refine congrFun (congrArg Option.map (funext fun d => ?_)) _
  rw [Function.comp_apply, List.filter_map]
  rfl

/-- A declaration of the part has the numbers and names that go together in both batches. -/
theorem idxOf?_rotation (hnames : ((l ++ x ++ r).map (·.name)).Nodup) {i : Nat}
    (hi : i < x.length) (name : String) :
    ((l ++ x ++ r).map (·.name)).idxOf? name = some (rotation l.length x.length i) ↔
      (x.map (·.name)).idxOf? name = some i := by
  have hx : (x.map (·.name)).Nodup := by
    rw [List.append_assoc, List.map_append, List.map_append] at hnames
    exact hnames.of_append_right.of_append_left
  rw [idxOf?_eq_some_iff_getElem? hnames, idxOf?_eq_some_iff_getElem? hx, List.getElem?_map,
    getElem?_rotation, List.append_assoc, List.getElem?_append_left hi, List.getElem?_map]

/-- The type that a part makes up, by itself and in its place. -/
theorem renumbered_ofDeclarations_map (hnames : ((l ++ x ++ r).map (·.name)).Nodup)
    {kind : TypeKind} {ds : List (SubgraphId × TypeDeclaration)} (hnodup : (ds.map Prod.fst).Nodup)
    (hds : ∀ e ∈ ds, e ∈ declarationsOf x n) :
    (TypeNode.ofDeclarations (x.map (·.name)) kind ds).Renumbered (rotation l.length x.length)
      (TypeNode.ofDeclarations ((l ++ x ++ r).map (·.name)) kind
        (ds.map fun e => (rotation l.length x.length e.1, e.2))) := by
  refine TypeNode.renumbered_ofDeclarations hnodup ?_ (fun i d => ?_) (fun s i d hd => ?_)
    (fun m f f' hf hf' => ?_) fun m => ?_
  · rw [List.map_map]
    have h := hnodup.map (rotation l.length x.length).injective
    rwa [List.map_map] at h
  · simp only [List.mem_map, Prod.exists, Prod.mk.injEq, EmbeddingLike.apply_eq_iff_eq]
    constructor
    · rintro ⟨_, _, hd, rfl, rfl⟩
      exact hd
    · exact fun hd => ⟨i, d, hd, rfl, rfl⟩
  · exact idxOf?_rotation hnames (lt_of_mem_declarationsOf (hds _ hd)) s
  · refine congrArg FieldDefinition.type (FieldNode.definition_eq_of_map_snd ?_ hf hf')
    rw [TypeNode.fieldsOf_map, List.map_map]
    rfl
  · rw [TypeNode.type_get?_inputs, TypeNode.type_get?_inputs, TypeNode.inputTypes_map]

/-- **A part in its place**: its graph is that of the part by itself, with the subgraphs
renumbered. -/
theorem renumbered_ofPart (hnames : ((l ++ x ++ r).map (·.name)).Nodup) :
    (ofSchemas x).Renumbered (rotation l.length x.length) (ofPart l x r) := by
  refine ⟨fun i => ?_, fun n => ?_⟩
  · have hmoved := getElem?_rotation (l.map Schema.unnamed) x (r.map Schema.unnamed) i
    rw [List.length_map] at hmoved
    simp only [nameOf, ofPart, ofSchemas, List.getElem?_map, hmoved]
    by_cases hi : i < x.length
    · rw [List.append_assoc, List.getElem?_append_left hi]
    · -- Behind the part no subgraph has a name.
      rw [List.append_assoc, List.getElem?_append_right (Nat.not_lt.1 hi), ← List.map_append,
        List.getElem?_map, List.getElem?_eq_none (Nat.not_lt.1 hi)]
      cases (l ++ r)[i - x.length]? <;> rfl
  · rcases h : (declarationsOf x n).head? with _ | d
    · rw [get?_ofSchemas, get?_types_ofPart, h]
      exact .none
    · rw [get?_ofSchemas, get?_types_ofPart, h]
      refine .some (renumbered_ofDeclarations_map hnames ?_ fun e he => (List.mem_filter.1 he).1)
      exact (nodup_declarationsOf x n).sublist (List.filter_sublist.map _)

/-- By itself and in its place, a part makes up the same definitions. -/
theorem definition_ofPart {t t' : TypeNode} {f f' : FieldNode}
    (ht : (ofSchemas x).types.get? n = some t) (ht' : (ofPart l x r).types.get? n = some t')
    (hf : t.fields.get? m = some f) (hf' : t'.fields.get? m = some f') :
    f'.definition = f.definition := by
  rw [get?_ofSchemas] at ht
  obtain ⟨d, hd, rfl⟩ := Option.map_eq_some_iff.1 ht
  rw [get?_types_ofPart, hd, Option.map_some, Option.some.injEq] at ht'
  subst ht'
  rw [TypeNode.get?_fields] at hf hf'
  refine FieldNode.definition_eq_of_map_snd ?_ hf hf'
  rw [TypeNode.fieldsOf_map, List.map_map]
  rfl

/-! ### Types of the part and of the rest -/

/-- **What the whole batch has of a part**: a type that an unrelated part declares has the kind that
it has in the part, and the fields that the part declares as they are there. -/
theorem exists_types_of_declares (h : Unrelated x (l ++ r)) {d : TypeDeclaration}
    (hd : Declares x n d) :
    ∃ t t', (ofPart l x r).types.get? n = some t ∧
      (ofSchemas (l ++ x ++ r)).types.get? n = some t' ∧
      t'.kind = t.kind ∧ ∀ m f, DeclaresField x n m f → t'.fields.get? m = t.fields.get? m := by
  by_cases havoids : Avoids (l ++ r) n
  · obtain ⟨t, ht⟩ := Option.isSome_iff_exists.1
      (isSome_get?_ofSchemas_iff.2 ⟨d, declares_partOf_iff (l := l) (r := r).2 hd⟩)
    exact ⟨t, t, ht, (get?_ofPart havoids).trans ht, rfl, fun _ _ _ => rfl⟩
  · -- The type is a root operation type, declared as an object type throughout.
    obtain ⟨e, he⟩ : ∃ e, Declares (l ++ r) n e := by simpa [Avoids] using havoids
    have hobject : ∀ {d'}, Declares (l ++ x ++ r) n d' → d'.kind = .object := by
      intro d' hd'
      rcases declares_whole_iff.1 hd' with hd' | he'
      · exact (h.of_declares hd' he).2.1
      · exact (h.of_declares hd he').2.2.1
    have hwhole : ∀ {d'}, Declares x n d' → Declares (l ++ x ++ r) n d' := fun hd' =>
      declares_whole_iff.2 (.inl hd')
    have hpart : ∀ {d'}, Declares (partOf l x r) n d' → d'.kind = .object := fun hd' =>
      hobject (hwhole (declares_partOf_iff.1 hd'))
    refine ⟨_, _, exists_get?_ofSchemas (fun hd hd' => by rw [hpart hd, hpart hd'])
        (declares_partOf_iff.2 hd),
      exists_get?_ofSchemas (fun hd hd' => by rw [hobject hd, hobject hd']) (hwhole hd),
      by simp, ?_⟩
    rintro m f ⟨d', hd', hf⟩
    -- The rest declares other fields.
    have hnone : ∀ e, Declares (l ++ r) n e → e.fields.get? m = none := fun e he =>
      (h.of_declares hd' he).2.2.2 m f hf
    have hl : TypeNode.fieldsOf (declarationsOf l n) m = [] :=
      fieldsOf_eq_nil fun e he => hnone e (declares_append_iff.2 (.inl he))
    have hr : TypeNode.fieldsOf (declarationsOf r n) m = [] :=
      fieldsOf_eq_nil fun e he => hnone e (declares_append_iff.2 (.inr he))
    rw [TypeNode.get?_fields, TypeNode.get?_fields, names_partOf]
    simp only [partOf, declarationsOf_append, TypeNode.fieldsOf_append, TypeNode.fieldsOf_map, hl,
      hr, declarationsOf_eq_nil_iff.2 (avoids_silenced l n),
      declarationsOf_eq_nil_iff.2 (avoids_silenced r n), List.length_map, List.map_nil,
      List.nil_append, List.append_nil]

end Graph

end Graphs

end Federation
