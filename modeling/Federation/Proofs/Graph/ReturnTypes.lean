import Federation.Proofs.Graph.Remarks

/-!
# Conflicts about return types

Of the declarations of a field that count, the first one which is not external settles the type.
Every other one that gives the field another type is in conflict with it, once, in the order of the
batch and whichever of the two comes first (`returnTypes_reported`).  External declarations that
come before are kept until the type is settled, and those that come after are compared at once; a
field that all declarations have externally has no conflict.
-/

namespace Federation

/-- Whether a conflict is about the type that a field returns. -/
def Conflict.isReturnType (n m : Name) : Conflict → Bool
  | .fieldTypes t f .. | .externalTypes t f .. => t = n && f = m
  | _ => false

/-- The conflict that a declaration of a field is in which gives it another type than the one that
settles it. -/
def returnTypeConflict (nameOf : SubgraphId → String) (n m : Name)
    (base other : SubgraphId × FieldDeclaration) : Conflict :=
  if other.2.external then
    .externalTypes n m base.2.definition.type (nameOf base.1) other.2.definition.type
      (nameOf other.1)
  else
    .fieldTypes n m base.2.definition.type (nameOf base.1) other.2.definition.type (nameOf other.1)

theorem kind_returnTypeConflict {nameOf : SubgraphId → String} {n m : Name}
    {base other : SubgraphId × FieldDeclaration} :
    (returnTypeConflict nameOf n m base other).kind = .typeMismatch := by
  unfold returnTypeConflict
  split <;> rfl

/-- The message names both subgraphs, each with its type. -/
theorem message_returnTypeConflict {nameOf : SubgraphId → String} {n m : Name}
    {base other : SubgraphId × FieldDeclaration} :
    (returnTypeConflict nameOf n m base other).message =
      let r := base.2.definition.type.render
      let q := other.2.definition.type.render
      s!"Field \"{n.text}.{m.text}\" has type \"{r}\" in subgraph \"{nameOf base.1}\" " ++
        if other.2.external then
          s!"but type \"{q}\" in subgraph \"{nameOf other.1}\", where it is marked @external"
        else s!"but type \"{q}\" in subgraph \"{nameOf other.1}\"" := by
  unfold returnTypeConflict
  cases other.2.external <;> rfl

/-- The declarations of a field that give it another type than one of them does. -/
def differing (base : SubgraphId × FieldDeclaration) (es : List (SubgraphId × FieldDeclaration)) :
    List (SubgraphId × FieldDeclaration) :=
  es.filter fun e => e.2.definition.type ≠ base.2.definition.type

section ReturnTypes

variable {names : List String} {nameOf : SubgraphId → String} {n m : Name}

namespace FieldNode

variable {f : FieldNode} {es exts rest : List (SubgraphId × FieldDeclaration)}
  {b : SubgraphId × FieldDeclaration}

/-- What one more declaration remarks on, as far as return types go. -/
theorem filter_conflicts_of_awaited {xs : List (SubgraphId × TypeRef)}
    (hf : f.authority = .awaited xs) (e : SubgraphId × FieldDeclaration) :
    (f.conflicts nameOf n m e.1 e.2).filter (Conflict.isReturnType n m) =
      if e.2.external then [] else (xs.filter fun x => x.2 ≠ e.2.definition.type).map fun x =>
        .externalTypes n m e.2.definition.type (nameOf e.1) x.2 (nameOf x.1) := by
  unfold conflicts
  cases e.2.external with
  | true => simp [hf]
  | false =>
    simp only [hf, Bool.false_eq_true, if_false]
    rw [List.filter_eq_self]
    intro c hc
    obtain ⟨x, _, rfl⟩ := List.mem_map.1 hc
    simp [Conflict.isReturnType]

theorem filter_conflicts_of_settled (hf : f.authority = .settled b.1)
    (htype : f.definition.type = b.2.definition.type) (e : SubgraphId × FieldDeclaration) :
    (f.conflicts nameOf n m e.1 e.2).filter (Conflict.isReturnType n m) =
      (differing b [e]).map (returnTypeConflict nameOf n m b) := by
  unfold conflicts differing
  cases he : e.2.external with
  | true =>
    by_cases h : e.2.definition.type = b.2.definition.type
    · simp [hf, htype, h]
    · simp [hf, htype, h, Ne.symm h, returnTypeConflict, he, Conflict.isReturnType]
  | false =>
    -- The other conflicts of the declaration are about arguments.
    have harguments : ∀ (g : Name × InputValue → Option Conflict) (l : List (Name × InputValue)),
        (∀ a c, g a = some c → Conflict.isReturnType n m c = false) →
          (l.filterMap g).filter (Conflict.isReturnType n m) = [] := by
      intro g l hg
      rw [List.filter_eq_nil_iff]
      intro c hc
      obtain ⟨a, _, ha⟩ := List.mem_filterMap.1 hc
      simp [hg a c ha]
    simp only [hf, List.filter_append]
    rw [harguments _ _ fun a c hc => ?_]
    · by_cases h : e.2.definition.type = b.2.definition.type
      · simp [htype, h]
      · simp [htype, h, Ne.symm h, returnTypeConflict, he, Conflict.isReturnType]
    · obtain ⟨x, _, rfl⟩ := Option.map_eq_some_iff.1 hc
      rfl

/-- While the type is not settled, external declarations are not remarked on. -/
theorem remarks_externals (hexts : ∀ e ∈ exts, e.2.external = true)
    {xs : List (SubgraphId × TypeRef)} (hf : f.authority = .awaited xs) :
    remarks (fun (f : FieldNode) e => f.absorb names e.1 e.2)
      (fun f e => (f.conflicts nameOf n m e.1 e.2).filter (Conflict.isReturnType n m)) f exts =
        [] := by
  induction exts generalizing f xs with
  | nil => rfl
  | cons e exts ih =>
    have he : e.2.external = true := hexts e List.mem_cons_self
    obtain ⟨_, hauth⟩ := absorb_awaited_external hf names e.1 he
    rw [remarks_cons, filter_conflicts_of_awaited hf, if_pos he, List.nil_append]
    exact ih (fun e he => hexts e (List.mem_cons_of_mem _ he)) hauth

/-- Once it is settled, every declaration is compared with the one that settled it. -/
theorem remarks_settled (hf : f.authority = .settled b.1)
    (htype : f.definition.type = b.2.definition.type) :
    remarks (fun (f : FieldNode) e => f.absorb names e.1 e.2)
      (fun f e => (f.conflicts nameOf n m e.1 e.2).filter (Conflict.isReturnType n m)) f rest =
        (differing b rest).map (returnTypeConflict nameOf n m b) := by
  induction rest generalizing f with
  | nil => rfl
  | cons e rest ih =>
    obtain ⟨hauth, hdef⟩ := absorb_settled hf names e.1 e.2
    have htype' : (f.absorb names e.1 e.2).definition.type = b.2.definition.type := by
      rw [hdef, ← htype]
      split <;> rfl
    rw [remarks_cons, filter_conflicts_of_settled hf htype, ih hauth htype', ← List.map_append]
    congr 1
    exact List.filter_append [e] rest |>.symm

/-- **The conflicts about the type of one field.** -/
theorem remarks_of_split (hs : Split es exts b rest) (d : FieldDeclaration) :
    remarks (fun (f : FieldNode) e => f.absorb names e.1 e.2)
      (fun f e => (f.conflicts nameOf n m e.1 e.2).filter (Conflict.isReturnType n m)) (start d)
      es = (differing b es).map (returnTypeConflict nameOf n m b) := by
  have hstart : (start d).authority = .awaited [] := rfl
  obtain ⟨_, hauth, _⟩ := foldl_externals names hs.external hstart
  obtain ⟨hsettled, hbase⟩ := absorb_awaited_base hauth names b.1 hs.base
  have htype : ((exts.foldl (fun f e => f.absorb names e.1 e.2) (start d)).absorb names b.1
      b.2).definition.type = b.2.definition.type := by rw [hbase]
  have hpending : ((exts.map fun e => (e.1, e.2.definition.type)).filter
        fun x => x.2 ≠ b.2.definition.type).map (fun x => Conflict.externalTypes n m
          b.2.definition.type (nameOf b.1) x.2 (nameOf x.1)) =
      (differing b exts).map (returnTypeConflict nameOf n m b) := by
    rw [List.filter_map, List.map_map]
    refine List.map_congr_left fun e he => ?_
    simp [returnTypeConflict, hs.external e (List.mem_filter.1 he).1]
  have hdiffering : differing b es = differing b exts ++ differing b rest := by
    rw [hs.eq, differing, List.filter_append, List.filter_cons_of_neg (by simp)]
    rfl
  rw [hdiffering, List.map_append, hs.eq, remarks_append, remarks_externals hs.external hstart,
    remarks_cons, remarks_settled hsettled htype, filter_conflicts_of_awaited hauth,
    if_neg (by simp [hs.base]), List.nil_append, List.nil_append, hpending]

end FieldNode

/-- The conflicts about the return type of a field, in the order of the batch. -/
theorem filter_conflicts_isReturnType (schemas : List Schema) (n m : Name) :
    (conflicts schemas).filter (Conflict.isReturnType n m) =
      let es := TypeNode.fieldsOf (contributing schemas n) m
      (es.find? fun e => !e.2.external).elim [] fun base =>
        (differing base es).map (returnTypeConflict (Graph.ofSchemas schemas).nameOf n m base) := by
  have hkind : ∀ c, Conflict.isReturnType n m c = true → c.kind = .typeMismatch := by
    intro c hc
    cases c <;> first | rfl | cases hc
  have habout : ∀ c, Conflict.isReturnType n m c = true →
      c.type = n ∧ c.declaredField? = some m := by
    intro c hc
    cases c <;> simp_all [Conflict.isReturnType, Conflict.type, Conflict.declaredField?]
  rw [filter_conflicts hkind, conflictsOf, filter_field_mergeConflicts habout]
  generalize TypeNode.fieldsOf (contributing schemas n) m = es
  -- until a declaration that is not external comes there is nothing to compare with
  cases hb : es.find? fun e => !e.2.external with
  | none =>
    have hexts : ∀ e ∈ es, e.2.external = true := by simpa using List.find?_eq_none.1 hb
    cases es with
    | nil => rfl
    | cons h es => simpa [hb] using FieldNode.remarks_externals hexts rfl
  | some b =>
    obtain ⟨exts, rest, hs⟩ := FieldNode.exists_split_of_find? hb
    cases es with
    | nil => cases hb
    | cons h es => simpa [hb] using FieldNode.remarks_of_split hs h.2

/-- **Return types**: of the declarations of a field that count, each that differs from the first
one which is not external is in conflict with it, once and in the order of the batch; there is no
conflict if all are external.  The message names both subgraphs, each with its type. -/
theorem returnTypes_reported (schemas : List Schema) (n m : Name) :
    let es := TypeNode.fieldsOf (contributing schemas n) m
    let nameOf := (Graph.ofSchemas schemas).nameOf
    (conflicts schemas).filter (Conflict.isReturnType n m) =
      (es.find? fun e => !e.2.external).elim []
        (fun base => (differing base es).map (returnTypeConflict nameOf n m base)) ∧
    (es.map Prod.fst).Nodup ∧
    (∀ e ∈ es, ∃ s, schemas[e.1]? = some s ∧ nameOf e.1 = s.name ∧
      ∃ d, s.types.get? n = some d ∧ d.fields.get? m = some e.2) ∧
    ∀ base other : SubgraphId × FieldDeclaration,
      (returnTypeConflict nameOf n m base other).kind = .typeMismatch ∧
      (returnTypeConflict nameOf n m base other).message =
        let r := base.2.definition.type.render
        let q := other.2.definition.type.render
        s!"Field \"{n.text}.{m.text}\" has type \"{r}\" in subgraph \"{nameOf base.1}\" " ++
          if other.2.external then
            s!"but type \"{q}\" in subgraph \"{nameOf other.1}\", where it is marked @external"
          else s!"but type \"{q}\" in subgraph \"{nameOf other.1}\"" := by
  refine ⟨filter_conflicts_isReturnType schemas n m, ?_, fun e he => ?_, fun base other => ?_⟩
  · exact TypeNode.nodup_fieldsOf (nodup_contributing schemas n) m
  · obtain ⟨d, hd, hf⟩ := TypeNode.mem_fieldsOf_iff.1 he
    obtain ⟨s, hs, hname, hget⟩ :=
      exists_schema_of_mem_declarationsOf (mem_declarationsOf_of_mem_contributing hd)
    exact ⟨s, hs, hname, d, hget, hf⟩
  · exact ⟨kind_returnTypeConflict, message_returnTypeConflict⟩

end ReturnTypes

end Federation
