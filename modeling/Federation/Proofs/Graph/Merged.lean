import Federation.Graph.Merge
import Mathlib.Logic.Basic

/-!
# What a merged graph holds

The graph is a fold over everything that a batch contributes, and the fold acts on each of its parts
alone: a type is made of the declarations of its name (`declarationsOf`, `get?_ofSchemas`), a field
of the declarations of the field in those (`fieldsOf`, `TypeNode.get?_fields`), and every set and
map of subgraphs of what those subgraphs declare.  `foldl_part` is the argument, once for all
parts.
-/

namespace Federation

/-! ### Folds, part by part -/

/-- Where each step of a fold changes a part of the state by what it selects from its item, that
part of the result is a fold over what is selected. -/
theorem foldl_part {S P E F : Type} {step : S → E → S} (part : S → P) (select : E → Option F)
    (stepPart : P → F → P)
    (h : ∀ s e, part (step s e) = (select e).elim (part s) (stepPart (part s))) (l : List E)
    (s : S) : part (l.foldl step s) = (l.filterMap select).foldl stepPart (part s) := by
  induction l generalizing s with
  | nil => rfl
  | cons e l ih =>
    rw [List.foldl_cons, ih, h, List.filterMap_cons]
    cases select e <;> rfl

/-- A part that every step leaves alone stays as it is. -/
theorem foldl_part_eq {S P E : Type} {step : S → E → S} (part : S → P)
    (h : ∀ s e, part (step s e) = part s) (l : List E) (s : S) :
    part (l.foldl step s) = part s := by
  induction l generalizing s with
  | nil => rfl
  | cons e l ih => rw [List.foldl_cons, ih, h]

namespace Table

variable {α β γ : Type}

theorem filterMap_entries (t : Table α) (n : Name) (f : α → β) :
    (t.entries.filterMap fun e => if e.1 = n then some (f e.2) else none) =
      ((t.get? n).map f).toList := by
  have key : ∀ es : List (Name × α), (es.map Prod.fst).Nodup →
      (es.filterMap fun e => if e.1 = n then some (f e.2) else none) =
        ((es.lookup n).map f).toList := by
    intro es
    induction es with
    | nil => intro _; rfl
    | cons e es ih =>
      obtain ⟨m, a⟩ := e
      intro hd
      simp only [List.map_cons, List.nodup_cons] at hd
      rw [List.filterMap_cons, List.lookup_cons]
      by_cases hmn : m = n
      · -- No other entry has the name of the head.
        subst hmn
        have hrest : (es.filterMap fun e => if e.1 = m then some (f e.2) else none) = [] := by
          rw [List.filterMap_eq_nil_iff]
          intro e he
          have hne : e.1 ≠ m := fun h => hd.1 (h ▸ List.mem_map_of_mem (f := Prod.fst) he)
          simp [hne]
        simp [hrest]
      · have hb : (n == m) = false := by simpa using fun h => hmn h.symm
        simp [hmn, hb, ih hd.2]
  exact key t.entries t.distinct

theorem get?_mergeIn (f : α → Option β → β) (new : Table α) (t : Table β) (n : Name) :
    (new.mergeIn f t).get? n = (new.get? n).elim (t.get? n) fun a => some (f a (t.get? n)) := by
  have hstep : ∀ (t : Table β) (e : Name × α), (t.alter e.1 (f e.2)).get? n =
      (if e.1 = n then some e.2 else none).elim (t.get? n) fun a => some (f a (t.get? n)) := by
    intro t e
    by_cases hn : e.1 = n
    · subst hn
      simp
    · simp [hn, get?_alter_of_ne t (f e.2) fun h => hn h.symm]
  refine (foldl_part (fun t : Table β => t.get? n) (fun e => if e.1 = n then some e.2 else none)
    (fun b? a => some (f a b?)) hstep new.entries t).trans ?_
  have hsel := filterMap_entries new n id
  simp only [id_eq, Option.map_id_fun] at hsel
  rw [hsel]
  cases new.get? n <;> rfl

end Table

/-! ### Sets and maps of subgraphs -/

theorem SubgraphMap.get?_insert? {α : Type} (m : SubgraphMap α) (i j : SubgraphId)
    (a? : Option α) : (m.insert? i a?).get? j = if j = i then a?.or (m.get? j) else m.get? j := by
  cases a? with
  | none => simp [insert?]
  | some a =>
    by_cases h : j = i
    · subst h
      simp [insert?]
    · simp [insert?, h, get?_insert_of_ne m a h]

/-- A map that is filled subgraph by subgraph holds what each subgraph has a value for. -/
theorem SubgraphMap.get?_foldl_insert? {α β : Type} (value : β → Option α) {i : SubgraphId} {a : α}
    (l : List (SubgraphId × β)) (hl : (l.map Prod.fst).Nodup) :
    (l.foldl (fun m e => m.insert? e.1 (value e.2)) (∅ : SubgraphMap α)).get? i = some a ↔
      ∃ b, (i, b) ∈ l ∧ value b = some a := by
  have key : ∀ (l : List (SubgraphId × β)) (m : SubgraphMap α), (l.map Prod.fst).Nodup →
      (∀ e ∈ l, m.get? e.1 = none) →
      ((l.foldl (fun m e => m.insert? e.1 (value e.2)) m).get? i = some a ↔
        m.get? i = some a ∨ ∃ b, (i, b) ∈ l ∧ value b = some a) := by
    intro l
    induction l with
    | nil => simp
    | cons e l ih =>
      obtain ⟨j, b⟩ := e
      intro m hl hm
      simp only [List.map_cons, List.nodup_cons] at hl
      -- The subgraph of the head does not come again.
      have hne : ∀ e ∈ l, e.1 ≠ j := fun e he h =>
        hl.1 (h ▸ List.mem_map_of_mem (f := Prod.fst) he)
      have hm' : ∀ e ∈ l, (m.insert? j (value b)).get? e.1 = none := by
        intro e he
        rw [get?_insert?, if_neg (hne e he)]
        exact hm e (List.mem_cons_of_mem _ he)
      rw [List.foldl_cons, ih _ hl.2 hm', get?_insert?]
      by_cases hij : i = j
      · subst hij
        have hi : m.get? i = none := hm (i, b) List.mem_cons_self
        have hnot : ∀ c, (i, c) ∉ l := fun c hc => hne (i, c) hc rfl
        simp [hi, hnot]
      · simp [hij]
  simpa using key l ∅ hl fun e _ => get?_empty e.1

theorem foldl_insert?_eq (l : List SubgraphId) :
    (l.foldl (fun s i => some ((s.getD ∅).insert i)) none : Option SubgraphSet) =
      if l = [] then none else some (.ofList l) := by
  have key : ∀ (l : List SubgraphId) (s : SubgraphSet),
      l.foldl (fun (s : Option SubgraphSet) i => some ((s.getD ∅).insert i)) (some s) =
        some (l.foldl SubgraphSet.insert s) := by
    intro l
    induction l with
    | nil => intro s; rfl
    | cons i l ih => intro s; exact ih _
  cases l with
  | nil => rfl
  | cons i l => simp [SubgraphSet.ofList, key]

theorem get?_addMemberships (i : SubgraphId) (ns : List Name) (t : Table SubgraphSet) (n : Name) :
    (addMemberships i ns t).get? n =
      if n ∈ ns then some (((t.get? n).getD ∅).insert i) else t.get? n := by
  induction ns generalizing t with
  | nil => rfl
  | cons m ns ih =>
    show (addMemberships i ns _).get? n = _
    rw [ih]
    by_cases hmn : n = m
    · -- The same name again adds the same subgraph again.
      subst hmn
      have hself : ∀ s : SubgraphSet, (s.insert i).insert i = s.insert i := fun s =>
        SubgraphSet.ext_mem fun j => by simp
      simp [hself]
    · simp [hmn, Table.get?_alter_of_ne t _ hmn]

/-- A table of memberships holds the names that some subgraph lists, each with the subgraphs that
list it. -/
theorem get?_foldl_addMemberships {β : Type} (listed : β → List Name) {n : Name} {s : SubgraphSet}
    (l : List (SubgraphId × β)) :
    (l.foldl (fun t e => addMemberships e.1 (listed e.2) t) ∅).get? n = some s ↔
      (∃ e ∈ l, n ∈ listed e.2) ∧ ∀ i, i ∈ s ↔ ∃ b, (i, b) ∈ l ∧ n ∈ listed b := by
  -- Seen from the one name, the fold inserts the subgraphs that list it and skips the others.
  have hstep : ∀ (t : Table SubgraphSet) (e : SubgraphId × β),
      (addMemberships e.1 (listed e.2) t).get? n =
        (if n ∈ listed e.2 then some e.1 else none).elim (t.get? n)
          fun i => some (((t.get? n).getD ∅).insert i) := by
    intro t e
    rw [get?_addMemberships]
    split <;> rfl
  have hfold := foldl_part (fun t : Table SubgraphSet => t.get? n)
    (fun e => if n ∈ listed e.2 then some e.1 else none)
    (fun s? i => some ((s?.getD ∅).insert i)) hstep l ∅
  rw [hfold, Table.get?_empty, foldl_insert?_eq]
  have hmem : ∀ i, i ∈ (l.filterMap fun e => if n ∈ listed e.2 then some e.1 else none) ↔
      ∃ b, (i, b) ∈ l ∧ n ∈ listed b := by
    intro i
    simp only [List.mem_filterMap, Option.ite_none_right_eq_some, Option.some.injEq, Prod.exists]
    constructor
    · rintro ⟨j, b, hb, hn, rfl⟩
      exact ⟨b, hb, hn⟩
    · rintro ⟨b, hb, hn⟩
      exact ⟨i, b, hb, hn, rfl⟩
  have hnil : (l.filterMap fun e => if n ∈ listed e.2 then some e.1 else none) = [] ↔
      ¬ ∃ e ∈ l, n ∈ listed e.2 := by
    simp
  split
  · rename_i h
    simp [hnil.1 h]
  · rename_i h
    rw [hnil, not_not] at h
    simp only [h, true_and, Option.some.injEq]
    constructor
    · rintro rfl i
      rw [SubgraphSet.mem_ofList, hmem]
    · intro hs
      refine SubgraphSet.ext_mem fun i => ?_
      rw [SubgraphSet.mem_ofList, hmem, hs]

/-! ### Fields -/

namespace FieldNode

/-- The field that some declarations make up, in their order. -/
def ofDeclarations? (names : List String) (es : List (SubgraphId × FieldDeclaration)) :
    Option FieldNode :=
  es.head?.map fun e => es.foldl (fun f e => f.absorb names e.1 e.2) (start e.2)

variable {names : List String} {es : List (SubgraphId × FieldDeclaration)} {f : FieldNode}
  {i : SubgraphId}

theorem ofDeclarations?_eq_some_iff : ofDeclarations? names es = some f ↔
    ∃ e rest, es = e :: rest ∧ f = es.foldl (fun f e => f.absorb names e.1 e.2) (start e.2) := by
  cases es with
  | nil => simp [ofDeclarations?]
  | cons e rest => simp [ofDeclarations?, eq_comm]

/-- The first declaration starts the field, and every one is absorbed. -/
theorem foldl_absorb_eq (es : List (SubgraphId × FieldDeclaration)) :
    es.foldl (fun f? e => some ((f?.getD (start e.2)).absorb names e.1 e.2)) none =
      ofDeclarations? names es := by
  have key : ∀ (es : List (SubgraphId × FieldDeclaration)) (f : FieldNode),
      es.foldl (fun f? e => some ((f?.getD (start e.2)).absorb names e.1 e.2)) (some f) =
        some (es.foldl (fun f e => f.absorb names e.1 e.2) f) := by
    intro es
    induction es with
    | nil => intro f; rfl
    | cons e es ih => intro f; exact ih _
  cases es with
  | nil => rfl
  | cons e es => exact key es _

theorem mem_declaredIn_iff (h : ofDeclarations? names es = some f) :
    i ∈ f.declaredIn ↔ ∃ d, (i, d) ∈ es := by
  obtain ⟨e, rest, _, rfl⟩ := ofDeclarations?_eq_some_iff.1 h
  rw [foldl_part (fun f : FieldNode => f.declaredIn) (fun e => some e.1) SubgraphSet.insert
    fun f e => rfl, SubgraphSet.mem_foldl_insert]
  simp [start]

/-- The subgraphs that are added to a set of a field for declarations of some sort. -/
theorem mem_foldl_marked (marks : FieldNode → SubgraphSet) (marked : FieldDeclaration → Bool)
    (hmarks : ∀ (f : FieldNode) (e : SubgraphId × FieldDeclaration),
      marks (f.absorb names e.1 e.2) = if marked e.2 then (marks f).insert e.1 else marks f)
    (hstart : ∀ d, marks (start d) = ∅) (h : ofDeclarations? names es = some f) :
    i ∈ marks f ↔ ∃ d, (i, d) ∈ es ∧ marked d = true := by
  obtain ⟨e, rest, _, rfl⟩ := ofDeclarations?_eq_some_iff.1 h
  have hstep : ∀ (f : FieldNode) (e : SubgraphId × FieldDeclaration),
      marks (f.absorb names e.1 e.2) =
        (if marked e.2 then some e.1 else none).elim (marks f) (marks f).insert := by
    intro f e
    rw [hmarks]
    split <;> rfl
  rw [foldl_part marks _ SubgraphSet.insert hstep, SubgraphSet.mem_foldl_insert, hstart]
  simp only [SubgraphSet.not_mem_empty, false_or, List.mem_filterMap,
    Option.ite_none_right_eq_some, Option.some.injEq, Prod.exists]
  constructor
  · rintro ⟨j, d, hd, hm, rfl⟩
    exact ⟨d, hd, hm⟩
  · rintro ⟨d, hd, hm⟩
    exact ⟨i, d, hd, hm, rfl⟩

theorem mem_externalIn_iff (h : ofDeclarations? names es = some f) :
    i ∈ f.externalIn ↔ ∃ d, (i, d) ∈ es ∧ d.external = true :=
  mem_foldl_marked externalIn FieldDeclaration.external (fun _ _ => rfl) (fun _ => rfl) h

theorem mem_shareableIn_iff (h : ofDeclarations? names es = some f) :
    i ∈ f.shareableIn ↔ ∃ d, (i, d) ∈ es ∧ d.shareable = true :=
  mem_foldl_marked shareableIn FieldDeclaration.shareable (fun _ _ => rfl) (fun _ => rfl) h

/-- What a map of a field is filled with, declaration by declaration. -/
theorem get?_foldl_annotated {α : Type} (map : FieldNode → SubgraphMap α)
    (value : FieldDeclaration → Option α)
    (hmap : ∀ (f : FieldNode) (e : SubgraphId × FieldDeclaration),
      map (f.absorb names e.1 e.2) = (map f).insert? e.1 (value e.2))
    (hstart : ∀ d, map (start d) = ∅) (hes : (es.map Prod.fst).Nodup)
    (h : ofDeclarations? names es = some f) {a : α} :
    (map f).get? i = some a ↔ ∃ d, (i, d) ∈ es ∧ value d = some a := by
  obtain ⟨e, rest, _, rfl⟩ := ofDeclarations?_eq_some_iff.1 h
  have hfold := foldl_part map some (fun m e => m.insert? e.1 (value e.2))
    (fun f e => hmap f e) es (start e.2)
  rw [hfold, hstart, List.filterMap_some]
  exact SubgraphMap.get?_foldl_insert? value es hes

theorem get?_provides_iff (hes : (es.map Prod.fst).Nodup) (h : ofDeclarations? names es = some f)
    {F : FieldSet} : f.provides.get? i = some F ↔ ∃ d, (i, d) ∈ es ∧ d.provides = some F :=
  get?_foldl_annotated provides FieldDeclaration.provides (fun _ _ => rfl) (fun _ => rfl) hes h

theorem get?_requires_iff (hes : (es.map Prod.fst).Nodup) (h : ofDeclarations? names es = some f)
    {F : FieldSet} : f.requires.get? i = some F ↔ ∃ d, (i, d) ∈ es ∧ d.requires = some F :=
  get?_foldl_annotated requires FieldDeclaration.requires (fun _ _ => rfl) (fun _ => rfl) hes h

theorem get?_overrides_iff (hes : (es.map Prod.fst).Nodup) (h : ofDeclarations? names es = some f)
    {o : Override} : f.overrides.get? i = some o ↔
      ∃ d s, (i, d) ∈ es ∧ d.overrides = some s ∧ o = ⟨s, names.idxOf? s⟩ := by
  rw [get?_foldl_annotated overrides
    (fun d => d.overrides.map fun s => ⟨s, names.idxOf? s⟩) (fun _ _ => rfl)
    (fun _ => rfl) hes h]
  simp only [Option.map_eq_some_iff, eq_comm (a := o)]
  constructor
  · rintro ⟨d, hd, s, hs, ho⟩
    exact ⟨d, s, hd, hs, ho⟩
  · rintro ⟨d, s, hd, hs, ho⟩
    exact ⟨d, hd, s, hs, ho⟩

/-- A declaration is overridden where another subgraph declares the field and takes it over from the
subgraph of that name. -/
theorem mem_overriddenIn_iff (hes : (es.map Prod.fst).Nodup)
    (h : ofDeclarations? names es = some f) :
    i ∈ f.overriddenIn ↔ (∃ d, (i, d) ∈ es) ∧
      ∃ j d s, (j, d) ∈ es ∧ j ≠ i ∧ d.overrides = some s ∧ names.idxOf? s = some i := by
  simp only [overriddenIn, SubgraphSet.mem_filter, mem_declaredIn_iff h, List.any_eq_true,
    Bool.and_eq_true, decide_eq_true_eq, Prod.exists]
  refine and_congr_right fun _ => ?_
  constructor
  · rintro ⟨j, o, ho, htarget, hne⟩
    obtain ⟨d, s, hd, hs, rfl⟩ := (get?_overrides_iff hes h).1 (SubgraphMap.get?_eq_some_iff.2 ho)
    exact ⟨j, d, s, hd, hne, hs, htarget⟩
  · rintro ⟨j, d, s, hd, hne, hs, htarget⟩
    refine ⟨j, ⟨s, names.idxOf? s⟩, ?_, htarget, hne⟩
    exact SubgraphMap.get?_eq_some_iff.1 ((get?_overrides_iff hes h).2 ⟨d, s, hd, hs, rfl⟩)

end FieldNode

/-! ### Types -/

namespace TypeNode

/-- The type of a kind that some declarations make up, in their order. -/
def ofDeclarations (names : List String) (kind : TypeKind)
    (ds : List (SubgraphId × TypeDeclaration)) : TypeNode :=
  ds.foldl (fun t d => t.absorb names d.1 d.2) { kind }

/-- The declarations of a field in those of a type. -/
def fieldsOf (ds : List (SubgraphId × TypeDeclaration)) (m : Name) :
    List (SubgraphId × FieldDeclaration) :=
  ds.filterMap fun d => (d.2.fields.get? m).map (d.1, ·)

variable {names : List String} {kind : TypeKind} {ds : List (SubgraphId × TypeDeclaration)}
  {i : SubgraphId} {m : Name}

theorem mem_fieldsOf_iff {f : FieldDeclaration} :
    (i, f) ∈ fieldsOf ds m ↔ ∃ d, (i, d) ∈ ds ∧ d.fields.get? m = some f := by
  simp only [fieldsOf, List.mem_filterMap, Option.map_eq_some_iff, Prod.mk.injEq, Prod.exists]
  constructor
  · rintro ⟨j, d, hd, _, hf, rfl, rfl⟩
    exact ⟨d, hd, hf⟩
  · rintro ⟨d, hd, hf⟩
    exact ⟨i, d, hd, f, hf, rfl, rfl⟩

theorem nodup_fieldsOf (h : (ds.map Prod.fst).Nodup) (m : Name) :
    ((fieldsOf ds m).map Prod.fst).Nodup := by
  have hsub : ((fieldsOf ds m).map Prod.fst).Sublist (ds.map Prod.fst) := by
    unfold fieldsOf
    induction ds with
    | nil => simp
    | cons d ds ih =>
      simp only [List.map_cons, List.nodup_cons] at h
      rw [List.filterMap_cons]
      cases d.2.fields.get? m with
      | none => exact (ih h.2).cons d.1
      | some f => exact (ih h.2).cons_cons d.1
  exact h.sublist hsub

@[simp] theorem kind_ofDeclarations : (ofDeclarations names kind ds).kind = kind := by
  have hstep : ∀ (t : TypeNode) (d : SubgraphId × TypeDeclaration),
      (t.absorb names d.1 d.2).kind = t.kind := fun _ _ => rfl
  exact foldl_part_eq TypeNode.kind hstep ds { kind }

/-- A declaration changes a field that it declares and no other one. -/
theorem get?_fields_absorb (names : List String) (m : Name) (t : TypeNode)
    (d : SubgraphId × TypeDeclaration) :
    (t.absorb names d.1 d.2).fields.get? m =
      ((d.2.fields.get? m).map (d.1, ·)).elim (t.fields.get? m)
        fun e => some (((t.fields.get? m).getD (.start e.2)).absorb names e.1 e.2) := by
  show (d.2.fields.mergeIn _ t.fields).get? m = _
  rw [Table.get?_mergeIn]
  cases d.2.fields.get? m <;> rfl

theorem get?_fields : (ofDeclarations names kind ds).fields.get? m =
    FieldNode.ofDeclarations? names (fieldsOf ds m) := by
  rw [← FieldNode.foldl_absorb_eq]
  exact foldl_part (fun t : TypeNode => t.fields.get? m)
    (fun d => (d.2.fields.get? m).map (d.1, ·))
    (fun f? e => some ((f?.getD (.start e.2)).absorb names e.1 e.2)) (get?_fields_absorb names m)
    ds { kind }

/-- An enum value is what its declarations add up to. -/
theorem get?_values : (ofDeclarations names kind ds).values.get? m =
    (ds.filterMap fun d => d.2.values.get? m).foldl (fun v? v => some (v.absorb v?)) none := by
  have hstep : ∀ (t : TypeNode) (d : SubgraphId × TypeDeclaration),
      (t.absorb names d.1 d.2).values.get? m = (d.2.values.get? m).elim (t.values.get? m)
        fun v => some (v.absorb (t.values.get? m)) :=
    fun t d => Table.get?_mergeIn EnumValueDefinition.absorb d.2.values t.values m
  exact foldl_part (fun t : TypeNode => t.values.get? m) (fun d => d.2.values.get? m)
    (fun v? v => some (v.absorb v?)) hstep ds { kind }

/-- The declarations of an input field in those of a type. -/
def inputsOf (ds : List (SubgraphId × TypeDeclaration)) (m : Name) :
    List (SubgraphId × InputValue) :=
  ds.filterMap fun d => (d.2.inputs.get? m).map (d.1, ·)

theorem mem_inputsOf_iff {e : SubgraphId × InputValue} :
    e ∈ inputsOf ds m ↔ ∃ d, (e.1, d) ∈ ds ∧ d.inputs.get? m = some e.2 := by
  obtain ⟨i, v⟩ := e
  simp only [inputsOf, List.mem_filterMap, Option.map_eq_some_iff, Prod.mk.injEq, Prod.exists]
  constructor
  · rintro ⟨j, d, hd, _, hv, rfl, rfl⟩
    exact ⟨d, hd, hv⟩
  · rintro ⟨d, hd, hv⟩
    exact ⟨i, d, hd, v, hv, rfl, rfl⟩

/-- A declaration changes an input field that it declares and no other one. -/
theorem get?_inputs_absorb (names : List String) (m : Name) (t : TypeNode)
    (d : SubgraphId × TypeDeclaration) :
    (t.absorb names d.1 d.2).inputs.get? m =
      ((d.2.inputs.get? m).map (d.1, ·)).elim (t.inputs.get? m)
        fun e => some (InputNode.absorb e.1 e.2 (t.inputs.get? m)) := by
  show (d.2.inputs.mergeIn (InputNode.absorb d.1) t.inputs).get? m = _
  rw [Table.get?_mergeIn]
  cases d.2.inputs.get? m <;> rfl

/-- An input field is what its declarations add up to. -/
theorem get?_inputs : (ofDeclarations names kind ds).inputs.get? m =
    (inputsOf ds m).foldl (fun node? e => some (InputNode.absorb e.1 e.2 node?)) none := by
  exact foldl_part (fun t : TypeNode => t.inputs.get? m) (fun d => (d.2.inputs.get? m).map (d.1, ·))
    (fun node? e => some (InputNode.absorb e.1 e.2 node?)) (get?_inputs_absorb names m) ds { kind }

/-- A table of memberships of a type, by the names that each declaration lists for it. -/
theorem get?_memberships_iff (part : TypeNode → Table SubgraphSet)
    (listed : TypeDeclaration → List Name)
    (hstep : ∀ t (d : SubgraphId × TypeDeclaration),
      part (t.absorb names d.1 d.2) = addMemberships d.1 (listed d.2) (part t))
    (hstart : part { kind } = ∅) {s : SubgraphSet} :
    (part (ofDeclarations names kind ds)).get? m = some s ↔
      (∃ d ∈ ds, m ∈ listed d.2) ∧ ∀ i, i ∈ s ↔ ∃ d, (i, d) ∈ ds ∧ m ∈ listed d := by
  have hfold := foldl_part part some (fun t d => addMemberships d.1 (listed d.2) t) hstep ds
    { kind }
  rw [ofDeclarations, hfold, List.filterMap_some, hstart]
  exact get?_foldl_addMemberships listed ds

theorem get?_interfaces_iff {s : SubgraphSet} :
    (ofDeclarations names kind ds).interfaces.get? m = some s ↔
      (∃ d ∈ ds, m ∈ d.2.interfaces) ∧ ∀ i, i ∈ s ↔ ∃ d, (i, d) ∈ ds ∧ m ∈ d.interfaces :=
  get?_memberships_iff interfaces TypeDeclaration.interfaces (fun _ _ => rfl) rfl

theorem get?_members_iff {s : SubgraphSet} :
    (ofDeclarations names kind ds).members.get? m = some s ↔
      (∃ d ∈ ds, m ∈ d.2.members) ∧ ∀ i, i ∈ s ↔ ∃ d, (i, d) ∈ ds ∧ m ∈ d.members :=
  get?_memberships_iff members TypeDeclaration.members (fun _ _ => rfl) rfl

theorem get?_keys_iff (h : (ds.map Prod.fst).Nodup) {ks : List EntityKey} :
    (ofDeclarations names kind ds).keys.get? i = some ks ↔
      ∃ d, (i, d) ∈ ds ∧ d.keys ≠ [] ∧ d.keys = ks := by
  have hstep : ∀ (t : TypeNode) (d : SubgraphId × TypeDeclaration),
      (t.absorb names d.1 d.2).keys =
        t.keys.insert? d.1 (if d.2.keys.isEmpty then none else some d.2.keys) := by
    intro t d
    show (if d.2.keys.isEmpty then t.keys else t.keys.insert d.1 d.2.keys) = _
    split <;> rfl
  have hfold := foldl_part TypeNode.keys some
    (fun m d => m.insert? d.1 (if d.2.keys.isEmpty then none else some d.2.keys)) hstep ds { kind }
  rw [ofDeclarations, hfold, List.filterMap_some]
  refine (SubgraphMap.get?_foldl_insert?
    (fun d : TypeDeclaration => if d.keys.isEmpty then none else some d.keys) ds h).trans ?_
  simp

theorem mem_resolvableKeys_iff (h : (ds.map Prod.fst).Nodup) {k : EntityKey} :
    (i, k) ∈ (ofDeclarations names kind ds).resolvableKeys ↔
      ∃ d, (i, d) ∈ ds ∧ k ∈ d.keys ∧ k.resolvable = true := by
  rw [mem_resolvableKeys_iff_get?]
  constructor
  · rintro ⟨ks, hks, hk, hres⟩
    obtain ⟨d, hd, _, rfl⟩ := (get?_keys_iff h).1 hks
    exact ⟨d, hd, hk, hres⟩
  · rintro ⟨d, hd, hk, hres⟩
    exact ⟨d.keys, (get?_keys_iff h).2 ⟨d, hd, List.ne_nil_of_mem hk, rfl⟩, hk, hres⟩

theorem mem_values_iff :
    m ∈ (ofDeclarations names kind ds).values.names ↔ ∃ d ∈ ds, m ∈ d.2.values.names := by
  have hsome : ∀ (vs : List EnumValueDefinition) (v? : Option EnumValueDefinition),
      (vs.foldl (fun v? v => some (v.absorb v?)) v?).isSome = (v?.isSome || !vs.isEmpty) := by
    intro vs
    induction vs with
    | nil => simp
    | cons v vs ih => intro v?; rw [List.foldl_cons, ih]; simp
  rw [Table.mem_names_iff, ← Option.isSome_iff_exists, get?_values, hsome]
  simp only [Option.isSome_none, Bool.false_or, Bool.not_eq_true',
    List.isEmpty_eq_false_iff, ne_eq, List.filterMap_eq_nil_iff, not_forall,
    Table.mem_names_iff, ← Option.ne_none_iff_exists', exists_prop]

/-- The types that declarations give an input field. -/
def inputTypes (ds : List (SubgraphId × TypeDeclaration)) (m : Name) : List TypeRef :=
  ds.filterMap fun d => (d.2.inputs.get? m).map (·.type)

theorem mem_inputTypes_iff {r : TypeRef} :
    r ∈ inputTypes ds m ↔
      ∃ i d, (i, d) ∈ ds ∧ ∃ v, d.inputs.get? m = some v ∧ v.type = r := by
  simp only [inputTypes, List.mem_filterMap, Option.map_eq_some_iff, Prod.exists]

/-- A declaration gives a type only to an input field that has none yet. -/
theorem type_get?_inputs_absorb (names : List String) (m : Name) (t : TypeNode)
    (d : SubgraphId × TypeDeclaration) :
    ((t.absorb names d.1 d.2).inputs.get? m).map (·.definition.type) =
      ((d.2.inputs.get? m).map (·.type)).elim ((t.inputs.get? m).map (·.definition.type))
        fun u => some (((t.inputs.get? m).map (·.definition.type)).getD u) := by
  rw [get?_inputs_absorb]
  cases d.2.inputs.get? m with
  | none => rfl
  | some v => cases t.inputs.get? m <;> rfl

/-- The type of an input field is the first that is given to it. -/
theorem type_get?_inputs :
    ((ofDeclarations names kind ds).inputs.get? m).map (·.definition.type) =
      (inputTypes ds m).head? := by
  have hfold := foldl_part (fun t : TypeNode => (t.inputs.get? m).map (·.definition.type))
    (fun d => (d.2.inputs.get? m).map (·.type)) (fun t? u => some (t?.getD u))
    (type_get?_inputs_absorb names m) ds { kind }
  have hsome : ∀ (us : List TypeRef) (t : TypeRef),
      us.foldl (fun t? u => some (t?.getD u)) (some t) = some t := by
    intro us
    induction us with
    | nil => intro t; rfl
    | cons u us ih => intro t; exact ih t
  rw [ofDeclarations, hfold, ← inputTypes]
  cases inputTypes ds m with
  | nil => rfl
  | cons u us => exact hsome us u

/-- The type with one more declaration, which is left out if it is of another kind; the first one
fixes the kind. -/
def absorbNext (names : List String) (node? : Option TypeNode) (d : SubgraphId × TypeDeclaration) :
    TypeNode :=
  let node := node?.getD { kind := d.2.kind }
  if node.kind = d.2.kind then node.absorb names d.1 d.2 else node

theorem absorbNext_of_kind_eq {t : TypeNode} {d : SubgraphId × TypeDeclaration}
    (h : t.kind = d.2.kind) : absorbNext names (some t) d = t.absorb names d.1 d.2 := by
  simp [absorbNext, h]

theorem absorbNext_of_kind_ne {t : TypeNode} {d : SubgraphId × TypeDeclaration}
    (h : t.kind ≠ d.2.kind) : absorbNext names (some t) d = t := by
  simp [absorbNext, h]

theorem foldl_absorbNext_eq (ds : List (SubgraphId × TypeDeclaration)) :
    ds.foldl (fun t? d => some (absorbNext names t? d)) none = ds.head?.map fun d =>
      ofDeclarations names d.2.kind (ds.filter fun e => e.2.kind = d.2.kind) := by
  -- A declaration of another kind changes nothing: the first one settles the kind.
  have key : ∀ (ds : List (SubgraphId × TypeDeclaration)) (t : TypeNode),
      ds.foldl (fun t? d => some (absorbNext names t? d)) (some t) =
        some ((ds.filter fun e => e.2.kind = t.kind).foldl
          (fun t d => t.absorb names d.1 d.2) t) := by
    intro ds
    induction ds with
    | nil => intro t; rfl
    | cons d ds ih =>
      intro t
      rw [List.foldl_cons, ih, List.filter_cons]
      by_cases h : t.kind = d.2.kind
      · have hkind : (t.absorb names d.1 d.2).kind = t.kind := rfl
        simp [absorbNext_of_kind_eq h, hkind, h]
      · simp [absorbNext_of_kind_ne h, Ne.symm h]
  cases ds with
  | nil => rfl
  | cons d ds =>
    have hfirst : absorbNext names none d = absorbNext names (some { kind := d.2.kind }) d := rfl
    rw [List.foldl_cons, hfirst]
    exact key (d :: ds) { kind := d.2.kind }

end TypeNode

/-! ### The graph -/

/-- The declarations of a name in a batch, each with the subgraph that it is from, in batch
order. -/
def declarationsOf (schemas : List Schema) (n : Name) : List (SubgraphId × TypeDeclaration) :=
  schemas.zipIdx.filterMap fun s => (s.1.types.get? n).map (s.2, ·)

section Declarations

variable {schemas : List Schema} {n : Name}

theorem mem_declarationsOf_iff {i : SubgraphId} {d : TypeDeclaration} :
    (i, d) ∈ declarationsOf schemas n ↔
      ∃ s, schemas[i]? = some s ∧ s.types.get? n = some d := by
  simp only [declarationsOf, List.mem_filterMap, Option.map_eq_some_iff, Prod.mk.injEq,
    Prod.exists, List.mem_zipIdx_iff_getElem?]
  constructor
  · rintro ⟨s, _, hs, _, hd, rfl, rfl⟩
    exact ⟨s, hs, hd⟩
  · rintro ⟨s, hs, hd⟩
    exact ⟨s, i, hs, d, hd, rfl, rfl⟩

theorem nodup_declarationsOf (schemas : List Schema) (n : Name) :
    ((declarationsOf schemas n).map Prod.fst).Nodup := by
  have hsub : ∀ l : List (Schema × Nat),
      ((l.filterMap fun s => (s.1.types.get? n).map (s.2, ·)).map Prod.fst).Sublist
        (l.map Prod.snd) := by
    intro l
    induction l with
    | nil => simp
    | cons s l ih =>
      rw [List.filterMap_cons]
      cases s.1.types.get? n with
      | none => exact ih.cons s.2
      | some d => exact ih.cons_cons s.2
  have hidx : (schemas.zipIdx.map Prod.snd).Nodup := by
    rw [List.zipIdx_map_snd]
    exact List.nodup_range'
  exact hidx.sublist (hsub schemas.zipIdx)

theorem filterMap_contributed (schemas : List Schema) (n : Name) :
    (contributed schemas).filterMap
        (fun c => if c.name = n then some (c.subgraph, c.declaration) else none) =
      declarationsOf schemas n := by
  unfold contributed declarationsOf
  induction schemas.zipIdx with
  | nil => rfl
  | cons s l ih =>
    have hone := Table.filterMap_entries s.1.types n fun d => (s.2, d)
    rw [List.flatMap_cons, List.filterMap_append, ih, List.filterMap_map, List.filterMap_cons]
    have hcomp : ((fun c : Contributed => if c.name = n then some (c.subgraph, c.declaration)
        else none) ∘ fun t : Name × TypeDeclaration => (⟨s.2, t.1, t.2⟩ : Contributed)) =
        fun t => if t.1 = n then some (s.2, t.2) else none := rfl
    rw [hcomp, hone]
    cases s.1.types.get? n <;> rfl

/-- A merge changes the type of the name that is declared, and no other one. -/
theorem get?_mergeType (names : List String) (types : Table TypeNode) (c : Contributed) (n : Name) :
    (mergeType names types c).get? n =
      (if c.name = n then some (c.subgraph, c.declaration) else none).elim (types.get? n)
        fun d => some (TypeNode.absorbNext names (types.get? n) d) := by
  by_cases h : c.name = n
  · subst h
    simp [mergeType, TypeNode.absorbNext]
  · simp [mergeType, h, Table.get?_alter_of_ne types _ fun e => h e.symm]

/-- **What a type is made of**: a type of the graph has the kind of its first declaration, and is
made of the declarations of that kind. -/
theorem get?_ofSchemas (schemas : List Schema) (n : Name) :
    (Graph.ofSchemas schemas).types.get? n = (declarationsOf schemas n).head?.map fun d =>
      TypeNode.ofDeclarations (schemas.map (·.name)) d.2.kind
        ((declarationsOf schemas n).filter fun e => e.2.kind = d.2.kind) := by
  rw [← TypeNode.foldl_absorbNext_eq, ← filterMap_contributed]
  exact foldl_part (fun types : Table TypeNode => types.get? n)
    (fun c => if c.name = n then some (c.subgraph, c.declaration) else none)
    (fun t? d => some (TypeNode.absorbNext (schemas.map (·.name)) t? d))
    (fun types c => get?_mergeType _ types c n) (contributed schemas) ∅

end Declarations

end Federation
