import Federation.Proofs.Document.Body
import Federation.Proofs.Table
import Federation.Subgraph.Schema
import Mathlib.Data.List.Flatten
import Mathlib.Data.List.Induction
import Mathlib.Data.List.Nodup

/-!
# Blocks that fit together

Folding the blocks of a document is a series of first-come decisions: the first block of a type
fixes its kind, the first definition is the one that counts, and the first field of a name is kept.
Whether anything is wrong with the blocks does not depend on which one comes first, though.
`Consistent` says of all blocks together what has to hold, in terms of which their order does not
matter, and the fold finds nothing wrong exactly then (`Assembly.faults_ofBlocks_eq_nil_iff`).

What the fold leaves is then computed name by name, from the blocks of the name alone
(`Assembly.Gathers.get?`), with the names in the order in which their first blocks come
(`Assembly.Gathers.names`).  `Gathered` reads off what a declaration has of each of its blocks.
-/

namespace Federation

/-! ### Tables -/

theorem Table.entries_addNew {α : Type} {t : Table α} {es : List (Name × α)}
    (h : (t.names ++ es.map Prod.fst).Nodup) : (t.addNew es).entries = t.entries ++ es := by
  have hfold := entries_foldl_alter Prod.fst (fun (e : Name × α) a? => a?.getD e.2) h
  simp only [Option.getD_none, Prod.eta, List.map_id'] at hfold
  exact hfold

/-! ### Names within types -/

namespace Block

/-- The fields of a block as they are declared, with their marks. -/
def declaredFields (b : Block) : List (Name × FieldDeclaration) :=
  b.body.fields.map fun f => (f.1, b.declare f.2)

/-- The names of the fields that a block declares. -/
def fieldNames (b : Block) : List Name := b.body.fields.map Prod.fst

/-- The names of the enum values that a block declares. -/
def valueNames (b : Block) : List Name := b.body.values.map Prod.fst

/-- The names of the input fields that a block declares. -/
def inputNames (b : Block) : List Name := b.body.inputs.map Prod.fst

theorem map_fst_declaredFields (b : Block) : b.declaredFields.map Prod.fst = b.fieldNames := by
  rw [declaredFields, List.map_map]
  rfl

end Block

/-- The names that blocks declare within their types, each with the type. -/
def within (part : Block → List Name) (bs : List Block) : List (Name × Name) :=
  bs.flatMap fun b => (part b).map fun m => (b.name, m)

section Within

variable {part : Block → List Name} {bs : List Block} {b : Block}

theorem within_append (bs bs' : List Block) :
    within part (bs ++ bs') = within part bs ++ within part bs' :=
  List.flatMap_append

theorem mem_within_iff {n m : Name} :
    (n, m) ∈ within part bs ↔ ∃ c ∈ bs, c.name = n ∧ m ∈ part c := by
  simp only [within, List.mem_flatMap, List.mem_map, Prod.mk.injEq]
  constructor
  · rintro ⟨c, hc, m', hm, hn, rfl⟩
    exact ⟨c, hc, hn, hm⟩
  · rintro ⟨c, hc, hn, hm⟩
    exact ⟨c, hc, m, hm, hn, rfl⟩

/-- Names stay different when a block comes that has names of its own. -/
theorem nodup_within_concat_iff : (within part (bs ++ [b])).Nodup ↔
    (within part bs).Nodup ∧ (part b).Nodup ∧
      ∀ m ∈ part b, ∀ c ∈ bs, c.name = b.name → m ∉ part c := by
  have hlast : within part [b] = (part b).map fun m => (b.name, m) := List.flatMap_singleton ..
  have hinj : Function.Injective fun m : Name => (b.name, m) := fun _ _ h => (Prod.mk.inj h).2
  rw [within_append, List.nodup_append', hlast, List.nodup_map_iff hinj, List.disjoint_right]
  refine and_congr_right fun _ => and_congr_right fun _ => ?_
  rw [List.forall_mem_map]
  refine forall₂_congr fun m _ => ?_
  rw [mem_within_iff]
  simp only [not_exists, not_and]

/-- Within one type the names are different. -/
theorem nodup_flatMap_of_nodup_within (h : (within part bs).Nodup) (n : Name) :
    ((bs.filter (·.name = n)).flatMap part).Nodup := by
  have hsublist : (within part (bs.filter (·.name = n))).Sublist (within part bs) :=
    List.filter_sublist.flatMap _
  have hname : within part (bs.filter (·.name = n)) =
      ((bs.filter (·.name = n)).flatMap part).map fun m => (n, m) := by
    rw [within, List.map_flatMap]
    refine List.flatMap_congr fun b hb => ?_
    rw [of_decide_eq_true (List.mem_filter.1 hb).2]
  rw [← List.nodup_map_iff fun _ _ h => (Prod.mk.inj h).2, ← hname]
  exact h.sublist hsublist

end Within

/-! ### What has to hold -/

/-- Blocks that fit together: all blocks of a type are of one kind, at most one is its definition,
and none of them declares a field, an enum value, an input field or an argument again. -/
structure Consistent (bs : List Block) : Prop where
  kinds : ∀ b ∈ bs, ∀ c ∈ bs, c.name = b.name → c.body.kind = b.body.kind
  definitions : ((bs.filter Block.isDefinition).map (·.name)).Nodup
  fields : (within Block.fieldNames bs).Nodup
  values : (within Block.valueNames bs).Nodup
  inputs : (within Block.inputNames bs).Nodup
  arguments : ∀ b ∈ bs, ∀ f ∈ b.body.fields, (f.2.arguments.map Prod.fst).Nodup

theorem consistent_nil : Consistent [] where
  kinds := by simp
  definitions := .nil
  fields := .nil
  values := .nil
  inputs := .nil
  arguments := by simp

/-- **The order of the blocks does not matter** for whether they fit together. -/
theorem Consistent.of_perm {bs bs' : List Block} (hp : bs.Perm bs') (h : Consistent bs) :
    Consistent bs' where
  kinds b hb c hc := h.kinds b (hp.mem_iff.2 hb) c (hp.mem_iff.2 hc)
  definitions := ((hp.filter _).map _).nodup_iff.1 h.definitions
  fields := (hp.flatMap_right _).nodup_iff.1 h.fields
  values := (hp.flatMap_right _).nodup_iff.1 h.values
  inputs := (hp.flatMap_right _).nodup_iff.1 h.inputs
  arguments b hb := h.arguments b (hp.mem_iff.2 hb)

theorem consistent_iff_of_perm {bs bs' : List Block} (hp : bs.Perm bs') :
    Consistent bs ↔ Consistent bs' :=
  ⟨.of_perm hp, .of_perm hp.symm⟩

/-- A block that fits in with those before it. -/
structure Block.FitsIn (bs : List Block) (b : Block) : Prop where
  kind : ∀ c ∈ bs, c.name = b.name → c.body.kind = b.body.kind
  definition : b.isDefinition = true → ∀ c ∈ bs, c.isDefinition = true → c.name ≠ b.name
  fields : b.fieldNames.Nodup ∧ ∀ m ∈ b.fieldNames, ∀ c ∈ bs, c.name = b.name → m ∉ c.fieldNames
  values : b.valueNames.Nodup ∧ ∀ m ∈ b.valueNames, ∀ c ∈ bs, c.name = b.name → m ∉ c.valueNames
  inputs : b.inputNames.Nodup ∧ ∀ m ∈ b.inputNames, ∀ c ∈ bs, c.name = b.name → m ∉ c.inputNames
  arguments : ∀ f ∈ b.body.fields, (f.2.arguments.map Prod.fst).Nodup

theorem nodup_definitions_concat_iff {bs : List Block} {b : Block} :
    (((bs ++ [b]).filter Block.isDefinition).map (·.name)).Nodup ↔
      ((bs.filter Block.isDefinition).map (·.name)).Nodup ∧
        (b.isDefinition = true → ∀ c ∈ bs, c.isDefinition = true → c.name ≠ b.name) := by
  rw [List.filter_append, List.map_append]
  cases hb : b.isDefinition with
  | false => simp [hb]
  | true =>
    rw [List.filter_cons_of_pos hb, List.filter_nil, List.map_singleton, List.nodup_append']
    simp only [List.nodup_singleton, true_and, List.disjoint_singleton, List.mem_map,
      List.mem_filter, not_exists, not_and, and_imp, forall_const]

/-- Blocks fit together as far as each fits in with those before it. -/
theorem consistent_concat_iff {bs : List Block} {b : Block} :
    Consistent (bs ++ [b]) ↔ Consistent bs ∧ b.FitsIn bs := by
  constructor
  · rintro ⟨hkinds, hdefinitions, hfields, hvalues, hinputs, harguments⟩
    rw [nodup_definitions_concat_iff] at hdefinitions
    rw [nodup_within_concat_iff] at hfields hvalues hinputs
    have hmem : ∀ {c}, c ∈ bs → c ∈ bs ++ [b] := List.mem_append_left _
    have hlast : b ∈ bs ++ [b] := List.mem_append_right _ List.mem_cons_self
    exact ⟨⟨fun c hc e he => hkinds c (hmem hc) e (hmem he), hdefinitions.1, hfields.1, hvalues.1,
        hinputs.1, fun c hc => harguments c (hmem hc)⟩,
      ⟨fun c hc => hkinds b hlast c (hmem hc), hdefinitions.2, hfields.2, hvalues.2, hinputs.2,
        harguments b hlast⟩⟩
  · rintro ⟨h, hb⟩
    refine ⟨?_, nodup_definitions_concat_iff.2 ⟨h.definitions, hb.definition⟩,
      nodup_within_concat_iff.2 ⟨h.fields, hb.fields⟩,
      nodup_within_concat_iff.2 ⟨h.values, hb.values⟩,
      nodup_within_concat_iff.2 ⟨h.inputs, hb.inputs⟩, ?_⟩
    · simp only [List.mem_append, List.mem_singleton]
      rintro c (hc | rfl) e (he | rfl) hname
      · exact h.kinds c hc e he hname
      · exact (hb.kind c hc hname.symm).symm
      · exact hb.kind e he hname
      · rfl
    · simp only [List.mem_append, List.mem_singleton]
      rintro c (hc | rfl)
      · exact h.arguments c hc
      · exact hb.arguments

/-! ### What blocks of one name make up -/

namespace TypeDeclaration

/-- A declaration with several blocks folded in, component by component. -/
theorem foldl_absorb (t : TypeDeclaration) (bs : List Block) :
    bs.foldl absorb t = { t with
      description := t.description.or (bs.findSome? (·.description))
      directives := t.directives ++ bs.flatMap (·.directives)
      interfaces := appendNew t.interfaces (bs.flatMap (·.body.interfaces))
      fields := t.fields.addNew (bs.flatMap Block.declaredFields)
      members := appendNew t.members (bs.flatMap (·.body.members))
      values := t.values.addNew (bs.flatMap (·.body.values))
      inputs := t.inputs.addNew (bs.flatMap (·.body.inputs)) } := by
  induction bs generalizing t with
  | nil =>
    cases t
    simp [appendNew, Table.addNew]
  | cons b bs ih =>
    have hdescription : (t.description.or b.description).or (bs.findSome? (·.description)) =
        t.description.or ((b :: bs).findSome? (·.description)) := by
      rw [List.findSome?_cons, Option.or_assoc]
      cases b.description <;> rfl
    have hadd : ∀ {α : Type} (u : Table α) (es es' : List (Name × α)),
        (u.addNew es).addNew es' = u.addNew (es ++ es') := by
      intro α u es es'
      rw [Table.addNew, Table.addNew, Table.addNew, List.foldl_append]
    rw [List.foldl_cons, ih, absorb]
    simp only [hdescription, hadd, List.flatMap_cons, appendNew_append, List.append_assoc]
    rfl

/-- What some blocks of one name make up; nothing if there is none. -/
def gathered? : List Block → Option TypeDeclaration
  | [] => none
  | b :: bs => some ((b :: bs).foldl absorb { kind := b.body.kind })

theorem gathered?_concat (bs : List Block) (b : Block) : gathered? (bs ++ [b]) =
    some (((gathered? bs).getD { kind := b.body.kind }).absorb b) := by
  cases bs with
  | nil => rfl
  | cons c bs =>
    rw [List.cons_append, gathered?, gathered?, Option.getD_some, ← List.cons_append,
      List.foldl_append]
    rfl

theorem gathered?_eq_none_iff {bs : List Block} : gathered? bs = none ↔ bs = [] := by
  cases bs <;> simp [gathered?]

/-- The names in the tables of a declaration are those that its blocks declare. -/
theorem mem_names_of_gathered? {bs : List Block} {t : TypeDeclaration} (h : gathered? bs = some t)
    (m : Name) :
    (m ∈ t.fields.names ↔ ∃ c ∈ bs, m ∈ c.fieldNames) ∧
    (m ∈ t.values.names ↔ ∃ c ∈ bs, m ∈ c.valueNames) ∧
    (m ∈ t.inputs.names ↔ ∃ c ∈ bs, m ∈ c.inputNames) := by
  have hnames : ∀ {α : Type} (es : List (Name × α)),
      ((∅ : Table α).addNew es).names = appendNew [] (es.map Prod.fst) := fun es =>
    Table.names_foldl_alter Prod.fst (fun e a? => a?.getD e.2) es ∅
  cases bs with
  | nil => cases h
  | cons b bs =>
    obtain rfl := Option.some.inj h
    rw [foldl_absorb]
    simp only [hnames, mem_appendNew, List.not_mem_nil, false_or, List.map_flatMap,
      List.mem_flatMap, Block.map_fst_declaredFields, Block.valueNames, Block.inputNames, and_self]

/-- Before any block of a kind comes, a declaration has nothing that one could define again. -/
theorem mem_names_getD_gathered? (bs : List Block) (k : TypeKind) (m : Name) :
    (m ∈ ((gathered? bs).getD { kind := k }).fields.names ↔ ∃ c ∈ bs, m ∈ c.fieldNames) ∧
    (m ∈ ((gathered? bs).getD { kind := k }).values.names ↔ ∃ c ∈ bs, m ∈ c.valueNames) ∧
    (m ∈ ((gathered? bs).getD { kind := k }).inputs.names ↔ ∃ c ∈ bs, m ∈ c.inputNames) := by
  cases hbs : gathered? bs with
  | none =>
    rw [gathered?_eq_none_iff.1 hbs]
    simp
  | some t => exact mem_names_of_gathered? hbs m

theorem kind_gathered? {bs : List Block} {t : TypeDeclaration} (h : gathered? bs = some t) :
    ∃ b ∈ bs, t.kind = b.body.kind := by
  cases bs with
  | nil => cases h
  | cons b bs =>
    obtain rfl := Option.some.inj h
    rw [foldl_absorb]
    exact ⟨b, List.mem_cons_self, rfl⟩

/-- What a declaration has of the blocks of its name. -/
structure Gathered (bs : List Block) (t : TypeDeclaration) : Prop where
  kind : ∀ b ∈ bs, b.body.kind = t.kind
  description : t.description = bs.findSome? (·.description)
  directives : t.directives = bs.flatMap (·.directives)
  interfaces : t.interfaces = appendNew [] (bs.flatMap (·.body.interfaces))
  fields : t.fields.entries = bs.flatMap Block.declaredFields
  members : t.members = appendNew [] (bs.flatMap (·.body.members))
  values : t.values.entries = bs.flatMap (·.body.values)
  inputs : t.inputs.entries = bs.flatMap (·.body.inputs)
  keys : t.keys = []

namespace Gathered

variable {bs : List Block} {t : TypeDeclaration} (h : Gathered bs t) {m : Name}

include h

/-- Every field is there, with the marks of the very block that it stands in. -/
theorem get?_fields_iff {f : FieldDeclaration} : t.fields.get? m = some f ↔
    ∃ b ∈ bs, ∃ g, (m, g) ∈ b.body.fields ∧ f = b.declare g := by
  rw [Table.get?_eq_some_iff, h.fields, List.mem_flatMap]
  refine exists_congr fun b => and_congr_right fun _ => ?_
  simp only [Block.declaredFields, List.mem_map, Prod.mk.injEq, Prod.exists]
  constructor
  · rintro ⟨_, g, hg, rfl, rfl⟩
    exact ⟨g, hg, rfl⟩
  · rintro ⟨g, hg, rfl⟩
    exact ⟨m, g, hg, rfl, rfl⟩

/-- Only input object types have input fields. -/
theorem kind_of_get?_inputs {v : InputValue} (hv : t.inputs.get? m = some v) :
    t.kind = .inputObject := by
  rw [Table.get?_eq_some_iff, h.inputs, List.mem_flatMap] at hv
  obtain ⟨b, hb, hmem⟩ := hv
  rw [← h.kind b hb]
  exact TypeBody.kind_of_mem_inputs hmem

end Gathered

/-- **What the blocks of one type make up.** -/
theorem gathered_of_consistent {bs : List Block} (hbs : Consistent bs) {n : Name}
    {t : TypeDeclaration} (h : gathered? (bs.filter (·.name = n)) = some t) :
    Gathered (bs.filter (·.name = n)) t := by
  have hkind : ∀ b ∈ bs.filter (·.name = n), b.body.kind = t.kind := by
    intro b hb
    obtain ⟨c, hc, hkind⟩ := kind_gathered? h
    obtain ⟨hb, hbn⟩ := List.mem_filter.1 hb
    obtain ⟨hc, hcn⟩ := List.mem_filter.1 hc
    rw [hkind]
    exact hbs.kinds c hc b hb ((of_decide_eq_true hbn).trans (of_decide_eq_true hcn).symm)
  have hfields := nodup_flatMap_of_nodup_within hbs.fields n
  have hvalues := nodup_flatMap_of_nodup_within hbs.values n
  have hinputs := nodup_flatMap_of_nodup_within hbs.inputs n
  -- Where all names are different, a table has all entries in their order.
  have hentries : ∀ {α : Type} {es : List (Name × α)}, (es.map Prod.fst).Nodup →
      ((∅ : Table α).addNew es).entries = es := by
    intro α es hes
    exact (Table.entries_addNew (t := ∅) hes).trans (List.nil_append es)
  cases hL : bs.filter (·.name = n) with
  | nil =>
    rw [hL] at h
    cases h
  | cons b L =>
    rw [hL] at h hkind hfields hvalues hinputs
    obtain rfl := Option.some.inj h
    rw [foldl_absorb] at hkind ⊢
    refine ⟨hkind, Option.none_or, List.nil_append _, rfl, hentries ?_, rfl, hentries ?_,
      hentries ?_, rfl⟩
    · rw [List.map_flatMap]
      simpa only [Block.map_fst_declaredFields] using hfields
    · rw [List.map_flatMap]
      exact hvalues
    · rw [List.map_flatMap]
      exact hinputs

/-- What is true of the kind of a declaration is true of the kinds of its blocks. -/
theorem kind_iff_of_gathered? {bs : List Block} (hbs : Consistent bs) {n : Name}
    {t : TypeDeclaration} (h : gathered? (bs.filter (·.name = n)) = some t)
    {P : TypeKind → Prop} : P t.kind ↔ ∀ c ∈ bs, c.name = n → P c.body.kind := by
  constructor
  · intro hP c hc hn
    rwa [(gathered_of_consistent hbs h).kind c (List.mem_filter.2 ⟨hc, decide_eq_true hn⟩)]
  · intro hall
    obtain ⟨c, hc, hkind⟩ := kind_gathered? h
    obtain ⟨hc, hn⟩ := List.mem_filter.1 hc
    rw [hkind]
    exact hall c hc (of_decide_eq_true hn)

end TypeDeclaration

/-! ### What the fold finds wrong -/

theorem repeats_eq_nil_iff {seen ns : List Name} :
    repeats seen ns = [] ↔ ns.Nodup ∧ ∀ n ∈ ns, n ∉ seen := by
  induction ns generalizing seen with
  | nil => simp [repeats]
  | cons n ns ih =>
    unfold repeats
    split
    · rename_i h
      simp [h]
    · rename_i h
      rw [ih, List.nodup_cons, List.forall_mem_cons]
      simp only [List.mem_cons, not_or]
      constructor
      · rintro ⟨hns, hall⟩
        exact ⟨⟨fun hn => (hall n hn).1 rfl, hns⟩, h, fun m hm => (hall m hm).2⟩
      · rintro ⟨⟨hn, hns⟩, _, hall⟩
        exact ⟨hns, fun m hm => ⟨fun e => hn (e ▸ hm), hall m hm⟩⟩

/-- Fields define nothing again when their names are new and different and no field repeats an
argument. -/
theorem TypeDeclaration.fieldRedefinitions_eq_nil_iff {type : Name} {seen : List Name}
    {fs : List (Name × FieldDefinition)} : fieldRedefinitions type seen fs = [] ↔
      (fs.map Prod.fst).Nodup ∧ (∀ f ∈ fs, f.1 ∉ seen) ∧
        ∀ f ∈ fs, (f.2.arguments.map Prod.fst).Nodup := by
  induction fs generalizing seen with
  | nil => simp [fieldRedefinitions]
  | cons f fs ih =>
    obtain ⟨n, f⟩ := f
    unfold fieldRedefinitions
    split
    · rename_i hn
      simp [hn]
    · rename_i hn
      rw [List.append_eq_nil_iff, List.map_eq_nil_iff, repeats_eq_nil_iff, ih, List.map_cons,
        List.nodup_cons, List.forall_mem_cons, List.forall_mem_cons]
      have hnew : (∀ g ∈ fs, g.1 ∉ n :: seen) ↔
          n ∉ fs.map Prod.fst ∧ ∀ g ∈ fs, g.1 ∉ seen := by
        simp only [List.mem_cons, not_or, List.mem_map, not_exists, not_and, forall_and]
      rw [hnew]
      simp only [List.not_mem_nil, not_false_eq_true, implies_true, and_true]
      tauto

namespace Assembly

/-- What is wrong stays wrong. -/
theorem faults_of_add {a : Assembly} {b : Block} (h : (a.add b).faults = []) : a.faults = [] := by
  unfold add at h
  split at h
  · simp at h
  · simp only at h
    split at h
    · simp at h
    · exact (List.append_eq_nil_iff.1 h).1

/-- **What a block does** with which nothing is wrong: it is absorbed by the type of its name, which
is of its kind, and redefines nothing there. -/
theorem exists_absorb_of_add {a : Assembly} {b : Block} (h : (a.add b).faults = []) :
    ∃ t, (a.types.get? b.name).getD { kind := b.body.kind } = t ∧ t.kind = b.body.kind ∧
      t.redefinitions b.name b = [] ∧
      (a.add b).types = a.types.alter b.name fun _ => t.absorb b := by
  unfold add at h ⊢
  split at h
  · simp at h
  · rename_i hdef
    simp only [hdef, Bool.false_eq_true, if_false]
    simp only at h
    split at h
    · simp at h
    · rename_i hkind
      simp only [ne_eq, not_not] at hkind
      simp only [hkind, ne_eq, not_true_eq_false, if_false]
      exact ⟨_, rfl, hkind, (List.append_eq_nil_iff.1 h).2, rfl⟩

/-- The blocks that have been folded in, seen in the assembly. -/
structure Gathers (bs : List Block) (a : Assembly) : Prop where
  get? : ∀ n, a.types.get? n = TypeDeclaration.gathered? (bs.filter (·.name = n))
  names : a.types.names = appendNew [] (bs.map (·.name))
  defined : ∀ n, n ∈ a.defined ↔ ∃ c ∈ bs, c.isDefinition = true ∧ c.name = n

theorem gathers_empty : Gathers [] {} where
  get? _ := rfl
  names := rfl
  defined := by simp

/-- Nothing is wrong with a block exactly if it defines no type again, is of the kind of its type,
and redefines nothing there; then it is absorbed. -/
theorem faults_add_eq_nil_iff {a : Assembly} {b : Block} : (a.add b).faults = [] ↔
    a.faults = [] ∧ ¬ (b.isDefinition = true ∧ b.name ∈ a.defined) ∧
      ((a.types.get? b.name).getD { kind := b.body.kind }).kind = b.body.kind ∧
      ((a.types.get? b.name).getD { kind := b.body.kind }).redefinitions b.name b = [] := by
  unfold add
  split
  · rename_i hdef
    simp only [Bool.and_eq_true, List.contains_iff_mem] at hdef
    simp [hdef]
  · rename_i hdef
    simp only [Bool.and_eq_true, List.contains_iff_mem] at hdef
    simp only [hdef, not_false_eq_true, true_and]
    split
    · rename_i hkind
      simp [hkind]
    · rename_i hkind
      rw [not_not] at hkind
      simp [hkind]

theorem types_add {a : Assembly} {b : Block} (h : (a.add b).faults = []) :
    (a.add b).types = a.types.alter b.name fun _ =>
      ((a.types.get? b.name).getD { kind := b.body.kind }).absorb b := by
  obtain ⟨t, rfl, _, _, htypes⟩ := exists_absorb_of_add h
  exact htypes

theorem defined_add {a : Assembly} {b : Block} (h : (a.add b).faults = []) :
    (a.add b).defined = if b.isDefinition then b.name :: a.defined else a.defined := by
  obtain ⟨_, hdef, hkind, _⟩ := faults_add_eq_nil_iff.1 h
  unfold add
  rw [if_neg (by simpa using hdef)]
  simp [hkind]

section Step

variable {bs : List Block} {a : Assembly} {b : Block}

/-- A block is absorbed with nothing wrong exactly if it fits in with the blocks before it. -/
theorem Gathers.faults_add_iff (ha : a.Gathers bs) (hbs : Consistent bs) :
    (a.add b).faults = [] ↔ a.faults = [] ∧ b.FitsIn bs := by
  have hmem := TypeDeclaration.mem_names_getD_gathered? (bs.filter (·.name = b.name)) b.body.kind
  have hfilter : ∀ {P : Block → Prop}, (∃ c ∈ bs.filter (·.name = b.name), P c) ↔
      ∃ c ∈ bs, c.name = b.name ∧ P c := by
    intro P
    simp only [List.mem_filter, decide_eq_true_eq, and_assoc]
  have hdefinition : ¬ (b.isDefinition = true ∧ b.name ∈ a.defined) ↔
      (b.isDefinition = true → ∀ c ∈ bs, c.isDefinition = true → c.name ≠ b.name) := by
    rw [ha.defined, not_and]
    simp only [not_exists, not_and, ne_eq]
  -- The first block of a name settles its kind, so the kind gathered so far is that of every block
  -- of the name.
  have hkind : ((TypeDeclaration.gathered? (bs.filter (·.name = b.name))).getD
      { kind := b.body.kind }).kind = b.body.kind ↔
      ∀ c ∈ bs, c.name = b.name → c.body.kind = b.body.kind := by
    cases hL : TypeDeclaration.gathered? (bs.filter (·.name = b.name)) with
    | none =>
      rw [TypeDeclaration.gathered?_eq_none_iff, List.filter_eq_nil_iff] at hL
      simp only [Option.getD_none, true_iff]
      exact fun c hc hn => absurd (decide_eq_true hn) (hL c hc)
    | some t => exact TypeDeclaration.kind_iff_of_gathered? (P := (· = b.body.kind)) hbs hL
  rw [faults_add_eq_nil_iff, ha.get?, hdefinition, hkind]
  simp only [TypeDeclaration.redefinitions, List.append_eq_nil_iff, List.map_eq_nil_iff,
    TypeDeclaration.fieldRedefinitions_eq_nil_iff, repeats_eq_nil_iff, hmem, hfilter, not_exists,
    not_and]
  constructor
  · rintro ⟨hfaults, hdef, hkind, ⟨⟨hfields, hnew, harguments⟩, hvalues⟩, hinputs⟩
    refine ⟨hfaults, hkind, hdef, ⟨hfields, ?_⟩, ?_, ?_, harguments⟩
    · intro m hm c hc hn
      obtain ⟨f, hf, rfl⟩ := List.mem_map.1 hm
      exact hnew f hf c hc hn
    · exact hvalues
    · exact hinputs
  · rintro ⟨hfaults, hb⟩
    exact ⟨hfaults, hb.definition, hb.kind, ⟨⟨hb.fields.1,
      fun f hf => hb.fields.2 f.1 (List.mem_map_of_mem hf), hb.arguments⟩, hb.values⟩, hb.inputs⟩

theorem Gathers.add (ha : a.Gathers bs) (h : (a.add b).faults = []) :
    (a.add b).Gathers (bs ++ [b]) where
  get? n := by
    rw [types_add h, ha.get?, List.filter_append]
    -- only the blocks of the name of the new block become more
    by_cases hn : n = b.name
    · subst hn
      rw [Table.get?_alter_self, List.filter_cons_of_pos (by simp), List.filter_nil,
        TypeDeclaration.gathered?_concat]
    · have hne : ¬ b.name = n := fun h => hn h.symm
      rw [Table.get?_alter_of_ne _ _ hn, ha.get?, List.filter_cons_of_neg (by simpa using hne),
        List.filter_nil, List.append_nil]
  names := by
    rw [types_add h, Table.names_alter_eq, ha.names, ← appendNew_append, List.map_append]
    rfl
  defined n := by
    rw [defined_add h]
    cases hb : b.isDefinition with
    | false => simp [hb, ha.defined]
    | true =>
      simp only [if_true, List.mem_cons, ha.defined, List.mem_append, List.not_mem_nil, or_false]
      constructor
      · rintro (rfl | ⟨c, hc, hcd, hcn⟩)
        · exact ⟨b, .inr rfl, hb, rfl⟩
        · exact ⟨c, .inl hc, hcd, hcn⟩
      · rintro ⟨c, hc | rfl, hcd, hcn⟩
        · exact .inr ⟨c, hc, hcd, hcn⟩
        · exact .inl hcn.symm

end Step

/-- What the fold finds and what it leaves, by induction on the blocks from the last one. -/
theorem ofBlocks_spec (bs : List Block) : ((ofBlocks bs).faults = [] ↔ Consistent bs) ∧
    ((ofBlocks bs).faults = [] → (ofBlocks bs).Gathers bs) := by
  induction bs using List.reverseRecOn with
  | nil => exact ⟨iff_of_true rfl consistent_nil, fun _ => gathers_empty⟩
  | append_singleton bs b ih =>
    obtain ⟨hiff, hgathers⟩ := ih
    have hconcat : ofBlocks (bs ++ [b]) = (ofBlocks bs).add b := by
      rw [ofBlocks, List.foldl_append]
      rfl
    rw [hconcat, consistent_concat_iff]
    refine ⟨?_, fun h => (hgathers (faults_of_add h)).add h⟩
    constructor
    · intro h
      have hfaults := faults_of_add h
      have hbs := hiff.1 hfaults
      exact ⟨hbs, (((hgathers hfaults).faults_add_iff hbs).1 h).2⟩
    · rintro ⟨hbs, hb⟩
      have hfaults := hiff.2 hbs
      exact ((hgathers hfaults).faults_add_iff hbs).2 ⟨hfaults, hb⟩

/-- **Nothing is wrong with blocks exactly if they fit together.** -/
theorem faults_ofBlocks_eq_nil_iff {bs : List Block} :
    (ofBlocks bs).faults = [] ↔ Consistent bs :=
  (ofBlocks_spec bs).1

theorem gathers_ofBlocks {bs : List Block} (h : Consistent bs) : (ofBlocks bs).Gathers bs :=
  (ofBlocks_spec bs).2 (faults_ofBlocks_eq_nil_iff.2 h)

end Assembly

/-! ### Declarations of a document -/

namespace Document

variable {d : Document} {n : Name} {t : TypeDeclaration}

/-- What a document declares under a name are the blocks of the name, unless that is a root type of
which nothing is left. -/
theorem get?_declarations_eq_some_iff (h : Consistent (oks d.blocks)) :
    d.declarations.get? n = some t ↔
      TypeDeclaration.gathered? ((oks d.blocks).filter (·.name = n)) = some t ∧
        ¬ (n ∈ rootTypeNames ∧ t.kind = .object ∧ t.fields.isEmpty = true) := by
  rw [declarations, Assembly.declarations, Table.get?_filter, Option.filter_eq_some_iff, assembly,
    (Assembly.gathers_ofBlocks h).get?]
  refine and_congr_right fun _ => ?_
  rw [Bool.not_eq_true', ← Bool.not_eq_true]
  simp only [Bool.and_eq_true, List.contains_iff_mem, decide_eq_true_eq, and_assoc]

theorem gathered_of_get?_declarations (h : Consistent (oks d.blocks))
    (ht : d.declarations.get? n = some t) :
    TypeDeclaration.Gathered ((oks d.blocks).filter (·.name = n)) t :=
  TypeDeclaration.gathered_of_consistent h ((get?_declarations_eq_some_iff h).1 ht).1

/-- A block is declared, unless it belongs to a root type of which nothing is left. -/
theorem exists_declaration (h : Consistent (oks d.blocks)) {b : Block} (hb : b ∈ oks d.blocks)
    (hleft : b.name ∉ rootTypeNames ∨ b.body.kind ≠ .object ∨ ∃ f, f ∈ b.body.fields) :
    ∃ t, d.declarations.get? b.name = some t ∧ t.kind = b.body.kind := by
  have hmem : b ∈ (oks d.blocks).filter (·.name = b.name) :=
    List.mem_filter.2 ⟨hb, decide_eq_true rfl⟩
  obtain ⟨t, ht⟩ : ∃ t, TypeDeclaration.gathered? ((oks d.blocks).filter (·.name = b.name)) =
      some t := by
    refine Option.ne_none_iff_exists'.1 fun hnone => ?_
    exact List.ne_nil_of_mem hmem (TypeDeclaration.gathered?_eq_none_iff.1 hnone)
  have hgathered := TypeDeclaration.gathered_of_consistent h ht
  have hkind := hgathered.kind b hmem
  refine ⟨t, (get?_declarations_eq_some_iff h).2 ⟨ht, ?_⟩, hkind.symm⟩
  rintro ⟨hroot, hobject, hempty⟩
  rcases hleft with hleft | hleft | ⟨f, hf⟩
  · exact hleft hroot
  · exact hleft (hkind.trans hobject)
  · -- The field is one of the type's.
    have hentry : (f.1, b.declare f.2) ∈ t.fields.entries := by
      rw [hgathered.fields]
      exact List.mem_flatMap.2 ⟨b, hmem, List.mem_map_of_mem hf⟩
    rw [Table.isEmpty, List.isEmpty_iff] at hempty
    rw [hempty] at hentry
    cases hentry

/-- Documents whose blocks come to the same under every name, with the names in the same order,
declare the same. -/
theorem declarations_eq {d' : Document} (h : Consistent (oks d.blocks))
    (h' : Consistent (oks d'.blocks))
    (hnames : appendNew [] ((oks d'.blocks).map (·.name)) =
      appendNew [] ((oks d.blocks).map (·.name)))
    (hget : ∀ n, TypeDeclaration.gathered? ((oks d'.blocks).filter (·.name = n)) =
      TypeDeclaration.gathered? ((oks d.blocks).filter (·.name = n))) :
    d'.declarations = d.declarations := by
  have hgathers := Assembly.gathers_ofBlocks h
  have hgathers' := Assembly.gathers_ofBlocks h'
  have htypes : d'.assembly.types = d.assembly.types := by
    refine Table.ext_get? ?_ fun n => ?_
    · rw [assembly, assembly, hgathers.names, hgathers'.names, hnames]
    · rw [assembly, assembly, hgathers.get?, hgathers'.get?, hget]
  rw [declarations, declarations, Assembly.declarations, Assembly.declarations, htypes]

/-- When nothing is wrong with a document. -/
theorem faults_eq_nil_iff {subgraph : String} : d.faults subgraph = [] ↔
    d.schemaFaults = [] ∧ errors d.blocks = [] ∧ Consistent (oks d.blocks) ∧
      referenceFaults d.declarations = [] ∧ directiveFaults d.declarations subgraph = [] := by
  simp only [faults, List.append_eq_nil_iff, and_assoc, assembly,
    Assembly.faults_ofBlocks_eq_nil_iff]

section Checked

variable {subgraph : String} (h : d.faults subgraph = [])

include h

theorem assembly_faults_eq_nil : d.assembly.faults = [] :=
  Assembly.faults_ofBlocks_eq_nil_iff.2 (faults_eq_nil_iff.1 h).2.2.1

/-- Nothing is wrong with what a declaration refers to. -/
theorem typeReferenceFaults_eq_nil (ht : d.declarations.get? n = some t) :
    typeReferenceFaults d.declarations n t = [] :=
  List.flatMap_eq_nil_iff.1 (faults_eq_nil_iff.1 h).2.2.2.1 _ (Table.get?_eq_some_iff.1 ht)

/-- Nor with the directives that are applied to it and to its parts. -/
theorem typeDirectiveFaults_eq_nil (ht : d.declarations.get? n = some t) :
    typeDirectiveFaults d.declarations subgraph n t = [] :=
  List.flatMap_eq_nil_iff.1 (faults_eq_nil_iff.1 h).2.2.2.2 _ (Table.get?_eq_some_iff.1 ht)

end Checked

end Document

namespace Subgraph

variable {s : Subgraph}

/-- The blocks of a subgraph without faults fit together. -/
theorem consistent_blocks (hfaults : s.document.faults s.name = []) :
    Consistent (oks s.document.blocks) :=
  (Document.faults_eq_nil_iff.1 hfaults).2.2.1

/-- What a subgraph without faults declares has of each of its blocks what it should. -/
theorem gathered_of_get?_declarations (hfaults : s.document.faults s.name = []) {n : Name}
    {t : TypeDeclaration} (ht : s.document.declarations.get? n = some t) :
    TypeDeclaration.Gathered ((oks s.document.blocks).filter (·.name = n)) t :=
  Document.gathered_of_get?_declarations (consistent_blocks hfaults) ht

end Subgraph

end Federation
