import Federation.Proofs.Subgraph.Consistent
import Federation.Proofs.Subgraph.Lookups
import Federation.Proofs.Subgraph.Placements
import Federation.Proofs.Subgraph.Roots
import Mathlib.Data.List.Perm.Basic

/-!
# Definitions in another order

The definitions of a document may come in any order, extensions before what they extend.  As long as
no type is named for two operations, the last of which would count, the renamings of root types are
the same (`Document.get?_rootRenames_of_perm`), so the same blocks are composed, in another order
(`Document.blocks_perm`).  They fit together as before, and what they make up is the same up to the
order of its parts (`TypesPerm`); the checks and annotations see no difference in that
(`TypesPerm.referenceFaults_iff`, `TypesPerm.directiveFaults_iff`, `TypesPerm.annotate`).

So the subgraph has a schema in the one order exactly if it has one in the other, and the two
schemas differ in nothing but orders and in which description of a type came first
(`Subgraph.schema?_of_perm`).
-/

namespace Federation

/-! ### Renamings -/

/-- A document names no type for two operations. -/
def Document.OneOperation (d : Document) : Prop :=
  ∀ r ∈ d.roots, ∀ r' ∈ d.roots, r.2 = r'.2 → r.1 = r'.1

instance (d : Document) : Decidable d.OneOperation :=
  inferInstanceAs (Decidable (∀ r ∈ d.roots, ∀ r' ∈ d.roots, _))

theorem TypeBody.rename_congr {renames renames' : RootRenames}
    (happly : renames'.apply = renames.apply) (keeps : Name → Bool) (b : TypeBody) :
    b.rename renames' keeps = b.rename renames keeps := by
  cases b <;> simp only [rename, FieldDefinition.renameType, happly]

/-- Renamings that rename alike leave the same blocks to compose, and find a fault in the same
definitions. -/
theorem Definition.block?_congr {renames renames' : RootRenames}
    (hget : ∀ n, renames'.get? n = renames.get? n) (e : Definition) :
    (e.block? renames').map Except.toOption = (e.block? renames).map Except.toOption := by
  have happly : renames'.apply = renames.apply := by
    funext n
    rw [RootRenames.apply, RootRenames.apply, hget]
  have hsource : ∀ n, (renames'.source? n).isSome = (renames.source? n).isSome := by
    intro n
    rw [Bool.eq_iff_iff, RootRenames.isSome_source?_iff, RootRenames.isSome_source?_iff]
    simp only [hget]
  cases e with
  | type t =>
    simp only [block?, map_toOption_composedBlock?, hget, hsource, happly,
      TypeBody.rename_congr happly]
  | typeExtension b =>
    simp only [block?, map_toOption_composedBlock?, hget, hsource, happly,
      TypeBody.rename_congr happly]
  | _ => rfl

namespace Document

variable {d d' : Document} (hp : d.Perm d')

include hp

theorem roots_perm : d.roots.Perm d'.roots := hp.flatMap_right _

/-- The order in which types are named for operations does not matter if none is named twice. -/
theorem get?_rootRenames_of_perm (hone : d.OneOperation) (n : Name) :
    d'.rootRenames.get? n = d.rootRenames.get? n := by
  have hroots := roots_perm hp
  obtain ⟨o, ho⟩ : ∃ o, ∀ o', (o', n) ∈ d.roots → o' = o := by
    by_cases hnamed : ∃ o, (o, n) ∈ d.roots
    · obtain ⟨o, ho⟩ := hnamed
      exact ⟨o, fun o' ho' => hone _ ho' _ ho rfl⟩
    · exact ⟨.query, fun o' ho' => absurd ⟨o', ho'⟩ hnamed⟩
  have ho' : ∀ o', (o', n) ∈ d'.roots → o' = o := fun o' h => ho o' (hroots.mem_iff.2 h)
  have hget' := get?_foldl_addRoot ho' ∅
  rw [← if_congr (and_congr_left' hroots.mem_iff) rfl rfl, ← get?_foldl_addRoot ho ∅] at hget'
  exact hget'

/-- **The blocks come in another order**, and the definitions with faults do. -/
theorem blocks_perm (hone : d.OneOperation) :
    (d.blocks.map Except.toOption).Perm (d'.blocks.map Except.toOption) := by
  rw [blocks, blocks, List.map_filterMap, List.map_filterMap]
  refine (hp.filterMap _).trans ?_
  rw [List.filterMap_congr fun e _ =>
    (Definition.block?_congr (get?_rootRenames_of_perm hp hone) e).symm]

theorem oks_blocks_perm (hone : d.OneOperation) : (oks d.blocks).Perm (oks d'.blocks) := by
  have hperm := (blocks_perm hp hone).filterMap id
  rwa [List.filterMap_map, List.filterMap_map] at hperm

theorem errors_blocks_iff (hone : d.OneOperation) :
    errors d.blocks = [] ↔ errors d'.blocks = [] := by
  have hnone : ∀ rs : List (Except Fault Block),
      errors rs = [] ↔ none ∉ rs.map Except.toOption := by
    intro rs
    rw [List.eq_nil_iff_forall_not_mem, List.mem_map]
    simp only [mem_errors]
    constructor
    · rintro h ⟨_ | b, hr, hb⟩
      · exact h _ hr
      · cases hb
    · exact fun h e he => h ⟨_, he, rfl⟩
  rw [hnone, hnone, (blocks_perm hp hone).mem_iff]

end Document

/-! ### Declarations up to order -/

/-- Declarations that differ in nothing but the order of their parts and the description of the
type. -/
structure TypeDeclaration.SameUpToOrder (t t' : TypeDeclaration) : Prop where
  kind : t'.kind = t.kind
  directives : t.directives.Perm t'.directives
  interfaces : t.interfaces.Perm t'.interfaces
  fields : t.fields.entries.Perm t'.fields.entries
  members : t.members.Perm t'.members
  values : t.values.entries.Perm t'.values.entries
  inputs : t.inputs.entries.Perm t'.inputs.entries
  keys : t.keys.Perm t'.keys

/-- Tables with types of the same names, which differ in nothing but orders and descriptions. -/
def TypesPerm (types types' : Table TypeDeclaration) : Prop :=
  ∀ n, Option.Rel TypeDeclaration.SameUpToOrder (types.get? n) (types'.get? n)

theorem Table.get?_eq_of_perm {α : Type} {t t' : Table α} (h : t.entries.Perm t'.entries)
    (n : Name) : t'.get? n = t.get? n := by
  ext a
  rw [get?_eq_some_iff, get?_eq_some_iff, h.mem_iff]

theorem appendNew_perm {α : Type} [DecidableEq α] {xs ys : List α} (h : xs.Perm ys) :
    (appendNew [] xs).Perm (appendNew [] ys) := by
  refine (List.perm_ext_iff_of_nodup (nodup_appendNew .nil) (nodup_appendNew .nil)).2 fun a => ?_
  rw [mem_appendNew, mem_appendNew, h.mem_iff]

/-- **What blocks make up in another order** is the same up to order. -/
theorem TypeDeclaration.Gathered.sameUpToOrder {bs bs' : List Block} {t t' : TypeDeclaration}
    (h : Gathered bs t) (h' : Gathered bs' t') (hp : bs.Perm bs') {b : Block} (hb : b ∈ bs) :
    t.SameUpToOrder t' where
  kind := (h'.kind b (hp.mem_iff.1 hb)).symm.trans (h.kind b hb)
  directives := by
    rw [h.directives, h'.directives]
    exact hp.flatMap_right _
  interfaces := by
    rw [h.interfaces, h'.interfaces]
    exact appendNew_perm (hp.flatMap_right _)
  fields := by
    rw [h.fields, h'.fields]
    exact hp.flatMap_right _
  members := by
    rw [h.members, h'.members]
    exact appendNew_perm (hp.flatMap_right _)
  values := by
    rw [h.values, h'.values]
    exact hp.flatMap_right _
  inputs := by
    rw [h.inputs, h'.inputs]
    exact hp.flatMap_right _
  keys := by rw [h.keys, h'.keys]

theorem Document.typesPerm_declarations {d d' : Document} (h : Consistent (oks d.blocks))
    (hp : (oks d.blocks).Perm (oks d'.blocks)) : TypesPerm d.declarations d'.declarations := by
  intro n
  have h' := h.of_perm hp
  have hfilter := hp.filter (·.name = n)
  -- the blocks of one name are permuted among themselves, and what is gathered is told by them
  have hrel : Option.Rel TypeDeclaration.SameUpToOrder
      (TypeDeclaration.gathered? ((oks d.blocks).filter (·.name = n)))
      (TypeDeclaration.gathered? ((oks d'.blocks).filter (·.name = n))) := by
    cases ht : TypeDeclaration.gathered? ((oks d.blocks).filter (·.name = n)) with
    | none =>
      rw [TypeDeclaration.gathered?_eq_none_iff] at ht
      rw [ht] at hfilter
      rw [hfilter.symm.eq_nil]
      exact .none
    | some t =>
      obtain ⟨b, hb, _⟩ := TypeDeclaration.kind_gathered? ht
      obtain ⟨t', ht'⟩ : ∃ t', TypeDeclaration.gathered?
          ((oks d'.blocks).filter (·.name = n)) = some t' := by
        refine Option.ne_none_iff_exists'.1 fun hnone => ?_
        exact List.ne_nil_of_mem (hfilter.mem_iff.1 hb)
          (TypeDeclaration.gathered?_eq_none_iff.1 hnone)
      rw [ht']
      exact .some ((TypeDeclaration.gathered_of_consistent h ht).sameUpToOrder
        (TypeDeclaration.gathered_of_consistent h' ht') hfilter hb)
  rw [declarations, declarations, Assembly.declarations, Assembly.declarations, Table.get?_filter,
    Table.get?_filter, assembly, assembly, (Assembly.gathers_ofBlocks h).get?,
    (Assembly.gathers_ofBlocks h').get?]
  refine rel_filter hrel fun t t' htt => ?_
  rw [Table.isEmpty, Table.isEmpty, htt.kind, htt.fields.isEmpty_eq]

namespace TypesPerm

variable {types types' : Table TypeDeclaration} (h : TypesPerm types types') (subgraph : String)

include h

/-- What holds of all types of the one table holds of all types of the other one, if it holds of
declarations that are the same up to order alike. -/
theorem forall_entries_iff {P Q : Name → TypeDeclaration → Prop}
    (hiff : ∀ n t t', t.SameUpToOrder t' → (P n t ↔ Q n t')) :
    (∀ e ∈ types.entries, P e.1 e.2) ↔ ∀ e ∈ types'.entries, Q e.1 e.2 := by
  simp only [Prod.forall, ← Table.get?_eq_some_iff]
  refine forall_congr' fun n => ?_
  rcases rel_cases (h n) with ⟨hn, hn'⟩ | ⟨t, t', hn, hn', htt⟩
  · simp [hn, hn']
  · simp [hn, hn', hiff n t t' htt]

theorem lookAlike : LookAlike types types' := fun n =>
  rel_imp (h n) fun _ _ htt => ⟨htt.kind, fun m => by
    rw [Table.get?_eq_of_perm htt.fields]
    exact optionRel_refl (R := fun f f' : FieldDeclaration =>
      f'.definition.type = f.definition.type) (fun _ => rfl) _⟩

/-! ### Checks -/

theorem referenceFaults_iff : referenceFaults types = [] ↔ referenceFaults types' = [] := by
  rw [referenceFaults, referenceFaults, List.flatMap_eq_nil_iff, List.flatMap_eq_nil_iff]
  refine h.forall_entries_iff (P := fun n t => typeReferenceFaults types n t = [])
    (Q := fun n t => typeReferenceFaults types' n t = []) fun n t t' htt => ?_
  have hempty : t.fields.isEmpty = t'.fields.isEmpty := htt.fields.isEmpty_eq
  unfold typeReferenceFaults
  rw [htt.kind, hempty]
  cases t.kind <;>
    simp only [List.append_eq_nil_iff, List.flatMap_eq_nil_iff, List.map_eq_nil_iff,
      List.filter_eq_nil_iff, htt.fields.mem_iff, htt.interfaces.mem_iff,
      htt.members.mem_iff, htt.inputs.mem_iff, h.lookAlike.kindOf?_eq,
      h.lookAlike.inputFaults_eq, h.lookAlike.fieldReferenceFaults_eq]

theorem keysOf_perm {n : Name} {t t' : TypeDeclaration} (htt : t.SameUpToOrder t') :
    (keysOf types n t).Perm (keysOf types' n t') := by
  rw [keysOf, keysOf, htt.kind, funext (h.lookAlike.keyOf_eq n)]
  split
  · exact (htt.directives.filter _).map _
  · exact .nil

theorem directiveFaults_iff :
    directiveFaults types subgraph = [] ↔ directiveFaults types' subgraph = [] := by
  rw [directiveFaults, directiveFaults, List.flatMap_eq_nil_iff, List.flatMap_eq_nil_iff]
  refine h.forall_entries_iff (P := fun n t => typeDirectiveFaults types subgraph n t = [])
    (Q := fun n t => typeDirectiveFaults types' subgraph n t = []) fun n t t' htt => ?_
  simp only [typeDirectiveFaults_eq_nil_iff, htt.kind,
    placementFaults_eq_nil_iff_of_perm htt.directives, (h.keysOf_perm htt).mem_iff,
    htt.fields.mem_iff, htt.values.mem_iff, htt.inputs.mem_iff,
    h.lookAlike.fieldDirectiveFaults_eq]

/-! ### Annotations -/

/-- Types that are the same up to order are annotated alike. -/
theorem annotate : TypesPerm (Federation.annotate types subgraph)
    (Federation.annotate types' subgraph) := by
  intro n
  rw [get?_annotate, get?_annotate]
  refine rel_map (h n) fun t t' htt => ?_
  refine { htt with fields := ?_, keys := oks_perm (h.keysOf_perm htt) }
  have hfield := fun m f => h.lookAlike.annotateField_eq subgraph t.kind n m f
  simp only [annotateType, Table.mapEntries, hfield, htt.kind]
  exact htt.fields.map _

/-- They need the same version. -/
theorem needVersion2_eq : types.values.any (fun t => needVersion2 t.appliedDirectives) =
    types'.values.any fun t => needVersion2 t.appliedDirectives := by
  have heach : ∀ t t' : TypeDeclaration, t.SameUpToOrder t' →
      needVersion2 t'.appliedDirectives = needVersion2 t.appliedDirectives := by
    intro t t' htt
    have hfields := (htt.fields.map Prod.snd).flatMap_right fun f : FieldDeclaration =>
      f.definition.directives ++ f.definition.arguments.flatMap fun a => a.2.directives
    have hvalues := (htt.values.map Prod.snd).flatMap_right fun v : EnumValueDefinition =>
      v.directives
    have hinputs := (htt.inputs.map Prod.snd).flatMap_right fun v : InputValue => v.directives
    exact ((((htt.directives.append hfields).append hvalues).append hinputs).any_eq).symm
  have hnone := h.forall_entries_iff (P := fun _ t => ¬ needVersion2 t.appliedDirectives = true)
    (Q := fun _ t => ¬ needVersion2 t.appliedDirectives = true) fun _ t t' htt => by
      rw [heach t t' htt]
  rw [Table.values, Table.values, List.any_map, List.any_map, Bool.eq_iff_iff, ← not_iff_not,
    Bool.not_eq_true, Bool.not_eq_true, List.any_eq_false, List.any_eq_false]
  exact hnone

end TypesPerm

/-! ### Schemas -/

/-- Schemas that differ in nothing but orders and descriptions. -/
structure Schema.SameUpToOrder (s s' : Schema) : Prop where
  name : s'.name = s.name
  url : s'.url = s.url
  version : s'.version = s.version
  types : TypesPerm s.types s'.types

namespace Subgraph

variable {d d' : Document}

/-- **The order of definitions does not matter.**  In any order of its definitions, a document that
names no type for two operations is checked alike, and has the same schema up to order. -/
theorem schema?_of_perm (hp : d.Perm d') (hone : d.OneOperation) (name url : String) :
    ((∃ schema, (Subgraph.mk name url d).schema? = .ok schema) ↔
      ∃ schema, (Subgraph.mk name url d').schema? = .ok schema) ∧
    ∀ schema schema', (Subgraph.mk name url d).schema? = .ok schema →
      (Subgraph.mk name url d').schema? = .ok schema' → schema.SameUpToOrder schema' := by
  have hblocks := Document.oks_blocks_perm hp hone
  have hschemaFaults : d.schemaFaults = [] ↔ d'.schemaFaults = [] := by
    simp only [Document.schemaFaults, List.flatMap_eq_nil_iff, hp.mem_iff]
  have hfaults : d.faults name = [] ↔ d'.faults name = [] := by
    rw [Document.faults_eq_nil_iff, Document.faults_eq_nil_iff, hschemaFaults,
      Document.errors_blocks_iff hp hone, consistent_iff_of_perm hblocks]
    refine and_congr_right fun _ => and_congr_right fun _ => and_congr_right fun hconsistent => ?_
    have htypes := Document.typesPerm_declarations
      ((consistent_iff_of_perm hblocks).2 hconsistent) hblocks
    rw [htypes.referenceFaults_iff, htypes.directiveFaults_iff]
  simp only [schema?_eq_ok_iff, exists_and_left, exists_eq, and_true, hfaults]
  refine ⟨trivial, ?_⟩
  rintro schema schema' ⟨hnone, rfl⟩ ⟨_, rfl⟩
  have htypes := Document.typesPerm_declarations
    (Document.faults_eq_nil_iff.1 (hfaults.2 hnone)).2.2.1 hblocks
  refine ⟨rfl, rfl, ?_, htypes.annotate name⟩
  have hdirectives : (d.flatMap Definition.schemaDirectives).Perm
      (d'.flatMap Definition.schemaDirectives) := hp.flatMap_right _
  show d'.version = d.version
  rw [Document.version, Document.version, htypes.needVersion2_eq, needVersion2, needVersion2,
    hdirectives.any_eq, hdirectives.any_eq]

/-! ### Extensions before definitions -/

/-- A document with a root type that is defined and then extended. -/
def definedFirst : Subgraph := .ofSchemaText <|
  "schema \x7b query: R \x7d type R implements I @key(fields: \"a\") \x7b a: Int \x7d " ++
    "extend type R \x7b b: [R!] @external \x7d interface I \x7b a: Int \x7d"

/-- The same definitions the other way round, the extension first. -/
def extendedFirst : Subgraph := ⟨"a", "", definedFirst.document.reverse⟩

/-- Both have a schema, and the two schemas are the same up to order. -/
theorem schema?_of_perm_extendedFirst : definedFirst.document.OneOperation ∧
    definedFirst.schema? = .ok definedFirst.schema ∧
    extendedFirst.schema? = .ok extendedFirst.schema ∧
    definedFirst.schema.SameUpToOrder extendedFirst.schema := by
  have hread : definedFirst.document.OneOperation ∧
      definedFirst.schema? = .ok definedFirst.schema ∧
      extendedFirst.schema? = .ok extendedFirst.schema := by decide +kernel
  obtain ⟨hone, hschema, hschema'⟩ := hread
  exact ⟨hone, hschema, hschema',
    (schema?_of_perm (List.reverse_perm _).symm hone "a" "").2 _ _ hschema hschema'⟩

end Subgraph

end Federation
