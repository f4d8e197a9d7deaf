import Federation.Proofs.Subgraph.Consistent
import Federation.Proofs.Subgraph.Roots

/-!
# Definitions that are split

A type definition may leave the ends of its lists (interfaces, directives, fields, members, values,
input fields) to an extension that comes later in the document.  If no other block of the type
stands in between, then nothing changes: the definition and its extension fit in with all other
blocks exactly if the whole definition does (`Block.Splits.fitsIn_iff`), and folding in the one and
then the other is folding in the whole (`Block.Splits.absorb`).  Since the fold goes by names, it
does not matter which blocks of other types the extension comes after.

A mark on the definition that counts for its fields alone, or that makes it no definition, would be
split from some of them; so there must be none (`Subgraph.schema?_splits`).
-/

namespace Federation

/-! ### Parts of definitions -/

/-- A body that is divided between two bodies of its kind: the first one has the fronts of its
lists, and the second one has the rest. -/
structure TypeBody.Splits (b b₁ b₂ : TypeBody) : Prop where
  kind₁ : b₁.kind = b.kind
  kind₂ : b₂.kind = b.kind
  interfaces : b.interfaces = b₁.interfaces ++ b₂.interfaces
  fields : b.fields = b₁.fields ++ b₂.fields
  members : b.members = b₁.members ++ b₂.members
  values : b.values = b₁.values ++ b₂.values
  inputs : b.inputs = b₁.inputs ++ b₂.inputs

/-- A type block that is divided between two blocks of its type. -/
structure TypeBlock.Splits (b b₁ b₂ : TypeBlock) : Prop where
  name₁ : b₁.name = b.name
  name₂ : b₂.name = b.name
  directives : b.directives = b₁.directives ++ b₂.directives
  body : b.body.Splits b₁.body b₂.body

/-- The marks on a definition that count for the fields in it, or for what it is. -/
def blockMarks : List String := ["shareable", "external", "extends"]

/-- A block to compose that is divided between a block of its sort and an extension. -/
structure Block.Splits (b b₁ b₂ : Block) : Prop where
  isExtension₁ : b₁.isExtension = b.isExtension
  isExtension₂ : b₂.isExtension = true
  description₁ : b₁.description = b.description
  description₂ : b₂.description = none
  name₁ : b₁.name = b.name
  name₂ : b₂.name = b.name
  directives : b.directives = b₁.directives ++ b₂.directives
  body : b.body.Splits b₁.body b₂.body
  unmarked : ∀ mark ∈ blockMarks, hasDirective b.directives mark = false

theorem TypeBody.Splits.rename {b b₁ b₂ : TypeBody} (h : b.Splits b₁ b₂) (renames : RootRenames)
    (keeps : Name → Bool) :
    (b.rename renames keeps).Splits (b₁.rename renames keeps) (b₂.rename renames keeps) where
  kind₁ := by rw [kind_rename, kind_rename, h.kind₁]
  kind₂ := by rw [kind_rename, kind_rename, h.kind₂]
  interfaces := by simp only [interfaces_rename, h.interfaces]
  fields := by simp only [fields_rename, h.fields, List.filter_append, List.map_append]
  members := by simp only [members_rename, h.members, List.map_append]
  values := by simp only [values_rename, h.values]
  inputs := by simp only [inputs_rename, h.inputs]

/-! ### Folding the parts in -/

namespace Block.Splits

variable {b b₁ b₂ : Block} (h : b.Splits b₁ b₂)

include h

/-- The marks are on neither part. -/
theorem hasDirective_eq (mark : String) (hmark : mark ∈ blockMarks) :
    hasDirective b₁.directives mark = hasDirective b.directives mark ∧
      hasDirective b₂.directives mark = hasDirective b.directives mark := by
  have hnone := h.unmarked mark hmark
  have happend : (hasDirective b₁.directives mark || hasDirective b₂.directives mark) = false := by
    rw [← hnone, h.directives]
    exact List.any_append.symm
  rw [Bool.or_eq_false_iff] at happend
  rw [hnone]
  exact happend

theorem isDefinition₁ : b₁.isDefinition = b.isDefinition := by
  rw [isDefinition, isDefinition, h.isExtension₁, (h.hasDirective_eq "extends" (by decide)).1]

theorem isDefinition₂ : b₂.isDefinition = false := by
  rw [isDefinition, h.isExtension₂]
  rfl

/-- A field is declared alike in either part. -/
theorem declare_eq (f : FieldDefinition) : b₁.declare f = b.declare f ∧
    b₂.declare f = b.declare f := by
  obtain ⟨hshareable₁, hshareable₂⟩ := h.hasDirective_eq "shareable" (by decide)
  obtain ⟨hexternal₁, hexternal₂⟩ := h.hasDirective_eq "external" (by decide)
  simp only [declare, hshareable₁, hshareable₂, hexternal₁, hexternal₂, and_self]

theorem declaredFields_eq : b.declaredFields = b₁.declaredFields ++ b₂.declaredFields := by
  simp only [declaredFields, h.body.fields, List.map_append, h.declare_eq]

/-- **Folding in the parts one after the other is folding in the whole.** -/
theorem absorb (t : TypeDeclaration) : (t.absorb b₁).absorb b₂ = t.absorb b := by
  have hfold := TypeDeclaration.foldl_absorb t [b₁, b₂]
  have hwhole := TypeDeclaration.foldl_absorb t [b]
  simp only [List.foldl_cons, List.foldl_nil] at hfold hwhole
  rw [hfold, hwhole]
  simp only [List.flatMap_cons, List.flatMap_nil, List.append_nil, List.findSome?_cons,
    List.findSome?_nil, h.description₁, h.description₂, h.directives, h.body.interfaces,
    h.body.members, h.body.values, h.body.inputs, h.declaredFields_eq]

theorem gathered?_eq (bs bs' : List Block) :
    TypeDeclaration.gathered? (bs ++ b₁ :: b₂ :: bs') =
      TypeDeclaration.gathered? (bs ++ b :: bs') := by
  cases bs with
  | nil =>
    simp only [List.nil_append, TypeDeclaration.gathered?, List.foldl_cons, h.absorb, h.body.kind₁]
  | cons c bs =>
    simp only [List.cons_append, TypeDeclaration.gathered?, List.foldl_cons, List.foldl_append,
      h.absorb]

/-- **The parts fit in exactly if the whole does**, the second one after the first one. -/
theorem fitsIn_iff (bs : List Block) : b.FitsIn bs ↔ b₁.FitsIn bs ∧ b₂.FitsIn (bs ++ [b₁]) := by
  -- Names of the whole are new exactly if those of the parts are, and differ between them.
  have hnames : ∀ part : Block → List Name, part b = part b₁ ++ part b₂ →
      ((part b).Nodup ∧ (∀ m ∈ part b, ∀ c ∈ bs, c.name = b.name → m ∉ part c) ↔
        ((part b₁).Nodup ∧ ∀ m ∈ part b₁, ∀ c ∈ bs, c.name = b₁.name → m ∉ part c) ∧
        (part b₂).Nodup ∧ ∀ m ∈ part b₂, ∀ c ∈ bs ++ [b₁], c.name = b₂.name → m ∉ part c) := by
    intro part hpart
    simp only [hpart, h.name₁, h.name₂, List.nodup_append', List.disjoint_right, List.mem_append,
      List.mem_singleton, or_imp, forall_and, forall_eq, forall_const]
    tauto
  have hfields := hnames fieldNames (by simp only [fieldNames, h.body.fields, List.map_append])
  have hvalues := hnames valueNames (by simp only [valueNames, h.body.values, List.map_append])
  have hinputs := hnames inputNames (by simp only [inputNames, h.body.inputs, List.map_append])
  constructor
  · intro hb
    obtain ⟨hfields₁, hfields₂⟩ := hfields.1 hb.fields
    obtain ⟨hvalues₁, hvalues₂⟩ := hvalues.1 hb.values
    obtain ⟨hinputs₁, hinputs₂⟩ := hinputs.1 hb.inputs
    have harguments := hb.arguments
    rw [h.body.fields, List.forall_mem_append] at harguments
    refine ⟨⟨?_, ?_, hfields₁, hvalues₁, hinputs₁, harguments.1⟩,
      ⟨?_, ?_, hfields₂, hvalues₂, hinputs₂, harguments.2⟩⟩
    · rw [h.name₁, h.body.kind₁]
      exact hb.kind
    · rw [h.isDefinition₁, h.name₁]
      exact hb.definition
    · rw [h.name₂, h.body.kind₂, List.forall_mem_append, List.forall_mem_singleton]
      exact ⟨hb.kind, fun _ => h.body.kind₁⟩
    · rw [h.isDefinition₂]
      exact fun hdefinition => absurd hdefinition Bool.false_ne_true
  · rintro ⟨hb₁, hb₂⟩
    refine ⟨?_, ?_, hfields.2 ⟨hb₁.fields, hb₂.fields⟩, hvalues.2 ⟨hb₁.values, hb₂.values⟩,
      hinputs.2 ⟨hb₁.inputs, hb₂.inputs⟩, ?_⟩
    · rw [← h.name₁, ← h.body.kind₁]
      exact hb₁.kind
    · rw [← h.isDefinition₁, ← h.name₁]
      exact hb₁.definition
    · rw [h.body.fields, List.forall_mem_append]
      exact ⟨hb₁.arguments, hb₂.arguments⟩

/-- With the parts in place of the whole, wherever the second one comes, blocks fit together as they
do with the whole. -/
theorem consistent_iff (front between back : List Block) :
    Consistent (front ++ b₁ :: (between ++ b₂ :: back)) ↔
      Consistent (front ++ b :: (between ++ back)) := by
  -- In terms that do not depend on the order, the blocks in question may come last.
  have hlast : (front ++ b :: (between ++ back)).Perm (front ++ (between ++ back) ++ [b]) :=
    List.perm_middle.trans (List.perm_append_singleton _ _).symm
  have hfirst : (front ++ b₁ :: (between ++ b₂ :: back)).Perm
      (front ++ (between ++ b₂ :: back) ++ [b₁]) :=
    List.perm_middle.trans (List.perm_append_singleton _ _).symm
  have hsecond : (front ++ (between ++ b₂ :: back)).Perm (front ++ (between ++ back) ++ [b₂]) := by
    rw [← List.append_assoc, ← List.append_assoc]
    exact List.perm_middle.trans (List.perm_append_singleton _ _).symm
  have hparts : (front ++ b₁ :: (between ++ b₂ :: back)).Perm
      (front ++ (between ++ back) ++ [b₁] ++ [b₂]) := by
    refine hfirst.trans ((hsecond.append_right [b₁]).trans ?_)
    simp only [List.append_assoc, List.cons_append, List.nil_append]
    exact (((List.Perm.swap b₁ b₂ []).append_left back).append_left between).append_left front
  rw [consistent_iff_of_perm hlast, consistent_iff_of_perm hparts, consistent_concat_iff,
    consistent_concat_iff, consistent_concat_iff, h.fitsIn_iff, and_assoc]

/-- The names of the types come in the same order. -/
theorem names_eq (front between back : List Block) :
    appendNew [] ((front ++ b₁ :: (between ++ b₂ :: back)).map (·.name)) =
      appendNew [] ((front ++ b :: (between ++ back)).map (·.name)) := by
  have hseen : ∀ {xs ns : List Name} {n : Name}, n ∈ xs →
      appendNew xs (n :: ns) = appendNew xs ns := fun hn => if_pos hn
  simp only [List.map_append, List.map_cons, h.name₁, h.name₂]
  -- When the second part comes, the first one has been seen.
  rw [appendNew_append, appendNew_append, ← List.cons_append, ← List.cons_append, appendNew_append,
    appendNew_append (appendNew [] _), hseen]
  rw [mem_appendNew]
  exact .inr List.mem_cons_self

end Block.Splits

/-! ### Splitting a definition of a document -/

/-- What is left to compose of a definition and of the parts that it is split into is alike:
nothing, the same fault, or a block that is split. -/
theorem TypeBlock.Splits.composedBlock? {b b₁ b₂ : TypeBlock} (h : b.Splits b₁ b₂)
    (hunmarked : ∀ mark ∈ blockMarks, hasDirective b.directives mark = false)
    (renames : RootRenames) (description : Option String) :
    (Federation.composedBlock? renames false description b = none ∧
      Federation.composedBlock? renames false description b₁ = none ∧
      Federation.composedBlock? renames true none b₂ = none) ∨
    (∃ fault, Federation.composedBlock? renames false description b = some (.error fault) ∧
      Federation.composedBlock? renames false description b₁ = some (.error fault) ∧
      Federation.composedBlock? renames true none b₂ = some (.error fault)) ∨
    ∃ c c₁ c₂, Federation.composedBlock? renames false description b = some (.ok c) ∧
      Federation.composedBlock? renames false description b₁ = some (.ok c₁) ∧
      Federation.composedBlock? renames true none b₂ = some (.ok c₂) ∧
      c.Splits c₁ c₂ ∧ c.name = renames.apply b.name := by
  unfold Federation.composedBlock?
  rw [h.name₁, h.name₂]
  cases hplumbing : isPlumbingType b.name with
  | true => exact .inl ⟨rfl, rfl, rfl⟩
  | false =>
    simp only [Bool.false_eq_true, if_false]
    refine .inr ?_
    split
    · exact .inl ⟨_, rfl, rfl, rfl⟩
    · exact .inr ⟨_, _, _, rfl, rfl, rfl,
        ⟨rfl, rfl, rfl, rfl, rfl, rfl, h.directives,
          h.body.rename renames (keepsField (renames.apply b.name)), hunmarked⟩, rfl⟩

/-- Documents that differ in one definition, which the second one splits: some parts of it stand in
an extension that comes later, with no block of the type in between. -/
inductive Document.Splits : Document → Document → Prop
  | split {front between back : Document} {description : Option String} {b b₁ b₂ : TypeBlock}
      {renames : RootRenames}
      (hrenames : renames =
        Document.rootRenames (front ++ .type ⟨description, b⟩ :: (between ++ back)))
      (parts : b.Splits b₁ b₂)
      (unmarked : ∀ mark ∈ blockMarks, hasDirective b.directives mark = false)
      (apart : ∀ c ∈ oks (between.filterMap (Definition.block? renames)),
        c.name ≠ renames.apply b.name) :
      Document.Splits (front ++ .type ⟨description, b⟩ :: (between ++ back))
        (front ++ .type ⟨description, b₁⟩ :: (between ++ .typeExtension b₂ :: back))

namespace Document.Splits

variable {d d' : Document} (h : d.Splits d')

include h

/-- What is read off schema blocks alone is the same. -/
theorem flatMap_eq {α : Type} {f : Definition → List α} (htype : ∀ t, f (.type t) = [])
    (hextension : ∀ b, f (.typeExtension b) = []) : d'.flatMap f = d.flatMap f := by
  cases h
  simp only [List.flatMap_append, List.flatMap_cons, htype, hextension, List.nil_append]

theorem rootRenames_eq : d'.rootRenames = d.rootRenames := by
  rw [rootRenames, rootRenames, h.flatMap_eq (fun _ => rfl) fun _ => rfl]

/-- **What a split definition does to the blocks**: nothing, or there is the same fault, or one of
them is split. -/
theorem blocks : d'.blocks = d.blocks ∨ (errors d.blocks ≠ [] ∧ errors d'.blocks ≠ []) ∨
    ∃ c c₁ c₂ front between back, Block.Splits c c₁ c₂ ∧ errors d'.blocks = errors d.blocks ∧
      oks d.blocks = front ++ c :: (between ++ back) ∧
      oks d'.blocks = front ++ c₁ :: (between ++ c₂ :: back) ∧ ∀ e ∈ between, e.name ≠ c.name := by
  rw [Document.blocks, Document.blocks, h.rootRenames_eq]
  obtain @⟨front, between, back, description, b, b₁, b₂, renames, hrenames, hparts, hunmarked,
    hapart⟩ := h
  rw [← hrenames]
  rcases hparts.composedBlock? hunmarked renames description with
    ⟨hb, hb₁, hb₂⟩ | ⟨fault, hb, hb₁, hb₂⟩ | ⟨c, c₁, c₂, hb, hb₁, hb₂, hc, hname⟩ <;>
    simp only [List.filterMap_append, List.filterMap_cons, Definition.block?, hb, hb₁, hb₂]
  · exact .inl trivial
  · refine .inr (.inl ⟨?_, ?_⟩) <;>
      exact List.ne_nil_of_mem (mem_errors.2 (List.mem_append_right _ List.mem_cons_self))
  · refine .inr (.inr ⟨c, c₁, c₂, oks (front.filterMap (Definition.block? renames)),
      oks (between.filterMap (Definition.block? renames)),
      oks (back.filterMap (Definition.block? renames)), hc, ?_, ?_, ?_, ?_⟩)
    · simp only [errors_append, errors_ok_cons]
    · simp only [oks_append, oks_ok_cons]
    · simp only [oks_append, oks_ok_cons]
    · rw [hname]
      exact hapart

/-- **Splitting a definition changes no declaration**, where there is nothing wrong with the blocks
and they fit together; and whether that is so does not change either. -/
theorem declarations :
    (errors d'.blocks = [] ∧ Consistent (oks d'.blocks) ↔
      errors d.blocks = [] ∧ Consistent (oks d.blocks)) ∧
    (errors d.blocks = [] → Consistent (oks d.blocks) → d'.declarations = d.declarations) := by
  rcases h.blocks with hsame | ⟨hfault, hfault'⟩ |
    ⟨c, c₁, c₂, front, between, back, hc, herrors, hoks, hoks', hapart⟩
  · refine ⟨by rw [hsame], fun _ _ => ?_⟩
    rw [Document.declarations, Document.declarations, assembly, assembly, hsame]
  · exact ⟨iff_of_false (fun h => hfault' h.1) fun h => hfault h.1, fun h => absurd h hfault⟩
  · have hiff : Consistent (oks d'.blocks) ↔ Consistent (oks d.blocks) := by
      rw [hoks, hoks', hc.consistent_iff]
    refine ⟨by rw [herrors, hiff], fun _ hd => declarations_eq hd (hiff.2 hd) ?_ fun n => ?_⟩
    · rw [hoks, hoks', hc.names_eq]
    · -- Under the name of the block its parts come one after the other, and elsewhere not at all.
      rw [hoks, hoks']
      by_cases hn : c.name = n
      · have hnone : between.filter (·.name = n) = [] := by
          refine List.filter_eq_nil_iff.2 fun e he => ?_
          rw [← hn, decide_eq_true_eq]
          exact hapart e he
        simp only [List.filter_append, List.filter_cons, hc.name₁, hc.name₂, hn, decide_true,
          if_true, hnone, List.nil_append, hc.gathered?_eq]
      · simp only [List.filter_append, List.filter_cons, hc.name₁, hc.name₂, hn, decide_false,
          Bool.false_eq_true, if_false]

end Document.Splits

namespace Subgraph

/-- **Splitting a definition into a definition and an extension changes nothing.**  The subgraph has
the same schema, or has none in either form. -/
theorem schema?_splits {d d' : Document} (h : d.Splits d') (name url : String) (schema : Schema) :
    (Subgraph.mk name url d').schema? = .ok schema ↔
      (Subgraph.mk name url d).schema? = .ok schema := by
  obtain ⟨hiff, hdeclarations⟩ := h.declarations
  have hschemaFaults : d'.schemaFaults = d.schemaFaults :=
    h.flatMap_eq (fun _ => rfl) fun _ => rfl
  have hschemaDirectives : d'.flatMap Definition.schemaDirectives =
      d.flatMap Definition.schemaDirectives := h.flatMap_eq (fun _ => rfl) fun _ => rfl
  have hfaults : d'.faults name = [] ↔ d.faults name = [] := by
    rw [Document.faults_eq_nil_iff, Document.faults_eq_nil_iff, hschemaFaults]
    refine and_congr_right fun _ => ?_
    rw [← and_assoc, ← and_assoc (a := errors d.blocks = []), hiff]
    refine and_congr_right fun hblocks => ?_
    rw [hdeclarations hblocks.1 hblocks.2]
  rw [schema?_eq_ok_iff, schema?_eq_ok_iff, hfaults]
  refine and_congr_right fun hnone => ?_
  obtain ⟨_, hblocks, hconsistent, _⟩ := Document.faults_eq_nil_iff.1 hnone
  have hsame := hdeclarations hblocks hconsistent
  rw [Subgraph.schema, Subgraph.schema, Document.version, Document.version, hsame,
    hschemaDirectives]

/-! ### A root type that is split -/

/-- A block of a root type, with keys of one field each and with fields that return `Int`. -/
def rootBlock (keys : List String) (fields : List Name) : TypeBlock where
  name := ⟨"Root", by decide⟩
  directives := keys.map fun k => ⟨⟨"key", by decide⟩, [(⟨"fields", by decide⟩, .string k)]⟩
  body := .object [] (fields.map fun f => (f, ⟨none, [], .named ⟨"Int", by decide⟩ false, []⟩))

/-- A document with a root type that is defined with two keys and some plumbing, and extended after
another type. -/
def wholeRoot : Document :=
  [.schema [] [(.query, ⟨"Root", by decide⟩)]] ++
    .type ⟨none, rootBlock ["a", "b"]
      [⟨"a", by decide⟩, ⟨"b", by decide⟩, ⟨"_service", by decide⟩]⟩ ::
    ([.type ⟨none, ⟨⟨"Date", by decide⟩, [], .scalar⟩⟩] ++
      [.typeExtension (rootBlock [] [⟨"c", by decide⟩])])

/-- The same with the second key and the last fields of the definition in another extension. -/
def splitRoot : Document :=
  [.schema [] [(.query, ⟨"Root", by decide⟩)]] ++
    .type ⟨none, rootBlock ["a"] [⟨"a", by decide⟩]⟩ ::
    ([.type ⟨none, ⟨⟨"Date", by decide⟩, [], .scalar⟩⟩] ++
      .typeExtension (rootBlock ["b"] [⟨"b", by decide⟩, ⟨"_service", by decide⟩]) ::
      [.typeExtension (rootBlock [] [⟨"c", by decide⟩])])

theorem splits_wholeRoot : wholeRoot.Splits splitRoot :=
  .split rfl ⟨rfl, rfl, rfl, rfl, rfl, rfl, rfl, rfl, rfl, rfl⟩ (by decide +kernel)
    (by decide +kernel)

/-- Both have the same schema. -/
theorem schema?_splits_wholeRoot : wholeRoot.Splits splitRoot ∧
    (Subgraph.mk "a" "" splitRoot).schema? = .ok (Subgraph.mk "a" "" wholeRoot).schema := by
  have hread : (Subgraph.mk "a" "" wholeRoot).schema? =
      .ok (Subgraph.mk "a" "" wholeRoot).schema := by decide +kernel
  exact ⟨splits_wholeRoot, (schema?_splits splits_wholeRoot "a" "" _).2 hread⟩

end Subgraph

end Federation
