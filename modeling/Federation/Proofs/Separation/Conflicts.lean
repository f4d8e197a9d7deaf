import Federation.Proofs.Order.Arguments
import Federation.Proofs.Separation.Walk

/-!
# Conflicts of unrelated batches

Unrelated batches agree with each other wherever they meet.  The fold finds a conflict about a type
only between declarations of the type, and those of both batches are object types with different
fields (`mergeConflicts_append_eq_nil_iff`).  Every field of the merged graph is a field of one of
the batches in its place (`Graph.forall_fields_append_iff`), and a type that implements an
interface is declared by the batch of the interface alone
(`Graph.implementationConflicts_append_eq_nil_iff`).  So both batches together are without
conflicts exactly when each of them is (`conflicts_append_eq_nil_iff`).
-/

namespace Federation

/-! ### Conflicts of the fold -/

/-- Whether each declaration of a field agrees with what the declarations before it make up. -/
def FieldNode.AllAgree (names : List String) (es : List (SubgraphId × FieldDeclaration)) : Prop :=
  ∀ h, es.head? = some h → Checked (fun f e => f.absorb names e.1 e.2) (fun f e => f.Agrees e.2)
    (start h.2) es

/-- Where one of two lists is empty, all declarations agree that agree in the other one, under
whichever numbers and names. -/
theorem FieldNode.allAgree_append_iff {names names' names'' : List String}
    {es es' : List (SubgraphId × FieldDeclaration)} (σ : SubgraphId → SubgraphId)
    (h : es = [] ∨ es' = []) :
    AllAgree names (es ++ es'.map fun e => (σ e.1, e.2)) ↔
      AllAgree names' es ∧ AllAgree names'' es' := by
  -- the comparison reads what is declared, and neither the numbers nor the names
  have hcongr : ∀ {names names' : List String} {es es' : List (SubgraphId × FieldDeclaration)},
      es'.map Prod.snd = es.map Prod.snd → (AllAgree names' es' ↔ AllAgree names es) := by
    intro names names' es es' hes
    cases es with
    | nil =>
      rw [List.map_nil, List.map_eq_nil_iff] at hes
      simp [AllAgree, hes]
    | cons e es =>
      cases es' with
      | nil => cases hes
      | cons e' es' =>
        have hhead : e'.2 = e.2 := (List.cons.inj hes).1
        simp only [AllAgree, List.head?_cons, Option.some.injEq, forall_eq', hhead]
        exact checked_iff_of_map_snd hes _
  have hnil : ∀ names : List String, AllAgree names [] := fun _ _ h => by cases h
  rcases h with rfl | rfl
  · simp only [hnil, true_and, List.nil_append]
    refine hcongr ?_
    rw [List.map_map]
    rfl
  · simp only [hnil, and_true, List.map_nil, List.append_nil]
    exact hcongr rfl

section Merge

variable {a b : List Schema} (h : Unrelated a b)

include h

/-- No field is declared by both batches. -/
theorem Unrelated.fieldsOf_eq_nil (n m : Name) :
    TypeNode.fieldsOf (declarationsOf a n) m = [] ∨
      TypeNode.fieldsOf (declarationsOf b n) m = [] := by
  by_cases hnone : ∀ d, Declares a n d → d.fields.get? m = none
  · exact .inl (Federation.fieldsOf_eq_nil hnone)
  · refine .inr (Federation.fieldsOf_eq_nil fun e he => ?_)
    simp only [not_forall, ← ne_eq, Option.ne_none_iff_exists'] at hnone
    obtain ⟨d, hd, f, hf⟩ := hnone
    exact (h.of_declares hd he).2.2.2 m f hf

/-- No input field is declared by both batches. -/
theorem Unrelated.inputTypes_eq_nil (ha : Grounded a) (n m : Name) :
    TypeNode.inputTypes (declarationsOf a n) m = [] ∨
      TypeNode.inputTypes (declarationsOf b n) m = [] := by
  by_cases hb : Avoids b n
  · rw [declarationsOf_eq_nil_iff.2 hb]
    exact .inr rfl
  · obtain ⟨e, he⟩ : ∃ e, Declares b n e := by simpa [Avoids] using hb
    refine .inl (List.filterMap_eq_nil_iff.2 fun d hd => ?_)
    have hd := declares_iff.2 ⟨d.1, hd⟩
    -- What both declare is an object type, and has no input fields.
    cases hv : d.2.inputs.get? m with
    | none => rfl
    | some v =>
      have hkind := ha.input hd hv
      rw [(h.of_declares hd he).2.1] at hkind
      cases hkind

/-- All declarations of a name are of one kind where those of each batch are. -/
theorem Unrelated.kinds_append_iff (n : Name) :
    (∀ d ∈ declarationsOf a n ++ (declarationsOf b n).map fun e => (a.length + e.1, e.2),
      ∀ d' ∈ declarationsOf a n ++ (declarationsOf b n).map fun e => (a.length + e.1, e.2),
        d.2.kind = d'.2.kind) ↔
      (∀ d ∈ declarationsOf a n, ∀ d' ∈ declarationsOf a n, d.2.kind = d'.2.kind) ∧
        ∀ d ∈ declarationsOf b n, ∀ d' ∈ declarationsOf b n, d.2.kind = d'.2.kind := by
  by_cases hda : Avoids a n
  · simp only [declarationsOf_eq_nil_iff.2 hda, List.nil_append, List.forall_mem_map,
      List.not_mem_nil, false_implies, implies_true, true_and]
  by_cases hdb : Avoids b n
  · simp [declarationsOf_eq_nil_iff.2 hdb]
  -- What both declare is an object type throughout.
  obtain ⟨d₀, hd₀⟩ : ∃ d, Declares a n d := by simpa [Avoids] using hda
  obtain ⟨e₀, he₀⟩ : ∃ e, Declares b n e := by simpa [Avoids] using hdb
  have ha : ∀ d ∈ declarationsOf a n, d.2.kind = .object := fun d hd =>
    (h.of_declares (declares_iff.2 ⟨d.1, hd⟩) he₀).2.1
  have hb : ∀ e ∈ declarationsOf b n, e.2.kind = .object := fun e he =>
    (h.of_declares hd₀ (declares_iff.2 ⟨e.1, he⟩)).2.2.1
  have hwhole : ∀ d ∈ declarationsOf a n ++ (declarationsOf b n).map fun e =>
      (a.length + e.1, e.2), d.2.kind = .object :=
    List.forall_mem_append.2 ⟨ha, List.forall_mem_map.2 hb⟩
  exact iff_of_true (fun d hd d' hd' => by rw [hwhole d hd, hwhole d' hd'])
    ⟨fun d hd d' hd' => by rw [ha d hd, ha d' hd'], fun d hd d' hd' => by rw [hb d hd, hb d' hd']⟩

/-- **Conflicts of the fold** are conflicts of one of the batches. -/
theorem mergeConflicts_append_eq_nil_iff (ha : Grounded a) {names names' names'' : List String}
    {nameOf nameOf' nameOf'' : SubgraphId → String} :
    mergeConflicts names nameOf ∅ (contributed (a ++ b)) = [] ↔
      mergeConflicts names' nameOf' ∅ (contributed a) = [] ∧
        mergeConflicts names'' nameOf'' ∅ (contributed b) = [] := by
  rw [mergeConflicts_eq_nil_iff, mergeConflicts_eq_nil_iff, mergeConflicts_eq_nil_iff, ← forall_and]
  refine forall_congr' fun n => ?_
  rw [declarationsOf_append]
  have hinputs : ∀ m, Uniform none (TypeNode.inputTypes (declarationsOf a n ++
      (declarationsOf b n).map fun e => (a.length + e.1, e.2)) m) ↔
        Uniform none (TypeNode.inputTypes (declarationsOf a n) m) ∧
          Uniform none (TypeNode.inputTypes (declarationsOf b n) m) := fun m => by
    rw [TypeNode.inputTypes_append, TypeNode.inputTypes_map]
    rcases h.inputTypes_eq_nil ha n m with hm | hm <;> simp [hm]
  have hfields : ∀ m, FieldNode.AllAgree names (TypeNode.fieldsOf (declarationsOf a n ++
      (declarationsOf b n).map fun e => (a.length + e.1, e.2)) m) ↔
        FieldNode.AllAgree names' (TypeNode.fieldsOf (declarationsOf a n) m) ∧
          FieldNode.AllAgree names'' (TypeNode.fieldsOf (declarationsOf b n) m) := fun m => by
    rw [TypeNode.fieldsOf_append, TypeNode.fieldsOf_map]
    exact FieldNode.allAgree_append_iff _ (h.fieldsOf_eq_nil n m)
  refine (and_congr (h.kinds_append_iff n) (and_congr (forall_congr' hinputs)
    (forall_congr' hfields))).trans ?_
  simp only [forall_and, FieldNode.AllAgree]
  tauto

end Merge

/-! ### Conflicts in the merged graph -/

namespace Graph

section Part

variable {l x r : List Schema} {n m : Name} (h : Unrelated x (l ++ r))

include h

/-- A field of the part is a field of the whole, of a type of the same kind. -/
theorem exists_field_of_ofPart {t : TypeNode} (ht : (ofPart l x r).types.get? n = some t)
    {f : FieldNode} (hf : t.fields.get? m = some f) :
    ∃ t', (ofSchemas (l ++ x ++ r)).types.get? n = some t' ∧ t'.kind = t.kind ∧
      t'.fields.get? m = some f := by
  obtain ⟨e, he, _⟩ := exists_declaresField_of_ofPart ht hf
  obtain ⟨d, hd, _⟩ := id he
  obtain ⟨u, t', hu, ht', hkind, hsame⟩ := exists_types_of_declares h hd
  obtain rfl := Option.some.inj (ht.symm.trans hu)
  exact ⟨t', ht', hkind, (hsame m e he).trans hf⟩

/-- A field of the whole that the part declares is a field of the part. -/
theorem exists_field_ofPart_of_declaresField {e : FieldDeclaration} (he : DeclaresField x n m e)
    {t' : TypeNode} (ht' : (ofSchemas (l ++ x ++ r)).types.get? n = some t') {f : FieldNode}
    (hf : t'.fields.get? m = some f) :
    ∃ t, (ofPart l x r).types.get? n = some t ∧ t.kind = t'.kind ∧ t.fields.get? m = some f := by
  obtain ⟨d, hd, _⟩ := id he
  obtain ⟨t, u, ht, hu, hkind, hsame⟩ := exists_types_of_declares h hd
  obtain rfl := Option.some.inj (ht'.symm.trans hu)
  exact ⟨t, ht, hkind.symm, (hsame m e he).symm.trans hf⟩

end Part

section Both

variable {a b : List Schema} (h : Unrelated a b)

include h

/-- **The fields of both batches** are those of each of them in its place, in types of the same
kinds. -/
theorem forall_fields_append_iff (P : TypeKind → FieldNode → Prop) :
    (∀ n t, (ofSchemas (a ++ b)).types.get? n = some t → ∀ m f, t.fields.get? m = some f →
        P t.kind f) ↔
      (∀ n t, (ofPart [] a b).types.get? n = some t → ∀ m f, t.fields.get? m = some f →
        P t.kind f) ∧
      ∀ n t, (ofPart a b []).types.get? n = some t → ∀ m f, t.fields.get? m = some f →
        P t.kind f := by
  have hb : Unrelated b (a ++ []) := by rw [List.append_nil]; exact h.symm
  have hwhole : a ++ b ++ [] = a ++ b := List.append_nil _
  constructor
  · intro hall
    refine ⟨fun n t ht m f hf => ?_, fun n t ht m f hf => ?_⟩
    · obtain ⟨t', ht', hkind, hf'⟩ := exists_field_of_ofPart (l := []) h ht hf
      exact hkind ▸ hall n t' ht' m f hf'
    · obtain ⟨t', ht', hkind, hf'⟩ := exists_field_of_ofPart hb ht hf
      rw [hwhole] at ht'
      exact hkind ▸ hall n t' ht' m f hf'
  · rintro ⟨hleft, hright⟩ n t' ht' m f hf'
    obtain ⟨e, he, _⟩ := exists_declaresField_of_get?_fields ht' hf'
    rcases declaresField_append_iff.1 he with he | he
    · obtain ⟨t, ht, hkind, hf⟩ :=
        exists_field_ofPart_of_declaresField (l := []) (r := b) h he ht' hf'
      exact hkind ▸ hleft n t ht m f hf
    · rw [← hwhole] at ht'
      obtain ⟨t, ht, hkind, hf⟩ := exists_field_ofPart_of_declaresField hb he ht' hf'
      exact hkind ▸ hright n t ht m f hf

end Both

/-! ### Implementations -/

/-- Whether a type has what an interface of a graph asks for. -/
def Implements (g : Graph) (t : TypeNode) (i : Name) : Prop :=
  ∃ a, g.types.get? i = some a ∧ a.kind = .interface ∧
    ∀ m asked, a.fields.get? m = some asked → ∃ f, t.fields.get? m = some f ∧
      g.admitsType f.definition.type asked.definition.type = true ∧
      ∀ x v, (x, v) ∈ asked.definition.arguments → f.definition.argumentType? x = some v.type

section Part

variable {l x r : List Schema} {n i : Name} {t : TypeNode} {d : TypeDeclaration}

theorem isSubtype_ofPart {super : Name} (hn : Avoids (l ++ r) n) (hsuper : Avoids (l ++ r) super) :
    (ofSchemas (l ++ x ++ r)).isSubtype n super = (ofPart l x r).isSubtype n super := by
  unfold isSubtype
  rw [get?_ofPart hn, get?_ofPart hsuper]

theorem admitsType_ofPart {ref asked : TypeRef} (href : Avoids (l ++ r) ref.innerName)
    (hasked : Avoids (l ++ r) asked.innerName) :
    (ofSchemas (l ++ x ++ r)).admitsType ref asked = (ofPart l x r).admitsType ref asked := by
  induction ref generalizing asked with
  | named n required =>
    cases asked with
    | named super required' =>
      have hsubtype : (ofSchemas (l ++ x ++ r)).isSubtype n super =
          (ofPart l x r).isSubtype n super := isSubtype_ofPart href hasked
      rw [admitsType, admitsType, hsubtype]
    | list u required' => rfl
  | list u required ih =>
    cases asked with
    | named super required' => rfl
    | list u' required' => rw [admitsType, admitsType, @ih u' href hasked]

variable (h : Unrelated x (l ++ r)) (hx : Grounded x) (ho : Grounded (l ++ r))

include h hx

theorem implements_ofPart_iff (ht : (ofPart l x r).types.get? n = some t)
    (hi : Avoids (l ++ r) i) :
    (ofSchemas (l ++ x ++ r)).Implements t i ↔ (ofPart l x r).Implements t i := by
  unfold Implements
  rw [get?_ofPart hi]
  refine exists_congr fun a => and_congr_right fun ha => and_congr_right fun _ =>
    forall₃_congr fun m asked hasked => exists_congr fun f => and_congr_right fun hf => ?_
  rw [admitsType_ofPart (avoids_returns_ofPart h hx ht hf) (avoids_returns_ofPart h hx ha hasked)]

include ho

/-- Neither an implementation in the part nor its interface is declared by the rest. -/
theorem avoids_of_mem_interfaces (hd : Declares x n d) (hi : i ∈ d.interfaces) :
    Avoids (l ++ r) n ∧ Avoids (l ++ r) i := by
  have hinterface : Avoids (l ++ r) i := by
    obtain ⟨e, he, hkind⟩ := hx.interface hd hi
    intro e' he'
    rw [(h.of_declares he he').2.1] at hkind
    cases hkind
  exact ⟨h.avoids_implementation ho hinterface (declares_append_iff.2 (.inl hd)) hi, hinterface⟩

/-- Where nothing is wrong with the implementations in the part, the implementations that it
declares are right in the whole. -/
theorem implements_of_declares (hpart : (ofPart l x r).implementationConflicts = [])
    (hd : Declares x n d) (hid : i ∈ d.interfaces)
    (ht : (ofSchemas (l ++ x ++ r)).types.get? n = some t) (hkind : t.kind.hasFields = true)
    {s : SubgraphSet} (hs : t.interfaces.get? i = some s) :
    (ofSchemas (l ++ x ++ r)).Implements t i := by
  obtain ⟨hn, hi⟩ := avoids_of_mem_interfaces h hx ho hd hid
  rw [get?_ofPart hn] at ht
  exact (implements_ofPart_iff h hx ht hi).2
    (implementationConflicts_eq_nil_iff.1 hpart n t ht hkind i s hs)

/-- Where nothing is wrong with the implementations in the whole, nothing is in the part. -/
theorem implementationConflicts_ofPart
    (hwhole : (ofSchemas (l ++ x ++ r)).implementationConflicts = []) :
    (ofPart l x r).implementationConflicts = [] := by
  refine implementationConflicts_eq_nil_iff.2 fun n t ht hkind i s hs => ?_
  obtain ⟨d, hd, hid⟩ := exists_declares_of_get?_interfaces ht hs
  obtain ⟨hn, hi⟩ := avoids_of_mem_interfaces h hx ho (declares_partOf_iff.1 hd) hid
  refine (implements_ofPart_iff h hx ht hi).1 ?_
  rw [← get?_ofPart hn] at ht
  exact implementationConflicts_eq_nil_iff.1 hwhole n t ht hkind i s hs

end Part

/-- **Implementations in both batches** are those in each of them in its place. -/
theorem implementationConflicts_append_eq_nil_iff {a b : List Schema} (h : Unrelated a b)
    (ha : Grounded a) (hb : Grounded b) :
    (ofSchemas (a ++ b)).implementationConflicts = [] ↔
      (ofPart [] a b).implementationConflicts = [] ∧
        (ofPart a b []).implementationConflicts = [] := by
  have hright : Unrelated b (a ++ []) := by rw [List.append_nil]; exact h.symm
  have ha' : Grounded (a ++ []) := by rw [List.append_nil]; exact ha
  have hwhole : a ++ b ++ [] = a ++ b := List.append_nil _
  constructor
  · intro hnil
    refine ⟨implementationConflicts_ofPart (l := []) h ha hb hnil, ?_⟩
    rw [← hwhole] at hnil
    exact implementationConflicts_ofPart hright hb ha' hnil
  · rintro ⟨hl, hr⟩
    refine implementationConflicts_eq_nil_iff.2 fun n t ht hkind i s hs => ?_
    obtain ⟨d, hd, hid⟩ := exists_declares_of_get?_interfaces ht hs
    rcases declares_append_iff.1 hd with hd | hd
    · exact implements_of_declares (l := []) h ha hb hl hd hid ht hkind hs
    · rw [← hwhole] at ht ⊢
      exact implements_of_declares hright hb ha' hr hd hid ht hkind hs

/-! ### A batch by itself and in its place -/

section Place

variable {l x r : List Schema} (hnames : ((l ++ x ++ r).map (·.name)).Nodup)

include hnames

theorem baseConflicts_ofPart_eq_nil_iff :
    (ofPart l x r).baseConflicts = [] ↔ (ofSchemas x).baseConflicts = [] :=
  ⟨(renumbered_ofPart hnames).symm.baseConflicts_eq_nil,
    (renumbered_ofPart hnames).baseConflicts_eq_nil⟩

theorem sharingConflicts_ofPart_eq_nil_iff :
    (ofPart l x r).sharingConflicts = [] ↔ (ofSchemas x).sharingConflicts = [] :=
  ⟨(renumbered_ofPart hnames).symm.sharingConflicts_eq_nil,
    (renumbered_ofPart hnames).sharingConflicts_eq_nil⟩

theorem implementationConflicts_ofPart_eq_nil_iff (hargs : (ofSchemas x).DistinctArguments) :
    (ofPart l x r).implementationConflicts = [] ↔ (ofSchemas x).implementationConflicts = [] := by
  have hg := renumbered_ofPart hnames
  have hargs' : (ofPart l x r).DistinctArguments := by
    intro n t' m f' ht' hf'
    obtain ⟨t, ht, hrel⟩ := hg.symm.exists_type ht'
    obtain ⟨f, hf, _⟩ := hrel.exists_field hf'
    rw [definition_ofPart ht ht' hf hf']
    exact hargs ht hf
  have hsame : (ofSchemas x).SameArguments (ofPart l x r) := by
    intro n t t' m f f' ht ht' hf hf' y
    rw [definition_ofPart ht ht' hf hf']
  have hsame' : (ofPart l x r).SameArguments (ofSchemas x) :=
    fun n t t' m f f' ht ht' hf hf' y => (hsame ht' ht hf' hf y).symm
  exact ⟨(hg.symm.alike hsame').implementationConflicts_eq_nil hargs' hargs,
    (hg.alike hsame).implementationConflicts_eq_nil hargs hargs'⟩

end Place

end Graph

/-- **Conflicts of unrelated batches**: both together are without conflicts exactly when each of
them is. -/
theorem conflicts_append_eq_nil_iff {a b : List Schema} (h : Unrelated a b) (ha : Grounded a)
    (hb : Grounded b) (hna : Normalized a) (hnb : Normalized b)
    (hnames : ((a ++ b).map (·.name)).Nodup) :
    conflicts (a ++ b) = [] ↔ conflicts a = [] ∧ conflicts b = [] := by
  have hright : ((a ++ b ++ []).map fun s : Schema => s.name).Nodup := by rwa [List.append_nil]
  -- A kind of conflict that is found in the finished graph is compared by moving each batch to its
  -- place in the joint one, where types of the other batch make no difference.
  have hbase : (Graph.ofSchemas (a ++ b)).baseConflicts = [] ↔
      (Graph.ofSchemas a).baseConflicts = [] ∧ (Graph.ofSchemas b).baseConflicts = [] := by
    rw [← Graph.baseConflicts_ofPart_eq_nil_iff (l := []) (r := b) hnames,
      ← Graph.baseConflicts_ofPart_eq_nil_iff hright]
    simp only [Graph.baseConflicts_eq_nil_iff]
    exact Graph.forall_fields_append_iff h fun k f => k = .object → f.resolvers.isEmpty = false
  have hsharing : (Graph.ofSchemas (a ++ b)).sharingConflicts = [] ↔
      (Graph.ofSchemas a).sharingConflicts = [] ∧ (Graph.ofSchemas b).sharingConflicts = [] := by
    rw [← Graph.sharingConflicts_ofPart_eq_nil_iff (l := []) (r := b) hnames,
      ← Graph.sharingConflicts_ofPart_eq_nil_iff hright]
    simp only [Graph.sharingConflicts_eq_nil_iff]
    exact Graph.forall_fields_append_iff h fun k f => k = .object → 2 ≤ f.resolvers.size →
      ∀ i ∈ f.resolvers, i ∈ f.shareableIn
  have himplementation : (Graph.ofSchemas (a ++ b)).implementationConflicts = [] ↔
      (Graph.ofSchemas a).implementationConflicts = [] ∧
        (Graph.ofSchemas b).implementationConflicts = [] := by
    rw [Graph.implementationConflicts_append_eq_nil_iff h ha hb,
      Graph.implementationConflicts_ofPart_eq_nil_iff hnames hna.distinctArguments,
      Graph.implementationConflicts_ofPart_eq_nil_iff hright hnb.distinctArguments]
  simp only [conflicts_eq_nil_iff]
  rw [mergeConflicts_append_eq_nil_iff h ha, hbase, hsharing, himplementation]
  constructor
  · rintro ⟨⟨hma, hmb⟩, ⟨hba, hbb⟩, ⟨hsa, hsb⟩, hia, hib⟩
    exact ⟨⟨hma, hba, hsa, hia⟩, hmb, hbb, hsb, hib⟩
  · rintro ⟨⟨hma, hba, hsa, hia⟩, hmb, hbb, hsb, hib⟩
    exact ⟨⟨hma, hmb⟩, ⟨hba, hbb⟩, ⟨hsa, hsb⟩, hia, hib⟩

end Federation
