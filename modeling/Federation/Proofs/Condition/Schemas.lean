import Federation.Composition
import Federation.Proofs.Condition.Documents
import Federation.Proofs.Subgraph.Lookups

/-!
# Conditions and the checks of a subgraph

A field set fits the types that it selects from whether or not it stands behind a condition on the
type itself (`misfit?_condition`), so a directive is read alike with and without the condition
(`Directive.Conditioned.fieldSetOf`), and what is wrong with it is the same.  What is read are the
same keys and annotations, but for the condition (`ConditionedTypes.annotate`).

The schemas of batches that differ in conditions differ in conditions, and the same is wrong with
their subgraphs (`ConditionedBatch.schemas?`).
-/

namespace Federation

section Types

variable {sites : List String} {types types' : Table TypeDeclaration}
  (ht : ConditionedTypes sites types types')

include ht

/-- Conditions are nothing that is looked up. -/
theorem ConditionedTypes.lookAlike : LookAlike types types' := fun n =>
  rel_imp (ht.get? n) fun _ _ htt =>
    ⟨htt.kind, fun m => rel_imp (htt.fields.get? m) fun _ _ hf => hf.definition.type⟩

/-! ### References -/

theorem fieldReferenceFaults_eq (type field : Name) {f f' : FieldDefinition}
    {site : Name → String → Option Name} (hf : FieldDefinition.Conditioned site f f') :
    fieldReferenceFaults types' type field f' = fieldReferenceFaults types type field f := by
  rw [ht.lookAlike.fieldReferenceFaults_eq]
  simp only [fieldReferenceFaults, hf.type, hf.arguments]

theorem referenceFaults_eq : referenceFaults types' = referenceFaults types := by
  refine ht.flatMap_entries_eq fun n t t' h => ?_
  have hfields : t'.fields.entries.flatMap
        (fun f => fieldReferenceFaults types' n f.1 f.2.definition) =
      t.fields.entries.flatMap fun f => fieldReferenceFaults types n f.1 f.2.definition :=
    h.fields.flatMap_entries_eq fun m f f' hf => fieldReferenceFaults_eq ht n m hf.definition
  simp only [typeReferenceFaults, h.kind, h.fields.isEmpty_eq, hfields, h.interfaces, h.members,
    h.inputs, ht.lookAlike.kindOf?_eq, ht.lookAlike.inputFaults_eq]

/-! ### Field sets -/

omit ht in
/-- A condition on the type itself makes no difference to whether a field set fits. -/
theorem misfit?_condition {T : Name} (hT : isCompositeType types T = true) (F : FieldSet) :
    misfit? types T (.fragment (some T) F .empty) = misfit? types T F := by
  rw [misfit?, Option.getD_some, if_pos hT, misfit?, Option.or_none]

theorem selectionFault?_eq {site : Option Name} {parent : Name}
    (hsite : ∀ T, site = some T → T = parent ∧ isCompositeType types T = true)
    {F F' : FieldSet} (h : FieldSet.Conditioned site F F') :
    selectionFault? types' parent F' = selectionFault? types parent F := by
  rw [selectionFault?, selectionFault?, ht.contains_eq, ht.lookAlike.misfit?_eq]
  rcases h with rfl | ⟨T, hT, rfl⟩
  · rfl
  · obtain ⟨rfl, hcomposite⟩ := hsite T hT
    rw [misfit?_condition hcomposite]

/-- **A directive is read alike with a condition on the type from which it selects.** -/
theorem Directive.Conditioned.fieldSetOf {site : String → Option Name} {d d' : Directive}
    (h : Directive.Conditioned site d d') (part : Coordinate) (target : Name)
    (hsite : ∀ T, site (canonicalName d.name) = some T →
      T = target ∧ isCompositeType types T = true) :
    ResultRel (FieldSet.Conditioned (site (canonicalName d.name)))
      (Federation.fieldSetOf types part target d)
      (Federation.fieldSetOf types' part target d') := by
  -- Both sources are read, or neither is there or fit to be read.
  have hread : ∀ {source source' : String} {F F' : FieldSet},
      (d.argument? "fields").bind Value.text? = some source →
      (d'.argument? "fields").bind Value.text? = some source' →
      FieldSet.ofText? source = .ok F → FieldSet.ofText? source' = .ok F' →
      FieldSet.Conditioned (site (canonicalName d.name)) F F' →
      ResultRel (FieldSet.Conditioned (site (canonicalName d.name)))
        (Federation.fieldSetOf types part target d)
        (Federation.fieldSetOf types' part target d') := by
    intro source source' F F' hs hs' hF hF' hFF
    have hfault := selectionFault?_eq ht hsite hFF
    simp only [Federation.fieldSetOf, hs, hs', hF, hF', hfault, h.name_eq]
    cases selectionFault? types target F with
    | none => exact .ok hFF
    | some fault => exact .error _
  rcases h with rfl | ⟨T, hT, hw⟩
  · cases hs : (d'.argument? "fields").bind Value.text? with
    | none =>
      simp only [Federation.fieldSetOf, hs]
      exact .error _
    | some source =>
      cases hF : FieldSet.ofText? source with
      | error fault =>
        simp only [Federation.fieldSetOf, hs, hF]
        exact .error _
      | ok F => exact hread hs hs hF hF (.refl _ F)
  · obtain ⟨F, hF, hF'⟩ := hw.fields
    obtain ⟨source, hs, hF⟩ := Option.bind_eq_some_iff.1 hF
    obtain ⟨source', hs', hF'⟩ := Option.bind_eq_some_iff.1 hF'
    exact hread hs hs' (eq_ok_of_toOption hF) (eq_ok_of_toOption hF') (.inr ⟨T, hT, rfl⟩)

/-! ### Keys -/

/-- The type from which a key selects is composite where keys are read. -/
theorem keysOf_conditioned {type : Name} {t t' : TypeDeclaration}
    (htype : types.get? type = some t) (h : TypeDeclaration.Conditioned sites type t t') :
    List.Forall₂ (ResultRel (EntityKey.Conditioned (keySite sites type "key")))
      (keysOf types type t) (keysOf types' type t') := by
  unfold keysOf
  rw [h.kind]
  split
  · rename_i hfields
    -- Only objects and interfaces have keys, so the condition may stand on the type.
    have hcomposite : isCompositeType types type = true := by
      rw [isCompositeType, kindOf?, htype, Option.map_some, Option.any_some]
      cases hk : t.kind <;> rw [hk] at hfields <;> first | rfl | cases hfields
    have hkeys := forall₂_filter_and (p := fun d => canonicalName d.name == "key")
      (q := fun d => canonicalName d.name == "key") h.directives
      fun d d' hd => by rw [hd.name_eq]
    refine forall₂_map hkeys fun d d' hd => ?_
    obtain ⟨hd, hname⟩ := hd
    have hname : canonicalName d.name = "key" := eq_of_beq hname
    have hread := hd.fieldSetOf ht (.type type) type (by
      intro T hT
      simp only [keySite, Option.ite_none_right_eq_some, Option.some.injEq] at hT
      obtain ⟨_, rfl⟩ := hT
      exact ⟨rfl, hcomposite⟩)
    rw [hname] at hread
    unfold keyOf
    rw [hd.argument?_eq (by decide : "resolvable" ≠ "fields")]
    generalize fieldSetOf types (.type type) type d = r,
      fieldSetOf types' (.type type) type d' = r' at hread ⊢
    cases hread with
    | error fault => exact .error fault
    | ok hF =>
      cases d.argument? "resolvable" with
      | none => exact .ok ⟨rfl, hF⟩
      | some v => cases v <;> first | exact .error _ | exact .ok ⟨rfl, hF⟩
  · exact .nil

/-! ### Fields -/

theorem Directive.Conditioned.providesOf {T : Name} {d d' : Directive} {returns : Name}
    (h : Directive.Conditioned (fieldSite sites T returns) d d')
    (hname : canonicalName d.name = "provides") (part : Coordinate) :
    ResultRel (FieldSet.Conditioned (fieldSite sites T returns "provides"))
      (Federation.providesOf types part returns d)
      (Federation.providesOf types' part returns d') := by
  unfold Federation.providesOf
  rw [ht.lookAlike.isCompositeType_eq]
  split
  · rename_i hcomposite
    have hread := h.fieldSetOf ht part returns (by
      intro U hU
      rw [hname, fieldSite, if_neg (fun h => absurd h.2 (by decide))] at hU
      simp only [Option.ite_none_right_eq_some, Option.some.injEq] at hU
      obtain ⟨_, rfl⟩ := hU
      exact ⟨rfl, hcomposite⟩)
    rwa [hname] at hread
  · exact .error _

theorem Directive.Conditioned.requiresOf {T : Name} {d d' : Directive} {returns : Name}
    (h : Directive.Conditioned (fieldSite sites T returns) d d')
    (hname : canonicalName d.name = "requires") (hT : isCompositeType types T = true)
    (part : Coordinate) :
    ResultRel (FieldSet.Conditioned (fieldSite sites T returns "requires"))
      (Federation.fieldSetOf types part T d) (Federation.fieldSetOf types' part T d') := by
  have hread := h.fieldSetOf ht part T (by
    intro U hU
    rw [hname, fieldSite, if_neg (c := _ ∧ "requires" = "provides")
      (fun h => absurd h.2 (by decide))] at hU
    simp only [Option.ite_none_right_eq_some, Option.some.injEq] at hU
    obtain ⟨_, rfl⟩ := hU
    exact ⟨rfl, hT⟩)
  rwa [hname] at hread

omit ht in
theorem Directive.Conditioned.overrideOf_eq {site : String → Option Name} {d d' : Directive}
    (h : Directive.Conditioned site d d') (subgraph : String) (part : Coordinate) :
    overrideOf subgraph part d' = overrideOf subgraph part d := by
  rw [overrideOf, overrideOf, h.argument?_eq (by decide)]

omit ht in
/-- What the first directive of a name declares is related if what each declares is. -/
theorem firstRead?_conditioned {α : Type} {R : α → α → Prop} {site : String → Option Name}
    {name : String} {read read' : Directive → Except Fault α} {ds ds' : List Directive}
    (h : Conditions site ds ds') (hread : ∀ d d', Directive.Conditioned site d d' →
      canonicalName d.name = name → ResultRel R (read d) (read' d')) :
    Option.Rel R (firstRead? name read ds) (firstRead? name read' ds') := by
  refine rel_findSome? h fun d d' hd => ?_
  rw [hd.name_eq]
  split
  · rename_i hname
    exact (hread d d' hd (eq_of_beq hname)).toOption
  · exact .none

theorem annotateField_conditioned (subgraph : String) {kind : TypeKind} {T m : Name}
    (hT : kind = .object → isCompositeType types T = true) {f f' : FieldDeclaration}
    (h : FieldDeclaration.Conditioned sites T f f') :
    FieldDeclaration.Conditioned sites T (annotateField types subgraph kind T m f)
      (annotateField types' subgraph kind T m f') := by
  unfold annotateField
  split
  · rename_i hkind
    have hds := h.definition.directives
    refine ⟨h.definition, h.shareable, h.external, ?_, ?_, ?_⟩
    · show Option.Rel _ (firstRead? _ _ _) (firstRead? _ _ _)
      rw [h.definition.type]
      exact firstRead?_conditioned hds fun d d' hd hname => hd.providesOf ht hname _
    · exact firstRead?_conditioned hds fun d d' hd hname => hd.requiresOf ht hname (hT hkind) _
    · refine findSome?_eq_of_forall₂ hds fun d d' hd => ?_
      rw [hd.name_eq, hd.overrideOf_eq]
  · exact h

/-- What is wrong with a directive is the same with and without a condition. -/
theorem annotationFaults_eq (subgraph : String) {T m : Name}
    (hT : isCompositeType types T = true) {f f' : FieldDefinition}
    (hf : FieldDefinition.Conditioned (fieldSite sites T) f f') {d d' : Directive}
    (h : Directive.Conditioned (fieldSite sites T f.type.innerName) d d') :
    annotationFaults types' subgraph T m f' d' = annotationFaults types subgraph T m f d := by
  unfold annotationFaults
  rw [h.name_eq, hf.type]
  split
  · rename_i hname
    exact ResultRel.errors_eq (.cons (h.providesOf ht hname _) .nil)
  · rename_i hname
    exact ResultRel.errors_eq (.cons (h.requiresOf ht hname hT _) .nil)
  · exact congrArg (fun r => errors [r]) (h.overrideOf_eq _ _)
  · rfl

/-! ### Types -/

omit ht in
theorem isCompositeType_of_object {T : Name} {t : TypeDeclaration} (htype : types.get? T = some t)
    (hkind : t.kind = .object) : isCompositeType types T = true := by
  rw [isCompositeType, kindOf?, htype, Option.map_some, hkind]
  rfl

/-- Declarations that differ in conditions are annotated with what differs in conditions. -/
theorem ConditionedTypes.annotate (subgraph : String) :
    ConditionedTypes sites (Federation.annotate types subgraph)
      (Federation.annotate types' subgraph) := by
  refine ht.with_get?.mapEntries fun n t t' h => ?_
  obtain ⟨htype, _, h⟩ := h
  refine { h with fields := ?_, keys := ResultRel.oks (keysOf_conditioned ht htype h) }
  refine h.fields.mapEntries fun m f f' hf => ?_
  rw [h.kind]
  exact annotateField_conditioned ht subgraph (isCompositeType_of_object htype) hf

theorem fieldDirectiveFaults_eq (subgraph : String) {kind : TypeKind} {T m : Name}
    (hT : kind = .object → isCompositeType types T = true) {f f' : FieldDefinition}
    (hf : FieldDefinition.Conditioned (fieldSite sites T) f f') :
    fieldDirectiveFaults types' subgraph kind T m f' =
      fieldDirectiveFaults types subgraph kind T m f := by
  unfold fieldDirectiveFaults
  rw [hf.directives.placementFaults_eq, hf.arguments]
  congr 1
  split
  · rename_i hkind
    exact flatMap_eq_of_forall₂ hf.directives fun d d' hd =>
      annotationFaults_eq ht subgraph (hT hkind) hf hd
  · rfl

theorem directiveFaults_eq (subgraph : String) :
    directiveFaults types' subgraph = directiveFaults types subgraph := by
  refine ht.with_get?.flatMap_entries_eq fun n t t' h => ?_
  obtain ⟨htype, _, h⟩ := h
  have hfields : t'.fields.entries.flatMap
        (fun f => fieldDirectiveFaults types' subgraph t.kind n f.1 f.2.definition) =
      t.fields.entries.flatMap fun f =>
        fieldDirectiveFaults types subgraph t.kind n f.1 f.2.definition :=
    h.fields.flatMap_entries_eq fun m f f' hf =>
      fieldDirectiveFaults_eq ht subgraph (isCompositeType_of_object htype) hf.definition
  show typeDirectiveFaults types' subgraph n t' = typeDirectiveFaults types subgraph n t
  rw [typeDirectiveFaults, typeDirectiveFaults, h.directives.placementFaults_eq,
    ResultRel.errors_eq (keysOf_conditioned ht htype h), h.kind, hfields, h.values, h.inputs]

end Types

theorem TypeDeclaration.Conditioned.appliedDirectives {sites : List String} {T : Name}
    {t t' : TypeDeclaration} (h : TypeDeclaration.Conditioned sites T t t') :
    List.Forall₂ (fun d d' : Directive => d'.name = d.name) t.appliedDirectives
      t'.appliedDirectives := by
  have hrefl : ∀ ds : List Directive, List.Forall₂ (fun d d' : Directive => d'.name = d.name)
      ds ds := fun ds => List.forall₂_same.2 fun _ _ => rfl
  unfold TypeDeclaration.appliedDirectives
  rw [h.values, h.inputs]
  refine List.rel_append (List.rel_append (List.rel_append h.directives.names ?_) (hrefl _))
    (hrefl _)
  refine forall₂_flatMap h.fields.values fun f f' hf => ?_
  obtain ⟨_, hf⟩ := hf
  rw [hf.definition.arguments]
  exact List.rel_append hf.definition.directives.names (hrefl _)

/-! ### Schemas -/

namespace Document.Conditioned

variable {sites : List String} {d d' : Document} (h : Document.Conditioned sites d d')

include h

theorem faults_eq (subgraph : String) : d'.faults subgraph = d.faults subgraph := by
  rw [faults, faults, h.schemaFaults_eq, ResultRel.errors_eq h.blocks, h.assembly.faults,
    referenceFaults_eq h.declarations, directiveFaults_eq h.declarations]

theorem version_eq : d'.version = d.version := by
  have hneed : d'.declarations.values.any (fun t => needVersion2 t.appliedDirectives) =
      d.declarations.values.any fun t => needVersion2 t.appliedDirectives :=
    any_eq_of_forall₂ h.declarations.values fun t t' ht =>
      needVersion2_congr ht.choose_spec.appliedDirectives
  rw [version, version, h.schemaDirectives_eq, hneed]

end Document.Conditioned

/-- A subgraph whose document may have got conditions. -/
structure Subgraph.Conditioned (sites : List String) (s s' : Subgraph) : Prop where
  name : s'.name = s.name
  url : s'.url = s.url
  document : Document.Conditioned sites s.document s'.document

/-- A batch whose documents may have got conditions. -/
def ConditionedBatch (sites : List String) : List Subgraph → List Subgraph → Prop :=
  List.Forall₂ (Subgraph.Conditioned sites)

instance (sites : List String) (s s' : Subgraph) : Decidable (Subgraph.Conditioned sites s s') :=
  decidable_of_iff (s'.name = s.name ∧ s'.url = s.url ∧
      Document.Conditioned sites s.document s'.document)
    ⟨fun ⟨hn, hu, hd⟩ => ⟨hn, hu, hd⟩, fun h => ⟨h.name, h.url, h.document⟩⟩

instance (sites : List String) (batch batch' : List Subgraph) :
    Decidable (ConditionedBatch sites batch batch') :=
  inferInstanceAs (Decidable (List.Forall₂ _ batch batch'))

/-- A schema whose keys and annotations may have got conditions. -/
structure Schema.Conditioned (sites : List String) (s s' : Schema) : Prop where
  name : s'.name = s.name
  url : s'.url = s.url
  version : s'.version = s.version
  types : ConditionedTypes sites s.types s'.types

theorem Subgraph.Conditioned.schema? {sites : List String} {s s' : Subgraph}
    (h : Subgraph.Conditioned sites s s') :
    ResultRel (Schema.Conditioned sites) s.schema? s'.schema? := by
  simp only [Subgraph.schema?, h.name, h.document.faults_eq]
  split
  · refine .ok ⟨rfl, h.url, h.document.version_eq, ?_⟩
    exact h.document.declarations.annotate s.name
  · exact .error _

namespace ConditionedBatch

variable {sites : List String} {batch batch' : List Subgraph}
  (h : ConditionedBatch sites batch batch')

include h

theorem nameFaults_eq (position : Nat) (seen : List String) :
    nameFaults position seen batch' = nameFaults position seen batch := by
  induction h generalizing position seen with
  | nil => rfl
  | cons hs _ ih =>
    rw [nameFaults, nameFaults, hs.name]
    simp only [ih]

theorem batchErrors_eq : batchErrors batch' = batchErrors batch := by
  have hfaults : batch'.flatMap (fun s => faultErrors s (s.document.faults s.name)) =
      batch.flatMap fun s => faultErrors s (s.document.faults s.name) :=
    flatMap_eq_of_forall₂ h fun s s' hs => by
      rw [faultErrors, faultErrors, hs.name, hs.document.faults_eq]
  rw [batchErrors, batchErrors, h.nameFaults_eq, hfaults]

/-- **The checks of subgraphs do not see conditions on the type itself**: the same is wrong with
the batches, or their schemas differ in conditions. -/
theorem schemas? : ResultRel (List.Forall₂ (Schema.Conditioned sites)) (Federation.schemas? batch)
    (Federation.schemas? batch') := by
  simp only [Federation.schemas?, h.batchErrors_eq]
  split
  · exact .ok (ResultRel.oks (forall₂_map h fun _ _ hs => hs.schema?))
  · exact .error _

end ConditionedBatch

end Federation
