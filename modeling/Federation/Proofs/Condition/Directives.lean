import Federation.Proofs.FieldSet.RoundTrip
import Federation.Proofs.Related
import Federation.Subgraph.Contribution

/-!
# Conditions on the type itself

A `@key`, `@requires` or `@provides` carries a field set that selects from a type.  The same field
set may be written behind a condition on that very type, `... on T { id }` for `id`
(`FieldSet.Conditioned`, `Directive.Conditioned`), at any number of places.

Which type that is depends on where the directive stands: a `site` answers it for the canonical name
of the directive.  Everything that is read off applied directives but their field sets is the same
with and without the condition: which directives there are (`hasDirective_eq`), where they may stand
(`placementFaults_eq`), what version they need (`needVersion2_congr`), and what the supergraph keeps
of them (`persistedDirectives_eq`).
-/

namespace Federation

/-! ### Field sets -/

/-- A field set as it is, or behind a condition on the type that it selects from. -/
def FieldSet.Conditioned (site : Option Name) (F F' : FieldSet) : Prop :=
  F' = F ∨ ∃ T, site = some T ∧ F' = .fragment (some T) F .empty

theorem FieldSet.Conditioned.refl (site : Option Name) (F : FieldSet) :
    FieldSet.Conditioned site F F := .inl rfl

/-- Where no condition may be written, none is. -/
theorem FieldSet.Conditioned.eq_of_none {F F' : FieldSet} (h : FieldSet.Conditioned none F F') :
    F' = F := by
  rcases h with h | ⟨_, hT, _⟩
  · exact h
  · cases hT

/-- A key as it is, or with its field set behind a condition. -/
structure EntityKey.Conditioned (site : Option Name) (k k' : EntityKey) : Prop where
  resolvable : k'.resolvable = k.resolvable
  fields : FieldSet.Conditioned site k.fields k'.fields

theorem EntityKey.Conditioned.refl (site : Option Name) (k : EntityKey) :
    EntityKey.Conditioned site k k := ⟨rfl, .refl site k.fields⟩

/-! ### Where field sets are carried -/

/-- The type from which a directive that is applied to a type selects, among the directives in
`sites`. -/
def keySite (sites : List String) (type : Name) (directive : String) : Option Name :=
  if directive ∈ sites ∧ directive = "key" then some type else none

/-- The type from which a directive that is applied to a field selects, among the directives in
`sites`: the type of the field for what is required, and the type that it returns for what is
provided. -/
def fieldSite (sites : List String) (type returns : Name) (directive : String) : Option Name :=
  if directive ∈ sites ∧ directive = "requires" then some type
  else if directive ∈ sites ∧ directive = "provides" then some returns
  else none

/-- Whether nothing but the directives that carry field sets have a site. -/
def OnlyFieldSets (site : String → Option Name) : Prop :=
  ∀ s T, site s = some T → s ∈ ["key", "requires", "provides"]

theorem onlyFieldSets_keySite (sites : List String) (type : Name) :
    OnlyFieldSets (keySite sites type) := by
  intro s T h
  simp only [keySite, Option.ite_none_right_eq_some] at h
  simp [h.1.2]

theorem onlyFieldSets_fieldSite (sites : List String) (type returns : Name) :
    OnlyFieldSets (fieldSite sites type returns) := by
  intro s T h
  unfold fieldSite at h
  split at h
  · rename_i hs
    simp [hs.2]
  · split at h
    · rename_i hs
      simp [hs.2]
    · cases h

/-! ### Directives -/

/-- The field set that a directive carries, if there is one to be read. -/
def Directive.fieldSet? (d : Directive) : Option FieldSet :=
  ((d.argument? "fields").bind Value.text?).bind fun source =>
    (FieldSet.ofText? source).toOption

/-- The same directive, but for a condition on a type around all that its field set selects. -/
structure Directive.Wraps (T : Name) (d d' : Directive) : Prop where
  name : d'.name = d.name
  others : (d'.arguments.filter fun a => a.1.text != "fields") =
    d.arguments.filter fun a => a.1.text != "fields"
  fields : ∃ F ∈ d.fieldSet?, d'.fieldSet? = some (.fragment (some T) F .empty)

instance (T : Name) (d d' : Directive) : Decidable (Directive.Wraps T d d') :=
  decidable_of_iff (d'.name = d.name ∧ ((d'.arguments.filter fun a => a.1.text != "fields") =
      d.arguments.filter fun a => a.1.text != "fields") ∧
      ∃ F ∈ d.fieldSet?, d'.fieldSet? = some (.fragment (some T) F .empty))
    ⟨fun h => ⟨h.1, h.2.1, h.2.2⟩, fun h => ⟨h.name, h.others, h.fields⟩⟩

/-- A directive with another text for its field set. -/
def Directive.withFields (d : Directive) (source : String) : Directive :=
  { d with
    arguments := d.arguments.map fun a =>
      if a.1.text = "fields" then (a.1, .string source) else a }

theorem Directive.others_withFields (d : Directive) (source : String) :
    ((d.withFields source).arguments.filter fun a => a.1.text != "fields") =
      d.arguments.filter fun a => a.1.text != "fields" := by
  unfold withFields
  induction d.arguments with
  | nil => rfl
  | cons a as ih => by_cases ha : a.1.text = "fields" <;> simp [ha, ih]

theorem Directive.argument?_withFields (d : Directive) (source : String) :
    (d.withFields source).argument? "fields" =
      (d.argument? "fields").map fun _ => .string source := by
  unfold withFields argument?
  induction d.arguments with
  | nil => rfl
  | cons a as ih =>
    by_cases ha : a.1.text = "fields"
    · simp [ha]
    · simpa [ha, -List.find?_map, -Option.map_map] using ih

/-- **Every field set that can be read can be put behind a condition.** -/
theorem Directive.wraps_withFields {d : Directive} {F : FieldSet} (h : d.fieldSet? = some F)
    (T : Name) :
    Directive.Wraps T d (d.withFields (FieldSet.fragment (some T) F .empty).render) := by
  obtain ⟨source, hsource, hF⟩ := Option.bind_eq_some_iff.1 h
  obtain ⟨v, hv, _⟩ := Option.bind_eq_some_iff.1 hsource
  have hread := eq_ok_of_toOption hF
  have hproper : (FieldSet.fragment (some T) F .empty).Proper :=
    ⟨FieldSet.ne_empty_of_ofText? hread, FieldSet.proper_of_ofText? hread, trivial⟩
  refine ⟨rfl, d.others_withFields _, F, h, ?_⟩
  rw [fieldSet?, argument?_withFields, hv, Option.map_some, Option.bind_some, Value.text?,
    Option.bind_some, FieldSet.ofText?_render_of_proper hproper nofun]
  rfl

/-- A directive as it is, or with its field set behind a condition on the type from which it
selects. -/
def Directive.Conditioned (site : String → Option Name) (d d' : Directive) : Prop :=
  d' = d ∨ ∃ T ∈ site (canonicalName d.name), Directive.Wraps T d d'

instance (site : String → Option Name) (d d' : Directive) :
    Decidable (Directive.Conditioned site d d') :=
  inferInstanceAs (Decidable (_ ∨ _))

/-- Applied directives, each as it is or with its field set behind a condition. -/
def Conditions (site : String → Option Name) : List Directive → List Directive → Prop :=
  List.Forall₂ (Directive.Conditioned site)

instance (site : String → Option Name) (ds ds' : List Directive) :
    Decidable (Conditions site ds ds') :=
  inferInstanceAs (Decidable (List.Forall₂ _ ds ds'))

theorem Directive.Conditioned.name_eq {site : String → Option Name} {d d' : Directive}
    (h : Directive.Conditioned site d d') : d'.name = d.name := by
  rcases h with rfl | ⟨_, _, h⟩
  · rfl
  · exact h.name

theorem Directive.Conditioned.mono {site site' : String → Option Name} {d d' : Directive}
    (h : Directive.Conditioned site d d') (hsite : ∀ s T, site s = some T → site' s = some T) :
    Directive.Conditioned site' d d' := by
  rcases h with h | ⟨T, hT, h⟩
  · exact .inl h
  · exact .inr ⟨T, hsite _ T hT, h⟩

theorem Directive.argument?_filter (d : Directive) {k : String} (hk : k ≠ "fields") :
    ((d.arguments.filter fun a => a.1.text != "fields").find? fun a => a.1.text == k).map Prod.snd =
      d.argument? k := by
  rw [List.find?_filter, argument?]
  congr 2
  funext a
  rw [Bool.eq_iff_iff]
  simp only [bne_iff_ne, beq_iff_eq, decide_eq_true_eq, and_iff_right_iff_imp]
  rintro rfl
  exact hk

/-- A directive whose arguments are read one by one, its field set apart, is read as before. -/
theorem Directive.Conditioned.argument?_eq {site : String → Option Name} {d d' : Directive}
    (h : Directive.Conditioned site d d') {k : String} (hk : k ≠ "fields") :
    d'.argument? k = d.argument? k := by
  rcases h with rfl | ⟨_, _, h⟩
  · rfl
  · rw [← argument?_filter d' hk, h.others, argument?_filter d hk]

/-- A directive that carries no field set is as it was. -/
theorem Directive.Conditioned.eq_of_notMem {site : String → Option Name} {d d' : Directive}
    (h : Directive.Conditioned site d d') (hsite : OnlyFieldSets site)
    (hname : canonicalName d.name ∉ ["key", "requires", "provides"]) : d' = d := by
  rcases h with h | ⟨T, hT, _⟩
  · exact h
  · exact absurd (hsite _ T hT) hname

theorem DirectiveRule.of?_congr {d d' : Directive} (h : d'.name = d.name) :
    DirectiveRule.of? d' = DirectiveRule.of? d := by
  rw [of?, of?, h]

section Names

variable {ds ds' : List Directive} (h : List.Forall₂ (fun d d' => d'.name = d.name) ds ds')

include h

/-- The version that directives need depends on nothing but their names. -/
theorem needVersion2_congr : needVersion2 ds' = needVersion2 ds :=
  any_eq_of_forall₂ h fun _ _ hd => by rw [DirectiveRule.of?_congr hd]

theorem hasDirective_congr (name : String) : hasDirective ds' name = hasDirective ds name :=
  any_eq_of_forall₂ h fun _ _ hd => by rw [hd]

/-- Where directives may stand depends on nothing but their names. -/
theorem placementFaults_congr (target : DirectiveTarget) (part : Coordinate)
    (applied : List String) :
    placementFaults target part applied ds' = placementFaults target part applied ds := by
  induction h generalizing applied with
  | nil => rfl
  | cons hd _ ih =>
    rw [placementFaults, placementFaults, DirectiveRule.of?_congr hd]
    simp only [ih]

end Names

namespace Conditions

variable {site : String → Option Name} {ds ds' : List Directive}

theorem refl (site : String → Option Name) (ds : List Directive) : Conditions site ds ds :=
  List.forall₂_same.2 fun _ _ => .inl rfl

theorem append {es es' : List Directive} (h : Conditions site ds ds')
    (he : Conditions site es es') : Conditions site (ds ++ es) (ds' ++ es') :=
  List.rel_append h he

theorem mono {site' : String → Option Name} (h : Conditions site ds ds')
    (hsite : ∀ s T, site s = some T → site' s = some T) : Conditions site' ds ds' :=
  List.Forall₂.imp (fun _ _ hd => hd.mono hsite) h

variable (h : Conditions site ds ds')

include h

theorem names : List.Forall₂ (fun d d' => d'.name = d.name) ds ds' :=
  h.imp fun _ _ hd => hd.name_eq

theorem hasDirective_eq (name : String) : hasDirective ds' name = hasDirective ds name :=
  hasDirective_congr h.names name

theorem placementFaults_eq (target : DirectiveTarget) (part : Coordinate) (applied : List String) :
    placementFaults target part applied ds' = placementFaults target part applied ds :=
  placementFaults_congr h.names target part applied

theorem persistedDirectives_eq (hsite : OnlyFieldSets site) :
    persistedDirectives ds' = persistedDirectives ds := by
  refine filterMap_eq_of_forall₂ h fun d d' hd => ?_
  by_cases hname : canonicalName d.name ∈ ["key", "requires", "provides"]
  · -- The supergraph keeps none of them.
    have hnone : ∀ s ∈ ["key", "requires", "provides"],
        persistedNames.find? (fun n => n.text == s) = none := by decide
    rw [Directive.persisted?, Directive.persisted?, hd.name_eq, hnone _ hname]
    rfl
  · rw [hd.eq_of_notMem hsite hname]

end Conditions

end Federation
