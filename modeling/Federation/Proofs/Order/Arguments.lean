import Federation.Proofs.Order.Merging
import Federation.Proofs.Supergraph.Composed

/-!
# Arguments of external declarations

An external declaration adds its arguments to a field if it is the first declaration of the field
and comes before the one that settles it.  In another order the same arguments may be left out.  It
makes no difference as long as every such argument is there anyway: an argument of an external
declaration is a stray (`HasStray`) when some declaration that is not external lacks it and none has
it with the same type.

Without strays the arguments of a field are those of the declarations that are not external
(`argumentType?_iff`), and whether there are conflicts does not depend on the order of the batch
(`conflicts_of_perm`).
-/

namespace Federation

/-- Whether the declarations of a field that are not external agree on its arguments. -/
def ArgumentsAgree (schemas : List Schema) : Prop :=
  ∀ ⦃n m f f' x t t'⦄, DeclaresField schemas n m f → f.external = false →
    DeclaresField schemas n m f' → f'.external = false →
    f.definition.argumentType? x = some t → f'.definition.argumentType? x = some t' → t = t'

/-- Whether an external declaration has an argument that a declaration which is not external lacks,
and that none has with the same type. -/
def HasStray (schemas : List Schema) : Prop :=
  ∃ n m e f x t, DeclaresField schemas n m e ∧ e.external = true ∧
    e.definition.argumentType? x = some t ∧
    DeclaresField schemas n m f ∧ f.external = false ∧ f.definition.argumentType? x = none ∧
    ∀ f', DeclaresField schemas n m f' → f'.external = false →
      f'.definition.argumentType? x ≠ some t

section Perm

variable {schemas schemas' : List Schema} (hp : schemas.Perm schemas')

include hp

theorem ArgumentsAgree.of_perm (h : ArgumentsAgree schemas) : ArgumentsAgree schemas' := by
  intro n m f f' x t t' hf hext hf' hext'
  exact h ((declaresField_iff_of_perm hp).2 hf) hext ((declaresField_iff_of_perm hp).2 hf') hext'

theorem hasStray_iff_of_perm : HasStray schemas ↔ HasStray schemas' := by
  simp only [HasStray, declaresField_iff_of_perm hp]

end Perm

variable {schemas : List Schema} {n m x : Name}

/-! ### Conflicts about arguments -/

/-- Where the merge finds no conflict, the declarations that are not external agree on
arguments. -/
theorem argumentsAgree_of_conflicts_eq_nil (hn : Normalized schemas)
    (hc : conflicts schemas = []) : ArgumentsAgree schemas := by
  obtain ⟨hmerge, _⟩ := conflicts_eq_nil_iff.1 hc
  rw [mergeConflicts_eq_nil_iff] at hmerge
  intro n m f f' x t t' hf hext hf' hext' ht ht'
  obtain ⟨i, hi⟩ := declaresField_iff.1 hf
  obtain ⟨j, hj⟩ := declaresField_iff.1 hf'
  obtain ⟨exts, b, rest, hs⟩ := FieldNode.exists_split ⟨_, hi, hext⟩
  have huniform := (FieldNode.checked_iff_of_split hs fun _ he => hn.arguments_of_mem he).1
    ((hmerge n).2.2 m)
  exact huniform.2 x t (hs.mem_said hi hext ht) t' (hs.mem_said hj hext' ht')

/-- Without strays, what counts about an argument is said by a declaration that is not external. -/
theorem exists_of_mem_said (hstray : ¬ HasStray schemas)
    {exts rest : List (SubgraphId × FieldDeclaration)} {b : SubgraphId × FieldDeclaration}
    (hs : FieldNode.Split (TypeNode.fieldsOf (declarationsOf schemas n) m) exts b rest)
    {t : TypeRef} (ht : t ∈ FieldNode.said exts b rest x) :
    ∃ f, DeclaresField schemas n m f ∧ f.external = false ∧
      f.definition.argumentType? x = some t := by
  obtain ⟨e, he, hex, hlacks⟩ := hs.exists_of_mem_said ht
  have hdecl : DeclaresField schemas n m e.2 := declaresField_iff.2 ⟨e.1, he⟩
  cases hext : e.2.external with
  | false => exact ⟨e.2, hdecl, hext, hex⟩
  | true =>
    have hb : DeclaresField schemas n m b.2 := declaresField_iff.2 ⟨b.1, hs.base_mem⟩
    by_contra hnone
    exact hstray ⟨n, m, e.2, b.2, x, t, hdecl, hext, hex, hb, hs.base, hlacks hext,
      fun f hf hext hfx => hnone ⟨f, hf, hext, hfx⟩⟩

/-- **The arguments of a merged field**: without strays, they are those of the declarations that are
not external. -/
theorem argumentType?_iff (hc : Concordant schemas) (ha : ArgumentsAgree schemas)
    (hstray : ¬ HasStray schemas) {names : List String} {f : FieldNode}
    (hf : FieldNode.ofDeclarations? names
      (TypeNode.fieldsOf (declarationsOf schemas n) m) = some f) {t : TypeRef} :
    f.definition.argumentType? x = some t ↔ ∃ d, DeclaresField schemas n m d ∧
      d.external = false ∧ d.definition.argumentType? x = some t := by
  obtain ⟨d, hd⟩ := isSome_ofDeclarations?_iff.1 (Option.isSome_iff_exists.2 ⟨f, hf⟩)
  obtain ⟨d, hd, hext⟩ := hc.base hd
  obtain ⟨i, hi⟩ := declaresField_iff.1 hd
  obtain ⟨exts, b, rest, hs⟩ := FieldNode.exists_split ⟨_, hi, hext⟩
  obtain ⟨f', hf', _, hargs⟩ := FieldNode.exists_of_split names hs
  rw [hf, Option.some.injEq] at hf'
  subst hf'
  rw [hargs]
  constructor
  · exact fun h => exists_of_mem_said hstray hs (List.mem_of_head? h)
  · rintro ⟨d, hd, hext, hdx⟩
    obtain ⟨j, hj⟩ := declaresField_iff.1 hd
    have hmem := hs.mem_said hj hext hdx
    -- The argument is there, and whoever said its type agrees.
    cases hfirst : (FieldNode.said exts b rest x).head? with
    | none =>
      rw [List.head?_eq_none_iff.1 hfirst] at hmem
      cases hmem
    | some u =>
      obtain ⟨d', hd', hext', hdx'⟩ := exists_of_mem_said hstray hs (List.mem_of_head? hfirst)
      rw [ha hd' hext' hd hext hdx' hdx]

/-- Where declarations agree, on arguments as well, the merge finds no conflict unless there is a
stray. -/
theorem mergeConflicts_eq_nil_of_concordant (hn : Normalized schemas) (hc : Concordant schemas)
    (ha : ArgumentsAgree schemas) (hstray : ¬ HasStray schemas) {names : List String}
    {nameOf : SubgraphId → String} :
    mergeConflicts names nameOf ∅ (contributed schemas) = [] := by
  refine mergeConflicts_eq_nil_iff.2 fun n => ⟨?_, ?_, ?_⟩
  · intro d hd d' hd'
    exact hc.kind (declares_iff.2 ⟨d.1, hd⟩) (declares_iff.2 ⟨d'.1, hd'⟩)
  · intro m t ht t' ht'
    obtain ⟨i, d, hd, v, hv, rfl⟩ := TypeNode.mem_inputTypes_iff.1 ht
    obtain ⟨j, d', hd', v', hv', rfl⟩ := TypeNode.mem_inputTypes_iff.1 ht'
    exact hc.inputType (declares_iff.2 ⟨i, hd⟩) (declares_iff.2 ⟨j, hd'⟩) hv hv'
  · intro m h hh
    have hmem : ∀ {e}, e ∈ TypeNode.fieldsOf (declarationsOf schemas n) m →
        DeclaresField schemas n m e.2 := fun he => declaresField_iff.2 ⟨_, he⟩
    obtain ⟨d, hd, hext⟩ := hc.base (hmem (List.mem_of_head? hh))
    obtain ⟨i, hi⟩ := declaresField_iff.1 hd
    obtain ⟨exts, b, rest, hs⟩ := FieldNode.exists_split ⟨_, hi, hext⟩
    refine (FieldNode.checked_iff_of_split hs fun _ he => hn.arguments_of_mem he).2
      ⟨fun e he => hc.fieldType (hmem he) (hmem hs.base_mem) hs.base, fun x => ?_⟩ h hh
    -- Whatever is compared is said by a declaration that is not external.
    intro t ht t' ht'
    obtain ⟨d, hd, hext, hdx⟩ := exists_of_mem_said hstray hs ht
    obtain ⟨d', hd', hext', hdx'⟩ := exists_of_mem_said hstray hs ht'
    exact ha hd hext hd' hext' hdx hdx'

/-! ### Conflicts in the merged graph -/

namespace Graph

/-- Whether the fields of one graph have the arguments, with the types, that they have in another
one. -/
def SameArguments (g g' : Graph) : Prop :=
  ∀ ⦃n t t' m f f'⦄, g.types.get? n = some t → g'.types.get? n = some t' →
    t.fields.get? m = some f → t'.fields.get? m = some f' →
    ∀ x, f'.definition.argumentType? x = f.definition.argumentType? x

variable {σ : Equiv.Perm SubgraphId} {g g' : Graph}

namespace Renumbered

variable (hg : g.Renumbered σ g')

include hg

theorem baseConflicts_eq_nil (h : g.baseConflicts = []) : g'.baseConflicts = [] := by
  rw [baseConflicts_eq_nil_iff] at h ⊢
  intro n t' ht' m f' hf' hkind
  obtain ⟨t, ht, hrel⟩ := hg.symm.exists_type ht'
  obtain ⟨f, hf, hff⟩ := hrel.exists_field hf'
  have hres := h n t ht m f hf (by rw [hrel.kind, hkind])
  rwa [hff.resolvers, SubgraphSet.isEmpty_renumber] at hres

theorem sharingConflicts_eq_nil (h : g.sharingConflicts = []) : g'.sharingConflicts = [] := by
  rw [sharingConflicts_eq_nil_iff] at h ⊢
  intro n t' ht' m f' hf' hkind hsize i hi
  obtain ⟨t, ht, hrel⟩ := hg.symm.exists_type ht'
  obtain ⟨f, hf, hff⟩ := hrel.exists_field hf'
  have hshared := h n t ht m f hf (by rw [hrel.kind, hkind])
    (by rw [hff.resolvers, SubgraphSet.size_renumber]; exact hsize) (σ.symm i)
    (by rw [hff.resolvers]; exact SubgraphSet.apply_mem_renumber.2 hi)
  rw [hff.shareableIn] at hshared
  exact SubgraphSet.apply_mem_renumber.1 hshared

/-- A renumbered graph with the same arguments is alike. -/
theorem alike (hsame : g.SameArguments g') : g.Alike g' := by
  intro n
  rcases rel_cases (hg.type n) with ⟨ht, ht'⟩ | ⟨t, t', ht, ht', hrel⟩
  · rw [ht, ht']
    exact .none
  · have hnames : ∀ {a a' : Table SubgraphSet} {k : Name},
        a'.get? k = (a.get? k).map (·.renumber σ) → (k ∈ a'.names ↔ k ∈ a.names) := by
      intro a a' k hk
      rw [Table.mem_names_iff, Table.mem_names_iff, ← Option.isSome_iff_exists,
        ← Option.isSome_iff_exists, hk, Option.isSome_map]
    rw [ht, ht']
    refine .some ⟨hrel.kind, fun m => ?_, fun i => hnames (hrel.interface i),
      fun m => hnames (hrel.member m)⟩
    rcases rel_cases (hrel.field m) with ⟨hf, hf'⟩ | ⟨f, f', hf, hf', hff⟩
    · rw [hf, hf']
      exact .none
    · rw [hf, hf']
      exact .some ⟨hff.type, hsame ht ht' hf hf'⟩

end Renumbered

end Graph

section Perm

variable {schemas' : List Schema} (hp : schemas.Perm schemas') (hn : Normalized schemas)

include hp

theorem Concordant.sameArguments (hc : Concordant schemas) (ha : ArgumentsAgree schemas)
    (hstray : ¬ HasStray schemas) :
    (Graph.ofSchemas schemas).SameArguments (Graph.ofSchemas schemas') := by
  intro n t t' m f f' ht ht' hf hf' x
  have hc' := hc.of_perm hp
  obtain ⟨d, hd⟩ := isSome_get?_ofSchemas_iff.1 (Option.isSome_iff_exists.2 ⟨t, ht⟩)
  rw [exists_get?_ofSchemas hc.kind hd, Option.some.injEq] at ht
  rw [exists_get?_ofSchemas hc'.kind ((declares_iff_of_perm hp).1 hd), Option.some.injEq] at ht'
  rw [← ht, TypeNode.get?_fields] at hf
  rw [← ht', TypeNode.get?_fields] at hf'
  refine Option.ext fun u => ?_
  rw [argumentType?_iff hc ha hstray hf, argumentType?_iff hc' (ha.of_perm hp)
    ((hasStray_iff_of_perm hp).not.1 hstray) hf']
  simp only [declaresField_iff_of_perm hp]

include hn

/-- **Conflicts do not depend on the order of the batch**, unless there is a stray. -/
theorem conflicts_of_perm (hstray : ¬ HasStray schemas) (h : conflicts schemas = []) :
    conflicts schemas' = [] := by
  have hc := concordant_of_conflicts_eq_nil hn h
  have ha := argumentsAgree_of_conflicts_eq_nil hn h
  have hn' := hn.of_perm hp
  obtain ⟨σ, hσ⟩ := exists_renumbering hp
  have hg := hc.renumbered hn hp hσ
  obtain ⟨_, hbase, hsharing, himplementation⟩ := conflicts_eq_nil_iff.1 h
  refine conflicts_eq_nil_iff.2 ⟨?_, ?_, ?_, ?_⟩
  · exact mergeConflicts_eq_nil_of_concordant hn' (hc.of_perm hp) (ha.of_perm hp)
      ((hasStray_iff_of_perm hp).not.1 hstray)
  · exact hg.baseConflicts_eq_nil hbase
  · exact hg.sharingConflicts_eq_nil hsharing
  · exact (hg.alike (hc.sameArguments hp ha hstray)).implementationConflicts_eq_nil
      hn.distinctArguments hn'.distinctArguments himplementation

end Perm

end Federation
