import Federation.Proofs.Order.Renumbering
import Federation.Proofs.Subgraph.Normalized
import Mathlib.Logic.Equiv.Basic

/-!
# Merging in another order

The schemas of a batch in another order make up the same graph with the subgraphs renumbered, as
long as their declarations agree (`Concordant.renumbered`).  Which declarations there are of a name
does not depend on the order, and what the fold makes of them was said in terms of membership, so
all that is left is the type of a field: every declaration that could settle it says the same.
-/

namespace Federation

/-! ### Permuted batches -/

/-- A map of positions behind a head that keeps its place. -/
def shifted (f : Nat → Nat) : Nat → Nat
  | 0 => 0
  | i + 1 => f i + 1

theorem shifted_leftInverse {f f' : Nat → Nat} (h : Function.LeftInverse f' f) :
    Function.LeftInverse (shifted f') (shifted f)
  | 0 => rfl
  | i + 1 => congrArg (· + 1) (h i)

/-- A permutation of a list is a renumbering of its positions. -/
theorem exists_renumbering {α : Type} {l l' : List α} (h : l.Perm l') :
    ∃ σ : Equiv.Perm Nat, ∀ i, l'[σ i]? = l[i]? := by
  -- By the steps of the permutation: each is a renumbering, and these compose.
  induction h with
  | nil => exact ⟨Equiv.refl Nat, fun _ => rfl⟩
  | cons a _ ih =>
    obtain ⟨σ, hσ⟩ := ih
    refine ⟨⟨shifted σ, shifted σ.symm, shifted_leftInverse σ.left_inv,
      shifted_leftInverse σ.right_inv⟩, ?_⟩
    rintro (_ | i)
    · rfl
    · exact hσ i
  | swap a b l =>
    refine ⟨Equiv.swap 0 1, ?_⟩
    rintro (_ | _ | i)
    · rfl
    · rfl
    · rw [Equiv.swap_apply_of_ne_of_ne (by omega) (by omega)]
      rfl
  | trans _ _ ih₁ ih₂ =>
    obtain ⟨σ, hσ⟩ := ih₁
    obtain ⟨τ, hτ⟩ := ih₂
    exact ⟨σ.trans τ, fun i => (hτ (σ i)).trans (hσ i)⟩

section Perm

variable {schemas schemas' : List Schema} (hp : schemas.Perm schemas') {n m : Name}

include hp

theorem declares_iff_of_perm {d : TypeDeclaration} :
    Declares schemas n d ↔ Declares schemas' n d := by
  simp only [Declares, hp.mem_iff]

theorem declaresField_iff_of_perm {f : FieldDeclaration} :
    DeclaresField schemas n m f ↔ DeclaresField schemas' n m f := by
  simp only [DeclaresField, declares_iff_of_perm hp]

theorem Normalized.of_perm (h : Normalized schemas) : Normalized schemas' where
  names := (hp.map (·.name)).nodup_iff.1 h.names
  external hd := h.external ((declares_iff_of_perm hp).2 hd)
  arguments hf := h.arguments ((declaresField_iff_of_perm hp).2 hf)

theorem Concordant.of_perm (h : Concordant schemas) : Concordant schemas' where
  kind hd hd' := h.kind ((declares_iff_of_perm hp).2 hd) ((declares_iff_of_perm hp).2 hd')
  inputType hd hd' := h.inputType ((declares_iff_of_perm hp).2 hd) ((declares_iff_of_perm hp).2 hd')
  fieldType hf hf' :=
    h.fieldType ((declaresField_iff_of_perm hp).2 hf) ((declaresField_iff_of_perm hp).2 hf')
  base hf := by
    obtain ⟨f, hf, hext⟩ := h.base ((declaresField_iff_of_perm hp).2 hf)
    exact ⟨f, (declaresField_iff_of_perm hp).1 hf, hext⟩

end Perm

/-! ### Declarations -/

section Renumbering

variable {σ : Equiv.Perm SubgraphId} {schemas schemas' : List Schema} {n m : Name} {i : SubgraphId}

theorem mem_declarationsOf_renumbered (hσ : ∀ i, schemas'[σ i]? = schemas[i]?)
    {d : TypeDeclaration} :
    (σ i, d) ∈ declarationsOf schemas' n ↔ (i, d) ∈ declarationsOf schemas n := by
  rw [mem_declarationsOf_iff, mem_declarationsOf_iff, hσ]

theorem mem_fieldsOf_renumbered {ds ds' : List (SubgraphId × TypeDeclaration)}
    (hds : ∀ i d, (σ i, d) ∈ ds' ↔ (i, d) ∈ ds) {f : FieldDeclaration} :
    (σ i, f) ∈ TypeNode.fieldsOf ds' m ↔ (i, f) ∈ TypeNode.fieldsOf ds m := by
  simp only [TypeNode.mem_fieldsOf_iff, hds]

/-- A name stands at the new place of the subgraph that had it. -/
theorem idxOf?_renumbered {names names' : List String} (hnames : names.Nodup)
    (hnames' : names'.Nodup) (hσ : ∀ i, names'[σ i]? = names[i]?) {s : String} :
    names'.idxOf? s = some (σ i) ↔ names.idxOf? s = some i := by
  have hiff : ∀ {l : List String}, l.Nodup → ∀ {i}, l.idxOf? s = some i ↔ l[i]? = some s := by
    intro l hl i
    rw [List.idxOf?_eq_some_iff, List.getElem?_eq_some_iff]
    constructor
    · rintro ⟨hi, hs, _⟩
      exact ⟨hi, hs⟩
    · rintro ⟨hi, hs⟩
      refine ⟨hi, hs, fun j hj hjs => ?_⟩
      -- No name is there twice.
      have := (List.Nodup.getElem_inj_iff hl).1 (hjs.trans hs.symm)
      omega
  rw [hiff hnames, hiff hnames', hσ]

theorem rel_of_isSome {α β : Type} {r : α → β → Prop} {a? : Option α} {b? : Option β}
    (hsome : a?.isSome = true ↔ b?.isSome = true)
    (h : ∀ a b, a? = some a → b? = some b → r a b) : Option.Rel r a? b? := by
  cases a? with
  | none =>
    cases b? with
    | none => exact .none
    | some b => simp at hsome
  | some a =>
    cases b? with
    | none => simp at hsome
    | some b => exact .some (h a b rfl rfl)

/-! ### Fields -/

theorem FieldNode.isSome_ofDeclarations?_iff {names : List String}
    {es : List (SubgraphId × FieldDeclaration)} :
    (ofDeclarations? names es).isSome = true ↔ ∃ i d, (i, d) ∈ es := by
  cases es with
  | nil => simp [ofDeclarations?]
  | cons e es =>
    simp only [ofDeclarations?, List.head?_cons, Option.map_some, Option.isSome_some, true_iff]
    exact ⟨e.1, e.2, List.mem_cons_self⟩

theorem isSome_ofDeclarations?_iff {names : List String} :
    (FieldNode.ofDeclarations? names
      (TypeNode.fieldsOf (declarationsOf schemas n) m)).isSome = true ↔
      ∃ d, DeclaresField schemas n m d := by
  rw [FieldNode.isSome_ofDeclarations?_iff, exists_comm]
  simp only [declaresField_iff]

/-- Declarations that correspond and agree on their type make up corresponding fields. -/
theorem FieldNode.renumbered {names names' : List String}
    {es es' : List (SubgraphId × FieldDeclaration)} (hes : (es.map Prod.fst).Nodup)
    (hes' : (es'.map Prod.fst).Nodup) (hmem : ∀ i d, (σ i, d) ∈ es' ↔ (i, d) ∈ es)
    (hindex : ∀ s i d, (i, d) ∈ es → (names'.idxOf? s = some (σ i) ↔ names.idxOf? s = some i))
    {f f' : FieldNode} (hf : FieldNode.ofDeclarations? names es = some f)
    (hf' : FieldNode.ofDeclarations? names' es' = some f')
    (htype : f'.definition.type = f.definition.type) : f.Renumbered σ f' := by
  -- Each component is told by its members, and these by the declarations, which correspond.
  -- Only an override also reads the positions of the names.
  have hdeclared : ∀ i, σ i ∈ f'.declaredIn ↔ i ∈ f.declaredIn := by
    intro i
    rw [mem_declaredIn_iff hf, mem_declaredIn_iff hf']
    simp only [hmem]
  have hexternal : ∀ i, σ i ∈ f'.externalIn ↔ i ∈ f.externalIn := by
    intro i
    rw [mem_externalIn_iff hf, mem_externalIn_iff hf']
    simp only [hmem]
  have hoverridden : ∀ i, σ i ∈ f'.overriddenIn ↔ i ∈ f.overriddenIn := by
    intro i
    rw [mem_overriddenIn_iff hes hf, mem_overriddenIn_iff hes' hf']
    simp only [hmem]
    refine and_congr_right fun ⟨d, hd⟩ => ?_
    rw [σ.surjective.exists]
    simp only [hmem, hindex _ i d hd, ne_eq, σ.injective.eq_iff]
  have hmap : ∀ {α : Type} {m m' : SubgraphMap α} (value : FieldDeclaration → Option α),
      (∀ i a, m.get? i = some a ↔ ∃ d, (i, d) ∈ es ∧ value d = some a) →
      (∀ i a, m'.get? i = some a ↔ ∃ d, (i, d) ∈ es' ∧ value d = some a) →
      m' = m.renumber σ := by
    intro α m m' value hm hm'
    refine SubgraphMap.eq_renumber_iff.2 fun i => Option.ext fun a => ?_
    rw [hm, hm']
    simp only [hmem]
  exact {
    type := htype
    declaredIn := SubgraphSet.eq_renumber_iff.2 hdeclared
    resolvers := SubgraphSet.eq_renumber_iff.2 fun i => by
      rw [mem_resolvers_iff, mem_resolvers_iff, hdeclared, hexternal, hoverridden]
    shareableIn := SubgraphSet.eq_renumber_iff.2 fun i => by
      rw [mem_shareableIn_iff hf, mem_shareableIn_iff hf']
      simp only [hmem]
    provides := hmap FieldDeclaration.provides (fun _ _ => get?_provides_iff hes hf)
      fun _ _ => get?_provides_iff hes' hf'
    requires := hmap FieldDeclaration.requires (fun _ _ => get?_requires_iff hes hf)
      fun _ _ => get?_requires_iff hes' hf' }

/-- In a batch that agrees, the type of a field is that of any declaration that is not external. -/
theorem Concordant.type_of_ofDeclarations (hc : Concordant schemas) {names : List String}
    {f : FieldNode} (hf : FieldNode.ofDeclarations? names
      (TypeNode.fieldsOf (declarationsOf schemas n) m) = some f) {d : FieldDeclaration}
    (hd : DeclaresField schemas n m d) (hext : d.external = false) :
    f.definition.type = d.definition.type := by
  obtain ⟨i, hi⟩ := declaresField_iff.1 hd
  obtain ⟨exts, b, rest, hs⟩ := FieldNode.exists_split ⟨_, hi, hext⟩
  obtain ⟨f', hf', htype, _⟩ := FieldNode.exists_of_split names hs
  rw [hf, Option.some.injEq] at hf'
  have hb : DeclaresField schemas n m b.2 := declaresField_iff.2 ⟨b.1, hs.base_mem⟩
  rw [hf', htype]
  exact hc.fieldType hb hd hext

/-! ### Types and graphs -/

section Types

variable {ds ds' : List (SubgraphId × TypeDeclaration)}
  (hds : ∀ i d, (σ i, d) ∈ ds' ↔ (i, d) ∈ ds)

include hds

theorem exists_mem_renumbered (p : TypeDeclaration → Prop) :
    (∃ d ∈ ds', p d.2) ↔ ∃ d ∈ ds, p d.2 := by
  simp only [Prod.exists]
  rw [σ.surjective.exists]
  simp only [hds]

theorem memberships_renumbered (listed : TypeDeclaration → Prop) {s? s?' : Option SubgraphSet}
    (h : ∀ s, s? = some s ↔ (∃ d ∈ ds, listed d.2) ∧ ∀ i, i ∈ s ↔ ∃ d, (i, d) ∈ ds ∧ listed d)
    (h' : ∀ s, s?' = some s ↔
      (∃ d ∈ ds', listed d.2) ∧ ∀ i, i ∈ s ↔ ∃ d, (i, d) ∈ ds' ∧ listed d) :
    s?' = s?.map (·.renumber σ) := by
  refine Option.ext fun t => ?_
  rw [h', exists_mem_renumbered hds listed, Option.map_eq_some_iff]
  constructor
  · rintro ⟨hd, ht⟩
    have hback : (t.renumber σ.symm).renumber σ = t :=
      (SubgraphSet.eq_renumber_symm (σ := σ.symm) rfl).symm
    refine ⟨t.renumber σ.symm, (h _).2 ⟨hd, fun i => ?_⟩, hback⟩
    rw [SubgraphSet.mem_renumber_iff, Equiv.symm_symm, ht]
    simp only [hds]
  · rintro ⟨s, hs, rfl⟩
    obtain ⟨hd, hs⟩ := (h s).1 hs
    refine ⟨hd, fun i => ?_⟩
    rw [SubgraphSet.mem_renumber_iff, hs]
    simp only [← hds, Equiv.apply_symm_apply]

end Types

/-- In a batch that agrees, the type of an input field is what any declaration of it says. -/
theorem Concordant.input_eq_some_iff (hc : Concordant schemas) {names : List String}
    {kind : TypeKind} {t : TypeRef} :
    ((TypeNode.ofDeclarations names kind (declarationsOf schemas n)).inputs.get? m).map
        (·.definition.type) = some t ↔
      ∃ d, Declares schemas n d ∧ ∃ v, d.inputs.get? m = some v ∧ v.type = t := by
  rw [TypeNode.type_get?_inputs]
  constructor
  · intro ht
    obtain ⟨i, d, hd, hv⟩ := TypeNode.mem_inputTypes_iff.1 (List.mem_of_head? ht)
    exact ⟨d, declares_iff.2 ⟨i, hd⟩, hv⟩
  · rintro ⟨d, hd, v, hv, rfl⟩
    obtain ⟨i, hi⟩ := declares_iff.1 hd
    have hmem := TypeNode.mem_inputTypes_iff.2 ⟨i, d, hi, v, hv, rfl⟩
    cases hfirst : (TypeNode.inputTypes (declarationsOf schemas n) m).head? with
    | none =>
      rw [List.head?_eq_none_iff.1 hfirst] at hmem
      cases hmem
    | some u =>
      obtain ⟨j, d', hd', w, hw, rfl⟩ := TypeNode.mem_inputTypes_iff.1 (List.mem_of_head? hfirst)
      rw [hc.inputType (declares_iff.2 ⟨j, hd'⟩) hd hw hv]

/-- Declarations that correspond make up corresponding types, if they give fields and input fields
the same types. -/
theorem TypeNode.renumbered_ofDeclarations {names names' : List String} {kind : TypeKind}
    {ds ds' : List (SubgraphId × TypeDeclaration)} (hnodup : (ds.map Prod.fst).Nodup)
    (hnodup' : (ds'.map Prod.fst).Nodup) (hds : ∀ i d, (σ i, d) ∈ ds' ↔ (i, d) ∈ ds)
    (hindex : ∀ s i d, (i, d) ∈ ds → (names'.idxOf? s = some (σ i) ↔ names.idxOf? s = some i))
    (hfield : ∀ m f f', FieldNode.ofDeclarations? names (fieldsOf ds m) = some f →
      FieldNode.ofDeclarations? names' (fieldsOf ds' m) = some f' →
        f'.definition.type = f.definition.type)
    (hinput : ∀ m, ((ofDeclarations names' kind ds').inputs.get? m).map (·.definition.type) =
      ((ofDeclarations names kind ds).inputs.get? m).map (·.definition.type)) :
    (ofDeclarations names kind ds).Renumbered σ (ofDeclarations names' kind ds') := by
  refine ⟨by simp, fun m => ?_, fun m => ?_, fun m => ?_, fun i k => ?_, fun m => ?_, hinput⟩
  · rw [get?_fields, get?_fields]
    have hmem : ∀ i f, (σ i, f) ∈ fieldsOf ds' m ↔ (i, f) ∈ fieldsOf ds m :=
      fun i f => mem_fieldsOf_renumbered hds
    refine rel_of_isSome ?_ fun f f' hf hf' => ?_
    · rw [FieldNode.isSome_ofDeclarations?_iff, FieldNode.isSome_ofDeclarations?_iff]
      refine Iff.trans ?_ σ.surjective.exists.symm
      simp only [hmem]
    · refine FieldNode.renumbered (nodup_fieldsOf hnodup m) (nodup_fieldsOf hnodup' m) hmem
        (fun s i e he => ?_) hf hf' (hfield m f f' hf hf')
      obtain ⟨d, hd, _⟩ := mem_fieldsOf_iff.1 he
      exact hindex s i d hd
  · exact memberships_renumbered hds (m ∈ ·.interfaces) (fun _ => get?_interfaces_iff)
      fun _ => get?_interfaces_iff
  · exact memberships_renumbered hds (m ∈ ·.members) (fun _ => get?_members_iff)
      fun _ => get?_members_iff
  · rw [mem_resolvableKeys_iff hnodup, mem_resolvableKeys_iff hnodup']
    simp only [hds]
  · rw [mem_values_iff, mem_values_iff]
    exact exists_mem_renumbered hds (m ∈ ·.values.names)

/-- The declarations of a name in another order make up the same type, renumbered. -/
theorem Concordant.renumbered_ofDeclarations (hc : Concordant schemas)
    (hp : schemas.Perm schemas') (hσ : ∀ i, schemas'[σ i]? = schemas[i]?)
    {names names' : List String}
    (hindex : ∀ s i, names'.idxOf? s = some (σ i) ↔ names.idxOf? s = some i) (kind : TypeKind) :
    (TypeNode.ofDeclarations names kind (declarationsOf schemas n)).Renumbered σ
      (TypeNode.ofDeclarations names' kind (declarationsOf schemas' n)) := by
  refine TypeNode.renumbered_ofDeclarations (nodup_declarationsOf schemas n)
    (nodup_declarationsOf schemas' n) (fun i d => mem_declarationsOf_renumbered hσ)
    (fun s i _ _ => hindex s i) (fun m f f' hf hf' => ?_) fun m => ?_
  · -- Any declaration that is not external tells the type in both orders.
    obtain ⟨d, hd⟩ := isSome_ofDeclarations?_iff.1 (Option.isSome_iff_exists.2 ⟨f, hf⟩)
    obtain ⟨b, hb, hext⟩ := hc.base hd
    rw [hc.type_of_ofDeclarations hf hb hext, (hc.of_perm hp).type_of_ofDeclarations hf'
      ((declaresField_iff_of_perm hp).1 hb) hext]
  · refine Option.ext fun t => ?_
    rw [hc.input_eq_some_iff, (hc.of_perm hp).input_eq_some_iff]
    simp only [declares_iff_of_perm hp]

/-- **Merging in another order renumbers the graph**, where the declarations agree. -/
theorem Concordant.renumbered (hn : Normalized schemas) (hc : Concordant schemas)
    (hp : schemas.Perm schemas') (hσ : ∀ i, schemas'[σ i]? = schemas[i]?) :
    (Graph.ofSchemas schemas).Renumbered σ (Graph.ofSchemas schemas') := by
  have hc' := hc.of_perm hp
  have hindex : ∀ s i, (schemas'.map (·.name)).idxOf? s = some (σ i) ↔
      (schemas.map (·.name)).idxOf? s = some i := fun s i =>
    idxOf?_renumbered hn.names (hn.of_perm hp).names fun i => by simp [hσ]
  refine ⟨fun i => ?_, fun n => ?_⟩
  · simp [Graph.nameOf, Graph.ofSchemas, hσ]
  · refine rel_of_isSome ?_ fun t t' ht ht' => ?_
    · rw [isSome_get?_ofSchemas_iff, isSome_get?_ofSchemas_iff]
      simp only [declares_iff_of_perm hp]
    · obtain ⟨d, hd⟩ := isSome_get?_ofSchemas_iff.1 (Option.isSome_iff_exists.2 ⟨t, ht⟩)
      rw [exists_get?_ofSchemas hc.kind hd, Option.some.injEq] at ht
      rw [exists_get?_ofSchemas hc'.kind ((declares_iff_of_perm hp).1 hd),
        Option.some.injEq] at ht'
      rw [← ht, ← ht']
      exact hc.renumbered_ofDeclarations hp hσ hindex d.kind

end Renumbering

end Federation
