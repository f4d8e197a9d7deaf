import Federation.Proofs.Graph.Agreement

/-!
# What a field settles on

What the merge makes of the definition of a field, and whether it finds a conflict on the way, does
not depend on which subgraphs the declarations are from, nor on the names of subgraphs.  All that
counts of a field so far is its `settlement`: the definition, and the types of the external
declarations as long as they are awaited.  Each step of the merge changes the settlement by the
declaration alone (`settlement_absorb`), and whether the declaration agrees shows in the settlement
(`agrees_iff`).  So lists with the same declarations lead to the same definition
(`definition_eq_of_map_snd`) and pass the same checks (`checked_iff_of_map_snd`).
-/

namespace Federation.FieldNode

/-- What has been settled of a field, with the types that are awaited if its definition has not
been. -/
def settlement (f : FieldNode) : FieldDefinition × Option (List TypeRef) :=
  (f.definition, match f.authority with
    | .awaited externals => some (externals.map Prod.snd)
    | .settled _ => none)

/-- A settlement with one more declaration. -/
def settleNext (p : FieldDefinition × Option (List TypeRef)) (d : FieldDeclaration) :
    FieldDefinition × Option (List TypeRef) :=
  match p.2, d.external with
  | some _, false =>
    ({ d.definition with
        arguments := mergeArguments d.definition.arguments p.1.arguments }, none)
  | some types, true => (p.1, some (types ++ [d.definition.type]))
  | none, true => (p.1, none)
  | none, false => (p.1.fillIn d.definition, none)

/-- Whether a declaration agrees with a settlement. -/
def SettledAgrees (p : FieldDefinition × Option (List TypeRef)) (d : FieldDeclaration) : Prop :=
  match p.2, d.external with
  | some _, true => True
  | some types, false => ∀ t ∈ types, t = d.definition.type
  | none, true => p.1.type = d.definition.type
  | none, false => p.1.type = d.definition.type ∧
      ∀ a ∈ d.definition.arguments, ∀ t, p.1.argumentType? a.1 = some t → t = a.2.type

theorem settlement_absorb (names : List String) (i : SubgraphId) (d : FieldDeclaration)
    (f : FieldNode) : (f.absorb names i d).settlement = settleNext f.settlement d := by
  cases ha : f.authority <;> cases he : d.external <;>
    simp [settlement, settleNext, absorb, settle, ha, he]

theorem agrees_iff (f : FieldNode) (d : FieldDeclaration) :
    f.Agrees d ↔ SettledAgrees f.settlement d := by
  unfold Agrees SettledAgrees settlement
  cases f.authority with
  | awaited externals => cases d.external <;> simp only [List.forall_mem_map]
  | settled j => cases d.external <;> exact Iff.rfl

variable {names names' : List String} {es es' : List (SubgraphId × FieldDeclaration)}

theorem settlement_foldl (f : FieldNode) :
    (es.foldl (fun f e => f.absorb names e.1 e.2) f).settlement =
      (es.map Prod.snd).foldl settleNext f.settlement := by
  have hfold := foldl_part settlement (fun e => some e.2) settleNext
    (fun f (e : SubgraphId × FieldDeclaration) => settlement_absorb names e.1 e.2 f) es f
  rwa [List.filterMap_eq_map'] at hfold

/-- **Definitions do not depend on the subgraphs**: the same declarations lead to the same
definition. -/
theorem definition_eq_of_map_snd (hes : es'.map Prod.snd = es.map Prod.snd) {f f' : FieldNode}
    (hf : ofDeclarations? names es = some f) (hf' : ofDeclarations? names' es' = some f') :
    f'.definition = f.definition := by
  obtain ⟨e, rest, rfl, rfl⟩ := ofDeclarations?_eq_some_iff.1 hf
  obtain ⟨e', rest', rfl, rfl⟩ := ofDeclarations?_eq_some_iff.1 hf'
  have hhead : e'.2 = e.2 := (List.cons.inj hes).1
  have hsettled : ((e' :: rest').foldl (fun f e => f.absorb names' e.1 e.2)
      (start e'.2)).settlement = ((e :: rest).foldl (fun f e => f.absorb names e.1 e.2)
      (start e.2)).settlement := by
    rw [settlement_foldl, settlement_foldl, hes, hhead]
  exact congrArg Prod.fst hsettled

/-- **Neither do conflicts**: the same declarations pass the same checks. -/
theorem checked_iff_of_map_snd (hes : es'.map Prod.snd = es.map Prod.snd) (f : FieldNode) :
    Checked (fun f e => f.absorb names' e.1 e.2) (fun f e => f.Agrees e.2) f es' ↔
      Checked (fun f e => f.absorb names e.1 e.2) (fun f e => f.Agrees e.2) f es := by
  have hview : ∀ (names : List String) (es : List (SubgraphId × FieldDeclaration)),
      Checked (fun f e => f.absorb names e.1 e.2) (fun f e => f.Agrees e.2) f es ↔
        Checked settleNext SettledAgrees f.settlement (es.map Prod.snd) := by
    intro names es
    refine (checked_iff_parts (fun _ : Unit => settlement)
      (fun _ (e : SubgraphId × FieldDeclaration) => some e.2) settleNext SettledAgrees
      (fun _ f e => settlement_absorb names e.1 e.2 f) fun f e _ => ?_).trans ?_
    · simp [agrees_iff]
    · simp
  rw [hview, hview, hes]

end Federation.FieldNode
