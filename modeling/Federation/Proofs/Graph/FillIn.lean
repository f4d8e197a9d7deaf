import Federation.Proofs.Graph.Agreement
import Federation.Proofs.Graph.Provenance

/-!
# What merged definitions are filled in with

A merged field is the definition of its first declaration that is not external, with the arguments
of an external one that comes before all others, and filled in from the later ones that are not
external (`FieldNode.definition_of_split`).  Its directives and arguments are read off from there.
Enum values, input fields and types are filled in from all of their declarations.

Directives are always gathered in the same way (`gathered`): those of the first declaration as they
stand, and of the later ones what is new.
-/

namespace Federation

/-- Lists in first-seen order, of which the first one stays as it is. -/
def gathered {α : Type} [DecidableEq α] : List (List α) → List α
  | [] => []
  | xs :: rest => appendNew xs rest.flatten

theorem mem_gathered {α : Type} [DecidableEq α] {ls : List (List α)} {a : α} :
    a ∈ gathered ls ↔ a ∈ ls.flatten := by
  cases ls <;> simp [gathered]

/-- The argument of a field under some name. -/
def FieldDefinition.argument? (f : FieldDefinition) (x : Name) : Option InputValue :=
  (f.arguments.find? fun a => a.1 = x).map Prod.snd

theorem FieldDefinition.mem_arguments_of_argument? {f : FieldDefinition} {x : Name}
    {v : InputValue} (h : f.argument? x = some v) : (x, v) ∈ f.arguments := by
  obtain ⟨⟨y, v⟩, hfind, rfl⟩ := Option.map_eq_some_iff.1 h
  obtain rfl : y = x := by simpa using List.find?_some hfind
  exact List.mem_of_find?_eq_some hfind

theorem FieldDefinition.argument?_eq_none_iff {f : FieldDefinition} {x : Name} :
    f.argument? x = none ↔ ∀ v, (x, v) ∉ f.arguments := by
  rw [argument?, Option.map_eq_none_iff, List.find?_eq_none]
  constructor
  · intro h v hv
    simpa using h (x, v) hv
  · rintro h ⟨y, v⟩ hv hy
    obtain rfl : y = x := of_decide_eq_true hy
    exact h v hv

/-- Where no argument is repeated, every one is found under its name. -/
theorem FieldDefinition.argument?_eq_some_iff {f : FieldDefinition}
    (hf : (f.arguments.map Prod.fst).Nodup) {x : Name} {v : InputValue} :
    f.argument? x = some v ↔ (x, v) ∈ f.arguments := by
  have hlookup : f.argument? x = Table.get? ⟨f.arguments, hf⟩ x := by
    show (f.arguments.find? fun a => a.1 = x).map Prod.snd = f.arguments.lookup x
    induction f.arguments with
    | nil => rfl
    | cons a l ih =>
      obtain ⟨y, w⟩ := a
      by_cases h : y = x
      · subst h
        simp
      · have hb : (x == y) = false := by simpa using fun e => h e.symm
        simp [List.lookup_cons, h, hb, ih]
  rw [hlookup, Table.get?_eq_some_iff]

/-! ### Fields -/

namespace FieldNode

variable {names : List String} {j : SubgraphId} {f : FieldNode} {x : Name}
  {es exts rest : List (SubgraphId × FieldDeclaration)} {b : SubgraphId × FieldDeclaration}

/-- The declarations that are not external. -/
def bases (es : List (SubgraphId × FieldDeclaration)) : List (SubgraphId × FieldDeclaration) :=
  es.filter fun e => !e.2.external

theorem Split.bases_eq (hs : Split es exts b rest) : bases es = b :: bases rest := by
  have hexts : bases exts = [] :=
    List.filter_eq_nil_iff.2 fun e he => by simp [hs.external e he]
  rw [hs.eq, bases, List.filter_append, ← bases, hexts, List.nil_append,
    List.filter_cons_of_pos (by simp [hs.base])]
  rfl

/-- Once the definition is settled, declarations that are not external fill it in. -/
theorem definition_foldl_settled (names : List String) (hf : f.authority = .settled j)
    (rest : List (SubgraphId × FieldDeclaration)) :
    (rest.foldl (fun f e => f.absorb names e.1 e.2) f).definition =
      (bases rest).foldl (fun d e => d.fillIn e.2.definition) f.definition := by
  induction rest generalizing f with
  | nil => rfl
  | cons e rest ih =>
    obtain ⟨hauth, hdef⟩ := absorb_settled hf names e.1 e.2
    rw [List.foldl_cons, ih hauth, hdef, bases, bases, List.filter_cons]
    cases e.2.external <;> rfl

/-- **The definition of a merged field.** -/
theorem definition_of_split (hs : Split es exts b rest) (hf : ofDeclarations? names es = some f)
    {h : SubgraphId × FieldDeclaration} (hh : es.head? = some h) :
    f.definition = (bases rest).foldl (fun d e => d.fillIn e.2.definition)
      { b.2.definition with
        arguments := mergeArguments b.2.definition.arguments h.2.definition.arguments } := by
  have hstart : (start h.2).authority = .awaited [] := rfl
  obtain ⟨hdef, hauth, _⟩ := foldl_externals names hs.external hstart
  obtain ⟨hsettled, hbase⟩ := absorb_awaited_base hauth names b.1 hs.base
  rw [ofDeclarations?, hh, Option.map_some, Option.some.injEq, hs.eq, List.foldl_append,
    List.foldl_cons] at hf
  rw [← hf, definition_foldl_settled names hsettled, hbase, hdef]
  rfl

/-- The directives of a field are gathered from the declarations that are not external. -/
theorem directives_of_split (hs : Split es exts b rest) (hf : ofDeclarations? names es = some f) :
    f.definition.directives = gathered ((bases es).map fun e => e.2.definition.directives) := by
  obtain ⟨h, hh⟩ : ∃ h, es.head? = some h := by rw [hs.eq]; cases exts <;> simp
  rw [definition_of_split hs hf hh, hs.bases_eq, List.map_cons, gathered, ← List.flatMap_def,
    ← foldl_appendNew]
  exact (foldl_part FieldDefinition.directives some
    (fun xs e => appendNew xs e.2.definition.directives) (fun _ _ => rfl) (bases rest) _).trans
    (by rw [List.filterMap_some])

/-- The argument of a name that a merged field has: that of its first declaration which is not
external, else that of its first declaration, else that of the next one which is not external. -/
def argumentOf? (es : List (SubgraphId × FieldDeclaration)) (x : Name) : Option InputValue :=
  ((bases es).take 1 ++ es.take 1 ++ bases es).findSome? fun e => e.2.definition.argument? x

/-- It is one of some declaration of the field. -/
theorem exists_of_argumentOf? {v : InputValue} (h : argumentOf? es x = some v) :
    ∃ e ∈ es, e.2.definition.argument? x = some v := by
  obtain ⟨e, he, hv⟩ := List.exists_of_findSome?_eq_some h
  refine ⟨e, ?_, hv⟩
  rw [List.mem_append, List.mem_append] at he
  rcases he with (he | he) | he
  · exact List.mem_of_mem_filter (List.mem_of_mem_take he)
  · exact List.mem_of_mem_take he
  · exact List.mem_of_mem_filter he

theorem argument?_of_split (hs : Split es exts b rest) (hf : ofDeclarations? names es = some f) :
    f.definition.argument? x = argumentOf? es x := by
  obtain ⟨h, hh⟩ : ∃ h, es.head? = some h := by rw [hs.eq]; cases exts <;> simp
  have hmerge : ∀ (d : FieldDefinition) (new : List (Name × InputValue)),
      ({ d with arguments := mergeArguments d.arguments new } : FieldDefinition).argument? x =
        (d.argument? x).or ((new.find? fun a => a.1 = x).map Prod.snd) := by
    intro d new
    simp only [FieldDefinition.argument?, find?_mergeArguments, Option.map_or]
  -- An argument that is there is never replaced, so the definition that has it first counts: that
  -- of the base, then that of the first declaration, then those of the rest.
  have hfold : ∀ (es : List (SubgraphId × FieldDeclaration)) (d : FieldDefinition),
      (es.foldl (fun d e => d.fillIn e.2.definition) d).argument? x =
        (d.argument? x).or (es.findSome? fun e => e.2.definition.argument? x) := by
    intro es
    induction es with
    | nil => simp
    | cons e es ih =>
      intro d
      have hfill : (d.fillIn e.2.definition).argument? x =
          (d.argument? x).or (e.2.definition.argument? x) := hmerge d _
      rw [List.foldl_cons, ih, hfill, Option.or_assoc, List.findSome?_cons]
      cases e.2.definition.argument? x <;> simp
  have htake : es.take 1 = [h] := by
    cases es with
    | nil => cases hh
    | cons e es => simpa using hh
  rw [definition_of_split hs hf hh, hfold, hmerge, argumentOf?, hs.bases_eq, htake]
  simp only [List.take_succ_cons, List.take_zero, List.cons_append, List.nil_append,
    List.findSome?_cons]
  show ((b.2.definition.argument? x).or (h.2.definition.argument? x)).or _ = _
  cases b.2.definition.argument? x <;> cases h.2.definition.argument? x <;> rfl

end FieldNode

/-! ### Other parts of types -/

namespace TypeNode

variable {names : List String} {kind : TypeKind} {ds : List (SubgraphId × TypeDeclaration)}
  {m : Name}

/-- The directives of a type are gathered with none to begin with. -/
theorem directives_eq : (ofDeclarations names kind ds).directives =
    gathered ([] :: ds.map fun d => d.2.directives) := by
  rw [gathered, ← List.flatMap_def, ← foldl_appendNew]
  exact (foldl_part TypeNode.directives some (fun xs d => appendNew xs d.2.directives)
    (fun _ _ => rfl) ds { kind }).trans (by rw [List.filterMap_some])

/-- Where the first declaration of a part is taken over, and what is new in the directives of later
ones is appended, they are gathered from all of them. -/
theorem directives_of_fold {A B : Type} (directives : B → List Directive)
    (declared : A → List Directive) (absorb : Option B → A → B)
    (hnone : ∀ a, directives (absorb none a) = declared a)
    (hsome : ∀ a b, directives (absorb (some b) a) = appendNew (directives b) (declared a))
    (l : List A) {xs : List Directive} :
    (∃ b, l.foldl (fun b? a => some (absorb b? a)) none = some b ∧ xs = directives b) ↔
      l.map declared ≠ [] ∧ xs = gathered (l.map declared) := by
  have key : ∀ (l : List A) (b : B),
      (l.foldl (fun b? a => some (absorb b? a)) (some b)).map directives =
        some (appendNew (directives b) (l.map declared).flatten) := by
    intro l
    induction l with
    | nil => intro b; rfl
    | cons a l ih =>
      intro b
      rw [List.foldl_cons, ih, hsome, List.map_cons, List.flatten_cons, appendNew_append]
  cases l with
  | nil => simp
  | cons a l =>
    obtain ⟨b, hb, hgathered⟩ := Option.map_eq_some_iff.1 (key l (absorb none a))
    rw [hnone] at hgathered
    simp only [List.foldl_cons, hb, Option.some.injEq, exists_eq_left', hgathered]
    exact ⟨fun hxs => ⟨List.cons_ne_nil _ _, hxs⟩, And.right⟩

/-- The directives that declarations give an enum value. -/
def valueDirectives (ds : List (SubgraphId × TypeDeclaration)) (m : Name) :
    List (List Directive) :=
  ds.filterMap fun d => (d.2.values.get? m).map (·.directives)

/-- The directives that declarations give an input field. -/
def inputDirectives (ds : List (SubgraphId × TypeDeclaration)) (m : Name) :
    List (List Directive) :=
  ds.filterMap fun d => (d.2.inputs.get? m).map (·.directives)

theorem exists_get?_values_iff {xs : List Directive} :
    (∃ v, (ofDeclarations names kind ds).values.get? m = some v ∧ xs = v.directives) ↔
      valueDirectives ds m ≠ [] ∧ xs = gathered (valueDirectives ds m) := by
  have hmap : valueDirectives ds m =
      (ds.filterMap fun d => d.2.values.get? m).map (·.directives) := by
    rw [valueDirectives, List.map_filterMap]
  rw [get?_values, hmap]
  exact directives_of_fold EnumValueDefinition.directives EnumValueDefinition.directives
    (fun v? v => v.absorb v?) (fun _ => rfl) (fun _ _ => rfl) _

theorem exists_get?_inputs_iff {xs : List Directive} :
    (∃ node, (ofDeclarations names kind ds).inputs.get? m = some node ∧
      xs = node.definition.directives) ↔
      inputDirectives ds m ≠ [] ∧ xs = gathered (inputDirectives ds m) := by
  have hmap : inputDirectives ds m = (inputsOf ds m).map (·.2.directives) := by
    rw [inputDirectives, inputsOf, List.map_filterMap]
    simp only [Option.map_map]
    rfl
  rw [get?_inputs, hmap]
  exact directives_of_fold (fun node : InputNode => node.definition.directives)
    (fun e : SubgraphId × InputValue => e.2.directives) (fun v? e => InputNode.absorb e.1 e.2 v?)
    (fun _ => rfl) (fun _ _ => rfl) _

end TypeNode

end Federation
