import Federation.FirstSeen
import Federation.Resolvability.Position

/-!
# Only finitely many positions

A walk carries provided selections along, and at every field new ones are appended to them.  They
cannot grow without bound: what is inherited below a field weighs at most half of what there was
(`two_mul_weight_le_of_selectionOf?`), and what is appended was provided somewhere in the graph.

An `Extent` bounds the parts of a position: its type, the names in its selections, its subgraphs,
and the weight of its selections.  Within an extent there are finitely many positions
(`Extent.mem_positions_iff`), and an extent that covers the graph is never left by a step
(`Extent.Covers.within_of_mem_steps`).  So the positions that lie ahead of a walk and are not yet
on its path get fewer with every step (`Graph.unvisited_lt`).
-/

namespace Federation

/-! ### The size of field sets -/

namespace FieldSet

/-- All names in a field set, of fields and in conditions, at every depth. -/
def allNames : FieldSet → List Name
  | empty => []
  | field n sub rest => n :: (sub.allNames ++ rest.allNames)
  | fragment c sub rest => c.toList ++ (sub.allNames ++ rest.allNames)

/-- The number of selections, where those below a field count twice for every field above. -/
def weight : FieldSet → Nat
  | empty => 0
  | field _ sub rest => 1 + 2 * sub.weight + rest.weight
  | fragment _ sub rest => 1 + sub.weight + rest.weight

@[simp] theorem weight_append (f g : FieldSet) : (f ++ g).weight = f.weight + g.weight := by
  induction f with
  | empty => simp [weight]
  | field n sub rest _ ih => simp only [field_append, weight, ih]; omega
  | fragment c sub rest _ ih => simp only [fragment_append, weight, ih]; omega

@[simp] theorem allNames_append (f g : FieldSet) :
    (f ++ g).allNames = f.allNames ++ g.allNames := by
  induction f with
  | empty => rfl
  | field n sub rest _ ih => simp [allNames, ih]
  | fragment c sub rest _ ih => simp [allNames, ih]

/-- The weight of a selection that may be missing. -/
def weight? (f : Option FieldSet) : Nat := f.elim 0 weight

@[simp] theorem weight?_merge? (f g : Option FieldSet) :
    weight? (merge? f g) = weight? f + weight? g := by
  cases f <;> cases g <;> simp [merge?, weight?]

theorem two_mul_weight?_selectionOf?_le (name : Name) (f : FieldSet) :
    2 * weight? (f.selectionOf? name) ≤ f.weight := by
  induction f with
  | empty => simp [selectionOf?, weight?]
  | field n sub rest _ ih =>
    by_cases h : n = name
    · simp only [selectionOf?, h, if_true, weight?_merge?, weight]
      simp only [weight?, Option.elim] at ih ⊢
      omega
    · simp only [selectionOf?, h, if_false, weight]; omega
  | fragment c sub rest ihs ihr =>
    cases c with
    | none => simp only [selectionOf?, weight?_merge?, weight]; omega
    | some c => simp only [selectionOf?, weight]; omega

/-- What is inherited below a field weighs at most half of what there was. -/
theorem two_mul_weight_le_of_selectionOf? {name : Name} {f s : FieldSet}
    (h : f.selectionOf? name = some s) : 2 * s.weight ≤ f.weight := by
  have := two_mul_weight?_selectionOf?_le name f
  rwa [h] at this

theorem mem_allNames_merge? {f g : Option FieldSet} {s : FieldSet} {n : Name}
    (h : merge? f g = some s) (hn : n ∈ s.allNames) :
    (∃ a, f = some a ∧ n ∈ a.allNames) ∨ (∃ b, g = some b ∧ n ∈ b.allNames) := by
  cases f <;> cases g <;> simp only [merge?, Option.some.injEq, reduceCtorEq] at h
  · subst h; exact .inr ⟨_, rfl, hn⟩
  · subst h; exact .inl ⟨_, rfl, hn⟩
  · subst h
    simp only [allNames_append, List.mem_append] at hn
    exact hn.elim (fun h => .inl ⟨_, rfl, h⟩) (fun h => .inr ⟨_, rfl, h⟩)

theorem mem_allNames_of_selectionOf? {name n : Name} {f : FieldSet} : ∀ {s : FieldSet},
    f.selectionOf? name = some s → n ∈ s.allNames → n ∈ f.allNames := by
  induction f with
  | empty => intro s h; cases h
  | field m sub rest _ ih =>
    intro s h hn
    simp only [allNames, List.mem_cons, List.mem_append]
    by_cases hm : m = name
    · simp only [selectionOf?, hm, if_true] at h
      rcases mem_allNames_merge? h hn with ⟨a, ha, hna⟩ | ⟨b, hb, hnb⟩
      · cases ha; exact .inr (.inl hna)
      · exact .inr (.inr (ih hb hnb))
    · simp only [selectionOf?, hm, if_false] at h
      exact .inr (.inr (ih h hn))
  | fragment c sub rest ihs ihr =>
    intro s h hn
    simp only [allNames, List.mem_append]
    cases c with
    | none =>
      rcases mem_allNames_merge? h hn with ⟨a, ha, hna⟩ | ⟨b, hb, hnb⟩
      · exact .inr (.inl (ihs ha hna))
      · exact .inr (.inr (ihr hb hnb))
    | some c => exact .inr (.inr (ihr h hn))

theorem weight_restrict_le (holds : Name → Bool) (f : FieldSet) :
    (f.restrict holds).weight ≤ f.weight := by
  induction f with
  | empty => exact Nat.le_refl _
  | field n sub rest _ ih => simp only [restrict, weight]; omega
  | fragment c sub rest ihs ihr =>
    simp only [restrict, weight]
    split
    · simp only [weight_append]; omega
    · omega

theorem mem_allNames_of_mem_restrict {holds : Name → Bool} {n : Name} {f : FieldSet}
    (h : n ∈ (f.restrict holds).allNames) : n ∈ f.allNames := by
  induction f with
  | empty => exact h
  | field m sub rest _ ih =>
    simp only [restrict, allNames, List.mem_cons, List.mem_append] at h ⊢
    exact h.imp id (Or.imp id ih)
  | fragment c sub rest ihs ihr =>
    simp only [restrict] at h
    simp only [allNames, List.mem_append]
    split at h
    · simp only [allNames_append, List.mem_append] at h
      exact .inr (h.imp ihs ihr)
    · exact .inr (.inr (ihr h))

/-! ### Finitely many field sets -/

/-- Field sets over some names, nested and continued up to a bound. -/
def upTo (ns : List Name) : Nat → List FieldSet
  | 0 => [empty]
  | k + 1 =>
    let smaller := upTo ns k
    empty :: ((ns.flatMap fun n => smaller.flatMap fun s => smaller.map (field n s)) ++
      (none :: ns.map some).flatMap fun c => smaller.flatMap fun s => smaller.map (fragment c s))

theorem mem_upTo {ns : List Name} {f : FieldSet} : ∀ {k : Nat}, (∀ n ∈ f.allNames, n ∈ ns) →
    f.weight ≤ k → f ∈ upTo ns k := by
  induction f with
  | empty => intro k _ _; cases k <;> simp [upTo]
  | field n sub rest ihs ihr =>
    intro k hn hk
    simp only [weight] at hk
    obtain ⟨k, rfl⟩ : ∃ j, k = j + 1 := ⟨k - 1, by omega⟩
    -- The selection itself weighs something, so one bound less is enough for its parts.
    simp only [allNames, List.mem_cons, List.mem_append] at hn
    have hs := ihs (k := k) (fun m hm => hn m (.inr (.inl hm))) (by omega)
    have hr := ihr (k := k) (fun m hm => hn m (.inr (.inr hm))) (by omega)
    simp only [upTo, List.mem_cons, List.mem_append, List.mem_flatMap, List.mem_map]
    exact .inr (.inl ⟨n, hn n (.inl rfl), sub, hs, rest, hr, rfl⟩)
  | fragment c sub rest ihs ihr =>
    intro k hn hk
    simp only [weight] at hk
    obtain ⟨k, rfl⟩ : ∃ j, k = j + 1 := ⟨k - 1, by omega⟩
    simp only [allNames, List.mem_append, Option.mem_toList] at hn
    have hs := ihs (k := k) (fun m hm => hn m (.inr (.inl hm))) (by omega)
    have hr := ihr (k := k) (fun m hm => hn m (.inr (.inr hm))) (by omega)
    simp only [upTo, List.mem_cons, List.mem_append, List.mem_flatMap, List.mem_map]
    refine .inr (.inr ⟨c, ?_, sub, hs, rest, hr, rfl⟩)
    cases c with
    | none => exact .inl rfl
    | some c => exact .inr ⟨c, hn c (.inl rfl), rfl⟩

end FieldSet

/-! ### Finitely many sets and maps of subgraphs -/

/-- All sets of subgraphs below a position of the batch. -/
def SubgraphSet.below : SubgraphId → List SubgraphSet
  | 0 => [∅]
  | k + 1 => below k ++ (below k).map fun s => s.insert k

theorem SubgraphSet.mem_below : ∀ {k : Nat} {s : SubgraphSet}, (∀ i ∈ s, i < k) → s ∈ below k
  | 0, s, h => by
    have : s = ∅ := SubgraphSet.ext_mem fun i => by
      simp only [SubgraphSet.not_mem_empty, iff_false]
      exact fun hi => absurd (h i hi) (Nat.not_lt_zero i)
    simp [below, this]
  | k + 1, s, h => by
    have hlow : ∀ i ∈ s.filter (· ≠ k), i < k := by
      intro i hi
      simp only [SubgraphSet.mem_filter, decide_eq_true_eq] at hi
      exact Nat.lt_of_le_of_ne (Nat.le_of_lt_succ (h i hi.1)) hi.2
    simp only [below, List.mem_append, List.mem_map]
    by_cases hk : k ∈ s
    · -- The set is what is left without the last position, with that position put back.
      refine .inr ⟨s.filter (· ≠ k), mem_below hlow, SubgraphSet.ext_mem fun i => ?_⟩
      simp only [SubgraphSet.mem_insert, SubgraphSet.mem_filter, decide_eq_true_eq]
      by_cases hi : i = k
      · simp [hi, hk]
      · simp [hi]
    · left
      have : s.filter (· ≠ k) = s := SubgraphSet.ext_mem fun i => by
        simp only [SubgraphSet.mem_filter, decide_eq_true_eq, and_iff_left_iff_imp]
        rintro hi rfl
        exact hk hi
      rw [← this]
      exact mem_below hlow

/-- All maps from subgraphs below a position of the batch to some values. -/
def SubgraphMap.below {α : Type} (values : List α) : SubgraphId → List (SubgraphMap α)
  | 0 => [∅]
  | k + 1 => below values k ++ (below values k).flatMap fun m => values.map fun a => m.insert k a

theorem SubgraphMap.mem_below {α : Type} {values : List α} : ∀ {k : Nat} {m : SubgraphMap α},
    (∀ i a, m.get? i = some a → i < k ∧ a ∈ values) → m ∈ below values k
  | 0, m, h => by
    have : m = ∅ := SubgraphMap.ext_get? fun i => by
      cases hi : m.get? i with
      | none => rfl
      | some a => exact absurd (h i a hi).1 (Nat.not_lt_zero i)
    simp [below, this]
  | k + 1, m, h => by
    -- Induction on the bound: without its entry at `k` the map is below `k`.
    have hlow : ∀ i a, (m.filter (· ≠ k)).get? i = some a → i < k ∧ a ∈ values := by
      intro i a hi
      simp only [SubgraphMap.get?_filter, decide_eq_true_eq] at hi
      split at hi
      · rename_i hne
        have := h i a hi
        exact ⟨Nat.lt_of_le_of_ne (Nat.le_of_lt_succ this.1) hne, this.2⟩
      · cases hi
    simp only [below, List.mem_append, List.mem_flatMap, List.mem_map]
    cases hk : m.get? k with
    | some a =>
      refine .inr ⟨m.filter (· ≠ k), mem_below hlow, a, (h k a hk).2, ?_⟩
      refine SubgraphMap.ext_get? fun i => ?_
      by_cases hi : i = k
      · rw [hi, SubgraphMap.get?_insert_self, hk]
      · rw [SubgraphMap.get?_insert_of_ne _ _ hi, SubgraphMap.get?_filter]
        simp [hi]
    | none =>
      left
      have : m.filter (· ≠ k) = m := SubgraphMap.ext_get? fun i => by
        rw [SubgraphMap.get?_filter]
        by_cases hi : i = k
        · simp [hi, hk]
        · simp [hi]
      rw [← this]
      exact mem_below hlow

/-! ### Extents -/

/-- Bounds on the parts of positions. -/
structure Extent where
  types : List Name
  names : List Name
  ids : SubgraphId
  weight : Nat

/-- A position lies within an extent when all its parts keep to the bounds. -/
def Position.Within (e : Extent) (p : Position) : Prop :=
  p.type ∈ e.types ∧ (∀ i ∈ p.resolving.ids, i < e.ids) ∧
    ∀ x ∈ p.provided.entries,
      x.1 < e.ids ∧ (∀ n ∈ x.2.allNames, n ∈ e.names) ∧ x.2.weight ≤ e.weight

instance (e : Extent) : DecidablePred (Position.Within e) := fun _ =>
  inferInstanceAs (Decidable (_ ∧ _ ∧ _))

namespace Extent

/-- The positions within an extent. -/
def positions (e : Extent) : List Position :=
  ((e.types.flatMap fun t => (SubgraphSet.below e.ids).flatMap fun s =>
    (SubgraphMap.below (FieldSet.upTo e.names e.weight) e.ids).map fun m => ⟨t, s, m⟩).filter
      fun p => p.Within e).eraseDups

theorem mem_positions_iff {e : Extent} {p : Position} : p ∈ e.positions ↔ p.Within e := by
  simp only [positions, List.mem_eraseDups, List.mem_filter, decide_eq_true_eq]
  constructor
  · exact And.right
  · intro h
    refine ⟨?_, h⟩
    obtain ⟨ht, hr, hp⟩ := h
    simp only [List.mem_flatMap, List.mem_map]
    refine ⟨p.type, ht, p.resolving, SubgraphSet.mem_below hr, p.provided, ?_, rfl⟩
    refine SubgraphMap.mem_below fun i F hF => ?_
    obtain ⟨h1, h2, h3⟩ := hp (i, F) (SubgraphMap.get?_eq_some_iff.1 hF)
    exact ⟨h1, FieldSet.mem_upTo h2 h3⟩

theorem nodup_positions (e : Extent) : e.positions.Nodup := by
  rw [positions, ← appendNew_nil]
  exact nodup_appendNew List.nodup_nil

/-- An extent covers a graph when what a step takes from the graph keeps to the bounds. -/
structure Covers (e : Extent) (g : Graph) : Prop where
  /-- Every type of the graph is within the bounds. -/
  types : ∀ n ∈ g.types.names, n ∈ e.types
  /-- Every holder of a key is within the bounds. -/
  keyHolders : ∀ n t, g.types.get? n = some t → ∀ i ∈ Graph.keyHolders t, i < e.ids
  /-- What is provided with a field is made of names within the bounds, and takes up at most half
  of the weight. -/
  provisions : ∀ n t, g.types.get? n = some t → ∀ m f, t.fields.get? m = some f →
    ∀ i F, f.provides.get? i = some F → (∀ k ∈ F.allNames, k ∈ e.names) ∧ 2 * F.weight ≤ e.weight

end Extent

/-! ### Steps stay within an extent -/

namespace Graph

theorem mem_reach {g : Graph} {node : TypeNode} {reached : SubgraphSet} {i : SubgraphId}
    (h : i ∈ g.reach node reached) : i ∈ reached ∨ i ∈ keyHolders node := by
  fun_induction Graph.reach g node reached with
  | case1 reached _ => exact .inl h
  | case2 reached _ ih =>
    rcases ih h with h | h
    · rcases SubgraphSet.mem_union.1 h with h | h
      · exact .inl h
      · exact .inr (mem_keyHolders_of_mem_enterable h)
    · exact .inr h

/-- What a position below a field can be: an object type of the graph, with subgraphs that
resolve the field or hold a key, and with a part of what is provided below the field. -/
structure Arrives (g : Graph) (returns : Name) (resolving : SubgraphSet)
    (provided : SubgraphMap FieldSet) (p : Position) : Prop where
  /-- The type is one of the graph. -/
  type : p.type ∈ g.types.names
  /-- The subgraphs resolve the field, or hold a key of the type that the field returns. -/
  resolving : ∀ i ∈ p.resolving, i ∈ resolving ∨
    ∃ t, g.types.get? returns = some t ∧ i ∈ keyHolders t
  /-- What a subgraph provides is what it provided, or a restriction of it. -/
  provided : ∀ i F, p.provided.get? i = some F →
    ∃ G, provided.get? i = some G ∧ (F = G ∨ ∃ holds, F = G.restrict holds)

theorem arrives_of_mem_possibleArrivals {g : Graph} {returns : Name} {t : TypeNode}
    {resolving : SubgraphSet} {provided : SubgraphMap FieldSet} {a : Option Name × Position}
    (ht : g.types.get? returns = some t)
    (h : a ∈ g.possibleArrivals returns t resolving provided) :
    g.Arrives returns resolving provided a.2 := by
  obtain ⟨o, s, ho, _, rfl⟩ := mem_possibleArrivals_iff.1 h
  refine ⟨?_, fun i hi => ?_, fun i F hF => ?_⟩
  · -- A possible type is an entry of the graph.
    obtain ⟨node, hnode, _⟩ := mem_possibleTypes_iff.1 ho
    exact Table.mem_names_iff.2 ⟨node, hnode⟩
  · exact (mem_reach (SubgraphSet.mem_inter.1 hi).1).imp id fun h => ⟨t, ht, h⟩
  · rw [SubgraphMap.get?_map] at hF
    obtain ⟨G, hG, rfl⟩ := Option.map_eq_some_iff.1 hF
    rw [SubgraphMap.get?_filter] at hG
    split at hG
    · exact ⟨G, hG, .inr ⟨_, rfl⟩⟩
    · cases hG

theorem arrives_of_mem_arrivals {g : Graph} {returns : Name} {resolving : SubgraphSet}
    {provided : SubgraphMap FieldSet} {a : Option Name × Position}
    (h : a ∈ g.arrivals returns resolving provided) :
    g.Arrives returns resolving provided a.2 := by
  obtain ⟨t, ht, ⟨_, rfl⟩ | ⟨_, h⟩⟩ := mem_arrivals_iff.1 h
  · -- An object type: everything stays as it is.
    exact ⟨Table.mem_names_iff.2 ⟨t, ht⟩, fun i hi => .inl hi, fun i F hF => ⟨F, hF, .inl rfl⟩⟩
  · exact arrives_of_mem_possibleArrivals ht h

/-- Where a step leads: to a position at which some field of the type arrives. -/
theorem of_mem_steps {g : Graph} {p q : Position} {field : Name} {possible : Option Name}
    (h : .descend field possible q ∈ g.steps p) :
    ∃ node f, g.types.get? p.type = some node ∧ node.fields.get? field = some f ∧
      let next := g.resolversAt node (g.reach node p.resolving) p.provided field f
      (possible, q) ∈ g.arrivals f.returns next (providedBelow p.provided field f next) := by
  unfold steps at h
  split at h
  · cases h
  · rename_i node hnode
    obtain ⟨⟨n, f⟩, hf, h⟩ := List.mem_flatMap.1 h
    simp only [fieldSteps] at h
    split at h
    · split at h
      · cases h
      · simp at h
    · obtain ⟨a, ha, h⟩ := List.mem_map.1 h
      cases h
      exact ⟨node, f, hnode, Table.get?_eq_some_iff.2 hf, ha⟩

end Graph

namespace Extent

variable {e : Extent} {g : Graph}

/-- What a position within an extent passes on below a field takes up half of the weight. -/
theorem bounds_of_inherited {p : Position} (hp : p.Within e) (field : Name) (i : SubgraphId)
    {s : FieldSet}
    (h : ((p.provided.get? i).bind (FieldSet.selectionOf? field)).filter
      (fun F => !F.isEmpty) = some s) :
    (∀ n ∈ s.allNames, n ∈ e.names) ∧ 2 * s.weight ≤ e.weight := by
  obtain ⟨h, _⟩ := Option.filter_eq_some_iff.1 h
  obtain ⟨F, hF, h⟩ := Option.bind_eq_some_iff.1 h
  obtain ⟨_, hnames, hweight⟩ := hp.2.2 (i, F) (SubgraphMap.get?_eq_some_iff.1 hF)
  refine ⟨fun n hn => hnames n (FieldSet.mem_allNames_of_selectionOf? h hn), ?_⟩
  exact Nat.le_trans (FieldSet.two_mul_weight_le_of_selectionOf? h) hweight

/-- What is provided below a field of a position within an extent keeps to its bounds: half of the
weight is there for what is inherited, and half for what comes with the field. -/
theorem Covers.bounds_of_providedAt (he : e.Covers g) {p : Position} (hp : p.Within e)
    {node : TypeNode} (hnode : g.types.get? p.type = some node) {field : Name} {f : FieldNode}
    (hf : node.fields.get? field = some f) {i : SubgraphId} {G : FieldSet}
    (hG : Graph.providedAt p.provided field f i = some G) :
    (∀ n ∈ G.allNames, n ∈ e.names) ∧ G.weight ≤ e.weight := by
  have hown := he.provisions _ _ hnode _ _ hf i
  have half : ∀ {x : Option FieldSet}, (∀ s, x = some s → 2 * s.weight ≤ e.weight) →
      2 * FieldSet.weight? x ≤ e.weight := by
    intro x hx
    cases x with
    | none => exact Nat.zero_le _
    | some s => exact hx s rfl
  constructor
  · intro n hn
    rcases FieldSet.mem_allNames_merge? hG hn with ⟨a, ha, hna⟩ | ⟨b, hb, hnb⟩
    · exact (bounds_of_inherited hp field i ha).1 n hna
    · exact (hown b hb).1 n hnb
  · have hw : FieldSet.weight? (some G) = _ := congrArg FieldSet.weight? hG.symm
    rw [Graph.providedAt, FieldSet.weight?_merge?] at hw
    have h1 := half fun s hs => (bounds_of_inherited hp field i hs).2
    have h2 := half fun s hs => (hown s hs).2
    show FieldSet.weight? (some G) ≤ e.weight
    omega

/-- A step from a position within an extent that covers the graph does not leave the extent. -/
theorem Covers.within_of_mem_steps (he : e.Covers g) {p q : Position} (hp : p.Within e)
    {field : Name} {possible : Option Name} (h : .descend field possible q ∈ g.steps p) :
    q.Within e := by
  obtain ⟨node, f, hnode, hf, hq⟩ := Graph.of_mem_steps h
  have hq := Graph.arrives_of_mem_arrivals hq
  -- Whoever is in reach was there before or holds a key.
  have hnext : ∀ i ∈ g.resolversAt node (g.reach node p.resolving) p.provided field f,
      i < e.ids := by
    intro i hi
    rcases Graph.mem_reach (SubgraphSet.mem_filter.1 hi).1 with h | h
    · exact hp.2.1 i h
    · exact he.keyHolders _ _ hnode i h
  refine ⟨he.types _ hq.type, fun i hi => ?_, fun ⟨i, F⟩ hF => ?_⟩
  · rcases hq.resolving i hi with h | ⟨t, ht, h⟩
    · exact hnext i h
    · exact he.keyHolders _ _ ht i h
  · obtain ⟨G, hG, hFG⟩ := hq.provided i F (SubgraphMap.get?_eq_some_iff.2 hF)
    rw [Graph.providedBelow, SubgraphMap.get?_ofSet] at hG
    split at hG
    · rename_i hi
      obtain ⟨hnames, hweight⟩ := he.bounds_of_providedAt hp hnode hf hG
      refine ⟨hnext i hi, ?_⟩
      rcases hFG with rfl | ⟨holds, rfl⟩
      · exact ⟨hnames, hweight⟩
      · -- Restricting a selection neither adds a name nor weight.
        exact ⟨fun n hn => hnames n (FieldSet.mem_allNames_of_mem_restrict hn),
          Nat.le_trans (FieldSet.weight_restrict_le _ _) hweight⟩
    · cases hG

end Extent

/-! ### The extent of a walk -/

/-- The greatest of some numbers is no more than what bounds them all. -/
theorem max?_getD_le {b : Nat} {l : List Nat} (h : ∀ k ∈ l, k ≤ b) : l.max?.getD 0 ≤ b := by
  cases hmax : l.max? with
  | none => exact Nat.zero_le b
  | some k => exact h k (List.max?_mem hmax)

namespace Graph

/-- All selections that are provided with some field of the graph. -/
def provisions (g : Graph) : List FieldSet :=
  g.types.values.flatMap fun t => t.fields.values.flatMap fun f =>
    f.provides.entries.map Prod.snd

/-- The least bounds that hold a position and cover the graph. -/
def extent (g : Graph) (p : Position) : Extent where
  types := p.type :: g.types.names
  names := p.provided.entries.flatMap (fun x => x.2.allNames) ++
    g.provisions.flatMap FieldSet.allNames
  ids := (p.resolving.ids ++ p.provided.entries.map Prod.fst ++
    g.types.values.flatMap fun t => (keyHolders t).ids).max?.getD 0 + 1
  weight := max (2 * (g.provisions.map FieldSet.weight).max?.getD 0)
    ((p.provided.entries.map fun x => x.2.weight).max?.getD 0)

theorem within_extent (g : Graph) (p : Position) : p.Within (g.extent p) := by
  refine ⟨List.mem_cons_self, fun i hi => ?_, fun x hx => ⟨?_, fun n hn => ?_, ?_⟩⟩
  · refine Nat.lt_succ_of_le (List.le_max?_getD_of_mem ?_)
    simp only [List.mem_append]
    exact .inl (.inl hi)
  · refine Nat.lt_succ_of_le (List.le_max?_getD_of_mem ?_)
    simp only [List.mem_append]
    exact .inl (.inr (List.mem_map_of_mem hx))
  · simp only [extent, List.mem_append, List.mem_flatMap]
    exact .inl ⟨x, hx, hn⟩
  · refine Nat.le_trans (List.le_max?_getD_of_mem ?_) (Nat.le_max_right _ _)
    exact List.mem_map_of_mem (f := fun x => x.2.weight) hx

theorem mem_values_of_get? {α : Type} {t : Table α} {n : Name} {a : α}
    (h : t.get? n = some a) : a ∈ t.values :=
  List.mem_map_of_mem (f := Prod.snd) (Table.get?_eq_some_iff.1 h)

theorem covers_extent (g : Graph) (p : Position) : (g.extent p).Covers g where
  types n hn := List.mem_cons_of_mem _ hn
  keyHolders n t ht i hi := by
    refine Nat.lt_succ_of_le (List.le_max?_getD_of_mem ?_)
    simp only [List.mem_append, List.mem_flatMap]
    exact .inr ⟨t, mem_values_of_get? ht, hi⟩
  provisions n t ht m f hf i F hF := by
    have hmem : F ∈ g.provisions := by
      simp only [provisions, List.mem_flatMap]
      exact ⟨t, mem_values_of_get? ht, f, mem_values_of_get? hf,
        List.mem_map_of_mem (f := Prod.snd) (SubgraphMap.get?_eq_some_iff.1 hF)⟩
    refine ⟨fun k hk => ?_, ?_⟩
    · simp only [extent, List.mem_append, List.mem_flatMap]
      exact .inr ⟨F, hmem, hk⟩
    · have hweight : F.weight ≤ (g.provisions.map FieldSet.weight).max?.getD 0 :=
        List.le_max?_getD_of_mem (List.mem_map_of_mem hmem)
      exact Nat.le_trans (Nat.mul_le_mul_left 2 hweight) (Nat.le_max_left _ _)

/-- A position within the extent of another one has no greater extent. -/
theorem within_extent_of_within {g : Graph} {p q r : Position} (hq : q.Within (g.extent p))
    (hr : r.Within (g.extent q)) : r.Within (g.extent p) := by
  obtain ⟨hqt, hqi, hqp⟩ := hq
  obtain ⟨hrt, hri, hrp⟩ := hr
  have hcov := covers_extent g p
  -- The lists, names and weights that `q` is measured by come from `q` itself, which is bounded by
  -- the extent of `p`, or from the graph, which both extents cover.
  have hids : (g.extent q).ids ≤ (g.extent p).ids := by
    refine Nat.succ_le_of_lt (Nat.lt_succ_of_le (max?_getD_le fun k hk => ?_))
    simp only [List.mem_append, List.mem_flatMap, List.mem_map] at hk
    rcases hk with (hk | ⟨x, hx, rfl⟩) | ⟨t, ht, hk⟩
    · exact Nat.le_of_lt_succ (hqi k hk)
    · exact Nat.le_of_lt_succ (hqp x hx).1
    · refine List.le_max?_getD_of_mem ?_
      simp only [List.mem_append, List.mem_flatMap]
      exact .inr ⟨t, ht, hk⟩
  have hnames : ∀ n ∈ (g.extent q).names, n ∈ (g.extent p).names := by
    intro n hn
    simp only [extent, List.mem_append, List.mem_flatMap] at hn
    rcases hn with ⟨x, hx, hn⟩ | ⟨F, hF, hn⟩
    · exact (hqp x hx).2.1 n hn
    · simp only [extent, List.mem_append, List.mem_flatMap]
      exact .inr ⟨F, hF, hn⟩
  have hweight : (g.extent q).weight ≤ (g.extent p).weight := by
    refine Nat.max_le.2 ⟨Nat.le_max_left _ _, max?_getD_le fun k hk => ?_⟩
    obtain ⟨x, hx, rfl⟩ := List.mem_map.1 hk
    exact (hqp x hx).2.2
  refine ⟨?_, fun i hi => Nat.lt_of_lt_of_le (hri i hi) hids, fun x hx => ?_⟩
  · rcases List.mem_cons.1 hrt with h | h
    · rw [h]; exact hqt
    · exact hcov.types _ h
  · obtain ⟨h1, h2, h3⟩ := hrp x hx
    exact ⟨Nat.lt_of_lt_of_le h1 hids, fun n hn => hnames n (h2 n hn), Nat.le_trans h3 hweight⟩

/-- The number of positions that lie ahead of a position and are not among its ancestors. -/
def unvisited (g : Graph) (ancestors : List Position) (p : Position) : Nat :=
  ((g.extent p).positions.filter fun q => q ∉ ancestors).length

/-- Every step of a walk that does not come back to its path leaves fewer positions ahead. -/
theorem unvisited_lt {g : Graph} {ancestors : List Position} {p q : Position}
    (hp : p ∉ ancestors) {field : Name} {possible : Option Name}
    (h : .descend field possible q ∈ g.steps p) :
    g.unvisited (p :: ancestors) q < g.unvisited ancestors p := by
  have hpe := within_extent g p
  -- All that lies ahead of the next position lies ahead of this one.
  have hqe := (covers_extent g p).within_of_mem_steps hpe h
  -- The position itself is counted before the step and not after it.
  have hnodup : (p :: (g.extent q).positions.filter
      fun r => r ∉ p :: ancestors).Nodup := by
    refine List.nodup_cons.2 ⟨fun hm => ?_, (Extent.nodup_positions _).filter _⟩
    simp [List.mem_filter] at hm
  have hsub : (p :: (g.extent q).positions.filter fun r => r ∉ p :: ancestors) ⊆
      (g.extent p).positions.filter fun r => r ∉ ancestors := by
    intro r hr
    simp only [List.mem_cons, List.mem_filter, not_or, decide_eq_true_eq,
      Extent.mem_positions_iff] at hr ⊢
    rcases hr with rfl | ⟨hr, _, hra⟩
    · exact ⟨hpe, hp⟩
    · exact ⟨within_extent_of_within hqe hr, hra⟩
  exact hnodup.length_le_of_subset hsub

end Graph

end Federation
