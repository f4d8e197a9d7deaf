import Federation.Proofs.Related
import Federation.Resolvability.Reach
import Mathlib.Logic.Relation
import Mathlib.Order.Bounds.Basic

/-!
# Jumps through keys

Whether a selection can be resolved depends on who resolves its fields, and on nothing else of a
graph (`canResolve_eq_of_sameResolvers`).

`Graph.reach` enters subgraphs in rounds, each of them against the set of the round before.  The
rounds make no difference (`isLeast_closed_reach`):

* more subgraphs resolve no less (`canResolve_mono`), so a subgraph that can be entered can still
  be entered later on;
* what is reached is the least set with those that were there from the start and with everyone who
  has a resolvable key that the set can resolve (`isLeast_reach`);
* entering some subgraphs does not change what is reached in the end (`Enters.reach_eq`), and every
  order of entering them ends (`wellFounded_enters`);
* whoever is reached ends a chain of single jumps (`mem_reach_iff`).
-/

namespace Federation

/-- Sets of subgraphs are ordered by inclusion. -/
instance : PartialOrder SubgraphSet where
  le s t := ∀ i ∈ s, i ∈ t
  le_refl _ _ hi := hi
  le_trans _ _ _ hst htu i hi := htu i (hst i hi)
  le_antisymm _ _ hst hts := SubgraphSet.ext_mem fun i => ⟨hst i, hts i⟩

namespace SubgraphSet

theorem le_union_left (s t : SubgraphSet) : s ≤ s.union t :=
  fun _ hi => mem_union.2 (.inl hi)

theorem union_le {s t u : SubgraphSet} (hs : s ≤ u) (ht : t ≤ u) : s.union t ≤ u := by
  intro i hi
  exact (mem_union.1 hi).elim (hs i) (ht i)

theorem insert_le {s t : SubgraphSet} (hs : s ≤ t) {i : SubgraphId} (hi : i ∈ t) :
    s.insert i ≤ t := by
  intro j hj
  rcases mem_insert.1 hj with rfl | hj
  · exact hi
  · exact hs j hj

end SubgraphSet

/-- Types that a selection cannot tell apart: their fields are resolved by the same subgraphs, and
return the same types. -/
def TypeNode.SameResolvers (t t' : TypeNode) : Prop :=
  ∀ m, Option.Rel (fun f f' : FieldNode => f'.resolvers = f.resolvers ∧ f'.returns = f.returns)
    (t.fields.get? m) (t'.fields.get? m)

namespace Graph

/-! ### What a selection depends on -/

/-- In graphs with the same resolvers the same selections can be resolved. -/
theorem canResolve_eq_of_sameResolvers {g g' : Graph}
    (h : ∀ n, Option.Rel TypeNode.SameResolvers (g.types.get? n) (g'.types.get? n))
    {t t' : TypeNode} (ht : t.SameResolvers t') (available : SubgraphSet) (F : FieldSet) :
    g'.canResolve available t' F = g.canResolve available t F := by
  induction F generalizing available t t' with
  | empty => rfl
  | field m sub rest ihs ihr =>
    rw [canResolve, canResolve, ihr ht]
    rcases rel_cases (ht m) with ⟨hm, hm'⟩ | ⟨f, f', hm, hm', hresolvers, hreturns⟩
    · rw [hm, hm']
    · rw [hm, hm']
      simp only [hresolvers, hreturns]
      rcases rel_cases (h f.returns) with ⟨hc, hc'⟩ | ⟨c, c', hc, hc', hcc⟩
      · rw [hc, hc']
      · rw [hc, hc']
        simp only [ihs hcc]
  -- Below a condition the type that it names is read, if there is one.
  | fragment condition sub rest ihs ihr =>
    rw [canResolve, canResolve, ihr ht]
    cases condition with
    | none => rw [Option.bind_none, Option.bind_none, Option.getD_none, Option.getD_none, ihs ht]
    | some n =>
      rw [Option.bind_some, Option.bind_some]
      rcases rel_cases (h n) with ⟨hc, hc'⟩ | ⟨c, c', hc, hc', hcc⟩
      · rw [hc, hc', Option.getD_none, Option.getD_none, ihs ht]
      · rw [hc, hc', Option.getD_some, Option.getD_some, ihs hcc]

variable {g : Graph} {node : TypeNode} {s t : SubgraphSet}

/-! ### More subgraphs resolve no less -/

/-- What some subgraphs can resolve, more subgraphs can resolve too. -/
theorem canResolve_mono (hst : s ≤ t) {F : FieldSet} (hF : g.canResolve s node F = true) :
    g.canResolve t node F = true := by
  -- The sets become smaller below a field, so the induction is for all of them.
  induction F generalizing s t node with
  | empty => rw [canResolve]
  | field n sub rest ihs ihr =>
    rw [canResolve, Bool.and_eq_true] at hF ⊢
    obtain ⟨hfield, hrest⟩ := hF
    refine ⟨?_, ihr hst hrest⟩
    cases hf : node.fields.get? n with
    | none => simp [hf] at hfield
    | some f =>
      simp only [hf, Bool.and_eq_true, Bool.or_eq_true, Bool.not_eq_true'] at hfield ⊢
      obtain ⟨hne, hsub⟩ := hfield
      have hinter : f.resolvers.inter s ≤ f.resolvers.inter t := by
        intro i hi
        rw [SubgraphSet.mem_inter] at hi ⊢
        exact ⟨hi.1, hst i hi.2⟩
      constructor
      · obtain ⟨i, hi⟩ := SubgraphSet.isEmpty_eq_false_iff.1 hne
        exact SubgraphSet.isEmpty_eq_false_iff.2 ⟨i, hinter i hi⟩
      · apply hsub.imp_right
        intro hchild
        cases hc : g.types.get? f.returns with
        | none => simp [hc] at hchild
        | some child =>
          simp only [hc] at hchild ⊢
          exact ihs hinter hchild
  | fragment c sub rest ihs ihr =>
    rw [canResolve, Bool.and_eq_true] at hF ⊢
    exact ⟨ihs hst hF.1, ihr hst hF.2⟩

/-! ### Sets that nobody can join -/

/-- Whoever has a resolvable key that the subgraphs of a set can resolve is in the set. -/
def Closed (g : Graph) (node : TypeNode) (s : SubgraphSet) : Prop :=
  ∀ e ∈ node.resolvableKeys, g.canResolve s node e.2.fields = true → e.1 ∈ s

theorem closed_iff : g.Closed node s ↔ (g.enterable node s).isEmpty = true := by
  rw [SubgraphSet.isEmpty_iff]
  constructor
  · intro hs i hi
    obtain ⟨hnot, k, hk, hcan⟩ := mem_enterable_iff.1 hi
    exact hnot (hs (i, k) hk hcan)
  · intro hempty e he hcan
    by_contra hnot
    exact hempty e.1 (mem_enterable_iff.2 ⟨hnot, e.2, he, hcan⟩)

/-- A set that nobody can join has everyone in it who can be entered from a part of it. -/
theorem Closed.enterable_le (ht : g.Closed node t) (hst : s ≤ t) : g.enterable node s ≤ t := by
  intro i hi
  obtain ⟨_, k, hk, hcan⟩ := mem_enterable_iff.1 hi
  exact ht (i, k) hk (canResolve_mono hst hcan)

theorem le_reach (g : Graph) (node : TypeNode) (s : SubgraphSet) : s ≤ g.reach node s :=
  fun _ hi => subset_reach hi

/-- The rounds go on until nobody can join. -/
theorem closed_reach (g : Graph) (node : TypeNode) (s : SubgraphSet) :
    g.Closed node (g.reach node s) := by
  induction s using reach.induct g node with
  | case1 s hend =>
    rw [reach, if_pos hend]
    exact closed_iff.2 hend
  | case2 s hend ih =>
    rw [reach, if_neg hend]
    exact ih

/-- No round goes beyond a set that nobody can join. -/
theorem reach_le (ht : g.Closed node t) (hst : s ≤ t) : g.reach node s ≤ t := by
  induction s using reach.induct g node with
  | case1 s hend => rwa [reach, if_pos hend]
  | case2 s hend ih =>
    rw [reach, if_neg hend]
    exact ih (SubgraphSet.union_le hst (ht.enterable_le hst))

/-- What is reached is the least set that has the given subgraphs and that nobody can join. -/
theorem isLeast_reach (g : Graph) (node : TypeNode) (s : SubgraphSet) :
    IsLeast {t | s ≤ t ∧ g.Closed node t} (g.reach node s) :=
  ⟨⟨le_reach g node s, closed_reach g node s⟩, fun _ ht => reach_le ht.2 ht.1⟩

theorem reach_eq_self (hs : g.Closed node s) : g.reach node s = s :=
  le_antisymm (reach_le hs le_rfl) (le_reach g node s)

theorem monotone_reach (g : Graph) (node : TypeNode) : Monotone (g.reach node) :=
  fun _ t hst => reach_le (closed_reach g node t) (hst.trans (le_reach g node t))

/-! ### Any order of entering -/

/-- Some subgraphs that can be entered are entered: one of them, all of them, or any others. -/
def Enters (g : Graph) (node : TypeNode) (s t : SubgraphSet) : Prop :=
  ∃ new : SubgraphSet, new.isEmpty = false ∧ new ≤ g.enterable node s ∧ t = s.union new

/-- Whoever is entered first, the same subgraphs are reached in the end. -/
theorem Enters.reach_eq (h : g.Enters node s t) : g.reach node t = g.reach node s := by
  obtain ⟨new, _, hnew, rfl⟩ := h
  apply le_antisymm
  · have henterable := (closed_reach g node s).enterable_le (le_reach g node s)
    have hunion : s.union new ≤ g.reach node s :=
      SubgraphSet.union_le (le_reach g node s) (hnew.trans henterable)
    exact reach_le (closed_reach g node s) hunion
  · exact monotone_reach g node (SubgraphSet.le_union_left s new)

theorem reach_eq_of_run (h : Relation.ReflTransGen (g.Enters node) s t) :
    g.reach node t = g.reach node s := by
  induction h with
  | refl => rfl
  | tail _ hstep ih => rw [hstep.reach_eq, ih]

/-- Someone can be entered as long as the set is not closed. -/
theorem closed_iff_not_enters : g.Closed node s ↔ ∀ t, ¬ g.Enters node s t := by
  rw [closed_iff]
  constructor
  · rintro hempty t ⟨new, hne, hnew, -⟩
    obtain ⟨i, hi⟩ := SubgraphSet.isEmpty_eq_false_iff.1 hne
    exact SubgraphSet.isEmpty_iff.1 hempty i (hnew i hi)
  · intro hno
    by_contra hne
    exact hno _ ⟨g.enterable node s, by simpa using hne, le_rfl, rfl⟩

/-- The rounds are one of the orders. -/
theorem run_reach (g : Graph) (node : TypeNode) (s : SubgraphSet) :
    Relation.ReflTransGen (g.Enters node) s (g.reach node s) := by
  induction s using reach.induct g node with
  | case1 s hend => rw [reach, if_pos hend]
  | case2 s hend ih =>
    rw [reach, if_neg hend]
    have hstep : g.Enters node s (s.union (g.enterable node s)) :=
      ⟨g.enterable node s, by simpa using hend, le_rfl, rfl⟩
    exact .head hstep ih

/-- Every jump leaves fewer holders of keys to be reached. -/
theorem Enters.unreached_lt (h : g.Enters node s t) : unreached node t < unreached node s := by
  obtain ⟨new, hne, hnew, rfl⟩ := h
  obtain ⟨i, hi⟩ := SubgraphSet.isEmpty_eq_false_iff.1 hne
  have hi' := hnew i hi
  apply length_filter_lt_of_imp
  · intro a _ ha
    simp only [SubgraphSet.mem_union, not_or, decide_eq_true_eq] at ha ⊢
    exact ha.1
  · refine ⟨i, mem_keyHolders_of_mem_enterable hi', ?_, ?_⟩
    · simpa using (mem_enterable_iff.1 hi').1
    · simp [hi]

/-- No order of entering subgraphs goes on for ever. -/
theorem wellFounded_enters (g : Graph) (node : TypeNode) :
    WellFounded fun t s => g.Enters node s t :=
  Subrelation.wf (fun h => Enters.unreached_lt h) (measure (unreached node)).wf

/-! ### Chains of single jumps -/

/-- Jumps through keys, one after the other: each of them enters the subgraph of a resolvable key
whose fields can be resolved by those who are there by then. -/
def Jumps (g : Graph) (node : TypeNode) : SubgraphSet → List (SubgraphId × EntityKey) → Prop
  | _, [] => True
  | s, e :: rest => e ∈ node.resolvableKeys ∧ g.canResolve s node e.2.fields = true ∧
      g.Jumps node (s.insert e.1) rest

/-- The keys of a round: those of others that some subgraphs can resolve. -/
def keysOfRound (g : Graph) (node : TypeNode) (s : SubgraphSet) :
    List (SubgraphId × EntityKey) :=
  node.resolvableKeys.filter fun e => e.1 ∉ s && g.canResolve s node e.2.fields

/-- Those who are there after some jumps. -/
def afterJumps (s : SubgraphSet) (jumps : List (SubgraphId × EntityKey)) : SubgraphSet :=
  jumps.foldl (fun t e => t.insert e.1) s

theorem mem_afterJumps_iff {jumps : List (SubgraphId × EntityKey)} {i : SubgraphId} :
    i ∈ afterJumps s jumps ↔ i ∈ s ∨ i ∈ jumps.map Prod.fst := by
  induction jumps generalizing s with
  | nil => simp [afterJumps]
  | cons e jumps ih =>
    have hcons : afterJumps s (e :: jumps) = afterJumps (s.insert e.1) jumps := rfl
    rw [hcons, ih, SubgraphSet.mem_insert, List.map_cons, List.mem_cons]
    tauto

theorem jumps_append_iff {jumps more : List (SubgraphId × EntityKey)} :
    g.Jumps node s (jumps ++ more) ↔
      g.Jumps node s jumps ∧ g.Jumps node (afterJumps s jumps) more := by
  induction jumps generalizing s with
  | nil => simp [Jumps, afterJumps]
  | cons e jumps ih =>
    simp only [List.cons_append, Jumps, ih, and_assoc]
    rfl

/-- Whoever can be entered at once can be entered one after the other. -/
theorem jumps_of_canResolve {jumps : List (SubgraphId × EntityKey)}
    (h : ∀ e ∈ jumps, e ∈ node.resolvableKeys ∧ g.canResolve s node e.2.fields = true) :
    g.Jumps node s jumps := by
  induction jumps generalizing s with
  | nil => exact trivial
  | cons e jumps ih =>
    have hgrow : s ≤ s.insert e.1 := fun i hi => SubgraphSet.mem_insert.2 (.inr hi)
    obtain ⟨⟨hkey, hcan⟩, hrest⟩ := List.forall_mem_cons.1 h
    refine ⟨hkey, hcan, ih ?_⟩
    intro d hd
    exact ⟨(hrest d hd).1, canResolve_mono hgrow (hrest d hd).2⟩

/-- Jumps do not lead out of a set that nobody can join. -/
theorem Jumps.afterJumps_le {jumps : List (SubgraphId × EntityKey)} (h : g.Jumps node s jumps)
    (ht : g.Closed node t) (hst : s ≤ t) : afterJumps s jumps ≤ t := by
  induction jumps generalizing s with
  | nil => exact hst
  | cons e jumps ih =>
    obtain ⟨hkey, hcan, hrest⟩ := h
    have he : e.1 ∈ t := ht e hkey (canResolve_mono hst hcan)
    exact ih hrest (SubgraphSet.insert_le hst he)

/-- All who are reached can be entered one after the other. -/
theorem exists_jumps (g : Graph) (node : TypeNode) (s : SubgraphSet) :
    ∃ jumps, g.Jumps node s jumps ∧ afterJumps s jumps = g.reach node s := by
  induction s using reach.induct g node with
  | case1 s hend => exact ⟨[], trivial, by rw [reach, if_pos hend]; rfl⟩
  | case2 s hend ih =>
    obtain ⟨later, hlater, hreach⟩ := ih
    -- The jumps of the round come first, in the order in which the keys are listed.
    have hround : g.Jumps node s (g.keysOfRound node s) := by
      apply jumps_of_canResolve
      intro e he
      simp only [keysOfRound, List.mem_filter, Bool.and_eq_true] at he
      exact ⟨he.1, he.2.2⟩
    have hafter : afterJumps s (g.keysOfRound node s) = s.union (g.enterable node s) := by
      apply SubgraphSet.ext_mem
      intro i
      rw [mem_afterJumps_iff, SubgraphSet.mem_union, enterable, SubgraphSet.mem_ofList,
        keysOfRound]
    refine ⟨g.keysOfRound node s ++ later, jumps_append_iff.2 ⟨hround, by rwa [hafter]⟩, ?_⟩
    rw [reach, if_neg hend, ← hreach, ← hafter]
    exact List.foldl_append

/-- Whoever is reached was there from the start or ends a chain of jumps from there. -/
theorem mem_reach_iff {i : SubgraphId} : i ∈ g.reach node s ↔
    i ∈ s ∨ ∃ jumps k, g.Jumps node s (jumps ++ [(i, k)]) := by
  constructor
  · intro hi
    obtain ⟨jumps, hjumps, hreach⟩ := exists_jumps g node s
    rw [← hreach, mem_afterJumps_iff] at hi
    rcases hi with hi | hi
    · exact .inl hi
    · -- The chain is cut off behind the jump to the subgraph.
      obtain ⟨⟨_, k⟩, he, rfl⟩ := List.mem_map.1 hi
      obtain ⟨before, after, rfl⟩ := List.append_of_mem he
      rw [List.append_cons] at hjumps
      exact .inr ⟨before, k, (jumps_append_iff.1 hjumps).1⟩
  · rintro (hi | ⟨jumps, k, hjumps⟩)
    · exact le_reach g node s i hi
    · have hlast : i ∈ afterJumps s (jumps ++ [(i, k)]) := by
        rw [mem_afterJumps_iff]
        simp
      exact hjumps.afterJumps_le (closed_reach g node s) (le_reach g node s) i hlast

/-- **What is reached does not depend on the rounds**: it is the least set that has the resolving
subgraphs in it and everyone who has a resolvable key that the set can resolve; every order of
entering subgraphs, one at a time, in rounds or in any other portions, can be carried on to it and
cannot end elsewhere, and none goes on for ever; whoever is reached was there from the start or
ends a finite chain of jumps through keys; and from more subgraphs no less is reached. -/
theorem isLeast_closed_reach (g : Graph) (node : TypeNode) (resolving : SubgraphSet) :
    IsLeast {s | resolving ≤ s ∧ g.Closed node s} (g.reach node resolving) ∧
    ((∀ s, Relation.ReflTransGen (g.Enters node) resolving s →
        Relation.ReflTransGen (g.Enters node) s (g.reach node resolving) ∧
        ((∀ t, ¬ g.Enters node s t) → s = g.reach node resolving)) ∧
      WellFounded fun t s => g.Enters node s t) ∧
    (∀ i, i ∈ g.reach node resolving ↔
      i ∈ resolving ∨ ∃ jumps k, g.Jumps node resolving (jumps ++ [(i, k)])) ∧
    ∀ more, resolving ≤ more → g.reach node resolving ≤ g.reach node more := by
  refine ⟨isLeast_reach g node resolving, ⟨?_, wellFounded_enters g node⟩,
    fun i => mem_reach_iff, fun more hmore => monotone_reach g node hmore⟩
  intro s hs
  have hsame : g.reach node s = g.reach node resolving := reach_eq_of_run hs
  constructor
  · rw [← hsame]
    exact run_reach g node s
  · intro hend
    have hclosed : g.Closed node s := closed_iff_not_enters.2 hend
    rw [← hsame, reach_eq_self hclosed]

end Graph

end Federation
