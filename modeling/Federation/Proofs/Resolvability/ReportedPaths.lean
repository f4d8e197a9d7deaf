import Federation.Proofs.Resolvability.CycleGuard
import Federation.Proofs.Resolvability.Rendering
import Mathlib.Data.List.Pairwise
import Mathlib.Tactic.ByContra

/-!
# The paths of reports

No two reports have the same path, and nothing is reported below a path that is reported
(`pairwise_reportedPaths`).  Paths form a tree: two paths that neither is nor goes on from the other
(`Path.Apart`) stay so however they go on (`Path.Apart.mono`).  The steps of a position lead to
paths apart (`pairwise_steps`), and root fields have paths apart (`pairwise_rootFields`); what the
walk finds below them goes on from there (`leadsTo_of_mem_walk`).
-/

namespace Federation

/-! ### Paths that go on from others -/

namespace Path

/-- The path that a path goes on from. -/
def parent? : Path → Option Path
  | root _ _ => none
  | field p _ => some p
  | fragment p _ => some p

/-- Whether a path is the other one or leads on to it. -/
def LeadsTo (p q : Path) : Prop := Relation.ReflTransGen (fun a b => a.parent? = some b) q p

/-- Whether neither of two paths is the other one or leads on to it. -/
def Apart (p q : Path) : Prop := ¬ p.LeadsTo q ∧ ¬ q.LeadsTo p

/-- The number of steps in a path. -/
def depth : Path → Nat
  | root _ _ => 0
  | field p _ => p.depth + 1
  | fragment p _ => p.depth + 1

variable {p p' q q' : Path}

theorem leadsTo_rfl : p.LeadsTo p := .refl

theorem LeadsTo.trans {r : Path} (hpq : p.LeadsTo q) (hqr : q.LeadsTo r) : p.LeadsTo r :=
  Relation.ReflTransGen.trans hqr hpq

theorem leadsTo_field (p : Path) (f : Name) : p.LeadsTo (p.field f) := .single rfl

theorem leadsTo_into (p : Path) (possible : Option Name) : p.LeadsTo (p.into possible) := by
  cases possible with
  | none => exact leadsTo_rfl
  | some t => exact .single rfl

theorem depth_of_parent? (h : q.parent? = some p) : q.depth = p.depth + 1 := by
  cases q with
  | root t f => cases h
  | field p' f => cases h; rfl
  | fragment p' t => cases h; rfl

theorem LeadsTo.depth_le (h : p.LeadsTo q) : p.depth ≤ q.depth := by
  induction h with
  | refl => exact Nat.le_refl _
  | tail _ hparent ih =>
    have hdepth := depth_of_parent? hparent
    omega

theorem LeadsTo.of_ne (h : p.LeadsTo q) (hne : p ≠ q) : ∃ r, q.parent? = some r ∧ p.LeadsTo r := by
  rcases Relation.ReflTransGen.cases_head h with heq | ⟨r, hparent, hrest⟩
  · exact absurd heq.symm hne
  · exact ⟨r, hparent, hrest⟩

instance : Std.Symm Apart := ⟨fun _ _ h => ⟨h.2, h.1⟩⟩

/-- Different paths that go on from the same path, or from none, are apart. -/
theorem apart_of_parent?_eq (hparent : p.parent? = q.parent?) (hne : p ≠ q) : p.Apart q := by
  have hno : ∀ {a b : Path}, a.parent? = b.parent? → a ≠ b → ¬ a.LeadsTo b := by
    intro a b hab hne h
    obtain ⟨r, hr, hrest⟩ := h.of_ne hne
    have hdepth := depth_of_parent? (hab.trans hr)
    have hle := hrest.depth_le
    omega
  exact ⟨hno hparent hne, hno hparent.symm hne.symm⟩

/-- Two paths that lead on to the same one are not apart: the tree does not grow together. -/
theorem leadsTo_total (hp : p.LeadsTo q) (hp' : p'.LeadsTo q) : p.LeadsTo p' ∨ p'.LeadsTo p := by
  have hunique : Relator.RightUnique fun a b : Path => a.parent? = some b := by
    intro a b c hb hc
    exact Option.some.inj (hb.symm.trans hc)
  exact (Relation.ReflTransGen.total_of_right_unique hunique hp hp').symm

/-- Paths apart stay apart however they go on. -/
theorem Apart.mono (h : p.Apart p') (hq : p.LeadsTo q) (hq' : p'.LeadsTo q') : q.Apart q' := by
  constructor
  · intro hlead
    exact (leadsTo_total (hq.trans hlead) hq').elim h.1 h.2
  · intro hlead
    exact (leadsTo_total (hq'.trans hlead) hq).elim h.2 h.1

theorem apart_field {f f' : Name} (h : f ≠ f') : (p.field f).Apart (p.field f') :=
  apart_of_parent?_eq rfl (by simpa using h)

theorem apart_fragment {t t' : Name} (h : t ≠ t') : (p.fragment t).Apart (p.fragment t') :=
  apart_of_parent?_eq rfl (by simpa using h)

end Path

namespace Graph

variable {g : Graph}

/-! ### Arrivals and steps -/

theorem pairwise_entries {α : Type} (t : Table α) :
    t.entries.Pairwise fun a b => a.1 ≠ b.1 :=
  List.pairwise_map.1 t.distinct

/-- An object type is a possible type only once. -/
theorem pairwise_possibleTypes (g : Graph) (name : Name) (t : TypeNode) :
    (g.possibleTypes name t).Pairwise fun a b => a.1 ≠ b.1 := by
  have hentries := (pairwise_entries g.types).filter fun e => e.2.kind = .object
  refine hentries.filterMap _ ?_
  intro e e' hne a ha a' ha'
  obtain ⟨_, _, rfl⟩ := Option.map_eq_some_iff.1 ha
  obtain ⟨_, _, rfl⟩ := Option.map_eq_some_iff.1 ha'
  exact hne

theorem pairwise_possibleArrivals (path : Path) (returns : Name) (t : TypeNode)
    (resolving : SubgraphSet) (provided : SubgraphMap FieldSet) :
    (g.possibleArrivals returns t resolving provided).Pairwise
      fun a b => (path.into a.1).Apart (path.into b.1) := by
  refine (pairwise_possibleTypes g returns t).filterMap _ ?_
  intro o o' hne a ha a' ha'
  dsimp only at ha ha'
  split at ha
  · cases ha
  · split at ha'
    · cases ha'
    · cases ha
      cases ha'
      exact Path.apart_fragment hne

/-- The positions at which a value arrives are reached on paths apart. -/
theorem pairwise_arrivals (path : Path) (returns : Name) (resolving : SubgraphSet)
    (provided : SubgraphMap FieldSet) : (g.arrivals returns resolving provided).Pairwise
      fun a b => (path.into a.1).Apart (path.into b.1) := by
  unfold arrivals
  cases g.types.get? returns with
  | none => exact .nil
  | some t =>
    have hpossible := pairwise_possibleArrivals (g := g) path returns t resolving provided
    cases hkind : t.kind <;> simp [hkind, hpossible]

/-- The path that a step leads to from a position. -/
def way (path : Path) : Step → Path
  | .stuck f _ => path.field f
  | .descend f possible _ => (path.field f).into possible

theorem leadsTo_way {path : Path} {node : TypeNode} {reached : SubgraphSet}
    {provided : SubgraphMap FieldSet} {name : Name} {f : FieldNode} {s : Step}
    (hs : s ∈ g.fieldSteps node reached provided name f) :
    (path.field name).LeadsTo (way path s) := by
  simp only [fieldSteps] at hs
  split at hs
  · split at hs
    · cases hs
    · rw [List.mem_singleton] at hs
      subst hs
      exact Path.leadsTo_rfl
  · obtain ⟨a, _, rfl⟩ := List.mem_map.1 hs
    exact Path.leadsTo_into _ _

theorem pairwise_fieldSteps (path : Path) (node : TypeNode) (reached : SubgraphSet)
    (provided : SubgraphMap FieldSet) (name : Name) (f : FieldNode) :
    (g.fieldSteps node reached provided name f).Pairwise
      fun s s' => (way path s).Apart (way path s') := by
  simp only [fieldSteps]
  split
  · split
    · exact .nil
    · exact List.pairwise_singleton _ _
  · exact List.pairwise_map.2 (pairwise_arrivals (path.field name) _ _ _)

/-- The steps of a position lead to paths apart. -/
theorem pairwise_steps (path : Path) (p : Position) :
    (g.steps p).Pairwise fun s s' => (way path s).Apart (way path s') := by
  unfold steps
  cases g.types.get? p.type with
  | none => exact .nil
  | some node =>
    refine List.pairwise_flatMap.2 ⟨?_, ?_⟩
    · intro e _
      exact pairwise_fieldSteps path node _ _ e.1 e.2
    · refine (pairwise_entries node.fields).imp ?_
      intro e e' hne s hs s' hs'
      exact (Path.apart_field hne).mono (leadsTo_way hs) (leadsTo_way hs')

/-! ### What a walk finds -/

/-- What a walk finds lies on its path or below it. -/
theorem leadsTo_of_mem_walk (ancestors : List Position) (path : Path) (p : Position) {x : Finding}
    (hx : x ∈ g.walk ancestors path p) : path.LeadsTo x.path := by
  induction ancestors, path, p using walk.induct g with
  | case1 ancestors path p hmem => exact absurd hmem (mem_walk_iff.1 hx).1
  | case2 ancestors path p _ ih =>
    obtain ⟨_, s, hs, hx⟩ := mem_walk_iff.1 hx
    cases s with
    | stuck name culprits =>
      rw [report, List.mem_singleton] at hx
      subst hx
      exact path.leadsTo_field name
    | descend name possible q =>
      have hway := (path.leadsTo_field name).trans ((path.field name).leadsTo_into possible)
      exact hway.trans (ih name possible q hs hx)

theorem leadsTo_of_mem_report {ancestors : List Position} {path : Path} {type : Name} {s : Step}
    {x : Finding} (hx : x ∈ report path type (g.walk ancestors) s) :
    (way path s).LeadsTo x.path := by
  cases s with
  | stuck name culprits =>
    rw [report, List.mem_singleton] at hx
    subst hx
    exact Path.leadsTo_rfl
  | descend name possible q => exact leadsTo_of_mem_walk ancestors _ q hx

/-- The findings of a walk lie on paths apart. -/
theorem pairwise_walk (ancestors : List Position) (path : Path) (p : Position) :
    (g.walk ancestors path p).Pairwise fun x y => x.path.Apart y.path := by
  induction ancestors, path, p using walk.induct g with
  | case1 ancestors path p hmem =>
    rw [walk_eq, if_pos hmem]
    exact .nil
  | case2 ancestors path p hmem ih =>
    rw [walk_eq, if_neg hmem]
    refine List.pairwise_flatMap.2 ⟨?_, ?_⟩
    · intro s hs
      cases s with
      | stuck name culprits => exact List.pairwise_singleton _ _
      | descend name possible q => exact ih name possible q hs
    · refine (pairwise_steps path p).imp ?_
      intro s s' hapart x hx y hy
      exact hapart.mono (leadsTo_of_mem_report hx) (leadsTo_of_mem_report hy)

/-! ### All reports -/

/-- The paths to all fields that cannot be resolved, in the order of the reports. -/
def reportedPaths (g : Graph) : List Path :=
  g.rootFields.flatMap fun r => (g.findings r).map (·.path)

theorem paths_unresolvables (g : Graph) :
    g.unresolvables.map (·.path) = g.reportedPaths.map Path.render := by
  simp only [unresolvables, reportedPaths, List.map_flatMap, List.map_map]
  rfl

/-- Root fields have different paths. -/
theorem pairwise_rootFields (g : Graph) : g.rootFields.Pairwise
    fun r r' => (Path.root r.type r.name).Apart (Path.root r'.type r'.name) := by
  have hroot : ∀ {t t' f f' : Name}, t ≠ t' ∨ f ≠ f' → (Path.root t f).Apart (.root t' f') := by
    intro t t' f f' h
    have hparent : (Path.root t f).parent? = (Path.root t' f').parent? := rfl
    refine Path.apart_of_parent?_eq hparent ?_
    intro heq
    rw [Path.root.injEq] at heq
    exact h.elim (fun h => h heq.1) (fun h => h heq.2)
  -- two fields of one root type differ by their name, fields of two root types by the type
  refine List.pairwise_flatMap.2 ⟨?_, ?_⟩
  · rintro ⟨t, node⟩ _
    refine List.pairwise_map.2 (((pairwise_entries node.fields).filter _).imp ?_)
    intro f f' hne
    exact hroot (.inr hne)
  · have htypes : g.rootTypes.Pairwise fun t t' => t.1 ≠ t'.1 := by
      have hnames : rootTypeNames.Pairwise fun n n' => n ≠ n' := by decide
      refine hnames.filterMap _ ?_
      intro n n' hne t ht t' ht'
      obtain ⟨_, _, rfl⟩ := Option.map_eq_some_iff.1 ht
      obtain ⟨_, _, rfl⟩ := Option.map_eq_some_iff.1 ht'
      exact hne
    refine htypes.imp ?_
    intro t t' hne r hr r' hr'
    obtain ⟨f, _, rfl⟩ := List.mem_map.1 hr
    obtain ⟨f', _, rfl⟩ := List.mem_map.1 hr'
    exact hroot (.inl hne)

/-- What is found from a root field lies on its path or below it. -/
theorem leadsTo_of_mem_findings {r : RootField} {x : Finding} (hx : x ∈ g.findings r) :
    (Path.root r.type r.name).LeadsTo x.path := by
  obtain ⟨s, hs, hx⟩ := List.mem_flatMap.1 hx
  obtain ⟨a, _, rfl⟩ := List.mem_map.1 hs
  have hway := Path.leadsTo_into (Path.root r.type r.name) a.1
  exact hway.trans (leadsTo_of_mem_walk [] _ a.2 hx)

theorem pairwise_findings (r : RootField) :
    (g.findings r).Pairwise fun x y => x.path.Apart y.path := by
  refine List.pairwise_flatMap.2 ⟨fun s _ => pairwise_walk [] s.1 s.2, ?_⟩
  have harrivals := pairwise_arrivals (g := g) (Path.root r.type r.name) r.node.returns
    r.node.resolvers r.node.provides
  refine List.pairwise_map.2 (harrivals.imp ?_)
  intro a b hapart x hx y hy
  exact hapart.mono (leadsTo_of_mem_walk [] _ a.2 hx) (leadsTo_of_mem_walk [] _ b.2 hy)

/-- The paths of reports are apart. -/
theorem pairwise_reportedPaths (g : Graph) : g.reportedPaths.Pairwise Path.Apart := by
  refine List.pairwise_flatMap.2 ⟨fun r _ => List.pairwise_map.2 (pairwise_findings r), ?_⟩
  refine (pairwise_rootFields g).imp ?_
  intro r r' hapart a ha b hb
  obtain ⟨x, hx, rfl⟩ := List.mem_map.1 ha
  obtain ⟨y, hy, rfl⟩ := List.mem_map.1 hb
  exact hapart.mono (leadsTo_of_mem_findings hx) (leadsTo_of_mem_findings hy)

/-- **No report twice, and none below another**: the paths that the reports are written with are
those of the findings; they are pairwise different, as paths and as they are written; and a path
that is reported does not lead on to another one that is reported. -/
theorem nodup_paths_unresolvables (g : Graph) :
    g.unresolvables.map (·.path) = g.reportedPaths.map Path.render ∧
    (g.unresolvables.map (·.path)).Nodup ∧ g.reportedPaths.Nodup ∧
    ∀ a ∈ g.reportedPaths, ∀ b ∈ g.reportedPaths, a.LeadsTo b → a = b := by
  have hapart := pairwise_reportedPaths g
  have hnodup : g.reportedPaths.Nodup := by
    refine hapart.imp ?_
    rintro a b hab rfl
    exact hab.1 Path.leadsTo_rfl
  refine ⟨paths_unresolvables g, ?_, hnodup, ?_⟩
  · rw [paths_unresolvables]
    refine List.pairwise_map.2 (hnodup.imp ?_)
    intro a b hne hrender
    exact hne (Path.eq_of_render_eq hrender)
  · intro a ha b hb hlead
    by_contra hne
    exact (hapart.forall ha hb hne).1 hlead

end Graph

end Federation
