import Federation.Subgraph.Annotation
import Mathlib.Data.List.Pairwise

/-!
# Where directives may stand

The check of placements goes through the directives that are applied to one part and keeps in mind
which came before.  Whether it finds something wrong depends on each directive by itself and on
pairs of directives of one rule (`placementFaults_eq_nil_iff`), so their order does not matter
(`placementFaults_eq_nil_iff_of_perm`).
-/

namespace Federation

/-! ### Rules -/

/-- A rule is known by its name. -/
theorem DirectiveRule.eq_of_name {d e : Directive} {r r' : DirectiveRule} (hr : of? d = some r)
    (hr' : of? e = some r') (hname : r'.name = r.name) : r' = r := by
  have hfound : ∀ {d : Directive} {r : DirectiveRule}, of? d = some r →
      r.name = canonicalName d.name := by
    intro d r h
    have hfound := List.find?_some h
    exact eq_of_beq hfound
  have hcanonical : canonicalName e.name = canonicalName d.name := by
    rw [← hfound hr, ← hfound hr', hname]
  have hsame : of? e = of? d := by rw [of?, of?, hcanonical]
  rw [hr, hr'] at hsame
  exact Option.some.inj hsame

/-- A directive may be applied to a kind of part where some directives have been applied before. -/
def Directive.StandsAt (target : DirectiveTarget) (applied : List String) (d : Directive) : Prop :=
  ∀ r, DirectiveRule.of? d = some r →
    r.supported = true ∧ target ∈ r.targets ∧ (r.repeatable = false → r.name ∉ applied)

/-- Two directives may be applied to one part: they have no rule in common that allows its directive
only once. -/
def Directive.StandsWith (d e : Directive) : Prop :=
  ∀ r, DirectiveRule.of? d = some r → DirectiveRule.of? e = some r → r.repeatable = true

theorem Directive.StandsWith.symm {d e : Directive} (h : d.StandsWith e) : e.StandsWith d :=
  fun r he hd => h r hd he

instance : Std.Symm Directive.StandsWith := ⟨fun _ _ h => h.symm⟩

/-! ### The check -/

section Placement

variable {target : DirectiveTarget} {part : Coordinate} {applied : List String}
  {ds : List Directive}

/-- After a directive, others may stand that may stand with it and where it stands. -/
theorem standsAt_cons_iff {d e : Directive} {r : DirectiveRule}
    (hr : DirectiveRule.of? d = some r) :
    e.StandsAt target (r.name :: applied) ↔ e.StandsAt target applied ∧ d.StandsWith e := by
  constructor
  · refine fun h => ⟨fun r' hr' => ?_, fun r' hd he => ?_⟩
    · obtain ⟨hsupported, htarget, honce⟩ := h r' hr'
      exact ⟨hsupported, htarget, fun hn hmem => honce hn (List.mem_cons_of_mem _ hmem)⟩
    · obtain rfl := Option.some.inj (hr.symm.trans hd)
      by_contra hrepeatable
      exact (h r he).2.2 (eq_false_of_ne_true hrepeatable) List.mem_cons_self
  · rintro ⟨h, hwith⟩ r' hr'
    obtain ⟨hsupported, htarget, honce⟩ := h r' hr'
    refine ⟨hsupported, htarget, fun hn hmem => ?_⟩
    rcases List.mem_cons.1 hmem with hname | hmem
    · obtain rfl := DirectiveRule.eq_of_name hr hr' hname
      rw [hwith r' hr hr'] at hn
      cases hn
    · exact honce hn hmem

/-- **Nothing is wrong with the places of directives** exactly if each of them may stand there, and
any two of them together. -/
theorem placementFaults_eq_nil_iff : placementFaults target part applied ds = [] ↔
    (∀ d ∈ ds, d.StandsAt target applied) ∧ ds.Pairwise Directive.StandsWith := by
  induction ds generalizing applied with
  | nil => simp [placementFaults]
  | cons d ds ih =>
    rw [List.forall_mem_cons, List.pairwise_cons, placementFaults]
    cases hr : DirectiveRule.of? d with
    -- a directive that no rule is about may stand anywhere
    | none =>
      have hfree : d.StandsAt target applied ∧ ∀ e ∈ ds, d.StandsWith e := by
        constructor
        · intro r hd
          rw [hr] at hd
          cases hd
        · intro e _ r hd
          rw [hr] at hd
          cases hd
      simp only [ih, hfree.1, eq_true hfree.2, true_and]
    | some r =>
      have hplace : ((if !r.supported then [.unsupportedDirective r.name target part]
          else if !r.targets.contains target then [.misplacedDirective r.name target part]
          else []) : List Fault) = [] ∧
          ((if !r.repeatable && applied.contains r.name then
            [.repeatedDirective r.name target part] else []) : List Fault) = [] ↔
          d.StandsAt target applied := by
        simp only [Directive.StandsAt, hr, Option.some.injEq, forall_eq']
        cases r.supported <;> cases r.repeatable <;> by_cases ht : target ∈ r.targets <;>
          simp [ht]
      -- that the others may follow this one is what having its name on the list adds for them
      have hrest : (∀ e ∈ ds, e.StandsAt target (r.name :: applied)) ↔
          (∀ e ∈ ds, e.StandsAt target applied) ∧ ∀ e ∈ ds, d.StandsWith e := by
        simp only [standsAt_cons_iff hr, forall_and]
      simp only [List.append_eq_nil_iff, hplace, ih, hrest, and_assoc]

/-- The order of directives does not matter for whether they may stand where they do. -/
theorem placementFaults_eq_nil_iff_of_perm {ds' : List Directive} (hp : ds.Perm ds') :
    placementFaults target part applied ds = [] ↔ placementFaults target part applied ds' = [] := by
  rw [placementFaults_eq_nil_iff, placementFaults_eq_nil_iff,
    hp.pairwise_iff Directive.StandsWith.symm]
  simp only [hp.mem_iff]

/-- Where nothing is wrong with the places of directives, each of them that federation defines is in
a place that its rule allows. -/
theorem mem_targets_of_placementFaults (h : placementFaults target part applied ds = [])
    {d : Directive} (hd : d ∈ ds) {r : DirectiveRule} (hr : DirectiveRule.of? d = some r) :
    target ∈ r.targets :=
  ((placementFaults_eq_nil_iff.1 h).1 d hd r hr).2.1

/-- Where nothing is wrong with the places of directives, one that may not be repeated is there only
once. -/
theorem eq_of_placementFaults (h : placementFaults target part applied ds = [])
    {r : DirectiveRule} (hr : r.repeatable = false) {d e : Directive} (hd : d ∈ ds) (he : e ∈ ds)
    (hdr : DirectiveRule.of? d = some r) (her : DirectiveRule.of? e = some r) : d = e := by
  by_contra hne
  have hwith := (placementFaults_eq_nil_iff.1 h).2.forall hd he hne
  rw [hwith r hdr her] at hr
  cases hr

end Placement

end Federation
