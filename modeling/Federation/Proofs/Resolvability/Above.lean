import Federation.Proofs.Resolvability.ReportedPaths

/-!
# The positions above a path

A path leads to one position only (`Graph.Descent.position_eq`): the fields of a type have different
names, and a value arrives at one position in each possible type.  So the positions that a descent
has passed are those on the paths that lead on to its own (`Graph.Above`).  Nothing is above a start
(`Graph.not_above_start`), and a step further down the position itself is above as well
(`Graph.above_into_iff`).  There is no position on the path between the two that a step into a
possible type passes, as the value of the field arrives in its possible types only.
-/

namespace Federation

namespace Path

/-- The parts of a path into a possible type can be told apart. -/
theorem into_inj {p q : Path} {m n : Name} {o o' : Option Name} :
    (p.field m).into o = (q.field n).into o' ↔ p = q ∧ m = n ∧ o = o' := by
  cases o <;> cases o' <;> simp [into, and_assoc]

theorem root_into_inj {s t m n : Name} {o o' : Option Name} :
    (root s m).into o = (root t n).into o' ↔ s = t ∧ m = n ∧ o = o' := by
  cases o <;> cases o' <;> simp [into, and_assoc]

theorem root_into_ne {p : Path} {t m n : Name} {o o' : Option Name} :
    (root t m).into o ≠ (p.field n).into o' := by
  cases o <;> cases o' <;> simp [into]

/-- What leads on to a field, or to a possible type that it returns, leads on to what the field is
below, or is one of the two. -/
theorem LeadsTo.into_cases {p q : Path} {n : Name} {o : Option Name}
    (h : q.LeadsTo ((p.field n).into o)) :
    q.LeadsTo p ∨ q = (p.field n).into o ∨ o.isSome ∧ q = p.field n := by
  have hfield : ∀ {q : Path}, q.LeadsTo (p.field n) → q.LeadsTo p ∨ q = p.field n := by
    intro q h
    by_cases hq : q = p.field n
    · exact .inr hq
    · obtain ⟨r, hr, hqr⟩ := h.of_ne hq
      cases hr
      exact .inl hqr
  cases o with
  | none => exact (hfield h).imp_right .inl
  | some t =>
    by_cases hq : q = fragment (p.field n) t
    · exact .inr (.inl hq)
    · obtain ⟨r, hr, hqr⟩ := h.of_ne hq
      cases hr
      exact (hfield hqr).imp_right fun hq => .inr ⟨rfl, hq⟩

end Path

namespace Graph

variable {g : Graph} {r : RootField}

/-! ### Arrivals -/

section Arrivals

variable {returns : Name} {resolving : SubgraphSet} {provided : SubgraphMap FieldSet}
  {q q' : Position}

/-- At most one position arrives in a possible type. -/
theorem arrival_unique {possible : Option Name}
    (hq : (possible, q) ∈ g.arrivals returns resolving provided)
    (hq' : (possible, q') ∈ g.arrivals returns resolving provided) : q = q' := by
  by_contra hne
  -- Different arrivals are on paths apart, whatever path they are on.
  have harrivals := pairwise_arrivals (g := g) (.root returns returns) returns resolving provided
  have hapart := harrivals.forall hq hq' (by simpa using hne)
  exact hapart.1 Path.leadsTo_rfl

/-- A value that arrives in possible types does not arrive in its own type. -/
theorem not_mem_arrivals_none {o : Name}
    (hq : (some o, q) ∈ g.arrivals returns resolving provided) :
    (none, q') ∉ g.arrivals returns resolving provided := by
  intro hq'
  obtain ⟨t, ht, ⟨_, h⟩ | ⟨habstract, _⟩⟩ := mem_arrivals_iff.1 hq
  · cases h
  · obtain ⟨t', ht', ⟨hobject, _⟩ | ⟨_, h⟩⟩ := mem_arrivals_iff.1 hq'
    · cases ht.symm.trans ht'
      rw [hobject] at habstract
      cases habstract
    · obtain ⟨_, _, _, _, h⟩ := mem_possibleArrivals_iff.1 h
      cases h

end Arrivals

/-- Steps through the same field lead to where the same value arrives. -/
theorem exists_arrivals_of_mem_steps {p q q' : Position} {name : Name} {o o' : Option Name}
    (h : .descend name o q ∈ g.steps p) (h' : .descend name o' q' ∈ g.steps p) :
    ∃ returns resolving provided, (o, q) ∈ g.arrivals returns resolving provided ∧
      (o', q') ∈ g.arrivals returns resolving provided := by
  obtain ⟨node, f, hnode, hf, _, hq⟩ := descend_mem_steps_iff.1 h
  obtain ⟨node', f', hnode', hf', _, hq'⟩ := descend_mem_steps_iff.1 h'
  cases hnode.symm.trans hnode'
  cases hf.symm.trans hf'
  exact ⟨_, _, _, hq, hq'⟩

/-! ### The path determines the position -/

theorem exists_of_mem_starts {s : Path × Position} (hs : s ∈ g.starts r) :
    ∃ o, s.1 = (Path.root r.type r.name).into o ∧
      (o, s.2) ∈ g.arrivals r.node.returns r.node.resolvers r.node.provides := by
  obtain ⟨⟨o, q⟩, hq, rfl⟩ := List.mem_map.1 hs
  exact ⟨o, rfl, hq⟩

/-- Descents that end at a root field. -/
theorem descent_into_root_iff {type name : Name} {o : Option Name} {q : Position} :
    g.Descent r ((Path.root type name).into o) q ↔ (type = r.type ∧ name = r.name) ∧
      (o, q) ∈ g.arrivals r.node.returns r.node.resolvers r.node.provides := by
  constructor
  · intro h
    generalize hpath : (Path.root type name).into o = path at h
    cases h with
    | start hs =>
      obtain ⟨o', hpath', ho'⟩ := exists_of_mem_starts hs
      obtain ⟨htype, hname, rfl⟩ := Path.root_into_inj.1 (hpath.trans hpath')
      exact ⟨⟨htype, hname⟩, ho'⟩
    | through _ _ _ _ _ => exact absurd hpath Path.root_into_ne
  · rintro ⟨⟨rfl, rfl⟩, h⟩
    exact .start (List.mem_map.2 ⟨_, h, rfl⟩)

/-- Descents that end at a field below a path. -/
theorem descent_into_field_iff {path : Path} {name : Name} {o : Option Name} {q : Position} :
    g.Descent r ((path.field name).into o) q ↔
      ∃ p, g.Descent r path p ∧ .descend name o q ∈ g.steps p := by
  constructor
  · intro h
    generalize hpath : (path.field name).into o = path' at h
    cases h with
    | start hs =>
      obtain ⟨o', hpath', _⟩ := exists_of_mem_starts hs
      exact absurd (hpath.trans hpath').symm Path.root_into_ne
    | through hp hnode hf hnext hq =>
      obtain ⟨rfl, rfl, rfl⟩ := Path.into_inj.1 hpath
      exact ⟨_, hp, descend_mem_steps_iff.2 ⟨_, _, hnode, hf, hnext, hq⟩⟩
  · rintro ⟨p, hp, hstep⟩
    exact hp.step hstep

/-- A way leads to one position only, below root fields that their types and names tell apart. -/
theorem Descent.position_eq {r' : RootField}
    (hroot : r.type = r'.type → r.name = r'.name → r = r') {path : Path} {p q : Position}
    (hp : g.Descent r path p) (hq : g.Descent r' path q) : p = q := by
  induction hp generalizing q with
  | start hs =>
    obtain ⟨o, hpath, ho⟩ := exists_of_mem_starts hs
    rw [hpath, descent_into_root_iff] at hq
    obtain ⟨⟨htype, hname⟩, hq⟩ := hq
    cases hroot htype hname
    exact arrival_unique ho hq
  | through hp hnode hf hnext hq' ih =>
    obtain ⟨p', hp', hstep'⟩ := descent_into_field_iff.1 hq
    cases ih hp'
    obtain ⟨_, _, _, ho, ho'⟩ := exists_arrivals_of_mem_steps
      (descend_mem_steps_iff.2 ⟨_, _, hnode, hf, hnext, hq'⟩) hstep'
    exact arrival_unique ho ho'

/-- Descents below one root field on the same path come to the same position. -/
theorem Descent.position_unique {path : Path} {p q : Position} (hp : g.Descent r path p)
    (hq : g.Descent r path q) : p = q :=
  hp.position_eq (fun _ _ => rfl) hq

/-! ### What a descent has passed -/

/-- A position that a descent passes strictly above a path, and the path to it. -/
structure Above (g : Graph) (r : RootField) (path above : Path) (q : Position) : Prop where
  descent : g.Descent r above q
  leadsTo : above.LeadsTo path
  ne : above ≠ path

/-- There is nothing above a start. -/
theorem not_above_start {s : Path × Position} (hs : s ∈ g.starts r) (above : Path) (q : Position) :
    ¬ g.Above r s.1 above q := by
  rintro ⟨hq, hlead, hne⟩
  obtain ⟨o, hpath, ho⟩ := exists_of_mem_starts hs
  obtain ⟨parent, hparent, hlead⟩ := hlead.of_ne hne
  rw [hpath] at hparent
  cases o with
  | none => cases hparent
  | some t =>
    cases hparent
    obtain rfl : above = .root r.type r.name := by
      by_contra hroot
      obtain ⟨_, hparent, _⟩ := hlead.of_ne hroot
      cases hparent
    -- The value of the root field arrives in its possible types only.
    exact not_mem_arrivals_none ho (descent_into_root_iff (o := none) |>.1 hq).2

/-- A step further down, the position itself is above as well. -/
theorem above_into_iff {path above : Path} {p q q' : Position} {name : Name} {o : Option Name}
    (hp : g.Descent r path p) (hstep : .descend name o q ∈ g.steps p) :
    g.Above r ((path.field name).into o) above q' ↔
      above = path ∧ q' = p ∨ g.Above r path above q' := by
  have hway : path.LeadsTo ((path.field name).into o) :=
    (path.leadsTo_field name).trans ((path.field name).leadsTo_into o)
  have hback : ¬ ((path.field name).into o).LeadsTo path := by
    intro h
    have hdepth := h.depth_le
    cases o <;> simp only [Path.into, Path.depth] at hdepth <;> omega
  constructor
  · rintro ⟨hq', hlead, hne⟩
    rcases hlead.into_cases with hlead | hself | ⟨ho, rfl⟩
    · by_cases hpath : above = path
      · subst hpath
        exact .inl ⟨rfl, hq'.position_unique hp⟩
      · exact .inr ⟨hq', hlead, hpath⟩
    · exact absurd hself hne
    · -- The value of the field arrives in its possible types only.
      obtain ⟨t, rfl⟩ := Option.isSome_iff_exists.1 ho
      obtain ⟨p', hp', hstep'⟩ := descent_into_field_iff (o := none) |>.1 hq'
      cases hp'.position_unique hp
      obtain ⟨_, _, _, hsome, hnone⟩ := exists_arrivals_of_mem_steps hstep hstep'
      exact absurd hnone (not_mem_arrivals_none hsome)
  · rintro (⟨rfl, rfl⟩ | ⟨hq', hlead, _⟩)
    · exact ⟨hp, hway, fun hself => hback (hself ▸ Path.leadsTo_rfl)⟩
    · exact ⟨hq', hlead.trans hway, fun hself => hback (hself ▸ hlead)⟩

end Graph

end Federation
