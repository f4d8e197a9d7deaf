import Federation.Proofs.Resolvability.Above
import Mathlib.Data.Finset.Basic
import Mathlib.Data.Finset.Dedup

/-!
# One set of ancestors

`Graph.walk` hands the positions above a position down to it.  The same walk can be carried out with
one set of them, which all branches share: a visit stops at a position in the set, and otherwise
puts it in, goes down every step and takes it out again (`Graph.visit`).  It keeps a record of what
was in the set when a visit began and when it ended.  Nothing about the set is built into the
definition, which ends only because visits may not be nested deeper than some depth.

If that is deeper than there are positions ahead, it has a result: it finds what the walk finds, and
it ends with the set that it began with.  What holds of one step holds of all of them
(`restores_forM`), and so of a visit, by induction on the walk (`restores_visit`).  So every branch
begins with what is above it.  The visits are those on descents above which no position is passed
twice, and what is in the set is what they have passed (`visitStarts_restores`).
-/

namespace Federation.Graph

/-- A visit at a position, with the positions in the set of ancestors when it began and when it
ended. -/
structure Visit where
  path : Path
  position : Position
  before : Finset Position
  after : Finset Position

/-- What all visits below a root field share. -/
structure Walker where
  /-- The positions that are not gone into again. -/
  ancestors : Finset Position
  findings : List Finding
  /-- The visits that have ended. -/
  visits : List Visit

namespace Walker

/-- The walker goes into a position. -/
def enter (w : Walker) (p : Position) : Walker := { w with ancestors := insert p w.ancestors }

/-- The walker comes out of a position. -/
def leave (w : Walker) (p : Position) : Walker := { w with ancestors := w.ancestors.erase p }

/-- The walker with more findings and more visits. -/
def add (w : Walker) (findings : List Finding) (visits : List Visit) : Walker :=
  { w with findings := w.findings ++ findings, visits := w.visits ++ visits }

@[simp] theorem ancestors_enter (w : Walker) (p : Position) :
    (w.enter p).ancestors = insert p w.ancestors := rfl

@[simp] theorem ancestors_add (w : Walker) (fs : List Finding) (vs : List Visit) :
    (w.add fs vs).ancestors = w.ancestors := rfl

@[simp] theorem add_nil (w : Walker) : w.add [] [] = w := by simp [add]

@[simp] theorem add_add (w : Walker) (fs fs' : List Finding) (vs vs' : List Visit) :
    (w.add fs vs).add fs' vs' = w.add (fs ++ fs') (vs ++ vs') := by
  simp [add]

/-- Whoever goes into a position that is no ancestor, and comes out of it, finds the ancestors as
they were. -/
theorem leave_add_enter {w : Walker} {p : Position} (hp : p ∉ w.ancestors) (fs : List Finding)
    (vs : List Visit) : ((w.enter p).add fs vs).leave p = w.add fs vs := by
  simp [enter, add, leave, Finset.erase_insert hp]

end Walker

/-! ### The walk with a shared set -/

/-- Goes down a step: reports a field that cannot be resolved, or visits the next position. -/
def follow (path : Path) (type : Name) (visit : Path → Position → StateT Walker Option Unit) :
    Step → StateT Walker Option Unit
  | .stuck f resolvers => modify (·.add [⟨path.field f, type, f, resolvers⟩] [])
  | .descend f possible next => visit ((path.field f).into possible) next

/-- Visits a position: goes down every step from it, unless it is among the ancestors.  There is no
result if visits are nested deeper than `depth`. -/
def visit (g : Graph) : (depth : Nat) → Path → Position → StateT Walker Option Unit
  | 0, _, _ => failure
  | depth + 1, path, p => do
    let before := (← get).ancestors
    if p ∉ before then
      modify (·.enter p)
      (g.steps p).forM (follow path p.type (g.visit depth))
      modify (·.leave p)
    modify fun w => w.add [] [⟨path, p, before, w.ancestors⟩]

/-- Visits the positions at which a value of a root field arrives. -/
def visitStarts (g : Graph) (depth : Nat) (r : RootField) : StateT Walker Option Unit :=
  (g.starts r).forM fun s => g.visit depth s.1 s.2

variable {g : Graph} {r : RootField} {depth : Nat}

theorem run_visit_of_mem {path : Path} {p : Position} {w : Walker} (hp : p ∈ w.ancestors) :
    (g.visit (depth + 1) path p).run w =
      some ((), w.add [] [⟨path, p, w.ancestors, w.ancestors⟩]) := by
  rw [visit]
  simp [hp]

theorem run_visit_of_not_mem {path : Path} {p : Position} {w w' : Walker} (hp : p ∉ w.ancestors)
    (hbelow : ((g.steps p).forM (follow path p.type (g.visit depth))).run (w.enter p) =
      some ((), w')) :
    (g.visit (depth + 1) path p).run w =
      some ((), (w'.leave p).add [] [⟨path, p, w.ancestors, (w'.leave p).ancestors⟩]) := by
  rw [List.forM_eq_forM] at hbelow
  rw [visit]
  simp [hp, hbelow]

/-! ### What a run adds -/

/-- A run that begins with some ancestors ends, with the same ancestors; it adds some findings and
the visits that are described. -/
def Restores (m : StateT Walker Option Unit) (ancestors : Finset Position)
    (findings : List Finding) (described : Visit → Prop) : Prop :=
  ∃ visits, (∀ v, v ∈ visits ↔ described v) ∧
    ∀ w : Walker, w.ancestors = ancestors → m.run w = some ((), w.add findings visits)

/-- Runs one after the other all begin with the same ancestors, as each of them ends with those. -/
theorem restores_forM {α : Type} {f : α → StateT Walker Option Unit} {ancestors : Finset Position}
    {findings : α → List Finding} {described : α → Visit → Prop} {l : List α}
    (h : ∀ a ∈ l, Restores (f a) ancestors (findings a) (described a)) :
    Restores (l.forM f) ancestors (l.flatMap findings) fun v => ∃ a ∈ l, described a v := by
  induction l with
  | nil => exact ⟨[], by simp, fun w _ => by simp⟩
  | cons a l ih =>
    obtain ⟨vs, hvs, hrun⟩ := h a List.mem_cons_self
    obtain ⟨vs', hvs', hrun'⟩ := ih fun b hb => h b (List.mem_cons_of_mem a hb)
    refine ⟨vs ++ vs', by simp [hvs, hvs'], fun w hw => ?_⟩
    have hrest := hrun' (w.add (findings a) vs) hw
    rw [List.forM_eq_forM] at hrest
    simp [hrun w hw, hrest]

/-! ### Visits below a stage -/

/-- A position with the path to it and the positions that it passes, the last one first. -/
structure Stage where
  ancestors : List Position
  path : Path
  position : Position

namespace Stage

/-- The visit at a stage. -/
def visit (c : Stage) : Visit :=
  ⟨c.path, c.position, c.ancestors.toFinset, c.ancestors.toFinset⟩

/-- The stage that a step leads on to. -/
def next? (c : Stage) : Step → Option Stage
  | .stuck _ _ => none
  | .descend f possible q =>
    some ⟨c.position :: c.ancestors, (c.path.field f).into possible, q⟩

/-- A stage leads on to those of its steps, unless its position is an ancestor. -/
def LeadsOn (g : Graph) (c d : Stage) : Prop :=
  c.position ∉ c.ancestors ∧ ∃ s ∈ g.steps c.position, c.next? s = some d

/-- A visit is made at a stage or below it. -/
def Makes (g : Graph) (c : Stage) (v : Visit) : Prop :=
  ∃ d, Relation.ReflTransGen (LeadsOn g) c d ∧ v = d.visit

theorem makes_iff {c : Stage} {v : Visit} : c.Makes g v ↔
    v = c.visit ∨ c.position ∉ c.ancestors ∧
      ∃ s ∈ g.steps c.position, ∃ d, c.next? s = some d ∧ d.Makes g v := by
  constructor
  · rintro ⟨e, he, rfl⟩
    rcases Relation.ReflTransGen.cases_head he with rfl | ⟨d, ⟨hc, s, hs, hd⟩, hde⟩
    · exact .inl rfl
    · exact .inr ⟨hc, s, hs, d, hd, e, hde, rfl⟩
  · rintro (rfl | ⟨hc, s, hs, d, hd, e, hde, rfl⟩)
    · exact ⟨c, .refl, rfl⟩
    · exact ⟨e, .head ⟨hc, s, hs, hd⟩ hde, rfl⟩

end Stage

/-- **A visit restores the set of ancestors**: if it may be nested deeper than there are positions
ahead, it ends, it finds what the walk finds, and it consists of the visits at its stage and
below. -/
theorem restores_visit (ancestors : List Position) (path : Path) (p : Position) (depth : Nat)
    (hdepth : g.unvisited ancestors p < depth) :
    Restores (g.visit depth path p) ancestors.toFinset (g.walk ancestors path p)
      (Stage.Makes g ⟨ancestors, path, p⟩) := by
  obtain ⟨depth, rfl⟩ := Nat.exists_eq_succ_of_ne_zero (Nat.ne_zero_of_lt hdepth)
  induction ancestors, path, p using walk.induct g generalizing depth with
  | case1 ancestors path p hmem =>
    rw [walk_eq, if_pos hmem]
    refine ⟨[Stage.visit ⟨ancestors, path, p⟩], fun v => ?_, fun w hw => ?_⟩
    · rw [Stage.makes_iff]
      simp [hmem]
    · rw [run_visit_of_mem (by rw [hw]; exact List.mem_toFinset.2 hmem), hw]
      rfl
  | case2 ancestors path p hmem ih =>
    -- Every step begins and ends with the position among the ancestors.
    have hsteps : ∀ s ∈ g.steps p,
        Restores (follow path p.type (g.visit depth) s) (p :: ancestors).toFinset
          (report path p.type (g.walk (p :: ancestors)) s)
          fun v => ∃ d, Stage.next? ⟨ancestors, path, p⟩ s = some d ∧ d.Makes g v := by
      intro s hs
      cases s with
      | stuck f resolvers => exact ⟨[], by simp [Stage.next?], fun w _ => rfl⟩
      | descend f possible next =>
        have hnext : g.unvisited (p :: ancestors) next < depth := by
          have hlt := unvisited_lt hmem hs
          omega
        obtain ⟨depth, rfl⟩ := Nat.exists_eq_succ_of_ne_zero (Nat.ne_zero_of_lt hnext)
        obtain ⟨vs, hvs, hrun⟩ := ih f possible next hs depth hnext
        exact ⟨vs, fun v => by simp [hvs, Stage.next?], hrun⟩
    obtain ⟨vs, hvs, hrun⟩ := restores_forM hsteps
    rw [walk_eq, if_neg hmem]
    refine ⟨vs ++ [Stage.visit ⟨ancestors, path, p⟩], fun v => ?_, fun w hw => ?_⟩
    · rw [Stage.makes_iff]
      simp [hvs, hmem, or_comm]
    · have hp : p ∉ w.ancestors := by
        rw [hw]
        exact fun h => hmem (List.mem_toFinset.1 h)
      have henter : (w.enter p).ancestors = (p :: ancestors).toFinset := by
        rw [Walker.ancestors_enter, hw, List.toFinset_cons]
      rw [run_visit_of_not_mem hp (hrun _ henter), Walker.leave_add_enter hp]
      simp [Stage.visit, hw]

theorem restores_visitStarts (hdepth : ∀ s ∈ g.starts r, g.unvisited [] s.2 < depth) :
    Restores (g.visitStarts depth r) ∅ (g.findings r)
      fun v => ∃ s ∈ g.starts r, Stage.Makes g ⟨[], s.1, s.2⟩ v :=
  restores_forM fun s hs => restores_visit [] s.1 s.2 depth (hdepth s hs)

/-! ### Visits and descents -/

/-- The visit on a descent above which no position is passed twice.  When it begins, the positions
above it are in the set of ancestors and no others, and when it ends, the set is the same. -/
structure Visit.OfDescent (g : Graph) (r : RootField) (v : Visit) : Prop where
  descent : g.Descent r v.path v.position
  mem_before_iff : ∀ q, q ∈ v.before ↔ ∃ above, g.Above r v.path above q
  distinct : ∀ above above' q, g.Above r v.path above q → g.Above r v.path above' q →
    above = above'
  after_eq : v.after = v.before

/-- There is one such visit on a path. -/
theorem Visit.OfDescent.eq {v v' : Visit} (hv : v.OfDescent g r) (hv' : v'.OfDescent g r)
    (hpath : v.path = v'.path) : v = v' := by
  obtain ⟨path, p, before, after⟩ := v
  obtain ⟨path', p', before', after'⟩ := v'
  cases hpath
  cases hv.descent.position_unique hv'.descent
  have hbefore : before = before' := Finset.ext fun q =>
    (hv.mem_before_iff q).trans (hv'.mem_before_iff q).symm
  have hafter : after = before := hv.after_eq
  have hafter' : after' = before' := hv'.after_eq
  rw [hafter, hafter', hbefore]

theorem ofDescent_start {s : Path × Position} (hs : s ∈ g.starts r) :
    (Stage.visit ⟨[], s.1, s.2⟩).OfDescent g r where
  descent := .start hs
  mem_before_iff q := by simp [Stage.visit, not_above_start hs]
  distinct above _ q h _ := absurd h (not_above_start hs above q)
  after_eq := rfl

theorem Stage.mem_ancestors_iff {c : Stage} (hc : c.visit.OfDescent g r) {q : Position} :
    q ∈ c.ancestors ↔ ∃ above, g.Above r c.path above q :=
  List.mem_toFinset.symm.trans (hc.mem_before_iff q)

/-- A step leads to one position more above, which was not above before. -/
theorem Stage.LeadsOn.ofDescent {c d : Stage} (h : c.LeadsOn g d) (hc : c.visit.OfDescent g r) :
    d.visit.OfDescent g r := by
  obtain ⟨hp, s, hs, hd⟩ := h
  cases s with
  | stuck f resolvers => cases hd
  | descend f possible q =>
    cases hd
    have habove : ∀ {above q'}, g.Above r ((c.path.field f).into possible) above q' ↔
        above = c.path ∧ q' = c.position ∨ g.Above r c.path above q' :=
      above_into_iff hc.descent hs
    have hnew : ∀ above, ¬ g.Above r c.path above c.position := fun above h =>
      hp ((mem_ancestors_iff hc).2 ⟨above, h⟩)
    refine ⟨hc.descent.step hs, fun q' => ?_, fun above above' q' h h' => ?_, rfl⟩
    · simp [Stage.visit, habove, mem_ancestors_iff hc, exists_or]
    · rcases habove.1 h with ⟨rfl, rfl⟩ | h
      · rcases habove.1 h' with ⟨hpath, _⟩ | h'
        · exact hpath.symm
        · exact absurd h' (hnew above')
      · rcases habove.1 h' with ⟨rfl, rfl⟩ | h'
        · exact absurd h (hnew above)
        · exact hc.distinct above above' q' h h'

theorem ofDescent_of_leadsOn {s : Path × Position} (hs : s ∈ g.starts r) {c : Stage}
    (h : Relation.ReflTransGen (Stage.LeadsOn g) ⟨[], s.1, s.2⟩ c) : c.visit.OfDescent g r := by
  induction h with
  | refl => exact ofDescent_start hs
  | tail _ hstep ih => exact hstep.ofDescent ih

/-- A descent above which no position is passed twice goes from stage to stage. -/
theorem Descent.exists_stage {path : Path} {p : Position} (hp : g.Descent r path p)
    (hdistinct : ∀ above above' q, g.Above r path above q → g.Above r path above' q →
      above = above') : ∃ s ∈ g.starts r, ∃ c : Stage, c.path = path ∧
        Relation.ReflTransGen (Stage.LeadsOn g) ⟨[], s.1, s.2⟩ c := by
  induction hp with
  | @start s hs => exact ⟨s, hs, ⟨[], s.1, s.2⟩, rfl, .refl⟩
  | @through path p q _ name _ possible hp hnode hf hnext hq ih =>
    have hstep : .descend name possible q ∈ g.steps p :=
      descend_mem_steps_iff.2 ⟨_, _, hnode, hf, hnext, hq⟩
    have habove : ∀ {above q'}, g.Above r ((path.field name).into possible) above q' ↔
        above = path ∧ q' = p ∨ g.Above r path above q' := above_into_iff hp hstep
    obtain ⟨s, hs, c, rfl, hc⟩ := ih fun above above' q h h' =>
      hdistinct above above' q (habove.2 (.inr h)) (habove.2 (.inr h'))
    have hvisit := ofDescent_of_leadsOn hs hc
    obtain rfl : c.position = p := hvisit.descent.position_unique hp
    have hmem : c.position ∉ c.ancestors := by
      intro hmem
      obtain ⟨above, h⟩ := (Stage.mem_ancestors_iff hvisit).1 hmem
      exact h.ne (hdistinct _ _ _ (habove.2 (.inr h)) (habove.2 (.inl ⟨rfl, rfl⟩)))
    exact ⟨s, hs, ⟨c.position :: c.ancestors, (c.path.field name).into possible, q⟩, rfl,
      hc.tail ⟨hmem, _, hstep, rfl⟩⟩

/-- The visits below a root field are those on descents. -/
theorem makes_start_iff {v : Visit} :
    (∃ s ∈ g.starts r, Stage.Makes g ⟨[], s.1, s.2⟩ v) ↔ v.OfDescent g r := by
  constructor
  · rintro ⟨s, hs, c, hc, rfl⟩
    exact ofDescent_of_leadsOn hs hc
  · intro hv
    obtain ⟨s, hs, c, hpath, hc⟩ := hv.descent.exists_stage hv.distinct
    exact ⟨s, hs, c, hc, hv.eq (ofDescent_of_leadsOn hs hc) hpath.symm⟩

/-- **The ancestors are what a descent has passed**: if visits may be nested deeply enough, the walk
with a shared set ends for every root field, whatever was found and visited before; it adds what
the walk without one finds; the set is empty after it as before it; and the visits are those on
descents above which no position is passed twice, each of them beginning and ending with the
positions above it in the set. -/
theorem visitStarts_restores (g : Graph) (r : RootField) :
    ∃ enough, ∀ more, ∃ visits : List Visit,
      (∀ fs vs, (g.visitStarts (enough + more) r).run ⟨∅, fs, vs⟩ =
        some ((), ⟨∅, fs ++ g.findings r, vs ++ visits⟩)) ∧
      ∀ v, v ∈ visits ↔ v.OfDescent g r := by
  refine ⟨((g.starts r).map fun s => g.unvisited [] s.2).max?.getD 0 + 1, fun more => ?_⟩
  have hdepth : ∀ s ∈ g.starts r, g.unvisited [] s.2 <
      ((g.starts r).map fun s => g.unvisited [] s.2).max?.getD 0 + 1 + more := by
    intro s hs
    have hle : g.unvisited [] s.2 ≤
        ((g.starts r).map fun s => g.unvisited [] s.2).max?.getD 0 :=
      List.le_max?_getD_of_mem (List.mem_map.2 ⟨s, hs, rfl⟩)
    omega
  obtain ⟨visits, hvisits, hrun⟩ := restores_visitStarts hdepth
  exact ⟨visits, fun fs vs => hrun ⟨∅, fs, vs⟩ rfl, fun v => (hvisits v).trans makes_start_iff⟩

end Federation.Graph
