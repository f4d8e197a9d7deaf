import Federation.Proofs.Resolvability.ReportedPaths

/-!
# Beginnings of written paths

Paths form a tree, and their texts do so in the same way: a path leads on to another one exactly if
its text is a beginning of the other text that ends where a name ends
(`Path.injective_render_and_leadsTo_iff`).  Whatever goes on from a path is written with a point or
a space behind it (`Path.begins_of_parent?`).  Conversely, such a beginning of a path is the path
itself or a beginning of its parent (`Path.leadsTo_of_begins`): no path is written up to the point
of a root field, up to the points of a fragment or up to its `on`.

`Query.pet` is a beginning of `Query.pets`, but a name does not end there.
-/

namespace Federation

/-- A text is a beginning of another one, and ends there where a name ends. -/
def Begins (s t : List Char) : Prop :=
  ∃ rest, t = s ++ rest ∧ ∀ c ∈ rest.head?, isNameContinue c = false

variable {s t u : List Char}

theorem begins_rfl : Begins s s := ⟨[], by simp, by simp⟩

theorem Begins.trans (hst : Begins s t) (htu : Begins t u) : Begins s u := by
  obtain ⟨rest, rfl, hrest⟩ := hst
  obtain ⟨rest', rfl, hrest'⟩ := htu
  refine ⟨rest ++ rest', List.append_assoc .., ?_⟩
  cases rest with
  | nil => exact hrest'
  | cons c rest => exact hrest

/-- A beginning that is not the whole text does not reach into the last name of the text. -/
theorem Begins.eq_or_of_append_cons {d : Char} {n : Name} (h : Begins s (t ++ d :: n.text.toList)) :
    t ++ d :: n.text.toList = s ∨ Begins s t := by
  obtain ⟨rest, h, hrest⟩ := h
  cases rest with
  | nil => exact .inl (by rw [h, List.append_nil])
  | cons c rest =>
    right
    have hc : isNameContinue c = false := hrest c rfl
    rcases List.append_eq_append_iff.1 h with ⟨between, hs, hname⟩ | ⟨between, ht, hname⟩
    · cases between with
      | nil => exact ⟨[], by simpa using hs.symm, by simp⟩
      | cons e between =>
        -- The character after the beginning would belong to the name.
        have hmem : c ∈ n.text.toList := by
          rw [(List.cons.inj hname).2]
          simp
        rw [n.isNameContinue_of_mem hmem] at hc
        cases hc
    · refine ⟨between, ht, ?_⟩
      cases between with
      | nil => simp
      | cons e between =>
        obtain ⟨rfl, _⟩ := List.cons.inj hname
        simpa using hc

namespace Path

variable {p q : Path}

/-! ### Ways on -/

/-- What goes on from a path is written with more behind it. -/
theorem begins_of_parent? (h : q.parent? = some p) :
    Begins p.render.toList q.render.toList := by
  have hmark : Begins q.front q.render.toList :=
    ⟨_, toList_render q, fun c hc => Option.some.inj hc ▸ isNameContinue_mark q⟩
  cases q with
  | root t f => cases h
  | field q f =>
    cases h
    exact hmark
  | fragment q t =>
    cases h
    exact Begins.trans ⟨_, rfl, fun c hc => by cases Option.some.inj hc; rfl⟩ hmark

theorem begins_of_leadsTo (h : p.LeadsTo q) : Begins p.render.toList q.render.toList := by
  induction h using Relation.ReflTransGen.head_induction_on with
  | refl => exact begins_rfl
  | head hparent _ ih => exact ih.trans (begins_of_parent? hparent)

/-! ### Ways back -/

/-- A beginning of a path is the whole path, or a beginning of what stands in front of its last
name. -/
theorem eq_or_begins_front (h : Begins p.render.toList q.render.toList) :
    p = q ∨ Begins p.render.toList q.front := by
  have hcases := h
  rw [toList_render q] at hcases
  refine hcases.eq_or_of_append_cons.imp_left fun hwhole => ?_
  rw [← toList_render] at hwhole
  exact eq_of_render_eq (String.toList_inj.1 hwhole.symm)

/-- A path that is a beginning of a fragment up to its `on` is a beginning of what the fragment is
on. -/
theorem begins_of_begins_front {n : Name} (h : Begins p.render.toList (fragment q n).front) :
    Begins p.render.toList q.render.toList := by
  rw [front_fragment] at h
  rcases h.eq_or_of_append_cons with hwhole | ⟨rest, h, hrest⟩
  · rw [← front_fragment q n] at hwhole
    exact absurd hwhole.symm (render_ne_front p q n)
  · rcases List.append_eq_append_iff.1 h with ⟨between, hp, hpoints⟩ | ⟨between, hq, hpoints⟩
    · -- No name of the path is made of the points.
      have hbetween : ∀ c ∈ between, isNameContinue c = false := by
        intro c hc
        refine isNameContinue_points ?_
        rw [hpoints]
        exact List.mem_append_left _ hc
      rw [eq_nil_of_render_eq_append hp hbetween, List.append_nil] at hp
      exact hp ▸ begins_rfl
    · refine ⟨between, hq, ?_⟩
      cases between with
      | nil => simp
      | cons e between =>
        rw [hpoints] at hrest
        exact hrest

/-- A path whose text is a beginning of another one leads on to that. -/
theorem leadsTo_of_begins (h : Begins p.render.toList q.render.toList) : p.LeadsTo q := by
  induction q with
  | root t f =>
    obtain rfl | ⟨rest, hfront, _⟩ := eq_or_begins_front h
    · exact leadsTo_rfl
    · -- The type of a root field has no point in it.
      have hpoint : '.' ∈ t.text.toList := by
        rw [show t.text.toList = _ from hfront]
        exact List.mem_append_left _ p.point_mem_render
      exact absurd (t.isNameContinue_of_mem hpoint) (by decide)
  | field q f ih =>
    obtain rfl | hfront := eq_or_begins_front h
    · exact leadsTo_rfl
    · exact (ih hfront).trans (leadsTo_field q f)
  | fragment q t ih =>
    obtain rfl | hfront := eq_or_begins_front h
    · exact leadsTo_rfl
    · exact (ih (begins_of_begins_front hfront)).trans (leadsTo_into q (some t))

/-- **Paths can be read off their texts**: different paths are written differently, and a path leads
on to another one exactly if its text is a beginning of the other text that ends where a name
ends. -/
theorem injective_render_and_leadsTo_iff : Function.Injective render ∧
    ∀ p q : Path, p.LeadsTo q ↔ Begins p.render.toList q.render.toList :=
  ⟨fun _ _ => eq_of_render_eq, fun _ _ => ⟨begins_of_leadsTo, leadsTo_of_begins⟩⟩

end Path

end Federation
