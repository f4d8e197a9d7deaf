import Federation.Resolvability.Path
import Mathlib.Data.List.Basic
import Mathlib.Tactic.Tauto

/-!
# Written paths

Different paths are written differently (`Path.eq_of_render_eq`).  The written path is read from its
end: the last name is cut off at the last character that cannot stand in a name
(`append_cons_name_inj`), which is a point or a space (`Path.mark`).  In front of a point stands the
parent, or the root type, which has no point in it.  In front of a space stands a fragment, or the
`on` of the last fragment; a path that ends in a name `on` differs from the latter in what stands in
front of that (`Path.render_ne_front`).
-/

namespace Federation

theorem Name.isNameContinue_of_mem (n : Name) {c : Char} (hc : c ∈ n.text.toList) :
    isNameContinue c = true := by
  have hvalid := n.valid
  cases hn : n.text.toList with
  | nil => exact absurd hn n.toList_ne_nil
  | cons d ds =>
    rw [hn] at hvalid hc
    have hstart : isNameContinue d = true := by
      have h := hvalid.1
      simp only [isNameStart, isNameContinue, Char.isAlphanum, Bool.or_eq_true] at h ⊢
      tauto
    rcases List.mem_cons.1 hc with rfl | hc
    · exact hstart
    · exact List.all_eq_true.1 hvalid.2 c hc

/-- What stands in front of the last name of a text, the last character of it apart, is determined
by the text if that character cannot stand in a name. -/
theorem append_cons_name_inj {as bs : List Char} {c d : Char} {m n : Name}
    (hc : isNameContinue c = false) (hd : isNameContinue d = false)
    (h : as ++ c :: m.text.toList = bs ++ d :: n.text.toList) : as = bs ∧ c = d ∧ m = n := by
  -- The text is read from its end, where the name is as long as it can be.
  have hname : ∀ (k : Name) (e : Char) (es : List Char), isNameContinue e = false →
      (es ++ e :: k.text.toList).reverse.takeWhile isNameContinue = k.text.toList.reverse := by
    intro k e es he
    have hall : ∀ x ∈ k.text.toList.reverse, isNameContinue x = true := by
      intro x hx
      exact k.isNameContinue_of_mem (List.mem_reverse.1 hx)
    rw [List.reverse_append, List.reverse_cons, List.append_assoc,
      List.takeWhile_append_of_pos hall, List.singleton_append,
      List.takeWhile_cons_of_neg (by simp [he]), List.append_nil]
  have hmn : m = n := by
    have hrev := hname m c as hc
    rw [h, hname n d bs hd, List.reverse_inj, String.toList_inj, Name.text_inj] at hrev
    exact hrev.symm
  subst hmn
  rw [List.append_cons, List.append_cons bs, List.append_cancel_right_eq] at h
  obtain ⟨hfront, hlast⟩ := List.append_inj' h rfl
  exact ⟨hfront, List.singleton_inj.1 hlast, rfl⟩

namespace Path

/-! ### The parts of a written path -/

/-- The last name of a path. -/
def last : Path → Name
  | root _ f => f
  | field _ f => f
  | fragment _ t => t

/-- The character in front of the last name. -/
def mark : Path → Char
  | root _ _ => '.'
  | field p _ => if p.endsInFragment then ' ' else '.'
  | fragment _ _ => ' '

/-- What stands in front of that character. -/
def front : Path → List Char
  | root t _ => t.text.toList
  | field p _ => p.render.toList
  | fragment p _ => p.render.toList ++ " ... on".toList

theorem toList_render (p : Path) :
    p.render.toList = p.front ++ p.mark :: p.last.text.toList := by
  cases p with
  | root t f =>
    rw [render, String.toList_append, String.toList_append, List.append_assoc]
    rfl
  | field p f =>
    rw [render, mark, String.toList_append, String.toList_append, List.append_assoc]
    split <;> rfl
  | fragment p t =>
    rw [render, front, String.toList_append, String.toList_append, List.append_assoc,
      List.append_assoc]
    rfl

theorem isNameContinue_mark (p : Path) : isNameContinue p.mark = false := by
  cases p with
  | root t f => rfl
  | field p f =>
    rw [mark]
    split <;> rfl
  | fragment p t => rfl

/-- Paths that are written alike have the same parts. -/
theorem parts_eq {p q : Path} (h : p.render.toList = q.render.toList) :
    p.front = q.front ∧ p.mark = q.mark ∧ p.last = q.last := by
  rw [toList_render, toList_render] at h
  exact append_cons_name_inj p.isNameContinue_mark q.isNameContinue_mark h

/-! ### Parts that are never alike -/

/-- A written path has a point in it. -/
theorem point_mem_render (p : Path) : '.' ∈ p.render.toList := by
  induction p with
  | root t f =>
    rw [toList_render]
    exact List.mem_append_right _ List.mem_cons_self
  | field p f ih =>
    rw [toList_render]
    exact List.mem_append_left _ ih
  | fragment p t ih =>
    rw [toList_render]
    exact List.mem_append_left _ (List.mem_append_left _ ih)

/-- A name is no written path. -/
theorem name_ne_render (n : Name) (p : Path) : n.text.toList ≠ p.render.toList := by
  intro h
  have hpoint := p.point_mem_render
  rw [← h] at hpoint
  exact absurd (n.isNameContinue_of_mem hpoint) (by decide)

/-- A written path ends in a name, so whatever is cut off its end has a character of a name in
it. -/
theorem eq_nil_of_render_eq_append {p : Path} {as bs : List Char}
    (h : p.render.toList = as ++ bs) (hbs : ∀ c ∈ bs, isNameContinue c = false) : bs = [] := by
  rcases List.eq_nil_or_concat bs with rfl | ⟨bs, c, rfl⟩
  · rfl
  · have hlast := congrArg List.getLast? h
    rw [toList_render, List.append_cons, List.getLast?_append_of_ne_nil _ p.last.toList_ne_nil,
      List.concat_eq_append, ← List.append_assoc, List.getLast?_concat] at hlast
    have hname := p.last.isNameContinue_of_mem (List.mem_of_getLast? hlast)
    rw [hbs c (by simp)] at hname
    cases hname

/-- No character of a name stands in front of the `on` of a fragment. -/
theorem isNameContinue_points {c : Char} (hc : c ∈ " ...".toList) : isNameContinue c = false := by
  have hall : (" ...".toList.all fun c => !isNameContinue c) = true := rfl
  simpa using List.all_eq_true.1 hall c hc

/-- What stands in front of the last name of a fragment reads like one name more, its `on`. -/
theorem front_fragment (q : Path) (t : Name) : (fragment q t).front =
    (q.render.toList ++ " ...".toList) ++ ' ' :: (⟨"on", by decide⟩ : Name).text.toList := by
  rw [front, List.append_assoc]
  rfl

/-- No path is written like the beginning of a fragment up to its `on`. -/
theorem render_ne_front (p q : Path) (t : Name) : p.render.toList ≠ (fragment q t).front := by
  intro h
  -- Read as a name, the `on` is cut off on both sides.
  rw [toList_render, front_fragment] at h
  obtain ⟨hfront, hmark, _⟩ := append_cons_name_inj p.isNameContinue_mark (by decide) h
  cases p with
  | root t f => simp [mark] at hmark
  | field p f =>
    have hnil := eq_nil_of_render_eq_append hfront fun _ => isNameContinue_points
    exact absurd hnil (by decide)
  | fragment p s =>
    have hlast := congrArg List.getLast? hfront
    rw [front, List.getLast?_append, List.getLast?_append] at hlast
    have hn : " ... on".toList.getLast? = some 'n' := rfl
    have hpoint : " ...".toList.getLast? = some '.' := rfl
    rw [hn, hpoint] at hlast
    exact absurd hlast (by simp)

/-! ### Reading a path back -/

/-- Different paths are written differently. -/
theorem eq_of_render_eq {p q : Path} (h : p.render = q.render) : p = q := by
  replace h := congrArg String.toList h
  -- Induction on one path with cases on the other.  The last step of a text is told by its mark; a
  -- type and a longer path do not leave the same front behind, for a type has no mark in it.
  induction p generalizing q with
  | root t f =>
    obtain ⟨hfront, hmark, hlast⟩ := parts_eq h
    cases q with
    | root t' f' =>
      have ht : t = t' := Name.ext (String.toList_inj.1 hfront)
      have hf : f = f' := hlast
      rw [ht, hf]
    | field q f' => exact absurd hfront (name_ne_render t q)
    | fragment q t' => simp [mark] at hmark
  | field p f ih =>
    obtain ⟨hfront, hmark, hlast⟩ := parts_eq h
    cases q with
    | root t' f' => exact absurd hfront.symm (name_ne_render t' p)
    | field q f' =>
      have hf : f = f' := hlast
      rw [ih hfront, hf]
    | fragment q t' => exact absurd hfront (render_ne_front p q t')
  | fragment p t ih =>
    obtain ⟨hfront, hmark, hlast⟩ := parts_eq h
    cases q with
    | root t' f' => simp [mark] at hmark
    | field q f' => exact absurd hfront.symm (render_ne_front q p t)
    | fragment q t' =>
      have hp : p = q := ih (List.append_cancel_right hfront)
      have ht : t = t' := hlast
      rw [hp, ht]

end Path

end Federation
