/-!
# Lists in first-seen order

`appendNew` appends to a list those items of another one that are not there yet.  It is how
interfaces, members and directives from several places become one list: the order is that in
which they were first seen (`mem_appendNew`, `nodup_appendNew`, `appendNew_nil`).
-/

namespace Federation

variable {α : Type} [DecidableEq α]

/-- A list with those items of another one appended that are new, each once. -/
def appendNew (xs : List α) : List α → List α
  | [] => xs
  | a :: as => if a ∈ xs then appendNew xs as else appendNew (xs ++ [a]) as

@[simp] theorem mem_appendNew {xs ys : List α} {a : α} :
    a ∈ appendNew xs ys ↔ a ∈ xs ∨ a ∈ ys := by
  induction ys generalizing xs with
  | nil => simp [appendNew]
  | cons b ys ih =>
    unfold appendNew
    split
    · rename_i hb
      rw [ih, List.mem_cons]
      refine ⟨Or.imp id .inr, fun h => h.elim .inl fun h => h.elim (fun e => .inl (e ▸ hb)) .inr⟩
    · rw [ih]
      simp [or_assoc]

/-- Appending what is new repeats nothing that was not repeated before. -/
theorem nodup_appendNew {xs ys : List α} (h : xs.Nodup) : (appendNew xs ys).Nodup := by
  induction ys generalizing xs with
  | nil => exact h
  | cons b ys ih =>
    unfold appendNew
    split
    · exact ih h
    · rename_i hb
      refine ih (List.nodup_append.2 ⟨h, by simp, ?_⟩)
      intro x hx y hy e
      simp only [List.mem_singleton] at hy
      exact hb (hy ▸ e ▸ hx)

theorem appendNew_append (xs ys zs : List α) :
    appendNew xs (ys ++ zs) = appendNew (appendNew xs ys) zs := by
  induction ys generalizing xs with
  | nil => rfl
  | cons b ys ih =>
    simp only [List.cons_append, appendNew]
    split
    · exact ih xs
    · exact ih (xs ++ [b])

/-- What is appended are the new items, each where it was seen first. -/
theorem appendNew_eq (xs ys : List α) :
    appendNew xs ys = xs ++ (ys.filter fun a => a ∉ xs).eraseDups := by
  induction ys generalizing xs with
  | nil => simp [appendNew]
  | cons b ys ih =>
    by_cases hb : b ∈ xs
    · simp [appendNew, hb, ih]
    · have hrest : (ys.filter fun a => a ∉ xs ++ [b]) =
          (ys.filter fun a => a ∉ xs).filter fun a => !a == b := by
        rw [List.filter_filter]
        refine List.filter_congr fun a _ => ?_
        by_cases ha : a ∈ xs <;> by_cases hab : a = b <;> simp [ha, hab]
      rw [appendNew, if_neg hb, ih, hrest, List.filter_cons_of_pos (by simpa using hb),
        List.eraseDups_cons, List.append_assoc, List.singleton_append]

theorem appendNew_nil (ys : List α) : appendNew [] ys = ys.eraseDups := by
  have hall : (ys.filter fun a => a ∉ ([] : List α)) = ys := by simp
  rw [appendNew_eq, hall, List.nil_append]

/-- Without repetition and with nothing there before, all items are appended as they stand. -/
theorem appendNew_of_nodup {xs ys : List α} (h : (xs ++ ys).Nodup) :
    appendNew xs ys = xs ++ ys := by
  induction ys generalizing xs with
  | nil => simp [appendNew]
  | cons b ys ih =>
    have hb : b ∉ xs := fun hb => (List.nodup_append.1 h).2.2 b hb b List.mem_cons_self rfl
    have h' : (xs ++ [b] ++ ys).Nodup := by simpa using h
    simp only [appendNew, hb, if_false, ih h', List.append_assoc, List.singleton_append]

end Federation
