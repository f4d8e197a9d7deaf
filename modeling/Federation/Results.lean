/-!
# Lists of results

Checking many things one by one gives a list of results; `oks` and `errors` sort it.
-/

namespace Federation

variable {ε α : Type}

/-- The values among some results. -/
def oks (rs : List (Except ε α)) : List α := rs.filterMap Except.toOption

/-- The errors among some results. -/
def errors (rs : List (Except ε α)) : List ε :=
  rs.filterMap fun
    | .error e => some e
    | .ok _ => none

theorem mem_oks {rs : List (Except ε α)} {a : α} : a ∈ oks rs ↔ .ok a ∈ rs := by
  rw [oks, List.mem_filterMap]
  constructor
  · rintro ⟨_ | b, hr, h⟩
    · cases h
    · exact Option.some.inj h ▸ hr
  · exact fun h => ⟨_, h, rfl⟩

theorem mem_errors {rs : List (Except ε α)} {e : ε} : e ∈ errors rs ↔ .error e ∈ rs := by
  rw [errors, List.mem_filterMap]
  constructor
  · rintro ⟨_ | b, hr, h⟩
    · exact Option.some.inj h ▸ hr
    · cases h
  · exact fun h => ⟨_, h, rfl⟩

theorem oks_append (rs rs' : List (Except ε α)) : oks (rs ++ rs') = oks rs ++ oks rs' :=
  List.filterMap_append

theorem errors_append (rs rs' : List (Except ε α)) :
    errors (rs ++ rs') = errors rs ++ errors rs' :=
  List.filterMap_append

theorem oks_perm {rs rs' : List (Except ε α)} (h : rs.Perm rs') : (oks rs).Perm (oks rs') :=
  h.filterMap _

@[simp] theorem oks_ok_cons (a : α) (rs : List (Except ε α)) : oks (.ok a :: rs) = a :: oks rs :=
  rfl

@[simp] theorem errors_ok_cons (a : α) (rs : List (Except ε α)) :
    errors (.ok a :: rs) = errors rs :=
  rfl

theorem eq_ok_of_toOption {r : Except ε α} {a : α} (h : r.toOption = some a) : r = .ok a := by
  cases r with
  | error e => cases h
  | ok b => exact congrArg Except.ok (Option.some.inj h)

/-- There is no error exactly if every result has its value. -/
theorem errors_eq_nil_iff {rs : List (Except ε α)} :
    errors rs = [] ↔ ∀ r ∈ rs, ∃ a, r = .ok a := by
  simp only [List.eq_nil_iff_forall_not_mem, mem_errors]
  constructor
  · intro h r hr
    cases r with
    | error e => exact absurd hr (h e)
    | ok a => exact ⟨a, rfl⟩
  · intro h e he
    obtain ⟨a, ha⟩ := h _ he
    cases ha

end Federation
