import Federation.Name

/-!
# Tables

A `Table α` keeps one value of `α` per name, in the order in which the names were first seen.
That order is observable: types, fields, members and values are reported and printed in it.

* `get?` looks a name up, and `get?_eq_some_iff` says that it finds exactly the entries.
* `alter` replaces the value of a name, or appends the name when it is new.  The names after it
  are the names before it, with a new one at the end (`names_alter`), and only the value of that
  name changes (`get?_alter_self`, `get?_alter_of_ne`).
-/

namespace Federation

/-- Values kept by name, in first-seen order, each name once. -/
structure Table (α : Type) where
  /-- The names with their values, first seen first. -/
  entries : List (Name × α)
  /-- No name occurs twice. -/
  distinct : (entries.map Prod.fst).Nodup
deriving DecidableEq

namespace Table

variable {α β : Type}

/-- The table without entries. -/
def empty : Table α := ⟨[], by simp⟩

instance : EmptyCollection (Table α) := ⟨empty⟩
instance : Inhabited (Table α) := ⟨empty⟩

/-- The names in first-seen order. -/
def names (t : Table α) : List Name := t.entries.map Prod.fst

/-- The values in first-seen order of their names. -/
def values (t : Table α) : List α := t.entries.map Prod.snd

/-- The value kept under a name. -/
def get? (t : Table α) (n : Name) : Option α := t.entries.lookup n

/-- Whether a name has a value. -/
def contains (t : Table α) (n : Name) : Bool := t.names.contains n

/-- Whether there is no entry at all. -/
def isEmpty (t : Table α) : Bool := t.entries.isEmpty

/-! ### Changing one entry -/

/-- The entries with the value of `n` passed through `f`, or `n` appended with `f none`. -/
def alterEntries (n : Name) (f : Option α → α) : List (Name × α) → List (Name × α)
  | [] => [(n, f none)]
  | (m, a) :: rest => if m = n then (m, f (some a)) :: rest else (m, a) :: alterEntries n f rest

theorem map_fst_alterEntries (n : Name) (f : Option α → α) (es : List (Name × α)) :
    (alterEntries n f es).map Prod.fst =
      if n ∈ es.map Prod.fst then es.map Prod.fst else es.map Prod.fst ++ [n] := by
  induction es with
  | nil => simp [alterEntries]
  | cons e es ih =>
    obtain ⟨m, a⟩ := e
    by_cases h : m = n
    · simp [alterEntries, h]
    · -- The head is another name: whether `n` is there depends on the tail.
      have h' : ¬ n = m := fun e => h e.symm
      by_cases hn : n ∈ es.map Prod.fst
      · simp only [alterEntries, h, if_false, List.map_cons, ih, hn, if_true, List.mem_cons, h',
          false_or]
      · simp only [alterEntries, h, if_false, List.map_cons, ih, hn, List.mem_cons, h', false_or,
          List.cons_append]

/-- The table with the value of `n` passed through `f`; a new name goes to the end, with the
value `f none`. -/
def alter (t : Table α) (n : Name) (f : Option α → α) : Table α :=
  ⟨alterEntries n f t.entries, by
    rw [map_fst_alterEntries]
    split
    · exact t.distinct
    · -- The name at the end is new.
      rename_i h
      refine List.nodup_append.2 ⟨t.distinct, by simp, ?_⟩
      intro a ha b hb e
      simp only [List.mem_singleton] at hb
      exact h (hb ▸ e ▸ ha)⟩

/-- The table with a value for `n`, unless it has one already. -/
def insertNew (t : Table α) (n : Name) (a : α) : Table α := t.alter n (·.getD a)

/-! ### Changing all entries -/

/-- The table with every value replaced, its name in view. -/
def mapEntries (f : Name → α → β) (t : Table α) : Table β :=
  ⟨t.entries.map fun e => (e.1, f e.1 e.2), by
    have h : (t.entries.map fun e => (e.1, f e.1 e.2)).map Prod.fst = t.entries.map Prod.fst := by
      simp [Function.comp_def]
    rw [h]; exact t.distinct⟩

/-- The table with every value replaced. -/
def map (f : α → β) (t : Table α) : Table β := t.mapEntries fun _ => f

/-- The entries that pass a test, in their order. -/
def filter (p : Name → α → Bool) (t : Table α) : Table α :=
  ⟨t.entries.filter fun e => p e.1 e.2,
    t.distinct.sublist ((List.filter_sublist).map Prod.fst)⟩

/-! ### The view through names and look-ups -/

@[ext] theorem ext {s t : Table α} (h : s.entries = t.entries) : s = t := by
  cases s; cases t; cases h; rfl

@[simp] theorem entries_empty : (∅ : Table α).entries = [] := rfl

@[simp] theorem names_empty : (∅ : Table α).names = [] := rfl

theorem nodup_names (t : Table α) : t.names.Nodup := t.distinct

/-- A look-up finds exactly the entries of the table. -/
theorem get?_eq_some_iff {t : Table α} {n : Name} {a : α} :
    t.get? n = some a ↔ (n, a) ∈ t.entries := by
  have key : ∀ es : List (Name × α), (es.map Prod.fst).Nodup →
      (es.lookup n = some a ↔ (n, a) ∈ es) := by
    intro es
    induction es with
    | nil => simp
    | cons e es ih =>
      obtain ⟨m, b⟩ := e
      intro hd
      simp only [List.map_cons, List.nodup_cons] at hd
      by_cases h : n = m
      · -- No other entry has the name of the head.
        subst h
        have hn : (n, a) ∉ es := fun hm => hd.1 (List.mem_map_of_mem (f := Prod.fst) hm)
        simp [hn, eq_comm]
      · have hb : (n == m) = false := by simpa using h
        rw [List.lookup_cons, hb]
        simp [ih hd.2, h]
  exact key t.entries t.distinct

theorem mem_names_iff {t : Table α} {n : Name} : n ∈ t.names ↔ ∃ a, t.get? n = some a := by
  simp [names, get?_eq_some_iff]

theorem get?_eq_none_iff {t : Table α} {n : Name} : t.get? n = none ↔ n ∉ t.names := by
  rw [mem_names_iff]
  cases t.get? n <;> simp

theorem contains_iff {t : Table α} {n : Name} : t.contains n = true ↔ n ∈ t.names := by
  simp [contains]

@[simp] theorem get?_empty (n : Name) : (∅ : Table α).get? n = none := rfl

/-- Altering a name keeps the order of the names; a new one comes last. -/
theorem names_alter (t : Table α) (n : Name) (f : Option α → α) :
    (t.alter n f).names = if n ∈ t.names then t.names else t.names ++ [n] :=
  map_fst_alterEntries n f t.entries

@[simp] theorem get?_alter_self (t : Table α) (n : Name) (f : Option α → α) :
    (t.alter n f).get? n = some (f (t.get? n)) := by
  have key : ∀ es : List (Name × α),
      (alterEntries n f es).lookup n = some (f (es.lookup n)) := by
    intro es
    induction es with
    | nil => simp [alterEntries]
    | cons e es ih =>
      obtain ⟨m, b⟩ := e
      by_cases h : m = n
      · simp [alterEntries, h]
      · have hb : (n == m) = false := by simpa using fun e => h e.symm
        simp only [alterEntries, h, if_false, List.lookup_cons, hb, ih]
  exact key t.entries

theorem get?_alter_of_ne (t : Table α) {m n : Name} (f : Option α → α) (hmn : m ≠ n) :
    (t.alter n f).get? m = t.get? m := by
  have key : ∀ es : List (Name × α), (alterEntries n f es).lookup m = es.lookup m := by
    intro es
    induction es with
    | nil =>
      have hb : (m == n) = false := by simpa using hmn
      simp [alterEntries, List.lookup_cons, hb]
    | cons e es ih =>
      obtain ⟨k, b⟩ := e
      by_cases h : k = n
      · have hb : (m == n) = false := by simpa using hmn
        simp [alterEntries, h, List.lookup_cons, hb]
      · simp only [alterEntries, h, if_false, List.lookup_cons, ih]
  exact key t.entries

/-- What a name has already is kept. -/
@[simp] theorem get?_insertNew_self (t : Table α) (n : Name) (a : α) :
    (t.insertNew n a).get? n = some ((t.get? n).getD a) :=
  get?_alter_self t n _

theorem get?_insertNew_of_ne (t : Table α) {m n : Name} (a : α) (h : m ≠ n) :
    (t.insertNew n a).get? m = t.get? m :=
  get?_alter_of_ne t _ h

theorem get?_filter (p : Name → α → Bool) (t : Table α) (n : Name) :
    (t.filter p).get? n = (t.get? n).filter (p n) := by
  apply Option.ext
  intro a
  rw [get?_eq_some_iff, Option.filter_eq_some_iff, get?_eq_some_iff]
  exact List.mem_filter

@[simp] theorem names_mapEntries (f : Name → α → β) (t : Table α) :
    (t.mapEntries f).names = t.names := by
  simp [mapEntries, names, Function.comp_def]

@[simp] theorem names_map (f : α → β) (t : Table α) : (t.map f).names = t.names :=
  names_mapEntries _ t

@[simp] theorem get?_mapEntries (f : Name → α → β) (t : Table α) (n : Name) :
    (t.mapEntries f).get? n = (t.get? n).map (f n) := by
  have key : ∀ es : List (Name × α),
      (es.map fun e => (e.1, f e.1 e.2)).lookup n = (es.lookup n).map (f n) := by
    intro es
    induction es with
    | nil => rfl
    | cons e es ih =>
      obtain ⟨m, b⟩ := e
      by_cases h : n = m
      · subst h; simp
      · have hb : (n == m) = false := by simpa using h
        simp [List.lookup_cons, hb, ih]
  exact key t.entries

@[simp] theorem get?_map (f : α → β) (t : Table α) (n : Name) :
    (t.map f).get? n = (t.get? n).map f :=
  get?_mapEntries _ t n

/-- Nothing changes where every value is replaced by itself. -/
theorem mapEntries_eq_self {t : Table α} {f : Name → α → α}
    (h : ∀ e ∈ t.entries, f e.1 e.2 = e.2) : t.mapEntries f = t := by
  refine Table.ext ((List.map_congr_left fun e he => ?_).trans (List.map_id t.entries))
  rw [h e he]
  rfl

/-- The entries with their values replaced are those of the table made so. -/
theorem mem_map_entries_iff {t : Table α} {f : α → β} {n : Name} {b : β} :
    (n, b) ∈ (t.entries.map fun e => (e.1, f e.2)) ↔ ∃ a, t.get? n = some a ∧ f a = b := by
  rw [← Option.map_eq_some_iff, ← get?_map, get?_eq_some_iff]
  exact Iff.rfl

end Table

end Federation
