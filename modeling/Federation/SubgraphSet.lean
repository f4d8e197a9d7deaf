/-!
# Sets and maps of subgraphs

A batch of subgraphs is a list, and a subgraph is referred to by its position in that list.
Everything that holds of several subgraphs is reported in the order of the batch, so a set of
subgraphs is the strictly increasing list of its members: equal sets are equal values (`ext_mem`),
and reading a set off is reading it in batch order.  A `SubgraphMap` keeps values the same way.
-/

namespace Federation

/-- A subgraph, as its position in the batch. -/
abbrev SubgraphId := Nat

/-- Two lists that increase strictly by some number and have the same members are the same list. -/
theorem eq_of_increasing {α : Type} {number : α → Nat} {l m : List α}
    (hl : l.Pairwise (number · < number ·)) (hm : m.Pairwise (number · < number ·))
    (h : ∀ a, a ∈ l ↔ a ∈ m) : l = m := by
  have hne : ∀ {a b : α}, number a < number b → a ≠ b := by
    rintro a _ hab rfl
    exact Nat.lt_irrefl _ hab
  have hperm : l.Perm m := (List.perm_ext_iff_of_nodup (hl.imp hne) (hm.imp hne)).2 h
  exact hperm.eq_of_pairwise (fun a b _ _ hab hba => absurd hab (Nat.lt_asymm hba)) hl hm

/-! ### Sets -/

/-- A set of subgraphs, listed in batch order. -/
structure SubgraphSet where
  /-- The members, in batch order. -/
  ids : List SubgraphId
  /-- The list increases strictly, so no member is listed twice. -/
  sorted : ids.Pairwise (· < ·)
deriving DecidableEq

namespace SubgraphSet

instance : Membership SubgraphId SubgraphSet := ⟨fun s i => i ∈ s.ids⟩

instance (i : SubgraphId) (s : SubgraphSet) : Decidable (i ∈ s) :=
  inferInstanceAs (Decidable (i ∈ s.ids))

theorem mem_def {i : SubgraphId} {s : SubgraphSet} : i ∈ s ↔ i ∈ s.ids := Iff.rfl

/-- The set without members. -/
def empty : SubgraphSet := ⟨[], List.Pairwise.nil⟩

instance : EmptyCollection SubgraphSet := ⟨empty⟩
instance : Inhabited SubgraphSet := ⟨empty⟩

/-- Whether the set has no member. -/
def isEmpty (s : SubgraphSet) : Bool := s.ids.isEmpty

/-- The number of members. -/
def size (s : SubgraphSet) : Nat := s.ids.length

/-- Puts a position into an increasing list at its place, unless it is there. -/
def insertId (i : Nat) : List Nat → List Nat
  | [] => [i]
  | j :: rest => if i < j then i :: j :: rest else if i = j then j :: rest else j :: insertId i rest

@[simp] theorem mem_insertId {i j : Nat} {l : List Nat} :
    j ∈ insertId i l ↔ j = i ∨ j ∈ l := by
  induction l with
  | nil => simp [insertId]
  | cons k l ih => grind [insertId]

theorem pairwise_insertId {i : Nat} {l : List Nat} (h : l.Pairwise (· < ·)) :
    (insertId i l).Pairwise (· < ·) := by
  induction l with
  | nil => simp [insertId]
  | cons k l ih =>
    rw [List.pairwise_cons] at h
    unfold insertId
    split
    · -- The new position comes before the head, and so before everything.
      rename_i hlt
      refine List.pairwise_cons.2 ⟨?_, List.pairwise_cons.2 h⟩
      intro a ha
      rcases List.mem_cons.1 ha with rfl | ha
      · exact hlt
      · exact Nat.lt_trans hlt (h.1 a ha)
    · split
      · exact List.pairwise_cons.2 h
      · -- The head stays the least, also against the new position.
        rename_i hlt hne
        refine List.pairwise_cons.2 ⟨?_, ih h.2⟩
        intro a ha
        rcases mem_insertId.1 ha with rfl | ha
        · omega
        · exact h.1 a ha

/-- The set with one more member. -/
def insert (s : SubgraphSet) (i : SubgraphId) : SubgraphSet :=
  ⟨insertId i s.ids, pairwise_insertId s.sorted⟩

/-- The set with one member. -/
def singleton (i : SubgraphId) : SubgraphSet := ⟨[i], by simp⟩

/-- The members that pass a test. -/
def filter (p : SubgraphId → Bool) (s : SubgraphSet) : SubgraphSet :=
  ⟨s.ids.filter p, s.sorted.filter p⟩

/-- The members that two sets share. -/
def inter (s t : SubgraphSet) : SubgraphSet := s.filter (· ∈ t)

/-- The members of either of two sets. -/
def union (s t : SubgraphSet) : SubgraphSet := t.ids.foldl insert s

/-- The set of the listed subgraphs. -/
def ofList (l : List SubgraphId) : SubgraphSet := l.foldl insert ∅

/-- The first member in batch order. -/
def first? (s : SubgraphSet) : Option SubgraphId := s.ids.head?

/-! ### Membership -/

@[simp] theorem not_mem_empty (i : SubgraphId) : i ∉ (∅ : SubgraphSet) := List.not_mem_nil

@[simp] theorem mem_insert {s : SubgraphSet} {i j : SubgraphId} :
    j ∈ s.insert i ↔ j = i ∨ j ∈ s := mem_insertId

@[simp] theorem mem_singleton {i j : SubgraphId} : j ∈ singleton i ↔ j = i :=
  List.mem_singleton

@[simp] theorem mem_filter {p : SubgraphId → Bool} {s : SubgraphSet} {i : SubgraphId} :
    i ∈ s.filter p ↔ i ∈ s ∧ p i = true := List.mem_filter

@[simp] theorem mem_inter {s t : SubgraphSet} {i : SubgraphId} :
    i ∈ s.inter t ↔ i ∈ s ∧ i ∈ t := by simp [inter]

theorem mem_foldl_insert {l : List SubgraphId} {s : SubgraphSet} {i : SubgraphId} :
    i ∈ l.foldl insert s ↔ i ∈ s ∨ i ∈ l := by
  induction l generalizing s with
  | nil => simp
  | cons j l ih => rw [List.foldl_cons, ih]; simp only [mem_insert, List.mem_cons]; grind

@[simp] theorem mem_union {s t : SubgraphSet} {i : SubgraphId} :
    i ∈ s.union t ↔ i ∈ s ∨ i ∈ t := mem_foldl_insert

@[simp] theorem mem_ofList {l : List SubgraphId} {i : SubgraphId} : i ∈ ofList l ↔ i ∈ l := by
  simp [ofList, mem_foldl_insert]

theorem isEmpty_iff {s : SubgraphSet} : s.isEmpty = true ↔ ∀ i, i ∉ s := by
  simp [isEmpty, mem_def, List.eq_nil_iff_forall_not_mem]

theorem isEmpty_eq_false_iff {s : SubgraphSet} : s.isEmpty = false ↔ ∃ i, i ∈ s := by
  rw [← Bool.not_eq_true, isEmpty_iff]; simp

/-- Sets with the same members are equal. -/
theorem ext_mem {s t : SubgraphSet} (h : ∀ i, i ∈ s ↔ i ∈ t) : s = t := by
  have hids := eq_of_increasing s.sorted t.sorted h
  cases s; cases t; cases hids; rfl

end SubgraphSet

/-! ### Maps -/

/-- Values kept by subgraph, listed in batch order. -/
structure SubgraphMap (α : Type) where
  /-- The subgraphs with their values, in batch order. -/
  entries : List (SubgraphId × α)
  /-- The subgraphs increase strictly. -/
  sorted : (entries.map Prod.fst).Pairwise (· < ·)
deriving DecidableEq

namespace SubgraphMap

variable {α β : Type}

/-- The map without entries. -/
def empty : SubgraphMap α := ⟨[], List.Pairwise.nil⟩

instance : EmptyCollection (SubgraphMap α) := ⟨empty⟩
instance : Inhabited (SubgraphMap α) := ⟨empty⟩

/-- The value of a subgraph. -/
def get? (m : SubgraphMap α) (i : SubgraphId) : Option α := m.entries.lookup i

/-- Puts a value at its place in a list of entries, in the place of an older value. -/
def insertEntry (i : SubgraphId) (a : α) : List (SubgraphId × α) → List (SubgraphId × α)
  | [] => [(i, a)]
  | (j, b) :: rest =>
    if i < j then (i, a) :: (j, b) :: rest
    else if i = j then (i, a) :: rest
    else (j, b) :: insertEntry i a rest

theorem map_fst_insertEntry (i : SubgraphId) (a : α) (es : List (SubgraphId × α)) :
    (insertEntry i a es).map Prod.fst = SubgraphSet.insertId i (es.map Prod.fst) := by
  induction es with
  | nil => rfl
  | cons e es ih =>
    unfold insertEntry SubgraphSet.insertId
    simp only [List.map_cons]
    split
    · rfl
    · split
      · simp_all
      · simp [ih]

/-- The map with the value of a subgraph set. -/
def insert (m : SubgraphMap α) (i : SubgraphId) (a : α) : SubgraphMap α :=
  ⟨insertEntry i a m.entries, by
    rw [map_fst_insertEntry]; exact SubgraphSet.pairwise_insertId m.sorted⟩

/-- The map with the value of a subgraph set, where there is one to set. -/
def insert? (m : SubgraphMap α) (i : SubgraphId) (a? : Option α) : SubgraphMap α :=
  a?.elim m (m.insert i)

/-- The map of those members of a set that `f` has a value for. -/
def ofSet (s : SubgraphSet) (f : SubgraphId → Option α) : SubgraphMap α :=
  ⟨s.ids.filterMap fun i => (f i).map (i, ·), by
    have h : ((s.ids.filterMap fun i => (f i).map (i, ·)).map Prod.fst).Sublist s.ids := by
      induction s.ids with
      | nil => simp
      | cons i l ih =>
        rw [List.filterMap_cons]
        cases f i with
        | none => exact ih.cons i
        | some a => exact ih.cons_cons i
    exact s.sorted.sublist h⟩

/-- The entries whose subgraph passes a test. -/
def filter (p : SubgraphId → Bool) (m : SubgraphMap α) : SubgraphMap α :=
  ⟨m.entries.filter fun e => p e.1, m.sorted.sublist ((List.filter_sublist).map Prod.fst)⟩

/-- The map with every value replaced. -/
def map (f : α → β) (m : SubgraphMap α) : SubgraphMap β :=
  ⟨m.entries.map fun e => (e.1, f e.2), by
    have h : (m.entries.map fun e => (e.1, f e.2)).map Prod.fst = m.entries.map Prod.fst := by
      simp [Function.comp_def]
    rw [h]; exact m.sorted⟩

/-! ### The view through look-ups -/

/-- A look-up finds exactly the entries of the map. -/
theorem get?_eq_some_iff {m : SubgraphMap α} {i : SubgraphId} {a : α} :
    m.get? i = some a ↔ (i, a) ∈ m.entries := by
  have key : ∀ es : List (SubgraphId × α), (es.map Prod.fst).Pairwise (· < ·) →
      (es.lookup i = some a ↔ (i, a) ∈ es) := by
    intro es
    induction es with
    | nil => simp
    | cons e es ih =>
      obtain ⟨j, b⟩ := e
      intro hd
      simp only [List.map_cons, List.pairwise_cons] at hd
      by_cases h : i = j
      · subst h
        have hn : (i, a) ∉ es := fun hm =>
          Nat.lt_irrefl i (hd.1 i (List.mem_map_of_mem (f := Prod.fst) hm))
        simp [hn, eq_comm]
      · have hb : (i == j) = false := by simpa using h
        rw [List.lookup_cons, hb]
        simp [ih hd.2, h]
  exact key m.entries m.sorted

@[simp] theorem entries_empty : (∅ : SubgraphMap α).entries = [] := rfl

@[simp] theorem get?_empty (i : SubgraphId) : (∅ : SubgraphMap α).get? i = none := rfl

/-- Maps that answer every look-up alike are equal. -/
theorem ext_get? {m n : SubgraphMap α} (h : ∀ i, m.get? i = n.get? i) : m = n := by
  have hentries : m.entries = n.entries := by
    refine eq_of_increasing (List.pairwise_map.1 m.sorted) (List.pairwise_map.1 n.sorted) ?_
    rintro ⟨i, a⟩
    rw [← get?_eq_some_iff, ← get?_eq_some_iff, h i]
  cases m; cases n; cases hentries; rfl

@[simp] theorem get?_insert_self (m : SubgraphMap α) (i : SubgraphId) (a : α) :
    (m.insert i a).get? i = some a := by
  -- The view reduces the look-up to membership in the list.
  rw [get?_eq_some_iff]
  show (i, a) ∈ insertEntry i a m.entries
  induction m.entries with
  | nil => simp [insertEntry]
  | cons e es ih => grind [insertEntry]

theorem get?_insert_of_ne (m : SubgraphMap α) {i j : SubgraphId} (a : α) (h : j ≠ i) :
    (m.insert i a).get? j = m.get? j := by
  show (insertEntry i a m.entries).lookup j = m.entries.lookup j
  have hb : (j == i) = false := by simpa using h
  induction m.entries with
  | nil => simp [insertEntry, List.lookup_cons, hb]
  | cons e es ih =>
    obtain ⟨k, b⟩ := e
    unfold insertEntry
    split
    · simp [List.lookup_cons, hb]
    · split
      · rename_i h2; subst h2; simp [List.lookup_cons, hb]
      · simp [List.lookup_cons, ih]

@[simp] theorem get?_ofSet (s : SubgraphSet) (f : SubgraphId → Option α) (i : SubgraphId) :
    (ofSet s f).get? i = if i ∈ s then f i else none := by
  apply Option.ext
  intro a
  rw [get?_eq_some_iff]
  simp only [ofSet, List.mem_filterMap, Option.map_eq_some_iff, Prod.mk.injEq]
  split
  · rename_i h
    constructor
    · rintro ⟨j, _, b, hb, rfl, rfl⟩; exact hb
    · intro ha; exact ⟨i, h, a, ha, rfl, rfl⟩
  · rename_i h
    simp only [reduceCtorEq, iff_false]
    rintro ⟨j, hj, b, _, rfl, _⟩
    exact h hj

@[simp] theorem get?_map (f : α → β) (m : SubgraphMap α) (i : SubgraphId) :
    (m.map f).get? i = (m.get? i).map f := by
  show (m.entries.map fun e => (e.1, f e.2)).lookup i = (m.entries.lookup i).map f
  induction m.entries with
  | nil => rfl
  | cons e es ih =>
    obtain ⟨j, b⟩ := e
    by_cases h : i = j
    · subst h; simp
    · have hb : (i == j) = false := by simpa using h
      simp [List.lookup_cons, hb, ih]

@[simp] theorem get?_filter (p : SubgraphId → Bool) (m : SubgraphMap α) (i : SubgraphId) :
    (m.filter p).get? i = if p i then m.get? i else none := by
  apply Option.ext
  intro a
  rw [get?_eq_some_iff]
  simp only [filter, List.mem_filter]
  split
  · rename_i h; simp [h, get?_eq_some_iff]
  · rename_i h; simp [h]

end SubgraphMap

end Federation
