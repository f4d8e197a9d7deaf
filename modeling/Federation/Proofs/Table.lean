import Federation.FirstSeen
import Federation.Table
import Mathlib.Data.List.Basic

/-!
# Tables altered again and again

Altering a table appends the name if it is new, so a fold of alterations ends in the names in
first-seen order (`names_foldl_alter`).  Where all names are new and different, what the fold adds
is one entry for each item, in the order of the items (`entries_foldl_alter`).

A table is known by its names and what is found under them (`ext_get?`).
-/

namespace Federation.Table

variable {α E : Type}

theorem names_alter_eq (t : Table α) (n : Name) (f : Option α → α) :
    (t.alter n f).names = appendNew t.names [n] := by
  rw [names_alter]
  simp [appendNew]

/-- A fold of alterations appends the names that are new. -/
theorem names_foldl_alter (key : E → Name) (value : E → Option α → α) (es : List E)
    (t : Table α) :
    (es.foldl (fun t e => t.alter (key e) (value e)) t).names =
      appendNew t.names (es.map key) := by
  induction es generalizing t with
  | nil => rfl
  | cons e es ih =>
    rw [List.foldl_cons, ih, names_alter_eq, ← appendNew_append, List.map_cons,
      List.singleton_append]

theorem entries_alter_of_notMem {t : Table α} {n : Name} (h : n ∉ t.names) (f : Option α → α) :
    (t.alter n f).entries = t.entries ++ [(n, f none)] := by
  have key : ∀ es : List (Name × α), n ∉ es.map Prod.fst →
      alterEntries n f es = es ++ [(n, f none)] := by
    intro es
    induction es with
    | nil => exact fun _ => rfl
    | cons e es ih =>
      intro hn
      rw [List.map_cons, List.mem_cons, not_or] at hn
      have hne : e.1 ≠ n := fun he => hn.1 he.symm
      rw [alterEntries, if_neg hne, ih hn.2, List.cons_append]
  exact key t.entries h

/-- A fold of alterations under new and different names appends an entry for each item. -/
theorem entries_foldl_alter (key : E → Name) (value : E → Option α → α) {es : List E}
    {t : Table α} (h : (t.names ++ es.map key).Nodup) :
    (es.foldl (fun t e => t.alter (key e) (value e)) t).entries =
      t.entries ++ es.map fun e => (key e, value e none) := by
  induction es generalizing t with
  | nil => simp
  | cons e es ih =>
    have hnew : key e ∉ t.names := by
      intro hmem
      exact (List.nodup_append.1 h).2.2 _ hmem _ List.mem_cons_self rfl
    have hentries := entries_alter_of_notMem hnew (value e)
    have hnames : (t.alter (key e) (value e)).names = t.names ++ [key e] := by
      rw [names_alter, if_neg hnew]
    have hrest : ((t.alter (key e) (value e)).names ++ es.map key).Nodup := by
      rw [hnames, List.append_assoc]
      exact h
    rw [List.foldl_cons, ih hrest, hentries, List.append_assoc, List.map_cons,
      List.singleton_append]

/-- Tables with the same names in the same order, and the same values under them, are the same. -/
theorem ext_get? {t t' : Table α} (hnames : t'.names = t.names)
    (hget : ∀ n, t'.get? n = t.get? n) : t' = t := by
  have hentries : ∀ u : Table α,
      u.names.filterMap (fun n => (u.get? n).map fun a => (n, a)) = u.entries := by
    intro u
    rw [names, List.filterMap_map]
    have hfound : ∀ e ∈ u.entries,
        ((fun n => (u.get? n).map fun a => (n, a)) ∘ Prod.fst) e = some e := by
      intro e he
      rw [Function.comp_apply, get?_eq_some_iff.2 he, Option.map_some]
    rw [List.filterMap_congr hfound, List.filterMap_some]
  refine Table.ext ?_
  rw [← hentries, ← hentries, hnames]
  simp only [hget]

end Federation.Table
