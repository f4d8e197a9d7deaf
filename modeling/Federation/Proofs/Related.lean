import Federation.Results
import Federation.Table
import Mathlib.Data.List.Forall2

/-!
# Tables and results that are related

Two runs of a pass on inputs that differ in one respect are compared step by step.  Here is what the
comparison says of the containers in between: lists are related item by item (`List.Forall₂`),
tables are related when they have the same names in the same order and related values
(`Table.Rel`), and results are related when both fail alike or both succeed with related values
(`ResultRel`).
-/

namespace Federation

/-! ### Values that may be missing -/

theorem rel_cases {α β : Type} {r : α → β → Prop} {a? : Option α} {b? : Option β}
    (h : Option.Rel r a? b?) :
    (a? = none ∧ b? = none) ∨ ∃ a b, a? = some a ∧ b? = some b ∧ r a b := by
  cases h with
  | none => exact .inl ⟨rfl, rfl⟩
  | some h => exact .inr ⟨_, _, rfl, rfl, h⟩

theorem exists_of_rel {α β : Type} {r : α → β → Prop} {a? : Option α} {b? : Option β}
    (h : Option.Rel r a? b?) {a : α} (ha : a? = some a) : ∃ b, b? = some b ∧ r a b := by
  cases h with
  | none => cases ha
  | some h =>
    cases ha
    exact ⟨_, rfl, h⟩

theorem exists_of_rel_right {α β : Type} {r : α → β → Prop} {a? : Option α} {b? : Option β}
    (h : Option.Rel r a? b?) {b : β} (hb : b? = some b) : ∃ a, a? = some a ∧ r a b := by
  cases h with
  | none => cases hb
  | some h =>
    cases hb
    exact ⟨_, rfl, h⟩

theorem rel_imp {α β : Type} {r s : α → β → Prop} {a? : Option α} {b? : Option β}
    (h : Option.Rel r a? b?) (hrs : ∀ a b, r a b → s a b) : Option.Rel s a? b? := by
  cases h with
  | none => exact .none
  | some h => exact .some (hrs _ _ h)

theorem rel_map {α β γ δ : Type} {r : α → β → Prop} {s : γ → δ → Prop} {a? : Option α}
    {b? : Option β} {f : α → γ} {f' : β → δ} (h : Option.Rel r a? b?)
    (hf : ∀ a b, r a b → s (f a) (f' b)) : Option.Rel s (a?.map f) (b?.map f') := by
  cases h with
  | none => exact .none
  | some h => exact .some (hf _ _ h)

theorem rel_filter {α β : Type} {r : α → β → Prop} {a? : Option α} {b? : Option β} {p : α → Bool}
    {q : β → Bool} (h : Option.Rel r a? b?) (hp : ∀ a b, r a b → q b = p a) :
    Option.Rel r (a?.filter p) (b?.filter q) := by
  cases h with
  | none => exact .none
  | @some a b h =>
    rw [Option.filter_some, Option.filter_some, hp a b h]
    split
    · exact .some h
    · exact .none

theorem optionRel_refl {α : Type} {R : α → α → Prop} (h : ∀ a, R a a) (a? : Option α) :
    Option.Rel R a? a? := by
  cases a? with
  | none => exact .none
  | some a => exact .some (h a)

/-! ### Lists -/

section Lists

variable {α β γ δ : Type} {R : α → β → Prop} {S : γ → δ → Prop} {l : List α} {l' : List β}

theorem exists_of_forall₂ (h : List.Forall₂ R l l') {a : α} (ha : a ∈ l) : ∃ b ∈ l', R a b := by
  induction h with
  | nil => cases ha
  | @cons c d _ _ hcd _ ih =>
    rcases List.mem_cons.1 ha with rfl | ha
    · exact ⟨d, List.mem_cons_self, hcd⟩
    · obtain ⟨b, hb, hab⟩ := ih ha
      exact ⟨b, List.mem_cons_of_mem d hb, hab⟩

theorem exists_of_forall₂_right (h : List.Forall₂ R l l') {b : β} (hb : b ∈ l') :
    ∃ a ∈ l, R a b := exists_of_forall₂ h.flip hb

/-- A list has a counterpart if each of its items has one. -/
theorem exists_forall₂ (h : ∀ a ∈ l, ∃ b, R a b) : ∃ l', List.Forall₂ R l l' := by
  induction l with
  | nil => exact ⟨[], .nil⟩
  | cons a l ih =>
    obtain ⟨b, hab⟩ := h a List.mem_cons_self
    obtain ⟨l', hl⟩ := ih fun a ha => h a (List.mem_cons_of_mem _ ha)
    exact ⟨b :: l', .cons hab hl⟩

/-- Items that are related to nothing but themselves stay as they are. -/
theorem eq_of_forall₂ {R : α → α → Prop} {l l' : List α} (h : List.Forall₂ R l l')
    (heq : ∀ a ∈ l, ∀ b, R a b → b = a) : l' = l := by
  induction h with
  | nil => rfl
  | cons hab _ ih =>
    rw [heq _ List.mem_cons_self _ hab, ih fun a ha => heq a (List.mem_cons_of_mem _ ha)]

/-- Related items are those of the lists. -/
theorem forall₂_and_mem (h : List.Forall₂ R l l') :
    List.Forall₂ (fun a b => a ∈ l ∧ R a b) l l' :=
  List.forall₂_iff_zip.2 ⟨h.length_eq, fun he => ⟨(List.of_mem_zip he).1, List.forall₂_zip h he⟩⟩

theorem forall₂_map {f : α → γ} {f' : β → δ} (h : List.Forall₂ R l l')
    (hf : ∀ a b, R a b → S (f a) (f' b)) : List.Forall₂ S (l.map f) (l'.map f') :=
  List.forall₂_map_left_iff.2 (List.forall₂_map_right_iff.2 (h.imp hf))

/-- Items that pass a test alike are related, and pass it. -/
theorem forall₂_filter_and {p : α → Bool} {q : β → Bool} (h : List.Forall₂ R l l')
    (hp : ∀ a b, R a b → q b = p a) :
    List.Forall₂ (fun a b => R a b ∧ p a = true) (l.filter p) (l'.filter q) := by
  induction h with
  | nil => exact .nil
  | @cons a b _ _ hab _ ih =>
    have hb := hp a b hab
    cases ha : p a with
    | false =>
      rwa [List.filter_cons_of_neg (by simp [ha]), List.filter_cons_of_neg (by simp [hb, ha])]
    | true =>
      rw [List.filter_cons_of_pos ha, List.filter_cons_of_pos (hb.trans ha)]
      exact .cons ⟨hab, ha⟩ ih

theorem forall₂_filter {p : α → Bool} {q : β → Bool} (h : List.Forall₂ R l l')
    (hp : ∀ a b, R a b → q b = p a) : List.Forall₂ R (l.filter p) (l'.filter q) :=
  (forall₂_filter_and h hp).imp fun _ _ hab => hab.1

/-- What is computed from related items is the same if each item gives the same. -/
theorem map_eq_of_forall₂ {f : α → γ} {f' : β → γ} (h : List.Forall₂ R l l')
    (hf : ∀ a b, R a b → f' b = f a) : l'.map f' = l.map f := by
  induction h with
  | nil => rfl
  | cons hab _ ih => rw [List.map_cons, List.map_cons, hf _ _ hab, ih]

theorem flatMap_eq_of_forall₂ {f : α → List γ} {f' : β → List γ} (h : List.Forall₂ R l l')
    (hf : ∀ a b, R a b → f' b = f a) : l'.flatMap f' = l.flatMap f := by
  rw [List.flatMap_def, List.flatMap_def, map_eq_of_forall₂ h hf]

theorem any_eq_of_forall₂ {p : α → Bool} {q : β → Bool} (h : List.Forall₂ R l l')
    (hp : ∀ a b, R a b → q b = p a) : l'.any q = l.any p := by
  induction h with
  | nil => rfl
  | cons hab _ ih => rw [List.any_cons, List.any_cons, hp _ _ hab, ih]

theorem forall₂_filterMap {f : α → Option γ} {f' : β → Option δ} (h : List.Forall₂ R l l')
    (hf : ∀ a b, R a b → Option.Rel S (f a) (f' b)) :
    List.Forall₂ S (l.filterMap f) (l'.filterMap f') :=
  List.rel_filterMap (fun _ _ hab => hf _ _ hab) h

theorem forall₂_flatMap {f : α → List γ} {f' : β → List δ} (h : List.Forall₂ R l l')
    (hf : ∀ a b, R a b → List.Forall₂ S (f a) (f' b)) :
    List.Forall₂ S (l.flatMap f) (l'.flatMap f') :=
  List.rel_flatMap h fun _ _ hab => hf _ _ hab

theorem filterMap_eq_of_forall₂ {f : α → Option γ} {f' : β → Option γ} (h : List.Forall₂ R l l')
    (hf : ∀ a b, R a b → f' b = f a) : l'.filterMap f' = l.filterMap f := by
  induction h with
  | nil => rfl
  | cons hab _ ih => rw [List.filterMap_cons, List.filterMap_cons, hf _ _ hab, ih]

theorem findSome?_eq_of_forall₂ {f : α → Option γ} {f' : β → Option γ} (h : List.Forall₂ R l l')
    (hf : ∀ a b, R a b → f' b = f a) : l'.findSome? f' = l.findSome? f := by
  induction h with
  | nil => rfl
  | cons hab _ ih => rw [List.findSome?_cons, List.findSome?_cons, hf _ _ hab, ih]

/-- The first value that is found in related lists is related. -/
theorem rel_findSome? {f : α → Option γ} {f' : β → Option δ}
    (h : List.Forall₂ R l l') (hf : ∀ a b, R a b → Option.Rel S (f a) (f' b)) :
    Option.Rel S (l.findSome? f) (l'.findSome? f') := by
  induction h with
  | nil => exact .none
  | @cons a b _ _ hab _ ih =>
    rw [List.findSome?_cons, List.findSome?_cons]
    rcases rel_cases (hf _ _ hab) with ⟨ha, hb⟩ | ⟨c, d, ha, hb, hcd⟩
    · rw [ha, hb]
      exact ih
    · rw [ha, hb]
      exact .some hcd

theorem rel_getElem? (h : List.Forall₂ R l l') (i : Nat) : Option.Rel R l[i]? l'[i]? := by
  induction h generalizing i with
  | nil => exact .none
  | cons hab _ ih =>
    cases i with
    | zero => exact .some hab
    | succ i => exact ih i

/-- Items of related lists have the same positions. -/
theorem forall₂_zipIdx (h : List.Forall₂ R l l') :
    List.Forall₂ (fun a b => b.2 = a.2 ∧ l[a.2]? = some a.1 ∧ R a.1 b.1) l.zipIdx l'.zipIdx := by
  refine List.forall₂_iff_get.2 ⟨by simpa using h.length_eq, fun i hi hi' => ?_⟩
  have hl : i < l.length := by simpa using hi
  have hl' : i < l'.length := by simpa using hi'
  simpa [hl] using (List.forall₂_iff_get.1 h).2 i hl hl'

end Lists

/-! ### Tables -/

/-- The same names in the same order, with related values. -/
def Table.Rel {α β : Type} (R : Name → α → β → Prop) (t : Table α) (t' : Table β) : Prop :=
  List.Forall₂ (fun e e' => e'.1 = e.1 ∧ R e.1 e.2 e'.2) t.entries t'.entries

namespace Table

variable {α β γ δ : Type} {R : Name → α → β → Prop} {S : Name → γ → δ → Prop} {t : Table α}
  {t' : Table β} {u : Table γ} {u' : Table δ}

/-- What is to be shown of related entries, with the name that they share. -/
theorem of_entries {P : Name × α → Name × β → Prop} (h : ∀ n a b, R n a b → P (n, a) (n, b))
    (e : Name × α) (e' : Name × β) (he : e'.1 = e.1 ∧ R e.1 e.2 e'.2) : P e e' := by
  obtain ⟨n, a⟩ := e
  obtain ⟨n', b⟩ := e'
  obtain ⟨rfl, hab⟩ := he
  exact h _ a b hab

theorem rel_empty : Rel R (∅ : Table α) (∅ : Table β) := .nil

theorem rel_refl {R : Name → α → α → Prop} (h : ∀ n a, R n a a) (t : Table α) : Rel R t t :=
  List.forall₂_same.2 fun e _ => ⟨rfl, h e.1 e.2⟩

theorem Rel.names_eq (h : Rel R t t') : t'.names = t.names :=
  map_eq_of_forall₂ h fun _ _ hab => hab.1

theorem Rel.contains_eq (h : Rel R t t') (n : Name) : t'.contains n = t.contains n := by
  rw [contains, contains, h.names_eq]

theorem Rel.isEmpty_eq (h : Rel R t t') : t'.isEmpty = t.isEmpty := by
  have hlength := h.length_eq
  rw [isEmpty, isEmpty, Bool.eq_iff_iff, List.isEmpty_iff_length_eq_zero,
    List.isEmpty_iff_length_eq_zero, hlength]

theorem Rel.values (h : Rel R t t') :
    List.Forall₂ (fun a b => ∃ n, R n a b) t.values t'.values :=
  forall₂_map h (of_entries fun n _ _ hab => ⟨n, hab⟩)

/-- What a name is kept with is related. -/
theorem Rel.get? (h : Rel R t t') (n : Name) : Option.Rel (R n) (t.get? n) (t'.get? n) := by
  have key : ∀ (es : List (Name × α)) (es' : List (Name × β)),
      List.Forall₂ (fun e e' => e'.1 = e.1 ∧ R e.1 e.2 e'.2) es es' →
      Option.Rel (R n) (es.lookup n) (es'.lookup n) := by
    intro es es' hes
    induction hes with
    | nil => exact .none
    | @cons e e' es es' hee _ ih =>
      obtain ⟨m, a⟩ := e
      obtain ⟨m', b⟩ := e'
      obtain ⟨rfl, hab⟩ := hee
      by_cases hn : n = m'
      · subst hn
        simpa using hab
      · have hne : (n == m') = false := by simpa using hn
        simpa [List.lookup_cons, hne] using ih
  exact key _ _ h

/-- Related values are those under their name. -/
theorem Rel.with_get? (h : Rel R t t') :
    Rel (fun n a b => t.get? n = some a ∧ t'.get? n = some b ∧ R n a b) t t' := by
  refine List.forall₂_iff_zip.2 ⟨h.length_eq, fun {e e'} hmem => ?_⟩
  obtain ⟨hname, hab⟩ := List.forall₂_zip h hmem
  obtain ⟨he, he'⟩ := List.of_mem_zip hmem
  refine ⟨hname, get?_eq_some_iff.2 he, get?_eq_some_iff.2 ?_, hab⟩
  rw [← hname]
  exact he'

/-- Altering related values alike leaves them related. -/
theorem Rel.alter (h : Rel R t t') (n : Name) {f : Option α → α} {f' : Option β → β}
    (hf : ∀ a? b?, Option.Rel (R n) a? b? → R n (f a?) (f' b?)) :
    Rel R (t.alter n f) (t'.alter n f') := by
  have key : ∀ (es : List (Name × α)) (es' : List (Name × β)),
      List.Forall₂ (fun e e' => e'.1 = e.1 ∧ R e.1 e.2 e'.2) es es' →
      List.Forall₂ (fun e e' => e'.1 = e.1 ∧ R e.1 e.2 e'.2) (alterEntries n f es)
        (alterEntries n f' es') := by
    intro es es' hes
    induction hes with
    | nil => exact .cons ⟨rfl, hf _ _ .none⟩ .nil
    | @cons e e' es es' hee hrest ih =>
      obtain ⟨m, a⟩ := e
      obtain ⟨m', b⟩ := e'
      obtain ⟨rfl, hab⟩ := hee
      simp only [alterEntries]
      split
      · rename_i hn
        subst hn
        exact .cons ⟨rfl, hf _ _ (.some hab)⟩ hrest
      · exact .cons ⟨rfl, hab⟩ ih
  exact key _ _ h

theorem Rel.mapEntries (h : Rel R t t') {f : Name → α → γ} {f' : Name → β → δ}
    (hf : ∀ n a b, R n a b → S n (f n a) (f' n b)) :
    Rel S (t.mapEntries f) (t'.mapEntries f') :=
  forall₂_map h (of_entries fun n a b hab => ⟨rfl, hf n a b hab⟩)

theorem Rel.filter (h : Rel R t t') {p : Name → α → Bool} {q : Name → β → Bool}
    (hp : ∀ n a b, R n a b → q n b = p n a) : Rel R (t.filter p) (t'.filter q) :=
  forall₂_filter h (of_entries hp)

/-- Entries that are folded into related tables alike leave them related. -/
theorem Rel.foldl_alter {E E' : Type} {Q : E → E' → Prop} {l : List E} {l' : List E'}
    {key : E → Name} {key' : E' → Name} {f : E → Option α → α} {f' : E' → Option β → β}
    (hl : List.Forall₂ Q l l') (hkey : ∀ e e', Q e e' → key' e' = key e)
    (hf : ∀ e e', Q e e' → ∀ a? b?, Option.Rel (R (key e)) a? b? → R (key e) (f e a?) (f' e' b?))
    (h : Rel R t t') : Rel R (l.foldl (fun t e => t.alter (key e) (f e)) t)
      (l'.foldl (fun t e => t.alter (key' e) (f' e)) t') := by
  refine List.rel_foldl (P := Rel R) (R := Q) (fun t t' ht e e' he => ?_) h hl
  rw [hkey e e' he]
  exact ht.alter _ (hf e e' he)

theorem Rel.flatMap_entries_eq (h : Rel R t t') {f : Name × α → List γ} {f' : Name × β → List γ}
    (hf : ∀ n a b, R n a b → f' (n, b) = f (n, a)) :
    t'.entries.flatMap f' = t.entries.flatMap f :=
  flatMap_eq_of_forall₂ h (of_entries hf)

theorem Rel.filterMap_entries_eq (h : Rel R t t') {f : Name × α → Option γ}
    {f' : Name × β → Option γ} (hf : ∀ n a b, R n a b → f' (n, b) = f (n, a)) :
    t'.entries.filterMap f' = t.entries.filterMap f :=
  filterMap_eq_of_forall₂ h (of_entries hf)

theorem Rel.map_entries_eq (h : Rel R t t') {f : Name × α → γ} {f' : Name × β → γ}
    (hf : ∀ n a b, R n a b → f' (n, b) = f (n, a)) : t'.entries.map f' = t.entries.map f :=
  map_eq_of_forall₂ h (of_entries hf)

theorem mapEntries_congr {f g : Name → α → γ} (h : ∀ n a, t.get? n = some a → f n a = g n a) :
    t.mapEntries f = t.mapEntries g := by
  refine Table.ext (List.map_congr_left fun e he => ?_)
  rw [h e.1 e.2 (get?_eq_some_iff.2 he)]

end Table

/-! ### Results -/

/-- Two results that fail alike or succeed with related values. -/
inductive ResultRel {ε α β : Type} (R : α → β → Prop) : Except ε α → Except ε β → Prop
  | error (e : ε) : ResultRel R (.error e) (.error e)
  | ok {a : α} {b : β} (h : R a b) : ResultRel R (.ok a) (.ok b)

namespace ResultRel

variable {ε α β : Type} {R : α → β → Prop} {r : Except ε α} {r' : Except ε β}

theorem toOption (h : ResultRel R r r') : Option.Rel R r.toOption r'.toOption := by
  cases h with
  | error e => exact .none
  | ok h => exact .some h

theorem errors_eq {rs : List (Except ε α)} {rs' : List (Except ε β)}
    (h : List.Forall₂ (ResultRel R) rs rs') : errors rs' = errors rs := by
  refine filterMap_eq_of_forall₂ h fun r r' hr => ?_
  cases hr <;> rfl

theorem oks {rs : List (Except ε α)} {rs' : List (Except ε β)}
    (h : List.Forall₂ (ResultRel R) rs rs') :
    List.Forall₂ R (Federation.oks rs) (Federation.oks rs') :=
  forall₂_filterMap h fun _ _ hr => hr.toOption

theorem refl {R : α → α → Prop} (h : ∀ a, R a a) (r : Except ε α) : ResultRel R r r := by
  cases r with
  | error e => exact .error e
  | ok a => exact .ok (h a)

end ResultRel

end Federation
