import Federation.Proofs.Separation.Conflicts
import Mathlib.Data.Finset.Image

/-!
# Composition of unrelated batches

Subgraphs are checked one by one, so two batches whose names are distinct have schemas together
exactly when each of them has (`schemas?_append_eq_ok_iff`).  For unrelated batches, the conflicts
and the reports of the walk are those of each batch.  So both together compose exactly when each of
them does, and the same paths are reported (`compose_append`).
-/

namespace Federation

variable {a b : List Subgraph}

/-- Batches with distinct names have schemas together when each of them has. -/
theorem schemas?_append_eq_ok_iff (hnames : ((a ++ b).map (·.name)).Nodup) {schemas : List Schema} :
    schemas? (a ++ b) = .ok schemas ↔ ∃ sa sb, schemas? a = .ok sa ∧ schemas? b = .ok sb ∧
      schemas = sa ++ sb := by
  have hparts := hnames
  rw [List.map_append, List.nodup_append'] at hparts
  simp only [schemas?_eq_ok_iff, List.forall_mem_append, List.map_append]
  constructor
  · rintro ⟨⟨⟨hblanka, hblankb⟩, _, hfaultsa, hfaultsb⟩, rfl⟩
    exact ⟨_, _, ⟨⟨hblanka, hparts.1, hfaultsa⟩, rfl⟩, ⟨⟨hblankb, hparts.2.1, hfaultsb⟩, rfl⟩, rfl⟩
  · rintro ⟨_, _, ⟨⟨hblanka, _, hfaultsa⟩, rfl⟩, ⟨⟨hblankb, _, hfaultsb⟩, rfl⟩, rfl⟩
    exact ⟨⟨⟨hblanka, hblankb⟩, by rwa [← List.map_append], hfaultsa, hfaultsb⟩, rfl⟩

/-! ### Reports -/

/-- Everything that the walk reports for some schemas. -/
def reports (schemas : List Schema) : Finset Unresolvable.Entry :=
  ((graphOf schemas).unresolvables.map Unresolvable.entry).toFinset

/-- The paths that the walk reports for some schemas. -/
def reportedPaths (schemas : List Schema) : Finset String :=
  ((graphOf schemas).unresolvables.map (·.path)).toFinset

theorem reportedPaths_eq_image (schemas : List Schema) :
    reportedPaths schemas = (reports schemas).image (·.path) := by
  ext p
  simp [reportedPaths, reports, Unresolvable.entry]

theorem unresolvables_eq_nil_iff {schemas : List Schema} :
    (graphOf schemas).unresolvables = [] ↔ reports schemas = ∅ := by
  rw [reports, List.toFinset_eq_empty_iff, List.map_eq_nil_iff]

/-- A batch composes when there are no conflicts between its schemas and nothing is reported for
them. -/
theorem exists_compose_eq_ok_iff {options : Options} {batch : List Subgraph} :
    (∃ s, compose options batch = .ok s) ↔
      ∃ schemas, schemas? batch = .ok schemas ∧ conflicts (schemas.map Schema.contribution) = [] ∧
        (options.disableResolvabilityValidation = true ∨ reports schemas = ∅) := by
  simp only [compose_eq_ok_iff, unresolvables_eq_nil_iff]
  constructor
  · rintro ⟨_, schemas, hok, hc, hr, _⟩
    exact ⟨schemas, hok, hc, hr⟩
  · rintro ⟨schemas, hok, hc, hr⟩
    exact ⟨_, schemas, hok, hc, hr, rfl⟩

/-! ### Unrelated batches -/

section Schemas

variable {sa sb : List Schema} (ha : schemas? a = .ok sa) (hb : schemas? b = .ok sb)
  (hnames : ((a ++ b).map (·.name)).Nodup)

include ha hb hnames

theorem names_contribution_append : ((sa.map Schema.contribution ++
    sb.map Schema.contribution).map fun s : Schema => s.name).Nodup := by
  rw [contributionsOf_eq ha, contributionsOf_eq hb, contributionsOf, contributionsOf,
    ← List.map_append, List.map_map]
  exact hnames

variable (h : Unrelated (contributionsOf a) (contributionsOf b))

include h

/-- The walk reports for unrelated batches what it reports for each of them. -/
theorem reports_append : reports (sa ++ sb) = reports sa ∪ reports sb := by
  have hga := grounded_of_schemas? ha
  have hgb := grounded_of_schemas? hb
  have hdistinct := names_contribution_append ha hb hnames
  rw [← contributionsOf_eq ha, ← contributionsOf_eq hb] at h
  ext e
  simp only [reports, graphOf, List.map_append, Finset.mem_union, List.mem_toFinset]
  exact Graph.mem_entries_append_iff h hga hgb hdistinct

/-- Conflicts between the schemas of unrelated batches are those of one of them. -/
theorem conflicts_contribution_append_eq_nil_iff :
    conflicts ((sa ++ sb).map Schema.contribution) = [] ↔
      conflicts (sa.map Schema.contribution) = [] ∧
        conflicts (sb.map Schema.contribution) = [] := by
  have hdistinct := names_contribution_append ha hb hnames
  rw [← contributionsOf_eq ha, ← contributionsOf_eq hb] at h
  rw [List.map_append]
  exact conflicts_append_eq_nil_iff h (grounded_of_schemas? ha) (grounded_of_schemas? hb)
    (normalized_of_schemas? ha) (normalized_of_schemas? hb) hdistinct

end Schemas

/-- **Unrelated batches do not influence each other**: both together compose exactly when each of
them does, and the walk reports for them what it reports for each of them. -/
theorem compose_append (options : Options) (hnames : ((a ++ b).map (·.name)).Nodup)
    (h : Unrelated (contributionsOf a) (contributionsOf b)) :
    ((∃ s, compose options (a ++ b) = .ok s) ↔
      (∃ s, compose options a = .ok s) ∧ ∃ s, compose options b = .ok s) ∧
    ∀ sa sb, schemas? a = .ok sa → schemas? b = .ok sb →
      schemas? (a ++ b) = .ok (sa ++ sb) ∧ reports (sa ++ sb) = reports sa ∪ reports sb ∧
        reportedPaths (sa ++ sb) = reportedPaths sa ∪ reportedPaths sb := by
  constructor
  · rw [exists_compose_eq_ok_iff, exists_compose_eq_ok_iff, exists_compose_eq_ok_iff]
    constructor
    · rintro ⟨_, hschemas, hc, hr⟩
      obtain ⟨sa, sb, ha, hb, rfl⟩ := (schemas?_append_eq_ok_iff hnames).1 hschemas
      rw [conflicts_contribution_append_eq_nil_iff ha hb hnames h] at hc
      rw [reports_append ha hb hnames h, Finset.union_eq_empty, or_and_left] at hr
      exact ⟨⟨sa, ha, hc.1, hr.1⟩, sb, hb, hc.2, hr.2⟩
    · rintro ⟨⟨sa, ha, hca, hra⟩, sb, hb, hcb, hrb⟩
      refine ⟨sa ++ sb, (schemas?_append_eq_ok_iff hnames).2 ⟨sa, sb, ha, hb, rfl⟩,
        (conflicts_contribution_append_eq_nil_iff ha hb hnames h).2 ⟨hca, hcb⟩, ?_⟩
      rw [reports_append ha hb hnames h, Finset.union_eq_empty, or_and_left]
      exact ⟨hra, hrb⟩
  · intro sa sb ha hb
    have hreports := reports_append ha hb hnames h
    refine ⟨(schemas?_append_eq_ok_iff hnames).2 ⟨sa, sb, ha, hb, rfl⟩, hreports, ?_⟩
    rw [reportedPaths_eq_image, reportedPaths_eq_image, reportedPaths_eq_image, hreports,
      Finset.image_union]

/-! ### Two batches that share the type of queries -/

/-- Two subgraphs that compose: the second one is entered through a key. -/
def ordersBatch : List Subgraph := Subgraph.batchOfTexts
  [("orders", "type Query \x7b order: Order \x7d " ++
      "type Order @key(fields: \"id\") \x7b id: ID! total: Int \x7d"),
    ("notes", "type Order @key(fields: \"id\") \x7b id: ID! total: Int @external " ++
      "note: Int @requires(fields: \"total\") \x7d")]

/-- Two subgraphs that do not compose: nothing leads to the second one. -/
def usersBatch : List Subgraph := Subgraph.batchOfTexts
  [("users", "type Query \x7b user: User \x7d type User \x7b id: ID! \x7d"),
    ("mails", "type User \x7b id: ID! mail: Int \x7d")]

/-- Beside orders, what is wrong with users stays wrong, and nothing else is. -/
theorem compose_append_ordersUsers :
    ((ordersBatch ++ usersBatch).map (·.name)).Nodup ∧
    Unrelated (contributionsOf ordersBatch) (contributionsOf usersBatch) ∧
    (∃ s, compose {} ordersBatch = .ok s) ∧ (¬ ∃ s, compose {} usersBatch = .ok s) ∧
    (¬ ∃ s, compose {} (ordersBatch ++ usersBatch) = .ok s) ∧
    ∃ so su, schemas? ordersBatch = .ok so ∧ schemas? usersBatch = .ok su ∧
      schemas? (ordersBatch ++ usersBatch) = .ok (so ++ su) ∧
      reportedPaths (so ++ su) = {"Query.user.mail"} := by
  have hruns : ((ordersBatch ++ usersBatch).map (·.name)).Nodup ∧
      Unrelated (contributionsOf ordersBatch) (contributionsOf usersBatch) ∧
      (compose {} ordersBatch).isOk = true ∧ (compose {} usersBatch).isOk = false ∧
      schemas? ordersBatch = .ok (ordersBatch.map Subgraph.schema) ∧
      schemas? usersBatch = .ok (usersBatch.map Subgraph.schema) ∧
      reportedPaths (ordersBatch.map Subgraph.schema) = ∅ ∧
      reportedPaths (usersBatch.map Subgraph.schema) = {"Query.user.mail"} := by decide +kernel
  obtain ⟨hnames, h, horders, husers, hso, hsu, hro, hru⟩ := hruns
  obtain ⟨hcompose, hreports⟩ := compose_append {} hnames h
  have hfails : ¬ ∃ s, compose {} usersBatch = .ok s := by
    rintro ⟨s, hs⟩
    rw [hs] at husers
    exact Bool.noConfusion husers
  obtain ⟨hboth, _, hpaths⟩ := hreports _ _ hso hsu
  exact ⟨hnames, h, exists_of_isOk horders, hfails, fun hs => hfails (hcompose.1 hs).2,
    _, _, hso, hsu, hboth, by rw [hpaths, hro, hru, Finset.empty_union]⟩

end Federation
