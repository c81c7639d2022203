-- SUMMARY: One delete of the staging purge: it takes the rows its plan priced, of its table and scope, and no others.
import Sylvan.Import.AlarmChain

/-!
# Purge slices

A slice prices the head of a table and deletes by an upper bound on the key. The primary key
of the table is what makes the two the same rows: within the scope's leading value the keys
are distinct, so the bound reaches the priced rows only.
-/

namespace AlarmChain

/-! ## Tables -/

/-- The leading column of a table's primary key, in the tables that have one. -/
def Table.leading : Table → Option ScopeColumn
  | .draft_parts => some .partition
  | .stage_members | .stage_blobs => some .kind
  | _ => none

/-- The rows of a table under its primary key. -/
structure Keyed (table : Table) (rows : List Row) : Prop where
  keys : (rows.map fun row => (row.scope, row.key)).Nodup
  whole : table.leading = none → ∀ row ∈ rows, row.scope = .whole

theorem Keyed.sublist {table : Table} {rows rest : List Row} (h : Keyed table rows) (hrest : rest.Sublist rows) :
    Keyed table rest :=
  ⟨h.keys.sublist (hrest.map _), fun hleading row hrow => h.whole hleading row (hrest.subset hrow)⟩

theorem scope_eq_leading {scope : PurgeScope} {t : PurgeTable} (ht : t ∈ PURGE_TABLES scope) :
    t.scope = t.table.leading := by
  have hall : ∀ t ∈ PURGE_TABLES scope, t.scope = t.table.leading := by
    cases scope <;> decide
  exact hall t ht

/-- The rows of a table the purge may delete: under the partition, or one of the kinds, it is confined to. -/
def PurgeTable.covers (t : PurgeTable) (partition : Option ℕ) (kinds : Option (List String)) (row : Row) : Bool :=
  match t.scope with
  | none => true
  | some .partition => partition.all fun partition => row.scope = .partition partition
  | some .kind => kinds.all fun kinds => kinds.any fun kind => row.scope = .kind kind

/-! ## Plans -/

def bytesOf (rows : List Row) : ℕ := (rows.map Row.bytes).sum

@[simp] theorem bytesOf_nil : bytesOf [] = 0 := rfl

@[simp] theorem bytesOf_cons (row : Row) (rows : List Row) : bytesOf (row :: rows) = row.bytes + bytesOf rows := rfl

@[simp] theorem bytesOf_append (before after : List Row) : bytesOf (before ++ after) = bytesOf before + bytesOf after := by
  simp [bytesOf]

variable {budgetBytes : ℕ}

/-- Past its first row the loop prices a prefix of the rows, and each row it takes is met below the budget. -/
theorem planRows_prefix (rows : List Row) (plan : PurgePlan) (hpos : 0 < plan.rows) :
    ∃ taken rest, rows = taken ++ rest ∧ planRows budgetBytes rows plan =
        ⟨(taken.getLast?.map Row.key).getD plan.upTo, plan.rows + taken.length, plan.bytes + bytesOf taken⟩ ∧
      (taken ≠ [] → plan.bytes + bytesOf taken.dropLast < budgetBytes) := by
  induction rows generalizing plan with
  | nil => exact ⟨[], [], rfl, by simp [planRows], fun hne => absurd rfl hne⟩
  | cons row rows ih =>
    rw [planRows]
    by_cases hstop : 0 < plan.rows ∧ budgetBytes ≤ plan.bytes
    · rw [if_pos hstop]
      exact ⟨[], row :: rows, rfl, by simp, fun hne => absurd rfl hne⟩
    · rw [if_neg hstop]
      have hless : plan.bytes < budgetBytes := by
        by_contra hspent
        exact hstop ⟨hpos, Nat.not_lt.mp hspent⟩
      obtain ⟨taken, rest, hrows, hplan, hbudget⟩ :=
        ih ⟨row.key, plan.rows + 1, plan.bytes + row.bytes⟩ (Nat.succ_pos _)
      refine ⟨row :: taken, rest, by rw [hrows, List.cons_append], ?_, fun _ => ?_⟩
      · rw [hplan]
        cases taken with
        | nil => simp
        | cons next taken => simp [List.getLast?_eq_getLast_of_ne_nil, Nat.add_assoc, Nat.add_comm 1]
      · cases taken with
        | nil => simpa using hless
        | cons next taken =>
          have hrest := hbudget (by simp)
          simpa [List.dropLast_cons_cons, Nat.add_assoc] using hrest

/-- The rows a plan priced: a prefix of the head, down to the row that reached the budget. -/
structure PricesHead (budgetBytes : ℕ) (head : List Row) (plan : PurgePlan) (taken : List Row) : Prop where
  rows : taken = head.take plan.rows
  count : plan.rows = taken.length
  bytes : plan.bytes = bytesOf taken
  last : ∃ row ∈ taken, taken.getLast? = some row ∧ row.key = plan.upTo ∧
    (0 < budgetBytes → plan.bytes < budgetBytes + row.bytes)

theorem planPurgeSlice_prices {head : List Row} {plan : PurgePlan}
    (h : planPurgeSlice head budgetBytes = some plan) : ∃ taken, PricesHead budgetBytes head plan taken := by
  cases head with
  | nil => cases h
  | cons row rows =>
    obtain rfl := Option.some.inj h
    rw [planRows, if_neg fun hstop => Nat.lt_irrefl 0 hstop.1]
    have hfirst : 0 < (⟨row.key, 0 + 1, 0 + row.bytes⟩ : PurgePlan).rows := Nat.succ_pos 0
    obtain ⟨taken, rest, rfl, hplan, hbudget⟩ := planRows_prefix rows _ hfirst
    rw [hplan]
    refine ⟨row :: taken, ?_, by simp [Nat.add_comm], by simp, ?_⟩
    · simp [Nat.add_comm 1]
    · rcases List.eq_nil_or_concat taken with rfl | ⟨front, last, rfl⟩
      · refine ⟨row, by simp, rfl, rfl, fun hpos => by simpa using hpos⟩
      · refine ⟨last, by simp, ?_, by simp, fun _ => ?_⟩
        · rw [List.concat_eq_append, ← List.cons_append, List.getLast?_concat]
        · have hfront := hbudget (by simp)
          simp only [List.concat_eq_append, List.dropLast_concat, bytesOf_append, bytesOf_cons, bytesOf_nil] at hfront ⊢
          omega

variable {rows : List Row}

theorem planPurgeSlice_eq_none : planPurgeSlice rows budgetBytes = none ↔ rows = [] := by
  cases rows <;> simp [planPurgeSlice]

/-! ## Leading values -/

theorem leastScope_mem {value : ScopeValue} (h : leastScope rows = some value) : ∃ row ∈ rows, row.scope = value := by
  refine List.foldlRecOn rows _ (motive := fun least => ∀ value, least = some value → ∃ row ∈ rows, row.scope = value)
    (fun _ hnone => by cases hnone) ?_ value h
  intro least hleast row hrow value hnext
  cases least with
  | none => exact ⟨row, hrow, Option.some.inj hnext⟩
  | some old =>
    dsimp only at hnext
    split_ifs at hnext
    · exact ⟨row, hrow, Option.some.inj hnext⟩
    · exact hleast value hnext

theorem leastScope_ne_none (h : rows ≠ []) : leastScope rows ≠ none := by
  cases rows with
  | nil => exact absurd rfl h
  | cons row rows =>
    rw [leastScope, List.foldl_cons]
    refine List.foldlRecOn rows _ (motive := fun least => least ≠ none) (Option.some_ne_none _) ?_
    intro least hleast row _
    cases least with
    | none => exact absurd rfl hleast
    | some old =>
      dsimp only
      split_ifs
      · exact Option.some_ne_none _
      · exact Option.some_ne_none _

/-! ## Deletes -/

/-- The rows a slice reads: the lowest keys under its leading value. -/
def headRows (t : PurgeTable) (value : ScopeValue) (rows : List Row) : List Row :=
  ((rows.filter (t.inScope value)).insertionSort fun a b => a.key ≤ b.key).take PURGE_SLICE_MAX_ROWS

/-- What a delete of one table takes: the rows its plan priced, all of them under the scope, and nothing else. -/
structure Deletes (t : PurgeTable) (partition : Option ℕ) (kinds : Option (List String)) (budgetBytes : ℕ)
    (rows deleted rest : List Row) : Prop where
  priced : ∃ value plan, sliceScope t partition kinds rows = some value ∧
    planPurgeSlice (headRows t value rows) budgetBytes = some plan ∧
    deleted = (headRows t value rows).take plan.rows ∧ plan.rows = deleted.length ∧ plan.bytes = bytesOf deleted
  exact : rest = rows.filter fun row => row ∉ deleted
  present : deleted.Nodup ∧ ∀ row ∈ deleted, row ∈ rows ∧ t.covers partition kinds row = true
  some : deleted ≠ []
  budget : 0 < budgetBytes → ∃ row ∈ deleted, bytesOf deleted < budgetBytes + row.bytes

theorem key_le_iff_mem_take (hrows : rows.Pairwise fun a b => a.key < b.key) {m : ℕ} {last row : Row}
    (hlast : (rows.take m).getLast? = some last) (hrow : row ∈ rows) : row.key ≤ last.key ↔ row ∈ rows.take m := by
  have hsplit : (rows.take m ++ rows.drop m).Pairwise fun a b => a.key < b.key := by rwa [List.take_append_drop]
  obtain ⟨htake, -, hacross⟩ := List.pairwise_append.mp hsplit
  constructor
  · intro hle
    by_contra hout
    have hdrop : row ∈ rows.drop m := by
      rw [← List.take_append_drop m rows, List.mem_append] at hrow
      exact hrow.resolve_left hout
    exact absurd (hacross last (List.mem_of_getLast? hlast) row hdrop) (not_lt.mpr hle)
  · intro hin
    obtain ⟨front, hfront⟩ := List.getLast?_eq_some_iff.mp hlast
    rw [hfront] at hin htake
    rcases List.mem_append.mp hin with hearlier | hsame
    · exact ((List.pairwise_append.mp htake).2.2 row hearlier last (by simp)).le
    · rw [List.mem_singleton.mp hsame]

theorem Keyed.sorted {t : PurgeTable} (h : Keyed t.table rows) (hscope : t.scope = t.table.leading)
    (value : ScopeValue) :
    ((rows.filter (t.inScope value)).insertionSort fun a b => a.key ≤ b.key).Pairwise fun a b => a.key < b.key := by
  have hkeys : (rows.filter (t.inScope value)).Pairwise fun a b => a.key ≠ b.key := by
    have hpair : (rows.filter (t.inScope value)).Pairwise fun a b => (a.scope, a.key) ≠ (b.scope, b.key) :=
      (List.pairwise_map.mp h.keys).filter _
    refine hpair.imp_of_mem fun {a b} ha hb hne hkey => hne ?_
    obtain ⟨ha, hina⟩ := List.mem_filter.mp ha
    obtain ⟨hb, hinb⟩ := List.mem_filter.mp hb
    have hsame : a.scope = b.scope := by
      cases hcolumn : t.scope with
      | none =>
        rw [hcolumn] at hscope
        rw [h.whole hscope.symm a ha, h.whole hscope.symm b hb]
      | some column =>
        simp only [PurgeTable.inScope, hcolumn, Option.isNone_some, Bool.false_or, decide_eq_true_eq] at hina hinb
        rw [hina, hinb]
    rw [hsame, hkey]
  have hperm := List.perm_insertionSort (fun a b : Row => a.key ≤ b.key) (rows.filter (t.inScope value))
  have hdistinct := (hperm.pairwise_iff fun {_ _} hne => Ne.symm hne).mpr hkeys
  have hsorted := List.pairwise_insertionSort (fun a b : Row => a.key ≤ b.key) (rows.filter (t.inScope value))
  exact (hsorted.and hdistinct).imp fun hboth => lt_of_le_of_ne hboth.1 hboth.2

variable {t : PurgeTable} {partition : Option ℕ} {kinds : Option (List String)} {value : ScopeValue} {rows : List Row}

theorem sliceScope_eq (h : sliceScope t partition kinds rows = some value) :
    t.scope = none ∨ (∃ p, t.scope = some .partition ∧ partition = some p ∧ value = .partition p) ∨
      ∃ row ∈ rows, t.covers partition kinds row = true ∧ row.scope = value := by
  unfold sliceScope at h
  cases hscope : t.scope with
  | none => exact .inl rfl
  | some column =>
    rw [hscope] at h
    cases column with
    | partition =>
      cases partition with
      | some p => exact .inr (.inl ⟨p, rfl, rfl, (Option.some.inj h).symm⟩)
      | none =>
        obtain ⟨row, hrow, hvalue⟩ := leastScope_mem h
        exact .inr (.inr ⟨row, hrow, by simp [PurgeTable.covers, hscope], hvalue⟩)
    | kind =>
      cases kinds with
      | none =>
        obtain ⟨row, hrow, hvalue⟩ := leastScope_mem h
        exact .inr (.inr ⟨row, hrow, by simp [PurgeTable.covers, hscope], hvalue⟩)
      | some kinds =>
        obtain ⟨row, hrow, hvalue⟩ := leastScope_mem h
        obtain ⟨hrow, hkind⟩ := List.mem_filter.mp hrow
        exact .inr (.inr ⟨row, hrow, by simpa [PurgeTable.covers, hscope] using hkind, hvalue⟩)

theorem covers_congr {a b : Row} (h : a.scope = b.scope) : t.covers partition kinds a = t.covers partition kinds b := by
  unfold PurgeTable.covers
  rw [h]

theorem covers_of_inScope (h : sliceScope t partition kinds rows = some value) {row : Row}
    (hrow : t.inScope value row = true) : t.covers partition kinds row = true := by
  have hsame : t.scope ≠ none → row.scope = value := by
    intro hsome
    simpa [PurgeTable.inScope, hsome] using hrow
  rcases sliceScope_eq h with hnone | ⟨p, hscope, rfl, rfl⟩ | ⟨covered, -, hcovered, hvalue⟩
  · simp [PurgeTable.covers, hnone]
  · simp [PurgeTable.covers, hscope, hsame (by simp [hscope])]
  · cases hscope : t.scope with
    | none => simp [PurgeTable.covers, hscope]
    | some column =>
      rw [covers_congr ((hsame (by simp [hscope])).trans hvalue.symm)]
      exact hcovered

theorem exists_inScope {row : Row} (hrow : row ∈ rows) (hcovers : t.covers partition kinds row = true) :
    ∃ value, sliceScope t partition kinds rows = some value ∧ ∃ row ∈ rows, t.inScope value row = true := by
  have hleast : ∀ covered : List Row, row ∈ covered → (∀ r ∈ covered, r ∈ rows) →
      ∃ value, leastScope covered = some value ∧ ∃ r ∈ rows, t.inScope value r = true := by
    intro covered hin hsub
    obtain ⟨value, hvalue⟩ := Option.ne_none_iff_exists'.mp (leastScope_ne_none (List.ne_nil_of_mem hin))
    obtain ⟨r, hr, hscope⟩ := leastScope_mem hvalue
    exact ⟨value, hvalue, r, hsub r hr, by simp [PurgeTable.inScope, hscope]⟩
  unfold sliceScope
  unfold PurgeTable.covers at hcovers
  cases hscope : t.scope with
  | none => exact ⟨.whole, rfl, row, hrow, by simp [PurgeTable.inScope, hscope]⟩
  | some column =>
    rw [hscope] at hcovers
    cases column with
    | partition =>
      cases partition with
      | none => exact hleast rows hrow fun _ hr => hr
      | some p => exact ⟨.partition p, rfl, row, hrow, by simpa [PurgeTable.inScope, hscope] using hcovers⟩
    | kind =>
      cases kinds with
      | none => exact hleast rows hrow fun _ hr => hr
      | some kinds =>
        exact hleast _ (List.mem_filter.mpr ⟨hrow, hcovers⟩) fun _ hr => (List.mem_filter.mp hr).1

theorem not_covers_of_purgeSlice (h : purgeSlice t partition kinds budgetBytes rows = none) {row : Row}
    (hrow : row ∈ rows) : t.covers partition kinds row = false := by
  by_contra hcovers
  obtain ⟨value, hvalue, inside, hinside, hin⟩ := exists_inScope hrow (Bool.of_not_eq_false hcovers)
  rw [purgeSlice, hvalue, Option.bind_some, Option.map_eq_none_iff, planPurgeSlice_eq_none, List.take_eq_nil_iff] at h
  rcases h with hmax | hsorted
  · cases hmax
  · have hfilter : inside ∈ rows.filter (t.inScope value) := List.mem_filter.mpr ⟨hinside, hin⟩
    rw [← List.mem_insertionSort fun a b : Row => a.key ≤ b.key, hsorted] at hfilter
    cases hfilter

theorem purgeSlice_eq_none (h : purgeSlice t none none budgetBytes rows = none) : rows = [] := by
  refine List.eq_nil_iff_forall_not_mem.mpr fun row hrow => ?_
  have hcovers := not_covers_of_purgeSlice h hrow
  unfold PurgeTable.covers at hcovers
  split at hcovers <;> simp at hcovers

theorem length_of_purgeSlice {budgetBytes bytes : ℕ} {rest : List Row} (h : purgeSlice t partition kinds budgetBytes rows = some (rest, bytes)) :
    rest.length < rows.length := by
  obtain ⟨value, hvalue, hslice⟩ := Option.bind_eq_some_iff.mp h
  obtain ⟨plan, hplan, heq⟩ := Option.map_eq_some_iff.mp hslice
  obtain ⟨rfl, rfl⟩ := Prod.mk.inj heq
  obtain ⟨taken, hprices⟩ := planPurgeSlice_prices hplan
  obtain ⟨row, htaken, -, hkey, -⟩ := hprices.last
  have hrow : row ∈ _ := List.mem_of_mem_take (hprices.rows ▸ htaken)
  have hhead := (List.mem_insertionSort _).mp (List.mem_of_mem_take hrow)
  obtain ⟨hin, hscope⟩ := List.mem_filter.mp hhead
  refine lt_of_le_of_ne (List.length_filter_le _ _) fun hlength => ?_
  have hkept := List.length_filter_eq_length_iff.mp hlength row hin
  simp [hscope, hkey] at hkept

/-- **A delete takes exactly the rows its plan priced, and they are the scope's.** -/
theorem purgeSlice_deletes {budgetBytes bytes : ℕ} {rest : List Row} (hkeyed : Keyed t.table rows)
    (hscope : t.scope = t.table.leading) (h : purgeSlice t partition kinds budgetBytes rows = some (rest, bytes)) :
    ∃ deleted, Deletes t partition kinds budgetBytes rows deleted rest ∧ bytes = bytesOf deleted := by
  obtain ⟨value, hvalue, hslice⟩ := Option.bind_eq_some_iff.mp h
  obtain ⟨plan, hplan, heq⟩ := Option.map_eq_some_iff.mp hslice
  obtain ⟨rfl, rfl⟩ := Prod.mk.inj heq
  obtain ⟨deleted, hprices⟩ := planPurgeSlice_prices hplan
  obtain ⟨last, hlastin, hlast, hkey, hbudget⟩ := hprices.last
  have hsorted := hkeyed.sorted hscope value
  -- The head is cut from the sorted rows, and the plan from the head.
  have htake : deleted = ((rows.filter (t.inScope value)).insertionSort fun a b => a.key ≤ b.key).take
      (min plan.rows PURGE_SLICE_MAX_ROWS) := by
    rw [hprices.rows, List.take_take]
  have hmem : ∀ row, row ∈ deleted ↔ (row ∈ rows ∧ t.inScope value row = true) ∧ row.key ≤ plan.upTo := by
    intro row
    constructor
    · intro hrow
      have hin := hrow
      rw [htake] at hin
      have hall := List.mem_of_mem_take hin
      rw [htake] at hlast
      refine ⟨List.mem_filter.mp ((List.mem_insertionSort _).mp hall), ?_⟩
      rw [← hkey]
      exact (key_le_iff_mem_take hsorted hlast hall).mpr hin
    · rintro ⟨hrow, hle⟩
      rw [← hkey] at hle
      rw [htake] at hlast ⊢
      exact (key_le_iff_mem_take hsorted hlast ((List.mem_insertionSort _).mpr (List.mem_filter.mpr hrow))).mp hle
  refine ⟨deleted, ⟨⟨value, plan, hvalue, hplan, hprices.rows, hprices.count, hprices.bytes⟩, ?_, ⟨?_, ?_⟩, ?_, ?_⟩,
    hprices.bytes⟩
  · refine List.filter_congr fun row hrow => ?_
    by_cases hdeleted : row ∈ deleted
    · obtain ⟨⟨-, hin⟩, hle⟩ := (hmem row).mp hdeleted
      simp [hdeleted, hin, hle]
    · have hkept : t.inScope value row = false ∨ plan.upTo < row.key := by
        cases hin : t.inScope value row with
        | false => exact .inl rfl
        | true => exact .inr (not_le.mp fun hle => hdeleted ((hmem row).mpr ⟨⟨hrow, hin⟩, hle⟩))
      simpa [hdeleted] using hkept
  · rw [htake]
    exact (hsorted.sublist (List.take_sublist _ _)).imp fun hless heq => absurd (congrArg Row.key heq) hless.ne
  · intro row hrow
    obtain ⟨⟨hin, hvalued⟩, -⟩ := (hmem row).mp hrow
    exact ⟨hin, covers_of_inScope hvalue hvalued⟩
  · exact List.ne_nil_of_mem hlastin
  · intro hpos
    exact ⟨last, hlastin, by rw [← hprices.bytes]; exact hbudget hpos⟩

end AlarmChain
