-- SUMMARY: Alarms of the staging purge: each frees a bounded part of the scope, and the phase is left when nothing of it remains.
import Mathlib.Algebra.Order.BigOperators.Group.List
import Sylvan.Data.Throws
import Sylvan.Import.AlarmChainRun

/-!
# Purging the staging

An alarm of the purge takes one transaction after another; a call that throws or a kill stops
it between two of them. A kill that also loses the last commits leaves what an earlier kill
leaves, so the alarms that stop short stand for both.
-/

namespace AlarmChain

open Calls
open PublishChunks (PpPublish)

/-! ## What a purge may delete -/

def PurgeContext.partition (context : PurgeContext) : Option ℕ := context.pp.map PpPublish.partition

def PurgeContext.names (context : PurgeContext) (table : Table) (row : Row) : Bool :=
  context.tables.any fun t => t.table = table && t.covers context.partition context.kinds row

def PurgeContext.remaining (context : PurgeContext) (tables : Table → List Row) : ℕ :=
  (context.tables.map fun t => (tables t.table).countP (t.covers context.partition context.kinds)).sum

def freedBy (taken : List (Table × List Row)) : ℕ := (taken.map fun delete => bytesOf delete.2).sum

@[simp] theorem freedBy_nil : freedBy [] = 0 := rfl

@[simp] theorem freedBy_concat (taken : List (Table × List Row)) (table : Table) (deleted : List Row) :
    freedBy (taken ++ [(table, deleted)]) = freedBy taken + bytesOf deleted := by
  simp [freedBy]

/-- The transactions of an alarm, each a delete from one table of the scope under what is left of the alarm's budget. -/
inductive Purges (context : PurgeContext) (start : Table → List Row) : List (Table × List Row) → (Table → List Row) → Prop
  | nothing : Purges context start [] start
  | delete {taken : List (Table × List Row)} {tables : Table → List Row} {t : PurgeTable} {deleted rest : List Row} :
      Purges context start taken tables → t ∈ context.tables → freedBy taken < PURGE_SLICE_BYTES →
      Deletes t context.partition context.kinds (PURGE_SLICE_BYTES - freedBy taken) (tables t.table) deleted rest →
      Purges context start (taken ++ [(t.table, deleted)]) (Function.update tables t.table rest)

section

variable {context : PurgeContext} {start tables : Table → List Row} {taken : List (Table × List Row)}

theorem update_sublist {table : Table} {rest : List Row} (h : rest.Sublist (tables table)) (other : Table) :
    (Function.update tables table rest other).Sublist (tables other) := by
  by_cases hother : other = table
  · subst hother
    rwa [Function.update_self]
  · rw [Function.update_of_ne hother]

theorem Deletes.sublist {t : PurgeTable} {partition : Option ℕ} {kinds : Option (List String)} {budgetBytes : ℕ}
    {rows deleted rest : List Row} (h : Deletes t partition kinds budgetBytes rows deleted rest) : rest.Sublist rows := by
  rw [h.exact]
  exact List.filter_sublist

theorem Purges.sublist (h : Purges context start taken tables) (table : Table) : (tables table).Sublist (start table) := by
  induction h with
  | nothing => exact List.Sublist.refl _
  | delete _ _ _ hdelete ih => exact (update_sublist hdelete.sublist table).trans ih

theorem Purges.kept (h : Purges context start taken tables) {table : Table} {row : Row} (hrow : row ∈ start table)
    (hout : context.names table row = false) : row ∈ tables table := by
  induction h with
  | nothing => exact hrow
  | @delete taken tables t deleted rest _ ht _ hdelete ih =>
    by_cases htable : table = t.table
    · subst htable
      have hnot : row ∉ deleted := by
        intro hdeleted
        have hcovers := (hdelete.present.2 row hdeleted).2
        have hnames : context.names t.table row = true := List.any_eq_true.mpr ⟨t, ht, by simp [hcovers]⟩
        rw [hout] at hnames
        cases hnames
      rw [Function.update_self, hdelete.exact]
      exact List.mem_filter.mpr ⟨ih, by simpa using hnot⟩
    · rwa [Function.update_of_ne htable]

theorem Purges.bound (h : Purges context start taken tables) :
    taken = [] ∨ ∃ delete ∈ taken, ∃ row ∈ delete.2, freedBy taken < PURGE_SLICE_BYTES + row.bytes := by
  cases h with
  | nothing => exact .inl rfl
  | @delete taken tables t deleted rest _ _ hless hdelete =>
    obtain ⟨row, hrow, hbudget⟩ := hdelete.budget (Nat.sub_pos_of_lt hless)
    refine .inr ⟨(t.table, deleted), by simp, row, hrow, ?_⟩
    rw [freedBy_concat]
    omega

theorem Purges.remaining (h : Purges context start taken tables) :
    context.remaining tables + taken.length ≤ context.remaining start := by
  induction h with
  | nothing => simp
  | @delete taken tables t deleted rest _ ht _ hdelete ih =>
    have hless : context.remaining (Function.update tables t.table rest) < context.remaining tables := by
      refine List.sum_lt_sum _ _ (fun u _ => (update_sublist hdelete.sublist u.table).countP_le) ⟨t, ht, ?_⟩
      · obtain ⟨row, hdeleted⟩ := List.exists_mem_of_ne_nil _ hdelete.some
        obtain ⟨hrow, hcovers⟩ := hdelete.present.2 row hdeleted
        rw [Function.update_self, hdelete.exact, List.countP_eq_length_filter, List.countP_eq_length_filter,
          List.filter_comm, List.length_filter_lt_length_iff_exists]
        exact ⟨row, List.mem_filter.mpr ⟨hrow, hcovers⟩, by simpa using hdeleted⟩
    rw [List.length_append, List.length_singleton]
    omega

end

/-! ## One alarm -/

/-- The alarm that began on `w` stands at `w'`: it has changed the tables alone, by the transactions `taken`. -/
structure Purging (context : PurgeContext) (w : World) (taken : List (Table × List Row)) (w' : World) : Prop where
  purges : Purges context w.tables taken w'.tables
  frame : w' = { w with tables := w'.tables }

/-- No row of the purge's tables is one it may delete. -/
def PurgeContext.Cleared (context : PurgeContext) (tables : Table → List Row) : Prop :=
  ∀ table, ∀ row ∈ tables table, context.names table row = false

/-- Some call of the alarm throws, or is where it is killed. -/
def Alarm.Stops (a : Alarm) : Prop := ∃ site, a.fate site ≠ .ok

section

variable {a : Alarm} {context : PurgeContext} {w₀ w : World} {taken : List (Table × List Row)}

theorem attempt_stops {site : Site} {Q : Unit → World → Prop} {E : Stop → World → Prop} (hok : Q () w)
    (hstop : ∀ stop, E stop w) : Ends (attempt (a.fate site)) w Q (fun stop w' => a.Stops ∧ E stop w') := by
  cases hfate : a.fate site with
  | ok => exact Ends.ret hok
  | threw error => exact Ends.throw ⟨⟨site, by simp [hfate]⟩, hstop _⟩
  | killed => exact Ends.throw ⟨⟨site, by simp [hfate]⟩, hstop _⟩

theorem purgeTable_purges {t : PurgeTable} {left : ℕ} (hkeyed : ∀ table, Keyed table (w₀.tables table))
    (ht : t ∈ context.tables) (hleading : t.scope = t.table.leading) (h : Purging context w₀ taken w)
    (hleft : (w.tables t.table).length ≤ left) :
    Ends (purgeTable a t context.partition context.kinds left (freedBy taken)) w
      (fun freed w' => ∃ taken', freed = freedBy taken' ∧ Purging context w₀ taken' w' ∧
        (∀ table, (w'.tables table).Sublist (w.tables table)) ∧
        (freed < PURGE_SLICE_BYTES → ∀ row ∈ w'.tables t.table, t.covers context.partition context.kinds row = false))
      (fun _ w' => a.Stops ∧ ∃ taken', Purging context w₀ taken' w') := by
  induction left generalizing w taken with
  | zero =>
    have hempty : w.tables t.table = [] := List.length_eq_zero_iff.mp (Nat.le_zero.mp hleft)
    exact Ends.ret ⟨taken, rfl, h, fun _ => List.Sublist.refl _, fun _ row hrow => by simp [hempty] at hrow⟩
  | succ left ih =>
    rw [purgeTable]
    refine Ends.get_bind ?_
    by_cases hless : freedBy taken < PURGE_SLICE_BYTES
    · rw [if_pos hless]
      cases hslice : purgeSlice t context.partition context.kinds (PURGE_SLICE_BYTES - freedBy taken)
          (w.tables t.table) with
      | none =>
        exact Ends.ret ⟨taken, rfl, h, fun _ => List.Sublist.refl _, fun _ row hrow => not_covers_of_purgeSlice hslice hrow⟩
      | some slice =>
        obtain ⟨rest, bytes⟩ := slice
        have htable := (hkeyed t.table).sublist (h.purges.sublist t.table)
        obtain ⟨deleted, hdelete, rfl⟩ := purgeSlice_deletes htable hleading hslice
        have hnext : Purging context w₀ (taken ++ [(t.table, deleted)])
            { w with tables := Function.update w.tables t.table rest } :=
          ⟨.delete h.purges ht hless hdelete, by rw [h.frame]⟩
        have hfewer := length_of_purgeSlice hslice
        refine Ends.bind (attempt_stops (Ends.change_bind ?_) fun _ => ⟨taken, h⟩)
        have hrest := ih hnext (by dsimp only; rw [Function.update_self]; omega)
        rw [freedBy_concat] at hrest
        refine hrest.mono (fun freed w' hw' => ?_) fun _ _ hw' => hw'
        obtain ⟨taken', hfreed, hpurging, hsub, hcovers⟩ := hw'
        exact ⟨taken', hfreed, hpurging, fun table => (hsub table).trans (update_sublist hdelete.sublist table), hcovers⟩
    · rw [if_neg hless]
      exact Ends.ret ⟨taken, rfl, h, fun _ => List.Sublist.refl _, fun hspent => absurd hspent hless⟩

theorem purgeTables_purges {ts : List PurgeTable} (hkeyed : ∀ table, Keyed table (w₀.tables table))
    (hts : ∀ t ∈ ts, t ∈ context.tables ∧ t.scope = t.table.leading) (h : Purging context w₀ taken w) :
    Ends (purgeTables a context.partition context.kinds ts (freedBy taken)) w
      (fun freed w' => ∃ taken', freed = freedBy taken' ∧ Purging context w₀ taken' w' ∧
        (∀ table, (w'.tables table).Sublist (w.tables table)) ∧
        (freed < PURGE_SLICE_BYTES → ∀ t ∈ ts, ∀ row ∈ w'.tables t.table,
          t.covers context.partition context.kinds row = false))
      (fun _ w' => a.Stops ∧ ∃ taken', Purging context w₀ taken' w') := by
  induction ts generalizing w taken with
  | nil => exact Ends.ret ⟨taken, rfl, h, fun _ => List.Sublist.refl _, fun _ t ht => by cases ht⟩
  | cons t ts ih =>
    rw [purgeTables]
    obtain ⟨ht, hleading⟩ := hts t (by simp)
    refine Ends.get_bind (Ends.bind ((purgeTable_purges hkeyed ht hleading h le_rfl).mono (fun freed w' hw' => ?_)
      fun _ _ hw' => hw'))
    obtain ⟨taken', rfl, hpurging, hsub, hcovers⟩ := hw'
    by_cases hspent : PURGE_SLICE_BYTES ≤ freedBy taken'
    · rw [if_pos hspent]
      exact Ends.ret ⟨taken', rfl, hpurging, hsub, fun hless => absurd hless (Nat.not_lt.mpr hspent)⟩
    · rw [if_neg hspent]
      refine (ih (fun u hu => hts u (List.mem_cons_of_mem _ hu)) hpurging).mono (fun freed w'' hw'' => ?_)
        fun _ _ hw'' => hw''
      obtain ⟨taken'', hfreed, hpurging', hsub', hcovers'⟩ := hw''
      refine ⟨taken'', hfreed, hpurging', fun table => (hsub' table).trans (hsub table), fun hless u hu row hrow => ?_⟩
      rcases List.mem_cons.mp hu with rfl | hlater
      · exact hcovers (Nat.not_le.mp hspent) row ((hsub' _).subset hrow)
      · exact hcovers' hless u hlater row hrow

end

/-! ## The phase -/

/-- The blobs a phase boundary drops, and the phase that follows it. -/
structure BlobsPurge where
  table : Table
  kinds : List String
  next : Phase
  blobs : table = .stage_blobs ∨ table = .stage_members
  named : kinds ≠ []

def beginPurge (scope : PurgeScope) (blobs : Option BlobsPurge) (w : World) : World :=
  let begun := { w with purge_scope := some scope, purge_slices := 0, phase := .purge_staging }
  match blobs with
  | none => begun
  | some blobs =>
    { begun with purge_table := some blobs.table, purge_kinds := some blobs.kinds, purge_next := some blobs.next }

/-- The phase, with what it was confined to when it began. -/
structure Unfinished (scope : PurgeScope) (context : PurgeContext) (w : World) : Prop where
  inPhase : w.phase = .purge_staging
  underScope : w.purge_scope = some scope
  confined : purgeContext w scope = .ok context
  next : scope = .blobs → w.purge_next ≠ none

/-- The phase was left, with nothing of the scope behind. -/
structure Left (context : PurgeContext) (w : World) : Prop where
  scope : w.purge_scope = none
  cleared : context.Cleared w.tables

section

variable {a : Alarm} {scope : PurgeScope} {context : PurgeContext} {w w' : World} {taken : List (Table × List Row)}

theorem exists_context {blobs : Option BlobsPurge} (hblobs : scope = .blobs → blobs.isSome = true)
    (hpp : scope = .partition ∨ scope = .rewind → w.pp_publish.isSome = true) :
    ∃ context, Unfinished scope context (beginPurge scope blobs w) := by
  have hphase : (beginPurge scope blobs w).phase = .purge_staging := by cases blobs <;> rfl
  have hscope : (beginPurge scope blobs w).purge_scope = some scope := by cases blobs <;> rfl
  have hpublish : (beginPurge scope blobs w).pp_publish = w.pp_publish := by cases blobs <;> rfl
  cases scope with
  | reset => exact ⟨_, hphase, hscope, rfl, by simp⟩
  | retire => exact ⟨_, hphase, hscope, rfl, by simp⟩
  | partition =>
    obtain ⟨pp, hsome⟩ := Option.isSome_iff_exists.mp (hpp (.inl rfl))
    refine ⟨⟨some pp, none, PURGE_TABLES .partition⟩, hphase, hscope, ?_, by simp⟩
    simp only [purgeContext, requirePp, hpublish, hsome]
    rfl
  | rewind =>
    obtain ⟨pp, hsome⟩ := Option.isSome_iff_exists.mp (hpp (.inr rfl))
    refine ⟨⟨some pp, none, PURGE_TABLES .rewind⟩, hphase, hscope, ?_, by simp⟩
    simp only [purgeContext, requirePp, hpublish, hsome]
    rfl
  | blobs =>
    obtain ⟨blobs, rfl⟩ := Option.isSome_iff_exists.mp (hblobs rfl)
    obtain ⟨kind, kinds, hkinds⟩ := List.exists_cons_of_ne_nil blobs.named
    refine ⟨⟨none, some blobs.kinds, (PURGE_TABLES .blobs).filter fun t => t.table = blobs.table⟩,
      hphase, hscope, ?_, by simp [beginPurge]⟩
    rcases blobs.blobs with htable | htable
    · simp [purgeContext, beginPurge, hkinds, htable, PURGE_TABLES]
    · simp [purgeContext, beginPurge, hkinds, htable, PURGE_TABLES]

theorem Unfinished.leading (h : Unfinished scope context w) : ∀ t ∈ context.tables, t.scope = t.table.leading := by
  have hsub : ∀ t ∈ context.tables, t ∈ PURGE_TABLES scope := by
    have hcontext := h.confined
    cases scope with
    | reset => cases hcontext; exact fun _ ht => ht
    | retire => cases hcontext; exact fun _ ht => ht
    | partition =>
      obtain ⟨pp, -, hok⟩ := Throws.ok_of_bind hcontext
      cases hok
      exact fun _ ht => ht
    | rewind =>
      obtain ⟨pp, -, hok⟩ := Throws.ok_of_bind hcontext
      cases hok
      exact fun _ ht => ht
    | blobs =>
      rw [purgeContext] at hcontext
      split at hcontext
      · cases hcontext
      · cases hcontext
      · split at hcontext
        · cases hcontext
        · dsimp only at hcontext
          split_ifs at hcontext
          cases hcontext
          exact fun _ ht => (List.mem_filter.mp ht).1
  exact fun t ht => scope_eq_leading (hsub t ht)

theorem Unfinished.purging (h : Unfinished scope context w) (hpurging : Purging context w taken w') :
    Unfinished scope context w' := by
  obtain ⟨hphase, hscope, hcontext, hnext⟩ := h
  rw [hpurging.frame]
  exact ⟨hphase, hscope, hcontext, hnext⟩

theorem Unfinished.leavePurge_ok (h : Unfinished scope context w) :
    ∃ left, leavePurge w scope context.pp = .ok left ∧ left.purge_scope = none ∧ left.tables = w.tables := by
  cases scope with
  | reset => exact ⟨_, rfl, rfl, rfl⟩
  | rewind => exact ⟨_, rfl, rfl, rfl⟩
  | retire => exact ⟨_, rfl, rfl, rfl⟩
  | blobs =>
    obtain ⟨after, hafter⟩ := Option.ne_none_iff_exists'.mp (h.next rfl)
    refine ⟨_, by simp only [leavePurge, hafter]; rfl, ?_, ?_⟩
    · rfl
    · rfl
  | partition =>
    cases hpp : context.pp with
    | none => exact ⟨_, rfl, rfl, rfl⟩
    | some pp =>
      by_cases hlast : pp.partition + 1 = pp.partitions.length
      · refine ⟨_, by rw [leavePurge, if_pos hlast], ?_, ?_⟩
        · rfl
        · rfl
      · have hmore : pp.partition + 1 < pp.partitions.length := lt_of_le_of_ne pp.inRange hlast
        refine ⟨_, by rw [leavePurge, if_neg hlast, advanceToNextPartition, dif_pos hmore], ?_, ?_⟩
        · rfl
        · rfl

theorem endSuperseded_keeps : Ends (endSuperseded a) w (fun _ w' => w'.purge_scope = w.purge_scope ∧ w'.tables = w.tables)
      (fun _ w' => a.Stops ∧ w'.purge_scope = w.purge_scope ∧ w'.tables = w.tables) := by
  refine Ends.bind (attempt_stops ?_ fun _ => ⟨rfl, rfl⟩)
  refine Ends.bind (attempt_stops (Ends.change_bind ?_) fun _ => ⟨rfl, rfl⟩)
  refine Ends.bind (attempt_stops (Ends.change_bind (Ends.change ?_)) fun _ => ⟨rfl, rfl⟩)
  exact ⟨rfl, rfl⟩

theorem Unfinished.finishPurge (h : Unfinished scope context w) (hcleared : context.Cleared w.tables) :
    Ends (finishPurge a scope context.pp) w (fun _ w' => Left context w' ∧ w'.tables = w.tables)
      (fun _ w' => a.Stops ∧ (Unfinished scope context w' ∨ Left context w') ∧ w'.tables = w.tables) := by
  obtain ⟨left, hleave, hscope, htables⟩ := h.leavePurge_ok
  refine Ends.bind (attempt_stops (Ends.get_bind ?_) fun _ => ⟨.inl h, rfl⟩)
  rw [hleave]
  have hleft : Left context left := ⟨hscope, by rw [htables]; exact hcleared⟩
  change Ends (do
    set left
    if scope = .retire then endSuperseded a else pure ()) w _ _
  refine Ends.bind ?_
  change Ends (if scope = .retire then endSuperseded a else pure ()) left _ _
  split_ifs
  · refine endSuperseded_keeps.mono (fun _ w' hw' => ?_) fun _ w' hw' => ?_
    · exact ⟨⟨hw'.1.trans hscope, by rw [hw'.2]; exact hleft.cleared⟩, hw'.2.trans htables⟩
    · exact ⟨hw'.1, .inr ⟨hw'.2.1.trans hscope, by rw [hw'.2.2]; exact hleft.cleared⟩, hw'.2.2.trans htables⟩
  · exact Ends.ret ⟨hleft, htables⟩

/-- An alarm of the phase: it returns with rows of the scope gone or the phase left, and what stops it is a call of its own. -/
theorem Unfinished.alarm (h : Unfinished scope context w) (hkeyed : ∀ table, Keyed table (w.tables table)) :
    Ends (stepPurgeStaging a) w
      (fun _ w' => ∃ taken, Purges context w.tables taken w'.tables ∧
        (Unfinished scope context w' ∧ taken ≠ [] ∨ Left context w'))
      (fun _ w' => a.Stops ∧ ∃ taken, Purges context w.tables taken w'.tables ∧
        (Unfinished scope context w' ∨ Left context w')) := by
  refine Ends.get_bind ?_
  rw [h.underScope]
  dsimp only
  rw [h.confined]
  dsimp only
  have hstart : Purging context w [] w := ⟨.nothing, rfl⟩
  have hwalk := purgeTables_purges (a := a) hkeyed (fun t ht => ⟨ht, h.leading t ht⟩) hstart
  refine Ends.bind (hwalk.mono (fun freed w' hw' => ?_) fun stop w' hw' => ?_)
  · obtain ⟨taken, hfreed, hpurging, -, hcovers⟩ := hw'
    have hunfinished := h.purging hpurging
    -- Short of the budget, every table of the scope has been walked to its end.
    have hcleared : freed < PURGE_SLICE_BYTES → context.Cleared w'.tables := by
      intro hless table row hrow
      refine List.any_eq_false.mpr fun t ht => ?_
      by_cases htable : t.table = table
      · subst htable
        simp [hcovers hless t ht row hrow]
      · simp [htable]
    by_cases hpos : 0 < freed
    · rw [if_pos hpos]
      have hcounted : Unfinished scope context { w' with purge_slices := w'.purge_slices + 1 } :=
        ⟨hunfinished.inPhase, hunfinished.underScope, hunfinished.confined, hunfinished.next⟩
      refine Ends.bind (attempt_stops (Ends.change_bind ?_) fun _ => ⟨taken, hpurging.purges, .inl hunfinished⟩)
      by_cases hspent : PURGE_SLICE_BYTES ≤ freed
      · rw [if_pos hspent]
        refine Ends.ret ⟨taken, hpurging.purges, .inl ⟨hcounted, fun hnil => ?_⟩⟩
        rw [hfreed, hnil] at hpos
        exact Nat.lt_irrefl 0 hpos
      · rw [if_neg hspent]
        refine (hcounted.finishPurge (hcleared (Nat.not_le.mp hspent))).mono (fun _ w'' hw'' => ?_) fun _ w'' hw'' => ?_
        · exact ⟨taken, hw''.2 ▸ hpurging.purges, .inr hw''.1⟩
        · exact ⟨hw''.1, taken, hw''.2.2 ▸ hpurging.purges, hw''.2.1⟩
    · rw [if_neg hpos]
      have hless : freed < PURGE_SLICE_BYTES := by
        rw [Nat.eq_zero_of_not_pos hpos]
        decide
      refine (hunfinished.finishPurge (hcleared hless)).mono (fun _ w'' hw'' => ?_) fun _ w'' hw'' => ?_
      · exact ⟨taken, hw''.2 ▸ hpurging.purges, .inr hw''.1⟩
      · exact ⟨hw''.1, taken, hw''.2.2 ▸ hpurging.purges, hw''.2.1⟩
  · obtain ⟨hstops, taken, hpurging⟩ := hw'
    exact ⟨hstops, taken, hpurging.purges, .inl (h.purging hpurging)⟩

/-! ## Runs -/

/-- Where an alarm of the phase leaves the object, whether it returned or stopped. -/
def afterAlarm (a : Alarm) (w : World) : World :=
  match stepPurgeStaging a w with
  | .ok _ w' | .error _ w' => w'

def returns (a : Alarm) (w : World) : Bool :=
  match stepPurgeStaging a w with
  | .ok _ _ => true
  | .error _ _ => false

/-- The phase's machine: its alarms, for as long as it is not left. -/
def purgeAlarm (w : World) (a : Alarm) : Option World :=
  if w.phase = .purge_staging ∧ w.purge_scope.isSome = true then some (afterAlarm a w) else none

def returned : World → List Alarm → ℕ
  | _, [] => 0
  | w, a :: alarms => (if returns a w then 1 else 0) + returned (afterAlarm a w) alarms

theorem Unfinished.afterAlarm (h : Unfinished scope context w) (hkeyed : ∀ table, Keyed table (w.tables table)) (a : Alarm) :
    ∃ taken, Purges context w.tables taken (afterAlarm a w).tables ∧
      (Unfinished scope context (afterAlarm a w) ∧ (returns a w = true → taken ≠ []) ∨ Left context (afterAlarm a w)) ∧
      (returns a w = false → a.Stops) := by
  have halarm := h.alarm (a := a) hkeyed
  unfold Ends at halarm
  unfold AlarmChain.afterAlarm returns
  cases hstep : stepPurgeStaging a w with
  | ok _ w' =>
    rw [hstep] at halarm
    obtain ⟨taken, hpurges, hends⟩ := halarm
    exact ⟨taken, hpurges, hends.imp (fun hmore => ⟨hmore.1, fun _ => hmore.2⟩) id, fun hreturns => by cases hreturns⟩
  | error _ w' =>
    rw [hstep] at halarm
    obtain ⟨hstops, taken, hpurges, hends⟩ := halarm
    exact ⟨taken, hpurges, hends.imp (fun hmore => ⟨hmore, fun hreturns => by cases hreturns⟩) id, fun _ => hstops⟩

theorem Left.not_step (h : Left context w) (a : Alarm) : purgeAlarm w a = none := by
  rw [purgeAlarm, if_neg fun hboth => by simp [h.scope] at hboth]

theorem Unfinished.step (h : Unfinished scope context w) (a : Alarm) : purgeAlarm w a = some (AlarmChain.afterAlarm a w) := by
  rw [purgeAlarm, if_pos ⟨h.inPhase, by rw [h.underScope]; rfl⟩]

/-- What the alarms of a run have in common. -/
structure Purged (scope : PurgeScope) (context : PurgeContext) (w : World) (alarms : List Alarm) (w' : World) : Prop where
  sublist : ∀ table, (w'.tables table).Sublist (w.tables table)
  kept : ∀ table, ∀ row ∈ w.tables table, context.names table row = false → row ∈ w'.tables table
  ends : Unfinished scope context w' ∧ context.remaining w'.tables + returned w alarms ≤ context.remaining w.tables ∨
    Left context w'

theorem Unfinished.run (h : Unfinished scope context w) (hkeyed : ∀ table, Keyed table (w.tables table)) {alarms : List Alarm}
    (hrun : Runs.run purgeAlarm w alarms = some w') : Purged scope context w alarms w' := by
  induction alarms generalizing w with
  | nil =>
    obtain rfl := Option.some.inj hrun
    exact ⟨fun _ => List.Sublist.refl _, fun _ _ hrow _ => hrow, .inl ⟨h, by simp [returned]⟩⟩
  | cons a alarms ih =>
    rw [Runs.run, h.step, Option.bind_some] at hrun
    obtain ⟨taken, hpurges, hends, -⟩ := h.afterAlarm hkeyed a
    have hafter : ∀ table, Keyed table ((AlarmChain.afterAlarm a w).tables table) :=
      fun table => (hkeyed table).sublist (hpurges.sublist table)
    rcases hends with ⟨hunfinished, htaken⟩ | hleft
    · obtain ⟨hsub, hkept, hends⟩ := ih hunfinished hafter hrun
      refine ⟨fun table => (hsub table).trans (hpurges.sublist table),
        fun table row hrow hout => hkept table row (hpurges.kept hrow hout) hout, ?_⟩
      refine hends.imp (fun hmore => ⟨hmore.1, ?_⟩) id
      have hremaining := hpurges.remaining
      have hcounted : (if returns a w then 1 else 0) ≤ taken.length := by
        split_ifs with hreturns
        · exact List.length_pos_of_ne_nil (htaken hreturns)
        · exact Nat.zero_le _
      rw [returned]
      omega
    · -- Past the phase no alarm of it runs.
      cases alarms with
      | nil =>
        obtain rfl := Option.some.inj hrun
        exact ⟨hpurges.sublist, fun table row hrow hout => hpurges.kept hrow hout, .inr hleft⟩
      | cons b alarms =>
        rw [Runs.run, hleft.not_step] at hrun
        cases hrun

/-- **The purge removes exactly its scope.** From any staging and any scope, whatever stops its alarms: rows only go, and
    only those of the scope; each transaction takes the rows its plan priced, and an alarm frees less than its budget and
    one row; the phase is left with nothing of the scope behind; and it is left, since each alarm that returns short of
    that has taken a row, and an alarm no call of which stops it returns. -/
theorem staging_purge_removes_its_scope {blobs : Option BlobsPurge} (hblobs : scope = .blobs → blobs.isSome = true)
    (hpp : scope = .partition ∨ scope = .rewind → w.pp_publish.isSome = true)
    (hkeyed : ∀ table, Keyed table (w.tables table)) :
    ∃ context, purgeContext (beginPurge scope blobs w) scope = .ok context ∧
      ∀ alarms w', Runs.Reaches purgeAlarm (beginPurge scope blobs w) alarms w' →
        (∀ table, (w'.tables table).Sublist (w.tables table)) ∧
        (∀ table, ∀ row ∈ w.tables table, context.names table row = false → row ∈ w'.tables table) ∧
        (∀ a w'', purgeAlarm w' a = some w'' → ∃ taken, Purges context w'.tables taken w''.tables ∧
          (taken = [] ∨ ∃ delete ∈ taken, ∃ row ∈ delete.2, freedBy taken < PURGE_SLICE_BYTES + row.bytes)) ∧
        (w'.phase ≠ .purge_staging ∨ w'.purge_scope ≠ some scope →
          ∀ table, ∀ row ∈ w'.tables table, context.names table row = false) ∧
        (w'.phase = .purge_staging ∧ w'.purge_scope = some scope →
          returned (beginPurge scope blobs w) alarms ≤ context.remaining w.tables ∧
          ∀ a, (∀ site, a.fate site = .ok) → returns a w' = true) := by
  obtain ⟨context, hbegun⟩ := exists_context hblobs hpp
  have htables : (beginPurge scope blobs w).tables = w.tables := by cases blobs <;> rfl
  refine ⟨context, hbegun.confined, fun alarms w' hreaches => ?_⟩
  have hpurged := hbegun.run (by rwa [htables]) (Runs.reaches_iff.mp hreaches)
  obtain ⟨hsub, hkept, hends⟩ := hpurged
  rw [htables] at hsub hkept hends
  have hkeyed' : ∀ table, Keyed table (w'.tables table) := fun table => (hkeyed table).sublist (hsub table)
  refine ⟨hsub, hkept, fun a w'' hstep => ?_, fun hout => ?_, fun ⟨hphase, hscope⟩ => ?_⟩
  · rcases hends with ⟨hunfinished, -⟩ | hleft
    · obtain ⟨taken, hpurges, -⟩ := hunfinished.afterAlarm hkeyed' a
      rw [hunfinished.step] at hstep
      obtain rfl := Option.some.inj hstep
      exact ⟨taken, hpurges, hpurges.bound⟩
    · rw [hleft.not_step] at hstep
      cases hstep
  · rcases hends with ⟨hunfinished, -⟩ | hleft
    · rcases hout with hphase | hscope
      · exact absurd hunfinished.inPhase hphase
      · exact absurd hunfinished.underScope hscope
    · exact hleft.cleared
  · rcases hends with ⟨hunfinished, hremaining⟩ | hleft
    · refine ⟨by omega, fun a hquiet => ?_⟩
      obtain ⟨taken, -, -, hreturns⟩ := hunfinished.afterAlarm hkeyed' a
      by_contra hstopped
      obtain ⟨site, hsite⟩ := hreturns (Bool.eq_false_of_not_eq_true hstopped)
      exact hsite (hquiet site)
    · rw [hleft.scope] at hscope
      cases hscope

end

def stagedDumps : World :=
  { listingRun with
    tables := fun table => if table = .stage_blobs then [⟨.kind "all_cards", 0, 100⟩, ⟨.kind "art_tags", 0, 7⟩] else [] }

def tagBlobs : BlobsPurge := ⟨.stage_blobs, ["art_tags"], .scores, .inl rfl, by decide⟩

def purgedTags : World := afterAlarm (fencedAlarm none) (beginPurge .blobs (some tagBlobs) stagedDumps)

/-- One alarm drops the dump that is named, leaves the phase, and leaves the other dump. -/
theorem staging_purge_of_one_kind : purgedTags.purge_scope = none ∧
    ⟨.kind "all_cards", 0, 100⟩ ∈ purgedTags.tables .stage_blobs ∧
    ⟨.kind "art_tags", 0, 7⟩ ∉ purgedTags.tables .stage_blobs := by
  have hkeyed : ∀ table, Keyed table (stagedDumps.tables table) := by
    intro table
    cases table <;> exact ⟨by decide, by decide⟩
  obtain ⟨context, hcontext, hruns⟩ :=
    @staging_purge_removes_its_scope .blobs stagedDumps (some tagBlobs) (fun _ => rfl) (by decide) hkeyed
  have hconfined : context = ⟨none, some ["art_tags"], [⟨.stage_blobs, some .kind⟩]⟩ :=
    Except.ok.inj (hcontext.symm.trans rfl)
  subst hconfined
  have hstep : purgeAlarm (beginPurge .blobs (some tagBlobs) stagedDumps) (fencedAlarm none) =
      some purgedTags := rfl
  obtain ⟨-, hkept, -, hcleared, -⟩ := hruns _ _ (Runs.Reaches.step .start hstep)
  refine ⟨by decide, hkept .stage_blobs _ (by decide) (by decide), fun hrow => ?_⟩
  have hnames := hcleared (.inr (by decide)) .stage_blobs _ hrow
  exact absurd hnames (by decide)

end AlarmChain
