-- SUMMARY: What one night's judgement can do to one name: forget it, settle its record, or move it once.
import Mathlib.Data.List.Nodup
import Sylvan.Engine.EngineMoves

/-!
# One night of engine moves

The judgement works on maps of every name. Seen from one name a night is simple: an unserved
name is forgotten, a served one has its record settled, and a candidate may be moved, once.
-/

namespace EngineMoves

open PlacementPolicy EngineNamespace

/-! ## One record -/

variable {pin : Option Pin}

theorem applyPin_since {r : EngineMoveRecord} : (applyPin pin r).since = r.since := by
  unfold applyPin
  split
  · rfl
  · rfl
  · split <;> rfl

theorem applyPin_e {r : EngineMoveRecord} :
    ((applyPin pin r).e).getD 0 = match pin with | some (.epoch n) => n | _ => r.e.getD 0 := by
  cases pin with
  | none =>
    simp only [applyPin]
    split <;> rfl
  | some pin =>
    cases pin with
    | auto => rfl
    | epoch n => cases n <;> rfl

theorem applyPin_moves {r : EngineMoveRecord} : (applyPin pin r).moves = if pin = some .auto then none else r.moves := by
  cases pin with
  | none =>
    simp only [applyPin]
    split <;> rfl
  | some pin => cases pin <;> rfl

variable {nowMs : ℤ}

theorem countStrike_frame {j : Option Judged} {r : EngineMoveRecord} :
    (countStrike nowMs j r).e = r.e ∧ (countStrike nowMs j r).since = r.since ∧
      (countStrike nowMs j r).moves = r.moves ∧ (countStrike nowMs j r).stop = r.stop := by
  cases j with
  | none => exact ⟨rfl, rfl, rfl, rfl⟩
  | some j =>
    simp only [countStrike]
    split <;> exact ⟨rfl, rfl, rfl, rfl⟩

theorem judgeRecord_frame {j : Option Judged} {prev : EngineMoveRecord} :
    (judgeRecord nowMs j pin prev).1.e = (applyPin pin prev).e ∧ (judgeRecord nowMs j pin prev).1.since = prev.since ∧
      (judgeRecord nowMs j pin prev).1.moves = (applyPin pin prev).moves := by
  obtain ⟨he, hsince, hmoves, -⟩ := @countStrike_frame nowMs j (applyPin pin prev)
  rw [applyPin_since] at hsince
  cases j with
  | none => exact ⟨he, hsince, hmoves⟩
  | some j =>
    simp only [judgeRecord]
    split
    · split <;> exact ⟨he, hsince, hmoves⟩
    · exact ⟨he, hsince, hmoves⟩

/-- What a candidate owes: nothing stops it, it has moves left, and it is not cooling down. -/
structure MayMove (nowMs : ℤ) (pin : Option Pin) (prev : EngineMoveRecord) (j : Judged) : Prop where
  unpinned : ∀ n, pin ≠ some (.epoch n)
  notGivenUp : prev.stop = some .gaveUp → pin = some .auto
  movesLeft : ((applyPin pin prev).moves).getD 0 < MAX_AUTO_MOVES
  epochLeft : j.nextEpoch ≤ MAX_ENGINE_EPOCH
  cooledDown : ∀ since, prev.since = some since → MOVE_COOLDOWN_MS ≤ nowMs - since

variable {j : Judged}

theorem mayMove_of_candidate {judged : Option Judged} {prev : EngineMoveRecord}
    (h : (judgeRecord nowMs judged pin prev).2 = some j) :
    judged = some j ∧ MayMove nowMs pin prev j := by
  obtain ⟨-, hsince, hmoves, hstop⟩ := @countStrike_frame nowMs judged (applyPin pin prev)
  rw [applyPin_since] at hsince
  cases judged with
  | none => cases h
  | some j' =>
    simp only [judgeRecord] at h
    split at h
    · rename_i hflagged
      split at h
      · cases h
      · cases h
      · rename_i hruling
        obtain rfl := Option.some.inj h
        simp only [ruling] at hruling
        split_ifs at hruling with hgave hkept hcool
        push Not at hgave
        rw [hstop, hmoves] at hgave
        rw [hstop] at hflagged
        refine ⟨rfl, ?_, ?_, hgave.2.1, hgave.2.2, ?_⟩
        · rintro n rfl
          exact hflagged.2 rfl
        · intro hprev
          by_contra hauto
          refine hgave.1 ?_
          cases pin with
          | none => simp [applyPin, hprev]
          | some pin =>
            cases pin with
            | auto => exact absurd rfl hauto
            | epoch n => exact absurd rfl hflagged.2
        · intro since hprev
          simpa [coolingDown, hsince, hprev] using hcool
    · cases h

/-! ## Who was judged -/

theorem current_spec {input : JudgeInput} {name0 : String} {s : Speaker}
    (h : (current input).get name0 = some s) :
    s.name0 = name0 ∧ ∃ report ∈ input.reports, speakerOf input report = some s := by
  have hall : ∀ n s, (current input).get n = some s → s.name0 = n ∧ s ∈ input.reports.filterMap (speakerOf input) := by
    refine List.foldlRecOn (motive := fun m : JsMap String Speaker => ∀ n s, m.get n = some s →
      s.name0 = n ∧ s ∈ input.reports.filterMap (speakerOf input)) _ _ (by simp) fun m hm s hs => ?_
    intro n s' hget
    split at hget
    · exact hm n s' hget
    · rw [JsMap.get_set] at hget
      split at hget
      · rename_i hname
        obtain rfl := Option.some.inj hget
        exact ⟨hname, hs⟩
      · exact hm n s' hget
  obtain ⟨hname, hmem⟩ := hall name0 s h
  exact ⟨hname, List.mem_filterMap.mp hmem⟩

theorem speakerOf_spec {input : JudgeInput} {report : EngineReport} {s : Speaker}
    (h : speakerOf input report = some s) :
    s.report = report ∧ parseEngineName report.name = some s.parsed ∧ s.parsed.partition = some s.partition ∧
      s.name0 = engineName s.parsed.region s.parsed.shard (some s.partition) s.parsed.generation 0 ∧
      input.currentNameOf s.name0 = report.name ∧ replicaGroupOf report.name = some s.group := by
  obtain ⟨parsed, hparsed, h⟩ := Option.bind_eq_some_iff.mp h
  obtain ⟨partition, hpartition, h⟩ := Option.bind_eq_some_iff.mp h
  simp only at h
  split at h
  · cases h
  · rename_i hnot
    obtain ⟨group, hgroup, rfl⟩ := Option.map_eq_some_iff.mp h
    simp only [Bool.or_eq_true, Bool.not_eq_true', decide_eq_true_eq, not_or, not_not] at hnot
    exact ⟨rfl, hparsed, hpartition, rfl, hnot.2, hgroup⟩

section

variable {world : World}

theorem judgedOf_spec {input : JudgeInput} {name0 : String}
    (h : judgedOf world input name0 = some j) :
    j.name0 = name0 ∧ ∃ report ∈ input.reports, speakerOf input report = some j.toSpeaker := by
  obtain ⟨s, hs, rfl⟩ := Option.map_eq_some_iff.mp h
  exact current_spec hs

theorem judgedOf_group {input : JudgeInput} {name0 : String}
    (h : judgedOf world input name0 = some j) : replicaGroupOf j.report.name = some j.group := by
  obtain ⟨-, report, -, hs⟩ := judgedOf_spec h
  obtain ⟨hreport, -, -, -, -, hgroup⟩ := speakerOf_spec hs
  exact hreport ▸ hgroup

theorem epochFloor_le_judged {before : Engines} {night : Night} {name0 : String}
    (h : judgedOf world (night.input before) name0 = some j) :
    epochFloorOf before name0 ≤ j.parsed.epoch := by
  obtain ⟨rfl, report, -, hs⟩ := judgedOf_spec h
  obtain ⟨-, hparsed, hpartition, hname, hcurrent, -⟩ := speakerOf_spec hs
  rw [hname] at hcurrent ⊢
  simp only [Night.input, parseEngineName_engineName] at hcurrent
  obtain ⟨epoch, hfloor, hparse⟩ := @parse_currentEngineName j.parsed.region night.abandoned before
    j.parsed.shard j.partition j.parsed.generation
  rw [hcurrent, hparsed] at hparse
  rw [Option.some.inj hparse] at hfloor ⊢
  exact hfloor

/-! ## The candidates -/

theorem nodup_namesOf {input : JudgeInput} : (namesOf input).Nodup :=
  (List.perm_insertionSort _ _).nodup_iff.mpr JsSet.nodup_of

theorem mem_namesOf {input : JudgeInput} {name0 : String} :
    name0 ∈ namesOf input ↔ name0 ∈ (input.previous.map (·.keys)).getD [] ∨
      name0 ∈ (current input).keys ∨ name0 ∈ (parsePins input.pins).keys := by
  rw [namesOf, (List.perm_insertionSort _ _).mem_iff, JsSet.mem_of]
  simp

/-- A name's record and verdict as the night leaves them before the moves. -/
def judgementOf (world : World) (input : JudgeInput) (name0 : String) : EngineMoveRecord × Option Judged :=
  judgeRecord input.nowMs (judgedOf world input name0) ((parsePins input.pins).get name0)
    (recordOf input.previous name0)

theorem mem_candidates {input : JudgeInput} {name0 : String} : (name0, j) ∈ candidates world input ↔
      name0 ∈ namesOf input ∧ input.served name0 = true ∧ (judgementOf world input name0).2 = some j := by
  rw [candidates, (List.perm_insertionSort _ _).mem_iff]
  simp [judgements, judgementOf, and_assoc]

theorem nodup_candidates {input : JudgeInput} : ((candidates world input).map Prod.fst).Nodup := by
  refine ((List.perm_insertionSort _ _).map Prod.fst).nodup_iff.mpr ?_
  refine List.Nodup.sublist ?_ ((@nodup_namesOf input).filter input.served)
  rw [judgements, List.filterMap_map, List.map_filterMap]
  induction (namesOf input).filter input.served with
  | nil => exact List.Sublist.slnil
  | cons name0 names ih =>
    rw [List.filterMap_cons]
    split
    · exact ih.cons _
    · rename_i n heq
      simp only [Function.comp_apply, Option.map_map, Option.map_eq_some_iff] at heq
      obtain ⟨j, -, rfl⟩ := heq
      exact ih.cons_cons _

/-! ## The moves -/

def movesOf (moves : List EngineMove) (name0 : String) : List EngineMove :=
  moves.filter fun m => m.name0 = name0

/-- What the candidates tried so far have done to one name. -/
inductive Tried (world : World) (input : JudgeInput) (name0 : String) (cs : List (String × Judged))
    (st st' : Moving) : Prop
  | untouched : st'.engines.get name0 = st.engines.get name0 →
      movesOf st'.moves name0 = movesOf st.moves name0 → Tried world input name0 cs st st'
  | kept (j : Judged) : (name0, j) ∈ cs →
      st'.engines.get name0 = some { (st.engines.get name0).getD noRecord with why := some j.why } →
      movesOf st'.moves name0 = movesOf st.moves name0 → Tried world input name0 cs st st'
  | moved (j : Judged) : (name0, j) ∈ cs →
      st'.engines.get name0 = some (movedRecord input.nowMs j ((st.engines.get name0).getD noRecord)) →
      movesOf st'.moves name0 = movesOf st.moves name0 ++ [moveOf world input name0 j] →
      Tried world input name0 cs st st'

theorem tryMove_self (world : World) (input : JudgeInput) (st : Moving) (name0 : String) (j : Judged) :
    Tried world input name0 [(name0, j)] st (tryMove world input st (name0, j)) := by
  simp only [tryMove]
  split
  · exact .kept j (by simp) (by simp [JsMap.get_set]) rfl
  · exact .moved j (by simp) (by simp [JsMap.get_set]) (by simp [movesOf, moveOf])

theorem tryMove_other (world : World) (input : JudgeInput) (st : Moving) {c : String × Judged} {name0 : String}
    (hne : c.1 ≠ name0) : (tryMove world input st c).engines.get name0 = st.engines.get name0 ∧
      movesOf (tryMove world input st c).moves name0 = movesOf st.moves name0 := by
  obtain ⟨n, j⟩ := c
  simp only at hne
  simp only [tryMove]
  split
  · exact ⟨by simp [JsMap.get_set, hne], rfl⟩
  · exact ⟨by simp [JsMap.get_set, hne], by simp [movesOf, moveOf, hne]⟩

theorem foldl_tryMove_other (world : World) (input : JudgeInput) {cs : List (String × Judged)} {name0 : String}
    (hnot : name0 ∉ cs.map Prod.fst) (st : Moving) :
    (cs.foldl (tryMove world input) st).engines.get name0 = st.engines.get name0 ∧
      movesOf (cs.foldl (tryMove world input) st).moves name0 = movesOf st.moves name0 := by
  induction cs generalizing st with
  | nil => exact ⟨rfl, rfl⟩
  | cons c cs ih =>
    rw [List.map_cons, List.mem_cons, not_or] at hnot
    obtain ⟨hengines, hmoves⟩ := tryMove_other world input st (Ne.symm hnot.1)
    obtain ⟨hengines', hmoves'⟩ := ih hnot.2 (tryMove world input st c)
    exact ⟨hengines'.trans hengines, hmoves'.trans hmoves⟩

theorem foldl_tryMove (world : World) (input : JudgeInput) {cs : List (String × Judged)}
    (hnodup : (cs.map Prod.fst).Nodup) (st : Moving) (name0 : String) : Tried world input name0 cs st (cs.foldl (tryMove world input) st) := by
  induction cs generalizing st with
  | nil => exact .untouched rfl rfl
  | cons c cs ih =>
    rw [List.map_cons, List.nodup_cons] at hnodup
    rw [List.foldl_cons]
    by_cases hname : c.1 = name0
    · obtain ⟨n, j⟩ := c
      obtain rfl : n = name0 := hname
      obtain ⟨hengines, hmoves⟩ := foldl_tryMove_other world input hnodup.1
        (tryMove world input st (n, j))
      cases tryMove_self world input st n j with
      | untouched hget hfilter => exact .untouched (hengines.trans hget) (hmoves.trans hfilter)
      | kept j' hmem hget hfilter =>
        exact .kept j' (by simp_all) (hengines.trans hget) (hmoves.trans hfilter)
      | moved j' hmem hget hfilter =>
        exact .moved j' (by simp_all) (hengines.trans hget) (hmoves.trans hfilter)
    · obtain ⟨hengines, hmoves⟩ := tryMove_other world input st hname
      cases ih hnodup.2 (tryMove world input st c) with
      | untouched hget hfilter => exact .untouched (hget.trans hengines) (hfilter.trans hmoves)
      | kept j hmem hget hfilter =>
        exact .kept j (List.mem_cons_of_mem _ hmem) (hengines ▸ hget) (hfilter.trans hmoves)
      | moved j hmem hget hfilter =>
        exact .moved j (List.mem_cons_of_mem _ hmem) (hengines ▸ hget) (hmoves ▸ hfilter)

/-! ## The limits of a night -/

/-- The moves are within tonight's limits, one for each replica. -/
structure WithinLimits (st : Moving) : Prop where
  few : st.moves.length ≤ MAX_MOVES_PER_NIGHT
  groups : st.moves.map (fun m => replicaGroupOf m.source) = st.movedGroups.map some
  nodup : st.movedGroups.Nodup

theorem WithinLimits.tryMove {input : JudgeInput} {st : Moving} (h : WithinLimits st) {c : String × Judged}
    (hgroup : replicaGroupOf c.2.report.name = some c.2.group) :
    WithinLimits (tryMove world input st c) := by
  obtain ⟨name0, j⟩ := c
  simp only [EngineMoves.tryMove]
  split
  · exact ⟨h.few, h.groups, h.nodup⟩
  · rename_i hlimits
    push Not at hlimits
    refine ⟨?_, ?_, JsSet.nodup_add h.nodup⟩
    · simpa [Nat.succ_le_iff] using hlimits.1
    · simp only [List.map_append, h.groups, JsSet.add, hlimits.2, if_false]
      simpa [moveOf] using hgroup

theorem settled_withinLimits {input : JudgeInput} : WithinLimits (settled world input) := by
  refine List.foldlRecOn (motive := WithinLimits) _ _ ⟨by simp, by simp, by simp⟩ fun st hst c hc => ?_
  obtain ⟨name0, j⟩ := c
  obtain ⟨-, -, hcandidate⟩ := mem_candidates.mp hc
  exact hst.tryMove (judgedOf_group (mayMove_of_candidate hcandidate).1)

/-! ## The night of one name -/

def judgedRecords (world : World) (input : JudgeInput) : JsMap String EngineMoveRecord :=
  (judgements world input).foldl (fun m (name0, r, _) => m.set name0 r) .empty

theorem get_judgedRecords {input : JudgeInput} {name0 : String} : (judgedRecords world input).get name0 =
      if name0 ∈ namesOf input ∧ input.served name0 = true then some (judgementOf world input name0).1
      else none := by
  let entries := ((namesOf input).filter input.served).map fun n => (n, (judgementOf world input n).1)
  have hfold : judgedRecords world input = entries.foldl (fun m e => m.set e.1 e.2) .empty := by
    simp only [judgedRecords, judgements, entries, List.foldl_map]
    rfl
  have hkeys : entries.map Prod.fst = (namesOf input).filter input.served := by
    simp [entries, Function.comp_def]
  rw [hfold]
  split
  · rename_i hin
    refine JsMap.get_foldl_set (hkeys ▸ nodup_namesOf.filter _) ?_ _
    exact List.mem_map.mpr ⟨name0, List.mem_filter.mpr hin, rfl⟩
  · rename_i hout
    rw [JsMap.get_foldl_set_of_notMem, JsMap.get_empty]
    rwa [hkeys, List.mem_filter]

def prune (r : EngineMoveRecord) : EngineMoveRecord := if isEmptyRecord r then noRecord else r

inductive NightOf (world : World) (input : JudgeInput) (name0 : String) (result : JudgeResult) : Prop
  | forgotten : input.served name0 = false → recordOf result.engines name0 = noRecord →
      movesOf result.moves name0 = [] → NightOf world input name0 result
  | settled (why : Option Why) : input.served name0 = true →
      recordOf result.engines name0 = prune { (judgementOf world input name0).1 with why } →
      movesOf result.moves name0 = [] → NightOf world input name0 result
  | moved (j : Judged) : input.served name0 = true → (judgementOf world input name0).2 = some j →
      recordOf result.engines name0 = movedRecord input.nowMs j (judgementOf world input name0).1 →
      movesOf result.moves name0 = [moveOf world input name0 j] → NightOf world input name0 result

theorem recordOf_judgeEngines {input : JudgeInput} {name0 : String} : recordOf (judgeEngines world input).engines name0 =
      prune (((settled world input).engines.get name0).getD noRecord) := by
  have hget : recordOf (judgeEngines world input).engines name0 =
      (((settled world input).engines.get name0).filter fun r => !isEmptyRecord r).getD noRecord := by
    have hfilter := JsMap.get_filter (settled world input).engines (fun _ r => !isEmptyRecord r) name0
    rw [← hfilter]
    simp only [judgeEngines, recordOf, engineMoveRecord]
    split
    · rename_i hempty
      rw [Option.bind_none, JsMap.get, List.isEmpty_iff.mp hempty]
      rfl
    · rfl
  rw [hget]
  cases (settled world input).engines.get name0 with
  | none => rfl
  | some r =>
    simp only [Option.filter_some, Option.getD_some, prune]
    cases isEmptyRecord r <;> rfl

theorem judgementOf_of_notMem {input : JudgeInput} {name0 : String} (h : name0 ∉ namesOf input) :
    judgementOf world input name0 = (noRecord, none) := by
  rw [mem_namesOf, not_or, not_or] at h
  obtain ⟨hprevious, hcurrent, hpins⟩ := h
  have hrecord : recordOf input.previous name0 = noRecord := by
    rw [recordOf, engineMoveRecord]
    cases heq : input.previous with
    | none => rfl
    | some m =>
      have hnone : m.get name0 = none := by
        rw [heq] at hprevious
        exact Option.eq_none_iff_forall_ne_some.mpr fun v hv => hprevious (JsMap.mem_keys.mpr ⟨v, hv⟩)
      simp [hnone]
  have hjudged : judgedOf world input name0 = none := by
    rw [judgedOf, Option.map_eq_none_iff]
    exact Option.eq_none_iff_forall_ne_some.mpr fun v hv => hcurrent (JsMap.mem_keys.mpr ⟨v, hv⟩)
  have hpin : (parsePins input.pins).get name0 = none :=
    Option.eq_none_iff_forall_ne_some.mpr fun v hv => hpins (JsMap.mem_keys.mpr ⟨v, hv⟩)
  rw [judgementOf, hrecord, hjudged, hpin]
  rfl

theorem prune_movedRecord {r : EngineMoveRecord} : prune (movedRecord nowMs j r) = movedRecord nowMs j r := by
  simp [prune, isEmptyRecord, movedRecord, Judged.nextEpoch]

/-- **What a night can do to a name**, whatever it does to the others. -/
theorem nightOf_judgeEngines (world : World) (input : JudgeInput) (name0 : String) :
    NightOf world input name0 (judgeEngines world input) := by
  have hget := @get_judgedRecords world input name0
  have hrecord := @recordOf_judgeEngines world input name0
  have htried := foldl_tryMove world input (@nodup_candidates world input)
    ⟨judgedRecords world input, [], []⟩ name0
  by_cases hin : name0 ∈ namesOf input ∧ input.served name0 = true
  · rw [if_pos hin] at hget
    cases htried with
    | untouched hengines hmoves =>
      have hsettled : (settled world input).engines.get name0 = _ := hengines.trans hget
      rw [hsettled, Option.getD_some] at hrecord
      exact .settled _ hin.2 hrecord hmoves
    | kept j hmem hengines hmoves =>
      have hsettled : (settled world input).engines.get name0 = _ := hengines
      rw [hsettled, hget, Option.getD_some, Option.getD_some] at hrecord
      exact .settled _ hin.2 hrecord hmoves
    | moved j hmem hengines hmoves =>
      have hsettled : (settled world input).engines.get name0 = _ := hengines
      rw [hsettled, hget, Option.getD_some, Option.getD_some, prune_movedRecord] at hrecord
      exact .moved j hin.2 (mem_candidates.mp hmem).2.2 hrecord hmoves
  · -- no candidate has the name, and no record is kept for it
    rw [if_neg hin] at hget
    have hnot : name0 ∉ (candidates world input).map Prod.fst := by
      intro hmem
      obtain ⟨⟨n, j⟩, hc, rfl⟩ := List.mem_map.mp hmem
      exact hin ⟨(mem_candidates.mp hc).1, (mem_candidates.mp hc).2.1⟩
    obtain ⟨hengines, hmoves⟩ := foldl_tryMove_other world input hnot
      ⟨judgedRecords world input, [], []⟩
    have hsettled : (settled world input).engines.get name0 = none := hengines.trans hget
    rw [hsettled, Option.getD_none] at hrecord
    cases hserved : input.served name0 with
    | false => exact .forgotten hserved hrecord hmoves
    | true =>
      have hname : name0 ∉ namesOf input := fun hname => hin ⟨hname, hserved⟩
      refine .settled none hserved ?_ hmoves
      rw [hrecord, judgementOf_of_notMem hname]
      rfl

end

end EngineMoves
