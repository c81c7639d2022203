-- SUMMARY: Point lookups over all partitions: when a fan-out is decided, and what asking one partition first changes.
import Mathlib.Data.List.Forall2
import Mathlib.Data.List.Nodup
import Mathlib.Data.List.Perm.Subperm
import Mathlib.Data.List.Range

/-!
# Fan-outs

A lookup asks every partition at once and is answered as soon as its answer is decided.
A routing hint asks one partition first, and the others only where that one holds
nothing.
-/

namespace FanOut

/-! ## Deciding -/

/-- How a fan-out picks its answer: the lowest partition's, or the only one's. -/
inductive FanOutAnswer where
  | lowest
  | sole
deriving DecidableEq

/-- How a call settles: with what it found, or null, or with an error. -/
inductive Outcome (T E : Type) where
  | value (found : Option T)
  | error (e : E)
deriving DecidableEq

abbrev Slot (T E : Type) : Type := Option (Outcome T E)

variable {T E : Type}

/-- A fan-out under way: its slots, how many have settled, and its own settlement. -/
structure Deciding (T E : Type) where
  slots : List (Slot T E)
  settled : ℕ
  decided : Option (Outcome T E)

/-- The lowest slot with a card or an error, unless a slot before it is pending. -/
def scanLowest : List (Slot T E) → Option (Outcome T E)
  | [] => none
  -- An earlier partition that has not answered could still be the one that wins.
  | none :: _ => none
  | some (.error e) :: _ => some (.error e)
  | some (.value (some v)) :: _ => some (.value (some v))
  | some (.value none) :: slots => scanLowest slots

def scanSole : List (Slot T E) → Option (Outcome T E)
  | [] => none
  | some (.value (some v)) :: _ => some (.value (some v))
  | _ :: slots => scanSole slots

def scan : FanOutAnswer → List (Slot T E) → Option (Outcome T E)
  | .lowest => scanLowest
  | .sole => scanSole

def failed : List (Slot T E) → Option (Outcome T E)
  | [] => none
  | some (.error e) :: _ => some (.error e)
  | _ :: slots => failed slots

def decide (rule : FanOutAnswer) (d : Deciding T E) : Deciding T E :=
  if d.decided.isSome then d
  else
    match scan rule d.slots with
    | some answer => { d with decided := some answer }
    | none =>
      if d.settled < d.slots.length then d
      else { d with decided := some ((failed d.slots).getD (.value none)) }

/-- Call `i` settles. -/
def settle (rule : FanOutAnswer) (runs : List (Outcome T E)) (d : Deciding T E) (i : ℕ) : Deciding T E :=
  decide rule { d with slots := d.slots.set i runs[i]?, settled := d.settled + 1 }

def starting (rule : FanOutAnswer) (n : ℕ) : Deciding T E :=
  decide rule { slots := List.replicate n none, settled := 0, decided := none }

/-- What the fan-out over `runs` has settled to once the calls `order` have settled, in
that order. -/
def firstDecided (rule : FanOutAnswer) (runs : List (Outcome T E)) (order : List ℕ) : Option (Outcome T E) :=
  (order.foldl (settle rule runs) (starting rule runs.length)).decided

/-! ## Answers -/

/-- The answer of a list of outcomes: its lowest card or error, or null. -/
def lowestAnswer : List (Outcome T E) → Outcome T E
  | [] => .value none
  | .value none :: runs => lowestAnswer runs
  | outcome :: _ => outcome

/-- The first card, or else the lowest error, or null. -/
def soleAnswer (runs : List (Outcome T E)) : Outcome T E :=
  ((scanSole (runs.map some)).or (failed (runs.map some))).getD (.value none)

def answerOf : FanOutAnswer → List (Outcome T E) → Outcome T E
  | .lowest => lowestAnswer
  | .sole => soleAnswer

/-- A rule's own assumption: under `sole` no two outcomes are cards. -/
def Admits (rule : FanOutAnswer) (runs : List (Outcome T E)) : Prop :=
  rule = .sole → ∀ (i j : ℕ) (v w : T), runs[i]? = some (Outcome.value (some v)) → runs[j]? = some (Outcome.value (some w)) →
    i = j

/-- Slots of calls that are pending, or settled as they do. -/
def Settling (slots : List (Slot T E)) (runs : List (Outcome T E)) : Prop :=
  List.Forall₂ (fun slot outcome => slot = none ∨ slot = some outcome) slots runs

variable {slots : List (Slot T E)}

theorem scanLowest_of_settling {runs : List (Outcome T E)}
    (h : Settling slots runs) {answer : Outcome T E} (hscan : scanLowest slots = some answer) :
    lowestAnswer runs = answer := by
  induction h with
  | nil => cases hscan
  | @cons slot outcome slots runs hslot _ ih =>
    rcases hslot with rfl | rfl
    · cases hscan
    · cases outcome with
      | error e => exact Option.some.inj hscan
      | value found =>
        cases found with
        | some v => exact Option.some.inj hscan
        | none => exact ih hscan

theorem lowestAnswer_of_all (runs : List (Outcome T E)) :
    ((scanLowest (runs.map some)).or (some ((failed (runs.map some)).getD (.value none)))) = some (lowestAnswer runs) := by
  induction runs with
  | nil => rfl
  | cons outcome runs ih =>
    cases outcome with
    | error e => rfl
    | value found =>
      cases found with
      | some v => rfl
      | none => exact ih

theorem scanSole_eq_some {answer : Outcome T E}
    (h : scanSole slots = some answer) :
    ∃ (i : ℕ) (v : T), slots[i]? = some (some (Outcome.value (some v))) ∧ answer = .value (some v) := by
  induction slots with
  | nil => cases h
  | cons slot slots ih =>
    unfold scanSole at h
    split at h
    · cases h
    · rename_i v _ heq
      cases heq
      exact ⟨0, v, rfl, (Option.some.inj h).symm⟩
    · rename_i heq
      cases heq
      obtain ⟨i, v, hslot, hanswer⟩ := ih h
      exact ⟨i + 1, v, hslot, hanswer⟩

theorem exists_scanSole {i : ℕ} {v : T}
    (h : slots[i]? = some (some (Outcome.value (some v)))) : (scanSole slots).isSome = true := by
  induction slots generalizing i with
  | nil => cases h
  | cons slot slots ih =>
    unfold scanSole
    split
    · rename_i heq
      cases heq
    · rfl
    · rename_i hcard heq
      cases heq
      cases i with
      | zero => exact absurd (Option.some.inj h) (hcard v)
      | succ i => exact ih h

theorem answerOf_of_scan {rule : FanOutAnswer} {runs : List (Outcome T E)}
    (h : Settling slots runs) (hadmits : Admits rule runs) {answer : Outcome T E}
    (hscan : scan rule slots = some answer) : answerOf rule runs = answer := by
  cases rule with
  | lowest => exact scanLowest_of_settling h hscan
  | sole =>
    obtain ⟨i, v, hslot, rfl⟩ := scanSole_eq_some hscan
    have hcard : runs[i]? = some (Outcome.value (some v)) := by
      obtain ⟨hi, hslot⟩ := List.getElem?_eq_some_iff.mp hslot
      have hrun := (List.forall₂_iff_get.mp h).2 i hi (by rw [← h.length_eq]; exact hi)
      simp only [List.get_eq_getElem, hslot, reduceCtorEq, false_or, Option.some.injEq] at hrun
      exact List.getElem?_eq_some_iff.mpr ⟨h.length_eq ▸ hi, hrun.symm⟩
    have hall : (runs.map some)[i]? = some (some (Outcome.value (some v))) := by
      rw [List.getElem?_map, hcard]
      rfl
    obtain ⟨answer, hanswer⟩ := Option.isSome_iff_exists.mp (exists_scanSole hall)
    obtain ⟨j, w, hslot', rfl⟩ := scanSole_eq_some hanswer
    rw [List.getElem?_map] at hslot'
    obtain ⟨outcome, hrun, hw⟩ := Option.map_eq_some_iff.mp hslot'
    cases hw
    -- There is one card only, so the first one found is the first of all.
    cases hadmits rfl i j v w hcard hrun
    cases hcard.symm.trans hrun
    rw [answerOf, soleAnswer, hanswer]
    rfl

theorem answerOf_of_all (rule : FanOutAnswer) (runs : List (Outcome T E)) :
    (scan rule (runs.map some)).or (some ((failed (runs.map some)).getD (.value none))) = some (answerOf rule runs) := by
  cases rule with
  | lowest => exact lowestAnswer_of_all runs
  | sole =>
    rw [answerOf, soleAnswer, scan]
    cases scanSole (runs.map some) with
    | none => rfl
    | some answer => rfl

/-! ## Settling in any order -/

section Orders

variable {rule : FanOutAnswer} {runs : List (Outcome T E)} {d : Deciding T E} {order : List ℕ}

/-- A fan-out whose calls `order` have settled: undecided only while its answer depends
on a pending call. -/
structure Under (rule : FanOutAnswer) (runs : List (Outcome T E)) (order : List ℕ)
    (d : Deciding T E) : Prop where
  length : d.slots.length = runs.length
  slots : ∀ p < runs.length, d.slots[p]? = some (if p ∈ order then runs[p]? else none)
  settled : d.settled = order.length
  decided : ∀ answer, d.decided = some answer → answerOf rule runs = answer
  all : order.length = runs.length → d.decided.isSome = true

theorem settling_of_slots (hlength : slots.length = runs.length)
    (hslots : ∀ p < runs.length, slots[p]? = some (if p ∈ order then runs[p]? else none)) :
    Settling slots runs := by
  refine List.forall₂_iff_get.mpr ⟨hlength, fun p hp hp' => ?_⟩
  have hslot := hslots p hp'
  rw [List.getElem?_eq_getElem hp] at hslot
  rw [List.get_eq_getElem, List.get_eq_getElem, Option.some.inj hslot]
  split_ifs
  · exact Or.inr (List.getElem?_eq_getElem hp')
  · exact Or.inl rfl

theorem slots_of_all (hnodup : order.Nodup)
    (hlt : ∀ p ∈ order, p < runs.length) (hall : order.length = runs.length)
    (hlength : slots.length = runs.length)
    (hslots : ∀ p < runs.length, slots[p]? = some (if p ∈ order then runs[p]? else none)) :
    slots = runs.map some := by
  have hperm : order.Perm (List.range runs.length) :=
    (List.subperm_of_subset hnodup fun p hp => List.mem_range.mpr (hlt p hp)).perm_of_length_le
      (by rw [List.length_range, hall])
  refine List.ext_getElem? fun p => ?_
  by_cases hp : p < runs.length
  · rw [hslots p hp, if_pos (hperm.mem_iff.mpr (List.mem_range.mpr hp)), List.getElem?_map, List.getElem?_eq_getElem hp]
    rfl
  · rw [List.getElem?_eq_none (by omega), List.getElem?_eq_none (by rw [List.length_map]; omega)]

theorem Under.decide (hadmits : Admits rule runs) (hnodup : order.Nodup)
    (hlt : ∀ p ∈ order, p < runs.length) (hlength : d.slots.length = runs.length)
    (hslots : ∀ p < runs.length, d.slots[p]? = some (if p ∈ order then runs[p]? else none))
    (hsettled : d.settled = order.length)
    (hdecided : ∀ answer, d.decided = some answer → answerOf rule runs = answer) :
    Under rule runs order (decide rule d) := by
  unfold FanOut.decide
  by_cases hdone : d.decided.isSome = true
  · rw [if_pos hdone]
    exact ⟨hlength, hslots, hsettled, hdecided, fun _ => hdone⟩
  rw [if_neg hdone]
  split
  · rename_i answer hscan
    refine ⟨hlength, hslots, hsettled, fun answer' h => ?_, fun _ => rfl⟩
    cases h
    exact answerOf_of_scan (settling_of_slots hlength hslots) hadmits hscan
  · rename_i hscan
    split_ifs with hpending
    · refine ⟨hlength, hslots, hsettled, hdecided, fun hall => ?_⟩
      omega
    · have hle : order.length ≤ runs.length := by
        have hsub := List.subperm_of_subset hnodup fun p hp => List.mem_range.mpr (hlt p hp)
        simpa using hsub.length_le
      have hall := slots_of_all hnodup hlt (by omega) hlength hslots
      refine ⟨hlength, hslots, hsettled, fun answer h => ?_, fun _ => rfl⟩
      have hanswer := answerOf_of_all rule runs
      rw [← hall, hscan] at hanswer
      cases h
      exact (Option.some.inj hanswer).symm

theorem Under.settle (h : Under rule runs order d) (hadmits : Admits rule runs) {i : ℕ}
    (hnodup : (order ++ [i]).Nodup) (hlt : ∀ p ∈ order ++ [i], p < runs.length) :
    Under rule runs (order ++ [i]) (settle rule runs d i) := by
  refine Under.decide hadmits hnodup hlt ?_ (fun p hp => ?_) ?_ h.decided
  · simp only [List.length_set, h.length]
  · simp only [List.getElem?_set, h.length, List.mem_append, List.mem_singleton]
    by_cases hi : i = p
    · subst hi
      simp [hp]
    · rw [if_neg hi, h.slots p hp]
      simp [Ne.symm hi]
  · simp only [h.settled, List.length_append, List.length_singleton]

/-- **A fan-out's answer depends on the outcomes only.** Whatever calls have settled, in
whatever order, it is undecided or has settled to the answer of its outcomes; once all
have settled, it has. -/
theorem firstDecided_spec (hadmits : Admits rule runs) (hnodup : order.Nodup)
    (hlt : ∀ p ∈ order, p < runs.length) :
    (firstDecided rule runs order = none ∨ firstDecided rule runs order = some (answerOf rule runs)) ∧
    (order.length = runs.length → firstDecided rule runs order = some (answerOf rule runs)) := by
  have hunder : Under rule runs order (order.foldl (FanOut.settle rule runs)
      (starting rule runs.length)) := by
    induction order using List.reverseRecOn with
    | nil =>
      have hstart : Under rule runs [] (starting rule runs.length) := by
        refine Under.decide hadmits List.nodup_nil (fun p hp => absurd hp List.not_mem_nil)
          List.length_replicate (fun p hp => ?_) rfl (fun answer h => by cases h)
        simp [hp]
      exact hstart
    | append_singleton order i ih =>
      rw [List.foldl_append]
      refine (ih (List.nodup_append.mp hnodup).1 fun p hp => ?_).settle hadmits hnodup hlt
      exact hlt p (List.mem_append_left _ hp)
  refine ⟨?_, fun hall => ?_⟩
  · unfold firstDecided
    cases hdecided : (order.foldl (FanOut.settle rule runs) (starting rule runs.length)).decided with
    | none => exact Or.inl rfl
    | some answer => exact Or.inr (congrArg some (hunder.decided answer hdecided).symm)
  · obtain ⟨answer, hdecided⟩ := Option.isSome_iff_exists.mp (hunder.all hall)
    rw [firstDecided, hdecided, hunder.decided answer hdecided]

end Orders

/-! ## Hints -/

section Hints

variable {rule : FanOutAnswer} {n : ℕ} {run : ℕ → Outcome T E} {hint : Option ℕ}

/-- The fan-out over all `n` partitions. -/
def firstNonNull (rule : FanOutAnswer) (n : ℕ) (run : ℕ → Outcome T E) (order : List ℕ) : Option (Outcome T E) :=
  firstDecided rule ((List.range n).map run) order

/-- The hinted partition asked alone, and the others once it has answered null. -/
def hinted (rule : FanOutAnswer) (n : ℕ) (hint : Option ℕ) (run : ℕ → Outcome T E)
    (order : List ℕ) : Option (Outcome T E) :=
  match hint with
  | none => firstNonNull rule n run order
  | some h =>
    if n ≤ h then firstNonNull rule n run order
    else
      match run h with
      | .value none => firstDecided rule (((List.range n).filter (· ≠ h)).map run) order
      | first => some first

/-- Every call of `m` has settled, in the order `order`. -/
def Settles (m : ℕ) (order : List ℕ) : Prop := order.Perm (List.range m)

theorem firstDecided_of_settles {runs : List (Outcome T E)} {order : List ℕ}
    (hadmits : Admits rule runs) (h : Settles runs.length order) :
    firstDecided rule runs order = some (answerOf rule runs) := by
  have hspec := firstDecided_spec hadmits (h.nodup_iff.mpr List.nodup_range)
    fun p hp => List.mem_range.mp (h.subset hp)
  exact hspec.2 (by rw [h.length_eq, List.length_range])

/-- Only a partition that holds a key answers it with a card. -/
def HeldBy (holds : ℕ → Prop) (run : ℕ → Outcome T E) : Prop :=
  ∀ p v, run p = .value (some v) → holds p

/-- A hint is the lowest partition holding the key it was built from; where none holds
it, any. -/
def HintExact (n : ℕ) (holds : ℕ → Prop) (hint : Option ℕ) : Prop :=
  ∀ h, hint = some h → h < n → ∀ p < n, holds p → holds h ∧ h ≤ p

theorem lowestAnswer_append {before after : List (Outcome T E)}
    (h : ∀ o ∈ before, o = .value none) :
    lowestAnswer (before ++ after) = lowestAnswer after := by
  induction before with
  | nil => rfl
  | cons o before ih =>
    cases h o List.mem_cons_self
    exact ih fun o ho => h o (List.mem_cons_of_mem _ ho)

theorem lowestAnswer_cons {o : Outcome T E} (h : o ≠ .value none) (after : List (Outcome T E)) :
    lowestAnswer (o :: after) = o := by
  cases o with
  | error e => rfl
  | value found =>
    cases found with
    | some v => rfl
    | none => exact absurd rfl h

theorem lowestAnswer_filter {ps : List ℕ} {keep : ℕ → Bool}
    (h : ∀ p ∈ ps, keep p = false → run p = .value none) :
    lowestAnswer ((ps.filter keep).map run) = lowestAnswer (ps.map run) := by
  induction ps with
  | nil => rfl
  | cons p ps ih =>
    have ih' := ih fun q hq => h q (List.mem_cons_of_mem p hq)
    cases hp : keep p with
    | true =>
      rw [List.filter_cons_of_pos hp, List.map_cons, List.map_cons]
      cases run p with
      | error e => rfl
      | value found =>
        cases found with
        | some v => rfl
        | none => exact ih'
    | false =>
      rw [List.filter_cons_of_neg (by simp [hp]), List.map_cons, h p List.mem_cons_self hp]
      exact ih'

theorem scanSole_filter {ps : List ℕ} {keep : ℕ → Bool}
    (h : ∀ p ∈ ps, keep p = false → run p = .value none) :
    scanSole (((ps.filter keep).map run).map some) = scanSole ((ps.map run).map some) ∧
      failed (((ps.filter keep).map run).map some) = failed ((ps.map run).map some) := by
  induction ps with
  | nil => exact ⟨rfl, rfl⟩
  | cons p ps ih =>
    obtain ⟨hscan, hfailed⟩ := ih fun q hq => h q (List.mem_cons_of_mem p hq)
    cases hp : keep p with
    | true =>
      rw [List.filter_cons_of_pos hp, List.map_cons, List.map_cons, List.map_cons, List.map_cons]
      cases run p with
      | error e => exact ⟨hscan, rfl⟩
      | value found =>
        cases found with
        | some v => exact ⟨rfl, hfailed⟩
        | none => exact ⟨hscan, hfailed⟩
    | false =>
      rw [List.filter_cons_of_neg (by simp [hp]), List.map_cons, List.map_cons, h p List.mem_cons_self hp]
      exact ⟨hscan, hfailed⟩

theorem answerOf_filter (rule : FanOutAnswer) (ps : List ℕ) (keep : ℕ → Bool)
    (h : ∀ p ∈ ps, keep p = false → run p = .value none) :
    answerOf rule ((ps.filter keep).map run) = answerOf rule (ps.map run) := by
  cases rule with
  | lowest => exact lowestAnswer_filter h
  | sole => rw [answerOf, soleAnswer, soleAnswer, (scanSole_filter h).1, (scanSole_filter h).2]

theorem range_split {h : ℕ} (hh : h < n) : (List.range n).map run = (List.range h).map run ++ run h ::
      (List.range' (h + 1) (n - (h + 1))).map run := by
  have htail : h :: List.range' (h + 1) (n - (h + 1)) = List.range' (0 + h) (n - h) := by
    have hlen : n - h = n - (h + 1) + 1 := by omega
    rw [Nat.zero_add, hlen, List.range'_succ]
  have hrange : List.range n = List.range h ++ h :: List.range' (h + 1) (n - (h + 1)) := by
    rw [htail, List.range_eq_range', List.range_eq_range', List.range'_append_1]
    congr 1
    omega
  rw [hrange, List.map_append, List.map_cons]

/-- Under `sole`, no card means the lowest error. -/
theorem soleAnswer_of_null {before after : List (Outcome T E)} {e : E}
    (hbefore : ∀ o ∈ before, o = .value none)
    (hafter : scanSole (after.map some) = none) :
    soleAnswer (before ++ .error e :: after) = .error e := by
  have hscan : scanSole ((before ++ .error e :: after).map some) = none := by
    induction before with
    | nil => exact hafter
    | cons o before ih =>
      cases hbefore o List.mem_cons_self
      exact ih fun o ho => hbefore o (List.mem_cons_of_mem _ ho)
  have hfailed : failed ((before ++ .error e :: after).map some) = some (.error e) := by
    clear hscan
    induction before with
    | nil => rfl
    | cons o before ih =>
      cases hbefore o List.mem_cons_self
      exact ih fun o ho => hbefore o (List.mem_cons_of_mem _ ho)
  rw [soleAnswer, hscan, hfailed]
  rfl

/-- The partitions asked by a fan-out behind a hint. -/
def askedBehind (n : ℕ) (hint : Option ℕ) : List ℕ := (List.range n).filter fun p => hint ≠ some p

variable {holds : ℕ → Prop}

theorem answerOf_hinted (hholds : HeldBy holds run) (hexact : HintExact n holds hint)
    (hsole : rule = .sole → ∀ p < n, ∀ q < n, holds p → holds q → p = q) {h : ℕ}
    (hhint : hint = some h) (hh : h < n) (hfirst : run h ≠ .value none)
    (hbelow : ∀ q < h, ∀ e, run q ≠ .error e) :
    answerOf rule ((List.range n).map run) = run h := by
  have hnull : ∀ o ∈ (List.range h).map run, o = .value none := by
    intro o ho
    obtain ⟨q, hq, rfl⟩ := List.mem_map.mp ho
    have hlt := List.mem_range.mp hq
    cases hrun : run q with
    | error e => exact absurd hrun (hbelow q hlt e)
    | value found =>
      cases found with
      | none => rfl
      | some v =>
        -- A card below would be the lowest holder itself.
        have hle := (hexact h hhint hh q (hlt.trans hh) (hholds q v hrun)).2
        omega
  rw [range_split hh]
  cases rule with
  | lowest => exact (lowestAnswer_append hnull).trans (lowestAnswer_cons hfirst _)
  | sole =>
    cases hrun : run h with
    | error e =>
      refine soleAnswer_of_null hnull ?_
      cases hscan : scanSole (((List.range' (h + 1) (n - (h + 1))).map run).map some) with
      | none => rfl
      | some answer =>
        obtain ⟨i, v, hslot, -⟩ := scanSole_eq_some hscan
        rw [List.map_map, List.getElem?_map] at hslot
        obtain ⟨p, hp, hcard⟩ := Option.map_eq_some_iff.mp hslot
        have hrange := List.mem_range'_1.mp (List.mem_of_getElem? hp)
        have hholder := hholds p v (Option.some.inj hcard)
        have hhit := hexact h hhint hh p (by omega) hholder
        have heq := hsole rfl h hh p (by omega) hhit.1 hholder
        omega
    | value found =>
      cases found with
      | none => exact absurd hrun hfirst
      | some v =>
        have hscan : scanSole (((List.range h).map run ++ .value (some v) ::
            (List.range' (h + 1) (n - (h + 1))).map run).map some) = some (.value (some v)) := by
          generalize (List.range h).map run = before at hnull
          induction before with
          | nil => rfl
          | cons o before ih =>
            cases hnull o List.mem_cons_self
            exact ih fun o ho => hnull o (List.mem_cons_of_mem _ ho)
        rw [answerOf, soleAnswer, hscan]
        rfl

theorem admits_of_heldBy {ps : List ℕ} (hnodup : ps.Nodup) (hlt : ∀ p ∈ ps, p < n)
    (hholds : HeldBy holds run)
    (hsole : rule = .sole → ∀ p < n, ∀ q < n, holds p → holds q → p = q) :
    Admits rule (ps.map run) := by
  intro hrule i j v w hi hj
  rw [List.getElem?_map] at hi hj
  obtain ⟨p, hp, hpv⟩ := Option.map_eq_some_iff.mp hi
  obtain ⟨q, hq, hqw⟩ := Option.map_eq_some_iff.mp hj
  have heq := hsole hrule p (hlt p (List.mem_of_getElem? hp)) q (hlt q (List.mem_of_getElem? hq))
    (hholds p v hpv) (hholds q w hqw)
  subst heq
  obtain ⟨hi, hp⟩ := List.getElem?_eq_some_iff.mp hp
  obtain ⟨hj, hq⟩ := List.getElem?_eq_some_iff.mp hq
  exact (hnodup.getElem_inj_iff).mp (hp.trans hq.symm)

theorem hinted_of_first {h : ℕ} (hhint : hint = some h) (hh : h < n)
    (hfirst : run h ≠ .value none) (order : List ℕ) :
    hinted rule n hint run order = some (run h) := by
  subst hhint
  rw [hinted, if_neg (Nat.not_le.mpr hh)]
  split
  · rename_i hnull
    exact absurd hnull hfirst
  · rfl

/-- **A lookup's answer is its outcomes' answer.** A fan-out under `lowest` settles, in
whatever order its calls do, to the first outcome that is no null, never to another
before; and a hinted lookup settles as the plain fan-out does, unless a partition below
the hinted one fails and the hinted one does not answer null: then the hinted lookup is
answered by that one alone. -/
theorem lookup_settles (hholds : HeldBy holds run) (hexact : HintExact n holds hint)
    (hsole : rule = .sole → ∀ p < n, ∀ q < n, holds p → holds q → p = q) :
    (∀ (runs : List (Outcome T E)) (order : List ℕ), order.Nodup →
        (∀ p ∈ order, p < runs.length) →
      (firstDecided .lowest runs order = none ∨
        firstDecided .lowest runs order = some (lowestAnswer runs)) ∧
      (order.length = runs.length →
        firstDecided .lowest runs order = some (lowestAnswer runs))) ∧
    (∀ (before after : List (Outcome T E)) (first : Outcome T E),
        (∀ o ∈ before, o = .value none) → first ≠ .value none →
      lowestAnswer (before ++ first :: after) = first) ∧
    (∀ runs : List (Outcome T E), lowestAnswer runs = .value none ↔ ∀ o ∈ runs, o = .value none) ∧
    ∀ order order', Settles n order → Settles (askedBehind n hint).length order' →
      ((∀ h, hint = some h → h < n → run h ≠ .value none → ∀ q < h, ∀ e, run q ≠ .error e) →
        hinted rule n hint run order' = firstNonNull rule n run order) ∧
      ∀ h, hint = some h → h < n → run h ≠ .value none →
        hinted rule n hint run order' = some (run h) := by
  have hadmits : Admits rule ((List.range n).map run) :=
    admits_of_heldBy List.nodup_range (fun p hp => List.mem_range.mp hp) hholds hsole
  refine ⟨fun runs order hnodup hlt => firstDecided_spec (fun h => nomatch h) hnodup hlt,
    fun before after first hbefore hfirst => ?_, fun runs => ?_, fun order order' horder horder' =>
    ⟨fun hbelow => ?_, fun h hhint hh hfirst => hinted_of_first hhint hh hfirst order'⟩⟩
  · rw [lowestAnswer_append hbefore, lowestAnswer_cons hfirst]
  · refine ⟨fun hnull => ?_, fun hall => ?_⟩
    · induction runs with
      | nil => exact fun _ ho => absurd ho List.not_mem_nil
      | cons o runs ih =>
        by_cases ho : o = .value none
        · subst ho
          exact List.forall_mem_cons.mpr ⟨rfl, ih hnull⟩
        · rw [lowestAnswer_cons ho] at hnull
          exact absurd hnull ho
    · rw [← List.append_nil runs, lowestAnswer_append hall]
      rfl
  · have hplain : firstNonNull rule n run order = some (answerOf rule ((List.range n).map run)) :=
      firstDecided_of_settles hadmits (by rwa [List.length_map, List.length_range])
    by_cases hroute : ∃ h, hint = some h ∧ h < n
    · obtain ⟨h, rfl, hh⟩ := hroute
      by_cases hfirst : run h = .value none
      · -- The others are asked, and a null changes no fan-out.
        have hothers : askedBehind n (some h) = (List.range n).filter (· ≠ h) :=
          List.filter_congr fun p _ => by simp [eq_comm]
        have hanswer : answerOf rule (((List.range n).filter (· ≠ h)).map run) =
            answerOf rule ((List.range n).map run) :=
          answerOf_filter rule _ _ fun p _ hp => by
            have hph : p = h := by simpa using hp
            rw [hph, hfirst]
        have hadmits' : Admits rule (((List.range n).filter (· ≠ h)).map run) :=
          admits_of_heldBy (List.nodup_range.filter _)
            (fun p hp => List.mem_range.mp (List.mem_filter.mp hp).1) hholds hsole
        rw [hothers] at horder'
        rw [hplain, hinted, if_neg (Nat.not_le.mpr hh), hfirst, ← hanswer]
        exact firstDecided_of_settles hadmits' (by rwa [List.length_map])
      · rw [hinted_of_first rfl hh hfirst, hplain,
          answerOf_hinted hholds hexact hsole rfl hh hfirst (hbelow h rfl hh hfirst)]
    · have hasked : askedBehind n hint = List.range n := by
        refine List.filter_eq_self.mpr fun p hp => ?_
        simp only [ne_eq, decide_eq_true_eq]
        exact fun heq => hroute ⟨p, heq, List.mem_range.mp hp⟩
      have hunrouted : hinted rule n hint run order' = firstNonNull rule n run order' := by
        cases hint with
        | none => rfl
        | some h => exact if_pos (Nat.not_lt.mp fun hh => hroute ⟨h, rfl, hh⟩)
      rw [hasked, List.length_range] at horder'
      rw [hunrouted, hplain]
      exact firstDecided_of_settles hadmits (by rwa [List.length_map, List.length_range])

end Hints

/-! ## A failing partition below the hinted one -/

/-- Two partitions: the first fails, or is empty, and the second holds the card. -/
def secondHolds (fails : Bool) (p : ℕ) : Outcome String String :=
  if p = 1 then .value (some "card") else if fails then .error "timeout" else .value none

theorem heldBy_second (fails : Bool) : HeldBy (· = 1) (secondHolds fails) := by
  intro p v h
  unfold secondHolds at h
  split_ifs at h with hp
  · exact hp
  · cases h

theorem hintExact_second : HintExact 2 (· = 1) (some 1) := by
  rintro h hhint - p - hp
  cases hhint
  exact ⟨rfl, hp.ge⟩

theorem lookup_settles_second :
    hinted .lowest 2 (some 1) (secondHolds false) [0] =
      firstNonNull .lowest 2 (secondHolds false) [1, 0] := by
  refine ((lookup_settles (heldBy_second false) hintExact_second (fun h => by cases h)).2.2.2
    [1, 0] [0] (by unfold Settles; decide) (by unfold Settles; decide)).1 fun h _ _ _ q hq e => ?_
  unfold secondHolds
  split_ifs <;> simp_all

/-- The hinted partition answers the card the plain fan-out does not: the partition below
it failed. -/
theorem hinted_ne_fanOut : HeldBy (· = 1) (secondHolds true) ∧ HintExact 2 (· = 1) (some 1) ∧
    hinted .lowest 2 (some 1) (secondHolds true) [0] ≠
      firstNonNull .lowest 2 (secondHolds true) [1, 0] :=
  ⟨heldBy_second true, hintExact_second, by decide +kernel⟩

end FanOut
