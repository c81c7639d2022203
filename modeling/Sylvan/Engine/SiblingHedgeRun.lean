-- SUMMARY: Every interleaving of a hedged call: one settlement, whose it is, at most two hedges, and the unhedged count.
import Sylvan.Data.Replace
import Sylvan.Engine.SiblingHedge

/-!
# Hedged calls over runs

What one call keeps is stated as one invariant and proved for each of the call's own
functions. The phase's count of unhedged calls is the number of calls that are out and
not asked again.
-/

namespace SiblingHedge

variable {ε α : Type} {tuning : Tuning} {phase phase' : Phase} {call call' : Call ε α}

/-! ## Where things stand -/

def Original.isLanded : Original ε α → Bool
  | .landed _ | .heard _ => true
  | _ => false

def Hedge.pending (hedge : Hedge ε α) : Bool :=
  match hedge.state with
  | .queued | .notSent | .out => true
  | _ => false

def Hedge.answered (hedge : Hedge ε α) : Bool :=
  match hedge.state with
  | .answered _ => true
  | _ => false

def Hedge.same (hedge : Hedge ε α) : Bool := hedge.target.isNone
def Hedge.cross (hedge : Hedge ε α) : Bool := hedge.target.isSome

def Hedge.starts (hedge : Hedge ε α) : Bool :=
  match hedge.state with
  | .queued => hedge.next.isSome
  | _ => false

/-- What a call's fields say of each other, its outcome's promptness apart. -/
structure Call.Shape (call : Call ε α) : Prop where
  outcomes_eq : call.outcomes.length = if call.settled then 1 else 0
  landed_eq : call.landed = call.original.isLanded
  timers_off : call.landed = true ∨ call.settled = true → call.timer = false ∧ call.crossTimer = none
  queued_idle : call.original = .queued → call.timer = false ∧ call.asked = false ∧ call.settled = false
  unasked : call.asked = false → call.hedges = [] ∧ call.crossTimer = none
  out_eq : call.out = call.hedges.countP Hedge.pending + call.hedges.countP Hedge.answered
  same_le : call.hedges.countP Hedge.same ≤ 1
  cross_le : call.hedges.countP Hedge.cross + (if call.crossTimer.isSome then 1 else 0) + call.hedges.countP Hedge.starts ≤ 1
  value_whose : ∀ outcome ∈ call.outcomes, ∀ value, outcome.result = .ok value →
    call.original = .heard (.ok value) ∨ ∃ hedge ∈ call.hedges, hedge.state = .answered value
  error_whose : ∀ outcome ∈ call.outcomes, ∀ error, outcome.result = .error error →
    call.original = .heard (.error error) ∧ call.out = 0

/-- What one call keeps through every event: its fields agree, and it settles as soon as it can. -/
structure Call.Sound (call : Call ε α) : Prop extends call.Shape where
  answered_settled : ∀ hedge ∈ call.hedges, hedge.answered → call.settled = true
  failed_heard : ∀ error, call.originalFailed = some error →
    call.original = .heard (.error error) ∧ (call.settled = false → 0 < call.out)
  value_heard : ∀ value, call.original = .heard (.ok value) → call.settled = true
  error_heard : ∀ error, call.original = .heard (.error error) → call.settled = true ∨ call.originalFailed = some error

def Call.unhedged (call : Call ε α) : ℤ :=
  match call.original with
  | .out => if call.asked then 0 else 1
  | _ => 0

namespace Call

/-! ## Consequences -/

theorem Shape.outcomes_nil (h : call.Shape) (hsettled : call.settled = false) : call.outcomes = [] := by
  have := h.outcomes_eq
  simpa [hsettled] using this

theorem Shape.out_nonneg (h : call.Shape) : 0 ≤ call.out := by
  have := h.out_eq
  omega

theorem Shape.landed_or_asked (h : call.Shape) (hsettled : call.settled = true) :
    call.landed = true ∨ call.asked = true := by
  have hlength := h.outcomes_eq
  rw [hsettled, if_pos rfl, List.length_eq_one_iff] at hlength
  obtain ⟨outcome, houtcome⟩ := hlength
  cases hresult : outcome.result with
  | ok value =>
    obtain horiginal | ⟨hedge, hin, -⟩ := h.value_whose outcome (by simp [houtcome]) value hresult
    · exact .inl (by simp [h.landed_eq, horiginal, Original.isLanded])
    · refine .inr ?_
      by_contra hasked
      simp [(h.unasked (by simpa using hasked)).1] at hin
  | error error =>
    have horiginal := (h.error_whose outcome (by simp [houtcome]) error hresult).1
    exact .inl (by simp [h.landed_eq, horiginal, Original.isLanded])

variable {hedge : Hedge ε α}

theorem pending_pos {i : ℕ} (hi : call.hedges[i]? = some hedge)
    (hpending : hedge.pending) : 0 < call.hedges.countP Hedge.pending :=
  List.countP_pos_iff.mpr ⟨hedge, List.mem_of_getElem? hi, hpending⟩

theorem Shape.asked_of_hedge (h : call.Shape) {i : ℕ}
    (hi : call.hedges[i]? = some hedge) : call.asked = true := by
  by_contra hasked
  simp [(h.unasked (by simpa using hasked)).1] at hi

theorem Shape.no_error_of_pending (h : call.Shape) {i : ℕ}
    (hi : call.hedges[i]? = some hedge) (hpending : hedge.pending) {outcome : HedgedCall ε α}
    (hin : outcome ∈ call.outcomes) (error : ε) : outcome.result ≠ .error error := by
  intro hresult
  have hzero := (h.error_whose outcome hin error hresult).2
  have hpos := pending_pos hi hpending
  have := h.out_eq
  omega

theorem Sound.issue : (Call.issue : Call ε α).Sound := by
  refine ⟨?_, ?_, ?_, ?_, ?_⟩
  · constructor <;> simp [Call.issue, Original.isLanded]
  all_goals simp [Call.issue]

theorem Shape.noting (h : call.Shape) (change : HedgeNote → HedgeNote) : (call.noting change).Shape :=
  ⟨h.outcomes_eq, h.landed_eq, h.timers_off, h.queued_idle, h.unasked, h.out_eq, h.same_le, h.cross_le,
    h.value_whose, h.error_whose⟩

theorem Sound.noting (h : call.Sound) (change : HedgeNote → HedgeNote) : (call.noting change).Sound :=
  ⟨h.toShape.noting change, h.answered_settled, h.failed_heard, h.value_heard, h.error_heard⟩

/-! ## The limiter's grants and the original -/

variable {now : ℤ}

theorem Sound.grant (h : call.Sound) (horiginal : call.original = .queued) {timer : Bool} :
    ({ call with sentAt := now, original := .out, timer := timer } : Call ε α).Sound := by
  obtain ⟨htimer, hasked, hsettled⟩ := h.queued_idle horiginal
  have hlanded : call.landed = false := by simp [h.landed_eq, horiginal, Original.isLanded]
  have hnone : call.outcomes = [] := h.outcomes_nil hsettled
  refine { h with
    landed_eq := by simp [hlanded, Original.isLanded]
    timers_off := by simp [hlanded, hsettled]
    queued_idle := by simp
    failed_heard := fun error herror => ?_
    value_heard := by simp
    error_heard := by simp
    value_whose := by simp [hnone]
    error_whose := by simp [hnone] }
  exact absurd (h.failed_heard error herror).1 (by simp [horiginal])

variable {result : Except ε α}

theorem Sound.settle (h : call.Sound) (horiginal : call.original = .out) :
    ({ call with landed := true, original := .landed result, timer := false, crossTimer := none } : Call ε α).Sound := by
  have hnot : ∀ result, call.original ≠ .heard result := by simp [horiginal]
  exact { h with
    landed_eq := rfl
    timers_off := fun _ => ⟨rfl, rfl⟩
    queued_idle := by simp
    unasked := fun hasked => ⟨(h.unasked hasked).1, rfl⟩
    cross_le := by
      have := h.cross_le
      simp only [Option.isSome_none, Bool.false_eq_true, if_false]
      omega
    failed_heard := fun error herror => absurd (h.failed_heard error herror).1 (hnot _)
    value_heard := by simp
    error_heard := by simp
    value_whose := fun outcome hin value hresult =>
      .inr ((h.value_whose outcome hin value hresult).resolve_left (hnot _))
    error_whose := fun outcome hin error hresult =>
      absurd (h.error_whose outcome hin error hresult).1 (hnot _) }

/-- Settling a call that has no outcome yet, its original at `original` by then. -/
theorem Shape.finish (h : call.Shape) (hsettled : call.settled = false)
    (original : Original ε α) (hlanded : call.landed = original.isLanded) (hsent : original ≠ .queued)
    (hfailed : ∀ error, call.originalFailed = some error → original = .heard (.error error))
    (hvalue : ∀ value, result = .ok value →
      original = .heard (.ok value) ∨ ∃ hedge ∈ call.hedges, hedge.state = .answered value)
    (herror : ∀ error, result = .error error → original = .heard (.error error) ∧ call.out = 0) :
    (({ call with original := original } : Call ε α).finish now result).Sound := by
  have hnone : call.outcomes = [] := h.outcomes_nil hsettled
  refine { h with
    outcomes_eq := by simp [Call.finish, hnone]
    landed_eq := hlanded
    timers_off := fun _ => ⟨rfl, rfl⟩
    queued_idle := fun horiginal => absurd horiginal hsent
    unasked := fun hasked => ⟨(h.unasked hasked).1, rfl⟩
    answered_settled := fun _ _ _ => rfl
    cross_le := ?_
    failed_heard := fun error hsome => ⟨hfailed error hsome, by simp [Call.finish]⟩
    value_heard := fun _ _ => rfl
    error_heard := fun _ _ => .inl rfl
    value_whose := ?_
    error_whose := ?_ }
  · have := h.cross_le
    simp only [Call.finish, Option.isSome_none, Bool.false_eq_true, if_false]
    omega
  · intro outcome hin value hresult
    simp only [Call.finish, hnone, List.nil_append, List.mem_singleton] at hin
    subst hin
    exact hvalue value hresult
  · intro outcome hin error hresult
    simp only [Call.finish, hnone, List.nil_append, List.mem_singleton] at hin
    subst hin
    exact herror error hresult

theorem Sound.hear (h : call.Sound)
    (horiginal : call.original = .landed result) : (call.hear phase now result).2.Sound := by
  have hfailed : call.originalFailed = none := by
    by_contra hsome
    obtain ⟨error, herror⟩ := Option.ne_none_iff_exists'.mp hsome
    exact absurd (h.failed_heard error herror).1 (by simp [horiginal])
  have hlanded : call.landed = true := by simp [h.landed_eq, horiginal, Original.isLanded]
  cases hsettled : call.settled with
  | true =>
    have hheard : ({ call with original := .heard result } : Call ε α).Sound :=
      { h with
        landed_eq := by simp [hlanded, Original.isLanded]
        queued_idle := by simp
        failed_heard := by simp [hfailed]
        value_heard := fun _ _ => hsettled
        error_heard := fun _ _ => .inl hsettled
        value_whose := fun outcome hin value hresult => by
          obtain hheard | hhedge := h.value_whose outcome hin value hresult
          · exact absurd hheard (by simp [horiginal])
          · exact .inr hhedge
        error_whose := fun outcome hin error hresult =>
          absurd (h.error_whose outcome hin error hresult).1 (by simp [horiginal]) }
    simpa [Call.hear, Call.noting, hsettled] using hheard.noting _
  | false =>
    have hopen : ¬ call.settled = true := by simp [hsettled]
    have hnot : (call.noting fun note => { note with originalMs := some (now - call.sentAt) }).Sound :=
      h.noting _
    cases result with
    | ok value =>
      have heq : (call.hear phase now (.ok value)).2 = Call.finish
          { (call.noting fun note => { note with originalMs := some (now - call.sentAt) }).noting
              fun note => { note with won := .original } with original := .heard (.ok value) }
          now (.ok value) := by
        simp [Call.hear, Call.noting, hopen]
      rw [heq]
      exact (hnot.noting fun note => { note with won := .original }).toShape.finish hsettled
        (.heard (.ok value)) hlanded (by simp) (by simp [Call.noting, hfailed])
        (fun _ hresult => .inl (by rw [Except.ok.inj hresult])) (by simp)
    | error error =>
      by_cases hout : call.out > 0
      · have heq : (call.hear phase now (.error error)).2 =
            { call.noting fun note => { note with originalMs := some (now - call.sentAt) } with
              original := .heard (.error error), originalFailed := some error } := by
          simp [Call.hear, Call.noting, hopen, hout]
        rw [heq]
        exact { hnot with
          landed_eq := hlanded
          queued_idle := by simp
          failed_heard := fun _ hsome => ⟨by rw [Option.some.inj hsome], fun _ => hout⟩
          value_heard := by simp
          error_heard := fun _ horiginal => .inr (by
            simp only [Original.heard.injEq, Except.error.injEq] at horiginal
            rw [horiginal])
          value_whose := by simp [Call.noting, h.outcomes_nil hsettled]
          error_whose := by simp [Call.noting, h.outcomes_nil hsettled] }
      · have hzero : call.out = 0 := by
          have := h.out_nonneg
          omega
        have heq : (call.hear phase now (.error error)).2 = Call.finish
            { call.noting fun note => { note with originalMs := some (now - call.sentAt) } with
              original := .heard (.error error) } now (.error error) := by
          simp [Call.hear, Call.noting, hopen, hout]
        rw [heq]
        exact hnot.toShape.finish hsettled (.heard (.error error)) hlanded (by simp)
          (by simp [Call.noting, hfailed]) (by simp)
          (fun _ hresult => ⟨by rw [Except.error.inj hresult], hzero⟩)

/-! ## Looking at a late call -/

theorem Sound.ask_first (h : call.Sound) (hsettled : call.settled = false) (hlanded : call.landed = false)
    (hasked : call.asked = false) (hsent : call.original ≠ .queued) {timer : Bool}
    (hstate : hedge.state = .queued) (hnext : hedge.target.isSome → hedge.next = none) :
    (({ call with timer := timer, asked := true } : Call ε α).hedge hedge).Sound := by
  obtain ⟨hhedges, hcross⟩ := h.unasked hasked
  have hnone : call.outcomes = [] := h.outcomes_nil hsettled
  have hout : call.out = 0 := by
    have := h.out_eq
    simpa [hhedges] using this
  have hpending : hedge.pending = true := by simp [Hedge.pending, hstate]
  have hanswered : hedge.answered = false := by simp [Hedge.answered, hstate]
  exact { h with
    timers_off := by simp [Call.hedge, hlanded, hsettled]
    queued_idle := fun horiginal => absurd horiginal hsent
    unasked := by simp [Call.hedge]
    out_eq := by simp [Call.hedge, hhedges, hout, hpending, hanswered]
    answered_settled := by simp [Call.hedge, hhedges, hanswered]
    same_le := by
      simp only [Call.hedge, hhedges, List.nil_append, List.countP_singleton]
      split_ifs <;> omega
    cross_le := by
      simp only [Call.hedge, hhedges, hcross, List.nil_append, List.countP_singleton, Hedge.cross,
        Hedge.starts, hstate, Option.isSome_none, Bool.false_eq_true, if_false]
      by_cases htarget : hedge.target.isSome = true
      · simp [htarget, hnext htarget]
      · simp only [htarget, Bool.false_eq_true, if_false]
        split_ifs <;> omega
    failed_heard := fun error hsome => ⟨(h.failed_heard error hsome).1, fun _ => by simp [Call.hedge, hout]⟩
    value_whose := by simp [Call.hedge, hnone]
    error_whose := by simp [Call.hedge, hnone] }

theorem Sound.timer (h : call.Sound) (hsettled : call.settled = false) (hlanded : call.landed = false)
    (hsent : call.original ≠ .queued) {timer : Bool} : ({ call with timer := timer } : Call ε α).Sound :=
  { h with
    timers_off := by simp [hlanded, hsettled]
    queued_idle := fun horiginal => absurd horiginal hsent }

theorem Sound.asked (h : call.Sound) (hsent : call.original ≠ .queued) : ({ call with asked := true } : Call ε α).Sound :=
  { h with
    queued_idle := fun horiginal => absurd horiginal hsent
    unasked := by simp }

/-- What a look comes to: another look later, no hedge at all, or one hedge. -/
inductive Looks (phase : Phase) (call : Call ε α) : Phase × Call ε α → Prop
  | later (timer : Bool) : Looks phase call (phase, { call with timer := timer })
  | none : Looks phase call
      ({ phase with unhedged := phase.unhedged - 1 }, { call with timer := false, asked := true })
  | hedge (hedge : Hedge ε α) (hstate : hedge.state = .queued)
      (hnext : hedge.target.isSome → hedge.next = none) : Looks phase call
      ({ phase with unhedged := phase.unhedged - 1 }, ({ call with timer := false, asked := true } : Call ε α).hedge hedge)

variable {looked : Looked}

theorem looks_ask {waking : Bool} {peerMedianMs : ℤ} : Looks phase call
      (({ call with timer := false } : Call ε α).ask tuning phase looked waking peerMedianMs) := by
  simp only [Call.ask]
  generalize (if tuning.crossRegion then looked.cross else Option.none) = target
  split_ifs
  · exact .hedge ⟨target, _, _, _, _, none, .queued⟩ rfl fun _ => rfl
  · exact .hedge ⟨none, _, _, _, _, target, .queued⟩ rfl (by simp)
  · exact .none

theorem looks_judge : Looks phase call (({ call with timer := false } : Call ε α).judge tuning phase looked) := by
  simp only [Call.judge]
  split_ifs
  · exact .later true
  · exact .later true
  · exact looks_ask
  · exact .later true
  · exact looks_ask

theorem looks_consider (hsettled : call.settled = false) (hlanded : call.landed = false)
    (hasked : call.asked = false) : Looks phase call (call.consider tuning phase looked) := by
  have hopen : ¬ ((call.settled || call.landed || call.asked) = true) := by
    simp [hsettled, hlanded, hasked]
  simp only [Call.consider]
  rw [if_neg hopen]
  generalize (if (tuning.crossRegion && looked.coolingAgain) = true then looked.coolCross
    else Option.none) = target
  split_ifs
  · exact .later true
  · cases target with
    | none => exact looks_judge
    | some region => exact .hedge ⟨some region, _, _, _, _, none, .queued⟩ rfl fun _ => rfl
  · exact looks_judge

theorem Sound.consider (h : call.Sound) (htimer : call.timer = true) : (call.consider tuning phase looked).2.Sound := by
  have hsent : call.original ≠ .queued := fun horiginal => by simp [(h.queued_idle horiginal).1] at htimer
  by_cases hoff : call.landed = true ∨ call.settled = true
  · simp [(h.timers_off hoff).1] at htimer
  · simp only [not_or, Bool.not_eq_true] at hoff
    obtain ⟨hlanded, hsettled⟩ := hoff
    cases hasked : call.asked with
    | true => simpa [Call.consider, hasked] using h.timer hsettled hlanded hsent
    | false =>
      have hlooks : Looks phase call (call.consider tuning phase looked) :=
        looks_consider hsettled hlanded hasked
      generalize call.consider tuning phase looked = after at hlooks
      cases hlooks with
      | later timer => exact h.timer hsettled hlanded hsent
      | none =>
        have htimed : ({ call with timer := false } : Call ε α).Sound := h.timer hsettled hlanded hsent
        exact htimed.asked hsent
      | hedge hedge hstate hnext => exact h.ask_first hsettled hlanded hasked hsent hstate hnext

theorem Sound.crossAsk (h : call.Sound) {seen : Seen} {region : String}
    (hcross : call.crossTimer = some (seen, region)) :
    (({ call with crossTimer := none } : Call ε α).hedge
      ⟨some region, seen, false, false, none, none, .queued⟩).Sound := by
  have hopen : call.landed = false ∧ call.settled = false := by
    by_contra hoff
    have hoff : call.landed = true ∨ call.settled = true := by
      cases hlanded : call.landed <;> cases hsettled : call.settled <;> simp_all
    simp [(h.timers_off hoff).2] at hcross
  have hasked : call.asked = true := by
    by_contra hasked
    simp [(h.unasked (by simpa using hasked)).2] at hcross
  have hnone : call.outcomes = [] := h.outcomes_nil hopen.2
  have hle := h.cross_le
  have hout := h.out_eq
  exact { h with
    timers_off := by simp [Call.hedge, hopen]
    queued_idle := fun horiginal => absurd (h.queued_idle horiginal).2.1 (by simp [hasked])
    unasked := by simp [Call.hedge, hasked]
    out_eq := by
      simp [Call.hedge, List.countP_append, Hedge.pending, Hedge.answered, hout]
      omega
    answered_settled := by
      simp only [Call.hedge, List.forall_mem_append, List.forall_mem_singleton]
      exact ⟨h.answered_settled, by simp [Hedge.answered]⟩
    same_le := by
      have := h.same_le
      simpa [Call.hedge, List.countP_append, Hedge.same] using this
    cross_le := by
      simp only [hcross, Option.isSome_some, if_true] at hle
      simp [Call.hedge, List.countP_append, Hedge.cross, Hedge.starts]
      omega
    failed_heard := fun error hsome => ⟨(h.failed_heard error hsome).1, fun _ => by
      have := h.out_nonneg
      simp [Call.hedge]
      omega⟩
    value_whose := by simp [Call.hedge, hnone]
    error_whose := by simp [Call.hedge, hnone] }

/-! ## The hedges -/

section

variable {i : ℕ} {hedge : Hedge ε α} {state : HedgeState ε α}

theorem moveHedge_counts (state : HedgeState ε α) (hi : call.hedges[i]? = some hedge) :
    let moved : Hedge ε α := { hedge with state := state }
    let hedges := (call.moveHedge i hedge state).hedges
    (hedges.countP Hedge.pending + (if hedge.pending then 1 else 0) =
      call.hedges.countP Hedge.pending + (if moved.pending then 1 else 0)) ∧
    (hedges.countP Hedge.answered + (if hedge.answered then 1 else 0) =
      call.hedges.countP Hedge.answered + (if moved.answered then 1 else 0)) ∧
    (hedges.countP Hedge.starts + (if hedge.starts then 1 else 0) =
      call.hedges.countP Hedge.starts + (if moved.starts then 1 else 0)) ∧
    hedges.countP Hedge.same = call.hedges.countP Hedge.same ∧
    hedges.countP Hedge.cross = call.hedges.countP Hedge.cross :=
  ⟨Replace.countP_set_add _ hi, Replace.countP_set_add _ hi, Replace.countP_set_add _ hi,
    Replace.countP_set_eq _ hi rfl, Replace.countP_set_eq _ hi rfl⟩

theorem answered_moveHedge (hi : call.hedges[i]? = some hedge) (hnot : ∀ value, hedge.state ≠ .answered value)
    {value : α} (h : ∃ hedge ∈ call.hedges, hedge.state = .answered value) :
    ∃ hedge' ∈ (call.moveHedge i hedge state).hedges, hedge'.state = .answered value := by
  obtain ⟨other, hin, hstate⟩ := h
  refine ⟨other, Replace.mem_set_of_ne hi hin ?_, hstate⟩
  rintro rfl
  exact hnot value hstate

theorem Sound.grantHedge (h : call.Sound) (hi : call.hedges[i]? = some hedge) (hstate : hedge.state = .queued) :
    (if call.landed || call.settled then call.moveHedge i hedge .notSent
      else call.sendHedge i hedge now).Sound := by
  have hasked := h.asked_of_hedge hi
  have hpending : hedge.pending = true := by simp [Hedge.pending, hstate]
  have hanswered : hedge.answered = false := by simp [Hedge.answered, hstate]
  have hnot : ∀ value, hedge.state ≠ .answered value := by simp [hstate]
  have hout := h.out_eq
  have hcross := h.cross_le
  have hsame := h.same_le
  -- what holds of either move, the neighbour's clock apart
  have hmove (state : HedgeState ε α) (crossTimer : Option (Seen × String)) (note : Option HedgeNote)
      (hp : Hedge.pending { hedge with state := state } = true)
      (ha : Hedge.answered { hedge with state := state } = false)
      (hs : Hedge.starts { hedge with state := state } = false)
      (htimer : call.landed = true ∨ call.settled = true → crossTimer = none)
      (hclock : (if crossTimer.isSome then 1 else 0) ≤
        (if call.crossTimer.isSome then 1 else 0) + (if hedge.starts then 1 else 0)) :
      ({ call.moveHedge i hedge state with note := note, crossTimer := crossTimer } : Call ε α).Sound := by
    obtain ⟨hcp, hca, hcs, hsameEq, hcrossEq⟩ := moveHedge_counts state hi
    simp only [hp, ha, hs, hpending, hanswered, Bool.false_eq_true, if_true, if_false] at hcp hca hcs
    exact { h with
      timers_off := fun hoff => ⟨(h.timers_off hoff).1, htimer hoff⟩
      unasked := fun hunasked => absurd hunasked (by simp [Call.moveHedge, hasked])
      out_eq := by
        have : (call.moveHedge i hedge state).out = call.out := rfl
        simp only [this]
        omega
      answered_settled := Replace.forall_mem_set h.answered_settled (by simp [ha])
      same_le := by
        simp only [hsameEq]
        exact hsame
      cross_le := by
        simp only [hcrossEq]
        omega
      value_whose := fun outcome hin value hresult => by
        obtain horiginal | hanswer := h.value_whose outcome hin value hresult
        · exact .inl horiginal
        · exact .inr (answered_moveHedge hi hnot hanswer) }
  by_cases hoff : (call.landed || call.settled) = true
  · rw [if_pos hoff]
    exact hmove .notSent call.crossTimer call.note rfl rfl rfl
      (fun hoff => (h.timers_off hoff).2) (Nat.le_add_right _ _)
  · rw [if_neg hoff]
    have hopen : ¬ (call.landed = true ∨ call.settled = true) := by simpa using hoff
    refine hmove .out _ _ rfl rfl rfl (fun hoff => absurd hoff hopen) ?_
    cases hnext : hedge.next with
    | none => simp
    | some region => simp [Hedge.starts, hstate, hnext]

theorem Shape.moveHedge (h : call.Shape) (hi : call.hedges[i]? = some hedge)
    (hpending : hedge.pending = true) (hstarts : hedge.starts = false)
    (hp : Hedge.pending { hedge with state := state } = false)
    (hs : Hedge.starts { hedge with state := state } = false) {out : ℤ}
    (hout : out = call.out - if Hedge.answered { hedge with state := state } then 0 else 1) :
    ({ call.moveHedge i hedge state with out := out } : Call ε α).Shape := by
  have hanswered : hedge.answered = false := by
    unfold Hedge.pending at hpending
    unfold Hedge.answered
    split at hpending <;> simp_all
  have hnot : ∀ value, hedge.state ≠ .answered value := by
    intro value hstate
    simp [Hedge.answered, hstate] at hanswered
  obtain ⟨hcp, hca, hcs, hsame, hcross⟩ := moveHedge_counts state hi
  simp only [hp, hs, hpending, hstarts, hanswered, Bool.false_eq_true, if_true, if_false] at hcp hca hcs
  have hasked := h.asked_of_hedge hi
  have hcounts := h.out_eq
  exact { h with
    unasked := fun hunasked => absurd hunasked (by simp [Call.moveHedge, hasked])
    out_eq := by
      simp only
      split_ifs at hout hca <;> omega
    same_le := by
      simp only [hsame]
      exact h.same_le
    cross_le := by
      have := h.cross_le
      simp only [hcross]
      change _ + (if call.crossTimer.isSome then 1 else 0) + _ ≤ 1
      omega
    value_whose := fun outcome hin value hresult => by
      obtain horiginal | hanswer := h.value_whose outcome hin value hresult
      · exact .inl horiginal
      · exact .inr (answered_moveHedge hi hnot hanswer)
    error_whose := fun outcome hin error hresult =>
      absurd hresult (h.no_error_of_pending hi hpending hin error) }

theorem Sound.over (h : call.Sound) (hi : call.hedges[i]? = some hedge)
    (hpending : hedge.pending = true) (hstarts : hedge.starts = false)
    (hp : Hedge.pending { hedge with state := state } = false)
    (hs : Hedge.starts { hedge with state := state } = false)
    (ha : Hedge.answered { hedge with state := state } = false) :
    ((call.moveHedge i hedge state).hedgeOver now).Sound := by
  have hshape : ({ call.moveHedge i hedge state with out := call.out - 1 } : Call ε α).Shape :=
    h.toShape.moveHedge hi hpending hstarts hp hs (by simp [ha])
  have hanswers : ∀ other ∈ (call.moveHedge i hedge state).hedges, other.answered → call.settled = true :=
    Replace.forall_mem_set h.answered_settled (by simp [ha])
  have hnonneg := hshape.out_nonneg
  simp only at hnonneg
  cases hfailed : call.originalFailed with
  | none =>
    have heq : (call.moveHedge i hedge state).hedgeOver now =
        { call.moveHedge i hedge state with out := call.out - 1 } := by
      simp [Call.hedgeOver, Call.moveHedge, hfailed]
    rw [heq]
    exact { hshape with
      answered_settled := hanswers
      failed_heard := fun error hsome => by simp [Call.moveHedge, hfailed] at hsome
      value_heard := h.value_heard
      error_heard := h.error_heard }
  | some error =>
    have hheard := (h.failed_heard error hfailed).1
    by_cases hlast : call.settled = false ∧ call.out - 1 = 0
    · have heq : (call.moveHedge i hedge state).hedgeOver now = Call.finish
          { call.moveHedge i hedge state with out := call.out - 1 } now (.error error) := by
        simp [Call.hedgeOver, Call.moveHedge, hfailed, hlast]
      rw [heq]
      exact hshape.finish hlast.1 call.original h.landed_eq (by simp [hheard])
        (fun other hsome => (h.failed_heard other hsome).1) (by simp)
        (fun other hresult => ⟨by rw [hheard, Except.error.inj hresult], hlast.2⟩)
    · have heq : (call.moveHedge i hedge state).hedgeOver now =
          { call.moveHedge i hedge state with out := call.out - 1 } := by
        simp only [Call.hedgeOver, Call.moveHedge, hfailed]
        rw [if_neg]
        simpa using hlast
      rw [heq]
      exact { hshape with
        answered_settled := hanswers
        failed_heard := fun other hsome => ⟨(h.failed_heard other hsome).1, fun hopen => by
          have : ¬ call.out - 1 = 0 := fun hzero => hlast ⟨hopen, hzero⟩
          simp only
          omega⟩
        value_heard := h.value_heard
        error_heard := h.error_heard }

theorem Sound.useHedge (h : call.Sound) (hi : call.hedges[i]? = some hedge)
    (hstate : hedge.state = .out) {value : α} :
    ((call.moveHedge i hedge (.answered value)).useHedge hedge now value).Sound := by
  have hasked := h.asked_of_hedge hi
  have hpending : hedge.pending = true := by simp [Hedge.pending, hstate]
  have hstarts : hedge.starts = false := by simp [Hedge.starts, hstate]
  have hshape : (call.moveHedge i hedge (.answered value)).Shape :=
    h.toShape.moveHedge hi hpending hstarts rfl rfl (by simp [Hedge.answered])
  unfold Call.useHedge
  by_cases hsettled : call.settled = true
  · have hdone : (call.moveHedge i hedge (.answered value)).settled = true := hsettled
    rw [if_pos hdone]
    exact { hshape with
      answered_settled := fun _ _ _ => hsettled
      failed_heard := h.failed_heard
      value_heard := h.value_heard
      error_heard := h.error_heard }
  · have hopen : ¬ (call.moveHedge i hedge (.answered value)).settled = true := hsettled
    rw [if_neg hopen]
    have hsent : call.original ≠ .queued := fun horiginal => by
      simp [(h.queued_idle horiginal).2.1] at hasked
    exact (hshape.noting _).finish (Bool.not_eq_true _ ▸ hsettled) call.original h.landed_eq hsent
      (fun error hsome => (h.failed_heard error hsome).1)
      (fun other hresult => .inr ⟨_, Replace.mem_set_new hi, by rw [Except.ok.inj hresult]⟩) (by simp)

theorem Sound.hearHedge (h : call.Sound) (hi : call.hedges[i]? = some hedge) (hstate : hedge.state = .out)
    {refused : Option String} :
    (call.hearHedge i hedge now result refused).Sound := by
  have hpending : hedge.pending = true := by simp [Hedge.pending, hstate]
  have hstarts : hedge.starts = false := by simp [Hedge.starts, hstate]
  cases result with
  | error error => exact h.over hi hpending hstarts rfl rfl rfl
  | ok value =>
    simp only [Call.hearHedge]
    split
    · exact (h.noting _).over hi hpending hstarts rfl rfl rfl
    · exact h.useHedge hi hstate

end

/-! ## One event -/

theorem unhedged_of_eq (horiginal : call'.original = call.original) (hasked : call'.asked = call.asked) :
    call'.unhedged = call.unhedged := by
  simp [Call.unhedged, horiginal, hasked]

theorem count_same (horiginal : call'.original = call.original) (hasked : call'.asked = call.asked) :
    phase.unhedged = phase.unhedged + (call'.unhedged - call.unhedged) := by
  rw [unhedged_of_eq horiginal hasked]
  ring

theorem hear_original : (call.hear phase now result).2.original = .heard result ∧
      (call.hear phase now result).1.unhedged = phase.unhedged := by
  simp only [Call.hear]
  split
  · exact ⟨rfl, rfl⟩
  · cases result with
    | ok value => exact ⟨rfl, rfl⟩
    | error error =>
      simp only
      split <;> exact ⟨rfl, rfl⟩

theorem hedgeOver_frame : (call.hedgeOver now).original = call.original ∧ (call.hedgeOver now).asked = call.asked := by
  simp only [Call.hedgeOver]
  split
  · split <;> exact ⟨rfl, rfl⟩
  · exact ⟨rfl, rfl⟩

theorem useHedge_frame {value : α} : (call.useHedge hedge now value).original = call.original ∧
      (call.useHedge hedge now value).asked = call.asked := by
  simp only [Call.useHedge]
  split <;> exact ⟨rfl, rfl⟩

theorem hearHedge_frame {i : ℕ}
    {refused : Option String} :
    (call.hearHedge i hedge now result refused).original = call.original ∧
      (call.hearHedge i hedge now result refused).asked = call.asked := by
  cases result with
  | error error => exact hedgeOver_frame
  | ok value =>
    simp only [Call.hearHedge]
    split
    · exact hedgeOver_frame
    · exact useHedge_frame

theorem consider_unhedged (h : call.Sound) (htimer : call.timer = true) : (call.consider tuning phase looked).1.unhedged =
      phase.unhedged + ((call.consider tuning phase looked).2.unhedged - call.unhedged) := by
  have hopen : call.landed = false ∧ call.settled = false := by
    by_contra hoff
    have hoff : call.landed = true ∨ call.settled = true := by
      cases hlanded : call.landed <;> cases hsettled : call.settled <;> simp_all
    simp [(h.timers_off hoff).1] at htimer
  have hout : call.original = .out := by
    have hlanded := h.landed_eq
    cases horiginal : call.original with
    | queued => simp [(h.queued_idle horiginal).1] at htimer
    | out => rfl
    | landed result => simp [hopen.1, horiginal, Original.isLanded] at hlanded
    | heard result => simp [hopen.1, horiginal, Original.isLanded] at hlanded
  cases hasked : call.asked with
  | true => simp [Call.consider, hasked, Call.unhedged]
  | false =>
    have hlooks : Looks phase call (call.consider tuning phase looked) :=
      looks_consider hopen.2 hopen.1 hasked
    generalize call.consider tuning phase looked = after at hlooks
    cases hlooks with
    | later timer => simp [Call.unhedged]
    | none => simp [Call.unhedged, hout, hasked]; ring
    | hedge hedge hstate hnext => simp [Call.unhedged, Call.hedge, hout, hasked]; ring

theorem Sound.step (h : call.Sound) {event : CallEvent ε α}
    (hstep : call.step tuning phase event = some (phase', call')) :
    call'.Sound ∧ phase'.unhedged = phase.unhedged + (call'.unhedged - call.unhedged) := by
  cases event with
  | grant now =>
    simp only [Call.step] at hstep
    split at hstep
    · next horiginal =>
        obtain ⟨rfl, rfl⟩ := Prod.mk.inj (Option.some.inj hstep)
        refine ⟨h.grant horiginal, ?_⟩
        simp [Call.unhedged, horiginal, (h.queued_idle horiginal).2.1]
    · cases hstep
  | settle result =>
    simp only [Call.step] at hstep
    split at hstep
    · next horiginal =>
        obtain ⟨rfl, rfl⟩ := Prod.mk.inj (Option.some.inj hstep)
        refine ⟨h.settle horiginal, ?_⟩
        simp only [Call.unhedged, horiginal]
        split_ifs <;> omega
    · cases hstep
  | hear now =>
    simp only [Call.step] at hstep
    split at hstep
    · next result horiginal =>
        have hphase : (call.hear phase now result).1 = phase' := congrArg Prod.fst (Option.some.inj hstep)
        have hcall : (call.hear phase now result).2 = call' := congrArg Prod.snd (Option.some.inj hstep)
        have hheard : (call.hear phase now result).2.original = .heard result := hear_original.1
        have hcount : (call.hear phase now result).1.unhedged = phase.unhedged := hear_original.2
        subst hphase hcall
        exact ⟨h.hear horiginal, by simp [Call.unhedged, hheard, horiginal, hcount]⟩
    · cases hstep
  | consider looked =>
    simp only [Call.step] at hstep
    split_ifs at hstep with htimer
    have hphase : (call.consider tuning phase looked).1 = phase' := congrArg Prod.fst (Option.some.inj hstep)
    have hcall : (call.consider tuning phase looked).2 = call' := congrArg Prod.snd (Option.some.inj hstep)
    subst hphase hcall
    exact ⟨h.consider htimer, consider_unhedged h htimer⟩
  | crossAsk =>
    simp only [Call.step] at hstep
    split at hstep
    · next seen region hcross =>
        have hopen : (!call.settled && !call.landed) = true := by
          by_contra hoff
          have hoff : call.landed = true ∨ call.settled = true := by
            cases hlanded : call.landed <;> cases hsettled : call.settled <;> simp_all
          simp [(h.timers_off hoff).2] at hcross
        simp only [hopen, if_true] at hstep
        obtain ⟨rfl, rfl⟩ := Prod.mk.inj (Option.some.inj hstep)
        exact ⟨h.crossAsk hcross, count_same rfl rfl⟩
    · cases hstep
  | grantHedge i now =>
    simp only [Call.step] at hstep
    split at hstep
    · next hedge hi =>
        split at hstep
        · next hstate =>
            obtain ⟨rfl, rfl⟩ := Prod.mk.inj (Option.some.inj hstep)
            exact ⟨h.grantHedge hi hstate, count_same (by split <;> rfl) (by split <;> rfl)⟩
        · cases hstep
    · cases hstep
  | hearHedge i now result refused =>
    simp only [Call.step] at hstep
    split at hstep
    · next hedge hi =>
        split at hstep
        · next hstate =>
            obtain ⟨rfl, rfl⟩ := Prod.mk.inj (Option.some.inj hstep)
            exact ⟨h.hearHedge hi hstate, count_same hearHedge_frame.1 hearHedge_frame.2⟩
        · next hstate =>
            obtain ⟨rfl, rfl⟩ := Prod.mk.inj (Option.some.inj hstep)
            have hpending : hedge.pending = true := by simp [Hedge.pending, hstate]
            have hstarts : hedge.starts = false := by simp [Hedge.starts, hstate]
            exact ⟨h.over hi hpending hstarts rfl rfl rfl, count_same hedgeOver_frame.1 hedgeOver_frame.2⟩
        · cases hstep
    · cases hstep

end Call

/-! ## The phase over runs -/

/-- Every call sound, and the phase's count the number of its unhedged calls. -/
structure Run.Sound (s : Run ε α) : Prop where
  calls_sound : ∀ call ∈ s.calls, call.Sound
  unhedged_eq : s.phase.unhedged = (s.calls.map Call.unhedged).sum

theorem Run.Sound.start : (Run.start : Run ε α).Sound := ⟨by simp [Run.start], by simp [Run.start]⟩

theorem Run.Sound.step {s s' : Run ε α} (h : s.Sound) {event : Event ε α}
    (hstep : s.step tuning event = some s') : s'.Sound := by
  cases event with
  | run =>
    obtain rfl := Option.some.inj hstep
    refine ⟨List.forall_mem_append.mpr ⟨h.calls_sound, by simpa using Call.Sound.issue⟩, ?_⟩
    simp [h.unhedged_eq, Call.issue, Call.unhedged]
  | call c event =>
    simp only [Run.step] at hstep
    split at hstep
    · next call hcall =>
        obtain ⟨⟨phase', call'⟩, hcallStep, rfl⟩ := Option.map_eq_some_iff.mp hstep
        obtain ⟨hsound, hcount⟩ := (h.calls_sound call (List.mem_of_getElem? hcall)).step hcallStep
        refine ⟨Replace.forall_mem_set h.calls_sound hsound, ?_⟩
        simp only [hcount, Replace.sum_map_set Call.unhedged hcall, h.unhedged_eq]
    · cases hstep

/-- Nothing of the call is still to come: its original has been heard of, and each of its hedges. -/
def Call.Quiet (call : Call ε α) : Prop :=
  (∃ result, call.original = .heard result) ∧ ∀ hedge ∈ call.hedges, hedge.pending = false

theorem Call.Sound.settled_of_quiet (h : call.Sound) (hquiet : call.Quiet) : call.settled = true := by
  obtain ⟨⟨result, horiginal⟩, hhedges⟩ := hquiet
  cases result with
  | ok value => exact h.value_heard value horiginal
  | error error =>
    obtain hsettled | hfailed := h.error_heard error horiginal
    · exact hsettled
    · by_contra hopen
      have hout := (h.failed_heard error hfailed).2 (by simpa using hopen)
      have hpending : call.hedges.countP Hedge.pending = 0 := by
        rw [List.countP_eq_zero]
        simpa using hhedges
      have hanswered : call.hedges.countP Hedge.answered = 0 := by
        rw [List.countP_eq_zero]
        exact fun hedge hin hanswer => hopen (h.answered_settled hedge hin hanswer)
      have := h.out_eq
      omega

theorem Call.unhedged_nonneg : 0 ≤ call.unhedged := by
  unfold Call.unhedged
  split
  · split <;> decide
  · decide

theorem Call.Sound.unhedged_settled (h : call.Sound) (hsettled : call.settled = true) : call.unhedged = 0 := by
  obtain hlanded | hasked := h.toShape.landed_or_asked hsettled
  · rw [h.landed_eq] at hlanded
    cases horiginal : call.original <;> simp_all [Call.unhedged, Original.isLanded]
  · cases horiginal : call.original <;> simp [Call.unhedged, horiginal, hasked]

/-- **Over every interleaving: a call settles at most once, and has settled once nothing of it is still
    to come; a value it resolves to is its original's or an answered hedge's; an error is its
    original's, and no hedge is then still to be heard of; at most one hedge went to the same object
    and one to the neighbour; and the phase's unhedged count is never negative, and zero when
    every call has its outcome.** -/
theorem hedged_calls_sound {events : List (Event ε α)} {s : Run ε α}
    (h : Runs.Reaches (Run.step tuning) Run.start events s) :
    (∀ call ∈ s.calls,
      call.outcomes.length ≤ 1 ∧
      (call.Quiet → call.outcomes.length = 1) ∧
      (∀ outcome ∈ call.outcomes,
        (∀ value, outcome.result = .ok value →
          call.original = .heard (.ok value) ∨ ∃ hedge ∈ call.hedges, hedge.state = .answered value) ∧
        (∀ error, outcome.result = .error error →
          call.original = .heard (.error error) ∧
            ∀ hedge ∈ call.hedges, hedge.pending = false ∧ hedge.answered = false)) ∧
      call.hedges.countP Hedge.same ≤ 1 ∧ call.hedges.countP Hedge.cross ≤ 1) ∧
    0 ≤ s.phase.unhedged ∧
    ((∀ call ∈ s.calls, call.settled = true) → s.phase.unhedged = 0) := by
  have hsound : s.Sound := h.stateInvariant (P := Run.Sound) .start fun hs hstep => hs.step hstep
  refine ⟨fun call hin => ?_, ?_, fun hall => ?_⟩
  · have hcall := hsound.calls_sound call hin
    have hlength := hcall.outcomes_eq
    refine ⟨by split at hlength <;> omega, fun hquiet => ?_, fun outcome houtcome => ?_, hcall.same_le, ?_⟩
    · simpa [hcall.settled_of_quiet hquiet] using hlength
    · refine ⟨hcall.value_whose outcome houtcome, fun error hresult => ?_⟩
      obtain ⟨horiginal, hout⟩ := hcall.error_whose outcome houtcome error hresult
      have hcounts := hcall.out_eq
      have hpending : call.hedges.countP Hedge.pending = 0 := by omega
      have hanswered : call.hedges.countP Hedge.answered = 0 := by omega
      rw [List.countP_eq_zero] at hpending hanswered
      exact ⟨horiginal, fun hedge hhedge =>
        ⟨by simpa using hpending hedge hhedge, by simpa using hanswered hedge hhedge⟩⟩
    · have := hcall.cross_le
      omega
  · rw [hsound.unhedged_eq]
    exact List.sum_nonneg (by simpa using fun call _ => Call.unhedged_nonneg)
  · rw [hsound.unhedged_eq]
    exact List.sum_eq_zero (by simpa using fun call hin =>
      (hsound.calls_sound call hin).unhedged_settled (hall call hin))

/-! ## A late call asked of the neighbour -/

def tuned : Tuning := ⟨true, true, 500, 900, 4, 1 / 2, 1000, 10, 50⟩

/-- Two calls go out, the second answers, and the first is late: a busy coordinator asks the
    neighbour alone, whose answer is used before the original fails. -/
def late : List (Event String ℕ) :=
  [.run, .run, .call 0 (.grant 0), .call 1 (.grant 0), .call 1 (.settle (.ok 7)), .call 1 (.hear 20),
   .call 0 (.consider ⟨3000, false, false, none, false, some "enam", 12, none⟩),
   .call 0 (.grantHedge 0 3000), .call 0 (.hearHedge 0 3080 (.ok 8) none),
   .call 0 (.settle (.error "lost")), .call 0 (.hear 9000)]

theorem hedged_calls_sound_late :
    ∃ s, Runs.run (Run.step tuned) Run.start late = some s ∧
      (s.calls.map fun call => call.outcomes.map (·.result.toOption)) = [[some 8], [some 7]] ∧
      0 ≤ s.phase.unhedged := by
  have hrun : (Runs.run (Run.step tuned) Run.start late).map
      (fun s => s.calls.map fun call => call.outcomes.map (·.result.toOption)) =
        some [[some 8], [some 7]] := by
    decide +kernel
  obtain ⟨s, hs, houtcomes⟩ := Option.map_eq_some_iff.mp hrun
  exact ⟨s, hs, houtcomes, (hedged_calls_sound (Runs.reaches_iff.mpr hs)).2.1⟩

end SiblingHedge
