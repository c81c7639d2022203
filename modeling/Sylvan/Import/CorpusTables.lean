-- SUMMARY: Facts of the whole corpus: each artwork's first printing and the cards that share it, scores by name, counts by illustration.
import Sylvan.Data.LastWins
import Sylvan.Import.CardFacts

/-!
# Facts of the corpus

What no card's printings can answer alone. New art and shared artworks depend only on which
drafts were observed; a score depends on the names in the order they were first seen, and a
count on how often a draft was.
-/

namespace Corpus

variable {ρ ω : Type}

/-! ## New and shared artworks -/

def SHARED : Text := ['*']

/-- Each artwork's first printing, and the cards that carry it. -/
structure NewArt where
  /-- The leading row's order under its group: of the group's rows until sealed, of the illustration's after. -/
  leads : JsMap Text Text
  sealed : Bool
  artworks : JsMap Text Text

def NewArt.empty : NewArt := { leads := .empty, sealed := false, artworks := .empty }

def cardHash (oracleId : Text) : Text := Fnv.hex 8 (Fnv.word (RustStr.utf8 oracleId) % 0x100000000)

def carried (held : Option Text) (card : Text) : Text :=
  match held with
  | some seen => if seen ≠ card ∧ seen ≠ SHARED then SHARED else seen
  | none => card

def leading (held : Option Text) (order : Text) : Text :=
  match held with
  | some lead => if order < lead then order else lead
  | none => order

def artworkOf (r : Observed) : Option Text := if r.oracleId = [] then none else artworkKey r

def NewArt.observeArtwork (newArt : NewArt) (artwork : Option Text) (oracleId : Text) : NewArt :=
  match artwork with
  | some key =>
    if oracleId = [] then newArt
    else { newArt with artworks := newArt.artworks.update key (carried · (cardHash oracleId)) }
  | none => newArt

section

variable (engine : CardEngine)

def NewArt.observe (newArt : NewArt) (r : Observed) : NewArt :=
  if r.eligible then { newArt with leads := newArt.leads.update r.group (leading · (r.order engine)) } else newArt

def NewArt.see (newArt : NewArt) (r : Observed) : NewArt :=
  (newArt.observe engine r).observeArtwork (artworkKey r) r.oracleId

def NewArt.best (leads : JsMap Text Text) : JsMap Text Text :=
  leads.entries.foldl (fun best e => best.update (illustKeyIllustration e.1) (leading · e.2)) .empty

/-- Give every entry its illustration's leading row; only the artworks two cards carry are kept. -/
def NewArt.seal (newArt : NewArt) : NewArt :=
  if newArt.sealed then newArt
  else
    { leads := newArt.leads.mapKeyed fun key order => ((NewArt.best newArt.leads).get (illustKeyIllustration key)).getD order
      sealed := true
      artworks := newArt.artworks.filter fun _ card => card = SHARED }

def DAY : ℕ := 8

def NewArt.standing (newArt : NewArt) (r : Observed) : ArtStanding :=
  let order := r.order engine
  match (newArt.leads.get r.group).filter fun _ => newArt.sealed with
  | some lead =>
    if r.eligible && lead = order then .first
    -- No row shares a debut on no date, and a row with no illustration has no debut.
    else if r.illustrationId.isSome && lead.take DAY = order.take DAY && order.take DAY ≠ List.replicate DAY 'f' then .debut
    else .later
  | none => .later

def NewArt.isShared (newArt : NewArt) (artwork : Option Text) : Bool :=
  newArt.sealed && artwork.any fun key => newArt.artworks.get key = some SHARED

/-! ## Names and illustrations -/

/-- Record a name with the rank of the first row that carries it. -/
def seeName (perName : List (Text × Option ℤ)) (e : Text × Option ℤ) : List (Text × Option ℤ) :=
  if e.1 ∈ perName.map Prod.fst then perName else perName ++ [e]

def namesOf (drafts : List (RowDraft ρ)) : List (Text × Option ℤ) :=
  drafts.foldl (fun perName d => seeName perName (d.cardName, d.edhrecRank)) []

def rankBefore (a b : Option ℤ) : Prop := toLex (a.isNone, a.getD 0) ≤ toLex (b.isNone, b.getD 0)

instance : DecidableRel rankBefore := fun _ _ => inferInstanceAs (Decidable (toLex _ ≤ toLex _))

/-- The score of each name; `percent first n` is 25 times `first / (n − 1)`, in doubles, and zero where `n` is one. -/
def cubecobraScoresFromPairs (percent : ℕ → ℕ → ω) (perName : List (Text × Option ℤ)) : JsMap Text ω :=
  let sorted := (perName.map Prod.snd).insertionSort rankBefore
  perName.foldl (fun scores e => scores.set e.1 (percent (sorted.idxOf e.2) perName.length)) .empty

/-! ## The tables of the scores phase -/

structure CorpusTables (ω : Type) where
  pending : List (Text × Option ℤ)
  scores : Option (JsMap Text ω)
  illust : JsMap Text ℕ
  newArt : NewArt
  /-- The places of the names in `pending`; no snapshot carries it. -/
  index : JsMap Text ℕ

def CorpusTables.empty : CorpusTables ω :=
  { pending := [], scores := none, illust := .empty, newArt := .empty, index := .empty }

/-- `pending`'s names and their places. -/
def placesOf (pending : List (Text × Option ℤ)) : JsMap Text ℕ :=
  pending.zipIdx.foldl (fun index e => index.set e.1.1 e.2) .empty

def CorpusTables.observe (t : CorpusTables ω) (cardName : Text) (edhrecRank : Option ℤ) (illustKey : Option Text) :
    CorpusTables ω :=
  -- A restored snapshot's index is stale.
  let index := if t.index.entries.length ≠ t.pending.length then placesOf t.pending else t.index
  let (index, pending) :=
    if (index.get cardName).isSome then (index, t.pending)
    else (index.set cardName t.pending.length, t.pending ++ [(cardName, edhrecRank)])
  let illust := match illustKey with
    | some ill => t.illust.update (illustGroupKey ill cardName) fun held => held.getD 0 + 1
    | none => t.illust
  { t with index := index, pending := pending, illust := illust }

def CorpusTables.seal (percent : ℕ → ℕ → ω) (t : CorpusTables ω) : CorpusTables ω :=
  { t with
    scores := some (t.scores.getD (cubecobraScoresFromPairs percent t.pending))
    pending := []
    index := .empty
    newArt := t.newArt.seal }

def CorpusTables.isSealed (t : CorpusTables ω) : Bool := t.scores.isSome

def CorpusTables.cubecobra (t : CorpusTables ω) (cardName : Text) : Option ω := t.scores.bind (·.get cardName)

def CorpusTables.illustrationCount (t : CorpusTables ω) (illustrationId : Option Text) (cardName : Text) : ℕ :=
  (illustrationId.bind fun ill => t.illust.get (illustGroupKey ill cardName)).getD 0

def CorpusTables.see (t : CorpusTables ω) (draft : RowDraft ρ) : CorpusTables ω :=
  let t := t.observe draft.cardName draft.edhrecRank (illustCountKey draft)
  { t with newArt := t.newArt.see engine draft.toObserved }

/-! ## What the art tables hold -/

theorem leading_some (lead order : Text) : leading (some lead) order = min lead order := by
  dsimp only [leading]
  by_cases h : order < lead
  · rw [if_pos h, min_eq_right h.le]
  · rw [if_neg h, min_eq_left (not_lt.mp h)]

theorem cardHash_ne_shared (oracleId : Text) : cardHash oracleId ≠ SHARED := by
  intro h
  have hlength := congrArg List.length h
  rw [cardHash, Fnv.length_hex] at hlength
  cases hlength

theorem leads_see (newArt : NewArt) (l : List Observed) : (l.foldl (NewArt.see engine) newArt).leads =
      Gathered.gather (fun r : Observed => if r.eligible then some r.group else none)
        (fun held r => leading held (r.order engine)) newArt.leads l := by
  induction l generalizing newArt with
  | nil => rfl
  | cons r l ih =>
    have hstep : (newArt.see engine r).leads =
        if r.eligible then newArt.leads.update r.group (leading · (r.order engine)) else newArt.leads := by
      unfold NewArt.see NewArt.observeArtwork NewArt.observe
      split <;> [split; skip] <;> split <;> rfl
    rw [List.foldl_cons, ih, hstep, Gathered.gather, Gathered.gather, List.foldl_cons]
    by_cases h : r.eligible = true <;> simp [h]

theorem artworks_see (newArt : NewArt) (l : List Observed) : (l.foldl (NewArt.see engine) newArt).artworks =
      Gathered.gather artworkOf (fun held r => carried held (cardHash r.oracleId)) newArt.artworks l := by
  induction l generalizing newArt with
  | nil => rfl
  | cons r l ih =>
    have hstep : (newArt.see engine r).artworks = match artworkOf r with
        | some key => newArt.artworks.update key (carried · (cardHash r.oracleId))
        | none => newArt.artworks := by
      have hobserve : (newArt.observe engine r).artworks = newArt.artworks := by
        unfold NewArt.observe
        split <;> rfl
      unfold NewArt.see NewArt.observeArtwork artworkOf
      by_cases hid : r.oracleId = []
      · simp only [hid, if_true]
        split <;> exact hobserve
      · simp only [hid, if_false]
        cases artworkKey r with
        | none => exact hobserve
        | some key => simp only [hobserve]
    rw [List.foldl_cons, ih, hstep, Gathered.gather, Gathered.gather, List.foldl_cons]
    cases artworkOf r <;> rfl

theorem sealed_see (newArt : NewArt) (l : List Observed) : (l.foldl (NewArt.see engine) newArt).sealed = newArt.sealed := by
  induction l generalizing newArt with
  | nil => rfl
  | cons r l ih =>
    rw [List.foldl_cons, ih]
    unfold NewArt.see NewArt.observeArtwork NewArt.observe
    split <;> [split; skip] <;> split <;> rfl

def artOf (l : List Observed) : NewArt := (l.foldl (NewArt.see engine) .empty).seal

variable {engine}

theorem get_leads_artOf {l : List Observed} (key : Text) : (artOf engine l).leads.get key =
      ((l.foldl (NewArt.see engine) .empty).leads.get key).map fun order =>
        ((NewArt.best (l.foldl (NewArt.see engine) .empty).leads).get (illustKeyIllustration key)).getD order := by
  have hsealed : (l.foldl (NewArt.see engine) .empty).sealed = false := sealed_see engine .empty l
  rw [artOf, NewArt.seal, hsealed, if_neg (by decide), JsMap.get_mapKeyed]

/-! ## What the scores phase holds -/

/-- The index is stale only where its length tells so. -/
def CorpusTables.Indexed (t : CorpusTables ω) : Prop :=
  t.index.entries.length = t.pending.length → ∀ name, (t.index.get name).isSome ↔ name ∈ t.pending.map Prod.fst

end

end Corpus
