-- SUMMARY: The gather's merge of key streams, the rows it keeps apart, and the page cut.
import Mathlib.Data.List.Basic
import Mathlib.Data.List.Lex
import Mathlib.Logic.Function.Basic
import Sylvan.Data.JsMap
import Sylvan.Data.SortedRuns
import Sylvan.Engine.KeyPacket

/-!
# The gather's merge

Each partition sends its best keys in order. The merge interleaves the streams
bytewise; a row that is in no stream joins as an entry of one more stream. Every
merged entry remembers the partition that owns it and its place there.
-/

namespace Gather

open SortedRuns

/-! ## Keys -/

/-- `memcmp`, a prefix first. -/
def compareKeys : Bytes → Bytes → ℤ
  | a :: as, b :: bs => if a.toNat ≠ b.toNat then (a.toNat : ℤ) - b.toNat else compareKeys as bs
  | as, bs => (as.length : ℤ) - bs.length

/-- A key as the list of its byte values, ordered lexicographically. -/
def byteOrder (key : Bytes) : List ℕ := key.map UInt8.toNat

theorem compareKeys_neg {a b : Bytes} : compareKeys a b < 0 ↔ byteOrder a < byteOrder b := by
  induction a generalizing b with
  | nil =>
    cases b with
    | nil => simp [compareKeys, byteOrder]
    | cons y b =>
      simp [compareKeys, byteOrder]
      omega
  | cons x a ih =>
    cases b with
    | nil =>
      simp [compareKeys, byteOrder]
      omega
    | cons y b =>
      simp only [compareKeys, byteOrder, List.map_cons, List.cons_lt_cons_iff] at ih ⊢
      split
      · rename_i hne
        simp only [hne, false_and, or_false]
        omega
      · rename_i heq
        rw [ih]
        simp [not_not.mp heq]

theorem compareKeys_comm (a b : Bytes) : compareKeys a b = -compareKeys b a := by
  induction a generalizing b with
  | nil => cases b <;> simp [compareKeys]
  | cons x a ih =>
    cases b with
    | nil => simp [compareKeys]
    | cons y b =>
      simp only [compareKeys, ih b, ne_comm (a := x.toNat)]
      split <;> omega

theorem compareKeys_nonneg {a b : Bytes} : 0 ≤ compareKeys a b ↔ byteOrder b ≤ byteOrder a := by
  rw [← not_lt, compareKeys_neg, not_lt]

/-! ## The merge of streams -/

/-- One row of the merged order: its owner, its vpid there, and its place in the
owner's stream. -/
structure MergedRef where
  partition : ℕ
  vpid : ℕ
  index : ℕ
  deriving DecidableEq

abbrev Streams : Type := List (List KeyEntry)

def headOf (streams : Streams) (heads : ℕ → ℕ) (p : ℕ) : Option KeyEntry :=
  (streams.getD p [])[heads p]?

/-- One turn of the scan over the heads: stream `p` against the best so far. -/
def better (streams : Streams) (heads : ℕ → ℕ) (best : Option (ℕ × KeyEntry)) (p : ℕ) : Option (ℕ × KeyEntry) :=
  match headOf streams heads p, best with
  | none, best => best
  | some entry, none => some (p, entry)
  | some entry, some (b, bestEntry) =>
    let cmp := compareKeys entry.key bestEntry.key
    if cmp < 0 ∨ (cmp = 0 ∧ entry.vpid < bestEntry.vpid) then some (p, entry)
    else some (b, bestEntry)

def bestHead (streams : Streams) (heads : ℕ → ℕ) : Option (ℕ × KeyEntry) :=
  (List.range streams.length).foldl (better streams heads) none

/-- The merge's loop, for as many turns as it is given. -/
def mergeLoop (streams : Streams) : ℕ → (ℕ → ℕ) → List MergedRef
  | 0, _ => []
  | turns + 1, heads =>
    match bestHead streams heads with
    | none => []
    | some (best, entry) =>
      { partition := best, vpid := entry.vpid, index := heads best } ::
        mergeLoop streams turns (Function.update heads best (heads best + 1))

def mergeKeyStreams (streams : Streams) : List MergedRef :=
  mergeLoop streams (streams.flatten.length + 1) fun _ => 0

/-! ## The rows kept apart -/

/-- A `MergedRef.index` no inline prefix reaches. -/
def NOT_INLINE : ℕ := 0xffffffff

/-- A candidate and the partition that sent it. -/
structure Chosen where
  partition : ℕ
  candidate : ArtlessCandidate
  deriving DecidableEq

/-- The body of `pickArtless`' loop. -/
def pickArtlessStep (best : Option Chosen) (offer : Option ArtlessCandidate × ℕ) : Option Chosen :=
  match offer.1, best with
  | none, best => best
  | some candidate, none => some { partition := offer.2, candidate }
  | some candidate, some held =>
    if compareKeys candidate.rank held.candidate.rank < 0 then
      some { partition := offer.2, candidate }
    else some held

/-- The art-less group's representative: the smallest rank, the lower partition on
a tie. -/
def pickArtless (candidates : List (Option ArtlessCandidate)) : Option Chosen :=
  candidates.zipIdx.foldl pickArtlessStep none

/-- The body of `pickShared`'s loops, over one partition's one candidate. -/
def pickSharedStep (best : JsMap Bytes Chosen) (offer : ℕ × SharedCandidate) : JsMap Bytes Chosen :=
  match best.get offer.2.art with
  | none => best.set offer.2.art { partition := offer.1, candidate := offer.2.toArtlessCandidate }
  | some held =>
    if compareKeys offer.2.rank held.candidate.rank < 0 then
      best.set offer.2.art { partition := offer.1, candidate := offer.2.toArtlessCandidate }
    else best

def sharedOffers (candidates : List (Option (List SharedCandidate))) : List (ℕ × SharedCandidate) :=
  candidates.zipIdx.flatMap fun c => (c.1.getD []).map fun candidate => (c.2, candidate)

def pickShared (candidates : List (Option (List SharedCandidate))) : List Chosen :=
  ((sharedOffers candidates).foldl pickSharedStep JsMap.empty).entries.map Prod.snd

/-- `chosen.sort`'s comparator: by key, then by partition. -/
def chosenLE (a b : Chosen) : Prop :=
  compareKeys a.candidate.key b.candidate.key < 0 ∨
    (compareKeys a.candidate.key b.candidate.key = 0 ∧ a.partition ≤ b.partition)

instance : DecidableRel chosenLE := fun _ _ => inferInstanceAs (Decidable (_ ∨ _ ∧ _))

/-- The rows a `unique=art` answer keeps apart. -/
def apartRows (artless : List (Option ArtlessCandidate))
    (shared : List (Option (List SharedCandidate))) : List Chosen :=
  pickShared shared ++ (pickArtless artless).toList

/-- A ref of the extra stream, led back to its candidate. -/
def leadBack (streams : ℕ) (chosen : List Chosen) (ref : MergedRef) : MergedRef :=
  if ref.partition = streams then
    match chosen[ref.vpid]? with
    | some c => { partition := c.partition, vpid := c.candidate.vpid, index := NOT_INLINE }
    | none => ref
  else ref

def mergeApart (streams : Streams) (artless : List (Option ArtlessCandidate))
    (shared : List (Option (List SharedCandidate))) : List MergedRef × ℕ :=
  if (apartRows artless shared).length = 0 then (mergeKeyStreams streams, 0)
  else
    let chosen := (apartRows artless shared).insertionSort chosenLE
    let merged := mergeKeyStreams (streams ++ [chosen.zipIdx.map fun c => { key := c.1.candidate.key, vpid := c.2 }])
    (merged.map (leadBack streams.length chosen), chosen.length)

/-! ## The page cut -/

/-- The body of `selectPage`'s loop: a ref past its partition's carried prefix. -/
def owe (carried : List ℕ) (byPartition : JsMap ℕ (List ℕ)) (ref : MergedRef) : JsMap ℕ (List ℕ) :=
  if ref.index < carried.getD ref.partition 0 then byPartition
  else byPartition.update ref.partition fun list => list.getD [] ++ [ref.vpid]

def selectPage (merged : List MergedRef) (offset limit : ℕ) (carried : List ℕ) : List MergedRef × JsMap ℕ (List ℕ) :=
  let page := (merged.drop offset).take limit
  (page, page.foldl (owe carried) JsMap.empty)

/-! ## What the merge gives -/

/-- The refs of a stream's entries, the first of them at place `i`. -/
def refsFrom (p : ℕ) : (i : ℕ) → List KeyEntry → List MergedRef
  | _, [] => []
  | i, entry :: entries => { partition := p, vpid := entry.vpid, index := i } ::
      refsFrom p (i + 1) entries

def pending (streams : Streams) (heads : ℕ → ℕ) : List MergedRef :=
  (List.range streams.length).flatMap fun p =>
    refsFrom p (heads p) ((streams.getD p []).drop (heads p))

def entryAt (streams : Streams) (ref : MergedRef) : Option KeyEntry :=
  (streams.getD ref.partition [])[ref.index]?

def refKey (streams : Streams) (ref : MergedRef) : List ℕ :=
  byteOrder (((entryAt streams ref).map KeyEntry.key).getD [])

theorem mem_refsFrom {p i : ℕ} {entries : List KeyEntry} {ref : MergedRef} : ref ∈ refsFrom p i entries ↔
      ∃ j entry, entries[j]? = some entry ∧ ref = { partition := p, vpid := entry.vpid, index := i + j } := by
  induction entries generalizing i with
  | nil => simp [refsFrom]
  | cons entry entries ih =>
    rw [refsFrom, List.mem_cons, ih]
    constructor
    · rintro (rfl | ⟨j, entry', hj, rfl⟩)
      · exact ⟨0, entry, rfl, rfl⟩
      · exact ⟨j + 1, entry', hj, by rw [Nat.add_assoc, Nat.add_comm 1 j]⟩
    · rintro ⟨j, entry', hj, rfl⟩
      cases j with
      | zero =>
        left
        simp_all
      | succ j => exact .inr ⟨j, entry', hj, by rw [Nat.add_assoc, Nat.add_comm 1 j]⟩

variable {streams : Streams} {heads : ℕ → ℕ}

theorem mem_pending {ref : MergedRef} :
    ref ∈ pending streams heads ↔ ref.partition < streams.length ∧ heads ref.partition ≤ ref.index ∧
      ∃ entry, entryAt streams ref = some entry ∧ ref.vpid = entry.vpid := by
  simp only [pending, List.mem_flatMap, List.mem_range, mem_refsFrom, List.getElem?_drop]
  constructor
  · rintro ⟨p, hp, j, entry, hj, rfl⟩
    exact ⟨hp, Nat.le_add_right _ _, entry, hj, rfl⟩
  · rintro ⟨hp, hle, entry, hentry, hvpid⟩
    refine ⟨ref.partition, hp, ref.index - heads ref.partition, entry, ?_, ?_⟩
    · rwa [Nat.add_sub_cancel' hle]
    · rw [Nat.add_sub_cancel' hle, ← hvpid]

theorem bestHead_spec (streams : Streams) (heads : ℕ → ℕ) : match bestHead streams heads with
    | none => ∀ p < streams.length, headOf streams heads p = none
    | some (best, entry) => best < streams.length ∧ headOf streams heads best = some entry ∧
        ∀ p < streams.length, ∀ entry', headOf streams heads p = some entry' →
          byteOrder entry.key ≤ byteOrder entry'.key := by
  have hfold : ∀ k, k ≤ streams.length → match (List.range k).foldl (better streams heads) none with
      | none => ∀ p < k, headOf streams heads p = none
      | some (best, entry) => best < streams.length ∧ headOf streams heads best = some entry ∧
          ∀ p < k, ∀ entry', headOf streams heads p = some entry' → byteOrder entry.key ≤ byteOrder entry'.key := by
    intro k
    induction k with
    | zero => simp
    | succ k ih =>
      intro hk
      have ih := ih (by omega)
      rw [List.range_succ, List.foldl_append, List.foldl_cons, List.foldl_nil]
      revert ih
      cases hbest : (List.range k).foldl (better streams heads) none with
      | none =>
        intro hnone
        cases hhead : headOf streams heads k with
        | none =>
          simp only [better, hhead]
          intro p hp
          rcases Nat.lt_succ_iff_lt_or_eq.mp hp with hp | rfl
          · exact hnone p hp
          · exact hhead
        | some entry =>
          simp only [better, hhead]
          refine ⟨by omega, trivial, fun p hp entry' hentry' => ?_⟩
          rcases Nat.lt_succ_iff_lt_or_eq.mp hp with hp | rfl
          · rw [hnone p hp] at hentry'
            cases hentry'
          · rw [Option.some.inj (hhead.symm.trans hentry')]
      | some held =>
        obtain ⟨best, entry⟩ := held
        rintro ⟨hlt, hentry, hle⟩
        cases hhead : headOf streams heads k with
        | none =>
          simp only [better, hhead]
          refine ⟨hlt, hentry, fun p hp entry' hentry' => ?_⟩
          rcases Nat.lt_succ_iff_lt_or_eq.mp hp with hp | rfl
          · exact hle p hp entry' hentry'
          · rw [hhead] at hentry'
            cases hentry'
        | some new =>
          by_cases hbetter : compareKeys new.key entry.key < 0 ∨ (compareKeys new.key entry.key = 0 ∧ new.vpid < entry.vpid)
          · have hnew : byteOrder new.key ≤ byteOrder entry.key := by
              rw [← compareKeys_nonneg, compareKeys_comm]
              rcases hbetter with h | ⟨h, -⟩ <;> omega
            simp only [better, hhead, if_pos hbetter]
            refine ⟨by omega, trivial, fun p hp entry' hentry' => ?_⟩
            rcases Nat.lt_succ_iff_lt_or_eq.mp hp with hp | rfl
            · exact hnew.trans (hle p hp entry' hentry')
            · rw [Option.some.inj (hhead.symm.trans hentry')]
          · simp only [better, hhead, if_neg hbetter]
            refine ⟨hlt, hentry, fun p hp entry' hentry' => ?_⟩
            rcases Nat.lt_succ_iff_lt_or_eq.mp hp with hp | rfl
            · exact hle p hp entry' hentry'
            · rw [← Option.some.inj (hhead.symm.trans hentry'), ← compareKeys_nonneg]
              omega
  exact hfold streams.length le_rfl

theorem flatMap_perm_of_head {α β : Type} {l : List α} {f f' : α → List β} {p : α} {r : β}
    (hnodup : l.Nodup) (hp : p ∈ l) (hf : f p = r :: f' p) (hrest : ∀ q, q ≠ p → f q = f' q) :
    (l.flatMap f).Perm (r :: l.flatMap f') := by
  induction l with
  | nil => cases hp
  | cons q l ih =>
    rw [List.nodup_cons] at hnodup
    rw [List.flatMap_cons, List.flatMap_cons]
    by_cases hq : q = p
    · subst hq
      have hsame : l.flatMap f = l.flatMap f' :=
        List.flatMap_congr fun a ha => hrest a fun h => hnodup.1 (h ▸ ha)
      rw [hf, hsame, List.cons_append]
    · have hp' : p ∈ l := (List.mem_cons.mp hp).resolve_left (Ne.symm hq)
      rw [hrest q hq]
      exact ((ih hnodup.2 hp').append_left _).trans List.perm_middle

theorem pending_update {best : ℕ} {entry : KeyEntry}
    (hlt : best < streams.length) (hhead : headOf streams heads best = some entry) :
    (pending streams heads).Perm
      ({ partition := best, vpid := entry.vpid, index := heads best } ::
        pending streams (Function.update heads best (heads best + 1))) := by
  refine flatMap_perm_of_head List.nodup_range (List.mem_range.mpr hlt) ?_ ?_
  · obtain ⟨hin, hentry⟩ := List.getElem?_eq_some_iff.mp hhead
    rw [List.drop_eq_getElem_cons hin, hentry, refsFrom, Function.update_self]
  · intro q hq
    rw [Function.update_of_ne hq]

theorem mem_mergeLoop {turns : ℕ} {ref : MergedRef}
    (href : ref ∈ mergeLoop streams turns heads) :
    ref.partition < streams.length ∧ ∃ entry, entryAt streams ref = some entry ∧ ref.vpid = entry.vpid := by
  induction turns generalizing heads with
  | zero => cases href
  | succ turns ih =>
    have hspec := bestHead_spec streams heads
    rw [mergeLoop] at href
    revert hspec href
    cases bestHead streams heads with
    | none =>
      intro href _
      cases href
    | some held =>
      obtain ⟨best, entry⟩ := held
      rintro href ⟨hlt, hhead, -⟩
      rcases List.mem_cons.mp href with rfl | href
      · exact ⟨hlt, entry, hhead, rfl⟩
      · exact ih href

theorem length_mergeLoop_le (streams : Streams) (turns : ℕ) (heads : ℕ → ℕ) :
    (mergeLoop streams turns heads).length ≤ (pending streams heads).length := by
  induction turns generalizing heads with
  | zero => exact Nat.zero_le _
  | succ turns ih =>
    have hspec := bestHead_spec streams heads
    rw [mergeLoop]
    revert hspec
    cases bestHead streams heads with
    | none =>
      intro _
      exact Nat.zero_le _
    | some held =>
      obtain ⟨best, entry⟩ := held
      rintro ⟨hlt, hhead, -⟩
      rw [(pending_update hlt hhead).length_eq, List.length_cons, List.length_cons]
      exact Nat.succ_le_succ (ih _)

theorem mergeLoop_spec (hsorted : ∀ s ∈ streams, SortedBy (byteOrder ∘ KeyEntry.key) s) {turns : ℕ}
    (hturns : (pending streams heads).length < turns) :
    (mergeLoop streams turns heads).Perm (pending streams heads) ∧
      (mergeLoop streams turns heads).Pairwise fun a b => refKey streams a ≤ refKey streams b := by
  induction turns generalizing heads with
  | zero => omega
  | succ turns ih =>
    have hspec := bestHead_spec streams heads
    rw [mergeLoop]
    revert hspec
    cases bestHead streams heads with
    | none =>
      intro hnone
      have hempty : pending streams heads = [] := by
        rw [List.eq_nil_iff_forall_not_mem]
        intro ref href
        obtain ⟨hp, hle, entry, hentry, -⟩ := mem_pending.mp href
        have hhead := List.getElem?_eq_none_iff.mp (hnone ref.partition hp)
        obtain ⟨hin, -⟩ := List.getElem?_eq_some_iff.mp hentry
        omega
      rw [hempty]
      exact ⟨.refl _, .nil⟩
    | some held =>
      obtain ⟨best, entry⟩ := held
      rintro ⟨hlt, hhead, hmin⟩
      have hperm := pending_update hlt hhead
      have hlen := hperm.length_eq
      rw [List.length_cons] at hlen
      have hrest : (pending streams (Function.update heads best (heads best + 1))).length < turns := by
        omega
      obtain ⟨hperm', hpair⟩ := ih hrest
      have hkey : refKey streams
          { partition := best, vpid := entry.vpid, index := heads best } =
          byteOrder entry.key := by
        have hat : entryAt streams
            { partition := best, vpid := entry.vpid, index := heads best } = some entry := hhead
        simp [refKey, hat]
      refine ⟨((hperm'.cons _).trans hperm.symm), List.pairwise_cons.mpr ⟨?_, hpair⟩⟩
      intro ref href
      have href := hperm.mem_iff.mpr (List.mem_cons_of_mem _ (hperm'.mem_iff.mp href))
      obtain ⟨hp, hle, entry', hentry', -⟩ := mem_pending.mp href
      obtain ⟨hin, hget⟩ := List.getElem?_eq_some_iff.mp hentry'
      have hq : heads ref.partition < (streams.getD ref.partition []).length := by omega
      have hfirst := hmin ref.partition hp _ (List.getElem?_eq_getElem hq)
      have hkey' : refKey streams ref = byteOrder entry'.key := by simp [refKey, hentry']
      rw [hkey, hkey', ← hget]
      refine hfirst.trans ?_
      have hstream : SortedBy (byteOrder ∘ KeyEntry.key) (streams.getD ref.partition []) := by
        rw [List.getD_eq_getElem?_getD, List.getElem?_eq_getElem hp, Option.getD_some]
        exact hsorted _ (List.getElem_mem hp)
      rcases hle.lt_or_eq with hlt' | heq
      · exact (List.pairwise_iff_getElem.mp hstream _ _ hq hin hlt').le
      · simp only [heq]
        exact le_rfl

end Gather
