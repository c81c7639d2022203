-- SUMMARY: Partitions that hold nothing of a query leave the gather's page as it was.
import Mathlib.Data.List.Flatten
import Sylvan.Engine.GatherTells

/-!
# The pruned gather

A gather over some of the partitions numbers them anew. When the ones left out hold
no row and no candidate, the merge takes the same turns, the rows kept apart are the
same candidates, and the page is the same rows of the same partitions.
-/

namespace Gather

/-! ## Some of the partitions -/

/-- Some of `n` partitions, in ascending order. -/
structure Kept (kept : List ℕ) (n : ℕ) : Prop where
  ascending : kept.Pairwise (· < ·)
  within : ∀ p ∈ kept, p < n

def pick {α : Type} (kept : List ℕ) (l : List α) : List α := kept.filterMap fun p => l[p]?

/-- The place among all `n` of the `i`-th kept one; what comes after all of them
stays after all. -/
def placeOf (kept : List ℕ) (n i : ℕ) : ℕ :=
  if i < kept.length then kept.getD i 0 else n + (i - kept.length)

namespace Kept

variable {kept : List ℕ} {n : ℕ} (h : Kept kept n)

include h

theorem placeOf_lt {i : ℕ} (hi : i < kept.length) : placeOf kept n i < n := by
  rw [placeOf, if_pos hi, List.getD_eq_getElem?_getD, List.getElem?_eq_getElem hi]
  exact h.within _ (List.getElem_mem hi)

theorem strictMono : StrictMono (placeOf kept n) := by
  intro i j hij
  by_cases hj : j < kept.length
  · have hi : i < kept.length := hij.trans hj
    have hrel := List.pairwise_iff_getElem.mp h.ascending i j hi hj hij
    simpa [placeOf, hi, hj] using hrel
  · by_cases hi : i < kept.length
    · have hlt := h.placeOf_lt hi
      have hat : placeOf kept n j = n + (j - kept.length) := if_neg hj
      omega
    · simp only [placeOf, if_neg hi, if_neg hj]
      omega

theorem filter_range : (List.range n).filter (fun p => p ∈ kept) = kept := by
  have hsorted : ((List.range n).filter fun p => p ∈ kept).Pairwise (· < ·) :=
    List.pairwise_lt_range.filter _
  refine List.Perm.eq_of_pairwise (fun _ _ _ _ hab hba => (lt_asymm hab hba).elim) hsorted
    h.ascending ?_
  refine (List.perm_ext_iff_of_nodup (List.nodup_range.filter _)
    (h.ascending.imp fun hab => hab.ne)).mpr fun p => ?_
  simp only [List.mem_filter, List.mem_range, decide_eq_true_eq]
  exact ⟨fun hp => hp.2, fun hp => ⟨h.within p hp, hp⟩⟩

theorem append : Kept (kept ++ [n]) (n + 1) where
  ascending := by
    refine List.pairwise_append.mpr ⟨h.ascending, List.pairwise_singleton _ _, ?_⟩
    intro p hp q hq
    rw [List.mem_singleton.mp hq]
    exact h.within p hp
  within p hp := by
    rcases List.mem_append.mp hp with hp | hp
    · exact (h.within p hp).trans (Nat.lt_succ_self n)
    · rw [List.mem_singleton.mp hp]
      exact Nat.lt_succ_self n

theorem foldl {β γ : Type} {f : β → ℕ → β} {g : γ → ℕ → γ} {r : γ → β}
    (hskip : ∀ p, p ∉ kept → ∀ b, f b p = b)
    (hsame : ∀ i < kept.length, ∀ c, r (g c i) = f (r c) (placeOf kept n i)) (c : γ) :
    r ((List.range kept.length).foldl g c) = (List.range n).foldl f (r c) := by
  have hfilter : ∀ (l : List ℕ) (b : β), l.foldl f b = (l.filter fun p => p ∈ kept).foldl f b := by
    intro l
    induction l with
    | nil => intro b; rfl
    | cons p l ih =>
      intro b
      by_cases hp : p ∈ kept
      · rw [List.filter_cons_of_pos (by simpa using hp), List.foldl_cons, List.foldl_cons, ih]
      · rw [List.filter_cons_of_neg (by simpa using hp), List.foldl_cons, hskip p hp, ih]
  rw [hfilter, h.filter_range]
  have htake : ∀ k ≤ kept.length, r ((List.range k).foldl g c) = (kept.take k).foldl f (r c) := by
    intro k
    induction k with
    | zero => intro _; rfl
    | succ k ih =>
      intro hk
      have hat : placeOf kept n k = kept[k] := by simp [placeOf, show k < kept.length from hk]
      rw [List.range_succ, List.foldl_append, List.take_succ_eq_append_getElem hk,
        List.foldl_append, ← ih (Nat.le_of_succ_le hk), ← hat]
      exact hsame k hk _
  rw [htake kept.length le_rfl, List.take_length]

end Kept

theorem placeOf_length (kept : List ℕ) (n : ℕ) : placeOf kept n kept.length = n := by
  simp [placeOf]

theorem placeOf_append (kept : List ℕ) (n : ℕ) : placeOf (kept ++ [n]) (n + 1) = placeOf kept n := by
  funext i
  simp only [placeOf, List.length_append, List.length_singleton]
  rcases lt_trichotomy i kept.length with hi | rfl | hi
  · rw [if_pos (by omega), if_pos hi, List.getD_eq_getElem?_getD, List.getD_eq_getElem?_getD, List.getElem?_append_left hi]
  · simp
  · rw [if_neg (by omega), if_neg (by omega)]
    omega

section Pick

variable {α : Type} {kept : List ℕ} {l : List α}

theorem map_pick {β : Type} (f : α → β) : (pick kept l).map f = pick kept (l.map f) := by
  rw [pick, pick, List.map_filterMap]
  exact List.filterMap_congr fun p _ => by rw [List.getElem?_map]

theorem pick_append (h : Kept kept l.length) (x : α) : pick (kept ++ [l.length]) (l ++ [x]) = pick kept l ++ [x] := by
  have hsame : kept.filterMap (fun p => (l ++ [x])[p]?) = kept.filterMap fun p => l[p]? :=
    List.filterMap_congr fun p hp => List.getElem?_append_left (h.within p hp)
  rw [pick, List.filterMap_append, hsame]
  simp [pick]

theorem getElem?_pick (h : Kept kept l.length) (i : ℕ) : (pick kept l)[i]? = l[placeOf kept l.length i]? := by
  have hmap : ∀ {kept : List ℕ}, (∀ p ∈ kept, p < l.length) → (pick kept l).map some = kept.map fun p => l[p]? := by
    intro kept hwithin
    induction kept with
    | nil => rfl
    | cons p kept ih =>
      have hp : l[p]? = some (l.get ⟨p, hwithin p (by simp)⟩) :=
        List.getElem?_eq_getElem (hwithin p (by simp))
      have hrest := ih fun q hq => hwithin q (by simp [hq])
      rw [pick] at hrest ⊢
      rw [List.filterMap_cons, hp, List.map_cons, hrest, List.map_cons, hp]
  have hsame := congrArg (·[i]?) (hmap h.within)
  simp only [List.getElem?_map] at hsame
  by_cases hi : i < kept.length
  · rw [List.getElem?_eq_getElem hi, Option.map_some] at hsame
    have hat : placeOf kept l.length i = kept[i] := by simp [placeOf, hi]
    rw [hat]
    cases hpick : (pick kept l)[i]? with
    | none => simp [hpick] at hsame
    | some x =>
      rw [hpick, Option.map_some] at hsame
      exact Option.some.inj hsame
  · have hnone : l[placeOf kept l.length i]? = none := by
      rw [List.getElem?_eq_none_iff, placeOf, if_neg hi]
      omega
    rw [hnone]
    rw [List.getElem?_eq_none (by omega : kept.length ≤ i), Option.map_none] at hsame
    simpa using hsame

theorem length_pick (h : Kept kept l.length) : (pick kept l).length = kept.length := by
  refine Nat.le_antisymm (List.length_filterMap_le _ _) ?_
  by_contra hlt
  have hnone := getElem?_pick h (pick kept l).length
  rw [List.getElem?_eq_none le_rfl, eq_comm, List.getElem?_eq_none_iff] at hnone
  exact absurd (h.placeOf_lt (not_le.mp hlt)) (not_lt.mpr hnone)

def Rest (kept : List ℕ) (l : List α) (P : α → Prop) : Prop :=
  ∀ p, p ∉ kept → ∀ x, l[p]? = some x → P x

theorem map_range_getElem? (l : List α) : (List.range l.length).map (fun p => l[p]?) = l.map some := by
  refine List.ext_getElem? fun i => ?_
  rw [List.getElem?_map, List.getElem?_map]
  by_cases hi : i < l.length
  · rw [List.getElem?_range hi, List.getElem?_eq_getElem hi]
    simp [List.getElem?_eq_getElem hi]
  · rw [List.getElem?_eq_none (by simpa using hi), List.getElem?_eq_none (by omega)]
    rfl

theorem flatMap_range {β : Type} (l : List α) (f : α → List β) :
    (List.range l.length).flatMap (fun p => (l[p]?.map f).getD []) = l.flatMap f := by
  have hmap := congrArg (List.flatMap fun x => (x.map f).getD []) (map_range_getElem? l)
  rw [List.flatMap_map, List.flatMap_map] at hmap
  exact hmap

theorem flatMap_pick {β : Type} (h : Kept kept l.length) {f : α → List β}
    (hrest : Rest kept l fun x => f x = []) : (pick kept l).flatMap f = l.flatMap f := by
  rw [← flatMap_range, ← flatMap_range l, length_pick h, List.flatMap_eq_foldl, List.flatMap_eq_foldl]
  refine h.foldl (r := id) (fun p hp acc => ?_) (fun i _ acc => ?_) []
  · cases hat : l[p]? with
    | none => simp
    | some x => simp [hrest p hp x hat]
  · rw [getElem?_pick h]
    rfl

end Pick

/-! ## The merge of the kept streams -/

def MergedRef.renumber (place : ℕ → ℕ) (ref : MergedRef) : MergedRef :=
  { ref with partition := place ref.partition }

def Chosen.renumber (place : ℕ → ℕ) (c : Chosen) : Chosen :=
  { c with partition := place c.partition }

section Merge

variable {kept : List ℕ} {streams : Streams} (h : Kept kept streams.length)

include h

theorem getD_pick (i : ℕ) : (pick kept streams).getD i [] = streams.getD (placeOf kept streams.length i) [] := by
  rw [List.getD_eq_getElem?_getD, List.getD_eq_getElem?_getD, getElem?_pick h]

theorem bestHead_pick (hrest : Rest kept streams fun s => s = []) (heads : ℕ → ℕ) :
    (bestHead (pick kept streams) (heads ∘ placeOf kept streams.length)).map
        (fun best => (placeOf kept streams.length best.1, best.2)) = bestHead streams heads := by
  rw [bestHead, length_pick h]
  refine h.foldl (r := Option.map fun best : ℕ × KeyEntry =>
    (placeOf kept streams.length best.1, best.2))
    (fun p hp best => ?_) (fun i hi best => ?_) none
  · have hhead : headOf streams heads p = none := by
      rw [headOf, List.getD_eq_getElem?_getD]
      cases hat : streams[p]? with
      | none => simp
      | some s => simp [hrest p hp s hat]
    cases best <;> simp only [better, hhead]
  · have hhead : headOf (pick kept streams) (heads ∘ placeOf kept streams.length) i =
        headOf streams heads (placeOf kept streams.length i) := by
      rw [headOf, getD_pick h]
      rfl
    cases hsome : headOf streams heads (placeOf kept streams.length i) with
    | none => cases best <;> simp only [better, hhead, hsome, Option.map_some, Option.map_none]
    | some entry =>
      cases best with
      | none => simp only [better, hhead, hsome, Option.map_some, Option.map_none]
      | some held =>
        simp only [better, hhead, hsome, Option.map_some]
        split <;> rfl

theorem mergeLoop_pick (hrest : Rest kept streams fun s => s = []) (turns : ℕ) (heads : ℕ → ℕ) :
    (mergeLoop (pick kept streams) turns (heads ∘ placeOf kept streams.length)).map
        (MergedRef.renumber (placeOf kept streams.length)) = mergeLoop streams turns heads := by
  induction turns generalizing heads with
  | zero => rfl
  | succ turns ih =>
    have hbest := bestHead_pick h hrest heads
    rw [mergeLoop, mergeLoop, ← hbest]
    cases bestHead (pick kept streams) (heads ∘ placeOf kept streams.length) with
    | none => rfl
    | some held =>
      obtain ⟨best, entry⟩ := held
      simp only [Option.map_some, List.map_cons]
      rw [← ih, Function.update_comp_eq_of_injective _ h.strictMono.injective]
      rfl

theorem mergeKeyStreams_pick (hrest : Rest kept streams fun s => s = []) : (mergeKeyStreams (pick kept streams)).map
        (MergedRef.renumber (placeOf kept streams.length)) = mergeKeyStreams streams := by
  have hflat : (pick kept streams).flatten = streams.flatten := by
    have hsame := flatMap_pick h (f := id) hrest
    rwa [List.flatMap_id, List.flatMap_id] at hsame
  rw [mergeKeyStreams, mergeKeyStreams, hflat]
  exact mergeLoop_pick h hrest _ fun _ => 0

end Merge

/-! ## The rows kept apart -/

section Apart

variable {kept : List ℕ} {n : ℕ}

theorem zipIdx_eq_map_range {α : Type} (l : List (Option α)) :
    l.zipIdx = (List.range l.length).map fun p => ((l[p]?).getD none, p) := by
  refine List.ext_getElem? fun i => ?_
  rw [List.getElem?_zipIdx, List.getElem?_map]
  by_cases hi : i < l.length
  · rw [List.getElem?_range hi, List.getElem?_eq_getElem hi]
    simp [List.getElem?_eq_getElem hi]
  · rw [List.getElem?_eq_none (by omega : l.length ≤ i),
      List.getElem?_eq_none (by simpa using hi : (List.range l.length).length ≤ i)]
    rfl

theorem pickArtless_pick {artless : List (Option ArtlessCandidate)} (h : Kept kept artless.length)
    (hrest : Rest kept artless fun c => c = none) :
    (pickArtless (pick kept artless)).map (Chosen.renumber (placeOf kept artless.length)) = pickArtless artless := by
  rw [pickArtless, pickArtless, zipIdx_eq_map_range, zipIdx_eq_map_range, List.foldl_map, List.foldl_map, length_pick h]
  refine h.foldl (r := Option.map (Chosen.renumber (placeOf kept artless.length)))
    (fun p hp best => ?_) (fun i hi best => ?_) none
  · have hnone : (artless[p]?).getD none = none := by
      cases hat : artless[p]? with
      | none => rfl
      | some c => exact hrest p hp c hat
    cases best <;> simp only [pickArtlessStep, hnone]
  · rw [getElem?_pick h]
    cases (artless[placeOf kept artless.length i]?).getD none with
    | none => cases best <;> rfl
    | some candidate =>
      cases best with
      | none => rfl
      | some held =>
        simp only [pickArtlessStep, Option.map_some, Chosen.renumber]
        split <;> rfl

/-- The candidates a partition sends join the choice one by one. -/
def offerAll (best : JsMap Bytes Chosen) (p : ℕ) (sent : List SharedCandidate) : JsMap Bytes Chosen :=
  sent.foldl (fun best candidate => pickSharedStep best (p, candidate)) best

theorem pickShared_eq (shared : List (Option (List SharedCandidate))) : pickShared shared = ((List.range shared.length).foldl
      (fun best p => offerAll best p (((shared[p]?).getD none).getD [])) JsMap.empty).entries.map
        Prod.snd := by
  rw [pickShared, sharedOffers, List.foldl_flatMap, zipIdx_eq_map_range, List.foldl_map]
  simp only [List.foldl_map, offerAll]

theorem offerAll_renumber (place : ℕ → ℕ) (best : JsMap Bytes Chosen) (p : ℕ)
    (sent : List SharedCandidate) :
    (offerAll best p sent).mapValues (Chosen.renumber place) =
      offerAll (best.mapValues (Chosen.renumber place)) (place p) sent := by
  induction sent generalizing best with
  | nil => rfl
  | cons candidate sent ih =>
    have hstep : (pickSharedStep best (p, candidate)).mapValues (Chosen.renumber place) =
        pickSharedStep (best.mapValues (Chosen.renumber place)) (place p, candidate) := by
      simp only [pickSharedStep, JsMap.get_mapValues]
      cases best.get candidate.art with
      | none => exact JsMap.mapValues_set _ _ _ _
      | some held =>
        simp only [Option.map_some, Chosen.renumber]
        split
        · exact JsMap.mapValues_set _ _ _ _
        · rfl
    exact (ih _).trans (by rw [hstep]; rfl)

theorem pickShared_pick {shared : List (Option (List SharedCandidate))}
    (h : Kept kept shared.length) (hrest : Rest kept shared fun sent => sent.getD [] = []) :
    (pickShared (pick kept shared)).map (Chosen.renumber (placeOf kept shared.length)) = pickShared shared := by
  have hfold := h.foldl (β := JsMap Bytes Chosen) (γ := JsMap Bytes Chosen)
    (f := fun best p => offerAll best p (((shared[p]?).getD none).getD []))
    (g := fun best i => offerAll best i ((((pick kept shared)[i]?).getD none).getD []))
    (r := JsMap.mapValues (Chosen.renumber (placeOf kept shared.length))) (fun p hp best => ?_)
    (fun i hi best => ?_) JsMap.empty
  · rw [pickShared_eq, pickShared_eq, length_pick h]
    have hempty : (JsMap.empty : JsMap Bytes Chosen).mapValues
        (Chosen.renumber (placeOf kept shared.length)) = JsMap.empty := rfl
    rw [hempty] at hfold
    rw [← hfold, JsMap.mapValues, List.map_map, List.map_map]
    rfl
  · have hnone : ((shared[p]?).getD none).getD [] = [] := by
      cases hat : shared[p]? with
      | none => rfl
      | some sent => exact hrest p hp sent hat
    simp only [hnone]
    rfl
  · rw [offerAll_renumber, getElem?_pick h]

theorem apartRows_pick {artless : List (Option ArtlessCandidate)}
    {shared : List (Option (List SharedCandidate))} (hartless : Kept kept artless.length)
    (hlen : shared.length = artless.length) (hnone : Rest kept artless fun c => c = none)
    (hempty : Rest kept shared fun sent => sent.getD [] = []) :
    (apartRows (pick kept artless) (pick kept shared)).map
        (Chosen.renumber (placeOf kept artless.length)) = apartRows artless shared := by
  have hshared := pickShared_pick (hlen ▸ hartless) hempty
  rw [hlen] at hshared
  rw [apartRows, apartRows, List.map_append, hshared, ← pickArtless_pick hartless hnone, Option.toList_map]

theorem sort_renumber {place : ℕ → ℕ} (hplace : StrictMono place) (chosen : List Chosen) :
    (chosen.map (Chosen.renumber place)).insertionSort chosenLE =
      (chosen.insertionSort chosenLE).map (Chosen.renumber place) := by
  refine (List.map_insertionSort _ _ _ chosen fun a _ b _ => ?_).symm
  simp only [chosenLE, Chosen.renumber, hplace.le_iff_le]

end Apart

variable {kept : List ℕ}

theorem leadBack_renumber {n : ℕ} (h : Kept kept n) (chosen : List Chosen)
    (ref : MergedRef) :
    (leadBack kept.length chosen ref).renumber (placeOf kept n) =
      leadBack n (chosen.map (Chosen.renumber (placeOf kept n))) (ref.renumber (placeOf kept n)) := by
  have hend : placeOf kept n ref.partition = n ↔ ref.partition = kept.length := by
    conv_lhs => rhs; rw [← placeOf_length kept n]
    exact h.strictMono.injective.eq_iff
  by_cases hp : ref.partition = kept.length
  · have hn : (ref.renumber (placeOf kept n)).partition = n := hend.mpr hp
    rw [leadBack, leadBack, if_pos hp, if_pos hn, List.getElem?_map]
    have hvpid : (ref.renumber (placeOf kept n)).vpid = ref.vpid := rfl
    rw [hvpid]
    cases chosen[ref.vpid]? <;> rfl
  · have hn : ¬ (ref.renumber (placeOf kept n)).partition = n := fun hn => hp (hend.mp hn)
    rw [leadBack, leadBack, if_neg hp, if_neg hn]

/-- **The kept partitions' merge is all partitions' merge**, renumbered: the same
rows in the same order, ties and rows kept apart included. -/
theorem mergeApart_pick {streams : Streams}
    {artless : List (Option ArtlessCandidate)} {shared : List (Option (List SharedCandidate))}
    (h : Kept kept streams.length) (hartless : artless.length = streams.length)
    (hshared : shared.length = streams.length) (hrest : Rest kept streams fun s => s = [])
    (hnone : Rest kept artless fun c => c = none)
    (hempty : Rest kept shared fun sent => sent.getD [] = []) :
    (mergeApart (pick kept streams) (pick kept artless) (pick kept shared)).1.map
        (MergedRef.renumber (placeOf kept streams.length)) =
      (mergeApart streams artless shared).1 := by
  set place := placeOf kept streams.length with hplace
  have hrows : (apartRows (pick kept artless) (pick kept shared)).map (Chosen.renumber place) =
      apartRows artless shared := by
    have hpick := apartRows_pick (hartless.symm ▸ h) (hshared.trans hartless.symm) hnone hempty
    rwa [hartless] at hpick
  have hlen := congrArg List.length hrows
  rw [List.length_map] at hlen
  rw [mergeApart_eq, mergeApart_eq, ← hlen]
  split
  · exact mergeKeyStreams_pick h hrest
  · rw [← hrows, sort_renumber h.strictMono]
    set chosen := (apartRows (pick kept artless) (pick kept shared)).insertionSort chosenLE
      with hchosen
    have hextra : extraStream (chosen.map (Chosen.renumber place)) = extraStream chosen := by
      refine List.ext_getElem? fun i => ?_
      rw [extraStream_getElem?, extraStream_getElem?, List.getElem?_map, Option.map_map]
      rfl
    have hrestAll : Rest (kept ++ [streams.length]) (streams ++ [extraStream chosen])
        fun s => s = [] := by
      intro p hp s hs
      rw [List.mem_append, List.mem_singleton, not_or] at hp
      rcases lt_trichotomy p streams.length with hlt | heq | hgt
      · rw [List.getElem?_append_left hlt] at hs
        exact hrest p hp.1 s hs
      · exact (hp.2 heq).elim
      · rw [List.getElem?_eq_none (by rw [List.length_append]; exact hgt)] at hs
        cases hs
    have hall := mergeKeyStreams_pick (by simpa using h.append) hrestAll
    rw [pick_append h, List.length_append, List.length_singleton, placeOf_append, ← hplace] at hall
    rw [hextra, ← hall, List.map_map, List.map_map, length_pick h]
    exact List.map_congr_left fun ref _ => leadBack_renumber h chosen ref

/-! ## The page of the kept partitions -/

section Page

variable {R : Type}

/-- A partition that holds no row of the query and no candidate for one. -/
structure Partition.Bare (part : Partition R) : Prop where
  entries : part.entries = []
  artless : part.artless = none
  shared : part.shared.getD [] = []

/-- Some of a build's partitions, every one among them that holds anything. -/
structure Covers (kept : List ℕ) (parts : List (Partition R)) : Prop where
  among : Kept kept parts.length
  rest : Rest kept parts Partition.Bare

namespace Covers

variable {kept : List ℕ} {parts : List (Partition R)} (h : Covers kept parts)

include h

theorem rest_map {α : Type} {f : Partition R → α} {P : α → Prop}
    (hbare : ∀ part, part.Bare → P (f part)) : Rest kept (parts.map f) P := by
  intro p hp x hx
  rw [List.getElem?_map, Option.map_eq_some_iff] at hx
  obtain ⟨part, hpart, rfl⟩ := hx
  exact hbare part (h.rest p hp part hpart)

theorem rest_artless : Rest kept (parts.map Partition.artless) fun c => c = none :=
  h.rest_map fun _ hbare => hbare.artless

theorem rest_shared : Rest kept (parts.map Partition.shared) fun sent => sent.getD [] = [] :=
  h.rest_map fun _ hbare => hbare.shared

theorem mergedOf_pick (bound : ℕ) :
    (mergedOf (pick kept parts) bound).map (MergedRef.renumber (placeOf kept parts.length)) = mergedOf parts bound := by
  have hstreams : Rest kept (parts.map fun part => part.entries.take bound) fun s => s = [] :=
    h.rest_map fun part hbare => by simp [hbare.entries]
  have hpick := mergeApart_pick (by simpa using h.among) (by simp) (by simp) hstreams
    h.rest_artless h.rest_shared
  rw [List.length_map] at hpick
  rw [mergedOf, map_pick, map_pick, map_pick]
  exact hpick

theorem totalOf_pick : totalOf (pick kept parts) = totalOf parts := by
  have hsum : ((pick kept parts).map fun part => part.entries.length).sum =
      (parts.map fun part => part.entries.length).sum := by
    have hflat := congrArg List.length (flatMap_pick h.among (f := fun part => part.entries)
      fun p hp part hpart => (h.rest p hp part hpart).entries)
    rwa [List.length_flatMap, List.length_flatMap] at hflat
  have hrows := congrArg List.length
    (apartRows_pick (by simpa using h.among) (by simp) h.rest_artless h.rest_shared)
  rw [List.length_map] at hrows
  rw [totalOf, totalOf, hsum, apartOf, apartOf, map_pick, map_pick, hrows]

theorem slots_pick (codec : RowCodec R) (shaping : GatherShaping R) (opts : EngineSearchOptions) :
    ((cutOf (pick kept parts) opts).map fun ref =>
        slotOf codec shaping (pick kept parts) ref.owner) =
      (cutOf parts opts).map fun ref => slotOf codec shaping parts ref.owner := by
  have hcut : (cutOf (pick kept parts) opts).map
      (MergedRef.renumber (placeOf kept parts.length)) = cutOf parts opts := by
    rw [cutOf, cutOf, List.map_take, List.map_drop, h.mergedOf_pick]
  rw [← hcut, List.map_map]
  refine List.map_congr_left fun ref _ => ?_
  simp only [slotOf, Function.comp_apply, MergedRef.owner, MergedRef.renumber, getElem?_pick h.among]

/-- **The page of the kept partitions is the page of all of them.** -/
theorem tells_pick {codec : RowCodec R} {shaping : GatherShaping R} {opts : EngineSearchOptions}
    {build : Build} {page : GatheredPage} :
    Tells codec shaping opts build (pick kept parts) page ↔ Tells codec shaping opts build parts page := by
  constructor
  · intro htells
    exact {
      slots := htells.slots.trans (h.slots_pick codec shaping opts)
      total := htells.total.trans h.totalOf_pick
      widened := htells.widened
      builtAt := htells.builtAt }
  · intro htells
    exact {
      slots := htells.slots.trans (h.slots_pick codec shaping opts).symm
      total := htells.total.trans h.totalOf_pick.symm
      widened := htells.widened
      builtAt := htells.builtAt }

end Covers

/-- Two pages a client cannot tell apart. -/
structure GatheredPage.Same (page page' : GatheredPage) : Prop where
  total : page.total = page'.total
  slots : page.slots = page'.slots
  widened : page.widened = page'.widened
  builtAt : page.builtAt = page'.builtAt

theorem Tells.same {codec : RowCodec R} {shaping : GatherShaping R} {opts : EngineSearchOptions}
    {build : Build} {parts : List (Partition R)} {page page' : GatheredPage}
    (h : Tells codec shaping opts build parts page)
    (h' : Tells codec shaping opts build parts page') : page.Same page' where
  total := h.total.trans h'.total.symm
  slots := h.slots.trans h'.slots.symm
  widened := h.widened.trans h'.widened.symm
  builtAt := h.builtAt.trans h'.builtAt.symm

end Page

/-! ## The clients of all partitions, and of some -/

section Numbered

variable {W R : Type} {clients : List (PartitionClient W)} {kept : List ℕ}

/-- The clients at the kept places, numbered as all of them are. -/
def numbered (clients : List (PartitionClient W)) (kept : List ℕ) : List (PartitionClient W × ℕ) :=
  kept.filterMap fun p => (clients[p]?).map fun client => (client, p)

theorem mem_numbered {m : PartitionClient W × ℕ} : m ∈ numbered clients kept ↔ m.2 ∈ kept ∧ clients[m.2]? = some m.1 := by
  obtain ⟨client, p⟩ := m
  simp only [numbered, List.mem_filterMap, Option.map_eq_some_iff, Prod.mk.injEq]
  constructor
  · rintro ⟨q, hq, client', hclient, rfl, rfl⟩
    exact ⟨hq, hclient⟩
  · rintro ⟨hp, hclient⟩
    exact ⟨p, hp, client, hclient, rfl, rfl⟩

theorem clients_numbered : (numbered clients kept).map Prod.fst = pick kept clients := by
  rw [numbered, pick, List.map_filterMap]
  refine List.filterMap_congr fun p _ => ?_
  cases clients[p]? <;> rfl

theorem parts_numbered (parts : List (Partition R)) (hwithin : ∀ p ∈ kept, p < clients.length) :
    (numbered clients kept).filterMap (fun m => parts[m.2]?) = pick kept parts := by
  rw [numbered, pick, List.filterMap_filterMap]
  refine List.filterMap_congr fun p hp => ?_
  rw [List.getElem?_eq_getElem (hwithin p hp)]
  rfl

theorem numbered_ne_nil (hwithin : ∀ p ∈ kept, p < clients.length) (hsome : kept ≠ []) : numbered clients kept ≠ [] := by
  obtain ⟨p, rest, rfl⟩ := List.exists_cons_of_ne_nil hsome
  refine List.ne_nil_of_mem (mem_numbered (m := (clients.get ⟨p, hwithin p (by simp)⟩, p)).mpr
    ⟨by simp, ?_⟩)
  exact List.getElem?_eq_getElem (hwithin p (by simp))

end Numbered

/-- A client for each partition of one release, each of them answering for it. -/
structure Roster (W R : Type) where
  opts : EngineSearchOptions
  codec : RowCodec R
  shaping : GatherShaping R
  release : Release R
  clients : List (PartitionClient W)
  nonempty : release.parts ≠ []
  lawful : codec.Lawful
  honest : List.Forall₂ (Honest codec shaping release.build opts) clients release.parts
  stamped : ∀ part ∈ release.parts, builtAtOfStoreKey part.storeKey = .ok release.build.builtAt

namespace Roster

variable {W R : Type} (roster : Roster W R)

theorem within (hwithin : ∀ p ∈ kept, p < roster.release.parts.length) : ∀ p ∈ kept, p < roster.clients.length := fun p hp =>
  roster.honest.length_eq ▸ hwithin p hp

def crew (kept : List ℕ) (hwithin : ∀ p ∈ kept, p < roster.release.parts.length)
    (hsome : kept ≠ []) : Crew W R where
  strict := True
  opts := roster.opts
  codec := roster.codec
  shaping := roster.shaping
  releases := {roster.release}
  members := numbered roster.clients kept
  nonempty := numbered_ne_nil (roster.within hwithin) hsome
  lawful := roster.lawful
  truthful m hm := by
    obtain ⟨hm, hclient⟩ := mem_numbered.mp hm
    obtain ⟨hp, hsame⟩ := List.getElem?_eq_some_iff.mp hclient
    have hp' := hwithin m.2 hm
    have hhonest := roster.honest.get hp hp'
    rw [List.get_eq_getElem, hsame] at hhonest
    have hpart : roster.release.parts[m.2]? = some roster.release.parts[m.2] :=
      List.getElem?_eq_getElem hp'
    refine ⟨fun bound inlineRows asked hasked => ?_, ?_⟩
    · intro w
      have hanswers : AnswersIn True _ asked.shape _ :=
        (hhonest.keys bound inlineRows asked hasked).answersIn
      rcases hanswers w with ⟨reply, w', hrun, packet, hgood⟩ | herror
      · exact .inl ⟨reply, w', hrun, roster.release, rfl, _, packet, hpart, hgood⟩
      · exact .inr herror
    · rintro r rfl part hpart' vpids fields hlimit howned asked hasked
      obtain rfl := Option.some.inj (hpart.symm.trans hpart')
      exact (hhonest.rows vpids fields hlimit howned asked hasked).answersIn
  stamped := by
    rintro r rfl
    exact roster.stamped
  unique := by
    rintro r rfl r' rfl _
    rfl
  alone := by
    rintro _ r rfl r' rfl
    rfl

variable (slack : ℕ → ℕ → ℕ) (sleep : ℕ → W → W)

theorem serves_pick (hcovers : Covers kept roster.release.parts)
    (hsome : kept ≠ []) :
    Act.Serves (runTwoPhase roster.codec slack sleep (pick kept roster.clients) roster.opts
      roster.shaping) (Tells roster.codec roster.shaping roster.opts roster.release.build
        roster.release.parts) := by
  have hruns := Act.yields_true.mp
    ((roster.crew kept hcovers.among.within hsome).yields_runTwoPhase slack sleep)
  rw [← clients_numbered]
  refine Act.Serves.imp hruns ?_
  rintro page ⟨r, hr, -, htells⟩
  obtain rfl : r = roster.release := hr
  have hparts : (roster.crew kept hcovers.among.within hsome).partsOf roster.release = pick kept roster.release.parts :=
    parts_numbered _ (roster.within hcovers.among.within)
  rw [hparts] at htells
  exact hcovers.tells_pick.mp htells

theorem serves_all : Act.Serves (runTwoPhase roster.codec slack sleep roster.clients roster.opts roster.shaping)
      (Tells roster.codec roster.shaping roster.opts roster.release.build
        roster.release.parts) := by
  have hlen := roster.honest.length_eq
  have hall : pick (List.range roster.clients.length) roster.clients = roster.clients := by
    have hmap := congrArg (List.filterMap id) (map_range_getElem? roster.clients)
    rw [List.filterMap_map, List.filterMap_map] at hmap
    exact hmap.trans (List.filterMap_some)
  have hcovers : Covers (List.range roster.clients.length) roster.release.parts := by
    refine ⟨⟨List.pairwise_lt_range, fun p hp => hlen ▸ List.mem_range.mp hp⟩, ?_⟩
    intro p hp part hpart
    obtain ⟨hlt, -⟩ := List.getElem?_eq_some_iff.mp hpart
    exact (hp (List.mem_range.mpr (hlen ▸ hlt))).elim
  have hne : List.range roster.clients.length ≠ [] := by
    rw [Ne, List.range_eq_nil, hlen, List.length_eq_zero_iff]
    exact roster.nonempty
  have hserves := roster.serves_pick slack sleep hcovers hne
  rwa [hall] at hserves

end Roster

end Gather
