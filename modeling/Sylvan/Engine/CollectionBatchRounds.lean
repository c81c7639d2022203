-- SUMMARY: What one round of calls adds to a collection batch, slot by slot.
import Mathlib.Data.List.Nodup
import Mathlib.Data.List.OfFn
import Sylvan.Engine.CollectionBatch

/-!
# The rounds of a collection batch

A slot of the batch sees only the asks that name it: a key or a tree is filled by
the first of them that finds it, a name collects all their replies.
-/

theorem List.findSome?_cons_or {α β : Type*} (f : α → Option β) (a : α) (l : List α) :
    (a :: l).findSome? f = (f a).or (l.findSome? f) := by
  rw [List.findSome?_cons]
  cases f a <;> rfl

namespace PartitionedEngine

variable {Card : Type} {engine : PartitionedEngine Card} {batch : CollectionBatch}

/-! ## Keys and trees -/

theorem fillSlots_apply {α : Type} [DecidableEq α] (slots : α → Option Card) (at' : List α)
    (f : α → Option Card) (i : α) :
    fillSlots slots at' (at'.map f) i = (slots i).or (if i ∈ at' then f i else none) := by
  unfold fillSlots
  induction at' generalizing slots with
  | nil => simp
  | cons a at' ih =>
    rw [List.map_cons, List.zip_cons_cons, List.foldl_cons, ih]
    by_cases hi : i = a
    · subst hi
      cases hslot : slots i with
      | none => by_cases hmem : i ∈ at' <;> simp [hmem]
      | some card => simp [hslot]
    · have hupdate : (if (slots a).isNone then Function.update slots a (f a) else slots) i
          = slots i := by
        split
        · exact Function.update_of_ne hi _ _
        · rfl
      simp only [hupdate, List.mem_cons, hi, false_or]

theorem foldl_fillName_frame (p : ℕ) (answer : CollectionBatchAnswer Card)
    (names : List (Fin batch.names.length × ℕ)) (filled : Filled Card batch) :
    (names.foldl (engine.fillName p answer) filled).keys = filled.keys ∧
      (names.foldl (engine.fillName p answer) filled).trees = filled.trees ∧
      (names.foldl (engine.fillName p answer) filled).nameAsked = filled.nameAsked := by
  induction names generalizing filled with
  | nil => exact ⟨rfl, rfl, rfl⟩
  | cons name names ih => exact ih _

theorem fill_keys (filled : Filled Card batch) (ask : Ask batch) {answer : CollectionBatchAnswer Card}
    {f : Fin batch.keys.length → Option Card} (h : answer.keys = ask.keyAt.map f)
    (i : Fin batch.keys.length) : (engine.fill filled (ask, answer)).keys i
      = (filled.keys i).or (if i ∈ ask.keyAt then f i else none) := by
  rw [← fillSlots_apply, ← h]
  exact congrFun (foldl_fillName_frame ask.p answer ask.nameAt.zipIdx _).1 i

theorem fill_trees (filled : Filled Card batch) (ask : Ask batch)
    {answer : CollectionBatchAnswer Card} {f : Fin batch.trees.length → Option Card}
    (h : answer.trees = ask.treeAt.map f) (i : Fin batch.trees.length) :
    (engine.fill filled (ask, answer)).trees i
      = (filled.trees i).or (if i ∈ ask.treeAt then f i else none) := by
  rw [← fillSlots_apply, ← h]
  exact congrFun (foldl_fillName_frame ask.p answer ask.nameAt.zipIdx _).2.1 i

theorem fill_nameAsked (filled : Filled Card batch)
    (reply : Ask batch × CollectionBatchAnswer Card) :
    (engine.fill filled reply).nameAsked = filled.nameAsked :=
  (foldl_fillName_frame reply.1.p reply.2 reply.1.nameAt.zipIdx _).2.2

def found {α : Type} [DecidableEq α] (at' : Ask batch → List α) (card : ℕ → α → Option Card)
    (asks : List (Ask batch)) (i : α) : Option Card :=
  asks.findSome? fun ask => if i ∈ at' ask then card ask.p i else none

def replyTo (engine : PartitionedEngine Card) (routes : Bool) (calls : ℕ) (ask : Ask batch) :
    Ask batch × CollectionBatchAnswer Card :=
  (ask, engine.partitions.scryfallCollectionBatch ask.p (engine.subBatch routes calls ask))

theorem round_eq (routes : Bool) (filled : Filled Card batch) (asks : List (Ask batch)) :
    engine.round routes filled asks = (asks.map (engine.replyTo routes asks.length)).foldl engine.fill
      { filled with nameAsked := asks.foldl noteAsked filled.nameAsked } := rfl

theorem foldl_fill {α : Type} [DecidableEq α] {at' : Ask batch → List α} {card : ℕ → α → Option Card} {i : α}
    {routes : Bool} {calls : ℕ} (slot : Filled Card batch → Option Card)
    (hfill : ∀ filled ask, slot (engine.fill filled (engine.replyTo routes calls ask)) =
      (slot filled).or (if i ∈ at' ask then card ask.p i else none)) (asks : List (Ask batch)) (start : Filled Card batch) :
    slot ((asks.map (engine.replyTo routes calls)).foldl engine.fill start) = (slot start).or (found at' card asks i) := by
  induction asks generalizing start with
  | nil => simp [found]
  | cons ask asks ih =>
    rw [List.map_cons, List.foldl_cons, ih, hfill, found, found, List.findSome?_cons_or, Option.or_assoc]

theorem round_keys (routes : Bool) (filled : Filled Card batch) (asks : List (Ask batch))
    (i : Fin batch.keys.length) :
    (engine.round routes filled asks).keys i = (filled.keys i).or
      (found Ask.keyAt (fun p i => engine.partitions.key p (batch.keys.get i)) asks i) := by
  rw [round_eq]
  exact foldl_fill (fun filled => filled.keys i) (fun filled ask => fill_keys filled ask List.map_map i) asks _

theorem round_trees (routes : Bool) (filled : Filled Card batch) (asks : List (Ask batch))
    (i : Fin batch.trees.length) :
    (engine.round routes filled asks).trees i = (filled.trees i).or
      (found Ask.treeAt (fun p i => engine.partitions.tree p (batch.trees.get i)) asks i) := by
  rw [round_eq]
  exact foldl_fill (fun filled => filled.trees i) (fun filled ask => fill_trees filled ask List.map_map i) asks _

theorem round_nameAsked (routes : Bool) (filled : Filled Card batch) (asks : List (Ask batch)) :
    (engine.round routes filled asks).nameAsked = asks.foldl noteAsked filled.nameAsked := by
  rw [round_eq]
  generalize asks.length = calls, asks.foldl noteAsked filled.nameAsked = asked
  suffices h : ∀ start : Filled Card batch, ((asks.map (engine.replyTo routes calls)).foldl engine.fill start).nameAsked
        = start.nameAsked from h _
  induction asks with
  | nil => exact fun _ => rfl
  | cons ask asks ih => exact fun start => (ih _).trans (fill_nameAsked start _)

/-! ## Names -/

variable {asked : Fin batch.names.length → JsSet ℕ}

theorem mem_noteAsked {ask : Ask batch}
    {i : Fin batch.names.length} {p : ℕ} :
    p ∈ noteAsked asked ask i ↔ p ∈ asked i ∨ (p = ask.p ∧ i ∈ ask.nameAt) := by
  unfold noteAsked
  generalize ask.nameAt = names
  induction names generalizing asked with
  | nil => simp
  | cons a names ih =>
    rw [List.foldl_cons, ih]
    by_cases hi : i = a
    · subst hi
      rw [Function.update_self, JsSet.mem_add]
      simp
      tauto
    · rw [Function.update_of_ne hi]
      simp [hi]

theorem nodup_noteAsked (h : ∀ i, (asked i).Nodup)
    (ask : Ask batch) (i : Fin batch.names.length) : (noteAsked asked ask i).Nodup := by
  unfold noteAsked
  generalize ask.nameAt = names
  induction names generalizing asked with
  | nil => exact h i
  | cons a names ih =>
    refine ih fun j => ?_
    by_cases hj : j = a
    · subst hj
      simpa only [Function.update_self] using JsSet.nodup_add (h j)
    · simpa only [Function.update_of_ne hj] using h j

def askedFor (asks : List (Ask batch)) (i : Fin batch.names.length) : List ℕ :=
  (asks.filter fun ask => i ∈ ask.nameAt).map (·.p)

theorem mem_foldl_noteAsked {asks : List (Ask batch)}
    {i : Fin batch.names.length} {p : ℕ} :
    p ∈ asks.foldl noteAsked asked i ↔ p ∈ asked i ∨ p ∈ askedFor asks i := by
  induction asks generalizing asked with
  | nil => simp [askedFor]
  | cons ask asks ih =>
    rw [List.foldl_cons, ih, mem_noteAsked, or_assoc]
    by_cases hi : i ∈ ask.nameAt <;> simp [askedFor, hi]

theorem nodup_foldl_noteAsked
    (h : ∀ i, (asked i).Nodup) (asks : List (Ask batch)) (i : Fin batch.names.length) :
    (asks.foldl noteAsked asked i).Nodup := by
  induction asks generalizing asked with
  | nil => exact h i
  | cons ask asks ih => exact ih fun j => nodup_noteAsked h ask j

/-- The partitions an answer's index names hold a card of the name, if any does. -/
def HoldersSound (engine : PartitionedEngine Card) (name : NameIdentifier) (holders : List ℤ) : Prop :=
  ∀ q < engine.n, (engine.partitions.name q name).rank ≠ none → (q : ℤ) ∈ holders

/-- What a name has heard: a reply of each partition asked, as that partition
answers it, and no list of holders that leaves one out. -/
structure Heard (engine : PartitionedEngine Card) (filled : Filled Card batch)
    (i : Fin batch.names.length) (asked : List ℕ) : Prop where
  partitions : (filled.nameReplies i).map (·.p) = asked
  picks : ∀ r ∈ filled.nameReplies i, r.pick = engine.partitions.name r.p (batch.names.get i)
  holders : ∀ holders, filled.nameHolders i = some holders → engine.HoldersSound (batch.names.get i) holders

section Heard

variable {filled : Filled Card batch} {i : Fin batch.names.length} {asked : List ℕ} {p : ℕ}
  {answer : CollectionBatchAnswer Card}

/-- What an answer says of a name at a position: the partition's own pick, and no
list of holders that leaves one out. -/
structure Speaks (engine : PartitionedEngine Card) (p : ℕ) (answer : CollectionBatchAnswer Card)
    (name : NameIdentifier) (position : ℕ) : Prop where
  pick : (replyAt p answer position).pick = engine.partitions.name p name
  holders : ∀ holders, engine.holdersOf answer position = some holders → engine.HoldersSound name holders

theorem fillName_nameHolders (name : Fin batch.names.length × ℕ) : (engine.fillName p answer filled name).nameHolders i
      = if i = name.1 then (engine.holdersOf answer name.2).or (filled.nameHolders i)
        else filled.nameHolders i := by
  rw [fillName]
  cases engine.holdersOf answer name.2 with
  | none => simp
  | some holders =>
    by_cases hi : i = name.1
    · subst hi
      simp
    · simp [hi]

theorem Heard.fillName_same (h : Heard engine filled i asked) {position : ℕ}
    (hspeaks : Speaks engine p answer (batch.names.get i) position) :
    Heard engine (engine.fillName p answer filled (i, position)) i (asked ++ [p]) := by
  have hreplies : (engine.fillName p answer filled (i, position)).nameReplies i
      = filled.nameReplies i ++ [replyAt p answer position] := Function.update_self ..
  refine ⟨?_, ?_, fun holders hholders => ?_⟩
  · rw [hreplies, List.map_append, h.partitions]
    rfl
  · rw [hreplies]
    intro r hr
    rcases List.mem_append.mp hr with hr | hr
    · exact h.picks r hr
    · rw [List.mem_singleton.mp hr]
      exact hspeaks.pick
  · rw [fillName_nameHolders, if_pos rfl, Option.or_eq_some_iff] at hholders
    rcases hholders with hnamed | ⟨-, hbefore⟩
    · exact hspeaks.holders holders hnamed
    · exact h.holders holders hbefore

theorem Heard.fillName_other (h : Heard engine filled i asked) {name : Fin batch.names.length × ℕ}
    (hname : i ≠ name.1) : Heard engine (engine.fillName p answer filled name) i asked := by
  have hreplies : (engine.fillName p answer filled name).nameReplies i = filled.nameReplies i :=
    Function.update_of_ne hname _ _
  refine ⟨by rw [hreplies, h.partitions], fun r hr => h.picks r (hreplies ▸ hr),
    fun holders hholders => h.holders holders ?_⟩
  rwa [fillName_nameHolders, if_neg hname] at hholders

theorem Heard.foldl_fillName (h : Heard engine filled i asked)
    {names : List (Fin batch.names.length × ℕ)}
    (hspeaks : ∀ position, (i, position) ∈ names → Speaks engine p answer (batch.names.get i) position) :
    Heard engine (names.foldl (engine.fillName p answer) filled) i
      (asked ++ (names.filter (·.1 = i)).map fun _ => p) := by
  induction names generalizing filled asked with
  | nil => simpa using h
  | cons name names ih =>
    have htail := fun position hposition => hspeaks position (List.mem_cons_of_mem name hposition)
    rw [List.foldl_cons]
    by_cases hname : name.1 = i
    · have hhead : Speaks engine p answer (batch.names.get i) name.2 :=
        hspeaks name.2 (by rw [← hname]; exact List.mem_cons_self)
      have hstep := ih (h.fillName_same hhead) htail
      rw [List.append_assoc] at hstep
      rw [List.filter_cons_of_pos (by simpa using hname)]
      rwa [← hname] at hstep ⊢
    · rw [List.filter_cons_of_neg (by simpa using hname)]
      exact ih (h.fillName_other (Ne.symm hname)) htail

theorem filter_zipIdx_of_nodup {α : Type} [DecidableEq α] {names : List α} (h : names.Nodup)
    (i : α) (p : ℕ) : ((names.zipIdx.filter (·.1 = i)).map fun _ => p)
      = if i ∈ names then [p] else [] := by
  have hfst : (names.zipIdx.filter (·.1 = i)).map Prod.fst = names.filter (· = i) := by
    calc (names.zipIdx.filter (·.1 = i)).map Prod.fst
        = (names.zipIdx.map Prod.fst).filter (· = i) := by
          rw [List.filter_map]
          rfl
      _ = names.filter (· = i) := by rw [List.zipIdx_map_fst]
  have hlength := congrArg List.length hfst
  rw [List.length_map, List.filter_eq, List.length_replicate] at hlength
  rw [List.map_const', hlength]
  split_ifs with hi
  · rw [List.count_eq_one_of_mem h hi]
    rfl
  · rw [List.count_eq_zero_of_not_mem hi]
    rfl

/-! ## What a partition's answer says of a name -/

/-- The index beside a store names every partition that holds a card of the name. -/
def IndexSound (engine : PartitionedEngine Card) : Prop :=
  ∀ p index, engine.partitions.index p = some index → index.builtAt = engine.builtAt →
    ∀ (name : NameIdentifier) (holders : List ℤ), index.nameHolders name.folded = some holders →
      engine.HoldersSound name holders

end Heard

end PartitionedEngine

namespace Partitions

variable {Card : Type} {partitions : Partitions Card}

theorem mem_zip_of_spreadHolders {length : ℕ} {names : List ℕ} {holders : List (List ℤ)}
    {position : ℕ} {held : List ℤ}
    (h : ((spreadHolders length names holders)[position]?).join = some held) :
    (position, held) ∈ names.zip holders := by
  unfold spreadHolders at h
  have hinv : ∀ position held, ((List.foldl (fun spread (located : ℕ × List ℤ) => spread.set located.1 (some located.2))
        (List.replicate length none) (names.zip holders))[position]?).join = some held →
      (position, held) ∈ names.zip holders := by
    refine List.foldlRecOn (motive := fun spread : List (Option (List ℤ)) => ∀ position held,
        (spread[position]?).join = some held → (position, held) ∈ names.zip holders) _ _ ?_ ?_
    · intro position held hheld
      rw [Option.join_eq_some_iff, List.getElem?_replicate] at hheld
      split at hheld <;> cases hheld
    · intro spread ih located hlocated position held hheld
      rw [List.getElem?_set] at hheld
      split_ifs at hheld with hposition hlength
      · cases hheld
        exact hposition ▸ hlocated
      · cases hheld
      · exact ih position held hheld
  exact hinv position held h

theorem mem_zip_of_mapM {α β γ : Type} {g : α → Option β} {f : β → Option γ} {l : List α}
    {found : List γ} (hall : ∀ x ∈ l, (g x).isSome) (h : (l.filterMap g).mapM f = some found)
    {x : α} {c : γ} (hmem : (x, c) ∈ l.zip found) : ∃ y, g x = some y ∧ f y = some c := by
  induction l generalizing found with
  | nil => simp at hmem
  | cons a l ih =>
    obtain ⟨y, hy⟩ := Option.isSome_iff_exists.mp (hall a List.mem_cons_self)
    rw [List.filterMap_cons_some hy, List.mapM_cons, Option.bind_eq_bind, Option.bind_eq_some_iff] at h
    obtain ⟨b, hb, h⟩ := h
    rw [Option.bind_eq_bind, Option.bind_eq_some_iff] at h
    obtain ⟨rest, hrest, h⟩ := h
    cases h
    rcases List.mem_cons.mp hmem with hhead | htail
    · cases hhead
      exact ⟨y, hy, hb⟩
    · exact ih (fun x hx => hall x (List.mem_cons_of_mem a hx)) hrest htail

theorem nameHolders_spec {p : ℕ} {sub : CollectionBatch} {holders : CollectionNameHolders}
    (h : (partitions.scryfallCollectionBatch p sub).nameHolders = some holders) {position : ℕ}
    {held : List ℤ} (hheld : (holders.holders[position]?).join = some held) :
    ∃ index name, partitions.index p = some index ∧ index.builtAt = holders.builtAt ∧
      sub.names[position]? = some name ∧ index.nameHolders name.folded = some held := by
  obtain ⟨located, hlocated, rfl⟩ := Option.map_eq_some_iff.mp h
  simp only [locateUnsettled] at hlocated
  split at hlocated
  · cases hlocated
  · obtain ⟨said, hsaid, rfl⟩ := Option.map_eq_some_iff.mp hlocated
    obtain ⟨index, hindex, hsaid⟩ := Option.bind_eq_some_iff.mp hsaid
    obtain ⟨answers, hanswers, rfl⟩ := Option.map_eq_some_iff.mp hsaid
    have hzip := mem_zip_of_spreadHolders hheld
    have hrange : ∀ l : List ℕ, ∀ x ∈ l.filter (· < sub.names.length), ((sub.names[x]?).map (·.folded)).isSome := by
      intro l x hx
      have hlt : x < sub.names.length := of_decide_eq_true (List.mem_filter.mp hx).2
      rw [List.getElem?_eq_getElem hlt]
      rfl
    obtain ⟨folded, hfolded, hholders⟩ := mem_zip_of_mapM (hrange _) hanswers hzip
    obtain ⟨name, hname, rfl⟩ := Option.map_eq_some_iff.mp hfolded
    exact ⟨index, name, hindex, rfl, hname, hholders⟩

end Partitions

namespace PartitionedEngine

variable {Card : Type} {engine : PartitionedEngine Card} {batch : CollectionBatch}

theorem speaks_of_mem_zipIdx (hindex : engine.IndexSound) (routes : Bool) (calls : ℕ)
    (ask : Ask batch) {i : Fin batch.names.length} {position : ℕ}
    (h : (i, position) ∈ ask.nameAt.zipIdx) :
    Speaks engine ask.p (engine.replyTo routes calls ask).2 (batch.names.get i) position := by
  have hat : ask.nameAt[position]? = some i := List.mk_mem_zipIdx_iff_getElem?.mp h
  have hname : (engine.subBatch routes calls ask).names[position]? = some (batch.names.get i) := by
    rw [subBatch, List.getElem?_map, hat]
    rfl
  refine ⟨?_, fun holders hholders => ?_⟩
  · have hrank : (engine.replyTo routes calls ask).2.nameRanks[position]?
        = some (engine.partitions.name ask.p (batch.names.get i)).rank := by
      have hranks : (engine.replyTo routes calls ask).2.nameRanks
          = (engine.subBatch routes calls ask).names.map
            fun name => (engine.partitions.name ask.p name).rank := rfl
      rw [hranks, List.getElem?_map, hname]
      rfl
    have hcard : (engine.replyTo routes calls ask).2.names[position]?
        = some (engine.partitions.name ask.p (batch.names.get i)).card := by
      have hcards : (engine.replyTo routes calls ask).2.names
          = (engine.subBatch routes calls ask).names.map
            fun name => (engine.partitions.name ask.p name).card := rfl
      rw [hcards, List.getElem?_map, hname]
      rfl
    rw [replyAt, hrank, hcard]
    rfl
  · rw [holdersOf, Option.filter_eq_some_iff] at hholders
    obtain ⟨said, hsaid, hjoin⟩ := Option.bind_eq_some_iff.mp hholders.1
    split_ifs at hjoin with hbuilt
    obtain ⟨index, name, hp, hbuiltAt, hsent, hheld⟩ :=
      Partitions.nameHolders_spec (p := ask.p) hsaid hjoin
    rw [hname, Option.some.injEq] at hsent
    exact hindex ask.p index hp (hbuiltAt.trans hbuilt) _ _ (hsent ▸ hheld)

theorem Heard.round (hindex : engine.IndexSound) {filled : Filled Card batch}
    {i : Fin batch.names.length} {asked : List ℕ} (h : Heard engine filled i asked)
    (routes : Bool) {asks : List (Ask batch)} (hnodup : ∀ ask ∈ asks, ask.nameAt.Nodup) :
    Heard engine (engine.round routes filled asks) i (asked ++ askedFor asks i) := by
  rw [round_eq]
  generalize asks.length = calls, asks.foldl noteAsked filled.nameAsked = noted
  have hstart : Heard engine { filled with nameAsked := noted } i asked :=
    ⟨h.partitions, h.picks, h.holders⟩
  generalize { filled with nameAsked := noted } = start at hstart
  clear h
  induction asks generalizing start asked with
  | nil => simpa [askedFor] using hstart
  | cons ask asks ih =>
    have hask : Heard engine (engine.fill start (engine.replyTo routes calls ask)) i
        (asked ++ if i ∈ ask.nameAt then [ask.p] else []) := by
      rw [← filter_zipIdx_of_nodup (hnodup ask List.mem_cons_self) i ask.p]
      let answer := (engine.replyTo routes calls ask).2
      have hfilled : Heard engine { start with
          keys := fillSlots start.keys ask.keyAt answer.keys
          trees := fillSlots start.trees ask.treeAt answer.trees } i asked :=
        ⟨hstart.partitions, hstart.picks, hstart.holders⟩
      exact hfilled.foldl_fillName fun position hposition =>
        speaks_of_mem_zipIdx hindex routes calls ask hposition
    have hrest := ih (fun ask' hask' => hnodup ask' (List.mem_cons_of_mem ask hask')) _ hask
    have hasked : (asked ++ if i ∈ ask.nameAt then [ask.p] else []) ++ askedFor asks i
        = asked ++ askedFor (ask :: asks) i := by
      by_cases hi : i ∈ ask.nameAt <;> simp [askedFor, hi]
    rw [← hasked]
    exact hrest

end PartitionedEngine
