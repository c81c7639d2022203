-- SUMMARY: What the two-phase gather's page tells of the partitions that answered it.
import Mathlib.Algebra.Order.BigOperators.Group.List
import Mathlib.Algebra.Order.Ring.Nat
import Sylvan.Engine.Gather

/-!
# What a gather tells

The clients of a gather are faces of partitions that may serve several builds.
Whatever the partitions carry inline and in whatever of the shapes they know, a
page the gather returns is the cut of one build's merged keys, each row in its
place.
-/

namespace Gather

open Throws Act
open Yields (any lift lift_loose mapM modify)

/-! ## Partitions and what they answer -/

structure Partition (R : Type) where
  entries : List KeyEntry
  artless : Option ArtlessCandidate
  shared : Option (List SharedCandidate)
  row : ℕ → R
  storeKey : String

def Partition.Owns {R : Type} (part : Partition R) (vpid : ℕ) : Prop :=
  (∃ entry ∈ part.entries, entry.vpid = vpid) ∨ (∃ c, part.artless = some c ∧ c.vpid = vpid) ∨
      ∃ sent, part.shared = some sent ∧ ∃ c ∈ sent, c.vpid = vpid

/-- What every partition of a build agrees on. -/
structure Build where
  builtAt : String
  sortKeyVersion : ℕ
  widened : Bool

/-- A reply of a partition, and its packet. -/
structure Answer (R : Type) where
  part : Partition R
  reply : SearchKeysReply
  packet : KeyPacket

section

variable {W R : Type} (codec : RowCodec R) (shaping : GatherShaping R) (build : Build)

/-- A row's bytes in a reply that names `shape`. -/
def spelled (shape : Option RowShape) (row : R) : Bytes :=
  match shape with
  | none | some .rows => codec.stringify row
  | some _ => shaping.reshape row

theorem spelled_asked (row : R) : spelled codec shaping (some shaping.shape) row = shaping.spell codec row := by
  unfold GatherShaping.spell
  cases hshape : shaping.shape <;> rfl

/-- The answer to a request for the best `bound` keys in the shape `asked`: the
keys and the candidates, and rows for as many of the keys as the partition likes. -/
structure Answer.Good (asked : RowShape) (bound : ℕ) (a : Answer R) : Prop where
  decodes : decodeKeyPacket a.reply.packed = .ok a.packet
  total : a.packet.total = a.part.entries.length
  entries : a.packet.entries = a.part.entries.take bound
  inlineRows : ∃ carried, a.packet.inlineRows = ((a.part.entries.take bound).take carried).map
    fun entry => spelled codec shaping a.reply.shape (a.part.row entry.vpid)
  artless : a.packet.artless = a.part.artless
  shared : a.packet.shared = a.part.shared
  widened : a.packet.widened = build.widened
  shape : a.reply.shape = none ∨ a.reply.shape = some asked
  storeKey : a.reply.storeKey = a.part.storeKey
  version : a.reply.sortKeyVersion = build.sortKeyVersion

/-- The phase-2 answer for `vpids`: the array of the previous build, or frames. -/
def RowsAnswer (asked : RowShape) (part : Partition R) (vpids : List ℕ)
    (reply : FetchRowsReply) : Prop :=
  match reply.shape with
  | none => codec.parseAll reply.rowsBytes = .ok (vpids.map part.row)
  | some shape => shape = asked ∧ decodeRowPacket reply.rowsBytes =
      .ok (vpids.map fun vpid => spelled codec shaping (some shape) (part.row vpid))

/-- A call that answers as `P` says, or refuses a shape other than plain rows. -/
def Answers {α : Type} (x : Act W α) (asked : RowShape) (P : α → Prop) : Prop :=
  ∀ w, (∃ a w', x w = (.ok a, w') ∧ P a) ∨ (asked ≠ .rows ∧ ∃ message w', x w = (.error message, w') ∧
      isUnknownRowShape message asked = true)

/-- `Answers`, or any error where the call need not answer. -/
def AnswersIn (strict : Prop) {α : Type} (x : Act W α) (asked : RowShape) (P : α → Prop) : Prop :=
  ∀ w, (∃ a w', x w = (.ok a, w') ∧ P a) ∨ ∃ message w', x w = (.error message, w') ∧
      (strict → asked ≠ .rows ∧ isUnknownRowShape message asked = true)

theorem Answers.answersIn {strict : Prop} {α : Type} {x : Act W α} {asked : RowShape}
    {P : α → Prop} (h : Answers x asked P) : AnswersIn strict x asked P := by
  intro w
  rcases h w with hok | ⟨hrows, message, w', hrun, hunknown⟩
  · exact .inl hok
  · exact .inr ⟨message, w', hrun, fun _ => ⟨hrows, hunknown⟩⟩

/-- A client that answers for its partition, in the gather's shape or in plain rows. -/
structure Honest (opts : EngineSearchOptions) (client : PartitionClient W) (part : Partition R) :
    Prop where
  keys : ∀ bound inlineRows, ∀ asked ∈ [shaping.toRowShaping, ROWS_SHAPING],
    Answers (client.searchKeys { opts with offset := 0, limit := bound } inlineRows asked)
      asked.shape fun reply => ∃ packet, Answer.Good codec shaping build asked.shape bound { part, reply, packet }
  rows : ∀ vpids fields, vpids.length ≤ opts.limit → (∀ vpid ∈ vpids, part.Owns vpid) →
    ∀ asked ∈ [shaping.toRowShaping, ROWS_SHAPING], Answers (client.fetchRows vpids fields part.storeKey asked) asked.shape
        (RowsAnswer codec shaping asked.shape part vpids)

/-- JSON text reads back, alone and joined into an array. -/
structure RowCodec.Lawful (codec : RowCodec R) : Prop where
  parse_stringify : ∀ row, codec.parse (codec.stringify row) = .ok row
  parseAll_join : ∀ rows, codec.parseAll (joinJsonArray (rows.map codec.stringify)) = .ok rows

end

theorem AnswersIn.loose {strict : Prop} {W α : Type} {x : Act W α} {asked : RowShape}
    {P : α → Prop} (h : AnswersIn strict x asked P) : AnswersIn False x asked P := by
  intro w
  rcases h w with hok | ⟨message, w', hrun, -⟩
  · exact .inl hok
  · exact .inr ⟨message, w', hrun, False.elim⟩

/-! ## The clients of a gather -/

/-- A build, and what its partitions hold for the query. -/
structure Release (R : Type) where
  build : Build
  parts : List (Partition R)

section

variable {W R : Type} (codec : RowCodec R) (shaping : GatherShaping R)

/-- A reply of partition `p` of one of the releases. -/
def Replied (releases : Set (Release R)) (asked : RowShape) (bound p : ℕ)
    (reply : SearchKeysReply) : Prop :=
  ∃ r ∈ releases, ∃ part packet, r.parts[p]? = some part ∧
    Answer.Good codec shaping r.build asked bound { part, reply, packet }

/-- A client of partition `p` of whichever release it serves when it is called. A
fetch names the archive it is of, and a partition of another release refuses it. -/
structure Truthful (strict : Prop) (releases : Set (Release R)) (opts : EngineSearchOptions)
    (client : PartitionClient W) (p : ℕ) : Prop where
  keys : ∀ bound inlineRows, ∀ asked ∈ [shaping.toRowShaping, ROWS_SHAPING],
    AnswersIn strict (client.searchKeys { opts with offset := 0, limit := bound } inlineRows asked)
      asked.shape (Replied codec shaping releases asked.shape bound p)
  rows : ∀ r ∈ releases, ∀ part, r.parts[p]? = some part →
    ∀ vpids fields, vpids.length ≤ opts.limit → (∀ vpid ∈ vpids, part.Owns vpid) →
      ∀ asked ∈ [shaping.toRowShaping, ROWS_SHAPING],
        AnswersIn strict (client.fetchRows vpids fields part.storeKey asked) asked.shape
          (RowsAnswer codec shaping asked.shape part vpids)

end

/-- The clients of one gather, each with its partition's number, and the releases
they serve. A `strict` crew has one release and always answers. -/
structure Crew (W R : Type) where
  strict : Prop
  opts : EngineSearchOptions
  codec : RowCodec R
  shaping : GatherShaping R
  releases : Set (Release R)
  members : List (PartitionClient W × ℕ)
  nonempty : members ≠ []
  lawful : codec.Lawful
  truthful : ∀ m ∈ members, Truthful codec shaping strict releases opts m.1 m.2
  stamped : ∀ r ∈ releases, ∀ part ∈ r.parts, builtAtOfStoreKey part.storeKey = .ok r.build.builtAt
  unique : ∀ r ∈ releases, ∀ r' ∈ releases, r.build.builtAt = r'.build.builtAt → r = r'
  alone : strict → ∀ r ∈ releases, ∀ r' ∈ releases, r = r'

/-! ## The page owed -/

section

variable {R : Type}

def apartOf (parts : List (Partition R)) : List Chosen :=
  apartRows (parts.map Partition.artless) (parts.map Partition.shared)

/-- The merged order of the best `bound` keys of each partition. -/
def mergedOf (parts : List (Partition R)) (bound : ℕ) : List MergedRef :=
  (mergeApart (parts.map fun part => part.entries.take bound) (parts.map Partition.artless)
    (parts.map Partition.shared)).1

def EngineSearchOptions.bound (opts : EngineSearchOptions) : ℕ :=
  min (opts.offset + opts.limit) 0xffffffff

def cutOf (parts : List (Partition R)) (opts : EngineSearchOptions) : List MergedRef :=
  ((mergedOf parts opts.bound).drop opts.offset).take opts.limit

/-- A row's bytes on the page: its own partition's row of its own printing. -/
def slotOf (codec : RowCodec R) (shaping : GatherShaping R) (parts : List (Partition R))
    (owner : ℕ × ℕ) : Bytes :=
  match parts[owner.1]? with
  | some part => shaping.spell codec (part.row owner.2)
  | none => []

def totalOf (parts : List (Partition R)) : ℕ :=
  (parts.map fun part => part.entries.length).sum + (apartOf parts).length

/-- What a page tells of the partitions `parts` of a build. -/
structure Tells (codec : RowCodec R) (shaping : GatherShaping R) (opts : EngineSearchOptions)
    (build : Build) (parts : List (Partition R)) (page : GatheredPage) : Prop where
  slots : page.slots = (cutOf parts opts).map fun ref => slotOf codec shaping parts ref.owner
  total : page.total = totalOf parts
  widened : page.widened = build.widened
  builtAt : page.builtAt = build.builtAt

end

/-! ## Wrapped clients -/

section Wrapped

variable {W R : Type} {strict : Prop}

theorem yields_call {α : Type} {x : Act W α} {P : α → Prop} (h : Yields strict x P) : Yields strict (Run.call x) P := by
  intro r
  rcases h r.world with ⟨a, w', hrun, ha⟩ | ⟨hloose, e, w', hrun⟩
  · exact .inl ⟨a, { r with world := w' }, by rw [Run.call, hrun], ha⟩
  · exact .inr ⟨hloose, e, { r with world := w' }, by rw [Run.call, hrun]⟩

theorem yields_of_answersIn {α : Type} {x : Act W α} {P : α → Prop}
    (h : AnswersIn strict x .rows P) : Yields strict x P := by
  intro w
  rcases h w with hok | ⟨message, w', hrun, hrefused⟩
  · exact .inl hok
  · exact .inr ⟨fun hs => (hrefused hs).1 rfl, message, w', hrun⟩

theorem yields_askOrFallBack {α : Type} {i : ℕ} {shape : RowShape} {asked rows : Act W α}
    {legacy : α → Except String α} {P Q : α → Prop} (hasked : AnswersIn strict asked shape P)
    (hrows : Yields strict rows Q) (hlegacy : ∀ a, Q a → ∃ a', legacy a = .ok a' ∧ P a') :
    Yields strict (askOrFallBack i shape asked rows legacy) P := by
  have hback : Yields strict (Run.call rows >>= fun reply => lift (legacy reply)) P := by
    refine (yields_call hrows).bind fun a ha => ?_
    obtain ⟨a', hok, ha'⟩ := hlegacy a ha
    exact .lift hok ha'
  intro r
  unfold askOrFallBack
  by_cases hrefused : r.refused i
  · simp only [hrefused, if_true]
    exact hback r
  · simp only [hrefused, Bool.false_eq_true, if_false]
    rcases hasked r.world with ⟨a, w', hrun, ha⟩ | ⟨message, w', hrun, hstrict⟩
    · refine .inl ⟨a, { r with world := w' }, ?_, ha⟩
      simp only [Run.call, hrun]
    · by_cases hunknown : isUnknownRowShape message shape
      · simp only [Run.call, hrun, hunknown, if_true]
        exact hback _
      · -- only a call that may fail fails otherwise
        refine .inr ⟨fun hs => hunknown (hstrict hs).2, message, { r with world := w' }, ?_⟩
        simp only [Run.call, hrun, hunknown, Bool.false_eq_true, if_false]

variable {codec : RowCodec R} {shaping : GatherShaping R} {releases : Set (Release R)}
  {opts : EngineSearchOptions} {client : PartitionClient W} {p : ℕ}

theorem yields_searchKeys (h : Truthful codec shaping strict releases opts client p)
    (i bound inlineRows : ℕ) :
    Yields strict ((tolerateUnknownShape i client shaping.shape).searchKeys
        { opts with offset := 0, limit := bound } inlineRows shaping.toRowShaping)
      (Replied codec shaping releases shaping.shape bound p) := by
  have hasked := h.keys bound inlineRows shaping.toRowShaping (by simp)
  unfold tolerateUnknownShape
  split
  · rename_i hshape
    rw [hshape] at hasked ⊢
    exact yields_call (yields_of_answersIn hasked)
  · refine yields_askOrFallBack hasked
      (yields_of_answersIn (h.keys bound inlineRows ROWS_SHAPING (by simp))) ?_
    rintro reply ⟨r, hr, part, packet, hpart, hgood⟩
    obtain ⟨carried, hinline⟩ := hgood.inlineRows
    have hrows : ∀ row, spelled codec shaping reply.shape row = codec.stringify row := by
      intro row
      rcases hgood.shape with hshape | hshape
      · have hshape : reply.shape = none := hshape
        rw [hshape, spelled]
      · have hshape : reply.shape = some .rows := hshape
        rw [hshape, spelled]
    exact ⟨_, rfl, r, hr, part, packet, hpart, {
      decodes := hgood.decodes
      total := hgood.total
      entries := hgood.entries
      inlineRows := ⟨carried, hinline.trans (by simp only [hrows]; rfl)⟩
      artless := hgood.artless
      shared := hgood.shared
      widened := hgood.widened
      shape := .inl rfl
      storeKey := hgood.storeKey
      version := hgood.version }⟩

theorem yields_fetchRows (hlawful : codec.Lawful)
    (h : Truthful codec shaping strict releases opts client p) {r : Release R} (hr : r ∈ releases)
    {part : Partition R} (hpart : r.parts[p]? = some part) {vpids : List ℕ}
    (hlimit : vpids.length ≤ opts.limit) (howned : ∀ vpid ∈ vpids, part.Owns vpid) (i : ℕ)
    (fields : List String) :
    Yields strict ((tolerateUnknownShape i client shaping.shape).fetchRows vpids fields
        part.storeKey shaping.toRowShaping)
      (RowsAnswer codec shaping shaping.shape part vpids) := by
  have hasked := h.rows r hr part hpart vpids fields hlimit howned shaping.toRowShaping (by simp)
  unfold tolerateUnknownShape
  split
  · rename_i hshape
    rw [hshape] at hasked ⊢
    exact yields_call (yields_of_answersIn hasked)
  · refine yields_askOrFallBack hasked (yields_of_answersIn
      (h.rows r hr part hpart vpids fields hlimit howned ROWS_SHAPING (by simp))) ?_
    intro reply hrows
    unfold legacyFetchReply
    unfold RowsAnswer at hrows
    cases hshape : reply.shape with
    | none =>
      rw [hshape] at hrows
      exact ⟨_, rfl, hrows⟩
    | some shape =>
      rw [hshape] at hrows
      obtain ⟨rfl, hframes⟩ := hrows
      have hjoin := hlawful.parseAll_join (vpids.map part.row)
      rw [List.map_map] at hjoin
      refine ⟨{ rowsBytes := _, shape := none }, ?_, hjoin⟩
      simp only
      rw [bind_ok hframes]
      rfl

end Wrapped

/-! ## Phase 1 on one build -/

theorem newestOf_replicate (built : String) (n : ℕ) : newestOf (List.replicate (n + 1) built) = built := by
  have hstep : ∀ n pinned, pinned = "" ∨ pinned = built → ((List.replicate n built).foldl (fun pinned built =>
        if pinned = "" ∨ Text.decimal built > Text.decimal pinned then built else pinned) pinned =
          if n = 0 then pinned else built) := by
    intro n
    induction n with
    | zero => intros; rfl
    | succ n ih =>
      intro pinned hpinned
      rw [List.replicate_succ, List.foldl_cons, ih]
      · rcases hpinned with rfl | rfl <;> simp
      · rcases hpinned with rfl | rfl <;> simp
  rw [newestOf, hstep _ _ (.inl rfl)]
  simp

variable {replies : List SearchKeysReply}

theorem pinReplies_of_built {built : String}
    (h : ∀ r ∈ replies, builtAtOfStoreKey r.storeKey = .ok built) :
    ∃ pin, pinReplies replies = .ok pin ∧ pin.stragglers = [] := by
  have hbuilds : (replies.zipIdx.map fun r => ({ partition := r.2, storeKey := r.1.storeKey } :
      GenerationReply)).mapM (fun r => builtAtOfStoreKey r.storeKey) = .ok (List.replicate replies.length built) := by
    rw [mapM_ok (g := fun _ => built)]
    · have hconst := List.map_eq_replicate_iff (l := replies.zipIdx) (f := fun _ => built) (b := built)
      rw [List.map_map, ← List.length_zipIdx (l := replies), ← hconst.mpr fun _ _ => rfl]
      rfl
    · intro r hr
      obtain ⟨⟨reply, p⟩, hmem, rfl⟩ := List.mem_map.mp hr
      exact h reply (List.mem_of_getElem? (List.mem_zipIdx_iff_getElem?.mp hmem))
  refine ⟨_, by rw [pinReplies, pinGeneration, bind_ok hbuilds]; rfl, ?_⟩
  simp only [List.map_eq_nil_iff, List.filter_eq_nil_iff]
  rintro ⟨reply, built'⟩ hzip
  have hbuilt' := (List.mem_replicate.mp (List.of_mem_zip hzip).2)
  obtain ⟨n, hn⟩ := Nat.exists_eq_succ_of_ne_zero hbuilt'.1
  rw [hn, newestOf_replicate]
  simp [hbuilt'.2]

theorem builds_of_mapM {replies : List GenerationReply} {builds : List String} {built : String}
    (h : replies.mapM (fun r => builtAtOfStoreKey r.storeKey) = .ok builds)
    (hsame : ∀ x ∈ replies.zip builds, x.2 = built) :
    ∀ reply ∈ replies, builtAtOfStoreKey reply.storeKey = .ok built := by
  induction replies generalizing builds with
  | nil => simp
  | cons first rest ih =>
    rw [List.mapM_cons] at h
    obtain ⟨b, hfirst, h⟩ := ok_of_bind h
    obtain ⟨bs, hrest, h⟩ := ok_of_bind h
    cases h
    intro reply hreply
    rcases List.mem_cons.mp hreply with rfl | hreply
    · rw [hfirst, show b = built from hsame (reply, b) (by simp)]
    · exact ih hrest (fun x hx => hsame x (by simp [hx])) reply hreply

theorem built_of_pinGeneration {replies : List GenerationReply} {pin : Pin}
    (hpin : pinGeneration replies = .ok pin) (hnone : pin.stragglers = []) :
    ∀ reply ∈ replies, builtAtOfStoreKey reply.storeKey = .ok pin.pinnedBuiltAt := by
  rw [pinGeneration] at hpin
  obtain ⟨builds, hbuilds, hpin⟩ := ok_of_bind hpin
  cases hpin
  simp only [List.map_eq_nil_iff, List.filter_eq_nil_iff] at hnone
  exact builds_of_mapM hbuilds fun x hx => by simpa using hnone x hx

theorem built_of_pinReplies {pin : Pin}
    (hpin : pinReplies replies = .ok pin) (hnone : pin.stragglers = []) :
    ∀ reply ∈ replies, builtAtOfStoreKey reply.storeKey = .ok pin.pinnedBuiltAt := by
  intro reply hreply
  obtain ⟨i, hi⟩ := List.mem_iff_getElem?.mp hreply
  exact built_of_pinGeneration hpin hnone { partition := i, storeKey := reply.storeKey }
    (List.mem_map.mpr ⟨(reply, i), List.mem_zipIdx_iff_getElem?.mpr hi, rfl⟩)

/-- **Whatever its clients answer, phase 1 returns replies that name one build.** -/
theorem built_of_askKeys {W : Type} {clients : List (PartitionClient W)}
    {phase1 : EngineSearchOptions} {budget : ℕ} {shaping : RowShaping} {sleep : ℕ → W → W} :
    Yields False (askKeys clients phase1 budget shaping sleep) fun replies =>
      ∃ built, ∀ reply ∈ replies, builtAtOfStoreKey reply.storeKey = .ok built := by
  have hpin : ∀ {α : Type} {replies : List SearchKeysReply} {f : Pin → Act W α} {P : α → Prop},
      (∀ pin, pinReplies replies = .ok pin → Yields False (f pin) P) →
        Yields False (lift (pinReplies replies) >>= f) P := fun h =>
    (lift_loose not_false (P := fun pin => pinReplies _ = .ok pin)
      fun _ hpin => hpin).bind h
  refine (any not_false).bind fun replies _ => hpin fun pin hfirst => ?_
  split
  · rename_i hnone
    exact .ret ⟨_, built_of_pinReplies hfirst hnone⟩
  · refine modify.bind fun _ _ => ?_
    refine (any not_false).bind fun replies _ => hpin fun pin hsecond => ?_
    split
    · rename_i hnone
      exact .ret ⟨_, built_of_pinReplies hsecond hnone⟩
    · refine (any not_false).bind fun _ _ => ?_
      refine (any not_false).bind fun replies _ => hpin fun pin hthird => ?_
      split
      · rename_i hnone
        exact .ret ⟨_, built_of_pinReplies hthird hnone⟩
      · exact .throw not_false

namespace Crew

variable {W R : Type} (crew : Crew W R)

def wrapped : List (PartitionClient (Run W)) :=
  (crew.members.map Prod.fst).zipIdx.map fun c => tolerateUnknownShape c.2 c.1 crew.shaping.shape

theorem wrapped_eq : crew.wrapped = crew.members.zipIdx.map fun m => tolerateUnknownShape m.2 m.1.1 crew.shaping.shape := by
  simp only [wrapped, List.zipIdx_map, List.map_map]
  rfl

/-- A reply of each member, in order, each of a release of its own. -/
def Heard (bound : ℕ) (replies : List SearchKeysReply) : Prop :=
  List.Forall₂ (fun m reply =>
    Replied crew.codec crew.shaping crew.releases crew.shaping.shape bound m.2 reply)
    crew.members replies

/-- A good answer from each member, in order, all of the release `r`. -/
structure Answered (r : Release R) (bound : ℕ) (answers : List (Answer R)) : Prop where
  served : r ∈ crew.releases
  parts : List.Forall₂ (fun m a => r.parts[m.2]? = some (Answer.part a)) crew.members answers
  good : ∀ a ∈ answers, a.Good crew.codec crew.shaping r.build crew.shaping.shape bound

variable {crew} {bound : ℕ}

theorem clientAt_wrapped {i : ℕ} {m : PartitionClient W × ℕ} (hm : crew.members[i]? = some m) :
    clientAt crew.wrapped i = .ok (tolerateUnknownShape i m.1 crew.shaping.shape) := by
  simp only [clientAt, wrapped_eq, List.getElem?_map, List.getElem?_zipIdx, hm]
  simp

theorem Heard.set (h : crew.Heard bound replies) {i : ℕ}
    {m : PartitionClient W × ℕ} (hm : crew.members[i]? = some m) {reply : SearchKeysReply}
    (hreply : Replied crew.codec crew.shaping crew.releases crew.shaping.shape bound m.2 reply) :
    crew.Heard bound (replies.set i reply) := by
  rw [Heard, List.forall₂_iff_get] at h ⊢
  obtain ⟨hlen, hall⟩ := h
  refine ⟨by rw [List.length_set, hlen], fun j hj hj' => ?_⟩
  simp only [List.get_eq_getElem, List.getElem_set]
  split
  · rename_i hij
    subst hij
    have hmem : crew.members.get ⟨i, hj⟩ = m := (List.getElem?_eq_some_iff.mp hm).2
    rw [List.get_eq_getElem] at hmem
    rw [hmem]
    exact hreply
  · exact hall j hj (by rwa [List.length_set] at hj')

theorem yields_reissue (hloose : ¬ crew.strict) (budget : ℕ) (stragglers : List ℕ)
    (h : crew.Heard bound replies) :
    Yields crew.strict (reissue crew.wrapped { crew.opts with offset := 0, limit := bound }
      budget crew.shaping.toRowShaping stragglers replies) (crew.Heard bound) := by
  refine Yields.foldlM h fun replies h i _ => ?_
  cases hm : crew.members[i]? with
  | none =>
    refine (lift_loose hloose (P := fun _ => False) fun client hclient => ?_).bind
      fun _ hfalse => hfalse.elim
    simp [clientAt, wrapped_eq, hm] at hclient
  | some m =>
    refine (lift (clientAt_wrapped hm) (P := (· = _)) rfl).bind ?_
    rintro _ rfl
    have hmem := List.mem_of_getElem? hm
    refine (yields_searchKeys (crew.truthful m hmem) i bound budget).bind fun reply hreply => ?_
    exact .ret (h.set hm hreply)

theorem exists_answers {r : Release R} {members : List (PartitionClient W × ℕ)}
    (h : List.Forall₂ (fun m reply => ∃ part packet,
      r.parts[m.2]? = some part ∧ Answer.Good crew.codec crew.shaping r.build crew.shaping.shape
        bound { part, reply, packet }) members replies) :
    ∃ answers : List (Answer R), List.Forall₂ (fun m a => r.parts[m.2]? = some (Answer.part a)) members answers ∧
      (∀ a ∈ answers, a.Good crew.codec crew.shaping r.build crew.shaping.shape bound) ∧
        replies = answers.map Answer.reply := by
  induction h with
  | nil => exact ⟨[], .nil, by simp, rfl⟩
  | @cons m reply _ _ hgood _ ih =>
    obtain ⟨part, packet, hpart, hgood⟩ := hgood
    obtain ⟨answers, hparts, hall, rfl⟩ := ih
    refine ⟨{ part, reply, packet } :: answers, .cons hpart hparts, ?_, rfl⟩
    intro a ha
    rcases List.mem_cons.mp ha with rfl | ha
    · exact hgood
    · exact hall a ha

theorem built_of_good {r : Release R} (hr : r ∈ crew.releases) {p : ℕ} {a : Answer R}
    (hpart : r.parts[p]? = some a.part)
    (hgood : a.Good crew.codec crew.shaping r.build crew.shaping.shape bound) {built : String}
    (hbuilt : builtAtOfStoreKey a.reply.storeKey = .ok built) : r.build.builtAt = built := by
  rw [hgood.storeKey, crew.stamped r hr a.part (List.mem_of_getElem? hpart)] at hbuilt
  exact Except.ok.inj hbuilt

theorem Heard.answered (h : crew.Heard bound replies)
    {built : String} (hbuilt : ∀ reply ∈ replies, builtAtOfStoreKey reply.storeKey = .ok built) :
    ∃ r answers, crew.Answered r bound answers ∧ replies = answers.map Answer.reply := by
  have hnamed : List.Forall₂ (fun m reply => builtAtOfStoreKey reply.storeKey = .ok built ∧
      Replied crew.codec crew.shaping crew.releases crew.shaping.shape bound m.2 reply)
        crew.members replies := by
    rw [List.forall₂_iff_get]
    refine ⟨h.length_eq, fun i hi hi' => ⟨hbuilt _ (List.get_mem _ _), ?_⟩⟩
    exact h.get hi hi'
  obtain ⟨m, rest, hmembers⟩ := List.exists_cons_of_ne_nil crew.nonempty
  have hhead := hnamed
  rw [hmembers] at hhead
  obtain ⟨first, _, ⟨hfirst, r, hr, part, packet, hpart, hgood⟩, -, -⟩ :=
    List.forall₂_cons_left_iff.mp hhead
  have hbuilt : r.build.builtAt = built := built_of_good hr hpart hgood hfirst
  have hone : List.Forall₂ (fun m reply => ∃ part packet, r.parts[m.2]? = some part ∧
      Answer.Good crew.codec crew.shaping r.build crew.shaping.shape bound
        { part, reply, packet }) crew.members replies := by
    refine hnamed.imp fun m reply ⟨hstamp, r', hr', part', packet', hpart', hgood'⟩ => ?_
    have hbuilt' : r'.build.builtAt = built := built_of_good hr' hpart' hgood' hstamp
    obtain rfl := crew.unique r' hr' r hr (hbuilt'.trans hbuilt.symm)
    exact ⟨part', packet', hpart', hgood'⟩
  obtain ⟨answers, hparts, hgoods, hreplies⟩ := exists_answers hone
  exact ⟨r, answers, ⟨hr, hparts, hgoods⟩, hreplies⟩

theorem Heard.built (hstrict : crew.strict)
    (h : crew.Heard bound replies) :
    ∃ built, ∀ reply ∈ replies, builtAtOfStoreKey reply.storeKey = .ok built := by
  have hnamed : ∀ reply ∈ replies, ∃ r ∈ crew.releases, builtAtOfStoreKey reply.storeKey = .ok r.build.builtAt := by
    intro reply hreply
    obtain ⟨i, hi, rfl⟩ := List.mem_iff_getElem.mp hreply
    obtain ⟨r, hr, part, packet, hpart, hgood⟩ := h.get (h.length_eq ▸ hi) hi
    refine ⟨r, hr, ?_⟩
    rw [← crew.stamped r hr part (List.mem_of_getElem? hpart)]
    exact congrArg builtAtOfStoreKey hgood.storeKey
  cases replies with
  | nil => exact ⟨"", by simp⟩
  | cons first rest =>
    obtain ⟨r, hr, -⟩ := hnamed first (by simp)
    refine ⟨r.build.builtAt, fun reply hreply => ?_⟩
    obtain ⟨r', hr', hbuilt⟩ := hnamed reply hreply
    rw [hbuilt, crew.alone hstrict r' hr' r hr]

theorem yields_pinned {α : Type} (hloose : ¬ crew.strict)
    (h : crew.Heard bound replies) {f : Pin → Act (Run W) α} {P : α → Prop}
    (hpinned : ∀ pin, pin.stragglers = [] → (∃ r answers, crew.Answered r bound answers ∧
      replies = answers.map Answer.reply) → Yields crew.strict (f pin) P)
    (hmixed : ∀ pin, pin.stragglers ≠ [] → Yields crew.strict (f pin) P) :
    Yields crew.strict (lift (pinReplies replies) >>= f) P := by
  refine (lift_loose hloose (P := fun pin => pinReplies replies = .ok pin)
    fun _ hpin => hpin).bind fun pin hpin => ?_
  by_cases hnone : pin.stragglers = []
  · exact hpinned pin hnone (h.answered (built_of_pinReplies hpin hnone))
  · exact hmixed pin hnone

variable (crew)

/-- **Phase 1 hears one release.** The replies it returns are good answers of one
build, whatever was asked again. -/
theorem yields_askKeys (bound budget : ℕ) (sleep : ℕ → Run W → Run W) :
    Yields crew.strict (askKeys crew.wrapped { crew.opts with offset := 0, limit := bound }
        budget crew.shaping.toRowShaping sleep)
      fun replies => ∃ r answers, crew.Answered r bound answers ∧ replies = answers.map Answer.reply := by
  have hasked : Yields crew.strict (crew.wrapped.mapM fun c =>
      c.searchKeys { crew.opts with offset := 0, limit := bound } budget
        crew.shaping.toRowShaping) (crew.Heard bound) := by
    have hall : Yields crew.strict (crew.members.zipIdx.mapM fun m =>
        (tolerateUnknownShape m.2 m.1.1 crew.shaping.shape).searchKeys
          { crew.opts with offset := 0, limit := bound } budget crew.shaping.toRowShaping)
        (List.Forall₂ (fun m reply => Replied crew.codec crew.shaping crew.releases
          crew.shaping.shape bound m.1.2 reply) crew.members.zipIdx) := by
      refine .mapM fun m hm => ?_
      have hmem := List.mem_of_getElem? (List.mem_zipIdx_iff_getElem?.mp hm)
      exact yields_searchKeys (crew.truthful _ hmem) _ _ _
    rw [wrapped_eq, List.mapM_map]
    refine hall.imp fun replies hreplies => ?_
    rw [Heard, ← List.zipIdx_map_fst 0 crew.members]
    exact List.forall₂_map_left_iff.mpr hreplies
  refine hasked.bind fun replies hreplies => ?_
  by_cases hstrict : crew.strict
  · -- one release, so the first replies agree
    obtain ⟨built, hbuilt⟩ := hreplies.built hstrict
    obtain ⟨pin, hpin, hnone⟩ := pinReplies_of_built hbuilt
    refine (lift hpin (P := (· = pin)) rfl).bind ?_
    rintro _ rfl
    rw [if_pos hnone]
    exact .ret (hreplies.answered hbuilt)
  · refine yields_pinned hstrict hreplies (fun pin hnone hone => ?_) fun pin hmixed => ?_
    · rw [if_pos hnone]
      exact .ret hone
    · rw [if_neg hmixed]
      refine modify.bind fun _ _ => ?_
      refine (yields_reissue hstrict budget _ hreplies).bind fun replies hreplies => ?_
      refine yields_pinned hstrict hreplies (fun pin hnone hone => ?_) fun pin hmixed => ?_
      · rw [if_pos hnone]
        exact .ret hone
      · rw [if_neg hmixed]
        refine (any hstrict).bind fun _ _ => ?_
        refine (yields_reissue hstrict budget _ hreplies).bind fun replies hreplies => ?_
        refine yields_pinned hstrict hreplies (fun pin hnone hone => ?_) fun pin hmixed => ?_
        · rw [if_pos hnone]
          exact .ret hone
        · rw [if_neg hmixed]
          exact .throw hstrict

end Crew

/-! ## The splice -/

section Splice

variable {R : Type} {codec : RowCodec R} {shaping : GatherShaping R} {packets : List KeyPacket}
  {legacy : ℕ → Bool} {fetched : JsMap ℕ (List Bytes)}

def inlineAt (packets : List KeyPacket) (ref : MergedRef) : Option Bytes :=
  (packets[ref.partition]?).bind fun packet => packet.inlineRows[ref.index]?

/-- The splice puts each ref's own row in its slot, when the inline rows are the
refs' own and each queue holds what the page owes of its partition. -/
theorem splice_ok {slot : ℕ × ℕ → Bytes} {carried : List ℕ} {page : List MergedRef}
    {cursors : JsMap ℕ ℕ}
    (hinline : ∀ ref ∈ page, ∀ bytes, inlineAt packets ref = some bytes →
      inlineSlot codec shaping (legacy ref.partition) bytes = .ok (slot ref.owner))
    (hcarried : ∀ ref ∈ page, inlineAt packets ref = none ↔ ¬ ref.index < carried.getD ref.partition 0)
    (hqueue : ∀ p, owedOf carried page p ≠ [] → ∃ frames, fetched.get p = some frames ∧
      frames.drop ((cursors.get p).getD 0) = (owedOf carried page p).map fun vpid => slot (p, vpid)) :
    splice codec shaping packets legacy fetched page cursors = .ok (page.map fun ref => slot ref.owner) := by
  induction page generalizing cursors with
  | nil => rfl
  | cons ref page ih =>
    have hinline' := fun r hr => hinline r (List.mem_cons_of_mem _ hr)
    have hcarried' := fun r hr => hcarried r (List.mem_cons_of_mem _ hr)
    have hwhere : (packets[ref.partition]?).bind (fun packet => packet.inlineRows[ref.index]?) = inlineAt packets ref := rfl
    rw [splice, hwhere]
    cases hat : inlineAt packets ref with
    | some bytes =>
      have hlt : ref.index < carried.getD ref.partition 0 := by
        by_contra hnot
        rw [(hcarried ref (by simp)).mpr hnot] at hat
        cases hat
      have hqueue' : ∀ p, owedOf carried page p ≠ [] → ∃ frames, fetched.get p = some frames ∧
          frames.drop ((cursors.get p).getD 0) = (owedOf carried page p).map fun vpid => slot (p, vpid) := fun p hp => by
        have hsame := hqueue p
        rw [owedOf, if_pos hlt] at hsame
        exact hsame hp
      have hrest := ih hinline' hcarried' hqueue'
      simp only [bind_ok (hinline ref (by simp) bytes hat), hrest]
      rfl
    | none =>
      have hnot := (hcarried ref (by simp)).mp hat
      -- the queue's next row is this ref's
      obtain ⟨frames, hframes, hdrop⟩ := hqueue ref.partition (by
        rw [owedOf, if_neg hnot, if_pos rfl]
        simp)
      rw [owedOf, if_neg hnot, if_pos rfl, List.map_cons] at hdrop
      set next := (cursors.get ref.partition).getD 0 with hnext
      have hget : frames[next]? = some (slot ref.owner) := by
        have hhead := congrArg (·[0]?) hdrop
        simpa [List.getElem?_drop, MergedRef.owner] using hhead
      have hqueue' : ∀ p, owedOf carried page p ≠ [] → ∃ frames, fetched.get p = some frames ∧
          frames.drop (((cursors.set ref.partition (next + 1)).get p).getD 0) =
            (owedOf carried page p).map fun vpid => slot (p, vpid) := fun p hp => by
        rw [JsMap.get_set]
        by_cases hsame : ref.partition = p
        · subst hsame
          refine ⟨frames, hframes, ?_⟩
          have htail := congrArg List.tail hdrop
          rw [List.tail_drop] at htail
          simpa using htail
        · have hother := hqueue p
          rw [owedOf, if_neg hnot, if_neg hsame] at hother
          rw [if_neg hsame]
          exact hother hp
      have hrest := ih hinline' hcarried' hqueue'
      simp only [hframes, Option.bind_some, hget, hrest]
      rfl

theorem mem_owedOf {carried : List ℕ} {page : List MergedRef} {p vpid : ℕ}
    (h : vpid ∈ owedOf carried page p) :
    ∃ ref ∈ page, ref.partition = p ∧ ref.vpid = vpid := by
  induction page with
  | nil => cases h
  | cons ref page ih =>
    have hlater : vpid ∈ owedOf carried page p → ∃ ref' ∈ ref :: page, ref'.partition = p ∧ ref'.vpid = vpid := fun h => by
      obtain ⟨ref', hmem, howner⟩ := ih h
      exact ⟨ref', List.mem_cons_of_mem _ hmem, howner⟩
    rw [owedOf] at h
    split at h
    · exact hlater h
    · split at h
      · rename_i hp
        rcases List.mem_cons.mp h with rfl | h
        · exact ⟨ref, by simp, hp, rfl⟩
        · exact hlater h
      · exact hlater h

theorem length_owedOf_le (carried : List ℕ) (page : List MergedRef) (p : ℕ) :
    (owedOf carried page p).length ≤ page.length := by
  induction page with
  | nil => rfl
  | cons ref page ih =>
    rw [owedOf]
    split
    · exact ih.trans (Nat.le_succ _)
    · split
      · exact Nat.succ_le_succ ih
      · exact ih.trans (Nat.le_succ _)

end Splice

/-! ## The page -/

theorem map_of_forall₂ {α β : Type} {g : α → β} {l : List α} {bs : List β}
    (h : List.Forall₂ (fun a b => b = g a) l bs) : bs = l.map g := by
  induction h with
  | nil => rfl
  | cons hab _ ih => rw [hab, ih, List.map_cons]

namespace Crew

variable {W R : Type} {crew : Crew W R}

def partsOf (crew : Crew W R) (r : Release R) : List (Partition R) :=
  crew.members.filterMap fun m => r.parts[m.2]?

namespace Answered

variable {r : Release R} {bound : ℕ} {answers : List (Answer R)} (h : crew.Answered r bound answers)

include h

theorem map_part : answers.map Answer.part = crew.partsOf r := by
  have hall : ∀ {members : List (PartitionClient W × ℕ)} {l : List (Answer R)},
      List.Forall₂ (fun m a => r.parts[m.2]? = some (Answer.part a)) members l →
        l.map Answer.part = members.filterMap fun m => r.parts[m.2]? := by
    intro members l hforall
    induction hforall with
    | nil => rfl
    | cons hpart _ ih => rw [List.map_cons, List.filterMap_cons, hpart, ih]
  exact hall h.parts

theorem map_packet {α : Type} {f : KeyPacket → α} {g : Partition R → α}
    (hfg : ∀ a ∈ answers, f a.packet = g a.part) :
    (answers.map Answer.packet).map f = (crew.partsOf r).map g := by
  rw [← h.map_part, List.map_map, List.map_map]
  exact List.map_congr_left hfg

theorem entries : (answers.map Answer.packet).map KeyPacket.entries =
    (crew.partsOf r).map fun part => part.entries.take bound :=
  h.map_packet fun a ha => (h.good a ha).entries

theorem artless : (answers.map Answer.packet).map KeyPacket.artless = (crew.partsOf r).map Partition.artless :=
  h.map_packet fun a ha => (h.good a ha).artless

theorem shared : (answers.map Answer.packet).map KeyPacket.shared = (crew.partsOf r).map Partition.shared :=
  h.map_packet fun a ha => (h.good a ha).shared

theorem summedTotal : Gather.summedTotal (answers.map Answer.packet) =
    ((crew.partsOf r).map fun part => part.entries.length).sum := by
  rw [Gather.summedTotal, h.map_packet (g := fun part => part.entries.length)
    fun a ha => (h.good a ha).total]

theorem decodeAll : Gather.decodeAll (answers.map Answer.reply) = .ok (answers.map Answer.packet) := by
  have hdecode : ∀ l : List (Answer R), (∀ a ∈ l, a ∈ answers) →
      Gather.decodeAll (l.map Answer.reply) = .ok (l.map Answer.packet) := by
    intro l hl
    induction l with
    | nil => rfl
    | cons a l ih =>
      have hrest := ih fun b hb => hl b (List.mem_cons_of_mem _ hb)
      rw [Gather.decodeAll] at hrest ⊢
      rw [List.map_cons, List.mapM_cons, bind_ok (h.good a (hl a (by simp))).decodes, bind_ok hrest]
      rfl
  exact hdecode answers fun _ => id

theorem length_answers : answers.length = crew.members.length := h.parts.length_eq.symm

theorem ne_nil : answers ≠ [] := by
  rintro rfl
  exact crew.nonempty (List.length_eq_zero_iff.mp h.length_answers.symm)

theorem answer {i : ℕ} {m : PartitionClient W × ℕ} (hm : crew.members[i]? = some m) :
    ∃ a, answers[i]? = some a ∧ r.parts[m.2]? = some a.part := by
  obtain ⟨hi, hget⟩ := List.getElem?_eq_some_iff.mp hm
  have hi' : i < answers.length := h.length_answers ▸ hi
  refine ⟨answers[i], List.getElem?_eq_getElem hi', ?_⟩
  have hpart := h.parts.get hi hi'
  rw [List.get_eq_getElem, hget] at hpart
  exact hpart

theorem member {i : ℕ} {a : Answer R} (ha : answers[i]? = some a) :
    ∃ m, crew.members[i]? = some m ∧ r.parts[m.2]? = some a.part := by
  obtain ⟨hi, -⟩ := List.getElem?_eq_some_iff.mp ha
  have hm := List.getElem?_eq_getElem (h.length_answers ▸ hi : i < crew.members.length)
  obtain ⟨a', ha', hpart⟩ := h.answer hm
  rw [ha] at ha'
  obtain rfl := Option.some.inj ha'
  exact ⟨_, hm, hpart⟩

theorem partAt {i : ℕ} {a : Answer R} (ha : answers[i]? = some a) : (crew.partsOf r)[i]? = some a.part := by
  rw [← h.map_part, List.getElem?_map, ha]
  rfl

theorem answerAt {i : ℕ} {part : Partition R} (hpart : (crew.partsOf r)[i]? = some part) :
    ∃ a, answers[i]? = some a ∧ a.part = part := by
  rw [← h.map_part, List.getElem?_map, Option.map_eq_some_iff] at hpart
  exact hpart

theorem widenedOf : Gather.widenedOf (answers.map Answer.packet) = r.build.widened := by
  obtain ⟨a, rest, rfl⟩ := List.exists_cons_of_ne_nil h.ne_nil
  exact (h.good a (by simp)).widened

theorem pinnedBuild : Gather.pinnedBuild (answers.map Answer.reply) = .ok r.build.builtAt := by
  obtain ⟨a, rest, rfl⟩ := List.exists_cons_of_ne_nil h.ne_nil
  obtain ⟨m, -, hpart⟩ := h.member (i := 0) rfl
  rw [List.map_cons, Gather.pinnedBuild, (h.good a (by simp)).storeKey]
  exact crew.stamped r h.served a.part (List.mem_of_getElem? hpart)

theorem versionGate : Gather.versionGate (answers.map Answer.reply) = .ok () := by
  obtain ⟨first, rest, hcons⟩ := List.exists_cons_of_ne_nil h.ne_nil
  have hsame : ∀ reply ∈ (answers.map Answer.reply).zipIdx, reply.1.sortKeyVersion = r.build.sortKeyVersion := by
    rintro ⟨reply, i⟩ hreply
    have hreply := List.mem_of_getElem? (List.mem_zipIdx_iff_getElem?.mp hreply)
    obtain ⟨a, ha, rfl⟩ := List.mem_map.mp hreply
    exact (h.good a ha).version
  have hfirst : first.reply.sortKeyVersion = r.build.sortKeyVersion :=
    (h.good first (by simp [hcons])).version
  have hnone : (answers.map Answer.reply).zipIdx.find?
      (fun reply => reply.1.sortKeyVersion ≠ first.reply.sortKeyVersion) = none := by
    rw [List.find?_eq_none]
    intro reply hreply
    simp [hsame reply hreply, hfirst]
  rw [hcons] at hnone ⊢
  rw [List.map_cons] at hnone ⊢
  simp only [Gather.versionGate, hnone]

theorem shapeGate : Gather.shapeGate crew.shaping.shape (answers.map Answer.reply) = .ok () := by
  have hnone : (answers.map Answer.reply).zipIdx.find?
      (fun reply => reply.1.shape ≠ none ∧ reply.1.shape ≠ some crew.shaping.shape) = none := by
    rw [List.find?_eq_none]
    rintro ⟨reply, i⟩ hreply
    have hreply := List.mem_of_getElem? (List.mem_zipIdx_iff_getElem?.mp hreply)
    obtain ⟨a, ha, rfl⟩ := List.mem_map.mp hreply
    rcases (h.good a ha).shape with hshape | hshape <;> simp [hshape]
  simp only [Gather.shapeGate, hnone]

theorem probedTotal : Gather.probedTotal (answers.map Answer.packet) = totalOf (crew.partsOf r) := by
  rw [Gather.probedTotal, h.summedTotal, h.artless, h.shared, totalOf, apartOf, apartRows, List.length_append]
  cases pickArtless ((crew.partsOf r).map Partition.artless) with
  | none => simp
  | some c =>
    simp
    omega

end Answered

/-! ## The page's rows -/

variable {parts : List (Partition R)}

theorem owns_apart {c : Chosen} (hc : c ∈ apartOf parts) :
    ∃ part, parts[c.partition]? = some part ∧ part.Owns c.candidate.vpid := by
  obtain ⟨best, group, hshared, hartless, hrows⟩ := keptApart_apartRows
    (parts.map Partition.artless) (parts.map Partition.shared)
  rw [apartOf, hrows, List.mem_append] at hc
  rcases hc with hc | hc
  · obtain ⟨⟨art, c⟩, hentry, rfl⟩ := List.mem_map.mp hc
    have hsent := hshared.sent art c (JsMap.mem_entries.mp hentry)
    obtain ⟨sent, hat, hmem⟩ := mem_sharedOffers.mp hsent
    rw [List.getElem?_map, Option.map_eq_some_iff] at hat
    obtain ⟨part, hpart, hshared⟩ := hat
    exact ⟨part, hpart, .inr (.inr ⟨sent, hshared, _, hmem, rfl⟩)⟩
  · cases group with
    | none => cases hc
    | some held =>
      cases List.mem_singleton.mp hc
      obtain ⟨hat, -⟩ := hartless
      rw [List.getElem?_map, Option.map_eq_some_iff] at hat
      obtain ⟨part, hpart, hartless⟩ := hat
      exact ⟨part, hpart, .inr (.inl ⟨_, hartless, rfl⟩)⟩

theorem entryAt_sent {bound : ℕ} {ref : MergedRef}
    {entry : KeyEntry}
    (hentry : entryAt (parts.map fun part => part.entries.take bound) ref = some entry) :
    ∃ part, parts[ref.partition]? = some part ∧ (part.entries.take bound)[ref.index]? = some entry := by
  rw [entryAt, List.getD_eq_getElem?_getD, List.getElem?_map] at hentry
  cases hpart : parts[ref.partition]? with
  | none => simp [hpart] at hentry
  | some part => exact ⟨part, rfl, by simpa [hpart] using hentry⟩

theorem owns_ref {bound : ℕ} {ref : MergedRef}
    (href : ref ∈ mergedOf parts bound) :
    ∃ part, parts[ref.partition]? = some part ∧ part.Owns ref.vpid := by
  rcases mem_mergeApart href with ⟨-, entry, hentry, hvpid⟩ | ⟨-, c, hc, hpart, hvpid⟩
  · obtain ⟨part, hpart, hat⟩ := entryAt_sent hentry
    exact ⟨part, hpart, .inl ⟨entry, List.mem_of_mem_take (List.mem_of_getElem? hat), hvpid.symm⟩⟩
  · obtain ⟨part, hat, hown⟩ := owns_apart hc
    exact ⟨part, hpart ▸ hat, hvpid ▸ hown⟩

theorem inlineAt_eq_none (packets : List KeyPacket) (ref : MergedRef) : inlineAt packets ref = none ↔
      ¬ ref.index < (packets.map fun p => p.inlineRows.length).getD ref.partition 0 := by
  rw [inlineAt, List.getD_eq_getElem?_getD, List.getElem?_map]
  cases packets[ref.partition]? with
  | none => simp
  | some packet => simp

section Page

variable {r : Release R} {bound : ℕ} {answers : List (Answer R)} (h : crew.Answered r bound answers)

include h

theorem inlineSlot_ref (hwithin : bound ≤ 0xffffffff) {ref : MergedRef}
    (href : ref ∈ mergedOf (crew.partsOf r) bound) {bytes : Bytes}
    (hinline : inlineAt (answers.map Answer.packet) ref = some bytes) :
    inlineSlot crew.codec crew.shaping
        (((answers.map Answer.reply).map fun r => decide (r.shape = none)).getD ref.partition false)
        bytes =
      .ok (slotOf crew.codec crew.shaping (crew.partsOf r) ref.owner) := by
  simp only [inlineAt, List.getElem?_map, Option.bind_eq_some_iff, Option.map_eq_some_iff] at hinline
  obtain ⟨packet, ⟨a, ha, rfl⟩, hbytes⟩ := hinline
  have hgood := h.good a (List.mem_of_getElem? ha)
  have hpart := h.partAt ha
  obtain ⟨carried, hrows⟩ := hgood.inlineRows
  rw [hrows, List.getElem?_map, Option.map_eq_some_iff] at hbytes
  obtain ⟨entry, hentry, rfl⟩ := hbytes
  have hentry : (a.part.entries.take bound)[ref.index]? = some entry := by
    rw [List.getElem?_take] at hentry
    split at hentry
    · exact hentry
    · cases hentry
  have hvpid : ref.vpid = entry.vpid := by
    rcases mem_mergeApart href with ⟨-, entry', hentry', hvpid⟩ | ⟨hindex, -⟩
    · obtain ⟨part, hpart', hat⟩ := entryAt_sent hentry'
      obtain rfl := Option.some.inj (hpart.symm.trans hpart')
      rw [hvpid, Option.some.inj (hat.symm.trans hentry)]
    · -- no stream is long enough to have an entry there
      obtain ⟨hlt, -⟩ := List.getElem?_eq_some_iff.mp hentry
      rw [List.length_take, hindex, NOT_INLINE] at hlt
      omega
  have hslot : slotOf crew.codec crew.shaping (crew.partsOf r) ref.owner =
      crew.shaping.spell crew.codec (a.part.row entry.vpid) := by
    simp only [slotOf, MergedRef.owner, hpart, hvpid]
  rw [hslot, List.getD_eq_getElem?_getD, List.getElem?_map, List.getElem?_map, ha]
  rcases hgood.shape with hshape | hshape
  · simp only [hshape, Option.map_some, Option.getD_some, decide_true, inlineSlot, if_true, spelled,
      reshapeLegacy, GatherShaping.spell]
    split
    · rfl
    · rw [bind_ok (crew.lawful.parse_stringify _)]
      rfl
  · simp [hshape, inlineSlot, spelled_asked]

theorem yields_fetchOwed {i : ℕ} {vpids : List ℕ} {part : Partition R}
    (hpart : (crew.partsOf r)[i]? = some part) (hlimit : vpids.length ≤ crew.opts.limit)
    (howned : ∀ vpid ∈ vpids, part.Owns vpid) (fields : List String) :
    Yields crew.strict (fetchOwed crew.codec crew.shaping crew.wrapped fields
        (answers.map Answer.reply) (i, vpids))
      fun f => f = (i, vpids.map fun vpid =>
        slotOf crew.codec crew.shaping (crew.partsOf r) (i, vpid)) := by
  obtain ⟨a, ha, rfl⟩ := h.answerAt hpart
  obtain ⟨m, hm, hof⟩ := h.member ha
  have hmem := List.mem_of_getElem? hm
  have hstore : (((answers.map Answer.reply)[i]?).map SearchKeysReply.storeKey).getD "" = a.part.storeKey := by
    rw [List.getElem?_map, ha]
    exact (h.good a (List.mem_of_getElem? ha)).storeKey
  have hslot : ∀ vpid, slotOf crew.codec crew.shaping (crew.partsOf r) (i, vpid) =
      crew.shaping.spell crew.codec (a.part.row vpid) := by
    intro vpid
    simp only [slotOf, hpart]
  unfold fetchOwed
  refine (lift (clientAt_wrapped hm) (P := (· = _)) rfl).bind ?_
  rintro _ rfl
  simp only [hstore]
  refine (yields_fetchRows crew.lawful (crew.truthful m hmem) h.served hof hlimit howned i
    fields).bind ?_
  intro reply hreply
  have hframes : framesOf crew.codec crew.shaping i reply =
      .ok (vpids.map fun vpid => slotOf crew.codec crew.shaping (crew.partsOf r) (i, vpid)) := by
    unfold RowsAnswer at hreply
    simp only [hslot]
    unfold framesOf
    cases hshape : reply.shape with
    | none =>
      rw [hshape] at hreply
      simp only [bind_ok hreply, List.map_map]
      rfl
    | some shape =>
      rw [hshape] at hreply
      obtain ⟨rfl, hrows⟩ := hreply
      simp only [ne_eq, not_true_eq_false, if_false, hrows, spelled_asked]
  refine (lift hframes (P := (· = _)) rfl).bind ?_
  rintro _ rfl
  rw [if_neg (by simp)]
  exact .ret rfl

theorem yields_gatherPage (acquireMs : ℕ) (hbound : bound = crew.opts.bound) :
    Yields crew.strict (gatherPage crew.codec crew.wrapped crew.opts crew.shaping acquireMs
      (answers.map Answer.reply))
      (Tells crew.codec crew.shaping crew.opts r.build (crew.partsOf r)) := by
  have hwithin : bound ≤ 0xffffffff := hbound ▸ Nat.min_le_right _ _
  set parts := crew.partsOf r with hparts
  set carried := (answers.map Answer.packet).map fun p => p.inlineRows.length with hcarried
  set cut := selectPage (mergedOf parts bound) crew.opts.offset crew.opts.limit carried with hcut
  have hcutOf : cut.1 = cutOf parts crew.opts := by
    rw [hcut, cutOf, hbound]
    rfl
  unfold gatherPage
  refine (lift h.versionGate (P := (· = _)) rfl).bind ?_
  rintro _ rfl
  refine (lift h.shapeGate (P := (· = _)) rfl).bind ?_
  rintro _ rfl
  refine (lift h.decodeAll (P := (· = _)) rfl).bind ?_
  rintro _ rfl
  simp only [h.entries, h.artless, h.shared, h.widenedOf, ← hcarried, ← hparts]
  refine (lift h.pinnedBuild (P := (· = _)) rfl).bind ?_
  rintro _ rfl
  change Yields crew.strict (if cut.1 = [] then _ else _) _
  have htotal : Gather.summedTotal (answers.map Answer.packet) +
      (mergeApart (parts.map fun part => part.entries.take bound) (parts.map Partition.artless)
        (parts.map Partition.shared)).2 = totalOf parts := by
    rw [h.summedTotal, mergeApart_apart]
    rfl
  split
  · rename_i hempty
    refine .ret { slots := ?_, total := htotal, widened := rfl, builtAt := rfl }
    rw [← hcutOf, hempty, List.map_nil]
  · have hrefs : ∀ ref ∈ cut.1, ref ∈ mergedOf parts bound := fun ref href =>
      List.mem_of_mem_drop (List.mem_of_mem_take href)
    have hfetch : Yields crew.strict (cut.2.entries.mapM (fetchOwed crew.codec crew.shaping
        crew.wrapped crew.opts.fields (answers.map Answer.reply)))
        fun fetched => fetched = cut.2.entries.map fun owed =>
          (owed.1, owed.2.map fun vpid => slotOf crew.codec crew.shaping parts (owed.1, vpid)) := by
      refine (mapM (R := fun owed f => f = (owed.1, owed.2.map fun vpid =>
        slotOf crew.codec crew.shaping parts (owed.1, vpid))) ?_).imp fun _ => map_of_forall₂
      rintro ⟨p, vpids⟩ hentry
      obtain ⟨hvpids, hsome⟩ := mem_byPartition.mp hentry
      obtain ⟨vpid, hvpid⟩ := List.exists_mem_of_ne_nil _ hsome
      obtain ⟨ref, href, rfl, -⟩ := mem_owedOf (hvpids ▸ hvpid)
      obtain ⟨part, hpart, -⟩ := owns_ref (hrefs ref href)
      have hlimit : vpids.length ≤ crew.opts.limit := by
        rw [hvpids]
        exact (length_owedOf_le _ _ _).trans (List.length_take_le _ _)
      refine yields_fetchOwed h hpart hlimit (fun vpid hvpid => ?_) _
      obtain ⟨ref', href', hsame, rfl⟩ := mem_owedOf (hvpids ▸ hvpid)
      obtain ⟨part', hpart', hown⟩ := owns_ref (hrefs ref' href')
      rw [hsame, hpart] at hpart'
      rwa [Option.some.inj hpart']
    refine hfetch.bind ?_
    rintro _ rfl
    have hqueue : ∀ p, owedOf carried cut.1 p ≠ [] → ∃ frames,
        ((cut.2.entries.map fun owed => (owed.1, owed.2.map fun vpid =>
          slotOf crew.codec crew.shaping parts (owed.1, vpid))).foldl
            (fun queues f => queues.set f.1 f.2) JsMap.empty).get p = some frames ∧
        frames.drop (((JsMap.empty : JsMap ℕ ℕ).get p).getD 0) = (owedOf carried cut.1 p).map fun vpid =>
            slotOf crew.codec crew.shaping parts (p, vpid) := by
      intro p hp
      have hentry : (p, owedOf carried cut.1 p) ∈ cut.2.entries := mem_byPartition.mpr ⟨rfl, hp⟩
      have hnodup : ((cut.2.entries.map fun owed => (owed.1, owed.2.map fun vpid =>
          slotOf crew.codec crew.shaping parts (owed.1, vpid))).map Prod.fst).Nodup := by
        rw [List.map_map]
        exact cut.2.nodup
      exact ⟨_, JsMap.get_foldl_set hnodup (List.mem_map_of_mem hentry) _, rfl⟩
    have hsplice : splice crew.codec crew.shaping (answers.map Answer.packet)
        (fun p => ((answers.map Answer.reply).map fun r => decide (r.shape = none)).getD p false)
        ((cut.2.entries.map fun owed => (owed.1, owed.2.map fun vpid =>
          slotOf crew.codec crew.shaping parts (owed.1, vpid))).foldl
            (fun queues f => queues.set f.1 f.2) JsMap.empty) cut.1 JsMap.empty =
          .ok (cut.1.map fun ref => slotOf crew.codec crew.shaping parts ref.owner) :=
      splice_ok (fun ref href bytes hbytes => inlineSlot_ref h hwithin (hrefs ref href) hbytes)
        (fun ref _ => inlineAt_eq_none _ ref) hqueue
    refine (lift hsplice (P := (· = _)) rfl).bind ?_
    rintro _ rfl
    exact .ret { slots := by rw [hcutOf], total := htotal, widened := rfl, builtAt := rfl }

end Page

theorem cutOf_past {opts : EngineSearchOptions}
    (hpast : totalOf parts ≤ opts.offset) : cutOf parts opts = [] := by
  have hlength : (mergedOf parts opts.bound).length ≤ totalOf parts := by
    refine length_mergeApart_le.trans (Nat.add_le_add_right ?_ _)
    rw [List.length_flatten, List.map_map]
    refine List.sum_le_sum fun part _ => ?_
    simp only [Function.comp_apply, List.length_take]
    exact Nat.min_le_right _ _
  rw [cutOf, List.drop_eq_nil_of_le (hlength.trans hpast), List.take_nil]

variable (crew) (slack : ℕ → ℕ → ℕ) (sleep : ℕ → W → W)

def ToldBy (page : GatheredPage) : Prop :=
  ∃ r ∈ crew.releases, (∀ m ∈ crew.members, m.2 < r.parts.length) ∧
    Tells crew.codec crew.shaping crew.opts r.build (crew.partsOf r) page

theorem Answered.within {r : Release R} {bound : ℕ} {answers : List (Answer R)}
    (h : crew.Answered r bound answers) : ∀ m ∈ crew.members, m.2 < r.parts.length := by
  intro m hm
  obtain ⟨i, hi⟩ := List.mem_iff_getElem?.mp hm
  obtain ⟨a, -, hpart⟩ := h.answer hi
  exact (List.getElem?_eq_some_iff.mp hpart).1

theorem yields_gatherFrom (acquireMs : ℕ) :
    Yields crew.strict (gatherFrom crew.codec slack sleep crew.wrapped crew.opts crew.shaping
      acquireMs) crew.ToldBy := by
  refine (crew.yields_askKeys _ _ _).bind ?_
  rintro replies ⟨r, answers, h, rfl⟩
  refine (yields_gatherPage h _ rfl).imp fun page hpage => ?_
  exact ⟨r, h.served, h.within, hpage⟩

/-- **A gather's page is one release's.** Whatever the partitions carry inline,
whichever builds they serve meanwhile, and whether they know the shape or not. -/
theorem yields_runTwoPhase : Yields crew.strict (runTwoPhase crew.codec slack sleep (crew.members.map Prod.fst)
      crew.opts crew.shaping) crew.ToldBy := by
  have hrun : Yields crew.strict (gatherRun crew.codec slack sleep crew.wrapped crew.opts
      crew.shaping) crew.ToldBy := by
    unfold gatherRun
    split
    · refine (crew.yields_askKeys 1 0 _).bind ?_
      rintro probe ⟨r, answers, h, rfl⟩
      refine (lift h.decodeAll (P := (· = _)) rfl).bind ?_
      rintro _ rfl
      rw [h.probedTotal, h.widenedOf]
      split
      · rename_i hpast
        refine (lift h.pinnedBuild (P := (· = _)) rfl).bind ?_
        rintro _ rfl
        refine .ret ⟨r, h.served, h.within, {
          slots := ?_, total := rfl, widened := rfl, builtAt := rfl }⟩
        rw [cutOf_past hpast, List.map_nil]
      · exact crew.yields_gatherFrom slack sleep _
    · exact crew.yields_gatherFrom slack sleep _
  intro w
  have hsame : runTwoPhase crew.codec slack sleep (crew.members.map Prod.fst) crew.opts crew.shaping w =
      Prod.map id Run.world (gatherRun crew.codec slack sleep crew.wrapped crew.opts crew.shaping (Run.start w)) := rfl
  rw [hsame]
  rcases hrun (Run.start w) with ⟨page, r, hpage, htold⟩ | ⟨hloose, e, r, herror⟩
  · exact .inl ⟨page, r.world, by rw [hpage]; rfl, htold⟩
  · exact .inr ⟨hloose, e, r.world, by rw [herror]; rfl⟩

end Crew

end Gather
