-- SUMMARY: A collection batch sent to the partitions its identifiers are routed to, and repaired where a route missed.
import Mathlib.Data.List.Sort
import Sylvan.Data.JsMap
import Sylvan.Engine.NameSettle

/-!
# Collection batches

A batch of identifiers is answered by few partitions: the ones its identifiers are
routed to. What these leave open is asked of the others, and a name's replies are
merged in partition order, whichever round they came in.
-/

/-! ## The wire -/

/-- A collection identifier that is a key into the store. -/
inductive CollectionBatchKey where
  | scryfallId (id : String)
  | oracleId (id : String)
  | illustrationId (id : String)
  | external (namespaceOf : String) (id : ℤ)
  deriving DecidableEq

def CollectionBatchKey.isOracle : CollectionBatchKey → Bool
  | .oracleId _ => true
  | _ => false

structure NameIdentifier where
  folded : String
  setCode : String
  deriving DecidableEq

/-- A routed name of a batch: its position among the names and the hint that routed it. -/
structure CollectionLocate where
  position : ℕ
  hint : NameHint

/-- One batch, split by how each identifier is answered. -/
structure CollectionBatch where
  keys : List CollectionBatchKey
  trees : List String
  treeAddresses : Option (List (Option String)) := none
  names : List NameIdentifier
  presence : Bool := false
  locate : List CollectionLocate := []

/-- Where the names a routed store could not settle live, of one build. -/
structure CollectionNameHolders where
  builtAt : String
  holders : List (Option (List ℤ))

/-- Per slot of a batch, the card, or nothing found. -/
structure CollectionBatchAnswer (Card : Type) where
  keys : List (Option Card)
  trees : List (Option Card)
  names : List (Option Card)
  nameRanks : List (Option NameRank)
  namePresent : Option (List Bool) := none
  nameHolders : Option CollectionNameHolders := none

/-! ## The partitions -/

/-- The names index beside a store: its build, and who holds a folded name. -/
structure NamesIndex where
  builtAt : String
  nameHolders : String → Option (List ℤ)

/-- What the object of each partition answers to each identifier. A store from
before the presence flag has no `present`. -/
structure Partitions (Card : Type) where
  key : ℕ → CollectionBatchKey → Option Card
  tree : ℕ → String → Option Card
  name : ℕ → NameIdentifier → NamePick Card
  present : ℕ → Option (NameIdentifier → Bool)
  index : ℕ → Option NamesIndex

namespace Partitions

variable {Card : Type} (partitions : Partitions Card)

/-- For each folded name, the partitions holding a card it could resolve to, or
nothing where the index cannot say. -/
def namesExactHolders (p : ℕ) (foldeds : List String) : Option (String × List (List ℤ)) :=
  (partitions.index p).bind fun index =>
    (foldeds.mapM index.nameHolders).map fun holders => (index.builtAt, holders)

/-- The packet: every key, tree and name looked up in the partition's own store. -/
def collectionPacketOf (p : ℕ) (batch : CollectionBatch) : CollectionBatchAnswer Card where
  keys := batch.keys.map (partitions.key p)
  trees := batch.trees.map (partitions.tree p)
  names := batch.names.map fun name => (partitions.name p name).card
  nameRanks := batch.names.map fun name => (partitions.name p name).rank
  namePresent := if batch.presence then (partitions.present p).map batch.names.map else none

/-- The routed names of a batch the packet does not settle, with the partitions
that hold them. -/
def locateUnsettled (p : ℕ) (batch : CollectionBatch) (packet : CollectionBatchAnswer Card) :
    Option (String × List ℕ × List (List ℤ)) :=
  let names := ((batch.locate.filter fun located =>
      !nameReplySettles located.hint (packet.nameRanks[located.position]?).join
        ((packet.namePresent.bind (·[located.position]?)).getD false)).map
      (·.position)).filter (· < batch.names.length)
  if names.isEmpty then none
  else (partitions.namesExactHolders p
      (names.filterMap fun position => (batch.names[position]?).map (·.folded))).map
    fun found => (found.1, names, found.2)

/-- The located names spread back over the batch's names. -/
def spreadHolders (length : ℕ) (names : List ℕ) (holders : List (List ℤ)) : List (Option (List ℤ)) :=
  (names.zip holders).foldl (fun spread located => spread.set located.1 (some located.2))
    (List.replicate length none)

def scryfallCollectionBatch (p : ℕ) (batch : CollectionBatch) : CollectionBatchAnswer Card :=
  let packet := partitions.collectionPacketOf p batch
  { packet with
    nameHolders := (partitions.locateUnsettled p batch packet).map fun located =>
      { builtAt := located.1
        holders := spreadHolders batch.names.length located.2.1 located.2.2 } }

end Partitions

/-! ## The router -/

def routingKey (namespaceOf id : String) : String := namespaceOf ++ ":" ++ id

def scryfallIdKey (id : String) : String := routingKey "i" (Partition.toLowerCase id)

def illustrationIdKey (id : String) : String := routingKey "l" (Partition.toLowerCase id)

def externalIdKey (namespaceOf : String) (id : ℤ) : String := routingKey namespaceOf (toString id)

/-- What the router of one request holds: the manifest's partition count and build,
whether the build has a names index, the routing filter where one is loaded, and
the count a fresh read of the manifest gives. -/
structure PartitionedEngine (Card : Type) where
  n : ℕ
  builtAt : String
  locatable : Bool
  routing : Option Routing
  reread : Option ℕ
  partitions : Partitions Card

/-- One name reply, whichever round it came in. -/
structure NameReply (Card : Type) where
  p : ℕ
  pick : NamePick Card
  present : Bool

/-- One partition's share of a round, as positions into the batch. -/
structure Ask (batch : CollectionBatch) where
  p : ℕ
  keyAt : List (Fin batch.keys.length) := []
  treeAt : List (Fin batch.trees.length) := []
  nameAt : List (Fin batch.names.length) := []

/-- What the rounds have answered so far, slot by slot. -/
structure Filled (Card : Type) (batch : CollectionBatch) where
  keys : Fin batch.keys.length → Option Card
  trees : Fin batch.trees.length → Option Card
  nameReplies : Fin batch.names.length → List (NameReply Card)
  nameAsked : Fin batch.names.length → JsSet ℕ
  nameHolders : Fin batch.names.length → Option (List ℤ)

namespace PartitionedEngine

variable {Card : Type} (engine : PartitionedEngine Card) (batch : CollectionBatch)

/-- The partition below `n` the filter names for a key, where there is one. -/
def hintOf (key : String) (n : ℕ) : Option ℕ :=
  (engine.routing.bind fun routing => routing.lookup key).filter (· < n)

/-- The partition a key is routed to in a store of `n` partitions. -/
def targetOf (key : CollectionBatchKey) (n : ℕ) : Option ℕ :=
  match key with
  | .oracleId id => some (Partition.partitionOfOracleId id n)
  | .scryfallId id => engine.hintOf (scryfallIdKey id) n
  | .illustrationId id => engine.hintOf (illustrationIdKey id) n
  | .external namespaceOf id => engine.hintOf (externalIdKey namespaceOf id) n

/-- The address a tree looks up, where the batch names one. -/
def treeAddress (i : Fin batch.trees.length) : Option String :=
  batch.treeAddresses.bind fun addresses => (addresses[i.val]?).join

def hint (i : Fin batch.names.length) : Option NameHint :=
  nameHintOf engine.routing (batch.names.get i).folded

/-- A served-routed name that can miss rides every call of the first round: beside
a set, the served partition may hold no printing in it. -/
def riding (i : Fin batch.names.length) : Bool :=
  match engine.hint batch i with
  | some (.served _ _ _) => (batch.names.get i).setCode ≠ ""
  | _ => false

/-! ### The first round's partitions -/

def targets : List (Option ℕ) :=
  batch.keys.map (engine.targetOf · engine.n) ++ (List.finRange batch.trees.length).map fun i =>
      ((treeAddress batch i).filter (· ≠ "")).bind (engine.hintOf · engine.n)

def unroutedNames : List (Fin batch.names.length) :=
  (List.finRange batch.names.length).filter fun i => engine.hint batch i = none

/-- Whether the first round asks every partition: an identifier has no route. -/
def everywhere : Bool :=
  !(engine.unroutedNames batch).isEmpty || (engine.targets batch).any (·.isNone)

/-- The partitions an identifier is routed to; an unrouted name leaves the keys and
trees unread. -/
def called : JsSet ℤ :=
  let names := (List.finRange batch.names.length).filterMap fun i =>
    (engine.hint batch i).map hintPartition
  let keysAndTrees := if !(engine.unroutedNames batch).isEmpty then []
    else (engine.targets batch).reduceOption.map Int.ofNat
  JsSet.of (names ++ keysAndTrees)

def askedIn1 (p : ℕ) : Bool := engine.everywhere batch || ((p : ℤ) ∈ engine.called batch)

/-- The names the first round asks a partition for: an unrouted one, its own, and a
riding one. -/
def namesFor (p : ℕ) : List (Fin batch.names.length) :=
  (List.finRange batch.names.length).filter fun i =>
    match engine.hint batch i with
    | none => true
    | some hint => hintPartition hint = (p : ℤ) || engine.riding batch i

/-! ### A round of calls -/

variable {batch}

/-- The batch one partition is sent. `routes`: the first round, where it is told
which of its names it is the route of. -/
def subBatch (routes : Bool) (calls : ℕ) (ask : Ask batch) : CollectionBatch where
  keys := ask.keyAt.map batch.keys.get
  trees := ask.treeAt.map batch.trees.get
  names := ask.nameAt.map batch.names.get
  presence := ask.nameAt.any fun i => soleHint (engine.hint batch i) = some (ask.p : ℤ)
  locate :=
    if routes && engine.locatable then
      ask.nameAt.zipIdx.filterMap fun (i, position) =>
        let everyone := engine.riding batch i && engine.n ≤ calls
        match engine.hint batch i with
        | some hint => if hintPartition hint = (ask.p : ℤ) && !everyone
            then some { position, hint } else none
        | none => none
    else []

def fillSlots {α : Type} [DecidableEq α] (slots : α → Option Card) (at' : List α)
    (cards : List (Option Card)) : α → Option Card :=
  (at'.zip cards).foldl
    (fun slots filled => if (slots filled.1).isNone then Function.update slots filled.1 filled.2
      else slots) slots

/-- The partitions an answer's index names for a name: from this build's index
only, and naming this build's partitions. -/
def holdersOf (answer : CollectionBatchAnswer Card) (position : ℕ) : Option (List ℤ) :=
  (answer.nameHolders.bind fun holders =>
    if holders.builtAt = engine.builtAt then (holders.holders[position]?).join else none).filter
    fun holders => holders.all fun q => 0 ≤ q && q < engine.n

def replyAt (p : ℕ) (answer : CollectionBatchAnswer Card) (position : ℕ) : NameReply Card where
  p := p
  pick := { rank := (answer.nameRanks[position]?).join, card := (answer.names[position]?).join }
  present := (answer.namePresent.bind (·[position]?)).getD false

/-- The name at `position` of one partition's answer. -/
def fillName (p : ℕ) (answer : CollectionBatchAnswer Card) (filled : Filled Card batch)
    (name : Fin batch.names.length × ℕ) : Filled Card batch :=
  { filled with
    nameReplies := Function.update filled.nameReplies name.1
      (filled.nameReplies name.1 ++ [replyAt p answer name.2])
    nameHolders := match engine.holdersOf answer name.2 with
      | some holders => Function.update filled.nameHolders name.1 (some holders)
      | none => filled.nameHolders }

def fill (filled : Filled Card batch) (reply : Ask batch × CollectionBatchAnswer Card) : Filled Card batch :=
  let (ask, answer) := reply
  ask.nameAt.zipIdx.foldl (engine.fillName ask.p answer)
    { filled with
      keys := fillSlots filled.keys ask.keyAt answer.keys
      trees := fillSlots filled.trees ask.treeAt answer.trees }

/-- The partition of an ask is noted for each of its names. -/
def noteAsked (asked : Fin batch.names.length → JsSet ℕ) (ask : Ask batch) : Fin batch.names.length → JsSet ℕ :=
  ask.nameAt.foldl (fun asked i => Function.update asked i ((asked i).add ask.p)) asked

def round (routes : Bool) (filled : Filled Card batch) (asks : List (Ask batch)) : Filled Card batch :=
  let replies := asks.map fun ask =>
    (ask, engine.partitions.scryfallCollectionBatch ask.p
      (engine.subBatch routes asks.length ask))
  replies.foldl engine.fill { filled with nameAsked := asks.foldl noteAsked filled.nameAsked }

/-! ### The rounds -/

variable (batch)

def emptyCollectionAnswer : Filled Card batch where
  keys _ := none
  trees _ := none
  nameReplies _ := []
  nameAsked _ := []
  nameHolders _ := none

def firstAsks : List (Ask batch) :=
  ((List.range engine.n).filter (engine.askedIn1 batch)).map fun p =>
    { p
      keyAt := List.finRange batch.keys.length
      treeAt := List.finRange batch.trees.length
      nameAt := engine.namesFor batch p }

variable {batch}

/-- Oracle ids that missed their owner, by the owner a fresh count gives them. -/
def regrouped (freshN : ℕ) (oracleMissed : List (Fin batch.keys.length)) : JsMap ℕ (List (Fin batch.keys.length)) :=
  oracleMissed.foldl (fun groups i =>
    match engine.targetOf (batch.keys.get i) freshN with
    | some p2 => if engine.n ≤ p2 || !engine.askedIn1 batch p2
        then groups.update p2 fun group => group.getD [] ++ [i] else groups
    | none => groups) JsMap.empty

/-- The asks of the oracle round: none unless the partition count has moved. -/
def oracleAsks (filled : Filled Card batch) : List (Ask batch) :=
  let oracleMissed := (List.finRange batch.keys.length).filter fun i =>
    (batch.keys.get i).isOracle && (filled.keys i).isNone
  if oracleMissed.isEmpty then []
  else match engine.reread with
    | some freshN =>
      if freshN = engine.n then []
      else ((engine.regrouped freshN oracleMissed).entries.insertionSort fun a b => a.1 ≤ b.1).map
        fun group => { p := group.1, keyAt := group.2 }
    | none => []

def missedKeys (filled : Filled Card batch) : List (Fin batch.keys.length) :=
  if engine.everywhere batch then []
  else (List.finRange batch.keys.length).filter fun i =>
    !(batch.keys.get i).isOracle && (filled.keys i).isNone

/-- Trees none of whose address was found: the English tree of an address with no
English printing misses while its twin hits, and that is an answer. -/
def missedTrees (filled : Filled Card batch) : List (Fin batch.trees.length) :=
  if engine.everywhere batch then []
  else
    let answered := ((List.finRange batch.trees.length).filter fun i =>
      (filled.trees i).isSome).map (treeAddress batch)
    (List.finRange batch.trees.length).filter fun i => !(answered.contains (treeAddress batch i))

def unsettled (filled : Filled Card batch) : List (Fin batch.names.length) :=
  (List.finRange batch.names.length).filter fun i =>
    match engine.hint batch i with
    | none => false
    | some hint =>
      if engine.n ≤ (filled.nameAsked i).length then false
      else match (filled.nameReplies i).find? fun reply => (reply.p : ℤ) = hintPartition hint with
        | some reply => !nameReplySettles hint reply.pick.rank reply.present
        | none => true

def mayHold (filled : Filled Card batch) (i : Fin batch.names.length) (p : ℕ) : Bool :=
  match filled.nameHolders i with
  | some holders => holders.contains (p : ℤ)
  | none => true

/-- The asks of the repair round: each partition what it was not asked before. -/
def repairAsks (filled : Filled Card batch) : List (Ask batch) :=
  let asks : List (Ask batch) := (List.range engine.n).map fun p =>
    { p
      keyAt := if engine.askedIn1 batch p then [] else engine.missedKeys filled
      treeAt := if engine.askedIn1 batch p then [] else engine.missedTrees filled
      nameAt := (engine.unsettled filled).filter fun i =>
        !((filled.nameAsked i).contains p) && mayHold filled i p }
  asks.filter fun ask => !ask.keyAt.isEmpty || !ask.treeAt.isEmpty || !ask.nameAt.isEmpty

variable (batch)

def gathered : Filled Card batch :=
  let first := engine.round true (emptyCollectionAnswer batch) (engine.firstAsks batch)
  let moved := engine.round false first (engine.oracleAsks first)
  engine.round false moved (engine.repairAsks moved)

def mergeReplies (replies : List (NameReply Card)) : NamePick Card :=
  NamePick.best ((replies.insertionSort fun a b => a.p ≤ b.p).map (·.pick))

def scryfallCollectionBatch : CollectionBatchAnswer Card :=
  let filled := engine.gathered batch
  { keys := List.ofFn filled.keys
    trees := List.ofFn filled.trees
    names := List.ofFn fun i => (mergeReplies (filled.nameReplies i)).card
    nameRanks := List.ofFn fun i => (mergeReplies (filled.nameReplies i)).rank }

/-! ### The full fan-out -/

/-- The answers of all partitions to the whole batch. -/
def answersOfAll : List (CollectionBatchAnswer Card) :=
  (List.range engine.n).map (engine.partitions.scryfallCollectionBatch · batch)

/-- The answers of all partitions merged position by position: the first card in
partition order, and of a name the best-ranked reply's. -/
def fanOut : CollectionBatchAnswer Card :=
  let answers := engine.answersOfAll batch
  let picks := fun i : Fin batch.names.length => NamePick.best (answers.map fun answer =>
    { rank := (answer.nameRanks[i.val]?).join, card := (answer.names[i.val]?).join })
  { keys := List.ofFn fun i : Fin batch.keys.length =>
      answers.findSome? fun answer => (answer.keys[i.val]?).join
    trees := List.ofFn fun i : Fin batch.trees.length =>
      answers.findSome? fun answer => (answer.trees[i.val]?).join
    names := List.ofFn fun i => (picks i).card
    nameRanks := List.ofFn fun i => (picks i).rank }

end PartitionedEngine
