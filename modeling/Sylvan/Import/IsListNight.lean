-- SUMMARY: A night of the `is:` lists refresh: pages taken into lists, units applied to the state, and the loop that asks for them in slices.
import Mathlib.Algebra.Order.Ring.Rat
import Sylvan.Data.Calendar
import Sylvan.Data.Runs
import Sylvan.Import.IsListReads

/-!
# A night of the `is:` lists

A night reads its units one after another: a unit's lists page by page, then the unit
into the state. The reading stops wherever an alarm's requests are spent and goes on with
the next alarm; an answer may be a page, a refusal, an error or a 429 at any of them.
-/

namespace IsLists

/-! ## Answers -/

/-- A row of an answer's `data`, a field `none` where it is not a string: a card, or a set of `/sets`. -/
structure Item where
  id : Option (List Char) := none
  set : Option (List Char) := none
  collectorNumber : Option (List Char) := none
  lang : Option (List Char) := none
  name : Option (List Char) := none
  oracleId : Option (List Char) := none
  /-- The faces' oracle ids. -/
  faceIds : List (Option (List Char)) := []
  /-- How many cards `all_parts` names; 0 where it is no array. -/
  allParts : ℕ := 0
  releasedAt : Option (List Char) := none
  code : Option (List Char) := none
  cardCount : Option ℤ := none

/-- The parsed body, a field `none` where it is not of its type. -/
structure Body where
  object : Option (List Char) := none
  code : Option (List Char) := none
  data : Option (List Item) := none
  hasMore : Option Bool := none
  total : Option ℤ := none
  /-- `warnings` is given, and truthy. -/
  warnings : Bool := false

/-- What a request answered: the status, the parsed body, Retry-After in seconds. -/
structure SearchAnswer where
  status : ℕ
  body : Body
  retryAfter : Option ℚ := none

structure ApiCard where
  set : List Char
  collectorNumber : List Char
  lang : List Char
  name : List Char
  oracleId : Option (List Char)
  faceIds : List (Option (List Char))
  allParts : ℕ
  releasedAt : Option (List Char)

structure SearchPage where
  rows : List ApiCard
  total : ℕ
  hasMore : Bool

def keyField (field : Option (List Char)) : Bool := field.any fun f => !f.isEmpty && !f.any isSpace

def checkCard (q : List Char) (c : Item) : Except String ApiCard :=
  match c.id, c.set, c.collectorNumber, c.lang with
  | some id, some set, some number, some lang =>
    if !([id, set, number, lang].all fun f => keyField (some f)) then
      .error s!"{String.ofList q}: a key with an empty field or whitespace in one"
    else match c.name with
      | some name =>
        if name.isEmpty || name.any fun ch => ch = '\t' || ch = '\n' || ch = '\r' then
          .error s!"{String.ofList q}: a name the table cannot hold"
        else .ok
          { set := set, collectorNumber := number, lang := lang, name := name, oracleId := c.oracleId
            faceIds := c.faceIds, allParts := c.allParts, releasedAt := c.releasedAt }
      | none => .error s!"{String.ofList q}: no name"
  | _, _, _, _ => .error s!"{String.ofList q}: a row without id, set, number or lang"

def checkSearchPage (q : List Char) (answer : SearchAnswer) : Except String SearchPage :=
  let body := answer.body
  if answer.status = 404 && body.code = some "not_found".toList && !body.warnings then
    .ok { rows := [], total := 0, hasMore := false }
  else if answer.status ≠ 200 || body.object ≠ some "list".toList then
    .error s!"{String.ofList q}: {answer.status}"
  else match body.data with
    | none => .error s!"{String.ofList q}: {answer.status}"
    | some data =>
      if body.warnings then .error s!"{String.ofList q}: answered with a warning"
      else match body.total, body.hasMore with
        | some total, some hasMore =>
          if total < data.length || data.isEmpty then
            .error s!"{String.ofList q}: {data.length} rows on a page of a list of {total}"
          else do
            let rows ← data.mapM (checkCard q)
            .ok { rows := rows, total := total.toNat, hasMore := hasMore }
        | none, _ => .error s!"{String.ofList q}: a page of a list of no size"
        | _, none => .error s!"{String.ofList q}: a page that does not say whether there is another"

/-! ## Lists being read -/

inductive Unique where
  | prints
  | cards
  | art
deriving DecidableEq, Repr

structure ListProgress where
  q : List Char
  unique : Unique
  /-- Asked newest release first. -/
  newest : Bool
  /-- The next page to ask for. -/
  page : ℕ
  /-- The list's size, as its first page said. -/
  total : Option ℕ
  rows : List Got
  done : Bool
deriving DecidableEq, Repr

def newList (q : List Char) (unique : Unique := .prints) : ListProgress :=
  { q := q, unique := unique, newest := false, page := 1, total := none, rows := [], done := false }

section

variable (pick : ApiCard → Except String Got)

/-- Take one checked page into a list. What a refusal leaves of the list is dropped by the caller. -/
def acceptPage (list : ListProgress) (page : SearchPage) : Except String ListProgress :=
  if list.done then .error s!"{String.ofList list.q}: a page after the last"
  else if list.total.any (· ≠ page.total) then .error s!"{String.ofList list.q}: the list moved while it was read"
  else do
    let picked ← page.rows.mapM pick
    let rows := list.rows ++ picked
    let list := { list with total := some page.total, rows := rows, page := list.page + 1 }
    if page.hasMore then
      if rows.length ≥ page.total then .error s!"{String.ofList list.q}: more pages after all {page.total} rows"
      else .ok list
    else if rows.length ≠ page.total then
      .error s!"{String.ofList list.q}: {rows.length} rows received of {page.total}"
    else .ok { list with done := true }

/-- Where a read that ends at a day stands within a page. -/
structure Newest where
  rows : List Got
  last : List Char
  done : Bool

def Newest.take (q back : List Char) (read : Newest) (card : ApiCard) : Except String Newest :=
  match card.releasedAt with
  | none => .error s!"{String.ofList q}: no release day"
  | some day =>
    if !isDay day then .error s!"{String.ofList q}: no release day"
    else if textBefore read.last day then .error s!"{String.ofList q}: not newest first"
    else if !textBefore day back then do
      let got ← pick card
      .ok { rows := read.rows ++ [{ got with d := some day }], last := day, done := read.done }
    else .ok { read with last := day, done := true }

/-- Take one checked page of a list asked newest first into a read that ends at the day `back`. -/
def acceptNewestPage (list : ListProgress) (page : SearchPage) (back : List Char) (maxPages : ℕ) :
    Except String ListProgress :=
  if list.done then .error s!"{String.ofList list.q}: a page after the last"
  else if list.total.any (· ≠ page.total) then .error s!"{String.ofList list.q}: the list moved while it was read"
  else do
    let start : Newest :=
      { rows := list.rows, last := ((list.rows.getLast?).bind (·.d)).getD "9999-99-99".toList, done := false }
    let read ← page.rows.foldlM (Newest.take pick list.q back) start
    let list := { list with total := some page.total, rows := read.rows, page := list.page + 1, done := read.done }
    if list.done then .ok list
    else if !page.hasMore then .ok { list with done := true }
    else if list.page > maxPages then
      .error s!"{String.ofList list.q}: {maxPages} pages read and not back to {String.ofList back}"
    else .ok list

end

def refuseRepeats (list : ListProgress) : Except String Unit :=
  if (list.rows.map keyOf).Nodup then .ok () else .error s!"{String.ofList list.q}: a row is in the answer twice"

/-! ## Units -/

inductive NightUnit where
  | list (tag : SmallList)
  | foreign
  | sizes
  | art
  | sets
  | set (code : List Char) (count : ℕ) (fresh : Bool)
deriving DecidableEq, Repr

/-- The search a small list is read with: one row a card for a card list, every row otherwise. -/
def listQuery (tag : SmallList) : List Char × Unique :=
  let term := if tag = .oldArtist then "-new:artist".toList else "is:".toList ++ tag.tag.name
  if tag ∈ CARD_LISTS then (term, .cards) else (term ++ " lang:any".toList, .prints)

def ART_REPS_QUERY : List Char := "year>=1993".toList

def listsOf : NightUnit → List ListProgress
  | .list tag => [newList (listQuery tag).1 (listQuery tag).2]
  | .foreign => [newList "-is:covered -lang:en".toList]
  | .sizes =>
    [newList "is:covered lang:en".toList, newList "-is:covered lang:en".toList, newList "is:related".toList]
  | .art => [{ newList ART_REPS_QUERY .art with newest := true }]
  | .set code _ _ =>
    [newList ("e:".toList ++ code ++ " is:covered".toList), newList ("e:".toList ++ code ++ " -is:covered".toList),
      newList ("e:".toList ++ code ++ " is:related".toList)]
  | .sets => []

def oraclesOf (card : ApiCard) : List (List Char) :=
  JsSet.of ((card.oracleId :: card.faceIds).filterMap id |>.filter fun id => !id.isEmpty)

def NightUnit.named : NightUnit → Bool
  | .list tag => tag ∈ CARD_LISTS
  | .set .. => true
  | _ => false

def pick (unit : NightUnit) (card : ApiCard) : Except String Got :=
  let got : Got :=
    { s := card.set, n := card.collectorNumber, l := card.lang, p := false, o := [], m := [], d := none }
  if unit.named then
    let ids := oraclesOf card
    if ids.isEmpty || ids.any fun id => !isId id then .error "no oracle id the table can hold"
    else
      let o := match unit with
        | .set .. => ids.take 1
        | _ => ids
      .ok { got with o := o, m := card.name, p := card.allParts > 0 }
  else .ok got

/-! ## The night's work -/

def IS_LISTS_NIGHT_REQUESTS : ℕ := 240
def IS_LISTS_DEADLINE_MS : ℤ := 15 * 60000
def IS_LISTS_MAX_REFUSALS : ℕ := 3
def IS_LISTS_MAX_THROTTLES : ℕ := 3
def IS_LISTS_RETRY_AFTER_DEFAULT_S : ℤ := 60
def IS_LISTS_RETRY_AFTER_MAX_S : ℤ := 180
def IS_LISTS_REFETCH_DAYS : ℤ := 7
def IS_LISTS_RECENT_DAYS : ℤ := 30
def IS_LISTS_STATE_MAX_BYTES : ℕ := 1500000
def SCRYFALL_PAGE_ROWS : ℕ := 175
def ART_REPS_MAX_PAGES : ℕ := 60

structure NightWork where
  night : List Char
  startedMs : ℤ
  base : CompiledBase
  /-- The day the artwork representatives are read back to. -/
  artFrom : Option (List Char)
  /-- The state as the finished units have left it. -/
  state : IsListsState
  queue : List NightUnit
  /-- The head unit's lists, read so far. -/
  lists : Option (List ListProgress) := none
  requests : ℕ := 0
  refusals : ℕ := 0
  /-- Why the night stopped asking before its queue was empty. -/
  stopped : Option String := none
  throttles : ℕ := 0
  resumeAtMs : Option ℤ := none

def dayOf (ms : ℤ) : List Char := ((Calendar.toISOString ms).getD "").toList.take 10

def usableState (stored : Option IsListsState) (base : CompiledBase) : Option IsListsState :=
  stored.filter fun state => state.base = base.fingerprint

def beginNight (tsv : List Char) (stored : Option IsListsState) (nowMs : ℤ) (artFrom : Option (List Char)) :
    Except String NightWork :=
  if artFrom.any fun day => !isDay day then .error "the artwork representatives cannot be read back to that day"
  else do
    let (base, _) ← readCompiled tsv
    let known := (ROW_LISTS ++ CARD_LISTS).filter fun tag => (base.totals tag.tag).isSome
    .ok
      { night := dayOf nowMs
        startedMs := nowMs
        base := base
        artFrom := artFrom
        state := (usableState stored base).getD (freshState base)
        queue := known.map NightUnit.list ++ (if base.refinable then [.foreign, .sizes] else []) ++
          (if artFrom.isSome then [.art] else []) ++ (if base.refinable then [.sets] else []) }

/-! ## Units into the state -/

def applyList (work : NightWork) (tag : SmallList) (list : ListProgress) : Except String IsListsState :=
  if list.rows.isEmpty then .error s!"{String.ofList list.q} answers nothing"
  else do
    refuseRepeats list
    let lines ← (listLines work.base.keep tag list.rows).mapM checkLine
    .ok { work.state with
      lists := work.state.lists.set tag { total := list.rows.length, fetched := work.night, lines := lines } }

def applyForeign (work : NightWork) (list : ListProgress) : Except String IsListsState := do
  refuseRepeats list
  if list.rows.any fun g => g.l = "en".toList then .error s!"{String.ofList list.q}: an English row in the answer"
  else do
    let lines ← (foreignLines list.rows).mapM checkLine
    .ok { work.state with foreign := some { total := list.rows.length, fetched := work.night, lines := lines } }

/-- The newest end of the record of artwork representatives, read back to the night's day. -/
def applyArt (work : NightWork) (list : ListProgress) : Except String IsListsState :=
  if list.rows.isEmpty then .error s!"{String.ofList list.q}: no artwork representative released"
  else do
    refuseRepeats list
    let lines ← (artLines list.rows).mapM checkLine
    .ok { work.state with
      art := some
        { total := list.total.getD 0, fetched := work.night, back := work.artFrom.getD [], lines := lines } }

section

-- `text.toLowerCase()`
variable (toLowerCase : List Char → List Char)

/-- One list of a set: no row twice, and none of another set. -/
def checkSetList (code : List Char) (list : ListProgress) : Except String Unit := do
  refuseRepeats list
  if list.rows.any fun g => toLowerCase g.s ≠ toLowerCase code then
    .error s!"{String.ofList list.q}: a row of another set"
  else .ok ()

/-- One set, read whole: every printing of it written in or out of covered (English) and related. -/
def applySet (work : NightWork) (code : List Char) (count : ℕ) (covered uncovered related : ListProgress) :
    Except String IsListsState := do
  checkSetList toLowerCase code covered
  checkSetList toLowerCase code uncovered
  checkSetList toLowerCase code related
  if uncovered.rows.any fun g => keyOf g ∈ covered.rows.map keyOf then
    .error s!"e:{String.ofList code}: a row is covered and not covered"
  else if related.rows.any fun g => keyOf g ∉ (covered.rows ++ uncovered.rows).map keyOf then
    .error s!"e:{String.ofList code}: a row is related and in neither half of the set"
  else do
    let lines ← (setLines code covered.rows uncovered.rows related.rows).mapM checkLine
    .ok { work.state with
      sets := work.state.sets.set code
        { count := some count, fetched := some work.night, cov := some (english covered.rows).length
          unc := some (english uncovered.rows).length, rel := some related.rows.length, lines := some lines } }

/-! ## /sets -/

/-- `/^[a-z0-9]+$/i` -/
def isCode (code : List Char) : Bool :=
  !code.isEmpty && code.all fun c => Text.isLowerOrDigit c || ('A' ≤ c && c ≤ 'Z')

structure NamedSet where
  code : List Char
  count : ℕ
  released : List Char

def checkSet (s : Item) : Except String NamedSet :=
  match s.code with
  | none => .error "/sets: a set with no code"
  | some code =>
    if !isCode code then .error s!"/sets: a set with the code {String.ofList code}"
    else match s.cardCount with
      | none => .error s!"/sets: {String.ofList code} holds no number of cards"
      | some count =>
        if count < 0 then .error s!"/sets: {String.ofList code} holds {count} cards"
        else .ok { code := code, count := count.toNat, released := s.releasedAt.getD "9999-12-31".toList }

-- `Date.parse` of a day at midnight, `none` where that is not a number
variable (parseDay : List Char → Option ℤ)

def settled (base : CompiledBase) (released : List Char) : Bool :=
  match parseDay released, parseDay base.date with
  | some day, some measured => day < measured - IS_LISTS_RECENT_DAYS * 86400000
  | _, _ => false

/-- One set of `/sets`: left alone, counted, or owed a read. -/
def takeSet (base : CompiledBase) (first : Bool) (acc : JsMap (List Char) SetState × List (NightUnit × NamedSet))
    (s : NamedSet) : JsMap (List Char) SetState × List (NightUnit × NamedSet) :=
  let before := acc.1.get s.code
  if before.any fun state => state.count = some s.count then acc
  else
    -- A set first seen on a later night is new; on the first night only the recent ones are read.
    let fresh := before.isNone && !first
    let isOwed := before.isSome || fresh || !settled parseDay base s.released
    if !isOwed || s.count = 0 then
      (acc.1.set s.code { before.getD { count := none } with count := some s.count }, acc.2)
    else
      (if before.isNone then acc.1.set s.code { count := none } else acc.1, acc.2 ++ [(.set s.code s.count fresh, s)])

/-- /sets: which sets hold another number of printings than when they were last read. -/
def applySets (work : NightWork) (answer : SearchAnswer) : Except String (IsListsState × List NightUnit) :=
  if answer.status ≠ 200 || answer.body.object ≠ some "list".toList then .error s!"/sets: {answer.status}"
  else match answer.body.data with
    | none => .error s!"/sets: {answer.status}"
    | some data =>
      if data.isEmpty then .error s!"/sets: {answer.status}"
      else if answer.body.hasMore = some true then .error "/sets: more than one page"
      else do
        let named ← data.mapM checkSet
        if ¬ (named.map (·.code)).Nodup then .error "/sets: a set twice"
        else
          let (sets, owed) :=
            named.foldl (takeSet parseDay work.base work.state.sets.entries.isEmpty) (work.state.sets, [])
          -- Newest first: when the budget does not reach them all, the sets still being printed are read.
          let owed := owed.insertionSort fun a b =>
            textBefore b.2.released a.2.released ||
              (!textBefore a.2.released b.2.released && textBefore a.2.code b.2.code)
          .ok ({ work.state with sets := sets }, owed.map Prod.fst)

/-! ## Pages of the head unit -/

def NightUnit.isSizes : NightUnit → Bool
  | .sizes => true
  | _ => false

/-- Whether a list of a unit is still to be asked for: the sizes are their first pages' totals. -/
def pending (unit : NightUnit) (list : ListProgress) : Bool := !list.done && !(unit.isSizes && list.total.isSome)

def setCost (count : ℕ) : ℕ := 2 * ((count + (SCRYFALL_PAGE_ROWS - 1)) / SCRYFALL_PAGE_ROWS) + 2

def putOff (work : NightWork) : NightUnit → Bool
  | .set _ count _ => setCost count > IS_LISTS_NIGHT_REQUESTS - work.requests
  | _ => false

/-- `Math.round` of the days from one day to another. -/
def daysBetween (before after : List Char) : Option ℤ := do
  let a ← parseDay before
  let b ← parseDay after
  return (2 * (b - a) + 86400000) / (2 * 86400000)

def recent (work : NightWork) (fetched : List Char) : Bool :=
  (daysBetween parseDay fetched work.night).any (· < IS_LISTS_REFETCH_DAYS)

/-- What a list is compared with on its first page: the size and the day it was last read. -/
def listBase (work : NightWork) (tag : SmallList) : Option (ℕ × List Char) :=
  match work.state.lists.get tag with
  | some held => some (held.total, held.fetched)
  | none => if tag ∈ CARD_LISTS then none else (work.base.totals tag.tag).map fun total => (total, work.base.date)

def foreignBase (work : NightWork) : ℕ × List Char :=
  match work.state.foreign with
  | some held => (held.total, held.fetched)
  | none => (work.base.foreignRows, work.base.date)

/-- A list's first page is its probe: the same size as when it was last read, and that recently enough. -/
def unchanged (work : NightWork) (unit : NightUnit) (list : ListProgress) : Bool :=
  list.page = 2 && !list.done &&
    match unit with
    | .art => work.state.art.any fun held =>
      some held.total = list.total && some held.back = work.artFrom && recent parseDay work held.fetched
    | .list tag => (listBase work tag).any fun before =>
      some before.1 = list.total && recent parseDay work before.2
    | .foreign => some (foreignBase work).1 = list.total && recent parseDay work (foreignBase work).2
    | _ => false

def takePage (work : NightWork) (unit : NightUnit) (answer : SearchAnswer) (list : ListProgress) :
    Except String ListProgress := do
  let page ← checkSearchPage list.q answer
  match unit with
  | .art => acceptNewestPage (pick unit) list page (work.artFrom.getD []) ART_REPS_MAX_PAGES
  | _ => acceptPage (pick unit) list page

/-- The first list still to be asked for taken on, the others as they are; and that list as it now is. -/
def takeOn (unit : NightUnit) (take : ListProgress → Except String ListProgress) :
    List ListProgress → Except String (List ListProgress × Option ListProgress)
  | [] => .ok ([], none)
  | list :: lists =>
    if pending unit list then do
      let list ← take list
      .ok (list :: lists, some list)
    else do
      let (lists, taken) ← takeOn unit take lists
      .ok (list :: lists, taken)

variable (toLowerCase : List Char → List Char)

def applyUnit (work : NightWork) (unit : NightUnit) (lists : List ListProgress) : Except String IsListsState :=
  match unit, lists with
  | .list tag, [list] => applyList work tag list
  | .foreign, [list] => applyForeign work list
  | .art, [list] => applyArt work list
  | .set code count _, [covered, uncovered, related] => applySet toLowerCase work code count covered uncovered related
  | _, _ => .ok work.state

/-! ## The loop -/

inductive Request where
  | sets
  | search (q : List Char) (unique : Unique) (page : ℕ) (newest : Bool)
deriving DecidableEq, Repr

/-- A request and what came of it: `none` where the request itself failed. -/
structure Asked where
  request : Request
  reply : Option SearchAnswer

/-- What a slice is run with, and how many requests it has made. -/
structure Slice where
  maxRequests : ℕ
  deadlineMs : ℤ
  asked : ℕ

inductive Phase where
  /-- Between two slices. -/
  | rest
  /-- In the loop of a slice. -/
  | running (slice : Slice)
  /-- In the loop of a slice, a request under way. -/
  | waiting (slice : Slice) (request : Request)
  | over

/-- A night: its work, where its loop stands, and everything asked so far. -/
structure Night where
  work : NightWork
  phase : Phase
  log : List Asked

def ListProgress.request (list : ListProgress) : Request := .search list.q list.unique list.page list.newest

/-- What a unit asks next; `none` when its lists are read. -/
def nextRequest (unit : NightUnit) (lists : List ListProgress) : Option Request :=
  match unit with
  | .sets => some .sets
  | _ => (lists.find? (pending unit)).map (·.request)

-- `JSON.stringify(state).length`
variable (stateBytes : IsListsState → ℕ)

def finishUnit (work : NightWork) : NightWork :=
  let work := { work with lists := none, queue := work.queue.tail }
  if stateBytes work.state > IS_LISTS_STATE_MAX_BYTES then
    { work with stopped := some "the refreshed lists have outgrown one stored value" }
  else work

def refused (work : NightWork) : NightWork :=
  let work := { work with refusals := work.refusals + 1 }
  finishUnit stateBytes
    (if work.refusals ≥ IS_LISTS_MAX_REFUSALS then { work with stopped := some s!"{work.refusals} lists refused" }
      else work)

def stop (work : NightWork) (why : String) : NightWork := finishUnit stateBytes { work with stopped := some why }

def ask (s : Night) (slice : Slice) (request : Request) (nowMs pastMs : ℤ) : Night :=
  if nowMs - s.work.startedMs > IS_LISTS_DEADLINE_MS then
    { s with work := stop stateBytes s.work "minutes in", phase := .running slice }
  else if IS_LISTS_NIGHT_REQUESTS - s.work.requests = 0 then
    { s with work := stop stateBytes s.work "the night's requests are spent", phase := .running slice }
  else if slice.asked ≥ slice.maxRequests || pastMs ≥ slice.deadlineMs then { s with phase := .rest }
  else
    { s with
      work := { s.work with requests := s.work.requests + 1 }
      phase := .waiting { slice with asked := slice.asked + 1 } request }

/-- The loop, on to its next request or the end of a unit. -/
def turn (s : Night) (slice : Slice) (nowMs pastMs : ℤ) : Night :=
  match s.work.queue with
  | [] => { s with phase := .over }
  | unit :: queue =>
    if s.work.stopped.isSome then { s with phase := .over }
    -- Put off, not refused: its count stays owed, so the next night reads it first.
    else if s.work.lists.isNone && putOff s.work unit then { s with work := { s.work with queue := queue } }
    else
      let lists := s.work.lists.getD (listsOf unit)
      match nextRequest unit lists with
      | some request =>
        let work := match unit with
          | .sets => s.work
          | _ => { s.work with lists := some lists }
        ask stateBytes { s with work := work } slice request nowMs pastMs
      | none =>
        match applyUnit toLowerCase s.work unit lists with
        | .ok state => { s with work := finishUnit stateBytes { s.work with state := state } }
        | .error _ => { s with work := refused stateBytes s.work }

def waitSeconds (retryAfter : Option ℚ) : ℤ :=
  match retryAfter with
  | some r => if r > 0 then r.ceil else IS_LISTS_RETRY_AFTER_DEFAULT_S
  | none => IS_LISTS_RETRY_AFTER_DEFAULT_S

/-- A 429: waited out, nothing of the unit in flight kept, or the night's end. -/
def throttle (s : Night) (slice : Slice) (retryAfter : Option ℚ) (nowMs : ℤ) : Night :=
  let waitS := waitSeconds retryAfter
  let work := s.work
  if work.throttles + 1 ≥ IS_LISTS_MAX_THROTTLES || waitS > IS_LISTS_RETRY_AFTER_MAX_S ||
      nowMs + waitS * 1000 - work.startedMs > IS_LISTS_DEADLINE_MS then
    { s with work := stop stateBytes work "Scryfall answered 429", phase := .running slice }
  else
    { s with
      work := { work with throttles := work.throttles + 1, resumeAtMs := some (nowMs + waitS * 1000), lists := none }
      phase := .rest }

def takeAnswer (work : NightWork) (unit : NightUnit) (answer : SearchAnswer) : NightWork :=
  match unit with
  | .sets =>
    match applySets parseDay work answer with
    | .ok (state, owed) => { work with state := state, queue := (work.queue ++ owed).tail }
    | .error _ => refused stateBytes work
  | _ =>
    match takeOn unit (takePage work unit answer) (work.lists.getD []) with
    | .ok (lists, taken) =>
      if taken.any (unchanged parseDay work unit) then finishUnit stateBytes work
      else { work with lists := some lists }
    | .error _ => refused stateBytes work

def answered (s : Night) (slice : Slice) (request : Request) (reply : Option SearchAnswer) (nowMs : ℤ) : Night :=
  let s : Night := { s with log := s.log ++ [⟨request, reply⟩] }
  match reply, s.work.queue with
  | some answer, unit :: _ =>
    if answer.status = 429 then throttle stateBytes s slice answer.retryAfter nowMs
    else { s with work := takeAnswer parseDay stateBytes s.work unit answer, phase := .running slice }
  | _, _ => { s with work := refused stateBytes s.work, phase := .running slice }

inductive NightEvent where
  /-- An alarm runs a slice. -/
  | slice (maxRequests : ℕ) (deadlineMs nowMs : ℤ)
  /-- The loop goes on, reading the clock twice. -/
  | turn (nowMs pastMs : ℤ)
  /-- A request is answered. -/
  | answer (reply : Option SearchAnswer) (nowMs : ℤ)

def step (s : Night) (event : NightEvent) : Option Night :=
  match event, s.phase with
  | .slice maxRequests deadlineMs nowMs, .rest =>
    if s.work.resumeAtMs.any (nowMs < ·) then some s
    else some { s with phase := .running { maxRequests := maxRequests, deadlineMs := deadlineMs, asked := 0 } }
  | .turn nowMs pastMs, .running slice => some (turn toLowerCase stateBytes s slice nowMs pastMs)
  | .answer reply nowMs, .waiting slice request => some (answered parseDay stateBytes s slice request reply nowMs)
  | _, _ => none

end

def Night.begun (work : NightWork) : Night := { work := work, phase := .rest, log := [] }

end IsLists
