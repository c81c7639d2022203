-- SUMMARY: Whole units over any night: what is applied is one uninterrupted reading, what is refused or cut short leaves the state, and the requests stay under the cap.
import Sylvan.Import.IsListNight

/-!
# Whole units

Whatever the remote answers and wherever the slices end, the lists in hand are what the
last replies gave: each list from its first page on, the lists of the unit one after
another. A unit is applied from such lists only, and only once all of them are read.
-/

namespace IsLists

open Throws

/-! ## Pages -/

/-- `Pages list log pages`: the log asked for the pages of a search one after another from the first, and was
given `pages`. -/
def Pages (list : ListProgress) (log : List Asked) (pages : List SearchPage) : Prop :=
  List.Forall₂ (fun entry page => entry.request = .search list.q list.unique page.2 list.newest ∧
    ∃ answer, entry.reply = some answer ∧ checkSearchPage list.q answer = .ok page.1) log (pages.zipIdx 1)

/-- The rows a unit keeps of the cards shown to it: of the artwork representatives, those released since `back`. -/
def kept (unit : NightUnit) (back : List Char) (cards : List ApiCard) : Except String (List Got) :=
  match unit with
  | .art =>
    (cards.filter fun card => !textBefore (card.releasedAt.getD []) back).mapM fun card => do
      let got ← pick .art card
      .ok { got with d := card.releasedAt }
  | _ => cards.mapM (pick unit)

theorem mapM_append_ok {α β : Type} {f : α → Except String β} {a b : List α} {c d : List β}
    (ha : a.mapM f = .ok c) (hb : b.mapM f = .ok d) : (a ++ b).mapM f = .ok (c ++ d) := by
  rw [List.mapM_append, ha, hb]
  rfl

variable {unit : NightUnit} {back : List Char}

theorem kept_append {a b : List ApiCard} {c d : List Got}
    (ha : kept unit back a = .ok c) (hb : kept unit back b = .ok d) : kept unit back (a ++ b) = .ok (c ++ d) := by
  cases unit with
  | art =>
    simp only [kept, List.filter_append] at ha hb ⊢
    exact mapM_append_ok ha hb
  | _ => exact mapM_append_ok ha hb

variable {log : List Asked} {answer : SearchAnswer}

theorem Pages.append {list : ListProgress} {pages : List SearchPage} (h : Pages list log pages)
    {entry : Asked} {page : SearchPage}
    (hrequest : entry.request = .search list.q list.unique (pages.length + 1) list.newest)
    (hreply : entry.reply = some answer) (hcheck : checkSearchPage list.q answer = .ok page) :
    Pages list (log ++ [entry]) (pages ++ [page]) := by
  have hlast : (pages ++ [page]).zipIdx 1 = pages.zipIdx 1 ++ [(page, pages.length + 1)] := by
    rw [List.zipIdx_append, Nat.add_comm]
    rfl
  rw [Pages, hlast]
  exact List.rel_append h (.cons ⟨hrequest, answer, hreply, hcheck⟩ .nil)

section

variable {pick : ApiCard → Except String Got} {list list' : ListProgress} {page : SearchPage}

theorem acceptPage_ok (h : acceptPage pick list page = .ok list') : ∃ picked,
    page.rows.mapM pick = .ok picked ∧ (∀ total ∈ list.total, total = page.total) ∧ list' = { list with
        total := some page.total, rows := list.rows ++ picked, page := list.page + 1, done := !page.hasMore } ∧
      (page.hasMore = false → (list.rows ++ picked).length = page.total) := by
  unfold acceptPage at h
  by_cases hdone : list.done = true
  · rw [if_pos hdone] at h
    cases h
  · rw [if_neg hdone] at h
    by_cases htotal : (list.total.any (· ≠ page.total)) = true
    · rw [if_pos htotal] at h
      cases h
    · rw [if_neg htotal] at h
      obtain ⟨picked, hpicked, h⟩ := ok_of_bind h
      refine ⟨picked, hpicked, by simpa [Option.any_eq_true] using htotal, ?_⟩
      cases hmore : page.hasMore with
      | true =>
        simp only [hmore, if_true] at h
        split at h
        · cases h
        · refine ⟨?_, by simp⟩
          simp only [Bool.not_eq_true] at hdone
          simpa [hdone] using (Except.ok.inj h).symm
      | false =>
        simp only [hmore, Bool.false_eq_true, if_false] at h
        split at h
        · cases h
        · rename_i hlen
          exact ⟨(Except.ok.inj h).symm, fun _ => by simpa using hlen⟩

def older (back : List Char) (card : ApiCard) : Bool := textBefore (card.releasedAt.getD []) back

theorem take_newest {q back : List Char} {read read' : Newest} {card : ApiCard}
    (h : Newest.take pick q back read card = .ok read') :
    (older back card = true ∧ read'.rows = read.rows ∧ read'.done = true) ∨
      (older back card = false ∧ read'.done = read.done ∧ ∃ got, pick card = .ok got ∧
        read'.rows = read.rows ++ [{ got with d := card.releasedAt }]) := by
  unfold Newest.take at h
  cases hday : card.releasedAt with
  | none =>
    rw [hday] at h
    cases h
  | some day =>
    simp only [hday] at h
    simp only [older, hday, Option.getD_some]
    split at h
    · cases h
    · split at h
      · cases h
      · split at h
        · rename_i hold
          obtain ⟨got, hgot, h⟩ := ok_of_bind h
          obtain rfl := Except.ok.inj h
          exact .inr ⟨by simpa using hold, rfl, got, hgot, rfl⟩
        · rename_i hold
          obtain rfl := Except.ok.inj h
          exact .inl ⟨by simpa using hold, rfl, rfl⟩

theorem foldlM_newest {q back : List Char} {cards : List ApiCard} {read read' : Newest}
    (h : cards.foldlM (Newest.take (IsLists.pick .art) q back) read = .ok read') :
    ∃ picked, kept .art back cards = .ok picked ∧ read'.rows = read.rows ++ picked ∧
      read'.done = (read.done || cards.any (older back)) := by
  induction cards generalizing read with
  | nil =>
    obtain rfl := Except.ok.inj h
    exact ⟨[], rfl, by simp, by simp⟩
  | cons card cards ih =>
    rw [List.foldlM_cons] at h
    obtain ⟨next, hnext, h⟩ := ok_of_bind h
    obtain ⟨picked, hpicked, hrows, hdone⟩ := ih h
    rcases take_newest hnext with ⟨hold, hsame, hended⟩ | ⟨hold, hended, got, hgot, hadded⟩
    · refine ⟨picked, ?_, by rw [hrows, hsame], by simp [hdone, hended, hold]⟩
      rw [kept, List.filter_cons_of_neg (by simpa [older] using hold)]
      exact hpicked
    · refine ⟨{ got with d := card.releasedAt } :: picked, ?_, by rw [hrows, hadded]; simp, by simp [hdone, hended, hold]⟩
      have hone : kept .art back [card] = .ok [{ got with d := card.releasedAt }] := by
        rw [kept, List.filter_cons_of_pos (by simpa [older] using hold), List.filter_nil, List.mapM_cons, hgot]
        rfl
      exact kept_append hone hpicked

/-- A page of a read that ends at a day: the rows since the day are added, and it ends at the first older one. -/
theorem acceptNewestPage_ok {maxPages : ℕ}
    (h : acceptNewestPage (IsLists.pick .art) list page back maxPages = .ok list') : ∃ picked,
    kept .art back page.rows = .ok picked ∧ (∀ total ∈ list.total, total = page.total) ∧ list' = { list with
        total := some page.total, rows := list.rows ++ picked, page := list.page + 1
        done := page.rows.any (older back) || !page.hasMore } := by
  unfold acceptNewestPage at h
  by_cases hdone : list.done = true
  · rw [if_pos hdone] at h
    cases h
  · rw [if_neg hdone] at h
    by_cases htotal : (list.total.any (· ≠ page.total)) = true
    · rw [if_pos htotal] at h
      cases h
    · rw [if_neg htotal] at h
      obtain ⟨read, hread, h⟩ := ok_of_bind h
      obtain ⟨picked, hpicked, hrows, hended⟩ := foldlM_newest hread
      refine ⟨picked, hpicked, by simpa [Option.any_eq_true] using htotal, ?_⟩
      simp only [Bool.false_or] at hended
      simp only [hrows, hended] at h
      cases hold : page.rows.any (older back) with
      | true =>
        simp only [hold, if_true] at h
        exact (Except.ok.inj h).symm
      | false =>
        simp only [hold, Bool.false_eq_true, if_false] at h
        cases hmore : page.hasMore with
        | false =>
          simp only [hmore, Bool.not_false, if_true] at h
          exact (Except.ok.inj h).symm
        | true =>
          simp only [hmore, Bool.not_true, Bool.false_eq_true, if_false] at h
          split at h
          · cases h
          · exact (Except.ok.inj h).symm

end

/-! ## Lists in hand -/

/-- What ends a read: all the rows the remote stated are there; or, of the artwork representatives, one older
than `back` was shown, or there are no more. -/
def Ended (unit : NightUnit) (back : List Char) (pages : List SearchPage) (rows : List Got) (total : ℕ) : Prop :=
  match unit with
  | .art => (pages.flatMap (·.rows)).any (older back) = true ∨ ∃ page ∈ pages.getLast?, page.hasMore = false
  | _ => rows.length = total

/-- One search read to its end without a break: its pages from the first on, all stating one size. -/
def Reading (unit : NightUnit) (back : List Char) (plan : ListProgress) (log : List Asked) (rows : List Got)
    (total : ℕ) : Prop :=
  ∃ pages, Pages plan log pages ∧ pages ≠ [] ∧ (∀ page ∈ pages, page.total = total) ∧
    kept unit back (pages.flatMap (·.rows)) = .ok rows ∧ Ended unit back pages rows total

/-- A list as far as the log's pages have read it. -/
structure ReadSoFar (unit : NightUnit) (back : List Char) (plan list : ListProgress) (log : List Asked) : Prop where
  q : list.q = plan.q
  unique : list.unique = plan.unique
  newest : list.newest = plan.newest
  read : ∃ pages, Pages plan log pages ∧ list.page = pages.length + 1 ∧
    (∀ page ∈ pages, list.total = some page.total) ∧ kept unit back (pages.flatMap (·.rows)) = .ok list.rows ∧
    (list.done = true → pages ≠ [] ∧ ∃ total, list.total = some total ∧ Ended unit back pages list.rows total)

/-- A list none of whose pages was asked for. -/
structure Fresh (plan : ListProgress) : Prop where
  page : plan.page = 1
  rows : plan.rows = []
  done : plan.done = false

theorem listsOf_fresh (unit : NightUnit) : ∀ plan ∈ listsOf unit, Fresh plan := by
  cases unit <;> simp [listsOf, newList] <;> grind [Fresh]

theorem kept_nil (unit : NightUnit) (back : List Char) : kept unit back [] = .ok [] := by
  cases unit <;> rfl

variable {plan : ListProgress}

theorem ReadSoFar.fresh (h : Fresh plan) : ReadSoFar unit back plan plan [] where
  q := rfl
  unique := rfl
  newest := rfl
  read := by
    refine ⟨[], .nil, h.page, by simp, ?_, ?_⟩
    · rw [h.rows]
      exact kept_nil unit back
    · rw [h.done]
      intro hdone
      cases hdone

theorem ReadSoFar.reading {plan list : ListProgress}
    (h : ReadSoFar unit back plan list log) (hdone : list.done = true) :
    ∃ total, list.total = some total ∧ Reading unit back plan log list.rows total := by
  obtain ⟨pages, hpages, -, htotal, hrows, hended⟩ := h.read
  obtain ⟨hne, total, hsize, hended⟩ := hended hdone
  refine ⟨total, hsize, pages, hpages, hne, fun page hpage => ?_, hrows, hended⟩
  have := htotal page hpage
  rw [hsize] at this
  exact (Option.some.inj this).symm

theorem takePage_ok {work : NightWork} {list list' : ListProgress}
    (h : takePage work unit answer list = .ok list') : ∃ page picked done,
    checkSearchPage list.q answer = .ok page ∧ kept unit (work.artFrom.getD []) page.rows = .ok picked ∧
      (∀ total ∈ list.total, total = page.total) ∧
      list' = { list with
        total := some page.total, rows := list.rows ++ picked, page := list.page + 1, done := done } ∧
      (done = true → ∀ pages, Ended unit (work.artFrom.getD []) (pages ++ [page]) (list.rows ++ picked) page.total) := by
  obtain ⟨page, hpage, h⟩ := ok_of_bind h
  cases unit with
  | art =>
    obtain ⟨picked, hpicked, htotal, rfl⟩ := acceptNewestPage_ok h
    refine ⟨page, picked, _, hpage, hpicked, htotal, rfl, fun hdone pages => ?_⟩
    rw [Bool.or_eq_true] at hdone
    rcases hdone with hold | hmore
    · left
      rw [List.flatMap_append, List.any_append]
      simp [hold]
    · right
      exact ⟨page, by simp, by simpa using hmore⟩
  | _ =>
    obtain ⟨picked, hpicked, htotal, rfl, hlength⟩ := acceptPage_ok h
    exact ⟨page, picked, _, hpage, hpicked, htotal, rfl, fun hdone _ => hlength (by simpa using hdone)⟩

theorem ReadSoFar.take {work : NightWork} {plan list list' : ListProgress}
    (h : ReadSoFar unit (work.artFrom.getD []) plan list log)
    (htake : takePage work unit answer list = .ok list') :
    ReadSoFar unit (work.artFrom.getD []) plan list' (log ++ [⟨list.request, some answer⟩]) := by
  obtain ⟨page, picked, done, hcheck, hpicked, htotal, rfl, hended⟩ := takePage_ok htake
  obtain ⟨pages, hpages, hpage, hsize, hrows, -⟩ := h.read
  refine ⟨h.q, h.unique, h.newest, pages ++ [page], ?_, by simp [hpage], ?_, ?_, ?_⟩
  · refine hpages.append ?_ rfl (h.q ▸ hcheck)
    simp only [ListProgress.request, h.q, h.unique, h.newest, hpage]
  · -- The size stated before is this page's.
    intro p hp
    rcases List.mem_append.mp hp with hp | hp
    · rw [htotal p.total (by simp [hsize p hp])]
    · rw [List.mem_singleton.mp hp]
  · rw [List.flatMap_append]
    exact kept_append hrows (by simpa using hpicked)
  · intro hdone
    exact ⟨by simp, page.total, rfl, hended hdone pages⟩

/-- The lists of a unit as a log leaves them: read in turn, those after the first unfinished one not begun. -/
inductive InTurn (unit : NightUnit) (back : List Char) : List ListProgress → List ListProgress → List Asked → Prop
  | nil : InTurn unit back [] [] []
  | read {plan list : ListProgress} {plans lists : List ListProgress} {log later : List Asked} :
      ReadSoFar unit back plan list log → list.done = true → InTurn unit back plans lists later →
      InTurn unit back (plan :: plans) (list :: lists) (log ++ later)
  | reading {plan list : ListProgress} {plans : List ListProgress} {log : List Asked} :
      ReadSoFar unit back plan list log → list.done = false →
      InTurn unit back (plan :: plans) (list :: plans) log

theorem InTurn.fresh {plans : List ListProgress} (h : ∀ plan ∈ plans, Fresh plan) : InTurn unit back plans plans [] := by
  cases plans with
  | nil => exact .nil
  | cons plan plans =>
    have hplan := h plan (by simp)
    exact .reading (.fresh hplan) hplan.done

theorem pending_eq (hunit : unit.isSizes = false) (list : ListProgress) : pending unit list = !list.done := by
  simp [pending, hunit]

theorem InTurn.take {work : NightWork} {plans lists lists' : List ListProgress}
    {list : ListProgress} {taken : Option ListProgress} (hunit : unit.isSizes = false)
    (hfresh : ∀ plan ∈ plans, Fresh plan) (h : InTurn unit (work.artFrom.getD []) plans lists log)
    (hnext : lists.find? (pending unit) = some list)
    (htake : takeOn unit (takePage work unit answer) lists = .ok (lists', taken)) :
    InTurn unit (work.artFrom.getD []) plans lists' (log ++ [⟨list.request, some answer⟩]) := by
  induction h generalizing lists' taken with
  | nil => cases hnext
  | @read plan first plans lists log later hread hdone hlater ih =>
    have hpending : pending unit first = false := by rw [pending_eq hunit, hdone]; rfl
    rw [List.find?_cons_of_neg (by simp [hpending])] at hnext
    rw [takeOn, if_neg (by simp [hpending])] at htake
    obtain ⟨⟨rest, last⟩, hrest, htake⟩ := ok_of_bind htake
    obtain ⟨rfl, -⟩ := Prod.mk.inj (Except.ok.inj htake)
    rw [List.append_assoc]
    exact .read hread hdone (ih (fun plan hplan => hfresh plan (by simp [hplan])) hnext hrest)
  | @reading plan first plans log hread hdone =>
    have hpending : pending unit first = true := by rw [pending_eq hunit, hdone]; rfl
    rw [List.find?_cons_of_pos hpending] at hnext
    obtain rfl := Option.some.inj hnext
    rw [takeOn, if_pos hpending] at htake
    obtain ⟨next, hnext, htake⟩ := ok_of_bind htake
    obtain ⟨rfl, -⟩ := Prod.mk.inj (Except.ok.inj htake)
    have hread' := hread.take hnext
    cases hended : next.done with
    | false => exact .reading hread' hended
    | true =>
      have hrest : InTurn unit (work.artFrom.getD []) plans plans [] :=
        .fresh fun plan hplan => hfresh plan (List.mem_cons_of_mem _ hplan)
      have hall := InTurn.read hread' hended hrest
      rwa [List.append_nil] at hall

theorem InTurn.uncons {plans lists : List ListProgress}
    (hunit : unit.isSizes = false) (h : InTurn unit back (plan :: plans) lists log)
    (hnone : lists.find? (pending unit) = none) :
    ∃ list rest first later total, lists = list :: rest ∧ log = first ++ later ∧
      Reading unit back plan first list.rows total ∧ InTurn unit back plans rest later ∧
      rest.find? (pending unit) = none := by
  cases h with
  | @read _ list _ rest first later hread hdone hlater =>
    obtain ⟨total, -, hreading⟩ := hread.reading hdone
    refine ⟨list, rest, first, later, total, rfl, rfl, hreading, hlater, ?_⟩
    rw [List.find?_eq_none] at hnone ⊢
    exact fun l hl => hnone l (by simp [hl])
  | reading _ hdone =>
    rw [List.find?_cons_of_pos (by rw [pending_eq hunit, hdone]; rfl)] at hnone
    cases hnone

theorem InTurn.of_nil {lists : List ListProgress}
    (h : InTurn unit back [] lists log) : lists = [] ∧ log = [] := by
  cases h
  exact ⟨rfl, rfl⟩

theorem InTurn.only {lists : List ListProgress}
    (hunit : unit.isSizes = false) (h : InTurn unit back [plan] lists log)
    (hnone : lists.find? (pending unit) = none) :
    ∃ list total, lists = [list] ∧ Reading unit back plan log list.rows total := by
  obtain ⟨list, rest, first, later, total, rfl, rfl, hreading, hlater, -⟩ := h.uncons hunit hnone
  obtain ⟨rfl, rfl⟩ := hlater.of_nil
  rw [List.append_nil]
  exact ⟨list, total, rfl, hreading⟩

/-! ## Units applied -/

inductive VerdictKey where
  | list (tag : SmallList)
  | foreign
  | art
  | set (code : List Char)
deriving DecidableEq, Repr

def IsListsState.held (state : IsListsState) : VerdictKey → Option (List (List Char))
  | .list tag => (state.lists.get tag).map (·.lines)
  | .foreign => state.foreign.map (·.lines)
  | .art => state.art.map (·.lines)
  | .set code => (state.sets.get code).bind (·.lines)

/-- `Applied base back key log lines`: the log is one reading of the unit behind `key`, whole, and `lines` are the
lines of its rows. Rows are distinct, and as many as the remote stated while they were read; the artwork
representatives are those of the record's newest end, back to a day. -/
inductive Applied (base : CompiledBase) (back : List Char) : VerdictKey → List Asked → List (List Char) → Prop
  | list {tag : SmallList} {log : List Asked} {rows : List Got} :
      Reading (.list tag) back (newList (listQuery tag).1 (listQuery tag).2) log rows rows.length →
      (rows.map keyOf).Nodup → rows ≠ [] →
      Applied base back (.list tag) log (listLines base.keep tag rows)
  | foreign {log : List Asked} {rows : List Got} :
      Reading .foreign back (newList "-is:covered -lang:en".toList) log rows rows.length →
      (rows.map keyOf).Nodup →
      Applied base back .foreign log (foreignLines rows)
  | art {log : List Asked} {rows : List Got} {total : ℕ} :
      Reading .art back { newList ART_REPS_QUERY .art with newest := true } log rows total →
      (rows.map keyOf).Nodup → rows ≠ [] →
      Applied base back .art log (artLines rows)
  | set {code : List Char} {count : ℕ} {fresh : Bool} {log₁ log₂ log₃ : List Asked}
      {covered uncovered related : List Got} :
      Reading (.set code count fresh) back (newList ("e:".toList ++ code ++ " is:covered".toList)) log₁ covered
        covered.length →
      Reading (.set code count fresh) back (newList ("e:".toList ++ code ++ " -is:covered".toList)) log₂ uncovered
        uncovered.length →
      Reading (.set code count fresh) back (newList ("e:".toList ++ code ++ " is:related".toList)) log₃ related
        related.length →
      ((covered ++ uncovered).map keyOf).Nodup → (related.map keyOf).Nodup →
      (∀ g ∈ related, keyOf g ∈ (covered ++ uncovered).map keyOf) →
      Applied base back (.set code) (log₁ ++ log₂ ++ log₃) (setLines code covered uncovered related)

theorem refuseRepeats_ok {list : ListProgress} {u : Unit} (h : refuseRepeats list = .ok u) :
    (list.rows.map keyOf).Nodup := by
  unfold refuseRepeats at h
  split at h
  · assumption
  · cases h

theorem mapM_checkLine {lines checked : List (List Char)} (h : lines.mapM checkLine = .ok checked) : checked = lines := by
  have hline : ∀ line line', checkLine line = .ok line' → line = line' := by
    intro line line' h
    unfold checkLine at h
    split at h
    · cases h
    · exact Except.ok.inj h
  have hall := (forall₂_of_mapM h).imp hline
  rw [List.forall₂_eq_eq_eq] at hall
  exact hall.symm

section

variable {work : NightWork} {state : IsListsState} {log : List Asked} {list : ListProgress}

theorem applyList_ok {tag : SmallList} (h : applyList work tag list = .ok state) :
    (list.rows.map keyOf).Nodup ∧ list.rows ≠ [] ∧ ∃ read : ListState, read.lines = listLines work.base.keep tag list.rows ∧
        state = { work.state with lists := work.state.lists.set tag read } := by
  unfold applyList at h
  split at h
  · cases h
  · rename_i hne
    obtain ⟨u, hrepeats, h⟩ := ok_of_bind h
    obtain ⟨lines, hlines, h⟩ := ok_of_bind h
    obtain rfl := mapM_checkLine hlines
    exact ⟨refuseRepeats_ok hrepeats, by simpa using hne, _, rfl, (Except.ok.inj h).symm⟩

theorem applyForeign_ok (h : applyForeign work list = .ok state) :
    (list.rows.map keyOf).Nodup ∧ ∃ read : ListState, read.lines = foreignLines list.rows ∧
      state = { work.state with foreign := some read } := by
  obtain ⟨u, hrepeats, h⟩ := ok_of_bind h
  split at h
  · cases h
  · obtain ⟨lines, hlines, h⟩ := ok_of_bind h
    obtain rfl := mapM_checkLine hlines
    exact ⟨refuseRepeats_ok hrepeats, _, rfl, (Except.ok.inj h).symm⟩

theorem applyArt_ok (h : applyArt work list = .ok state) :
    (list.rows.map keyOf).Nodup ∧ list.rows ≠ [] ∧ ∃ read : ArtRepsState,
      read.lines = artLines list.rows ∧ state = { work.state with art := some read } := by
  unfold applyArt at h
  split at h
  · cases h
  · rename_i hne
    obtain ⟨u, hrepeats, h⟩ := ok_of_bind h
    obtain ⟨lines, hlines, h⟩ := ok_of_bind h
    obtain rfl := mapM_checkLine hlines
    exact ⟨refuseRepeats_ok hrepeats, by simpa using hne, _, rfl, (Except.ok.inj h).symm⟩

variable {toLowerCase : List Char → List Char}

theorem checkSetList_ok {code : List Char} {u : Unit} (h : checkSetList toLowerCase code list = .ok u) :
    (list.rows.map keyOf).Nodup := by
  obtain ⟨u, hrepeats, -⟩ := ok_of_bind h
  exact refuseRepeats_ok hrepeats

theorem applySet_ok {code : List Char} {count : ℕ} {covered uncovered related : ListProgress}
    (h : applySet toLowerCase work code count covered uncovered related = .ok state) :
    ((covered.rows ++ uncovered.rows).map keyOf).Nodup ∧ (related.rows.map keyOf).Nodup ∧
      (∀ g ∈ related.rows, keyOf g ∈ (covered.rows ++ uncovered.rows).map keyOf) ∧ ∃ read : SetState,
        read.lines = some (setLines code covered.rows uncovered.rows related.rows) ∧
        state = { work.state with sets := work.state.sets.set code read } := by
  obtain ⟨u₁, hcovered, h⟩ := ok_of_bind h
  obtain ⟨u₂, huncovered, h⟩ := ok_of_bind h
  obtain ⟨u₃, hrelated, h⟩ := ok_of_bind h
  split at h
  · cases h
  · rename_i hapart
    split at h
    · cases h
    · rename_i hsub
      obtain ⟨lines, hlines, h⟩ := ok_of_bind h
      obtain rfl := mapM_checkLine hlines
      simp only [List.any_eq_true, decide_eq_true_eq, not_exists, not_and] at hapart hsub
      refine ⟨?_, checkSetList_ok hrelated, fun g hg => not_not.mp (hsub g hg), _, ?_, (Except.ok.inj h).symm⟩
      · rw [List.map_append]
        refine (checkSetList_ok hcovered).append (checkSetList_ok huncovered) ?_
        intro key hleft hright
        obtain ⟨g, hg, rfl⟩ := List.mem_map.mp hright
        exact hapart g hg hleft
      · rfl

/-! ### What each unit writes -/

theorem held_lists (state : IsListsState) (tag : SmallList) (read : ListState) (key : VerdictKey) :
    IsListsState.held { state with lists := state.lists.set tag read } key =
      if key = .list tag then some read.lines else state.held key := by
  cases key with
  | list other =>
    simp only [IsListsState.held, JsMap.get_set, VerdictKey.list.injEq, @eq_comm _ other]
    split <;> rfl
  | _ => rfl

theorem held_foreign (state : IsListsState) (read : ListState) (key : VerdictKey) :
    IsListsState.held { state with foreign := some read } key =
      if key = .foreign then some read.lines else state.held key := by
  cases key <;> rfl

theorem held_art (state : IsListsState) (read : ArtRepsState) (key : VerdictKey) :
    IsListsState.held { state with art := some read } key = if key = .art then some read.lines else state.held key := by
  cases key <;> rfl

theorem held_sets (state : IsListsState) (code : List Char) (read : SetState) (key : VerdictKey) :
    IsListsState.held { state with sets := state.sets.set code read } key =
      if key = .set code then read.lines else state.held key := by
  cases key with
  | set other =>
    simp only [IsListsState.held, JsMap.get_set, VerdictKey.set.injEq, @eq_comm _ other]
    split <;> rfl
  | _ => rfl

theorem Reading.counted
    {rows : List Got} {total : ℕ} (hunit : unit ≠ .art) (h : Reading unit back plan log rows total) :
    Reading unit back plan log rows rows.length := by
  have htotal : rows.length = total := by
    obtain ⟨pages, -, -, -, -, hended⟩ := h
    cases unit with
    | art => exact absurd rfl hunit
    | _ => exact hended
  rwa [htotal]

/-- A unit whose lists are all read, applied: its own verdicts become those of the reading, no other's change. -/
theorem applyUnit_ok {lists : List ListProgress}
    (hturn : unit.isSizes = false → InTurn unit (work.artFrom.getD []) (listsOf unit) lists log)
    (hnone : nextRequest unit lists = none) (h : applyUnit toLowerCase work unit lists = .ok state) (key : VerdictKey) :
    state.held key = work.state.held key ∨
      ∃ lines, state.held key = some lines ∧ Applied work.base (work.artFrom.getD []) key log lines := by
  have hwrites : ∀ {unitKey lines}, (Applied work.base (work.artFrom.getD []) unitKey log lines) →
      state.held key = (if key = unitKey then some lines else work.state.held key) →
      state.held key = work.state.held key ∨
        ∃ lines, state.held key = some lines ∧ Applied work.base (work.artFrom.getD []) key log lines := by
    intro unitKey lines happlied hheld
    by_cases hkey : key = unitKey
    · subst hkey
      rw [if_pos rfl] at hheld
      exact .inr ⟨lines, hheld, happlied⟩
    · rw [if_neg hkey] at hheld
      exact .inl hheld
  cases unit with
  | sizes =>
    obtain rfl := Except.ok.inj h
    exact .inl rfl
  | sets => cases hnone
  | list tag =>
    simp only [nextRequest, Option.map_eq_none_iff] at hnone
    obtain ⟨list, total, rfl, hreading⟩ := (hturn rfl).only rfl hnone
    obtain ⟨hdistinct, hne, read, hlines, rfl⟩ := applyList_ok h
    refine hwrites (.list (hreading.counted (by simp)) hdistinct hne) ?_
    rw [held_lists, hlines]
  | foreign =>
    simp only [nextRequest, Option.map_eq_none_iff] at hnone
    obtain ⟨list, total, rfl, hreading⟩ := (hturn rfl).only rfl hnone
    obtain ⟨hdistinct, read, hlines, rfl⟩ := applyForeign_ok h
    refine hwrites (.foreign (hreading.counted (by simp)) hdistinct) ?_
    rw [held_foreign, hlines]
  | art =>
    simp only [nextRequest, Option.map_eq_none_iff] at hnone
    obtain ⟨list, total, rfl, hreading⟩ := (hturn rfl).only rfl hnone
    obtain ⟨hdistinct, hne, read, hlines, rfl⟩ := applyArt_ok h
    refine hwrites (.art hreading hdistinct hne) ?_
    rw [held_art, hlines]
  | set code count fresh =>
    simp only [nextRequest, Option.map_eq_none_iff] at hnone
    obtain ⟨covered, rest, log₁, later, total, rfl, rfl, hcovered, hlater, hnone⟩ := (hturn rfl).uncons rfl hnone
    obtain ⟨uncovered, rest, log₂, later, total, rfl, rfl, huncovered, hlater, hnone⟩ := hlater.uncons rfl hnone
    obtain ⟨related, total, rfl, hrelated⟩ := hlater.only rfl hnone
    obtain ⟨hapart, hdistinct, hsub, read, hlines, rfl⟩ := applySet_ok h
    have happlied : Applied work.base (work.artFrom.getD []) (.set code) (log₁ ++ log₂ ++ later) _ :=
      .set (hcovered.counted (by simp)) (huncovered.counted (by simp)) (hrelated.counted (by simp)) hapart hdistinct
        hsub
    rw [List.append_assoc] at happlied
    refine hwrites happlied ?_
    rw [held_sets, hlines]

/-! ### What /sets writes -/

theorem held_takeSet {parseDay : List Char → Option ℤ} {first : Bool}
    {acc : JsMap (List Char) SetState × List (NightUnit × NamedSet)} (s : NamedSet) (key : VerdictKey) :
    IsListsState.held { state with sets := (takeSet parseDay work.base first acc s).1 } key =
      IsListsState.held { state with sets := acc.1 } key := by
  cases key with
  | set code =>
    simp only [IsListsState.held, takeSet]
    split
    · rfl
    · split
      · rw [JsMap.get_set]
        split
        · rename_i hcode
          subst hcode
          cases acc.1.get s.code <;> rfl
        · rfl
      · dsimp only
        split
        · rename_i hnone
          rw [JsMap.get_set]
          split
          · rename_i hcode
            subst hcode
            rw [Option.isNone_iff_eq_none.mp hnone]
            rfl
          · rfl
        · rfl
  | _ => rfl

theorem applySets_ok {parseDay : List Char → Option ℤ} {owed : List NightUnit}
    (h : applySets parseDay work answer = .ok (state, owed)) (key : VerdictKey) :
    state.held key = work.state.held key := by
  unfold applySets at h
  split at h
  · cases h
  · split at h
    · cases h
    · split at h
      · cases h
      · split at h
        · cases h
        · obtain ⟨named, -, h⟩ := ok_of_bind h
          split at h
          · cases h
          · obtain ⟨rfl, -⟩ := Prod.mk.inj (Except.ok.inj h)
            have hfold : ∀ (sets : List NamedSet) first acc,
                IsListsState.held { work.state with sets := (sets.foldl (takeSet parseDay work.base first) acc).1 } key =
                  IsListsState.held { work.state with sets := acc.1 } key := by
              intro sets first acc
              induction sets generalizing acc with
              | nil => rfl
              | cons s sets ih => rw [List.foldl_cons, ih, held_takeSet]
            exact hfold named _ _

end

/-! ## The loop -/

section

variable {parseDay : List Char → Option ℤ} {toLowerCase : List Char → List Char} {stateBytes : IsListsState → ℕ}
  {work : NightWork} {s s' : Night} {slice : Slice}

/-- The head unit given up on: dropped with its lists, and nothing of it in the state. -/
structure Dropped (work work' : NightWork) : Prop where
  base : work'.base = work.base
  artFrom : work'.artFrom = work.artFrom
  state : work'.state = work.state
  requests : work'.requests = work.requests
  lists : work'.lists = none

theorem finishUnit_dropped : Dropped work (finishUnit stateBytes work) := by
  unfold finishUnit
  dsimp only
  split <;> exact ⟨rfl, rfl, rfl, rfl, rfl⟩

theorem stop_dropped {why : String} : Dropped work (stop stateBytes work why) := by
  unfold stop
  exact ⟨finishUnit_dropped.base, finishUnit_dropped.artFrom, finishUnit_dropped.state, finishUnit_dropped.requests,
    finishUnit_dropped.lists⟩

theorem refused_dropped : Dropped work (refused stateBytes work) := by
  unfold refused
  dsimp only
  split
  · exact ⟨finishUnit_dropped.base, finishUnit_dropped.artFrom, finishUnit_dropped.state, finishUnit_dropped.requests,
      finishUnit_dropped.lists⟩
  · exact ⟨finishUnit_dropped.base, finishUnit_dropped.artFrom, finishUnit_dropped.state, finishUnit_dropped.requests,
      finishUnit_dropped.lists⟩

theorem ask_cases (s : Night) (slice : Slice) (request : Request) (nowMs pastMs : ℤ) :
    (∃ why, ask stateBytes s slice request nowMs pastMs =
        { s with work := stop stateBytes s.work why, phase := .running slice }) ∨
      ask stateBytes s slice request nowMs pastMs = { s with phase := .rest } ∨
      (s.work.requests < IS_LISTS_NIGHT_REQUESTS ∧ ∃ slice', ask stateBytes s slice request nowMs pastMs =
        { s with work := { s.work with requests := s.work.requests + 1 }, phase := .waiting slice' request }) := by
  unfold ask
  split
  · exact .inl ⟨_, rfl⟩
  · split
    · exact .inl ⟨_, rfl⟩
    · rename_i hcap
      split
      · exact .inr (.inl rfl)
      · exact .inr (.inr ⟨by omega, _, rfl⟩)

/-- The work with the head unit's lists in hand; `/sets` has none. -/
def workOn (work : NightWork) (unit : NightUnit) : NightWork :=
  match unit with
  | .sets => work
  | _ => { work with lists := some (work.lists.getD (listsOf unit)) }

theorem turn_cases (s : Night) (slice : Slice) (nowMs pastMs : ℤ) :
    turn toLowerCase stateBytes s slice nowMs pastMs = { s with phase := .over } ∨
      ∃ unit queue, s.work.queue = unit :: queue ∧ ((s.work.lists = none ∧
            turn toLowerCase stateBytes s slice nowMs pastMs = { s with work := { s.work with queue := queue } }) ∨
          (∃ request, nextRequest unit (s.work.lists.getD (listsOf unit)) = some request ∧
            turn toLowerCase stateBytes s slice nowMs pastMs =
              ask stateBytes { s with work := workOn s.work unit } slice request nowMs pastMs) ∨
          (nextRequest unit (s.work.lists.getD (listsOf unit)) = none ∧
            ((∃ state, applyUnit toLowerCase s.work unit (s.work.lists.getD (listsOf unit)) = .ok state ∧
                turn toLowerCase stateBytes s slice nowMs pastMs =
                  { s with work := finishUnit stateBytes { s.work with state := state } }) ∨
              turn toLowerCase stateBytes s slice nowMs pastMs = { s with work := refused stateBytes s.work }))) := by
  unfold turn
  cases hqueue : s.work.queue with
  | nil => exact .inl rfl
  | cons unit queue =>
    dsimp only
    split
    · exact .inl rfl
    · refine .inr ⟨unit, queue, rfl, ?_⟩
      split
      · rename_i hoff
        rw [Bool.and_eq_true, Option.isNone_iff_eq_none] at hoff
        exact .inl ⟨hoff.1, rfl⟩
      · right
        cases hnext : nextRequest unit (s.work.lists.getD (listsOf unit)) with
        | some request => exact .inl ⟨request, rfl, by cases unit <;> rfl⟩
        | none =>
          refine .inr ⟨rfl, ?_⟩
          cases happly : applyUnit toLowerCase s.work unit (s.work.lists.getD (listsOf unit)) with
          | ok state => exact .inl ⟨state, rfl, rfl⟩
          | error e => exact .inr rfl

theorem throttle_cases (s : Night) (slice : Slice) (retryAfter : Option ℚ) (nowMs : ℤ) :
    (throttle stateBytes s slice retryAfter nowMs).log = s.log ∧
      Dropped s.work (throttle stateBytes s slice retryAfter nowMs).work ∧
      ((throttle stateBytes s slice retryAfter nowMs).phase = .running slice ∨
        (throttle stateBytes s slice retryAfter nowMs).phase = .rest) := by
  unfold throttle
  dsimp only
  split
  · exact ⟨rfl, stop_dropped, .inl rfl⟩
  · exact ⟨rfl, ⟨rfl, rfl, rfl, rfl, rfl⟩, .inr rfl⟩

theorem takeAnswer_cases (work : NightWork) (unit : NightUnit) (answer : SearchAnswer) :
    Dropped work (takeAnswer parseDay stateBytes work unit answer) ∨
      (unit = .sets ∧ ∃ state owed, applySets parseDay work answer = .ok (state, owed) ∧
        takeAnswer parseDay stateBytes work unit answer =
          { work with state := state, queue := (work.queue ++ owed).tail }) ∨
      (unit ≠ .sets ∧ ∃ lists taken, takeOn unit (takePage work unit answer) (work.lists.getD []) = .ok (lists, taken) ∧
        takeAnswer parseDay stateBytes work unit answer = { work with lists := some lists }) := by
  unfold takeAnswer
  split
  · cases hsets : applySets parseDay work answer with
    | ok result => exact .inr (.inl ⟨rfl, _, _, rfl, rfl⟩)
    | error e => exact .inl refused_dropped
  · rename_i hunit
    cases htake : takeOn unit (takePage work unit answer) (work.lists.getD []) with
    | ok result =>
      dsimp only
      split
      · exact .inl finishUnit_dropped
      · exact .inr (.inr ⟨hunit, _, _, rfl, rfl⟩)
    | error e => exact .inl refused_dropped

theorem answered_cases (s : Night) (slice : Slice) (request : Request) (reply : Option SearchAnswer) (nowMs : ℤ) :
    (answered parseDay stateBytes s slice request reply nowMs).log = s.log ++ [⟨request, reply⟩] ∧
      ((Dropped s.work (answered parseDay stateBytes s slice request reply nowMs).work ∧
          ((answered parseDay stateBytes s slice request reply nowMs).phase = .running slice ∨
            (answered parseDay stateBytes s slice request reply nowMs).phase = .rest)) ∨
        ∃ unit queue answer, s.work.queue = unit :: queue ∧ reply = some answer ∧
          (answered parseDay stateBytes s slice request reply nowMs).phase = .running slice ∧
          (answered parseDay stateBytes s slice request reply nowMs).work =
            takeAnswer parseDay stateBytes s.work unit answer) := by
  unfold answered
  dsimp only
  split
  · rename_i answer unit queue hqueue
    split
    · obtain ⟨hlog, hdropped, hphase⟩ := @throttle_cases stateBytes
        { s with log := s.log ++ [⟨request, some answer⟩] } slice answer.retryAfter nowMs
      exact ⟨hlog, .inl ⟨⟨hdropped.base, hdropped.artFrom, hdropped.state, hdropped.requests, hdropped.lists⟩, hphase⟩⟩
    · exact ⟨rfl, .inr ⟨unit, queue, answer, hqueue, rfl, rfl, rfl⟩⟩
  · exact ⟨rfl, .inl ⟨refused_dropped, .inl rfl⟩⟩

/-! ## Invariants -/

def Phase.outstanding : Phase → ℕ
  | .waiting .. => 1
  | _ => 0

/-- The lists in hand are what the last replies gave, and what is asked for is what they need next. -/
structure Sound (start : NightWork) (s : Night) : Prop where
  base : s.work.base = start.base
  artFrom : s.work.artFrom = start.artFrom
  asked : s.log.length + s.phase.outstanding = s.work.requests
  cap : s.work.requests ≤ IS_LISTS_NIGHT_REQUESTS
  inHand : ∀ lists, s.work.lists = some lists → ∃ unit queue, s.work.queue = unit :: queue ∧ unit ≠ .sets ∧
    (unit.isSizes = false → ∃ before log, s.log = before ++ log ∧
      InTurn unit (s.work.artFrom.getD []) (listsOf unit) lists log)
  waiting : ∀ slice request, s.phase = .waiting slice request → ∃ unit queue, s.work.queue = unit :: queue ∧
    (unit ≠ .sets → ∃ lists list, s.work.lists = some lists ∧ lists.find? (pending unit) = some list ∧
      request = list.request)

variable {start : NightWork}

theorem Sound.begun (hlists : start.lists = none) (hrequests : start.requests = 0) : Sound start (.begun start) where
  base := rfl
  artFrom := rfl
  asked := hrequests.symm
  cap := by
    change start.requests ≤ _
    rw [hrequests]
    exact Nat.zero_le _
  inHand := by
    intro lists h
    change start.lists = some lists at h
    rw [hlists] at h
    cases h
  waiting := by
    intro slice request h
    cases h

theorem Sound.dropped {work' : NightWork} {phase : Phase} (h : Sound start s)
    (hdropped : Dropped s.work work') (hphase : ∀ slice request, phase ≠ .waiting slice request)
    (hasked : log.length = s.work.requests) : Sound start { work := work', phase := phase, log := log } where
  base := hdropped.base.trans h.base
  artFrom := hdropped.artFrom.trans h.artFrom
  asked := by
    have hnone : phase.outstanding = 0 := by
      cases phase with
      | waiting slice request => exact absurd rfl (hphase slice request)
      | _ => rfl
    rw [hdropped.requests, hnone, Nat.add_zero, hasked]
  cap := hdropped.requests ▸ h.cap
  inHand := by
    intro lists hlists
    change work'.lists = some lists at hlists
    rw [hdropped.lists] at hlists
    cases hlists
  waiting := fun slice request hwaiting => absurd hwaiting (hphase slice request)

theorem workOn_frame (work : NightWork) (unit : NightUnit) :
    (workOn work unit).base = work.base ∧ (workOn work unit).artFrom = work.artFrom ∧
      (workOn work unit).state = work.state ∧ (workOn work unit).requests = work.requests ∧
      (workOn work unit).queue = work.queue ∧ (workOn work unit).refusals = work.refusals ∧
      (workOn work unit).throttles = work.throttles ∧
      (unit ≠ .sets → (workOn work unit).lists = some (work.lists.getD (listsOf unit))) := by
  cases unit with
  | sets => exact ⟨rfl, rfl, rfl, rfl, rfl, rfl, rfl, fun h => absurd rfl h⟩
  | _ => exact ⟨rfl, rfl, rfl, rfl, rfl, rfl, rfl, fun _ => rfl⟩

theorem Sound.inTurn {queue : List NightUnit} (h : Sound start s)
    (hqueue : s.work.queue = unit :: queue) (hsizes : unit.isSizes = false) :
    ∃ before log, s.log = before ++ log ∧
      InTurn unit (s.work.artFrom.getD []) (listsOf unit) (s.work.lists.getD (listsOf unit)) log := by
  cases hlists : s.work.lists with
  | none => exact ⟨s.log, [], by simp, .fresh (listsOf_fresh unit)⟩
  | some lists =>
    obtain ⟨unit', queue', hqueue', -, hturn⟩ := h.inHand lists hlists
    rw [hqueue] at hqueue'
    obtain ⟨rfl, rfl⟩ := List.cons.inj hqueue'
    exact hturn hsizes

theorem Sound.begin {queue : List NightUnit} (h : Sound start s)
    (hqueue : s.work.queue = unit :: queue) (hphase : ∀ slice request, s.phase ≠ .waiting slice request) :
    Sound start { s with work := workOn s.work unit } := by
  obtain ⟨hbase, hart, -, hrequests, hsame, -, -, hlists⟩ := workOn_frame s.work unit
  refine ⟨hbase.trans h.base, hart.trans h.artFrom, h.asked.trans hrequests.symm, hrequests ▸ h.cap, ?_,
    fun slice request hwaiting => absurd hwaiting (hphase slice request)⟩
  intro lists hin
  change (workOn s.work unit).lists = some lists at hin
  have hunit : unit ≠ .sets := by
    -- `/sets` leaves the lists as they stand, and its unit never has any.
    rintro rfl
    obtain ⟨unit', queue', hqueue', hne, -⟩ := h.inHand lists hin
    rw [hqueue] at hqueue'
    exact hne (List.cons.inj hqueue').1.symm
  rw [hlists hunit] at hin
  obtain rfl := Option.some.inj hin
  refine ⟨unit, queue, hsame.trans hqueue, hunit, fun hsizes => ?_⟩
  change ∃ before log, s.log = before ++ log ∧ InTurn unit ((workOn s.work unit).artFrom.getD []) _ _ log
  rw [hart]
  exact h.inTurn hqueue hsizes

theorem Sound.rest (h : Sound start s) (hphase : ∀ slice request, s.phase ≠ .waiting slice request) {phase : Phase}
    (hnext : ∀ slice request, phase ≠ .waiting slice request) : Sound start { s with phase := phase } where
  base := h.base
  artFrom := h.artFrom
  asked := by
    have hnone : ∀ phase : Phase, (∀ slice request, phase ≠ .waiting slice request) → phase.outstanding = 0 := by
      intro phase hphase
      cases phase with
      | waiting slice request => exact absurd rfl (hphase slice request)
      | _ => rfl
    have := h.asked
    rw [hnone s.phase hphase] at this
    change s.log.length + phase.outstanding = _
    rw [hnone phase hnext]
    exact this
  cap := h.cap
  inHand := h.inHand
  waiting := fun slice request hwaiting => absurd hwaiting (hnext slice request)

theorem Sound.ask {queue : List NightUnit} {request : Request} (h : Sound start s)
    (hphase : s.phase = .running slice) (hqueue : s.work.queue = unit :: queue)
    (hnext : nextRequest unit (s.work.lists.getD (listsOf unit)) = some request) (nowMs pastMs : ℤ) :
    Sound start (IsLists.ask stateBytes { s with work := workOn s.work unit } slice request nowMs pastMs) := by
  have hnot : ∀ slice request, s.phase ≠ .waiting slice request := by simp [hphase]
  have hbegun := h.begin hqueue hnot
  rcases @ask_cases stateBytes { s with work := workOn s.work unit } slice request nowMs pastMs with
    ⟨why, hask⟩ | hask | ⟨hcap, slice', hask⟩
  · rw [hask]
    refine hbegun.dropped stop_dropped (by simp) ?_
    have := hbegun.asked
    simpa [hphase, Phase.outstanding] using this
  · rw [hask]
    exact hbegun.rest hnot (by simp)
  · rw [hask]
    have hasked := hbegun.asked
    simp only [hphase, Phase.outstanding, Nat.add_zero] at hasked
    refine ⟨hbegun.base, hbegun.artFrom, by simp [Phase.outstanding, hasked], hcap, hbegun.inHand, ?_⟩
    intro slice₁ request₁ hwaiting
    obtain ⟨-, rfl⟩ := Phase.waiting.inj hwaiting
    obtain ⟨-, -, -, -, hsame, -, -, hlists⟩ := workOn_frame s.work unit
    refine ⟨unit, queue, hsame.trans hqueue, fun hunit => ?_⟩
    have hfind : ((s.work.lists.getD (listsOf unit)).find? (pending unit)).map (·.request) = some request := by
      cases unit with
      | sets => exact absurd rfl hunit
      | _ => exact hnext
    obtain ⟨list, hlist, rfl⟩ := Option.map_eq_some_iff.mp hfind
    exact ⟨_, list, hlists hunit, hlist, rfl⟩

theorem Sound.turn (h : Sound start s) (hphase : s.phase = .running slice) (nowMs pastMs : ℤ) :
    Sound start (IsLists.turn toLowerCase stateBytes s slice nowMs pastMs) := by
  have hnot : ∀ slice request, s.phase ≠ .waiting slice request := by simp [hphase]
  have hasked := h.asked
  simp only [hphase, Phase.outstanding, Nat.add_zero] at hasked
  rcases @turn_cases toLowerCase stateBytes s slice nowMs pastMs with
    hturn | ⟨unit, queue, hqueue, ⟨hlists, hturn⟩ | ⟨request, hnext, hturn⟩ | ⟨-, ⟨state, -, hturn⟩ | hturn⟩⟩
  · rw [hturn]
    exact h.rest hnot (by simp)
  · rw [hturn]
    refine ⟨h.base, h.artFrom, h.asked, h.cap, ?_, fun slice request hwaiting => absurd hwaiting (hnot slice request)⟩
    intro lists hin
    rw [hlists] at hin
    cases hin
  · rw [hturn]
    exact h.ask hphase hqueue hnext nowMs pastMs
  · rw [hturn]
    have happlied : Sound start { s with work := { s.work with state := state } } :=
      ⟨h.base, h.artFrom, h.asked, h.cap, h.inHand, h.waiting⟩
    exact happlied.dropped finishUnit_dropped hnot hasked
  · rw [hturn]
    exact h.dropped refused_dropped hnot hasked

theorem Sound.answered {request : Request} (h : Sound start s) (hphase : s.phase = .waiting slice request)
    (reply : Option SearchAnswer) (nowMs : ℤ) :
    Sound start (IsLists.answered parseDay stateBytes s slice request reply nowMs) := by
  have hasked : (s.log ++ [(⟨request, reply⟩ : Asked)]).length = s.work.requests := by
    have := h.asked
    simpa [hphase, Phase.outstanding] using this
  obtain ⟨hlog, hcases⟩ := @answered_cases parseDay stateBytes s slice request reply nowMs
  generalize IsLists.answered parseDay stateBytes s slice request reply nowMs = s' at hlog hcases
  obtain ⟨work', phase', log'⟩ := s'
  dsimp only at hlog hcases
  subst hlog
  rcases hcases with ⟨hdropped, hrest⟩ | ⟨unit, queue, answer, hqueue, rfl, rfl, rfl⟩
  · exact h.dropped hdropped (by rintro slice' request' rfl; rcases hrest with hrest | hrest <;> cases hrest) hasked
  · obtain ⟨unit', queue', hqueue', hnext⟩ := h.waiting slice request hphase
    rw [hqueue] at hqueue'
    obtain ⟨rfl, rfl⟩ := List.cons.inj hqueue'
    have hnot : ∀ slice' request', Phase.running slice ≠ .waiting slice' request' := by simp
    rcases @takeAnswer_cases parseDay stateBytes s.work unit answer with
      hdropped | ⟨rfl, state, owed, -, htaken⟩ | ⟨hunit, lists, taken, htake, htaken⟩
    · exact h.dropped hdropped hnot hasked
    · rw [htaken]
      refine ⟨h.base, h.artFrom, hasked, h.cap, ?_, fun slice request hwaiting => absurd hwaiting (hnot slice request)⟩
      intro lists hin
      obtain ⟨unit', queue', hqueue', hne, -⟩ := h.inHand lists hin
      rw [hqueue] at hqueue'
      exact absurd (List.cons.inj hqueue').1.symm hne
    · rw [htaken]
      obtain ⟨held, list, hheld, hfind, rfl⟩ := hnext hunit
      refine ⟨h.base, h.artFrom, hasked, h.cap, ?_, fun slice request hwaiting => absurd hwaiting (hnot slice request)⟩
      intro lists' hin
      obtain rfl := Option.some.inj hin
      refine ⟨unit, queue, hqueue, hunit, fun hsizes => ?_⟩
      obtain ⟨before, log, hlog, hturn⟩ := h.inTurn hqueue hsizes
      rw [hheld, Option.getD_some] at hturn htake
      refine ⟨before, log ++ [⟨list.request, some answer⟩], ?_, hturn.take hsizes (listsOf_fresh unit) hfind htake⟩
      rw [← List.append_assoc, ← hlog]

theorem step_cases {event : NightEvent} (hstep : IsLists.step parseDay toLowerCase stateBytes s event = some s') :
    s.phase = .rest ∧ (s' = s ∨ ∃ slice, s' = { s with phase := .running slice }) ∨
      (∃ slice nowMs pastMs, s.phase = .running slice ∧ s' = turn toLowerCase stateBytes s slice nowMs pastMs) ∨
      ∃ slice request reply nowMs, s.phase = .waiting slice request ∧
        s' = answered parseDay stateBytes s slice request reply nowMs := by
  unfold IsLists.step at hstep
  split at hstep
  · rename_i hphase
    refine .inl ⟨hphase, ?_⟩
    split at hstep
    · exact .inl (Option.some.inj hstep).symm
    · exact .inr ⟨_, (Option.some.inj hstep).symm⟩
  · rename_i hphase
    exact .inr (.inl ⟨_, _, _, hphase, (Option.some.inj hstep).symm⟩)
  · rename_i hphase
    exact .inr (.inr ⟨_, _, _, _, hphase, (Option.some.inj hstep).symm⟩)
  · cases hstep

theorem Sound.step {event : NightEvent} (h : Sound start s)
    (hstep : IsLists.step parseDay toLowerCase stateBytes s event = some s') : Sound start s' := by
  obtain ⟨hphase, rfl | ⟨slice, rfl⟩⟩ | ⟨slice, nowMs, pastMs, hphase, rfl⟩ | ⟨slice, request, reply, nowMs, hphase, rfl⟩ :=
    step_cases hstep
  · exact h
  · exact h.rest (by simp [hphase]) (by simp)
  · exact h.turn hphase nowMs pastMs
  · exact h.answered hphase reply nowMs

theorem sound_run {events : List NightEvent} (hlists : start.lists = none) (hrequests : start.requests = 0)
    (h : Runs.Reaches (IsLists.step parseDay toLowerCase stateBytes) (.begun start) events s) : Sound start s :=
  h.stateInvariant (.begun hlists hrequests) fun hs hstep => hs.step hstep

/-! ## Verdicts -/

theorem ask_state (s : Night) (slice : Slice) (request : Request) (nowMs pastMs : ℤ) :
    (ask stateBytes s slice request nowMs pastMs).work.state = s.work.state ∧
      (ask stateBytes s slice request nowMs pastMs).log = s.log := by
  rcases @ask_cases stateBytes s slice request nowMs pastMs with ⟨why, hask⟩ | hask | ⟨-, slice', hask⟩
  · rw [hask]
    exact ⟨stop_dropped.state, rfl⟩
  · rw [hask]
    exact ⟨rfl, rfl⟩
  · rw [hask]
    exact ⟨rfl, rfl⟩

theorem finishUnit_counts : (finishUnit stateBytes work).refusals = work.refusals ∧
    (finishUnit stateBytes work).throttles = work.throttles := by
  unfold finishUnit
  dsimp only
  split <;> exact ⟨rfl, rfl⟩

theorem Sound.turn_state (h : Sound start s) (hphase : s.phase = .running slice) (nowMs pastMs : ℤ) :
    (IsLists.turn toLowerCase stateBytes s slice nowMs pastMs).log = s.log ∧
      ((IsLists.turn toLowerCase stateBytes s slice nowMs pastMs).work.state = s.work.state ∨
        ((IsLists.turn toLowerCase stateBytes s slice nowMs pastMs).work.refusals = s.work.refusals ∧
          (IsLists.turn toLowerCase stateBytes s slice nowMs pastMs).work.throttles = s.work.throttles ∧
          (IsLists.turn toLowerCase stateBytes s slice nowMs pastMs).phase = .running slice ∧
          ∀ key, (IsLists.turn toLowerCase stateBytes s slice nowMs pastMs).work.state.held key = s.work.state.held key ∨
            ∃ before log lines, s.log = before ++ log ∧ Applied start.base (start.artFrom.getD []) key log lines ∧
              (IsLists.turn toLowerCase stateBytes s slice nowMs pastMs).work.state.held key = some lines)) := by
  rcases @turn_cases toLowerCase stateBytes s slice nowMs pastMs with
    hturn | ⟨unit, queue, hqueue, ⟨hlists, hturn⟩ | ⟨request, hnext, hturn⟩ | ⟨hnone, ⟨state, happly, hturn⟩ | hturn⟩⟩
  · rw [hturn]
    exact ⟨rfl, .inl rfl⟩
  · rw [hturn]
    exact ⟨rfl, .inl rfl⟩
  · rw [hturn]
    obtain ⟨hstate, hlog⟩ := @ask_state stateBytes { s with work := workOn s.work unit } slice request
      nowMs pastMs
    exact ⟨hlog, .inl (hstate.trans (workOn_frame s.work unit).2.2.1)⟩
  · rw [hturn]
    refine ⟨rfl, .inr ⟨finishUnit_counts.1, finishUnit_counts.2, hphase, fun key => ?_⟩⟩
    rw [finishUnit_dropped.state]
    have hturns : ∃ before log, s.log = before ++ log ∧ (unit.isSizes = false →
        InTurn unit (s.work.artFrom.getD []) (listsOf unit) (s.work.lists.getD (listsOf unit)) log) := by
      cases hsizes : unit.isSizes with
      | true => exact ⟨s.log, [], by simp, nofun⟩
      | false =>
        obtain ⟨before, log, hlog, hinTurn⟩ := h.inTurn hqueue hsizes
        exact ⟨before, log, hlog, fun _ => hinTurn⟩
    obtain ⟨before, log, hlog, hinTurn⟩ := hturns
    rcases applyUnit_ok hinTurn hnone happly key with hsame | ⟨lines, hheld, happlied⟩
    · exact .inl hsame
    · rw [h.base, h.artFrom] at happlied
      exact .inr ⟨before, log, lines, hlog, happlied, hheld⟩
  · rw [hturn]
    exact ⟨rfl, .inl refused_dropped.state⟩

/-- An answer changes no verdict: the state is as it was, or `/sets` has changed its counts. -/
theorem Sound.answered_state {request : Request} (reply : Option SearchAnswer) (nowMs : ℤ) :
    (IsLists.answered parseDay stateBytes s slice request reply nowMs).work.state = s.work.state ∨
      ((IsLists.answered parseDay stateBytes s slice request reply nowMs).work.refusals = s.work.refusals ∧
        (IsLists.answered parseDay stateBytes s slice request reply nowMs).work.throttles = s.work.throttles ∧
        (IsLists.answered parseDay stateBytes s slice request reply nowMs).phase = .running slice ∧
        ∀ key, (IsLists.answered parseDay stateBytes s slice request reply nowMs).work.state.held key =
          s.work.state.held key) := by
  obtain ⟨-, ⟨hdropped, -⟩ | ⟨unit, queue, answer, -, -, hphase, hwork⟩⟩ :=
    @answered_cases parseDay stateBytes s slice request reply nowMs
  · exact .inl hdropped.state
  · rw [hwork]
    rcases @takeAnswer_cases parseDay stateBytes s.work unit answer with
      hdropped | ⟨rfl, state, owed, hsets, htaken⟩ | ⟨-, lists, taken, -, htaken⟩
    · exact .inl hdropped.state
    · rw [htaken]
      exact .inr ⟨rfl, rfl, hphase, applySets_ok hsets⟩
    · rw [htaken]
      exact .inl rfl

theorem Sound.state_step {event : NightEvent} (h : Sound start s)
    (hstep : IsLists.step parseDay toLowerCase stateBytes s event = some s') :
    (s'.work.refusals ≠ s.work.refusals ∨ s'.work.throttles ≠ s.work.throttles ∨ s'.phase = .rest →
        s'.work.state = s.work.state) ∧
      ∀ key, s'.work.state.held key = s.work.state.held key ∨ (s'.log = s.log ∧ ∃ before log lines, s.log = before ++ log ∧
          Applied start.base (start.artFrom.getD []) key log lines ∧ s'.work.state.held key = some lines) := by
  -- what runs on neither refuses, throttles nor rests
  have hgoes (hrefusals : s'.work.refusals = s.work.refusals) (hthrottles : s'.work.throttles = s.work.throttles)
      {slice : Slice} (hrunning : s'.phase = .running slice) :
      s'.work.refusals ≠ s.work.refusals ∨ s'.work.throttles ≠ s.work.throttles ∨ s'.phase = .rest →
        s'.work.state = s.work.state := by
    rintro (hne | hne | hrest)
    · exact absurd hrefusals hne
    · exact absurd hthrottles hne
    · rw [hrunning] at hrest
      cases hrest
  obtain ⟨hphase, rfl | ⟨slice, rfl⟩⟩ | ⟨slice, nowMs, pastMs, hphase, rfl⟩ | ⟨slice, request, reply, nowMs, hphase, rfl⟩ :=
    step_cases hstep
  · exact ⟨fun _ => rfl, fun _ => .inl rfl⟩
  · exact ⟨fun _ => rfl, fun _ => .inl rfl⟩
  · obtain ⟨hlog, hstate | ⟨hrefusals, hthrottles, hrunning, hheld⟩⟩ :=
      @Sound.turn_state toLowerCase stateBytes _ _ _ h hphase nowMs pastMs
    · exact ⟨fun _ => hstate, fun _ => .inl (by rw [hstate])⟩
    · exact ⟨hgoes hrefusals hthrottles hrunning, fun key => (hheld key).imp id fun happlied => ⟨hlog, happlied⟩⟩
  · rcases @Sound.answered_state parseDay stateBytes s slice request reply nowMs with hstate | ⟨hrefusals, hthrottles, hrunning, hheld⟩
    · exact ⟨fun _ => hstate, fun _ => .inl (by rw [hstate])⟩
    · exact ⟨hgoes hrefusals hthrottles hrunning, fun key => .inl (hheld key)⟩

theorem beginNight_ok {tsv : List Char} {stored : Option IsListsState} {nowMs : ℤ} {artFrom : Option (List Char)}
    (h : beginNight tsv stored nowMs artFrom = .ok work) :
    work.lists = none ∧ work.requests = 0 ∧ work.artFrom = artFrom := by
  unfold beginNight at h
  split at h
  · cases h
  · obtain ⟨⟨base, lines⟩, -, h⟩ := ok_of_bind h
    obtain rfl := Except.ok.inj h
    exact ⟨rfl, rfl, rfl⟩

theorem Sound.log_step {event : NightEvent} (h : Sound start s)
    (hstep : IsLists.step parseDay toLowerCase stateBytes s event = some s') : ∃ later, s'.log = s.log ++ later := by
  obtain ⟨hphase, rfl | ⟨slice, rfl⟩⟩ | ⟨slice, nowMs, pastMs, hphase, rfl⟩ | ⟨slice, request, reply, nowMs, hphase, rfl⟩ :=
    step_cases hstep
  · exact ⟨[], by simp⟩
  · exact ⟨[], by simp⟩
  · exact ⟨[], by simp [(h.turn_state hphase nowMs pastMs).1]⟩
  · exact ⟨_, (answered_cases s slice request reply nowMs).1⟩

theorem held_run {events : List NightEvent} (hlists : start.lists = none) (hrequests : start.requests = 0)
    (h : Runs.Reaches (IsLists.step parseDay toLowerCase stateBytes) (.begun start) events s) (key : VerdictKey) :
    s.work.state.held key = start.state.held key ∨ ∃ before log after lines, s.log = before ++ log ++ after ∧
      Applied start.base (start.artFrom.getD []) key log lines ∧ s.work.state.held key = some lines := by
  induction h with
  | start => exact .inl rfl
  | @step events s s' event hreach hstep ih =>
    have hsound := sound_run hlists hrequests hreach
    obtain ⟨later, hlater⟩ := hsound.log_step hstep
    rcases (hsound.state_step hstep).2 key with hsame | ⟨hlog, before, log, lines, hsplit, happlied, hheld⟩
    · rcases ih with ih | ⟨before, log, after, lines, hsplit, happlied, hheld⟩
      · exact .inl (hsame.trans ih)
      · refine .inr ⟨before, log, after ++ later, lines, ?_, happlied, hsame.trans hheld⟩
        rw [hlater, hsplit, List.append_assoc _ after]
    · exact .inr ⟨before, log, [], lines, by rw [hlog, hsplit, List.append_nil], happlied, hheld⟩

/-- **Units are applied whole or not at all.** Whatever the remote answers and wherever the slices end, a night makes
at most its cap of requests; the verdicts of a unit are those the night began with, or those of one reading of it
without a break, of distinct rows, as many as the remote stated; and an event that refuses a unit, waits out a 429
or ends a slice leaves every verdict as it was. -/
theorem units_applied_whole {tsv : List Char} {stored : Option IsListsState} {nowMs : ℤ} {artFrom : Option (List Char)}
    {events : List NightEvent} (hbegin : beginNight tsv stored nowMs artFrom = .ok work)
    (h : Runs.Reaches (IsLists.step parseDay toLowerCase stateBytes) (.begun work) events s) :
    s.log.length + s.phase.outstanding ≤ IS_LISTS_NIGHT_REQUESTS ∧
      (∀ key, s.work.state.held key = work.state.held key ∨ ∃ before log after lines,
        s.log = before ++ log ++ after ∧ Applied work.base (artFrom.getD []) key log lines ∧
        s.work.state.held key = some lines) ∧
      ∀ event s', IsLists.step parseDay toLowerCase stateBytes s event = some s' →
        (s'.work.refusals ≠ s.work.refusals ∨ s'.work.throttles ≠ s.work.throttles ∨ s'.phase = .rest →
          s'.work.state = s.work.state) ∧
        ∀ key, s'.work.state.held key = s.work.state.held key ∨
          (s'.log = s.log ∧ ∃ before log lines, s.log = before ++ log ∧
            Applied work.base (artFrom.getD []) key log lines ∧ s'.work.state.held key = some lines) := by
  obtain ⟨hlists, hrequests, rfl⟩ := beginNight_ok hbegin
  have hsound := sound_run hlists hrequests h
  exact ⟨hsound.asked.trans_le hsound.cap, held_run hlists hrequests h, fun event s' hstep => hsound.state_step hstep⟩

end

namespace SmallNight

def tsv : List Char :=
  ("# from api.scryfall.com, 2026-10-09.\n# print_tiers.tsv 30ff0dad\n" ++ "# misprint: 2 rows of every language\n").toList

def item (number : String) : Item :=
  { id := some "a".toList, set := some "old".toList, collectorNumber := some number.toList, lang := some "en".toList,
    name := some "Card".toList }

def page (hasMore : Bool) (items : List Item) : SearchAnswer :=
  { status := 200
    body := { object := some "list".toList, data := some items, hasMore := some hasMore, total := some 2 } }

def events : List NightEvent :=
  [.slice 1 100 0, .turn 0 0, .answer (some (page true [item "9"])) 0, .turn 0 0,
    .slice 30 100 50, .turn 50 50, .answer (some (page false [item "12"])) 50, .turn 50 50]

end SmallNight

/-- The small night: its one list read over two slices and applied. -/
theorem units_applied_whole_small : ∃ work s,
    beginNight SmallNight.tsv none 0 none = .ok work ∧
      Runs.Reaches (step (fun _ => none) lowerCase fun _ => 500) (.begun work) SmallNight.events s ∧
      s.work.state.held (.list .misprint) = some ["misprint\trow\told\ten\t9 12".toList] ∧
      s.log.length + s.phase.outstanding ≤ IS_LISTS_NIGHT_REQUESTS ∧
      ∀ key, s.work.state.held key = work.state.held key ∨ ∃ before log after lines,
        s.log = before ++ log ++ after ∧ Applied work.base [] key log lines ∧ s.work.state.held key = some lines := by
  have hrun : ((beginNight SmallNight.tsv none 0 none).toOption.bind fun work =>
      (Runs.run (step (fun _ => none) lowerCase fun _ => 500) (.begun work) SmallNight.events).map fun s =>
        s.work.state.held (.list .misprint)) = some (some ["misprint\trow\told\ten\t9 12".toList]) := by
    decide +kernel
  cases hbegin : beginNight SmallNight.tsv none 0 none with
  | error e =>
    rw [hbegin] at hrun
    cases hrun
  | ok work =>
    rw [hbegin] at hrun
    change (Runs.run _ (Night.begun work) SmallNight.events).map _ = _ at hrun
    obtain ⟨s, hs, hheld⟩ := Option.map_eq_some_iff.mp hrun
    have hreach := Runs.reaches_iff.mpr hs
    have hwhole := units_applied_whole hbegin hreach
    exact ⟨_, s, rfl, hreach, hheld, hwhole.1, hwhole.2.1⟩

end IsLists
