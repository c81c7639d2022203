-- SUMMARY: What a finished tag dump gives an id: its slugs and their ancestors, and when no hash order can lose one.
import Mathlib.Data.List.Sort
import Sylvan.Data.HeadSort
import Sylvan.Import.TagAncestry

/-!
# Tag ancestry

A slug under several ids keeps the parents of one of them, the one its hash map comes to
last. What a tagged id inherits is then along the parents of one id a slug; the dump's
ancestry is along the parents of them all.
-/

namespace Tags

open Corpus Worklist TagAccumulator

/-! ## The dump's ancestry -/

def latest (recs : List TagRecord) (id : Text) : Option TagRecord :=
  recs.reverse.find? fun r => decide (r.id = some id) && r.slug.isSome

def slugOf (recs : List TagRecord) (id : Text) : Option Text := (latest recs id).bind TagRecord.slug

/-- The slugs of an id's parents, of those that have one. -/
def parentsOf (recs : List TagRecord) (id : Text) : List Text :=
  (((latest recs id).map TagRecord.parentIds).getD []).filterMap (slugOf recs)

def Link (recs : List TagRecord) (slug parent : Text) : Prop :=
  ∃ id, slugOf recs id = some slug ∧ parent ∈ parentsOf recs id

def TagTagging.idOf (t : TagTagging) : TagKind → Option Text
  | .oracle => t.oracleId
  | .art => t.illustrationId

def Own (recs : List TagRecord) (kind : TagKind) (key slug : Text) : Prop :=
  ∃ r ∈ recs, r.slug = some slug ∧ ∃ t ∈ r.taggings, t.idOf kind = some key ∧ key ≠ []

/-- Met from a slug whichever one id is taken for each slug. -/
inductive Sure (recs : List TagRecord) (q : Text) : Text → Prop where
  | here : Sure recs q q
  | up {slug : Text} (next : Text → Text) (hid : ∃ id, slugOf recs id = some slug)
      (hnext : ∀ id, slugOf recs id = some slug → next id ∈ parentsOf recs id)
      (hsure : ∀ id, slugOf recs id = some slug → Sure recs q (next id)) : Sure recs q slug

/-- Every ancestor an id inherits by any ids of its slugs it inherits by any one id of each. -/
def Settled (recs : List TagRecord) (kind : TagKind) : Prop :=
  ∀ key q, (∃ slug, Own recs kind key slug ∧ Relation.ReflTransGen (Link recs) slug q) →
    ∃ slug, Own recs kind key slug ∧ Sure recs q slug

/-! ## Interning -/

theorem get_of_starts {α : Type} {l l' : List α} (h : l <+: l') {i : ℕ} {a : α} (hi : l[i]? = some a) : l'[i]? = some a := by
  obtain ⟨t, rfl⟩ := h
  obtain ⟨hlt, -⟩ := List.getElem?_eq_some_iff.mp hi
  rw [List.getElem?_append_left hlt, hi]

theorem intern_spec (slugs : List Text) (slug : Text) :
    slugs <+: (intern slugs slug).1 ∧ (intern slugs slug).1[(intern slugs slug).2]? = some slug := by
  unfold intern
  split
  · rename_i hmem
    refine ⟨List.prefix_refl _, ?_⟩
    rw [List.getElem?_eq_some_iff]
    exact ⟨List.idxOf_lt_length_iff.mpr hmem, List.getElem_idxOf _⟩
  · exact ⟨List.prefix_append _ _, List.getElem?_concat_length⟩

theorem internAll_spec (slugs more : List Text) : slugs <+: (internAll slugs more).1 ∧
      (internAll slugs more).2.map ((internAll slugs more).1[·]?) = more.map some := by
  induction more generalizing slugs with
  | nil => exact ⟨List.prefix_refl _, rfl⟩
  | cons slug more ih =>
    obtain ⟨hone, hget⟩ := intern_spec slugs slug
    obtain ⟨hmore, hgets⟩ := ih (intern slugs slug).1
    refine ⟨hone.trans hmore, ?_⟩
    simp only [internAll, List.map_cons, hgets, get_of_starts hmore hget]

/-! ## The fold -/

section Fold

variable {recs : List TagRecord} {r : TagRecord} {acc : TagAccumulator}

theorem latest_append (id : Text) :
    latest (recs ++ [r]) id = if r.id = some id ∧ r.slug.isSome then some r else latest recs id := by
  rw [latest, List.reverse_append, List.reverse_singleton, List.singleton_append, List.find?_cons]
  by_cases h : r.id = some id ∧ r.slug.isSome = true
  · rw [if_pos h, h.2, decide_eq_true h.1]
    rfl
  · rw [if_neg h]
    have hfalse : (decide (r.id = some id) && r.slug.isSome) = false := by
      rw [Bool.eq_false_iff]
      intro hand
      exact h (by simpa using hand)
    rw [hfalse]
    rfl

theorem fold_maps : (acc.fold r).uuidToSlug = (acc.declare r).uuidToSlug ∧
    (acc.fold r).parentUuids = (acc.declare r).parentUuids := by
  unfold fold
  cases r.slug with
  | none => exact ⟨rfl, rfl⟩
  | some slug =>
    dsimp only
    split
    · exact ⟨rfl, rfl⟩
    · exact ⟨rfl, rfl⟩

/-- The maps hold every id's last record. -/
structure Declared (recs : List TagRecord) (acc : TagAccumulator) : Prop where
  slugs : ∀ id, acc.uuidToSlug.get id = slugOf recs id
  parents : ∀ id, acc.parentUuids.get id = (latest recs id).map TagRecord.parentIds

theorem declared_fold (h : Declared recs acc) : Declared (recs ++ [r]) (acc.fold r) := by
  obtain ⟨huuid, hparents⟩ := @fold_maps r acc
  have hmaps : ∀ id, (acc.declare r).uuidToSlug.get id = slugOf (recs ++ [r]) id ∧
      (acc.declare r).parentUuids.get id = (latest (recs ++ [r]) id).map TagRecord.parentIds := by
    intro id
    rw [slugOf, latest_append]
    cases hid : r.id with
    | none =>
      rw [if_neg (by simp)]
      simp only [declare, hid]
      exact ⟨h.slugs id, h.parents id⟩
    | some id' =>
      cases hslug : r.slug with
      | none =>
        rw [if_neg (by simp)]
        simp only [declare, hid, hslug]
        exact ⟨h.slugs id, h.parents id⟩
      | some slug =>
        simp only [declare, hid, hslug, JsMap.get_set]
        by_cases heq : id' = id
        · rw [if_pos heq, if_pos heq, if_pos ⟨by rw [heq], rfl⟩]
          exact ⟨hslug.symm, rfl⟩
        · rw [if_neg heq, if_neg heq, if_neg fun hand => heq (Option.some.inj hand.1)]
          exact ⟨h.slugs id, h.parents id⟩
  exact ⟨fun id => by rw [huuid]; exact (hmaps id).1, fun id => by rw [hparents]; exact (hmaps id).2⟩

theorem own_append {kind : TagKind} {key slug : Text} : Own (recs ++ [r]) kind key slug ↔
    Own recs kind key slug ∨ (r.slug = some slug ∧ ∃ t ∈ r.taggings, t.idOf kind = some key ∧ key ≠ []) := by
  simp only [Own, List.mem_append, List.mem_singleton]
  constructor
  · rintro ⟨r', hr | rfl, hown⟩
    · exact .inl ⟨r', hr, hown⟩
    · exact .inr hown
  · rintro (⟨r', hr, hown⟩ | hown)
    · exact ⟨r', .inl hr, hown⟩
    · exact ⟨r, .inr rfl, hown⟩

/-- Pushing one index under a list of ids. Induction on the ids. -/
theorem foldl_tagId (si : ℕ) (ids : List (Option Text)) (tagged : JsMap Text (List ℕ)) (key : Text) :
    (∀ i, i ∈ (((ids.foldl (tagId si) tagged).get key).getD []) ↔
      i ∈ ((tagged.get key).getD []) ∨ (i = si ∧ some key ∈ ids ∧ key ≠ [])) ∧
    ((∀ sis, tagged.get key = some sis → sis ≠ []) →
      ∀ sis, (ids.foldl (tagId si) tagged).get key = some sis → sis ≠ []) := by
  induction ids generalizing tagged with
  | nil => exact ⟨by simp, fun h => h⟩
  | cons id ids ih =>
    obtain ⟨hmem, hne⟩ := ih (tagId si tagged id)
    rw [List.foldl_cons]
    have hstep : (∀ i, i ∈ (((tagId si tagged id).get key).getD []) ↔
        i ∈ ((tagged.get key).getD []) ∨ (i = si ∧ some key = id ∧ key ≠ [])) ∧
        ((∀ sis, tagged.get key = some sis → sis ≠ []) → ∀ sis, (tagId si tagged id).get key = some sis → sis ≠ []) := by
      cases id with
      | none => exact ⟨by simp [tagId], fun h => h⟩
      | some id =>
        simp only [tagId]
        by_cases hempty : id.isEmpty = true
        · rw [if_pos hempty]
          refine ⟨?_, fun h => h⟩
          intro i
          have hnil : id = [] := List.isEmpty_iff.mp hempty
          subst hnil
          constructor
          · exact .inl
          · rintro (h | ⟨-, hkey, hne⟩)
            · exact h
            · exact absurd (Option.some.inj hkey) hne
        · rw [if_neg hempty, JsMap.get_update]
          by_cases hkey : id = key
          · subst hkey
            rw [if_pos rfl]
            refine ⟨?_, ?_⟩
            · intro i
              have hidne : id ≠ [] := fun hnil => hempty (List.isEmpty_iff.mpr hnil)
              simp [hidne]
            · intro _ sis hsis
              cases hsis
              simp
          · rw [if_neg hkey]
            refine ⟨?_, fun h => h⟩
            intro i
            constructor
            · exact .inl
            · rintro (h | ⟨-, heq, -⟩)
              · exact h
              · exact absurd (Option.some.inj heq).symm hkey
    refine ⟨?_, fun h => hne (hstep.2 h)⟩
    intro i
    rw [hmem, hstep.1, List.mem_cons]
    tauto

/-- The tagged lists hold the slugs that tag each id. -/
structure Folded (recs : List TagRecord) (acc : TagAccumulator) : Prop where
  nodup : acc.slugs.Nodup
  owns : ∀ kind key slug, (∃ si ∈ (((acc.direct kind).get key).getD []), acc.slugs[si]? = some slug) ↔ Own recs kind key slug
  inRange : ∀ kind key, ∀ si ∈ (((acc.direct kind).get key).getD []), si < acc.slugs.length
  filled : ∀ kind key sis, (acc.direct kind).get key = some sis → sis ≠ []

theorem declare_keeps : (acc.declare r).slugs = acc.slugs ∧ ∀ kind, (acc.declare r).direct kind = acc.direct kind := by
  unfold declare
  split
  · exact ⟨rfl, fun kind => by cases kind <;> rfl⟩
  · exact ⟨rfl, fun kind => by cases kind <;> rfl⟩

theorem fold_idle (h : r.slug = none ∨ r.taggings = []) :
    (acc.fold r).slugs = acc.slugs ∧ ∀ kind, (acc.fold r).direct kind = acc.direct kind := by
  obtain ⟨hslugs, hdirect⟩ := @declare_keeps r acc
  unfold fold
  cases hslug : r.slug with
  | none => exact ⟨hslugs, hdirect⟩
  | some slug =>
    have htaggings : r.taggings.isEmpty = true := by
      rw [hslug] at h
      rcases h with h | h
      · cases h
      · rw [h]
        rfl
    dsimp only
    rw [if_pos htaggings]
    refine ⟨hslugs, ?_⟩
    intro kind
    have hkind := hdirect kind
    cases kind with
    | oracle => exact hkind
    | art => exact hkind

theorem fold_tags {slug : Text} (hslug : r.slug = some slug) (htaggings : r.taggings ≠ []) :
    (acc.fold r).slugs = (intern acc.slugs slug).1 ∧ ∀ kind, (acc.fold r).direct kind =
        (r.taggings.map fun t => t.idOf kind).foldl (tagId (intern acc.slugs slug).2) (acc.direct kind) := by
  obtain ⟨hslugs, hdirect⟩ := @declare_keeps r acc
  have hempty : ¬ r.taggings.isEmpty = true := fun h => htaggings (List.isEmpty_iff.mp h)
  unfold fold
  rw [hslug]
  dsimp only
  rw [if_neg hempty, hslugs]
  refine ⟨rfl, ?_⟩
  intro kind
  rw [← hdirect kind]
  cases kind with
  | oracle => rfl
  | art => rfl

theorem folded_fold (h : Folded recs acc) : Folded (recs ++ [r]) (acc.fold r) := by
  by_cases hidle : r.slug = none ∨ r.taggings = []
  · obtain ⟨hslugs, hdirect⟩ := @fold_idle r acc hidle
    refine ⟨by rw [hslugs]; exact h.nodup, ?_, ?_, ?_⟩
    · intro kind key slug
      rw [hdirect, hslugs, h.owns, own_append]
      constructor
      · exact .inl
      · rintro (hown | ⟨hslug, t, ht, -⟩)
        · exact hown
        · rcases hidle with hnone | hempty
          · rw [hnone] at hslug
            cases hslug
          · rw [hempty] at ht
            cases ht
    · intro kind key
      rw [hdirect, hslugs]
      exact h.inRange kind key
    · intro kind key
      rw [hdirect]
      exact h.filled kind key
  · push Not at hidle
    obtain ⟨hsome, htaggings⟩ := hidle
    obtain ⟨slug, hslug⟩ := Option.ne_none_iff_exists'.mp hsome
    obtain ⟨hslugs, hdirect⟩ := @fold_tags r acc slug hslug htaggings
    obtain ⟨hstarts, hget⟩ := intern_spec acc.slugs slug
    have hnodup := nodup_intern h.nodup slug
    have hids : ∀ kind key, some key ∈ (r.taggings.map fun t => t.idOf kind) ∧ key ≠ [] ↔
        ∃ t ∈ r.taggings, t.idOf kind = some key ∧ key ≠ [] := by
      intro kind key
      rw [List.mem_map]
      constructor
      · rintro ⟨⟨t, ht, hid⟩, hne⟩
        exact ⟨t, ht, hid, hne⟩
      · rintro ⟨t, ht, hid, hne⟩
        exact ⟨⟨t, ht, hid⟩, hne⟩
    have hmem : ∀ kind key i, i ∈ ((((acc.fold r).direct kind).get key).getD []) ↔
        i ∈ (((acc.direct kind).get key).getD []) ∨
          (i = (intern acc.slugs slug).2 ∧ ∃ t ∈ r.taggings, t.idOf kind = some key ∧ key ≠ []) := by
      intro kind key i
      rw [hdirect, (foldl_tagId _ _ _ key).1, hids]
    refine ⟨by rw [hslugs]; exact hnodup, ?_, ?_, ?_⟩
    · intro kind key slug'
      rw [own_append, ← h.owns, hslugs]
      constructor
      · rintro ⟨si, hsi, hslug'⟩
        rcases (hmem kind key si).mp hsi with hold | ⟨rfl, hown⟩
        · obtain hlt := h.inRange kind key si hold
          refine .inl ⟨si, hold, ?_⟩
          obtain ⟨t, ht⟩ := hstarts
          rwa [← ht, List.getElem?_append_left hlt] at hslug'
        · rw [hget] at hslug'
          cases hslug'
          exact .inr ⟨hslug, hown⟩
      · rintro (⟨si, hsi, hslug'⟩ | ⟨hslug', hown⟩)
        · exact ⟨si, (hmem kind key si).mpr (.inl hsi), get_of_starts hstarts hslug'⟩
        · rw [hslug] at hslug'
          cases hslug'
          exact ⟨_, (hmem kind key _).mpr (.inr ⟨rfl, hown⟩), hget⟩
    · intro kind key si hsi
      rw [hslugs]
      rcases (hmem kind key si).mp hsi with hold | ⟨rfl, -⟩
      · exact lt_of_lt_of_le (h.inRange kind key si hold) hstarts.length_le
      · exact (List.getElem?_eq_some_iff.mp hget).1
    · intro kind key
      rw [hdirect]
      exact (foldl_tagId _ _ _ key).2 (h.filled kind key)

/-- The accumulator of a dump holds its last records and its taggings. Induction on the records, last first. -/
theorem ofRecords_spec (recs : List TagRecord) : Declared recs (.ofRecords recs) ∧ Folded recs (.ofRecords recs) := by
  induction recs using List.reverseRecOn with
  | nil =>
    refine ⟨⟨fun id => rfl, fun id => rfl⟩, List.nodup_nil, ?_, ?_, ?_⟩
    · intro kind key slug
      constructor
      · rintro ⟨si, hsi, -⟩
        cases kind <;> cases hsi
      · rintro ⟨r, hr, -⟩
        cases hr
    · intro kind key si hsi
      cases kind <;> cases hsi
    · intro kind key sis hsis
      cases kind <;> cases hsis
  | append_singleton recs r ih =>
    rw [ofRecords, List.foldl_append]
    exact ⟨declared_fold ih.1, folded_fold ih.2⟩

end Fold

/-! ## The parent links -/

section Links

variable {uuidToSlug : JsMap Text Text} {base : List Text}

/-- What linking leaves of the entries met: a slug in the graph has the parents of the
last entry met that has the slug. -/
structure Linked (uuidToSlug : JsMap Text Text) (base : List Text) (es : List (Text × List Text))
    (state : List Text × JsMap ℕ (List ℕ)) : Prop where
  nodup : state.1.Nodup
  starts : base <+: state.1
  last : ∀ si parents, state.2.get si = some parents → ∃ pre e post slug, es = pre ++ e :: post ∧
    uuidToSlug.get e.1 = some slug ∧ state.1[si]? = some slug ∧
    parents.map (state.1[·]?) = (e.2.filterMap uuidToSlug.get).map some ∧
    ∀ e' ∈ post, uuidToSlug.get e'.1 ≠ some slug
  covers : ∀ e ∈ es, ∀ slug, uuidToSlug.get e.1 = some slug →
    ∃ si parents, state.1[si]? = some slug ∧ state.2.get si = some parents

theorem nodup_get_inj {l : List Text} (h : l.Nodup) {i j : ℕ} {a : Text} (hi : l[i]? = some a) (hj : l[j]? = some a) : i = j := by
  obtain ⟨hilt, hi⟩ := List.getElem?_eq_some_iff.mp hi
  obtain ⟨hjlt, hj⟩ := List.getElem?_eq_some_iff.mp hj
  exact h.getElem_inj_iff.mp (hi.trans hj.symm)

theorem names_of_starts {l l' : List Text} (h : l <+: l') {idxs : List ℕ} {names : List Text}
    (hnames : idxs.map (l[·]?) = names.map some) : idxs.map (l'[·]?) = names.map some := by
  rw [← hnames]
  apply List.map_congr_left
  intro i hi
  have hmem : l[i]? ∈ names.map some := hnames ▸ List.mem_map_of_mem hi
  obtain ⟨name, -, hname⟩ := List.mem_map.mp hmem
  rw [← hname, get_of_starts h hname.symm]

theorem linked_append {es : List (Text × List Text)} {state : List Text × JsMap ℕ (List ℕ)}
    (h : Linked uuidToSlug base es state) (e : Text × List Text) :
    Linked uuidToSlug base (es ++ [e]) (linkParents uuidToSlug state e) := by
  unfold linkParents
  cases hslug : uuidToSlug.get e.1 with
  | none =>
    refine ⟨h.nodup, h.starts, ?_, ?_⟩
    · intro si parents hget
      obtain ⟨pre, e', post, slug, hes, hname, hsi, hparents, hlast⟩ := h.last si parents hget
      refine ⟨pre, e', post ++ [e], slug, by simp [hes], hname, hsi, hparents, ?_⟩
      intro e'' he''
      rcases List.mem_append.mp he'' with hold | hnew
      · exact hlast e'' hold
      · rw [List.mem_singleton.mp hnew, hslug]
        exact Option.some_ne_none slug ∘ Eq.symm
    · intro e' he' slug hname
      rcases List.mem_append.mp he' with hold | hnew
      · exact h.covers e' hold slug hname
      · rw [List.mem_singleton.mp hnew, hslug] at hname
        cases hname
  | some slug =>
    obtain ⟨hone, hget⟩ := intern_spec state.1 slug
    obtain ⟨hall, hgets⟩ := internAll_spec (intern state.1 slug).1 (e.2.filterMap uuidToSlug.get)
    have hnodup := nodup_internAll (nodup_intern h.nodup slug) (e.2.filterMap uuidToSlug.get)
    have hstarts := hone.trans hall
    have hsi := get_of_starts hall hget
    refine ⟨hnodup, h.starts.trans hstarts, ?_, ?_⟩
    · intro si parents hsome
      rw [JsMap.get_set] at hsome
      by_cases heq : (intern state.1 slug).2 = si
      · rw [if_pos heq] at hsome
        cases hsome
        subst heq
        exact ⟨es, e, [], slug, rfl, hslug, hsi, hgets, by simp⟩
      · rw [if_neg heq] at hsome
        obtain ⟨pre, e', post, slug', hes, hname, hsi', hparents, hlast⟩ := h.last si parents hsome
        have hsi'' := get_of_starts hstarts hsi'
        refine ⟨pre, e', post ++ [e], slug', by simp [hes], hname, hsi'', names_of_starts hstarts hparents, ?_⟩
        intro e'' he''
        rcases List.mem_append.mp he'' with hold | hnew
        · exact hlast e'' hold
        · rw [List.mem_singleton.mp hnew, hslug]
          intro hsame
          cases hsame
          exact heq (nodup_get_inj hnodup hsi hsi'')
    · intro e' he' slug' hname
      by_cases hsame : slug' = slug
      · subst hsame
        exact ⟨_, _, hsi, by rw [JsMap.get_set, if_pos rfl]⟩
      · rcases List.mem_append.mp he' with hold | hnew
        · obtain ⟨si, parents, hsi', hsome⟩ := h.covers e' hold slug' hname
          have hne : (intern state.1 slug).2 ≠ si := by
            rintro rfl
            have hboth := get_of_starts hstarts hsi'
            rw [hsi] at hboth
            exact hsame (Option.some.inj hboth).symm
          exact ⟨si, parents, get_of_starts hstarts hsi', by rw [JsMap.get_set, if_neg hne, hsome]⟩
        · rw [List.mem_singleton.mp hnew, hslug] at hname
          exact absurd (Option.some.inj hname).symm hsame

/-- Linking all the entries. Induction on the entries, last first. -/
theorem linked_foldl (hbase : base.Nodup) (es : List (Text × List Text)) :
    Linked uuidToSlug base es (es.foldl (linkParents uuidToSlug) (base, .empty)) := by
  induction es using List.reverseRecOn with
  | nil =>
    refine ⟨hbase, List.prefix_refl _, ?_, ?_⟩
    · intro si parents hget
      cases hget
    · intro e he
      cases he
  | append_singleton es e ih =>
    rw [List.foldl_append]
    exact linked_append ih e

/-- A parent link between slugs, as the graph has it. -/
def TextEdge (state : List Text × JsMap ℕ (List ℕ)) (slug parent : Text) : Prop :=
  ∃ si pi, state.1[si]? = some slug ∧ state.1[pi]? = some parent ∧ (graphOf state.2).Edge si pi

variable {es : List (Text × List Text)} {state : List Text × JsMap ℕ (List ℕ)}

theorem edge_iff (si pi : ℕ) : (graphOf state.2).Edge si pi ↔ ∃ parents, state.2.get si = some parents ∧ pi ∈ parents := by
  have hnext : (graphOf state.2).next si = (state.2.get si).getD [] := rfl
  rw [Graph.Edge, hnext]
  cases state.2.get si with
  | none => simp
  | some parents => simp

theorem edge_named (h : Linked uuidToSlug base es state) {si pi : ℕ} (hedge : (graphOf state.2).Edge si pi) :
    ∃ parent, state.1[pi]? = some parent := by
  obtain ⟨parents, hget, hmem⟩ := (edge_iff si pi).mp hedge
  obtain ⟨-, e, -, -, -, -, -, hparents, -⟩ := h.last si parents hget
  have hnamed : state.1[pi]? ∈ (e.2.filterMap uuidToSlug.get).map some := hparents ▸ List.mem_map_of_mem hmem
  obtain ⟨parent, -, hparent⟩ := List.mem_map.mp hnamed
  exact ⟨parent, hparent.symm⟩

theorem reach_named (h : Linked uuidToSlug base es state) {si j : ℕ} {slug : Text} (hsi : state.1[si]? = some slug)
    (hreach : Relation.ReflTransGen (graphOf state.2).Edge si j) : ∃ q, state.1[j]? = some q := by
  cases hreach with
  | refl => exact ⟨slug, hsi⟩
  | tail _ hedge => exact edge_named h hedge

theorem reach_text (h : Linked uuidToSlug base es state) {si : ℕ} {slug q : Text} (hsi : state.1[si]? = some slug) :
    (∃ j, Relation.ReflTransGen (graphOf state.2).Edge si j ∧ state.1[j]? = some q) ↔
      Relation.ReflTransGen (TextEdge state) slug q := by
  constructor
  · rintro ⟨j, hreach, hq⟩
    induction hreach generalizing q with
    | refl =>
      rw [hsi] at hq
      cases hq
      exact .refl
    | @tail i j _ hedge ih =>
      obtain ⟨parents, hget, hj⟩ := (edge_iff i j).mp hedge
      obtain ⟨-, -, -, slug', -, -, hi, -, -⟩ := h.last i parents hget
      exact (ih hi).tail ⟨i, j, hi, hq, hedge⟩
  · intro hreach
    induction hreach with
    | refl => exact ⟨si, .refl, hsi⟩
    | @tail p q _ hedge ih =>
      obtain ⟨j, hj, hp⟩ := ih
      obtain ⟨i, k, hi, hk, hedge⟩ := hedge
      rw [nodup_get_inj h.nodup hp hi] at hj
      exact ⟨k, hj.tail hedge, hk⟩

theorem textEdge_last (h : Linked uuidToSlug base es state) {slug parent : Text} (hedge : TextEdge state slug parent) :
    ∃ pre e post, es = pre ++ e :: post ∧ uuidToSlug.get e.1 = some slug ∧ parent ∈ e.2.filterMap uuidToSlug.get ∧
      ∀ e' ∈ post, uuidToSlug.get e'.1 ≠ some slug := by
  obtain ⟨si, pi, hsi, hpi, hedge⟩ := hedge
  obtain ⟨parents, hget, hmem⟩ := (edge_iff si pi).mp hedge
  obtain ⟨pre, e, post, slug', hes, hname, hsi', hparents, hlast⟩ := h.last si parents hget
  rw [hsi] at hsi'
  cases hsi'
  refine ⟨pre, e, post, hes, hname, ?_, hlast⟩
  have hnamed : state.1[pi]? ∈ (e.2.filterMap uuidToSlug.get).map some := hparents ▸ List.mem_map_of_mem hmem
  rw [hpi] at hnamed
  simpa using hnamed

theorem textEdge_of (h : Linked uuidToSlug base es state) {e : Text × List Text} (he : e ∈ es) {slug : Text}
    (hslug : uuidToSlug.get e.1 = some slug) :
    ∃ e' ∈ es, uuidToSlug.get e'.1 = some slug ∧ ∀ parent ∈ e'.2.filterMap uuidToSlug.get, TextEdge state slug parent := by
  obtain ⟨si, parents, hsi, hget⟩ := h.covers e he slug hslug
  obtain ⟨pre, e', post, slug', hes, hname, hsi', hparents, -⟩ := h.last si parents hget
  rw [hsi] at hsi'
  cases hsi'
  refine ⟨e', by simp [hes], hname, ?_⟩
  intro parent hparent
  have hnamed : some parent ∈ parents.map (state.1[·]?) := hparents ▸ List.mem_map_of_mem hparent
  obtain ⟨pi, hpi, hparent⟩ := List.mem_map.mp hnamed
  exact ⟨si, pi, hsi, hparent, (edge_iff si pi).mpr ⟨parents, hget, hpi⟩⟩

end Links

/-! ## What an id gets -/

section Finish

variable {ω : Type} {order : HashOrder} {acc : TagAccumulator} {data : TagData ω} {kind : TagKind}

def linksOf (order : HashOrder) (acc : TagAccumulator) : List Text × JsMap ℕ (List ℕ) :=
  (order.parents acc.parentUuids.entries).foldl (linkParents acc.uuidToSlug) (acc.slugs, .empty)

/-- An id's indices, in the order of the slugs they name. -/
def sortedIdxs (order : HashOrder) (slugs : List Text) (expand : ℕ → List ℕ) (entry : Text × List ℕ) : List ℕ :=
  (order.scratch entry.1 (JsSet.of (entry.2.flatMap expand))).insertionSort fun a b => slugs.getD a [] ≤ slugs.getD b []

theorem foldl_attach (slugs : List Text) (expand : ℕ → List ℕ) (es : List (Text × List ℕ)) (built : JsMap Text (List ℕ)) :
    es.foldl (attach order slugs expand) built =
      (es.map fun e => (e.1, sortedIdxs order slugs expand e)).foldl (fun m e => m.set e.1 e.2) built := by
  rw [List.foldl_map]
  rfl

theorem get_attach (slugs : List Text) (expand : ℕ → List ℕ) (tagged : JsMap Text (List ℕ)) (key : Text) :
    ((order.direct tagged.entries).foldl (attach order slugs expand) .empty).get key =
      (tagged.get key).map fun sis => sortedIdxs order slugs expand (key, sis) := by
  have hperm := order.direct_perm tagged.entries
  have hkeys : (((order.direct tagged.entries).map fun e => (e.1, sortedIdxs order slugs expand e)).map Prod.fst) =
      (order.direct tagged.entries).map Prod.fst := by
    rw [List.map_map]
    rfl
  have hnodup : ((order.direct tagged.entries).map Prod.fst).Nodup := (hperm.map _).nodup_iff.mpr tagged.nodup
  rw [foldl_attach]
  cases hget : tagged.get key with
  | none =>
    have hnot : key ∉ ((order.direct tagged.entries).map fun e => (e.1, sortedIdxs order slugs expand e)).map Prod.fst := by
      rw [hkeys, (hperm.map Prod.fst).mem_iff]
      intro hmem
      obtain ⟨⟨k, sis⟩, he, rfl⟩ := List.mem_map.mp hmem
      rw [JsMap.mem_entries, hget] at he
      cases he
    rw [JsMap.get_foldl_set_of_notMem hnot]
    rfl
  | some sis =>
    apply JsMap.get_foldl_set (by rw [hkeys]; exact hnodup)
    exact List.mem_map.mpr ⟨(key, sis), hperm.mem_iff.mpr (JsMap.mem_entries.mpr hget), rfl⟩

theorem resolve_sorted {slugs : List Text} (hslugs : slugs.Nodup) {idxs : List ℕ} (hnodup : idxs.Nodup) :
    ((idxs.insertionSort fun a b => slugs.getD a [] ≤ slugs.getD b []).filterMap (slugs[·]?)).Pairwise (· < ·) := by
  have hsorted : (idxs.insertionSort fun a b => slugs.getD a [] ≤ slugs.getD b []).Pairwise
      fun a b => slugs.getD a [] ≤ slugs.getD b [] :=
    HeadSort.pairwise_insertionSort (fun a _ b _ => le_total _ _) fun a _ b _ c _ => le_trans
  have hdistinct := (List.perm_insertionSort (fun a b => slugs.getD a [] ≤ slugs.getD b []) idxs).nodup_iff.mpr hnodup
  refine List.Pairwise.filterMap _ ?_ (hsorted.and hdistinct)
  intro a b hab slug hslug slug' hslug'
  have hle : slugs.getD a [] ≤ slugs.getD b [] := hab.1
  rw [List.getD_eq_getElem?_getD, List.getD_eq_getElem?_getD, hslug, hslug'] at hle
  refine lt_of_le_of_ne hle ?_
  intro heq
  have hsame : slug = slug' := heq
  rw [hsame] at hslug
  exact hab.2 (nodup_get_inj hslugs hslug hslug')

theorem internAll_get {slugs more : List Text} {i : ℕ} {slug : Text} (h : more[i]? = some slug) :
    (internAll slugs more).1[(internAll slugs more).2.getD i 0]? = some slug := by
  have hnames := congrArg (fun l => l[i]?) (internAll_spec slugs more).2
  simp only [List.getElem?_map, h, Option.map_some] at hnames
  rw [List.getD_eq_getElem?_getD]
  cases hidx : (internAll slugs more).2[i]? with
  | none =>
    rw [hidx] at hnames
    cases hnames
  | some j =>
    rw [hidx] at hnames
    exact Option.some.inj hnames

theorem finishInto_slugsOf (key : Text) : (acc.finishInto order kind data).slugsOf kind key =
    ((acc.direct kind).get key).map fun sis =>
      (sortedIdxs order (internAll data.slugs (linksOf order acc).1).1
        (expanded (linksOf order acc).2 (internAll data.slugs (linksOf order acc).1).2) (key, sis)).filterMap
          ((internAll data.slugs (linksOf order acc).1).1[·]?) := by
  have hget := @get_attach order (internAll data.slugs (linksOf order acc).1).1
    (expanded (linksOf order acc).2 (internAll data.slugs (linksOf order acc).1).2) (acc.direct kind) key
  have hbuilt : (if kind = .oracle then (acc.finishInto order kind data).oracle
      else (acc.finishInto order kind data).art) = (order.direct (acc.direct kind).entries).foldl
        (attach order (internAll data.slugs (linksOf order acc).1).1
          (expanded (linksOf order acc).2 (internAll data.slugs (linksOf order acc).1).2)) .empty := by
    cases kind with
    | oracle => rfl
    | art => rfl
  rw [TagData.slugsOf, hbuilt, hget, Option.map_map]
  rfl

theorem slugsOf_finishInto (hfolded : acc.slugs.Nodup)
    (hrange : ∀ kind key, ∀ si ∈ (((acc.direct kind).get key).getD []), si < acc.slugs.length) {key : Text} {sis : List ℕ}
    (hget : (acc.direct kind).get key = some sis) :
    ∃ slugs, (acc.finishInto order kind data).slugsOf kind key = some slugs ∧ slugs.Pairwise (· < ·) ∧
      ∀ q, q ∈ slugs ↔ ∃ si ∈ sis, ∃ slug, acc.slugs[si]? = some slug ∧
        Relation.ReflTransGen (TextEdge (linksOf order acc)) slug q := by
  have hlinked : Linked acc.uuidToSlug acc.slugs (order.parents acc.parentUuids.entries) (linksOf order acc) :=
    linked_foldl hfolded _
  rw [finishInto_slugsOf, hget]
  refine ⟨_, rfl, ?_, ?_⟩
  · apply resolve_sorted (nodup_internAll data.nodup _)
    exact (order.scratch_perm key _).nodup_iff.mpr JsSet.nodup_of
  · intro q
    -- an index in the list is the shared one of an index an own slug reaches
    have hmem : ∀ i, i ∈ sortedIdxs order (internAll data.slugs (linksOf order acc).1).1
        (expanded (linksOf order acc).2 (internAll data.slugs (linksOf order acc).1).2) (key, sis) ↔
          ∃ si ∈ sis, ∃ k, Relation.ReflTransGen (graphOf (linksOf order acc).2).Edge si k ∧
            (internAll data.slugs (linksOf order acc).1).2.getD k 0 = i := by
      intro i
      rw [sortedIdxs, (List.perm_insertionSort _ _).mem_iff, (order.scratch_perm key _).mem_iff, JsSet.mem_of,
        List.mem_flatMap]
      simp only [expanded, List.mem_map, List.mem_cons, Graph.mem_walk_iff]
    rw [List.mem_filterMap]
    constructor
    · rintro ⟨i, hi, hq⟩
      obtain ⟨si, hsi, k, hreach, rfl⟩ := (hmem i).mp hi
      have hlt := hrange kind key si (by rw [hget]; exact hsi)
      have hslug := get_of_starts hlinked.starts (List.getElem?_eq_getElem hlt)
      obtain ⟨name, hname⟩ := reach_named hlinked hslug hreach
      have hshared := @internAll_get data.slugs _ k name hname
      rw [hq] at hshared
      cases hshared
      exact ⟨si, hsi, _, List.getElem?_eq_getElem hlt, (reach_text hlinked hslug).mp ⟨k, hreach, hname⟩⟩
    · rintro ⟨si, hsi, slug, hslug, hreach⟩
      obtain ⟨k, hk, hq⟩ := (reach_text hlinked (get_of_starts hlinked.starts hslug)).mpr hreach
      exact ⟨_, (hmem _).mpr ⟨si, hsi, k, hk, rfl⟩, internAll_get hq⟩

end Finish

/-! ## Orders -/

section Orders

variable {recs : List TagRecord} {order : HashOrder}

def Made (recs : List TagRecord) (order : HashOrder) (slug parent : Text) : Prop :=
  TextEdge (linksOf order (.ofRecords recs)) slug parent

theorem mem_parents (recs : List TagRecord) (e : Text × List Text) :
    e ∈ (ofRecords recs).parentUuids.entries ↔ ((latest recs e.1).map TagRecord.parentIds) = some e.2 := by
  obtain ⟨id, parents⟩ := e
  rw [JsMap.mem_entries, (ofRecords_spec recs).1.parents]

theorem parentsOf_entry {e : Text × List Text} (h : e ∈ (ofRecords recs).parentUuids.entries) :
    e.2.filterMap (ofRecords recs).uuidToSlug.get = parentsOf recs e.1 := by
  have hget : (ofRecords recs).uuidToSlug.get = slugOf recs :=
    funext (ofRecords_spec recs).1.slugs
  rw [parentsOf, (mem_parents recs e).mp h, hget]
  rfl

theorem linked_of (recs : List TagRecord) (order : HashOrder) : Linked (ofRecords recs).uuidToSlug (ofRecords recs).slugs
      (order.parents (ofRecords recs).parentUuids.entries) (linksOf order (.ofRecords recs)) :=
  linked_foldl (ofRecords_spec recs).2.nodup _

theorem link_of_made {slug parent : Text} (h : Made recs order slug parent) : Link recs slug parent := by
  obtain ⟨pre, e, post, hes, hslug, hparent, -⟩ := textEdge_last (linked_of recs order) h
  have he : e ∈ (ofRecords recs).parentUuids.entries :=
    (order.parents_perm _).mem_iff.mp (by simp [hes])
  rw [parentsOf_entry he] at hparent
  rw [(ofRecords_spec recs).1.slugs] at hslug
  exact ⟨e.1, hslug, hparent⟩

theorem made_of_id {slug : Text} (h : ∃ id, slugOf recs id = some slug) :
    ∃ id, slugOf recs id = some slug ∧ ∀ parent ∈ parentsOf recs id, Made recs order slug parent := by
  obtain ⟨id, hid⟩ := h
  have hlatest : ∃ r, latest recs id = some r := by
    cases hlatest : latest recs id with
    | none =>
      rw [slugOf, hlatest] at hid
      cases hid
    | some r => exact ⟨r, rfl⟩
  obtain ⟨r, hr⟩ := hlatest
  have he : (id, r.parentIds) ∈ order.parents (ofRecords recs).parentUuids.entries :=
    (order.parents_perm _).mem_iff.mpr ((mem_parents recs _).mpr (by rw [hr]; rfl))
  obtain ⟨e, he', hslug, hall⟩ := textEdge_of (linked_of recs order) he
    (by rw [(ofRecords_spec recs).1.slugs]; exact hid)
  have hentry := (order.parents_perm _).mem_iff.mp he'
  rw [parentsOf_entry hentry] at hall
  rw [(ofRecords_spec recs).1.slugs] at hslug
  exact ⟨e.1, hslug, hall⟩

/-- What is met by any one id of each slug is met by the ids a finish takes. Induction on `Sure`. -/
theorem reach_of_sure {slug q : Text} (h : Sure recs q slug) : Relation.ReflTransGen (Made recs order) slug q := by
  induction h with
  | here => exact .refl
  | up next hid hnext _ ih =>
    obtain ⟨id, hid', hall⟩ := @made_of_id recs order _ hid
    exact (ih id hid').head (hall _ (hnext id hid'))

/-- An id of a slug that is not sure to meet `q`, and none of whose parents is. -/
def Losing (recs : List TagRecord) (q : Text) (e : Text × List Text) : Prop :=
  ∃ slug, slugOf recs e.1 = some slug ∧ ¬ Sure recs q slug ∧ ∀ parent ∈ parentsOf recs e.1, ¬ Sure recs q parent

/-- Every slug not sure to meet `q` has a losing id, if it has one. -/
theorem exists_losing {slug q : Text} (hsure : ¬ Sure recs q slug) {id : Text} (hid : slugOf recs id = some slug) :
    ∃ id, slugOf recs id = some slug ∧ ∀ parent ∈ parentsOf recs id, ¬ Sure recs q parent := by
  by_contra hnone
  push Not at hnone
  -- otherwise each id has a parent to go on with
  have hchoice : ∀ id, ∃ parent, slugOf recs id = some slug → parent ∈ parentsOf recs id ∧ Sure recs q parent := by
    intro id
    by_cases hid : slugOf recs id = some slug
    · obtain ⟨parent, hparent⟩ := hnone id hid
      exact ⟨parent, fun _ => hparent⟩
    · exact ⟨[], fun hid' => absurd hid' hid⟩
  choose next hnext using hchoice
  exact hsure (.up next ⟨id, hid⟩ (fun id hid => (hnext id hid).1) fun id hid => (hnext id hid).2)

open Classical in
noncomputable def losingLast (recs : List TagRecord) (q : Text) : HashOrder where
  parents es := es.filter (fun e => ¬ Losing recs q e) ++ es.filter fun e => Losing recs q e
  aliases es := es
  direct es := es
  scratch _ es := es
  parents_perm es := by
    refine (List.perm_append_comm).trans ?_
    have hperm := List.filter_append_perm (fun e => decide (Losing recs q e)) es
    simpa using hperm
  aliases_perm _ := .refl _
  direct_perm _ := .refl _
  scratch_perm _ _ := .refl _

theorem losingLast_pairwise (q : Text) (es : List (Text × List Text)) :
    ((losingLast recs q).parents es).Pairwise fun e e' => Losing recs q e → Losing recs q e' := by
  rw [losingLast, List.pairwise_append]
  refine ⟨?_, ?_, ?_⟩
  · apply List.Pairwise.imp_of_mem _ (List.pairwise_of_forall fun _ _ => trivial)
    intro e e' he _ _ hlosing
    exact absurd hlosing (by simpa using (List.mem_filter.mp he).2)
  · apply List.Pairwise.imp_of_mem _ (List.pairwise_of_forall fun _ _ => trivial)
    intro e e' _ he' _ _
    simpa using (List.mem_filter.mp he').2
  · intro e _ e' he' _
    simpa using (List.mem_filter.mp he').2

/-- With the losing ids last, what is not sure to meet `q` links to nothing that is. -/
theorem losing_made {slug parent q : Text} (hsure : ¬ Sure recs q slug) (h : Made recs (losingLast recs q) slug parent) :
    ¬ Sure recs q parent := by
  obtain ⟨pre, e, post, hes, hslug, hparent, hlast⟩ := textEdge_last (linked_of recs (losingLast recs q)) h
  have hget := (ofRecords_spec recs).1.slugs
  have he : e ∈ (ofRecords recs).parentUuids.entries :=
    ((losingLast recs q).parents_perm _).mem_iff.mp (by simp [hes])
  rw [parentsOf_entry he] at hparent
  rw [hget] at hslug
  obtain ⟨id, hid, hlosing⟩ := exists_losing hsure hslug
  -- the last id of the slug is a losing one
  have hlatest : ∃ r, latest recs id = some r := by
    cases hlatest : latest recs id with
    | none =>
      rw [slugOf, hlatest] at hid
      cases hid
    | some r => exact ⟨r, rfl⟩
  obtain ⟨r, hr⟩ := hlatest
  have hbad : Losing recs q (id, r.parentIds) := ⟨slug, hid, hsure, hlosing⟩
  have hmem : (id, r.parentIds) ∈ (losingLast recs q).parents (ofRecords recs).parentUuids.entries :=
    ((losingLast recs q).parents_perm _).mem_iff.mpr ((mem_parents recs _).mpr (by rw [hr]; rfl))
  have hpairwise := @losingLast_pairwise recs q (ofRecords recs).parentUuids.entries
  rw [hes] at hmem hpairwise
  have hlose : Losing recs q e := by
    rcases List.mem_append.mp hmem with hpre | hpost
    · exact (List.pairwise_append.mp hpairwise).2.2 _ hpre e (by simp) hbad
    · rcases List.mem_cons.mp hpost with heq | hpost
      · rwa [← heq]
      · exact absurd (by rw [hget]; exact hid) (hlast _ hpost)
  obtain ⟨-, -, -, hnot⟩ := hlose
  exact hnot parent hparent

theorem losing_reach {slug q : Text} (hsure : ¬ Sure recs q slug)
    (h : Relation.ReflTransGen (Made recs (losingLast recs q)) slug q) : False := by
  have hall : ∀ p, Relation.ReflTransGen (Made recs (losingLast recs q)) slug p → ¬ Sure recs q p := by
    intro p hreach
    induction hreach with
    | refl => exact hsure
    | tail _ hedge ih => exact losing_made ih hedge
  exact hall q h .here

end Orders

/-! ## The closure -/

section Closure

variable {ω : Type}

/-- A finish gives every tagged id, and no other, the slugs that tag it with all their
ancestors, sorted, whatever the order. -/
def Closes (ω : Type) (recs : List TagRecord) (kind : TagKind) : Prop :=
  ∀ (order : HashOrder) (data : TagData ω), (∀ key, (∃ slug, Own recs kind key slug) →
      ∃ slugs, ((ofRecords recs).finishInto order kind data).slugsOf kind key = some slugs ∧ slugs.Pairwise (· < ·) ∧
        ∀ q, q ∈ slugs ↔ ∃ slug, Own recs kind key slug ∧ Relation.ReflTransGen (Link recs) slug q) ∧
    (∀ key, (¬ ∃ slug, Own recs kind key slug) → ((ofRecords recs).finishInto order kind data).slugsOf kind key = none) ∧
    ∀ order' key, ((ofRecords recs).finishInto order' kind data).slugsOf kind key =
      ((ofRecords recs).finishInto order kind data).slugsOf kind key

theorem slugsOf_made (recs : List TagRecord) (kind : TagKind) (order : HashOrder) (data : TagData ω) (key : Text) :
    ((∃ slug, Own recs kind key slug) →
      ∃ slugs, ((ofRecords recs).finishInto order kind data).slugsOf kind key = some slugs ∧ slugs.Pairwise (· < ·) ∧
        ∀ q, q ∈ slugs ↔ ∃ slug, Own recs kind key slug ∧ Relation.ReflTransGen (Made recs order) slug q) ∧
    ((¬ ∃ slug, Own recs kind key slug) → ((ofRecords recs).finishInto order kind data).slugsOf kind key = none) := by
  have hfolded := (ofRecords_spec recs).2
  cases hget : ((ofRecords recs).direct kind).get key with
  | none =>
    refine ⟨?_, ?_⟩
    · rintro ⟨slug, hown⟩
      obtain ⟨si, hsi, -⟩ := (hfolded.owns kind key slug).mpr hown
      rw [hget] at hsi
      cases hsi
    · intro _
      rw [finishInto_slugsOf, hget]
      rfl
  | some sis =>
    refine ⟨?_, ?_⟩
    · intro _
      obtain ⟨slugs, hslugs, hsorted, hmem⟩ := @slugsOf_finishInto ω order _ data kind hfolded.nodup hfolded.inRange key sis hget
      refine ⟨slugs, hslugs, hsorted, ?_⟩
      intro q
      rw [hmem]
      constructor
      · rintro ⟨si, hsi, slug, hslug, hreach⟩
        exact ⟨slug, (hfolded.owns kind key slug).mp ⟨si, by rw [hget]; exact hsi, hslug⟩, hreach⟩
      · rintro ⟨slug, hown, hreach⟩
        obtain ⟨si, hsi, hslug⟩ := (hfolded.owns kind key slug).mpr hown
        rw [hget] at hsi
        exact ⟨si, hsi, slug, hslug, hreach⟩
    · intro hnone
      obtain ⟨si, hsi⟩ := List.exists_mem_of_ne_nil sis (hfolded.filled kind key sis hget)
      have hlt := hfolded.inRange kind key si (by rw [hget]; exact hsi)
      exact absurd ⟨_, (hfolded.owns kind key _).mp ⟨si, by rw [hget]; exact hsi, List.getElem?_eq_getElem hlt⟩⟩ hnone

theorem eq_of_strictly_sorted {l l' : List Text} (h : l.Pairwise (· < ·)) (h' : l'.Pairwise (· < ·))
    (hmem : ∀ q, q ∈ l ↔ q ∈ l') : l = l' := by
  have hperm : l.Perm l' :=
    (List.perm_ext_iff_of_nodup (h.imp fun hlt => hlt.ne) (h'.imp fun hlt => hlt.ne)).mpr hmem
  refine List.Perm.eq_of_pairwise ?_ h h' hperm
  intro a b _ _ hab hba
  exact absurd (hab.trans hba) (lt_irrefl a)

/-- **The closure holds exactly when no order can lose an ancestor.** -/
theorem closes_iff_settled (ω : Type) (recs : List TagRecord) (kind : TagKind) : Closes ω recs kind ↔ Settled recs kind := by
  constructor
  · intro hcloses key q hreach
    by_contra hnone
    push Not at hnone
    obtain ⟨slug, hown, hlink⟩ := hreach
    obtain ⟨hall, -, -⟩ := hcloses (losingLast recs q) .empty
    obtain ⟨slugs, hslugs, -, hmem⟩ := hall key ⟨slug, hown⟩
    obtain ⟨slugs', hslugs', -, hmem'⟩ :=
      (@slugsOf_made ω recs kind (losingLast recs q) .empty key).1 ⟨slug, hown⟩
    rw [hslugs] at hslugs'
    cases hslugs'
    obtain ⟨slug', hown', hmade⟩ := (hmem' q).mp ((hmem q).mpr ⟨slug, hown, hlink⟩)
    exact losing_reach (hnone slug' hown') hmade
  · intro hsettled
    -- whatever the order, the links made lead where the dump's lead
    have hreach : ∀ order key q, (∃ slug, Own recs kind key slug ∧ Relation.ReflTransGen (Made recs order) slug q) ↔
        ∃ slug, Own recs kind key slug ∧ Relation.ReflTransGen (Link recs) slug q := by
      intro order key q
      constructor
      · rintro ⟨slug, hown, hmade⟩
        exact ⟨slug, hown, Relation.ReflTransGen.mono (fun _ _ => link_of_made) slug q hmade⟩
      · intro hlink
        obtain ⟨slug, hown, hsure⟩ := hsettled key q hlink
        exact ⟨slug, hown, reach_of_sure hsure⟩
    intro order data
    refine ⟨?_, fun key => (slugsOf_made recs kind order data key).2, ?_⟩
    · intro key hown
      obtain ⟨slugs, hslugs, hsorted, hmem⟩ := (slugsOf_made recs kind order data key).1 hown
      exact ⟨slugs, hslugs, hsorted, fun q => (hmem q).trans (hreach order key q)⟩
    · intro order' key
      by_cases hown : ∃ slug, Own recs kind key slug
      · obtain ⟨slugs, hslugs, hsorted, hmem⟩ := (slugsOf_made recs kind order data key).1 hown
        obtain ⟨slugs', hslugs', hsorted', hmem'⟩ := (slugsOf_made recs kind order' data key).1 hown
        rw [hslugs, hslugs', eq_of_strictly_sorted hsorted' hsorted fun q =>
          ((hmem' q).trans (hreach order' key q)).trans ((hmem q).trans (hreach order key q)).symm]
      · rw [(slugsOf_made recs kind order data key).2 hown, (slugsOf_made recs kind order' data key).2 hown]

end Closure

/-! ## A slug under two ids -/

def inOrder : HashOrder where
  parents es := es
  aliases es := es
  direct es := es
  scratch _ es := es
  parents_perm _ := .refl _
  aliases_perm _ := .refl _
  direct_perm _ := .refl _
  scratch_perm _ _ := .refl _

def backwards : HashOrder where
  parents es := es.reverse
  aliases es := es
  direct es := es
  scratch _ es := es
  parents_perm _ := List.reverse_perm _
  aliases_perm _ := .refl _
  direct_perm _ := .refl _
  scratch_perm _ _ := .refl _

/-- The slug `a` stands under the ids `1` and `2`, with a parent of its own each. -/
def twoIds : List TagRecord :=
  [⟨some ['1'], some ['a'], [['3']], [], [⟨some ['o'], none⟩]⟩, ⟨some ['2'], some ['a'], [['4']], [], []⟩,
   ⟨some ['3'], some ['b'], [], [], []⟩,
   ⟨some ['4'], some ['c'], [], [], []⟩]

theorem expanded_third {links : JsMap ℕ (List ℕ)} (hfirst : links.get 0 = some [2]) (hthird : links.get 2 = some []) :
    expanded links [0, 1, 2] 0 = [0, 2] := by
  simp [expanded, Graph.walk, Graph.pushed, graphOf, hfirst, hthird]

theorem slugsOf_twoIds {order : HashOrder} {slugs : List Text}
    (hscratch : order.scratch = fun _ es => es)
    (hshared : internAll [] (linksOf order (ofRecords twoIds)).1 = (slugs, [0, 1, 2]))
    (hfirst : (linksOf order (ofRecords twoIds)).2.get 0 = some [2])
    (hthird : (linksOf order (ofRecords twoIds)).2.get 2 = some []) :
    ((ofRecords twoIds).finishInto order .oracle (.empty : TagData Unit)).slugsOf .oracle ['o'] =
      some (([0, 2].insertionSort fun a b => slugs.getD a [] ≤ slugs.getD b []).filterMap (slugs[·]?)) := by
  have hdirect : ((ofRecords twoIds).direct .oracle).get ['o'] = some [0] := by rfl
  have hslugs : (TagData.empty : TagData Unit).slugs = [] := by rfl
  rw [finishInto_slugsOf, hdirect, hslugs, hshared, Option.map_some, sortedIdxs, hscratch]
  simp only [List.flatMap_cons, List.flatMap_nil, List.append_nil, expanded_third hfirst hthird]
  rfl

theorem two_ids_lose_a_parent :
    ((ofRecords twoIds).finishInto inOrder .oracle (.empty : TagData Unit)).slugsOf .oracle ['o'] =
        some [['a'], ['c']] ∧
      ((ofRecords twoIds).finishInto backwards .oracle (.empty : TagData Unit)).slugsOf .oracle ['o'] =
        some [['a'], ['b']] ∧
      ¬ Closes Unit twoIds .oracle := by
  have hfirst : ((ofRecords twoIds).finishInto inOrder .oracle (.empty : TagData Unit)).slugsOf .oracle ['o'] =
      some [['a'], ['c']] := by
    rw [@slugsOf_twoIds inOrder [['a'], ['b'], ['c']] rfl (by decide) (by decide) (by decide)]
    decide
  have hlast : ((ofRecords twoIds).finishInto backwards .oracle (.empty : TagData Unit)).slugsOf .oracle ['o'] =
      some [['a'], ['b']] := by
    rw [@slugsOf_twoIds backwards [['a'], ['c'], ['b']] rfl (by decide) (by decide) (by decide)]
    decide
  refine ⟨hfirst, hlast, ?_⟩
  intro hcloses
  have hsame := (hcloses inOrder .empty).2.2 backwards ['o']
  rw [hfirst, hlast] at hsame
  exact absurd hsame (by decide)

end Tags
