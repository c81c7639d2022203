-- SUMMARY: Insertion-ordered maps and sets (JavaScript's `Map` and `Set`), and sums over grouped entries.
import Mathlib.Algebra.BigOperators.Group.List.Basic
import Mathlib.Algebra.Ring.Int.Defs
import Mathlib.Data.List.Basic
import Mathlib.Data.List.Nodup
import Sylvan.Data.Members

/-!
# Insertion-ordered maps

A `Map` iterates in the order its keys were first set; setting a present key
keeps its place. A map is the list of its entries, no key twice.
-/

structure JsMap (κ α : Type*) [DecidableEq κ] where
  entries : List (κ × α)
  nodup : (entries.map Prod.fst).Nodup

namespace JsMap

variable {κ α : Type*} [DecidableEq κ]

/-! ## Reading and writing entry lists -/

/-- The value of the entry at `k`. -/
def lookup (k : κ) : List (κ × α) → Option α
  | [] => none
  | (k', v) :: es => if k' = k then some v else lookup k es

/-- Replace the value at `k` where it stands, or append a new entry. -/
def insertAt (k : κ) (v : α) : List (κ × α) → List (κ × α)
  | [] => [(k, v)]
  | (k', v') :: es => if k' = k then (k, v) :: es else (k', v') :: insertAt k v es

attribute [local simp] lookup insertAt

variable {es : List (κ × α)}

variable {v : α}

theorem mem_keys_insertAt {k x : κ} : x ∈ (insertAt k v es).map Prod.fst ↔ x = k ∨ x ∈ es.map Prod.fst := by
  induction es with
  | nil => simp
  | cons e es ih =>
    obtain ⟨k', v'⟩ := e
    by_cases h : k' = k
    · subst h
      simp
    · simp only [insertAt, h, if_false, List.map_cons, List.mem_cons, ih]
      tauto

variable {k : κ}

theorem nodup_insertAt (h : (es.map Prod.fst).Nodup) : ((insertAt k v es).map Prod.fst).Nodup := by
  induction es with
  | nil => simp
  | cons e es ih =>
    obtain ⟨k', v'⟩ := e
    simp only [List.map_cons, List.nodup_cons] at h
    by_cases hk : k' = k
    · subst hk
      simpa using h
    · simp only [insertAt, hk, if_false, List.map_cons, List.nodup_cons]
      refine ⟨fun hmem => ?_, ih h.2⟩
      rcases mem_keys_insertAt.mp hmem with hkk | hin
      · exact hk hkk
      · exact h.1 hin

theorem lookup_insertAt (k x : κ) (v : α) (es : List (κ × α)) :
    lookup x (insertAt k v es) = if k = x then some v else lookup x es := by
  induction es with
  | nil => simp
  | cons e es ih =>
    obtain ⟨k', v'⟩ := e
    by_cases hk : k' = k
    · subst hk
      by_cases hx : k' = x <;> simp [hx]
    · simp only [insertAt, hk, if_false, lookup, ih]
      by_cases hx : k' = x
      · subst hx
        simp [Ne.symm hk]
      · simp [hx]

theorem lookup_eq_some_iff (h : (es.map Prod.fst).Nodup) : lookup k es = some v ↔ (k, v) ∈ es := by
  induction es with
  | nil => simp
  | cons e es ih =>
    obtain ⟨k', v'⟩ := e
    simp only [List.map_cons, List.nodup_cons] at h
    by_cases hk : k' = k
    · subst hk
      have hnot : (k', v) ∉ es := fun hmem => h.1 (List.mem_map_of_mem (f := Prod.fst) hmem)
      simp [hnot, eq_comm]
    · simp [hk, Ne.symm hk, ih h.2]

theorem mem_of_lookup (h : lookup k es = some v) : (k, v) ∈ es := by
  induction es with
  | nil => cases h
  | cons e es ih =>
    obtain ⟨k', v'⟩ := e
    rw [lookup] at h
    split at h
    · rename_i hk
      obtain rfl := Option.some.inj h
      simp [hk]
    · exact List.mem_cons_of_mem _ (ih h)

theorem insertAt_of_lookup_eq_none (h : lookup k es = none) : insertAt k v es = es ++ [(k, v)] := by
  induction es with
  | nil => rfl
  | cons e es ih =>
    obtain ⟨k', v'⟩ := e
    rw [lookup] at h
    split at h
    · cases h
    · rename_i hk
      rw [insertAt, if_neg hk, ih h, List.cons_append]

/-! ## Maps -/

def empty : JsMap κ α := { entries := [], nodup := by simp }

def get (m : JsMap κ α) (k : κ) : Option α := lookup k m.entries

def set (m : JsMap κ α) (k : κ) (v : α) : JsMap κ α :=
  { entries := insertAt k v m.entries, nodup := nodup_insertAt m.nodup }

def update (m : JsMap κ α) (k : κ) (f : Option α → α) : JsMap κ α := m.set k (f (m.get k))

def keys (m : JsMap κ α) : List κ := m.entries.map Prod.fst

@[simp] theorem get_empty (k : κ) : (empty : JsMap κ α).get k = none := rfl

@[simp] theorem entries_empty : (empty : JsMap κ α).entries = [] := rfl

theorem get_set (m : JsMap κ α) (k x : κ) (v : α) : (m.set k v).get x = if k = x then some v else m.get x :=
  lookup_insertAt k x v m.entries

theorem get_update (m : JsMap κ α) (k x : κ) (f : Option α → α) :
    (m.update k f).get x = if k = x then some (f (m.get k)) else m.get x :=
  get_set m k x _

theorem mem_entries {m : JsMap κ α} : (k, v) ∈ m.entries ↔ m.get k = some v :=
  (lookup_eq_some_iff m.nodup).symm

theorem get_foldl_set_of_notMem (h : k ∉ es.map Prod.fst)
    (m : JsMap κ α) : (es.foldl (fun m e => m.set e.1 e.2) m).get k = m.get k := by
  induction es generalizing m with
  | nil => rfl
  | cons e es ih =>
    rw [List.map_cons, List.mem_cons, not_or] at h
    rw [List.foldl_cons, ih h.2, get_set, if_neg (Ne.symm h.1)]

/-- Every value through `f`, the entries where they stand. -/
def mapValues {β : Type*} (f : α → β) (m : JsMap κ α) : JsMap κ β :=
  { entries := m.entries.map fun e => (e.1, f e.2)
    nodup := by
      rw [List.map_map]
      exact m.nodup }

theorem get_mapValues {β : Type*} (f : α → β) (m : JsMap κ α) (k : κ) : (m.mapValues f).get k = (m.get k).map f := by
  have hlookup : ∀ es : List (κ × α), lookup k (es.map fun e => (e.1, f e.2)) = (lookup k es).map f := by
    intro es
    induction es with
    | nil => rfl
    | cons e es ih =>
      obtain ⟨k', v⟩ := e
      rw [List.map_cons, lookup, lookup, ih]
      split <;> rfl
  exact hlookup m.entries

/-- Every value through `f` with its key, the entries where they stand. -/
def mapKeyed {β : Type*} (f : κ → α → β) (m : JsMap κ α) : JsMap κ β :=
  { entries := m.entries.map fun e => (e.1, f e.1 e.2)
    nodup := by
      rw [List.map_map]
      exact m.nodup }

theorem get_mapKeyed {β : Type*} (f : κ → α → β) (m : JsMap κ α) (k : κ) : (m.mapKeyed f).get k = (m.get k).map (f k) := by
  ext v
  rw [← mem_entries, Option.map_eq_some_iff]
  simp only [mapKeyed, List.mem_map, Prod.mk.injEq, Prod.exists, mem_entries]
  constructor
  · rintro ⟨k', w, hget, rfl, rfl⟩
    exact ⟨w, hget, rfl⟩
  · rintro ⟨w, hget, rfl⟩
    exact ⟨k, w, hget, rfl, rfl⟩

theorem mapValues_set {β : Type*} (f : α → β) (m : JsMap κ α) (k : κ) (v : α) :
    (m.set k v).mapValues f = (m.mapValues f).set k (f v) := by
  have hinsert : ∀ es : List (κ × α), (insertAt k v es).map (fun e => (e.1, f e.2)) =
      insertAt k (f v) (es.map fun e => (e.1, f e.2)) := by
    intro es
    induction es with
    | nil => rfl
    | cons e es ih =>
      obtain ⟨k', v'⟩ := e
      rw [List.map_cons, insertAt, insertAt]
      split
      · rfl
      · rw [List.map_cons, ih]
  simp only [mapValues, set, hinsert]

theorem get_foldl_set (hnodup : (es.map Prod.fst).Nodup)
    (h : (k, v) ∈ es) (m : JsMap κ α) :
    (es.foldl (fun m e => m.set e.1 e.2) m).get k = some v := by
  induction es generalizing m with
  | nil => cases h
  | cons e es ih =>
    rw [List.map_cons, List.nodup_cons] at hnodup
    rw [List.foldl_cons]
    rcases List.mem_cons.mp h with rfl | h
    · rw [get_foldl_set_of_notMem hnodup.1, get_set, if_pos rfl]
    · exact ih hnodup.2 h _

theorem get_foldl_set_const (keys : List κ) (v : α) (m : JsMap κ α) (k : κ) :
    (keys.foldl (fun m key => m.set key v) m).get k = if k ∈ keys then some v else m.get k := by
  induction keys generalizing m with
  | nil => rfl
  | cons key keys ih =>
    rw [List.foldl_cons, ih, get_set]
    by_cases hmem : k ∈ keys
    · simp [hmem]
    · by_cases hkey : key = k
      · simp [hkey]
      · simp [hmem, hkey, Ne.symm hkey]

theorem mem_keys {m : JsMap κ α} : k ∈ m.keys ↔ ∃ v, m.get k = some v := by
  simp only [keys, List.mem_map, ← mem_entries, Prod.exists, exists_and_right, exists_eq_right]

def filter (m : JsMap κ α) (p : κ → α → Bool) : JsMap κ α :=
  { entries := m.entries.filter fun e => p e.1 e.2
    nodup := m.nodup.sublist (List.filter_sublist.map Prod.fst) }

theorem get_filter (m : JsMap κ α) (p : κ → α → Bool) (k : κ) : (m.filter p).get k = (m.get k).filter (p k) := by
  ext v
  rw [← mem_entries, Option.filter_eq_some_iff, ← mem_entries]
  simp [filter]

/-! ## Sums over the entries

A map that groups weighted things under keys is summed by group or thing by
thing: an update changes the sum by what it changes at its own key. -/

/-- The weights of the entries whose key satisfies `p`. -/
def sumWhere (p : κ → Bool) (weight : α → ℤ) (m : JsMap κ α) : ℤ :=
  ((m.entries.filter fun e => p e.1).map fun e => weight e.2).sum

private theorem sum_insertAt (p : κ → Bool) (weight : α → ℤ) (k : κ) (v : α)
    (es : List (κ × α)) :
    (((insertAt k v es).filter fun e => p e.1).map fun e => weight e.2).sum =
      ((es.filter fun e => p e.1).map fun e => weight e.2).sum +
        if p k then weight v - ((lookup k es).map weight).getD 0 else 0 := by
  induction es with
  | nil => by_cases hp : p k <;> simp [hp]
  | cons e es ih =>
    obtain ⟨k', v'⟩ := e
    by_cases hk : k' = k
    · subst hk
      by_cases hp : p k'
      · simp only [insertAt, lookup, hp, if_true, List.filter_cons_of_pos, List.map_cons,
          List.sum_cons, Option.map_some, Option.getD_some]
        omega
      · simp [hp]
    · by_cases hp' : p k' <;> simp [hk, hp', ih, add_assoc]

theorem sumWhere_update (p : κ → Bool) (weight : α → ℤ) (m : JsMap κ α) (k : κ)
    (f : Option α → α) :
    (m.update k f).sumWhere p weight = m.sumWhere p weight +
        if p k then weight (f (m.get k)) - ((m.get k).map weight).getD 0 else 0 :=
  sum_insertAt p weight k (f (m.get k)) m.entries

end JsMap

/-! ## Sets -/

/-- A `Set`: its members in the order they were first added. -/
abbrev JsSet (κ : Type*) : Type _ := List κ

namespace JsSet

variable {κ : Type*} [DecidableEq κ]

def add (s : JsSet κ) (k : κ) : JsSet κ := if k ∈ s then s else s ++ [k]

theorem mem_add {s : JsSet κ} {k x : κ} : x ∈ s.add k ↔ x ∈ s ∨ x = k := by
  unfold add
  split
  · rename_i hk
    refine ⟨.inl, ?_⟩
    rintro (h | rfl)
    · exact h
    · exact hk
  · simp

theorem nodup_add {s : JsSet κ} {k : κ} (h : s.Nodup) : (s.add k).Nodup := by
  unfold add
  split
  · exact h
  · rename_i hk
    exact List.Nodup.append h (List.nodup_singleton k) (by simpa using hk)

theorem mem_foldl_add {s ks : JsSet κ} {x : κ} : x ∈ ks.foldl add s ↔ x ∈ s ∨ x ∈ ks := by
  induction ks generalizing s with
  | nil => simp
  | cons k ks ih => rw [List.foldl_cons, ih, mem_add, List.mem_cons, or_assoc]

def of (xs : List κ) : JsSet κ := xs.foldl add []

theorem nodup_foldl_add {s ks : JsSet κ} (h : s.Nodup) : (ks.foldl add s).Nodup := by
  induction ks generalizing s with
  | nil => exact h
  | cons k ks ih => exact ih (nodup_add h)

theorem nodup_of {xs : List κ} : (of xs).Nodup := nodup_foldl_add List.nodup_nil

@[simp] theorem mem_of {xs : List κ} {x : κ} : x ∈ of xs ↔ x ∈ xs := by
  simp [of, mem_foldl_add]

theorem foldl_add_of_disjoint {s ks : JsSet κ} (h : (s ++ ks).Nodup) : ks.foldl add s = s ++ ks := by
  induction ks generalizing s with
  | nil => simp
  | cons k ks ih =>
    have hk : k ∉ s := fun hmem => (List.nodup_append.mp h).2.2 k hmem k List.mem_cons_self rfl
    have hadd : add s k = s ++ [k] := if_neg hk
    rw [List.foldl_cons, hadd, ih (by simpa using h), List.append_assoc, List.singleton_append]

theorem of_append {xs : List κ} (ys : List κ) (h : xs.Nodup) :
    ∃ more, of (xs ++ ys) = xs ++ more ∧ (∀ y ∈ more, y ∈ ys) ∧ ∀ y ∈ ys, y ∈ xs ∨ y ∈ more := by
  have hfold : ∀ (ys s : List κ), ∃ more, ys.foldl add s = s ++ more ∧ (∀ y ∈ more, y ∈ ys) ∧
      ∀ y ∈ ys, y ∈ s ∨ y ∈ more := by
    intro ys
    induction ys with
    | nil => exact fun s => ⟨[], by simp, by simp, by simp⟩
    | cons y ys ih =>
      intro s
      by_cases hy : y ∈ s
      · obtain ⟨more, hmore, hsub, hall⟩ := ih s
        refine ⟨more, ?_, fun z hz => List.mem_cons_of_mem y (hsub z hz), fun z hz => ?_⟩
        · rw [List.foldl_cons, show add s y = s from if_pos hy, hmore]
        · rcases List.mem_cons.mp hz with rfl | hz
          · exact .inl hy
          · exact hall z hz
      · obtain ⟨more, hmore, hsub, hall⟩ := ih (s ++ [y])
        refine ⟨y :: more, ?_, fun z hz => ?_, fun z hz => ?_⟩
        · rw [List.foldl_cons, show add s y = s ++ [y] from if_neg hy, hmore, List.append_assoc, List.singleton_append]
        · rcases List.mem_cons.mp hz with rfl | hz
          · exact List.mem_cons_self
          · exact List.mem_cons_of_mem y (hsub z hz)
        · rcases List.mem_cons.mp hz with rfl | hz
          · exact .inr List.mem_cons_self
          · rcases hall z hz with hz | hz
            · rcases List.mem_append.mp hz with hz | hz
              · exact .inl hz
              · exact .inr (by rw [List.mem_singleton.mp hz]; exact List.mem_cons_self)
            · exact .inr (List.mem_cons_of_mem y hz)
  have hxs : xs.foldl add [] = xs := foldl_add_of_disjoint (by simpa using h)
  obtain ⟨more, hmore, hsub, hall⟩ := hfold ys xs
  exact ⟨more, by rw [of, List.foldl_append, hxs, hmore], hsub, hall⟩

end JsSet
