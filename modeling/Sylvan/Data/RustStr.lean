-- SUMMARY: Rust's `str`: characters addressed by the bytes of their UTF-8.
import Sylvan.Data.Utf8

/-!
# Strings by byte offsets

A string is its characters; where one stands is the number of bytes before it. A slice
whose ends are not between two characters, or past the end, panics.
-/

namespace RustStr

open Utf8

def utf8 (s : List Char) : Bytes := s.flatMap encodeChar

def len (s : List Char) : ℕ := (utf8 s).length

/-- `std::str::from_utf8(bytes)`: the characters the bytes are the UTF-8 of. -/
def fromUtf8 (bytes : Bytes) : Option (List Char) :=
  if utf8 (decodeFrom ready bytes) = bytes then
    some (decodeFrom ready bytes)
  else none

/-- `&s[n..]`. -/
def sliceFrom : List Char → ℕ → Option (List Char)
  | s, 0 => some s
  | [], _ + 1 => none
  | c :: cs, n + 1 =>
    if (encodeChar c).length ≤ n + 1 then sliceFrom cs (n + 1 - (encodeChar c).length)
    else none

/-- `&s[..n]`. -/
def sliceTo : List Char → ℕ → Option (List Char)
  | _, 0 => some []
  | [], _ + 1 => none
  | c :: cs, n + 1 =>
    if (encodeChar c).length ≤ n + 1 then
      (sliceTo cs (n + 1 - (encodeChar c).length)).map (c :: ·)
    else none

/-- `&s[start..stop]`. -/
def slice (s : List Char) (start stop : ℕ) : Option (List Char) :=
  if start ≤ stop then (sliceFrom s start).bind (sliceTo · (stop - start)) else none

/-- `s.split(sep)` of a one-byte separator, each piece with where it starts; `start` is
where `s` does. -/
def pieces (sep : Char) (start : ℕ) : List Char → List (ℕ × List Char)
  | [] => [(start, [])]
  | c :: cs =>
    if c = sep then (start, []) :: pieces sep (start + 1) cs
    else
      match pieces sep (start + (encodeChar c).length) cs with
      | [] => [(start, [c])]
      | (_, piece) :: rest => (start, c :: piece) :: rest

/-- `s.split_terminator(sep)`. -/
def piecesTerminated (sep : Char) (start : ℕ) (s : List Char) : List (ℕ × List Char) :=
  if (pieces sep start s).getLast?.any (·.2.isEmpty) then (pieces sep start s).dropLast
  else pieces sep start s

/-- `s.rsplit_once(sep)`. -/
def rsplitOnce (sep : Char) : List Char → Option (List Char × List Char)
  | [] => none
  | c :: cs =>
    match rsplitOnce sep cs with
    | some (front, back) => some (c :: front, back)
    | none => if c = sep then some ([], cs) else none

/-! ## Lengths and slices -/

variable {s x w y : List Char}

theorem encodeChar_ne_nil (c : Char) : encodeChar c ≠ [] := by
  unfold encodeChar
  simp only
  split_ifs <;> exact List.cons_ne_nil _ _

theorem length_encodeChar_pos (c : Char) : 0 < (encodeChar c).length :=
  List.length_pos_of_ne_nil (encodeChar_ne_nil c)

@[simp] theorem len_nil : len [] = 0 := rfl

@[simp] theorem len_cons (c : Char) (s : List Char) : len (c :: s) = (encodeChar c).length + len s := by
  simp [len, utf8]

@[simp] theorem len_append (s t : List Char) : len (s ++ t) = len s + len t := by
  simp [len, utf8]

theorem eq_nil_of_len (h : len s = 0) : s = [] := by
  cases s with
  | nil => rfl
  | cons c s =>
    have hpos := length_encodeChar_pos c
    rw [len_cons] at h
    omega

theorem length_le_len (s : List Char) : s.length ≤ len s := by
  induction s with
  | nil => exact Nat.le_refl _
  | cons c s ih =>
    have hpos := length_encodeChar_pos c
    rw [List.length_cons, len_cons]
    omega

theorem len_newline : len ['\n'] = 1 := rfl

@[simp] theorem fromUtf8_utf8 (s : List Char) : fromUtf8 (utf8 s) = some s := by
  have htext : decodeFrom ready (utf8 s) = s := by
    induction s with
    | nil => rfl
    | cons c cs ih =>
      rw [utf8, List.flatMap_cons, decodeFrom_encodeChar]
      exact congrArg (c :: ·) ih
  rw [fromUtf8, htext, if_pos rfl]

theorem utf8_of_fromUtf8 {bytes : Bytes} (h : fromUtf8 bytes = some s) : utf8 s = bytes := by
  rw [fromUtf8] at h
  split at h
  · next hback =>
      obtain rfl := Option.some.inj h
      exact hback
  · cases h

theorem sliceFrom_append (x y : List Char) : sliceFrom (x ++ y) (len x) = some y := by
  induction x with
  | nil =>
    cases y with
    | nil => rfl
    | cons c y => rfl
  | cons c x ih =>
    obtain ⟨n, hn⟩ : ∃ n, (encodeChar c).length + len x = n + 1 :=
      ⟨_, (Nat.succ_pred_eq_of_pos (Nat.add_pos_left (length_encodeChar_pos c) _)).symm⟩
    have hrest : n + 1 - (encodeChar c).length = len x := by omega
    rw [len_cons, List.cons_append, hn, sliceFrom, if_pos (by omega), hrest, ih]

theorem sliceTo_append (x y : List Char) : sliceTo (x ++ y) (len x) = some x := by
  induction x with
  | nil =>
    cases y with
    | nil => rfl
    | cons c y => rfl
  | cons c x ih =>
    obtain ⟨n, hn⟩ : ∃ n, (encodeChar c).length + len x = n + 1 :=
      ⟨_, (Nat.succ_pred_eq_of_pos (Nat.add_pos_left (length_encodeChar_pos c) _)).symm⟩
    have hrest : n + 1 - (encodeChar c).length = len x := by omega
    rw [len_cons, List.cons_append, hn, sliceTo, if_pos (by omega), hrest, ih]
    rfl

theorem sliceFrom_eq_some {n : ℕ} (h : sliceFrom s n = some y) : ∃ x, s = x ++ y ∧ len x = n := by
  fun_induction sliceFrom s n with
  | case1 s =>
    obtain rfl := Option.some.inj h
    exact ⟨[], rfl, rfl⟩
  | case2 => cases h
  | case3 c cs n hle ih =>
    obtain ⟨x, rfl, hx⟩ := ih h
    refine ⟨c :: x, rfl, ?_⟩
    rw [len_cons, hx]
    omega
  | case4 => cases h

theorem sliceTo_eq_some {n : ℕ} (h : sliceTo s n = some w) : ∃ y, s = w ++ y ∧ len w = n := by
  fun_induction sliceTo s n generalizing w with
  | case1 s =>
    obtain rfl := Option.some.inj h
    exact ⟨s, rfl, rfl⟩
  | case2 => cases h
  | case3 c cs n hle ih =>
    obtain ⟨v, hv, rfl⟩ := Option.map_eq_some_iff.mp h
    obtain ⟨y, rfl, hy⟩ := ih hv
    refine ⟨y, rfl, ?_⟩
    rw [len_cons, hy]
    omega
  | case4 => cases h

theorem slice_eq_some {start stop : ℕ} : slice s start stop = some w ↔
      ∃ x y, s = x ++ (w ++ y) ∧ len x = start ∧ start + len w = stop := by
  constructor
  · intro h
    rw [slice] at h
    split at h
    · next hle =>
        obtain ⟨r, hr, hw⟩ := Option.bind_eq_some_iff.mp h
        obtain ⟨x, rfl, hx⟩ := sliceFrom_eq_some hr
        obtain ⟨y, rfl, hlen⟩ := sliceTo_eq_some hw
        exact ⟨x, y, rfl, hx, by omega⟩
    · cases h
  · rintro ⟨x, y, rfl, rfl, rfl⟩
    rw [slice, if_pos (Nat.le_add_right _ _), sliceFrom_append, Option.bind_some, Nat.add_sub_cancel_left, sliceTo_append]

theorem slice_append_right {start stop : ℕ} (h : slice s start stop = some w) (t : List Char) :
    slice (s ++ t) start stop = some w := by
  obtain ⟨x, y, rfl, hx, hw⟩ := slice_eq_some.mp h
  exact slice_eq_some.mpr ⟨x, y ++ t, by simp, hx, hw⟩

/-! ## Pieces -/

variable {sep : Char} {start : ℕ}

theorem pieces_cons (sep : Char) (start : ℕ) (s : List Char) :
    ∃ w rest, pieces sep start s = (start, w) :: rest ∧ w <+: s := by
  induction s generalizing start with
  | nil => exact ⟨[], [], rfl, List.nil_prefix⟩
  | cons c s ih =>
    rw [pieces]
    by_cases hc : c = sep
    · rw [if_pos hc]
      exact ⟨[], _, rfl, List.nil_prefix⟩
    · obtain ⟨w, rest, hpieces, hw⟩ := ih (start + (encodeChar c).length)
      rw [if_neg hc, hpieces]
      exact ⟨c :: w, rest, rfl, (List.prefix_cons_inj c).mpr hw⟩

theorem pieces_at (hsep : (encodeChar sep).length = 1) {p : ℕ × List Char} (h : p ∈ pieces sep start s) :
    ∃ x y, s = x ++ (p.2 ++ y) ∧ p.1 = start + len x := by
  induction s generalizing start p with
  | nil =>
    obtain rfl := List.mem_singleton.mp h
    exact ⟨[], [], rfl, rfl⟩
  | cons c s ih =>
    have hbehind : ∀ {p : ℕ × List Char}, p ∈ pieces sep (start + (encodeChar c).length) s →
        ∃ x y, c :: s = x ++ (p.2 ++ y) ∧ p.1 = start + len x := by
      intro p hp
      obtain ⟨x, y, hs, hat⟩ := ih hp
      exact ⟨c :: x, y, by rw [hs, List.cons_append], by rw [hat, len_cons, Nat.add_assoc]⟩
    rw [pieces] at h
    by_cases hc : c = sep
    · rw [if_pos hc] at h
      cases List.mem_cons.mp h with
      | inl hfirst => exact ⟨[], c :: s, by rw [hfirst]; rfl, by rw [hfirst]; rfl⟩
      | inr hlater => exact hbehind (by rw [hc, hsep]; exact hlater)
    · obtain ⟨w, rest, hpieces, y, rfl⟩ := pieces_cons sep (start + (encodeChar c).length) s
      rw [if_neg hc, hpieces] at h
      cases List.mem_cons.mp h with
      | inl hfirst => exact ⟨[], y, by rw [hfirst]; rfl, by rw [hfirst]; rfl⟩
      | inr hlater => exact hbehind (by rw [hpieces]; exact List.mem_cons_of_mem _ hlater)

theorem pieces_len (hsep : (encodeChar sep).length = 1) (start : ℕ) (s : List Char) :
    ((pieces sep start s).map fun p => len p.2 + 1).sum = len s + 1 := by
  induction s generalizing start with
  | nil => rfl
  | cons c s ih =>
    rw [pieces]
    by_cases hc : c = sep
    · rw [if_pos hc, List.map_cons, List.sum_cons, ih, len_nil, len_cons, hc, hsep]
      omega
    · have hsum := ih (start + (encodeChar c).length)
      obtain ⟨w, rest, hpieces, -⟩ := pieces_cons sep (start + (encodeChar c).length) s
      rw [if_neg hc, hpieces]
      rw [hpieces] at hsum
      simp only [List.map_cons, List.sum_cons, len_cons] at hsum ⊢
      omega

theorem piecesTerminated_sublist (sep : Char) (start : ℕ) (s : List Char) :
    (piecesTerminated sep start s).Sublist (pieces sep start s) := by
  rw [piecesTerminated]
  split
  · exact List.dropLast_sublist _
  · exact List.Sublist.refl _

end RustStr
