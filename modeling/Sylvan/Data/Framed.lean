-- SUMMARY: Readers of a list's front, and pieces framed for them: read when whole, refused when cut.
import Mathlib.Data.List.Basic

/-!
# Framed pieces

A reader takes a value off the front of its input and says what is left. A piece is
framed for a reader when the reader takes exactly it, whatever follows, and fails on
every shorter front of it. Framed pieces joined are framed for their readers in turn.
-/

namespace Framed

variable {ε σ α β : Type}

abbrev Reader (ε σ α : Type) : Type := List σ → Except ε (α × List σ)

def done (a : α) : Reader ε σ α := fun rest => .ok (a, rest)

/-- `read`, then what its value asks for. -/
def andThen (read : Reader ε σ α) (next : α → Reader ε σ β) : Reader ε σ β := fun rest =>
  match read rest with
  | .error e => .error e
  | .ok (a, rest) => next a rest

/-- The next `k` elements; `e` says what to fail with when there are fewer. -/
def take (k : ℕ) (e : List σ → ε) : Reader ε σ (List σ) := fun rest =>
  if rest.length < k then .error (e rest) else .ok (rest.take k, rest.drop k)

/-- What `read` leaves of its input is an error. -/
def exactly (read : Reader ε σ α) (e : List σ → ε) (input : List σ) : Except ε α :=
  match read input with
  | .error e => .error e
  | .ok (a, rest) => if rest.length ≠ 0 then .error (e rest) else .ok a

theorem andThen_take (k : ℕ) (e : List σ → ε) (next : List σ → Reader ε σ β) (rest : List σ) :
    andThen (take k e) next rest = if rest.length < k then .error (e rest) else next (rest.take k) (rest.drop k) := by
  rw [andThen, take]
  by_cases h : rest.length < k
  · rw [if_pos h, if_pos h]
  · rw [if_neg h, if_neg h]

theorem andThen_eq_bind (read : Reader ε σ α) (next : α → Reader ε σ β) (rest : List σ) :
    andThen read next rest = read rest >>= fun r => next r.1 r.2 := by
  rw [andThen]
  cases read rest with
  | error e => rfl
  | ok r => rfl

theorem exactly_eq_bind (read : Reader ε σ α) (e : List σ → ε) (input : List σ) :
    exactly read e input = read input >>= fun r => if r.2.length ≠ 0 then .error (e r.2) else .ok r.1 := by
  rw [exactly]
  cases read input with
  | error e => rfl
  | ok r => rfl

structure Frames (read : Reader ε σ α) (piece : List σ) (a : α) : Prop where
  whole : ∀ rest, read (piece ++ rest) = .ok (a, rest)
  cut : ∀ front, front <+: piece → front ≠ piece → ∃ e, read front = .error e

theorem prefix_append_cases {front piece piece' : List σ} (h : front <+: piece ++ piece') :
    (front <+: piece ∧ front ≠ piece) ∨ ∃ front', front = piece ++ front' ∧ front' <+: piece' := by
  rcases List.prefix_or_prefix_of_prefix h (List.prefix_append piece piece') with hshort | ⟨front', rfl⟩
  · by_cases heq : front = piece
    · exact .inr ⟨[], by simp [heq], List.nil_prefix⟩
    · exact .inl ⟨hshort, heq⟩
  · exact .inr ⟨front', rfl, (List.prefix_append_right_inj piece).mp h⟩

/-- A front of many joined pieces is some of the pieces and a shorter front of the next, if
there is one. -/
theorem prefix_flatMap_cases {ρ : Type} {piece : ρ → List σ} {pieces : List ρ} {front : List σ}
    (h : front <+: pieces.flatMap piece) :
    ∃ i ≤ pieces.length, ∃ part, front = (pieces.take i).flatMap piece ++ part ∧
      (part = [] ∨ ∃ r, pieces[i]? = some r ∧ part <+: piece r ∧ part ≠ piece r) := by
  induction pieces generalizing front with
  | nil => exact ⟨0, Nat.le_refl _, [], by simpa using h, .inl rfl⟩
  | cons r pieces ih =>
    rw [List.flatMap_cons] at h
    rcases prefix_append_cases h with ⟨hshort, hne⟩ | ⟨front', rfl, hpre⟩
    · exact ⟨0, Nat.zero_le _, front, by simp, .inr ⟨r, rfl, hshort, hne⟩⟩
    · obtain ⟨i, hi, part, rfl, hpart⟩ := ih hpre
      exact ⟨i + 1, by simpa using hi, part, by simp, hpart⟩

variable {read : Reader ε σ α} {next : α → Reader ε σ β} {piece piece' : List σ} {a : α} {b : β}

theorem Frames.done (a : α) : Frames (ε := ε) (σ := σ) (Framed.done a) [] a where
  whole _ := rfl
  cut _ hpre hne := absurd (List.prefix_nil.mp hpre) hne

theorem Frames.take {k : ℕ} {e : List σ → ε} (h : piece.length = k) : Frames (Framed.take k e) piece piece where
  whole rest := by
    rw [Framed.take, if_neg (by rw [List.length_append]; omega), List.take_left' h, List.drop_left' h]
  cut front hpre hne := by
    have hlt : front.length < k := by
      have hle := hpre.length_le
      have hlen : front.length ≠ piece.length := fun heq => hne (hpre.eq_of_length heq)
      omega
    exact ⟨e front, if_pos hlt⟩

theorem Frames.andThen (hread : Frames read piece a) (hnext : Frames (next a) piece' b) :
    Frames (Framed.andThen read next) (piece ++ piece') b where
  whole rest := by
    rw [Framed.andThen, List.append_assoc, hread.whole]
    exact hnext.whole rest
  cut front hpre hne := by
    rcases prefix_append_cases hpre with ⟨hshort, hcut⟩ | ⟨front', rfl, hpre'⟩
    · obtain ⟨e, he⟩ := hread.cut front hshort hcut
      exact ⟨e, by rw [Framed.andThen, he]⟩
    · obtain ⟨e, he⟩ := hnext.cut front' hpre' fun heq => hne (by rw [heq])
      exact ⟨e, by rw [Framed.andThen, hread.whole]; exact he⟩

theorem Frames.map (hread : Frames read piece a) (f : α → β) :
    Frames (Framed.andThen read fun a => Framed.done (f a)) piece (f a) := by
  have hdone := @Frames.andThen _ _ _ _ read (fun a => Framed.done (f a)) _ _ _ _ hread (Frames.done (f a))
  rwa [List.append_nil] at hdone

section Exactly

variable {e : List σ → ε}

theorem Frames.exactly (h : Frames read piece a) : Framed.exactly read e piece = .ok a := by
  have hwhole := h.whole []
  rw [List.append_nil] at hwhole
  rw [Framed.exactly, hwhole]
  rfl

theorem Frames.exactly_cut (h : Frames read piece a) {front : List σ} (hpre : front <+: piece) (hne : front ≠ piece) :
    ∃ e', Framed.exactly read e front = .error e' := by
  obtain ⟨e', he⟩ := h.cut front hpre hne
  exact ⟨e', by rw [Framed.exactly, he]⟩

theorem Frames.exactly_trailing (h : Frames read piece a) {more : List σ} (hne : more ≠ []) :
    ∃ e', Framed.exactly read e (piece ++ more) = .error e' := by
  refine ⟨e more, ?_⟩
  rw [Framed.exactly, h.whole]
  exact if_pos fun hlen => hne (List.length_eq_zero_iff.mp hlen)

end Exactly

end Framed
