-- SUMMARY: Texts that close their brackets and quotes, and why a list of them is read off the text they join to.
import Mathlib.Data.List.Basic
import Sylvan.Data.Json

/-!
# Delimited texts

A text without a comma outside of its brackets and quotes ends at the first comma behind it. So
what such texts join to, with commas between them, is joined of no others.
-/

namespace Delimited

inductive Place where
  | plain
  | quoted
  | escaped
deriving DecidableEq

def isOpen (c : Char) : Bool := c = '(' || c = '[' || c = '\x7b'
def isClose (c : Char) : Bool := c = ')' || c = ']' || c = '\x7d'

/-- The brackets open and the place behind a character; `none` where it ends what stands outside of all brackets. -/
def step : ℕ × Place → Char → Option (ℕ × Place)
  | (d, .escaped), _ => some (d, .quoted)
  | (d, .quoted), c =>
    some (d, if c = Char.ofNat 0x5c then .escaped else if c = Char.ofNat 0x22 then .plain else .quoted)
  | (d, .plain), c =>
    if c = Char.ofNat 0x22 then some (d, .quoted)
    else if isOpen c then some (d + 1, .plain)
    else if isClose c then if d = 0 then none else some (d - 1, .plain)
    else if c = ',' ∧ d = 0 then none
    else some (d, .plain)

/-- Every bracket and quote of the text is closed in it, and no comma stands outside of them. -/
def Closed (text : List Char) : Prop := text.foldlM step (0, .plain) = some (0, .plain)

/-- The same inside of brackets, where commas may stand. -/
def Inside (text : List Char) : Prop := text.foldlM step (1, .plain) = some (1, .plain)

instance (text : List Char) : Decidable (Closed text) := inferInstanceAs (Decidable (_ = _))

def Stops (text : List Char) : Prop := ∀ c ∈ text.head?, c = ','

/-! ## Texts in brackets -/

theorem step_deeper {s s' : ℕ × Place} {c : Char} (h : step s c = some s') :
    step (s.1 + 1, s.2) c = some (s'.1 + 1, s'.2) := by
  obtain ⟨d, place⟩ := s
  cases place with
  | escaped =>
    cases h
    rfl
  | quoted =>
    cases h
    rfl
  | plain =>
    simp only [step] at h ⊢
    -- The comma and the closing bracket that end a text are refused at depth zero only.
    split_ifs at h ⊢ <;> cases h <;> grind

theorem foldlM_deeper {text : List Char} {s s' : ℕ × Place} (h : text.foldlM step s = some s') :
    text.foldlM step (s.1 + 1, s.2) = some (s'.1 + 1, s'.2) := by
  induction text generalizing s with
  | nil =>
    cases h
    rfl
  | cons c text ih =>
    rw [List.foldlM_cons] at h
    obtain ⟨next, hstep, h⟩ := Option.bind_eq_some_iff.mp h
    rw [List.foldlM_cons, step_deeper hstep]
    exact ih h

theorem Closed.inside {a : List Char} (ha : Closed a) : Inside a := foldlM_deeper ha

theorem Closed.append {a b : List Char} (ha : Closed a) (hb : Closed b) : Closed (a ++ b) := by
  rw [Closed, List.foldlM_append, ha]
  exact hb

theorem Inside.append {a b : List Char} (ha : Inside a) (hb : Inside b) : Inside (a ++ b) := by
  rw [Inside, List.foldlM_append, ha]
  exact hb

theorem inside_comma : Inside [','] := rfl

theorem inside_intercalate {parts : List (List Char)} (h : ∀ part ∈ parts, Closed part) : Inside ([','].intercalate parts) := by
  induction parts with
  | nil => rfl
  | cons part parts ih =>
    have hpart := (h part List.mem_cons_self).inside
    cases parts with
    | nil => simpa [List.intercalate] using hpart
    | cons next parts =>
      rw [List.intercalate_cons_cons]
      exact (hpart.append inside_comma).append (ih fun part hpart => h part (List.mem_cons_of_mem _ hpart))

theorem Inside.closed {opening inner : List Char} (h : Inside inner)
    (hopening : opening.foldlM step (0, .plain) = some (1, .plain)) : Closed (opening ++ (inner ++ [')'])) := by
  rw [Closed, List.foldlM_append, hopening]
  dsimp only [bind, Option.bind]
  rw [List.foldlM_append, h]
  rfl

theorem closed_of_plain {text : List Char}
    (h : ∀ c ∈ text, c ≠ Char.ofNat 0x22 ∧ isOpen c = false ∧ isClose c = false ∧ c ≠ ',') : Closed text := by
  induction text with
  | nil => rfl
  | cons c text ih =>
    obtain ⟨hquote, hopen, hclose, hcomma⟩ := h c List.mem_cons_self
    have hstep : step (0, .plain) c = some (0, .plain) := by simp [step, hquote, hopen, hclose, hcomma]
    rw [Closed, List.foldlM_cons, hstep]
    exact ih fun c hc => h c (List.mem_cons_of_mem _ hc)

theorem digitChar_plain : ∀ n < 16, Nat.digitChar n ≠ Char.ofNat 0x5c ∧ Nat.digitChar n ≠ Char.ofNat 0x22 := by decide

theorem closed_quote (s : String) : Closed (Json.quote s) := by
  have hescape : ∀ c, (Json.escape c).foldlM step (0, .quoted) = some (0, .quoted) := by
    intro c
    unfold Json.escape
    split_ifs with hmark _ _ _ _ _ hcontrol
    iterate 6 rfl
    · have hhi := digitChar_plain (c.toNat / 16) (by omega)
      have hlo := digitChar_plain (c.toNat % 16) (Nat.mod_lt _ (by omega))
      simp [step, hhi, hlo]
    · simp [step, not_or.mp hmark]
  have hbody : ∀ cs : List Char, (cs.flatMap Json.escape).foldlM step (0, .quoted) = some (0, .quoted) := by
    intro cs
    induction cs with
    | nil => rfl
    | cons c cs ih =>
      rw [List.flatMap_cons, List.foldlM_append, hescape]
      exact ih
  rw [Closed, Json.quote, Json.between, List.foldlM_cons]
  change ((s.toList.flatMap Json.escape) ++ [Char.ofNat 0x22]).foldlM step (0, .quoted) = _
  rw [List.foldlM_append, hbody]
  rfl

/-! ## Reading them off -/

theorem eq_nil_of_stops {a m t : List Char} (ha : Closed a) (hm : Closed (a ++ m)) (hstops : Stops (m ++ t)) : m = [] := by
  cases m with
  | nil => rfl
  | cons c m =>
    obtain rfl := hstops c rfl
    rw [Closed, List.foldlM_append, ha] at hm
    cases hm

theorem closed_append_inj {a b s t : List Char} (ha : Closed a) (hb : Closed b) (hs : Stops s) (ht : Stops t)
    (h : a ++ s = b ++ t) : a = b ∧ s = t := by
  rcases List.append_eq_append_iff.mp h with ⟨m, rfl, rfl⟩ | ⟨m, rfl, rfl⟩
  · obtain rfl := eq_nil_of_stops ha hb hs
    simp
  · obtain rfl := eq_nil_of_stops hb ha ht
    simp

theorem stops_flatMap (parts : List (List Char)) : Stops (parts.flatMap (',' :: ·)) := by
  cases parts <;> simp [Stops]

theorem flatMap_comma_inj {parts parts' : List (List Char)} (h : ∀ part ∈ parts, Closed part)
    (h' : ∀ part ∈ parts', Closed part) (heq : parts.flatMap (',' :: ·) = parts'.flatMap (',' :: ·)) : parts = parts' := by
  induction parts generalizing parts' with
  | nil =>
    cases parts' with
    | nil => rfl
    | cons part' parts' => cases heq
  | cons part parts ih =>
    cases parts' with
    | nil => cases heq
    | cons part' parts' =>
      obtain ⟨rfl, hrest⟩ := closed_append_inj (h part List.mem_cons_self) (h' part' List.mem_cons_self) (stops_flatMap _)
        (stops_flatMap _) (List.cons.inj heq).2
      rw [ih (fun p hp => h p (List.mem_cons_of_mem _ hp)) (fun p hp => h' p (List.mem_cons_of_mem _ hp)) hrest]

theorem intercalate_cons (part : List Char) (parts : List (List Char)) :
    [','].intercalate (part :: parts) = part ++ parts.flatMap (',' :: ·) := by
  induction parts generalizing part with
  | nil => simp [List.intercalate]
  | cons next parts ih =>
    rw [List.intercalate_cons_cons, ih, List.flatMap_cons, List.append_assoc, List.singleton_append, List.cons_append]

theorem intercalate_inj {parts parts' : List (List Char)} (h : ∀ part ∈ parts, Closed part ∧ part ≠ [])
    (h' : ∀ part ∈ parts', Closed part ∧ part ≠ []) (heq : [','].intercalate parts = [','].intercalate parts') :
    parts = parts' := by
  cases parts with
  | nil =>
    cases parts' with
    | nil => rfl
    | cons part' parts' =>
      rw [intercalate_cons] at heq
      exact absurd (List.append_eq_nil_iff.mp heq.symm).1 (h' part' List.mem_cons_self).2
  | cons part parts =>
    cases parts' with
    | nil =>
      rw [intercalate_cons] at heq
      exact absurd (List.append_eq_nil_iff.mp heq).1 (h part List.mem_cons_self).2
    | cons part' parts' =>
      rw [intercalate_cons, intercalate_cons] at heq
      obtain ⟨rfl, hrest⟩ := closed_append_inj (h part List.mem_cons_self).1 (h' part' List.mem_cons_self).1 (stops_flatMap _)
        (stops_flatMap _) heq
      rw [flatMap_comma_inj (fun p hp => (h p (List.mem_cons_of_mem _ hp)).1)
        (fun p hp => (h' p (List.mem_cons_of_mem _ hp)).1) hrest]

end Delimited
