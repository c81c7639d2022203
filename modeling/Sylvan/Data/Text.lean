-- SUMMARY: The pieces regular expressions and string tests are modelled with.
import Mathlib.Data.List.Infix
import Sylvan.Data.Members

/-!
# Text

Strings are matched as lists of characters, a pattern piece by piece from the
front.
-/

namespace Text

def isDigit (c : Char) : Bool := '0' ≤ c && c ≤ '9'

def isLower (c : Char) : Bool := 'a' ≤ c && c ≤ 'z'

def isLowerOrDigit (c : Char) : Bool := isLower c || isDigit c

def stripLit : List Char → List Char → Option (List Char)
  | [], s => some s
  | _ :: _, [] => none
  | p :: ps, c :: s => if p = c then stripLit ps s else none

/-- `[class]+`: the longest run, which must hold a character. Exact for a pattern
that never puts a character of the class right after a run of it. -/
def stripRun (cls : Char → Bool) (s : List Char) : Option (List Char × List Char) :=
  let run := s.takeWhile cls
  if run.isEmpty then none else some (run, s.dropWhile cls)

/-- `(?:-p\d+)?` -/
def stripPartition (s : List Char) : List Char :=
  match stripLit "-p".toList s with
  | none => s
  | some s' => match stripRun isDigit s' with
    | none => s
    | some (_, s'') => s''

def decimal (s : String) : ℕ :=
  s.toList.foldl (fun n c => 10 * n + (c.toNat - '0'.toNat)) 0

/-- `text.includes(needle)`. -/
def includes (text needle : List Char) : Bool := text.tails.any needle.isPrefixOf

/-- The pieces of a string between the occurrences of a separator, from `skip`
characters on. -/
def splitFrom (sep : List Char) : ℕ → List Char → List Char → List (List Char)
  | _, piece, [] => [piece.reverse]
  | skip + 1, piece, _ :: s => splitFrom sep skip piece s
  | 0, piece, c :: s =>
    if sep.isPrefixOf (c :: s) then piece.reverse :: splitFrom sep (sep.length - 1) [] s
    else splitFrom sep 0 (c :: piece) s

/-- `s.split(sep)`, of a separator that is not empty. -/
def splitOn (sep s : List Char) : List (List Char) := splitFrom sep 0 [] s

def units (c : Char) : List ℕ :=
  if c.toNat < 0x10000 then [c.toNat]
  else [0xD800 + (c.toNat - 0x10000) / 0x400, 0xDC00 + (c.toNat - 0x10000) % 0x400]

def codeUnits (s : String) : List ℕ := s.toList.flatMap units

/-- `a < b`, of strings: unit by unit. -/
def before (a b : String) : Bool := codeUnits a < codeUnits b

theorem before_asymm {a b : String} (h : before a b = true) : before b a = false :=
  decide_eq_false (List.lt_asymm (of_decide_eq_true h))

theorem before_irrefl (a : String) : before a a = false := decide_eq_false (List.lt_irrefl _)

theorem units_ne_nil (c : Char) : units c ≠ [] := by
  unfold units
  split <;> simp

theorem units_append_inj {c d : Char} {s t : List ℕ} (h : units c ++ s = units d ++ t) : c = d ∧ s = t := by
  have hc : c.toNat < 0xd800 ∨ 0xdfff < c.toNat ∧ c.toNat < 0x110000 := c.valid
  have hd : d.toNat < 0xd800 ∨ 0xdfff < d.toNat ∧ d.toNat < 0x110000 := d.valid
  have hchar : c.toNat = d.toNat → c = d := fun h => by rw [← Char.ofNat_toNat c, h, Char.ofNat_toNat]
  unfold units at h
  split_ifs at h <;> simp only [List.cons_append, List.nil_append, List.cons.injEq] at h
  · exact ⟨hchar h.1, h.2⟩
  · omega
  · omega
  · exact ⟨hchar (by omega), h.2.2⟩

theorem codeUnits_injective : Function.Injective codeUnits := by
  intro a b h
  rw [← String.toList_inj]
  unfold codeUnits at h
  generalize a.toList = s, b.toList = t at h
  induction s generalizing t with
  | nil =>
    cases t with
    | nil => rfl
    | cons d t => simp [units_ne_nil] at h
  | cons c s ih =>
    cases t with
    | nil => simp [units_ne_nil] at h
    | cons d t =>
      obtain ⟨rfl, hrest⟩ := units_append_inj h
      rw [ih t hrest]

theorem lt_head_units {a b : Char} (ha : a.toNat ≤ 0x7f) (h : a < b) :
    ∃ unit rest, units b = unit :: rest ∧ a.toNat < unit := by
  have hlt : a.toNat < b.toNat := h
  unfold units
  split
  · exact ⟨_, _, rfl, hlt⟩
  · exact ⟨_, _, rfl, by omega⟩

/-- What is not before an ASCII string in the order of characters is that string, or
after it in the order of code units. -/
theorem codeUnits_of_ascii {a b : List Char} (ha : ∀ c ∈ a, c.toNat ≤ 0x7f) (h : ¬ b < a) :
    b = a ∨ a.flatMap units < b.flatMap units := by
  induction a generalizing b with
  | nil =>
    cases b with
    | nil => exact Or.inl rfl
    | cons d b =>
      obtain ⟨unit, rest, hunits⟩ := List.exists_cons_of_ne_nil (units_ne_nil d)
      right
      rw [List.flatMap_nil, List.flatMap_cons, hunits]
      exact List.nil_lt_cons _ _
  | cons c a ih =>
    have hc : c.toNat ≤ 0x7f := ha c List.mem_cons_self
    have hunits : units c = [c.toNat] := if_pos (by omega)
    cases b with
    | nil => exact absurd (List.nil_lt_cons c a) h
    | cons d b =>
      rw [List.cons_lt_cons_iff, not_or, not_and] at h
      rcases Nat.lt_trichotomy c.toNat d.toNat with hlt | heq | hgt
      · obtain ⟨unit, rest, hd, hunit⟩ := lt_head_units hc hlt
        right
        rw [List.flatMap_cons, List.flatMap_cons, hunits, hd]
        exact List.cons_lt_cons_iff.mpr (Or.inl hunit)
      · have hcd : d = c := Char.ext (UInt32.toNat_inj.mp heq.symm)
        subst hcd
        rcases ih (fun x hx => ha x (List.mem_cons_of_mem d hx)) (h.2 rfl) with rfl | hrest
        · exact Or.inl rfl
        · right
          rw [List.flatMap_cons, List.flatMap_cons, hunits]
          exact List.cons_lt_cons_iff.mpr (Or.inr ⟨rfl, hrest⟩)
      · exact absurd hgt h.1

theorem run_ne_nil {cls : Char → Bool} {s run rest : List Char}
    (h : stripRun cls s = some (run, rest)) : run ≠ [] := by
  simp only [stripRun] at h
  split at h
  · cases h
  · rename_i hne
    cases h
    simpa using hne

theorem includes_of_infix {text needle : List Char} (h : needle <:+: text) : includes text needle = true := by
  obtain ⟨before, after, rfl⟩ := h
  refine List.any_eq_true.mpr ⟨needle ++ after, ?_, by simp⟩
  exact (List.mem_tails _ _).mpr ⟨before, by simp⟩

/-! ## Literals and digits -/

theorem mem_intercalate {c sep : Char} {pieces : List (List Char)} (h : c ∈ [sep].intercalate pieces) :
    c = sep ∨ ∃ piece ∈ pieces, c ∈ piece := by
  induction pieces with
  | nil => simp at h
  | cons piece pieces ih =>
    cases pieces with
    | nil => exact .inr ⟨piece, by simp, by simpa using h⟩
    | cons next pieces =>
      rw [List.intercalate_cons_cons] at h
      simp only [List.mem_append, List.mem_singleton] at h
      rcases h with (h | h) | h
      · exact .inr ⟨piece, by simp, h⟩
      · exact .inl h
      · rcases ih h with h | ⟨p, hp, h⟩
        · exact .inl h
        · exact .inr ⟨p, List.mem_cons_of_mem piece hp, h⟩

theorem stripRun_append {cls : Char → Bool} {run rest : List Char} (hne : run ≠ [])
    (hrun : ∀ c ∈ run, cls c = true) (hrest : ∀ c ∈ rest.head?, cls c = false) :
    stripRun cls (run ++ rest) = some (run, rest) := by
  have htake : rest.takeWhile cls = [] := by
    cases rest with
    | nil => rfl
    | cons c rest => simp [hrest c rfl]
  have hdrop : rest.dropWhile cls = rest := by
    cases rest with
    | nil => rfl
    | cons c rest => simp [hrest c rfl]
  simp [stripRun, List.takeWhile_append_of_pos hrun, List.dropWhile_append_of_pos hrun, htake, hdrop, hne]

theorem stripLit_append {lit s : List Char} : stripLit lit (lit ++ s) = some s := by
  induction lit with
  | nil => cases s <;> rfl
  | cons c lit ih => simpa [stripLit] using ih

theorem eq_append_of_stripLit {lit s rest : List Char} (h : stripLit lit s = some rest) : s = lit ++ rest := by
  induction lit generalizing s with
  | nil =>
    cases s <;> exact Option.some.inj h
  | cons c lit ih =>
    cases s with
    | nil => cases h
    | cons c' s =>
      rw [stripLit] at h
      split at h
      · rename_i hc
        rw [hc, ih h, List.cons_append]
      · cases h

theorem stripLit_append_left {front lit s : List Char} : stripLit (front ++ lit) (front ++ s) = stripLit lit s := by
  induction front with
  | nil => rfl
  | cons c front ih => simpa [stripLit] using ih

theorem isDigit_of_mem_toDigits {n : ℕ} {c : Char} (h : c ∈ Nat.toDigits 10 n) : isDigit c = true := by
  have hdigit := Nat.isDigit_of_mem_toDigits (by omega) (by omega) h
  simpa [isDigit, Char.isDigit, Char.le_def] using hdigit

theorem stripLit_append_of_clash {lit front s : List Char} (hlit : ¬ lit <+: front)
    (hfront : ¬ front <+: lit) : stripLit lit (front ++ s) = none := by
  induction lit generalizing front with
  | nil => exact absurd List.nil_prefix hlit
  | cons p lit ih =>
    cases front with
    | nil => exact absurd List.nil_prefix hfront
    | cons c front =>
      rw [List.cons_append, stripLit]
      split_ifs with hc
      · subst hc
        exact ih (fun h => hlit (List.prefix_cons_inj _ |>.mpr h)) (fun h => hfront (List.prefix_cons_inj _ |>.mpr h))
      · rfl

theorem head_toDigits_ne_zero {n : ℕ} (h : 0 < n) : (Nat.toDigits 10 n).head? ≠ some '0' := by
  induction n using Nat.strongRecOn with
  | ind n ih =>
    rw [Nat.toDigits_eq_if (by omega)]
    split
    · rename_i hlt
      have hdigit : ∀ d < 10, 0 < d → [Nat.digitChar d].head? ≠ some '0' := by decide
      exact hdigit n hlt h
    · have hfront := ih (n / 10) (by omega) (by omega)
      rwa [List.head?_append_of_ne_nil _ Nat.toDigits_ne_nil]

theorem toDigits_ofDigitChars {run : List Char} (hrun : ∀ c ∈ run, isDigit c = true) (hne : run ≠ [])
    (hzero : run.head? = some '0' → run = ['0']) : Nat.toDigits 10 (Nat.ofDigitChars 10 run 0) = run := by
  induction run using List.reverseRecOn with
  | nil => exact absurd rfl hne
  | append_singleton front c ih =>
    obtain ⟨d, hd, rfl⟩ : ∃ d < 10, c = Nat.digitChar d := by
      have hall : ∀ d : Fin 10, Nat.digitChar d = Char.ofNat (d + 48) := by decide
      have hc : 48 ≤ c.toNat ∧ c.toNat ≤ 57 := by
        have hdigit := hrun c (by simp)
        rw [isDigit, Bool.and_eq_true, decide_eq_true_iff, decide_eq_true_iff] at hdigit
        exact hdigit
      refine ⟨c.toNat - 48, by omega, ?_⟩
      rw [hall ⟨c.toNat - 48, by omega⟩, Nat.sub_add_cancel hc.1, Char.ofNat_toNat]
    have hread : Nat.ofDigitChars 10 (front ++ [Nat.digitChar d]) 0 = Nat.ofDigitChars 10 front 0 * 10 + d := by
      rw [Nat.ofDigitChars_append, Nat.ofDigitChars_cons_digitChar_of_lt_ten hd, Nat.ofDigitChars_nil, Nat.mul_comm]
    rw [hread]
    by_cases hfront : front = []
    · subst hfront
      rw [Nat.ofDigitChars_nil, Nat.zero_mul, Nat.zero_add, Nat.toDigits_of_lt_base hd, List.nil_append]
    · have hhead : front.head? ≠ some '0' := by
        intro hhead
        have hlong := hzero (by rw [List.head?_append_of_ne_nil _ hfront, hhead])
        rw [List.append_eq_singleton_iff] at hlong
        rcases hlong with ⟨hnil, _⟩ | ⟨_, hnil⟩
        · exact hfront hnil
        · cases hnil
      have hvalue := ih (fun c hc => hrun c (List.mem_append_left _ hc)) hfront fun h => absurd h hhead
      have hpos : 0 < Nat.ofDigitChars 10 front 0 := by
        rw [Nat.pos_iff_ne_zero]
        intro hnone
        rw [hnone] at hvalue
        exact hhead (by rw [← hvalue]; rfl)
      rw [Nat.toDigits_eq_if (by omega), if_neg (by omega), show (Nat.ofDigitChars 10 front 0 * 10 + d) / 10 =
        Nat.ofDigitChars 10 front 0 by omega, hvalue, Nat.mul_add_mod_of_lt hd]

theorem repr_injective {m n : ℕ} (h : m.repr = n.repr) : m = n := by
  have hread := congrArg (fun s => Nat.ofDigitChars 10 s.toList 0) h
  simpa [Nat.toList_repr, Nat.ofDigitChars_toDigits] using hread

end Text
