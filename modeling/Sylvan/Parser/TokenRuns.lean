-- SUMMARY: The run of characters a word or a number takes, and the same run cut short.
import Mathlib.Data.List.TakeWhile
import Sylvan.Parser.Tokenizer

/-!
# Runs

A word or a number ends where a character does not belong to it. What it takes of a
text it takes of every text that begins alike, and of a shorter one all of it.
-/

namespace Tokenizer

open Spans

variable {py : PyHost} {c : Char} {cs w rest x y : List Char}

/-! ## Where a word stops -/

/-- No word goes on into `x`. -/
def Stops (py : PyHost) (x : List Char) : Prop := scanWordEnd (isWordCont py) x = ([], x)

theorem stops_nil : Stops py [] := rfl

theorem stops_cons : Stops py (c :: cs) ↔ isWordCont py c = false ∧ c ≠ ',' ∧
    (c = APOSTROPHE → cs.head?.all (isWordCont py) = false) := by
  rw [Stops, scanWordEnd]
  split_ifs with h
  · simp only [Prod.mk.injEq, reduceCtorEq, false_and, false_iff, not_and]
    simp only [Bool.or_eq_true, Bool.and_eq_true, decide_eq_true_eq] at h
    intro hc hcomma ha
    rcases h with (h | h) | ⟨h, hall⟩
    · rw [hc] at h
      cases h
    · exact hcomma h
    · rw [ha h] at hall
      cases hall
  · simp only [true_iff]
    simp only [Bool.or_eq_true, Bool.and_eq_true, decide_eq_true_eq, not_or, not_and, Bool.not_eq_true] at h
    exact ⟨h.1.1, h.1.2, h.2⟩

theorem stops_scanWordEnd (cs : List Char) : Stops py (scanWordEnd (isWordCont py) cs).2 := by
  induction cs with
  | nil => rfl
  | cons c cs ih =>
    rw [scanWordEnd]
    split
    · exact ih
    · next h =>
        rw [Stops, scanWordEnd, if_neg h]

theorem scanWordEnd_append_of (hw : w <+: (scanWordEnd (isWordCont py) y).1)
    (hlast : w.getLast? = some APOSTROPHE → x.head?.all (isWordCont py) = true) :
    scanWordEnd (isWordCont py) (w ++ x) = (w ++ (scanWordEnd (isWordCont py) x).1, (scanWordEnd (isWordCont py) x).2) := by
  induction w generalizing y with
  | nil => rfl
  | cons a w ih =>
    cases y with
    | nil => simp [scanWordEnd] at hw
    | cons b y =>
      rw [scanWordEnd] at hw
      split at hw
      · next h =>
          obtain ⟨rfl, hrun⟩ := List.cons_prefix_cons.mp hw
          have hnext : w.getLast? = some APOSTROPHE → x.head?.all (isWordCont py) = true := fun hl => hlast (by
            rw [List.getLast?_cons, hl]
            rfl)
          have htake : a = APOSTROPHE → y.head?.all (isWordCont py) = true → (w ++ x).head?.all (isWordCont py) = true := by
            rintro rfl hy
            cases w with
            | nil => exact hlast rfl
            | cons d w =>
              have hprefix : d :: w <+: y := hrun.trans ⟨_, scanWordEnd_append _ y⟩
              obtain ⟨tail, rfl⟩ := hprefix
              exact hy
          rw [List.cons_append, scanWordEnd, if_pos, ih hrun hnext]
          · rfl
          simp only [Bool.or_eq_true, Bool.and_eq_true, decide_eq_true_eq] at h ⊢
          exact h.imp_right fun h => ⟨h.1, htake h.1 h.2⟩
      · simp at hw

theorem scanWordEnd_of_isPrefix (hw : w <+: (scanWordEnd (isWordCont py) y).1) (hx : Stops py x)
    (hlast : w.getLast? = some APOSTROPHE → x = []) :
    scanWordEnd (isWordCont py) (w ++ x) = (w, x) := by
  have hx : scanWordEnd (isWordCont py) x = ([], x) := hx
  rw [scanWordEnd_append_of hw fun hl => by rw [hlast hl]; rfl, hx, List.append_nil]

theorem eq_nil_of_scanWordEnd (hcont : isWordCont py APOSTROPHE = false)
    (h : (scanWordEnd (isWordCont py) y).1.getLast? = some APOSTROPHE) :
    (scanWordEnd (isWordCont py) y).2 = [] := by
  induction y with
  | nil => rfl
  | cons a y ih =>
    rw [scanWordEnd] at h ⊢
    split at h
    · next htake =>
        rw [if_pos htake]
        cases hrun : (scanWordEnd (isWordCont py) y).1 with
        | nil =>
          rw [hrun] at h
          obtain rfl : a = APOSTROPHE := Option.some.inj h
          have hcomma : APOSTROPHE ≠ ',' := by decide
          have hall : y.head?.all (isWordCont py) = true := by simpa [hcont, hcomma] using htake
          cases y with
          | nil => rfl
          | cons b y =>
            have hb : isWordCont py b = true := hall
            rw [scanWordEnd, if_pos (by simp [hb])] at hrun
            cases hrun
        | cons b run =>
          rw [hrun] at h ih
          exact ih h
    · cases h

theorem mem_scanWordEnd {a : Char} (h : a ∈ (scanWordEnd (isWordCont py) y).1) :
    isWordCont py a = true ∨ a = ',' ∨ a = APOSTROPHE := by
  induction y with
  | nil => cases h
  | cons b y ih =>
    rw [scanWordEnd] at h
    split at h
    · next htake =>
        rcases List.mem_cons.mp h with rfl | h
        · simp only [Bool.or_eq_true, Bool.and_eq_true, decide_eq_true_eq] at htake
          tauto
        · exact ih h
    · cases h

/-! ## Where a number stops -/

theorem isPrefix_append_cases {α : Type} {w a b : List α} (h : w <+: a ++ b) : w <+: a ∨ ∃ t, w = a ++ t ∧ t <+: b := by
  rcases List.prefix_or_prefix_of_prefix h (List.prefix_append a b) with h | ⟨t, rfl⟩
  · exact .inl h
  · exact .inr ⟨t, rfl, (List.prefix_append_right_inj a).mp h⟩

theorem isDigit_of_mem_digits {a : Char} (h : a ∈ (digits cs).1) : a.isDigit = true := by
  rw [digits, List.span_eq_takeWhile_dropWhile] at h
  exact List.mem_takeWhile_imp h

theorem digits_append_of {w x : List Char} (hw : ∀ a ∈ w, a.isDigit = true)
    (hx : x.head?.any Char.isDigit = false) : digits (w ++ x) = (w, x) := by
  rw [digits, List.span_eq_takeWhile_dropWhile, List.takeWhile_append_of_pos hw, List.dropWhile_append_of_pos hw]
  cases x with
  | nil => simp
  | cons a x =>
    have ha : a.isDigit = false := hx
    simp [ha]

theorem head_digits (cs : List Char) : (digits cs).2.head?.any Char.isDigit = false := by
  rw [digits, List.span_eq_takeWhile_dropWhile]
  cases h : cs.dropWhile Char.isDigit with
  | nil => rfl
  | cons a rest =>
    have hne : cs.dropWhile Char.isDigit ≠ [] := by simp [h]
    have ha := List.head_dropWhile_not Char.isDigit hne
    simpa [h] using ha

/-- Whether a point with a digit behind it comes first. -/
def startsFraction : List Char → Bool
  | a :: d :: _ => a = '.' && d.isDigit
  | _ => false

theorem fraction_of_not (h : startsFraction cs = false) : fraction cs = ([], cs) := by
  unfold fraction
  split
  · next a d rest =>
      rw [if_neg]
      simpa [startsFraction] using h
  · rfl

theorem fraction_cases (cs : List Char) : startsFraction cs = false ∧ fraction cs = ([], cs) ∨
      ∃ d rest, cs = '.' :: d :: rest ∧ d.isDigit = true ∧ fraction cs = ('.' :: d :: (digits rest).1, (digits rest).2) := by
  by_cases h : startsFraction cs = true
  · right
    match cs, h with
    | a :: d :: rest, h =>
      have ha : a = '.' ∧ d.isDigit = true := by simpa [startsFraction] using h
      obtain ⟨rfl, hd⟩ := ha
      exact ⟨d, rest, rfl, hd, by rw [fraction, if_pos (by simpa using hd)]⟩
  · have h : startsFraction cs = false := by simpa using h
    exact .inl ⟨h, fraction_of_not h⟩

theorem numberEnd_eq {a f x : List Char} (ha : ∀ d ∈ a, d.isDigit = true)
    (hf : fraction (f ++ x) = (f, x)) (hhead : (f ++ x).head?.any Char.isDigit = false) :
    numberEnd (a ++ (f ++ x)) = (a ++ f, x) := by
  rw [numberEnd, digits_append_of ha hhead]
  simp only [hf]

/-! ## A run -/

/-- What a word or a number that starts with `c` takes of the text behind it, and what
is left. -/
def runEnd (py : PyHost) (c : Char) (cs : List Char) : List Char × List Char :=
  if c.isDigit then
    if (numberEnd cs).2.head?.any (isWordCont py) then
      ((numberEnd cs).1 ++ (scanWordEnd (isWordCont py) (numberEnd cs).2).1,
        (scanWordEnd (isWordCont py) (numberEnd cs).2).2)
    else numberEnd cs
  else scanWordEnd (isWordCont py) cs

theorem runEnd_word (hc : c.isDigit = true)
    (h : (numberEnd cs).2.head?.any (isWordCont py) = true) :
    runEnd py c cs = ((numberEnd cs).1 ++ (scanWordEnd (isWordCont py) (numberEnd cs).2).1,
      (scanWordEnd (isWordCont py) (numberEnd cs).2).2) := by
  rw [runEnd, if_pos hc, if_pos h]

theorem runEnd_number (hc : c.isDigit = true)
    (h : (numberEnd cs).2.head?.any (isWordCont py) = false) : runEnd py c cs = numberEnd cs := by
  rw [runEnd, if_pos hc, if_neg (by simp [h])]

theorem runEnd_of_not_digit (hc : ¬ c.isDigit = true) : runEnd py c cs = scanWordEnd (isWordCont py) cs := by
  rw [runEnd, if_neg hc]

theorem runEnd_append (c : Char) (cs : List Char) : (runEnd py c cs).1 ++ (runEnd py c cs).2 = cs := by
  unfold runEnd
  split
  · split
    · rw [List.append_assoc, scanWordEnd_append, numberEnd_append]
    · exact numberEnd_append cs
  · exact scanWordEnd_append _ cs

theorem Stops.head_not_cont (hx : Stops py x) : x.head?.any (isWordCont py) = false := by
  cases x with
  | nil => rfl
  | cons a x => exact (stops_cons.mp hx).1

theorem head_not_digit (hx : x.head?.any (isWordCont py) = false) : x.head?.any Char.isDigit = false := by
  cases x with
  | nil => rfl
  | cons a x =>
    have ha : isWordCont py a = false := hx
    simp only [isWordCont, Char.isAlphanum, Bool.or_eq_false_iff] at ha
    exact ha.1.1.1.1.2

theorem not_startsFraction (hx : x.head?.any (isWordCont py) = false) : startsFraction x = false := by
  match x with
  | [] => rfl
  | [_] => rfl
  | a :: d :: rest =>
    have ha : isWordCont py a = false := hx
    have hdot : a ≠ '.' := by
      rintro rfl
      simp [isWordCont] at ha
    simp [startsFraction, hdot]

theorem numberEnd_of_isPrefix (hw : w <+: (numberEnd y).1)
    (hx : x.head?.any (isWordCont py) = false) :
    numberEnd (w ++ x) = (w, x) ∨ ∃ a, numberEnd (w ++ x) = (a, '.' :: x) ∧ w = a ++ ['.'] := by
  have hdigit := head_not_digit hx
  have hnone := fraction_of_not (not_startsFraction hx)
  rcases isPrefix_append_cases hw with hw | ⟨f, rfl, hf⟩
  · left
    simpa using numberEnd_eq (f := []) (fun d hd => isDigit_of_mem_digits (hw.subset hd)) hnone hdigit
  have hall : ∀ d ∈ (digits y).1, d.isDigit = true := fun d => isDigit_of_mem_digits
  rcases fraction_cases (digits y).2 with ⟨-, heq⟩ | ⟨d, rest, -, hd, heq⟩
  · rw [heq] at hf
    obtain rfl := List.prefix_nil.mp hf
    left
    simpa using numberEnd_eq (f := []) hall hnone hdigit
  rw [heq] at hf
  match f, hf with
  | [], _ =>
    left
    simpa using numberEnd_eq (f := []) hall hnone hdigit
  | ['.'], _ =>
    right
    refine ⟨(digits y).1, ?_, rfl⟩
    have hcut : fraction ('.' :: x) = ([], '.' :: x) := fraction_of_not (by
      cases x with
      | nil => rfl
      | cons b x =>
        have hb : b.isDigit = false := hdigit
        simp [startsFraction, hb])
    simpa using numberEnd_eq (f := []) hall hcut rfl
  | a :: b :: g, hf =>
    left
    obtain ⟨rfl, htail⟩ := List.cons_prefix_cons.mp hf
    obtain ⟨rfl, hg⟩ := List.cons_prefix_cons.mp htail
    have hcut : fraction ('.' :: b :: g ++ x) = ('.' :: b :: g, x) := by
      simp only [List.cons_append, fraction, hd, decide_true, Bool.and_self, if_true]
      rw [digits_append_of (fun d hd => isDigit_of_mem_digits (hg.subset hd)) hdigit]
    simpa using numberEnd_eq hall hcut rfl

theorem numberEnd_point (hc : c.isDigit = true) (hpoint : '.' ∈ c :: (numberEnd cs).1) :
    ∃ a b, c :: (numberEnd cs).1 = a ++ '.' :: b ∧ a ≠ [] ∧ b ≠ [] ∧ ∀ d ∈ a ++ b, d.isDigit = true := by
  have hwhole : ∀ d ∈ c :: (digits cs).1, d.isDigit = true := by
    intro d hd
    rcases List.mem_cons.mp hd with rfl | hd
    · exact hc
    · exact isDigit_of_mem_digits hd
  rcases fraction_cases (digits cs).2 with ⟨-, heq⟩ | ⟨d, rest, -, hd, heq⟩
  · have hend : (numberEnd cs).1 = (digits cs).1 := by simp [numberEnd, heq]
    rw [hend] at hpoint
    exact absurd (hwhole _ hpoint) (by decide)
  · have hend : (numberEnd cs).1 = (digits cs).1 ++ '.' :: d :: (digits rest).1 := by
      simp [numberEnd, heq]
    refine ⟨c :: (digits cs).1, d :: (digits rest).1, by rw [hend]; rfl, by simp, by simp, ?_⟩
    intro e he
    rcases List.mem_append.mp he with he | he
    · exact hwhole e he
    rcases List.mem_cons.mp he with rfl | he
    · exact hd
    · exact isDigit_of_mem_digits he

theorem numberEnd_append_of {z : List Char} (hdigit : z.head?.any Char.isDigit = false)
    (hnone : (fraction (digits y).2).1 = [] → startsFraction z = false) :
    numberEnd ((numberEnd y).1 ++ z) = ((numberEnd y).1, z) := by
  have hall : ∀ d ∈ (digits y).1, d.isDigit = true := fun d => isDigit_of_mem_digits
  rcases fraction_cases (digits y).2 with ⟨-, heq⟩ | ⟨d, rest, -, hd, heq⟩
  · have hend : (numberEnd y).1 = (digits y).1 := by simp [numberEnd, heq]
    rw [heq] at hnone
    rw [hend]
    simpa using numberEnd_eq (f := []) hall (fraction_of_not (hnone rfl)) hdigit
  · have hend : (numberEnd y).1 = (digits y).1 ++ '.' :: d :: (digits rest).1 := by
      simp [numberEnd, heq]
    have hcut : fraction ('.' :: d :: (digits rest).1 ++ z) = ('.' :: d :: (digits rest).1, z) := by
      simp only [List.cons_append, fraction, hd, decide_true, Bool.and_self, if_true]
      rw [digits_append_of (fun d hd => isDigit_of_mem_digits hd) hdigit]
    rw [hend]
    simpa using numberEnd_eq hall hcut rfl

theorem head_numberEnd (y : List Char) : (numberEnd y).2.head?.any Char.isDigit = false := by
  rcases fraction_cases (digits y).2 with ⟨-, heq⟩ | ⟨d, rest, -, -, heq⟩
  · have hend : (numberEnd y).2 = (digits y).2 := by simp [numberEnd, heq]
    rw [hend]
    exact head_digits y
  · have hend : (numberEnd y).2 = (digits rest).2 := by simp [numberEnd, heq]
    rw [hend]
    exact head_digits rest

theorem numberEnd_append_word {m : List Char} (hm : m <+: (numberEnd y).2) (hne : m ≠ [])
    (hx : x.head?.any (isWordCont py) = false) :
    numberEnd ((numberEnd y).1 ++ (m ++ x)) = ((numberEnd y).1, m ++ x) := by
  obtain ⟨tail, htail⟩ := hm
  obtain ⟨b, m, rfl⟩ := List.exists_cons_of_ne_nil hne
  have hb : b.isDigit = false := by
    have := head_numberEnd y
    rwa [← htail] at this
  refine numberEnd_append_of hb fun hempty => ?_
  rcases fraction_cases (digits y).2 with ⟨hnone, heq⟩ | ⟨d, rest, -, -, heq⟩
  · have hend : (numberEnd y).2 = (digits y).2 := by simp [numberEnd, heq]
    rw [← hend, ← htail] at hnone
    -- the text behind the digits starts no fraction, nor does it cut short
    cases m with
    | cons e m => exact hnone
    | nil =>
      cases x with
      | nil => rfl
      | cons e x =>
        have he : e.isDigit = false := head_not_digit hx
        simp [startsFraction, he]
  · rw [heq] at hempty
    cases hempty

theorem runEnd_of_number (hc : c.isDigit = true)
    (hy : (numberEnd y).2.head?.any (isWordCont py) = false)
    (hx : x.head?.any (isWordCont py) = false) :
    runEnd py c ((runEnd py c y).1 ++ x) = ((runEnd py c y).1, x) := by
  have hend : numberEnd ((numberEnd y).1 ++ x) = ((numberEnd y).1, x) :=
    numberEnd_append_of (head_not_digit hx) fun _ => not_startsFraction hx
  rw [runEnd_number hc hy, runEnd_number hc (by rw [hend]; exact hx), hend]

/-- **Part of a run, before a text no word goes on into, is the run there.** -/
theorem runEnd_of_isPrefix (hw : w <+: (runEnd py c y).1) (hx : Stops py x)
    (hlast : w.getLast? = some APOSTROPHE → x = []) : runEnd py c (w ++ x) = (w, x) := by
  by_cases hc : c.isDigit = true
  · have hnumber {v : List Char} (hv : v <+: (numberEnd y).1) : runEnd py c (v ++ x) = (v, x) := by
      rw [runEnd, if_pos hc]
      rcases numberEnd_of_isPrefix hv hx.head_not_cont with h | ⟨a, h, rfl⟩
      · rw [h, if_neg (by simp [hx.head_not_cont])]
      · have hword : scanWordEnd (isWordCont py) (['.'] ++ x) = (['.'], x) :=
          scanWordEnd_of_isPrefix (y := ['.']) (by simp [scanWordEnd, isWordCont]) hx
            fun h => absurd h (by decide)
        have hword : scanWordEnd (isWordCont py) ('.' :: x) = (['.'], x) := hword
        rw [h, if_pos (by simp [isWordCont])]
        simp [hword]
    rw [runEnd, if_pos hc] at hw
    split at hw
    · next hcont =>
        rcases isPrefix_append_cases hw with hw | ⟨m, rfl, hm⟩
        · exact hnumber hw
        by_cases hne : m = []
        · subst hne
          rw [List.append_nil]
          exact hnumber List.prefix_rfl
        have hmem : m <+: (numberEnd y).2 := hm.trans ⟨_, scanWordEnd_append _ _⟩
        have hlast : m.getLast? = some APOSTROPHE → x = [] := fun h => hlast (by
          rw [List.getLast?_append, h]
          rfl)
        have hhead : (m ++ x).head?.any (isWordCont py) = true := by
          obtain ⟨b, m, rfl⟩ := List.exists_cons_of_ne_nil hne
          obtain ⟨tail, htail⟩ := hmem
          rw [← htail] at hcont
          exact hcont
        rw [List.append_assoc, runEnd, if_pos hc, numberEnd_append_word hmem hne hx.head_not_cont, if_pos hhead,
          scanWordEnd_of_isPrefix hm hx hlast]
    · exact hnumber hw
  · rw [runEnd, if_neg hc] at hw ⊢
    exact scanWordEnd_of_isPrefix hw hx hlast

def IsWordRun (py : PyHost) (c : Char) (cs : List Char) : Prop :=
  c.isDigit = true → (numberEnd cs).2.head?.any (isWordCont py) = true

theorem stops_runEnd (h : IsWordRun py c cs) : Stops py (runEnd py c cs).2 := by
  by_cases hc : c.isDigit = true
  · rw [runEnd_word hc (h hc)]
    exact stops_scanWordEnd _
  · rw [runEnd_of_not_digit hc]
    exact stops_scanWordEnd _

theorem runEnd_apostrophe (hcont : isWordCont py APOSTROPHE = false) (h : IsWordRun py c y)
    (hlast : (runEnd py c y).1.getLast? ≠ some APOSTROPHE) :
    runEnd py c ((runEnd py c y).1 ++ [APOSTROPHE]) = ((runEnd py c y).1 ++ [APOSTROPHE], []) := by
  have hone : scanWordEnd (isWordCont py) [APOSTROPHE] = ([APOSTROPHE], []) := by
    simp [scanWordEnd]
  have hhead : ([APOSTROPHE] : List Char).head?.any (isWordCont py) = false := hcont
  by_cases hc : c.isDigit = true
  · have hword := h hc
    rw [runEnd_word hc hword] at hlast ⊢
    have hne : (scanWordEnd (isWordCont py) (numberEnd y).2).1 ≠ [] := by
      cases hy : (numberEnd y).2 with
      | nil => simp [hy] at hword
      | cons b rest =>
        rw [hy] at hword
        have hb : isWordCont py b = true := hword
        simp [scanWordEnd, hb]
    have hlast : (scanWordEnd (isWordCont py) (numberEnd y).2).1.getLast? ≠ some APOSTROPHE :=
      fun hl => hlast (by rw [List.getLast?_append, hl]; rfl)
    have hend := numberEnd_append_word (y := y) (x := [APOSTROPHE])
      ⟨_, scanWordEnd_append _ _⟩ hne hhead
    obtain ⟨b, run, hrun⟩ := List.exists_cons_of_ne_nil hne
    have hb : isWordCont py b = true := by
      have happend := scanWordEnd_append (isWordCont py) (numberEnd y).2
      rw [hrun] at happend
      rw [← happend] at hword
      exact hword
    rw [List.append_assoc, runEnd_word hc (by rw [hend, hrun]; exact hb), hend]
    simp only
    rw [scanWordEnd_append_of List.prefix_rfl fun hl => absurd hl hlast, hone]
  · rw [runEnd_of_not_digit hc] at hlast ⊢
    rw [runEnd_of_not_digit hc, scanWordEnd_append_of List.prefix_rfl fun hl => absurd hl hlast, hone]

end Tokenizer
