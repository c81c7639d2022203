-- SUMMARY: The products of a pattern's nested explicit repeats, and which of them the scan's counter holds.
import Mathlib.Order.MinMax
import Sylvan.Parser.RegexBudget

/-!
# Nested repeats

A pattern's constructs are a tree of groups. A repeat multiplies what it repeats, so a chain
of repeats, each inside the group the next one repeats, repeats as often as their product.
The scan carries a product out of a group only to the repeat right behind it.
-/

namespace RegexBudget

/-! ## Groups -/

inductive Piece where
  /-- What a repeat behind it repeats: a character, an escape, a class. Also `|`, behind which a new branch starts. -/
  | atom
  /-- `.`, `^`, `$`, and a backslash at the end. -/
  | mark
  /-- `*`, `+` or `?`. -/
  | loop
  | bound (factor : ℕ)
  | group (body : List Piece)

/-- A construct into the open groups, innermost first. -/
def nest (frames : List (List Piece)) (construct : Construct) : List (List Piece) :=
  match frames with
  | [] => []
  | frame :: outer =>
    match construct with
    | .open _ => [] :: frame :: outer
    | .close =>
      match outer with
      | below :: rest => (below ++ [.group frame]) :: rest
      | [] => [frame ++ [.atom]]
    | .bound lower upper => (frame ++ [.bound (upper.getD lower)]) :: outer
    | .loop => (frame ++ [.loop]) :: outer
    | .mark | .escape none => (frame ++ [.mark]) :: outer
    | .escape (some _) | .charClass | .bar | .brace | .literal => (frame ++ [.atom]) :: outer

/-- The groups left open at the end of the pattern, closed. -/
def closeAll : List (List Piece) → List Piece
  | [] => []
  | [frame] => frame
  | frame :: below :: rest => closeAll ((below ++ [.group frame]) :: rest)
termination_by frames => frames.length

def groups (pattern : List Char) : List Piece := closeAll ((constructs pattern).foldl nest [[]])

/-! ## Chains of repeats

`c` is the factor of what stands before the pieces. -/

mutual

/-- What a repeat behind the piece multiplies. -/
inductive Nested.Behind : ℕ → Piece → ℕ → Prop where
  | atom {c : ℕ} : Nested.Behind c .atom 1
  | mark {c : ℕ} : Nested.Behind c .mark 1
  | loop {c : ℕ} : Nested.Behind c .loop c
  | bound {c n : ℕ} : Nested.Behind c (.bound n) (n * c)
  | alone {c : ℕ} {body : List Piece} : Nested.Behind c (.group body) 1
  /-- The group is repeated, and any chain of repeats in it with it. -/
  | group {c v : ℕ} {body : List Piece} : Nested 1 body v → Nested.Behind c (.group body) v

/-- The products of chains of repeats, each inside the group the next one repeats. -/
inductive Nested : ℕ → List Piece → ℕ → Prop where
  | bound {c n : ℕ} {rest : List Piece} : Nested c (.bound n :: rest) (n * c)
  | inside {c v : ℕ} {body rest : List Piece} : Nested 1 body v → Nested c (.group body :: rest) v
  | later {c w v : ℕ} {p : Piece} {rest : List Piece} : Nested.Behind c p w → Nested w rest v → Nested c (p :: rest) v

end

mutual

/-- What the scan multiplies by a repeat behind the piece. -/
inductive Carried.Behind : ℕ → Piece → ℕ → Prop where
  | atom {c : ℕ} : Carried.Behind c .atom 1
  /-- A `.` does not reset it. -/
  | mark {c : ℕ} : Carried.Behind c .mark c
  | loop {c : ℕ} : Carried.Behind c .loop c
  | bound {c n : ℕ} : Carried.Behind c (.bound n) (n * c)
  | alone {c : ℕ} {body : List Piece} : Carried.Behind c (.group body) 1
  /-- Only a repeat at the group's own level is carried out of it. -/
  | group {c v : ℕ} {body : List Piece} : Carried.AtLevel c body v → Carried.Behind c (.group body) v

/-- The products of the chains that end with a repeat outside the pieces' groups. -/
inductive Carried.AtLevel : ℕ → List Piece → ℕ → Prop where
  | bound {c n : ℕ} {rest : List Piece} : Carried.AtLevel c (.bound n :: rest) (n * c)
  | later {c w v : ℕ} {p : Piece} {rest : List Piece} :
      Carried.Behind c p w → Carried.AtLevel w rest v → Carried.AtLevel c (p :: rest) v

end

/-- The products of the chains whose every repeat but the last stands at the top level of the group the next one
repeats, with nothing between that group and its repeat but `.`, `^`, `$`, `*`, `+`, `?`, repeats and the start of a group. -/
inductive Carried : ℕ → List Piece → ℕ → Prop where
  | bound {c n : ℕ} {rest : List Piece} : Carried c (.bound n :: rest) (n * c)
  | inside {c v : ℕ} {body rest : List Piece} : Carried c body v → Carried c (.group body :: rest) v
  | later {c w v : ℕ} {p : Piece} {rest : List Piece} : Carried.Behind c p w → Carried w rest v → Carried c (p :: rest) v

/-! ## The scan's counters over the tree -/

/-- The innermost group's factor, the last atom's and the largest product. -/
structure Counters where
  top : ℕ
  last : ℕ
  largest : ℕ
deriving DecidableEq

mutual

def Piece.run (s : Counters) : Piece → Counters
  | .atom => { s with last := 1 }
  | .mark => s
  | .loop => s
  | .bound n => { top := max s.top (n * s.last), last := n * s.last, largest := max s.largest (n * s.last) }
  | .group body =>
    let t := runAll { top := 1, last := s.last, largest := s.largest } body
    { top := s.top, last := t.top, largest := t.largest }

def runAll (s : Counters) : List Piece → Counters
  | [] => s
  | p :: rest => runAll (p.run s) rest

end

theorem runAll_append (s : Counters) (ps qs : List Piece) : runAll s (ps ++ qs) = runAll (runAll s ps) qs := by
  induction ps generalizing s with
  | nil => rfl
  | cons p ps ih => rw [List.cons_append, runAll, runAll, ih]

/-- The counters of the open groups: the stack of factors, and the last atom's and the largest. -/
def view : List (List Piece) → List ℕ × Counters
  | [] => ([], { top := 1, last := 1, largest := 1 })
  | frame :: outer =>
    let s := (view outer).2
    let t := runAll { top := 1, last := s.last, largest := s.largest } frame
    (t.top :: (view outer).1, t)

def Scan.Views (s : Scan) (frames : List (List Piece)) : Prop :=
  s.repeatStack = (view frames).1 ∧ s.lastAtomRepeat = (view frames).2.last ∧
    s.metrics.maxExplicitRepeat = (view frames).2.largest

theorem view_append (frame : List Piece) (outer : List (List Piece)) (p : Piece) : view ((frame ++ [p]) :: outer) =
      ((p.run (view (frame :: outer)).2).top :: (view outer).1, p.run (view (frame :: outer)).2) := by
  simp only [view, runAll_append, runAll]

theorem nest_ne_nil {frames : List (List Piece)} (h : frames ≠ []) (construct : Construct) : nest frames construct ≠ [] := by
  cases frames with
  | nil => exact absurd rfl h
  | cons frame outer =>
    cases construct with
    | close => cases outer <;> simp [nest]
    | escape next => cases next <;> simp [nest]
    | _ => simp [nest]

theorem step_views {s : Scan} {frames : List (List Piece)} (hne : frames ≠ []) (h : s.Views frames)
    (openRepeats : Bool) (construct : Construct) : (s.step openRepeats construct).Views (nest frames construct) := by
  obtain ⟨hstack, hlast, hlargest⟩ := h
  cases frames with
  | nil => exact absurd rfl hne
  | cons frame outer =>
    have hstack' : s.repeatStack = (view (frame :: outer)).2.top :: (view outer).1 := hstack
    -- A piece that only sets the last factor, or nothing.
    have hpiece : ∀ (p : Piece) (s' : Scan), s'.repeatStack = (p.run (view (frame :: outer)).2).top :: (view outer).1 →
        s'.lastAtomRepeat = (p.run (view (frame :: outer)).2).last →
        s'.metrics.maxExplicitRepeat = (p.run (view (frame :: outer)).2).largest →
        s'.Views ((frame ++ [p]) :: outer) := by
      intro p s' htop hlast' hlargest'
      unfold Scan.Views
      rw [view_append]
      exact ⟨htop, hlast', hlargest'⟩
    cases construct with
    | «open» kind => cases kind <;> exact ⟨congrArg (1 :: ·) hstack, hlast, hlargest⟩
    | close =>
      cases outer with
      | nil =>
        have hstack₁ : s.repeatStack = [(view [frame]).2.top] := hstack'
        have hstep : s.step openRepeats .close = { s with lastAtomRepeat := 1, depth := s.depth - 1 } := by
          rw [Scan.step, hstack₁]
        rw [hstep]
        exact hpiece .atom _ hstack' rfl hlargest
      | cons below rest =>
        have hstack₂ : s.repeatStack = (view (frame :: below :: rest)).2.top ::
            (view (below :: rest)).2.top :: (view rest).1 := hstack'
        have hstep : s.step openRepeats .close = { s with
            repeatStack := (view (below :: rest)).2.top :: (view rest).1
            lastAtomRepeat := (view (frame :: below :: rest)).2.top
            depth := s.depth - 1 } := by
          rw [Scan.step, hstack₂]
        rw [hstep]
        unfold Scan.Views
        rw [nest, view_append]
        exact ⟨rfl, rfl, hlargest⟩
    | bound lower upper =>
      have happlied : (s.step openRepeats (.bound lower upper)).repeatStack =
            raiseTop (upper.getD lower * s.lastAtomRepeat) s.repeatStack ∧
          (s.step openRepeats (.bound lower upper)).lastAtomRepeat = upper.getD lower * s.lastAtomRepeat ∧
          (s.step openRepeats (.bound lower upper)).metrics.maxExplicitRepeat =
            max s.metrics.maxExplicitRepeat (upper.getD lower * s.lastAtomRepeat) := by
        cases upper <;> exact ⟨rfl, rfl, rfl⟩
      rw [hstack', hlast, hlargest] at happlied
      exact hpiece (.bound (upper.getD lower)) _ happlied.1 happlied.2.1 happlied.2.2
    | loop => exact hpiece .loop _ hstack' hlast hlargest
    | mark => exact hpiece .mark _ hstack' hlast hlargest
    | escape next =>
      cases next with
      | none => exact hpiece .mark _ hstack' hlast hlargest
      | some next =>
        refine hpiece .atom _ hstack' rfl ?_
        rw [Piece.run, ← hlargest, Scan.step]
        dsimp only
        split <;> rfl
    | charClass => exact hpiece .atom _ hstack' rfl hlargest
    | bar => exact hpiece .atom _ hstack' rfl hlargest
    | brace => exact hpiece .atom _ hstack' rfl hlargest
    | literal => exact hpiece .atom _ hstack' rfl hlargest

theorem scan_views (openRepeats : Bool) (l : List Construct) {s : Scan} {frames : List (List Piece)} (hne : frames ≠ [])
    (h : s.Views frames) : (l.foldl (Scan.step openRepeats) s).Views (l.foldl nest frames) := by
  induction l generalizing s frames with
  | nil => exact h
  | cons construct l ih => exact ih (nest_ne_nil hne construct) (step_views hne h openRepeats construct)

theorem largest_closeAll (frames : List (List Piece)) :
    (view frames).2.largest = (runAll { top := 1, last := 1, largest := 1 } (closeAll frames)).largest := by
  match frames with
  | [] =>
    rw [closeAll]
    rfl
  | [frame] =>
    rw [closeAll]
    rfl
  | frame :: below :: rest =>
    rw [closeAll, ← largest_closeAll ((below ++ [Piece.group frame]) :: rest), view_append]
    rfl
termination_by frames.length

theorem maxExplicitRepeat_eq (pattern : List Char) (openRepeats : Bool) :
    (analyzePattern pattern openRepeats).maxExplicitRepeat =
      (runAll { top := 1, last := 1, largest := 1 } (groups pattern)).largest := by
  have hviews := scan_views openRepeats (constructs pattern) (by simp) (show Scan.init.Views [[]] from ⟨rfl, rfl, rfl⟩)
  rw [groups, ← largest_closeAll]
  exact hviews.2.2

/-! ## What the counters hold -/

mutual

theorem Piece.run_upper (p : Piece) {s : Counters} {c : ℕ} (hc : c ≤ s.last) :
    (∀ v, Carried.Behind c p v → v ≤ (p.run s).last) ∧ s.top ≤ (p.run s).top ∧ s.largest ≤ (p.run s).largest := by
  match p with
  | .atom =>
    refine ⟨?_, le_rfl, le_rfl⟩
    rintro v ⟨⟩
    exact le_rfl
  | .mark | .loop =>
    refine ⟨?_, le_rfl, le_rfl⟩
    rintro v ⟨⟩
    exact hc
  | .bound n =>
    refine ⟨?_, le_max_left _ _, le_max_left _ _⟩
    rintro v ⟨⟩
    exact Nat.mul_le_mul_left n hc
  | .group body =>
    obtain ⟨hlevel, -, htop, hlargest⟩ := runAll_upper body (s := { top := 1, last := s.last, largest := s.largest }) hc
    refine ⟨?_, le_rfl, hlargest⟩
    intro v hv
    cases hv with
    | alone => exact htop
    | group h => exact hlevel v h

theorem runAll_upper (ps : List Piece) {s : Counters} {c : ℕ} (hc : c ≤ s.last) :
    (∀ v, Carried.AtLevel c ps v → v ≤ (runAll s ps).top) ∧ (∀ v, Carried c ps v → v ≤ (runAll s ps).largest) ∧
      s.top ≤ (runAll s ps).top ∧ s.largest ≤ (runAll s ps).largest := by
  match ps with
  | [] =>
    refine ⟨?_, ?_, le_rfl, le_rfl⟩
    · rintro v ⟨⟩
    · rintro v ⟨⟩
  | p :: rest =>
    obtain ⟨hbehind, htop, hlargest⟩ := Piece.run_upper p hc
    -- The rest is read with the operand the piece leaves.
    have hrest : ∀ w, w ≤ (p.run s).last → _ := fun w hw => runAll_upper rest hw
    obtain ⟨-, -, htop', hlargest'⟩ := hrest _ le_rfl
    refine ⟨?_, ?_, htop.trans htop', hlargest.trans hlargest'⟩
    · intro v hv
      cases hv with
      | bound => exact ((Nat.mul_le_mul_left _ hc).trans (le_max_right _ _)).trans htop'
      | later hw hv => exact (hrest _ (hbehind _ hw)).1 v hv
    · intro v hv
      cases hv with
      | bound => exact ((Nat.mul_le_mul_left _ hc).trans (le_max_right _ _)).trans hlargest'
      | inside hv =>
        rename_i body
        obtain ⟨-, hin, -, -⟩ := runAll_upper body (s := { top := 1, last := s.last, largest := s.largest }) hc
        exact (hin v hv).trans hlargest'
      | later hw hv => exact (hrest _ (hbehind _ hw)).2.1 v hv

end

mutual

theorem Piece.run_attained (p : Piece) (s : Counters) : Carried.Behind s.last p (p.run s).last ∧
      ((p.run s).top = s.top ∨ ∃ n, p = .bound n ∧ (p.run s).top = n * s.last) ∧
      ((p.run s).largest = s.largest ∨ ∀ rest, Carried s.last (p :: rest) (p.run s).largest) := by
  match p with
  | .atom => exact ⟨.atom, .inl rfl, .inl rfl⟩
  | .mark => exact ⟨.mark, .inl rfl, .inl rfl⟩
  | .loop => exact ⟨.loop, .inl rfl, .inl rfl⟩
  | .bound n =>
    refine ⟨.bound, ?_, ?_⟩
    · rcases max_choice s.top (n * s.last) with h | h
      · exact .inl h
      · exact .inr ⟨n, rfl, h⟩
    · rcases max_choice s.largest (n * s.last) with h | h
      · exact .inl h
      · right
        intro rest
        rw [show (Piece.run s (.bound n)).largest = n * s.last from h]
        exact .bound
  | .group body =>
    obtain ⟨htop, hlargest⟩ := runAll_attained body { top := 1, last := s.last, largest := s.largest }
    refine ⟨?_, .inl rfl, ?_⟩
    · rcases htop with h | h
      · rw [show (Piece.run s (.group body)).last = 1 from h]
        exact .alone
      · exact .group h
    · rcases hlargest with h | h
      · exact .inl h
      · exact .inr fun rest => .inside h

theorem runAll_attained (ps : List Piece) (s : Counters) :
    ((runAll s ps).top = s.top ∨ Carried.AtLevel s.last ps (runAll s ps).top) ∧
      ((runAll s ps).largest = s.largest ∨ Carried s.last ps (runAll s ps).largest) := by
  match ps with
  | [] => exact ⟨.inl rfl, .inl rfl⟩
  | p :: rest =>
    obtain ⟨hbehind, htop, hlargest⟩ := Piece.run_attained p s
    obtain ⟨htop', hlargest'⟩ := runAll_attained rest (p.run s)
    constructor
    · rcases htop' with h' | h'
      · rcases htop with h | ⟨n, rfl, h⟩
        · exact .inl (h'.trans h)
        · right
          rw [runAll, h', h]
          exact .bound
      · exact .inr (.later hbehind h')
    · rcases hlargest' with h' | h'
      · rcases hlargest with h | h
        · exact .inl (h'.trans h)
        · right
          rw [runAll, h']
          exact h rest
      · exact .inr (.later hbehind h')

end

/-- **What the scan reports** is the largest product it carries, or one. -/
theorem reported_spec (pattern : List Char) (openRepeats : Bool) :
    1 ≤ (analyzePattern pattern openRepeats).maxExplicitRepeat ∧
      (∀ v, Carried 1 (groups pattern) v → v ≤ (analyzePattern pattern openRepeats).maxExplicitRepeat) ∧
      ((analyzePattern pattern openRepeats).maxExplicitRepeat = 1 ∨
        Carried 1 (groups pattern) (analyzePattern pattern openRepeats).maxExplicitRepeat) := by
  rw [maxExplicitRepeat_eq]
  obtain ⟨-, hcarried, -, hone⟩ := runAll_upper (groups pattern) (s := { top := 1, last := 1, largest := 1 }) le_rfl
  obtain ⟨-, hattained⟩ := runAll_attained (groups pattern) { top := 1, last := 1, largest := 1 }
  exact ⟨hone, hcarried, hattained⟩

/-! ## The bound on nested repeats -/

/-- The scan reports at least the product of every chain of nested repeats, and the limits refuse a chain over the bound. -/
def BoundsNested (malformed : List Char → Option (List Char)) (openRepeats : Bool) (pattern : List Char) : Prop :=
  ∀ v, Nested 1 (groups pattern) v → v ≤ (analyzePattern pattern openRepeats).maxExplicitRepeat ∧
      (MAX_QUANTIFIER_BOUND < v → enforcePatternLimits malformed openRepeats pattern ≠ .ok ())

/-- **Nested repeats are bounded exactly where a carried chain is as large.** A group between two repeats of a chain that
has no repeat of its own keeps its product from the scan. -/
theorem boundsNested_iff (malformed : List Char → Option (List Char)) (openRepeats : Bool) (pattern : List Char) :
    BoundsNested malformed openRepeats pattern ↔
      ∀ v, Nested 1 (groups pattern) v → 1 < v → ∃ w, Carried 1 (groups pattern) w ∧ v ≤ w := by
  obtain ⟨hone, hcarried, hattained⟩ := reported_spec pattern openRepeats
  constructor
  · intro h v hv hlarge
    rcases hattained with hr | hr
    · exact absurd (h v hv).1 (by omega)
    · exact ⟨_, hr, (h v hv).1⟩
  · intro h v hv
    have hle : v ≤ (analyzePattern pattern openRepeats).maxExplicitRepeat := by
      by_cases hlarge : 1 < v
      · obtain ⟨w, hw, hvw⟩ := h v hv hlarge
        exact hvw.trans (hcarried w hw)
      · omega
    refine ⟨hle, ?_⟩
    intro hover hok
    exact absurd (maxExplicitRepeat_le_of_ok hok) (by omega)

/-- A group around a repeated group hides its product: 1,000,000 is reported as 1,000, and passes. -/
theorem nested_repeat_hidden : ¬ BoundsNested (fun _ => none) false "((a{1000})){1000}".toList := by
  intro h
  have hconstructs : constructs "((a{1000})){1000}".toList =
      [.open .plain, .open .plain, .literal, .bound 1000 (some 1000), .close, .close, .bound 1000 (some 1000)] := by
    decide
  have hgroups : groups "((a{1000})){1000}".toList = [.group [.group [.atom, .bound 1000]], .bound 1000] := by
    rw [groups, hconstructs]
    simp [nest, closeAll]
  have hnested : Nested 1 (groups "((a{1000})){1000}".toList) (1000 * (1000 * 1)) := by
    rw [hgroups]
    exact .later (.group (.inside (.later .atom .bound))) .bound
  exact (h _ hnested).2 (by decide) (by decide)

end RegexBudget
