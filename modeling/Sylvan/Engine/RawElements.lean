-- SUMMARY: The scan that cuts a response's array into its elements' texts, and the last element it drops.
import Sylvan.Data.Search
import Sylvan.Import.IsListTable

/-!
# Raw array elements

The mirrored routes serve the elements of a response as they were written, so a scan that
knows strings and depths cuts the text of the array.
-/

namespace RawElements

open IsLists (isSpace trimBy)

def QUOTE : Char := Char.ofNat 0x22
def BACKSLASH : Char := Char.ofNat 0x5c

def isOpen (c : Char) : Bool := c = '[' || c = '{'
def isClose (c : Char) : Bool := c = ']' || c = '}'

def slice (text : List Char) (start stop : ℕ) : List Char := (text.drop start).take (stop - start)

structure Scan where
  depth : ℕ
  inString : Bool
  escaped : Bool
  start : Option ℕ
  elements : List (List Char)

/-- The scan from place `i` on. -/
def scan (text : List Char) : Scan → (i : ℕ) → List Char → List (List Char)
  | s, _, [] => s.elements
  | s, i, c :: rest =>
    if s.inString then
      scan text (if s.escaped then { s with escaped := false }
        else if c = BACKSLASH then { s with escaped := true }
        else if c = QUOTE then { s with inString := false } else s) (i + 1) rest
    else if c = QUOTE then
      scan text { s with inString := true, start := if s.depth = 1 ∧ s.start = none then some i else s.start } (i + 1) rest
    else if isOpen c then
      scan text { s with
        depth := s.depth + 1, start := if s.depth + 1 = 2 ∧ s.start = none then some i else s.start } (i + 1) rest
    else if isClose c then
      let pushed := match s.start with
        | some start =>
          if s.depth - 1 = 1 then { s with elements := s.elements ++ [slice text start (i + 1)], start := none } else s
        | none => s
      if s.depth - 1 = 0 then pushed.elements else scan text { pushed with depth := s.depth - 1 } (i + 1) rest
    else
      match s.start with
      | some start =>
        if s.depth = 1 ∧ c = ',' then
          scan text { s with elements := s.elements ++ [trimBy isSpace (slice text start i)], start := none } (i + 1) rest
        else scan text s (i + 1) rest
      | none =>
        -- a number or a literal
        if s.depth = 1 ∧ ¬ (isSpace c ∨ c = ',') then scan text { s with start := some i } (i + 1) rest
        else scan text s (i + 1) rest

def quoted (key : List Char) : List Char := QUOTE :: (key ++ [QUOTE])

def rawArrayElements (responseText arrayKey : List Char) : List (List Char) :=
  match Search.find (quoted arrayKey) responseText with
  | none => []
  | some keyAt =>
    match Search.find ['['] (responseText.drop keyAt) with
    | none => []
    | some n => scan responseText ⟨0, false, false, none, []⟩ (keyAt + n) (responseText.drop (keyAt + n))

/-! ## JSON text -/

/-- What stands between a string's quotes. -/
inductive Body : List Char → Prop where
  | nil : Body []
  | plain {c : Char} {s : List Char} (hquote : c ≠ QUOTE) (hback : c ≠ BACKSLASH) (h : Body s) : Body (c :: s)
  | escape (c : Char) {s : List Char} (h : Body s) : Body (BACKSLASH :: c :: s)

def isPlain (c : Char) : Bool := c ≠ QUOTE && !isOpen c && !isClose c

/-- What stands between the brackets of an array or an object. -/
inductive Inner : List Char → Prop where
  | nil : Inner []
  | plain {c : Char} {s : List Char} (hc : isPlain c = true) (h : Inner s) : Inner (c :: s)
  | string {b s : List Char} (hb : Body b) (h : Inner s) : Inner (QUOTE :: (b ++ QUOTE :: s))
  | nested {o c : Char} {x s : List Char} (ho : isOpen o = true) (hc : isClose c = true) (hx : Inner x) (h : Inner s) :
      Inner (o :: (x ++ c :: s))

/-- A value's text, and whether it is an array or an object. -/
inductive Value : Bool → List Char → Prop where
  | scalar {s : List Char} (hne : s ≠ []) (hs : ∀ c ∈ s, isPlain c = true ∧ c ≠ ',' ∧ isSpace c = false) : Value false s
  | string {b : List Char} (hb : Body b) : Value false (QUOTE :: (b ++ [QUOTE]))
  | nested {o c : Char} {x : List Char} (ho : isOpen o = true) (hc : isClose c = true) (hx : Inner x) :
      Value true (o :: (x ++ [c]))

structure Element where
  nested : Bool
  lead : List Char
  value : List Char
  trail : List Char
  valid : Value nested value
  blank : ∀ c ∈ lead ++ trail, isSpace c = true

def Element.text (e : Element) : List Char := e.lead ++ (e.value ++ e.trail)

/-- A response in which a key first stands in front of an array. -/
structure Response where
  key : List Char
  front : List Char
  gap : List Char
  pad : List Char
  elements : List Element
  back : List Char
  first : ∀ n < front.length, ¬ Search.At (quoted key) (front ++ quoted key) n
  colon : '[' ∉ key ++ gap
  blank : ∀ c ∈ pad, isSpace c = true

def Response.array (r : Response) : List Char := r.pad ++ ([','].intercalate (r.elements.map Element.text) ++ ']' :: r.back)

def Response.text (r : Response) : List Char :=
  r.front ++ (quoted r.key ++ (r.gap ++ '[' :: r.array))

/-! ## The scan -/

attribute [local simp] scan

variable {text b x v rest : List Char} {d i st : ℕ} {start : Option ℕ} {es : List (List Char)}

theorem scan_body (h : Body b) : scan text ⟨d, true, false, start, es⟩ i (b ++ QUOTE :: rest) =
    scan text ⟨d, false, false, start, es⟩ (i + (b.length + 1)) rest := by
  induction h generalizing i with
  | nil => simp [show QUOTE ≠ BACKSLASH by decide]
  | plain hquote hback _ ih =>
    simp only [List.cons_append, scan, if_true, if_neg hback, if_neg hquote, ih, List.length_cons, Bool.false_eq_true, if_false]
    congr 1
    omega
  | escape c _ ih =>
    simp only [List.cons_append, scan, if_true, ih, List.length_cons, Bool.false_eq_true, if_false]
    congr 1
    omega

theorem plain_of_space {c : Char} (h : isSpace c = true) : isPlain c = true ∧ c ≠ ',' := by
  have hne : ∀ d ∈ [QUOTE, '[', '{', ']', '}', ','], isSpace d = false := by decide
  simp only [isPlain, isOpen, isClose, Bool.and_eq_true, Bool.not_eq_true', Bool.or_eq_false_iff, decide_eq_true_eq,
    decide_eq_false_iff_not, and_assoc]
  refine ⟨?_, ?_, ?_, ?_, ?_, ?_⟩ <;> rintro rfl <;> exact absurd h (by rw [hne _ (by simp)]; decide)

theorem marks {c : Char} : (isPlain c = true → c ≠ QUOTE ∧ isOpen c = false ∧ isClose c = false) ∧
    (isOpen c = true → c ≠ QUOTE) ∧ (isClose c = true → c ≠ QUOTE ∧ isOpen c = false) := by
  refine ⟨fun h => ?_, ?_, ?_⟩
  · simpa [isPlain, and_assoc] using h
  · rintro h rfl
    cases h
  · intro h
    simp only [isClose, Bool.or_eq_true, decide_eq_true_eq] at h
    rcases h with rfl | rfl <;> decide

theorem scan_inner (h : Inner x) (hd : 2 ≤ d) : scan text ⟨d, false, false, some st, es⟩ i (x ++ rest) =
    scan text ⟨d, false, false, some st, es⟩ (i + x.length) rest := by
  induction h generalizing d i rest with
  | nil => rfl
  | plain hc _ ih =>
    obtain ⟨hquote, hopen, hclose⟩ := marks.1 hc
    simp [hquote, hopen, hclose, show d ≠ 1 by omega, ih hd, Nat.add_assoc, Nat.add_comm 1]
  | string hb _ ih =>
    simp [scan_body hb, ih hd, Nat.add_comm, Nat.add_left_comm]
  | nested ho hc _ _ ihx ih =>
    obtain ⟨hquote, hopen⟩ := marks.2.2 hc
    simp [marks.2.1 ho, ho, ihx (Nat.le_succ_of_le hd), hquote, hopen, hc, show d ≠ 1 by omega, show d ≠ 0 by omega, ih hd,
      Nat.add_comm, Nat.add_left_comm]

theorem scan_blank {b : List Char} (h : ∀ c ∈ b, isSpace c = true) : scan text ⟨1, false, false, start, es⟩ i (b ++ rest) =
    scan text ⟨1, false, false, start, es⟩ (i + b.length) rest := by
  induction b generalizing i with
  | nil => rfl
  | cons c b ih =>
    obtain ⟨hplain, hcomma⟩ := plain_of_space (h c List.mem_cons_self)
    obtain ⟨hquote, hopen, hclose⟩ := marks.1 hplain
    cases start <;>
      simp [hquote, hopen, hclose, hcomma, h c List.mem_cons_self, ih fun c hc => h c (List.mem_cons_of_mem _ hc),
        Nat.add_assoc, Nat.add_comm 1]

theorem scan_value {nested : Bool} (h : Value nested v) : scan text ⟨1, false, false, none, es⟩ i (v ++ rest) =
    scan text (if nested then ⟨1, false, false, none, es ++ [slice text i (i + v.length)]⟩
      else ⟨1, false, false, some i, es⟩) (i + v.length) rest := by
  cases h with
  | scalar hne hs =>
    have hrun : ∀ {u : List Char} {j : ℕ}, (∀ c ∈ u, isPlain c = true ∧ c ≠ ',' ∧ isSpace c = false) →
        scan text ⟨1, false, false, some i, es⟩ j (u ++ rest) = scan text ⟨1, false, false, some i, es⟩ (j + u.length) rest := by
      intro u j hu
      induction u generalizing j with
      | nil => rfl
      | cons c u ih =>
        obtain ⟨hplain, hcomma, _⟩ := hu c List.mem_cons_self
        obtain ⟨hquote, hopen, hclose⟩ := marks.1 hplain
        simp [hquote, hopen, hclose, hcomma, ih fun c hc => hu c (List.mem_cons_of_mem _ hc), Nat.add_assoc, Nat.add_comm 1]
    cases v with
    | nil => exact absurd rfl hne
    | cons c v =>
      obtain ⟨hplain, hcomma, hspace⟩ := hs c List.mem_cons_self
      obtain ⟨hquote, hopen, hclose⟩ := marks.1 hplain
      simp [hquote, hopen, hclose, hcomma, hspace, hrun fun c hc => hs c (List.mem_cons_of_mem _ hc), Nat.add_assoc, Nat.add_comm 1]
  | string hb =>
    simp [scan_body hb, Nat.add_comm, Nat.add_left_comm]
  | nested ho hc hx =>
    obtain ⟨hquote, hopen⟩ := marks.2.2 hc
    simp [marks.2.1 ho, ho, scan_inner hx, hquote, hopen, hc, Nat.add_comm, Nat.add_left_comm]

theorem trim_value (h : Value false v) {trail : List Char} (htrail : ∀ c ∈ trail, isSpace c = true) :
    trimBy isSpace (v ++ trail) = v := by
  have hends : v ≠ [] ∧ (∀ c ∈ v.head?, isSpace c = false) ∧ ∀ c ∈ v.getLast?, isSpace c = false := by
    cases h with
    | scalar hne hs => exact ⟨hne, fun c hc => (hs c (List.mem_of_head? hc)).2.2, fun c hc => (hs c (List.mem_of_getLast? hc)).2.2⟩
    | string hb => simp [List.getLast?_cons, show isSpace QUOTE = false by decide]
  obtain ⟨hne, hhead, hlast⟩ := hends
  have hfront : (v ++ trail).dropWhile isSpace = v ++ trail := by
    cases v with
    | nil => exact absurd rfl hne
    | cons c v => simp [hhead c rfl]
  have hback : v.reverse.dropWhile isSpace = v.reverse := by
    rw [← List.head?_reverse] at hlast
    cases hv : v.reverse with
    | nil => rfl
    | cons c u => simp [hlast c (by simp [hv])]
  rw [trimBy, hfront, List.reverse_append, List.dropWhile_append_of_pos (by simpa using htrail), hback, List.reverse_reverse]

/-- What the scan returns: a bare value that stands last is begun and never pushed. -/
def kept : List Element → List (List Char)
  | [] => []
  | [e] => if e.nested then [e.value] else []
  | e :: e' :: l => e.value :: kept (e' :: l)

theorem slice_append (front v back : List Char) : slice (front ++ (v ++ back)) front.length (front.length + v.length) = v := by
  rw [slice, List.drop_left, Nat.add_sub_cancel_left, List.take_left]

theorem scan_element {front : List Char} (e : Element) (htext : text = front ++ (e.text ++ rest)) :
    scan text ⟨1, false, false, none, es⟩ front.length (e.text ++ rest) =
      scan text (if e.nested then ⟨1, false, false, none, es ++ [e.value]⟩
        else ⟨1, false, false, some (front.length + e.lead.length), es⟩) (front.length + e.text.length) rest := by
  have hslice := slice_append (front ++ e.lead) e.value (e.trail ++ rest)
  have hwhole : front ++ e.lead ++ (e.value ++ (e.trail ++ rest)) = text := by
    rw [htext, Element.text]
    simp only [List.append_assoc]
  rw [hwhole, List.length_append] at hslice
  have htrail : ∀ c ∈ e.trail, isSpace c = true := fun c hc => e.blank c (List.mem_append_right _ hc)
  rw [Element.text, List.append_assoc, scan_blank fun c hc => e.blank c (List.mem_append_left _ hc), List.append_assoc,
    scan_value e.valid, hslice]
  split_ifs <;> simp [scan_blank htrail, Nat.add_assoc]

theorem scan_elements {back : List Char} (l : List Element) {e : Element} {front : List Char}
    (htext : text = front ++ ([','].intercalate ((e :: l).map Element.text) ++ ']' :: back)) :
    scan text ⟨1, false, false, none, es⟩ front.length ([','].intercalate ((e :: l).map Element.text) ++ ']' :: back) =
      es ++ kept (e :: l) := by
  induction l generalizing es front e with
  | nil =>
    simp only [List.map_cons, List.map_nil, List.intercalate_singleton] at htext ⊢
    rw [scan_element e htext, kept]
    split_ifs <;> simp [isOpen, isClose, show ']' ≠ QUOTE by decide]
  | cons e' l ih =>
    simp only [List.map_cons, List.intercalate_cons_cons, List.append_assoc, List.singleton_append] at htext ⊢
    rw [scan_element e htext, kept]
    have hslice := slice_append (front ++ e.lead) (e.value ++ e.trail) (',' :: ([','].intercalate ((e' :: l).map Element.text) ++ ']' :: back))
    rw [show front ++ e.lead ++ _ = text by rw [htext, Element.text]; simp, ← List.length_append,
      show front ++ e.lead ++ (e.value ++ e.trail) = front ++ e.text by simp [Element.text], List.length_append, List.length_append] at hslice
    have hrest := @ih (es ++ [e.value]) e' (front ++ e.text ++ [',']) (by rw [htext]; simp)
    simp only [List.map_cons, List.length_append, List.length_singleton, List.append_assoc, List.singleton_append] at hrest
    rw [← hrest]
    have hvalid := e.valid
    cases hnested : e.nested with
    | true => simp [isOpen, isClose, show ',' ≠ QUOTE by decide, Nat.add_assoc]
    | false =>
      rw [hnested] at hvalid
      simp [isOpen, isClose, show ',' ≠ QUOTE by decide, hslice, trim_value hvalid fun c hc =>
        e.blank c (List.mem_append_right _ hc), Nat.add_assoc]

theorem kept_eq_iff (l : List Element) : kept l = l.map Element.value ↔ ∀ e ∈ l.getLast?, e.nested = true := by
  induction l with
  | nil => simp [kept]
  | cons e l ih =>
    cases l with
    | nil => cases h : e.nested <;> simp [kept, h]
    | cons e' l => simpa [kept] using ih

/-- `{"data":["a"]}` -/
def oneString : Response where
  key := "data".toList
  front := ['{']
  gap := [':']
  pad := []
  elements := [⟨false, [], quoted ['a'], [], .string (.plain (by decide) (by decide) .nil), nofun⟩]
  back := ['}']
  first n hn := by
    obtain rfl : n = 0 := by simpa using hn
    unfold Search.At
    decide
  colon := by decide
  blank := nofun

end RawElements
