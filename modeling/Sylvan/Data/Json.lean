-- SUMMARY: JSON values, their canonical text, and the values within a value.
import Mathlib.Data.List.Infix
import Mathlib.Data.List.Sort
import Sylvan.Data.JsMap

/-!
# JSON

Filter trees cross the wire as JSON text. A value keeps its object keys as they
came; `canonicalStringify` writes them sorted.
-/

inductive Json where
  | null
  | bool (b : Bool)
  | num (text : String)
  | str (s : String)
  | arr (items : List Json)
  | obj (fields : List (String × Json))

namespace Json

/-- `value[key]`: only objects have the properties a filter tree is read by. -/
def prop (key : String) : Json → Option Json
  | .obj fields => JsMap.lookup key fields
  | _ => none

/-- `value?.[key]`. -/
def get (j : Option Json) (key : String) : Option Json := j.bind (prop key)

/-- `value === s`. -/
def isStr (j : Option Json) (s : String) : Bool :=
  match j with
  | some (.str t) => t = s
  | _ => false

theorem isStr_eq_true {j : Option Json} {s : String} : isStr j s = true ↔ j = some (.str s) := by
  unfold isStr
  split <;> simp_all

/-! ## Text -/

/-- `JSON.stringify` of one character inside a string. -/
def escape (c : Char) : List Char :=
  if c = Char.ofNat 0x22 ∨ c = Char.ofNat 0x5c then [Char.ofNat 0x5c, c]
  else if c = Char.ofNat 8 then [Char.ofNat 0x5c, 'b']
  else if c = Char.ofNat 9 then [Char.ofNat 0x5c, 't']
  else if c = Char.ofNat 10 then [Char.ofNat 0x5c, 'n']
  else if c = Char.ofNat 12 then [Char.ofNat 0x5c, 'f']
  else if c = Char.ofNat 13 then [Char.ofNat 0x5c, 'r']
  else if c.toNat < 0x20 then
    [Char.ofNat 0x5c, 'u', '0', '0', Nat.digitChar (c.toNat / 16), Nat.digitChar (c.toNat % 16)]
  else [c]

/-- The characters `s` between double quotes. -/
def between (s : List Char) : List Char := Char.ofNat 0x22 :: (s ++ [Char.ofNat 0x22])

def quote (s : String) : List Char := between (s.toList.flatMap escape)

mutual

def canonicalStringify : Json → List Char
  | .null => ['n', 'u', 'l', 'l']
  | .bool true => ['t', 'r', 'u', 'e']
  | .bool false => ['f', 'a', 'l', 's', 'e']
  | .num text => text.toList
  | .str s => quote s
  | .arr items => ['['] ++ [','].intercalate (writeItems items) ++ [']']
  | .obj fields =>
    ['{'] ++ [','].intercalate (((writeFields fields).insertionSort (fun f g => f.1 ≤ g.1)).map
      fun f => quote f.1 ++ [':'] ++ f.2) ++ ['}']

def writeItems : List Json → List (List Char)
  | [] => []
  | item :: items => canonicalStringify item :: writeItems items

def writeFields : List (String × Json) → List (String × List Char)
  | [] => []
  | (key, value) :: fields => (key, canonicalStringify value) :: writeFields fields

end

theorem mem_writeItems {item : Json} {items : List Json} (h : item ∈ items) :
    canonicalStringify item ∈ writeItems items := by
  induction items with
  | nil => cases h
  | cons first items ih =>
    rw [writeItems]
    rcases List.mem_cons.mp h with rfl | h
    · exact List.mem_cons_self
    · exact List.mem_cons_of_mem _ (ih h)

variable {key : String}

theorem mem_writeFields {value : Json} {fields : List (String × Json)}
    (h : (key, value) ∈ fields) : (key, canonicalStringify value) ∈ writeFields fields := by
  induction fields with
  | nil => cases h
  | cons first fields ih =>
    obtain ⟨key', value'⟩ := first
    rw [writeFields]
    rcases List.mem_cons.mp h with heq | h
    · obtain ⟨rfl, rfl⟩ := Prod.mk.inj heq
      exact List.mem_cons_self
    · exact List.mem_cons_of_mem _ (ih h)

theorem infix_intercalate {piece sep : List Char} {pieces : List (List Char)}
    (h : piece ∈ pieces) : piece <:+: sep.intercalate pieces := by
  induction pieces with
  | nil => cases h
  | cons first pieces ih =>
    cases pieces with
    | nil =>
      obtain rfl := List.mem_singleton.mp h
      simp
    | cons second pieces =>
      rw [List.intercalate_cons_cons]
      rcases List.mem_cons.mp h with rfl | h
      · exact ⟨[], sep ++ sep.intercalate (second :: pieces), by simp⟩
      · exact (ih h).trans (List.suffix_append _ _).isInfix

/-! ## Values within a value -/

inductive Within (inner : Json) : Json → Prop where
  | refl : Within inner inner
  | item {item : Json} {items : List Json} (hmem : item ∈ items) (h : Within inner item) :
      Within inner (.arr items)
  | field {key : String} {value : Json} {fields : List (String × Json)}
      (hmem : (key, value) ∈ fields) (h : Within inner value) : Within inner (.obj fields)

theorem Within.trans {a b c : Json} (hab : Within a b) (hbc : Within b c) : Within a c := by
  induction hbc with
  | refl => exact hab
  | item hmem _ ih => exact .item hmem ih
  | field hmem _ ih => exact .field hmem ih

theorem within_of_prop {j value : Json} (h : j.prop key = some value) : Within value j := by
  cases j with
  | obj fields => exact .field (JsMap.mem_of_lookup h) .refl
  | null | bool | num | str | arr => cases h

theorem within_of_get {j : Option Json} {outer value : Json}
    (hj : ∀ inner, j = some inner → Within inner outer) (h : get j key = some value) :
    Within value outer := by
  obtain ⟨inner, rfl, hprop⟩ := Option.bind_eq_some_iff.mp h
  exact (within_of_prop hprop).trans (hj inner rfl)

theorem Within.infix {inner outer : Json} (h : Within inner outer) :
    canonicalStringify inner <:+: canonicalStringify outer := by
  induction h with
  | refl => exact List.infix_rfl
  | @item item items hmem _ ih =>
    have hpiece : canonicalStringify item <:+: [','].intercalate (writeItems items) :=
      infix_intercalate (mem_writeItems hmem)
    rw [canonicalStringify]
    exact ih.trans (hpiece.trans ⟨['['], [']'], rfl⟩)
  | @field key value fields hmem _ ih =>
    have hfield : quote key ++ [':'] ++ canonicalStringify value ∈
        ((writeFields fields).insertionSort (fun f g => f.1 ≤ g.1)).map
          fun f => quote f.1 ++ [':'] ++ f.2 := by
      refine List.mem_map.mpr ⟨(key, canonicalStringify value), ?_, rfl⟩
      exact List.mem_insertionSort _ |>.mpr (mem_writeFields hmem)
    rw [canonicalStringify]
    exact ih.trans ((List.suffix_append _ _).isInfix.trans
      ((infix_intercalate hfield).trans ⟨['{'], ['}'], rfl⟩))

theorem quote_plain {s : String} (h : s.toList.flatMap escape = s.toList) : quote s = between s.toList := by
  rw [quote, h]

theorem sizeOf_lt_of_lookup {fields : List (String × Json)} {value : Json}
    (h : JsMap.lookup key fields = some value) : sizeOf value < sizeOf fields := by
  have hmem := List.sizeOf_lt_of_mem (JsMap.mem_of_lookup h)
  simp only [Prod.mk.sizeOf_spec] at hmem
  omega

theorem sizeOf_lt_of_prop {j value : Json} (h : j.prop key = some value) : sizeOf value < sizeOf j := by
  cases j with
  | obj fields =>
    have := sizeOf_lt_of_lookup h
    simp only [obj.sizeOf_spec]
    omega
  | null | bool | num | str | arr => cases h

end Json
