-- SUMMARY: The key an address is limited under: its /64, however the address is spelt.
import Sylvan.Data.Fnv
import Sylvan.Data.Text

/-!
# Rate limit keys

An IPv6 client holds a whole /64, so that is what it is counted by. Addresses are read
as far as the key needs: split at `::`, padded with zero groups, the first four kept.
-/

namespace RateLimit

open Text

def isHexDigit (c : Char) : Bool := isDigit c || 'a' ≤ c.toLower && c.toLower ≤ 'f'

/-- `/^[0-9a-f]{1,4}$/i` -/
def isGroup (g : List Char) : Bool := 1 ≤ g.length && g.length ≤ 4 && g.all isHexDigit

def digitValue (c : Char) : ℕ := if isDigit c then c.toNat - '0'.toNat else c.toLower.toNat - 'a'.toNat + 10

/-- `Number.parseInt(g, 16)`, of a group. -/
def parseHex (g : List Char) : ℕ := g.foldl (fun n c => 16 * n + digitValue c) 0

/-- `/^::ffff:(\d{1,3}(?:\.\d{1,3}){3})$/i` -/
def mappedIPv4 (ip : List Char) : Option (List Char) :=
  let parts := (ip.drop 7).splitOn '.'
  if (ip.map Char.toLower).take 7 = "::ffff:".toList ∧ parts.length = 4 ∧
      parts.all fun part => 1 ≤ part.length && part.length ≤ 3 && part.all isDigit then some (ip.drop 7)
  else none

def colonParts (half : List Char) : List (List Char) := if half.isEmpty then [] else half.splitOn ':'

def prefixKey (groups : List ℕ) : List Char :=
  [':'].intercalate (groups.map (Nat.toDigits 16)) ++ "::".toList

def rateLimitKey (ip : List Char) : List Char :=
  if !ip.contains ':' then ip
  else
    match mappedIPv4 ip with
    | some mapped => mapped
    | none =>
      let halves := splitOn "::".toList ip
      let head := colonParts (halves.getD 0 [])
      let tail := if halves.length = 2 then colonParts (halves.getD 1 []) else []
      let given := head.length + tail.length
      if 2 < halves.length ∨ 8 < given ∨ (halves.length = 1 ∧ given ≠ 8) then ip
      else
        let groups := head ++ List.replicate (8 - given) ['0'] ++ tail
        if groups.length ≠ 8 ∨ groups.any fun g => !isGroup g then ip
        else prefixKey ((groups.take 4).map parseHex)

/-! ## Addresses -/

/-- The text spells the address of these eight groups: all of them, or with `::` for a run of zeros. -/
inductive Spells : List Char → List ℕ → Prop
  | whole {gs : List (List Char)} (hgs : ∀ g ∈ gs, isGroup g = true) (hlength : gs.length = 8) :
      Spells ([':'].intercalate gs) (gs.map parseHex)
  | compressed {front back : List (List Char)} (hfront : ∀ g ∈ front, isGroup g = true)
      (hback : ∀ g ∈ back, isGroup g = true) (hlength : front.length + back.length < 8) :
      Spells ([':'].intercalate front ++ ':' :: ':' :: [':'].intercalate back)
        (front.map parseHex ++ List.replicate (8 - (front.length + back.length)) 0 ++ back.map parseHex)

variable {g : List Char}

theorem hex_of_group (h : isGroup g = true) {c : Char} (hc : c ∈ g) : isHexDigit c = true := by
  simp only [isGroup, Bool.and_eq_true, List.all_eq_true] at h
  exact h.2 c hc

theorem group_ne_nil (h : isGroup g = true) : g ≠ [] := by
  rintro rfl
  cases h

theorem notMem_group (h : isGroup g = true) {c : Char} (hc : isHexDigit c = false) : c ∉ g :=
  fun hin => Bool.false_ne_true (hc.symm.trans (hex_of_group h hin))

/-! ## Reading a spelling -/

theorem splitFrom_plain (h : ':' ∉ g) (piece s : List Char) :
    splitFrom "::".toList 0 piece (g ++ s) = splitFrom "::".toList 0 (g.reverse ++ piece) s := by
  induction g generalizing piece with
  | nil => rfl
  | cons c g ih =>
    have hc : ':' ≠ c := fun heq => h (heq ▸ List.mem_cons_self)
    have hopen : "::".toList.isPrefixOf (c :: (g ++ s)) = false := by simp [List.isPrefixOf, hc]
    rw [List.cons_append, splitFrom, hopen, if_neg Bool.false_ne_true, ih fun hin => h (List.mem_cons_of_mem c hin)]
    simp

variable {gs : List (List Char)}

theorem splitFrom_groups (h : ∀ g ∈ gs, isGroup g = true) (piece s : List Char) :
    splitFrom "::".toList 0 piece ([':'].intercalate gs ++ s) =
      splitFrom "::".toList 0 (([':'].intercalate gs).reverse ++ piece) s := by
  induction gs generalizing piece with
  | nil => rfl
  | cons g gs ih =>
    have hg := notMem_group (h g List.mem_cons_self) (c := ':') rfl
    cases gs with
    | nil => simpa using splitFrom_plain hg piece s
    | cons next gs =>
      have hnext := h next (by simp)
      obtain ⟨c, more, rfl⟩ := List.exists_cons_of_ne_nil (group_ne_nil hnext)
      have hc : ':' ≠ c := fun heq => notMem_group hnext (c := ':') rfl (by simp [← heq])
      have hih := ih (fun g hg => h g (List.mem_cons_of_mem _ hg)) (':' :: g.reverse ++ piece)
      rw [List.intercalate_cons_cons_left] at hih
      rw [List.intercalate_cons_cons, List.intercalate_cons_cons_left, List.append_assoc, List.append_assoc,
        splitFrom_plain hg, List.singleton_append, List.cons_append, splitFrom]
      have hopen : "::".toList.isPrefixOf (':' :: c :: ([':'].intercalate (more :: gs) ++ s)) = false := by
        simp [List.isPrefixOf, hc]
      simp only [List.cons_append] at hih
      rw [hopen, if_neg Bool.false_ne_true, hih]
      simp

theorem splitOn_groups (h : ∀ g ∈ gs, isGroup g = true) :
    splitOn "::".toList ([':'].intercalate gs) = [[':'].intercalate gs] := by
  have hread := splitFrom_groups h [] []
  rw [List.append_nil, List.append_nil] at hread
  rw [splitOn, hread, splitFrom, List.reverse_reverse]

theorem colonParts_groups (h : ∀ g ∈ gs, isGroup g = true) : colonParts ([':'].intercalate gs) = gs := by
  cases gs with
  | nil => rfl
  | cons g gs =>
    have hne : ([':'].intercalate (g :: gs)).isEmpty = false := by
      obtain ⟨c, more, rfl⟩ := List.exists_cons_of_ne_nil (group_ne_nil (h g List.mem_cons_self))
      simp [List.intercalate_cons_cons_left]
    rw [colonParts, hne, if_neg Bool.false_ne_true,
      List.splitOn_intercalate ':' (fun g hg => notMem_group (h g hg) rfl) (List.cons_ne_nil _ _)]

theorem mappedIPv4_of_groups {ip : List Char} (h : ∀ c ∈ ip, c = ':' ∨ isHexDigit c = true) : mappedIPv4 ip = none := by
  have hdot : '.' ∉ ip.drop 7 := by
    intro hin
    rcases h '.' (List.mem_of_mem_drop hin) with hc | hc <;> cases hc
  have hparts : (ip.drop 7).splitOn '.' = [ip.drop 7] := List.splitOn_eq_singleton hdot
  simp [mappedIPv4, hparts]

theorem mem_groups (h : ∀ g ∈ gs, isGroup g = true) {c : Char}
    (hc : c ∈ [':'].intercalate gs) : c = ':' ∨ isHexDigit c = true := by
  rcases mem_intercalate hc with hc | ⟨g, hg, hin⟩
  · exact .inl hc
  · exact .inr (hex_of_group (h g hg) hin)

theorem rateLimitKey_spelled {ip : List Char} {address : List ℕ} (h : Spells ip address) :
    rateLimitKey ip = prefixKey (address.take 4) ∧ address.length = 8 := by
  cases h with
  | @whole gs hgs hlength =>
    have hcolon : ([':'].intercalate gs).contains ':' = true := by
      obtain ⟨g, rest, rfl⟩ := List.exists_cons_of_length_eq_add_one hlength
      obtain ⟨next, rest, rfl⟩ := List.exists_cons_of_length_eq_add_one (Nat.succ.inj hlength)
      simp [List.intercalate_cons_cons]
    have hany : (gs.any fun g => !isGroup g) = false := by
      simpa using hgs
    refine ⟨?_, by rw [List.length_map, hlength]⟩
    simp only [rateLimitKey, hcolon, mappedIPv4_of_groups fun c => mem_groups hgs, splitOn_groups hgs]
    simp [colonParts_groups hgs, hlength, hany]
  | @compressed front back hfront hback hlength =>
    have hhalves : splitOn "::".toList ([':'].intercalate front ++ ':' :: ':' :: [':'].intercalate back) =
        [[':'].intercalate front, [':'].intercalate back] := by
      have hopen : ∀ piece rest, splitFrom "::".toList 0 piece (':' :: ':' :: rest) =
          piece.reverse :: splitOn "::".toList rest := fun _ _ => rfl
      rw [splitOn, splitFrom_groups hfront, hopen, splitOn_groups hback]
      simp
    have hmapped : mappedIPv4 ([':'].intercalate front ++ ':' :: ':' :: [':'].intercalate back) = none := by
      refine mappedIPv4_of_groups fun c hc => ?_
      simp only [List.mem_append, List.mem_cons] at hc
      rcases hc with hc | hc | hc | hc
      · exact mem_groups hfront hc
      · exact .inl hc
      · exact .inl hc
      · exact mem_groups hback hc
    refine ⟨?_, ?_⟩
    · have hgiven : ¬ 8 < front.length + back.length := by omega
      have htotal : front.length + (8 - (front.length + back.length) + back.length) = 8 := by omega
      simp only [rateLimitKey, hmapped, hhalves]
      simp [colonParts_groups hfront, colonParts_groups hback, hgiven, htotal]
      rw [if_neg]
      · rfl
      · rintro (⟨g, hg, hnot⟩ | ⟨-, hnot⟩ | ⟨g, hg, hnot⟩)
        · exact Bool.false_ne_true (hnot.symm.trans (hfront g hg))
        · exact absurd hnot (by decide)
        · exact Bool.false_ne_true (hnot.symm.trans (hback g hg))
    · simp only [List.length_append, List.length_map, List.length_replicate]
      omega

/-! ## Keys -/

theorem colon_notMem_toDigits (n : ℕ) : ':' ∉ Nat.toDigits 16 n := by
  have hdigit : ∀ d < 16, ':' ≠ Nat.digitChar d := by decide
  induction n using Nat.strongRecOn with
  | ind n ih =>
    rw [Nat.toDigits_eq_if (by omega)]
    split
    · rename_i hlt
      rw [List.mem_singleton]
      exact hdigit n hlt
    · intro hin
      rcases List.mem_append.mp hin with hin | hin
      · exact ih (n / 16) (by omega) hin
      · exact hdigit (n % 16) (by omega) (List.mem_singleton.mp hin)

theorem toDigits_injective : Function.Injective (Nat.toDigits 16) := by
  intro m n h
  have hm : m < 16 ^ (m + n + 1) := (Nat.lt_pow_self (by omega)).trans_le (Nat.pow_le_pow_right (by omega) (by omega))
  have hn : n < 16 ^ (m + n + 1) := (Nat.lt_pow_self (by omega)).trans_le (Nat.pow_le_pow_right (by omega) (by omega))
  refine Fnv.hex_inj hm hn ?_
  rw [← Fnv.leftpad_toDigits (by omega) hm, h, Fnv.leftpad_toDigits (by omega) hn]

theorem prefixKey_inj {xs ys : List ℕ} (hx : xs ≠ []) (hy : ys ≠ []) (h : prefixKey xs = prefixKey ys) : xs = ys := by
  have hplain : ∀ zs : List ℕ, ∀ piece ∈ zs.map (Nat.toDigits 16), ':' ∉ piece := by
    intro zs piece hpiece
    obtain ⟨n, -, rfl⟩ := List.mem_map.mp hpiece
    exact colon_notMem_toDigits n
  refine List.map_injective_iff.mpr toDigits_injective ?_
  rw [← List.splitOn_intercalate ':' (hplain xs) (by simpa using hx), List.append_cancel_right h,
    List.splitOn_intercalate ':' (hplain ys) (by simpa using hy)]

/-- **Two addresses have one key exactly when their first 64 bits are the same**, however each is spelt. -/
theorem rateLimitKey_eq_iff {ip ip' : List Char} {address address' : List ℕ} (h : Spells ip address)
    (h' : Spells ip' address') : rateLimitKey ip = rateLimitKey ip' ↔ address.take 4 = address'.take 4 := by
  have hnonempty : ∀ {xs : List ℕ}, xs.length = 8 → xs.take 4 ≠ [] := by
    intro xs hlength hnil
    have hzero := congrArg List.length hnil
    rw [List.length_take, hlength] at hzero
    cases hzero
  obtain ⟨hkey, hlength⟩ := rateLimitKey_spelled h
  obtain ⟨hkey', hlength'⟩ := rateLimitKey_spelled h'
  rw [hkey, hkey']
  exact ⟨prefixKey_inj (hnonempty hlength) (hnonempty hlength'), congrArg prefixKey⟩

/-- `2001:DB8::1` and `2001:0db8:0:0:ffff::`. -/
theorem rateLimitKey_two_spellings :
    rateLimitKey "2001:DB8::1".toList = rateLimitKey "2001:0db8:0:0:ffff::".toList := by
  have hfirst := @Spells.compressed ["2001".toList, "DB8".toList] ["1".toList] (by decide) (by decide) (by decide)
  have hsecond := @Spells.compressed ["2001".toList, "0db8".toList, "0".toList, "0".toList, "ffff".toList] []
    (by decide) (by decide) (by decide)
  exact (rateLimitKey_eq_iff hfirst hsecond).mpr rfl

end RateLimit
