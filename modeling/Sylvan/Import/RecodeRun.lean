-- SUMMARY: Whatever alarms a recode runs and wherever they are killed, the members are the dump's grid.
import Mathlib.Logic.Relation
import Sylvan.Import.Recode

/-!
# Recode runs

The members of a byte string are its `memberRaw`-byte pieces, each compressed. A
run of alarms, killed and resumed anywhere, leaves the members of a prefix of the
raw stream, and of all of it when the recode is done.
-/

namespace Recode

/-! ## The grid -/

section Grid

variable (gzipBytes : Bytes → Bytes) (memberRaw : ℕ)

/-- The member that starts at `start` and holds `raw`. -/
def memberAt (start : ℕ) (raw : Bytes) : RecodedMember where
  seq := start / memberRaw
  rawStart := start
  rawLen := raw.length
  bytes := gzipBytes raw

/-- The members of `bytes`, the first of them at `start`. -/
def membersOf (start : ℕ) (bytes : Bytes) : List RecodedMember :=
  if bytes = [] ∨ memberRaw = 0 then []
  else memberAt gzipBytes memberRaw start (bytes.take memberRaw) :: membersOf (start + memberRaw) (bytes.drop memberRaw)
termination_by bytes.length
decreasing_by
  rename_i h
  rw [not_or] at h
  have hpos := List.length_pos_iff.mpr h.1
  rw [List.length_drop]
  omega

variable {gzipBytes memberRaw}

@[simp] theorem membersOf_nil (start : ℕ) : membersOf gzipBytes memberRaw start [] = [] := by
  rw [membersOf, if_pos (.inl rfl)]

theorem membersOf_of_ne_nil (hpos : 0 < memberRaw) (start : ℕ) {bytes : Bytes} (h : bytes ≠ []) :
    membersOf gzipBytes memberRaw start bytes = memberAt gzipBytes memberRaw start (bytes.take memberRaw) ::
        membersOf gzipBytes memberRaw (start + memberRaw) (bytes.drop memberRaw) := by
  have hnot : ¬ (bytes = [] ∨ memberRaw = 0) := by
    rintro (hnil | hzero)
    · exact h hnil
    · omega
  rw [membersOf, if_neg hnot]

theorem membersOf_part (start : ℕ) {part : Bytes} (h : part ≠ []) (hlen : part.length ≤ memberRaw) :
    membersOf gzipBytes memberRaw start part = [memberAt gzipBytes memberRaw start part] := by
  have hpos := List.length_pos_iff.mpr h
  rw [membersOf_of_ne_nil (by omega) start h, List.take_of_length_le hlen, List.drop_of_length_le hlen, membersOf_nil]

theorem membersOf_append (hpos : 0 < memberRaw) (start : ℕ) {whole : Bytes}
    (hwhole : memberRaw ∣ whole.length) (bytes : Bytes) :
    membersOf gzipBytes memberRaw start (whole ++ bytes) = membersOf gzipBytes memberRaw start whole ++
        membersOf gzipBytes memberRaw (start + whole.length) bytes := by
  obtain ⟨n, hn⟩ := hwhole
  induction n generalizing start whole with
  | zero =>
    have hnil : whole = [] := List.length_eq_zero_iff.mp (by simpa using hn)
    simp [hnil]
  | succ n ih =>
    have hlen : memberRaw ≤ whole.length := by
      rw [hn, Nat.mul_succ]
      omega
    have hne : whole ≠ [] := by
      rintro rfl
      rw [List.length_nil] at hlen
      omega
    have hrest : (whole.drop memberRaw).length = memberRaw * n := by
      rw [List.length_drop, hn, Nat.mul_succ]
      omega
    have hstart : start + memberRaw + (whole.drop memberRaw).length = start + whole.length := by
      rw [hrest, hn, Nat.mul_succ]
      omega
    rw [membersOf_of_ne_nil hpos start (List.append_ne_nil_of_left_ne_nil hne _),
      membersOf_of_ne_nil hpos start hne, List.take_append_of_le_length hlen,
      List.drop_append_of_le_length hlen, ih _ hrest, hstart, List.cons_append]

theorem membersOf_getElem? (hpos : 0 < memberRaw) (start k : ℕ) (bytes : Bytes) :
    (membersOf gzipBytes memberRaw start bytes)[k]? = if k * memberRaw < bytes.length then
        some (memberAt gzipBytes memberRaw (start + k * memberRaw)
          ((bytes.drop (k * memberRaw)).take memberRaw))
      else none := by
  induction k generalizing start bytes with
  | zero =>
    by_cases hnil : bytes = []
    · simp [hnil]
    · rw [membersOf_of_ne_nil hpos start hnil, if_pos (by simpa using List.length_pos_iff.mpr hnil)]
      simp
  | succ k ih =>
    by_cases hnil : bytes = []
    · simp [hnil]
    · have hadd : start + memberRaw + k * memberRaw = start + (k + 1) * memberRaw := by
        rw [Nat.succ_mul]
        omega
      have hdrop : memberRaw + k * memberRaw = (k + 1) * memberRaw := by
        rw [Nat.succ_mul]
        omega
      rw [membersOf_of_ne_nil hpos start hnil, List.getElem?_cons_succ, ih, List.drop_drop, hadd, hdrop, List.length_drop]
      by_cases hlt : (k + 1) * memberRaw < bytes.length
      · rw [if_pos hlt, if_pos (by omega)]
      · rw [if_neg hlt, if_neg (by omega)]

theorem flatMap_membersOf (gunzip : Bytes → Bytes) (hpos : 0 < memberRaw)
    (hinverse : ∀ raw, gunzip (gzipBytes raw) = raw) (start : ℕ) (bytes : Bytes) :
    (membersOf gzipBytes memberRaw start bytes).flatMap (fun m => gunzip m.bytes) = bytes := by
  induction hn : bytes.length using Nat.strongRecOn generalizing start bytes with
  | ind n ih =>
    by_cases hnil : bytes = []
    · simp [hnil]
    · have hlen := List.length_pos_iff.mpr hnil
      have hdrop : (bytes.drop memberRaw).length < n := by
        rw [List.length_drop]
        omega
      rw [membersOf_of_ne_nil hpos start hnil, List.flatMap_cons, ih _ hdrop _ _ rfl, memberAt,
        hinverse, List.take_append_drop]

end Grid

/-! ## One window -/

section Window

variable {σ : Type} {gzipBytes : Bytes → Bytes} {memberRaw : ℕ}

/-- The cut of the bytes `seen`: whole members, and part of the next one. -/
structure CutOf (gzipBytes : Bytes → Bytes) (memberRaw rawDone : ℕ) (whole : Bytes) (cut : Cut) :
    Prop where
  grid : memberRaw ∣ whole.length
  members : cut.members = membersOf gzipBytes memberRaw rawDone whole
  memberStart : cut.memberStart = rawDone + whole.length
  part : cut.part.length < memberRaw

theorem flush_part {rawDone : ℕ} {whole : Bytes} {cut cut' : Cut}
    (h : flush gzipBytes memberRaw cut = .ok cut') (hpos : 0 < memberRaw)
    (hgrid : memberRaw ∣ whole.length)
    (hmembers : cut.members = membersOf gzipBytes memberRaw rawDone whole)
    (hstart : cut.memberStart = rawDone + whole.length) (hpart : cut.part.length ≤ memberRaw) :
    cut'.members = membersOf gzipBytes memberRaw rawDone (whole ++ cut.part) ∧
      cut'.memberStart = rawDone + (whole ++ cut.part).length ∧ cut'.part = [] := by
  unfold flush at h
  split at h
  · rename_i hnil
    cases h
    rw [hnil, List.append_nil]
    exact ⟨hmembers, hstart, rfl⟩
  · rename_i hne
    dsimp only at h
    split at h
    · cases h
    · cases h
      rw [membersOf_append hpos _ hgrid, membersOf_part _ hne hpart, List.length_append, ← hstart, ← hmembers]
      exact ⟨rfl, by rw [hstart, Nat.add_assoc], rfl⟩

/-- The bytes `seen` after a chunk: all cut, with room left, or a full window and
what is left over. -/
def Taken (windowRaw : ℕ) (seen whole : Bytes) (cut : Cut) : Option Bytes → Prop
  | none => whole ++ cut.part = seen ∧ whole.length < windowRaw
  | some left => whole ++ left = seen ∧ whole.length = windowRaw ∧ cut.part = []

theorem takeChunk_spec {rawDone windowRaw turns : ℕ} {whole data : Bytes} {cut cut' : Cut}
    {left : Option Bytes} (hpos : 0 < memberRaw) (hwindow : memberRaw ∣ windowRaw)
    (hcut : CutOf gzipBytes memberRaw rawDone whole cut) (hroom : whole.length < windowRaw)
    (hturns : data.length < turns)
    (h : takeChunk gzipBytes rawDone windowRaw memberRaw turns cut data = .ok (cut', left)) :
    ∃ whole', CutOf gzipBytes memberRaw rawDone whole' cut' ∧
      Taken windowRaw (whole ++ cut.part ++ data) whole' cut' left := by
  induction turns generalizing whole data cut with
  | zero => omega
  | succ turns ih =>
    rw [takeChunk] at h
    by_cases hnil : data = []
    · rw [if_pos hnil] at h
      cases h
      exact ⟨whole, hcut, by simp [hnil], hroom⟩
    rw [if_neg hnil] at h
    have hlen := List.length_pos_iff.mpr hnil
    have hpart := hcut.part
    set take := min (memberRaw - cut.part.length) data.length with htake
    have htaken : (data.take take).length = take := List.length_take_of_le (by omega)
    have hrest : (data.drop take).length < turns := by
      rw [List.length_drop]
      omega
    dsimp only at h
    by_cases hfull : (cut.part ++ data.take take).length = memberRaw
    · -- the part fills: a member is flushed, and with it perhaps the window
      rw [if_pos hfull] at h
      cases hflush : flush gzipBytes memberRaw { cut with part := cut.part ++ data.take take } with
      | error stop =>
        rw [hflush] at h
        cases h
      | ok flushed =>
        rw [hflush] at h
        obtain ⟨hmembers, hstart, hpart'⟩ :=
          flush_part hflush hpos hcut.grid hcut.members hcut.memberStart (Nat.le_of_eq hfull)
        set whole' := whole ++ (cut.part ++ data.take take) with hwhole'
        have hgrown : whole'.length = whole.length + memberRaw := by
          rw [hwhole', List.length_append, hfull]
        have hcut' : CutOf gzipBytes memberRaw rawDone whole' flushed := {
          grid := hgrown ▸ Nat.dvd_add hcut.grid (Nat.dvd_refl _)
          members := hmembers
          memberStart := by rw [hwhole']; exact hstart
          part := by rw [hpart']; exact hpos }
        have hbytes : whole' ++ data.drop take = whole ++ cut.part ++ data := by
          rw [hwhole', List.append_assoc, List.append_assoc, List.take_append_drop, List.append_assoc]
        -- both lengths are on the grid
        have hle : whole'.length ≤ windowRaw := by
          obtain ⟨a, ha⟩ := hcut.grid
          obtain ⟨b, hb⟩ := hwindow
          have hab : a < b := Nat.lt_of_mul_lt_mul_left (ha ▸ hb ▸ hroom)
          rw [hgrown, ha, hb, ← Nat.mul_succ]
          exact Nat.mul_le_mul_left _ hab
        simp only [hcut'.memberStart] at h
        by_cases hdone : rawDone + whole'.length - rawDone ≥ windowRaw
        · rw [if_pos hdone] at h
          cases h
          exact ⟨whole', hcut', hbytes, by omega, hpart'⟩
        · rw [if_neg hdone] at h
          obtain ⟨whole'', hcut'', hmatch⟩ := ih hcut' (by omega) hrest h
          refine ⟨whole'', hcut'', ?_⟩
          rw [hpart', List.append_nil, hbytes] at hmatch
          exact hmatch
    · rw [if_neg hfull] at h
      have hshort : (cut.part ++ data.take take).length < memberRaw := by
        rw [List.length_append, htaken] at hfull ⊢
        omega
      have hcut' : CutOf gzipBytes memberRaw rawDone whole
          { cut with part := cut.part ++ data.take take } :=
        { hcut with part := hshort }
      obtain ⟨whole'', hcut'', hmatch⟩ := ih hcut' hroom hrest h
      have hbytes : whole ++ (cut.part ++ data.take take) ++ data.drop take = whole ++ cut.part ++ data := by
        rw [List.append_assoc, List.append_assoc, List.take_append_drop, List.append_assoc]
      refine ⟨whole'', hcut'', ?_⟩
      rw [hbytes] at hmatch
      exact hmatch

/-- The window cut from `body`: all of a stream's end, or exactly `windowRaw` bytes
with the rest given back. -/
structure WindowOf (gzipBytes : Bytes → Bytes) (memberRaw rawDone windowRaw : ℕ) (body : Bytes)
    (ending : Ending) (window : Window σ) : Prop where
  rawStart : window.result.rawStart = rawDone
  cut : ∃ used, window.result.members = membersOf gzipBytes memberRaw rawDone used ∧
    window.result.rawEnd = rawDone + used.length ∧ if window.result.exhausted then used = body ∧ ending = .ok ()
      else used.length = windowRaw ∧ body = used ++ (window.result.carry.getD [] ++ (window.rest.map Prod.fst).flatten)

theorem finish_ok {rawDone : ℕ} {whole : Bytes} {cut : Cut} {exhausted : Bool}
    {carry : Option Bytes} {result : RecodeResult} (hpos : 0 < memberRaw)
    (hcut : CutOf gzipBytes memberRaw rawDone whole cut)
    (h : finish gzipBytes rawDone memberRaw exhausted carry cut = .ok result) :
    result.members = membersOf gzipBytes memberRaw rawDone (whole ++ cut.part) ∧
      result.rawStart = rawDone ∧ result.rawEnd = rawDone + (whole ++ cut.part).length ∧
        result.exhausted = exhausted ∧ result.carry = carry := by
  unfold finish at h
  cases hflush : flush gzipBytes memberRaw cut with
  | error stop =>
    rw [hflush] at h
    cases h
  | ok cut' =>
    rw [hflush] at h
    cases h
    obtain ⟨hmembers, hstart, -⟩ :=
      flush_part hflush hpos hcut.grid hcut.members hcut.memberStart (Nat.le_of_lt hcut.part)
    exact ⟨hmembers, rfl, hstart, rfl, rfl⟩

theorem windowLoop_spec {rawDone windowRaw toSkip : ℕ} {ending : Ending}
    {chunks : List (Bytes × σ)} {whole : Bytes} {cut : Cut} {mark : σ} {window : Window σ}
    (hpos : 0 < memberRaw) (hwindow : memberRaw ∣ windowRaw)
    (hcut : CutOf gzipBytes memberRaw rawDone whole cut) (hroom : whole.length < windowRaw)
    (h : windowLoop gzipBytes rawDone windowRaw memberRaw ending chunks toSkip cut mark = .ok window) :
    WindowOf gzipBytes memberRaw rawDone windowRaw
        (whole ++ cut.part ++ (chunks.map Prod.fst).flatten.drop toSkip) ending window ∧
      (window.mark = mark ∨ window.mark ∈ chunks.map Prod.snd) ∧ window.rest <:+ chunks := by
  induction chunks generalizing toSkip whole cut mark with
  | nil =>
    cases ending with
    | error stop => cases h
    | ok u =>
      simp only [windowLoop] at h
      split at h
      · cases h
      · rename_i result hfinish
        cases h
        obtain ⟨hmembers, hstart, hend, hexhausted, -⟩ := finish_ok hpos hcut hfinish
        refine ⟨⟨hstart, _, hmembers, hend, ?_⟩, .inl rfl, List.suffix_refl _⟩
        rw [if_pos hexhausted]
        simp
  | cons chunk chunks ih =>
    obtain ⟨chunk, mark'⟩ := chunk
    rw [windowLoop] at h
    by_cases hskip : toSkip > 0 ∧ chunk.length ≤ toSkip
    · rw [if_pos hskip] at h
      obtain ⟨hspec, hmark, hrest⟩ := ih hcut hroom h
      have hdrop : (((chunk, mark') :: chunks).map Prod.fst).flatten.drop toSkip =
          (chunks.map Prod.fst).flatten.drop (toSkip - chunk.length) := by
        rw [List.map_cons, List.flatten_cons, List.drop_append, List.drop_of_length_le hskip.2, List.nil_append]
      rw [hdrop]
      refine ⟨hspec, .inr ?_, hrest.trans (List.suffix_cons _ _)⟩
      rcases hmark with rfl | hmark
      · simp
      · exact List.mem_cons_of_mem _ hmark
    · rw [if_neg hskip] at h
      have hdrop : (((chunk, mark') :: chunks).map Prod.fst).flatten.drop toSkip =
          chunk.drop toSkip ++ (chunks.map Prod.fst).flatten := by
        rw [List.map_cons, List.flatten_cons, List.drop_append]
        by_cases hzero : toSkip = 0
        · simp [hzero]
        · have hle : toSkip ≤ chunk.length := by omega
          rw [Nat.sub_eq_zero_of_le hle, List.drop_zero]
      dsimp only at h
      cases htake : takeChunk gzipBytes rawDone windowRaw memberRaw
          ((chunk.drop toSkip).length + 1) cut (chunk.drop toSkip) with
      | error stop =>
        rw [htake] at h
        cases h
      | ok taken =>
        obtain ⟨cut', left⟩ := taken
        rw [htake] at h
        obtain ⟨whole', hcut', hmatch⟩ :=
          takeChunk_spec hpos hwindow hcut hroom (Nat.lt_succ_self _) htake
        rw [hdrop, ← List.append_assoc]
        cases left with
        | none =>
          obtain ⟨hbytes, hroom'⟩ := hmatch
          obtain ⟨hspec, hmark, hrest⟩ := ih hcut' hroom' h
          rw [List.drop_zero, hbytes] at hspec
          refine ⟨hspec, .inr ?_, hrest.trans (List.suffix_cons _ _)⟩
          rcases hmark with rfl | hmark
          · simp
          · exact List.mem_cons_of_mem _ hmark
        | some left =>
          obtain ⟨hbytes, hfull, hpart⟩ := hmatch
          dsimp only at h
          split at h
          · cases h
          · rename_i result hfinish
            cases h
            obtain ⟨hmembers, hstart, hend, hexhausted, hcarry⟩ := finish_ok hpos hcut' hfinish
            rw [hpart, List.append_nil] at hmembers hend
            have hleft : result.carry.getD [] = left := by
              rw [hcarry]
              split
              · rename_i hnil
                rw [hnil, Option.getD_none]
              · rfl
            refine ⟨⟨hstart, whole', hmembers, hend, ?_⟩, .inr (by simp), List.suffix_cons _ _⟩
            simp only [hexhausted, Bool.false_eq_true, if_false, hleft]
            exact ⟨hfull, by rw [← hbytes, List.append_assoc]⟩

/-- **A window is the next piece of the grid.** -/
theorem recodeWindow_spec {source : Source σ} {mark : σ} {rawDone windowRaw skip : ℕ}
    {window : Window σ} (hpos : 0 < memberRaw) (hroom : 0 < windowRaw)
    (h : recodeWindow gzipBytes source mark rawDone windowRaw memberRaw skip = .ok window) :
    WindowOf gzipBytes memberRaw rawDone windowRaw
        ((source.chunks.map Prod.fst).flatten.drop skip) source.ending window ∧
      (window.mark = mark ∨ window.mark ∈ source.chunks.map Prod.snd) ∧
        window.rest <:+ source.chunks ∧ memberRaw ∣ rawDone ∧ memberRaw ∣ windowRaw := by
  unfold recodeWindow at h
  split at h
  · cases h
  split at h
  · cases h
  rename_i hwindow hdone
  have hstart : CutOf gzipBytes memberRaw rawDone []
      { members := [], memberStart := rawDone, part := [] } := {
    grid := Nat.dvd_zero _
    members := by simp
    memberStart := rfl
    part := hpos }
  have hgrid := Nat.dvd_of_mod_eq_zero (not_not.mp hwindow)
  obtain ⟨hspec, hmark, hrest⟩ := windowLoop_spec hpos hgrid hstart hroom h
  exact ⟨hspec, hmark, hrest, Nat.dvd_of_mod_eq_zero (not_not.mp hdone), hgrid⟩

end Window

/-! ## One alarm -/

section Alarm

variable {σ κ : Type} {gzipBytes : Bytes → Bytes} {memberRaw : ℕ}

/-- Windows of `raw` from `cur` on, each the next piece of the grid, each with a mark
of `P`. Only the last of them may reach the end. -/
inductive Cuts (gzipBytes : Bytes → Bytes) (memberRaw : ℕ) (raw : Bytes) (P : σ → Prop) :
    ℕ → List (RecodeResult × σ) → Prop
  | nil (cur : ℕ) : Cuts gzipBytes memberRaw raw P cur []
  | last {cur : ℕ} {result : RecodeResult} {mark : σ} (hstart : result.rawStart = cur)
      (hmembers : result.members = membersOf gzipBytes memberRaw cur (raw.drop cur))
      (hend : result.rawEnd = raw.length) (hexhausted : result.exhausted = true) (hmark : P mark) :
      Cuts gzipBytes memberRaw raw P cur [(result, mark)]
  | cons {cur : ℕ} {result : RecodeResult} {mark : σ} {later : List (RecodeResult × σ)}
      (hstart : result.rawStart = cur) (hle : cur ≤ result.rawEnd)
      (hraw : result.rawEnd ≤ raw.length) (hgrid : memberRaw ∣ result.rawEnd)
      (hmembers : result.members = membersOf gzipBytes memberRaw cur ((raw.drop cur).take (result.rawEnd - cur)))
      (hexhausted : result.exhausted = false) (hmark : P mark)
      (hlater : Cuts gzipBytes memberRaw raw P result.rawEnd later) :
      Cuts gzipBytes memberRaw raw P cur ((result, mark) :: later)

/-- A stream that hands out `body`, or what of it comes before it stops. -/
structure Delivers (body : Bytes) (ending : Ending) (bytes : Bytes) : Prop where
  between : bytes <+: body
  all : ending = .ok () → bytes = body

theorem fitUnits_pos {overruns : ℕ → Bool} {units : ℕ} (h : 0 < units) : 0 < fitUnits overruns units := by
  induction units using Nat.strongRecOn with
  | ind units ih =>
    rw [fitUnits]
    split
    · rename_i hhalve
      exact ih _ (by omega) (by omega)
    · exact h

theorem resumedSource_flatten (carry : Option Bytes) (mark : σ) (source : Source σ) :
    ((resumedSource carry mark source).chunks.map Prod.fst).flatten =
      carry.getD [] ++ (source.chunks.map Prod.fst).flatten := by
  cases carry <;> simp [resumedSource]

/-- **An alarm cuts the next pieces of the grid**, however many it gets to. -/
theorem alarmLoop_spec {budget : Budget κ} {windowRaw turns skip cur : ℕ} {first : Bool}
    {spent : κ} {carry : Option Bytes} {source : Source σ} {mark : σ} {raw : Bytes} {P : σ → Prop}
    (hpos : 0 < memberRaw) (hcur : cur ≤ raw.length) (hmark : P mark)
    (hmarks : ∀ m ∈ source.chunks.map Prod.snd, P m)
    (hsource : Delivers (raw.drop cur) source.ending
      ((carry.getD [] ++ (source.chunks.map Prod.fst).flatten).drop skip)) :
    Cuts gzipBytes memberRaw raw P cur
      (alarmLoop gzipBytes budget windowRaw memberRaw turns first spent skip cur carry source
        mark).1 := by
  induction turns generalizing first spent skip cur carry source mark with
  | zero => exact .nil _
  | succ turns ih =>
    rw [alarmLoop]
    dsimp only
    split
    · exact .nil _
    split
    · exact .nil _
    · rename_i window hwindow
      set units := fitUnits (fun units => budget.overruns spent (units * memberRaw))
        (max 1 (windowRaw / memberRaw)) with hunits
      have hroom : 0 < units * memberRaw := Nat.mul_pos (fitUnits_pos (by omega)) hpos
      obtain ⟨⟨hstart, used, hmembers, hend, hcut⟩, hat, hrest, hgrid, hwhole⟩ :=
        recodeWindow_spec hpos hroom hwindow
      rw [resumedSource_flatten] at hcut
      have hsame : (resumedSource carry mark source).ending = source.ending := rfl
      rw [hsame] at hcut
      have hchunks : ∀ c ∈ (resumedSource carry mark source).chunks, P c.2 := by
        intro c hc
        rcases List.mem_append.mp hc with hc | hc
        · cases carry with
          | none => cases hc
          | some bytes =>
            rw [List.mem_singleton.mp hc]
            exact hmark
        · exact hmarks _ (List.mem_map_of_mem hc)
      have hmark' : P window.mark := by
        rcases hat with hat | hat
        · rw [hat]
          exact hmark
        · obtain ⟨c, hc, hat⟩ := List.mem_map.mp hat
          exact hat ▸ hchunks c hc
      by_cases hexhausted : window.result.exhausted = true
      · rw [if_pos hexhausted] at hcut ⊢
        have hall : used = raw.drop cur := hcut.1.trans (hsource.all hcut.2)
        refine .last hstart (by rw [hmembers, hall]) ?_ hexhausted hmark'
        rw [hend, hall, List.length_drop]
        omega
      · rw [if_neg hexhausted] at hcut ⊢
        obtain ⟨hlen, hbody⟩ := hcut
        have hused : used <+: raw.drop cur :=
          (hbody ▸ List.prefix_append used _).trans hsource.between
        have htake : used = (raw.drop cur).take used.length := List.prefix_iff_eq_take.mp hused
        have hraw : used.length ≤ raw.length - cur := by
          have := hused.length_le
          rwa [List.length_drop] at this
        have hdrop : raw.drop cur = used ++ raw.drop window.result.rawEnd := by
          rw [hend, ← List.drop_drop]
          conv_lhs => rw [← List.take_append_drop used.length (raw.drop cur), ← htake]
        refine .cons hstart (by omega) (by omega) ?_ ?_ (by simpa using hexhausted) hmark' ?_
        · rw [hend, hlen]
          exact Nat.dvd_add hgrid hwhole
        · rw [hmembers, hend, Nat.add_sub_cancel_left, ← htake]
        · refine ih (by omega) hmark' ?_ ?_
          · intro m hm
            obtain ⟨c, hc, rfl⟩ := List.mem_map.mp hm
            exact hchunks c (hrest.subset hc)
          · rw [List.drop_zero]
            constructor
            · have := hsource.between
              rw [hbody, hdrop] at this
              exact (List.prefix_append_right_inj used).mp this
            · intro hok
              have := hsource.all hok
              rw [hbody, hdrop] at this
              exact List.append_cancel_left this

end Alarm

/-! ## The inflater as a source -/

section Inflate

variable {ι : Type} {host : InflateHost ι} {memberRaw : ℕ}

/-- The inflater on a stream `comp` that decompresses to `raw`. `At i c r` is a
decoder that has consumed `c` bytes and produced `r`. -/
structure Inflates (host : InflateHost ι) (comp raw : Bytes) (At : ι → ℕ → ℕ → Prop) : Prop where
  begin : At host.begin 0 0
  feed : ∀ {i c r input cap}, At i c r → input <+: comp.drop c → 0 < cap → (host.feed i input cap).2.1 ≤ input.length ∧
      (host.feed i input cap).2.2 <+: raw.drop r ∧ At (host.feed i input cap).1 (c + (host.feed i input cap).2.1)
          (r + (host.feed i input cap).2.2.length)
  /-- A decoder on a boundary that has consumed everything and has nothing to give
  has given everything. -/
  complete : ∀ {i c r input cap}, At i c r → input <+: comp.drop c → 0 < cap →
    c + (host.feed i input cap).2.1 = comp.length → (host.feed i input cap).2.2 = [] →
      host.atBoundary (host.feed i input cap).1 = true → r = raw.length
  totalOut : ∀ {i c r}, At i c r → host.totalOut i = r
  restore : ∀ {i c r i' c'}, At i c r → host.restore (host.save i) = some (i', c') → c' = c ∧ At i' c r
  bounds : ∀ {i c r}, At i c r → c ≤ comp.length ∧ r ≤ raw.length

variable {comp raw : Bytes} {At : ι → ℕ → ℕ → Prop}

/-- A source in step with its decoder: what it has yet to feed is what the decoder
has yet to consume. -/
structure InStep (comp : Bytes) (At : ι → ℕ → ℕ → Prop) (s : InflateRecodeSource ι) : Prop where
  decoder : ∃ c, At s.inflate c s.produced ∧ s.pending ++ s.rows.flatten = comp.drop c
  rowsDone : s.rowsDone = true → s.rows = []

theorem InStep.refill {s : InflateRecodeSource ι} (h : InStep comp At s) : InStep comp At s.refill := by
  unfold InflateRecodeSource.refill
  split
  · rename_i hempty
    obtain ⟨c, hat, hbytes⟩ := h.decoder
    rw [hempty.1, List.nil_append] at hbytes
    split
    · rename_i hrows
      exact ⟨⟨c, hat, by rw [hempty.1, List.nil_append]; exact hbytes⟩, fun _ => hrows⟩
    · rename_i row rows hrows
      refine ⟨⟨c, hat, ?_⟩, fun hdone => ?_⟩
      · rw [hrows, List.flatten_cons] at hbytes
        exact hbytes
      · have hdone : s.rowsDone = true := hdone
        rw [hempty.2] at hdone
        cases hdone
  · exact h

theorem refill_produced (s : InflateRecodeSource ι) : s.refill.produced = s.produced := by
  unfold InflateRecodeSource.refill
  split
  · split <;> rfl
  · rfl

theorem turn_spec (hinflates : Inflates host comp raw At) (hpos : 0 < memberRaw)
    {s : InflateRecodeSource ι} (h : InStep comp At s) :
    match s.turn host memberRaw with
    | .chunk output s' => InStep comp At s' ∧ output <+: raw.drop s.produced ∧
        s'.produced = s.produced + output.length
    | .again s' => InStep comp At s' ∧ s'.produced = s.produced
    | .ends ending => ending = .ok () → s.produced = raw.length := by
  have hstep := h.refill
  have hproduced := refill_produced s
  unfold InflateRecodeSource.turn
  dsimp only
  set t := s.refill with ht
  set cap := memberRaw - t.produced % memberRaw with hcap
  have hroom : 0 < cap := Nat.sub_pos_of_lt (Nat.mod_lt _ hpos)
  obtain ⟨c, hat, hbytes⟩ := hstep.decoder
  have hinput : t.pending <+: comp.drop c := ⟨_, hbytes⟩
  obtain ⟨hconsumed, houtput, hat'⟩ := hinflates.feed hat hinput hroom
  set fed := host.feed t.inflate t.pending cap with hfed
  have hrest : (if fed.2.1 ≥ t.pending.length then [] else t.pending.drop fed.2.1) = t.pending.drop fed.2.1 := by
    split
    · rename_i hge
      rw [List.drop_of_length_le hge]
    · rfl
  have hbytes' : t.pending.drop fed.2.1 ++ t.rows.flatten = comp.drop (c + fed.2.1) := by
    rw [← List.drop_drop, ← hbytes, List.drop_append_of_le_length hconsumed]
  rw [hrest]
  split_ifs with hsome hend hboundary hstuck
  · refine ⟨⟨⟨_, hat', hbytes'⟩, hstep.rowsDone⟩, ?_, ?_⟩
    · exact hproduced ▸ houtput
    · simp only [hproduced]
  · intro _
    have hrows := hstep.rowsDone hend.2
    have hnone : comp.drop (c + fed.2.1) = [] := by
      rw [← hbytes', hend.1, hrows]
      rfl
    have hall : c + fed.2.1 = comp.length := by
      have hle := List.drop_eq_nil_iff.mp hnone
      have hbound := (hinflates.bounds hat').1
      omega
    rw [← hproduced]
    exact hinflates.complete hat hinput hroom hall (not_not.mp hsome) hboundary
  · intro hok
    cases hok
  · intro hok
    cases hok
  · rw [not_not.mp hsome, List.length_nil, Nat.add_zero] at hat'
    exact ⟨⟨⟨_, hat', hbytes'⟩, hstep.rowsDone⟩, hproduced⟩

/-- **The stream hands out the raw bytes**, and every chunk leaves the source in step. -/
theorem stream_spec (hinflates : Inflates host comp raw At) (hpos : 0 < memberRaw)
    (turns : ℕ) {s : InflateRecodeSource ι} (h : InStep comp At s) :
    Delivers (raw.drop s.produced) (s.stream host memberRaw turns).ending
        ((s.stream host memberRaw turns).chunks.map Prod.fst).flatten ∧
      ∀ m ∈ (s.stream host memberRaw turns).chunks.map Prod.snd, InStep comp At m := by
  induction turns generalizing s with
  | zero =>
    refine ⟨⟨List.nil_prefix, fun hok => ?_⟩, by simp [InflateRecodeSource.stream]⟩
    cases hok
  | succ turns ih =>
    have hturn := turn_spec hinflates hpos h
    rw [InflateRecodeSource.stream]
    revert hturn
    cases s.turn host memberRaw with
    | chunk output s' =>
      rintro ⟨hstep, houtput, hproduced⟩
      obtain ⟨hdelivers, hmarks⟩ := ih hstep
      have hdrop : raw.drop s.produced = output ++ raw.drop s'.produced := by
        have htake := List.prefix_iff_eq_take.mp houtput
        rw [hproduced, ← List.drop_drop]
        conv_lhs => rw [← List.take_append_drop output.length (raw.drop s.produced), ← htake]
      refine ⟨⟨?_, fun hok => ?_⟩, ?_⟩
      · rw [hdrop, List.map_cons, List.flatten_cons]
        exact (List.prefix_append_right_inj output).mpr hdelivers.between
      · rw [hdrop, List.map_cons, List.flatten_cons, hdelivers.all hok]
      · intro m hm
        rcases List.mem_cons.mp hm with rfl | hm
        · exact hstep
        · exact hmarks m hm
    | again s' =>
      rintro ⟨hstep, hproduced⟩
      rw [← hproduced]
      exact ih hstep
    | ends ending =>
      intro hall
      refine ⟨⟨List.nil_prefix, fun hok => ?_⟩, by simp⟩
      rw [hall hok, List.drop_length]
      rfl

theorem flatten_stagedCompressedBytes (rows : List Bytes) (skip : ℕ) :
    (stagedCompressedBytes rows skip).flatten = rows.flatten.drop skip := by
  induction rows generalizing skip with
  | nil => simp [stagedCompressedBytes]
  | cons row rows ih =>
    rw [stagedCompressedBytes, List.flatten_cons, List.drop_append]
    split
    · rename_i hpast
      rw [ih, List.drop_of_length_le hpast, List.nil_append]
    · rename_i hinside
      have hle : skip ≤ row.length := by omega
      rw [List.flatten_cons, Nat.sub_eq_zero_of_le hle, List.drop_zero]

theorem InStep.start {i : ι} {c r : ℕ} {rows : List Bytes} (hat : At i c r)
    (hrows : rows.flatten = comp) :
    InStep comp At (.start i (stagedCompressedBytes rows c) r) := by
  refine ⟨⟨c, hat, ?_⟩, fun hdone => by cases hdone⟩
  rw [← hrows, ← flatten_stagedCompressedBytes]
  rfl

end Inflate

/-! ## Runs of alarms -/

/-- A staged dump, the bytes it decompresses to, and how far a decoder of it can be. -/
structure Dump {ι : Type} (host : InflateHost ι) where
  blobs : List Bytes
  raw : Bytes
  At : ι → ℕ → ℕ → Prop
  inflates : stagedIsGzip blobs = true → Inflates host blobs.flatten raw At

section Runs

variable {ι : Type} {host : InflateHost ι} (dump : Dump host) (gzipBytes : Bytes → Bytes)
  (memberRaw : ℕ)

/-- One alarm, killed after `turns` windows or after `reads` turns of its stream. It
resumes where the inflater restores, and otherwise reads the dump again from byte 0,
in whatever chunks. -/
inductive Alarm : Disk → Disk → Prop
  | resumed {κ : Type} (budget : Budget κ) (windowRaw turns reads : ℕ) {disk : Disk} {i : ι}
      {c : ℕ} {source : InflateRecodeSource ι} (hdone : disk.done = false)
      (hengine : disk.engineFallback = false) (hgzip : stagedIsGzip disk.blobs = true)
      (hrestore : restoreCheckpoint host disk = some (i, c))
      (hsource : source = .start i (stagedCompressedBytes disk.blobs c) disk.rawDone) :
      Alarm disk ((recodeAlarm gzipBytes budget windowRaw memberRaw turns
        (source.stream host memberRaw reads) source disk.rawDone true).1.foldl
          (commitResumed host memberRaw) disk)
  /-- The resumable path throws: the next alarm takes the other one. -/
  | failed {κ : Type} (budget : Budget κ) (windowRaw turns reads : ℕ) {disk : Disk} {i : ι}
      {c : ℕ} {source : InflateRecodeSource ι} {message : String} (hdone : disk.done = false)
      (hengine : disk.engineFallback = false) (hgzip : stagedIsGzip disk.blobs = true)
      (hrestore : restoreCheckpoint host disk = some (i, c))
      (hsource : source = .start i (stagedCompressedBytes disk.blobs c) disk.rawDone)
      (hthrew : (recodeAlarm gzipBytes budget windowRaw memberRaw turns
        (source.stream host memberRaw reads) source disk.rawDone true).2 = .error (.threw message)) :
      Alarm disk ((recodeAlarm gzipBytes budget windowRaw memberRaw turns
        (source.stream host memberRaw reads) source disk.rawDone true).1.foldl
          (commitResumed host memberRaw) disk).fallBack
  | fallback {κ : Type} (budget : Budget κ) (windowRaw turns : ℕ) (source : Source Unit)
      {disk : Disk} (hdone : disk.done = false)
      (hroute : disk.engineFallback = true ∨ stagedIsGzip disk.blobs = false ∨ restoreCheckpoint host disk = none)
      (hsource : Delivers dump.raw source.ending (source.chunks.map Prod.fst).flatten) :
      Alarm disk ((recodeAlarm gzipBytes budget windowRaw memberRaw turns source () disk.rawDone
        false).1.foldl (commitFallback memberRaw) disk)

/-- What is stored between alarms: the grid of the raw bytes done, and a checkpoint
row, if any, of a decoder that stood where the row says. -/
structure Exact (disk : Disk) : Prop where
  members : disk.members = membersOf gzipBytes memberRaw 0 (dump.raw.take disk.rawDone)
  le : disk.rawDone ≤ dump.raw.length
  grid : disk.done = false → memberRaw ∣ disk.rawDone
  blobs : disk.done = false → disk.blobs = dump.blobs
  finished : disk.done = true → disk.rawDone = dump.raw.length
  checkpoint : ∀ row, disk.checkpoint = some row → row.version = RECODE_CHECKPOINT_VERSION →
    ∃ i c, dump.At i c row.rawDone ∧ row.state = host.save i

variable {dump gzipBytes memberRaw}

theorem exact_staged : Exact dump gzipBytes memberRaw (Disk.staged dump.blobs) where
  members := by simp [Disk.staged]
  le := Nat.zero_le _
  grid _ := Nat.dvd_zero _
  blobs _ := rfl
  finished hdone := by cases hdone
  checkpoint row hrow := by cases hrow

theorem filter_membersOf {raw : Bytes} {cur : ℕ} (hpos : 0 < memberRaw) (hcur : memberRaw ∣ cur) :
    (membersOf gzipBytes memberRaw 0 (raw.take cur)).filter
        (fun m => m.seq < cur / memberRaw) = membersOf gzipBytes memberRaw 0 (raw.take cur) := by
  rw [List.filter_eq_self]
  intro m hm
  obtain ⟨k, hk⟩ := List.mem_iff_getElem?.mp hm
  rw [membersOf_getElem? hpos] at hk
  split at hk
  · rename_i hlt
    cases hk
    obtain ⟨n, rfl⟩ := hcur
    have hkn : k * memberRaw < memberRaw * n :=
      Nat.lt_of_lt_of_le hlt (List.length_take_le _ _)
    have hkn : k < n := Nat.lt_of_mul_lt_mul_right (Nat.mul_comm memberRaw n ▸ hkn)
    simpa [memberAt, Nat.mul_div_cancel _ hpos, Nat.mul_div_cancel_left _ hpos] using hkn
  · cases hk

variable {disk : Disk}

theorem Exact.commit (h : Exact dump gzipBytes memberRaw disk)
    (hpos : 0 < memberRaw) (hdone : disk.done = false) {result : RecodeResult}
    {state : CheckpointState} (hstart : result.rawStart = disk.rawDone)
    (hle : disk.rawDone ≤ result.rawEnd) (hraw : result.rawEnd ≤ dump.raw.length)
    (hgrid : result.exhausted = false → memberRaw ∣ result.rawEnd)
    (hall : result.exhausted = true → result.rawEnd = dump.raw.length)
    (hmembers : result.members = membersOf gzipBytes memberRaw disk.rawDone
      ((dump.raw.drop disk.rawDone).take (result.rawEnd - disk.rawDone)))
    (hstate : ∀ bytes, state = .replace (some bytes) → ∃ i c, dump.At i c result.rawEnd ∧ bytes = host.save i) :
    Exact dump gzipBytes memberRaw (commitWindow memberRaw disk result state) where
  members := by
    have hsplit : dump.raw.take result.rawEnd = dump.raw.take disk.rawDone ++
        (dump.raw.drop disk.rawDone).take (result.rawEnd - disk.rawDone) := by
      rw [← List.take_add, Nat.add_sub_cancel' hle]
    have hlen : (dump.raw.take disk.rawDone).length = disk.rawDone :=
      List.length_take_of_le h.le
    simp only [commitWindow]
    rw [h.members, hstart, filter_membersOf hpos (h.grid hdone), hsplit,
      membersOf_append hpos 0 (hlen.symm ▸ h.grid hdone), hlen, Nat.zero_add, hmembers]
  le := hraw
  grid hnot := hgrid (by simpa [commitWindow, hdone] using hnot)
  blobs hnot := by
    have hnot : result.exhausted = false := by simpa [commitWindow, hdone] using hnot
    simp only [commitWindow, hnot, Bool.false_eq_true, if_false]
    exact h.blobs hdone
  finished hyes := hall (by simpa [commitWindow, hdone] using hyes)
  checkpoint row hrow hversion := by
    simp only [commitWindow] at hrow
    split at hrow
    · cases hrow
    · split at hrow
      · exact h.checkpoint row hrow hversion
      · rename_i saved
        obtain ⟨bytes, rfl, rfl⟩ := Option.map_eq_some_iff.mp hrow
        exact hstate bytes rfl

theorem Exact.commits {σ : Type} {P : σ → Prop} (state : RecodeResult → σ → CheckpointState)
    (hpos : 0 < memberRaw)
    (hstate : ∀ result mark bytes, P mark → state result mark = .replace (some bytes) →
      ∃ i c, dump.At i c result.rawEnd ∧ bytes = host.save i)
    {committed : List (RecodeResult × σ)} (h : Exact dump gzipBytes memberRaw disk)
    (hdone : disk.done = false)
    (hcuts : Cuts gzipBytes memberRaw dump.raw P disk.rawDone committed) :
    Exact dump gzipBytes memberRaw
      (committed.foldl (fun disk c => commitWindow memberRaw disk c.1 (state c.1 c.2)) disk) := by
  generalize hcur : disk.rawDone = cur at hcuts
  induction hcuts generalizing disk with
  | nil cur => exact h
  | last hstart hmembers hend hexhausted hmark =>
    subst hcur
    refine h.commit hpos hdone hstart (hend ▸ h.le) (Nat.le_of_eq hend) ?_ (fun _ => hend) ?_
      fun bytes hbytes => hstate _ _ bytes hmark hbytes
    · intro hnot
      rw [hexhausted] at hnot
      cases hnot
    · rw [hmembers, hend, ← List.length_drop, List.take_length]
  | cons hstart hle hraw hgrid hmembers hexhausted hmark hlater ih =>
    subst hcur
    refine ih ?_ ?_ rfl
    · refine h.commit hpos hdone hstart hle hraw (fun _ => hgrid) (fun hyes => ?_) hmembers
        fun bytes hbytes => hstate _ _ bytes hmark hbytes
      rw [hexhausted] at hyes
      cases hyes
    · simp [commitWindow, hdone, hexhausted]

theorem restored_at (h : Exact dump gzipBytes memberRaw disk)
    (hdone : disk.done = false) (hgzip : stagedIsGzip disk.blobs = true) {i : ι} {c : ℕ}
    (hrestore : restoreCheckpoint host disk = some (i, c)) :
    Inflates host disk.blobs.flatten dump.raw dump.At ∧ dump.At i c disk.rawDone := by
  rw [h.blobs hdone] at hgzip ⊢
  have hinflates := dump.inflates hgzip
  refine ⟨hinflates, ?_⟩
  unfold restoreCheckpoint at hrestore
  split at hrestore
  · rename_i hzero
    cases hrestore
    rw [hzero]
    exact hinflates.begin
  split at hrestore
  · cases hrestore
  rename_i row hrow
  split at hrestore
  · cases hrestore
  rename_i hmatch
  rw [not_or, not_not, not_not] at hmatch
  split at hrestore
  · cases hrestore
  rename_i i' c' hstate
  split at hrestore
  · cases hrestore
  · cases hrestore
    obtain ⟨saved, at', hat, hsaved⟩ := h.checkpoint row hrow hmatch.1
    rw [hsaved] at hstate
    obtain ⟨rfl, hback⟩ := hinflates.restore hat hstate
    rw [← hmatch.2]
    exact hback

theorem cuts_resumed {κ : Type} (budget : Budget κ) (windowRaw turns reads : ℕ)
    {i : ι} {c : ℕ} (hpos : 0 < memberRaw) (h : Exact dump gzipBytes memberRaw disk)
    (hdone : disk.done = false) (hgzip : stagedIsGzip disk.blobs = true)
    (hrestore : restoreCheckpoint host disk = some (i, c)) {source : InflateRecodeSource ι}
    (hsource : source = .start i (stagedCompressedBytes disk.blobs c) disk.rawDone) :
    Cuts gzipBytes memberRaw dump.raw (InStep disk.blobs.flatten dump.At) disk.rawDone
      (recodeAlarm gzipBytes budget windowRaw memberRaw turns
        (source.stream host memberRaw reads) source disk.rawDone true).1 := by
  obtain ⟨hinflates, hat⟩ := restored_at h hdone hgzip hrestore
  have hstep : InStep disk.blobs.flatten dump.At source := hsource ▸ .start hat rfl
  have hproduced : source.produced = disk.rawDone := by
    rw [hsource]
    rfl
  obtain ⟨hdelivers, hmarks⟩ := stream_spec hinflates hpos reads hstep
  rw [hproduced] at hdelivers
  refine alarmLoop_spec hpos h.le hstep hmarks ?_
  simpa using hdelivers

theorem resumed_state {comp : Bytes} {source : InflateRecodeSource ι} {result : RecodeResult}
    {bytes : Bytes}
    (hstep : InStep comp dump.At source)
    (hbytes : CheckpointState.replace (
      if source.produced = result.rawEnd ∧ host.totalOut source.inflate = result.rawEnd then
        some (host.save source.inflate)
      else none) = .replace (some bytes)) :
    ∃ i c, dump.At i c result.rawEnd ∧ bytes = host.save i := by
  obtain ⟨c, hat, -⟩ := hstep.decoder
  split at hbytes
  · rename_i hend
    cases hbytes
    exact ⟨_, c, hend.1 ▸ hat, rfl⟩
  · cases hbytes

theorem Exact.alarm {disk disk' : Disk} (hpos : 0 < memberRaw)
    (h : Exact dump gzipBytes memberRaw disk) (hstep : Alarm dump gzipBytes memberRaw disk disk') :
    Exact dump gzipBytes memberRaw disk' := by
  cases hstep with
  | resumed budget windowRaw turns reads hdone hengine hgzip hrestore hsource =>
    exact h.commits _ hpos (fun _ _ _ hmark hbytes => resumed_state hmark hbytes) hdone
      (cuts_resumed budget windowRaw turns reads hpos h hdone hgzip hrestore hsource)
  | failed budget windowRaw turns reads hdone hengine hgzip hrestore hsource hthrew =>
    have hexact := h.commits _ hpos (fun _ _ _ hmark hbytes => resumed_state hmark hbytes) hdone
      (cuts_resumed budget windowRaw turns reads hpos h hdone hgzip hrestore hsource)
    exact { hexact with checkpoint := fun row hrow => by cases hrow }
  | fallback budget windowRaw turns source hdone hroute hsource =>
    have hcuts : Cuts gzipBytes memberRaw dump.raw (fun _ : Unit => True) disk.rawDone
        (recodeAlarm gzipBytes budget windowRaw memberRaw turns source () disk.rawDone false).1 := by
      refine alarmLoop_spec hpos h.le trivial (fun _ _ => trivial) ?_
      rw [Option.getD_none, List.nil_append]
      constructor
      · obtain ⟨later, hlater⟩ := hsource.between
        simp only [Bool.false_eq_true, if_false]
        rw [← hlater, List.drop_append]
        exact List.prefix_append _ _
      · intro hok
        simp only [Bool.false_eq_true, if_false]
        rw [hsource.all hok]
    exact h.commits (fun _ _ => .keep) hpos (fun _ _ _ _ hkeep => by cases hkeep) hdone
      hcuts

theorem exact_of_reachable (hpos : 0 < memberRaw)
    (hreach : Relation.ReflTransGen (Alarm dump gzipBytes memberRaw) (Disk.staged dump.blobs) disk) :
    Exact dump gzipBytes memberRaw disk := by
  induction hreach with
  | refl => exact exact_staged
  | tail _ hstep ih => exact ih.alarm hpos hstep

/-! ## Reading back -/

def Disk.readMember (disk : Disk) (seq : ℕ) : Option Bytes :=
  (disk.members.find? fun m => m.seq = seq).map RecodedMember.bytes

theorem skipChunks_spec (chunks : List Bytes) (toSkip : ℕ) :
    (skipChunks chunks toSkip).1.flatten = chunks.flatten.drop toSkip ∧
      (skipChunks chunks toSkip).2 = toSkip - chunks.flatten.length := by
  induction chunks generalizing toSkip with
  | nil => simp [skipChunks]
  | cons chunk chunks ih =>
    rw [skipChunks, List.flatten_cons, List.drop_append, List.length_append]
    split
    · rename_i hpast
      obtain ⟨hbytes, hleft⟩ := ih (toSkip - chunk.length)
      rw [hbytes, hleft, List.drop_of_length_le hpast, List.nil_append]
      exact ⟨rfl, by omega⟩
    · rename_i hinside
      obtain ⟨hbytes, hleft⟩ := ih 0
      have hhead : (if toSkip > 0 then chunk.drop toSkip else chunk) = chunk.drop toSkip := by
        split
        · rfl
        · rename_i hnone
          have hnone : toSkip = 0 := by omega
          rw [hnone, List.drop_zero]
      have hzero : toSkip - chunk.length = 0 := by omega
      rw [List.flatten_cons, hbytes, hleft, hhead, hzero]
      exact ⟨rfl, by omega⟩

theorem Exact.members_getElem? (h : Exact dump gzipBytes memberRaw disk)
    (hpos : 0 < memberRaw) (k : ℕ) :
    disk.members[k]? = if k * memberRaw < disk.rawDone then
      some (memberAt gzipBytes memberRaw (k * memberRaw)
        (((dump.raw.take disk.rawDone).drop (k * memberRaw)).take memberRaw)) else none := by
  rw [h.members, membersOf_getElem? hpos, List.length_take_of_le h.le, Nat.zero_add]

theorem Exact.find_member (h : Exact dump gzipBytes memberRaw disk)
    (hpos : 0 < memberRaw) (seq : ℕ) :
    disk.readMember seq = if seq * memberRaw < disk.rawDone then
        some (gzipBytes (((dump.raw.take disk.rawDone).drop (seq * memberRaw)).take memberRaw))
      else none := by
  have hget := h.members_getElem? hpos
  have hseq : ∀ k (m : RecodedMember), disk.members[k]? = some m → m.seq = k := by
    intro k m hm
    rw [hget] at hm
    split at hm
    · cases hm
      exact Nat.mul_div_cancel _ hpos
    · cases hm
  unfold Disk.readMember
  split
  · rename_i hlt
    have hat := hget seq
    rw [if_pos hlt] at hat
    have hfind : disk.members.find? (fun m => m.seq = seq) = some (memberAt gzipBytes memberRaw (seq * memberRaw)
          (((dump.raw.take disk.rawDone).drop (seq * memberRaw)).take memberRaw)) := by
      obtain ⟨hin, hval⟩ := List.getElem?_eq_some_iff.mp hat
      rw [List.find?_eq_some_iff_getElem]
      refine ⟨by simpa using hseq seq _ hat, seq, hin, hval, fun j hj => ?_⟩
      have hne := hseq j _ (List.getElem?_eq_getElem (Nat.lt_trans hj hin))
      simp only [hne, Bool.not_eq_eq_eq_not, Bool.not_true, decide_eq_false_iff_not]
      omega
    rw [hfind]
    rfl
  · rename_i hge
    rw [Option.map_eq_none_iff, List.find?_eq_none]
    intro m hm
    obtain ⟨k, hk⟩ := List.mem_iff_getElem?.mp hm
    have hmseq := hseq k m hk
    rw [hget] at hk
    split at hk
    · rename_i hlt
      simp only [hmseq, decide_eq_true_eq]
      rintro rfl
      exact hge hlt
    · cases hk

theorem Exact.memberBytes_eq {gunzipMember : Bytes → List Bytes}
    (h : Exact dump gzipBytes memberRaw disk) (hpos : 0 < memberRaw)
    (hinverse : ∀ raw, (gunzipMember (gzipBytes raw)).flatten = raw) {fuel seq : ℕ}
    (hfuel : disk.rawDone ≤ (seq + fuel) * memberRaw) (skip : ℕ) :
    (memberBytes gunzipMember disk.readMember fuel seq skip).flatten =
      (dump.raw.take disk.rawDone).drop (seq * memberRaw + skip) := by
  have hlen : (dump.raw.take disk.rawDone).length = disk.rawDone := List.length_take_of_le h.le
  induction fuel generalizing seq skip with
  | zero =>
    rw [Nat.add_zero] at hfuel
    rw [memberBytes, List.drop_of_length_le (by rw [hlen]; omega)]
    rfl
  | succ fuel ih =>
    rw [memberBytes, h.find_member hpos]
    by_cases hlt : seq * memberRaw < disk.rawDone
    · rw [if_pos hlt]
      set rest := (dump.raw.take disk.rawDone).drop (seq * memberRaw) with hrest
      obtain ⟨hbytes, hleft⟩ := skipChunks_spec (gunzipMember (gzipBytes (rest.take memberRaw))) skip
      rw [hinverse] at hbytes hleft
      have hnext : disk.rawDone ≤ (seq + 1 + fuel) * memberRaw := by
        rwa [Nat.add_right_comm, Nat.add_assoc]
      simp only [List.flatten_append]
      have hlater : (dump.raw.take disk.rawDone).drop ((seq + 1) * memberRaw) = rest.drop memberRaw := by
        rw [hrest, List.drop_drop, Nat.succ_mul]
      have hhere : (dump.raw.take disk.rawDone).drop (seq * memberRaw + skip) = rest.drop skip := by
        rw [hrest, List.drop_drop]
      rw [hbytes, ih hnext, hleft, hhere, ← List.drop_drop, hlater]
      conv_rhs => rw [← List.take_append_drop memberRaw rest, List.drop_append]
    · rw [if_neg hlt, List.drop_of_length_le (by rw [hlen]; omega)]
      rfl

/-- **A recode loses, repeats and moves no byte.** Whatever alarms ran and wherever
they were killed, the members are the whole pieces of the raw stream so far, and of
all of it once the recode is done. -/
theorem recode_exact (hpos : 0 < memberRaw) {gunzipMember : Bytes → List Bytes}
    (hinverse : ∀ raw, (gunzipMember (gzipBytes raw)).flatten = raw) {disk : Disk}
    (hreach : Relation.ReflTransGen (Alarm dump gzipBytes memberRaw) (Disk.staged dump.blobs) disk) :
    (disk.rawDone ≤ dump.raw.length ∧ (disk.done = false → memberRaw ∣ disk.rawDone) ∧
        (disk.done = true → disk.rawDone = dump.raw.length)) ∧
      (disk.members.flatMap fun m => (gunzipMember m.bytes).flatten) =
        dump.raw.take disk.rawDone ∧
      (∀ k m, disk.members[k]? = some m → m.seq = k ∧ m.rawStart = k * memberRaw ∧
        (gunzipMember m.bytes).flatten = (dump.raw.drop m.rawStart).take m.rawLen ∧
          (k + 1 < disk.members.length → m.rawLen = memberRaw)) ∧
      ∀ startSeq skip, (memberBytes gunzipMember disk.readMember (disk.members.length + 1)
        startSeq skip).flatten =
          (dump.raw.take disk.rawDone).drop (startSeq * memberRaw + skip) := by
  have h := exact_of_reachable hpos hreach
  refine ⟨⟨h.le, h.grid, h.finished⟩, ?_, ?_, ?_⟩
  · rw [h.members]
    exact flatMap_membersOf (fun bytes => (gunzipMember bytes).flatten) hpos hinverse 0 _
  · intro k m hm
    rw [h.members_getElem? hpos] at hm
    split at hm
    · rename_i hlt
      cases hm
      set part := ((dump.raw.take disk.rawDone).drop (k * memberRaw)).take memberRaw with hpart
      have hprefix : part <+: dump.raw.drop (k * memberRaw) := by
        rw [hpart, List.drop_take]
        exact (List.take_prefix _ _).trans (List.take_prefix _ _)
      refine ⟨Nat.mul_div_cancel _ hpos, rfl, ?_, fun hnext => ?_⟩
      · simp only [memberAt, hinverse]
        exact List.prefix_iff_eq_take.mp hprefix
      · -- the next member has bytes, so this one is whole
        have hnext := List.getElem?_eq_getElem hnext
        rw [h.members_getElem? hpos] at hnext
        split at hnext
        · rename_i hlt'
          rw [Nat.succ_mul] at hlt'
          simp only [memberAt, hpart, List.length_take, List.length_drop]
          have hle := h.le
          omega
        · cases hnext
    · cases hm
  · intro startSeq skip
    refine h.memberBytes_eq hpos hinverse ?_ skip
    have hnone := List.getElem?_eq_none (Nat.le_refl disk.members.length)
    rw [h.members_getElem? hpos] at hnone
    split at hnone
    · cases hnone
    · rename_i hge
      rw [← Nat.add_assoc, Nat.succ_mul, Nat.add_mul]
      omega

end Runs

/-! ## A run of two alarms -/

section Sample

/-- Two header bytes and the raw bytes as they are; a decoder is how many bytes it
has consumed. -/
def storedHost : InflateHost ℕ where
  begin := 0
  feed c input cap :=
    let k := min input.length (2 - c + cap)
    (c + k, k, (input.take k).drop (2 - c))
  atBoundary c := 2 ≤ c
  totalOut c := c - 2
  save c := [UInt8.ofNat c]
  restore state :=
    match state with
    | [c] => some (c.toNat, c.toNat)
    | _ => none

def storedGzip (raw : Bytes) : Bytes := 0x1f :: 0x8b :: raw

def storedGunzip (bytes : Bytes) : List Bytes := [bytes.drop 2]

def storedAt (raw : Bytes) (i c r : ℕ) : Prop :=
  i = c ∧ r = c - 2 ∧ c ≤ raw.length + 2

theorem storedHost_inflates {raw : Bytes} (hshort : raw.length < 254) :
    Inflates storedHost (storedGzip raw) raw (storedAt raw) where
  begin := ⟨rfl, rfl, Nat.zero_le _⟩
  feed := by
    rintro i c r input cap ⟨rfl, rfl, hle⟩ hinput hpos
    have hlen := hinput.length_le
    rw [List.length_drop, storedGzip, List.length_cons, List.length_cons] at hlen
    refine ⟨Nat.min_le_left _ _, ?_, rfl, ?_, ?_⟩
    · have hraw : raw.drop (i - 2) = ((storedGzip raw).drop i).drop (2 - i) := by
        have htwo : raw = (storedGzip raw).drop 2 := rfl
        conv_lhs => rw [htwo, List.drop_drop]
        rw [List.drop_drop]
        congr 1
        omega
      rw [hraw]
      obtain ⟨later, hlater⟩ := (List.take_prefix (min input.length (2 - i + cap)) input).trans hinput
      rw [← hlater, List.drop_append]
      exact List.prefix_append _ _
    · simp only [storedHost, List.length_drop, List.length_take]
      omega
    · simp only [storedHost]
      omega
  complete := by
    rintro i c r input cap ⟨rfl, rfl, hle⟩ hinput hpos hall hnone -
    simp only [storedHost, storedGzip, List.length_cons, List.drop_eq_nil_iff, List.length_take] at hall hnone
    omega
  totalOut := fun ⟨hi, hr, _⟩ => by rw [hi, hr]; rfl
  restore := by
    rintro i c r i' c' ⟨rfl, rfl, hle⟩ hback
    have hsmall : (UInt8.ofNat i).toNat = i := by
      rw [UInt8.toNat_ofNat']
      omega
    simp only [storedHost, hsmall, Option.some.injEq, Prod.mk.injEq] at hback
    obtain ⟨rfl, rfl⟩ := hback
    exact ⟨rfl, rfl, rfl, hle⟩
  bounds := fun ⟨_, hr, hle⟩ => ⟨hle, by omega⟩

def sampleDump : Dump storedHost where
  blobs := [[0x1f, 0x8b, 1], [2, 3, 4, 5]]
  raw := [1, 2, 3, 4, 5]
  At := storedAt [1, 2, 3, 4, 5]
  inflates _ := storedHost_inflates (by decide)

def freeBudget : Budget Unit where
  start _ := ()
  overruns _ _ := false
  charge _ _ := ()

/-- The alarm that resumes, killed after `turns` windows. -/
def resumeFor (turns : ℕ) (disk : Disk) : Disk :=
  let at' := ((restoreCheckpoint storedHost disk).getD (0, 0))
  let source := InflateRecodeSource.start at'.1 (stagedCompressedBytes disk.blobs at'.2) disk.rawDone
  (recodeAlarm storedGzip freeBudget 2 2 turns (source.stream storedHost 2 20) source disk.rawDone
    true).1.foldl (commitResumed storedHost 2) disk

/-- An alarm killed after its first window, and one that resumes and finishes. -/
theorem recode_exact_sample :
    (resumeFor 5 (resumeFor 1 (.staged sampleDump.blobs))).done = true ∧
      ((resumeFor 5 (resumeFor 1 (.staged sampleDump.blobs))).members.flatMap fun m =>
        (storedGunzip m.bytes).flatten) = [1, 2, 3, 4, 5] := by
  have hfirst : Alarm sampleDump storedGzip 2 (.staged sampleDump.blobs)
      (resumeFor 1 (.staged sampleDump.blobs)) :=
    .resumed freeBudget 2 1 20 (by decide) (by decide) (by decide) rfl rfl
  have hsecond : Alarm sampleDump storedGzip 2 (resumeFor 1 (.staged sampleDump.blobs))
      (resumeFor 5 (resumeFor 1 (.staged sampleDump.blobs))) := by
    have hrestore : restoreCheckpoint storedHost (resumeFor 1 (.staged sampleDump.blobs)) =
        some ((restoreCheckpoint storedHost (resumeFor 1 (.staged sampleDump.blobs))).getD (0, 0)) := by
      decide +kernel
    exact .resumed freeBudget 2 5 20 (by decide +kernel) (by decide +kernel) (by decide +kernel)
      hrestore rfl
  have hdone : (resumeFor 5 (resumeFor 1 (.staged sampleDump.blobs))).done = true := by
    decide +kernel
  have hreach := Relation.ReflTransGen.refl.tail hfirst |>.tail hsecond
  have hinverse : ∀ raw, (storedGunzip (storedGzip raw)).flatten = raw := fun raw => by
    simp [storedGunzip, storedGzip]
  obtain ⟨⟨-, -, hall⟩, hmembers, -⟩ := recode_exact (by decide) hinverse hreach
  refine ⟨hdone, hmembers.trans ?_⟩
  rw [hall hdone]
  rfl

end Sample

end Recode
