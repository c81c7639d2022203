-- SUMMARY: Byte-exact JSONL slice scanning: the lines of a dump over many resumed slices.
import Sylvan.Data.Bytes

/-!
# JSONL slices

The dump consumers walk a decompressed dump line by line over many alarms and
resume by raw byte offset. `scanJsonlSlice` hands a source's lines to a callback
until it stops the slice, and counts the bytes of the lines it handed over.
-/

namespace ImportLines

abbrev Line : Type := Bytes

/-- `\n`. -/
def newline : UInt8 := 0x0a

/-- The callback of one slice, as its decision: given the lines it has already
been handed, whether this line is the last one of the slice. -/
abbrev Take : Type := List Line → Line → Bool

/-! ## One slice -/

/-- The walk's counters, and the lines `take` has been handed so far. -/
structure Walk where
  consumed : Nat
  lines : Nat
  delivered : List Line

def Walk.start : Walk := { consumed := 0, lines := 0, delivered := [] }

/-- `take` sees a line, and the cursor moves over it and its terminator. -/
def Walk.deliver (w : Walk) (line : Line) (terminator : Nat) : Walk :=
  { consumed := w.consumed + (line.length + terminator)
    lines := w.lines + 1
    delivered := w.delivered ++ [line] }

/-- The inner loop over one chunk, from `start`: the remainder carried into the
next chunk, or `none` when the budget was hit. -/
def scanChunk (take : Take) (data : Bytes) (start : Nat) (w : Walk) : Walk × Option Bytes :=
  match _h : data.indexOf newline start with
  | none => (w, some (data.drop start))
  | some nl =>
    let line := data.subarray start nl
    let budgetHit := take w.delivered line
    let w := w.deliver line 1
    if budgetHit then (w, none) else scanChunk take data (nl + 1) w
termination_by data.length - start
decreasing_by
  have := Bytes.lt_length_of_indexOf _h
  omega

/-- `JsonlSliceResult`, with the lines delivered. -/
structure JsonlSliceResult where
  consumed : Nat
  lines : Nat
  exhausted : Bool
  delivered : List Line

def Walk.result (w : Walk) (exhausted : Bool) : JsonlSliceResult :=
  { consumed := w.consumed, lines := w.lines, exhausted, delivered := w.delivered }

/-- The loop over the source's chunks, with the bytes carried out of the last one. -/
def scanChunks (take : Take) : List Bytes → Bytes → Walk → JsonlSliceResult
  | [], carry, w =>
    -- The final line arrived without a newline: there is no terminator to count.
    if carry.length ≠ 0 then (w.deliver carry 0).result true else w.result true
  | chunk :: source, carry, w =>
    let data := if carry.length ≠ 0 then carry ++ chunk else chunk
    match scanChunk take data 0 w with
    | (w, none) => w.result false
    | (w, some carry) => scanChunks take source carry w

def scanJsonlSlice (source : List Bytes) (take : Take) : JsonlSliceResult :=
  scanChunks take source [] Walk.start

/-! ## The lines of a stream -/

/-- A stream split on the newline byte: the piece after the last newline is a
line only when it holds a byte. -/
def jsonlLines (stream : Bytes) : List Line :=
  let pieces := stream.splitOn newline
  pieces.dropLast ++ pieces.getLast?.toList.filter (fun tail => tail.length ≠ 0)

@[simp] theorem jsonlLines_nil : jsonlLines [] = [] := by
  simp [jsonlLines]

theorem jsonlLines_cons {line rest : Bytes} (h : newline ∉ line) :
    jsonlLines (line ++ newline :: rest) = line :: jsonlLines rest := by
  have hsplit : (line ++ newline :: rest).splitOn newline = line :: rest.splitOn newline := by
    apply List.splitOnP_append_cons_of_forall_mem
    · intro x hx
      simpa using fun hxn : x = newline => h (hxn ▸ hx)
    · simp
  have hne : rest.splitOn newline ≠ [] := List.splitOnP_ne_nil _ _
  simp [jsonlLines, hsplit, List.dropLast_cons_of_ne_nil hne, List.getLast?_cons, List.getLast?_eq_some_getLast hne]

theorem jsonlLines_unterminated {tail : Bytes} (h : newline ∉ tail) (hne : tail ≠ []) : jsonlLines tail = [tail] := by
  have hsplit : tail.splitOn newline = [tail] := by
    apply List.splitOnP_eq_singleton
    intro x hx
    simpa using fun hxn : x = newline => h (hxn ▸ hx)
  simp [jsonlLines, hsplit, hne]

/-- Lines as the bytes they take in a stream, each with its newline. -/
def terminated (ls : List Line) : Bytes := (ls.map (· ++ [newline])).flatten

@[simp] theorem terminated_nil : terminated [] = [] := rfl

@[simp] theorem terminated_cons (l : Line) (ls : List Line) : terminated (l :: ls) = l ++ newline :: terminated ls := by
  simp [terminated]

theorem jsonlLines_terminated {ls : List Line} (h : ∀ l ∈ ls, newline ∉ l) (rest : Bytes) :
    jsonlLines (terminated ls ++ rest) = ls ++ jsonlLines rest := by
  induction ls with
  | nil => simp
  | cons l ls ih =>
    have hl : newline ∉ l := h l (by simp)
    rw [terminated_cons, List.append_assoc, List.cons_append, jsonlLines_cons hl,
      ih fun l' hl' => h l' (by simp [hl']), List.cons_append]

/-! ## What a slice consumes -/

/-- From `w` to `w'` the walk delivered `ls`, and counted their bytes and newlines. -/
structure Walk.Delivers (w : Walk) (ls : List Line) (w' : Walk) : Prop where
  delivered : w'.delivered = w.delivered ++ ls
  consumed : w'.consumed = w.consumed + (terminated ls).length
  whole : ∀ l ∈ ls, newline ∉ l

theorem Walk.Delivers.refl (w : Walk) : w.Delivers [] w :=
  ⟨by simp, by simp, by simp⟩

theorem Walk.Delivers.cons {w w' : Walk} {l : Line} {ls : List Line} (hl : newline ∉ l)
    (h : (w.deliver l 1).Delivers ls w') : w.Delivers (l :: ls) w' where
  delivered := by simp [h.delivered, Walk.deliver]
  consumed := by
    simp only [h.consumed, Walk.deliver, terminated_cons, List.length_append, List.length_cons]
    omega
  whole := by
    intro l' hl'
    cases hl' with
    | head => exact hl
    | tail _ hmem => exact h.whole l' hmem

/-- One chunk: the lines delivered, then either nothing pending because the
budget stopped the slice after a line, or an unterminated remainder to carry. -/
theorem scanChunk_spec (take : Take) (data : Bytes) (start : Nat) (w : Walk) :
    ∃ ls rest, w.Delivers ls (scanChunk take data start w).1 ∧ data.drop start = terminated ls ++ rest ∧
      match (scanChunk take data start w).2 with
      | none => ls ≠ []
      | some carry => rest = carry ∧ newline ∉ carry := by
  fun_induction scanChunk take data start w with
  | case1 start w h =>
    exact ⟨[], data.drop start, .refl w, by simp, rfl, Bytes.indexOf_eq_none h⟩
  | case2 start w nl h line budgetHit w₁ hhit =>
    obtain ⟨-, hline, hsplit⟩ := Bytes.indexOf_eq_some h
    exact ⟨[line], data.drop (nl + 1), .cons hline (.refl _), by simpa using hsplit, by simp⟩
  | case3 start w nl h line budgetHit w₁ hhit ih =>
    obtain ⟨-, hline, hsplit⟩ := Bytes.indexOf_eq_some h
    obtain ⟨ls, rest, hdel, hrest, hstop⟩ := ih
    refine ⟨line :: ls, rest, .cons hline hdel, ?_, ?_⟩
    · rw [hsplit, hrest]
      simp [line]
    · revert hstop
      cases (scanChunk take data (nl + 1) w₁).2 with
      | none => exact fun _ => List.cons_ne_nil _ _
      | some carry => exact id

/-- What one slice tells: the lines it delivered are the source's next lines, and
`consumed` is exactly the bytes they take. -/
structure SliceOf (source : Bytes) (w : Walk) (r : JsonlSliceResult) : Prop where
  lines : jsonlLines source = r.delivered.drop w.delivered.length ++ jsonlLines (source.drop (r.consumed - w.consumed))
  prefixed : w.delivered <+: r.delivered
  counted : w.consumed ≤ r.consumed
  within : r.consumed - w.consumed ≤ source.length
  ended : r.exhausted = true → r.consumed - w.consumed = source.length
  moved : r.exhausted = false → w.consumed < r.consumed

/-- A slice that ended after `ls`, with `rest` still in the source. -/
theorem SliceOf.stopped {source rest : Bytes} {w w' : Walk} {ls : List Line}
    (h : w.Delivers ls w') (hne : ls ≠ []) (hsource : source = terminated ls ++ rest) :
    SliceOf source w (w'.result false) := by
  obtain ⟨l, ls, rfl⟩ := List.exists_cons_of_ne_nil hne
  have hc := h.consumed
  refine ⟨?_, ⟨_, h.delivered.symm⟩, by simp [Walk.result, hc], ?_, by simp [Walk.result], fun _ => ?_⟩
  · rw [hsource, jsonlLines_terminated h.whole]
    simp only [Walk.result, hc, h.delivered, Nat.add_sub_cancel_left, List.drop_left]
  · simp only [Walk.result, hc, hsource, List.length_append]
    omega
  · simp only [Walk.result, hc, terminated_cons, List.length_append, List.length_cons]
    omega

/-- The loop over the chunks, entered with `carry` out of the chunks before. -/
theorem scanChunks_spec (take : Take) (source : List Bytes) (carry : Bytes) (w : Walk)
    (hcarry : newline ∉ carry) :
    SliceOf (carry ++ source.flatten) w (scanChunks take source carry w) := by
  induction source generalizing carry w with
  | nil =>
    by_cases hne : carry = []
    · subst hne
      have hr : scanChunks take [] [] w = w.result true := rfl
      rw [hr]
      exact ⟨by simp [Walk.result], by simp [Walk.result], by simp [Walk.result],
        by simp [Walk.result], by simp [Walk.result], by simp [Walk.result]⟩
    · have hlen : carry.length ≠ 0 := by simpa using hne
      have hr : scanChunks take [] carry w = (w.deliver carry 0).result true := by
        simp [scanChunks, hlen]
      rw [hr]
      refine ⟨?_, ⟨[carry], rfl⟩, ?_, ?_, ?_, by simp [Walk.result]⟩
      · simp [Walk.result, Walk.deliver, jsonlLines_unterminated hcarry hne]
      · simp [Walk.result, Walk.deliver]
      · simp [Walk.result, Walk.deliver]
      · simp [Walk.result, Walk.deliver]
  | cons chunk source ih =>
    have hdata : (if carry.length ≠ 0 then carry ++ chunk else chunk) = carry ++ chunk := by
      split
      · rfl
      · rename_i h
        simp [List.eq_nil_of_length_eq_zero (not_not.mp h)]
    obtain ⟨ls, rest, hdel, hsplit, hstop⟩ := scanChunk_spec take (carry ++ chunk) 0 w
    simp only [List.drop_zero] at hsplit
    simp only [scanChunks, hdata, List.flatten_cons]
    rcases hw : scanChunk take (carry ++ chunk) 0 w with ⟨w', _ | carry'⟩
    · rw [hw] at hdel hstop
      have hsource : carry ++ (chunk ++ source.flatten) = terminated ls ++ (rest ++ source.flatten) := by
        rw [← List.append_assoc, hsplit, List.append_assoc]
      exact SliceOf.stopped hdel hstop hsource
    · rw [hw] at hdel hstop
      obtain ⟨rfl, hnl⟩ := hstop
      have hih := ih rest w' hnl
      dsimp only at hdel ⊢
      set r := scanChunks take source rest w'
      have hc := hdel.consumed
      have hsource : carry ++ (chunk ++ source.flatten) = terminated ls ++ (rest ++ source.flatten) := by
        rw [← List.append_assoc, hsplit, List.append_assoc]
      obtain ⟨more, hmore⟩ := hih.prefixed
      have hcount := hih.counted
      have hgone : r.consumed - w.consumed = (terminated ls).length + (r.consumed - w'.consumed) := by omega
      have hwithin := hih.within
      refine ⟨?_, ?_, by omega, ?_, ?_, ?_⟩
      · rw [hsource, jsonlLines_terminated hdel.whole, hih.lines, hgone,
          List.drop_length_add_append, ← hmore, hdel.delivered]
        simp [List.append_assoc]
      · exact ⟨ls ++ more, by rw [← hmore, hdel.delivered, List.append_assoc]⟩
      · rw [hsource, hgone, List.length_append]
        omega
      · intro hend
        rw [hsource, hgone, hih.ended hend, ← List.length_append]
      · intro hend
        have := hih.moved hend
        omega

/-- **One slice**: the lines delivered are the source's first lines, and the
source from `consumed` on holds exactly the others. -/
theorem scanJsonlSlice_spec (source : List Bytes) (take : Take) :
    SliceOf source.flatten Walk.start (scanJsonlSlice source take) :=
  scanChunks_spec take source [] Walk.start List.not_mem_nil

/-! ## Slices until the stream ends -/

/-- What one alarm brings: how its source is chunked, and its budget. -/
structure SlicePlan where
  cut : Chunking
  take : Take

/-- A consumer's run over several alarms. -/
structure Consumption where
  offset : Nat
  delivered : List Line
  exhausted : Bool

def Consumption.start : Consumption := { offset := 0, delivered := [], exhausted := false }

def Consumption.slice (stream : Bytes) (c : Consumption) (p : SlicePlan) : Consumption :=
  if c.exhausted then c
  else
    let r := scanJsonlSlice (p.cut.chunks (stream.drop c.offset)) p.take
    { offset := c.offset + r.consumed
      delivered := c.delivered ++ r.delivered
      exhausted := r.exhausted }

def consume (stream : Bytes) (plans : List SlicePlan) : Consumption :=
  plans.foldl (Consumption.slice stream) Consumption.start

/-- What has been delivered and what the offset leaves make up the stream's lines. -/
structure Consumption.Exact (stream : Bytes) (c : Consumption) : Prop where
  lines : c.delivered ++ jsonlLines (stream.drop c.offset) = jsonlLines stream
  bounded : c.offset ≤ stream.length
  ended : c.exhausted = true → c.offset = stream.length

theorem Consumption.Exact.slice {stream : Bytes} {c : Consumption} (h : c.Exact stream)
    (p : SlicePlan) : (c.slice stream p).Exact stream := by
  unfold Consumption.slice
  split
  · exact h
  · have hs := scanJsonlSlice_spec (p.cut.chunks (stream.drop c.offset)) p.take
    simp only [Chunking.flatten_chunks, Walk.start] at hs
    set r := scanJsonlSlice (p.cut.chunks (stream.drop c.offset)) p.take
    have hlines := hs.lines
    simp only [List.length_nil, List.drop_zero, Nat.sub_zero, List.drop_drop] at hlines
    have hbound := h.bounded
    have hwithin := hs.within
    have hended := hs.ended
    simp only [List.length_drop, Nat.sub_zero] at hwithin hended
    refine ⟨?_, ?_, ?_⟩
    · rw [List.append_assoc, ← hlines, h.lines]
    · simp only
      omega
    · intro hend
      have := hended hend
      simp only
      omega

theorem consume_exact (stream : Bytes) (plans : List SlicePlan) : (consume stream plans).Exact stream := by
  suffices ∀ c : Consumption, c.Exact stream → (plans.foldl (Consumption.slice stream) c).Exact stream from
    this _ ⟨by simp [Consumption.start], by simp [Consumption.start], by simp [Consumption.start]⟩
  induction plans with
  | nil => exact fun _ h => h
  | cons p plans ih => exact fun c h => ih _ (h.slice p)

theorem Consumption.slice_moves (stream : Bytes) (c : Consumption) (p : SlicePlan)
    (h : (c.slice stream p).exhausted = false) : c.offset < (c.slice stream p).offset := by
  unfold Consumption.slice at h ⊢
  split at h
  · simp_all
  · rename_i hc
    have hs := scanJsonlSlice_spec (p.cut.chunks (stream.drop c.offset)) p.take
    have := hs.moved h
    simp only [hc, Walk.start] at this ⊢
    simp only [Bool.false_eq_true, if_false]
    omega

/-- Alarms that go on never stop the walk short: after `n` of them either the
stream has ended or `n` bytes are behind the offset. -/
theorem consume_progress (stream : Bytes) (plans : List SlicePlan) :
    (consume stream plans).exhausted = true ∨ plans.length ≤ (consume stream plans).offset := by
  induction plans using List.reverseRecOn with
  | nil => exact .inr (Nat.zero_le _)
  | append_singleton plans p ih =>
    have hlast : consume stream (plans ++ [p]) = (consume stream plans).slice stream p := by
      simp [consume]
    rw [hlast]
    rcases ih with hdone | hfar
    · left
      simp [Consumption.slice, hdone]
    · cases hend : ((consume stream plans).slice stream p).exhausted with
      | true => exact .inl rfl
      | false =>
        have := Consumption.slice_moves stream _ p hend
        right
        simp only [List.length_append, List.length_singleton]
        omega

/-- **Slicing loses nothing.** Over any alarms, however their sources are chunked
and wherever their budgets stop them, the lines delivered so far followed by the
lines from the offset on are the stream's lines; once a slice reports the end of
the stream they are all of them; and enough alarms reach that end. -/
theorem jsonl_slices_lossless (stream : Bytes) (plans : List SlicePlan) :
    (consume stream plans).delivered ++ jsonlLines (stream.drop (consume stream plans).offset) =
        jsonlLines stream ∧
      ((consume stream plans).exhausted = true →
        (consume stream plans).delivered = jsonlLines stream) ∧
      (stream.length < plans.length → (consume stream plans).exhausted = true) := by
  have h := consume_exact stream plans
  refine ⟨h.lines, fun hend => ?_, fun hmany => ?_⟩
  · have hlines := h.lines
    rw [h.ended hend, List.drop_length, jsonlLines_nil, List.append_nil] at hlines
    exact hlines
  · rcases consume_progress stream plans with hdone | hfar
    · exact hdone
    · have := h.bounded
      omega

end ImportLines
