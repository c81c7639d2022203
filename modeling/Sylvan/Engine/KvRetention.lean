-- SUMMARY: Retention by role: which store generations stay in KV, and the byte guard in front of a new one.
import Mathlib.Data.List.Induction
import Mathlib.Data.Option.Basic
import Sylvan.Data.JsMap
import Sylvan.Data.Text

/-!
# KV retention

A generation key belongs to the family of its `built_at`. A family is kept for
the role it plays (live, another format's live, rollback, in flight); every
other generation key is retired, and the rollback too when the byte guard says
the next family would not fit beside it.

Byte counts are integers. JavaScript's doubles are exact on them below `2 ^ 53`.
-/

namespace KvRetention

open Text

abbrev BuiltAt : Type := String

/-! ## Key families -/

/-- `(?:\.[a-z0-9]+(?::\d+)?)?$` -/
def matchExtension (s : List Char) : Bool :=
  match s with
  | [] => true
  | c :: s' =>
    if c = '.' then
      match stripRun isLowerOrDigit s' with
      | none => false
      | some (_, []) => true
      | some (_, c' :: s'') => c' = ':' && match stripRun isDigit s'' with
        | some (_, []) => true
        | _ => false
    else false

/-- `GENERATION_KEY_RE`:
`/^store:card-([a-z][a-z0-9]*)-v(\d+)-(\d+)(?:-p\d+)?(?:\.[a-z0-9]+(?::\d+)?)?$/`, its third group. -/
def generationKeyRe (name : List Char) : Option (List Char) := do
  let s ← stripLit "store:card-".toList name
  let (kind, s) ← stripRun isLowerOrDigit s
  guard ((kind.head?.map isLower).getD false)
  let s ← stripLit "-v".toList s
  let (_, s) ← stripRun isDigit s
  let s ← stripLit "-".toList s
  let (builtAt, s) ← stripRun isDigit s
  guard (matchExtension (stripPartition s))
  return builtAt

/-- The built_at a key's family is keyed by, or `none` for a key of no generation. -/
def generationOfKey (name : String) : Option BuiltAt :=
  (generationKeyRe name.toList).map String.ofList

/-! ## Roles -/

structure RetentionRoles where
  live : Option BuiltAt
  otherLive : List BuiltAt
  rollback : Option BuiltAt
  inFlight : Option BuiltAt

def truthy (s : Option String) : Option String := s.filter (· ≠ "")

theorem truthy_eq_some_iff {s : Option String} {g : String} : truthy s = some g ↔ s = some g ∧ g ≠ "" := by
  simp [truthy, Option.filter_eq_some_iff]

def retainedFamilies (roles : RetentionRoles) : List BuiltAt :=
  (truthy roles.live).toList ++ roles.otherLive.filter (· ≠ "") ++
    (truthy roles.rollback).toList ++ (truthy roles.inFlight).toList

/-- `Number(a) < Number(b)`: text that is no decimal number is `NaN`, and less than nothing. -/
def older (a b : BuiltAt) : Bool :=
  a.toList.all isDigit && b.toList.all isDigit && decimal a < decimal b

/-- `list.sort((a, b) => Number(b) - Number(a))`, stable. -/
def newestFirst {α : Type} (builtAt : α → BuiltAt) (xs : List α) : List α :=
  xs.mergeSort fun a b => decimal (builtAt b) ≤ decimal (builtAt a)

/-- Every generation present among `names`, newest first. -/
def generationsPresent (names : List String) : List BuiltAt :=
  newestFirst id (names.filterMap generationOfKey).eraseDups

structure ManifestPartition where
  store_key : String
  store_bytes : ℕ
  store_gzip_bytes : Option ℕ
  chunk_count : ℕ

/-- What retention needs from a manifest. -/
structure ManifestRoles where
  built_at : BuiltAt
  previous_built_at : Option BuiltAt := none
  partitions : List ManifestPartition := []

/-- The rollback role for `live`: the family it replaced, or for a manifest that
does not say, the newest family present that is older and plays no other role. -/
def rollbackFor (live : Option ManifestRoles) (present : List String)
    (inFlight : Option BuiltAt) (otherLive : List BuiltAt) : Option BuiltAt :=
  match live with
  | none => none
  | some m =>
    if m.built_at = "" then none
    else match truthy m.previous_built_at with
      | some prev => if prev = m.built_at then none else some prev
      | none => (generationsPresent present).find? fun at' =>
        some at' ≠ inFlight && !otherLive.contains at' && older at' m.built_at

/-! ## Sizes -/

def KV_GUARD_BYTES : ℤ := 950000000

/-- A key from a KV `list`. `metadata` is the number under `b`, when there is one. -/
structure ListedKey where
  name : String
  metadata : Option ℤ := none

def LEGACY_ESTIMATES : List (String × ℤ) :=
  [("store:card-store-", 26214400), ("store:card-routing-", 4194304), ("store:card-", 1048576),
   ("rulings:", 262144), ("reference:", 262144), ("oracle-index:", 655360)]

def LEGACY_SMALL_BYTES : ℤ := 16384

def manifestChunkSizes (manifests : List ManifestRoles) : JsMap String ℤ :=
  (manifests.flatMap ManifestRoles.partitions).foldl (fun out p =>
    if p.store_key = "" ∨ p.chunk_count = 0 then out
    else
      let bytes := p.store_gzip_bytes.getD p.store_bytes
      let per : ℤ := ((bytes + p.chunk_count - 1) / p.chunk_count : ℕ)
      (List.range p.chunk_count).foldl (fun out seq =>
        out.set s!"store:{p.store_key}:{seq}" per) out) .empty

structure KeyBytes where
  bytes : ℤ
  exact : Bool

/-- One key's bytes: its own size when it carries one, else the best estimate. -/
def listedKeyBytes (key : ListedKey) (known : JsMap String ℤ) : KeyBytes :=
  match key.metadata.filter (0 ≤ ·) with
  | some b => { bytes := b, exact := true }
  | none => match known.get key.name with
    | some bytes => { bytes, exact := false }
    | none => match LEGACY_ESTIMATES.find? fun e => e.1.toList.isPrefixOf key.name.toList with
      | some (_, bytes) => { bytes, exact := false }
      | none => { bytes := LEGACY_SMALL_BYTES, exact := false }

/-! ## The byte guard -/

inductive Decision
  | go
  | dropRollback
  | refuse
  /-- No family is about to start: no guard ran. -/
  | sweep
  deriving DecidableEq

structure Guard where
  decision : Decision
  projected : ℤ

/-- Whether a new family of `incoming` bytes may start, given `used`. -/
def decideByteGuard (used rollbackBytes incoming : ℤ) (limit : Option ℤ) : Guard :=
  let limit := limit.getD KV_GUARD_BYTES
  let projected := used + incoming
  if projected ≤ limit then { decision := .go, projected }
  else
    let without := projected - rollbackBytes
    if 0 < rollbackBytes ∧ without ≤ limit then
      { decision := .dropRollback, projected := without }
    else { decision := .refuse, projected := without }

/-! ## The plan -/

inductive FamilyRole
  | live
  | rollback
  | inFlight
  | retired
  /-- No role, kept because there is no manifest to judge by. -/
  | kept
  deriving DecidableEq

structure FamilyInfo where
  builtAt : BuiltAt
  keys : ℕ
  bytes : ℤ
  role : FamilyRole

structure RetentionPlan where
  /-- The roles after the guard: `rollback` is `none` when it was dropped. -/
  roles : RetentionRoles
  /-- Keys to delete, orphans first and then (when dropped) the rollback. -/
  retire : List String
  decision : Decision
  usedBytes : ℤ
  projectedBytes : ℤ
  estimatedKeys : ℕ
  families : List FamilyInfo

structure RetentionOpts where
  live : Option ManifestRoles
  otherLive : List ManifestRoles := []
  inFlight : Option BuiltAt := none
  incomingBytes : Option ℤ := none
  limit : Option ℤ := none

/-- A family's keys and bytes, as the listing gives them. -/
structure Family where
  keys : List String
  bytes : ℤ

/-- The totals of one pass over the listing. -/
structure Tally where
  perFamily : JsMap BuiltAt Family
  total : ℤ
  estimatedKeys : ℕ

def Tally.start : Tally := { perFamily := .empty, total := 0, estimatedKeys := 0 }

def Family.add (key : ListedKey) (bytes : ℤ) (fam : Option Family) : Family :=
  let fam := fam.getD { keys := [], bytes := 0 }
  { keys := fam.keys ++ [key.name], bytes := fam.bytes + bytes }

def Tally.add (known : JsMap String ℤ) (t : Tally) (key : ListedKey) : Tally :=
  let size := listedKeyBytes key known
  { perFamily := match generationOfKey key.name with
      | none => t.perFamily
      | some at' => t.perFamily.update at' (Family.add key size.bytes)
    total := t.total + size.bytes
    estimatedKeys := t.estimatedKeys + if size.exact then 0 else 1 }

def tally (known : JsMap String ℤ) (keys : List ListedKey) : Tally :=
  keys.foldl (Tally.add known) Tally.start

namespace RetentionOpts

variable (opts : RetentionOpts)

def liveAt : Option BuiltAt := truthy (opts.live.map ManifestRoles.built_at)

def others : List ManifestRoles := opts.otherLive.filter (·.built_at ≠ "")

def otherLiveAt : List BuiltAt :=
  match opts.liveAt with
  | none => []
  | some liveAt => ((opts.others.map ManifestRoles.built_at).eraseDups).filter (· ≠ liveAt)

def known : JsMap String ℤ := manifestChunkSizes (opts.live.toList ++ opts.others)

def namedRollback (keys : List ListedKey) : Option BuiltAt :=
  rollbackFor opts.live (keys.map ListedKey.name) opts.inFlight opts.otherLiveAt

/-- Three families at most: the distinct families in a role, the rollback among them. -/
def familyCount (rollback : BuiltAt) : ℕ :=
  ((opts.liveAt.toList ++ opts.otherLiveAt ++ (truthy opts.inFlight).toList ++
    (truthy (some rollback)).toList).eraseDups).length

def roles (keys : List ListedKey) : RetentionRoles :=
  let rollback := truthy (opts.namedRollback keys)
  let rollback := rollback.filter fun r =>
    !(some r = opts.liveAt || some r = opts.inFlight || opts.otherLiveAt.contains r)
  let rollback := rollback.filter fun r => opts.familyCount r ≤ 3
  { live := opts.liveAt, otherLive := opts.otherLiveAt, rollback, inFlight := opts.inFlight }

end RetentionOpts

/-- The families the sweep deletes: none when there is no live manifest. -/
def sweptFamilies (roles : RetentionRoles) (perFamily : JsMap BuiltAt Family) : List (BuiltAt × Family) :=
  if (truthy roles.live).isSome then
    perFamily.entries.filter fun e => !(retainedFamilies roles).contains e.1
  else []

def familyRole (roles : RetentionRoles) (builtAt : BuiltAt) : FamilyRole :=
  if some builtAt = roles.live ∨ builtAt ∈ roles.otherLive then .live
  else if some builtAt = roles.inFlight then .inFlight
  else if some builtAt = roles.rollback then .rollback
  else if roles.live.isSome then .retired
  else .kept

/-- The decision every writer follows: which families stay, which keys go, and
whether a family of `incomingBytes` may start. -/
def planRetention (keys : List ListedKey) (opts : RetentionOpts) : RetentionPlan :=
  let roles := opts.roles keys
  let t := tally opts.known keys
  let swept := sweptFamilies roles t.perFamily
  let retire := swept.flatMap fun e => e.2.keys
  let used := t.total - (swept.map fun e => e.2.bytes).sum
  let plan (roles : RetentionRoles) (retire : List String) (decision : Decision)
      (used projected : ℤ) : RetentionPlan :=
    { roles, retire, decision, usedBytes := used, projectedBytes := projected
      estimatedKeys := t.estimatedKeys
      families := (newestFirst Prod.fst t.perFamily.entries).map fun e =>
        { builtAt := e.1, keys := e.2.keys.length, bytes := e.2.bytes
          role := familyRole roles e.1 } }
  match opts.incomingBytes with
  | none => plan roles retire .sweep used used
  | some incoming =>
    let rollbackFamily := roles.rollback.bind t.perFamily.get
    let rollbackBytes := (rollbackFamily.map Family.bytes).getD 0
    let guard := decideByteGuard used rollbackBytes incoming opts.limit
    if guard.decision = .dropRollback ∧ roles.rollback.isSome then
      plan { roles with rollback := none }
        (retire ++ (rollbackFamily.map Family.keys).getD []) guard.decision
        (used - rollbackBytes) guard.projected
    else plan roles retire guard.decision used guard.projected

/-! ## What the tally holds -/

def bytesOf (known : JsMap String ℤ) (keys : List ListedKey) : ℤ :=
  (keys.map fun k => (listedKeyBytes k known).bytes).sum

@[simp] theorem bytesOf_nil (known : JsMap String ℤ) : bytesOf known [] = 0 := rfl

@[simp] theorem bytesOf_append (known : JsMap String ℤ) (ks ks' : List ListedKey) :
    bytesOf known (ks ++ ks') = bytesOf known ks + bytesOf known ks' := by
  simp [bytesOf]

@[simp] theorem bytesOf_singleton (known : JsMap String ℤ) (k : ListedKey) :
    bytesOf known [k] = (listedKeyBytes k known).bytes := by
  simp [bytesOf]

theorem bytesOf_filter_not (known : JsMap String ℤ) (gone : ListedKey → Bool)
    (keys : List ListedKey) :
    bytesOf known (keys.filter fun k => !gone k) = bytesOf known keys - bytesOf known (keys.filter gone) := by
  induction keys with
  | nil => simp
  | cons k keys ih =>
    have hk (ks : List ListedKey) : bytesOf known (k :: ks) = (listedKeyBytes k known).bytes + bytesOf known ks := rfl
    cases h : gone k with
    | false =>
      simp [h, hk, ih]
      omega
    | true => simp [h, hk, ih]

theorem bytesOf_filter_or (known : JsMap String ℤ) (p q : ListedKey → Bool)
    (keys : List ListedKey) (hdisj : ∀ k, p k = true → q k = false) :
    bytesOf known (keys.filter fun k => p k || q k) = bytesOf known (keys.filter p) + bytesOf known (keys.filter q) := by
  induction keys with
  | nil => simp
  | cons k keys ih =>
    have hk (ks : List ListedKey) : bytesOf known (k :: ks) = (listedKeyBytes k known).bytes + bytesOf known ks := rfl
    cases hp : p k with
    | true => simp [hp, hdisj k hp, hk, ih]; omega
    | false => cases hq : q k <;> simp [hp, hq, hk, ih]; omega

/-- The listed keys of a family that satisfies `p`. -/
def inFamily (p : BuiltAt → Bool) (k : ListedKey) : Bool := (generationOfKey k.name).any p

theorem inFamily_iff {p : BuiltAt → Bool} {k : ListedKey} :
    inFamily p k = true ↔ ∃ g, generationOfKey k.name = some g ∧ p g = true := by
  cases h : generationOfKey k.name <;> simp [inFamily, h]

theorem tally_append (known : JsMap String ℤ) (keys : List ListedKey) (key : ListedKey) :
    tally known (keys ++ [key]) = (tally known keys).add known key := by
  simp [tally]

theorem tally_total (known : JsMap String ℤ) (keys : List ListedKey) : (tally known keys).total = bytesOf known keys := by
  induction keys using List.reverseRecOn with
  | nil => rfl
  | append_singleton keys key ih => simp [tally_append, Tally.add, ih]

theorem tally_get (known : JsMap String ℤ) (keys : List ListedKey) (g : BuiltAt) : (tally known keys).perFamily.get g =
      let ks := keys.filter (inFamily (· = g))
      if ks = [] then none
      else some { keys := ks.map ListedKey.name, bytes := bytesOf known ks } := by
  induction keys using List.reverseRecOn with
  | nil => rfl
  | append_singleton keys key ih =>
    rw [tally_append, Tally.add]
    cases hg : generationOfKey key.name with
    | none => simpa [inFamily, hg] using ih
    | some g' =>
      by_cases heq : g' = g
      · subst heq
        by_cases hks : keys.filter (inFamily (· = g')) = []
        · simp [JsMap.get_update, ih, hks, inFamily, hg, Family.add]
        · simp [JsMap.get_update, ih, hks, inFamily, hg, Family.add]
      · simpa [JsMap.get_update, inFamily, hg, heq] using ih

/-- Summing the families that satisfy `p` is summing the keys whose family does. -/
theorem tally_sumWhere (known : JsMap String ℤ) (p : BuiltAt → Bool) (keys : List ListedKey) :
    (tally known keys).perFamily.sumWhere p Family.bytes = bytesOf known (keys.filter (inFamily p)) := by
  induction keys using List.reverseRecOn with
  | nil => rfl
  | append_singleton keys key ih =>
    rw [tally_append, Tally.add, List.filter_append, bytesOf_append, ← ih]
    cases hg : generationOfKey key.name with
    | none => simp [inFamily, hg]
    | some g =>
      simp only [JsMap.sumWhere_update, List.filter_singleton, inFamily, hg, Option.any_some]
      cases p g with
      | false => simp
      | true =>
        cases hfam : (tally known keys).perFamily.get g <;> simp [Family.add]

/-! ## What the plan retires -/

/-- The plan lists exactly the keys of the families that satisfy `p`, and counts
exactly the bytes of the others as used. -/
structure RetentionPlan.Retires (plan : RetentionPlan) (known : JsMap String ℤ)
    (keys : List ListedKey) (p : BuiltAt → Bool) : Prop where
  retire : ∀ name, name ∈ plan.retire ↔ ∃ k ∈ keys, k.name = name ∧ inFamily p k
  used : plan.usedBytes = bytesOf known (keys.filter fun k => !inFamily p k)

def sweeps (roles : RetentionRoles) (g : BuiltAt) : Bool :=
  (truthy roles.live).isSome && !(retainedFamilies roles).contains g

theorem mem_familyKeys {known : JsMap String ℤ} {keys : List ListedKey} {g : BuiltAt}
    {name : String} :
    (∃ fam, (tally known keys).perFamily.get g = some fam ∧ name ∈ fam.keys) ↔
      ∃ k ∈ keys, k.name = name ∧ inFamily (· = g) k := by
  rw [tally_get]
  by_cases hks : keys.filter (inFamily (· = g)) = []
  · have hnone := List.filter_eq_nil_iff.mp hks
    simp only [hks, if_true, reduceCtorEq, false_and, exists_false, false_iff]
    rintro ⟨k, hk, -, hin⟩
    exact hnone k hk hin
  · simp only [hks, if_false, Option.some.injEq, exists_eq_left', List.mem_map, List.mem_filter]
    constructor
    · rintro ⟨k, ⟨hk, hin⟩, rfl⟩
      exact ⟨k, hk, rfl, hin⟩
    · rintro ⟨k, hk, rfl, hin⟩
      exact ⟨k, ⟨hk, hin⟩, rfl⟩

theorem mem_sweptKeys {known : JsMap String ℤ} {keys : List ListedKey} {roles : RetentionRoles}
    {name : String} :
    name ∈ (sweptFamilies roles (tally known keys).perFamily).flatMap (fun e => e.2.keys) ↔
      ∃ k ∈ keys, k.name = name ∧ inFamily (sweeps roles) k := by
  have hentry : name ∈ (sweptFamilies roles (tally known keys).perFamily).flatMap
        (fun e => e.2.keys) ↔
      ∃ g, sweeps roles g = true ∧ ∃ fam, (tally known keys).perFamily.get g = some fam ∧ name ∈ fam.keys := by
    cases hlive : (truthy roles.live).isSome with
    | false => simp [sweptFamilies, sweeps, hlive]
    | true =>
      simp only [sweptFamilies, sweeps, hlive, if_true, List.mem_flatMap, List.mem_filter,
        Prod.exists, JsMap.mem_entries, Bool.true_and]
      constructor
      · rintro ⟨g, fam, ⟨hget, hkept⟩, hname⟩
        exact ⟨g, hkept, fam, hget, hname⟩
      · rintro ⟨g, hkept, fam, hget, hname⟩
        exact ⟨g, fam, ⟨hget, hkept⟩, hname⟩
  simp only [hentry, mem_familyKeys, inFamily_iff, decide_eq_true_eq]
  constructor
  · rintro ⟨g, hg, k, hk, hname, g', hgen, rfl⟩
    exact ⟨k, hk, hname, g', hgen, hg⟩
  · rintro ⟨k, hk, hname, g, hgen, hg⟩
    exact ⟨g, hg, k, hk, hname, g, hgen, rfl⟩

theorem sum_sweptFamilies (known : JsMap String ℤ) (keys : List ListedKey)
    (roles : RetentionRoles) :
    ((sweptFamilies roles (tally known keys).perFamily).map fun e => e.2.bytes).sum =
      bytesOf known (keys.filter (inFamily (sweeps roles))) := by
  rw [← tally_sumWhere]
  cases hlive : (truthy roles.live).isSome with
  | false => simp [sweptFamilies, sweeps, hlive, JsMap.sumWhere]
  | true => simp [sweptFamilies, sweeps, hlive, JsMap.sumWhere]

theorem sum_family (known : JsMap String ℤ) (keys : List ListedKey) (rollback : Option BuiltAt) :
    ((rollback.bind (tally known keys).perFamily.get).map Family.bytes).getD 0 =
      bytesOf known (keys.filter (inFamily fun g => some g = rollback)) := by
  cases rollback with
  | none =>
    have hnone : keys.filter (inFamily fun g => some g = none) = [] := by
      simp [List.filter_eq_nil_iff, inFamily_iff]
    rw [hnone]
    rfl
  | some r =>
    simp only [Option.bind_some, tally_get, Option.some.injEq]
    by_cases hks : keys.filter (inFamily (· = r)) = []
    · simp [hks]
    · simp [hks]

theorem not_sweeps_rollback {roles : RetentionRoles} {g : BuiltAt} (hne : g ≠ "")
    (h : some g = roles.rollback) : sweeps roles g = false := by
  simp [sweeps, retainedFamilies, truthy, ← h, hne]

variable {opts : RetentionOpts}

theorem roles_rollback_ne {keys : List ListedKey} {g : BuiltAt}
    (h : some g = (opts.roles keys).rollback) : g ≠ "" := by
  have := h.symm
  simp only [RetentionOpts.roles, truthy, Option.filter_eq_some_iff] at this
  simpa using this.1.1.2

/-- The families a plan takes: the swept ones, and the rollback once it is dropped. -/
def RetentionOpts.goes (opts : RetentionOpts) (keys : List ListedKey) (decision : Decision)
    (g : BuiltAt) : Bool :=
  sweeps (opts.roles keys) g ||
    (decision = .dropRollback && some g = (opts.roles keys).rollback)

theorem planRetention_retires (keys : List ListedKey) (opts : RetentionOpts) :
    (planRetention keys opts).Retires opts.known keys
      (opts.goes keys (planRetention keys opts).decision) := by
  have hswept := @mem_sweptKeys opts.known keys (opts.roles keys)
  have hsum := sum_sweptFamilies opts.known keys (opts.roles keys)
  have hfam := sum_family opts.known keys (opts.roles keys).rollback
  have hsweepOnly : ∀ d : Decision, ¬(d = .dropRollback ∧ (opts.roles keys).rollback.isSome) →
      opts.goes keys d = sweeps (opts.roles keys) := by
    intro d hd
    funext g
    cases hr : (opts.roles keys).rollback <;> simp_all [RetentionOpts.goes]
  -- Without a dropped rollback the plan is the sweep.
  have hsweep : ∀ (plan : RetentionPlan) (d : Decision), ¬(d = .dropRollback ∧ (opts.roles keys).rollback.isSome) →
      plan.retire = (sweptFamilies (opts.roles keys) (tally opts.known keys).perFamily).flatMap
        (fun e => e.2.keys) →
      plan.usedBytes = (tally opts.known keys).total -
        ((sweptFamilies (opts.roles keys) (tally opts.known keys).perFamily).map
          fun e => e.2.bytes).sum →
      plan.Retires opts.known keys (opts.goes keys d) := by
    intro plan d hd hretire hused
    rw [hsweepOnly d hd]
    refine ⟨fun name => by rw [hretire]; exact hswept, ?_⟩
    rw [hused, hsum, tally_total, bytesOf_filter_not]
  unfold planRetention
  cases hin : opts.incomingBytes with
  | none => exact hsweep _ _ (by simp) rfl rfl
  | some incoming =>
    dsimp only
    split
    · rename_i hdrop
      obtain ⟨r, hr⟩ := Option.isSome_iff_exists.mp hdrop.2
      have hgoes : inFamily (opts.goes keys .dropRollback) = fun k => inFamily (sweeps (opts.roles keys)) k ||
            inFamily (fun g => some g = (opts.roles keys).rollback) k := by
        funext k
        cases hg : generationOfKey k.name <;> simp [inFamily, RetentionOpts.goes, hg]
      dsimp only
      rw [hdrop.1]
      constructor
      · intro name
        have hnames : name ∈ ((((opts.roles keys).rollback.bind
              (tally opts.known keys).perFamily.get).map Family.keys).getD []) ↔
            ∃ k ∈ keys, k.name = name ∧ inFamily (fun g => some g = (opts.roles keys).rollback) k := by
          rw [hr, Option.bind_some]
          have := @mem_familyKeys opts.known keys r name
          cases hget : (tally opts.known keys).perFamily.get r <;> simp_all
        dsimp only
        rw [List.mem_append, hswept, hnames, hgoes]
        simp only [Bool.or_eq_true]
        constructor
        · rintro (⟨k, hk, hname, h⟩ | ⟨k, hk, hname, h⟩)
          · exact ⟨k, hk, hname, .inl h⟩
          · exact ⟨k, hk, hname, .inr h⟩
        · rintro ⟨k, hk, hname, h | h⟩
          · exact .inl ⟨k, hk, hname, h⟩
          · exact .inr ⟨k, hk, hname, h⟩
      · have hdisj : ∀ k, inFamily (sweeps (opts.roles keys)) k = true →
            inFamily (fun g => some g = (opts.roles keys).rollback) k = false := by
          intro k hk
          obtain ⟨g, hgen, hsw⟩ := inFamily_iff.mp hk
          by_contra hne
          obtain ⟨g', hgen', hroll⟩ := inFamily_iff.mp (Bool.not_eq_false _ ▸ hne)
          obtain rfl : g = g' := by simpa [hgen] using hgen'
          have hroll := of_decide_eq_true hroll
          rw [not_sweeps_rollback (roles_rollback_ne hroll) hroll] at hsw
          cases hsw
        dsimp only
        rw [hgoes, bytesOf_filter_not, bytesOf_filter_or _ _ _ _ hdisj, hsum, hfam, tally_total]
        omega
    · rename_i hkeep
      exact hsweep _ _ hkeep rfl rfl

/-! ## Retention by role -/

theorem generationOfKey_ne_empty {name : String} {g : BuiltAt}
    (h : generationOfKey name = some g) : g ≠ "" := by
  obtain ⟨cs, hcs, rfl⟩ := Option.map_eq_some_iff.mp h
  simp only [generationKeyRe, Option.bind_eq_bind, Option.bind_eq_some_iff] at hcs
  obtain ⟨_, _, _, _, _, _, _, _, _, _, _, _, ⟨run, rest⟩, hlast, _, _, heq⟩ := hcs
  cases heq
  intro hempty
  exact run_ne_nil hlast (by simpa using congrArg String.toList hempty)

namespace RetentionOpts

variable (opts : RetentionOpts)

def LiveKnown : Prop := ∃ m, opts.live = some m ∧ m.built_at ≠ ""

/-- The families no plan may touch: live, live under another format, in flight. -/
def Protects (g : BuiltAt) : Prop :=
  opts.live.map ManifestRoles.built_at = some g ∨ g ∈ opts.otherLive.map ManifestRoles.built_at ∨ opts.inFlight = some g

/-- The distinct families playing a role before the rollback is asked about. -/
def rolesTaken : List BuiltAt :=
  (opts.liveAt.toList ++ opts.otherLiveAt ++ (truthy opts.inFlight).toList).eraseDups

/-- Those families are already as many as retention keeps. -/
def Crowded : Prop := 3 ≤ opts.rolesTaken.length

end RetentionOpts

theorem liveAt_isSome_iff : opts.liveAt.isSome ↔ opts.LiveKnown := by
  cases h : opts.live with
  | none => simp [RetentionOpts.liveAt, RetentionOpts.LiveKnown, truthy, h]
  | some m =>
    by_cases hm : m.built_at = "" <;>
      simp [RetentionOpts.liveAt, RetentionOpts.LiveKnown, truthy, h, hm, Option.filter]

theorem protects_iff (hlive : opts.LiveKnown) {g : BuiltAt} (hg : g ≠ "") : opts.Protects g ↔
      some g = opts.liveAt ∨ g ∈ opts.otherLiveAt ∨ some g = truthy opts.inFlight := by
  obtain ⟨m, hm, hne⟩ := hlive
  have hat : opts.liveAt = some m.built_at := by
    simp [RetentionOpts.liveAt, truthy, hm, hne, Option.filter]
  have hfly : some g = truthy opts.inFlight ↔ opts.inFlight = some g := by
    rw [eq_comm, truthy_eq_some_iff]
    simp [hg]
  have hother : g ∈ opts.otherLiveAt ↔ g ∈ opts.otherLive.map ManifestRoles.built_at ∧ g ≠ m.built_at := by
    simp only [RetentionOpts.otherLiveAt, hat, List.mem_filter, List.mem_eraseDups,
      RetentionOpts.others, List.mem_map, decide_eq_true_eq, ne_eq]
    constructor
    · rintro ⟨⟨m', ⟨hm', -⟩, rfl⟩, hne'⟩
      exact ⟨⟨m', hm', rfl⟩, hne'⟩
    · rintro ⟨⟨m', hm', rfl⟩, hne'⟩
      exact ⟨⟨m', ⟨hm', hg⟩, rfl⟩, hne'⟩
  rw [RetentionOpts.Protects, hm, hat, hfly, hother]
  by_cases heq : g = m.built_at <;> simp [heq, eq_comm]

theorem roles_rollback (keys : List ListedKey) (hlive : opts.LiveKnown)
    {g : BuiltAt} (hg : g ≠ "") :
    some g = (opts.roles keys).rollback ↔ opts.namedRollback keys = some g ∧ ¬opts.Protects g ∧ ¬opts.Crowded := by
  have hcount : ¬opts.Protects g → (opts.familyCount g ≤ 3 ↔ ¬opts.Crowded) := by
    intro hfree
    rw [protects_iff hlive hg] at hfree
    have hnew : g ∉ opts.liveAt.toList ++ opts.otherLiveAt ++ (truthy opts.inFlight).toList := by
      simpa [eq_comm, and_assoc] using hfree
    have hone : (truthy (some g)).toList = [g] := by simp [truthy, Option.filter, hg]
    rw [RetentionOpts.familyCount, RetentionOpts.Crowded, RetentionOpts.rolesTaken, hone, List.eraseDups_append]
    have hrest : List.removeAll [g]
        (opts.liveAt.toList ++ opts.otherLiveAt ++ (truthy opts.inFlight).toList) = [g] := by
      simpa [List.removeAll, List.filter_cons] using hnew
    have hsingle : [g].eraseDups = [g] := by simp [List.eraseDups_cons]
    rw [hrest, hsingle, List.length_append, List.length_singleton]
    omega
  have hprot := protects_iff hlive hg
  have hfly : some g = truthy opts.inFlight ↔ some g = opts.inFlight := by
    rw [eq_comm, truthy_eq_some_iff]
    simp [hg, eq_comm]
  rw [hfly, or_comm (a := g ∈ opts.otherLiveAt)] at hprot
  rw [eq_comm]
  simp only [RetentionOpts.roles, truthy, Option.filter_eq_some_iff]
  constructor
  · rintro ⟨⟨⟨hnamed, -⟩, hrole⟩, hfit⟩
    have hfree : ¬opts.Protects g := by
      rw [hprot]
      simpa [and_assoc] using hrole
    exact ⟨hnamed, hfree, (hcount hfree).mp (of_decide_eq_true hfit)⟩
  · rintro ⟨hnamed, hfree, hroom⟩
    refine ⟨⟨⟨hnamed, by simpa using hg⟩, ?_⟩, decide_eq_true ((hcount hfree).mpr hroom)⟩
    rw [hprot] at hfree
    simpa [and_assoc] using hfree

theorem sweeps_iff (keys : List ListedKey) (hlive : opts.LiveKnown)
    {g : BuiltAt} (hg : g ≠ "") :
    sweeps (opts.roles keys) g = true ↔ ¬opts.Protects g ∧ some g ≠ (opts.roles keys).rollback := by
  have hsome := liveAt_isSome_iff.mpr hlive
  have htruthy : truthy opts.liveAt = opts.liveAt := by
    simp [RetentionOpts.liveAt, truthy, Option.filter_filter]
  have hroll : some g = truthy (opts.roles keys).rollback ↔ some g = (opts.roles keys).rollback := by
    rw [eq_comm, truthy_eq_some_iff]
    simp [hg, eq_comm]
  rw [protects_iff hlive hg, ne_eq, ← hroll]
  have hrl : (opts.roles keys).live = opts.liveAt := rfl
  have hro : (opts.roles keys).otherLive = opts.otherLiveAt := rfl
  have hri : (opts.roles keys).inFlight = opts.inFlight := rfl
  simp only [sweeps, retainedFamilies, hrl, hro, hri, htruthy, hsome, Bool.true_and,
    Bool.not_eq_true', List.contains_eq_mem, decide_eq_false_iff_not, List.mem_append,
    Option.mem_toList, List.mem_filter, decide_eq_true_eq, eq_comm (b := some g)]
  tauto

theorem retire_eq_nil {keys : List ListedKey} (h : ¬opts.LiveKnown) : (planRetention keys opts).retire = [] := by
  have hnone : opts.liveAt = none := by
    rw [← liveAt_isSome_iff] at h
    simpa using h
  have hroll : (opts.roles keys).rollback = none := by
    have hnamed : truthy (opts.namedRollback keys) = none := by
      cases hm : opts.live with
      | none => simp [RetentionOpts.namedRollback, rollbackFor, hm, truthy]
      | some m =>
        have hempty : m.built_at = "" := by
          by_contra hne
          exact h ⟨m, hm, hne⟩
        simp [RetentionOpts.namedRollback, rollbackFor, hm, hempty, truthy]
    simp [RetentionOpts.roles, hnamed]
  have hgoes : ∀ k, inFamily (opts.goes keys (planRetention keys opts).decision) k = false := by
    intro k
    have hsw : ∀ g, sweeps (opts.roles keys) g = false := by
      simp [sweeps, RetentionOpts.roles, hnone, truthy]
    cases hg : generationOfKey k.name <;> simp [inFamily, hg, RetentionOpts.goes, hsw, hroll]
  refine List.eq_nil_iff_forall_not_mem.mpr fun name hname => ?_
  obtain ⟨k, -, -, hk⟩ := (planRetention_retires keys opts).retire name |>.mp hname
  rw [hgoes k] at hk
  cases hk

theorem planRetention_fits {keys : List ListedKey} {incoming : ℤ}
    (hin : opts.incomingBytes = some incoming)
    (hyes : (planRetention keys opts).decision = .go ∨ (planRetention keys opts).decision = .dropRollback) :
    (planRetention keys opts).usedBytes + incoming ≤ opts.limit.getD KV_GUARD_BYTES := by
  revert hyes
  simp only [planRetention, hin, decideByteGuard]
  split
  · intro _
    simp only [reduceCtorEq, false_and, if_false]
    omega
  · split
    · rename_i hroom
      cases hr : (opts.roles keys).rollback with
      | none => simp [hr] at hroom
      | some r => simp [hr] at hroom ⊢; omega
    · simp

theorem mem_retire_iff {keys : List ListedKey} {name : String}
    {g : BuiltAt} (hgen : generationOfKey name = some g) :
    name ∈ (planRetention keys opts).retire ↔ name ∈ keys.map ListedKey.name ∧
        opts.goes keys (planRetention keys opts).decision g = true := by
  rw [(planRetention_retires keys opts).retire, List.mem_map]
  constructor
  · rintro ⟨k, hk, rfl, hin⟩
    obtain ⟨g', hgen', hgo⟩ := inFamily_iff.mp hin
    obtain rfl : g = g' := by simpa [hgen] using hgen'
    exact ⟨⟨k, hk, rfl⟩, hgo⟩
  · rintro ⟨⟨k, hk, rfl⟩, hgo⟩
    exact ⟨k, hk, rfl, inFamily_iff.mpr ⟨g, hgen, hgo⟩⟩

/-- The bytes of the keys left once the plan's are deleted. -/
def bytesLeft (keys : List ListedKey) (opts : RetentionOpts) : ℤ :=
  bytesOf opts.known (keys.filter fun k => k.name ∉ (planRetention keys opts).retire)

theorem bytesLeft_eq (keys : List ListedKey) (opts : RetentionOpts) :
    bytesLeft keys opts = (planRetention keys opts).usedBytes := by
  have hret := planRetention_retires keys opts
  rw [hret.used, bytesLeft]
  congr 1
  apply List.filter_congr
  intro k hk
  rw [Bool.eq_iff_iff]
  simp only [decide_eq_true_eq, hret.retire, Bool.not_eq_true', not_exists, not_and, Bool.not_eq_true]
  constructor
  · exact fun h => h k hk rfl
  · intro h k' _ hname
    simpa [inFamily, hname] using h

/-- **Retention by role.** With a live manifest, a plan lists no key of a
protected family and every key of a family that plays no role; the keys of the
rollback it lists exactly when it drops the rollback or the rollback would be a
fourth family. Without one it lists nothing. It lists only listed generation
keys, and when its guard says yes, what is left and the new family fit. -/
theorem planRetention_by_role (keys : List ListedKey) (opts : RetentionOpts) :
    (∀ name ∈ (planRetention keys opts).retire, name ∈ keys.map ListedKey.name ∧
      ∃ g, generationOfKey name = some g ∧ ¬opts.Protects g) ∧
    (opts.LiveKnown → ∀ name ∈ keys.map ListedKey.name, ∀ g, generationOfKey name = some g →
      ¬opts.Protects g →
        (opts.namedRollback keys ≠ some g → name ∈ (planRetention keys opts).retire) ∧
        (opts.namedRollback keys = some g →
          (name ∈ (planRetention keys opts).retire ↔
            (planRetention keys opts).decision = .dropRollback ∨ opts.Crowded))) ∧
    (¬opts.LiveKnown → (planRetention keys opts).retire = []) ∧
    (∀ incoming, opts.incomingBytes = some incoming →
      ((planRetention keys opts).decision = .go ∨
        (planRetention keys opts).decision = .dropRollback) →
      bytesLeft keys opts + incoming ≤ opts.limit.getD KV_GUARD_BYTES) := by
  refine ⟨?_, ?_, retire_eq_nil, ?_⟩
  · intro name hname
    have hlive : opts.LiveKnown := by
      by_contra hnone
      rw [retire_eq_nil hnone] at hname
      cases hname
    obtain ⟨k, hk, rfl, hin⟩ := (planRetention_retires keys opts).retire _ |>.mp hname
    obtain ⟨g, hgen, hgo⟩ := inFamily_iff.mp hin
    have hg := generationOfKey_ne_empty hgen
    refine ⟨List.mem_map_of_mem hk, g, hgen, ?_⟩
    rcases Bool.or_eq_true_iff.mp hgo with hsw | hdrop
    · exact ((sweeps_iff keys hlive hg).mp hsw).1
    · simp only [Bool.and_eq_true, decide_eq_true_eq] at hdrop
      exact ((roles_rollback keys hlive hg).mp hdrop.2).2.1
  · intro hlive name hname g hgen hfree
    have hg := generationOfKey_ne_empty hgen
    have hsw := sweeps_iff keys hlive hg
    have hroll := roles_rollback keys hlive hg
    rw [mem_retire_iff hgen]
    simp only [hname, true_and, RetentionOpts.goes, Bool.or_eq_true, Bool.and_eq_true,
      decide_eq_true_eq]
    constructor
    · exact fun hother => .inl (hsw.mpr ⟨hfree, fun h => hother (hroll.mp h).1⟩)
    · intro hnamed
      by_cases hcrowd : opts.Crowded
      · have hnot : ¬some g = (opts.roles keys).rollback := fun h => (hroll.mp h).2.2 hcrowd
        simp [hsw.mpr ⟨hfree, hnot⟩, hcrowd]
      · have hrole : some g = (opts.roles keys).rollback := hroll.mpr ⟨hnamed, hfree, hcrowd⟩
        have hnsw : sweeps (opts.roles keys) g = false := not_sweeps_rollback hg hrole
        simp [hnsw, hrole, hcrowd]
  · intro incoming hin hyes
    rw [bytesLeft_eq]
    exact planRetention_fits hin hyes

/-- Two formats live and an upload in flight: the sweep takes the rollback, and
no guard was asked. -/
theorem rollback_swept_without_drop :
    ¬∀ (keys : List ListedKey) (opts : RetentionOpts), ∀ name ∈ (planRetention keys opts).retire,
      ∀ g, generationOfKey name = some g → opts.namedRollback keys = some g →
        (planRetention keys opts).decision = .dropRollback := by
  intro h
  have := h [{ name := "store:card-store-v1-2.store:0" }]
    { live := some { built_at := "4", previous_built_at := some "2" }
      otherLive := [{ built_at := "3" }]
      inFlight := some "5" } "store:card-store-v1-2.store:0" (by decide) "2" (by decide) (by decide)
  exact absurd this (by decide)

end KvRetention
