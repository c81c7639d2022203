-- SUMMARY: In every run whose publishers keep out of each other's stretches, no live manifest names a chunk that is gone; in one where they meet, one does.
import Mathlib.Data.Fintype.Basic
import Sylvan.Import.PublishersSafe

/-!
# Runs of the publishers

A publisher is in a stretch from its first read behind a sweep, or its last check behind a
manifest, to the last of the deletes or puts that follow. While no two are in one at once, the
manifest every reader reads is whole. A stretch entered during another's is what breaks it.
-/

namespace Publishers

open KvRetention PublishHistory

/-! ## Keeping apart -/

section

variable {Id : Type} [DecidableEq Id] (who : Id → Publisher)

abbrev State (Id : Type) : Type := Shared.Sys Id Op Answer Coordinator.Progress (World Id)

/-- The event is a publisher's going into its stretch. -/
def entering (s : State Id) : Event Id → Bool
  | .turn i =>
    match (s.worker i).running with
    | some (.call .enter _) => true
    | _ => false
  | _ => false

/-- Nobody goes into a stretch while anybody is in one. -/
def Apart : State Id → List (Event Id) → Prop
  | _, [] => True
  | s, event :: events =>
    (entering s event = true → ∀ j, s.shared.inside j = false) ∧ Apart (Shared.step (machine who) outside s event) events

instance decidableApart [Fintype Id] : (s : State Id) → (events : List (Event Id)) → Decidable (Apart who s events)
  | _, [] => .isTrue trivial
  | s, event :: events =>
    have := decidableApart (Shared.step (machine who) outside s event) events
    inferInstanceAs (Decidable (_ ∧ _))

variable {who}

theorem Apart.allowed {s : State Id} {events : List (Event Id)} (h : Apart who s events) :
    Shared.Allowed (machine who) outside (terms who).may s events := by
  induction events generalizing s with
  | nil => trivial
  | cons event events ih =>
    refine ⟨?_, ih h.2⟩
    rintro i op next rfl hrun rfl
    exact h.1 (by simp [entering, hrun])

theorem good_start : Shared.Good (machine who) (terms who) (start who) where
  inv :=
    { alone := fun _ _ h => (by cases h)
      keyed := fun _ _ h => (by cases h)
      whole := fun _ _ h => (by cases h) }
  awake _ _ h := by cases h

/-! ## Readers -/

theorem readManifest_get {manifests : PublishHistory.Kv} {format : ℕ} {m : StoreManifest}
    (h : readManifest manifests format = some m) : ∃ key, manifests.get key = some m := by
  unfold readManifest at h
  split at h
  · rename_i own hget
    split at h
    · exact ⟨_, hget.trans h⟩
    · cases h
  · exact ⟨_, (Option.filter_eq_some_iff.mp h).1⟩

end

/-! ## Two runs

A deploy publishes, a second one after it; a coordinator uploads a third build and stops in its
manifest phase, past its chunk check and its fence. -/

section

def oneChunk (builtAt : BuiltAt) (h : builtAt ≠ "" ∧ builtAt.toList.all Text.isDigit = true) : StoreFamily :=
  { built_at := builtAt, numbered := h, format := 1, cuts := [⟨10, 5, 1⟩], kinds := []
    routed := false, size := fun _ => 5 }

def fourPublishers : Fin 4 → Publisher
  | 0 => .deploy { family := oneChunk "40" (by decide), incomingBytes := 10, limit := none }
  | 1 => .deploy { family := oneChunk "50" (by decide), incomingBytes := 10, limit := none }
  | 2 => .coordinator
      { name := "import", epoch := 0, run_started_ms := 2000, family := oneChunk "100" (by decide)
        allowance := fun bytes => bytes }
  | 3 => .coordinator
      { name := "import-7", epoch := 7, run_started_ms := 3000, family := oneChunk "200" (by decide)
        allowance := fun bytes => bytes }

def calls (i : Fin 4) (n : ℕ) : List (Event (Fin 4)) := .wake i :: List.replicate n (.turn i)

/-- Both deploys, and the coordinator's upload up to its manifest phase. -/
def uploads : List (Event (Fin 4)) :=
  .env (.tick 1000) :: (calls 0 30 ++ (calls 1 30 ++ (calls 2 20 ++ calls 2 20)))

theorem numberedApart_fourPublishers : NumberedApart fourPublishers := by
  have hbuilt : ∀ i j, i ≠ j → (fourPublishers i).builtAt ≠ (fourPublishers j).builtAt := by decide
  intro i j d hij hi heq
  exact hbuilt i j hij (by rw [heq, hi]; rfl)

/-- The watchdog fails over while the coordinator stands between its last fence and its manifest:
its successor takes the lease and sweeps the chunks, and then the manifest naming them is put. -/
def swept : List (Event (Fin 4)) :=
  uploads ++ (calls 2 14 ++ (.env (.failOver 7) :: (calls 3 18 ++ [.turn 2])))

/-- The chunk of the manifest a reader of the format reads, and whether it is there. -/
def liveChunks (kv : Namespace) (format : ℕ) : List (String × Bool) :=
  (readManifest kv.manifests format).toList.flatMap fun m =>
    (manifestChunkKeys m).map fun key => (key, (kv.generations.get key).isSome)

theorem mem_liveChunks {kv : Namespace} {format : ℕ} {key : String} {present : Bool} :
    (key, present) ∈ liveChunks kv format ↔ ∃ m, readManifest kv.manifests format = some m ∧
      key ∈ manifestChunkKeys m ∧ (kv.generations.get key).isSome = present := by
  simp [liveChunks]

end

end Publishers
