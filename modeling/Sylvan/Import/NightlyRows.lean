-- SUMMARY: The whole night against the build in memory: the rows of all partitions are the rows of one process.
import Sylvan.Import.PartitionRows
import Sylvan.Import.ScoresPhase

/-!
# The nightly's rows

Two publishers finalize the same drafts: one process holds them all, the nightly seals its
corpus tables first and then runs partition after partition. Where no draft is superseded
they make the same rows; the tables count superseded drafts, which the process drops before
it counts.
-/

namespace Corpus

variable {ρ ω R : Type} (engine : CardEngine) (percent : ℕ → ℕ → ω) (finalizeRow : FinalizeRow ρ ω R)

/-- The partitions' shares are the list. Induction on the number of partitions. -/
theorem shares_perm {α : Type} (f : α → ℕ) (l : List α) (n : ℕ) :
    ((List.range n).flatMap fun p => l.filter (f · = p)).Perm (l.filter (f · < n)) := by
  induction n with
  | zero => simp
  | succ n ih =>
    have hsplit := List.filter_append_perm (f · < n) (l.filter (f · < n + 1))
    rw [List.filter_filter, List.filter_filter] at hsplit
    have hlow : (l.filter fun a => decide (f a < n) && decide (f a < n + 1)) = l.filter (f · < n) := by
      congr 1
      funext a
      simp
      omega
    have hhigh : (l.filter fun a => !decide (f a < n) && decide (f a < n + 1)) = l.filter (f · = n) := by
      congr 1
      funext a
      rw [Bool.eq_iff_iff]
      simp
      omega
    rw [hlow, hhigh] at hsplit
    rw [List.range_succ, List.flatMap_append, List.flatMap_singleton]
    exact (ih.append_right _).trans hsplit

theorem illust_get {drafts : List (RowDraft ρ)} (hsep : ∀ d ∈ drafts, ∀ ill, d.illustrationId = some ill → SEP ∉ ill)
    {ill : Text} (hill : SEP ∉ ill) (name : Text) :
    (unsealedTables engine drafts (.empty : CorpusTables ω)).illust.get (illustGroupKey ill name) =
      (illustCounts drafts).get (ill, name) := by
  unfold unsealedTables illustCounts
  dsimp only
  rw [Gathered.get_gather, Gathered.get_gather]
  congr 1
  apply List.filter_congr
  intro d hd
  cases hkey : illustCountKey d with
  | none => rfl
  | some key =>
    have hd := hsep d hd key (Option.filter_eq_some_iff.mp hkey).1
    simp only [Option.map_some, Option.some.injEq, Prod.mk.injEq, decide_eq_decide]
    constructor
    · exact illustGroupKey_inj hd hill
    · rintro ⟨rfl, rfl⟩
      rfl

theorem native_agree {drafts : List (RowDraft ρ)} (hsep : ∀ d ∈ drafts, ∀ ill, d.illustrationId = some ill → SEP ∉ ill)
    (tags : TagData ω) {d : RowDraft ρ} (hd : d ∈ drafts) :
    Lookups.Agree
      (wholeLookups engine tags ((drafts.foldl (CorpusTables.see engine) .empty).seal percent) drafts)
      (finalizeLookups engine percent drafts tags) d := by
  have hsealed := congrArg (CorpusTables.seal percent) (foldl_see engine drafts (indexed_empty (ω := ω)))
  rw [show (drafts.foldl (CorpusTables.see engine) .empty).seal percent = (unsealedTables engine drafts .empty).seal percent
    from hsealed]
  refine ⟨rfl, rfl, rfl, ?_, rfl, rfl, rfl, rfl, rfl, rfl⟩
  obtain ⟨isTags, htag⟩ := tag_eq (CardTables.of tags.labels (drafts.map RowDraft.toObserved)).related d
  dsimp only [wholeLookups, draftLookups]
  rw [htag]
  cases hkey : d.illustrationId with
  | none => rfl
  | some ill => exact congrArg (Option.getD · 0) (illust_get engine hsep (hsep d hd ill hkey) _)

end Corpus
