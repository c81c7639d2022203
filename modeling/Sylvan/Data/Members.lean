-- SUMMARY: What holds of every member of a list is decided along the list, and a text's membership by its equality.
import Mathlib.Data.List.Basic

/-!
# Members

A statement about the characters of a text is decided on those characters. Characters are
finitely many, so it could be decided on all of them as well, which never ends.
-/

instance (priority := 1100) decidableOfMembers {α : Type} (p : α → Prop) [DecidablePred p] (l : List α) : Decidable (∀ a ∈ l, p a) :=
  List.decidableBAll p l

instance lawfulText : LawfulBEq (List Char) := inferInstance
