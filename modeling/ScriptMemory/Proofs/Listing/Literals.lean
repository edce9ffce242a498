import ScriptMemory.Proofs.Listing.Phrase
import ScriptMemory.Proofs.Number.Positional

/-! Which literals and keys a listing gives back. Their texts are read on their own: a number has to
be written with its point in its place, and quoted text must not contain a character that is written
with an escape which reading does not know. Such a text is accepted all the same, as another one. -/
namespace ScriptMemory

namespace Text
variable {c : Char} {cs ds : List Char}

/-- The character is visible, or has an escape that reading undoes. -/
def Kept (c : Char) : Prop :=
  c = '\n' ∨ c = '\t' ∨ isInvisible c = false

instance (c : Char) : Decidable (Kept c) :=
  inferInstanceAs (Decidable (_ ∨ _))

theorem exists_digitChar_of_mem_toDigits {n : Nat} (h : c ∈ Nat.toDigits 16 n) :
    ∃ d : Nat, c = d.digitChar := by
  induction n using Nat.strongRecOn with
  | ind n ih =>
    rw [Nat.toDigits_eq_if (by decide)] at h
    split at h
    · exact ⟨n, List.mem_singleton.1 h⟩
    · next hlarge =>
      rcases List.mem_append.1 h with h | h
      · exact ih (n / 16) (by omega) h
      · exact ⟨n % 16, List.mem_singleton.1 h⟩

end Text

namespace Listing
open Numeral (sign)

theorem ends_nil (p : Char → Bool) : Ends p [] :=
  fun _ hc => nomatch hc

end Listing
end ScriptMemory
