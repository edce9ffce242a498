import Mathlib.Data.List.TakeWhile
import ScriptMemory.Listing.Lexeme
import ScriptMemory.Proofs.Number.Shortest

/-! Small pieces of a listing read back as what they were written for. Each lemma lets the text go
on: what follows a piece must not begin with a character that the piece could take as well. -/
namespace ScriptMemory

namespace Text

/-- The character is written as it is, or with one of the escapes that reading undoes. -/
def IsFaithful (c : Char) : Prop :=
  escape c = [c] ∨ c = '"' ∨ c = '\\' ∨ c = '\n' ∨ c = '\t'

instance (c : Char) : Decidable (IsFaithful c) :=
  inferInstanceAs (Decidable (_ ∨ _))

theorem quote_append (s : String) (rest : List Char) :
    (quote s).toList ++ rest = '"' :: (s.toList.flatMap escape ++ '"' :: rest) := by
  unfold quote encode
  rw [String.toList_ofList]
  simp

end Text

namespace Listing
open Numeral (sign)
variable {ds rest : List Char} {p : Char → Bool}

/-- The text does not begin with such a character. -/
def Ends (p : Char → Bool) (rest : List Char) : Prop :=
  ∀ c ∈ rest.head?, p c = false

theorem takeWhile_append (hds : ∀ c ∈ ds, p c = true) (hrest : Ends p rest) :
    (ds ++ rest).takeWhile p = ds := by
  rw [List.takeWhile_append_of_pos hds]
  cases rest with
  | nil => rw [List.takeWhile_nil, List.append_nil]
  | cons c cs => rw [List.takeWhile_cons_of_neg (by rw [hrest c rfl]; decide), List.append_nil]

theorem dropWhile_append (hds : ∀ c ∈ ds, p c = true) (hrest : Ends p rest) :
    (ds ++ rest).dropWhile p = rest := by
  rw [List.dropWhile_append_of_pos hds]
  cases rest with
  | nil => rfl
  | cons c cs => rw [List.dropWhile_cons_of_neg (by rw [hrest c rfl]; decide)]

theorem contains_eq_false {chars : List Char} (h : chars.all (!p ·) = true) {c : Char}
    (hc : p c = true) : chars.contains c = false := by
  rw [← Bool.not_eq_true, List.contains_iff_mem]
  intro hmem
  have hnot := List.all_eq_true.1 h c hmem
  rw [hc] at hnot
  cases hnot

theorem Ends.mono {chars chars' : List Char} (h : Ends chars'.contains rest)
    (hsub : chars ⊆ chars') : Ends chars.contains rest := by
  intro c hc
  rw [← Bool.not_eq_true, List.contains_iff_mem]
  intro hmem
  exact Bool.false_ne_true ((h c hc).symm.trans (List.contains_iff_mem.2 (hsub hmem)))

theorem digits_append (hne : ds ≠ []) (hds : ∀ c ∈ ds, Numeral.isDigit c = true)
    (hrest : Ends Numeral.isDigit rest) : digits (ds ++ rest) = some (ds, rest) := by
  unfold digits
  dsimp only
  rw [takeWhile_append hds hrest, dropWhile_append hds hrest, if_neg (by simpa using hne)]

theorem signedDigits_append (negative : Bool) (hne : ds ≠ [])
    (hds : ∀ c ∈ ds, Numeral.isDigit c = true) (hrest : Ends Numeral.isDigit rest) :
    signedDigits (sign negative ++ ds ++ rest) = some (sign negative ++ ds, rest) := by
  have hdigits := digits_append hne hds hrest
  cases negative with
  | true =>
    change (digits (ds ++ rest)).map _ = _
    rw [hdigits]
    rfl
  | false =>
    change signedDigits (ds ++ rest) = some (ds, rest)
    unfold signedDigits
    split
    · next heq =>
      cases ds with
      | nil => exact absurd rfl hne
      | cons c cs =>
        cases heq
        exact absurd (hds '-' List.mem_cons_self) (by decide)
    · exact hdigits

/-- A number begins with a digit or a minus sign. -/
theorem ends_signed (negative : Bool) (hne : ds ≠ [])
    (hds : ∀ c ∈ ds, Numeral.isDigit c = true) {chars : List Char}
    (hchars : chars.all (fun c => !(Numeral.isDigit c || c = '-')) = true) :
    Ends chars.contains (sign negative ++ ds ++ rest) := by
  have hdisjoint := fun c => contains_eq_false (p := fun c => Numeral.isDigit c || c = '-') hchars
    (c := c)
  cases negative with
  | true =>
    rintro c ⟨⟩
    exact hdisjoint '-' rfl
  | false =>
    cases ds with
    | nil => exact absurd rfl hne
    | cons d ds =>
      rintro c ⟨⟩
      exact hdisjoint d (by rw [hds d List.mem_cons_self, Bool.true_or])

theorem integer_append (n : Int64) (hrest : Ends Numeral.isDigit rest) :
    integer ((toString n.toInt).toList ++ rest) = some (.ok n, rest) := by
  have hread := signedDigits_append (n.toInt < 0) Nat.toDigits_ne_nil
    (fun c => Numeral.isDigit_of_mem_toDigits (n := n.toInt.natAbs)) hrest
  rw [← Numeral.toList_toString] at hread
  unfold integer
  rw [hread, Option.map_some]
  dsimp only
  rw [Numeral.integer?_toString]

/-- The grammar reads the whole text as a name. -/
def IsIdent (name : String) : Prop :=
  ident name.toList = some (name, [])

instance (name : String) : Decidable (IsIdent name) :=
  inferInstanceAs (Decidable (_ = _))

variable {name : String}

theorem IsIdent.exists_cons (h : IsIdent name) : ∃ c cs, name.toList = c :: cs ∧
    (isLetter c || c = '_') = true ∧ ∀ d ∈ c :: cs, isNameChar d = true := by
  unfold IsIdent ident at h
  split at h
  · next c cs heq =>
    split at h
    · next hc =>
      rw [heq] at h ⊢
      rw [Option.some.injEq, Prod.mk.injEq, List.dropWhile_eq_nil_iff] at h
      exact ⟨c, cs, rfl, hc, h.2⟩
    · cases h
  · cases h

theorem ident_append (h : IsIdent name) (hrest : Ends isNameChar rest) :
    ident (name.toList ++ rest) = some (name, rest) := by
  obtain ⟨c, cs, heq, hc, hall⟩ := h.exists_cons
  rw [← heq] at hall
  have htake := takeWhile_append hall hrest
  have hdrop := dropWhile_append hall hrest
  rw [heq] at htake hdrop ⊢
  unfold ident
  change (if (isLetter c || c = '_') = true then _ else _) = _
  rw [if_pos hc]
  rw [htake, hdrop, ← heq, String.ofList_toList]

theorem ends_ident (h : IsIdent name) {chars : List Char}
    (hchars : chars.all (!isNameChar ·) = true) : Ends chars.contains (name.toList ++ rest) := by
  obtain ⟨c, cs, heq, -, hall⟩ := h.exists_cons
  rw [heq]
  rintro d ⟨⟩
  exact contains_eq_false hchars (hall c List.mem_cons_self)

end Listing
end ScriptMemory
