import ScriptMemory.Listing.Rule
import ScriptMemory.Proofs.Listing.Lexeme

/-! Listing texts read back: the text of a statement, put into a node, is read as that statement.
A lemma for each form of path, expression and statement says what the reader makes of its text
with more text after it; the forms that are tried before it fail on the first characters that set
them apart. -/
namespace ScriptMemory
open Listing (IsIdent)

/-- A listing writes floats with a point, and quoted text with the escapes that reading undoes. -/
def Scalar.IsListable : Scalar → Prop
  | float x => x.IsPositional
  | string s => ∀ c ∈ s.toList, Text.IsFaithful c
  | integer _ | boolean _ | null => True

def Key.IsListable : Key → Prop
  | integer _ => True
  | string s => ∀ c ∈ s.toList, Text.IsFaithful c

def Segment.IsListable : Segment → Prop
  | key k => k.IsListable
  | field name => IsIdent name
  | unknownKey | unknownField => True

structure Path.IsListable (p : Path) : Prop where
  name : IsIdent p.name
  segments : ∀ s ∈ p.segments, s.IsListable

def Expression.IsListable : Expression → Prop
  | literal s => s.IsListable
  | interval first last => first ≤ last
  | read p => p.IsListable
  | newObject className => IsIdent className
  | classConstant target name => target.IsListable ∧ IsIdent name
  | any | anyOf _ | newArray => True

def Statement.IsListable : Statement → Prop
  | assign target value => target.IsListable ∧ value.IsListable
  | assignAlias target source => target.IsListable ∧ source.IsListable
  | unset p => p.IsListable
  | echo value | branch value => value.IsListable
  | call function args => IsIdent function ∧ ∀ e ∈ args, e.IsListable
  | callReturn result => ∀ p ∈ result, p.IsListable
  | returnValue value => ∀ e ∈ value, e.IsListable
  | nop | enter | exit => True

section Texts
variable (rest : List Char)

theorem Segment.key_text_append (k : Key) :
    (key k).text.toList ++ rest = '[' :: (k.text.toList ++ ']' :: rest) := by
  simp [text]

theorem Segment.field_text_append (name : String) :
    (field name).text.toList ++ rest = '-' :: '>' :: (name.toList ++ rest) := by
  simp [text]

end Texts

namespace Listing
variable {rest : List Char}

section Repetition
variable {α β : Type} {item : Reader α} {print : β → List Char} {value : β → α} {good : β → Prop}
  {follows : List Char → Prop} {bs : List β}

/-- `item` reads what `print` writes, if the text goes on in one of the ways it may; the next piece
is one of them. -/
structure Undoes (item : Reader α) (print : β → List Char) (value : β → α) (good : β → Prop)
    (follows : List Char → Prop) : Prop where
  read : ∀ b rest, good b → follows rest → item (blank (print b ++ rest)) = some (value b, rest)
  next : ∀ b rest, good b → follows (print b ++ rest)
  ne_nil : ∀ b, print b ≠ []

theorem Undoes.length_le (h : Undoes item print value good follows) (bs : List β) :
    bs.length ≤ (bs.flatMap print).length := by
  induction bs with
  | nil => exact Nat.le_refl 0
  | cons b bs ih =>
    have hpos := List.length_pos_iff.2 (h.ne_nil b)
    rw [List.flatMap_cons, List.length_append, List.length_cons]
    omega

theorem Undoes.follows_flatMap (h : Undoes item print value good follows)
    (hgood : ∀ b ∈ bs, good b) (hrest : follows rest) : follows (bs.flatMap print ++ rest) := by
  cases bs with
  | nil => exact hrest
  | cons b bs =>
    rw [List.flatMap_cons, List.append_assoc]
    exact h.next b _ (hgood b List.mem_cons_self)

theorem Undoes.following (h : Undoes item print value good follows) (hgood : ∀ b ∈ bs, good b)
    (hrest : follows rest) (hstop : item (blank rest) = none) {fuel : Nat}
    (hfuel : bs.length ≤ fuel) :
    following item fuel (bs.flatMap print ++ rest) = (bs.map value, rest) := by
  induction bs generalizing fuel with
  | nil =>
    cases fuel with
    | zero => rfl
    | succ fuel =>
      change Listing.following item (fuel + 1) rest = ([], rest)
      unfold Listing.following
      rw [hstop]
  | cons b bs ih =>
    cases fuel with
    | zero => exact absurd hfuel (Nat.not_succ_le_zero _)
    | succ fuel =>
      have hbs : ∀ b ∈ bs, good b := fun b hb => hgood b (List.mem_cons_of_mem _ hb)
      rw [List.flatMap_cons, List.append_assoc]
      unfold Listing.following
      rw [h.read b _ (hgood b List.mem_cons_self) (h.follows_flatMap hbs hrest)]
      dsimp only
      rw [ih hbs (Nat.le_of_succ_le_succ hfuel)]
      rfl

/-- All pieces are read; the blanks after them may be taken as well. -/
theorem Undoes.zeroOrMore (h : Undoes item print value good follows) (hgood : ∀ b ∈ bs, good b)
    (hrest : follows rest) (hstop : item (blank rest) = none) :
    ∃ left, zeroOrMore item (blank (bs.flatMap print ++ rest)) = (bs.map value, left) ∧
      (left = rest ∨ left = blank rest) := by
  cases bs with
  | nil =>
    refine ⟨blank rest, ?_, .inr rfl⟩
    change Listing.zeroOrMore item (blank rest) = ([], blank rest)
    unfold Listing.zeroOrMore
    rw [hstop]
  | cons b bs =>
    have hbs : ∀ b ∈ bs, good b := fun b hb => hgood b (List.mem_cons_of_mem _ hb)
    refine ⟨rest, ?_, .inl rfl⟩
    rw [List.flatMap_cons, List.append_assoc]
    unfold Listing.zeroOrMore
    rw [h.read b _ (hgood b List.mem_cons_self) (h.follows_flatMap hbs hrest)]
    dsimp only
    rw [h.following hbs hrest hstop]
    · rfl
    · rw [List.length_append]
      exact Nat.le_add_right_of_le (h.length_le bs)

end Repetition

theorem ends_integer (n : Int64) {chars : List Char}
    (hchars : chars.all (fun c => !(Numeral.isDigit c || c = '-')) = true) :
    Ends chars.contains ((toString n.toInt).toList ++ rest) := by
  rw [Numeral.toList_toString]
  exact ends_signed _ Nat.toDigits_ne_nil (fun c => Numeral.isDigit_of_mem_toDigits) hchars

theorem ends_key (k : Key) {chars : List Char}
    (hinteger : chars.all (fun c => !(Numeral.isDigit c || c = '-')) = true)
    (hquote : chars.contains '"' = false) : Ends chars.contains (k.text.toList ++ rest) := by
  cases k with
  | integer n => exact ends_integer n hinteger
  | string s =>
    unfold Key.text
    dsimp only
    rw [Text.quote_append]
    rintro c ⟨⟩
    exact hquote

theorem ends_segment (s : Segment) {p : Char → Bool} (hkey : p '[' = false)
    (hfield : p '-' = false) : Ends p (s.text.toList ++ rest) := by
  cases s with
  | key k =>
    rw [Segment.key_text_append]
    rintro c ⟨⟩
    exact hkey
  | unknownKey =>
    rintro c ⟨⟩
    exact hkey
  | field name =>
    rw [Segment.field_text_append]
    rintro c ⟨⟩
    exact hfield
  | unknownField =>
    rintro c ⟨⟩
    exact hfield

/-- The text goes on with one of the characters that end an expression. -/
inductive Closes : List Char → Prop where
  | semicolon (cs : List Char) : Closes (';' :: cs)
  | comma (cs : List Char) : Closes (',' :: cs)
  | parenthesis (cs : List Char) : Closes (')' :: cs)

theorem Closes.ends (h : Closes rest) {p : Char → Bool} (hsemicolon : p ';' = false)
    (hcomma : p ',' = false) (hparenthesis : p ')' = false) : Ends p rest := by
  cases h <;> rintro c ⟨⟩ <;> assumption

end Listing
end ScriptMemory
