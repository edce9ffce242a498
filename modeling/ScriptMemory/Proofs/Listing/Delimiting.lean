import ScriptMemory.Proofs.Listing.Literals

/-! Texts that are told apart with more text after them. Where a reader gives back what a text was
written for, that settles it. Quoted text is not read back with all of its escapes, but its written
form is never ambiguous: each character is raw, a backslash and a letter, or a number in braces. -/
namespace ScriptMemory

namespace Listing
variable {α β : Type} {text : α → List Char} {good : α → Prop} {follows stops : List Char → Prop}
  {p q : Char → Bool} {rest : List Char}

/-- Two texts that go on as they may, and are equal then, were written for the same and go on in the
same way. -/
def Delimits (text : α → List Char) (good : α → Prop) (follows : List Char → Prop) : Prop :=
  ∀ ⦃a b rest rest'⦄, good a → good b → follows rest → follows rest' →
    text a ++ rest = text b ++ rest' → a = b ∧ rest = rest'

theorem Ends.of_imp (h : Ends q rest) (hpq : ∀ c, p c = true → q c = true) : Ends p rest := by
  intro c hc
  refine Bool.eq_false_iff.2 fun hp => ?_
  exact Bool.false_ne_true ((h c hc).symm.trans (hpq c hp))

theorem ends_cons {c : Char} (h : p c = false) : Ends p (c :: rest) := by
  rintro d ⟨⟩
  exact h

theorem Ends.ne_cons {c : Char} (h : Ends p rest) (hc : p c = true) (cs : List Char) :
    rest ≠ c :: cs := by
  rintro rfl
  exact Bool.false_ne_true ((h c rfl).symm.trans hc)

/-- What a reader gives back decides. -/
theorem delimits_of_reader (item : Reader β) (value : α → β) (hvalue : Function.Injective value)
    (hread : ∀ a rest, good a → follows rest → item (text a ++ rest) = some (value a, rest)) :
    Delimits text good follows := by
  intro a b rest rest' ha hb hrest hrest' heq
  have hboth : some (value a, rest) = some (value b, rest') :=
    (hread a rest ha hrest).symm.trans (heq ▸ hread b rest' hb hrest')
  obtain ⟨hab, hsame⟩ := Prod.mk.inj (Option.some.inj hboth)
  exact ⟨hvalue hab, hsame⟩

/-- Texts in a row are told apart one after the other, if the end of the row cannot be taken for
another one of them. -/
theorem Delimits.flatMap (h : Delimits text good follows)
    (hnext : ∀ a rest, good a → follows (text a ++ rest))
    (hstops : ∀ rest, stops rest → follows rest)
    (hne : ∀ a rest, good a → ¬stops (text a ++ rest)) :
    Delimits (List.flatMap text) (∀ a ∈ ·, good a) stops := by
  have hfollows (as : List α) (rest : List Char) (has : ∀ a ∈ as, good a) (hrest : stops rest) :
      follows (as.flatMap text ++ rest) := by
    cases as with
    | nil => exact hstops rest hrest
    | cons a as =>
      rw [List.flatMap_cons, List.append_assoc]
      exact hnext a _ (has a List.mem_cons_self)
  intro as bs rest rest' has hbs hrest hrest' heq
  induction as generalizing bs with
  | nil =>
    cases bs with
    | nil => exact ⟨rfl, heq⟩
    | cons b bs =>
      rw [List.flatMap_nil, List.nil_append, List.flatMap_cons, List.append_assoc] at heq
      exact absurd (heq ▸ hrest) (hne b _ (hbs b List.mem_cons_self))
  | cons a as ih =>
    rw [List.flatMap_cons, List.append_assoc] at heq
    cases bs with
    | nil =>
      rw [List.flatMap_nil, List.nil_append] at heq
      exact absurd (heq.symm ▸ hrest') (hne a _ (has a List.mem_cons_self))
    | cons b bs =>
      rw [List.flatMap_cons, List.append_assoc] at heq
      have has' : ∀ c ∈ as, good c := fun c hc => has c (List.mem_cons_of_mem a hc)
      have hbs' : ∀ c ∈ bs, good c := fun c hc => hbs c (List.mem_cons_of_mem b hc)
      obtain ⟨rfl, hrow⟩ := h (has a List.mem_cons_self) (hbs b List.mem_cons_self)
        (hfollows as rest has' hrest) (hfollows bs rest' hbs' hrest') heq
      obtain ⟨rfl, hend⟩ := ih has' hbs' hrow
      exact ⟨rfl, hend⟩

end Listing

namespace Text
open Listing (Delimits)

theorem digitChar_inj : ∀ m < 16, ∀ n < 16, Nat.digitChar m = Nat.digitChar n → m = n := by
  decide

/-- The last digit is the remainder, and the digits before it are those of the quotient. -/
theorem toDigits_inj {m n : Nat} (h : Nat.toDigits 16 m = Nat.toDigits 16 n) : m = n := by
  induction m using Nat.strongRecOn generalizing n with
  | ind m ih =>
    rw [Nat.toDigits_eq_if (by decide), Nat.toDigits_eq_if (n := n) (by decide)] at h
    by_cases hm : m < 16 <;> by_cases hn : n < 16
    · rw [if_pos hm, if_pos hn] at h
      exact digitChar_inj m hm n hn (List.singleton_inj.1 h)
    · rw [if_pos hm, if_neg hn] at h
      exact absurd (List.append_eq_singleton_iff.1 h.symm) (by simp)
    · rw [if_neg hm, if_pos hn] at h
      exact absurd (List.append_eq_singleton_iff.1 h) (by simp)
    · rw [if_neg hm, if_neg hn] at h
      obtain ⟨hquotient, hdigit⟩ := List.append_inj' h rfl
      have hdiv := ih (m / 16) (by omega) hquotient
      have hmod := digitChar_inj (m % 16) (by omega) (n % 16) (by omega)
        (List.singleton_inj.1 hdigit)
      omega

/-- The character that a backslash and a letter are written for. -/
def named (c : Char) : Char :=
  if c = '0' then '\x00' else if c = 'r' then '\r' else unescape c

/-- A character is written raw, by a letter or by its number. -/
theorem escape_cases (c : Char) : escape c = [c] ∧ c ≠ '\\' ∧ c ≠ '"' ∨
    (∃ d, escape c = ['\\', d] ∧ d ≠ 'u' ∧ named d = c) ∨
    escape c = '\\' :: 'u' :: '\x7b' :: (Nat.toDigits 16 c.toNat ++ ['\x7d']) := by
  unfold escape
  split
  · exact .inr (.inl ⟨'0', rfl, by decide, by decide⟩)
  · exact .inr (.inl ⟨'t', rfl, by decide, by decide⟩)
  · exact .inr (.inl ⟨'n', rfl, by decide, by decide⟩)
  · exact .inr (.inl ⟨'r', rfl, by decide, by decide⟩)
  · exact .inr (.inl ⟨'"', rfl, by decide, by decide⟩)
  · exact .inr (.inl ⟨'\\', rfl, by decide, by decide⟩)
  · next hquote hbackslash =>
    split
    · exact .inr (.inr rfl)
    · exact .inl ⟨rfl, hbackslash, hquote⟩

/-- The number of a character ends at the brace. -/
theorem number_append_inj {m n : Nat} {rest rest' : List Char}
    (h : Nat.toDigits 16 m ++ '\x7d' :: rest = Nat.toDigits 16 n ++ '\x7d' :: rest') :
    m = n ∧ rest = rest' := by
  have hdigits (n : Nat) : ∀ c ∈ Nat.toDigits 16 n, (c != '\x7d') = true := by
    intro c hc
    obtain ⟨d, rfl⟩ := exists_digitChar_of_mem_toDigits hc
    exact bne_iff_ne.2 (Nat.digitChar_ne _ (by decide))
  have hends (rest : List Char) : Listing.Ends (· != '\x7d') ('\x7d' :: rest) :=
    Listing.ends_cons (by decide)
  have htake := congrArg (List.takeWhile (· != '\x7d')) h
  rw [Listing.takeWhile_append (hdigits m) (hends rest),
    Listing.takeWhile_append (hdigits n) (hends rest')] at htake
  rw [htake] at h
  exact ⟨toDigits_inj htake, (List.cons.inj (List.append_cancel_left h)).2⟩

theorem delimits_escape : Delimits escape (fun _ => True) (fun _ => True) := by
  intro c d rest rest' _ _ _ _ heq
  rcases escape_cases c with ⟨hc, hraw, -⟩ | ⟨e, hc, hu, rfl⟩ | hc <;>
    rcases escape_cases d with ⟨hd, hraw', -⟩ | ⟨e', hd, hu', rfl⟩ | hd <;>
    rw [hc, hd] at heq <;> simp only [List.cons_append, List.nil_append, List.cons.injEq] at heq
  · exact heq
  · exact absurd heq.1 hraw
  · exact absurd heq.1 hraw
  · exact absurd heq.1.symm hraw'
  · obtain ⟨-, rfl, hrest⟩ := heq
    exact ⟨rfl, hrest⟩
  · exact absurd heq.2.1 hu
  · exact absurd heq.1.symm hraw'
  · exact absurd heq.2.1.symm hu'
  · obtain ⟨-, -, -, hnumber⟩ := heq
    rw [List.append_assoc, List.append_assoc] at hnumber
    obtain ⟨hcode, hrest⟩ := number_append_inj hnumber
    exact ⟨Char.toNat_inj.1 hcode, hrest⟩

/-- A quote is never written raw, so the first one ends the text. -/
theorem delimits_quote : Delimits (fun s => (quote s).toList) (fun _ => True) (fun _ => True) := by
  have hquote (c : Char) (rest : List Char) : (escape c ++ rest).head? ≠ some '"' := by
    rcases escape_cases c with ⟨hc, -, hne⟩ | ⟨d, hc, -, -⟩ | hc <;> rw [hc] <;> simp
    exact hne
  have hbody : Delimits (List.flatMap escape) (∀ c ∈ ·, True) (·.head? = some '"') :=
    delimits_escape.flatMap (fun _ _ _ => trivial) (fun _ _ => trivial)
      (fun c rest _ => hquote c rest)
  intro s t rest rest' _ _ _ _ heq
  rw [quote_append, quote_append] at heq
  obtain ⟨hst, hrest⟩ := hbody (fun _ _ => trivial) (fun _ _ => trivial) rfl rfl
    (List.cons.inj heq).2
  exact ⟨String.toList_inj.1 hst, (List.cons.inj hrest).2⟩

end Text

namespace Listing

theorem delimits_ident : Delimits String.toList IsIdent (Ends isNameChar) :=
  delimits_of_reader ident id Function.injective_id
    fun _ _ => ident_append

theorem delimits_digits : Delimits (Nat.toDigits 10) (fun _ => True) (Ends Numeral.isDigit) := by
  refine delimits_of_reader digits (Nat.toDigits 10) ?_ ?_
  · intro m n h
    rw [← Numeral.natural_toDigits m, h, Numeral.natural_toDigits]
  · exact fun n _ _ => digits_append Nat.toDigits_ne_nil fun c => Numeral.isDigit_of_mem_toDigits

theorem delimits_integer :
    Delimits (fun n : Int64 => (toString n.toInt).toList) (fun _ => True) (Ends Numeral.isDigit) :=
  delimits_of_reader integer Except.ok (fun _ _ => Except.ok.inj)
    fun n _ _ => integer_append n

/-- A number begins with a digit or a minus sign, quoted text with a quote. -/
theorem delimits_key :
    Delimits (fun k : Key => k.text.toList) (fun _ => True) (·.head? = some ']') := by
  have hdigit {rest : List Char} (h : rest.head? = some ']') : Ends Numeral.isDigit rest := by
    intro c hc
    obtain rfl := Option.some.inj (h.symm.trans hc)
    rfl
  have hne (n : Int64) (s : String) (rest rest' : List Char) :
      (toString n.toInt).toList ++ rest ≠ (Text.quote s).toList ++ rest' := by
    have hends : Ends ['"'].contains ((toString n.toInt).toList ++ rest) :=
      ends_integer n (by decide)
    rw [Text.quote_append]
    exact hends.ne_cons rfl _
  intro k l rest rest' _ _ hrest hrest' heq
  cases k with
  | integer m =>
    cases l with
    | integer n =>
      obtain ⟨rfl, hsame⟩ := delimits_integer trivial trivial (hdigit hrest) (hdigit hrest') heq
      exact ⟨rfl, hsame⟩
    | string t => exact absurd heq (hne m t rest rest')
  | string s =>
    cases l with
    | integer n => exact absurd heq.symm (hne n s rest' rest)
    | string t =>
      obtain ⟨rfl, hsame⟩ := Text.delimits_quote trivial trivial trivial trivial heq
      exact ⟨rfl, hsame⟩

end Listing
end ScriptMemory
