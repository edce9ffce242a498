import ScriptMemory.Analysis
import ScriptMemory.Proofs.Listing.Delimiting
import ScriptMemory.Proofs.Memory.Agreement
import ScriptMemory.Proofs.Operations

/-! Locations are told apart by their texts. A root and the segments below it follow one another in
a text without marks of where each ends, and the identity of an object stands in parentheses as it
is, which may be the text of another location. Still no text can be taken apart in two ways, as long
as names are identifiers and identities are those that objects get. -/
namespace ScriptMemory
open Listing (IsIdent Ends Delimits isNameChar)

/-- The text of an allocation site: a name and digits, with a colon between them. -/
def IsSite (id : ObjectId) : Prop :=
  ∃ name ds, IsIdent name ∧ (ds ≠ [] ∧ ∀ c ∈ ds, Numeral.isDigit c = true) ∧
    id.toList = name.toList ++ ':' :: ds

def Segment.IsNamed : Segment → Prop
  | field name => IsIdent name
  | key _ | unknownKey | unknownField => True

/-- Variables and fields are identifiers, the slots are the reserved ones, and an object is
identified by its allocation site or by the location that it was made at. -/
inductive Index.IsNamed : Index → Prop
  | var {name : String} (h : IsIdent name) (table : Table) : IsNamed (.root (.var name table))
  | control {slot : String} (h : .root (.control slot) ∈ [diagnostics, freshArray]) :
    IsNamed (.root (.control slot))
  | returnSlot (level : Nat) : IsNamed (.root (.returnSlot level))
  | site {id : ObjectId} (h : IsSite id) : IsNamed (.root (.object id))
  | made {i : Index} (h : IsNamed i) : IsNamed (.root (.object i.text))
  | member {i : Index} {s : Segment} (hi : IsNamed i) (hs : s.IsNamed) : IsNamed (i.member s)

namespace Segment

/-- A segment begins with a bracket or an arrow. -/
theorem head?_text_append (s : Segment) (rest : List Char) :
    (s.text.toList ++ rest).head? = some (if s.isField then '-' else '[') := by
  cases s with
  | key k => rw [key_text_append]; rfl
  | unknownKey => rfl
  | field name => rw [field_text_append]; rfl
  | unknownField => rfl

theorem isField_eq_of_text {s t : Segment} {rest rest' : List Char}
    (h : s.text.toList ++ rest = t.text.toList ++ rest') : s.isField = t.isField := by
  have hhead := congrArg List.head? h
  rw [head?_text_append, head?_text_append] at hhead
  cases hs : s.isField <;> cases ht : t.isField <;> simp [hs, ht] at hhead ⊢

/-- Neither a key nor a name begins with a question mark. -/
theorem delimits : Delimits (fun s : Segment => s.text.toList) IsNamed (Ends isNameChar) := by
  have hkey (k : Key) (rest rest' : List Char) : k.text.toList ++ rest ≠ '?' :: rest' := by
    have hends : Ends ['?'].contains (k.text.toList ++ rest) :=
      Listing.ends_key k (by decide) rfl
    exact hends.ne_cons rfl _
  have hfield {name : String} (h : IsIdent name) (rest rest' : List Char) :
      name.toList ++ rest ≠ '?' :: rest' := by
    have hends : Ends ['?'].contains (name.toList ++ rest) := Listing.ends_ident h (by decide)
    exact hends.ne_cons rfl _
  intro s t rest rest' hs ht hrest hrest' heq
  have hsame := isField_eq_of_text heq
  cases s with
  | key k =>
    dsimp only at heq
    rw [key_text_append] at heq
    cases t with
    | key l =>
      rw [key_text_append] at heq
      obtain ⟨rfl, hend⟩ := Listing.delimits_key trivial trivial rfl rfl (List.cons.inj heq).2
      exact ⟨rfl, (List.cons.inj hend).2⟩
    | unknownKey => exact absurd (List.cons.inj heq).2 (hkey k _ _)
    | field | unknownField => cases hsame
  | unknownKey =>
    cases t with
    | key l =>
      dsimp only at heq
      rw [key_text_append] at heq
      exact absurd (List.cons.inj heq).2.symm (hkey l _ _)
    | unknownKey => exact ⟨rfl, List.append_cancel_left heq⟩
    | field | unknownField => cases hsame
  | field name =>
    dsimp only at heq
    rw [field_text_append] at heq
    cases t with
    | key | unknownKey => cases hsame
    | field name' =>
      rw [field_text_append] at heq
      obtain ⟨rfl, hend⟩ := Listing.delimits_ident hs ht hrest hrest'
        (List.cons.inj (List.cons.inj heq).2).2
      exact ⟨rfl, hend⟩
    | unknownField => exact absurd (List.cons.inj (List.cons.inj heq).2).2 (hfield hs _ _)
  | unknownField =>
    cases t with
    | key | unknownKey => cases hsame
    | field name' =>
      dsimp only at heq
      rw [field_text_append] at heq
      exact absurd (List.cons.inj (List.cons.inj heq).2).2.symm (hfield ht _ _)
    | unknownField => exact ⟨rfl, List.append_cancel_left heq⟩

/-- The end of a text, or of an identity within a text. -/
def Closes (rest : List Char) : Prop :=
  Ends (· != ')') rest

theorem ends_of_closes {p : Char → Bool} {rest : List Char} (h : Closes rest) (hp : p ')' = false) :
    Ends p rest := by
  refine Ends.of_imp h fun c hc => bne_iff_ne.2 ?_
  rintro rfl
  exact Bool.false_ne_true (hp.symm.trans hc)

theorem delimits_row :
    Delimits (List.flatMap fun s : Segment => s.text.toList) (∀ s ∈ ·, s.IsNamed) Closes := by
  refine delimits.flatMap (fun s rest _ => Listing.ends_segment s rfl rfl)
    (fun rest h => ends_of_closes h rfl) fun s rest _ hcloses => ?_
  have hhead := hcloses _ (head?_text_append s rest)
  cases hs : s.isField <;> rw [hs] at hhead <;> exact absurd hhead (by decide)

end Segment

theorem delimits_site : Delimits String.toList IsSite (Ends Numeral.isDigit) := by
  rintro id id' rest rest' ⟨name, ds, hname, ⟨hne, hds⟩, hid⟩
    ⟨name', ds', hname', ⟨hne', hds'⟩, hid'⟩
    hrest hrest' heq
  rw [hid, hid', List.append_assoc, List.append_assoc, List.cons_append, List.cons_append] at heq
  obtain ⟨rfl, hlabel⟩ := Listing.delimits_ident hname hname' (Listing.ends_cons rfl)
    (Listing.ends_cons rfl) heq
  have hread := Listing.digits_append hne hds hrest
  rw [(List.cons.inj hlabel).2, Listing.digits_append hne' hds' hrest'] at hread
  obtain ⟨rfl, rfl⟩ := Prod.mk.inj (Option.some.inj hread)
  exact ⟨String.toList_inj.1 (hid.trans hid'.symm), rfl⟩

/-- What follows the name of a variable. -/
def Table.mark : Table → List Char
  | global => []
  | frame level => '@' :: Nat.toDigits 10 level

/-- What may stand in a root after its first characters. -/
def isRootChar (c : Char) : Bool :=
  isNameChar c || c = '@'

section
variable {rest rest' : List Char}

theorem ends_name (h : Ends isRootChar rest) : Ends isNameChar rest :=
  Ends.of_imp h fun _ hc => Bool.or_eq_true_iff.2 (.inl hc)

theorem ends_level (h : Ends isRootChar rest) : Ends Numeral.isDigit rest := by
  refine Ends.of_imp (ends_name h) fun c hc => ?_
  unfold isNameChar
  rw [hc, Bool.or_true, Bool.true_or]

theorem Table.delimits : Delimits Table.mark (fun _ => True) (Ends isRootChar) := by
  intro s t rest rest' _ _ hrest hrest' heq
  cases s with
  | global =>
    cases t with
    | global => exact ⟨rfl, heq⟩
    | frame n => exact absurd heq (hrest.ne_cons rfl _)
  | frame m =>
    cases t with
    | global => exact absurd heq.symm (hrest'.ne_cons rfl _)
    | frame n =>
      obtain ⟨rfl, hend⟩ := Listing.delimits_digits trivial trivial (ends_level hrest)
        (ends_level hrest') (List.cons.inj heq).2
      exact ⟨rfl, hend⟩

namespace Root
variable {r r' : Root}

theorem var_text_append (name : String) (table : Table) (rest : List Char) :
    (var name table).text.toList ++ rest = '$' :: (name.toList ++ (table.mark ++ rest)) := by
  cases table <;> simp [text, Table.mark]

theorem control_text_append (name : String) (rest : List Char) :
    (control name).text.toList ++ rest = '#' :: (name.toList ++ rest) := by
  simp [text]

theorem returnSlot_text_append (level : Nat) (rest : List Char) :
    (returnSlot level).text.toList ++ rest =
      "return".toList ++ '@' :: (Nat.toDigits 10 level ++ rest) := by
  simp [text]

theorem object_text_append (id : ObjectId) (rest : List Char) :
    (object id).text.toList ++ rest = "obj".toList ++ '(' :: (id.toList ++ ')' :: rest) := by
  simp [text]

/-- The form of a root shows in the first character of its text. -/
theorem rank_eq_of_text (h : r.text.toList ++ rest = r'.text.toList ++ rest') :
    r.rank = r'.rank := by
  have hhead (r : Root) (rest : List Char) : (r.text.toList ++ rest).head? =
      ['$', '#', 'r', 'o'][r.rank]? := by
    cases r with
    | var name table => rw [var_text_append]; rfl
    | control name => rw [control_text_append]; rfl
    | returnSlot level => rw [returnSlot_text_append]; rfl
    | object id => rw [object_text_append]; rfl
  have hsame := congrArg List.head? h
  rw [hhead, hhead] at hsame
  cases r <;> cases r' <;> first | rfl | exact absurd hsame (by simp [rank])

/-- A name with a colon after it is the beginning of no root. -/
theorem ne_of_isSite {id : ObjectId} (h : IsSite id) (r : Root) (rest rest' : List Char) :
    id.toList ++ rest ≠ r.text.toList ++ rest' := by
  obtain ⟨name, ds, hname, -, hid⟩ := h
  have hword {word : String} (hw : IsIdent word) {c : Char} (hc : isNameChar c = false)
      (hne : ':' ≠ c)
      (cs : List Char) : name.toList ++ ':' :: (ds ++ rest) ≠ word.toList ++ c :: cs := by
    intro heq
    obtain ⟨-, hrest⟩ := Listing.delimits_ident hname hw (Listing.ends_cons rfl)
      (Listing.ends_cons hc) heq
    exact hne (List.cons.inj hrest).1
  have hsign {c : Char} (hc : isNameChar c = false) (cs : List Char) :
      name.toList ++ ':' :: (ds ++ rest) ≠ c :: cs := by
    have hends : Ends [c].contains (name.toList ++ ':' :: (ds ++ rest)) :=
      Listing.ends_ident hname (by simp [hc])
    exact hends.ne_cons (by simp) cs
  rw [hid, List.append_assoc, List.cons_append]
  cases r with
  | var x table =>
    rw [var_text_append]
    exact hsign rfl _
  | control x =>
    rw [control_text_append]
    exact hsign rfl _
  | returnSlot level =>
    rw [returnSlot_text_append]
    exact hword (by decide) rfl (by decide) _
  | object x =>
    rw [object_text_append]
    exact hword (by decide) rfl (by decide) _

theorem identity_of_object_text {id id' : ObjectId}
    (h : (object id).text.toList ++ rest = (object id').text.toList ++ rest') :
    id.toList ++ ')' :: rest = id'.toList ++ ')' :: rest' := by
  rw [object_text_append, object_text_append] at h
  exact (List.cons.inj (List.append_cancel_left h)).2

/-- The root is told apart from every named one. -/
def Told (r : Root) : Prop :=
  ∀ ⦃r' : Root⦄ ⦃rest rest' : List Char⦄, (Index.root r').IsNamed → Ends isRootChar rest →
    Ends isRootChar rest' → r.text.toList ++ rest = r'.text.toList ++ rest' → r = r' ∧ rest = rest'

theorem told_var {name : String} (h : IsIdent name) (table : Table) : (var name table).Told := by
  intro r' rest rest' hr' hrest hrest' heq
  have hname {t : Table} {rest : List Char} (h : Ends isRootChar rest) :
      Ends isNameChar (t.mark ++ rest) := by
    cases t with
    | global => exact ends_name h
    | frame level => exact Listing.ends_cons rfl
  have hrank := rank_eq_of_text heq
  cases hr' with
  | var h' table' =>
    rw [var_text_append, var_text_append] at heq
    obtain ⟨rfl, hmark⟩ := Listing.delimits_ident h h' (hname hrest) (hname hrest')
      (List.cons.inj heq).2
    obtain ⟨rfl, hend⟩ := Table.delimits trivial trivial hrest hrest' hmark
    exact ⟨rfl, hend⟩
  | control | returnSlot | site | made => cases hrank

theorem told_control {slot : String}
    (h : Index.root (.control slot) ∈ [Index.diagnostics, Index.freshArray]) :
    (control slot).Told := by
  have hslots {slot : String}
    (h : Index.root (.control slot) ∈ [Index.diagnostics, Index.freshArray]) :
      slot = "diagnostics" ∨ slot = "fresh-array" :=
    (List.mem_pair.1 h).imp (fun h => control.inj (Index.root.inj h))
      fun h => control.inj (Index.root.inj h)
  intro r' rest rest' hr' _ _ heq
  have hrank := rank_eq_of_text heq
  cases hr' with
  | control h' =>
    -- the two names differ in their first characters
    rw [control_text_append, control_text_append] at heq
    rcases hslots h with rfl | rfl <;> rcases hslots h' with rfl | rfl
    · exact ⟨rfl, List.append_cancel_left (List.cons.inj heq).2⟩
    · exact absurd (List.cons.inj (List.cons.inj heq).2).1 (by decide)
    · exact absurd (List.cons.inj (List.cons.inj heq).2).1 (by decide)
    · exact ⟨rfl, List.append_cancel_left (List.cons.inj heq).2⟩
  | var | returnSlot | site | made => cases hrank

theorem told_returnSlot (level : Nat) : (returnSlot level).Told := by
  intro r' rest rest' hr' hrest hrest' heq
  have hrank := rank_eq_of_text heq
  cases hr' with
  | returnSlot level' =>
    rw [returnSlot_text_append, returnSlot_text_append] at heq
    obtain ⟨rfl, hend⟩ := Listing.delimits_digits trivial trivial (ends_level hrest)
      (ends_level hrest') (List.cons.inj (List.append_cancel_left heq)).2
    exact ⟨rfl, hend⟩
  | var | control | site | made => cases hrank

end Root

namespace Index
variable {i j : Index}

theorem toList_text_descend (i : Index) (segments : List Segment) :
    (i.descend segments).text.toList = i.text.toList ++ segments.flatMap (·.text.toList) := by
  induction segments generalizing i with
  | nil => rw [List.flatMap_nil, List.append_nil]; rfl
  | cons s segments ih =>
    rw [descend_cons, ih, List.flatMap_cons, ← List.append_assoc]
    exact congrArg (· ++ _) String.toList_append

theorem IsNamed.exists_descend (h : i.IsNamed) : ∃ segments, (root i.base).descend segments = i ∧
    (root i.base).IsNamed ∧ ∀ s ∈ segments, s.IsNamed := by
  induction h with
  | var h table => exact ⟨[], rfl, .var h table, nofun⟩
  | control h => exact ⟨[], rfl, .control h, nofun⟩
  | returnSlot level => exact ⟨[], rfl, .returnSlot level, nofun⟩
  | site h => exact ⟨[], rfl, .site h, nofun⟩
  | made h => exact ⟨[], rfl, .made h, nofun⟩
  | @member i s _ hs ih =>
    obtain ⟨segments, hi, hbase, hall⟩ := ih
    refine ⟨segments ++ [s], ?_, hbase, ?_⟩
    · rw [descend_append]
      exact congrArg (Index.member · s) hi
    · intro t ht
      rcases List.mem_append.1 ht with ht | ht
      · exact hall t ht
      · exact List.mem_singleton.1 ht ▸ hs

/-- The text of a site begins no text of a location. -/
theorem ne_of_isSite {id : ObjectId} (h : IsSite id) (i : Index) (rest rest' : List Char) :
    id.toList ++ rest ≠ i.text.toList ++ rest' := by
  induction i generalizing rest' with
  | root r => exact Root.ne_of_isSite h r rest rest'
  | member p s ih =>
    unfold text
    rw [String.toList_append, List.append_assoc]
    exact ih _

/-- If the root is told apart, so is all that lies below it. -/
theorem IsNamed.append_inj_of_told (hi : i.IsNamed) (hj : j.IsNamed) (h : i.base.Told)
    (hrest : Segment.Closes rest) (hrest' : Segment.Closes rest')
    (heq : i.text.toList ++ rest = j.text.toList ++ rest') : i = j ∧ rest = rest' := by
  have hrow {segments : List Segment} {rest : List Char} (h : Segment.Closes rest) :
      Ends isRootChar (segments.flatMap (·.text.toList) ++ rest) := by
    cases segments with
    | nil => exact Segment.ends_of_closes h rfl
    | cons s segments =>
      rw [List.flatMap_cons, List.append_assoc]
      exact Listing.ends_segment s rfl rfl
  obtain ⟨segments, hi, -, hall⟩ := hi.exists_descend
  obtain ⟨segments', hj, hbase, hall'⟩ := hj.exists_descend
  have hroots : i.base.text.toList ++ (segments.flatMap (·.text.toList) ++ rest) =
      j.base.text.toList ++ (segments'.flatMap (·.text.toList) ++ rest') := by
    rw [← hi, ← hj, toList_text_descend, toList_text_descend, List.append_assoc,
      List.append_assoc] at heq
    exact heq
  obtain ⟨hsame, hrows⟩ := h hbase (hrow hrest) (hrow hrest') hroots
  obtain ⟨rfl, hend⟩ := Segment.delimits_row hall hall' hrest hrest' hrows
  refine ⟨?_, hend⟩
  rw [← hi, ← hj, hsame]

end Index

namespace Root

theorem told_site {id : ObjectId} (h : IsSite id) : (object id).Told := by
  intro r' rest rest' hr' _ _ heq
  have hrank := rank_eq_of_text heq
  cases hr' with
  | site h' =>
    obtain ⟨rfl, hend⟩ := delimits_site h h' (Listing.ends_cons rfl) (Listing.ends_cons rfl)
      (identity_of_object_text heq)
    exact ⟨rfl, (List.cons.inj hend).2⟩
  | @made j _ => exact absurd (identity_of_object_text heq) (Index.ne_of_isSite h j _ _)
  | var | control | returnSlot => cases hrank

/-- The identity is the text of a location, and that is told apart within the parentheses. -/
theorem told_made {i : Index} (hi : i.IsNamed) (h : i.base.Told) : (object i.text).Told := by
  intro r' rest rest' hr' _ _ heq
  have hrank := rank_eq_of_text heq
  have hcloses (rest : List Char) : Segment.Closes (')' :: rest) := Listing.ends_cons rfl
  cases hr' with
  | site h' => exact absurd (identity_of_object_text heq).symm (Index.ne_of_isSite h' i _ _)
  | made hj =>
    obtain ⟨rfl, hend⟩ := hi.append_inj_of_told hj h (hcloses rest) (hcloses rest')
      (identity_of_object_text heq)
    exact ⟨rfl, (List.cons.inj hend).2⟩
  | var | control | returnSlot => cases hrank

end Root

namespace Index
variable {i j : Index}

/-- By induction on how the root is named: its identity may be the text of a location, which has
been named before. -/
theorem IsNamed.told (h : i.IsNamed) : i.base.Told := by
  induction h with
  | var h table => exact Root.told_var h table
  | control h => exact Root.told_control h
  | returnSlot level => exact Root.told_returnSlot level
  | site h => exact Root.told_site h
  | made hi ih => exact Root.told_made hi ih
  | member _ _ ih => exact ih

theorem IsNamed.text_inj (hi : i.IsNamed) (hj : j.IsNamed) (h : i.text = j.text) : i = j := by
  have hcloses : Segment.Closes [] := Listing.ends_nil _
  exact (hi.append_inj_of_told hj hi.told hcloses hcloses (by rw [h])).1

theorem not_isSite_text (i : Index) : ¬IsSite i.text :=
  fun h => ne_of_isSite h i [] [] rfl

end Index
end

namespace Draft
variable {d : Draft} {s : Segment} {certain : Bool} {i : Index} {o : ObjectValue} {id : ObjectId}
  {v : Value}

theorem mem_objects_add :
    id ∈ (d.add i v certain).memory.objects ↔ id ∈ d.memory.objects := by
  unfold add
  rw [write_memory]
  exact Memory.mem_objects_write ..

/-- Of the objects at a location, only the one that is added is new. -/
theorem mem_objectsAt_add (h : o ∈ (d.add i v certain).memory.objectsAt i) :
    v = .object o ∨ o ∈ d.memory.objectsAt i := by
  rw [Memory.objectsAt_eq_objects, entryOrUndefined_add, (writtenAs_fit _ _).coarsened.objects_eq,
    Entry.mem_objects] at h
  rw [Memory.objectsAt_eq_objects, Entry.mem_objects]
  cases certain with
  | true => exact .inl (Entry.mem_ofValue.1 h).symm
  | false => exact (Entry.eq_or_mem_of_mem_insert h).imp_left Eq.symm

theorem mem_objects_prepare (h : id ∈ (d.prepare s certain i).memory.objects) :
    id = i.text ∨ id ∈ d.memory.objects := by
  rcases d.prepare_cases s certain i with ⟨-, heq⟩ | ⟨-, -, heq⟩ | ⟨-, -, heq⟩ <;> rw [heq] at h
  · exact .inr h
  · exact (Memory.mem_objects_declareObject ..).1 (mem_objects_add.1 h)
  · exact .inr (mem_objects_add.1 h)

theorem mem_objectsAt_prepare (h : o ∈ (d.prepare s certain i).memory.objectsAt i) :
    o = .madeAt i ∨ o ∈ d.memory.objectsAt i := by
  rcases d.prepare_cases s certain i with ⟨-, heq⟩ | ⟨-, -, heq⟩ | ⟨-, -, heq⟩ <;> rw [heq] at h
  · exact .inr h
  · rcases mem_objectsAt_add h with hmade | hold
    · exact .inl (Value.object.inj hmade).symm
    · refine .inr ?_
      rw [Memory.mem_objectsAt] at hold ⊢
      rwa [← Memory.entry?_declareObject]
  · exact .inr ((mem_objectsAt_add h).resolve_left nofun)

end Draft

/-- An object with this identity comes up when a member of `i` is made ready for a write: it is
declared, or `i` may hold it, only from then on. -/
def Index.MakesObject (i : Index) (id : ObjectId) : Prop :=
  ∃ (d : Draft) (s : Segment) (certain : Bool),
    let n := (d.prepare s certain i).memory
    (id ∈ n.objects ∧ id ∉ d.memory.objects) ∨
      ∃ o ∈ n.objectsAt i, o.id = id ∧ o ∉ d.memory.objectsAt i

theorem Index.MakesObject.eq {i : Index} {id : ObjectId} (h : i.MakesObject id) : id = i.text := by
  obtain ⟨d, s, certain, ⟨hnew, hold⟩ | ⟨o, hnew, rfl, hold⟩⟩ := h
  · exact (Draft.mem_objects_prepare hnew).resolve_right hold
  · rw [(Draft.mem_objectsAt_prepare hnew).resolve_right hold]
    rfl

theorem Edit.createObject_result {className : String} {site : ObjectId}
    {fields : List (String × Entry)} {d d' : Draft} {o : ObjectValue}
    (hrun : (Edit.createObject className site fields).run d = .ok o d') :
    o = ⟨site, className⟩ := by
  obtain ⟨_, _, -, hrun⟩ := exists_of_run_bind hrun
  obtain ⟨_, _, -, hrun⟩ := exists_of_run_bind hrun
  obtain ⟨_, _, -, hrun⟩ := exists_of_run_bind hrun
  cases hrun
  rfl

/-- An expression that makes an object evaluates to it, and its identity is the place
of evaluation. -/
theorem Evaluator.newObject_result {ev : Evaluator} {className : String} {s t : Snapshot}
    {e : Entry}
    (hrun : (ev.newObject className).run s = .ok e t) :
    e = .ofValue (.object ⟨ev.location, className⟩) := by
  obtain ⟨fields, u, -, hrun⟩ := exists_of_run_bind hrun
  obtain ⟨o, u', hcreate, hrun⟩ := exists_of_run_bind hrun
  obtain ⟨d, hedit, -⟩ := Snapshot.exists_edit_of_mutate_run hcreate
  rw [← Edit.createObject_result hedit]
  cases hrun
  rfl

namespace Function
variable {f g : Function} {node node' : Nat} {id : ObjectId}

/-- The label that a location names. -/
def labelAt (f : Function) (node : Nat) : Label :=
  (f.graph.label? node).getD 0

theorem toList_location (f : Function) (node : Nat) :
    (f.location node).toList = f.name.toList ++ ':' :: Nat.toDigits 10 (f.labelAt node).toNat := by
  simp [location, labelAt]

theorem isSite_location (h : IsIdent f.name) (node : Nat) : IsSite (f.location node) :=
  ⟨f.name, _, h, ⟨Nat.toDigits_ne_nil, fun _ => Numeral.isDigit_of_mem_toDigits⟩,
    f.toList_location node⟩

theorem location_inj (hf : IsIdent f.name) (hg : IsIdent g.name)
    (h : f.location node = g.location node') :
    f.name = g.name ∧ f.labelAt node = g.labelAt node' := by
  have hlist := congrArg String.toList h
  rw [toList_location, toList_location] at hlist
  obtain ⟨hname, hlabel⟩ := Listing.delimits_ident hf hg (Listing.ends_cons rfl)
    (Listing.ends_cons rfl) hlist
  have hdigits := (List.cons.inj hlabel).2
  rw [← List.append_nil (Nat.toDigits ..), ← List.append_nil (Nat.toDigits _ (g.labelAt _).toNat)]
    at hdigits
  obtain ⟨hnumber, -⟩ := Listing.delimits_digits trivial trivial (Listing.ends_nil _)
    (Listing.ends_nil _) hdigits
  exact ⟨hname, UInt64.toNat_inj.1 hnumber⟩

/-- Evaluating an expression at the node may give a new object with this identity. -/
def CreatesObject (f : Function) (node : Nat) (id : ObjectId) : Prop :=
  ∃ (ev : Evaluator) (className : String) (s t : Snapshot) (e : Entry) (o : ObjectValue),
    ev.location = f.location node ∧ (ev.evaluate (.newObject className)).run s = .ok e t ∧
      .object o ∈ e ∧ o.id = id

theorem CreatesObject.eq (h : f.CreatesObject node id) : id = f.location node := by
  obtain ⟨ev, className, s, t, e, o, hlocation, hrun, ho, rfl⟩ := h
  rw [Evaluator.newObject_result hrun] at ho
  rw [Value.object.inj (Entry.mem_ofValue.1 ho), ← hlocation]

end Function

namespace Index
variable {i j : Index}

/-- Named locations have different texts, and none of them has the text of a site. So the objects
that writes make at two of them have different identities, and other ones than the objects made by
an expression; those have the same identity only under one label of functions of one name. -/
theorem texts_told_apart (hi : i.IsNamed) (hj : j.IsNamed) :
    (i.text = j.text ↔ i = j) ∧ ¬IsSite i.text ∧
    (i ≠ j → ∀ id, i.MakesObject id → ¬j.MakesObject id) ∧
    ∀ (f : Function) (node : Nat), IsIdent f.name →
      (∀ id, i.MakesObject id → ¬f.CreatesObject node id) ∧
      ∀ (g : Function) (node' : Nat) id, IsIdent g.name → f.CreatesObject node id →
        g.CreatesObject node' id → f.name = g.name ∧ f.labelAt node = g.labelAt node' := by
  refine ⟨⟨hi.text_inj hj, congrArg text⟩, i.not_isSite_text, fun hne id hmade hmade' => ?_,
    fun f node hf => ⟨fun id hmade hcreated => ?_, fun g node' id hg hcreated hcreated' => ?_⟩⟩
  · exact hne (hi.text_inj hj (hmade.eq.symm.trans hmade'.eq))
  · have hsite := Function.isSite_location hf node
    rw [← hcreated.eq, hmade.eq] at hsite
    exact i.not_isSite_text hsite
  · exact Function.location_inj hf hg (hcreated.eq.symm.trans hcreated'.eq)

/-- A key that holds a bracket and an arrow, and a field of the object made at that element. -/
theorem texts_told_apart_nested :
    let i : Index := (ofVariable "a" .global).member (.key (.string "]->f"))
    let j : Index := (object i.text).member (.field "f")
    let f : Function := ⟨"main", [], ⟨[⟨7, .nop⟩], [], 0, 0⟩⟩
    (i.IsNamed ∧ j.IsNamed) ∧ i.text = "$a[\"]->f\"]" ∧ j.text = "obj($a[\"]->f\"])->f" ∧
      i.text ≠ j.text ∧ ¬IsSite i.text ∧
      (i ≠ j ∧ i.MakesObject i.text) ∧ ¬j.MakesObject i.text ∧
      IsIdent f.name ∧ ¬f.CreatesObject 0 i.text ∧
      (f.CreatesObject 0 "main:7" ∧ ∀ node, f.CreatesObject node "main:7" →
        f.labelAt node = 7) := by
  intro i j f
  have hi : i.IsNamed := .member (.var (by decide) _) trivial
  have hfield : IsIdent "f" := by decide
  have hj : j.IsNamed := .member (.made hi) hfield
  have hne : i ≠ j := by decide
  have hmade : i.MakesObject i.text :=
    ⟨⟨{}, none, 0⟩, .field "f", true, .inl (by decide +kernel)⟩
  have hf : IsIdent f.name := by decide
  have hcreated : f.CreatesObject 0 "main:7" :=
    ⟨⟨{}, "main:7", 0, false⟩, "C", { phase := .open {} }, _, _, ⟨"main:7", "C"⟩, by decide, rfl,
      Entry.mem_ofValue.2 rfl, rfl⟩
  obtain ⟨htext, hsite, hobjects, hsites⟩ := texts_told_apart hi hj
  obtain ⟨hapart, hlabels⟩ := hsites f 0 hf
  exact ⟨⟨hi, hj⟩, by decide, by decide, fun h => hne (htext.1 h), hsite, ⟨hne, hmade⟩,
    hobjects hne _ hmade, hf, hapart _ hmade, hcreated,
    fun node h => (hlabels f node _ hf hcreated h).2.symm⟩

end Index
end ScriptMemory
