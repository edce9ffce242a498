import ScriptMemory.Proofs.Evaluation
import ScriptMemory.Proofs.Interpreter
import ScriptMemory.Proofs.Memory.Frames

/-! What the operations of straight-line programs do to memory that mirrors an environment: they do
to memory what the interpreter does to the environment. -/
namespace ScriptMemory
open Std

/-- The limits let every single value through. -/
def Limits.Admits (limits : Limits) : Prop :=
  ∀ v, (Entry.ofValue v).Fits limits.simplify

namespace Transact
open Memory
variable {σ : Environment} {level : Nat} {returned v : Option Scalar} {limits : Limits} {p : Path}
  {e : Expression} {x : Parameter × Expression}

/-- Findings are no variables. -/
theorem keeps_report (f : Finding) :
    Keeps (Mirrors σ level returned) (Snapshot.report f) fun _ => True := by
  apply Keeps.mutate
  intro d h
  let e := ((d.memory.entry? .diagnostics).getD ∅).insert (.info f)
  have he : e.IsFlat := by
    have hold : ((d.memory.entry? .diagnostics).getD ∅).IsFlat := by
      cases hd : d.memory.entry? .diagnostics with
      | none => exact Entry.all_empty
      | some e => exact h.flat.flat _ e hd
    exact hold.insert ⟨rfl, rfl⟩
  obtain ⟨e', he', hwritten⟩ := Draft.write_eq d .diagnostics e
  refine ⟨(), d.write .diagnostics e, rfl, ?_, trivial⟩
  rw [he']
  refine h.elsewhere (h.flat.rewritten_write (he.writtenAs hwritten) .diagnostics) ?_
  rintro i rfl
  refine ⟨fun hv => hv.ne_diagnostics rfl, fun k hk => ?_⟩
  cases hk

theorem keeps_warn (ev : Evaluator) (cause : Cause) (message : String) :
    Keeps (Mirrors σ level returned) (ev.warn cause message) fun _ => True := by
  unfold Evaluator.warn
  split
  · exact (Keeps.record _).bind fun _ _ => keeps_report _
  · exact Keeps.pure trivial

/-- A plain expression evaluates to the entry of its value. -/
theorem keeps_evaluate (he : e.isPlain = true) (ev : Evaluator) :
    Keeps (Mirrors σ level returned) (ev.evaluate e) fun entry =>
      entry = .ofContent (e.value σ ev.level) := by
  cases e with
  | literal s =>
    apply (Keeps.create _).bind
    rintro _ rfl
    exact Keeps.pure rfl
  | read p =>
    have hp : p.isVariable = true := he
    change Keeps _ (ev.read p) _
    unfold Evaluator.read
    apply Keeps.get_bind
    · intro s t h
      simp only [h]
    · intro s hs
      have hread := hs.readAt_eq hp ev.level
      dsimp only
      rw [hread]
      apply Keeps.ite
      · exact (keeps_warn ev _ _).bind fun _ _ => Keeps.pure rfl
      · exact Keeps.pure rfl
  | _ => cases he

theorem leads_assign (hlimits : limits.Admits) (hp : p.isVariable = true) (v : Option Scalar)
    (force : Bool) : Leads limits (Mirrors σ level returned)
      (Snapshot.assign p (.ofContent v) force) fun _ =>
        Mirrors (σ.write (p.indexAt level) v) level returned := by
  intro m h
  obtain ⟨n, hn, hr⟩ := yields_assign_variable limits h.flat (Entry.isFlat_ofContent v) hp force
    (by
      intro i hi
      rw [h.assigned_eq hi]
      exact hlimits _)
  rw [h.level_eq] at hr
  exact ⟨(), n, hn, h.write (Index.isVariable_indexAt p level) (Index.frame_indexAt_le p level) hr⟩

/-- The value of an expression is assigned. -/
theorem leads_assign_evaluate (hlimits : limits.Admits) (hp : p.isVariable = true)
    (he : e.isPlain = true) (ev : Evaluator) (force : Bool) :
    Leads limits (Mirrors σ level returned)
      (do Snapshot.assign p (← ev.evaluate e) force) fun _ =>
        Mirrors (σ.write (p.indexAt level) (e.value σ ev.level)) level returned := by
  refine Leads.bind ((keeps_evaluate he ev).leads limits) fun entry m h => ?_
  obtain ⟨hm, rfl⟩ := h
  exact leads_assign hlimits hp _ force m hm

theorem leads_assignReturn (hlimits : limits.Admits) (v : Option Scalar) :
    Leads limits (Mirrors σ level returned) (Snapshot.assignReturn (.ofContent v)) fun _ =>
      Mirrors σ level v := by
  unfold Snapshot.assignReturn
  refine Leads.get_bind (fun s t h => by simp only [h]) fun s hs m h => ?_
  rw [hs.level_eq]
  let d : Draft := { memory := m, limit := limits.simplify }
  have hflat := Entry.isFlat_ofContent v
  have hstore : d.store (.returnSlot level) (.ofContent v) [] true =
      d.update (·.write (.returnSlot level) (.ofContent v)) := by
    rw [Draft.store_flat h.flat hflat]
    exact Draft.write_of_fits (hlimits _) _
  have hrun : (Edit.assignIndex (.returnSlot level) (.ofContent v) true).run d =
      .ok () (d.update (·.write (.returnSlot level) (.ofContent v))) := by
    rw [Edit.assignIndex_run d _ hflat.isData, Draft.ofEntry_flat _ hflat, hstore]
  exact ⟨(), _, Yields.mutate hrun, h.return (h.flat.rewritten_write hflat _)⟩

/-- A parameter that is taken by reference shares the variable of the caller. -/
theorem leads_bindReference (hlimits : limits.Admits) {name : String} (hp : p.isVariable = true)
    (hnew : ¬σ.isBound ((Path.ofVariable name).indexAt (level + 1)) = true) :
    Leads limits (Mirrors σ (level + 1) returned)
      (Snapshot.bindReference (Path.ofVariable name) p) fun _ =>
        Mirrors (σ.share ((Path.ofVariable name).indexAt (level + 1)) (p.indexAt level))
          (level + 1) returned := by
  intro m h
  let d : Draft := { memory := m, limit := limits.simplify }
  have hsource := Index.isVariable_indexAt p level
  have hle := Index.frame_indexAt_le p level
  have htarget : (Path.ofVariable name).isVariable = true := rfl
  have hfits : (m.referred (p.indexAt level)).Fits limits.simplify := by
    rw [h.referred_eq hsource]
    exact hlimits _
  obtain ⟨d', hrun, hbound⟩ := exists_boundTo (d := d) h.flat h.symmetric h.hasEntries htarget hp
    (level + 1) level hfits
  have hrun' : (Edit.bindReference (Path.ofVariable name) p).run d = .ok () d' := by
    unfold Edit.bindReference
    rw [EStateM.run_bind, EStateM.run_get]
    dsimp only
    have hlevel : d.memory.level = level + 1 := h.level_eq
    rw [hlevel]
    exact hrun
  -- the two are in different frames, even if they have one name
  have hne : (Path.ofVariable name).indexAt (level + 1) ≠ p.indexAt level := by
    intro heq
    have hframe : ((Path.ofVariable name).indexAt (level + 1)).frame = level + 1 := rfl
    rw [heq] at hframe
    omega
  exact ⟨(), _, Yields.mutate hrun', h.share (Index.isVariable_indexAt _ _) hnew rfl hsource
    (Nat.le_succ_of_le hle) hne hbound⟩

/-- What the entry of a called function does with one parameter. -/
def pass (ev : Evaluator) (x : Parameter × Expression) : Transact Unit := do
  let target := Path.ofVariable x.1.name
  match x.1.byReference, x.2 with
  | true, .read source => Snapshot.bindReference target source
  | _, _ => Snapshot.assign target (← ev.evaluate x.2) true

theorem leads_pass (hlimits : limits.Admits) {ev : Evaluator} (hev : ev.level = level)
    (he : x.2.isPlain = true)
    (hnew : ¬σ.isBound ((Path.ofVariable x.1.name).indexAt (level + 1)) = true) :
    Leads limits (Mirrors σ (level + 1) returned) (pass ev x) fun _ =>
      Mirrors (σ.pass level x) (level + 1) returned := by
  have hassign (arg : Expression) (harg : arg.isPlain = true) :
      Leads limits (Mirrors σ (level + 1) returned)
        (do Snapshot.assign (Path.ofVariable x.1.name) (← ev.evaluate arg) true) fun _ =>
          Mirrors (σ.write ((Path.ofVariable x.1.name).indexAt (level + 1)) (arg.value σ level))
            (level + 1) returned := by
    rw [← hev]
    exact leads_assign_evaluate hlimits rfl harg ev true
  obtain ⟨param, arg⟩ := x
  unfold pass Environment.pass
  dsimp only at he hassign ⊢
  cases hparam : param.byReference with
  | false => exact hassign arg he
  | true =>
    cases arg with
    | read source => exact leads_bindReference hlimits he hnew
    | _ => exact hassign _ he

/-- Passing an argument binds the parameter, and at most a variable of the caller besides. -/
theorem isBound_pass {i : Index}
    (h : (σ.pass level x).isBound i = true) :
    i = (Path.ofVariable x.1.name).indexAt (level + 1) ∨ i.frame ≤ level ∨ σ.isBound i = true := by
  have hwrite {v : Option Scalar}
      (h : (σ.write ((Path.ofVariable x.1.name).indexAt (level + 1)) v).isBound i = true) :
      i = (Path.ofVariable x.1.name).indexAt (level + 1) ∨ i.frame ≤ level ∨ σ.isBound i = true :=
    (Environment.isBound_write.1 h).imp_right .inr
  unfold Environment.pass at h
  dsimp only at h
  split at h
  · rcases Environment.isBound_share.1 h with hi | rfl | hi
    · exact .inl hi
    · exact .inr (.inl (Index.frame_indexAt_le _ level))
    · exact .inr (.inr hi)
  · exact hwrite h

/-- The parameters of a function are bound one after the other. -/
theorem leads_passAll (hlimits : limits.Admits) {ev : Evaluator} (hev : ev.level = level)
    {l : List (Parameter × Expression)} (hnodup : (l.map (·.1.name)).Nodup)
    (he : ∀ x ∈ l, x.2.isPlain = true)
    (hnew : ∀ x ∈ l, ¬σ.isBound ((Path.ofVariable x.1.name).indexAt (level + 1)) = true) :
    Leads limits (Mirrors σ (level + 1) returned) (l.forM (pass ev)) fun _ =>
      Mirrors (l.foldl (Environment.pass level) σ) (level + 1) returned := by
  induction l generalizing σ with
  | nil => exact Leads.pure fun _ h => h
  | cons x l ih =>
    rw [List.map_cons, List.nodup_cons] at hnodup
    change Leads limits _ (pass ev x >>= fun _ => l.forM (pass ev)) _
    refine (leads_pass hlimits hev (he x List.mem_cons_self) (hnew x List.mem_cons_self)).bind
      fun _ => ?_
    refine ih hnodup.2 (fun y hy => he y (List.mem_cons_of_mem x hy)) fun y hy hb => ?_
    -- the other parameters have other names
    rcases isBound_pass hb with heq | hle | hb
    · have hname : y.1.name = x.1.name := by
        have hbase := congrArg Index.base heq
        exact (Root.var.inj hbase).1
      exact hnodup.1 (hname ▸ List.mem_map.2 ⟨y, hy, rfl⟩)
    · have hframe : ((Path.ofVariable y.1.name).indexAt (level + 1)).frame = level + 1 := rfl
      omega
    · exact hnew y (List.mem_cons_of_mem x hy) hb

theorem erase_undefined_ofContent (v : Option Scalar) :
    (Entry.ofContent v).erase .undefined = match v with
      | some _ => .ofContent v
      | none => ∅ := by
  apply Entry.ext_mem
  intro w
  unfold Entry.ofContent
  rw [Entry.mem_erase, Entry.mem_ofValue]
  cases v with
  | none => exact iff_of_false (fun h => h.1 h.2) Entry.not_mem_empty
  | some s =>
    rw [Entry.mem_ofValue, and_iff_right_iff_imp]
    rintro rfl h
    cases h

/-- A function that returns nothing returns null. -/
theorem returned_ofContent (v : Option Scalar) :
    (Entry.ofContent v).returned = .ofContent (some (v.getD .null)) := by
  unfold Entry.returned
  rw [erase_undefined_ofContent]
  cases v with
  | none =>
    have hundefined : (Entry.ofContent none).hasUndefined = true :=
      Entry.contains_eq_true.2 (Entry.mem_ofValue.2 rfl)
    rw [hundefined]
    rfl
  | some s =>
    have hmem : Value.scalar s ∈ (Entry.ofContent (some s)).values :=
      Entry.mem_values.2 (Entry.mem_ofValue.2 rfl)
    have hdefined : (Entry.ofContent (some s)).hasUndefined = false := by
      rw [Bool.eq_false_iff]
      intro h
      cases Entry.mem_ofValue.1 (Entry.contains_eq_true.1 h)
    have hnonempty : (Entry.ofContent (some s)).isEmpty = false := by
      rw [Bool.eq_false_iff]
      intro h
      rw [ExtTreeSet.isEmpty_iff.1 h] at hmem
      exact ExtTreeSet.not_mem_empty hmem
    rw [hdefined, hnonempty]
    rfl

/-- Closing a frame writes what the function has returned. -/
theorem yields_leaveCall (hlimits : limits.Admits) {exit : Memory}
    (h : Mirrors σ (level + 1) returned exit) {result : Option Path}
    (hresult : result.all Path.isVariable = true) :
    ∃ n, (∀ m,
        Yields (Snapshot.mutate .mergeWithCall (Edit.leaveCall result [exit])) limits m () n) ∧
      Mirrors (σ.leave level result returned) level none n := by
  let closed := Draft.close { memory := exit, limit := limits.simplify } level
  have hclosed : Mirrors (σ.unbind (·.isRootedAtLevel (level + 1))) level none closed.memory :=
    h.close
  have hextend (m : Memory) : (Edit.extend [exit]).run { memory := m, limit := limits.simplify } =
      .ok () { memory := exit, limit := limits.simplify } := rfl
  -- the return slot is read before its frame is closed
  have hslot : exit.readIndex (.returnSlot (level + 1)) = .ofContent returned :=
    (h.returns (level + 1)).trans (by rw [if_pos rfl])
  have hflat := Entry.isFlat_ofContent (some (returned.getD .null))
  refine ⟨_, fun m => Yields.mutate (Edit.leaveCall_eq result (hextend m) h.level_eq), ?_⟩
  dsimp only
  rw [hslot, returned_ofContent, Draft.ofEntry_flat exit hflat]
  cases result with
  | none => exact hclosed
  | some p =>
    have hr := rewritten_assign (d := closed) hclosed.flat hflat hresult level true (by
      intro i hi
      rw [hclosed.assigned_eq hi]
      exact hlimits _)
    unfold Draft.assign at hr
    dsimp only at hr
    rw [Draft.ofEntry_flat _ hflat] at hr
    exact hclosed.write (Index.isVariable_indexAt p level) (Index.frame_indexAt_le p level) hr

end Transact
end ScriptMemory
