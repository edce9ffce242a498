import ScriptMemory.Proofs.Analysis.Loosening
import ScriptMemory.Proofs.Memory.Agreement

/-! Certain aliases hold the same at every point of every run. A commit widens against what the
point held before, so it keeps certain aliases in agreement only if they were certain before. They
were: what a point sees becomes looser from visit to visit, and so does the point. -/
namespace ScriptMemory
open Std Transact

variable {x x' : Intake} {o n n' n₀ n₀' m : Memory} {level level' : Nat}

/-- The second intake is made of looser memory than the first, but for certain edges that are in
`o`, which is of no account to a call or its return. -/
inductive Intake.LooserUpTo (o : Memory) : Intake → Intake → Prop
  | join {sources sources' : List Memory} (hne : sources ≠ []) (hne' : sources' ≠ [])
      (h : ∀ m ∈ sources, ∃ m' ∈ sources', o.LooserUpTo m m' ∧ m'.level = m.level) :
      LooserUpTo o (.join sources) (.join sources')
  | call {m m' : Memory} (h : m.Looser m') (hlevel : m'.level = m.level) :
      LooserUpTo o (.call m) (.call m')
  | callReturn {m m' : Memory} (h : m.Looser m') (hlevel : m'.level = m.level) :
      LooserUpTo o (.callReturn m) (.callReturn m')

theorem Intake.LooserUpTo.level_eq (h : Intake.LooserUpTo o x x') (hx : x.Fits level)
    (hx' : x'.Fits level') : level' = level := by
  cases h with
  | @join sources _ hne _ h =>
    obtain ⟨m, hm⟩ := List.exists_mem_of_ne_nil sources hne
    obtain ⟨m', hm', -, hlevel⟩ := h m hm
    rw [← hx.2 m hm, ← hx'.2 m' hm', hlevel]
  | call _ hlevel =>
    change _ + 1 = level at hx
    change _ + 1 = level' at hx'
    omega
  | callReturn _ hlevel =>
    change _ = level + 1 at hx
    change _ = level' + 1 at hx'
    omega

namespace Analysis
open Memory
variable {a : Analysis} {s s' r : AnalysisState} {p q u : Point} {c c' : Context}
  {st st' : Statement} {target target' : Option CallTarget} {before before' : Memory}
  {view view' : Point → Option Memory} {t t' : Snapshot} {pending : Point → Prop}

/-- From looser memory a context takes in looser memory. -/
theorem TakenIn.looserUpTo (h : a.TakenIn s c x n₀) (h' : a.TakenIn s c x' n₀')
    (hx : Intake.LooserUpTo o x x') : o.LooserUpTo n₀ n₀' := by
  cases hx with
  | join hne hne' hsources =>
    change n₀ = _ at h
    change n₀' = _ at h'
    rw [h, h']
    apply looserUpTo_takenOver hne hne'
    intro m hm
    obtain ⟨m', hm', hloose, -⟩ := hsources m hm
    exact ⟨m', hm', hloose⟩
  | @call m m' hloose hlevel =>
    have hentered : Looser { m with level := m.level + 1 } { m' with level := m'.level + 1 } :=
      ⟨hloose.edge, hloose.mustEdge⟩
    change BindsAll m.level _ _ _ at h
    change BindsAll m'.level _ _ _ at h'
    rw [hlevel] at h' hentered
    exact (h.looser h' hentered).upTo o
  | @callReturn m m' hloose hlevel =>
    change ∀ i, _ = (m'.discard (·.isRootedAtLevel m'.level)).aliases i at h'
    rw [hlevel] at h'
    exact ((hloose.upTo n₀).discard h h').upTo o

/-- What a visit makes of the aliases that it takes in is up to the statement. -/
theorem Outcome.relinked (hR : a.program.Refers fun path source =>
      path.isVariable = true ∧ source.isVariable = true) (hs : s.Tree a)
    (hout : a.Outcome s p c st target view x n before t) (hfits : x.Fits level)
    (h : ∀ m ∈ x.memories, m.Complete) :
    ∃ n₀, a.TakenIn s c x n₀ ∧ n₀.level = level ∧ Relinks st n₀ n ∧ n.level = level := by
  obtain ⟨n₀, htake, hcomplete, hlevel, htaken⟩ :=
    exists_takenIn hR hs hout.site.context st hfits h
  have hreferences (path source : Path) (hst : st = .assignAlias path source) :
      path.isVariable = true ∧ source.isVariable = true := by
    obtain ⟨name, hname⟩ := hs.function hout.site.context
    exact hR.assignAlias hname (hst ▸ hout.site.statement)
  obtain ⟨k, happly, hklevel, hrelinks⟩ : ∃ k, Yields (a.apply s c.function p target st)
      a.config.limits n₀ () k ∧ k.level = n₀.level ∧ Relinks st n₀ k :=
    exists_relinks hcomplete c.function hreferences
  obtain ⟨rfl, -⟩ := (hout.yields .initial).unique ((htake .initial).bind happly)
  exact ⟨n₀, htaken, hlevel, hrelinks, hklevel.trans hlevel⟩

/-- Every memory in the first view has a looser one in the second. A point that is its own
predecessor may have certain edges of its own there. -/
def Loosens (q : Point) (n : Memory) (view view' : Point → Option Memory) : Prop :=
  ∀ u m, view u = some m → (u = q → m.level = n.level) →
    ∃ m', view' u = some m' ∧ n.LooserUpTo m m' ∧ m'.level = m.level ∧ (u ≠ q → m.Looser m')

/-- A point makes its intake by the same rule at each visit. -/
theorem Loosens.intake (hv : Loosens q n view view') (hsite : a.Site s q c st target)
    (hp : a.program.IsBuilt) (hs : s.Tree a)
    (hx : intake? s.contexts c q st target view = some x)
    (hx' : intake? s.contexts c q st target view' = some x') (hfits : x.Fits n.level) :
    Intake.LooserUpTo n x x' := by
  have hother {u : Point} {m : Memory} (hu : u ≠ q) (hm : view u = some m) :
      ∃ m', view' u = some m' ∧ n.LooserUpTo m m' ∧ m'.level = m.level ∧ m.Looser m' := by
    obtain ⟨m', hm', hloose, hlevel, hstrict⟩ := hv u m hm fun h => absurd h hu
    exact ⟨m', hm', hloose, hlevel, hstrict hu⟩
  cases hsite.intakeRule hp hs with
  | @entry _ call _ hentry hcaller _ =>
    rw [intake?_entry hentry, hcaller, Option.bind_some] at hx hx'
    obtain ⟨m, hm, rfl⟩ := Option.map_eq_some_iff.1 hx
    -- a call lies in another context than what it leads to
    have hne : call ≠ q := fun h => hs.ne_caller hsite.context hcaller (by rw [h])
    obtain ⟨m', hm', -, hlevel, hloose⟩ := hother hne hm
    rw [hm'] at hx'
    cases hx'
    exact .call hloose hlevel
  | @callReturn id callee _ hentry hst _ hc hcaller =>
    rw [intake?_callReturn hentry hst hc] at hx hx'
    obtain ⟨m, hm, rfl⟩ := Option.map_eq_some_iff.1 hx
    have hne : (⟨id, callee.function.graph.exit⟩ : Point) ≠ q := by
      intro h
      exact hs.ne_caller hc hcaller (congrArg Point.context h).symm
    obtain ⟨m', hm', -, hlevel, hloose⟩ := hother hne hm
    rw [hm'] at hx'
    cases hx'
    exact .callReturn hloose hlevel
  | @approximated _ _ _ node hentry hst hnode _ =>
    rw [intake?_approximated hentry hst hnode] at hx hx'
    obtain ⟨m, hm, rfl⟩ := Option.map_eq_some_iff.1 hx
    have hlevel := hfits.2 m List.mem_cons_self
    obtain ⟨m', hm', hloose, hlevel', -⟩ := hv _ m hm fun _ => hlevel
    rw [hm'] at hx'
    cases hx'
    refine .join (List.cons_ne_nil m []) (List.cons_ne_nil m' []) fun k hk => ?_
    rw [List.mem_singleton.1 hk]
    exact ⟨m', List.mem_cons_self, hloose, hlevel'⟩
  | join hentry hst =>
    rw [intake?_join hentry hst] at hx hx'
    obtain ⟨sources, rfl, hne, hsources⟩ := joinIntake_eq_some hx
    obtain ⟨sources', rfl, hne', hsources'⟩ := joinIntake_eq_some hx'
    refine .join hne hne' fun m hm => ?_
    rcases (hsources m).1 hm with ⟨rfl, hentry⟩ | ⟨node, hedge, hview⟩
    · have hblank : Looser .initial .initial := looser_of_aliases fun _ => rfl
      exact ⟨.initial, (hsources' _).2 (.inl ⟨rfl, hentry⟩), hblank.upTo n, rfl⟩
    · obtain ⟨m', hm', hloose, hlevel, -⟩ := hv _ m hview fun _ => hfits.2 m hm
      exact ⟨m', (hsources' m').2 (.inr ⟨node, hedge, hm'⟩), hloose, hlevel⟩

/-- A point that sees looser memory than at an earlier visit becomes looser itself. -/
theorem Outcome.looser (hR : a.program.Refers fun path source =>
      path.isVariable = true ∧ source.isVariable = true) (hp : a.program.IsBuilt) (hs : s.Tree a)
    (hout : a.Outcome s q c st target view x n before t)
    (hout' : a.Outcome s q c' st' target' view' x' n' before' t')
    (hx : ∀ m ∈ x.memories, m.Complete) (hx' : ∀ m ∈ x'.memories, m.Complete)
    (hv : Loosens q n view view') : n.Looser n' ∧ n'.level = n.level := by
  obtain ⟨rfl, rfl, rfl⟩ := hout.site.unique hout'.site
  obtain ⟨level, hfits⟩ := hout.fits
  obtain ⟨level', hfits'⟩ := hout'.fits
  obtain ⟨n₀, htaken, hn₀, hrelinks, hn⟩ := hout.relinked hR hs hfits hx
  obtain ⟨n₀', htaken', hn₀', hrelinks', hn'⟩ := hout'.relinked hR hs hfits' hx'
  have hintake := hv.intake hout.site hp hs hout.intake hout'.intake (hn.symm ▸ hfits)
  obtain rfl := hintake.level_eq hfits hfits'
  exact ⟨hrelinks.looser hrelinks' (hn₀'.trans hn₀.symm) (htaken.looserUpTo htaken' hintake),
    hn'.trans hn.symm⟩

theorem Outcome.aliases_eq (hout : a.Outcome s q c st target view x n before t) (i : Index) :
    t.memory.aliases i = n.aliases i := by
  rw [hout.memory]
  unfold committed
  split
  · exact aliases_mapEntries n _ i
  · rfl

theorem Outcome.level_eq (hout : a.Outcome s q c st target view x n before t) :
    t.memory.level = n.level := by
  rw [hout.memory]
  unfold committed
  split
  · rfl
  · rfl

/-- The snapshot of a point comes of a visit that saw nothing looser than what is in view. -/
def Trails (a : Analysis) (s : AnalysisState) (q : Point) (t : Snapshot) : Prop :=
  ∃ c st target view x n before, a.Outcome s q c st target view x n before t ∧
    (∀ m ∈ x.memories, m.Complete) ∧ Loosens q n view s.view

/-- Certain aliases agree in every snapshot, and every snapshot trails. -/
structure Concordant (a : Analysis) (s : AnalysisState) : Prop where
  upheld : ∀ q m, s.view q = some m → Upheld (Agreeing a.config.limits.simplify) m.level m
  trails : ∀ (q : Point) t, s.snapshots[q]? = some t → a.Trails s q t

theorem Concordant.grow (h : a.Concordant s) (hp : a.program.IsBuilt) (hs : s.Tree a)
    (hr : r.Tree a) (hg : s.Grows r) (hsnapshots : r.snapshots = s.snapshots) :
    a.Concordant r where
  upheld := by
    rw [view_congr hsnapshots]
    exact h.upheld
  trails := by
    intro q t ht
    rw [hsnapshots] at ht
    obtain ⟨c, st, target, view, x, n, before, hout, hx, hv⟩ := h.trails q t ht
    refine ⟨c, st, target, view, x, n, before, hout.grow hp hs hr hg, hx, ?_⟩
    rw [view_congr hsnapshots]
    exact hv

/-- What a visit takes in is complete. -/
theorem Concordant.complete_intake (h : a.Concordant s)
    (hx : intake? s.contexts c p st target (s.viewFrom p (a.previous s p)) = some x) :
    ∀ m ∈ x.memories, m.Complete := by
  intro m hm
  rcases mem_intake hx hm with rfl | ⟨u, hu⟩
  · exact complete_initial
  · rcases viewFrom_eq_some hu with hview | ⟨-, -, rfl⟩
    · exact (h.upheld u m hview).toComplete
    · exact complete_initial

/-- Whatever the visited point held before, it is looser now. -/
theorem Concordant.looser_visited (h : a.Concordant s) (hR : a.program.Refers fun path source =>
      path.isVariable = true ∧ source.isVariable = true) (hp : a.program.IsBuilt) (hs : s.Tree a)
    (hout : a.Outcome s p c st target (s.viewFrom p (a.previous s p)) x n before t)
    (hm : s.view p = some m) : m.Looser t.memory ∧ t.memory.level = m.level := by
  obtain ⟨old, hold, rfl⟩ := Option.map_eq_some_iff.1 hm
  obtain ⟨c', st', target', view', x', n', before', hout', hx', hv⟩ := h.trails p old hold
  have hseen : s.viewFrom p (a.previous s p) = s.view := by
    funext u
    exact viewFrom_previous (by rw [hm]; rfl) u
  rw [← hseen] at hv
  obtain ⟨hloose, hlevel⟩ :=
    hout'.looser hR hp hs hout hx' (h.complete_intake hout.intake) hv
  exact ⟨((looser_of_aliases fun i => (hout'.aliases_eq i).symm).trans hloose).trans
    (looser_of_aliases hout.aliases_eq), by rw [hout.level_eq, hlevel, hout'.level_eq]⟩

/-- Where certain aliases are widened, they agreed before. -/
theorem Concordant.agreed_before (h : a.Concordant s) (hR : a.program.Refers fun path source =>
      path.isVariable = true ∧ source.isVariable = true) (hp : a.program.IsBuilt) (hs : s.Tree a)
    (hout : a.Outcome s p c st target (s.viewFrom p (a.previous s p)) x n before t)
    (hn : n.Complete) {i j : Index} (hij : n.MustEdge i j) :
    (Memory.entry? (a.previous s p).memory i).map Entry.anonymous =
      (Memory.entry? (a.previous s p).memory j).map Entry.anonymous := by
  cases hview : s.view p with
  | none =>
    -- on the first visit there is nothing at a variable
    obtain ⟨hi, hj⟩ := hn.isVariable_of_mustEdge hij
    rw [previous_memory a hview, entry?_initial, entry?_initial, if_neg hi.ne_diagnostics,
      if_neg hj.ne_diagnostics]
  | some m =>
    obtain ⟨old, hold, rfl⟩ := Option.map_eq_some_iff.1 hview
    rw [previous_eq hold]
    have hkept := h.upheld p old.memory hview
    have hedge : old.memory.MustEdge i j := by
      apply (h.looser_visited hR hp hs hout hview).1.mustEdge
      exact (looser_of_aliases fun i => (hout.aliases_eq i).symm).mustEdge hij
    have hagree := hkept.kept.agree i j hedge
    obtain ⟨e, he⟩ :=
      Option.isSome_iff_exists.1 (hkept.hasEntries i (isDefined_of_strength? hedge))
    obtain ⟨f, hf⟩ := Option.isSome_iff_exists.1
      (hkept.hasEntries j (isDefined_of_strength? ((hkept.symmetric j i).trans hedge)))
    rw [entryOrUndefined_of_some he, entryOrUndefined_of_some hf] at hagree
    rw [he, hf, Option.map_some, Option.map_some, hagree]

/-- The memory that a visit commits is in agreement. -/
theorem Concordant.upheld_visited (h : a.Concordant s) (hR : a.program.Refers fun path source =>
      path.isVariable = true ∧ source.isVariable = true) (hp : a.program.IsBuilt) (hs : s.Tree a)
    (hI : a.Inherited (Upheld (Agreeing a.config.limits.simplify)))
    (hout : a.Outcome s p c st target (s.viewFrom p (a.previous s p)) x n
      (a.previous s p).memory t) :
    Upheld (Agreeing a.config.limits.simplify) t.memory.level t.memory := by
  have hn := hI.outcome hs hout (hI.intake h.upheld hout.intake)
  rw [hout.level_eq, hout.memory]
  unfold committed
  split
  · exact ⟨hn.toComplete.widen _, hn.level_eq, hn.kept.widen hn.toComplete fun _ _ =>
      h.agreed_before hR hp hs hout hn.toComplete⟩
  · exact hn

/-- What was seen before a visit is in view after it, or something looser is. -/
theorem Loosens.visited (hv : Loosens q n view s.view) (hq : q ≠ p)
    (hold : ∀ m, s.view p = some m → m.Looser t.memory ∧ t.memory.level = m.level) :
    Loosens q n view (a.visited s c p target t).view := by
  intro u m hm hlevel
  obtain ⟨m', hm', hloose, hlevel', hstrict⟩ := hv u m hm hlevel
  rw [view_visited]
  by_cases hu : u = p
  · subst hu
    obtain ⟨hlooser, heq⟩ := hold m' hm'
    exact ⟨t.memory, if_pos rfl, hloose.trans hlooser, heq.trans hlevel',
      fun hne => (hstrict hne).trans hlooser⟩
  · exact ⟨m', (if_neg hu).trans hm', hloose, hlevel', hstrict⟩

/-- What the visited point saw is in view now, but for itself: there is what the visit made. -/
theorem Outcome.loosens (hout : a.Outcome s p c st target (s.viewFrom p (a.previous s p)) x n
      before t)
    (hold : ∀ m, s.view p = some m → m.Looser t.memory ∧ t.memory.level = m.level) :
    Loosens p n (s.viewFrom p (a.previous s p)) (a.visited s c p target t).view := by
  intro u m hm hlevel
  rw [view_visited]
  by_cases hu : u = p
  · have hedge {i j : Index} (hij : m.Edge i j) : t.memory.Edge i j := by
      rcases viewFrom_eq_some hm with hview | ⟨-, -, rfl⟩
      · exact (hold m (hu ▸ hview)).1.edge hij
      · obtain ⟨r, hr⟩ := hij
        rw [aliases_initial] at hr
        cases hr
    have hmust {i j : Index} (hij : t.memory.MustEdge i j) : m.MustEdge i j ∨ n.MustEdge i j :=
      .inr ((looser_of_aliases hout.aliases_eq).mustEdge hij)
    exact ⟨t.memory, if_pos hu, ⟨hedge, hmust⟩, hout.level_eq.trans (hlevel hu).symm,
      fun hne => absurd hu hne⟩
  · rw [AnalysisState.viewFrom_of_ne _ _ hu] at hm
    have hsame : m.Looser m := looser_of_aliases fun _ => rfl
    exact ⟨m, (if_neg hu).trans hm, hsame.upTo n, rfl, fun _ => hsame⟩

theorem Concordant.visited (h : a.Concordant s) (hR : a.program.Refers fun path source =>
      path.isVariable = true ∧ source.isVariable = true) (hp : a.program.IsBuilt) (hs : s.Tree a)
    (hI : a.Inherited (Upheld (Agreeing a.config.limits.simplify)))
    (hout : a.Outcome s p c st target (s.viewFrom p (a.previous s p)) x n
      (a.previous s p).memory t) : a.Concordant (a.visited s c p target t) where
  upheld := by
    intro q m hm
    rw [view_visited] at hm
    split at hm
    · cases hm
      exact h.upheld_visited hR hp hs hI hout
    · exact h.upheld q m hm
  trails := by
    intro q t' ht'
    have hold := fun m (hm : s.view p = some m) => h.looser_visited hR hp hs hout hm
    have htree : (a.visited s c p target t).Tree a := tree_visited hs
    rw [snapshots_visited] at ht'
    split at ht'
    · next hq =>
      subst hq
      cases ht'
      exact ⟨c, st, target, _, x, n, _, hout.grow hp hs htree grows_visited,
        h.complete_intake hout.intake, hout.loosens hold⟩
    · next hq =>
      obtain ⟨c', st', target', view', x', n', before', hout', hx', hv⟩ := h.trails q t' ht'
      exact ⟨c', st', target', view', x', n', before', hout'.grow hp hs htree grows_visited, hx',
        hv.visited hq hold⟩

theorem Concordant.step (h : a.Concordant s) (hR : a.program.Refers fun path source =>
      path.isVariable = true ∧ source.isVariable = true) (hp : a.program.IsBuilt)
    (hinv : a.Invariant s pending)
    (hI : a.Inherited (Upheld (Agreeing a.config.limits.simplify)))
    (hstep : a.step s p = .ok s') : a.Concordant s' := by
  rcases step_ok hp hinv.tree hinv.rests hstep with
    ⟨-, rfl⟩ | ⟨r, c, st, target, hr, hg, hsnapshots, -, -, ⟨-, rfl⟩ | ⟨x, n, t, hout, rfl⟩⟩
  · exact h
  · exact h.grow hp hinv.tree hr hg hsnapshots
  · exact (h.grow hp hinv.tree hr hg hsnapshots).visited hR hp hr hI hout

end Analysis

namespace Memory

/-- Certain aliases stay in agreement on the way from point to point. -/
theorem portable_agreeing (limits : Limits) : Portable limits
    (fun target source => target.isVariable = true ∧ source.isVariable = true) (fun _ => True)
    (Agreeing limits.simplify) where
  toSteady := steady_agreeing limits
  initial := agreeing_initial _
  withLevel h := h.withLevel _
  takenOver hne h := agreeing_takenOver hne h
  close _ h := (h.discard _).withLevel _

end Memory

namespace Sample

/-- A script that makes a reference to `b`, which holds a number, at an unknown key. -/
def referringUnknown : Graph where
  nodes := [⟨0, .assign (.ofVariable "b") (.literal (.integer 5))⟩,
    ⟨1, .assignAlias ((Path.ofVariable "a").member .unknownKey) (.ofVariable "b")⟩, ⟨2, .exit⟩]
  edges := [(0, 1), (1, 2)]
  entry := 0
  exit := 2

/-- A script that writes a field of an object that is not there yet, through a reference. -/
def making : Graph where
  nodes := [⟨0, .assignAlias (.ofVariable "b") (.ofVariable "a")⟩,
    ⟨1, .assign ((Path.ofVariable "b").member (.field "f")) (.literal (.integer 5))⟩, ⟨2, .exit⟩]
  edges := [(0, 1), (1, 2)]
  entry := 0
  exit := 2

/-- The program whose main function has the graph `g`. -/
def script (g : Graph) : Analysis where
  program := Program.withFunction {} ⟨"main", [], g⟩

end Sample

namespace Analysis
open Memory
variable {a : Analysis} {p : Point} {t : Snapshot} {i j : Index}

/-- Where references are made between variables only, certain aliases have the same entry in every
snapshot of a run that succeeds, each under its own name: they differ in the names of the arrays
that they own and of the objects that writes have made, and if there is no such object, in the
arrays only. -/
theorem run_agreeing (hp : a.program.IsBuilt) (hv : a.program.bindsVariables = true)
    {nodes : List Nat} {r : Report} (h : a.run (.ofNodes nodes) = .ok r)
    (ht : r.snapshots[p]? = some t) (hij : t.memory.MustEdge i j) :
    ∃ e f, t.memory.entry? i = some e ∧ t.memory.entry? j = some f ∧
      e.anonymous = f.anonymous ∧
        ((∀ o, .object o ∈ e → o.isMade = false) → e.relocate i j = f) := by
  have hR := Program.refers_of_bindsVariables hv
  have hI := inherited_of_portable (portable_agreeing a.config.limits) hR fun _ => trivial
  have hnone {main : Function} {queued : Worklist} {q : Point} {P : Prop}
      (hq : ((initialState main queued).view q).isSome) : P := by
    rw [view_initialState] at hq
    cases hq
  obtain ⟨s, -, hconcordant, -, -, hsnapshots⟩ :=
    run_ok_of hp (Worklist.consistent_ofNodes nodes) h (K := a.Concordant)
      (fun main _ => ⟨fun q m hm => hnone (by rw [hm]; rfl),
        fun q t ht => hnone (q := q) (by rw [AnalysisState.view_eq_some ht]; rfl)⟩)
      (fun s p s' hinv hK hstep => hK.step hR hp hinv hI hstep)
      (fun s w hs hK => hK.grow hp hs (hs.congr rfl rfl) (AnalysisState.grows_of_eq rfl) rfl)
  rw [hsnapshots] at ht
  obtain ⟨old, hold, rfl⟩ := Option.map_eq_some_iff.1 ht
  have hkept := hconcordant.upheld p old.memory (AnalysisState.view_eq_some hold)
  obtain ⟨e, he⟩ := Option.isSome_iff_exists.1 (hkept.hasEntries i (isDefined_of_strength? hij))
  obtain ⟨f, hf⟩ := Option.isSome_iff_exists.1
    (hkept.hasEntries j (isDefined_of_strength? ((hkept.symmetric j i).trans hij)))
  have hagree := hkept.kept.agree i j hij
  rw [entryOrUndefined_of_some he, entryOrUndefined_of_some hf] at hagree
  exact ⟨e, f, he, hf, hagree, Entry.relocate_eq_of_anonymous (hkept.held i e he)
    (hkept.held j f hf) hagree⟩

set_option maxRecDepth 20000 in
/-- An array that was filled through a reference is the same under both names, but for its owner. -/
theorem run_agreeing_sharing : ∃ r t e f, Sample.sharing.run (.ofNodes []) = .ok r ∧
    r.snapshots[Point.mk .main 3]? = some t ∧ t.memory.MustEdge (.global "a") (.global "b") ∧
      t.memory.entry? (.global "a") = some e ∧ t.memory.entry? (.global "b") = some f ∧
        .array (.global "a") ∈ e ∧ e.relocate (.global "a") (.global "b") = f := by
  have hrun : ((Sample.sharing.run (.ofNodes [])).toOption.bind fun r =>
      (r.snapshots[Point.mk .main 3]?).map fun t =>
        ((t.memory.aliases (.global "a")).strength? (.global "b"),
          t.memory.entry? (.global "a"))) =
      some (some .must, some (.ofValue (.array (.global "a")))) := by
    decide +kernel
  cases hr : Sample.sharing.run (.ofNodes []) with
  | error e =>
    rw [hr] at hrun
    cases hrun
  | ok r =>
    rw [hr] at hrun
    obtain ⟨t, ht, hend⟩ := Option.map_eq_some_iff.1 hrun
    obtain ⟨hmust, hentry⟩ := Prod.mk.inj hend
    obtain ⟨e, f, he, hf, -, hsame⟩ :=
      run_agreeing (p := ⟨.main, 3⟩) Sample.isBuilt_sharing (by decide +kernel) hr ht hmust
    obtain rfl := Option.some.inj (he.symm.trans hentry)
    have hmade : ∀ o, .object o ∈ Entry.ofValue (.array (.global "a")) → o.isMade = false :=
      fun o ho => nomatch Entry.mem_ofValue.1 ho
    exact ⟨r, t, _, f, rfl, ht, hmust, he, hf, Entry.mem_ofValue.2 rfl, hsame hmade⟩

/-- At the end of a script two certain aliases hold different values. -/
def Parted (g : Graph) (i j : Index) : Prop :=
  ∃ r t, (Sample.script g).run (.ofNodes []) = .ok r ∧
    r.snapshots[Point.mk .main g.exit]? = some t ∧ t.memory.MustEdge i j ∧
      (t.memory.entry? i).map (·.relocate i j) ≠ t.memory.entry? j

theorem parted_of_run {g : Graph} (h : (((Sample.script g).run (.ofNodes [])).toOption.bind
    fun r => r.snapshots[Point.mk .main g.exit]?).any (fun t =>
      (t.memory.aliases i).strength? j = some .must ∧
        (t.memory.entry? i).map (·.relocate i j) ≠ t.memory.entry? j) = true) : Parted g i j := by
  cases hr : (Sample.script g).run (.ofNodes []) with
  | error e =>
    rw [hr] at h
    cases h
  | ok r =>
    rw [hr] at h
    obtain ⟨t, ht, hparted⟩ := (Option.any_eq_true _ _).1 h
    obtain ⟨hmust, hne⟩ := of_decide_eq_true hparted
    exact ⟨r, t, hr, ht, hmust, hne⟩

set_option maxRecDepth 20000 in
/-- What is assigned at an unknown key may have been there before or not, so a reference that is
made there is certain while the value is not. A write that goes through a reference makes one
object for each name. -/
theorem run_parted :
    Parted Sample.referringUnknown ((Index.global "a").member .unknownKey) (.global "b") ∧
      Parted Sample.making (.global "a") (.global "b") :=
  ⟨parted_of_run (by decide +kernel), parted_of_run (by decide +kernel)⟩

end Analysis
end ScriptMemory
