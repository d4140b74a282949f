import Peephole.Proofs.Exchanges
import Peephole.Proofs.Flattening
import Peephole.Proofs.SinglePath

/-!
# The optimizer does not get stuck

In a circuit with a line every question that a rule asks has an answer (`Threaded.applies_ok`), so
that the search for a match comes to a result (`Threaded.findMatch_ok`). Where a rule applies to a
stretch of a wire, the gates it removes are there and are different from each other and from the
gate it changes, and so it can be carried out (`Threaded.perform_ok`). If every gate has a target
this remains so, and the check of the circuit succeeds (`Threaded.perform_verified`).
-/

set_option autoImplicit false
set_option relaxedAutoImplicit false

namespace Peephole

namespace GateNode

variable {p : GateNode} {t c w : Nat}

theorem FlipsUnder.touches_iff (h : p.FlipsUnder t c) : p.touches w = true ↔ w = t ∨ w = c := by
  rw [GateNode.touches_iff, guardWires]
  rcases h with ⟨-, htargets, hguards⟩ | ⟨-, htargets, hguards⟩
  · simp [htargets, hguards, or_comm]
  · simp [htargets, hguards]

/-- A controlled not is on the same wires after it has changed direction. -/
theorem FlipsUnder.mem_wires (h : p.FlipsUnder t c) :
    w ∈ p.wires ↔
      w ∈ (Rule.reversed p t c).1 ++ (Rule.reversed p t c).2.map WireGuard.wire := by
  rw [GateNode.mem_wires, h.touches_iff, or_comm, ← h.reversed.touches_iff, GateNode.touches_iff,
    List.mem_append]
  rfl

end GateNode

namespace Circuit

variable {g g' : Circuit} {line : List Nat} {w n a b : Nat} {p : GateNode} {path : Path}
  {rule : Rule}

/-! ### Questions -/

/-- A gate has a node before it and a node after it on each of its wires. -/
theorem Threaded.exists_neighbours_on (h : g.Threaded line) (hon : g.isOn w n = true) :
    (∃ a, g.prevOn n w = .ok a) ∧ ∃ b, g.nextOn n w = .ok b := by
  obtain ⟨wire, hw⟩ := h.wire_of_isOn hon
  obtain ⟨p, hp, -⟩ := isOn_iff.mp hon
  have hmem : n ∈ line.filter (g.isOn w) :=
    List.mem_filter.mpr ⟨h.mem_line_of_gate hp, hon⟩
  obtain ⟨front, back, hsplit⟩ := List.append_of_mem hmem
  have hthread : g.thread line w = (wire.input :: front) ++ n :: (back ++ [wire.output]) := by
    rw [thread_of_some hw, hsplit]
    simp
  constructor
  · obtain ⟨front', a, hfront⟩ :=
      (List.eq_nil_or_concat' (wire.input :: front)).resolve_left (by simp)
    rw [hfront, List.append_assoc] at hthread
    exact ⟨a, h.prevOn_ok hthread⟩
  · obtain ⟨b, back', hback⟩ := List.exists_cons_of_ne_nil (l := back ++ [wire.output]) (by simp)
    rw [hback] at hthread
    exact ⟨b, h.nextOn_ok hthread⟩

theorem Threaded.exists_nextOn (h : g.Threaded line) (hp : g.gate? n = some p)
    (hw : p.touches w = true) : ∃ b, g.nextOn n w = .ok b :=
  (h.exists_neighbours_on (isOn_iff.mpr ⟨p, hp, hw⟩)).2

/-- The state of a wire can be followed through gates. -/
theorem exists_stateAfter {nodes : List Nat} (hnodes : ∀ n ∈ nodes, (g.gate? n).isSome)
    (value : Bool) : ∃ state, Rule.stateAfter g w value nodes = .ok state := by
  induction nodes generalizing value with
  | nil => exact ⟨some value, rfl⟩
  | cons n rest ih =>
    obtain ⟨hn, hrest⟩ := List.forall_mem_cons.mp hnodes
    obtain ⟨p, hp⟩ := Option.isSome_iff_exists.mp hn
    rw [Rule.stateAfter, hp]
    dsimp only
    split
    · split
      · exact ih hrest _
      · exact ih hrest _
      · exact ih hrest _
      · exact ⟨none, rfl⟩
    · exact ⟨none, rfl⟩

theorem Threaded.exists_basisState (h : g.Threaded line) (hp : g.gate? n = some p)
    (hw : p.touches w = true) : ∃ state, Rule.basisState g w n = .ok state := by
  obtain ⟨before, after, hline⟩ := List.append_of_mem (h.mem_line_of_gate hp)
  rw [h.basisState_eq hline (isOn_iff.mpr ⟨p, hp, hw⟩)]
  refine exists_stateAfter (fun m hm ↦ h.gate m ?_) false
  rw [hline]
  exact List.mem_append_left _ (List.mem_of_mem_filter hm)

section Tests

variable (h : g.Threaded line)

include h

theorem Threaded.cancels_ok (gate : StandardGate) (path : Path) :
    ∃ answer, Rule.cancels gate g path = .ok answer := by
  rw [Rule.cancels]
  split
  · rename_i first p second q hwindow
    have hp : g.gate? first = some p := (gateWindow_eq_some.mp hwindow).2.2 (first, p) (by simp)
    split
    · rw [Rule.followsOnAll, hp]
      refine Run.exists_allM fun w hw ↦ ?_
      obtain ⟨m, hm⟩ := h.exists_nextOn hp (GateNode.mem_wires.mp hw)
      exact ⟨_, Run.map_eq_ok.mpr ⟨m, hm, rfl⟩⟩
    · exact ⟨false, rfl⟩
  · exact ⟨false, rfl⟩

theorem Threaded.peeps_ok (path : Path) : ∃ answer, Rule.peeps g path = .ok answer := by
  rw [Rule.peeps]
  split
  · rename_i n p hwindow
    have hp : g.gate? n = some p := (gateWindow_eq_some.mp hwindow).2.2 (n, p) (by simp)
    split
    · rename_i htest
      have hw : p.touches path.wire = true := by
        rw [GateNode.touches, ((Bool.and_eq_true _ _).mp htest).1, Bool.or_true]
      obtain ⟨state, hstate⟩ := h.exists_basisState hp hw
      exact ⟨_, Run.map_eq_ok.mpr ⟨state, hstate, rfl⟩⟩
    · exact ⟨false, rfl⟩
  · exact ⟨false, rfl⟩

theorem Threaded.sandwiches_ok (middle : StandardGate) (path : Path) :
    ∃ answer, Rule.sandwiches middle g path = .ok answer := by
  rw [Rule.sandwiches]
  split
  · rename_i first opening second inner third closing hwindow
    have hgates := (gateWindow_eq_some.mp hwindow).2.2
    split
    · rename_i htest
      simp only [Bool.and_eq_true, GateNode.guardsWithin, List.all_eq_true,
        List.contains_iff_mem] at htest
      refine Run.exists_allM fun c hc ↦ ?_
      obtain ⟨b, hb⟩ := h.exists_nextOn (hgates (first, opening) (by simp))
        (GateNode.touches_of_guard hc)
      obtain ⟨b', hb'⟩ := h.exists_nextOn (hgates (second, inner) (by simp))
        (GateNode.touches_of_guard (htest.2 c hc))
      by_cases hsecond : b = second
      · refine ⟨decide (b' = third), Run.bind_eq_ok.mpr ⟨b, hb, ?_⟩⟩
        rw [if_pos hsecond]
        exact Run.bind_eq_ok.mpr ⟨b', hb', rfl⟩
      · refine ⟨false, Run.bind_eq_ok.mpr ⟨b, hb, ?_⟩⟩
        rw [if_neg hsecond]
        rfl
    · exact ⟨false, rfl⟩
  · exact ⟨false, rfl⟩

theorem Threaded.controlHadamards_ok {c : Nat} (hp : g.gate? n = some p)
    (hc : p.touches c = true) : ∃ pair, Rule.controlHadamards g n c = .ok pair := by
  obtain ⟨⟨a, ha⟩, b, hb⟩ := h.exists_neighbours_on (isOn_iff.mpr ⟨p, hp, hc⟩)
  exact ⟨_, Run.bind_eq_ok.mpr ⟨a, ha, Run.bind_eq_ok.mpr ⟨b, hb, rfl⟩⟩⟩

theorem Threaded.reverses_ok (path : Path) : ∃ answer, Rule.reverses g path = .ok answer := by
  rw [Rule.reverses]
  split
  · rename_i first opening n p third closing hwindow
    have hp : g.gate? n = some p := (gateWindow_eq_some.mp hwindow).2.2 (n, p) (by simp)
    split
    · split
      · exact ⟨false, rfl⟩
      · rename_i c hc
        obtain ⟨-, hflips⟩ := GateNode.controlOf_eq_some.mp hc
        obtain ⟨pair, hpair⟩ := h.controlHadamards_ok hp hflips.touches.2
        exact ⟨_, Run.map_eq_ok.mpr ⟨pair, hpair, rfl⟩⟩
    · exact ⟨false, rfl⟩
  · exact ⟨false, rfl⟩

/-- Every rule can be tried on every path. -/
theorem Threaded.applies_ok (rule : Rule) (path : Path) :
    ∃ answer, rule.applies g path = .ok answer := by
  cases rule with
  | cancel gate => exact h.cancels_ok gate path
  | peep => exact h.peeps_ok path
  | sandwich middle replacement => exact h.sandwiches_ok middle path
  | reverse => exact h.reverses_ok path

/-- The search for a match comes to a result. -/
theorem Threaded.findMatch_ok (rules : List Rule) : ∃ found, findMatch rules g = .ok found := by
  refine Run.exists_findSomeM? fun w hw ↦ ?_
  have hfull := h.full_ok (List.getElem?_eq_getElem (List.mem_range.mp hw))
  rw [matchOn, hfull]
  refine Run.exists_findSomeM? fun path _ ↦ Run.exists_findSomeM? fun rule _ ↦ ?_
  obtain ⟨answer, hanswer⟩ := h.applies_ok rule (path.take rule.depth)
  exact ⟨_, Run.bind_eq_ok.mpr ⟨answer, hanswer, rfl⟩⟩

end Tests

/-! ### Changes -/

/-- Neighbours on a wire come one after the other in the program. -/
theorem Threaded.placeOf_lt (h : g.Threaded line) (hnext : [a, b].IsInfix (g.thread line w))
    (ha : (g.gate? a).isSome) (hb : (g.gate? b).isSome) : g.placeOf a < g.placeOf b := by
  obtain ⟨before, middle, after, hline, -⟩ := h.follows hnext ha hb
  have hsorted := h.sorted
  rw [hline, List.pairwise_append, List.pairwise_cons] at hsorted
  exact hsorted.2.1.1 b (by simp)

/-- Different gates can be removed one after the other. -/
theorem Threaded.exists_removed (h : g.Threaded line) {ns : List Nat} (hnodup : ns.Nodup)
    (hgates : ∀ n ∈ ns, (g.gate? n).isSome) : ∃ t, Removed ns g t := by
  induction ns generalizing g line with
  | nil => exact ⟨g, rfl⟩
  | cons n rest ih =>
    obtain ⟨hn, hrest⟩ := List.nodup_cons.mp hnodup
    obtain ⟨p, hp⟩ := Option.isSome_iff_exists.mp (hgates n List.mem_cons_self)
    obtain ⟨edges, hrun, hthreaded⟩ := h.remove_ok hp
    have hrevises := (h.of_remove hrun).2
    obtain ⟨t, ht⟩ := ih hthreaded hrest fun m hm ↦ by
      have hne : m ≠ n := fun heq ↦ hn (heq ▸ hm)
      rw [hrevises.gate?, if_neg hne]
      exact hgates m (List.mem_cons_of_mem n hm)
    exact ⟨t, p, _, hrun, ht⟩

/-- A gate that is not removed is still there when others have been. -/
theorem Threaded.exists_removed_keeping (h : g.Threaded line) {ns : List Nat} (hnodup : ns.Nodup)
    (hgates : ∀ n ∈ ns, (g.gate? n).isSome) (hp : g.gate? n = some p) (hn : n ∉ ns) :
    ∃ t, Removed ns g t ∧ (∃ line', t.Threaded line') ∧ t.gate? n = some p := by
  obtain ⟨t, hremoved⟩ := h.exists_removed hnodup hgates
  obtain ⟨hthreaded, -, -, hgate, -⟩ := h.of_removed hremoved
  refine ⟨t, hremoved, ⟨_, hthreaded⟩, ?_⟩
  rw [hgate, if_neg hn, hp]

/-- Hadamards on different wires are different gates. -/
theorem IsHadamardOn.ne {v : Nat} (ha : g.IsHadamardOn a v) (hb : g.IsHadamardOn b w)
    (hne : w ≠ v) : a ≠ b := by
  rintro rfl
  obtain ⟨p, hp, hplain⟩ := ha
  obtain ⟨q, hq, hplain'⟩ := hb
  rw [hp, Option.some.injEq] at hq
  subst hq
  have htargets := (GateNode.isPlain_iff.mp hplain).2.2
  rw [(GateNode.isPlain_iff.mp hplain').2.2] at htargets
  exact hne (List.singleton_inj.mp htargets)

/-- The four Hadamards around a controlled not are different gates. -/
theorem Threaded.nodup_hadamards (h : g.Threaded line) {c first third before after : Nat}
    (hn : (g.gate? n).isSome) (hne : c ≠ w) (hfirst : g.IsHadamardOn first w)
    (hthird : g.IsHadamardOn third w) (hbefore : g.IsHadamardOn before c)
    (hafter : g.IsHadamardOn after c) (hstretch : [first, n, third].IsInfix (g.thread line w))
    (hprev : [before, n].IsInfix (g.thread line c)) (hnext : [n, after].IsInfix (g.thread line c)) :
    [first, third, before, after].Nodup ∧ n ∉ [first, third, before, after] := by
  obtain ⟨hpair, hpair'⟩ := h.isInfix_triple.mp hstretch
  have hlt := h.placeOf_lt hpair hfirst.isSome hn
  have hlt' := h.placeOf_lt hpair' hn hthird.isSome
  have hlt₁ := h.placeOf_lt hprev hbefore.isSome hn
  have hlt₂ := h.placeOf_lt hnext hn hafter.isSome
  have hwires := hfirst.ne hbefore hne
  have hwires₁ := hfirst.ne hafter hne
  have hwires₂ := hthird.ne hbefore hne
  have hwires₃ := hthird.ne hafter hne
  grind

/-- A rule that applies to a stretch of a wire can be carried out there. -/
theorem Threaded.perform_ok (h : g.Threaded line) (happlies : rule.applies g path = .ok true)
    (hstretch : path.window.IsInfix (g.thread line path.wire)) :
    ∃ t, (rule.perform path).run g = .ok () t := by
  have hnodup : path.window.Nodup := hstretch.sublist.nodup (h.nodup_thread _)
  cases rule with
  | cancel gate =>
    obtain ⟨first, p, second, q, hwindow, hp, hq, -⟩ := cancels_eq_true.mp happlies
    rw [hwindow] at hnodup
    obtain ⟨t, hremoved⟩ := h.exists_removed hnodup (by simp [hp, hq])
    exact ⟨t, (performCancel_eq_ok hwindow).mpr hremoved⟩
  | peep =>
    obtain ⟨n, p, value, hwindow, hp, hguard, -, hstate⟩ := peeps_eq_true.mp happlies
    obtain rfl := last_of_window hwindow
    simp only [Rule.perform, performPeep_eq_ok hp hstate]
    split
    · obtain ⟨edges, hrun, -⟩ := h.removeGuards_ok hp hguard
      exact ⟨_, hrun⟩
    · obtain ⟨edges, hrun, -⟩ := h.remove_ok hp
      exact ⟨_, p, hrun⟩
  | sandwich middle replacement =>
    obtain ⟨first, second, third, opening, inner, closing, hs⟩ := sandwiches_eq_true.mp happlies
    rw [hs.window] at hnodup
    have hgates : ∀ n ∈ [first, third], (g.gate? n).isSome := by
      simp [hs.opening_at, hs.closing_at]
    obtain ⟨t, hremoved, ⟨line', ht⟩, hinner⟩ :=
      h.exists_removed_keeping (by grind) hgates hs.inner_at (by grind)
    exact ⟨_, (performSandwich_eq_ok hs.window).mpr ⟨t, hremoved, (ht.setGate_ok hinner _).1⟩⟩
  | reverse =>
    obtain ⟨first, n, p, third, c, before, after, hwindow, hn, hfirst, hthird, hc, hhadamards⟩ :=
      reverses_eq_true.mp happlies
    obtain ⟨hprev, hnext, hbefore, hafter⟩ := controlHadamards_eq_some.mp hhadamards
    obtain ⟨hne, hflips⟩ := GateNode.controlOf_eq_some.mp hc
    have hsome : (g.gate? n).isSome := by rw [hn]; rfl
    obtain ⟨hdistinct, hnotin⟩ := h.nodup_hadamards hsome hne hfirst hthird hbefore hafter
      (hwindow ▸ hstretch) (h.prevOn_eq_ok.mp hprev) (h.nextOn_eq_ok.mp hnext)
    have hgates : ∀ m ∈ [first, third, before, after], (g.gate? m).isSome := by
      simp [hfirst.isSome, hthird.isSome, hbefore.isSome, hafter.isSome]
    obtain ⟨t, hremoved, ⟨line', ht⟩, hp⟩ := h.exists_removed_keeping hdistinct hgates hn hnotin
    have hretarget := (ht.retarget_ok hp fun w ↦ hflips.mem_wires).1
    exact ⟨_, (performReverse_eq_ok hwindow hn hc hhadamards).mpr ⟨t, hremoved, hretarget⟩⟩

/-! ### Runs -/

/-- A circuit in which every gate has a target. -/
def Targeted (g : Circuit) : Prop :=
  ∀ p ∈ g.gates, p.targets ≠ []

end Circuit

/-- What comes in a trade has targets if what goes has. -/
theorem Rule.Trades.targets_ne_nil {rule : Rule} {old new : List GateNode}
    (h : rule.Trades old new) (hold : ∀ p ∈ old, p.targets ≠ []) : ∀ q ∈ new, q.targets ≠ [] := by
  cases rule with
  | cancel gate =>
    obtain ⟨-, rfl⟩ := h
    exact fun q hq ↦ absurd hq List.not_mem_nil
  | peep =>
    obtain ⟨p, w, -, rfl, rfl | rfl⟩ := h
    · simpa [GateNode.dropGuards] using hold
    · exact fun q hq ↦ absurd hq List.not_mem_nil
  | sandwich middle replacement =>
    obtain ⟨hadamards, p, -, rfl, rfl⟩ := h
    simpa using hold p (by simp)
  | reverse =>
    obtain ⟨hadamards, p, t, c, -, rfl, hflips, rfl⟩ := h
    intro q hq
    rw [List.mem_singleton.mp hq]
    rcases hflips.reversed with ⟨-, htargets, -⟩ | ⟨-, htargets, -⟩
    · rw [htargets]
      exact List.cons_ne_nil _ _
    · rw [htargets]
      exact List.cons_ne_nil _ _

namespace Circuit

variable {build : Build} {g g' : Circuit} {line : List Nat} {path : Path} {rule : Rule}
  {rules used : List Rule}

theorem Rewrites.targeted (h : Rewrites rule g g') (ht : g.Targeted) : g'.Targeted := by
  obtain ⟨old, new, ⟨rest, hbefore, hafter⟩, htrades⟩ := h.traded
  intro q hq
  rcases List.mem_append.mp (hafter.mem_iff.mp hq) with hq | hq
  · refine htrades.targets_ne_nil (fun p hp ↦ ht p ?_) q hq
    exact hbefore.mem_iff.mpr (List.mem_append_left rest hp)
  · exact ht q (hbefore.mem_iff.mpr (List.mem_append_right old hq))

theorem Threaded.verify_ok (h : g.Threaded line) (ht : g.Targeted) : g.verify = .ok () :=
  h.verify_iff.mpr fun n p hp ↦ .inl (ht p (mem_gates.mpr ⟨n, hp⟩))

/-- A rule that applies to a stretch of a wire can be carried out there, and the circuit passes its
check afterwards. -/
theorem Threaded.perform_verified (h : g.Threaded line) (ht : g.Targeted)
    (happlies : rule.applies g path = .ok true)
    (hstretch : path.window.IsInfix (g.thread line path.wire)) :
    ∃ t, (rule.perform path).run g = .ok () t ∧ t.verify = .ok () := by
  obtain ⟨t, hrun⟩ := h.perform_ok happlies hstretch
  have hrewrites := h.rewrites_of_perform happlies hrun
  obtain ⟨line', hthreaded⟩ := hrewrites.threaded
  exact ⟨t, hrun, hthreaded.verify_ok (hrewrites.targeted ht)⟩

theorem Reduces.targeted (hreduces : g.Reduces build rules used g') (h : g.Threaded line)
    (ht : g.Targeted) : g'.Targeted := by
  induction hreduces generalizing line with
  | refl g => exact ht
  | step hfound hperform hrest ih =>
    obtain ⟨-, hrewrites⟩ := h.rewrites_of_findMatch hfound hperform
    obtain ⟨line', hthreaded⟩ := hrewrites.threaded
    exact ih hthreaded (hrewrites.targeted ht)

/-- The loop comes to an end, whatever the cap, and to the same one in every build. -/
theorem Threaded.simplifyLoop_ok (h : g.Threaded line) (ht : g.Targeted) (rules : List Rule)
    (cap : Nat) (stats : Statistics) :
    ∃ stats' g', ∀ build, (simplifyLoop build rules cap stats).run g = .ok stats' g' := by
  induction cap generalizing g line stats with
  | zero =>
    obtain ⟨found, hfound⟩ := h.findMatch_ok rules
    cases found with
    | none => exact ⟨stats, g, fun _ ↦ simplifyLoop_of_none hfound⟩
    | some m => exact ⟨_, g, fun _ ↦ simplifyLoop_zero hfound⟩
  | succ cap ih =>
    obtain ⟨found, hfound⟩ := h.findMatch_ok rules
    cases found with
    | none => exact ⟨stats, g, fun _ ↦ simplifyLoop_of_none hfound⟩
    | some m =>
      obtain ⟨-, happlies, hstretch⟩ := h.findMatch_some hfound
      obtain ⟨t, hrun, hverify⟩ := h.perform_verified ht happlies hstretch
      have hrewrites := h.rewrites_of_perform happlies hrun
      obtain ⟨line', hthreaded⟩ := hrewrites.threaded
      obtain ⟨stats', g', hloop⟩ := ih hthreaded (hrewrites.targeted ht) (stats.record m.rule)
      refine ⟨stats', g', fun build ↦ ?_⟩
      rw [simplifyLoop_succ hfound (Match.perform_ok hrun hverify build), hloop build]

theorem Threaded.optimize_ok (h : g.Threaded line) (ht : g.Targeted) {p : Program}
    (hbuilt : ofProgram p = .ok g) {settings : Settings} (hvalid : settings.validate = .ok ()) :
    ∃ q stats, ∀ build, optimize build settings p = .ok (q, stats) := by
  obtain ⟨stats, g', hloop⟩ := h.simplifyLoop_ok ht settings.rules settings.maxIterations
    (.start g.gateCount)
  obtain ⟨used, hreduces, -⟩ := reduces_of_simplifyLoop (hloop .release)
  obtain ⟨⟨line', h'⟩, -⟩ := hreduces.threaded h
  have hsimplify (build : Build) := Program.simplify_eq_ok.mpr
    ⟨g, g', hbuilt, simplify_eq_ok.mpr ⟨stats, hloop build, rfl⟩, h'.toProgram_ok⟩
  exact ⟨_, _, fun build ↦ optimize_eq_ok.mpr ⟨hvalid, hsimplify build⟩⟩

/-- The circuit of a program whose applications have targets. -/
theorem Threaded.targeted (h : g.Threaded line) {p : Program}
    (hlisted : (g.listed line).map Prod.snd = p.applications)
    (htargets : ∀ a ∈ p.applications, a.targets ≠ []) : g.Targeted := by
  intro q hq
  obtain ⟨n, hn⟩ := mem_gates.mp hq
  have hne := htargets _ (hlisted ▸ h.applied_mem_listed hn)
  exact fun hnil ↦ hne (by rw [applied, hnil, List.map_nil])

end Circuit

/-- The optimizer does not fail on a program that has a circuit and whose applications have targets,
and its builds give the same result. At each point that a run can reach, every wire can be walked,
every rule can be tried on every window, every rule that applies can be carried out and leaves a
circuit that passes its check, and the circuit has a program. -/
theorem optimize_never_fails {settings : Settings} {p : Program} {g : Circuit}
    (hbuilt : Circuit.ofProgram p = .ok g) (htargets : ∀ a ∈ p.applications, a.targets ≠ [])
    (hvalid : settings.validate = .ok ()) :
    (∃ q stats, ∀ build, optimize build settings p = .ok (q, stats)) ∧
    ∀ build used s, g.Reduces build settings.rules used s →
      (∀ w < s.wires.length, ∃ path, Path.full s w = .ok path ∧
        ∀ (r : Rule), ∀ window ∈ path.stretches r.depth, ∃ answer, r.applies s window = .ok answer ∧
          (answer = true → ∃ t, (r.perform window).run s = .ok () t ∧ t.verify = .ok ())) ∧
      (∃ found, findMatch settings.rules s = .ok found) ∧ s.verify = .ok () ∧
      ∃ q, s.toProgram = .ok q := by
  obtain ⟨line, hthreaded, -, -, hlisted⟩ := Circuit.ofProgram_ok hbuilt
  have htargeted := hthreaded.targeted hlisted htargets
  refine ⟨hthreaded.optimize_ok htargeted hbuilt hvalid, fun build used s hreduces ↦ ?_⟩
  obtain ⟨⟨line', hs⟩, -⟩ := hreduces.threaded hthreaded
  have hst := hreduces.targeted hthreaded htargeted
  refine ⟨fun w hw ↦ ?_, hs.findMatch_ok _, hs.verify_ok hst, _, hs.toProgram_ok⟩
  have hfull := hs.full_ok (List.getElem?_eq_getElem hw)
  refine ⟨_, hfull, fun r window hwindow ↦ ?_⟩
  obtain ⟨answer, happlies⟩ := hs.applies_ok r window
  refine ⟨answer, happlies, ?_⟩
  rintro rfl
  exact hs.perform_verified hst happlies (hs.window_isInfix hfull hw hwindow)

/-- A gate twice on one qubit and a gate that guards itself do no harm to the rules around them. -/
theorem optimize_never_fails_odd_gates :
    let p : Program := [.declare ⟨"q", some 2⟩, .apply ⟨.standard .h, [⟨"q", some 0⟩], []⟩,
      .apply ⟨.standard .h, [⟨"q", some 1⟩], []⟩,
      .apply ⟨.standard .cx, [⟨"q", some 0⟩, ⟨"q", some 1⟩], []⟩,
      .apply ⟨.standard .h, [⟨"q", some 0⟩], []⟩, .apply ⟨.standard .h, [⟨"q", some 1⟩], []⟩,
      .apply ⟨.standard .swap, [⟨"q", some 1⟩, ⟨"q", some 1⟩], []⟩,
      .apply ⟨.standard .x, [⟨"q", some 0⟩], [⟨⟨"q", some 0⟩, true⟩]⟩]
    let settings : Settings := ⟨.all, some 3, 1⟩
    ∃ g, Circuit.ofProgram p = .ok g ∧ (∀ a ∈ p.applications, a.targets ≠ []) ∧
      settings.validate = .ok () ∧
      (∃ q stats, ∀ build, optimize build settings p = .ok (q, stats)) ∧
      ∀ build used s, g.Reduces build settings.rules used s →
        (∃ found, findMatch settings.rules s = .ok found) ∧ s.verify = .ok () ∧
        ∃ q, s.toProgram = .ok q := by
  intro p settings
  have hcount : (Circuit.ofProgram p).toOption.map Circuit.gateCount = some 7 := by decide +kernel
  obtain ⟨g, hbuilt, -⟩ := Run.toOption_map_eq_some.mp hcount
  have htargets : ∀ a ∈ p.applications, a.targets ≠ [] := by decide
  have hvalid : settings.validate = .ok () := rfl
  obtain ⟨hresult, hruns⟩ := optimize_never_fails hbuilt htargets hvalid
  exact ⟨g, hbuilt, htargets, hvalid, hresult,
    fun build used s hreduces ↦ (hruns build used s hreduces).2⟩

end Peephole
