import Peephole.Proofs.NormalForm
import Peephole.Proofs.Preservation
import Peephole.Proofs.Validity

/-!
# Programs that are read can be optimized

Names are resolved twice: when a text is read, against the declarations before, and when a circuit
is built, against its wires. A program that obeys the static rules passes both
(`Program.Valid.exists_ofProgram`). The optimizer does not fail on it, and since no rule changes how
many targets a gate takes, its result obeys the static rules again (`Simplification.valid`).
-/

set_option autoImplicit false
set_option relaxedAutoImplicit false

namespace Peephole

/-! ### Circuits of valid programs -/

namespace Program

variable {scope : List Declaration} {p : Program}

theorem Valid.scoped (h : Valid scope p) : Scoped scope p := by
  induction p generalizing scope with
  | nil => trivial
  | cons i rest ih =>
    cases i with
    | declare d =>
      refine ⟨fun hmem ↦ ?_, ih h.2⟩
      obtain ⟨d', hd', hname⟩ := List.mem_map.mp hmem
      exact h.1.fresh d' hd' hname
    | apply a =>
      refine ⟨fun x hx ↦ Qubit.resolves_iff.mp ?_, ih h.2⟩
      rcases hx with hx | hx
      · exact h.1.targets x hx
      · obtain ⟨c, hc, rfl⟩ := List.mem_map.mp hx
        exact h.1.guards c hc

theorem Valid.exists_ofProgram (h : Valid [] p) : ∃ g, Circuit.ofProgram p = .ok g := by
  obtain ⟨g, hg⟩ := Circuit.Threaded.empty.exists_run .empty h.scoped
  exact ⟨g, by rw [Circuit.ofProgram, hg]⟩

/-- What the rules say about a program whose declarations all come first. -/
theorem valid_flat {ds : List Declaration} {as : List Application} :
    Valid scope (ds.map .declare ++ as.map .apply) ↔
      Valid scope (ds.map .declare) ∧ ∀ a ∈ as, a.Valid (scope ++ ds) := by
  have hdeclarations : declarations (ds.map .declare) = ds := by
    rw [declarations, List.filterMap_map]
    exact List.filterMap_some
  have happlications {scope : List Declaration} :
      Valid scope (as.map .apply) ↔ ∀ a ∈ as, a.Valid scope := by
    induction as with
    | nil => simp [Valid]
    | cons a rest ih => rw [List.map_cons, Valid, ih, List.forall_mem_cons]
  rw [valid_append, hdeclarations, happlications]

/-- The declarations of a valid program are valid, wherever they stand. -/
theorem Valid.declarations (h : Valid scope p) : Valid scope (p.declarations.map .declare) := by
  induction p generalizing scope with
  | nil => trivial
  | cons i rest ih =>
    cases i with
    | declare d => exact ⟨h.1, ih h.2⟩
    | apply a => exact ih h.2

theorem Valid.takes (h : Valid scope p) : ∀ a ∈ p.applications, a.gate.Takes a.targets.length := by
  induction p generalizing scope with
  | nil => simp [applications]
  | cons i rest ih =>
    cases i with
    | declare d => exact ih h.2
    | apply a =>
      rw [applications_apply, List.forall_mem_cons]
      exact ⟨h.1.takes, ih h.2⟩

end Program

namespace Circuit

variable {g g' t : Circuit} {line ns : List Nat} {n : Nat} {p : GateNode} {rule : Rule}
  {path : Path}

theorem Declared.length_wires (hd : g.Declared) :
    g.wires.length = (g.declarations.map Declaration.width).sum := by
  have hwidth (d : Declaration) : d.qubits.length = d.width := by
    obtain ⟨name, size⟩ := d
    cases size <;> simp [Declaration.qubits, Declaration.width]
  rw [← List.length_map (f := Wire.qubit), hd.qubits, List.length_flatMap]
  exact congrArg List.sum (List.map_congr_left fun d _ ↦ hwidth d)

end Circuit

/-! ### Rules keep the number of targets -/

/-- A gate with targets, as many as it takes. -/
def GateNode.Proper (p : GateNode) : Prop :=
  p.targets ≠ [] ∧ p.gate.Takes p.targets.length

theorem GateNode.FlipsUnder.proper {p : GateNode} {v w : Nat} (h : p.FlipsUnder v w) :
    p.Proper := by
  rcases h with ⟨hgate, htargets, -⟩ | ⟨hgate, htargets, -⟩
  · rw [Proper, htargets, hgate]
    exact ⟨List.cons_ne_nil _ _, rfl⟩
  · rw [Proper, htargets, hgate]
    exact ⟨List.cons_ne_nil _ _, rfl⟩

namespace Circuit

variable {build : Build} {g g' t : Circuit} {line ns : List Nat} {n : Nat} {p : GateNode}
  {rule : Rule} {path : Path}

/-- A circuit whose gates have as many targets as they take. -/
def Proper (g : Circuit) : Prop :=
  ∀ n p, g.gate? n = some p → p.Proper

theorem Proper.of_removed (hg : g.Proper) (h : g.Threaded line) (hremoved : Removed ns g g') :
    g'.Proper := by
  intro m r hr
  obtain ⟨-, -, -, hgate, -⟩ := h.of_removed hremoved
  rw [hgate] at hr
  split at hr
  · cases hr
  · exact hg m r hr

theorem Proper.of_revises (hg : g.Proper) {q : Option GateNode} (hrevises : g.Revises g' n p q)
    (hq : ∀ r, q = some r → r.Proper) : g'.Proper := by
  intro m r hr
  rw [hrevises.gate?] at hr
  split at hr
  · exact hq r hr
  · exact hg m r hr

/-- A rule that is carried out where it applies leaves gates with as many targets as they take. -/
theorem Proper.of_perform (hg : g.Proper) (h : g.Threaded line) (hsound : rule.IsSound)
    (happlies : rule.applies g path = .ok true) (hrun : (rule.perform path).run g = .ok () g') :
    g'.Proper := by
  cases rule with
  | cancel gate =>
    obtain ⟨first, p, second, q, hwindow, -⟩ := cancels_eq_true.mp happlies
    exact hg.of_removed h ((performCancel_eq_ok hwindow).mp hrun)
  | peep =>
    obtain ⟨n, p, value, hwindow, hp, -, -, hstate⟩ := peeps_eq_true.mp happlies
    obtain rfl := last_of_window hwindow
    rw [Rule.perform, performPeep_eq_ok hp hstate] at hrun
    split_ifs at hrun
    · obtain ⟨q, -, -, hrevises⟩ := h.of_removeGuards hrun
      refine hg.of_revises hrevises fun r hr ↦ ?_
      cases hr
      exact hg _ q hrevises.old
    · obtain ⟨q, hremove⟩ := hrun
      refine hg.of_revises (h.of_remove hremove).2 fun r hr ↦ ?_
      cases hr
  | sandwich middle replacement =>
    obtain ⟨first, second, third, opening, inner, closing, hs⟩ := sandwiches_eq_true.mp happlies
    obtain ⟨t, hremoved, hset⟩ := (performSandwich_eq_ok hs.window).mp hrun
    obtain ⟨p, -, hrevises⟩ := (h.of_removed hremoved).1.of_setGate hset
    refine (hg.of_removed h hremoved).of_revises hrevises fun r hr ↦ ?_
    cases hr
    have hinner : p = inner :=
      Option.some.inj ((h.of_removed_of_revises hremoved hrevises).2.symm.trans hs.inner_at)
    rw [GateNode.Proper, hinner, hs.inner_target]
    refine ⟨List.cons_ne_nil _ _, ?_⟩
    rcases hsound with ⟨-, rfl⟩ | ⟨-, rfl⟩ <;> rfl
  | reverse =>
    obtain ⟨first, n, p, third, c, before, after, hwindow, hn, -, -, hc, hhadamards⟩ :=
      reverses_eq_true.mp happlies
    obtain ⟨t, hremoved, hretarget⟩ := (performReverse_eq_ok hwindow hn hc hhadamards).mp hrun
    obtain ⟨q, -, -, hrevises⟩ := (h.of_removed hremoved).1.of_retarget hretarget
    refine (hg.of_removed h hremoved).of_revises hrevises fun r hr ↦ ?_
    cases hr
    have hq : q = p :=
      Option.some.inj ((h.of_removed_of_revises hremoved hrevises).2.symm.trans hn)
    rw [hq]
    exact (GateNode.controlOf_eq_some.mp hc).2.reversed.proper

theorem Proper.of_reduces {rules used : List Rule} (hg : g.Proper) (h : g.Threaded line)
    (hsound : ∀ r ∈ rules, r.IsSound) (hreduces : g.Reduces build rules used g') : g'.Proper := by
  induction hreduces generalizing line with
  | refl g => exact hg
  | @step g t _ m used hfound hperform _ ih =>
    obtain ⟨hrule, happlies, -⟩ := h.findMatch_some hfound
    obtain ⟨-, hrewrites⟩ := h.rewrites_of_findMatch hfound hperform
    obtain ⟨line', ht⟩ := hrewrites.threaded
    have hrun := Match.perform_rule hperform
    exact ih (hg.of_perform h (hsound _ hrule) happlies hrun) ht

/-- The circuit of a valid program. -/
theorem Threaded.proper (h : g.Threaded line) {program : Program} (hp : program.Valid [])
    (hlisted : (g.listed line).map Prod.snd = program.applications) : g.Proper := by
  intro n p hn
  have hmem := hlisted ▸ h.applied_mem_listed hn
  have htargets := hp.targets_ne_nil _ hmem
  have htakes := hp.takes _ hmem
  rw [applied, List.length_map] at htakes
  exact ⟨fun hnil ↦ htargets (by rw [applied, hnil, List.map_nil]), htakes⟩

/-- The qubits on the wires of a circuit are declared. -/
theorem Declared.resolves (hd : g.Declared) {w : Nat} (hw : w < g.wires.length) :
    (g.qubitAt w).Resolves g.declarations := by
  have hwire := List.getElem?_eq_getElem hw
  rw [Qubit.resolves_iff, ← hd.qubits, qubitAt_of_some hwire]
  exact List.mem_map_of_mem (List.mem_of_getElem? hwire)

theorem Threaded.valid_applied (h : g.Threaded line) (hd : g.Declared) (hg : g.Proper)
    (hn : g.gate? n = some p) : (g.applied p).Valid g.declarations where
  targets_ne_nil := by
    rw [applied, ne_eq, List.map_eq_nil_iff]
    exact (hg n p hn).1
  takes := by
    rw [applied, List.length_map]
    exact (hg n p hn).2
  targets q hq := by
    obtain ⟨w, hw, rfl⟩ := touches_applied.mp (.inl hq)
    exact hd.resolves (h.carries hn w hw)
  guards c hc := by
    obtain ⟨w, hw, hqubit⟩ := touches_applied.mp (.inr (List.mem_map_of_mem hc))
    rw [← hqubit]
    exact hd.resolves (h.carries hn w hw)

end Circuit

/-! ### Results of the optimizer -/

/-- The program that a run leaves obeys the static rules if the first one did. -/
theorem Simplification.valid {build : Build} {rules used : List Rule} {cap : Nat} {p q : Program}
    {g g' : Circuit} {stats : Statistics} (h : Simplification build rules cap p g used g' q stats)
    (hsound : ∀ r ∈ rules, r.IsSound) (hp : p.Valid []) : q.Valid [] := by
  obtain ⟨line, hthreaded, hreachable, hdeclarations, hlisted⟩ := Circuit.ofProgram_ok h.built
  obtain ⟨-, -, hdeclared⟩ := hreachable.threaded
  obtain ⟨⟨line', hthreaded'⟩, hwires, hsame, -⟩ := h.reduces.threaded hthreaded
  have hproper := (hthreaded.proper hp hlisted).of_reduces hthreaded hsound h.reduces
  have hdeclared' := hdeclared.congr hwires hsame
  have hflat := h.flattened
  rw [hthreaded'.toProgram_flat, Except.ok.injEq] at hflat
  rw [← hflat, Program.valid_flat, hsame, hdeclarations]
  refine ⟨hp.declarations, (Circuit.forall_mem_flat hthreaded'.gate).mpr fun n _ r hr ↦ ?_⟩
  rw [List.nil_append, ← hdeclarations, ← hsame]
  exact hthreaded'.valid_applied hdeclared' hproper hr

/-- The optimizer has a result for every valid program, the same in every build. -/
theorem Program.Valid.exists_optimize {p : Program} (h : p.Valid []) {settings : Settings}
    (hsettings : settings.validate = .ok ()) :
    ∃ q stats, ∀ build, optimize build settings p = .ok (q, stats) := by
  obtain ⟨g, hbuilt⟩ := h.exists_ofProgram
  obtain ⟨line, hthreaded, -, -, hlisted⟩ := Circuit.ofProgram_ok hbuilt
  exact hthreaded.optimize_ok (hthreaded.targeted hlisted h.targets_ne_nil) hbuilt hsettings

theorem Program.Valid.of_optimize {build : Build} {p q : Program} (h : p.Valid [])
    {settings : Settings} {stats : Statistics}
    (hresult : optimize build settings p = .ok (q, stats)) : q.Valid [] := by
  obtain ⟨-, hsimplify⟩ := optimize_eq_ok.mp hresult
  obtain ⟨g, used, g', hsimplification⟩ := Program.exists_simplification hsimplify
  exact hsimplification.valid (fun r hr ↦ Settings.isSound_of_mem hr) h

/-- A program that is read has a circuit with a wire for every declared qubit and a gate for every
application. The circuit passes its check, and the optimizer turns the program into one that obeys
the static rules as well. -/
theorem parsed_optimizable {source : String} {p : Program} (h : Source.parse source = .ok p) :
    (∃ g, Circuit.ofProgram p = .ok g ∧
      g.wires.length = (p.declarations.map Declaration.width).sum ∧ g.gateCount = p.gateCount ∧
      g.verify = .ok ()) ∧
    p.Valid [] ∧ (∀ a ∈ p.applications, a.targets ≠ []) ∧
    ∀ settings : Settings, settings.validate = .ok () →
      ∃ q stats, (∀ build, optimize build settings p = .ok (q, stats)) ∧ q.Valid [] := by
  have hvalid := Source.valid_of_parse h
  obtain ⟨g, hbuilt⟩ := hvalid.exists_ofProgram
  obtain ⟨line, hthreaded, hreachable, hdeclarations, hlisted⟩ := Circuit.ofProgram_ok hbuilt
  obtain ⟨-, -, hdeclared⟩ := hreachable.threaded
  have htargeted := hthreaded.targeted hlisted hvalid.targets_ne_nil
  refine ⟨⟨g, hbuilt, ?_, ?_, hthreaded.verify_ok htargeted⟩, hvalid, hvalid.targets_ne_nil, ?_⟩
  · rw [hdeclared.length_wires, hdeclarations]
  · exact hthreaded.gateCount_eq_of_listed hlisted.symm
  · intro settings hsettings
    obtain ⟨q, stats, hresult⟩ := hvalid.exists_optimize hsettings
    exact ⟨q, stats, hresult, hvalid.of_optimize (hresult .release)⟩

/-- A register is declared after the first gate, a block guards a gate that is guarded already, and
the optimizer reverses the direction of a controlled not. -/
theorem parsed_optimizable_reversed :
    let source := "qubit[2] q; h q[0]; h q[1]; cx q[0], q[1]; h q[0]; h q[1]; " ++
      "qubit a; qif a do negctrl @ my(-1, pi) q[0], q[1]; end"
    let settings : Settings := ⟨⟨true, false, true, true⟩, none, 1⟩
    ∃ p, Source.parse source = .ok p ∧ p.gateCount = 6 ∧ settings.validate = .ok () ∧
      (∃ g, Circuit.ofProgram p = .ok g ∧ g.wires.length = 3 ∧ g.gateCount = 6 ∧
        g.verify = .ok ()) ∧
      ∃ q stats, (∀ build, optimize build settings p = .ok (q, stats)) ∧ q.Valid [] := by
  intro source settings
  have hread : (Source.parse source).toOption.map (fun p ↦
      ((p.declarations.map Declaration.width).sum, p.gateCount)) = some (3, 6) := by decide +kernel
  obtain ⟨p, hp, hpair⟩ := Run.toOption_map_eq_some.mp hread
  obtain ⟨hwidth, hcount⟩ := Prod.mk.inj hpair
  have hvalid : settings.validate = .ok () := rfl
  obtain ⟨⟨g, hg, hwires, hgates, hverify⟩, -, -, hruns⟩ := parsed_optimizable hp
  exact ⟨p, hp, hcount, hvalid, ⟨g, hg, hwires.trans hwidth, hgates.trans hcount, hverify⟩,
    hruns settings hvalid⟩

end Peephole
