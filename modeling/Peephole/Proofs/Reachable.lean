import Peephole.Optimizer
import Peephole.Proofs.Rewiring

/-!
# Circuits reached by edits

A `Call` is one of the six edits of a circuit other than `connect`, with its arguments.
`Circuit.Reachable` holds of every circuit that some sequence of calls makes from the circuit
without qubits, where a call may also be refused. `Call.Allowed` says what a call asks of a circuit.
In a circuit with a line a call succeeds if this is given (`Threaded.run_of_allowed`), and is
otherwise refused and changes nothing (`Declared.run_of_not_allowed`), so every reachable circuit
has a line and the wires of its declarations (`Reachable.threaded`). A call of one of the four edits
of a gate that succeeds replaces that gate alone (`Revises`).
-/

set_option autoImplicit false
set_option relaxedAutoImplicit false

namespace Peephole

/-- Whether a declaration introduces a qubit: a single one without an index, or one with an index
below the size of the register. -/
def Declaration.Introduces (d : Declaration) (q : Qubit) : Prop :=
  d.size = none ∧ q = ⟨d.name, none⟩ ∨ ∃ n i, d.size = some n ∧ i < n ∧ q = ⟨d.name, some i⟩

theorem Declaration.mem_qubits {d : Declaration} {q : Qubit} : q ∈ d.qubits ↔ d.Introduces q := by
  rw [qubits, Introduces]
  cases hsize : d.size with
  | none => simp
  | some n => simp [eq_comm]

/-- A call of an edit. -/
inductive Call where
  | declare (d : Declaration)
  | apply (a : Application)
  | remove (n : Nat)
  | removeGuards (n w : Nat)
  | setGate (n : Nat) (gate : Gate)
  | retarget (n : Nat) (targets : List Nat) (guards : List WireGuard)

namespace Call

/-- Whether a circuit has what a call asks for. -/
def Allowed (g : Circuit) : Call → Prop
  | declare d => ∀ earlier ∈ g.declarations, earlier.name ≠ d.name
  | apply a => (∀ q ∈ a.targets, ∃ d ∈ g.declarations, d.Introduces q) ∧
      ∀ c ∈ a.guards, ∃ d ∈ g.declarations, d.Introduces c.qubit
  | remove n => (g.gate? n).isSome
  | removeGuards n w => ∃ p, g.gate? n = some p ∧ ∃ c ∈ p.guards, c.wire = w
  | setGate n _ => (g.gate? n).isSome
  | retarget n targets guards => ∃ p, g.gate? n = some p ∧
      ∀ w, (w ∈ targets ∨ ∃ c ∈ guards, c.wire = w) ↔ p.touches w = true

/-- Carries out a call. -/
def run : Call → Edit Unit
  | declare d => discard (Circuit.declare d)
  | apply a => discard (Circuit.apply a)
  | remove n => discard (Circuit.remove n)
  | removeGuards n w => Circuit.removeGuards n w
  | setGate n gate => Circuit.setGate n gate
  | retarget n targets guards => Circuit.retarget n targets guards

/-- The circuit after a call, whether or not the call is refused. -/
def after (c : Call) (g : Circuit) : Circuit :=
  match c.run.run g with
  | .ok _ g' => g'
  | .error _ g' => g'

theorem after_of_ok {c : Call} {g g' : Circuit} (h : c.run.run g = .ok () g') : c.after g = g' := by
  rw [after, h]

theorem after_of_error {c : Call} {g g' : Circuit} {e : CircuitFault}
    (h : c.run.run g = .error e g') : c.after g = g' := by
  rw [after, h]

end Call

namespace Circuit

/-- A circuit that a sequence of calls makes from the circuit without qubits. -/
inductive Reachable : Circuit → Prop where
  | empty : Reachable Circuit.empty
  | call (c : Call) {g : Circuit} (h : Reachable g) : Reachable (c.after g)

variable {g g' : Circuit} {line : List Nat} {w n : Nat} {p : GateNode} {e : CircuitFault}

/-! ### Refused calls -/

theorem declare_refused {d : Declaration} (hd : d.name ∈ g.declarations.map Declaration.name) :
    (declare d).run g = .error (.duplicateDeclaration d.name) g := by
  have htest : g.declarations.any (·.name = d.name) = true := by
    simpa using hd
  rw [declare, Run.bind_ok Run.get_ok, htest]
  rfl

theorem apply_refused {a : Application} (hr : g.resolveAll a = .error e) :
    (apply a).run g = .error e g := by
  rw [apply, Run.bind_error (Run.ask_error hr)]

theorem remove_refused (hn : g.gate? n = none) :
    (remove n).run g = .error (.invalidShape .removesSentinel) g := by
  rw [remove, Run.bind_ok Run.get_ok, hn]
  rfl

theorem gateAt_refused (hn : g.gate? n = none) : ∃ e, g.gateAt n = .error e := by
  rw [gateAt]
  split
  · rename_i p hp
    rw [gate?_eq_some.mpr hp] at hn
    cases hn
  · exact ⟨_, rfl⟩
  · exact ⟨_, rfl⟩

theorem removeGuards_refused (hp : g.gate? n = some p) (hw : p.isGuard w = false) :
    (removeGuards n w).run g = .error (.missingGuard w) g := by
  rw [removeGuards, Run.bind_ok (Run.ask_ok (gateAt_ok hp)), hw]
  rfl

theorem retarget_refused (hp : g.gate? n = some p) {targets : List Nat} {guards : List WireGuard}
    (hwires : ¬ ∀ w, w ∈ p.wires ↔ w ∈ targets ++ guards.map WireGuard.wire) :
    (retarget n targets guards).run g = .error (.invalidShape (.changesWires n)) g := by
  have htest : ¬ (p.wires.all ((targets ++ guards.map WireGuard.wire).contains ·) &&
      (targets ++ guards.map WireGuard.wire).all (p.wires.contains ·)) = true := by
    simp only [Bool.and_eq_true, List.all_eq_true, List.contains_iff_mem]
    exact fun ⟨hbefore, hafter⟩ ↦ hwires fun w ↦ ⟨hbefore w, hafter w⟩
  rw [retarget, Run.bind_ok (Run.ask_ok (gateAt_ok hp))]
  dsimp only
  rw [if_neg htest]
  rfl

theorem same_wires_iff (p : GateNode) (targets : List Nat) (guards : List WireGuard) :
    (∀ w, w ∈ p.wires ↔ w ∈ targets ++ guards.map WireGuard.wire) ↔
      ∀ w, (w ∈ targets ∨ ∃ c ∈ guards, c.wire = w) ↔ p.touches w = true := by
  refine forall_congr' fun w ↦ ?_
  rw [GateNode.mem_wires, List.mem_append, List.mem_map]
  exact Iff.comm

/-! ### Calls that succeed -/

/-- One gate is replaced by another one, or by none, and the other gates stay on their wires. -/
structure Revises (g g' : Circuit) (n : Nat) (p : GateNode) (q : Option GateNode) : Prop where
  old : g.gate? n = some p
  gate? : ∀ m, g'.gate? m = if m = n then q else g.gate? m
  wires : g'.wires = g.wires
  declarations : g'.declarations = g.declarations

theorem revises_updateGate {f : GateNode → GateNode} (hp : g.gate? n = some p)
    (edges : Slots Edge) : g.Revises { g.updateGate n f with edges } n p (some (f p)) := by
  refine ⟨hp, fun m ↦ (gate?_updateGate f n m).trans ?_, rfl, rfl⟩
  by_cases hm : m = n
  · rw [if_pos hm, if_pos hm, hm, hp, Option.map_some]
  · rw [if_neg hm, if_neg hm]

namespace Threaded

variable (h : g.Threaded line)

include h

theorem of_remove (hrun : (remove n).run g = .ok p g') :
    g'.Threaded (line.filter (· ≠ n)) ∧ g.Revises g' n p none := by
  cases hp : g.gate? n with
  | none =>
    rw [remove_refused hp] at hrun
    cases hrun
  | some q =>
    obtain ⟨edges, hok, hthreaded⟩ := h.remove_ok hp
    rw [hok] at hrun
    cases hrun
    exact ⟨hthreaded, hp, gate?_erase edges, rfl, rfl⟩

theorem of_removeGuards (hrun : (removeGuards n w).run g = .ok () g') :
    ∃ p, p.isGuard w = true ∧ g'.Threaded line ∧ g.Revises g' n p (some (p.dropGuards w)) := by
  cases hp : g.gate? n with
  | none =>
    obtain ⟨e, he⟩ := gateAt_refused hp
    rw [removeGuards, Run.bind_error (Run.ask_error he)] at hrun
    cases hrun
  | some p =>
    by_cases hguard : p.isGuard w = true
    · obtain ⟨edges, hok, hthreaded⟩ := h.removeGuards_ok hp hguard
      rw [hok] at hrun
      cases hrun
      exact ⟨p, hguard, hthreaded, revises_updateGate hp edges⟩
    · rw [removeGuards_refused hp (Bool.eq_false_iff.mpr hguard)] at hrun
      cases hrun

theorem of_setGate {gate : Gate} (hrun : (setGate n gate).run g = .ok () g') :
    ∃ p, g'.Threaded line ∧ g.Revises g' n p (some { p with gate }) := by
  cases hp : g.gate? n with
  | none =>
    obtain ⟨e, he⟩ := gateAt_refused hp
    rw [setGate, Run.bind_error (Run.discard_error (Run.ask_error he))] at hrun
    cases hrun
  | some p =>
    obtain ⟨hok, hthreaded⟩ := h.setGate_ok hp gate
    rw [hok] at hrun
    cases hrun
    exact ⟨p, hthreaded, revises_updateGate hp g.edges⟩

theorem of_retarget {targets : List Nat} {guards : List WireGuard}
    (hrun : (retarget n targets guards).run g = .ok () g') :
    ∃ p, (∀ w, w ∈ p.wires ↔ w ∈ targets ++ guards.map WireGuard.wire) ∧ g'.Threaded line ∧
      g.Revises g' n p (some { p with targets, guards }) := by
  cases hp : g.gate? n with
  | none =>
    obtain ⟨e, he⟩ := gateAt_refused hp
    rw [retarget, Run.bind_error (Run.ask_error he)] at hrun
    cases hrun
  | some p =>
    by_cases hwires : ∀ w, w ∈ p.wires ↔ w ∈ targets ++ guards.map WireGuard.wire
    · obtain ⟨hok, hthreaded⟩ := h.retarget_ok hp hwires
      rw [hok] at hrun
      cases hrun
      exact ⟨p, hwires, hthreaded, revises_updateGate hp g.edges⟩
    · rw [retarget_refused hp hwires] at hrun
      cases hrun

end Threaded

/-! ### When a call succeeds -/

/-- A qubit of a declared register or a declared single qubit has a wire, and no other has. -/
theorem Declared.resolve_iff (hd : g.Declared) (name : String) {q : Qubit} :
    (∃ w, g.resolve name q = .ok w) ↔ ∃ d ∈ g.declarations, d.Introduces q := by
  have hwire : (g.wireOf? q).isSome = true ↔ ∃ d ∈ g.declarations, d.Introduces q := by
    rw [isSome_wireOf?]
    simp only [← Declaration.mem_qubits, ← List.mem_flatMap, ← hd.qubits, List.mem_map]
  rw [← hwire, Option.isSome_iff_exists]
  simp only [resolve_eq_ok]

/-- An application is resolved if and only if its targets and the qubits of its guards are
declared. -/
theorem Declared.resolveAll_iff (hd : g.Declared) {a : Application} :
    (∃ r, g.resolveAll a = .ok r) ↔
      (∀ q ∈ a.targets, ∃ d ∈ g.declarations, d.Introduces q) ∧
        ∀ c ∈ a.guards, ∃ d ∈ g.declarations, d.Introduces c.qubit := by
  simp only [← hd.resolve_iff a.gate.name]
  constructor
  · rintro ⟨r, hr⟩
    obtain ⟨targets, htargets, hr⟩ := Run.bind_eq_ok.mp hr
    obtain ⟨guards, hguards, -⟩ := Run.bind_eq_ok.mp hr
    refine ⟨fun q hq ↦ Run.exists_ok_of_mapM htargets hq, fun c hc ↦ ?_⟩
    obtain ⟨_, hguard⟩ := Run.exists_ok_of_mapM hguards hc
    obtain ⟨w, hw, -⟩ := Run.map_eq_ok.mp hguard
    exact ⟨w, hw⟩
  · rintro ⟨htargets, hguards⟩
    obtain ⟨targets, htargets⟩ := Run.exists_mapM htargets
    have hguards : ∀ c ∈ a.guards, ∃ r, ((g.resolve a.gate.name c.qubit).map fun w ↦
        WireGuard.mk w c.negated) = .ok r := by
      intro c hc
      obtain ⟨w, hw⟩ := hguards c hc
      exact ⟨_, Run.map_eq_ok.mpr ⟨w, hw, rfl⟩⟩
    obtain ⟨guards, hguards⟩ := Run.exists_mapM hguards
    exact ⟨(targets, guards), Run.bind_eq_ok.mpr ⟨targets, htargets,
      Run.bind_eq_ok.mpr ⟨guards, hguards, rfl⟩⟩⟩

/-- A call that asks for what the circuit has succeeds and leaves a circuit with a line. -/
theorem Threaded.run_of_allowed (h : g.Threaded line) (hd : g.Declared) {c : Call}
    (hc : c.Allowed g) :
    ∃ g' line', c.run.run g = .ok () g' ∧ g'.Threaded line' ∧ g'.Declared := by
  cases c with
  | declare d =>
    have hname : d.name ∉ g.declarations.map Declaration.name := by
      simpa [Call.Allowed] using hc
    obtain ⟨hrun, hthreaded⟩ := h.declare_ok hname
    exact ⟨_, line, Run.discard_ok hrun, hthreaded, hd.declare hname⟩
  | apply a =>
    obtain ⟨r, hr⟩ := hd.resolveAll_iff.mpr hc
    obtain ⟨edges, hrun, hthreaded⟩ := h.apply_ok hr
    exact ⟨_, _, Run.discard_ok hrun, hthreaded, hd.qubits, hd.names⟩
  | remove n =>
    obtain ⟨p, hp⟩ := Option.isSome_iff_exists.mp hc
    obtain ⟨edges, hrun, hthreaded⟩ := h.remove_ok hp
    exact ⟨_, _, Run.discard_ok hrun, hthreaded, hd.qubits, hd.names⟩
  | removeGuards n w =>
    obtain ⟨p, hp, hguard⟩ := hc
    have hguard : p.isGuard w = true := GateNode.isGuard_iff.mpr (List.mem_map.mpr hguard)
    obtain ⟨edges, hrun, hthreaded⟩ := h.removeGuards_ok hp hguard
    exact ⟨_, line, hrun, hthreaded, hd.qubits, hd.names⟩
  | setGate n gate =>
    obtain ⟨p, hp⟩ := Option.isSome_iff_exists.mp hc
    obtain ⟨hrun, hthreaded⟩ := h.setGate_ok hp gate
    exact ⟨_, line, hrun, hthreaded, hd.qubits, hd.names⟩
  | retarget n targets guards =>
    obtain ⟨p, hp, hwires⟩ := hc
    obtain ⟨hrun, hthreaded⟩ := h.retarget_ok hp ((same_wires_iff p targets guards).mpr hwires)
    exact ⟨_, line, hrun, hthreaded, hd.qubits, hd.names⟩

/-- A call that asks for what the circuit does not have is refused and changes nothing. -/
theorem Declared.run_of_not_allowed (hd : g.Declared) {c : Call} (hc : ¬ c.Allowed g) :
    ∃ e, c.run.run g = .error e g := by
  cases c with
  | declare d =>
    have hname : d.name ∈ g.declarations.map Declaration.name := by
      simpa [Call.Allowed] using hc
    exact ⟨_, Run.discard_error (declare_refused hname)⟩
  | apply a =>
    cases hr : g.resolveAll a with
    | ok r => exact absurd (hd.resolveAll_iff.mp ⟨r, hr⟩) hc
    | error e => exact ⟨e, Run.discard_error (apply_refused hr)⟩
  | remove n => exact ⟨_, Run.discard_error (remove_refused (Option.not_isSome_iff_eq_none.mp hc))⟩
  | removeGuards n w =>
    cases hp : g.gate? n with
    | none =>
      obtain ⟨e, he⟩ := gateAt_refused hp
      exact ⟨e, by rw [Call.run, removeGuards, Run.bind_error (Run.ask_error he)]⟩
    | some p =>
      have hw : p.isGuard w = false := by
        refine Bool.eq_false_iff.mpr fun hguard ↦ hc ⟨p, hp, ?_⟩
        exact List.mem_map.mp (GateNode.isGuard_iff.mp hguard)
      exact ⟨_, removeGuards_refused hp hw⟩
  | setGate n gate =>
    obtain ⟨e, he⟩ := gateAt_refused (Option.not_isSome_iff_eq_none.mp hc)
    exact ⟨e, by rw [Call.run, setGate, Run.bind_error (Run.discard_error (Run.ask_error he))]⟩
  | retarget n targets guards =>
    cases hp : g.gate? n with
    | none =>
      obtain ⟨e, he⟩ := gateAt_refused hp
      exact ⟨e, by rw [Call.run, retarget, Run.bind_error (Run.ask_error he)]⟩
    | some p =>
      refine ⟨_, retarget_refused hp fun hwires ↦ hc ⟨p, hp, ?_⟩⟩
      exact (same_wires_iff p targets guards).mp hwires

/-- What a call does to a circuit with a line: it is refused and changes nothing, or it succeeds and
leaves a circuit with a line. -/
theorem Threaded.run_call (h : g.Threaded line) (hd : g.Declared) (c : Call) :
    (∃ e, c.run.run g = .error e g) ∨
      ∃ g' line', c.run.run g = .ok () g' ∧ g'.Threaded line' ∧ g'.Declared := by
  by_cases hc : c.Allowed g
  · exact .inr (h.run_of_allowed hd hc)
  · exact .inl (hd.run_of_not_allowed hc)

/-- A refused call changes nothing. -/
theorem Threaded.eq_of_refused (h : g.Threaded line) (hd : g.Declared) {c : Call}
    (hc : c.run.run g = .error e g') : g' = g := by
  rcases h.run_call hd c with ⟨f, hf⟩ | ⟨g'', line', hok, -, -⟩
  · rw [hf] at hc
    cases hc
    rfl
  · rw [hok] at hc
    cases hc

theorem Declared.empty : Circuit.empty.Declared :=
  ⟨rfl, List.nodup_nil⟩

/-- Every reachable circuit has a line and the wires of its declarations. -/
theorem Reachable.threaded (h : g.Reachable) : ∃ line, g.Threaded line ∧ g.Declared := by
  induction h with
  | empty => exact ⟨[], .empty, .empty⟩
  | call c _ ih =>
    obtain ⟨line, hthreaded, hdeclared⟩ := ih
    rcases hthreaded.run_call hdeclared c with ⟨e, hrun⟩ | ⟨g', line', hrun, hafter⟩
    · rw [Call.after_of_error hrun]
      exact ⟨line, hthreaded, hdeclared⟩
    · rw [Call.after_of_ok hrun]
      exact ⟨line', hafter⟩

/-- In a reachable circuit a call succeeds exactly if the circuit has what it asks for, and a call
that is refused changes nothing. -/
theorem Reachable.call_outcome (hg : g.Reachable) (c : Call) :
    ((∃ g', c.run.run g = .ok () g') ↔ c.Allowed g) ∧
      ∀ e g', c.run.run g = .error e g' → g' = g := by
  obtain ⟨line, h, hd⟩ := hg.threaded
  refine ⟨⟨fun ⟨g', hok⟩ ↦ ?_, fun hc ↦ ?_⟩, fun e g' ↦ h.eq_of_refused hd⟩
  · by_contra hc
    obtain ⟨e, hrun⟩ := hd.run_of_not_allowed hc
    rw [hok] at hrun
    cases hrun
  · obtain ⟨g', -, hok, -⟩ := h.run_of_allowed hd hc
    exact ⟨g', hok⟩

/-- The target and the guard of a gate can change places, but a target alone is no guard to be
removed. -/
theorem Reachable.call_outcome_guarded :
    let g := (Call.apply ⟨.standard .x, [⟨"q", some 0⟩], [⟨⟨"q", some 1⟩, true⟩]⟩).after
      ((Call.declare ⟨"q", some 2⟩).after Circuit.empty)
    (∃ g', (Call.retarget 4 [1] [⟨0, false⟩]).run.run g = .ok () g') ∧
      ∃ e, (Call.removeGuards 4 0).run.run g = .error e g := by
  intro g
  have hg : g.Reachable := .call _ (.call _ .empty)
  have hp : g.gate? 4 = some ⟨.standard .x, [0], [⟨1, true⟩], 1⟩ := by rfl
  obtain ⟨hrefused, hsame⟩ := hg.call_outcome (.removeGuards 4 0)
  refine ⟨(hg.call_outcome (.retarget 4 [1] [⟨0, false⟩])).1.mpr ⟨_, hp, fun w ↦ ?_⟩, ?_⟩
  · simp only [GateNode.touches_iff, GateNode.guardWires, List.mem_singleton, exists_eq_left,
      List.map_cons, List.map_nil]
    omega
  · cases hrun : (Call.removeGuards 4 0).run.run g with
    | error e g' => exact ⟨e, by rw [hsame e g' hrun]⟩
    | ok _ g' =>
      obtain ⟨p, hp', c, hc, hwire⟩ := hrefused.mp ⟨g', hrun⟩
      rw [hp, Option.some.injEq] at hp'
      rw [← hp', List.mem_singleton] at hc
      rw [hc] at hwire
      cases hwire

/-- The circuit after a call that succeeds is reachable. -/
theorem Reachable.of_ok (h : g.Reachable) {c : Call} (hc : c.run.run g = .ok () g') :
    g'.Reachable := by
  have hcall := h.call c
  rwa [Call.after_of_ok hc] at hcall

end Circuit

end Peephole
