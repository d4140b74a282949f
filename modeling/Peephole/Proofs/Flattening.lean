import Mathlib.Data.List.Nodup
import Peephole.Proofs.Ordering
import Peephole.Proofs.Reachable
import Peephole.Proofs.Walks

/-!
# Circuits as flat lists

The program of a circuit with a line lists one application for each gate of the line.
`Circuit.Lists` pairs the applications with the numbers of their gates, and every edit of the
circuit is then an edit of this flat list (`Threaded.editsList`): a declaration is added to the
declarations, a gate at the end of the list, one entry is erased or changed, and all the rest stays
as it is. In particular the circuit of a program lists the program, with its declarations in front
(`ofProgram_ok`).
-/

set_option autoImplicit false
set_option relaxedAutoImplicit false

namespace Peephole

theorem Declaration.register_of_mem_qubits {d : Declaration} {q : Qubit} (hq : q ∈ d.qubits) :
    q.register = d.name := by
  rw [qubits] at hq
  split at hq
  · obtain ⟨i, -, rfl⟩ := List.mem_map.mp hq
    rfl
  · rw [List.mem_singleton.mp hq]

theorem Declaration.nodup_qubits (d : Declaration) : d.qubits.Nodup := by
  rw [qubits]
  split
  · refine List.nodup_range.map fun i j hij ↦ ?_
    rw [Qubit.mk.injEq, Option.some.injEq] at hij
    exact hij.2
  · exact List.nodup_singleton _

namespace Circuit

variable {g g' : Circuit} {line : List Nat} {w n : Nat} {p : GateNode}

/-! ### Qubits and wires -/

/-- Different wires have different qubits. -/
theorem Declared.nodup_qubits (hd : g.Declared) : (g.wires.map Wire.qubit).Nodup := by
  rw [hd.qubits, List.nodup_flatMap]
  refine ⟨fun d _ ↦ d.nodup_qubits, ?_⟩
  refine (List.pairwise_map.mp hd.names).imp fun {d d'} hne ↦ ?_
  intro q hq hq'
  exact hne ((Declaration.register_of_mem_qubits hq).symm.trans
    (Declaration.register_of_mem_qubits hq'))

theorem Declared.qubitAt_inj (hd : g.Declared) {v : Nat} (hv : v < g.wires.length)
    (hw : w < g.wires.length) (heq : g.qubitAt v = g.qubitAt w) : v = w := by
  rw [qubitAt_of_some (List.getElem?_eq_getElem hv),
    qubitAt_of_some (List.getElem?_eq_getElem hw)] at heq
  refine (List.getElem?_inj (by rwa [List.length_map]) hd.nodup_qubits).mp ?_
  rw [List.getElem?_map, List.getElem?_map, List.getElem?_eq_getElem hv,
    List.getElem?_eq_getElem hw, Option.map_some, Option.map_some, heq]

theorem qubitAt_of_resolve {name : String} {q : Qubit} (h : g.resolve name q = .ok w) :
    g.qubitAt w = q := by
  obtain ⟨wire, hwire, hq⟩ := Option.map_eq_some_iff.mp (qubit_of_wireOf? (resolve_eq_ok.mp h))
  rw [qubitAt_of_some hwire, hq]

/-- A gate put on the wires of an application is that application. -/
theorem applied_of_resolveAll {a : Application} {targets : List Nat} {guards : List WireGuard}
    (h : g.resolveAll a = .ok (targets, guards)) (order : Nat) :
    g.applied ⟨a.gate, targets, guards, order⟩ = a := by
  obtain ⟨ts, hts, h⟩ := Run.bind_eq_ok.mp h
  obtain ⟨gs, hgs, h⟩ := Run.bind_eq_ok.mp h
  cases h
  have htargets : targets.map g.qubitAt = a.targets :=
    Run.map_of_mapM (fun _ _ ↦ qubitAt_of_resolve) hts
  have hguards : (guards.map fun c ↦ (⟨g.qubitAt c.wire, c.negated⟩ : Guard)) = a.guards := by
    refine Run.map_of_mapM (fun c r hr ↦ ?_) hgs
    obtain ⟨v, hv, rfl⟩ := Run.map_eq_ok.mp hr
    rw [qubitAt_of_resolve hv]
  rw [applied, htargets, hguards]

theorem applied_congr (h : ∀ w, p.touches w = true → g'.qubitAt w = g.qubitAt w) :
    g'.applied p = g.applied p := by
  have htargets : p.targets.map g'.qubitAt = p.targets.map g.qubitAt :=
    List.map_congr_left fun w hw ↦ h w (GateNode.touches_of_target hw)
  have hguards : (p.guards.map fun c ↦ (⟨g'.qubitAt c.wire, c.negated⟩ : Guard)) =
      p.guards.map fun c ↦ ⟨g.qubitAt c.wire, c.negated⟩ := by
    refine List.map_congr_left fun c hc ↦ ?_
    rw [h c.wire (GateNode.touches_of_guard hc)]
  rw [applied, applied, htargets, hguards]

theorem qubitAt_addWires (qs : List Qubit) (hw : w < g.wires.length) :
    (g.addWires qs).qubitAt w = g.qubitAt w := by
  obtain ⟨more, hwires, -⟩ := exists_wires_addWires (g := g) qs
  rw [qubitAt, hwires, List.getElem?_append_left hw, qubitAt]

/-- Dropping the guards on a wire drops the guards on its qubit. -/
theorem applied_dropGuards (hd : g.Declared)
    (hwithin : ∀ v, p.touches v = true → v < g.wires.length) (hw : w < g.wires.length) :
    g.applied (p.dropGuards w) =
      { g.applied p with guards := (g.applied p).guards.filter (·.qubit ≠ g.qubitAt w) } := by
  have hguards : ((p.guards.filter (·.wire ≠ w)).map
      fun c ↦ (⟨g.qubitAt c.wire, c.negated⟩ : Guard)) =
      (p.guards.map fun c ↦ ⟨g.qubitAt c.wire, c.negated⟩).filter (·.qubit ≠ g.qubitAt w) := by
    rw [List.filter_map]
    refine congrArg _ (List.filter_congr fun c hc ↦ ?_)
    have hlt := hwithin c.wire (GateNode.touches_of_guard hc)
    have hiff : c.wire = w ↔ g.qubitAt c.wire = g.qubitAt w :=
      ⟨congrArg g.qubitAt, hd.qubitAt_inj hlt hw⟩
    simp [hiff]
  rw [applied, GateNode.dropGuards, hguards]
  rfl

/-! ### The flat list of a circuit -/

/-- Changes the entry of one gate in a flat list. -/
def reviseAt (n : Nat) (f : Application → Application) (l : List (Nat × Application)) :
    List (Nat × Application) :=
  l.map fun e ↦ if e.1 = n then (e.1, f e.2) else e

/-- The gates of a line with their applications. -/
def listed (g : Circuit) (line : List Nat) : List (Nat × Application) :=
  line.map fun n ↦ (n, ((g.gate? n).map g.applied).getD default)

/-- A circuit whose program is some declarations followed by a flat list of applications, one for
each gate of the circuit. -/
structure Lists (g : Circuit) (ds : List Declaration) (l : List (Nat × Application)) : Prop where
  /-- The list has one entry for each gate. -/
  nodup : (l.map Prod.fst).Nodup
  live : ∀ n, n ∈ l.map Prod.fst ↔ (g.gate? n).isSome
  ordered : g.ordered = .ok (l.map Prod.fst)
  application : ∀ e ∈ l, g.application e.1 = .ok e.2
  toProgram : g.toProgram = .ok (ds.map .declare ++ l.map fun e ↦ .apply e.2)

theorem map_fst_listed (g : Circuit) (line : List Nat) : (g.listed line).map Prod.fst = line := by
  rw [listed, List.map_map]
  exact List.map_id line

theorem listed_congr
    (h : ∀ n ∈ line, (g'.gate? n).map g'.applied = (g.gate? n).map g.applied) :
    g'.listed line = g.listed line :=
  List.map_congr_left fun n hn ↦ by rw [h n hn]

theorem applied_of_wires (hwires : g'.wires = g.wires) (p : GateNode) :
    g'.applied p = g.applied p :=
  applied_congr fun w _ ↦ by rw [qubitAt, hwires, qubitAt]

/-- A change of one gate is a change of its entry. -/
theorem Revises.listed {q : GateNode} (h : g.Revises g' n p (some q))
    {f : Application → Application} (hf : g.applied q = f (g.applied p)) :
    g'.listed line = reviseAt n f (g.listed line) := by
  rw [reviseAt, Circuit.listed, Circuit.listed, List.map_map]
  refine List.map_congr_left fun m _ ↦ ?_
  have happlied : g'.applied = g.applied := funext (applied_of_wires h.wires)
  rw [Function.comp_apply, h.gate?, happlied]
  by_cases hm : m = n
  · rw [if_pos hm, if_pos hm, hm, h.old, Option.map_some, Option.map_some, Option.getD_some,
      Option.getD_some, hf]
  · rw [if_neg hm, if_neg hm]

/-- A new gate is a new entry at the end. -/
theorem listed_insert {q : GateNode} (hwires : g'.wires = g.wires) (hn : n ∉ line)
    (hgate : ∀ m, g'.gate? m = if m = n then some q else g.gate? m) :
    g'.listed (line ++ [n]) = g.listed line ++ [(n, g.applied q)] := by
  have hline : g'.listed line = g.listed line := by
    refine listed_congr fun m hm ↦ ?_
    have hne : m ≠ n := fun heq ↦ hn (heq ▸ hm)
    rw [hgate, if_neg hne, funext (applied_of_wires hwires)]
  rw [← hline, listed, List.map_append, List.map_singleton, hgate, if_pos rfl, Option.map_some,
    Option.getD_some, applied_of_wires hwires]
  rfl

/-- A gate that is gone is an entry less. -/
theorem Revises.listed_none (h : g.Revises g' n p none) :
    g'.listed (line.filter (· ≠ n)) = (g.listed line).filter (·.1 ≠ n) := by
  have hline : g'.listed (line.filter (· ≠ n)) = g.listed (line.filter (· ≠ n)) := by
    refine listed_congr fun m hm ↦ ?_
    rw [h.gate?, if_neg (by simpa using (List.mem_filter.mp hm).2),
      funext (applied_of_wires h.wires)]
  rw [hline, Circuit.listed, Circuit.listed, List.filter_map]
  rfl

namespace Threaded

variable (h : g.Threaded line)

include h

/-- The program of a circuit with a line. -/
theorem toProgram_ok :
    g.toProgram = .ok (g.declarations.map .declare ++ (g.listed line).map fun e ↦ .apply e.2) := by
  rw [toProgram, h.ordered_ok]
  change (line.mapM g.application >>= _) = _
  rw [h.mapM_application_ok, listed, List.map_map]
  change Except.ok (_ ++ List.map _ (List.map _ line)) = _
  rw [List.map_map]
  rfl

/-- What stands in the program of a circuit. -/
theorem of_toProgram {q : Program} (hq : g.toProgram = .ok q) :
    q.declarations = g.declarations ∧ q.applications = (g.listed line).map Prod.snd := by
  rw [h.toProgram_ok, Except.ok.injEq] at hq
  rw [← hq]
  constructor
  · simp [Program.declarations, Instruction.declaration?, List.filterMap_map, Function.comp_def]
  · simp [Program.applications, Instruction.application?, List.filterMap_map, Function.comp_def]

/-- A circuit has as many gates as a program with the same list of applications. -/
theorem gateCount_eq_of_listed {q : Program} (hq : q.applications = (g.listed line).map Prod.snd) :
    g.gateCount = q.gateCount := by
  rw [h.gateCount_eq, Program.gateCount, hq, List.length_map, listed, List.length_map]

/-- Every gate has an entry in the list. -/
theorem applied_mem_listed (hn : g.gate? n = some p) :
    g.applied p ∈ (g.listed line).map Prod.snd := by
  rw [listed, List.map_map]
  refine List.mem_map.mpr ⟨n, h.mem_line_of_gate hn, ?_⟩
  rw [Function.comp_apply, hn]
  rfl

theorem lists : g.Lists g.declarations (g.listed line) where
  nodup := by
    rw [map_fst_listed]
    exact h.nodup_line
  live n := by
    rw [map_fst_listed]
    exact h.mem_line
  ordered := by
    rw [map_fst_listed]
    exact h.ordered_ok
  application := by
    intro e he
    obtain ⟨n, hn, rfl⟩ := List.mem_map.mp he
    obtain ⟨p, hp⟩ := Option.isSome_iff_exists.mp (h.gate n hn)
    rw [h.application_ok hp, hp]
    rfl
  toProgram := h.toProgram_ok

/-! ### Edits of the list -/

theorem listed_declare {d : Declaration} {ws : List Nat}
    (hrun : (declare d).run g = .ok ws g') :
    g'.Threaded line ∧ g'.declarations = g.declarations ++ [d] ∧
      g'.listed line = g.listed line := by
  by_cases hname : d.name ∈ g.declarations.map Declaration.name
  · rw [declare_refused hname] at hrun
    cases hrun
  · obtain ⟨hok, hthreaded⟩ := h.declare_ok hname
    rw [hok] at hrun
    cases hrun
    refine ⟨hthreaded, declarations_addWires _, listed_congr fun n hn ↦ ?_⟩
    obtain ⟨p, hp⟩ := Option.isSome_iff_exists.mp (h.gate n hn)
    rw [gate?_addWires, hp]
    change (g.gate? n).map _ = _
    rw [hp, Option.map_some, Option.map_some, Option.some.injEq]
    exact applied_congr fun w hw ↦ qubitAt_addWires (g := { g with declarations := _ }) d.qubits
      (h.within n p w hp hw)

theorem listed_apply {a : Application} (hrun : (apply a).run g = .ok n g') :
    g'.Threaded (line ++ [n]) ∧ g'.declarations = g.declarations ∧
      g'.listed (line ++ [n]) = g.listed line ++ [(n, a)] := by
  cases hr : g.resolveAll a with
  | error e =>
    rw [apply_refused hr] at hrun
    cases hrun
  | ok r =>
    obtain ⟨targets, guards⟩ := r
    obtain ⟨edges, hok, hthreaded⟩ := h.apply_ok hr
    rw [hok] at hrun
    cases hrun
    have hgate (m : Nat) := gate?_addNode (g := g) (.gate ⟨a.gate, targets, guards, g.placed + 1⟩) m
    refine ⟨hthreaded, rfl, ?_⟩
    refine Eq.trans (listed_insert (g := g) rfl h.next_not_mem hgate) ?_
    rw [applied_of_resolveAll hr]

theorem listed_removeGuards (hd : g.Declared) (hrun : (removeGuards n w).run g = .ok () g') :
    g'.Threaded line ∧ g'.declarations = g.declarations ∧ n ∈ line ∧
      ∃ q, g.qubitOf w = .ok q ∧ g'.listed line =
        reviseAt n (fun a ↦ { a with guards := a.guards.filter (·.qubit ≠ q) })
          (g.listed line) := by
  obtain ⟨p, hguard, hthreaded, hrevises⟩ := h.of_removeGuards hrun
  have hwithin := fun v ↦ h.within n p v hrevises.old
  have hw : w < g.wires.length :=
    hwithin w (GateNode.touches_iff.mpr (.inr (GateNode.isGuard_iff.mp hguard)))
  exact ⟨hthreaded, hrevises.declarations, h.mem_line_of_gate hrevises.old, g.qubitAt w,
    qubitOf_ok hw, hrevises.listed (applied_dropGuards hd hwithin hw)⟩

theorem listed_retarget {targets : List Nat} {guards : List WireGuard}
    (hrun : (retarget n targets guards).run g = .ok () g') :
    g'.Threaded line ∧ g'.declarations = g.declarations ∧ n ∈ line ∧
      ∃ ts gs, targets.mapM g.qubitOf = .ok ts ∧
        (guards.mapM fun c ↦ (g.qubitOf c.wire).map fun q ↦ Guard.mk q c.negated) = .ok gs ∧
        g'.listed line =
          reviseAt n (fun a ↦ { a with targets := ts, guards := gs }) (g.listed line) := by
  obtain ⟨p, hwires, hthreaded, hrevises⟩ := h.of_retarget hrun
  have hwithin (w : Nat) (hw : w ∈ targets ++ guards.map WireGuard.wire) : w < g.wires.length :=
    h.within n p w hrevises.old (GateNode.mem_wires.mp ((hwires w).mpr hw))
  refine ⟨hthreaded, hrevises.declarations, h.mem_line_of_gate hrevises.old, targets.map g.qubitAt,
    guards.map fun c ↦ ⟨g.qubitAt c.wire, c.negated⟩, ?_, ?_, hrevises.listed rfl⟩
  · exact Run.mapM_ok fun w hw ↦ qubitOf_ok (hwithin w (List.mem_append_left _ hw))
  · refine Run.mapM_ok fun c hc ↦ ?_
    rw [qubitOf_ok (hwithin c.wire (List.mem_append_right _ (List.mem_map_of_mem hc)))]
    rfl

end Threaded

/-- What the edits of a circuit do to its flat list: each of them that succeeds changes the list as
it says, and each that is refused changes nothing. -/
structure EditsList (g : Circuit) (l : List (Nat × Application)) : Prop where
  declare : ∀ d ws g', (declare d).run g = .ok ws g' → g'.Lists (g.declarations ++ [d]) l
  apply : ∀ a n g', (apply a).run g = .ok n g' → g'.Lists g.declarations (l ++ [(n, a)])
  remove : ∀ n p g', (remove n).run g = .ok p g' →
    n ∈ l.map Prod.fst ∧ g'.Lists g.declarations (l.filter (·.1 ≠ n))
  removeGuards : ∀ n w g', (removeGuards n w).run g = .ok () g' →
    n ∈ l.map Prod.fst ∧ ∃ q, g.qubitOf w = .ok q ∧ g'.Lists g.declarations
      (reviseAt n (fun a ↦ { a with guards := a.guards.filter (·.qubit ≠ q) }) l)
  setGate : ∀ n gate g', (setGate n gate).run g = .ok () g' →
    n ∈ l.map Prod.fst ∧ g'.Lists g.declarations (reviseAt n (fun a ↦ { a with gate }) l)
  retarget : ∀ n targets guards g', (retarget n targets guards).run g = .ok () g' →
    n ∈ l.map Prod.fst ∧ ∃ ts gs, targets.mapM g.qubitOf = .ok ts ∧
      (guards.mapM fun c ↦ (g.qubitOf c.wire).map fun q ↦ Guard.mk q c.negated) = .ok gs ∧
      g'.Lists g.declarations
        (reviseAt n (fun a ↦ { a with targets := ts, guards := gs }) l)
  refused : ∀ (c : Call) e g', c.run.run g = .error e g' → g' = g

theorem Threaded.editsList (h : g.Threaded line) (hd : g.Declared) :
    g.EditsList (g.listed line) where
  declare d ws g' hrun := by
    obtain ⟨hthreaded, hds, hlisted⟩ := h.listed_declare hrun
    rw [← hds, ← hlisted]
    exact hthreaded.lists
  apply a n g' hrun := by
    obtain ⟨hthreaded, hds, hlisted⟩ := h.listed_apply hrun
    rw [← hds, ← hlisted]
    exact hthreaded.lists
  remove n p g' hrun := by
    obtain ⟨hthreaded, hrevises⟩ := h.of_remove hrun
    rw [map_fst_listed, ← hrevises.declarations, ← hrevises.listed_none]
    exact ⟨h.mem_line_of_gate hrevises.old, hthreaded.lists⟩
  removeGuards n w g' hrun := by
    obtain ⟨hthreaded, hds, hn, q, hq, hlisted⟩ := h.listed_removeGuards hd hrun
    rw [map_fst_listed, ← hds]
    exact ⟨hn, q, hq, hlisted ▸ hthreaded.lists⟩
  setGate n gate g' hrun := by
    obtain ⟨p, hthreaded, hrevises⟩ := h.of_setGate hrun
    have hlisted : g'.listed line = reviseAt n (fun a ↦ { a with gate }) (g.listed line) :=
      hrevises.listed rfl
    rw [map_fst_listed, ← hrevises.declarations, ← hlisted]
    exact ⟨h.mem_line_of_gate hrevises.old, hthreaded.lists⟩
  retarget n targets guards g' hrun := by
    obtain ⟨hthreaded, hds, hn, ts, gs, hts, hgs, hlisted⟩ := h.listed_retarget hrun
    rw [map_fst_listed, ← hds]
    exact ⟨hn, ts, gs, hts, hgs, hlisted ▸ hthreaded.lists⟩
  refused c e g' hrun := h.eq_of_refused hd hrun

/-! ### The circuit of a program -/

/-- Running a program adds its declarations to those of a circuit and its applications at the end of
the list. -/
theorem Threaded.listed_program {program : Program} (h : g.Threaded line) (hg : g.Reachable)
    (hrun : (program.forM Instruction.run : Edit Unit).run g = .ok () g') :
    ∃ line', g'.Threaded line' ∧ g'.Reachable ∧
      g'.declarations = g.declarations ++ program.declarations ∧
      (g'.listed line').map Prod.snd = (g.listed line).map Prod.snd ++ program.applications := by
  induction program generalizing g line with
  | nil =>
    cases hrun
    exact ⟨line, h, hg, (List.append_nil _).symm, (List.append_nil _).symm⟩
  | cons instruction rest ih =>
    change (instruction.run >>= fun _ ↦ rest.forM Instruction.run).run g = _ at hrun
    obtain ⟨⟨⟩, t, hfirst, hrest⟩ := Run.steps_eq_ok.mp hrun
    cases instruction with
    | declare d =>
      obtain ⟨ws, hdeclare⟩ := Run.discard_eq_ok.mp hfirst
      obtain ⟨ht, hds, hlisted⟩ := h.listed_declare hdeclare
      obtain ⟨line', h', hg', hds', hlisted'⟩ :=
        ih ht (hg.of_ok (c := .declare d) hfirst) hrest
      refine ⟨line', h', hg', ?_, ?_⟩
      · rw [hds', hds, List.append_assoc]
        rfl
      · rw [hlisted', hlisted]
        rfl
    | apply a =>
      obtain ⟨n, happly⟩ := Run.discard_eq_ok.mp hfirst
      obtain ⟨ht, hds, hlisted⟩ := h.listed_apply happly
      obtain ⟨line', h', hg', hds', hlisted'⟩ :=
        ih ht (hg.of_ok (c := .apply a) hfirst) hrest
      refine ⟨line', h', hg', ?_, ?_⟩
      · rw [hds', hds]
        rfl
      · rw [hlisted', hlisted, List.map_append, List.append_assoc]
        rfl

/-- The circuit of a program is reachable and lists the program. -/
theorem ofProgram_ok {program : Program} (hg : ofProgram program = .ok g) :
    ∃ line, g.Threaded line ∧ g.Reachable ∧ g.declarations = program.declarations ∧
      (g.listed line).map Prod.snd = program.applications := by
  rw [ofProgram] at hg
  split at hg
  · rename_i g' hrun
    cases hg
    exact Threaded.empty.listed_program .empty hrun
  · cases hg

/-- Circuits are flat lists of applications behind their declarations, and edits of a circuit are
edits of the list. The gates on a wire are those of the list that touch it, in its order. The
circuit of a program lists the program, with the declarations in front. -/
theorem simulates_list :
    (∀ g : Circuit, g.Reachable → ∃ l, g.Lists g.declarations l ∧ g.EditsList l ∧
      ∀ w < g.wires.length, g.gatesOn w =
        .ok ((l.map Prod.fst).filter fun n ↦ (g.gate? n).any (·.touches w))) ∧
    ∀ (program : Program) (g : Circuit), ofProgram program = .ok g → g.Reachable ∧
      g.toProgram =
        .ok (program.declarations.map .declare ++ program.applications.map .apply) := by
  constructor
  · intro g hg
    obtain ⟨line, h, hd⟩ := hg.threaded
    refine ⟨g.listed line, h.lists, h.editsList hd, fun w hw ↦ ?_⟩
    rw [map_fst_listed]
    exact h.gatesOn_ok (List.getElem?_eq_getElem hw)
  · intro program g hg
    obtain ⟨line, h, hreach, hds, hlisted⟩ := ofProgram_ok hg
    refine ⟨hreach, ?_⟩
    rw [h.toProgram_ok, hds, ← hlisted, List.map_map]
    rfl

/-- A gate guarded twice on one qubit is a flat list of one entry. A program that declares a qubit
after its first gate is listed with the declarations in front. -/
theorem simulates_list_late_declaration :
    let a : Application :=
      ⟨.standard .x, [⟨"q", some 0⟩], [⟨⟨"q", some 1⟩, true⟩, ⟨⟨"q", some 1⟩, false⟩]⟩
    Lists ((Call.apply a).after ((Call.declare ⟨"q", some 2⟩).after Circuit.empty))
      [⟨"q", some 2⟩] [(4, a)] ∧
    ∃ g, ofProgram [.declare ⟨"a", none⟩, .apply ⟨.standard .h, [⟨"a", none⟩], []⟩,
        .declare ⟨"b", none⟩, .apply ⟨.standard .cx, [⟨"a", none⟩, ⟨"b", none⟩], []⟩] = .ok g ∧
      g.toProgram = .ok [.declare ⟨"a", none⟩, .declare ⟨"b", none⟩,
        .apply ⟨.standard .h, [⟨"a", none⟩], []⟩,
        .apply ⟨.standard .cx, [⟨"a", none⟩, ⟨"b", none⟩], []⟩] := by
  intro a
  constructor
  · obtain ⟨l, hl, -, -⟩ :=
      simulates_list.1 _ (.call (.apply a) (.call (.declare ⟨"q", some 2⟩) .empty))
    have hordered : ordered ((Call.apply a).after ((Call.declare ⟨"q", some 2⟩).after empty)) =
        .ok [4] := by decide +kernel
    have hgates : l.map Prod.fst = [4] := Except.ok.inj (hl.ordered.symm.trans hordered)
    obtain ⟨⟨n, b⟩, rfl, rfl⟩ := List.map_eq_singleton_iff.mp hgates
    have happlication := hl.application _ List.mem_cons_self
    cases happlication
    exact hl
  · obtain ⟨g, hg⟩ : ∃ g, ofProgram [.declare ⟨"a", none⟩,
        .apply ⟨.standard .h, [⟨"a", none⟩], []⟩, .declare ⟨"b", none⟩,
        .apply ⟨.standard .cx, [⟨"a", none⟩, ⟨"b", none⟩], []⟩] = .ok g := ⟨_, rfl⟩
    exact ⟨g, hg, (simulates_list.2 _ g hg).2⟩

end Circuit

end Peephole
