import Peephole.Proofs.Acceptance
import Peephole.Proofs.Names
import Peephole.Source.Emit

/-!
# Optimizing under other names

`Circuit.rename` gives the qubits of a circuit other names. No rule looks at names: every question
that the optimizer asks has the same answer, and every change that it makes can be made before or
after the names are changed (`Blind`). If the declared names are kept apart, the circuit of a
renamed program is the renamed circuit (`ofProgram_rename`), so the optimizer commutes with
renaming, and in particular with canonical names.
-/

set_option autoImplicit false
set_option relaxedAutoImplicit false

namespace Peephole

variable {f : String → String}

def Wire.rename (f : String → String) (w : Wire) : Wire :=
  { w with qubit := w.qubit.rename f }

theorem Agrees.rename {lookup : List (Qubit × Nat)} {wires : List Wire} (h : Agrees lookup wires)
    (f : String → String) : Agrees (lookup.map fun entry ↦ (entry.1.rename f, entry.2))
      (wires.map (Wire.rename f)) where
  qubit q w hw := by
    obtain ⟨⟨q, w⟩, hmem, heq⟩ := List.mem_map.mp hw
    cases heq
    obtain ⟨wire, hwire, hq⟩ := Option.map_eq_some_iff.mp (h.qubit q w hmem)
    rw [List.getElem?_map, hwire, ← hq]
    rfl
  entry wire hwire := by
    obtain ⟨wire, hmem, rfl⟩ := List.mem_map.mp hwire
    obtain ⟨w, hw⟩ := h.entry wire hmem
    exact ⟨w, List.mem_map.mpr ⟨_, hw, rfl⟩⟩

/-- A circuit with other names. -/
def Circuit.rename (f : String → String) (g : Circuit) : Circuit :=
  { g with
    wires := g.wires.map (Wire.rename f)
    lookup := g.lookup.map fun entry ↦ (entry.1.rename f, entry.2)
    declarations := g.declarations.map (Declaration.rename f)
    agrees := g.agrees.rename f }

namespace Circuit

variable (g : Circuit)

theorem length_wires_rename : (g.rename f).wires.length = g.wires.length :=
  List.length_map _

theorem gateCount_rename : (g.rename f).gateCount = g.gateCount := by
  rw [gateCount, length_wires_rename, gateCount]
  rfl

theorem wire_rename (w : Nat) : (g.rename f).wire w = (g.wire w).map (Wire.rename f) := by
  rw [wire, wire, rename, List.getElem?_map]
  cases g.wires[w]? <;> rfl

theorem inputOf_rename (w : Nat) : (g.rename f).inputOf w = g.inputOf w := by
  rw [inputOf, wire_rename, inputOf]
  cases g.wire w <;> rfl

theorem outputOf_rename (w : Nat) : (g.rename f).outputOf w = g.outputOf w := by
  rw [outputOf, wire_rename, outputOf]
  cases g.wire w <;> rfl

theorem nextOn_rename (n w : Nat) : (g.rename f).nextOn n w = g.nextOn n w := rfl

theorem follow_rename (w output steps current : Nat) :
    (g.rename f).follow w output steps current = g.follow w output steps current := by
  induction steps generalizing current with
  | zero => rfl
  | succ steps ih => simp only [follow, nextOn_rename, ih]

theorem gatesOn_rename (w : Nat) : (g.rename f).gatesOn w = g.gatesOn w := by
  simp only [gatesOn, outputOf_rename, inputOf_rename, follow_rename]
  rfl

theorem path_follow_rename (w output start : Nat) (stop : Option Nat) (budget : Nat)
    (left : Option Nat) (current : Nat) :
    Path.follow (g.rename f) w output start stop budget left current =
      Path.follow g w output start stop budget left current := by
  induction budget generalizing left current with
  | zero => rfl
  | succ budget ih =>
    unfold Path.follow
    simp only [ih]
    rfl

theorem walk_rename (w start : Nat) (stop limit : Option Nat) :
    Path.walk (g.rename f) w start stop limit = Path.walk g w start stop limit := by
  simp only [Path.walk, outputOf_rename, gateCount_rename, path_follow_rename]

theorem between_rename (w start stop : Nat) :
    Path.between (g.rename f) w start stop = Path.between g w start stop := by
  simp only [Path.between, walk_rename]

theorem full_rename (w : Nat) : Path.full (g.rename f) w = Path.full g w := by
  simp only [Path.full, inputOf_rename, outputOf_rename, between_rename]

theorem verifyWire_rename (w : Nat) : (g.rename f).verifyWire w = g.verifyWire w := by
  simp only [verifyWire, wire_rename, gatesOn_rename]
  cases g.wire w <;> rfl

theorem verify_rename : (g.rename f).verify = g.verify := by
  simp only [verify, length_wires_rename, funext (verifyWire_rename g)]
  rfl

theorem stateAfter_rename (w : Nat) (state : Bool) (nodes : List Nat) :
    Rule.stateAfter (g.rename f) w state nodes = Rule.stateAfter g w state nodes := by
  induction nodes generalizing state with
  | nil => rfl
  | cons n rest ih =>
    unfold Rule.stateAfter
    simp only [ih]
    rfl

theorem basisState_rename (w n : Nat) :
    Rule.basisState (g.rename f) w n = Rule.basisState g w n := by
  simp only [Rule.basisState, inputOf_rename, between_rename, stateAfter_rename]

theorem applies_rename (rule : Rule) (path : Path) :
    rule.applies (g.rename f) path = rule.applies g path := by
  cases rule with
  | peep =>
    simp only [Rule.applies, Rule.peeps, basisState_rename]
    rfl
  | cancel _ => rfl
  | sandwich _ _ => rfl
  | reverse => rfl

theorem findMatch_rename (rules : List Rule) :
    findMatch rules (g.rename f) = findMatch rules g := by
  have hat (path : Path) : matchAt rules (g.rename f) path = matchAt rules g path := by
    simp only [matchAt, applies_rename]
  have hon (w : Nat) : matchOn rules (g.rename f) w = matchOn rules g w := by
    simp only [matchOn, full_rename, funext hat]
  simp only [findMatch, length_wires_rename, funext hon]

end Circuit

/-! ### Changes -/

/-- The outcome of a change with other names in the circuit. -/
def Run.renamed {ε α : Type} (f : String → String) :
    EStateM.Result ε Circuit α → EStateM.Result ε Circuit α
  | .ok a g => .ok a (g.rename f)
  | .error e g => .error e (g.rename f)

/-- A change of circuits that has nothing to do with names: it can be made before and after they are
changed. -/
def Blind {ε α : Type} (f : String → String) (change : EStateM ε Circuit α) : Prop :=
  ∀ g, change.run (g.rename f) = Run.renamed f (change.run g)

namespace Blind

section Steps

variable {ε α β : Type} {x : EStateM ε Circuit α} {k : α → EStateM ε Circuit β}

theorem pure (a : α) : Blind f (Pure.pure a : EStateM ε Circuit α) :=
  fun _ ↦ rfl

theorem throw (e : ε) : Blind f (MonadExcept.throw e : EStateM ε Circuit α) :=
  fun _ ↦ rfl

theorem bind (hx : Blind f x) (hk : ∀ a, Blind f (k a)) : Blind f (x >>= k) := by
  intro g
  have hg := hx g
  cases h : x.run g with
  | ok a t =>
    rw [h] at hg
    rw [Run.bind_ok hg, Run.bind_ok h, hk a t]
  | error e t =>
    rw [h] at hg
    rw [Run.bind_error hg, Run.bind_error h]
    rfl

theorem discard (hx : Blind f x) : Blind f (discard x) := by
  intro g
  have hg := hx g
  cases h : x.run g with
  | ok a t =>
    rw [h] at hg
    rw [Run.discard_ok hg, Run.discard_ok h]
    rfl
  | error e t =>
    rw [h] at hg
    rw [Run.discard_error hg, Run.discard_error h]
    rfl

theorem forM {l : List α} {k : α → EStateM ε Circuit PUnit} (hk : ∀ a, Blind f (k a)) :
    Blind f (l.forM k) := by
  induction l with
  | nil => exact pure _
  | cons a rest ih => exact (hk a).bind fun _ ↦ ih

/-- What comes next depends on the circuit, but not on its names. -/
theorem get {k : Circuit → EStateM ε Circuit β} (hsame : ∀ g : Circuit, k (g.rename f) = k g)
    (hk : ∀ g, Blind f (k g)) : Blind f (MonadState.get >>= k) := by
  intro g
  rw [Run.bind_ok Run.get_ok, Run.bind_ok Run.get_ok, hsame, hk g g]

theorem modify {change : Circuit → Circuit}
    (h : ∀ g : Circuit, change (g.rename f) = (change g).rename f) :
    Blind f (modify change : EStateM ε Circuit PUnit) := by
  intro g
  rw [Run.modify_ok, Run.modify_ok, h]
  rfl

/-- The circuit is replaced, and what comes next does not depend on its names. -/
theorem replace {change : Circuit → Circuit} {k : Circuit → EStateM ε Circuit β}
    (h : ∀ g : Circuit, change (g.rename f) = (change g).rename f)
    (hsame : ∀ g : Circuit, k (g.rename f) = k g) (hk : ∀ g, Blind f (k g)) :
    Blind f (MonadState.get >>= fun g ↦ set (change g) >>= fun _ ↦ k g) := by
  intro g
  rw [Run.bind_ok Run.get_ok, Run.bind_ok Run.get_ok, Run.bind_ok (Run.set_ok _),
    Run.bind_ok (Run.set_ok _), h, hsame, hk g]

theorem ask {question : Circuit → Except CircuitFault α}
    (h : ∀ g : Circuit, question (g.rename f) = question g) : Blind f (Edit.ask question) := by
  intro g
  cases hg : question g with
  | ok a =>
    rw [Run.ask_ok ((h g).trans hg), Run.ask_ok hg]
    rfl
  | error e =>
    rw [Run.ask_error ((h g).trans hg), Run.ask_error hg]
    rfl

theorem edit {change : Edit α} (h : Blind f change) : Blind f (Reduction.edit change) := by
  intro g
  have hg := h g
  simp only [EStateM.run] at hg
  simp only [EStateM.run, Reduction.edit, EStateM.adaptExcept, hg]
  cases change g <;> rfl

end Steps

variable (f)

open Circuit

theorem spliceOut (n w : Nat) : Blind f (spliceOut n w) :=
  bind (ask fun _ ↦ rfl) fun _ ↦ bind (ask fun _ ↦ rfl) fun _ ↦ modify fun _ ↦ rfl

theorem remove (n : Nat) : Blind f (remove n) := by
  refine get (fun _ ↦ rfl) fun g ↦ ?_
  cases g.gate? n with
  | none => exact throw _
  | some payload =>
    exact bind (forM fun w ↦ spliceOut f n w) fun _ ↦ bind (modify fun _ ↦ rfl) fun _ ↦ pure _

theorem connect (source target w : Nat) : Blind f (connect source target w) :=
  bind (ask fun _ ↦ rfl) fun _ ↦ bind (ask fun _ ↦ rfl) fun _ ↦
    replace (fun _ ↦ rfl) (fun _ ↦ rfl) fun _ ↦ pure _

theorem append (w n : Nat) : Blind f (append w n) :=
  bind (ask fun g ↦ outputOf_rename g w) fun _ ↦ bind (ask fun _ ↦ rfl) fun _ ↦
    bind (modify fun _ ↦ rfl) fun _ ↦ bind (discard (connect f _ _ _)) fun _ ↦
      discard (connect f _ _ _)

theorem removeGuards (n w : Nat) : Blind f (removeGuards n w) := by
  refine bind (ask fun _ ↦ rfl) fun payload ↦ ?_
  cases payload.isGuard w with
  | false => exact throw _
  | true =>
    refine bind (modify fun _ ↦ rfl) fun _ ↦ ?_
    cases payload.isTarget w with
    | false => exact spliceOut f n w
    | true => exact pure _

theorem setGate (n : Nat) (gate : Gate) : Blind f (setGate n gate) :=
  bind (discard (ask fun _ ↦ rfl)) fun _ ↦ modify fun _ ↦ rfl

theorem retarget (n : Nat) (targets : List Nat) (guards : List WireGuard) :
    Blind f (retarget n targets guards) := by
  refine bind (ask fun _ ↦ rfl) fun payload ↦ ?_
  dsimp only
  split
  · exact modify fun _ ↦ rfl
  · exact throw _

theorem performCancel (gate : StandardGate) (path : Path) :
    Blind f (Rule.performCancel gate path) := by
  unfold Rule.performCancel
  split
  · exact bind (discard (edit (remove f _))) fun _ ↦ discard (edit (remove f _))
  · exact throw _

theorem performPeep (path : Path) : Blind f (Rule.performPeep path) := by
  refine bind (edit (ask fun g ↦ basisState_rename g _ _)) fun known ↦ ?_
  cases known with
  | none => exact throw _
  | some state =>
    refine get (fun _ ↦ rfl) fun g ↦ ?_
    cases g.gate? path.last with
    | none => exact throw _
    | some payload =>
      dsimp only
      split
      · exact edit (removeGuards f _ _)
      · exact discard (edit (remove f _))

theorem performSandwich (middle replacement : StandardGate) (path : Path) :
    Blind f (Rule.performSandwich middle replacement path) := by
  unfold Rule.performSandwich
  split
  · exact bind (discard (edit (remove f _))) fun _ ↦ bind (discard (edit (remove f _))) fun _ ↦
      edit (setGate f _ _)
  · exact throw _

theorem performReverse (path : Path) : Blind f (Rule.performReverse path) := by
  unfold Rule.performReverse
  split
  · rename_i opening n closing _
    refine get (fun _ ↦ rfl) fun g ↦ ?_
    cases g.gate? n with
    | none => exact throw _
    | some payload =>
      dsimp only
      cases Rule.controlOf payload path.wire with
      | none => exact throw _
      | some control =>
        refine bind (edit (ask fun _ ↦ rfl)) fun hadamards ↦ ?_
        cases hadamards with
        | none => exact throw _
        | some pair =>
          exact bind (forM fun m ↦ discard (edit (remove f m))) fun _ ↦ edit (retarget f _ _ _)
  · exact throw _

theorem check (build : Build) : Blind f build.check := by
  cases build with
  | development => exact edit (ask verify_rename)
  | release => exact pure _

theorem perform (build : Build) (m : Match) : Blind f (m.perform build) := by
  refine bind ?_ fun _ ↦ check f build
  obtain ⟨rule, path⟩ := m
  cases rule with
  | cancel gate => exact performCancel f gate path
  | peep => exact performPeep f path
  | sandwich middle replacement => exact performSandwich f middle replacement path
  | reverse => exact performReverse f path

theorem simplifyLoop (build : Build) (rules : List Rule) (cap : Nat) (stats : Statistics) :
    Blind f (simplifyLoop build rules cap stats) := by
  induction cap generalizing stats with
  | zero =>
    unfold Peephole.simplifyLoop
    refine bind (edit (ask fun g ↦ findMatch_rename g rules)) fun found ↦ ?_
    cases found <;> exact pure _
  | succ cap ih =>
    unfold Peephole.simplifyLoop
    refine bind (edit (ask fun g ↦ findMatch_rename g rules)) fun found ↦ ?_
    cases found with
    | none => exact pure _
    | some m => exact bind (perform f build m) fun _ ↦ ih _

theorem simplify (build : Build) (rules : List Rule) (cap : Nat) :
    Blind f (simplify build rules cap) := by
  refine get (fun g ↦ by rw [gateCount_rename]) fun g ↦
    bind (simplifyLoop f build rules cap _) fun _ ↦ ?_
  exact get (fun g ↦ by rw [gateCount_rename]) fun g ↦ pure _

end Blind

/-! ### Circuits of programs -/

theorem Run.mapM_map_ok {ε α β γ : Type} {x : α → Except ε γ} {y : β → Except ε γ} {k : α → β}
    (hk : ∀ a c, x a = .ok c → y (k a) = .ok c) {l : List α} {r : List γ} (h : l.mapM x = .ok r) :
    (l.map k).mapM y = .ok r := by
  induction l generalizing r with
  | nil => exact h
  | cons a rest ih =>
    rw [List.mapM_cons] at h
    obtain ⟨c, hc, h⟩ := bind_eq_ok.mp h
    obtain ⟨cs, hcs, h⟩ := bind_eq_ok.mp h
    rw [List.map_cons, List.mapM_cons]
    exact bind_eq_ok.mpr ⟨c, hk a c hc, bind_eq_ok.mpr ⟨cs, ih hcs, h⟩⟩

theorem Declaration.qubits_rename (d : Declaration) :
    (d.rename f).qubits = d.qubits.map (Qubit.rename f) := by
  obtain ⟨name, size⟩ := d
  cases size with
  | none => rfl
  | some n =>
    rw [qubits, qubits, List.map_map]
    rfl

namespace Circuit

variable {g t : Circuit} {S : Set String}

theorem addWire_rename (g : Circuit) (q : Qubit) :
    (g.rename f).addWire (q.rename f) = (g.addWire q).rename f := by
  simp only [addWire, addNode, addEdge, rename, List.map_append, List.length_map]
  rfl

theorem addWires_rename (g : Circuit) (qs : List Qubit) :
    (g.rename f).addWires (qs.map (Qubit.rename f)) = (g.addWires qs).rename f := by
  induction qs generalizing g with
  | nil => rfl
  | cons q rest ih => exact (congrArg (addWires · _) (addWire_rename g q)).trans (ih (g.addWire q))

/-- The names of the declarations of a circuit are among some given ones. -/
def NamedIn (S : Set String) (g : Circuit) : Prop :=
  ∀ d ∈ g.declarations, d.name ∈ S

theorem Declared.register_mem (hd : g.Declared) (hg : g.NamedIn S) {wire : Wire}
    (h : wire ∈ g.wires) : wire.qubit.register ∈ S := by
  have hmem := List.mem_map_of_mem (f := Wire.qubit) h
  rw [hd.qubits] at hmem
  obtain ⟨d, hd', hq⟩ := List.mem_flatMap.mp hmem
  rw [Declaration.register_of_mem_qubits hq]
  exact hg d hd'

/-- A qubit is found on its wire under any names that are kept apart. -/
theorem resolve_rename (hf : Set.InjOn f S) (hd : g.Declared) (hg : g.NamedIn S) {name : String}
    {q : Qubit} {w : Nat} (h : g.resolve name q = .ok w) :
    (g.rename f).resolve name (q.rename f) = .ok w := by
  obtain ⟨wire, hwire, rfl⟩ := Option.map_eq_some_iff.mp (qubit_of_wireOf? (resolve_eq_ok.mp h))
  have hmem := List.mem_of_getElem? hwire
  -- A wire is found under the new name, and this can only be the one that has the old name.
  have hmem' : wire.rename f ∈ (g.rename f).wires := List.mem_map_of_mem hmem
  obtain ⟨v, hv⟩ := Option.isSome_iff_exists.mp (isSome_wireOf?.mpr ⟨_, hmem', rfl⟩)
  obtain ⟨found, hfound, hq⟩ := Option.map_eq_some_iff.mp (qubit_of_wireOf? hv)
  rw [rename, List.getElem?_map] at hfound
  obtain ⟨other, hother, rfl⟩ := Option.map_eq_some_iff.mp hfound
  have hregister : other.qubit.register = wire.qubit.register :=
    hf (hd.register_mem hg (List.mem_of_getElem? hother)) (hd.register_mem hg hmem)
      (congrArg Qubit.register hq)
  have hindex : (other.rename f).qubit.index = (wire.rename f).qubit.index := by rw [hq]
  have hvw : v = w := by
    refine hd.qubitAt_inj (List.getElem?_eq_some_iff.mp hother).1
      (List.getElem?_eq_some_iff.mp hwire).1 ?_
    rw [qubitAt_of_some hother, qubitAt_of_some hwire]
    exact Qubit.mk.injEq .. ▸ ⟨hregister, hindex⟩
  exact resolve_eq_ok.mpr (hvw ▸ hv)

theorem resolveAll_rename (hf : Set.InjOn f S) (hd : g.Declared) (hg : g.NamedIn S)
    {a : Application} {r : List Nat × List WireGuard} (h : g.resolveAll a = .ok r) :
    (g.rename f).resolveAll (a.rename f) = .ok r := by
  obtain ⟨targets, htargets, h⟩ := Run.bind_eq_ok.mp h
  obtain ⟨guards, hguards, h⟩ := Run.bind_eq_ok.mp h
  refine Run.bind_eq_ok.mpr ⟨targets, ?_, Run.bind_eq_ok.mpr ⟨guards, ?_, h⟩⟩
  · exact Run.mapM_map_ok (fun q _ ↦ resolve_rename hf hd hg) htargets
  · refine Run.mapM_map_ok (fun c r hr ↦ ?_) hguards
    obtain ⟨w, hw, hr⟩ := Run.map_eq_ok.mp hr
    exact Run.map_eq_ok.mpr ⟨w, resolve_rename hf hd hg hw, hr⟩

theorem declare_granted {d : Declaration} (hd : d.name ∉ g.declarations.map Declaration.name) :
    (declare d).run g = .ok ((List.range d.qubits.length).map (g.wires.length + ·))
      ({ g with declarations := g.declarations ++ [d] }.addWires d.qubits) := by
  have htest : g.declarations.any (·.name = d.name) = false := by
    simpa using hd
  rw [declare, Run.bind_ok Run.get_ok, htest]
  rfl

theorem declare_rename (hf : Set.InjOn f S) (hg : g.NamedIn S) {d : Declaration} (hd : d.name ∈ S)
    {ws : List Nat} (h : (declare d).run g = .ok ws t) :
    ∃ ws', (declare (d.rename f)).run (g.rename f) = .ok ws' (t.rename f) := by
  by_cases hname : d.name ∈ g.declarations.map Declaration.name
  · rw [declare_refused hname] at h
    cases h
  · rw [declare_granted hname] at h
    cases h
    have hname' : (d.rename f).name ∉ (g.rename f).declarations.map Declaration.name := by
      rw [rename, List.map_map]
      intro hmem
      obtain ⟨d', hd', heq⟩ := List.mem_map.mp hmem
      exact hname (hf (hg d' hd') hd heq ▸ List.mem_map_of_mem hd')
    have hwires :=
      addWires_rename (f := f) { g with declarations := g.declarations ++ [d] } d.qubits
    rw [← d.qubits_rename, rename, List.map_append] at hwires
    rw [← hwires]
    exact ⟨_, declare_granted hname'⟩

theorem apply_rename (hf : Set.InjOn f S) (hd : g.Declared) (hg : g.NamedIn S) {a : Application}
    {n : Nat} (h : (apply a).run g = .ok n t) :
    (apply (a.rename f)).run (g.rename f) = .ok n (t.rename f) := by
  cases hr : g.resolveAll a with
  | error e =>
    rw [apply_refused hr] at h
    cases h
  | ok r =>
    rw [apply, Run.bind_ok (Run.ask_ok hr)] at h
    rw [apply, Run.bind_ok (Run.ask_ok (resolveAll_rename hf hd hg hr))]
    have hrest : Blind f (do
        let g ← get
        let payload : GateNode := ⟨a.gate, r.1, r.2, g.placed + 1⟩
        set ({ g with placed := g.placed + 1 }.addNode (.gate payload))
        let n := g.nodes.next
        payload.wires.forM fun w ↦ append w n
        return n : Edit Nat) :=
      .replace (fun _ ↦ rfl) (fun _ ↦ rfl) fun g ↦
        .bind (.forM fun w ↦ .append f w _) fun _ ↦ .pure _
    refine (hrest g).trans ?_
    exact congrArg (Run.renamed f) h

theorem run_rename {p : Program} (hf : Set.InjOn f S) (hp : ∀ n ∈ p.names, n ∈ S)
    (hreachable : g.Reachable) (hg : g.NamedIn S)
    (h : (p.forM Instruction.run : Edit Unit).run g = .ok () t) :
    ((p.rename f).forM Instruction.run : Edit Unit).run (g.rename f) = .ok () (t.rename f) := by
  induction p generalizing g with
  | nil =>
    cases h
    rfl
  | cons instruction rest ih =>
    obtain ⟨⟨⟩, s, hfirst, hrest⟩ := Run.steps_eq_ok.mp h
    obtain ⟨line, hthreaded, hd⟩ := hreachable.threaded
    refine Run.steps_eq_ok.mpr ⟨(), s.rename f, ?_⟩
    cases instruction with
    | declare d =>
      obtain ⟨ws, hdeclare⟩ := Run.discard_eq_ok.mp hfirst
      obtain ⟨-, hdeclarations, -⟩ := hthreaded.listed_declare hdeclare
      have hdS : d.name ∈ S := hp d.name List.mem_cons_self
      have hs : s.NamedIn S := by
        rw [NamedIn, hdeclarations, List.forall_mem_append, List.forall_mem_singleton]
        exact ⟨hg, hdS⟩
      refine ⟨Run.discard_eq_ok.mpr (declare_rename hf hg hdS hdeclare), ?_⟩
      exact ih (fun n hn ↦ hp n (List.mem_cons_of_mem _ hn))
        (hreachable.of_ok (c := .declare d) hfirst) hs hrest
    | apply a =>
      obtain ⟨n, happly⟩ := Run.discard_eq_ok.mp hfirst
      obtain ⟨-, hdeclarations, -⟩ := hthreaded.listed_apply happly
      have hs : s.NamedIn S := by
        rw [NamedIn, hdeclarations]
        exact hg
      refine ⟨Run.discard_eq_ok.mpr ⟨n, apply_rename hf hd hg happly⟩, ?_⟩
      exact ih hp (hreachable.of_ok (c := .apply a) hfirst) hs hrest

/-- The circuit of a renamed program, where the declared names are kept apart. -/
theorem ofProgram_rename {p : Program} (hf : Set.InjOn f {n | n ∈ p.names})
    (h : ofProgram p = .ok g) : ofProgram (p.rename f) = .ok (g.rename f) := by
  rw [ofProgram] at h
  split at h
  · rename_i t hrun
    cases h
    have hrename := run_rename hf (fun n hn ↦ hn) .empty (List.forall_mem_nil _) hrun
    rw [ofProgram, show Circuit.empty = Circuit.empty.rename f from rfl, hrename]
  · cases h

/-! ### Programs of circuits -/

theorem mapM_renamed {ε α β γ : Type} {x : α → Except ε β} {y : α → Except ε γ} {k : β → γ}
    (h : ∀ a, y a = (x a).map k) (l : List α) : l.mapM y = (l.mapM x).map (List.map k) := by
  induction l with
  | nil => rfl
  | cons a rest ih =>
    rw [List.mapM_cons, List.mapM_cons, h, ih]
    cases x a with
    | error e => rfl
    | ok b => cases rest.mapM x <;> rfl

theorem qubitOf_rename (g : Circuit) (w : Nat) :
    (g.rename f).qubitOf w = (g.qubitOf w).map (Qubit.rename f) := by
  rw [qubitOf, wire_rename, qubitOf]
  cases g.wire w <;> rfl

theorem application_rename (g : Circuit) (n : Nat) :
    (g.rename f).application n = (g.application n).map (Application.rename f) := by
  have hsame : (g.rename f).gate? n = g.gate? n := rfl
  have hguard (c : WireGuard) : ((g.rename f).qubitOf c.wire).map (fun q ↦ Guard.mk q c.negated) =
      ((g.qubitOf c.wire).map fun q ↦ Guard.mk q c.negated).map (Guard.rename f) := by
    rw [qubitOf_rename]
    cases g.qubitOf c.wire <;> rfl
  rw [application, application, hsame]
  cases g.gate? n with
  | none => rfl
  | some payload =>
    simp only [mapM_renamed (qubitOf_rename g), mapM_renamed hguard]
    cases payload.targets.mapM g.qubitOf with
    | error e => rfl
    | ok targets =>
      cases payload.guards.mapM fun c ↦ (g.qubitOf c.wire).map fun q ↦ Guard.mk q c.negated <;> rfl

theorem toProgram_rename (g : Circuit) :
    (g.rename f).toProgram = g.toProgram.map (Program.rename f) := by
  have hsame : (g.rename f).ordered = g.ordered := rfl
  rw [toProgram, toProgram, hsame]
  cases g.ordered with
  | error e => rfl
  | ok order =>
    change (order.mapM (g.rename f).application >>= _) =
      Except.map _ (order.mapM g.application >>= _)
    rw [mapM_renamed (application_rename g)]
    cases order.mapM g.application with
    | error e => rfl
    | ok applications =>
      change Except.ok (_ ++ _) = Except.ok (Program.rename f (_ ++ _))
      rw [Program.rename, List.map_append, rename, List.map_map, List.map_map, List.map_map,
        List.map_map]
      rfl

end Circuit

/-! ### Runs of the optimizer -/

variable {build : Build} {settings : Settings} {p : Program}

/-- Every qubit of a program that has a circuit is declared. -/
theorem Program.named_of_ofProgram {g : Circuit} (h : Circuit.ofProgram p = .ok g) : p.Named := by
  obtain ⟨line, hthreaded, hreachable, hdeclarations, hlisted⟩ := Circuit.ofProgram_ok h
  obtain ⟨-, -, hd⟩ := hreachable.threaded
  have hflat : g.flat line = p.applications := hlisted
  rw [Named, ← hflat, Circuit.forall_mem_flat hthreaded.gate]
  intro n _ payload hn x hx
  obtain ⟨w, hw, rfl⟩ := Circuit.touches_applied.mp hx
  obtain ⟨d, hd', hname, -⟩ := hd.resolves (hthreaded.carries hn w hw)
  rw [names, ← hdeclarations, ← hname]
  exact List.mem_map_of_mem hd'

theorem Program.simplify_rename {g : Circuit} (hg : Circuit.ofProgram p = .ok g)
    (hf : Set.InjOn f {n | n ∈ p.names}) (rules : List Rule) (cap : Nat) :
    (p.rename f).simplify build rules cap =
      (p.simplify build rules cap).map fun r ↦ (r.1.rename f, r.2) := by
  simp only [Program.simplify, Circuit.ofProgram_rename hf hg, hg, Except.mapError, bind,
    Except.bind, Blind.simplify f build rules cap g]
  cases (Peephole.simplify build rules cap).run g with
  | error fault t => rfl
  | ok stats t =>
    change (((t.rename f).toProgram.mapError RuleFault.circuit) >>= _) =
      Except.map _ ((t.toProgram.mapError RuleFault.circuit) >>= _)
    rw [Circuit.toProgram_rename]
    cases t.toProgram <;> rfl

/-- The optimizer commutes with every renaming that keeps the declared names apart. -/
theorem optimize_rename {g : Circuit} (hg : Circuit.ofProgram p = .ok g)
    (hf : Set.InjOn f {n | n ∈ p.names}) (settings : Settings) :
    optimize build settings (p.rename f) =
      (optimize build settings p).map fun r ↦ (r.1.rename f, r.2) := by
  rw [optimize, optimize, Program.simplify_rename hg hf]
  cases settings.validate with
  | error fault => rfl
  | ok _ =>
    change Except.mapError _ (Except.map _ _) = Except.map _ (Except.mapError _ _)
    cases p.simplify build settings.rules settings.maxIterations <;> rfl

/-- Every qubit of an optimized program is declared. -/
theorem named_of_optimize {q : Program} {stats : Statistics}
    (h : optimize build settings p = .ok (q, stats)) : q.Named := by
  obtain ⟨-, hsimplify⟩ := optimize_eq_ok.mp h
  obtain ⟨g, used, g', hrun⟩ := Program.exists_simplification hsimplify
  obtain ⟨line, hthreaded, hd⟩ := hrun.exists_threaded
  obtain ⟨t, ht⟩ := hthreaded.exists_ofProgram hd hrun.flattened
  exact Program.named_of_ofProgram ht

theorem names_of_optimize {q : Program} {stats : Statistics}
    (h : optimize build settings p = .ok (q, stats)) : q.names = p.names := by
  obtain ⟨-, hsimplify⟩ := optimize_eq_ok.mp h
  obtain ⟨g, used, g', hrun⟩ := Program.exists_simplification hsimplify
  rw [Program.names, hrun.declarations, Program.names]

/-- Optimizing the canonical form of a program gives the canonical form of the optimized program,
with the same account. So under canonical names, the text of the result and the account do not
depend on the names of the program. -/
theorem optimize_canonical {g : Circuit} (hg : Circuit.ofProgram p = .ok g) (settings : Settings) :
    optimize build settings p.canonical =
      (optimize build settings p).map (fun r ↦ (r.1.canonical, r.2)) ∧
    ∀ f : String → String, Set.InjOn f {n | n ∈ p.names} →
      (optimize build settings (p.rename f)).map (fun r ↦ (r.1.canonical.emit, r.2)) =
        (optimize build settings p).map fun r ↦ (r.1.canonical.emit, r.2) := by
  constructor
  · rw [p.canonical_eq_rename, optimize_rename hg (injOn_canonicalName p.names)]
    cases h : optimize build settings p with
    | error fault => rfl
    | ok r =>
      change Except.ok (r.1.rename _, r.2) = Except.ok (r.1.rename (canonicalName r.1.names), r.2)
      rw [names_of_optimize h]
  · intro f hf
    rw [optimize_rename hg hf]
    cases h : optimize build settings p with
    | error fault => rfl
    | ok r =>
      change Except.ok ((r.1.rename f).canonical.emit, r.2) = Except.ok (r.1.canonical.emit, r.2)
      rw [Program.canonical_rename (named_of_optimize h) (names_of_optimize h ▸ hf)]

/-- A register is called as the canonical form calls another one. -/
theorem optimize_canonical_crossed :
    let p : Program := [.declare ⟨"id1", none⟩, .declare ⟨"id0", some 2⟩,
      .apply ⟨.standard .h, [⟨"id0", some 1⟩], []⟩, .apply ⟨.standard .x, [⟨"id1", none⟩], []⟩,
      .apply ⟨.standard .h, [⟨"id0", some 1⟩], [⟨⟨"id1", none⟩, false⟩]⟩,
      .apply ⟨.standard .t, [⟨"id0", some 0⟩], []⟩]
    let q : Program := [.declare ⟨"id0", none⟩, .declare ⟨"id1", some 2⟩,
      .apply ⟨.standard .x, [⟨"id0", none⟩], []⟩, .apply ⟨.standard .t, [⟨"id1", some 0⟩], []⟩]
    let stats : Statistics := ⟨4, 2, 2, [("null-gate(h)", 1), ("peeping-control", 1)], false⟩
    (∃ g, Circuit.ofProgram p = .ok g) ∧
      optimize .development ⟨.all, none, 10⟩ p.canonical = .ok (q, stats) ∧
      (optimize .development ⟨.all, none, 10⟩ (p.rename ("new_" ++ ·))).map
        (fun r ↦ (r.1.canonical.emit, r.2)) = .ok (q.emit, stats) := by
  intro p q stats
  obtain ⟨g, hg⟩ : ∃ g, Circuit.ofProgram p = .ok g := ⟨_, rfl⟩
  obtain ⟨hcanonical, hrenamed⟩ := optimize_canonical hg ⟨.all, none, 10⟩
  have hrun : (optimize .development ⟨.all, none, 10⟩ p).map (fun r ↦ (r.1.canonical, r.2)) =
      .ok (q, stats) := Run.toOption_eq_some.mp (by decide +kernel)
  refine ⟨⟨g, hg⟩, hcanonical.trans hrun, ?_⟩
  rw [hrenamed _ fun m _ n _ h ↦ (String.append_right_inj _).mp h]
  obtain ⟨r, hr, hpair⟩ := Run.map_eq_ok.mp hrun
  obtain ⟨hprogram, hstats⟩ := Prod.mk.inj hpair
  exact Run.map_eq_ok.mpr ⟨r, hr, by rw [hprogram, hstats]⟩

end Peephole
