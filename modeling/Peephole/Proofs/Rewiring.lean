import Peephole.Proofs.Edits

/-!
# Edits that keep the line of gates

A change of one gate that keeps its place in the program keeps the line (`Threaded.updateGate`).
Dropping the guards of a gate on one wire takes the gate out of that wire alone, unless the wire is
also a target (`Threaded.removeGuards_ok`). A new gate kind or new targets and guards on the same
wires leave every wire as it was (`Threaded.setGate_ok`, `Threaded.retarget_ok`). A declaration adds
empty wires (`Threaded.declare_ok`).
-/

set_option autoImplicit false
set_option relaxedAutoImplicit false

namespace Peephole

/-- A gate without its guards on a wire. -/
def GateNode.dropGuards (w : Nat) (p : GateNode) : GateNode :=
  { p with guards := p.guards.filter (·.wire ≠ w) }

theorem GateNode.touches_dropGuards {p : GateNode} {w v : Nat} :
    (p.dropGuards w).touches v = true ↔ v ∈ p.targets ∨ v ∈ p.guardWires ∧ v ≠ w := by
  rw [touches_iff, dropGuards, guardWires, guardWires]
  refine or_congr_right ?_
  simp only [List.mem_map, List.mem_filter, decide_eq_true_eq]
  constructor
  · rintro ⟨c, ⟨hc, hw⟩, rfl⟩
    exact ⟨⟨c, hc, rfl⟩, hw⟩
  · rintro ⟨⟨c, hc, rfl⟩, hw⟩
    exact ⟨c, ⟨hc, hw⟩, rfl⟩

theorem GateNode.touches_dropGuards_self {p : GateNode} {w : Nat} :
    (p.dropGuards w).touches w = p.isTarget w := by
  rw [Bool.eq_iff_iff, touches_dropGuards, isTarget_iff]
  simp

theorem GateNode.touches_dropGuards_of_ne {p : GateNode} {w v : Nat} (hv : v ≠ w) :
    (p.dropGuards w).touches v = p.touches v := by
  rw [Bool.eq_iff_iff, touches_dropGuards, touches_iff]
  simp [hv]

namespace Circuit

variable {g : Circuit} {line : List Nat} {w n : Nat} {p : GateNode} {f : GateNode → GateNode}

/-! ### A change of one gate -/

/-- A gate changes and keeps its place, and the wires run along the same line, if the edges do. -/
theorem Threaded.updateGate (h : g.Threaded line) (hp : g.gate? n = some p)
    (horder : (f p).order = p.order) (hwithin : ∀ w, (f p).touches w = true → w < g.wires.length)
    {edges : Slots Edge} (hedges : Strung edges ((g.updateGate n f).thread line)) :
    Threaded { g.updateGate n f with edges } line := by
  have hplace (m : Nat) : (g.updateGate n f).placeOf m = g.placeOf m := by
    by_cases hm : m = n
    · subst hm
      rw [placeOf_eq (gate?_updateGate_self hp f), placeOf_eq hp, horder]
    · rw [placeOf, gate?_updateGate_of_ne hm, placeOf]
  have hframed := h.framed.updateGate hp horder hwithin edges
  refine ⟨(g.nodes.keys_update n _).trans h.keys, ?_, hframed.input, hframed.output, ?_,
    hframed.placed, hframed.within, hedges⟩
  · intro m hm
    change ((g.updateGate n f).gate? m).isSome = true
    rw [gate?_updateGate]
    split
    · rw [Option.isSome_map]
      exact h.gate m hm
    · exact h.gate m hm
  · refine h.sorted.imp fun {m k} hlt ↦ ?_
    change (g.updateGate n f).placeOf m < (g.updateGate n f).placeOf k
    rw [hplace, hplace]
    exact hlt

theorem isOn_updateGate_self (hp : g.gate? n = some p) (f : GateNode → GateNode) :
    (g.updateGate n f).isOn w n = (f p).touches w := by
  rw [isOn, gate?_updateGate_self hp, Option.any_some]

theorem isOn_updateGate_of_ne {m : Nat} (hm : m ≠ n) (f : GateNode → GateNode) :
    (g.updateGate n f).isOn w m = g.isOn w m := by
  rw [isOn, gate?_updateGate_of_ne hm, isOn]

/-- A change that keeps the place and the wires of a gate keeps every wire. -/
theorem Threaded.updateGate_of_touches (h : g.Threaded line) (hp : g.gate? n = some p)
    (horder : (f p).order = p.order) (htouches : ∀ w, (f p).touches w = p.touches w) :
    (g.updateGate n f).Threaded line := by
  have hthread : (g.updateGate n f).thread line = g.thread line := by
    funext w
    refine thread_congr rfl fun m _ ↦ ?_
    by_cases hm : m = n
    · subst hm
      rw [isOn_updateGate_self hp, htouches, isOn, hp, Option.any_some]
    · exact isOn_updateGate_of_ne hm f
  refine h.updateGate hp horder (fun w hw ↦ h.within n p w hp (htouches w ▸ hw)) ?_
  rw [hthread]
  exact h.strung

theorem gateAt_ok (hp : g.gate? n = some p) : g.gateAt n = .ok p := by
  rw [gateAt, gate?_eq_some.mp hp]

/-- Another gate kind is put in the place of the old one. -/
theorem Threaded.setGate_ok (h : g.Threaded line) (hp : g.gate? n = some p) (gate : Gate) :
    (setGate n gate).run g = .ok () (g.updateGate n fun p ↦ { p with gate }) ∧
      (g.updateGate n fun p ↦ { p with gate }).Threaded line := by
  refine ⟨?_, h.updateGate_of_touches hp rfl fun _ ↦ rfl⟩
  rw [setGate, Run.bind_ok (Run.discard_ok (Run.ask_ok (gateAt_ok hp)))]
  rfl

/-- Other targets and guards on the same wires are put in the place of the old ones. -/
theorem Threaded.retarget_ok (h : g.Threaded line) (hp : g.gate? n = some p) {targets : List Nat}
    {guards : List WireGuard}
    (hwires : ∀ w, w ∈ p.wires ↔ w ∈ targets ++ guards.map WireGuard.wire) :
    (retarget n targets guards).run g =
        .ok () (g.updateGate n fun p ↦ { p with targets, guards }) ∧
      (g.updateGate n fun p ↦ { p with targets, guards }).Threaded line := by
  refine ⟨?_, h.updateGate_of_touches hp rfl fun w ↦ ?_⟩
  · have htest : (p.wires.all ((targets ++ guards.map WireGuard.wire).contains ·) &&
        (targets ++ guards.map WireGuard.wire).all (p.wires.contains ·)) = true := by
      simp only [Bool.and_eq_true, List.all_eq_true, List.contains_iff_mem]
      exact ⟨fun w ↦ (hwires w).mp, fun w ↦ (hwires w).mpr⟩
    rw [retarget, Run.bind_ok (Run.ask_ok (gateAt_ok hp))]
    dsimp only
    rw [if_pos htest]
    rfl
  · rw [Bool.eq_iff_iff, ← GateNode.mem_wires (p := p), hwires w, List.mem_append]
    exact GateNode.touches_iff

/-- The guards of a gate on one wire are dropped, and the gate leaves the wire unless it is a
target. -/
theorem Threaded.removeGuards_ok (h : g.Threaded line) (hp : g.gate? n = some p)
    (hguard : p.isGuard w = true) :
    ∃ edges, (removeGuards n w).run g =
        .ok () { g.updateGate n (GateNode.dropGuards w) with edges } ∧
      Threaded { g.updateGate n (GateNode.dropGuards w) with edges } line := by
  have hrun : (removeGuards n w).run g =
      (if p.isTarget w then pure () else spliceOut n w : Edit Unit).run
        (g.updateGate n (GateNode.dropGuards w)) := by
    rw [removeGuards, Run.bind_ok (Run.ask_ok (gateAt_ok hp)), if_pos hguard,
      Run.bind_ok (Run.modify_ok _)]
    rfl
  have hfewer (v : Nat) (hv : (p.dropGuards w).touches v = true) : p.touches v = true := by
    rw [GateNode.touches_iff]
    exact (GateNode.touches_dropGuards.mp hv).imp_right And.left
  by_cases htarget : p.isTarget w = true
  · have hsame (v : Nat) : (p.dropGuards w).touches v = p.touches v := by
      by_cases hv : v = w
      · rw [hv, GateNode.touches_dropGuards_self, GateNode.touches, htarget, Bool.true_or]
      · exact GateNode.touches_dropGuards_of_ne hv
    refine ⟨g.edges, ?_, h.updateGate_of_touches hp rfl hsame⟩
    rw [hrun, if_pos htarget]
    rfl
  · have hon : g.isOn w n = true := isOn_iff.mpr ⟨p, hp, by
      rw [GateNode.touches, hguard, Bool.or_true]⟩
    have hoff : (p.dropGuards w).touches w = false :=
      GateNode.touches_dropGuards_self.trans (Bool.eq_false_iff.mpr htarget)
    obtain ⟨front, a, b, back, hpath⟩ := h.exists_neighbours hon
    obtain ⟨edges, hsplice, hedges⟩ :=
      spliceOut_ok (g := g.updateGate n (GateNode.dropGuards w)) h.strung (h.nodup_thread w)
        (contains_of_gate (gate?_updateGate_self hp _)) hpath
    refine ⟨edges, ?_, h.updateGate hp rfl (fun v hv ↦ h.within n p v hp (hfewer v hv)) ?_⟩
    · rw [hrun, if_neg htarget, hsplice]
    · convert hedges using 1
      funext v
      by_cases hv : v = w
      · subst hv
        rw [Function.update_self, ← h.thread_filter (h.mem_line_of_gate hp)]
        refine thread_eq_of_filter rfl ?_
        rw [List.filter_filter]
        refine List.filter_congr fun m _ ↦ ?_
        by_cases hm : m = n
        · subst hm
          rw [isOn_updateGate_self hp, hoff]
          simp
        · rw [isOn_updateGate_of_ne hm]
          simp [hm]
      · rw [Function.update_of_ne hv]
        refine thread_congr rfl fun m _ ↦ ?_
        by_cases hm : m = n
        · subst hm
          rw [isOn_updateGate_self hp, GateNode.touches_dropGuards_of_ne hv, isOn, hp,
            Option.any_some]
        · exact isOn_updateGate_of_ne hm _

/-! ### New wires -/

/-- The new wire leads from its input straight to its output, and the others stay as they are. -/
theorem Threaded.thread_addWire (h : g.Threaded line) (q : Qubit) :
    (g.addWire q).thread line = Function.update (g.thread line) g.wires.length
      [g.nodes.next, (g.addNode (.input g.wires.length)).nodes.next] := by
  have hon (w m : Nat) : (g.addWire q).isOn w m = g.isOn w m := by
    rw [isOn, gate?_addWire, isOn]
  funext w
  by_cases hw : w = g.wires.length
  · subst hw
    have hlast := (g.getElem?_wires_addWire q g.wires.length).trans (if_pos rfl)
    have hempty : line.filter ((g.addWire q).isOn g.wires.length) = [] := by
      refine List.filter_eq_nil_iff.mpr fun m _ hm ↦ ?_
      rw [hon] at hm
      obtain ⟨p, hp, htouch⟩ := isOn_iff.mp hm
      exact Nat.lt_irrefl _ (h.within m p _ hp htouch)
    rw [Function.update_self, thread_of_some hlast, hempty]
    rfl
  · rw [Function.update_of_ne hw]
    refine thread_congr ?_ fun m _ ↦ hon w m
    rw [getElem?_wires_addWire, if_neg hw]

/-- A new wire is put beside the others, and the line stays as it is. -/
theorem Threaded.addWire (h : g.Threaded line) (q : Qubit) : (g.addWire q).Threaded line := by
  set input := g.nodes.next
  set output := (g.addNode (.input g.wires.length)).nodes.next
  have hframed := h.framed.addWire q
  refine ⟨?_, ?_, hframed.input, hframed.output, ?_, hframed.placed, hframed.within, ?_⟩
  · have hfirst : (g.addNode (.input g.wires.length)).nodes.keys.Perm
        (input :: (line ++ g.ends)) :=
      (g.nodes.keys_insert _).trans (h.keys.cons _)
    have hsecond : (g.addWire q).nodes.keys.Perm (output :: input :: (line ++ g.ends)) :=
      (Slots.keys_insert _ _).trans (hfirst.cons _)
    have hcomm : ([input, output] ++ (line ++ g.ends)).Perm (line ++ g.ends ++ [input, output]) :=
      List.perm_append_comm
    rw [ends_addWire, ← List.append_assoc]
    exact hsecond.trans ((List.Perm.swap _ _ _).trans hcomm)
  · intro m hm
    rw [gate?_addWire]
    exact h.gate m hm
  · refine h.sorted.imp fun {m k} hlt ↦ ?_
    rw [placeOf, placeOf, gate?_addWire, gate?_addWire]
    exact hlt
  · rw [h.thread_addWire]
    exact h.strung.begin (thread_of_none (List.getElem?_eq_none (Nat.le_refl _)) line)

/-- The circuit with the wires of some more qubits. -/
def addWires (g : Circuit) (qs : List Qubit) : Circuit :=
  qs.foldl (fun g q ↦ g.addWire q) g

theorem Threaded.addWires (h : g.Threaded line) (qs : List Qubit) :
    (g.addWires qs).Threaded line := by
  induction qs generalizing g with
  | nil => exact h
  | cons q rest ih => exact ih (h.addWire q)

theorem gate?_addWires (qs : List Qubit) (m : Nat) : (g.addWires qs).gate? m = g.gate? m := by
  induction qs generalizing g with
  | nil => rfl
  | cons q rest ih => exact (ih (g := g.addWire q)).trans (gate?_addWire q m)

/-- The new wires come after the old ones, in the order of their qubits. -/
theorem exists_wires_addWires (qs : List Qubit) :
    ∃ more, (g.addWires qs).wires = g.wires ++ more ∧ more.map Wire.qubit = qs := by
  induction qs generalizing g with
  | nil => exact ⟨[], (List.append_nil _).symm, rfl⟩
  | cons q rest ih =>
    obtain ⟨more, hwires, hqubits⟩ := ih (g := g.addWire q)
    refine ⟨_ :: more, hwires.trans (List.append_cons _ _ _).symm, ?_⟩
    rw [List.map_cons, hqubits]

theorem declarations_addWires (qs : List Qubit) :
    (g.addWires qs).declarations = g.declarations := by
  induction qs generalizing g with
  | nil => rfl
  | cons q rest ih => exact ih (g := g.addWire q)

/-- A new name is declared: the line stays, and the wires are those of all declarations. -/
theorem Threaded.declare_ok (h : g.Threaded line) {d : Declaration}
    (hd : d.name ∉ g.declarations.map Declaration.name) :
    (declare d).run g = .ok ((List.range d.qubits.length).map (g.wires.length + ·))
        ({ g with declarations := g.declarations ++ [d] }.addWires d.qubits) ∧
      ({ g with declarations := g.declarations ++ [d] }.addWires d.qubits).Threaded line := by
  have htest : g.declarations.any (·.name = d.name) = false := by
    simpa using hd
  have hsame : Threaded { g with declarations := g.declarations ++ [d] } line :=
    ⟨h.keys, h.gate, h.input, h.output, h.sorted, h.placed, h.within, h.strung⟩
  refine ⟨?_, hsame.addWires d.qubits⟩
  rw [declare, Run.bind_ok Run.get_ok, htest]
  rfl

theorem Declared.declare (h : g.Declared) {d : Declaration}
    (hd : d.name ∉ g.declarations.map Declaration.name) :
    ({ g with declarations := g.declarations ++ [d] }.addWires d.qubits).Declared := by
  obtain ⟨more, hwires, hqubits⟩ :=
    exists_wires_addWires (g := { g with declarations := g.declarations ++ [d] }) d.qubits
  constructor
  · rw [hwires, declarations_addWires, List.map_append, hqubits, h.qubits, List.flatMap_append]
    simp
  · rw [declarations_addWires, List.map_append, List.nodup_append]
    refine ⟨h.names, List.nodup_singleton _, ?_⟩
    intro name hname other hother heq
    rw [heq, List.mem_singleton.mp hother] at hname
    exact hd hname

end Circuit

end Peephole
