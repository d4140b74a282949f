import Peephole.Circuit.Edit
import Peephole.Proofs.Threads

/-!
# The nodes of a circuit

Whatever the edges of a circuit are, its nodes are the ends of its wires and gates on these wires,
each gate with a place of its own (`Circuit.Framed`). This module says what the changes of a circuit
do to a single node, and that they keep this frame: a gate comes (`Framed.insertGate`), goes
(`Framed.eraseGate`) or changes (`Framed.updateGate`), or there is a new wire (`Framed.addWire`).
-/

set_option autoImplicit false
set_option relaxedAutoImplicit false

namespace Peephole.Circuit

variable {g : Circuit} {line : List Nat} {w n : Nat} {p : GateNode} {f : GateNode → GateNode}

/-! ### Single nodes -/

theorem gate?_addNode (node : Node) (m : Nat) :
    (g.addNode node).gate? m = if m = g.nodes.next then node.gate? else g.gate? m := by
  rw [gate?, node?, addNode, Slots.get?_insert, gate?, node?]
  split <;> rfl

theorem gate?_next : g.gate? g.nodes.next = none := by
  rw [gate?, node?, Slots.get?_next]
  rfl

theorem node?_addNode (node : Node) (m : Nat) :
    (g.addNode node).node? m = if m = g.nodes.next then some node else g.node? m :=
  Slots.get?_insert _ _ _

theorem node?_addNode_of_some {node other : Node} {m : Nat} (hm : g.node? m = some other) :
    (g.addNode node).node? m = some other := by
  have hne : m ≠ g.nodes.next := by
    rintro rfl
    rw [node?, Slots.get?_next] at hm
    cases hm
  rw [node?_addNode, if_neg hne, hm]

theorem gate?_erase (edges : Slots Edge) (m : Nat) :
    gate? { g with nodes := g.nodes.erase n, edges } m = if m = n then none else g.gate? m := by
  rw [gate?, node?, Slots.get?_erase, gate?, node?]
  split <;> rfl

theorem gate?_updateGate (f : GateNode → GateNode) (n m : Nat) :
    (g.updateGate n f).gate? m = if m = n then (g.gate? m).map f else g.gate? m := by
  rw [gate?, node?, updateGate, Slots.get?_update, gate?, node?]
  by_cases hm : m = n
  · rw [if_pos hm, if_pos hm]
    cases g.nodes.get? m with
    | none => rfl
    | some node => cases node <;> rfl
  · rw [if_neg hm, if_neg hm]

theorem gate?_updateGate_self (hp : g.gate? n = some p) (f : GateNode → GateNode) :
    (g.updateGate n f).gate? n = some (f p) := by
  rw [gate?_updateGate, if_pos rfl, hp, Option.map_some]

theorem gate?_updateGate_of_ne {m : Nat} (hm : m ≠ n) (f : GateNode → GateNode) :
    (g.updateGate n f).gate? m = g.gate? m := by
  rw [gate?_updateGate, if_neg hm]

/-- The ends of the wires are not gates and stay as they are. -/
theorem node?_updateGate {m : Nat} {node : Node} (hm : g.node? m = some node)
    (hnode : node.gate? = none) : (g.updateGate n f).node? m = some node := by
  rw [node?, updateGate, Slots.get?_update, ← node?, hm]
  split
  · cases node with
    | input w => rfl
    | output w => rfl
    | gate q => cases hnode
  · rfl

/-- A gate that is there after a change of one gate was there before, or is the changed one. -/
theorem gate?_updateGate_cases (hp : g.gate? n = some p) {m : Nat} {q : GateNode}
    (hq : (g.updateGate n f).gate? m = some q) : (m = n ∧ q = f p) ∨ g.gate? m = some q := by
  by_cases hm : m = n
  · subst hm
    rw [gate?_updateGate_self hp, Option.some.injEq] at hq
    exact .inl ⟨rfl, hq.symm⟩
  · rw [gate?_updateGate_of_ne hm] at hq
    exact .inr hq

theorem gate?_addWire (q : Qubit) (m : Nat) : (g.addWire q).gate? m = g.gate? m := by
  have hend (g : Circuit) (node : Node) (hnode : node.gate? = none) :
      (g.addNode node).gate? m = g.gate? m := by
    rw [gate?_addNode, hnode]
    split
    · rename_i hm
      rw [hm, gate?_next]
    · rfl
  exact (hend (g.addNode (.input g.wires.length)) (.output _) rfl).trans (hend g (.input _) rfl)

theorem wires_addWire (q : Qubit) : (g.addWire q).wires =
    g.wires ++ [⟨q, g.nodes.next, (g.addNode (.input g.wires.length)).nodes.next⟩] :=
  rfl

theorem getElem?_wires_addWire (q : Qubit) (w : Nat) : (g.addWire q).wires[w]? =
    if w = g.wires.length then
      some ⟨q, g.nodes.next, (g.addNode (.input g.wires.length)).nodes.next⟩
    else g.wires[w]? := by
  rw [wires_addWire]
  rcases Nat.lt_trichotomy w g.wires.length with hlt | heq | hgt
  · rw [if_neg (Nat.ne_of_lt hlt), List.getElem?_append_left hlt]
  · rw [if_pos heq, heq, List.getElem?_concat_length]
  · rw [if_neg (Nat.ne_of_gt hgt), List.getElem?_eq_none (Nat.le_of_lt hgt),
      List.getElem?_eq_none (by rw [List.length_append]; exact hgt)]

theorem ends_addWire (q : Qubit) : (g.addWire q).ends =
    g.ends ++ [g.nodes.next, (g.addNode (.input g.wires.length)).nodes.next] := by
  rw [ends, wires_addWire, List.flatMap_append]
  rfl

theorem node?_addWire (q : Qubit) (m : Nat) : (g.addWire q).node? m =
    if m = (g.addNode (.input g.wires.length)).nodes.next then some (.output g.wires.length)
    else if m = g.nodes.next then some (.input g.wires.length) else g.node? m := by
  refine (node?_addNode (g := g.addNode (.input g.wires.length)) (.output _) m).trans ?_
  rw [node?_addNode]

theorem node?_addWire_of_some {q : Qubit} {node : Node} (hn : g.node? n = some node) :
    (g.addWire q).node? n = some node :=
  node?_addNode_of_some (g := g.addNode _) (node?_addNode_of_some hn)

/-! ### The frame -/

/-- A circuit whose nodes are the ends of its wires and gates on these wires, no two of which have
the same place. -/
structure Framed (g : Circuit) : Prop where
  input : ∀ w wire, g.wires[w]? = some wire → g.node? wire.input = some (.input w)
  output : ∀ w wire, g.wires[w]? = some wire → g.node? wire.output = some (.output w)
  ends : ∀ n node, g.node? n = some node → node.gate? = none → n ∈ g.ends
  placed : ∀ n p, g.gate? n = some p → p.order ≤ g.placed
  distinct : ∀ m n p q, g.gate? m = some p → g.gate? n = some q → p.order = q.order → m = n
  within : ∀ n p w, g.gate? n = some p → p.touches w = true → w < g.wires.length

namespace Framed

variable (h : g.Framed)

include h

/-- A gate comes, at the place after all others. -/
theorem insertGate (horder : p.order = g.placed + 1)
    (hwithin : ∀ w, p.touches w = true → w < g.wires.length) (edges : Slots Edge) :
    Framed { g with nodes := g.nodes.insert (.gate p), edges, placed := g.placed + 1 } := by
  have hcases {m : Nat} {q : GateNode} (hq : (g.addNode (.gate p)).gate? m = some q) :
      (m = g.nodes.next ∧ q = p) ∨ g.gate? m = some q := by
    rw [gate?_addNode] at hq
    split at hq
    · rename_i hm
      cases hq
      exact .inl ⟨hm, rfl⟩
    · exact .inr hq
  refine ⟨fun w wire hw ↦ node?_addNode_of_some (h.input w wire hw),
    fun w wire hw ↦ node?_addNode_of_some (h.output w wire hw), ?_, ?_, ?_, ?_⟩
  · intro m node hm hnode
    have hm : (g.addNode (.gate p)).node? m = some node := hm
    rw [node?_addNode] at hm
    split at hm
    · cases hm
      cases hnode
    · exact h.ends m node hm hnode
  · intro m q hq
    rcases hcases hq with ⟨-, rfl⟩ | hq
    · exact Nat.le_of_eq horder
    · exact Nat.le_succ_of_le (h.placed m q hq)
  · intro m k q r hq hr heq
    rcases hcases hq with ⟨hm, hqp⟩ | hold
    · rcases hcases hr with ⟨hk, -⟩ | hold
      · rw [hm, hk]
      · have hle := h.placed k r hold
        rw [hqp, horder] at heq
        omega
    · rcases hcases hr with ⟨-, hrp⟩ | hold'
      · have hle := h.placed m q hold
        rw [hrp, horder] at heq
        omega
      · exact h.distinct m k q r hold hold' heq
  · intro m q w hq hw
    rcases hcases hq with ⟨-, rfl⟩ | hq
    · exact hwithin w hw
    · exact h.within m q w hq hw

theorem not_mem_ends (hp : g.gate? n = some p) : n ∉ g.ends := by
  intro hmem
  rw [gate?_eq_some] at hp
  obtain ⟨w, wire, hw, rfl | rfl⟩ := mem_ends.mp hmem
  · rw [h.input w wire hw] at hp
    cases hp
  · rw [h.output w wire hw] at hp
    cases hp

/-- A gate goes. -/
theorem eraseGate (hp : g.gate? n = some p) (edges : Slots Edge) :
    Framed { g with nodes := g.nodes.erase n, edges } := by
  have hsome {m : Nat} {q : GateNode}
      (hq : gate? { g with nodes := g.nodes.erase n, edges } m = some q) :
      g.gate? m = some q := by
    rw [gate?_erase] at hq
    split at hq
    · cases hq
    · exact hq
  have hend {m : Nat} {node : Node} (hm : m ∈ g.ends) (hnode : g.node? m = some node) :
      node? { g with nodes := g.nodes.erase n, edges } m = some node := by
    have hne : m ≠ n := fun heq ↦ h.not_mem_ends hp (heq ▸ hm)
    rw [node?, Slots.get?_erase, if_neg hne]
    exact hnode
  refine ⟨fun w wire hw ↦ hend (input_mem_ends hw) (h.input w wire hw),
    fun w wire hw ↦ hend (output_mem_ends hw) (h.output w wire hw), ?_,
    fun m q hq ↦ h.placed m q (hsome hq),
    fun m k q r hq hr ↦ h.distinct m k q r (hsome hq) (hsome hr),
    fun m q w hq ↦ h.within m q w (hsome hq)⟩
  intro m node hm hnode
  rw [node?, Slots.get?_erase] at hm
  split at hm
  · cases hm
  · exact h.ends m node hm hnode

/-- A gate changes and keeps its place. -/
theorem updateGate (hp : g.gate? n = some p) (horder : (f p).order = p.order)
    (hwithin : ∀ w, (f p).touches w = true → w < g.wires.length) (edges : Slots Edge) :
    Framed { g.updateGate n f with edges } := by
  have hplace {m : Nat} {q : GateNode} (hq : (g.updateGate n f).gate? m = some q) :
      ∃ r, g.gate? m = some r ∧ q.order = r.order := by
    rcases gate?_updateGate_cases hp hq with ⟨rfl, rfl⟩ | hq
    · exact ⟨p, hp, horder⟩
    · exact ⟨q, hq, rfl⟩
  refine ⟨fun w wire hw ↦ node?_updateGate (h.input w wire hw) rfl,
    fun w wire hw ↦ node?_updateGate (h.output w wire hw) rfl, ?_, ?_, ?_, ?_⟩
  · intro m node hm hnode
    have hm : (g.updateGate n f).node? m = some node := hm
    rw [node?, Circuit.updateGate, Slots.get?_update] at hm
    split at hm
    · obtain ⟨old, hold, hchange⟩ := Option.map_eq_some_iff.mp hm
      refine h.ends m old hold ?_
      cases old with
      | input w => rfl
      | output w => rfl
      | gate q =>
        rw [← hchange] at hnode
        cases hnode
    · exact h.ends m node hm hnode
  · intro m q hq
    obtain ⟨r, hr, hqr⟩ := hplace hq
    exact hqr ▸ h.placed m r hr
  · intro m k q r hq hr heq
    obtain ⟨q', hq', hqq⟩ := hplace hq
    obtain ⟨r', hr', hrr⟩ := hplace hr
    exact h.distinct m k q' r' hq' hr' (hqq ▸ hrr ▸ heq)
  · intro m q w hq hw
    rcases gate?_updateGate_cases hp hq with ⟨rfl, rfl⟩ | hq
    · exact hwithin w hw
    · exact h.within m q w hq hw

/-- There is a new wire. -/
theorem addWire (q : Qubit) : (g.addWire q).Framed := by
  have hgate {m : Nat} {p : GateNode} (hp : (g.addWire q).gate? m = some p) :
      g.gate? m = some p := by
    rwa [gate?_addWire] at hp
  refine ⟨?_, ?_, ?_, fun m p hp ↦ h.placed m p (hgate hp),
    fun m k p r hp hr ↦ h.distinct m k p r (hgate hp) (hgate hr), ?_⟩
  · intro w wire hw
    rw [getElem?_wires_addWire] at hw
    split at hw
    · rename_i hlast
      cases hw
      refine node?_addNode_of_some (g := g.addNode _) ?_
      rw [node?_addNode, if_pos rfl, hlast]
    · exact node?_addWire_of_some (h.input w wire hw)
  · intro w wire hw
    rw [getElem?_wires_addWire] at hw
    split at hw
    · rename_i hlast
      cases hw
      rw [node?_addWire, if_pos rfl, hlast]
    · exact node?_addWire_of_some (h.output w wire hw)
  · intro m node hm hnode
    rw [node?_addWire] at hm
    rw [ends_addWire, List.mem_append]
    split at hm
    · exact .inr (by simp [*])
    · split at hm
      · exact .inr (by simp [*])
      · exact .inl (h.ends m node hm hnode)
  · intro m p v hp hv
    rw [wires_addWire, List.length_append]
    exact Nat.lt_succ_of_lt (h.within m p v (hgate hp) hv)

end Framed

namespace Threaded

variable (h : g.Threaded line)

include h

/-- Two gates with the same place are the same gate. -/
theorem eq_of_placeOf {m k : Nat} (hm : m ∈ line) (hk : k ∈ line)
    (heq : g.placeOf m = g.placeOf k) : m = k := by
  have hplaces : (line.map g.placeOf).Nodup :=
    List.pairwise_map.mpr (h.sorted.imp Nat.ne_of_lt)
  exact List.inj_on_of_nodup_map hplaces hm hk heq

/-- A circuit with a line has a frame. -/
theorem framed : g.Framed where
  input := h.input
  output := h.output
  ends n node hn hnode := by
    refine (h.contains_iff.mp (contains_of_node hn)).resolve_left fun hline ↦ ?_
    have hgate := h.gate n hline
    rw [gate?, hn, Option.bind_some, hnode] at hgate
    cases hgate
  placed := h.placed
  distinct m n p q hp hq heq := by
    refine h.eq_of_placeOf (h.mem_line_of_gate hp) (h.mem_line_of_gate hq) ?_
    rw [placeOf_eq hp, placeOf_eq hq, heq]
  within := h.within

end Threaded

end Peephole.Circuit
