import Peephole.Proofs.Reachable
import Peephole.Proofs.Walks

/-!
# What every sequence of edits keeps

With `connect` among the edits a wire can branch, end nowhere or run in circles, and an edit that is
refused can leave its work half done. `Circuit.Constructible` holds of every circuit that calls and
connections make from the circuit without qubits, refused or not. What they all keep is
`Circuit.Coherent`: the nodes are the ends of the wires and gates on them, and every edge leads from
a node that is no output to a node that is no input. An edit keeps a property when the circuit has
it after each way in which the edit can end (`Edit.Keeps`).
-/

set_option autoImplicit false
set_option relaxedAutoImplicit false

namespace Peephole

/-! ### Edits that keep a property -/

namespace Edit

variable {α β : Type} {P : Circuit → Prop} {x : Edit α} {f : α → Edit β} {g : Circuit}

/-- The circuit after an edit, whether or not the edit is refused. -/
def after (x : Edit α) (g : Circuit) : Circuit :=
  match x.run g with
  | .ok _ g' => g'
  | .error _ g' => g'

theorem after_of_ok {a : α} {g' : Circuit} (h : x.run g = .ok a g') : x.after g = g' := by
  rw [after, h]

theorem after_of_error {e : CircuitFault} {g' : Circuit} (h : x.run g = .error e g') :
    x.after g = g' := by
  rw [after, h]

theorem after_bind {a : α} {g' : Circuit} (h : x.run g = .ok a g') :
    (x >>= f).after g = (f a).after g' := by
  rw [after, Run.bind_ok h, after]

theorem after_discard (x : Edit α) (g : Circuit) : (discard x).after g = x.after g := by
  cases hx : x.run g with
  | ok a g' => rw [after_of_ok hx, after_of_ok (Run.discard_ok hx)]
  | error e g' => rw [after_of_error hx, after_of_error (Run.discard_error hx)]

/-- A question that is not answered ends an edit and changes nothing. -/
theorem after_ask {question : Circuit → Except CircuitFault α} (hg : P g)
    (h : ∀ a, question g = .ok a → P ((f a).after g)) : P ((ask question >>= f).after g) := by
  cases hq : question g with
  | ok a =>
    rw [after_bind (Run.ask_ok hq)]
    exact h a hq
  | error e =>
    rw [after_of_error (Run.bind_error (Run.ask_error hq))]
    exact hg

/-- Whether a circuit with a property still has it after an edit, refused or not. -/
def Keeps (P : Circuit → Prop) (x : Edit α) : Prop :=
  ∀ g, P g → P (x.after g)

theorem Keeps.bind (hx : Keeps P x) (hf : ∀ a, Keeps P (f a)) : Keeps P (x >>= f) := by
  intro g hg
  have hafter := hx g hg
  cases hrun : x.run g with
  | ok a g' =>
    rw [after_of_ok hrun] at hafter
    rw [after_bind hrun]
    exact hf a g' hafter
  | error e g' =>
    rw [after_of_error hrun] at hafter
    rw [after_of_error (Run.bind_error hrun)]
    exact hafter

theorem Keeps.pure (a : α) : Keeps P (pure a : Edit α) :=
  fun _ hg ↦ hg

theorem Keeps.discard (hx : Keeps P x) : Keeps P (discard x) := by
  intro g hg
  rw [after_discard]
  exact hx g hg

theorem Keeps.forM {op : α → Edit Unit} (h : ∀ a, Keeps P (op a)) (l : List α) :
    Keeps P (l.forM op) := by
  induction l with
  | nil => exact Keeps.pure ()
  | cons a rest ih => exact (h a).bind fun _ ↦ ih

end Edit

/-! ### Coherent circuits -/

namespace Circuit

variable {g : Circuit} {n w : Nat} {p : GateNode} {e : Edge}

/-- Whether an edge may leave a node. -/
def Departs (g : Circuit) (n : Nat) : Prop :=
  ∃ node, g.node? n = some node ∧ node.isOutput = false

/-- Whether an edge may enter a node. -/
def Arrives (g : Circuit) (n : Nat) : Prop :=
  ∃ node, g.node? n = some node ∧ node.isInput = false

theorem departs_of_gate (hp : g.gate? n = some p) : g.Departs n :=
  ⟨_, gate?_eq_some.mp hp, rfl⟩

theorem arrives_of_gate (hp : g.gate? n = some p) : g.Arrives n :=
  ⟨_, gate?_eq_some.mp hp, rfl⟩

theorem departs_of_checkSource (h : g.checkSource n w = .ok ()) : g.Departs n := by
  rw [checkSource] at h
  split at h
  · cases h
  · cases h
  · exact ⟨_, ‹_›, rfl⟩
  · exact ⟨_, ‹_›, rfl⟩

theorem arrives_of_checkTarget (h : g.checkTarget n w = .ok ()) : g.Arrives n := by
  rw [checkTarget] at h
  split at h
  · cases h
  · cases h
  · exact ⟨_, ‹_›, rfl⟩
  · exact ⟨_, ‹_›, rfl⟩

/-- A circuit with a frame, whose edges lead from nodes that are no outputs to nodes that are no
inputs. -/
structure Coherent (g : Circuit) : Prop extends g.Framed where
  departs : ∀ e ∈ g.edges.values, g.Departs e.source
  arrives : ∀ e ∈ g.edges.values, g.Arrives e.target

theorem Coherent.empty : Circuit.empty.Coherent where
  toFramed := Threaded.empty.framed
  departs := List.forall_mem_nil _
  arrives := List.forall_mem_nil _

namespace Coherent

variable (h : g.Coherent)

include h

/-- The edges of a coherent circuit are exchanged for others. -/
theorem withEdges {edges : Slots Edge}
    (hedges : ∀ e ∈ edges.values, e ∈ g.edges.values ∨ g.Departs e.source ∧ g.Arrives e.target) :
    Coherent { g with edges } where
  toFramed := ⟨h.input, h.output, h.ends, h.placed, h.distinct, h.within⟩
  departs e he := (hedges e he).elim (h.departs e) And.left
  arrives e he := (hedges e he).elim (h.arrives e) And.right

theorem eraseEdge (i : Nat) : (g.eraseEdge i).Coherent :=
  h.withEdges fun _ he ↦ .inl (Slots.mem_values_of_erase he)

theorem addEdge (hsource : g.Departs e.source) (htarget : g.Arrives e.target) :
    (g.addEdge e).Coherent := by
  refine h.withEdges fun e' he' ↦ ?_
  rcases List.mem_cons.mp ((g.edges.values_insert e).mem_iff.mp he') with rfl | hmem
  · exact .inr ⟨hsource, htarget⟩
  · exact .inl hmem

end Coherent

/-! ### Edits of single wires -/

/-- A coherent circuit with some nodes. -/
def CoherentOn (nodes : Slots Node) (g : Circuit) : Prop :=
  g.Coherent ∧ g.nodes = nodes

section Wires

variable {nodes : Slots Node}

theorem keeps_connect (source target w : Nat) :
    Edit.Keeps (CoherentOn nodes) (connect source target w) := by
  intro g hg
  rw [connect]
  refine Edit.after_ask hg fun _ hsource ↦ Edit.after_ask hg fun _ htarget ↦ ?_
  exact ⟨hg.1.addEdge (departs_of_checkSource hsource) (arrives_of_checkTarget htarget), hg.2⟩

theorem keeps_append (w n : Nat) : Edit.Keeps (CoherentOn nodes) (append w n) := by
  intro g hg
  rw [append]
  refine Edit.after_ask hg fun output _ ↦ Edit.after_ask hg fun last _ ↦ ?_
  exact (keeps_connect _ _ _).discard.bind (fun _ ↦ (keeps_connect _ _ _).discard)
    (g.eraseEdge last.1) ⟨hg.1.eraseEdge last.1, hg.2⟩

/-- The neighbours of a node become neighbours of each other, also when one of them is the node
itself. -/
theorem keeps_spliceOut (n w : Nat) : Edit.Keeps (CoherentOn nodes) (spliceOut n w) := by
  intro g hg
  rw [spliceOut]
  refine Edit.after_ask hg fun before hin ↦ Edit.after_ask hg fun after hout ↦ ?_
  have hbefore := hg.1.departs before.2 (mem_values_of_edgeAt hin).1
  have hafter := hg.1.arrives after.2 (mem_values_of_edgeAt hout).1
  exact ⟨((hg.1.eraseEdge before.1).eraseEdge after.1).addEdge hbefore hafter, hg.2⟩

end Wires

/-! ### Edits of nodes -/

theorem mem_edges_eraseNode (he : e ∈ (g.eraseNode n).edges.values) :
    e ∈ g.edges.values ∧ e.source ≠ n ∧ e.target ≠ n := by
  obtain ⟨i, hi⟩ := Slots.mem_values.mp he
  have hi := (Slots.get?_foldl_erase _ _ i).symm.trans hi
  split at hi
  · cases hi
  · rename_i hkept
    refine ⟨Slots.mem_values.mpr ⟨i, hi⟩, ?_⟩
    by_contra htouch
    refine hkept (List.mem_map.mpr ⟨(i, e), Slots.mem_select.mpr ⟨hi, ?_⟩, rfl⟩)
    simpa [or_iff_not_imp_left] using htouch

theorem exists_node_updateGate {m : Nat} {node : Node} (hm : g.node? m = some node) (n : Nat)
    (f : GateNode → GateNode) : ∃ node', (g.updateGate n f).node? m = some node' ∧
      node'.isInput = node.isInput ∧ node'.isOutput = node.isOutput := by
  rw [node?, updateGate, Slots.get?_update, ← node?, hm]
  split
  · cases node <;> exact ⟨_, rfl, rfl, rfl⟩
  · exact ⟨node, rfl, rfl, rfl⟩

namespace Coherent

variable (h : g.Coherent)

include h

theorem updateGate {f : GateNode → GateNode} (hp : g.gate? n = some p)
    (horder : (f p).order = p.order)
    (hwithin : ∀ w, (f p).touches w = true → w < g.wires.length) :
    (g.updateGate n f).Coherent where
  toFramed := h.toFramed.updateGate hp horder hwithin g.edges
  departs e he := by
    obtain ⟨node, hnode, hkind⟩ := h.departs e he
    obtain ⟨node', hnode', -, hsame⟩ := exists_node_updateGate hnode n f
    exact ⟨node', hnode', hsame.trans hkind⟩
  arrives e he := by
    obtain ⟨node, hnode, hkind⟩ := h.arrives e he
    obtain ⟨node', hnode', hsame, -⟩ := exists_node_updateGate hnode n f
    exact ⟨node', hnode', hsame.trans hkind⟩

theorem eraseNode (hp : g.gate? n = some p) : (g.eraseNode n).Coherent := by
  have hstays {m : Nat} (hm : m ≠ n) : (g.eraseNode n).node? m = g.node? m := by
    refine (Slots.get?_erase g.nodes n m).trans (if_neg hm)
  refine ⟨h.toFramed.eraseGate hp _, fun e he ↦ ?_, fun e he ↦ ?_⟩
  · obtain ⟨hmem, hsource, -⟩ := mem_edges_eraseNode he
    rw [Departs, hstays hsource]
    exact h.departs e hmem
  · obtain ⟨hmem, -, htarget⟩ := mem_edges_eraseNode he
    rw [Arrives, hstays htarget]
    exact h.arrives e hmem

theorem insertGate (horder : p.order = g.placed + 1)
    (hwithin : ∀ w, p.touches w = true → w < g.wires.length) :
    ({ g with placed := g.placed + 1 }.addNode (.gate p)).Coherent where
  toFramed := h.toFramed.insertGate horder hwithin g.edges
  departs e he := (h.departs e he).imp fun _ hnode ↦ ⟨node?_addNode_of_some hnode.1, hnode.2⟩
  arrives e he := (h.arrives e he).imp fun _ hnode ↦ ⟨node?_addNode_of_some hnode.1, hnode.2⟩

theorem addWire (q : Qubit) : (g.addWire q).Coherent := by
  have hframed := h.toFramed.addWire q
  have hedge (e : Edge) (he : e ∈ (g.addWire q).edges.values) : e ∈ g.edges.values ∨
      (g.addWire q).Departs e.source ∧ (g.addWire q).Arrives e.target := by
    rcases List.mem_cons.mp ((Slots.values_insert _ _).mem_iff.mp he) with rfl | hmem
    · have hwire := (g.getElem?_wires_addWire q g.wires.length).trans (if_pos rfl)
      exact .inr ⟨⟨_, hframed.input _ _ hwire, rfl⟩, ⟨_, hframed.output _ _ hwire, rfl⟩⟩
    · exact .inl hmem
  refine ⟨hframed, fun e he ↦ (hedge e he).elim (fun hmem ↦ ?_) And.left,
    fun e he ↦ (hedge e he).elim (fun hmem ↦ ?_) And.right⟩
  · exact (h.departs e hmem).imp fun _ hnode ↦ ⟨node?_addWire_of_some hnode.1, hnode.2⟩
  · exact (h.arrives e hmem).imp fun _ hnode ↦ ⟨node?_addWire_of_some hnode.1, hnode.2⟩

theorem addWires (qs : List Qubit) : (g.addWires qs).Coherent := by
  induction qs generalizing g with
  | nil => exact h
  | cons q rest ih => exact ih (h.addWire q)

end Coherent

/-! ### Calls and connections -/

theorem gate?_of_gateAt (h : g.gateAt n = .ok p) : g.gate? n = some p := by
  rw [gateAt] at h
  split at h
  · rename_i hnode
    cases h
    exact gate?_eq_some.mpr hnode
  · cases h
  · cases h

theorem keeps_declare (d : Declaration) : Edit.Keeps Coherent (declare d) := by
  intro g hg
  rw [declare, Edit.after_bind Run.get_ok]
  cases g.declarations.any (·.name = d.name) with
  | true => exact hg
  | false =>
    have hnamed : Coherent { g with declarations := g.declarations ++ [d] } :=
      ⟨⟨hg.input, hg.output, hg.ends, hg.placed, hg.distinct, hg.within⟩, hg.departs, hg.arrives⟩
    exact hnamed.addWires d.qubits

theorem keeps_apply (a : Application) : Edit.Keeps Coherent (apply a) := by
  intro g hg
  rw [apply]
  refine Edit.after_ask hg fun resolved hr ↦ ?_
  obtain ⟨targets, guards⟩ := resolved
  have hwithin (w : Nat)
      (hw : (GateNode.mk a.gate targets guards (g.placed + 1)).touches w = true) :
      w < g.wires.length := by
    obtain ⟨hts, hgs⟩ := within_of_resolveAll hr
    rcases GateNode.touches_iff.mp hw with hw | hw
    · exact hts w hw
    · obtain ⟨c, hc, rfl⟩ := List.mem_map.mp hw
      exact hgs c hc
  exact ((Edit.Keeps.forM (fun w ↦ keeps_append w _) _).bind fun _ ↦ Edit.Keeps.pure _)
    _ ⟨hg.insertGate rfl hwithin, rfl⟩ |>.1

theorem keeps_remove (n : Nat) : Edit.Keeps Coherent (remove n) := by
  intro g hg
  rw [remove, Edit.after_bind Run.get_ok]
  cases hp : g.gate? n with
  | none => exact hg
  | some p =>
    dsimp only
    have hloop : CoherentOn g.nodes ((p.wires.forM fun w ↦ spliceOut n w).after g) :=
      Edit.Keeps.forM (fun w ↦ keeps_spliceOut n w) p.wires g ⟨hg, rfl⟩
    cases hrun : (p.wires.forM fun w ↦ spliceOut n w).run g with
    | ok _ g' =>
      rw [Edit.after_of_ok hrun] at hloop
      rw [Edit.after_bind hrun]
      have hp' : g'.gate? n = some p := by
        rw [gate?, node?, hloop.2]
        exact hp
      exact hloop.1.eraseNode hp'
    | error e g' =>
      rw [Edit.after_of_error hrun] at hloop
      rw [Edit.after_of_error (Run.bind_error hrun)]
      exact hloop.1

theorem keeps_removeGuards (n w : Nat) : Edit.Keeps Coherent (removeGuards n w) := by
  intro g hg
  rw [removeGuards]
  refine Edit.after_ask hg fun p hp ↦ ?_
  cases p.isGuard w with
  | false => exact hg
  | true =>
    have hdropped : (g.updateGate n (GateNode.dropGuards w)).Coherent := by
      refine hg.updateGate (gate?_of_gateAt hp) rfl fun v hv ↦
        hg.within n p v (gate?_of_gateAt hp) ?_
      rw [GateNode.touches_iff]
      exact (GateNode.touches_dropGuards.mp hv).imp_right And.left
    cases p.isTarget w with
    | true => exact hdropped
    | false => exact (keeps_spliceOut n w _ ⟨hdropped, rfl⟩).1

theorem keeps_setGate (n : Nat) (gate : Gate) : Edit.Keeps Coherent (setGate n gate) := by
  intro g hg
  cases hp : g.gate? n with
  | none =>
    obtain ⟨e, he⟩ := gateAt_refused hp
    rw [setGate, Edit.after_of_error (Run.bind_error (Run.discard_error (Run.ask_error he)))]
    exact hg
  | some p =>
    rw [setGate, Edit.after_bind (Run.discard_ok (Run.ask_ok (gateAt_ok hp)))]
    exact hg.updateGate hp rfl fun w hw ↦ hg.within n p w hp hw

theorem keeps_retarget (n : Nat) (targets : List Nat) (guards : List WireGuard) :
    Edit.Keeps Coherent (retarget n targets guards) := by
  intro g hg
  rw [retarget]
  refine Edit.after_ask hg fun p hp ↦ ?_
  dsimp only
  split
  · rename_i htest
    rw [Bool.and_eq_true, List.all_eq_true, List.all_eq_true] at htest
    refine hg.updateGate (gate?_of_gateAt hp) rfl fun w hw ↦ ?_
    refine hg.within n p w (gate?_of_gateAt hp) (GateNode.mem_wires.mp ?_)
    have hmem := htest.2 w (List.mem_append.mpr (GateNode.touches_iff.mp hw))
    exact List.contains_iff_mem.mp hmem
  · exact hg

theorem after_call (c : Call) (g : Circuit) : c.after g = c.run.after g := by
  cases hrun : c.run.run g with
  | ok _ g' => rw [Call.after_of_ok hrun, Edit.after_of_ok hrun]
  | error e g' => rw [Call.after_of_error hrun, Edit.after_of_error hrun]

/-- Every call keeps a circuit coherent, also one that is refused midway. -/
theorem Coherent.call (h : g.Coherent) (c : Call) : (c.after g).Coherent := by
  rw [after_call]
  cases c with
  | declare d => exact (keeps_declare d).discard g h
  | apply a => exact (keeps_apply a).discard g h
  | remove n => exact (keeps_remove n).discard g h
  | removeGuards n w => exact keeps_removeGuards n w g h
  | setGate n gate => exact keeps_setGate n gate g h
  | retarget n targets guards => exact keeps_retarget n targets guards g h

/-- A circuit that a sequence of calls and connections makes from the circuit without qubits. -/
inductive Constructible : Circuit → Prop where
  | empty : Constructible Circuit.empty
  | call (c : Call) {g : Circuit} (h : Constructible g) : Constructible (c.after g)
  | connect (source target w : Nat) {g : Circuit} (h : Constructible g) :
    Constructible ((connect source target w).after g)

/-- Every constructible circuit is coherent. -/
theorem Constructible.coherent (h : g.Constructible) : g.Coherent := by
  induction h with
  | empty => exact .empty
  | call c _ ih => exact ih.call c
  | connect source target w _ ih => exact (keeps_connect source target w _ ⟨ih, rfl⟩).1

end Circuit

end Peephole
