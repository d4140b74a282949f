import Mathlib.Data.List.Nodup
import Peephole.Circuit.Basic
import Peephole.Proofs.Links

/-!
# Circuits as lines of gates

A circuit built by edits is determined by one list, its *line*: the numbers of its gates in the
order of their places in the program. The nodes of a wire are then its input, the gates of the line
that touch the wire, and its output (`Circuit.thread`). `Circuit.Threaded g line` says that the
circuit `g` has this form, with exactly the edges between neighbours on the wires. This module draws
the consequences that later modules use: which nodes there are (`Threaded.mem_line`,
`Threaded.size_nodes`), that no node is twice on a wire (`Threaded.nodup_thread`), and that every
edge lies on a wire (`Threaded.edge_mem`). `Circuit.Declared g` says that the wires are those of the
qubits of the declarations, whose names are all different.
-/

set_option autoImplicit false
set_option relaxedAutoImplicit false

namespace Peephole

theorem mem_distinct {l : List Nat} {w : Nat} : w ∈ distinct l ↔ w ∈ l := by
  induction l with
  | nil => rfl
  | cons x rest ih =>
    rw [distinct, List.mem_cons, List.mem_cons, List.mem_filter, ih, decide_eq_true_iff]
    by_cases hw : w = x <;> simp [hw]

theorem nodup_distinct (l : List Nat) : (distinct l).Nodup := by
  induction l with
  | nil => exact List.nodup_nil
  | cons x rest ih =>
    refine List.nodup_cons.mpr ⟨?_, ih.filter _⟩
    simp

namespace GateNode

variable {p : GateNode} {w : Nat}

theorem isTarget_iff : p.isTarget w = true ↔ w ∈ p.targets := by
  simp [isTarget]

theorem isGuard_iff : p.isGuard w = true ↔ w ∈ p.guardWires := by
  simp [isGuard, guardWires]

theorem touches_iff : p.touches w = true ↔ w ∈ p.targets ∨ w ∈ p.guardWires := by
  rw [touches, Bool.or_eq_true, isTarget_iff, isGuard_iff]

theorem touches_of_target (h : w ∈ p.targets) : p.touches w = true :=
  touches_iff.mpr (.inl h)

theorem touches_of_guard {c : WireGuard} (h : c ∈ p.guards) : p.touches c.wire = true :=
  touches_iff.mpr (.inr (List.mem_map_of_mem h))

theorem mem_wires : w ∈ p.wires ↔ p.touches w = true := by
  rw [wires, mem_distinct, List.mem_append, touches_iff]

/-- A gate is on some wire if and only if it has a target or a guard. -/
theorem exists_touches_iff : (∃ w, p.touches w = true) ↔ p.targets ≠ [] ∨ p.guards ≠ [] := by
  constructor
  · rintro ⟨w, hw⟩
    refine (touches_iff.mp hw).imp List.ne_nil_of_mem fun hmem ↦ ?_
    obtain ⟨c, hc, -⟩ := List.mem_map.mp hmem
    exact List.ne_nil_of_mem hc
  · rintro (htargets | hguards)
    · obtain ⟨w, hw⟩ := List.exists_mem_of_ne_nil _ htargets
      exact ⟨w, touches_of_target hw⟩
    · obtain ⟨c, hc⟩ := List.exists_mem_of_ne_nil _ hguards
      exact ⟨c.wire, touches_of_guard hc⟩

theorem nodup_wires (p : GateNode) : p.wires.Nodup :=
  nodup_distinct _

end GateNode

namespace Circuit

/-- Whether the gate with a number touches a wire. -/
def isOn (g : Circuit) (w n : Nat) : Bool :=
  (g.gate? n).any (·.touches w)

/-- The place in the program of the gate with a number. -/
def placeOf (g : Circuit) (n : Nat) : Nat :=
  (g.gate? n).elim 0 GateNode.order

/-- The nodes of a wire from its input to its output, given the gates in order. -/
def thread (g : Circuit) (line : List Nat) (w : Nat) : List Nat :=
  match g.wires[w]? with
  | some ends => ends.input :: line.filter (g.isOn w) ++ [ends.output]
  | none => []

/-- The nodes at the ends of the wires. -/
def ends (g : Circuit) : List Nat :=
  g.wires.flatMap fun wire ↦ [wire.input, wire.output]

/-- A circuit whose wires run through the gates of a line, in order and without detours. -/
structure Threaded (g : Circuit) (line : List Nat) : Prop where
  /-- The nodes are the gates of the line and the ends of the wires, each once. -/
  keys : g.nodes.keys.Perm (line ++ g.ends)
  gate : ∀ n ∈ line, (g.gate? n).isSome
  input : ∀ w wire, g.wires[w]? = some wire → g.node? wire.input = some (.input w)
  output : ∀ w wire, g.wires[w]? = some wire → g.node? wire.output = some (.output w)
  sorted : line.Pairwise fun m n ↦ g.placeOf m < g.placeOf n
  placed : ∀ n p, g.gate? n = some p → p.order ≤ g.placed
  within : ∀ n p w, g.gate? n = some p → p.touches w → w < g.wires.length
  strung : Strung g.edges (g.thread line)

/-- A circuit with the wires of its declarations. -/
structure Declared (g : Circuit) : Prop where
  qubits : g.wires.map Wire.qubit = g.declarations.flatMap Declaration.qubits
  names : (g.declarations.map Declaration.name).Nodup

variable {g : Circuit} {line : List Nat} {w n : Nat}

theorem thread_of_some {wire : Wire} (hw : g.wires[w]? = some wire) (line : List Nat) :
    g.thread line w = wire.input :: line.filter (g.isOn w) ++ [wire.output] := by
  rw [thread, hw]

theorem thread_of_none (hw : g.wires[w]? = none) (line : List Nat) : g.thread line w = [] := by
  rw [thread, hw]

/-- A thread depends on the ends of its wire and on the gates of the line that are on it. -/
theorem thread_eq_of_filter {g' : Circuit} {line' : List Nat} (hwires : g'.wires[w]? = g.wires[w]?)
    (hfilter : line'.filter (g'.isOn w) = line.filter (g.isOn w)) :
    g'.thread line' w = g.thread line w := by
  rw [thread, thread, hwires, hfilter]

theorem thread_congr {g' : Circuit} (hwires : g'.wires[w]? = g.wires[w]?)
    (hon : ∀ n ∈ line, g'.isOn w n = g.isOn w n) : g'.thread line w = g.thread line w :=
  thread_eq_of_filter hwires (List.filter_congr hon)

/-- A gate at the end of the line comes last on each of its wires. -/
theorem thread_concat (hw : g.isOn w n = true → w < g.wires.length) :
    g.thread (line ++ [n]) w =
      if g.isOn w n then beforeLast n (g.thread line w) else g.thread line w := by
  by_cases hon : g.isOn w n = true
  · have hwire := List.getElem?_eq_getElem (hw hon)
    rw [if_pos hon, thread_of_some hwire, thread_of_some hwire, beforeLast_append,
      List.filter_append, List.filter_cons_of_pos hon]
    simp
  · rw [if_neg hon]
    refine thread_eq_of_filter rfl ?_
    rw [List.filter_append, List.filter_cons_of_neg hon, List.filter_nil, List.append_nil]

theorem isOn_iff : g.isOn w n = true ↔ ∃ p, g.gate? n = some p ∧ p.touches w = true := by
  rw [isOn, Option.any_eq_true]

theorem gate?_eq_some {p : GateNode} : g.gate? n = some p ↔ g.node? n = some (.gate p) := by
  rw [gate?, Option.bind_eq_some_iff]
  constructor
  · rintro ⟨node, hnode, hgate⟩
    cases node with
    | gate q =>
      rw [Node.gate?, Option.some.injEq] at hgate
      rw [hnode, hgate]
    | input w => cases hgate
    | output w => cases hgate
  · exact fun h ↦ ⟨_, h, rfl⟩

theorem contains_of_node {node : Node} (h : g.node? n = some node) : g.contains n = true := by
  rw [contains, h]
  rfl

theorem contains_of_gate {p : GateNode} (h : g.gate? n = some p) : g.contains n = true :=
  contains_of_node (gate?_eq_some.mp h)

theorem placeOf_eq {p : GateNode} (h : g.gate? n = some p) : g.placeOf n = p.order := by
  rw [placeOf, h, Option.elim_some]

theorem mem_ends : n ∈ g.ends ↔ ∃ (w : Nat) (wire : Wire), g.wires[w]? = some wire ∧
    (n = wire.input ∨ n = wire.output) := by
  have hpair (wire : Wire) : n ∈ [wire.input, wire.output] ↔ n = wire.input ∨ n = wire.output := by
    simp
  rw [ends, List.mem_flatMap]
  constructor
  · rintro ⟨wire, hmem, hn⟩
    obtain ⟨w, hw⟩ := List.mem_iff_getElem?.mp hmem
    exact ⟨w, wire, hw, (hpair wire).mp hn⟩
  · rintro ⟨w, wire, hw, hn⟩
    exact ⟨wire, List.mem_of_getElem? hw, (hpair wire).mpr hn⟩

theorem input_mem_ends {wire : Wire} (hw : g.wires[w]? = some wire) : wire.input ∈ g.ends :=
  mem_ends.mpr ⟨w, wire, hw, .inl rfl⟩

theorem output_mem_ends {wire : Wire} (hw : g.wires[w]? = some wire) : wire.output ∈ g.ends :=
  mem_ends.mpr ⟨w, wire, hw, .inr rfl⟩

theorem length_ends (g : Circuit) : g.ends.length = 2 * g.wires.length := by
  rw [ends, List.length_flatMap]
  simp [Nat.mul_comm]

theorem mem_thread {wire : Wire} (hw : g.wires[w]? = some wire) :
    n ∈ g.thread line w ↔
      n = wire.input ∨ (n ∈ line ∧ g.isOn w n = true) ∨ n = wire.output := by
  rw [thread_of_some hw, List.cons_append, List.mem_cons, List.mem_append, List.mem_filter,
    List.mem_singleton]

namespace Threaded

/-- The circuit without qubits has an empty line. -/
theorem empty : Circuit.empty.Threaded [] where
  keys := .refl _
  gate := by simp
  input := by simp [Circuit.empty]
  output := by simp [Circuit.empty]
  sorted := .nil
  placed := by simp [Circuit.empty, gate?, node?, Slots.empty, Slots.get?]
  within := by simp [Circuit.empty, gate?, node?, Slots.empty, Slots.get?]
  strung := fun w ↦ by
    rw [thread_of_none (by simp [Circuit.empty])]
    exact .refl _

variable (h : g.Threaded line)

include h

theorem nodup_line_ends : (line ++ g.ends).Nodup :=
  h.keys.nodup_iff.mp g.nodes.nodup_keys

theorem nodup_line : line.Nodup :=
  (List.nodup_append.mp h.nodup_line_ends).1

theorem not_mem_ends (hn : n ∈ line) : n ∉ g.ends :=
  fun hmem ↦ (List.nodup_append.mp h.nodup_line_ends).2.2 n hn n hmem rfl

theorem contains_iff : g.contains n = true ↔ n ∈ line ∨ n ∈ g.ends := by
  rw [contains, node?, ← Slots.mem_keys, h.keys.mem_iff, List.mem_append]

theorem gate?_ends (hn : n ∈ g.ends) : g.gate? n = none := by
  obtain ⟨w, wire, hw, rfl | rfl⟩ := mem_ends.mp hn
  · rw [gate?, h.input w wire hw]
    rfl
  · rw [gate?, h.output w wire hw]
    rfl

/-- The line holds exactly the gates. -/
theorem mem_line : n ∈ line ↔ (g.gate? n).isSome := by
  refine ⟨h.gate n, fun hsome ↦ ?_⟩
  obtain ⟨p, hp⟩ := Option.isSome_iff_exists.mp hsome
  rcases h.contains_iff.mp (contains_of_gate hp) with hline | hends
  · exact hline
  · rw [h.gate?_ends hends] at hsome
    cases hsome

theorem mem_line_of_gate {p : GateNode} (hp : g.gate? n = some p) : n ∈ line :=
  h.mem_line.mpr (by rw [hp]; rfl)

/-- Each gate is a node, and each wire has two of its own. -/
theorem size_nodes : g.nodes.size = line.length + 2 * g.wires.length := by
  rw [← Slots.length_keys, h.keys.length_eq, List.length_append, length_ends]

theorem input_ne_output {v : Nat} {wire wire' : Wire} (hw : g.wires[w]? = some wire)
    (hv : g.wires[v]? = some wire') : wire.input ≠ wire'.output := by
  intro heq
  have hnode := h.input w wire hw
  rw [heq, h.output v wire' hv] at hnode
  cases hnode

/-- No node is twice on a wire. -/
theorem nodup_thread (w : Nat) : (g.thread line w).Nodup := by
  cases hw : g.wires[w]? with
  | none => rw [thread_of_none hw]; exact List.nodup_nil
  | some wire =>
    rw [thread_of_some hw, List.cons_append, List.nodup_cons, List.nodup_append]
    refine ⟨?_, h.nodup_line.filter _, List.nodup_singleton _, ?_⟩
    · intro hmem
      rcases List.mem_append.mp hmem with hmem | hmem
      · exact h.not_mem_ends (List.mem_filter.mp hmem).1 (input_mem_ends hw)
      · exact h.input_ne_output hw hw (List.mem_singleton.mp hmem)
    · intro m hm k hk heq
      rw [List.mem_singleton.mp hk] at heq
      exact h.not_mem_ends (List.mem_filter.mp hm).1 (heq ▸ output_mem_ends hw)

/-- A gate is on the wires it touches only. -/
theorem not_mem_thread (hn : n ∈ line) (hoff : g.isOn w n = false) : n ∉ g.thread line w := by
  cases hw : g.wires[w]? with
  | none =>
    rw [thread_of_none hw]
    exact List.not_mem_nil
  | some wire =>
    rw [mem_thread hw, hoff]
    rintro (rfl | ⟨-, hon⟩ | rfl)
    · exact h.not_mem_ends hn (input_mem_ends hw)
    · cases hon
    · exact h.not_mem_ends hn (output_mem_ends hw)

/-- A gate that leaves the line leaves every wire. -/
theorem thread_filter (hn : n ∈ line) (w : Nat) :
    g.thread (line.filter (· ≠ n)) w = (g.thread line w).filter (· ≠ n) := by
  cases hw : g.wires[w]? with
  | none => rw [thread_of_none hw, thread_of_none hw, List.filter_nil]
  | some wire =>
    have hin : wire.input ≠ n := fun heq ↦ h.not_mem_ends hn (heq ▸ input_mem_ends hw)
    have hout : wire.output ≠ n := fun heq ↦ h.not_mem_ends hn (heq ▸ output_mem_ends hw)
    have hswap : (line.filter (· ≠ n)).filter (g.isOn w) =
        (line.filter (g.isOn w)).filter (· ≠ n) := by
      rw [List.filter_filter, List.filter_filter]
      exact List.filter_congr fun m _ ↦ Bool.and_comm _ _
    rw [thread_of_some hw, thread_of_some hw, hswap]
    simp [hin, hout]

/-- Every node of a wire is in the circuit. -/
theorem contains_of_mem_thread (hn : n ∈ g.thread line w) : g.contains n = true := by
  cases hw : g.wires[w]? with
  | none =>
    rw [thread_of_none hw] at hn
    exact absurd hn List.not_mem_nil
  | some wire =>
    rw [h.contains_iff]
    rcases (mem_thread hw).mp hn with rfl | ⟨hline, -⟩ | rfl
    · exact .inr (input_mem_ends hw)
    · exact .inl hline
    · exact .inr (output_mem_ends hw)

theorem wire_of_isOn (hn : g.isOn w n = true) : ∃ wire, g.wires[w]? = some wire := by
  obtain ⟨p, hp, htouch⟩ := isOn_iff.mp hn
  exact ⟨_, List.getElem?_eq_getElem (h.within n p w hp htouch)⟩

/-- Every edge is a link of the wire it is labelled with. -/
theorem edge_mem {e : Edge} (he : e ∈ g.edges.values) : e ∈ links e.wire (g.thread line e.wire) :=
  (h.strung e.wire).mem_iff.mp (List.mem_filter.mpr ⟨he, by simp⟩)

end Threaded

end Circuit

end Peephole
