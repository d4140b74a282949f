import Mathlib.Tactic.ByContra
import Peephole.Proofs.Integrity
import Peephole.Proofs.Ordering

/-!
# Every wire is a single path

In a reachable circuit each wire is one list of nodes without repetitions, from its input through
the gates that touch it, in the order of the program, to its output. The edges are the links of
these lists and nothing else, and stepping forward and stepping back undo each other. The check of a
circuit then succeeds unless some gate is on no wire (`Threaded.verify_iff`).
-/

set_option autoImplicit false
set_option relaxedAutoImplicit false

namespace Peephole.Circuit

variable {g : Circuit} {line : List Nat} {w n : Nat} {wire : Wire} {p : GateNode}

/-! ### Counts -/

/-- No edge is labelled with a wire that is not there. -/
theorem Threaded.wire_lt (h : g.Threaded line) {e : Edge} (he : e ∈ g.edges.values) :
    e.wire < g.wires.length := by
  by_contra hge
  have hlink := h.edge_mem he
  rw [thread_of_none (List.getElem?_eq_none (Nat.le_of_not_lt hge))] at hlink
  exact absurd hlink List.not_mem_nil

/-- The count of the gates is the number of gates among the nodes. -/
theorem Threaded.gateCount_eq_gates (h : g.Threaded line) :
    g.gateCount = (g.nodes.values.filterMap Node.gate?).length := by
  have hkeys : (g.nodes.keys.filter fun n ↦ (g.gate? n).isSome).length = line.length := by
    rw [((ranked_perm g).symm.filter _).length_eq, h.filter_ranked]
  have hentry : ∀ x ∈ g.nodes.entries, (g.gate? x.1).isSome = x.2.gate?.isSome := by
    intro x hx
    rw [gate?, node?, Slots.mem_entries.mp hx]
    rfl
  rw [h.gateCount_eq, ← hkeys, Slots.keys, List.filter_map, List.length_map, Slots.values_eq_map,
    List.filterMap_map, List.length_filterMap_eq_countP, List.countP_eq_length_filter]
  exact congrArg List.length (List.filter_congr hentry)

/-! ### The check of a circuit -/

/-- The edges of a circuit with a line lead from its inputs and gates to its gates and outputs. -/
theorem Threaded.coherent (h : g.Threaded line) : g.Coherent := by
  have hedge (e : Edge) (he : e ∈ g.edges.values) : g.Departs e.source ∧ g.Arrives e.target := by
    obtain ⟨wire, hw⟩ : ∃ wire, g.wires[e.wire]? = some wire :=
      ⟨_, List.getElem?_eq_getElem (h.wire_lt he)⟩
    have hlink := h.edge_mem he
    have hnodup := h.nodup_thread e.wire
    have hgate {m : Nat} (hm : g.isOn e.wire m = true) : g.Departs m ∧ g.Arrives m := by
      obtain ⟨q, hq, -⟩ := isOn_iff.mp hm
      exact ⟨departs_of_gate hq, arrives_of_gate hq⟩
    constructor
    · rcases (mem_thread hw).mp (source_mem_of_mem_links hlink) with hin | ⟨-, hon⟩ | hout
      · rw [hin]
        exact ⟨_, h.input _ wire hw, rfl⟩
      · exact (hgate hon).1
      · rw [thread_of_some hw] at hlink hnodup
        exact absurd hout (source_ne_of_mem_links hnodup hlink)
    · rcases (mem_thread hw).mp (target_mem_of_mem_links hlink) with hin | ⟨-, hon⟩ | hout
      · rw [thread_of_some hw] at hlink hnodup
        exact absurd hin (target_ne_of_mem_links hnodup hlink)
      · exact (hgate hon).2
      · rw [hout]
        exact ⟨_, h.output _ wire hw, rfl⟩
  exact ⟨h.framed, fun e he ↦ (hedge e he).1, fun e he ↦ (hedge e he).2⟩

/-- A circuit with a line is laid out by it. -/
theorem Threaded.laid (h : g.Threaded line) : g.Laid fun w ↦ line.filter (g.isOn w) where
  ends w wire hw := ⟨h.input w wire hw, h.output w wire hw⟩
  nodup := h.nodup_thread
  touches w _ n := by
    rw [List.mem_filter, isOn_iff, and_iff_right_iff_imp]
    rintro ⟨p, hp, -⟩
    exact h.mem_line_of_gate hp
  edges := (perm_laneEdges_iff h.nodup_thread).mpr h.strung

/-- A circuit with a line passes the check if and only if every gate has a target or a guard. -/
theorem Threaded.verify_iff (h : g.Threaded line) :
    g.verify = .ok () ↔ ∀ n p, g.gate? n = some p → p.targets ≠ [] ∨ p.guards ≠ [] := by
  constructor
  · intro hverify
    exact (h.coherent.laid_of_verify hverify).1
  · intro hne
    exact verify_eq_ok.mpr ⟨_, h.laid.passes h.coherent hne⟩

/-- In a reachable circuit every wire is a single path through the gates that touch it, in the order
of the program; there are no other edges; a step forward and a step back undo each other; the count
of gates is right; and the check succeeds exactly when every gate has a target or a guard. -/
theorem Reachable.single_path (hg : g.Reachable) :
    (∀ w wire, g.wires[w]? = some wire → ∃ gates : List Nat,
      g.node? wire.input = some (.input w) ∧ g.node? wire.output = some (.output w) ∧
      (wire.input :: gates ++ [wire.output]).Nodup ∧
      (g.edges.values.filter (·.wire = w)).Perm (links w (wire.input :: gates ++ [wire.output])) ∧
      (∀ n, n ∈ gates ↔ ∃ p, g.gate? n = some p ∧ p.touches w = true) ∧
      gates.Pairwise (fun m n ↦ g.placeOf m < g.placeOf n) ∧
      ∀ a b,
        (g.nextOn a w = .ok b ↔ [a, b].IsInfix (wire.input :: gates ++ [wire.output])) ∧
        (g.prevOn b w = .ok a ↔ [a, b].IsInfix (wire.input :: gates ++ [wire.output]))) ∧
    (∀ e ∈ g.edges.values, e.wire < g.wires.length) ∧
    g.gateCount = (g.nodes.values.filterMap Node.gate?).length ∧
    (g.verify = .ok () ↔ ∀ n p, g.gate? n = some p → p.targets ≠ [] ∨ p.guards ≠ []) := by
  obtain ⟨line, h, -⟩ := hg.threaded
  refine ⟨?_, fun e he ↦ h.wire_lt he, h.gateCount_eq_gates, h.verify_iff⟩
  intro w wire hw
  have hthread := thread_of_some hw line
  refine ⟨line.filter (g.isOn w), h.input w wire hw, h.output w wire hw, ?_, ?_, ?_,
    h.sorted.filter _, ?_⟩
  · rw [← hthread]
    exact h.nodup_thread w
  · rw [← hthread]
    exact h.strung w
  · intro n
    rw [List.mem_filter, isOn_iff, h.mem_line, Option.isSome_iff_exists]
    constructor
    · rintro ⟨-, hon⟩
      exact hon
    · rintro ⟨p, hp, htouch⟩
      exact ⟨⟨p, hp⟩, p, hp, htouch⟩
  · intro a b
    rw [← hthread]
    exact ⟨h.nextOn_eq_ok, h.prevOn_eq_ok⟩

/-- Two gates are put on a wire and the first is removed again; the wire is a single path through
what is left. -/
theorem Reachable.single_path_after_removal :
    let g := (Call.remove 4).after
      ((Call.apply ⟨.standard .cx, [⟨"q", some 1⟩, ⟨"q", some 0⟩], []⟩).after
        ((Call.apply ⟨.standard .h, [⟨"q", some 0⟩], []⟩).after
          ((Call.declare ⟨"q", some 2⟩).after Circuit.empty)))
    (g.edges.values.filter (·.wire = 0)).Perm (links 0 [0, 5, 1]) ∧
      (∀ n, n ∈ [5] ↔ ∃ p, g.gate? n = some p ∧ p.touches 0 = true) ∧
      g.nextOn 0 0 = .ok 5 ∧ g.prevOn 1 0 = .ok 5 ∧
      g.gateCount = (g.nodes.values.filterMap Node.gate?).length := by
  intro g
  have hg : g.Reachable := .call _ (.call _ (.call _ (.call _ .empty)))
  obtain ⟨hwires, -, hcount, -⟩ := hg.single_path
  obtain ⟨gates, -, -, -, hedges, hgates, -, hsteps⟩ :=
    hwires 0 ⟨⟨"q", some 0⟩, 0, 1⟩ (by decide +kernel)
  -- There are two edges on the wire, and one of them leads to the gate.
  have htwo : (g.edges.values.filter (·.wire = 0)).length = 2 := by decide +kernel
  have hfirst : ⟨0, 5, 0⟩ ∈ g.edges.values.filter (·.wire = 0) := by decide +kernel
  obtain rfl : gates = [5] := by
    rw [hedges.length_eq, length_links] at htwo
    obtain ⟨n, rfl⟩ := List.length_eq_one_iff.mp (show gates.length = 1 by simpa using htwo)
    simpa [links, eq_comm] using hedges.mem_iff.mp hfirst
  exact ⟨hedges, hgates, (hsteps 0 5).1.mpr ⟨[], [1], rfl⟩, (hsteps 5 1).2.mpr ⟨[0], [], rfl⟩,
    hcount⟩

end Peephole.Circuit
