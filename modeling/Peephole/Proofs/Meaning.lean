import Mathlib.Data.Set.Function
import Peephole.Proofs.Lines
import Peephole.Proofs.Reachable
import Peephole.Proofs.States
import Peephole.Proofs.Walks

/-!
# What circuits do to states

The gates of a circuit act on the places of their wires (`GateNode.act`), and the circuit carries
out its line of gates from left to right (`evolve`). A circuit is regular if its gates can act on
their targets under their guards. Gates without a common wire commute (`GateNode.act_comm`), so that
a gate commutes with everything between it and its neighbour if the two are neighbours on all wires
of the gate (`Threaded.follows_comm`). An edit of one gate changes the operation of that gate alone
(`Revises.act`), and removing some gates leaves the others (`Threaded.of_removed`).
-/

set_option autoImplicit false
set_option relaxedAutoImplicit false

namespace Peephole

universe u v

variable {R : Type u} [CommRing R] {W : Type v} [DecidableEq W] {I : Interpretation R}
  {spot : Nat → W}

namespace GateNode

/-- The guards of a gate on the places of their wires. -/
def placedGuards (spot : Nat → W) (p : GateNode) : List (W × Bool) :=
  p.guards.map fun c ↦ (spot c.wire, c.negated)

/-- What a gate of a circuit does when its wires have places. -/
def act (I : Interpretation R) (spot : Nat → W) (p : GateNode) : State W R → State W R :=
  I.act p.gate (p.placedGuards spot) (p.targets.map spot)

/-- A gate that can act on its targets under its guards. -/
def Fits (p : GateNode) : Prop :=
  WellPlaced p.gate p.targets p.guardWires

variable {p q : GateNode} {limit : Nat}

/-- Gates without a common wire commute. -/
theorem act_comm (hspot : Set.InjOn spot {w | w < limit})
    (hp : ∀ w, p.touches w = true → w < limit) (hq : ∀ w, q.touches w = true → w < limit)
    (hapart : ∀ w, p.touches w = true → q.touches w = false) :
    Function.Commute (p.act I spot) (q.act I spot) := by
  have hplaces {w w' : Nat} (hw : p.touches w = true) (hw' : q.touches w' = true) :
      spot w ≠ spot w' := by
    intro heq
    have hsame := hspot (hp w hw) (hq w' hw') heq
    rw [← hsame, hapart w hw] at hw'
    cases hw'
  refine I.act_comm ?_ ?_ ?_
  · intro x hx hx'
    obtain ⟨w, hw, rfl⟩ := List.mem_map.mp hx
    obtain ⟨w', hw', heq⟩ := List.mem_map.mp hx'
    exact hplaces (touches_of_target hw) (touches_of_target hw') heq.symm
  · intro x hx hx'
    obtain ⟨c, hc, rfl⟩ := List.mem_map.mp hx
    obtain ⟨w', hw', heq⟩ := List.mem_map.mp hx'
    exact hplaces (touches_of_guard hc) (touches_of_target hw') heq.symm
  · intro x hx hx'
    obtain ⟨c, hc, rfl⟩ := List.mem_map.mp hx
    obtain ⟨w, hw, heq⟩ := List.mem_map.mp hx'
    exact hplaces (touches_of_target hw) (touches_of_guard hc) heq

end GateNode

namespace Circuit

variable {g g' : Circuit} {line : List Nat} {w n a b : Nat} {p : GateNode}

/-- What the gate with a number does; where there is no gate nothing happens. -/
def act (I : Interpretation R) (spot : Nat → W) (g : Circuit) (n : Nat) : State W R → State W R :=
  (g.gate? n).elim id (GateNode.act I spot)

theorem act_of_gate (hp : g.gate? n = some p) : g.act I spot n = p.act I spot := by
  rw [act, hp, Option.elim_some]

theorem Revises.act {q : Option GateNode} (h : g.Revises g' n p q) :
    g'.act I spot = Function.update (g.act I spot) n (q.elim id (GateNode.act I spot)) := by
  funext m
  rw [Circuit.act, h.gate?]
  by_cases hm : m = n
  · rw [if_pos hm, hm, Function.update_self]
  · rw [if_neg hm, Function.update_of_ne hm]
    rfl

/-! ### Neighbours -/

theorem Threaded.follows (h : g.Threaded line) (hnext : [a, b].IsInfix (g.thread line w))
    (ha : (g.gate? a).isSome) (hb : (g.gate? b).isSome) :
    Follows line (fun k ↦ g.isOn w k = false) a b := by
  refine follows_of_neighbours ?_
  have hpair : [a, b].filter (fun n ↦ (g.gate? n).isSome) = [a, b] := by
    simp [ha, hb]
  have hgates := hnext.filter fun n ↦ (g.gate? n).isSome
  rw [hpair] at hgates
  cases hw : g.wires[w]? with
  | none =>
    rw [thread_of_none hw] at hnext
    simp at hnext
  | some wire =>
    rw [thread_of_some hw, List.filter_append, List.filter_cons_of_neg,
      List.filter_cons_of_neg, List.filter_nil, List.append_nil,
      List.filter_eq_self.mpr fun n hn ↦ h.gate n (List.mem_filter.mp hn).1] at hgates
    · exact hgates
    · rw [h.gate?_ends (output_mem_ends hw)]
      exact nofun
    · rw [h.gate?_ends (input_mem_ends hw)]
      exact nofun

/-- Three nodes come one after the other on a wire if each is next to the one before. -/
theorem Threaded.isInfix_triple (h : g.Threaded line) {c : Nat} :
    [a, b, c].IsInfix (g.thread line w) ↔
      [a, b].IsInfix (g.thread line w) ∧ [b, c].IsInfix (g.thread line w) := by
  constructor
  · intro hstretch
    exact ⟨List.IsInfix.trans ⟨[], [c], rfl⟩ hstretch, List.IsInfix.trans ⟨[a], [], rfl⟩ hstretch⟩
  · rintro ⟨⟨front, back, hfirst⟩, front', back', hsecond⟩
    have hnodup := h.nodup_thread w
    have hsplit : (front ++ [a]) ++ b :: back = front' ++ b :: (c :: back') := by
      simpa using hfirst.trans hsecond.symm
    rw [← hfirst, List.append_cons, List.append_assoc _ [b], List.singleton_append] at hnodup
    obtain ⟨-, -, hback⟩ := (List.append_cons_inj_of_notMem (not_mem_front hnodup)
      (not_mem_back hnodup)).mp hsplit
    exact ⟨front, back', by rw [← hfirst, hback]; simp⟩

/-- Between neighbours on all wires of a gate stands nothing that is on such a wire. -/
theorem Threaded.follows_apart (h : g.Threaded line) (ha : (g.gate? a).isSome)
    (hb : (g.gate? b).isSome) (hw : p.touches w = true)
    (hnext : ∀ v, p.touches v = true → [a, b].IsInfix (g.thread line v)) :
    Follows line (fun k ↦ ∀ v, p.touches v = true → g.isOn v k = false) a b := by
  have hall : Follows line (fun k ↦ ∀ v ∈ p.wires, g.isOn v k = false) a b := by
    refine Follows.forall_mem h.nodup_line (h.follows (hnext w hw) ha hb) fun v hv ↦ ?_
    exact h.follows (hnext v (GateNode.mem_wires.mp hv)) ha hb
  exact hall.imp fun k hk v hv ↦ hk v (GateNode.mem_wires.mpr hv)

/-- Between neighbours on all wires of one of them stands nothing that this gate does not commute
with. -/
theorem Threaded.follows_comm (h : g.Threaded line)
    (hspot : Set.InjOn spot {w | w < g.wires.length}) (ha : (g.gate? a).isSome)
    (hb : (g.gate? b).isSome) (hn : g.gate? n = some p) (hw : p.touches w = true)
    (hnext : ∀ v, p.touches v = true → [a, b].IsInfix (g.thread line v)) :
    Follows line (fun k ↦ Function.Commute (g.act I spot n) (g.act I spot k)) a b := by
  refine (h.follows_apart ha hb hw hnext).imp fun k hk ↦ ?_
  rw [act_of_gate hn, act]
  cases hq : g.gate? k with
  | none => exact Function.Commute.id_right
  | some q =>
    refine GateNode.act_comm hspot (fun v ↦ h.within n p v hn) (fun v ↦ h.within k q v hq) ?_
    intro v hv
    have hoff := hk v hv
    rwa [isOn, hq, Option.any_some] at hoff

/-! ### Regular circuits -/

/-- A circuit with a line whose gates can act. -/
structure Regular (g : Circuit) (line : List Nat) : Prop extends g.Threaded line where
  fits : ∀ n p, g.gate? n = some p → p.Fits

/-- One circuit becomes another one when gates are removed in turn. -/
def Removed : List Nat → Circuit → Circuit → Prop
  | [], g, g' => g' = g
  | n :: rest, g, g' => ∃ p t, (remove n).run g = .ok p t ∧ Removed rest t g'

/-- Removing gates leaves the others, and no gate is removed twice. -/
theorem Threaded.of_removed {ns : List Nat} (h : g.Threaded line) (hremoved : Removed ns g g') :
    g'.Threaded (without line ns) ∧ g'.wires = g.wires ∧ g'.declarations = g.declarations ∧
      (∀ m, g'.gate? m = if m ∈ ns then none else g.gate? m) ∧
      ns.Nodup ∧ ∀ m ∈ ns, (g.gate? m).isSome := by
  induction ns generalizing g line with
  | nil =>
    cases hremoved
    exact ⟨h, rfl, rfl, fun m ↦ rfl, List.nodup_nil, fun m hm ↦ absurd hm List.not_mem_nil⟩
  | cons n rest ih =>
    obtain ⟨p, t, hrun, hrest⟩ := hremoved
    obtain ⟨ht, hrevises⟩ := h.of_remove hrun
    obtain ⟨hthreaded, hwires, hdeclarations, hgate, hnodup, hsome⟩ := ih ht hrest
    have hne : ∀ m ∈ rest, m ≠ n ∧ (g.gate? m).isSome := by
      intro m hm
      have hmsome := hsome m hm
      rw [hrevises.gate?] at hmsome
      split at hmsome
      · cases hmsome
      · exact ⟨‹_›, hmsome⟩
    refine ⟨hthreaded, hwires.trans hrevises.wires, hdeclarations.trans hrevises.declarations, ?_,
      List.nodup_cons.mpr ⟨fun hn ↦ (hne n hn).1 rfl, hnodup⟩,
      List.forall_mem_cons.mpr ⟨by rw [hrevises.old]; rfl, fun m hm ↦ (hne m hm).2⟩⟩
    intro m
    rw [hgate, hrevises.gate?]
    by_cases hm : m = n
    · simp [hm]
    · simp [hm]

/-- The gate that is revised after some others have been removed is none of them. -/
theorem Threaded.of_removed_of_revises {ns : List Nat} {t : Circuit} {q : Option GateNode}
    (h : g.Threaded line) (hremoved : Removed ns g t) (hr : t.Revises g' n p q) :
    n ∉ ns ∧ g.gate? n = some p := by
  obtain ⟨-, -, -, hgate, -, -⟩ := h.of_removed hremoved
  have hold := hr.old
  rw [hgate] at hold
  split at hold
  · cases hold
  · exact ⟨‹_›, hold⟩

theorem Regular.of_removed {ns : List Nat} (h : g.Regular line) (hremoved : Removed ns g g') :
    g'.Regular (without line ns) ∧ g'.wires = g.wires ∧ g'.declarations = g.declarations ∧
      (∀ m, g'.gate? m = if m ∈ ns then none else g.gate? m) ∧
      ns.Nodup ∧ ∀ m ∈ ns, (g.gate? m).isSome := by
  obtain ⟨hthreaded, hwires, hdeclarations, hgate, hrest⟩ := h.toThreaded.of_removed hremoved
  refine ⟨⟨hthreaded, fun m q hq ↦ ?_⟩, hwires, hdeclarations, hgate, hrest⟩
  rw [hgate] at hq
  split at hq
  · cases hq
  · exact h.fits m q hq

end Circuit

end Peephole
