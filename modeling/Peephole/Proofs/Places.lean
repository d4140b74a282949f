import Peephole.Proofs.Exchanges
import Peephole.Proofs.Ordering

/-!
# The gates by their places

The order in which the gates of a circuit are taken, edge by edge, is the order of their places in
the program, after any history of edits (`Reachable.ordered_by_place`). All that this needs is that
a list in strictly ascending order is what sorting its members gives (`eq_sortBy`), since the line
of a circuit is such a list, by number and gate by gate (`Threaded.sorted_gates`).
-/

set_option autoImplicit false
set_option relaxedAutoImplicit false

namespace Peephole

/-- A list in strictly ascending order is the sorted form of every list with the same members. -/
theorem eq_sortBy {α : Type} {key : α → Nat} {l order : List α} (hperm : order.Perm l)
    (hsorted : order.Pairwise fun a b ↦ key a < key b) :
    order = sortBy (fun a b ↦ key a ≤ key b) l := by
  have htotal (a b : α) : decide (key a ≤ key b) = true ∨ decide (key b ≤ key a) = true := by
    simpa using Nat.le_total (key a) (key b)
  have htrans (a b c : α) (hab : decide (key a ≤ key b) = true)
      (hbc : decide (key b ≤ key c) = true) : decide (key a ≤ key c) = true :=
    decide_eq_true (Nat.le_trans (of_decide_eq_true hab) (of_decide_eq_true hbc))
  have hsort : (sortBy (fun a b ↦ decide (key a ≤ key b)) l).Pairwise fun a b ↦ key a ≤ key b :=
    (pairwise_sortBy htotal htrans l).imp of_decide_eq_true
  refine List.Perm.eq_of_pairwise ?_ (hsorted.imp Nat.le_of_lt) hsort
    (hperm.trans (sortBy_perm _ l).symm)
  intro a b ha hb hab hba
  by_contra hne
  have hb : b ∈ order := hperm.mem_iff.mpr ((sortBy_perm _ l).mem_iff.mp hb)
  rcases sublist_or_sublist ha hb hne with hsub | hsub
  · exact Nat.not_le_of_lt (List.pairwise_iff_forall_sublist.mp hsorted hsub) hba
  · exact Nat.not_le_of_lt (List.pairwise_iff_forall_sublist.mp hsorted hsub) hab

namespace Circuit

variable {g : Circuit} {line : List Nat}

/-- The numbers of the gates are the line. -/
theorem Threaded.perm_live (h : g.Threaded line) :
    line.Perm (g.nodes.keys.filter fun n ↦ (g.gate? n).isSome) := by
  refine (List.perm_ext_iff_of_nodup h.nodup_line (g.nodes.nodup_keys.filter _)).mpr fun n ↦ ?_
  rw [List.mem_filter, h.mem_line, Slots.mem_keys]
  refine ⟨fun hsome ↦ ⟨?_, hsome⟩, And.right⟩
  obtain ⟨p, hp⟩ := Option.isSome_iff_exists.mp hsome
  exact contains_of_gate hp

/-- The gates of the line are in ascending order of their places. -/
theorem Threaded.sorted_gates (h : g.Threaded line) :
    (line.filterMap g.gate?).Pairwise fun p q ↦ p.order < q.order := by
  refine List.pairwise_filterMap.mpr (h.sorted.imp fun {m n} hlt p hp q hq ↦ ?_)
  rwa [placeOf_eq hp, placeOf_eq hq] at hlt

/-- The gates of a circuit that edits have made are taken in the order of their places: every gate
once, and as if they had been sorted, by number or gate by gate. It does not matter which numbers
the gates have, how often these were used before, or whether a gate is on any wire. -/
theorem Reachable.ordered_by_place (hg : g.Reachable) :
    ∃ order, g.ordered = .ok order ∧ (∀ n, n ∈ order ↔ (g.gate? n).isSome) ∧
      (order.Pairwise fun m n ↦ g.placeOf m < g.placeOf n) ∧
      order = sortBy (fun m n ↦ g.placeOf m ≤ g.placeOf n)
        (g.nodes.keys.filter fun n ↦ (g.gate? n).isSome) ∧
      ∀ gates : List GateNode, gates.Perm g.gates →
        order.filterMap g.gate? = sortBy (fun p q ↦ p.order ≤ q.order) gates := by
  obtain ⟨line, h, -⟩ := hg.threaded
  refine ⟨line, h.ordered_ok, fun n ↦ h.mem_line, h.sorted, eq_sortBy h.perm_live h.sorted,
    fun gates hgates ↦ ?_⟩
  exact eq_sortBy (h.gates_perm.symm.trans hgates.symm) h.sorted_gates

/-- A later gate takes the number of one that was removed, and a gate without targets and guards is
on no wire. -/
theorem Reachable.ordered_by_place_reused :
    let g := [Call.declare ⟨"q", some 2⟩, .apply ⟨.standard .h, [⟨"q", some 0⟩], []⟩,
      .apply ⟨.standard .cx, [⟨"q", some 0⟩, ⟨"q", some 1⟩], []⟩,
      .apply ⟨.custom "idle" 0 [], [], []⟩, .remove 4,
      .apply ⟨.standard .x, [⟨"q", some 1⟩], [⟨⟨"q", some 0⟩, true⟩]⟩].foldl
        (fun g c ↦ c.after g) Circuit.empty
    g.ordered = .ok [5, 6, 4] ∧ g.placeOf 5 < g.placeOf 6 ∧ g.placeOf 6 < g.placeOf 4 := by
  intro g
  have hg : g.Reachable := List.foldlRecOn _ _ .empty fun _ hbefore _ _ ↦ .call _ hbefore
  have hordered : g.ordered = .ok [5, 6, 4] := by decide +kernel
  obtain ⟨order, horder, -, hsorted, -⟩ := hg.ordered_by_place
  cases hordered.symm.trans horder
  obtain ⟨hfirst, hsecond⟩ := List.pairwise_cons.mp hsorted
  exact ⟨hordered, hfirst 6 (by simp), (List.pairwise_cons.mp hsecond).1 4 (by simp)⟩

end Circuit

end Peephole
