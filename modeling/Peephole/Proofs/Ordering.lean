import Mathlib.Data.List.Sublists
import Peephole.Proofs.Countdown
import Peephole.Proofs.Frames
import Peephole.Proofs.Running

/-!
# The order of the gates is the line

Taking, again and again, the first node that no edge enters gives back the list of nodes unchanged
when every edge leads forward in it (`drain_eq_self`). In a circuit with a line, sorting the nodes
by rank is such a list (`Threaded.forward`), so that the gates come out in the order of their places
in the program (`Threaded.ordered_ok`), whatever the numbers of the nodes. Each of them is an
application to the qubits of its wires (`Threaded.application_ok`).
-/

set_option autoImplicit false
set_option relaxedAutoImplicit false

namespace Peephole

/-- Of two members of a list, one comes before the other. -/
theorem sublist_or_sublist {α : Type} {l : List α} {a b : α} (ha : a ∈ l) (hb : b ∈ l)
    (hne : a ≠ b) : [a, b].Sublist l ∨ [b, a].Sublist l := by
  induction l with
  | nil => exact absurd ha List.not_mem_nil
  | cons x rest ih =>
    rcases List.mem_cons.mp ha with rfl | har
    · have hbr := (List.mem_cons.mp hb).resolve_left (Ne.symm hne)
      exact .inl (.cons_cons a (List.singleton_sublist.mpr hbr))
    · rcases List.mem_cons.mp hb with rfl | hbr
      · exact .inr (.cons_cons b (List.singleton_sublist.mpr har))
      · exact (ih har hbr).imp (.cons x) (.cons x)

namespace Circuit

/-- Nodes in a list in which every edge leads forward are taken in the order of the list. -/
theorem drain_eq_self {pending : List Nat} {edges : List Edge} (hnodup : pending.Nodup)
    (hforward : ∀ e ∈ edges, [e.source, e.target].Sublist pending) :
    drain pending.length pending edges = pending := by
  induction pending generalizing edges with
  | nil => rfl
  | cons n rest ih =>
    obtain ⟨hn, hrest⟩ := List.nodup_cons.mp hnodup
    have hfree : (edges.all fun e ↦ e.target ≠ n) = true := by
      refine List.all_eq_true.mpr fun e he ↦ ?_
      have htarget : e.target ∈ rest := (hforward e he).tail.subset List.mem_cons_self
      have hne : e.target ≠ n := fun heq ↦ hn (heq ▸ htarget)
      simpa using hne
    have hlater : ∀ e ∈ edges.filter (·.source ≠ n), [e.source, e.target].Sublist rest := by
      intro e he
      obtain ⟨hmem, hsource⟩ := List.mem_filter.mp he
      rcases List.sublist_cons_iff.mp (hforward e hmem) with hsub | ⟨r, heq, -⟩
      · exact hsub
      · rw [List.cons.injEq] at heq
        simp [heq.1] at hsource
    have hfirst : (n :: rest).find? (fun m ↦ edges.all (·.target ≠ m)) = some n :=
      List.find?_cons_of_pos hfree
    rw [List.length_cons, drain, hfirst]
    dsimp only
    rw [List.erase_cons_head, ih hrest hlater]

variable {g : Circuit} {line : List Nat} {w n : Nat} {p : GateNode}

/-- Whether a node has lower rank than another one. -/
def Below (g : Circuit) (m n : Nat) : Prop :=
  ∃ a b, g.node? m = some a ∧ g.node? n = some b ∧
    (a.rank.1 < b.rank.1 ∨ a.rank.1 = b.rank.1 ∧ a.rank.2 < b.rank.2)

theorem below_gates {m : Nat} {q : GateNode} (hp : g.gate? m = some p) (hq : g.gate? n = some q) :
    g.Below m n ↔ p.order < q.order := by
  rw [gate?_eq_some] at hp hq
  simp [Below, hp, hq, Node.rank]

/-- No node is listed after one of higher rank. -/
theorem pairwise_ranked (g : Circuit) : g.ranked.Pairwise fun m n ↦ ¬ g.Below n m := by
  refine g.sorted_ranked.imp fun {m n} hmn ↦ ?_
  rintro ⟨b, a, hb, ha, hlt⟩
  rw [notAfter_iff, ranks_getD ha, ranks_getD hb] at hmn
  omega

/-- A node of lower rank is listed before one of higher rank. -/
theorem Below.sublist_ranked {m : Nat} (h : g.Below m n) : [m, n].Sublist g.ranked := by
  obtain ⟨a, b, ha, hb, hlt⟩ := id h
  have hmem {k : Nat} {node : Node} (hk : g.node? k = some node) : k ∈ g.ranked :=
    mem_ranked.mpr (contains_of_node hk)
  have hne : m ≠ n := by
    rintro rfl
    rw [ha, Option.some.injEq] at hb
    rw [hb] at hlt
    omega
  refine (sublist_or_sublist (hmem ha) (hmem hb) hne).resolve_right fun hsub ↦ ?_
  exact List.pairwise_iff_forall_sublist.mp (pairwise_ranked g) hsub h

namespace Threaded

variable (h : g.Threaded line)

include h

/-- The nodes of a wire are in ascending rank. -/
theorem pairwise_thread (w : Nat) : (g.thread line w).Pairwise g.Below := by
  cases hw : g.wires[w]? with
  | none =>
    rw [thread_of_none hw]
    exact List.Pairwise.nil
  | some wire =>
    have hgate {m : Nat} (hm : m ∈ line.filter (g.isOn w)) : ∃ q, g.node? m = some (.gate q) := by
      obtain ⟨q, hq, -⟩ := isOn_iff.mp (List.mem_filter.mp hm).2
      exact ⟨q, gate?_eq_some.mp hq⟩
    have hin := h.input w wire hw
    have hout := h.output w wire hw
    rw [thread_of_some hw, List.cons_append, List.pairwise_cons, List.pairwise_append]
    refine ⟨?_, ?_, List.pairwise_singleton _ _, ?_⟩
    · intro m hm
      rcases List.mem_append.mp hm with hm | hm
      · obtain ⟨q, hq⟩ := hgate hm
        exact ⟨_, _, hin, hq, .inl Nat.zero_lt_one⟩
      · rw [List.mem_singleton.mp hm]
        exact ⟨_, _, hin, hout, .inl Nat.zero_lt_two⟩
    · refine (h.sorted.filter _).imp_of_mem fun hm hk hlt ↦ ?_
      obtain ⟨q, hq⟩ := hgate hm
      obtain ⟨r, hr⟩ := hgate hk
      rw [placeOf_eq (gate?_eq_some.mpr hq), placeOf_eq (gate?_eq_some.mpr hr)] at hlt
      exact ⟨_, _, hq, hr, .inr ⟨rfl, hlt⟩⟩
    · intro m hm k hk
      obtain ⟨q, hq⟩ := hgate hm
      rw [List.mem_singleton.mp hk]
      exact ⟨_, _, hq, hout, .inl Nat.one_lt_two⟩

/-- Every edge leads to a node of higher rank. -/
theorem forward {e : Edge} (he : e ∈ g.edges.values) :
    [e.source, e.target].Sublist g.ranked := by
  obtain ⟨front, back, hthread⟩ := exists_of_mem_links (h.edge_mem he)
  have hsub : [e.source, e.target].Sublist (g.thread line e.wire) := by
    rw [hthread]
    exact (List.sublist_append_left _ back).trans (List.sublist_append_right front _)
  exact (List.pairwise_iff_forall_sublist.mp (h.pairwise_thread e.wire) hsub).sublist_ranked

/-- The gates among the nodes by rank are the line. -/
theorem filter_ranked : g.ranked.filter (fun n ↦ (g.gate? n).isSome) = line := by
  have hperm : (g.ranked.filter fun n ↦ (g.gate? n).isSome).Perm line := by
    refine (((ranked_perm g).trans h.keys).filter _).trans (.of_eq ?_)
    rw [List.filter_append, List.filter_eq_self.mpr h.gate, List.filter_eq_nil_iff.mpr,
      List.append_nil]
    intro m hm
    rw [h.gate?_ends hm]
    exact nofun
  refine List.Perm.eq_of_pairwise ?_ ((pairwise_ranked g).filter _) ?_ hperm
  · intro m k hm hk hmk hkm
    obtain ⟨q, hq⟩ := Option.isSome_iff_exists.mp (h.gate m (hperm.mem_iff.mp hm))
    obtain ⟨r, hr⟩ := Option.isSome_iff_exists.mp (h.gate k hk)
    rw [below_gates hr hq] at hmk
    rw [below_gates hq hr] at hkm
    refine h.eq_of_placeOf (hperm.mem_iff.mp hm) hk ?_
    rw [placeOf_eq hq, placeOf_eq hr]
    omega
  · refine h.sorted.imp_of_mem fun {m k} hm hk hlt ↦ ?_
    obtain ⟨q, hq⟩ := Option.isSome_iff_exists.mp (h.gate m hm)
    obtain ⟨r, hr⟩ := Option.isSome_iff_exists.mp (h.gate k hk)
    rw [placeOf_eq hq, placeOf_eq hr] at hlt
    rw [below_gates hr hq]
    omega

/-- The order of the gates is the line. -/
theorem ordered_ok : g.ordered = .ok line := by
  have htarget : ∀ e ∈ g.edges.values, g.contains e.target = true := fun e he ↦
    h.contains_of_mem_thread (target_mem_of_mem_links (h.edge_mem he))
  have hdrained : g.drained = g.ranked := by
    rw [drained, ← g.length_ranked]
    exact drain_eq_self g.nodup_ranked fun e he ↦ h.forward he
  rw [ordered_eq_drained htarget, hdrained, if_pos g.length_ranked, h.filter_ranked]

end Threaded

/-- The qubit of a wire; a wire that is not there has some qubit or other. -/
def qubitAt (g : Circuit) (w : Nat) : Qubit :=
  (g.wires[w]?.map Wire.qubit).getD default

/-- A gate as an application to qubits. -/
def applied (g : Circuit) (p : GateNode) : Application :=
  ⟨p.gate, p.targets.map g.qubitAt, p.guards.map fun c ↦ ⟨g.qubitAt c.wire, c.negated⟩⟩

theorem qubitAt_of_some {wire : Wire} (hw : g.wires[w]? = some wire) :
    g.qubitAt w = wire.qubit := by
  rw [qubitAt, hw]
  rfl

theorem qubitOf_ok (hw : w < g.wires.length) : g.qubitOf w = .ok (g.qubitAt w) := by
  have hwire := List.getElem?_eq_getElem hw
  rw [qubitOf, wire, hwire, qubitAt_of_some hwire]
  rfl

namespace Threaded

variable (h : g.Threaded line)

include h

theorem application_ok (hp : g.gate? n = some p) : g.application n = .ok (g.applied p) := by
  have htargets : p.targets.mapM g.qubitOf = .ok (p.targets.map g.qubitAt) :=
    Run.mapM_ok fun w hw ↦
      qubitOf_ok (h.within n p w hp (GateNode.touches_of_target hw))
  have hguards : (p.guards.mapM fun c ↦ (g.qubitOf c.wire).map fun q ↦ Guard.mk q c.negated) =
      .ok (p.guards.map fun c ↦ ⟨g.qubitAt c.wire, c.negated⟩) := by
    refine Run.mapM_ok fun c hc ↦ ?_
    have htouch := GateNode.touches_of_guard hc
    rw [qubitOf_ok (h.within n p c.wire hp htouch)]
    rfl
  rw [application, hp]
  dsimp only
  rw [htargets, hguards]
  rfl

/-- The applications of a circuit, one for each gate of the line. -/
theorem mapM_application_ok :
    line.mapM g.application = .ok (line.map fun n ↦ ((g.gate? n).map g.applied).getD default) := by
  refine Run.mapM_ok fun n hn ↦ ?_
  obtain ⟨p, hp⟩ := Option.isSome_iff_exists.mp (h.gate n hn)
  rw [h.application_ok hp, hp]
  rfl

end Threaded

end Circuit

end Peephole
