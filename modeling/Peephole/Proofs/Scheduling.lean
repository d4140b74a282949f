import Mathlib.Data.Fintype.Sets
import Mathlib.Data.List.Sublists
import Mathlib.Data.Set.Finite.Basic
import Mathlib.Logic.Relation
import Mathlib.Order.WellFounded
import Peephole.Proofs.Coherence
import Peephole.Proofs.Ordering

/-!
# The order of the gates of any circuit

The gates of a circuit are put in an order in which every edge leads forward, however the circuit
was built. Removing nodes that no edge enters gets stuck exactly on a cycle (`drain_perm`,
`not_cyclic_of_forward`), every edge leads forward among the nodes that are removed
(`drain_forward`), and each of them is the first that could be (`drain_first`). The inputs of the
wires come before all gates and the outputs after them, so that the same holds among the gates alone
(`Constructible.ordered_topological`).
-/

set_option autoImplicit false
set_option relaxedAutoImplicit false

namespace Peephole

/-- Whether one of some edges leads from a node to another one. -/
def Leads (edges : List Edge) (m n : Nat) : Prop :=
  ∃ e ∈ edges, e.source = m ∧ e.target = n

/-- Whether some edges lead from a node back to it. -/
def Cyclic (edges : List Edge) : Prop :=
  ∃ n, Relation.TransGen (Leads edges) n n

theorem Cyclic.mono {edges edges' : List Edge} (h : Cyclic edges)
    (hsub : ∀ e ∈ edges, e ∈ edges') : Cyclic edges' := by
  obtain ⟨n, hn⟩ := h
  have hleads : Leads edges ≤ Leads edges' := fun m k ⟨e, he, hmk⟩ ↦ ⟨e, hsub e he, hmk⟩
  exact ⟨n, Relation.TransGen.mono hleads n n hn⟩

/-- Edges that lead to every one of some nodes, and from these nodes only, form a cycle. -/
theorem cyclic_of_entered {edges : List Edge} {nodes : List Nat} (hne : nodes ≠ [])
    (hentered : ∀ n ∈ nodes, ∃ e ∈ edges, e.target = n)
    (hsources : ∀ e ∈ edges, e.source ∈ nodes) : Cyclic edges := by
  by_contra hacyclic
  let before (m n : {n // n ∈ nodes}) : Prop := Relation.TransGen (Leads edges) m n
  have htrans : IsTrans _ before := ⟨fun _ _ _ hkm hmn ↦ hkm.trans hmn⟩
  have hirrefl : Std.Irrefl before := ⟨fun n hn ↦ hacyclic ⟨n, hn⟩⟩
  have hwf : WellFounded before := Finite.wellFounded_of_trans_of_irrefl before
  obtain ⟨n, hn⟩ := List.exists_mem_of_ne_nil nodes hne
  obtain ⟨m, -, hmin⟩ := hwf.has_min Set.univ ⟨⟨n, hn⟩, trivial⟩
  obtain ⟨e, he, htarget⟩ := hentered m m.2
  exact hmin ⟨e.source, hsources e he⟩ trivial (.single ⟨e, he, rfl, htarget⟩)

theorem idxOf_lt_idxOf {l : List Nat} (hl : l.Nodup) {a b : Nat} (h : [a, b].Sublist l) :
    l.idxOf a < l.idxOf b := by
  induction l with
  | nil => cases h
  | cons x rest ih =>
    obtain ⟨hx, hrest⟩ := List.nodup_cons.mp hl
    rcases List.sublist_cons_iff.mp h with hsub | ⟨r, heq, hsub⟩
    · have hne {c : Nat} (hc : c ∈ [a, b]) : c ≠ x := fun heq ↦ hx (heq ▸ hsub.subset hc)
      rw [List.idxOf_cons_ne _ (hne (by simp)).symm, List.idxOf_cons_ne _ (hne (by simp)).symm]
      exact Nat.succ_lt_succ (ih hrest hsub)
    · obtain ⟨rfl, rfl⟩ := List.cons.inj heq
      have hb : b ≠ a := fun heq ↦ hx (heq ▸ List.singleton_sublist.mp hsub)
      rw [List.idxOf_cons_self, List.idxOf_cons_ne _ hb.symm]
      exact Nat.succ_pos _

/-- What comes before a node in a list without repetitions is in the part before it. -/
theorem mem_before_of_sublist {before after : List Nat} {m n : Nat}
    (hl : (before ++ n :: after).Nodup) (h : [m, n].Sublist (before ++ n :: after)) :
    m ∈ before := by
  have hn : n ∉ before := fun hmem ↦
    (List.nodup_append.mp hl).2.2 n hmem n List.mem_cons_self rfl
  have hlt := idxOf_lt_idxOf hl h
  by_contra hm
  rw [List.idxOf_append_of_notMem hm, List.idxOf_append_of_notMem hn, List.idxOf_cons_self] at hlt
  omega

/-- Edges that all lead forward in a list form no cycle. -/
theorem not_cyclic_of_forward {edges : List Edge} {l : List Nat} (hl : l.Nodup)
    (hforward : ∀ e ∈ edges, [e.source, e.target].Sublist l) : ¬ Cyclic edges := by
  rintro ⟨n, hn⟩
  have hstep : ∀ a b, Leads edges a b → l.idxOf a < l.idxOf b := by
    rintro a b ⟨e, he, rfl, rfl⟩
    exact idxOf_lt_idxOf hl (hforward e he)
  have hlt : Relation.TransGen (· < ·) (l.idxOf n) (l.idxOf n) :=
    Relation.TransGen.lift (fun a ↦ l.idxOf a) hstep n n hn
  rw [Relation.transGen_eq_self] at hlt
  exact Nat.lt_irrefl _ hlt

namespace Circuit

section Drain

variable {pending : List Nat} {edges : List Edge} {steps n : Nat}

/-- No node is taken twice. -/
theorem drain_subperm : (drain steps pending edges).Subperm pending := by
  induction steps generalizing pending edges with
  | zero => exact List.nil_subperm
  | succ steps ih =>
    rw [drain]
    split
    · exact List.nil_subperm
    · rename_i n hfind
      have hn := List.mem_of_find?_eq_some hfind
      exact ((List.subperm_cons n).mpr ih).trans (List.perm_cons_erase hn).symm.subperm

/-- Without a cycle all nodes are taken. -/
theorem drain_perm (hsources : ∀ e ∈ edges, e.source ∈ pending)
    (htargets : ∀ e ∈ edges, e.target ∈ pending) (hacyclic : ¬ Cyclic edges) :
    (drain pending.length pending edges).Perm pending := by
  obtain ⟨steps, hsteps⟩ : ∃ steps, pending.length = steps := ⟨_, rfl⟩
  rw [hsteps]
  induction steps generalizing pending edges with
  | zero =>
    rw [List.length_eq_zero_iff.mp hsteps]
    exact .refl _
  | succ steps ih =>
    rw [drain]
    split
    · rename_i hnone
      -- Every node that is left is entered from one that is left.
      refine absurd (cyclic_of_entered ?_ (fun n hn ↦ ?_) hsources) hacyclic
      · exact List.ne_nil_of_length_eq_add_one hsteps
      · simpa using List.find?_eq_none.mp hnone n hn
    · rename_i n hfind
      have hn := List.mem_of_find?_eq_some hfind
      have hfree : ∀ e ∈ edges, e.target ≠ n := by simpa using List.find?_some hfind
      refine (List.Perm.cons n (ih ?_ ?_ ?_ ?_)).trans (List.perm_cons_erase hn).symm
      · intro e he
        obtain ⟨he, hsource⟩ := List.mem_filter.mp he
        exact (List.mem_erase_of_ne (by simpa using hsource)).mpr (hsources e he)
      · intro e he
        have he := List.mem_of_mem_filter he
        exact (List.mem_erase_of_ne (hfree e he)).mpr (htargets e he)
      · exact fun hcyclic ↦ hacyclic (hcyclic.mono fun e ↦ List.mem_of_mem_filter)
      · rw [List.length_erase_of_mem hn, hsteps, Nat.add_sub_cancel]

/-- A node is taken after the nodes from which edges lead to it. -/
theorem drain_forward {e : Edge} (he : e ∈ edges) (htaken : e.target ∈ drain steps pending edges) :
    [e.source, e.target].Sublist (drain steps pending edges) := by
  induction steps generalizing pending edges with
  | zero => exact absurd htaken List.not_mem_nil
  | succ steps ih =>
    rw [drain] at htaken ⊢
    split at htaken
    · exact absurd htaken List.not_mem_nil
    · rename_i n hfind
      have hfree : ∀ e ∈ edges, e.target ≠ n := by simpa using List.find?_some hfind
      have hrest := (List.mem_cons.mp htaken).resolve_left (hfree e he)
      by_cases hsource : e.source = n
      · rw [hsource]
        exact .cons_cons n (List.singleton_sublist.mpr hrest)
      · exact .cons n (ih (List.mem_filter.mpr ⟨he, by simpa using hsource⟩) hrest)

/-- The first node that is taken is the first that no edge enters. -/
theorem of_drain_eq_cons {rest : List Nat} (h : drain steps pending edges = n :: rest) :
    pending.find? (fun n ↦ edges.all (·.target ≠ n)) = some n ∧
      ∃ left, drain left (pending.erase n) (edges.filter (·.source ≠ n)) = rest := by
  cases steps with
  | zero => cases h
  | succ left =>
    rw [drain] at h
    split at h
    · cases h
    · rename_i m hfind
      obtain ⟨rfl, hrest⟩ := List.cons.inj h
      exact ⟨hfind, left, hrest⟩

/-- Each node that is taken is the first one whose predecessors have all been taken. -/
theorem drain_first {before after : List Nat} {m : Nat}
    (h : drain steps pending edges = before ++ n :: after) (hm : m ∈ pending) (hnew : m ∉ before)
    (hfree : ∀ e ∈ edges, e.target = m → e.source ∈ before) :
    m = n ∨ [n, m].Sublist pending := by
  induction before generalizing steps pending edges with
  | nil =>
    obtain ⟨hfind, -⟩ := of_drain_eq_cons h
    obtain ⟨-, front, back, rfl, hfront⟩ := List.find?_eq_some_iff_append.mp hfind
    have hentered : m ∉ front := by
      intro hmem
      obtain ⟨e, he, htarget⟩ : ∃ e ∈ edges, e.target = m := by simpa using hfront m hmem
      exact absurd (hfree e he htarget) List.not_mem_nil
    have hlater := (List.mem_append.mp hm).resolve_left hentered
    refine (List.mem_cons.mp hlater).imp_right fun hback ↦ ?_
    exact (List.Sublist.cons_cons n (List.singleton_sublist.mpr hback)).trans
      (List.sublist_append_right front _)
  | cons b rest ih =>
    obtain ⟨-, left, hrest⟩ := of_drain_eq_cons h
    obtain ⟨hmb, hmrest⟩ := List.ne_and_not_mem_of_not_mem_cons hnew
    have hlater : ∀ e ∈ edges.filter (·.source ≠ b), e.target = m → e.source ∈ rest := by
      intro e he htarget
      obtain ⟨hmem, hsource⟩ := List.mem_filter.mp he
      exact (List.mem_cons.mp (hfree e hmem htarget)).resolve_left (by simpa using hsource)
    exact (ih hrest ((List.mem_erase_of_ne hmb).mpr hm) hmrest hlater).imp_right fun hsub ↦
      hsub.trans List.erase_sublist

end Drain

/-! ### The gates -/

variable {g : Circuit} {m n : Nat}

/-- Whether a gate can come next after some others: it is none of them, and every gate from which
an edge leads to it is one of them. -/
structure CanFollow (g : Circuit) (before : List Nat) (n : Nat) : Prop where
  gate : (g.gate? n).isSome
  fresh : n ∉ before
  ready : ∀ m, Leads g.edges.values m n → (g.gate? m).isSome → m ∈ before

namespace Coherent

variable (h : g.Coherent)

include h

theorem contains_target {e : Edge} (he : e ∈ g.edges.values) : g.contains e.target = true := by
  obtain ⟨node, hnode, -⟩ := h.arrives e he
  exact contains_of_node hnode

theorem contains_source {e : Edge} (he : e ∈ g.edges.values) : g.contains e.source = true := by
  obtain ⟨node, hnode, -⟩ := h.departs e he
  exact contains_of_node hnode

theorem drained_perm (hacyclic : ¬ Cyclic g.edges.values) : g.drained.Perm g.ranked := by
  rw [drained, ← g.length_ranked]
  exact drain_perm (fun e he ↦ mem_ranked.mpr (h.contains_source he))
    (fun e he ↦ mem_ranked.mpr (h.contains_target he)) hacyclic

/-- All nodes are taken if and only if there is no cycle. -/
theorem length_drained_iff : g.drained.length = g.nodes.size ↔ ¬ Cyclic g.edges.values := by
  constructor
  · intro hlength
    have hperm : g.drained.Perm g.ranked :=
      drain_subperm.perm_of_length_le (g.length_ranked.trans hlength.symm).le
    refine not_cyclic_of_forward (hperm.nodup_iff.mpr g.nodup_ranked) fun e he ↦ ?_
    exact drain_forward he (hperm.mem_iff.mpr (mem_ranked.mpr (h.contains_target he)))
  · intro hacyclic
    rw [(h.drained_perm hacyclic).length_eq, g.length_ranked]

theorem mem_drained (hacyclic : ¬ Cyclic g.edges.values) (hn : (g.gate? n).isSome) :
    n ∈ g.drained := by
  obtain ⟨p, hp⟩ := Option.isSome_iff_exists.mp hn
  exact (h.drained_perm hacyclic).mem_iff.mpr (mem_ranked.mpr (contains_of_gate hp))

/-- An edge between gates leads forward. -/
theorem sublist_of_leads (hacyclic : ¬ Cyclic g.edges.values) (hlead : Leads g.edges.values m n)
    (hm : (g.gate? m).isSome) (hn : (g.gate? n).isSome) :
    [m, n].Sublist (g.drained.filter fun n ↦ (g.gate? n).isSome) := by
  obtain ⟨e, he, rfl, rfl⟩ := hlead
  have hsub : [e.source, e.target].Sublist g.drained :=
    drain_forward he (h.mem_drained hacyclic hn)
  simpa [hm, hn] using hsub.filter fun n ↦ (g.gate? n).isSome

/-- A node from which an edge leads is a gate or an input. -/
theorem gate_or_input_of_leads (hlead : Leads g.edges.values m n) :
    (g.gate? m).isSome ∨ ∃ w, g.node? m = some (.input w) := by
  obtain ⟨e, he, rfl, -⟩ := hlead
  obtain ⟨node, hnode, hkind⟩ := h.departs e he
  cases node with
  | input w => exact .inr ⟨w, hnode⟩
  | output w => cases hkind
  | gate p => exact .inl (by rw [gate?_eq_some.mpr hnode]; rfl)

/-- No edge leads to an input. -/
theorem not_leads_input {w : Nat} (hn : g.node? n = some (.input w)) :
    ¬ Leads g.edges.values m n := by
  rintro ⟨e, he, -, rfl⟩
  obtain ⟨node, hnode, hkind⟩ := h.arrives e he
  rw [hn, Option.some.injEq] at hnode
  rw [← hnode] at hkind
  cases hkind

section Taken

variable {before after : List Nat} (hgate : (g.gate? n).isSome)
  (htaken : g.drained = before ++ n :: after)

include hgate htaken

/-- The inputs are taken before the gates. -/
theorem input_mem_before {w : Nat} (hm : g.node? m = some (.input w)) : m ∈ before := by
  by_contra hnew
  have hranked : m ∈ g.ranked := mem_ranked.mpr (contains_of_node hm)
  obtain ⟨p, hp⟩ := Option.isSome_iff_exists.mp hgate
  rw [gate?_eq_some] at hp
  rcases drain_first htaken hranked hnew
    (fun e he htarget ↦ absurd ⟨e, he, rfl, htarget⟩ (h.not_leads_input hm)) with rfl | hsub
  · rw [hm] at hp
    cases hp
  · refine List.pairwise_iff_forall_sublist.mp (pairwise_ranked g) hsub ?_
    exact ⟨_, _, hm, hp, .inl Nat.zero_lt_one⟩

/-- A gate is taken before the others that could be. -/
theorem placeOf_lt_of_canFollow (hm : g.CanFollow (before.filter fun n ↦ (g.gate? n).isSome) m)
    (hne : m ≠ n) : g.placeOf n < g.placeOf m := by
  obtain ⟨p, hp⟩ := Option.isSome_iff_exists.mp hgate
  obtain ⟨q, hq⟩ := Option.isSome_iff_exists.mp hm.gate
  have hranked : m ∈ g.ranked := mem_ranked.mpr (contains_of_gate hq)
  have hnew : m ∉ before := fun hmem ↦ hm.fresh (List.mem_filter.mpr ⟨hmem, hm.gate⟩)
  have hfree : ∀ e ∈ g.edges.values, e.target = m → e.source ∈ before := by
    intro e he htarget
    have hlead : Leads g.edges.values e.source m := ⟨e, he, rfl, htarget⟩
    rcases h.gate_or_input_of_leads hlead with hsource | ⟨w, hw⟩
    · exact List.mem_of_mem_filter (hm.ready e.source hlead hsource)
    · exact h.input_mem_before hgate htaken hw
  have hsub := (drain_first htaken hranked hnew hfree).resolve_left hne
  have hbelow := List.pairwise_iff_forall_sublist.mp (pairwise_ranked g) hsub
  rw [below_gates hq hp] at hbelow
  rw [placeOf_eq hp, placeOf_eq hq]
  exact lt_of_le_of_ne (Nat.le_of_not_lt hbelow) fun heq ↦ hne (h.distinct m n q p hq hp heq.symm)

end Taken

end Coherent

/-- A part of a list in front of a member that passes a test, and the part of its selection. -/
theorem exists_append_of_filter {test : Nat → Bool} {l before after : List Nat} {n : Nat}
    (h : l.filter test = before ++ n :: after) :
    ∃ front back, l = front ++ n :: back ∧ front.filter test = before := by
  obtain ⟨front, rest, rfl, rfl, hrest⟩ := List.filter_eq_append_iff.mp h
  obtain ⟨skipped, back, rfl, hskipped, -, -⟩ := List.filter_eq_cons_iff.mp hrest
  refine ⟨front ++ skipped, back, by rw [List.append_assoc], ?_⟩
  rw [List.filter_append, List.filter_eq_nil_iff.mpr hskipped, List.append_nil]

/-- However a circuit is built, no count falls below zero when its gates are put in order, and the
sort fails exactly if there is a cycle. Otherwise every gate is listed once, every edge between
gates leads forward, and each gate is the one with the first place among those that can come
next. -/
theorem Constructible.ordered_topological (hg : g.Constructible) :
    g.taken?.isSome ∧
    (g.ordered = .error (.invalidShape .cycle) ↔ Cyclic g.edges.values) ∧
    (¬ Cyclic g.edges.values → ∃ order, g.ordered = .ok order ∧ order.Nodup ∧
      (∀ n, n ∈ order ↔ (g.gate? n).isSome) ∧
      (∀ m n, Leads g.edges.values m n → (g.gate? m).isSome → (g.gate? n).isSome →
        [m, n].Sublist order) ∧
      ∀ before n after, order = before ++ n :: after → g.CanFollow before n ∧
        ∀ m, g.CanFollow before m → m ≠ n → g.placeOf n < g.placeOf m) := by
  have h := hg.coherent
  have hordered := ordered_eq_drained fun e he ↦ h.contains_target he
  refine ⟨?_, ?_, fun hacyclic ↦ ?_⟩
  · rw [taken?_eq_drained fun e he ↦ h.contains_target he]
    rfl
  · rw [hordered, ← not_iff_not, ← h.length_drained_iff]
    split <;> simp [*]
  have hnodup := ((h.drained_perm hacyclic).nodup_iff.mpr g.nodup_ranked).filter fun n ↦
    (g.gate? n).isSome
  refine ⟨_, hordered.trans (if_pos (h.length_drained_iff.mpr hacyclic)), hnodup, fun n ↦ ?_,
    fun m n ↦ h.sublist_of_leads hacyclic, ?_⟩
  · rw [List.mem_filter]
    exact ⟨And.right, fun hn ↦ ⟨h.mem_drained hacyclic hn, hn⟩⟩
  · intro before n after horder
    obtain ⟨front, back, htaken, hbefore⟩ := exists_append_of_filter horder
    have hgate : (g.gate? n).isSome := by
      have hn : n ∈ before ++ n :: after := List.mem_append_right _ List.mem_cons_self
      rw [← horder] at hn
      exact (List.mem_filter.mp hn).2
    refine ⟨⟨hgate, ?_, fun m hlead hm ↦ ?_⟩, fun m hm hne ↦ ?_⟩
    · rw [horder] at hnodup
      exact fun hn ↦ (List.nodup_append.mp hnodup).2.2 n hn n List.mem_cons_self rfl
    · have hsub := h.sublist_of_leads hacyclic hlead hm hgate
      rw [horder] at hnodup hsub
      exact mem_before_of_sublist hnodup hsub
    · rw [← hbefore] at hm
      exact h.placeOf_lt_of_canFollow hgate htaken hm hne

/-- The removal of a gate is refused after it has left the first of its wires, and the gate is then
connected to an earlier one, which now comes after it. One more edge closes a cycle. -/
theorem Constructible.ordered_topological_reversed :
    let g := (Circuit.connect 5 4 0).after ((Call.remove 5).after ((Circuit.connect 2 5 1).after
      ((Call.apply ⟨.standard .cx, [⟨"q", some 0⟩, ⟨"q", some 1⟩], []⟩).after
        ((Call.apply ⟨.standard .x, [⟨"q", some 0⟩], []⟩).after
          ((Call.declare ⟨"q", some 2⟩).after Circuit.empty)))))
    g.ordered = .ok [5, 4] ∧ ¬ Cyclic g.edges.values ∧ g.CanFollow [] 5 ∧ g.CanFollow [5] 4 ∧
      Cyclic ((Circuit.connect 4 4 0).after g).edges.values := by
  intro g
  have hg : g.Constructible := .connect _ _ _ (.call _ (.connect _ _ _ (.call _ (.call _ (.call _
    .empty)))))
  have hordered : g.ordered = .ok [5, 4] := by decide +kernel
  have hclosed : ((Circuit.connect 4 4 0).after g).ordered = .error (.invalidShape .cycle) := by
    decide +kernel
  obtain ⟨-, hfails, horder⟩ := hg.ordered_topological
  have hacyclic : ¬ Cyclic g.edges.values := by
    rw [← hfails, hordered]
    exact nofun
  obtain ⟨order, horder, -, -, -, hfirst⟩ := horder hacyclic
  cases hordered.symm.trans horder
  exact ⟨hordered, hacyclic, (hfirst [] 5 [4] rfl).1, (hfirst [5] 4 [] rfl).1,
    (hg.connect 4 4 0).ordered_topological.2.1.mp hclosed⟩

end Circuit

end Peephole
