import Mathlib.Data.List.Nodup
import Peephole.Circuit.Order
import Peephole.Proofs.Slots

/-!
# Counting edges down is removing them

The sort of the nodes counts for each node the edges that are still to be followed into it, and
keeps the nodes without such edges in a queue. `drain` is the same sort without counts and queue: it
looks for the first node that no edge enters, and removes the edges that leave it. While the counts
are those of the edges that are left (`Countdown.Fits`), each edge that is followed finds a count to
lower (`Countdown.Fits.follow`), and the two sorts take the same nodes (`Countdown.run_eq_drain`).
So no count falls below zero when every edge of a circuit leads to a node
(`Circuit.taken?_eq_drained`).
-/

set_option autoImplicit false
set_option relaxedAutoImplicit false

namespace Peephole

/-! ### Sorting -/

section Sorting

variable {α : Type} {le : α → α → Bool}

theorem pairwise_insertBy (htotal : ∀ a b, le a b = true ∨ le b a = true)
    (htrans : ∀ a b c, le a b = true → le b c = true → le a c = true) (a : α) {l : List α}
    (hl : l.Pairwise fun x y ↦ le x y = true) :
    (insertBy le a l).Pairwise fun x y ↦ le x y = true := by
  induction l with
  | nil => exact List.pairwise_singleton _ _
  | cons b rest ih =>
    obtain ⟨hb, hrest⟩ := List.pairwise_cons.mp hl
    rw [insertBy]
    by_cases hab : le a b = true
    · rw [if_pos hab]
      refine List.Pairwise.cons ?_ hl
      intro x hx
      rcases List.mem_cons.mp hx with rfl | hx
      · exact hab
      · exact htrans a b x hab (hb x hx)
    · rw [if_neg hab]
      refine List.Pairwise.cons ?_ (ih hrest)
      intro x hx
      rcases List.mem_cons.mp ((insertBy_perm le a rest).mem_iff.mp hx) with rfl | hx
      · exact (htotal x b).resolve_left hab
      · exact hb x hx

/-- A sorted list is in ascending order. -/
theorem pairwise_sortBy (htotal : ∀ a b, le a b = true ∨ le b a = true)
    (htrans : ∀ a b c, le a b = true → le b c = true → le a c = true) (l : List α) :
    (sortBy le l).Pairwise fun x y ↦ le x y = true := by
  induction l with
  | nil => exact List.Pairwise.nil
  | cons a rest ih => exact pairwise_insertBy htotal htrans a ih

end Sorting

/-! ### Counts -/

/-- Takes the first node of `pending` that no edge enters, drops the edges that leave it, and goes
on, for at most `steps` nodes. -/
def Circuit.drain : (steps : Nat) → (pending : List Nat) → (edges : List Edge) → List Nat
  | 0, _, _ => []
  | steps + 1, pending, edges =>
    match pending.find? fun n ↦ edges.all (·.target ≠ n) with
    | none => []
    | some n => n :: drain steps (pending.erase n) (edges.filter (·.source ≠ n))

namespace Countdown

/-- The numbers of edges into some nodes. -/
def counts (nodes : List Nat) (edges : List Edge) : List (Nat × Nat) :=
  nodes.map fun n ↦ (n, edges.countP (·.target = n))

variable {le : Nat → Nat → Bool} {nodes pending : List Nat} {e : Edge} {edges : List Edge}
  {s : Countdown}

theorem counts_of_not_mem (h : e.target ∉ nodes) :
    counts nodes (e :: edges) = counts nodes edges := by
  refine List.map_congr_left fun n hn ↦ ?_
  rw [List.countP_cons_of_neg]
  simpa using fun heq : e.target = n ↦ h (heq ▸ hn)

/-- The count of a node that an edge leads to is lowered to that of the other edges. -/
theorem lower?_counts (hnodes : nodes.Nodup) (h : e.target ∈ nodes) :
    lower? e.target (counts nodes (e :: edges)) =
      some (edges.countP (·.target = e.target), counts nodes edges) := by
  induction nodes with
  | nil => exact absurd h List.not_mem_nil
  | cons m rest ih =>
    obtain ⟨hm, hrest⟩ := List.nodup_cons.mp hnodes
    rw [counts, List.map_cons, lower?]
    by_cases heq : m = e.target
    · subst heq
      rw [if_pos rfl, List.countP_cons_of_pos (by simp), if_neg (Nat.succ_ne_zero _),
        Nat.add_sub_cancel]
      exact congrArg (fun table ↦ some (_, _ :: table)) (counts_of_not_mem hm)
    · have htail := ih hrest ((List.mem_cons.mp h).resolve_left (Ne.symm heq))
      rw [counts] at htail
      rw [if_neg heq, htail, List.countP_cons_of_neg (by simpa using Ne.symm heq)]
      rfl

/-- A sort under way that counts the edges that are left, with those pending nodes ready that none
of these edges enters. -/
structure Fits (le : Nat → Nat → Bool) (nodes pending : List Nat) (edges : List Edge)
    (s : Countdown) : Prop where
  degrees : s.degrees = counts nodes edges
  sorted : s.ready.Pairwise fun m n ↦ le m n = true
  nodup : s.ready.Nodup
  mem_ready : ∀ n, n ∈ s.ready ↔ n ∈ pending ∧ ∀ e ∈ edges, e.target ≠ n

theorem Fits.perm {edges' : List Edge} (h : Fits le nodes pending edges s)
    (hperm : edges.Perm edges') : Fits le nodes pending edges' s where
  degrees := by
    rw [h.degrees]
    exact List.map_congr_left fun n _ ↦ by rw [hperm.countP_eq]
  sorted := h.sorted
  nodup := h.nodup
  mem_ready n := by simp only [h.mem_ready, hperm.mem_iff]

/-- The queue holds the pending nodes that no edge enters, in their order. -/
theorem Fits.ready_eq (h : Fits le nodes pending edges s)
    (hantisymm : ∀ m n, le m n = true → le n m = true → m = n) (hnodup : pending.Nodup)
    (hsorted : pending.Pairwise fun m n ↦ le m n = true) :
    s.ready = pending.filter fun n ↦ edges.all (·.target ≠ n) := by
  have hperm : s.ready.Perm (pending.filter fun n ↦ edges.all (·.target ≠ n)) := by
    refine (List.perm_ext_iff_of_nodup h.nodup (hnodup.filter _)).mpr fun n ↦ ?_
    rw [h.mem_ready, List.mem_filter, List.all_eq_true]
    simp
  exact hperm.eq_of_pairwise (fun m n _ _ ↦ hantisymm m n) h.sorted (hsorted.filter _)

theorem run_cons {all : List Edge} {degrees : List (Nat × Nat)} {n : Nat} {rest : List Nat}
    (h : ((all.filter (·.source = n)).map Edge.target).foldlM (Countdown.follow le)
      ⟨degrees, rest⟩ = some s) :
    run le all ⟨degrees, n :: rest⟩ = (s.run le all).map (n :: ·) := by
  rw [run]
  split
  · rename_i hnone
    rw [h] at hnone
    cases hnone
  · rename_i next hnext
    rw [h] at hnext
    cases hnext
    rfl

section Order

variable (htotal : ∀ m n, le m n = true ∨ le n m = true)
  (htrans : ∀ k m n, le k m = true → le m n = true → le k n = true)

include htotal htrans

/-- An edge that is left can be followed. -/
theorem Fits.follow (hnodes : nodes.Nodup) (h : Fits le nodes pending (e :: edges) s)
    (hnode : e.target ∈ nodes) (hpending : e.target ∈ pending) :
    ∃ s', s.follow le e.target = some s' ∧ Fits le nodes pending edges s' := by
  have hbusy : e.target ∉ s.ready := fun hmem ↦
    ((h.mem_ready _).mp hmem).2 e List.mem_cons_self rfl
  have hleft : edges.countP (·.target = e.target) = 0 ↔ ∀ e' ∈ edges, e'.target ≠ e.target := by
    simp [List.countP_eq_zero]
  have hother {n : Nat} (hn : e.target ≠ n) :
      n ∈ s.ready ↔ n ∈ pending ∧ ∀ e' ∈ edges, e'.target ≠ n := by
    rw [h.mem_ready, List.forall_mem_cons, and_iff_right hn]
  have hrun : s.follow le e.target = some ⟨counts nodes edges,
      if edges.countP (·.target = e.target) = 0 then insertBy le e.target s.ready
      else s.ready⟩ := by
    rw [Countdown.follow, h.degrees, lower?_counts hnodes hnode]
    rfl
  refine ⟨_, hrun, ?_⟩
  by_cases hzero : edges.countP (·.target = e.target) = 0
  · have hperm := insertBy_perm le e.target s.ready
    rw [if_pos hzero]
    refine ⟨rfl, pairwise_insertBy htotal htrans _ h.sorted,
      hperm.nodup_iff.mpr (List.nodup_cons.mpr ⟨hbusy, h.nodup⟩), fun n ↦ ?_⟩
    rw [hperm.mem_iff, List.mem_cons]
    by_cases hn : e.target = n
    · subst hn
      exact iff_of_true (.inl rfl) ⟨hpending, hleft.mp hzero⟩
    · rw [← hother hn, or_iff_right (Ne.symm hn)]
  · rw [if_neg hzero]
    refine ⟨rfl, h.sorted, h.nodup, fun n ↦ ?_⟩
    by_cases hn : e.target = n
    · subst hn
      exact iff_of_false hbusy fun hfree ↦ hzero (hleft.mpr hfree.2)
    · exact hother hn

/-- The edges that are left can be followed one after the other. -/
theorem Fits.followAll (hnodes : nodes.Nodup) {es : List Edge}
    (h : Fits le nodes pending (es ++ edges) s) (hin : ∀ e ∈ es, e.target ∈ nodes)
    (hpending : ∀ e ∈ es, e.target ∈ pending) :
    ∃ s', (es.map Edge.target).foldlM (Countdown.follow le) s = some s' ∧
      Fits le nodes pending edges s' := by
  induction es generalizing s with
  | nil => exact ⟨s, rfl, h⟩
  | cons e rest ih =>
    obtain ⟨hnode, hnodes'⟩ := List.forall_mem_cons.mp hin
    obtain ⟨hfirst, hpending'⟩ := List.forall_mem_cons.mp hpending
    obtain ⟨next, hfollow, hnext⟩ := h.follow htotal htrans hnodes hnode hfirst
    obtain ⟨s', hrest, hs'⟩ := ih hnext hnodes' hpending'
    refine ⟨s', ?_, hs'⟩
    rw [List.map_cons, List.foldlM_cons, hfollow]
    exact hrest

/-- The first node of the queue is taken, with the edges that leave it. -/
theorem Fits.take (hnodes : nodes.Nodup) (hsub : ∀ n ∈ pending, n ∈ nodes)
    {degrees : List (Nat × Nat)} {n : Nat} {rest : List Nat}
    (h : Fits le nodes pending edges ⟨degrees, n :: rest⟩) (hnodup : pending.Nodup)
    (htargets : ∀ e ∈ edges, e.target ∈ pending) :
    (∀ e ∈ edges, e.target ∈ pending.erase n) ∧
    ∃ next, ((edges.filter (·.source = n)).map Edge.target).foldlM (Countdown.follow le)
        ⟨degrees, rest⟩ = some next ∧
      Fits le nodes (pending.erase n) (edges.filter (·.source ≠ n)) next := by
  obtain ⟨hn, hfree⟩ := (h.mem_ready n).mp List.mem_cons_self
  obtain ⟨hnrest, hrest⟩ := List.nodup_cons.mp h.nodup
  have hpopped : Fits le nodes (pending.erase n) edges ⟨degrees, rest⟩ := by
    refine ⟨h.degrees, h.sorted.tail, hrest, fun m ↦ ?_⟩
    have hm := h.mem_ready m
    rw [List.mem_cons] at hm
    by_cases heq : m = n
    · subst heq
      exact iff_of_false hnrest fun hmem ↦ hnodup.not_mem_erase hmem.1
    · rw [List.mem_erase_of_ne heq, ← hm, or_iff_right heq]
  have hpending : ∀ e ∈ edges, e.target ∈ pending.erase n := fun e he ↦
    (List.mem_erase_of_ne (hfree e he)).mpr (htargets e he)
  have hcut : (edges.filter (·.source = n) ++ edges.filter (·.source ≠ n)).Perm edges := by
    simpa using List.filter_append_perm (·.source = n) edges
  refine ⟨hpending, (hpopped.perm hcut.symm).followAll htotal htrans hnodes ?_ ?_⟩
  · exact fun e he ↦ hsub _ (htargets e (List.mem_of_mem_filter he))
  · exact fun e he ↦ hpending e (List.mem_of_mem_filter he)

/-- Counting edges down takes the nodes that removing them does. -/
theorem run_eq_drain {all : List Edge}
    (hantisymm : ∀ m n, le m n = true → le n m = true → m = n) (hnodes : nodes.Nodup)
    (hsub : ∀ n ∈ pending, n ∈ nodes) (h : Fits le nodes pending edges s) (hnodup : pending.Nodup)
    (hsorted : pending.Pairwise fun m n ↦ le m n = true)
    (htargets : ∀ e ∈ edges, e.target ∈ pending)
    (hall : ∀ n ∈ pending, all.filter (·.source = n) = edges.filter (·.source = n)) :
    s.run le all = some (Circuit.drain pending.length pending edges) := by
  obtain ⟨steps, hsteps⟩ : ∃ steps, pending.length = steps := ⟨_, rfl⟩
  rw [hsteps]
  induction steps generalizing pending edges s with
  | zero =>
    have hready := h.ready_eq hantisymm hnodup hsorted
    rw [List.length_eq_zero_iff.mp hsteps, List.filter_nil] at hready
    obtain ⟨degrees, ready⟩ := s
    cases hready
    rw [run, Circuit.drain]
  | succ steps ih =>
    have hfind : pending.find? (fun n ↦ edges.all (·.target ≠ n)) = s.ready.head? := by
      rw [h.ready_eq hantisymm hnodup hsorted, List.head?_filter]
    obtain ⟨degrees, _ | ⟨n, rest⟩⟩ := s
    · rw [run, Circuit.drain, hfind]
      rfl
    · obtain ⟨hn, -⟩ := (h.mem_ready n).mp List.mem_cons_self
      obtain ⟨hpending, next, hfollow, hnext⟩ :=
        h.take htotal htrans hnodes hsub hnodup htargets
      have hlater : ∀ m ∈ pending.erase n, all.filter (·.source = m) =
          (edges.filter (·.source ≠ n)).filter (·.source = m) := by
        intro m hm
        have hmn : m ≠ n := fun heq ↦ hnodup.not_mem_erase (heq ▸ hm)
        rw [hall m (List.mem_of_mem_erase hm), List.filter_filter]
        refine List.filter_congr fun e _ ↦ ?_
        by_cases he : e.source = m <;> simp [he, hmn]
      rw [← hall n hn] at hfollow
      rw [run_cons hfollow, Circuit.drain, hfind,
        ih (fun m hm ↦ hsub m (List.mem_of_mem_erase hm)) hnext (hnodup.erase n)
          (hsorted.sublist List.erase_sublist) (fun e he ↦ hpending e (List.mem_of_mem_filter he))
          hlater (by rw [List.length_erase_of_mem hn, hsteps, Nat.add_sub_cancel])]
      rfl

/-- The sort begins with all nodes pending and all edges left. -/
theorem fits_start (hnodes : nodes.Nodup) (hpending : ∀ n, n ∈ pending ↔ n ∈ nodes) :
    Fits le nodes pending edges (start le nodes edges) := by
  have hperm := sortBy_perm le (((counts nodes edges).filter (·.2 = 0)).map (·.1))
  have hfree : ((counts nodes edges).filter (·.2 = 0)).map (·.1) =
      nodes.filter fun n ↦ edges.countP (·.target = n) = 0 := by
    rw [counts, List.filter_map, List.map_map]
    exact List.map_id _
  refine ⟨rfl, pairwise_sortBy htotal htrans _, hperm.nodup_iff.mpr ?_, fun n ↦ ?_⟩
  · rw [hfree]
    exact hnodes.filter _
  · refine hperm.mem_iff.trans ?_
    rw [hfree, List.mem_filter, hpending]
    simp [List.countP_eq_zero]

end Order

end Countdown

/-! ### The order of the nodes -/

namespace Circuit

section Ranks

variable {ranks : Array (Nat × Nat)} {k m n : Nat}

theorem notAfter_iff : notAfter ranks m n = true ↔
    (ranks.getD m (0, 0)).1 < (ranks.getD n (0, 0)).1 ∨
    (ranks.getD m (0, 0)).1 = (ranks.getD n (0, 0)).1 ∧
      ((ranks.getD m (0, 0)).2 < (ranks.getD n (0, 0)).2 ∨
      (ranks.getD m (0, 0)).2 = (ranks.getD n (0, 0)).2 ∧ m ≤ n) := by
  simp [notAfter]

theorem notAfter_total (m n : Nat) : notAfter ranks m n = true ∨ notAfter ranks n m = true := by
  rw [notAfter_iff, notAfter_iff]
  omega

theorem notAfter_trans (k m n : Nat) (hkm : notAfter ranks k m = true)
    (hmn : notAfter ranks m n = true) : notAfter ranks k n = true := by
  rw [notAfter_iff] at *
  omega

theorem notAfter_antisymm (m n : Nat) (hmn : notAfter ranks m n = true)
    (hnm : notAfter ranks n m = true) : m = n := by
  rw [notAfter_iff] at *
  omega

end Ranks

variable {g : Circuit} {n : Nat}

theorem ranks_getD {node : Node} (hn : g.node? n = some node) :
    g.ranks.getD n (0, 0) = node.rank := by
  rw [node?, Slots.get?_eq_some] at hn
  rw [ranks, Array.getD_eq_getD_getElem?, List.getElem?_toArray, List.getElem?_map, hn]
  rfl

/-- The numbers of the nodes by rank. -/
def ranked (g : Circuit) : List Nat :=
  sortBy (notAfter g.ranks) g.nodes.keys

theorem ranked_perm (g : Circuit) : g.ranked.Perm g.nodes.keys :=
  sortBy_perm _ _

theorem nodup_ranked (g : Circuit) : g.ranked.Nodup :=
  g.ranked_perm.nodup_iff.mpr g.nodes.nodup_keys

theorem length_ranked (g : Circuit) : g.ranked.length = g.nodes.size := by
  rw [g.ranked_perm.length_eq, Slots.length_keys]

theorem mem_ranked : n ∈ g.ranked ↔ g.contains n = true := by
  rw [g.ranked_perm.mem_iff, Slots.mem_keys]
  rfl

theorem sorted_ranked (g : Circuit) :
    g.ranked.Pairwise fun m n ↦ notAfter g.ranks m n = true :=
  pairwise_sortBy notAfter_total notAfter_trans _

/-- The nodes that can be taken by removing edges, in order. -/
def drained (g : Circuit) : List Nat :=
  drain g.nodes.size g.ranked g.edges.values

/-- In a circuit whose edges lead to nodes no count falls below zero, and the nodes are taken as if
their edges were removed. -/
theorem taken?_eq_drained (h : ∀ e ∈ g.edges.values, g.contains e.target = true) :
    g.taken? = some g.drained := by
  have hfits : Countdown.Fits (notAfter g.ranks) g.nodes.keys g.ranked g.edges.values
      (Countdown.start (notAfter g.ranks) g.nodes.keys g.edges.values) :=
    Countdown.fits_start notAfter_total notAfter_trans g.nodes.nodup_keys fun n ↦
      g.ranked_perm.mem_iff
  rw [drained, ← g.length_ranked]
  exact Countdown.run_eq_drain notAfter_total notAfter_trans notAfter_antisymm
    g.nodes.nodup_keys (fun n ↦ g.ranked_perm.mem_iff.mp) hfits g.nodup_ranked g.sorted_ranked
    (fun e he ↦ mem_ranked.mpr (h e he)) fun _ _ ↦ rfl

theorem ordered_eq_drained (h : ∀ e ∈ g.edges.values, g.contains e.target = true) :
    g.ordered =
      if g.drained.length = g.nodes.size then .ok (g.drained.filter fun n ↦ (g.gate? n).isSome)
      else .error (.invalidShape .cycle) := by
  simp only [ordered, taken?_eq_drained h]

end Circuit

end Peephole
