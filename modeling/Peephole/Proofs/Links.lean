import Mathlib.Data.List.Nodup
import Mathlib.Logic.Function.Basic
import Peephole.Circuit.Basic
import Peephole.Proofs.Slots

/-!
# Lists of nodes strung on wires

`links w` turns a list of nodes into the edges of wire `w` between neighbours. A table of edges
strings up one list of nodes for each wire (`Strung`) when the edges of every wire are the links of
its list, each once. Then the edge on either side of a node is found by its number
(`Strung.select_outgoing`, `Strung.select_incoming`), and the three ways in which the edges of a
wire change have the effect they should have on its list: a wire begins (`Strung.begin`), a node
comes before the last one (`Strung.extend`), a node between two others leaves (`Strung.splice`).
-/

set_option autoImplicit false
set_option relaxedAutoImplicit false

namespace Peephole

/-- The edges of a wire between neighbours of a list. -/
def links (w : Nat) : List Nat → List Edge
  | a :: b :: rest => ⟨a, b, w⟩ :: links w (b :: rest)
  | _ => []

section Links

variable {w a b n : Nat} {l front back : List Nat}

@[simp] theorem links_singleton : links w [a] = [] := rfl

@[simp] theorem links_cons_cons : links w (a :: b :: l) = ⟨a, b, w⟩ :: links w (b :: l) := rfl

/-- A list can be cut at any of its nodes, which then ends one part and begins the other. -/
theorem links_append :
    links w (front ++ a :: back) = links w (front ++ [a]) ++ links w (a :: back) := by
  induction front with
  | nil => rfl
  | cons x rest ih =>
    cases rest with
    | nil => rfl
    | cons y rest => exact congrArg (⟨x, y, w⟩ :: ·) ih

theorem length_links : (links w l).length = l.length - 1 := by
  induction l with
  | nil => rfl
  | cons x rest ih =>
    cases rest with
    | nil => rfl
    | cons y rest =>
      rw [links_cons_cons, List.length_cons, ih]
      simp

/-- A link leads from a node of the list to the next one. -/
theorem exists_of_mem_links {e : Edge} (h : e ∈ links w l) :
    ∃ front back, l = front ++ e.source :: e.target :: back := by
  induction l with
  | nil => exact absurd h List.not_mem_nil
  | cons x rest ih =>
    cases rest with
    | nil => exact absurd h List.not_mem_nil
    | cons y rest =>
      rcases List.mem_cons.mp h with rfl | hrest
      · exact ⟨[], rest, rfl⟩
      · obtain ⟨front, back, heq⟩ := ih hrest
        exact ⟨x :: front, back, by rw [heq, List.cons_append]⟩

theorem source_mem_of_mem_links {e : Edge} (h : e ∈ links w l) : e.source ∈ l := by
  obtain ⟨front, back, rfl⟩ := exists_of_mem_links h
  simp

theorem target_mem_of_mem_links {e : Edge} (h : e ∈ links w l) : e.target ∈ l := by
  obtain ⟨front, back, rfl⟩ := exists_of_mem_links h
  simp

theorem wire_of_mem_links {e : Edge} (h : e ∈ links w l) : e.wire = w := by
  induction l with
  | nil => exact absurd h List.not_mem_nil
  | cons x rest ih =>
    cases rest with
    | nil => exact absurd h List.not_mem_nil
    | cons y rest =>
      rcases List.mem_cons.mp h with rfl | hrest
      · rfl
      · exact ih hrest

/-- The links of a list without repetitions begin at different nodes. -/
theorem nodup_links (hl : l.Nodup) : (links w l).Nodup := by
  induction l with
  | nil => exact List.nodup_nil
  | cons x rest ih =>
    obtain ⟨hx, hrest⟩ := List.nodup_cons.mp hl
    cases rest with
    | nil => exact List.nodup_nil
    | cons y rest =>
      exact List.nodup_cons.mpr ⟨fun hmem ↦ hx (source_mem_of_mem_links hmem), ih hrest⟩

/-- The link at some place leads from the node at this place to the next one. -/
theorem getElem?_links {i : Nat} {e : Edge} (h : (links w l)[i]? = some e) :
    l[i]? = some e.source ∧ l[i + 1]? = some e.target := by
  induction l generalizing i with
  | nil => cases h
  | cons a rest ih =>
    cases rest with
    | nil => cases h
    | cons b rest =>
      cases i with
      | zero =>
        cases h
        exact ⟨rfl, rfl⟩
      | succ i => exact ih h

/-- The last node of a list without repetitions begins no link. -/
theorem source_ne_of_mem_links (hl : (front ++ [a]).Nodup) {e : Edge}
    (h : e ∈ links w (front ++ [a])) : e.source ≠ a := by
  induction front with
  | nil => exact absurd h List.not_mem_nil
  | cons x rest ih =>
    obtain ⟨hx, hrest⟩ := List.nodup_cons.mp hl
    have hxa : x ≠ a := fun heq ↦ hx (by simp [heq])
    cases rest with
    | nil =>
      rcases List.mem_cons.mp h with rfl | hnil
      · exact hxa
      · exact absurd hnil List.not_mem_nil
    | cons y rest =>
      rcases List.mem_cons.mp h with rfl | htail
      · exact hxa
      · exact ih hrest htail

/-- The first node of a list without repetitions ends no link. -/
theorem target_ne_of_mem_links (hl : (a :: back).Nodup) {e : Edge}
    (h : e ∈ links w (a :: back)) : e.target ≠ a := by
  have ha : a ∉ back := (List.nodup_cons.mp hl).1
  cases back with
  | nil => exact absurd h List.not_mem_nil
  | cons b rest =>
    rcases List.mem_cons.mp h with rfl | hrest
    · exact fun heq ↦ ha (heq ▸ List.mem_cons_self)
    · exact fun heq ↦ ha (heq ▸ target_mem_of_mem_links hrest)

theorem filter_source_links (hl : (front ++ a :: b :: back).Nodup) :
    (links w (front ++ a :: b :: back)).filter (·.source = a) = [⟨a, b, w⟩] := by
  have hcut : (front ++ [a] ++ b :: back).Nodup := by simpa using hl
  have hfront : (links w (front ++ [a])).filter (·.source = a) = [] := by
    refine List.filter_eq_nil_iff.mpr fun e he ↦ ?_
    simpa using source_ne_of_mem_links (List.nodup_append.mp hcut).1 he
  have hback : (links w (b :: back)).filter (·.source = a) = [] := by
    refine List.filter_eq_nil_iff.mpr fun e he ↦ ?_
    have ha : a ∉ b :: back :=
      (List.nodup_cons.mp (List.nodup_append.mp hl).2.1).1
    simpa using fun heq : e.source = a ↦ ha (heq ▸ source_mem_of_mem_links he)
  rw [links_append, List.filter_append, hfront, links_cons_cons, List.filter_cons, hback]
  simp

theorem filter_target_links (hl : (front ++ a :: b :: back).Nodup) :
    (links w (front ++ a :: b :: back)).filter (·.target = b) = [⟨a, b, w⟩] := by
  have hcut : (front ++ [a] ++ b :: back).Nodup := by simpa using hl
  obtain ⟨-, htail, hdisjoint⟩ := List.nodup_append.mp hcut
  have hfront : (links w (front ++ [a])).filter (·.target = b) = [] := by
    refine List.filter_eq_nil_iff.mpr fun e he ↦ ?_
    simpa using hdisjoint _ (target_mem_of_mem_links he) b List.mem_cons_self
  have hback : (links w (b :: back)).filter (·.target = b) = [] := by
    refine List.filter_eq_nil_iff.mpr fun e he ↦ ?_
    simpa using target_ne_of_mem_links htail he
  rw [links_append, List.filter_append, hfront, links_cons_cons, List.filter_cons, hback]
  simp

theorem filter_ne_middle (hl : (front ++ n :: back).Nodup) :
    (front ++ n :: back).filter (· ≠ n) = front ++ back := by
  obtain ⟨-, htail, hdisjoint⟩ := List.nodup_append.mp hl
  have hfront : ∀ x ∈ front, x ≠ n := fun x hx ↦ hdisjoint x hx n List.mem_cons_self
  have hback : ∀ x ∈ back, x ≠ n := fun x hx heq ↦ (List.nodup_cons.mp htail).1 (heq ▸ hx)
  rw [List.filter_append, List.filter_cons_of_neg (by simp),
    List.filter_eq_self.mpr (by simpa using hfront), List.filter_eq_self.mpr (by simpa using hback)]

theorem perm_cons_filter_ne (hl : l.Nodup) (hn : n ∈ l) : l.Perm (n :: l.filter (· ≠ n)) := by
  obtain ⟨front, back, rfl⟩ := List.append_of_mem hn
  rw [filter_ne_middle hl]
  exact List.perm_middle

/-- A node between the ends of a list has a neighbour on either side. -/
theorem exists_neighbours {middle : List Nat} (h : n ∈ middle) :
    ∃ front x y back, a :: middle ++ [b] = front ++ x :: n :: y :: back := by
  obtain ⟨before, after, rfl⟩ := List.append_of_mem h
  obtain ⟨front, x, hbefore⟩ :=
    (List.eq_nil_or_concat (a :: before)).resolve_left (List.cons_ne_nil _ _)
  obtain ⟨y, back, hafter⟩ := List.exists_cons_of_ne_nil (List.concat_ne_nil b after)
  refine ⟨front, x, y, back, ?_⟩
  calc a :: (before ++ n :: after) ++ [b]
      = (a :: before) ++ n :: (after ++ [b]) := by simp
    _ = front ++ x :: n :: y :: back := by rw [hbefore, hafter]; simp

end Links

/-- A list with one more node before its last one. -/
def beforeLast (n : Nat) (l : List Nat) : List Nat :=
  l.dropLast ++ n :: l.getLast?.toList

theorem beforeLast_append (n b : Nat) (l : List Nat) : beforeLast n (l ++ [b]) = l ++ [n, b] := by
  simp [beforeLast]

/-- Whether the edges of each wire are the links of its list, each once. -/
def Strung (edges : Slots Edge) (path : Nat → List Nat) : Prop :=
  ∀ w, (edges.values.filter (·.wire = w)).Perm (links w (path w))

namespace Strung

variable {edges edges' : Slots Edge} {path : Nat → List Nat} {w a b n : Nat} {front back : List Nat}

theorem select_outgoing (h : Strung edges path) (hnodup : (path w).Nodup)
    (hpath : path w = front ++ a :: b :: back) :
    ∃ i, edges.select (fun e ↦ e.isAt a .outgoing && e.wire = w) = [(i, ⟨a, b, w⟩)] ∧
      edges.get? i = some ⟨a, b, w⟩ := by
  refine Slots.select_eq_singleton ?_
  rw [← List.filter_filter]
  have hlinks := (h w).filter (·.isAt a .outgoing)
  rw [hpath] at hlinks hnodup
  exact hlinks.trans (.of_eq (filter_source_links hnodup))

theorem select_incoming (h : Strung edges path) (hnodup : (path w).Nodup)
    (hpath : path w = front ++ a :: b :: back) :
    ∃ i, edges.select (fun e ↦ e.isAt b .incoming && e.wire = w) = [(i, ⟨a, b, w⟩)] ∧
      edges.get? i = some ⟨a, b, w⟩ := by
  refine Slots.select_eq_singleton ?_
  rw [← List.filter_filter]
  have hlinks := (h w).filter (·.isAt b .incoming)
  rw [hpath] at hlinks hnodup
  exact hlinks.trans (.of_eq (filter_target_links hnodup))

/-- Edges of one wire are exchanged for others, and its list changes accordingly. -/
theorem replace (h : Strung edges path) (old new keep : List Edge) {rest : List Edge} {l : List Nat}
    (hedges : edges.values.Perm (old ++ rest)) (hedges' : edges'.values.Perm (new ++ rest))
    (hold : ∀ e ∈ old, e.wire = w) (hnew : ∀ e ∈ new, e.wire = w)
    (hpath : (links w (path w)).Perm (old ++ keep)) (hl : (links w l).Perm (new ++ keep)) :
    Strung edges' (Function.update path w l) := by
  intro v
  have hbefore := (hedges.filter (·.wire = v)).symm.trans (h v)
  have hafter := hedges'.filter (·.wire = v)
  rw [List.filter_append] at hbefore hafter
  by_cases hv : v = w
  · subst hv
    have hall (es : List Edge) (hes : ∀ e ∈ es, e.wire = v) : es.filter (·.wire = v) = es :=
      List.filter_eq_self.mpr (by simpa using hes)
    rw [hall old hold] at hbefore
    rw [hall new hnew] at hafter
    have hrest := (List.perm_append_left_iff old).mp (hbefore.trans hpath)
    rw [Function.update_self]
    exact hafter.trans ((hrest.append_left new).trans hl.symm)
  · have hoff (es : List Edge) (hes : ∀ e ∈ es, e.wire = w) : es.filter (·.wire = v) = [] := by
      refine List.filter_eq_nil_iff.mpr fun e he ↦ ?_
      simpa [hes e he] using Ne.symm hv
    rw [hoff old hold, List.nil_append] at hbefore
    rw [hoff new hnew, List.nil_append] at hafter
    rw [Function.update_of_ne hv]
    exact hafter.trans hbefore

/-- A wire without nodes begins with one edge. -/
theorem begin (h : Strung edges path) (hpath : path w = []) :
    Strung (edges.insert ⟨a, b, w⟩) (Function.update path w [a, b]) := by
  refine h.replace [] [⟨a, b, w⟩] [] (.refl _) (edges.values_insert _) (by simp) (by simp) ?_
    (.refl _)
  rw [hpath]
  exact .refl _

/-- A node is put before the last node of a wire. -/
theorem extend (h : Strung edges path) (hpath : path w = front ++ [a, b]) {i : Nat}
    (hi : edges.get? i = some ⟨a, b, w⟩) :
    Strung (((edges.erase i).insert ⟨a, n, w⟩).insert ⟨n, b, w⟩)
      (Function.update path w (beforeLast n (path w))) := by
  have hafter : beforeLast n (path w) = front ++ [a, n, b] := by
    rw [hpath, List.append_cons, beforeLast_append]
    simp
  refine h.replace [⟨a, b, w⟩] [⟨n, b, w⟩, ⟨a, n, w⟩] (links w (front ++ [a]))
    (Slots.values_erase hi)
    ((Slots.values_insert _ _).trans ((Slots.values_insert _ _).cons _)) (by simp) (by simp) ?_ ?_
  · rw [hpath, links_append]
    exact List.perm_append_comm
  · rw [hafter, links_append]
    exact List.perm_append_comm.trans (.swap _ _ _)

/-- A node between two others is taken out of a wire. -/
theorem splice (h : Strung edges path) (hnodup : (path w).Nodup)
    (hpath : path w = front ++ a :: n :: b :: back) {i j : Nat}
    (hi : edges.get? i = some ⟨a, n, w⟩) (hj : edges.get? j = some ⟨n, b, w⟩) :
    Strung (((edges.erase i).erase j).insert ⟨a, b, w⟩)
      (Function.update path w ((path w).filter (· ≠ n))) := by
  have hcut : path w = (front ++ [a]) ++ n :: b :: back := by rw [hpath, List.append_cons]
  have hafter : (path w).filter (· ≠ n) = front ++ a :: b :: back := by
    rw [hcut] at hnodup ⊢
    rw [filter_ne_middle hnodup, ← List.append_cons]
  have han : a ≠ n := by
    rw [hpath] at hnodup
    have htail := (List.nodup_append.mp hnodup).2.1
    exact fun heq ↦ (List.nodup_cons.mp htail).1 (heq ▸ List.mem_cons_self)
  have hij : j ≠ i := by
    intro heq
    rw [heq, hi, Option.some.injEq, Edge.mk.injEq] at hj
    exact han hj.1
  have hj' : (edges.erase i).get? j = some ⟨n, b, w⟩ := by
    rw [Slots.get?_erase, if_neg hij, hj]
  refine h.replace [⟨a, n, w⟩, ⟨n, b, w⟩] [⟨a, b, w⟩]
    (links w (front ++ [a]) ++ links w (b :: back))
    ((Slots.values_erase hi).trans ((Slots.values_erase hj').cons _))
    (Slots.values_insert _ _) (by simp) (by simp) ?_ ?_
  · rw [hpath, links_append, links_cons_cons, links_cons_cons]
    exact List.perm_append_comm_assoc _ [_, _] _
  · rw [hafter, links_append, links_cons_cons]
    exact List.perm_append_comm_assoc _ [_] _

/-- The edge after a node leads to its neighbour on the wire. -/
theorem outEdge {g : Circuit} (h : Strung g.edges path) (hnodup : (path w).Nodup)
    (hpath : path w = front ++ a :: b :: back) (ha : g.contains a = true) :
    ∃ i, g.outEdge a w = .ok (i, ⟨a, b, w⟩) ∧ g.edges.get? i = some ⟨a, b, w⟩ := by
  obtain ⟨i, hselect, hi⟩ := h.select_outgoing hnodup hpath
  refine ⟨i, ?_, hi⟩
  rw [Circuit.outEdge, Circuit.edgeAt, if_pos ha, hselect]

/-- The edge before a node comes from its neighbour on the wire. -/
theorem inEdge {g : Circuit} (h : Strung g.edges path) (hnodup : (path w).Nodup)
    (hpath : path w = front ++ a :: b :: back) (hb : g.contains b = true) :
    ∃ i, g.inEdge b w = .ok (i, ⟨a, b, w⟩) ∧ g.edges.get? i = some ⟨a, b, w⟩ := by
  obtain ⟨i, hselect, hi⟩ := h.select_incoming hnodup hpath
  refine ⟨i, ?_, hi⟩
  rw [Circuit.inEdge, Circuit.edgeAt, if_pos hb, hselect]

end Strung

end Peephole
