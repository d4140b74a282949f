import Mathlib.Data.List.TakeDrop
import Peephole.Proofs.Reachable
import Peephole.Proofs.Walks

/-!
# Windows of a wire and walks along it

The windows cut from the path along a whole wire are the walks that start at its nodes, and what a
walk towards another node gives depends only on which of the two comes first on the wire
(`Reachable.windows_eq_walks`). A path follows a list of nodes if it visits them in order by the
edges that leave them (`Path.Visits`).

Windows are cut by indices that have to fit in 64 bits, so with a very large limit there are none,
where the walks go to the end of the wire (`Path.windows_eq`).
-/

set_option autoImplicit false
set_option relaxedAutoImplicit false

namespace Peephole

/-- A list cut at one of its members and again a number of members later. -/
theorem eq_cut {l : List Nat} {i a : Nat} (h : l[i]? = some a) (k : Nat) :
    l = l.take i ++ a :: ((l.drop (i + 1)).take k ++ (l.drop (i + 1)).drop k) := by
  rw [List.take_append_drop]
  exact eq_take_append_cons_drop h

theorem mem_take_of_lt {l : List Nat} {i j b : Nat} (h : l[j]? = some b) (hji : j < i) :
    b ∈ l.take i := by
  refine List.mem_of_getElem? (i := j) ?_
  rw [List.getElem?_take_of_lt hji, h]

theorem take_drop_eq_cons {l : List Nat} {i a : Nat} (h : l[i]? = some a) (k : Nat) :
    (l.drop i).take (k + 1) = a :: (l.drop (i + 1)).take k := by
  obtain ⟨hi, rfl⟩ := List.getElem?_eq_some_iff.mp h
  rw [List.drop_eq_getElem_cons hi, List.take_succ_cons]

/-- The last of the nodes up to some place is the node at this place. -/
theorem getLastD_take_drop {l : List Nat} {i j a b : Nat} (ha : l[i]? = some a)
    (hb : l[j]? = some b) (hij : i ≤ j) : ((l.drop (i + 1)).take (j - i)).getLastD a = b := by
  obtain ⟨d, rfl⟩ := Nat.exists_eq_add_of_le hij
  rw [Nat.add_sub_cancel_left]
  cases d with
  | zero => exact Option.some.inj (ha.symm.trans hb)
  | succ d =>
    have hlast : (l.drop (i + 1))[d]? = some b := by
      rw [List.getElem?_drop, Nat.add_right_comm, Nat.add_assoc]
      exact hb
    rw [List.take_add_one, hlast]
    exact List.getLastD_concat

namespace Path

/-! ### Cutting by indices -/

theorem mapM_ite {α β : Type} {c : α → Prop} [DecidablePred c] (f : α → β) (l : List α) :
    (l.mapM fun a ↦ if c a then some (f a) else none) =
      if ∀ a ∈ l, c a then some (l.map f) else none := by
  induction l with
  | nil => rfl
  | cons a l ih =>
    rw [List.mapM_cons, ih]
    by_cases ha : c a
    · by_cases hl : ∀ b ∈ l, c b
      · rw [if_pos ha, if_pos hl, if_pos (List.forall_mem_cons.mpr ⟨ha, hl⟩)]
        rfl
      · rw [if_pos ha, if_neg hl, if_neg fun h ↦ hl (List.forall_mem_cons.mp h).2]
        rfl
    · rw [if_neg ha, if_neg fun h ↦ ha (List.forall_mem_cons.mp h).1]
      rfl

theorem slice_zero (p : Path) (limit : Nat) : p.slice 0 (min limit p.length) = p.take limit := by
  rw [slice, take, List.drop_zero, length, ← List.take_eq_take_min]
  rfl

/-- Past the first node, a path is sliced as its rest is. -/
theorem slice_succ {w start i last : Nat} {e : Edge} {rest : List Edge} (hi : i ≤ rest.length) :
    slice ⟨w, start, e :: rest⟩ (i + 1) (last + 1) = slice ⟨w, e.target, rest⟩ i last := by
  have hnode : i < (nodes ⟨w, e.target, rest⟩).length := by
    rw [nodes, window, List.length_cons, List.length_map]
    exact Nat.lt_succ_of_le hi
  have hstart : (nodes ⟨w, start, e :: rest⟩).getD (i + 1) start =
      (nodes ⟨w, e.target, rest⟩).getD i e.target := by
    have hfound := List.getElem?_eq_getElem hnode
    rw [nodes, List.getD_cons_succ, List.getD_eq_getElem?_getD, List.getD_eq_getElem?_getD]
    exact (congrArg (Option.getD · start) hfound).trans
      (congrArg (Option.getD · e.target) hfound).symm
  rw [slice, hstart]
  rfl

/-- The parts between the indices of the nodes and of the nodes some edges later are the stretches.
-/
theorem map_slice_eq_stretches (p : Path) (limit : Nat) :
    (List.range p.nodes.length).map (fun i ↦ p.slice i (min (i + limit) p.length)) =
      p.stretches limit := by
  obtain ⟨w, start, edges⟩ := p
  induction edges generalizing start with
  | nil =>
    rw [stretches, suffixes, suffixesFrom, List.map_singleton, ← slice_zero]
    simp [nodes, window]
  | cons e rest ih =>
    have hlength : (nodes ⟨w, start, e :: rest⟩).length =
        (nodes ⟨w, e.target, rest⟩).length + 1 := by
      simp [nodes, window]
    rw [hlength, List.range_succ_eq_map, List.map_cons, List.map_map, Nat.zero_add, slice_zero,
      stretches, suffixes, suffixesFrom, List.map_cons]
    refine congrArg _ ((List.map_congr_left fun i hi ↦ ?_).trans (ih e.target))
    have hi : i ≤ rest.length := by
      simpa [nodes, window, Nat.lt_succ_iff] using hi
    have hlast : min (i + 1 + limit) (rest.length + 1) = min (i + limit) rest.length + 1 := by omega
    exact (congrArg (slice _ (i + 1)) hlast).trans (slice_succ hi)

/-- The windows of a path are its stretches, as long as the index of the last node and the limit
have a sum below `2 ^ 64`. -/
theorem windows_eq (p : Path) (limit : Nat) : p.windows limit =
    if p.length + limit < UInt64.size then some (p.stretches limit) else none := by
  have hfits : (∀ i ∈ List.range p.nodes.length, i + limit < UInt64.size) ↔
      p.length + limit < UInt64.size := by
    have hlength : p.nodes.length = p.length + 1 := by
      rw [nodes, window, List.length_cons, List.length_map, length]
    simp only [List.mem_range, hlength]
    exact ⟨fun h ↦ h _ (Nat.lt_succ_self _), fun h i hi ↦ by omega⟩
  rw [windows, mapM_ite, map_slice_eq_stretches]
  simp only [hfits]

theorem length_stretches (p : Path) (limit : Nat) : (p.stretches limit).length = p.length + 1 := by
  rw [stretches, List.length_map, suffixes, length_suffixesFrom, length]

/-- The stretch at some place of a path. -/
theorem getElem?_stretches {w start i a : Nat} {l : List Nat} (h : (start :: l)[i]? = some a)
    (k : Nat) : (stretches ⟨w, start, links w (start :: l)⟩ k)[i]? =
      some ⟨w, a, links w (a :: ((start :: l).drop (i + 1)).take k)⟩ := by
  have hfound := getElem?_suffixesFrom (w := w) (eq_take_append_cons_drop h)
  rw [List.length_take_of_le (Nat.le_of_lt (List.getElem?_eq_some_iff.mp h).1)] at hfound
  rw [stretches, List.getElem?_map, suffixes, hfound, Option.map_some, take, take_links]

end Path

/-- A path along a wire that visits the nodes of a list, by the edge that leaves each for the next
one. -/
structure Path.Visits (g : Circuit) (w : Nat) (nodes : List Nat) (path : Path) : Prop where
  wire : path.wire = w
  visited : path.nodes = nodes
  edges : ∀ (i : Nat) (e : Edge), path.edges[i]? = some e →
    nodes[i]? = some e.source ∧ nodes[i + 1]? = some e.target ∧
      ∃ number, g.outEdge e.source w = .ok (number, e)

namespace Circuit

variable {g : Circuit} {line : List Nat} {w : Nat} {wire : Wire}

namespace Threaded

variable (h : g.Threaded line)

include h

/-- A stretch of a wire. -/
theorem visits {front taken beyond : List Nat} {start : Nat}
    (hthread : g.thread line w = front ++ start :: (taken ++ beyond)) :
    Path.Visits g w (start :: taken) ⟨w, start, links w (start :: taken)⟩ where
  wire := rfl
  visited := congrArg (start :: ·) Path.window_links
  edges i e he := by
    obtain ⟨hsource, htarget⟩ := getElem?_links he
    refine ⟨hsource, htarget, ?_⟩
    have hmem := List.mem_of_getElem? he
    obtain ⟨before, after, hcut⟩ := exists_of_mem_links hmem
    have hstep : g.thread line w =
        (front ++ before) ++ e.source :: e.target :: (after ++ beyond) := by
      rw [hthread, ← List.cons_append, hcut]
      simp
    obtain ⟨number, hnumber⟩ := h.outEdge_ok hstep
    have hedge : e = ⟨e.source, e.target, w⟩ := by
      rw [← wire_of_mem_links hmem]
    exact ⟨number, by rw [hnumber, ← hedge]⟩

/-- A walk without a node where it is to stop takes as many links as it may and as there are. -/
theorem forward_ok {front rest : List Nat} {start : Nat}
    (hthread : g.thread line w = front ++ start :: rest) (limit : Nat) :
    Path.forward g w start limit = .ok ⟨w, start, links w (start :: rest.take limit)⟩ := by
  rcases Nat.le_total limit rest.length with hle | hge
  · have hcut : g.thread line w = front ++ start :: (rest.take limit ++ rest.drop limit) := by
      rw [List.take_append_drop, hthread]
    have hstop : ∀ n ∈ (none : Option Nat), n ∉ (start :: rest.take limit).dropLast := nofun
    have hwalk := h.walk_limited hcut hstop
    rwa [List.length_take_of_le hle] at hwalk
  · rw [List.take_of_length_le hge]
    exact h.walk_to_end hthread fun _ hk ↦ Option.some.inj hk ▸ hge

/-- A walk towards a node on its way takes the first links of the path to this node. -/
theorem bounded_ok {front taken beyond : List Nat} {start : Nat}
    (hthread : g.thread line w = front ++ start :: (taken ++ beyond)) (limit : Nat) :
    Path.bounded g w start (taken.getLastD start) limit =
      .ok (Path.take ⟨w, start, links w (start :: taken)⟩ limit) := by
  rw [Path.take, Path.take_links]
  rcases Nat.le_total limit taken.length with hle | hge
  · have hcut : g.thread line w =
        front ++ start :: (taken.take limit ++ (taken.drop limit ++ beyond)) := by
      rw [← List.append_assoc, List.take_append_drop, hthread]
    have hnodup := h.nodup_thread w
    rw [hthread, ← List.cons_append] at hnodup
    have hstop : ∀ n ∈ some (taken.getLastD start), n ∉ (start :: taken.take limit).dropLast := by
      intro n hn hmem
      rw [← Option.some.inj hn, ← List.take_succ_cons, List.dropLast_take_eq_take_dropLast] at hmem
      exact getLastD_not_mem_dropLast
        (List.nodup_append.mp (List.nodup_append.mp hnodup).2.1).1 (List.take_subset _ _ hmem)
    have hwalk := h.walk_limited hcut hstop
    rwa [List.length_take_of_le hle] at hwalk
  · rw [List.take_of_length_le hge]
    exact h.walk_reaching hthread fun _ hk ↦ Option.some.inj hk ▸ hge

section Behind

variable {front rest : List Nat} {start n : Nat}
  (hthread : g.thread line w = front ++ start :: rest) (hn : n ∈ front)

include hthread hn

theorem not_mem_of_mem_front : n ∉ start :: rest := by
  have hnodup := h.nodup_thread w
  rw [hthread] at hnodup
  exact fun hmem ↦ (List.nodup_append.mp hnodup).2.2 n hn n hmem rfl

/-- No path leads back. -/
theorem between_behind :
    Path.between g w start n = .error (.brokenWire w (.node start)) := by
  have hlimit : ∀ k ∈ (none : Option Nat), rest.length < k := nofun
  rw [Path.between, h.walk_missing hthread hlimit (h.not_mem_of_mem_front hthread hn)]
  rfl

/-- A walk towards a node behind it goes on as if there were no such node, unless it comes to the
end of the wire. -/
theorem bounded_behind {limit : Nat} (hlimit : limit ≤ rest.length) :
    Path.bounded g w start n limit = Path.forward g w start limit := by
  have hcut : g.thread line w = front ++ start :: (rest.take limit ++ rest.drop limit) := by
    rw [List.take_append_drop, hthread]
  have hstop : ∀ m ∈ some n, m ∉ (start :: rest.take limit).dropLast := by
    intro m hm hmem
    rw [← Option.some.inj hm, ← List.take_succ_cons] at hmem
    exact h.not_mem_of_mem_front hthread hn (List.take_subset _ _ (List.dropLast_subset _ hmem))
  have hwalk := h.walk_limited hcut hstop
  rw [List.length_take_of_le hlimit] at hwalk
  rw [h.forward_ok hthread]
  exact hwalk

theorem bounded_behind_broken {limit : Nat} :
    Path.bounded g w start n limit = .error (.brokenWire w (.node start)) ↔
      rest.length < limit := by
  constructor
  · intro hbroken
    by_contra hle
    rw [h.bounded_behind hthread hn (Nat.le_of_not_lt hle), h.forward_ok hthread] at hbroken
    cases hbroken
  · intro hlimit
    exact h.walk_missing hthread (fun _ hk ↦ Option.some.inj hk ▸ hlimit)
      (h.not_mem_of_mem_front hthread hn)

end Behind

theorem visits_from {i a : Nat} (ha : (g.thread line w)[i]? = some a) (k : Nat) :
    Path.Visits g w (((g.thread line w).drop i).take (k + 1))
      ⟨w, a, links w (a :: ((g.thread line w).drop (i + 1)).take k)⟩ := by
  rw [take_drop_eq_cons ha]
  exact h.visits (eq_cut ha k)

end Threaded

/-- In a reachable circuit the path along a wire visits its input, its gates and its output. The
walks from these nodes are its windows, except that there are no windows if the number of edges and
the limit have a sum of `2 ^ 64` or more. From one node to another there is a path if and only if
the other does not come earlier. A walk towards a later node takes the first edges of this path. A
walk towards an earlier node fails at the end of the wire, and does not notice before. -/
theorem Reachable.windows_eq_walks (hg : g.Reachable) (hw : g.wires[w]? = some wire) :
    ∃ gates full, g.gatesOn w = .ok gates ∧ Path.full g w = .ok full ∧
      full.Visits g w (wire.input :: gates ++ [wire.output]) ∧
      ∀ k, (gates.length + 1 + k < UInt64.size → ∃ ws, full.windows k = some ws ∧
          ws.length = gates.length + 2 ∧ ∀ (i a : Nat), full.nodes[i]? = some a →
            ∃ p, ws[i]? = some p ∧ Path.forward g w a k = .ok p) ∧
        (UInt64.size ≤ gates.length + 1 + k → full.windows k = none) ∧
        ∀ i a, full.nodes[i]? = some a →
          (∃ p, Path.forward g w a k = .ok p ∧
            p.Visits g w ((full.nodes.drop i).take (k + 1)) ∧
            p.length = min k (gates.length + 1 - i)) ∧
          ∀ j b, full.nodes[j]? = some b →
            (i ≤ j → ∃ p, Path.between g w a b = .ok p ∧
              p.Visits g w ((full.nodes.drop i).take (j - i + 1)) ∧
              Path.bounded g w a b k = .ok (p.take k) ∧ (p.take k).length = min k (j - i)) ∧
            (j < i → (∃ e, Path.between g w a b = .error e) ∧
              (Path.bounded g w a b k = .error (.brokenWire w (.node a)) ↔
                gates.length + 1 - i < k) ∧
              (k ≤ gates.length + 1 - i → ∃ p, Path.bounded g w a b k = .ok p ∧
                Path.forward g w a k = .ok p)) := by
  obtain ⟨line, h, -⟩ := hg.threaded
  have hthread : g.thread line w = wire.input :: (line.filter (g.isOn w) ++ [wire.output]) :=
    thread_of_some hw line
  have hvisits := h.visits (thread_eq_stretch hw line)
  rw [← hthread] at hvisits
  have hlength : (g.thread line w).length = (line.filter (g.isOn w)).length + 2 := by
    rw [hthread]
    simp
  have hedges : Path.length ⟨w, wire.input, links w (g.thread line w)⟩ =
      (line.filter (g.isOn w)).length + 1 := by
    rw [Path.length, length_links, hlength]
    rfl
  refine ⟨_, _, h.gatesOn_ok hw, h.full_ok hw, hthread ▸ hvisits, fun k ↦
    ⟨fun hfits ↦ ?_, fun hlarge ↦ ?_, fun i a ha ↦ ?_⟩⟩
  · rw [Path.windows_eq, hedges, if_pos hfits]
    refine ⟨_, rfl, by rw [Path.length_stretches, hedges], fun i a ha ↦ ?_⟩
    rw [hvisits.visited] at ha
    have hstretch := Path.getElem?_stretches (w := w) (hthread ▸ ha) k
    rw [← hthread] at hstretch
    exact ⟨_, hstretch, h.forward_ok (eq_take_append_cons_drop ha) k⟩
  · rw [Path.windows_eq, hedges, if_neg (Nat.not_lt_of_le hlarge)]
  rw [hvisits.visited] at ha ⊢
  have hcut := eq_take_append_cons_drop ha
  have hrest : ((g.thread line w).drop (i + 1)).length =
      (line.filter (g.isOn w)).length + 1 - i := by
    rw [List.length_drop, hlength]
    omega
  rw [← hrest]
  refine ⟨⟨_, h.forward_ok hcut k, h.visits_from ha k, ?_⟩,
    fun j b hb ↦ ⟨fun hij ↦ ?_, fun hji ↦ ?_⟩⟩
  · rw [Path.length, length_links, List.length_cons, Nat.add_sub_cancel, List.length_take]
  · have hstop := getLastD_take_drop ha hb hij
    have hbetween := h.between_ok (eq_cut ha (j - i))
    have hbounded := h.bounded_ok (eq_cut ha (j - i)) k
    rw [hstop] at hbetween hbounded
    refine ⟨_, hbetween, h.visits_from ha (j - i), hbounded, ?_⟩
    have hj := (List.getElem?_eq_some_iff.mp hb).1
    rw [Path.length, Path.take, List.length_take, length_links, List.length_cons,
      Nat.add_sub_cancel, List.length_take, hrest]
    omega
  · have hbehind := mem_take_of_lt hb hji
    refine ⟨⟨_, h.between_behind hcut hbehind⟩, h.bounded_behind_broken hcut hbehind, fun hle ↦ ?_⟩
    exact ⟨_, (h.bounded_behind hcut hbehind hle).trans (h.forward_ok hcut k),
      h.forward_ok hcut k⟩

/-- Of three gates on a wire the second is removed. From the last gate one edge leads to the output,
so a walk of two edges back to the first gate fails, and a walk of one edge does not. -/
theorem Reachable.windows_eq_walks_after_removal :
    let g := (Call.remove 5).after ((Call.apply ⟨.standard .h, [⟨"q", some 0⟩], []⟩).after
      ((Call.apply ⟨.standard .x, [⟨"q", some 0⟩], []⟩).after
        ((Call.apply ⟨.standard .cx, [⟨"q", some 1⟩, ⟨"q", some 0⟩], []⟩).after
          ((Call.declare ⟨"q", some 2⟩).after Circuit.empty))))
    ∃ full, Path.full g 0 = .ok full ∧ full.nodes = [0, 4, 6, 1] ∧
      (∃ ws p, full.windows 2 = some ws ∧ ws.length = 4 ∧ ws[1]? = some p ∧
        Path.forward g 0 4 2 = .ok p ∧ p.nodes = [4, 6, 1]) ∧
      Path.bounded g 0 6 4 2 = .error (.brokenWire 0 (.node 6)) ∧
      ∃ p, Path.bounded g 0 6 4 1 = .ok p := by
  intro g
  have hg : g.Reachable := .call _ (.call _ (.call _ (.call _ (.call _ .empty))))
  have hw : g.wires[0]? = some ⟨⟨"q", some 0⟩, 0, 1⟩ := by decide +kernel
  have hgates : g.gatesOn 0 = .ok [4, 6] := by decide +kernel
  obtain ⟨gates, full, hfound, hfull, hvisits, hwalks⟩ := hg.windows_eq_walks hw
  cases hgates.symm.trans hfound
  have hnodes : full.nodes = [0, 4, 6, 1] := hvisits.visited
  rw [hnodes] at hwalks
  obtain ⟨hwindows, -, hfrom⟩ := hwalks 2
  obtain ⟨ws, hws, hcount, hcut⟩ := hwindows (by decide)
  obtain ⟨p, hwindow, hforward⟩ := hcut 1 4 rfl
  obtain ⟨⟨q, hq, hvisited, -⟩, -⟩ := hfrom 1 4 rfl
  cases hforward.symm.trans hq
  obtain ⟨-, hbroken, -⟩ := ((hfrom 2 6 rfl).2 1 4 rfl).2 (by decide)
  obtain ⟨-, -, hshort⟩ := (((hwalks 1).2.2 2 6 rfl).2 1 4 rfl).2 (by decide)
  obtain ⟨r, hr, -⟩ := hshort (by decide)
  exact ⟨full, hfull, hnodes, ⟨ws, p, hws, hcount, hwindow, hforward, hvisited.visited⟩,
    hbroken.mpr (by decide), r, hr⟩

/-- A limit of `2 ^ 64 - 1` edges gives no windows on a wire with a gate, and the walks with this
limit reach the output. -/
theorem Reachable.windows_eq_none_of_large :
    let g := (Call.apply ⟨.standard .x, [⟨"a", none⟩], []⟩).after
      ((Call.declare ⟨"a", none⟩).after Circuit.empty)
    ∃ full, Path.full g 0 = .ok full ∧ full.nodes = [0, 2, 1] ∧
      full.windows (UInt64.size - 1) = none ∧
      (Path.forward g 0 0 (UInt64.size - 1)).toOption.map Path.nodes = some [0, 2, 1] ∧
      (Path.forward g 0 2 (UInt64.size - 1)).toOption.map Path.nodes = some [2, 1] ∧
      (Path.forward g 0 1 (UInt64.size - 1)).toOption.map Path.nodes = some [1] := by
  intro g
  have hpath : (Path.full g 0).toOption.map Path.nodes = some [0, 2, 1] := by decide +kernel
  obtain ⟨full, hfull, hnodes⟩ := Run.toOption_map_eq_some.mp hpath
  have hlength : full.length = 2 := by
    have hcount := congrArg List.length hnodes
    simpa [Path.nodes, Path.window, Path.length] using hcount
  refine ⟨full, hfull, hnodes, ?_, by decide +kernel, by decide +kernel, by decide +kernel⟩
  rw [Path.windows_eq, hlength]
  exact if_neg (by decide)

end Circuit

end Peephole
