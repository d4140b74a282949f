import Peephole.Proofs.Coherence

/-!
# What the check of a circuit establishes

Given a list of gates for each wire, the lane of a wire leads from its input through its gates to
its output (`Circuit.lane`). A circuit is laid out by these lists when no lane repeats a node, the
gates of a lane are those that touch its wire, and the edges are the links of the lanes, each once
(`Circuit.Laid`). `Circuit.verify` follows the edges from each input, which finds the lanes, and
then compares numbers of edges. On every circuit that edits and connections can make, it succeeds
exactly when the circuit is laid out and every gate has a target or a guard
(`Constructible.verify_iff_laid`).
-/

set_option autoImplicit false
set_option relaxedAutoImplicit false

namespace Peephole

namespace Circuit

variable {g : Circuit} {gates : Nat → List Nat} {w n : Nat} {wire : Wire} {p : GateNode}

/-! ### Lanes -/

/-- The nodes of a wire with the gates given for it. -/
def lane (g : Circuit) (gates : Nat → List Nat) (w : Nat) : List Nat :=
  match g.wires[w]? with
  | some wire => wire.input :: gates w ++ [wire.output]
  | none => []

/-- The links of all lanes. -/
def laneEdges (g : Circuit) (gates : Nat → List Nat) : List Edge :=
  (List.range g.wires.length).flatMap fun w ↦ links w (g.lane gates w)

theorem lane_of_some (hw : g.wires[w]? = some wire) (gates : Nat → List Nat) :
    g.lane gates w = wire.input :: gates w ++ [wire.output] := by
  rw [lane, hw]

theorem lane_of_none (hw : g.wires[w]? = none) (gates : Nat → List Nat) : g.lane gates w = [] := by
  rw [lane, hw]

theorem mem_lane (hw : g.wires[w]? = some wire) :
    n ∈ g.lane gates w ↔ n = wire.input ∨ n ∈ gates w ∨ n = wire.output := by
  simp [lane_of_some hw]

theorem exists_wire_of_mem_lane (hn : n ∈ g.lane gates w) : ∃ wire, g.wires[w]? = some wire := by
  cases hw : g.wires[w]? with
  | none =>
    rw [lane_of_none hw] at hn
    exact absurd hn List.not_mem_nil
  | some wire => exact ⟨wire, rfl⟩

theorem mem_laneEdges {e : Edge} :
    e ∈ g.laneEdges gates ↔ e ∈ links e.wire (g.lane gates e.wire) := by
  rw [laneEdges, List.mem_flatMap]
  constructor
  · rintro ⟨w, -, he⟩
    rw [wire_of_mem_links he]
    exact he
  · intro he
    obtain ⟨wire, hwire⟩ := exists_wire_of_mem_lane (source_mem_of_mem_links he)
    exact ⟨e.wire, List.mem_range.mpr (List.getElem?_eq_some_iff.mp hwire).1, he⟩

theorem length_laneEdges : (g.laneEdges gates).length =
    ((List.range g.wires.length).map fun w ↦ (g.lane gates w).length - 1).foldl (· + ·) 0 := by
  rw [laneEdges, List.length_flatMap, List.sum_eq_foldl_nat]
  simp only [length_links]

section Nodup

variable (hnodup : ∀ w, (g.lane gates w).Nodup)

include hnodup

theorem nodup_laneEdges : (g.laneEdges gates).Nodup := by
  refine List.nodup_flatMap.mpr ⟨fun w _ ↦ nodup_links (hnodup w), ?_⟩
  refine List.nodup_range.imp fun {v w} hne e hv hw ↦ hne ?_
  rw [← wire_of_mem_links hv, ← wire_of_mem_links hw]

/-- The edges are the links of the lanes if and only if this is so for each wire. -/
theorem perm_laneEdges_iff :
    g.edges.values.Perm (g.laneEdges gates) ↔ Strung g.edges (g.lane gates) := by
  constructor
  · intro hperm w
    refine (List.perm_ext_iff_of_nodup ?_ (nodup_links (hnodup w))).mpr fun e ↦ ?_
    · exact (hperm.nodup_iff.mpr (nodup_laneEdges hnodup)).filter _
    · rw [List.mem_filter, hperm.mem_iff, mem_laneEdges, decide_eq_true_iff]
      constructor
      · rintro ⟨he, rfl⟩
        exact he
      · intro he
        rw [wire_of_mem_links he]
        exact ⟨he, rfl⟩
  · intro hstrung
    have hmem (e : Edge) : e ∈ g.edges.values ↔ e ∈ g.laneEdges gates := by
      rw [mem_laneEdges, ← (hstrung e.wire).mem_iff, List.mem_filter]
      simp
    -- an edge occurs as often as among the edges of its own wire
    have honce : g.edges.values.Nodup := by
      refine List.nodup_iff_count_le_one.mpr fun e ↦ ?_
      have hwire : decide (e.wire = e.wire) = true := decide_eq_true rfl
      rw [← List.count_filter (p := fun e' : Edge ↦ e'.wire = e.wire) hwire,
        (hstrung e.wire).count_eq]
      exact List.nodup_iff_count_le_one.mp (nodup_links (hnodup e.wire)) e
    exact (List.perm_ext_iff_of_nodup honce (nodup_laneEdges hnodup)).mpr hmem

end Nodup

/-- A circuit whose edges are the links of one lane for each wire, through the gates that touch the
wire. -/
structure Laid (g : Circuit) (gates : Nat → List Nat) : Prop where
  ends : ∀ w wire, g.wires[w]? = some wire →
    g.node? wire.input = some (.input w) ∧ g.node? wire.output = some (.output w)
  nodup : ∀ w, (g.lane gates w).Nodup
  touches : ∀ w < g.wires.length, ∀ n,
    n ∈ gates w ↔ ∃ p, g.gate? n = some p ∧ p.touches w = true
  edges : g.edges.values.Perm (g.laneEdges gates)

/-! ### What is found by following a wire -/

variable {output current steps : Nat} {middle : List Nat}

theorem follow_succ_eq_ok : g.follow w output (steps + 1) current = .ok middle ↔
    ∃ next, g.nextOn current w = .ok next ∧
      (next = output ∧ middle = [] ∨ next ≠ output ∧
        ∃ rest, g.follow w output steps next = .ok rest ∧ middle = next :: rest) := by
  rw [follow, Run.bind_eq_ok]
  refine exists_congr fun next ↦ and_congr_right fun _ ↦ ?_
  by_cases hnext : next = output
  · rw [if_pos hnext]
    simp [hnext, pure, Except.pure, eq_comm]
  · rw [if_neg hnext, Run.bind_eq_ok]
    simp [hnext, pure, Except.pure, eq_comm]

theorem mem_values_of_nextOn {a b : Nat} (h : g.nextOn a w = .ok b) :
    (⟨a, b, w⟩ : Edge) ∈ g.edges.values := by
  obtain ⟨⟨i, e⟩, hedge, rfl⟩ := Run.map_eq_ok.mp h
  obtain ⟨hmem, hsource, rfl⟩ := mem_values_of_edgeAt hedge
  have hsource : e.source = a := by simpa [Edge.isAt] using hsource
  rw [← hsource]
  exact hmem

/-- The links of what is found are edges. -/
theorem links_subset_of_follow (h : g.follow w output steps current = .ok middle) :
    links w (current :: (middle ++ [output])) ⊆ g.edges.values := by
  induction steps generalizing current middle with
  | zero => cases h
  | succ steps ih =>
    obtain ⟨next, hnext, ⟨rfl, rfl⟩ | ⟨-, rest, hrest, rfl⟩⟩ := follow_succ_eq_ok.mp h
    · exact List.cons_subset.mpr ⟨mem_values_of_nextOn hnext, List.nil_subset _⟩
    · exact List.cons_subset.mpr ⟨mem_values_of_nextOn hnext, ih hrest⟩

theorem output_not_mem_of_follow (h : g.follow w output steps current = .ok middle) :
    output ∉ middle := by
  induction steps generalizing current middle with
  | zero => cases h
  | succ steps ih =>
    obtain ⟨next, -, ⟨-, rfl⟩ | ⟨hne, rest, hrest, rfl⟩⟩ := follow_succ_eq_ok.mp h
    · exact List.not_mem_nil
    · exact List.not_mem_cons_of_ne_of_not_mem (Ne.symm hne) (ih hrest)

/-- What is found depends only on where one starts. -/
theorem follow_unique {steps' : Nat} {middle' : List Nat}
    (h : g.follow w output steps current = .ok middle)
    (h' : g.follow w output steps' current = .ok middle') : middle = middle' := by
  induction steps generalizing current middle steps' middle' with
  | zero => cases h
  | succ steps ih =>
    cases steps' with
    | zero => cases h'
    | succ steps' =>
      obtain ⟨next, hnext, hfound⟩ := follow_succ_eq_ok.mp h
      obtain ⟨next', hnext', hfound'⟩ := follow_succ_eq_ok.mp h'
      rw [hnext, Except.ok.injEq] at hnext'
      subst hnext'
      obtain ⟨hout, rfl⟩ | ⟨hne, rest, hrest, rfl⟩ := hfound
      · obtain ⟨-, rfl⟩ | ⟨hne, -⟩ := hfound'
        · rfl
        · exact absurd hout hne
      · obtain ⟨hout, -⟩ | ⟨-, rest', hrest', rfl⟩ := hfound'
        · exact absurd hout hne
        · rw [ih hrest hrest']

/-- From a node that is found, what comes after it is found. -/
theorem exists_follow_of_mem (h : g.follow w output steps current = .ok middle) (hn : n ∈ middle) :
    ∃ steps' front back, g.follow w output steps' n = .ok back ∧ middle = front ++ n :: back := by
  induction steps generalizing current middle with
  | zero => cases h
  | succ steps ih =>
    obtain ⟨next, -, ⟨-, rfl⟩ | ⟨-, rest, hrest, rfl⟩⟩ := follow_succ_eq_ok.mp h
    · exact absurd hn List.not_mem_nil
    · rcases List.mem_cons.mp hn with rfl | hn
      · exact ⟨steps, [], rest, hrest, rfl⟩
      · obtain ⟨steps', front, back, hback, rfl⟩ := ih hrest hn
        exact ⟨steps', next :: front, back, hback, rfl⟩

/-- No node is met twice: from it one would find the same nodes both times, but fewer the second
time. -/
theorem nodup_of_follow (h : g.follow w output steps current = .ok middle) :
    (current :: middle).Nodup := by
  induction steps generalizing current middle with
  | zero => cases h
  | succ steps ih =>
    refine List.nodup_cons.mpr ⟨fun hmem ↦ ?_, ?_⟩
    · obtain ⟨steps', front, back, hback, hmiddle⟩ := exists_follow_of_mem h hmem
      have hlength := congrArg List.length hmiddle
      rw [follow_unique h hback, List.length_append, List.length_cons] at hlength
      omega
    · obtain ⟨next, -, ⟨-, rfl⟩ | ⟨-, rest, hrest, rfl⟩⟩ := follow_succ_eq_ok.mp h
      · exact List.nodup_nil
      · exact ih hrest

theorem gatesOn_eq_ok {found : List Nat} : g.gatesOn w = .ok found ↔ ∃ wire,
    g.wires[w]? = some wire ∧
      g.follow w wire.output (g.nodes.size + 1) wire.input = .ok found := by
  cases hw : g.wires[w]? with
  | none => simp [gatesOn, outputOf, Circuit.wire, hw, bind, Except.bind, Except.map]
  | some wire => simp [gatesOn, outputOf, inputOf, Circuit.wire, hw, bind, Except.bind, Except.map]

/-! ### The check -/

theorem verifyOnWire_eq_ok : g.verifyOnWire w n = .ok () ↔
    ∃ p, g.gate? n = some p ∧ p.touches w = true := by
  rw [verifyOnWire]
  cases g.gate? n with
  | none => simp
  | some p => simp

theorem verifyWire_eq_ok (hw : g.wires[w]? = some wire) {nodes : List Nat} :
    g.verifyWire w = .ok nodes ↔ ∃ found, nodes = wire.input :: wire.output :: found ∧
      (∀ e ∈ g.edges.values, e.target ≠ wire.input) ∧ g.gatesOn w = .ok found ∧
      ∀ n ∈ found, ∃ p, g.gate? n = some p ∧ p.touches w = true := by
  have hwire : g.wire w = .ok wire := by
    rw [Circuit.wire, hw]
  rw [verifyWire, hwire]
  change (if (g.edges.values.any fun e ↦ e.target = wire.input) = true then _ else _) = _ ↔ _
  by_cases hentered : ∃ e ∈ g.edges.values, e.target = wire.input
  · rw [if_pos (by simpa using hentered)]
    obtain ⟨e, he, htarget⟩ := hentered
    constructor
    · intro hpassed
      cases hpassed
    · rintro ⟨found, -, hfree, -⟩
      exact absurd htarget (hfree e he)
  · rw [if_neg (by simpa using hentered)]
    rw [Run.bind_eq_ok]
    refine exists_congr fun found ↦ ?_
    have hfree : ∀ e ∈ g.edges.values, e.target ≠ wire.input :=
      fun e he htarget ↦ hentered ⟨e, he, htarget⟩
    constructor
    · rintro ⟨hfound, hrest⟩
      obtain ⟨_, htouch, hnodes⟩ := Run.bind_eq_ok.mp hrest
      cases hnodes
      exact ⟨rfl, hfree, hfound, fun n hn ↦ verifyOnWire_eq_ok.mp (Run.forM_eq_ok.mp htouch n hn)⟩
    · rintro ⟨rfl, -, hfound, htouch⟩
      refine ⟨hfound, Run.bind_eq_ok.mpr ⟨(), Run.forM_eq_ok.mpr fun n hn ↦ ?_, rfl⟩⟩
      exact verifyOnWire_eq_ok.mpr (htouch n hn)

theorem verifyNode_eq_ok {onWires : List Nat} : g.verifyNode onWires n = .ok () ↔ n ∈ onWires ∧
    ∀ p, g.gate? n = some p → ∀ w, p.touches w = true →
      (∃ x, g.inEdge n w = .ok x) ∧ ∃ x, g.outEdge n w = .ok x := by
  rw [verifyNode]
  by_cases hn : n ∈ onWires
  · have htest : (!onWires.contains n) = false := by simpa using hn
    rw [htest]
    cases hp : g.gate? n with
    | none => exact ⟨fun _ ↦ ⟨hn, nofun⟩, fun _ ↦ rfl⟩
    | some p =>
      have hwire (w : Nat) : (discard (g.inEdge n w) >>= fun _ ↦ discard (g.outEdge n w)) = .ok () ↔
          (∃ x, g.inEdge n w = .ok x) ∧ ∃ x, g.outEdge n w = .ok x := by
        rw [Run.bind_eq_ok, ← Run.discard_question_eq_ok, ← Run.discard_question_eq_ok]
        exact ⟨fun ⟨_, hin, hout⟩ ↦ ⟨hin, hout⟩, fun ⟨hin, hout⟩ ↦ ⟨(), hin, hout⟩⟩
      change (p.wires.forM fun w ↦ discard (g.inEdge n w) >>= fun _ ↦ discard (g.outEdge n w)) =
        .ok () ↔ _
      rw [Run.forM_eq_ok]
      simp only [hwire, GateNode.mem_wires, hn, Option.some.injEq, true_and, forall_eq']
  · have htest : (!onWires.contains n) = true := by simpa using hn
    rw [htest]
    exact ⟨nofun, fun h ↦ absurd h.1 hn⟩

/-- What the check of a circuit compares, with the gates found on each wire. -/
structure Passes (g : Circuit) (gates : Nat → List Nat) : Prop where
  free : ∀ (w : Nat) (wire : Wire), g.wires[w]? = some wire →
    ∀ e ∈ g.edges.values, e.target ≠ wire.input
  found : ∀ w < g.wires.length, g.gatesOn w = .ok (gates w)
  touches : ∀ w < g.wires.length, ∀ n ∈ gates w, ∃ p, g.gate? n = some p ∧ p.touches w = true
  covered : ∀ n, g.contains n = true → ∃ w, n ∈ g.lane gates w
  joined : ∀ n p w, g.gate? n = some p → p.touches w = true →
    (∃ x, g.inEdge n w = .ok x) ∧ ∃ x, g.outEdge n w = .ok x
  counted : g.edges.values.length = (g.laneEdges gates).length

/-- The nodes of a wire in the order in which the check meets them, its ends first. -/
def inspected (g : Circuit) (gates : Nat → List Nat) (w : Nat) : List Nat :=
  match g.wires[w]? with
  | some wire => wire.input :: wire.output :: gates w
  | none => []

theorem inspected_perm (g : Circuit) (gates : Nat → List Nat) (w : Nat) :
    (g.inspected gates w).Perm (g.lane gates w) := by
  cases hw : g.wires[w]? with
  | none => rw [inspected, lane, hw]
  | some wire =>
    rw [inspected, lane, hw]
    exact (List.perm_append_singleton _ _).symm.cons _

theorem mem_flatten_inspected :
    n ∈ ((List.range g.wires.length).map (g.inspected gates)).flatten ↔
      ∃ w, n ∈ g.lane gates w := by
  rw [List.mem_flatten]
  constructor
  · rintro ⟨nodes, hnodes, hn⟩
    obtain ⟨w, -, rfl⟩ := List.mem_map.mp hnodes
    exact ⟨w, (inspected_perm g gates w).mem_iff.mp hn⟩
  · rintro ⟨w, hn⟩
    obtain ⟨wire, hw⟩ := exists_wire_of_mem_lane hn
    have hlt := (List.getElem?_eq_some_iff.mp hw).1
    exact ⟨_, List.mem_map_of_mem (List.mem_range.mpr hlt),
      (inspected_perm g gates w).mem_iff.mpr hn⟩

/-- Once every wire has passed, the check is about the nodes and the number of edges. -/
theorem verify_eq_ok_of_wires
    (hwires : ∀ w < g.wires.length, g.verifyWire w = .ok (g.inspected gates w)) :
    g.verify = .ok () ↔ (∀ n, g.contains n = true → (∃ w, n ∈ g.lane gates w) ∧
      ∀ p, g.gate? n = some p → ∀ w, p.touches w = true →
        (∃ x, g.inEdge n w = .ok x) ∧ ∃ x, g.outEdge n w = .ok x) ∧
      g.edges.values.length = (g.laneEdges gates).length := by
  have hperWire : (List.range g.wires.length).mapM g.verifyWire =
      .ok ((List.range g.wires.length).map (g.inspected gates)) :=
    Run.mapM_ok fun w hw ↦ hwires w (List.mem_range.mp hw)
  have hcount : (((List.range g.wires.length).map (g.inspected gates)).map
      fun nodes ↦ nodes.length - 1).foldl (· + ·) 0 = (g.laneEdges gates).length := by
    rw [length_laneEdges, List.map_map]
    refine congrArg (List.foldl (· + ·) 0) (List.map_congr_left fun w _ ↦ ?_)
    rw [Function.comp_apply, (inspected_perm g gates w).length_eq]
  have hnodes : (g.nodes.entries.forM fun entry ↦ g.verifyNode
      ((List.range g.wires.length).map (g.inspected gates)).flatten entry.1) = .ok () ↔
        ∀ n, g.contains n = true → (∃ w, n ∈ g.lane gates w) ∧
          ∀ p, g.gate? n = some p → ∀ w, p.touches w = true →
            (∃ x, g.inEdge n w = .ok x) ∧ ∃ x, g.outEdge n w = .ok x := by
    simp only [Run.forM_eq_ok, verifyNode_eq_ok, mem_flatten_inspected]
    constructor
    · intro hall n hn
      obtain ⟨node, hnode⟩ := Option.isSome_iff_exists.mp hn
      exact hall (n, node) (Slots.mem_entries.mpr hnode)
    · rintro hall ⟨n, node⟩ hentry
      exact hall n (contains_of_node (Slots.mem_entries.mp hentry))
  rw [verify, hperWire, ← hnodes]
  change ((g.nodes.entries.forM fun entry ↦ g.verifyNode
      ((List.range g.wires.length).map (g.inspected gates)).flatten entry.1) >>= _) = _ ↔ _
  rw [Run.bind_eq_ok, hcount]
  constructor
  · rintro ⟨_, hforM, hcounted⟩
    refine ⟨hforM, ?_⟩
    dsimp only at hcounted
    split at hcounted
    · cases hcounted
    · rename_i hsame
      exact (not_not.mp hsame).symm
  · rintro ⟨hforM, hcounted⟩
    exact ⟨(), hforM, if_neg (not_not.mpr hcounted.symm)⟩

theorem verifyWire_eq_inspected (hw : g.wires[w]? = some wire) :
    g.verifyWire w = .ok (g.inspected gates w) ↔
      (∀ e ∈ g.edges.values, e.target ≠ wire.input) ∧ g.gatesOn w = .ok (gates w) ∧
        ∀ n ∈ gates w, ∃ p, g.gate? n = some p ∧ p.touches w = true := by
  have hinspected : g.inspected gates w = wire.input :: wire.output :: gates w := by
    rw [inspected, hw]
  rw [verifyWire_eq_ok hw, hinspected]
  constructor
  · rintro ⟨found, hnodes, hpassed⟩
    cases hnodes
    exact hpassed
  · intro hpassed
    exact ⟨gates w, rfl, hpassed⟩

theorem verify_eq_ok : g.verify = .ok () ↔ ∃ gates, g.Passes gates := by
  constructor
  · intro hverify
    obtain ⟨perWire, hperWire, -⟩ := Run.bind_eq_ok.mp hverify
    have hwires : ∀ w < g.wires.length, g.verifyWire w =
        .ok (g.inspected (fun w ↦ (g.gatesOn w).toOption.getD []) w) := by
      intro w hlt
      have hw := List.getElem?_eq_getElem hlt
      obtain ⟨nodes, hnodes⟩ := Run.exists_ok_of_mapM hperWire (List.mem_range.mpr hlt)
      obtain ⟨found, -, hfree, hfound, htouch⟩ := (verifyWire_eq_ok hw).mp hnodes
      refine (verifyWire_eq_inspected hw).mpr ⟨hfree, ?_⟩
      rw [hfound]
      exact ⟨rfl, htouch⟩
    obtain ⟨hnodes, hcounted⟩ := (verify_eq_ok_of_wires hwires).mp hverify
    have hpassed {w : Nat} {wire : Wire} (hw : g.wires[w]? = some wire) :=
      (verifyWire_eq_inspected hw).mp (hwires w (List.getElem?_eq_some_iff.mp hw).1)
    refine ⟨_, fun w wire hw ↦ (hpassed hw).1,
      fun w hlt ↦ (hpassed (List.getElem?_eq_getElem hlt)).2.1,
      fun w hlt ↦ (hpassed (List.getElem?_eq_getElem hlt)).2.2, fun n hn ↦ (hnodes n hn).1,
      fun n p w hp ↦ (hnodes n (contains_of_gate hp)).2 p hp w, hcounted⟩
  · rintro ⟨gates, h⟩
    have hwires : ∀ w < g.wires.length, g.verifyWire w = .ok (g.inspected gates w) := by
      intro w hlt
      have hw := List.getElem?_eq_getElem hlt
      exact (verifyWire_eq_inspected hw).mpr ⟨h.free w _ hw, h.found w hlt, h.touches w hlt⟩
    exact (verify_eq_ok_of_wires hwires).mpr
      ⟨fun n hn ↦ ⟨h.covered n hn, fun p hp w ↦ h.joined n p w hp⟩, h.counted⟩

/-! ### Circuits that pass -/

/-- A gate on a lane is one of its gates. -/
theorem Framed.mem_gates_of_mem_lane (hf : g.Framed) (hp : g.gate? n = some p)
    (hn : n ∈ g.lane gates w) : n ∈ gates w := by
  obtain ⟨wire, hw⟩ := exists_wire_of_mem_lane hn
  rcases (mem_lane hw).mp hn with rfl | hn | rfl
  · exact absurd (input_mem_ends hw) (hf.not_mem_ends hp)
  · exact hn
  · exact absurd (output_mem_ends hw) (hf.not_mem_ends hp)

namespace Passes

variable (h : g.Passes gates)

include h

theorem follow_ok (hw : g.wires[w]? = some wire) :
    g.follow w wire.output (g.nodes.size + 1) wire.input = .ok (gates w) := by
  obtain ⟨wire', hw', hfollow⟩ :=
    gatesOn_eq_ok.mp (h.found w (List.getElem?_eq_some_iff.mp hw).1)
  rw [hw, Option.some.injEq] at hw'
  rw [hw']
  exact hfollow

theorem nodup_lane (hf : g.Framed) (w : Nat) : (g.lane gates w).Nodup := by
  cases hw : g.wires[w]? with
  | none =>
    rw [lane_of_none hw]
    exact List.nodup_nil
  | some wire =>
    have hfollow := h.follow_ok hw
    have hends : wire.output ≠ wire.input := by
      intro heq
      have houtput := hf.output w wire hw
      rw [heq, hf.input w wire hw] at houtput
      cases houtput
    have hout : wire.output ∉ wire.input :: gates w :=
      List.not_mem_cons_of_ne_of_not_mem hends (output_not_mem_of_follow hfollow)
    rw [lane_of_some hw, ← List.concat_eq_append]
    exact (nodup_of_follow hfollow).concat hout

/-- The edges found by following the wires are all edges, since there are as many. -/
theorem perm_laneEdges (hf : g.Framed) : g.edges.values.Perm (g.laneEdges gates) := by
  have hsubset : g.laneEdges gates ⊆ g.edges.values := by
    intro e he
    rw [mem_laneEdges] at he
    obtain ⟨wire, hw⟩ := exists_wire_of_mem_lane (source_mem_of_mem_links he)
    rw [lane_of_some hw] at he
    exact links_subset_of_follow (h.follow_ok hw) he
  have hsubperm := (nodup_laneEdges (h.nodup_lane hf)).subperm hsubset
  exact (hsubperm.perm_of_length_le (Nat.le_of_eq h.counted)).symm

theorem laid (hf : g.Framed) : g.Laid gates where
  ends w wire hw := ⟨hf.input w wire hw, hf.output w wire hw⟩
  nodup := h.nodup_lane hf
  touches w hlt n := by
    refine ⟨h.touches w hlt n, ?_⟩
    rintro ⟨p, hp, htouch⟩
    obtain ⟨⟨⟨i, e⟩, hin⟩, -⟩ := h.joined n p w hp htouch
    obtain ⟨hmem, htarget, hwire⟩ := mem_values_of_edgeAt hin
    have htarget : e.target = n := by simpa [Edge.isAt] using htarget
    have hlink := mem_laneEdges.mp ((h.perm_laneEdges hf).mem_iff.mp hmem)
    rw [hwire] at hlink
    exact hf.mem_gates_of_mem_lane hp (htarget ▸ target_mem_of_mem_links hlink)
  edges := h.perm_laneEdges hf

theorem occupied (hf : g.Framed) (hp : g.gate? n = some p) : p.targets ≠ [] ∨ p.guards ≠ [] := by
  obtain ⟨w, hn⟩ := h.covered n (contains_of_gate hp)
  obtain ⟨wire, hw⟩ := exists_wire_of_mem_lane hn
  obtain ⟨q, hq, htouch⟩ := h.touches w (List.getElem?_eq_some_iff.mp hw).1 n
    (hf.mem_gates_of_mem_lane hp hn)
  rw [hp, Option.some.injEq] at hq
  rw [← GateNode.exists_touches_iff, hq]
  exact ⟨w, htouch⟩

end Passes

namespace Laid

variable (h : g.Laid gates)

include h

theorem contains_of_mem_lane (hn : n ∈ g.lane gates w) : g.contains n = true := by
  obtain ⟨wire, hw⟩ := exists_wire_of_mem_lane hn
  rcases (mem_lane hw).mp hn with rfl | hn | rfl
  · exact contains_of_node (h.ends w wire hw).1
  · obtain ⟨p, hp, -⟩ := (h.touches w (List.getElem?_eq_some_iff.mp hw).1 n).mp hn
    exact contains_of_gate hp
  · exact contains_of_node (h.ends w wire hw).2

theorem passes (hc : g.Coherent)
    (hne : ∀ n p, g.gate? n = some p → p.targets ≠ [] ∨ p.guards ≠ []) : g.Passes gates := by
  have hstrung := (perm_laneEdges_iff h.nodup).mp h.edges
  have hmem {n w : Nat} {p : GateNode} (hp : g.gate? n = some p) (htouch : p.touches w = true) :
      ∃ wire, g.wires[w]? = some wire ∧ n ∈ gates w := by
    have hlt := hc.within n p w hp htouch
    exact ⟨_, List.getElem?_eq_getElem hlt, (h.touches w hlt n).mpr ⟨p, hp, htouch⟩⟩
  refine ⟨fun w wire hw e he heq ↦ ?_, fun w hlt ↦ ?_, fun w hlt n ↦ (h.touches w hlt n).mp,
    fun n hn ↦ ?_, fun n p w hp htouch ↦ ?_, h.edges.length_eq⟩
  · obtain ⟨node, hnode, hkind⟩ := hc.arrives e he
    rw [heq, hc.input w wire hw, Option.some.injEq] at hnode
    rw [← hnode] at hkind
    cases hkind
  · have hw := List.getElem?_eq_getElem hlt
    exact hstrung.gatesOn_ok (h.nodup w) (fun _ ↦ h.contains_of_mem_lane) hw (lane_of_some hw gates)
  · obtain ⟨node, hnode⟩ := Option.isSome_iff_exists.mp hn
    cases hgate : node.gate? with
    | none =>
      obtain ⟨w, wire, hw, hend⟩ := mem_ends.mp (hc.ends n node hnode hgate)
      exact ⟨w, (mem_lane hw).mpr (hend.imp_right .inr)⟩
    | some p =>
      have hp : g.gate? n = some p := by rw [gate?, hnode]; exact hgate
      obtain ⟨w, htouch⟩ := GateNode.exists_touches_iff.mpr (hne n p hp)
      obtain ⟨wire, hw, hn⟩ := hmem hp htouch
      exact ⟨w, (mem_lane hw).mpr (.inr (.inl hn))⟩
  · obtain ⟨wire, hw, hn⟩ := hmem hp htouch
    obtain ⟨front, x, y, back, hlane⟩ := exists_neighbours (a := wire.input) (b := wire.output) hn
    rw [← lane_of_some hw] at hlane
    obtain ⟨i, hin, -⟩ := hstrung.inEdge (h.nodup w) hlane (contains_of_gate hp)
    obtain ⟨j, hout, -⟩ := hstrung.outEdge (h.nodup w) (hlane.trans (List.append_cons _ _ _))
      (contains_of_gate hp)
    exact ⟨⟨_, hin⟩, _, hout⟩

end Laid

/-- A coherent circuit that passes the check is laid out along its wires, and every gate has a
target or a guard. -/
theorem Coherent.laid_of_verify (h : g.Coherent) (hverify : g.verify = .ok ()) :
    (∀ n p, g.gate? n = some p → p.targets ≠ [] ∨ p.guards ≠ []) ∧ ∃ gates, g.Laid gates := by
  obtain ⟨gates, hpasses⟩ := verify_eq_ok.mp hverify
  exact ⟨fun n p hp ↦ hpasses.occupied h.toFramed hp, gates, hpasses.laid h.toFramed⟩

/-- However a circuit is built, the check succeeds exactly when every gate has a target or a guard,
and for every wire there is a list of nodes without repetitions, from its input through the gates
that touch it to its output, such that the edges are the links of these lists, each once. -/
theorem Constructible.verify_iff_laid (hg : g.Constructible) :
    g.verify = .ok () ↔
      (∀ n p, g.gate? n = some p → p.targets ≠ [] ∨ p.guards ≠ []) ∧ ∃ gates, g.Laid gates := by
  refine ⟨hg.coherent.laid_of_verify, ?_⟩
  rintro ⟨hne, gates, hlaid⟩
  exact verify_eq_ok.mpr ⟨gates, hlaid.passes hg.coherent hne⟩

/-- A guard that leads back to itself cannot be removed from its wire, and removing the gate then
takes all edges of the wire away. One connection repairs the wire. -/
theorem Constructible.verify_iff_laid_repaired :
    let g := (Call.remove 5).after ((Call.removeGuards 5 0).after ((Circuit.connect 5 5 0).after
      ((Call.apply ⟨.standard .x, [], [⟨⟨"q", some 0⟩, false⟩]⟩).after
        ((Call.apply ⟨.standard .x, [⟨"q", some 1⟩], []⟩).after
          ((Call.declare ⟨"q", some 2⟩).after Circuit.empty)))))
    (¬ ∃ gates, g.Laid gates) ∧ ∃ gates, ((Circuit.connect 0 1 0).after g).Laid gates := by
  intro g
  have hg : g.Constructible := .call _ (.call _ (.connect _ _ _ (.call _ (.call _ (.call _
    .empty)))))
  have hfails : g.verify ≠ .ok () := by decide +kernel
  have hpasses : ((Circuit.connect 0 1 0).after g).verify = .ok () := by decide +kernel
  have hnodes := (keeps_connect 0 1 0 g ⟨hg.coherent, rfl⟩).2
  obtain ⟨hne, hlaid⟩ := (hg.connect 0 1 0).verify_iff_laid.mp hpasses
  refine ⟨fun hbroken ↦ hfails (hg.verify_iff_laid.mpr ⟨fun n p hp ↦ hne n p ?_, hbroken⟩), hlaid⟩
  rw [gate?, node?, hnodes]
  exact hp

end Circuit

end Peephole
