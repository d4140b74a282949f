import Mathlib.Tactic.Set
import Peephole.Proofs.Frames
import Peephole.Proofs.Running

/-!
# What each edit does to the line of gates

For a circuit with a line (`Circuit.Threaded`) the outcome of every edit is known exactly. `apply`
puts one gate at the end of the line (`Threaded.apply_ok`), `remove` takes one out
(`Threaded.remove_ok`), and the other edits keep the line and change one gate or add wires
(`Threaded.removeGuards_ok`, `Threaded.updateGate`, `Threaded.addWire`). Each of these statements
gives the circuit after the edit in full, apart from the numbers of its edges, and says that its
wires run along the new line. An edit that is refused leaves the circuit as it was.
-/

set_option autoImplicit false
set_option relaxedAutoImplicit false

namespace Peephole.Circuit

variable {g : Circuit} {line : List Nat} {path : Nat → List Nat} {w n : Nat} {p : GateNode}

/-! ### Single wires -/

/-- A node between two others is taken out of one wire. -/
theorem spliceOut_ok (h : Strung g.edges path) (hnodup : (path w).Nodup)
    (hn : g.contains n = true) {front back : List Nat} {a b : Nat}
    (hpath : path w = front ++ a :: n :: b :: back) :
    ∃ edges, (spliceOut n w).run g = .ok () { g with edges } ∧
      Strung edges (Function.update path w ((path w).filter (· ≠ n))) := by
  obtain ⟨i, hin, hi⟩ := h.inEdge hnodup hpath hn
  have hpath' : path w = (front ++ [a]) ++ n :: b :: back := by rw [hpath, List.append_cons]
  obtain ⟨j, hout, hj⟩ := h.outEdge hnodup hpath' hn
  refine ⟨_, ?_, h.splice hnodup hpath hi hj⟩
  rw [spliceOut, Run.bind_ok (Run.ask_ok hin)]
  dsimp only
  rw [Run.bind_ok (Run.ask_ok hout)]
  rfl

/-- An edge is added between nodes that allow it. -/
theorem connect_ok {a b : Nat} (ha : g.checkSource a w = .ok ()) (hb : g.checkTarget b w = .ok ()) :
    (discard (connect a b w)).run g = .ok () (g.addEdge ⟨a, b, w⟩) := by
  refine Run.discard_ok (a := g.edges.next) ?_
  rw [connect, Run.bind_ok (Run.ask_ok ha), Run.bind_ok (Run.ask_ok hb)]
  rfl

/-- A node is put before the output of one wire. -/
theorem append_ok (h : Strung g.edges path) (hnodup : (path w).Nodup) {wire : Wire}
    (hwire : g.wires[w]? = some wire) {front : List Nat} {a : Nat}
    (hpath : path w = front ++ [a, wire.output]) (hout : g.contains wire.output = true)
    (ha : g.checkSource a w = .ok ()) (hn : g.checkSource n w = .ok ())
    (hn' : g.checkTarget n w = .ok ()) (hout' : g.checkTarget wire.output w = .ok ()) :
    ∃ edges, (append w n).run g = .ok () { g with edges } ∧
      Strung edges (Function.update path w (beforeLast n (path w))) := by
  have houtput : g.outputOf w = .ok wire.output := by
    rw [outputOf, Circuit.wire, hwire]
    rfl
  obtain ⟨i, hin, hi⟩ := h.inEdge hnodup hpath hout
  refine ⟨_, ?_, h.extend hpath hi⟩
  rw [append, Run.bind_ok (Run.ask_ok houtput), Run.bind_ok (Run.ask_ok hin)]
  dsimp only
  have hfirst : (discard (connect a n w)).run (g.eraseEdge i) =
      .ok () ((g.eraseEdge i).addEdge ⟨a, n, w⟩) := connect_ok ha hn'
  have hsecond : (discard (connect n wire.output w)).run ((g.eraseEdge i).addEdge ⟨a, n, w⟩) =
      .ok () (((g.eraseEdge i).addEdge ⟨a, n, w⟩).addEdge ⟨n, wire.output, w⟩) :=
    connect_ok hn hout'
  rw [Run.bind_ok (Run.modify_ok _), Run.bind_ok hfirst, hsecond]
  rfl

/-- An operation on single wires is carried out on several of them, one after the other. -/
theorem forM_wires_ok {op : Nat → Edit Unit} {change : List Nat → List Nat} {ws : List Nat}
    (hstep : ∀ w ∈ ws, ∀ (edges : Slots Edge) (path' : Nat → List Nat), Strung edges path' →
      path' w = path w → ∃ edges', (op w).run { g with edges } = .ok () { g with edges := edges' } ∧
        Strung edges' (Function.update path' w (change (path' w))))
    (hws : ws.Nodup) (h : Strung g.edges path) :
    ∃ edges, (ws.forM op).run g = .ok () { g with edges } ∧
      Strung edges fun v ↦ if v ∈ ws then change (path v) else path v := by
  induction ws generalizing g path with
  | nil => exact ⟨g.edges, rfl, by simpa using h⟩
  | cons w rest ih =>
    obtain ⟨hw, hrest⟩ := List.nodup_cons.mp hws
    obtain ⟨edges, hop, hedges⟩ := hstep w List.mem_cons_self g.edges path h rfl
    have hother : ∀ v ∈ rest, Function.update path w (change (path w)) v = path v := by
      intro v hv
      refine Function.update_of_ne ?_ _ _
      rintro rfl
      exact hw hv
    obtain ⟨edges', hloop, hedges'⟩ := @ih { g with edges }
      (Function.update path w (change (path w)))
      (fun v hv edges' path' hs hv' ↦ hstep v (List.mem_cons_of_mem w hv) edges' path' hs
        (hv'.trans (hother v hv))) hrest hedges
    refine ⟨edges', ?_, ?_⟩
    · change (op w >>= fun _ ↦ rest.forM op).run g = _
      rw [Run.bind_ok hop, hloop]
    · convert hedges' using 2 with v
      by_cases hv : v = w
      · subst hv
        simp [hw]
      · simp [hv]

/-! ### Nodes -/

theorem checkSource_addNode {node : Node} {m : Nat} (h : g.checkSource m w = .ok ()) :
    (g.addNode node).checkSource m w = .ok () := by
  cases hm : g.node? m with
  | none =>
    rw [checkSource, hm] at h
    cases h
  | some other =>
    rw [checkSource, hm] at h
    rw [checkSource, node?_addNode_of_some hm]
    exact h

theorem checkSource_gate (hp : g.gate? n = some p) (hw : p.touches w = true) :
    g.checkSource n w = .ok () := by
  rw [checkSource, gate?_eq_some.mp hp]
  exact if_pos hw

theorem checkTarget_gate (hp : g.gate? n = some p) (hw : p.touches w = true) :
    g.checkTarget n w = .ok () := by
  rw [checkTarget, gate?_eq_some.mp hp]
  exact if_pos hw

namespace Threaded

theorem next_not_mem (h : g.Threaded line) : g.nodes.next ∉ line := by
  intro hmem
  have hsome := h.gate _ hmem
  rw [gate?_next] at hsome
  cases hsome

/-- The last node before the output of a wire may be left on that wire. -/
theorem exists_last (h : g.Threaded line) {wire : Wire} (hwire : g.wires[w]? = some wire) :
    ∃ front a, g.thread line w = front ++ [a, wire.output] ∧ g.checkSource a w = .ok () := by
  rw [thread_of_some hwire]
  rcases List.eq_nil_or_concat (line.filter (g.isOn w)) with hnil | ⟨front, a, hconcat⟩
  · refine ⟨[], wire.input, by rw [hnil]; rfl, ?_⟩
    rw [checkSource, h.input w wire hwire]
  · refine ⟨wire.input :: front, a, by rw [hconcat]; simp, ?_⟩
    have ha : a ∈ line.filter (g.isOn w) := by rw [hconcat]; simp
    obtain ⟨p, hp, htouch⟩ := isOn_iff.mp (List.mem_filter.mp ha).2
    exact checkSource_gate hp htouch

/-! ### Gates that come and go -/

/-- A circuit with one more gate runs along the longer line, if its edges do. -/
theorem insertGate (h : g.Threaded line) (horder : p.order = g.placed + 1)
    (hwithin : ∀ w, p.touches w = true → w < g.wires.length) {edges : Slots Edge}
    (hedges : Strung edges fun v ↦
      if v ∈ p.wires then beforeLast g.nodes.next (g.thread line v) else g.thread line v) :
    Threaded { g with nodes := g.nodes.insert (.gate p), edges, placed := g.placed + 1 }
      (line ++ [g.nodes.next]) := by
  set g' : Circuit := { g with nodes := g.nodes.insert (.gate p), edges, placed := g.placed + 1 }
  have hgate (m : Nat) : g'.gate? m = if m = g.nodes.next then some p else g.gate? m :=
    gate?_addNode (.gate p) m
  have hnew : g'.gate? g.nodes.next = some p := by rw [hgate, if_pos rfl]
  have hold {m : Nat} (hm : m ∈ line) : g'.gate? m = g.gate? m := by
    rw [hgate, if_neg]
    rintro rfl
    exact h.next_not_mem hm
  have hframed : g'.Framed := h.framed.insertGate horder hwithin edges
  refine ⟨?_, ?_, hframed.input, hframed.output, ?_, hframed.placed, hframed.within, ?_⟩
  · refine (g.nodes.keys_insert (.gate p)).trans ((h.keys.cons _).trans ?_)
    exact (List.perm_middle.symm.trans (.of_eq (List.append_cons _ _ _)))
  · intro m hm
    rcases List.mem_append.mp hm with hm | hm
    · rw [hold hm]
      exact h.gate m hm
    · rw [List.mem_singleton.mp hm, hnew]
      rfl
  · refine List.pairwise_append.mpr ⟨?_, List.pairwise_singleton _ _, ?_⟩
    · refine h.sorted.imp_of_mem fun hm hk hlt ↦ ?_
      rw [placeOf, placeOf, hold hm, hold hk]
      exact hlt
    · intro m hm k hk
      obtain ⟨q, hq⟩ := Option.isSome_iff_exists.mp (h.gate m hm)
      have hplace : g'.placeOf m = q.order := placeOf_eq ((hold hm).trans hq)
      rw [List.mem_singleton.mp hk, placeOf_eq hnew, hplace, horder]
      exact Nat.lt_succ_of_le (h.placed m q hq)
  · convert hedges using 2 with v
    have hsame : g'.thread line v = g.thread line v :=
      thread_congr rfl fun m hm ↦ by rw [isOn, hold hm, isOn]
    have hlast : g'.isOn v g.nodes.next = p.touches v := by
      rw [isOn, hnew, Option.any_some]
    have hconcat : g'.thread (line ++ [g.nodes.next]) v =
        if g'.isOn v g.nodes.next then beforeLast g.nodes.next (g'.thread line v)
        else g'.thread line v :=
      thread_concat fun hon ↦ hwithin v (hlast ▸ hon)
    rw [hconcat, hsame, hlast]
    simp only [GateNode.mem_wires]

end Threaded

theorem resolve_eq_ok {name : String} {q : Qubit} :
    g.resolve name q = .ok w ↔ g.wireOf? q = some w := by
  rw [resolve]
  cases g.wireOf? q <;> simp

theorem lt_of_resolve {name : String} {q : Qubit} (h : g.resolve name q = .ok w) :
    w < g.wires.length := by
  obtain ⟨wire, hwire, -⟩ := Option.map_eq_some_iff.mp (qubit_of_wireOf? (resolve_eq_ok.mp h))
  exact (List.getElem?_eq_some_iff.mp hwire).1

theorem within_of_resolveAll {a : Application} {targets : List Nat} {guards : List WireGuard}
    (h : g.resolveAll a = .ok (targets, guards)) :
    (∀ w ∈ targets, w < g.wires.length) ∧ ∀ c ∈ guards, c.wire < g.wires.length := by
  obtain ⟨ts, hts, h⟩ := Run.bind_eq_ok.mp h
  obtain ⟨gs, hgs, h⟩ := Run.bind_eq_ok.mp h
  cases h
  constructor
  · intro w hw
    obtain ⟨q, -, hq⟩ := Run.exists_of_mapM hts hw
    exact lt_of_resolve hq
  · intro c hc
    obtain ⟨guard, -, hguard⟩ := Run.exists_of_mapM hgs hc
    obtain ⟨v, hv, rfl⟩ := Run.map_eq_ok.mp hguard
    exact lt_of_resolve hv

/-- A gate on declared qubits is put at the end of the line. -/
theorem Threaded.apply_ok (h : g.Threaded line) {a : Application} {targets : List Nat}
    {guards : List WireGuard} (hr : g.resolveAll a = .ok (targets, guards)) :
    ∃ edges, (apply a).run g = .ok g.nodes.next
        { g with
          nodes := g.nodes.insert (.gate ⟨a.gate, targets, guards, g.placed + 1⟩)
          edges
          placed := g.placed + 1 } ∧
      Threaded
        { g with
          nodes := g.nodes.insert (.gate ⟨a.gate, targets, guards, g.placed + 1⟩)
          edges
          placed := g.placed + 1 }
        (line ++ [g.nodes.next]) := by
  set p : GateNode := ⟨a.gate, targets, guards, g.placed + 1⟩
  set n := g.nodes.next
  set g₁ : Circuit := { g with placed := g.placed + 1 }.addNode (.gate p)
  have hwithin (w : Nat) (hw : p.touches w = true) : w < g.wires.length := by
    obtain ⟨hts, hgs⟩ := within_of_resolveAll hr
    rcases GateNode.touches_iff.mp hw with hw | hw
    · exact hts w hw
    · obtain ⟨c, hc, rfl⟩ := List.mem_map.mp hw
      exact hgs c hc
  have hgate : g₁.gate? n = some p := by
    rw [gate?_addNode]
    exact if_pos rfl
  have hstep : ∀ w ∈ p.wires, ∀ (edges : Slots Edge) (path : Nat → List Nat), Strung edges path →
      path w = g.thread line w → ∃ edges',
        (append w n).run { g₁ with edges } = .ok () { g₁ with edges := edges' } ∧
          Strung edges' (Function.update path w (beforeLast n (path w))) := by
    intro w hw edges path hs hpath
    have htouch := GateNode.mem_wires.mp hw
    obtain ⟨wire, hwire⟩ : ∃ wire, g.wires[w]? = some wire :=
      ⟨_, List.getElem?_eq_getElem (hwithin w htouch)⟩
    obtain ⟨front, a, hthread, ha⟩ := h.exists_last hwire
    have houtput : g₁.node? wire.output = some (.output w) :=
      node?_addNode_of_some (h.output w wire hwire)
    refine append_ok (g := { g₁ with edges }) hs (hpath ▸ h.nodup_thread w) hwire
      (hpath.trans hthread) ?_ (checkSource_addNode ha) (checkSource_gate hgate htouch)
      (checkTarget_gate hgate htouch) ?_
    · change (g₁.node? wire.output).isSome = true
      rw [houtput]
      rfl
    · change g₁.checkTarget wire.output w = .ok ()
      rw [checkTarget, houtput]
  obtain ⟨edges, hloop, hedges⟩ := forM_wires_ok hstep p.nodup_wires h.strung
  refine ⟨edges, ?_, h.insertGate rfl hwithin hedges⟩
  rw [apply, Run.bind_ok (Run.ask_ok hr)]
  dsimp only
  rw [Run.bind_ok Run.get_ok, Run.bind_ok (Run.set_ok _), Run.bind_ok hloop]
  rfl

/-- A circuit without one of its gates runs along the shorter line, if its edges do. -/
theorem Threaded.eraseGate (h : g.Threaded line) (hp : g.gate? n = some p) {edges : Slots Edge}
    (hedges : Strung edges fun v ↦
      if v ∈ p.wires then (g.thread line v).filter (· ≠ n) else g.thread line v) :
    Threaded { g with nodes := g.nodes.erase n, edges } (line.filter (· ≠ n)) := by
  set g' : Circuit := { g with nodes := g.nodes.erase n, edges }
  have hn : n ∈ line := h.mem_line_of_gate hp
  have hold {m : Nat} (hm : m ∈ line.filter (· ≠ n)) : g'.gate? m = g.gate? m := by
    rw [gate?_erase, if_neg (by simpa using (List.mem_filter.mp hm).2)]
  have hframed : g'.Framed := h.framed.eraseGate hp edges
  refine ⟨?_, ?_, hframed.input, hframed.output, ?_, hframed.placed, hframed.within, ?_⟩
  · have hcons := (Slots.keys_erase (gate?_eq_some.mp hp)).symm.trans
      (h.keys.trans ((perm_cons_filter_ne h.nodup_line hn).append_right g.ends))
    exact (List.perm_cons n).mp hcons
  · intro m hm
    rw [hold hm]
    exact h.gate m (List.mem_filter.mp hm).1
  · refine (h.sorted.filter _).imp_of_mem fun hm hk hlt ↦ ?_
    rw [placeOf, placeOf, hold hm, hold hk]
    exact hlt
  · convert hedges using 2 with v
    have hsame : g'.thread (line.filter (· ≠ n)) v = g.thread (line.filter (· ≠ n)) v :=
      thread_congr rfl fun m hm ↦ by rw [isOn, hold hm, isOn]
    rw [hsame, h.thread_filter hn v]
    split
    · rfl
    · rename_i hmem
      have hoff : g.isOn v n = false := by
        rw [isOn, hp, Option.any_some]
        simpa [GateNode.mem_wires] using hmem
      exact List.filter_eq_self.mpr fun m hm ↦
        decide_eq_true fun heq ↦ h.not_mem_thread hn hoff (heq ▸ hm)

/-- A gate is strictly between the ends of the wires it touches. -/
theorem Threaded.exists_neighbours (h : g.Threaded line) (hn : g.isOn w n = true) :
    ∃ front a b back, g.thread line w = front ++ a :: n :: b :: back := by
  obtain ⟨wire, hwire⟩ := h.wire_of_isOn hn
  obtain ⟨p, hp, -⟩ := isOn_iff.mp hn
  rw [thread_of_some hwire]
  exact Peephole.exists_neighbours (List.mem_filter.mpr ⟨h.mem_line_of_gate hp, hn⟩)

/-- A node without edges is removed alone. -/
theorem eraseNode_of_edges (h : ∀ e ∈ g.edges.values, e.source ≠ n ∧ e.target ≠ n) :
    g.eraseNode n = { g with nodes := g.nodes.erase n } := by
  have hselect : g.edges.select (fun e ↦ e.source = n || e.target = n) = [] := by
    refine List.eq_nil_iff_forall_not_mem.mpr ?_
    rintro ⟨i, e⟩ hmem
    obtain ⟨hi, hkeep⟩ := Slots.mem_select.mp hmem
    obtain ⟨hsource, htarget⟩ := h e (Slots.mem_values.mpr ⟨i, hi⟩)
    simp [hsource, htarget] at hkeep
  rw [eraseNode, hselect]
  rfl

/-- A gate is taken out of the line. -/
theorem Threaded.remove_ok (h : g.Threaded line) (hp : g.gate? n = some p) :
    ∃ edges, (remove n).run g = .ok p { g with nodes := g.nodes.erase n, edges } ∧
      Threaded { g with nodes := g.nodes.erase n, edges } (line.filter (· ≠ n)) := by
  have hcontains : g.contains n = true := contains_of_gate hp
  have hstep : ∀ w ∈ p.wires, ∀ (edges : Slots Edge) (path : Nat → List Nat), Strung edges path →
      path w = g.thread line w → ∃ edges',
        (spliceOut n w).run { g with edges } = .ok () { g with edges := edges' } ∧
          Strung edges' (Function.update path w ((path w).filter (· ≠ n))) := by
    intro w hw edges path hs hpath
    obtain ⟨front, a, b, back, hthread⟩ :=
      h.exists_neighbours (isOn_iff.mpr ⟨p, hp, GateNode.mem_wires.mp hw⟩)
    exact spliceOut_ok (g := { g with edges }) hs (hpath ▸ h.nodup_thread w) hcontains
      (hpath.trans hthread)
  obtain ⟨edges, hloop, hedges⟩ := forM_wires_ok hstep p.nodup_wires h.strung
  have hthreaded := h.eraseGate hp hedges
  refine ⟨edges, ?_, hthreaded⟩
  have hfree : ∀ e ∈ edges.values, e.source ≠ n ∧ e.target ≠ n := by
    intro e he
    have hlink := hthreaded.edge_mem he
    have hgone {m : Nat} (hm : m ∈ thread { g with nodes := g.nodes.erase n, edges }
        (line.filter (· ≠ n)) e.wire) : m ≠ n := by
      rintro rfl
      have hcontains := hthreaded.contains_of_mem_thread hm
      rw [contains, node?, Slots.get?_erase, if_pos rfl] at hcontains
      cases hcontains
    exact ⟨hgone (source_mem_of_mem_links hlink), hgone (target_mem_of_mem_links hlink)⟩
  rw [remove, Run.bind_ok Run.get_ok, hp]
  dsimp only
  rw [Run.bind_ok hloop, Run.bind_ok (Run.modify_ok _), eraseNode_of_edges hfree]
  rfl

end Peephole.Circuit
