import Peephole.Optimizer
import Peephole.Proofs.Walks

/-!
# What the search for a match finds

A match names one of the rules that were tried and a window of a wire to which the rule applies
(`window_of_findMatch`), and nothing is found only where no rule applies to any window
(`findMatch_none`). In a circuit with a line the window is a stretch of the wire
(`Threaded.findMatch_some`). The gates that a rule sees in a window are the nodes of the window
(`gateWindow_eq_some`).
-/

set_option autoImplicit false
set_option relaxedAutoImplicit false

namespace Peephole

namespace Circuit

variable {g : Circuit} {line : List Nat}

theorem mapM_gate? {window : List Nat} {l : List (Nat × GateNode)} :
    (window.mapM fun n ↦ (g.gate? n).map fun payload ↦ (n, payload)) = some l ↔
      window = l.map Prod.fst ∧ ∀ e ∈ l, g.gate? e.1 = some e.2 := by
  induction window generalizing l with
  | nil => cases l <;> simp
  | cons n rest ih =>
    rw [List.mapM_cons]
    constructor
    · intro h
      obtain ⟨first, hfirst, h⟩ := Option.bind_eq_some_iff.mp h
      obtain ⟨p, hp, rfl⟩ := Option.map_eq_some_iff.mp hfirst
      obtain ⟨others, hothers, h⟩ := Option.bind_eq_some_iff.mp h
      cases h
      obtain ⟨hrest, hgates⟩ := ih.mp hothers
      exact ⟨by rw [hrest, List.map_cons], List.forall_mem_cons.mpr ⟨hp, hgates⟩⟩
    · rintro ⟨hwindow, hgates⟩
      obtain ⟨⟨m, p⟩, others, rfl, rfl, rfl⟩ := List.map_eq_cons_iff.mp hwindow.symm
      obtain ⟨hp, hgates⟩ := List.forall_mem_cons.mp hgates
      simp only [hp, ih.mpr ⟨rfl, hgates⟩]
      rfl

/-- A rule sees the gates of a window if these are all its nodes and as many as the rule needs. -/
theorem gateWindow_eq_some {path : Path} {depth : Nat} {l : List (Nat × GateNode)} :
    g.gateWindow path depth = some l ↔
      l.length = depth ∧ path.window = l.map Prod.fst ∧ ∀ e ∈ l, g.gate? e.1 = some e.2 := by
  have hlength : path.length = path.window.length := (List.length_map _).symm
  rw [gateWindow]
  constructor
  · intro h
    split at h
    · rename_i hdepth
      obtain ⟨hwindow, hgates⟩ := mapM_gate?.mp h
      refine ⟨?_, hwindow, hgates⟩
      rw [← hdepth, hlength, hwindow, List.length_map]
    · cases h
  · rintro ⟨hdepth, hwindow, hgates⟩
    rw [if_pos (by rw [hlength, hwindow, List.length_map, hdepth])]
    exact mapM_gate?.mpr ⟨hwindow, hgates⟩

/-- The stretches of a whole wire are those of its thread, one from each node. -/
theorem Threaded.mem_stretches (h : g.Threaded line) {path window : Path} {w limit : Nat}
    (hpath : Path.full g w = .ok path) (hw : w < g.wires.length) :
    window ∈ path.stretches limit ↔ ∃ front x back, g.thread line w = front ++ x :: back ∧
      window = ⟨w, x, links w (x :: back.take limit)⟩ := by
  have hwire := List.getElem?_eq_getElem hw
  have hthread : ∃ start rest, g.thread line w = start :: rest ∧
      path = ⟨w, start, links w (start :: rest)⟩ := by
    rw [h.full_ok hwire, Except.ok.injEq] at hpath
    rw [thread_of_some hwire] at hpath ⊢
    exact ⟨_, _, rfl, hpath.symm⟩
  obtain ⟨start, rest, hthread, rfl⟩ := hthread
  rw [Path.stretches, Path.suffixes, List.mem_map, hthread]
  constructor
  · rintro ⟨p, hp, rfl⟩
    obtain ⟨front, x, back, hlist, rfl⟩ := Path.mem_suffixesFrom.mp hp
    exact ⟨front, x, back, hlist, by rw [Path.take, Path.take_links]⟩
  · rintro ⟨front, x, back, hlist, rfl⟩
    refine ⟨_, Path.mem_suffixesFrom.mpr ⟨front, x, back, hlist, rfl⟩, ?_⟩
    rw [Path.take, Path.take_links]

theorem Threaded.window_isInfix (h : g.Threaded line) {path window : Path} {w limit : Nat}
    (hpath : Path.full g w = .ok path) (hw : w < g.wires.length)
    (hwindow : window ∈ path.stretches limit) :
    window.window.IsInfix (g.thread line window.wire) := by
  obtain ⟨front, x, back, hthread, rfl⟩ := (h.mem_stretches hpath hw).mp hwindow
  rw [Path.window_links, hthread, List.append_cons]
  exact (List.take_prefix _ back).isInfix.trans (List.suffix_append _ back).isInfix

/-- A match is a rule with a window of its depth to which it applies. -/
theorem window_of_findMatch {rules : List Rule} {m : Match}
    (hm : findMatch rules g = .ok (some m)) :
    m.rule ∈ rules ∧ m.rule.applies g m.path = .ok true ∧
      ∃ w < g.wires.length, ∃ path, Path.full g w = .ok path ∧
        m.path ∈ path.stretches m.rule.depth := by
  obtain ⟨w, hw, hm⟩ := Run.exists_of_findSomeM? hm
  obtain ⟨path, hpath, hm⟩ := Run.bind_eq_ok.mp hm
  obtain ⟨rest, hrest, hm⟩ := Run.exists_of_findSomeM? hm
  obtain ⟨rule, hrule, hm⟩ := Run.exists_of_findSomeM? hm
  obtain ⟨answer, happlies, hm⟩ := Run.bind_eq_ok.mp hm
  cases answer with
  | false => cases hm
  | true =>
    cases hm
    exact ⟨hrule, happlies, w, List.mem_range.mp hw, path, hpath, List.mem_map_of_mem hrest⟩

/-- A match is a rule with a stretch of a wire to which it applies. -/
theorem Threaded.findMatch_some (h : g.Threaded line) {rules : List Rule} {m : Match}
    (hm : findMatch rules g = .ok (some m)) :
    m.rule ∈ rules ∧ m.rule.applies g m.path = .ok true ∧
      m.path.window.IsInfix (g.thread line m.path.wire) := by
  obtain ⟨hrule, happlies, w, hw, path, hpath, hwindow⟩ := window_of_findMatch hm
  exact ⟨hrule, happlies, h.window_isInfix hpath hw hwindow⟩

theorem matchAt_none {rules : List Rule} {path : Path} :
    matchAt rules g path = .ok none ↔ ∀ r ∈ rules, r.applies g (path.take r.depth) = .ok false := by
  rw [matchAt, Run.findSomeM?_eq_none]
  refine forall₂_congr fun r _ ↦ ?_
  rw [Run.bind_eq_ok]
  constructor
  · rintro ⟨answer, happlies, hanswer⟩
    cases answer with
    | false => exact happlies
    | true => cases hanswer
  · intro happlies
    exact ⟨false, happlies, rfl⟩

/-- Nothing is found on a wire if and only if the wire can be walked and no rule applies to a window
of its depth. -/
theorem matchOn_none {rules : List Rule} {w : Nat} :
    matchOn rules g w = .ok none ↔ ∃ path, Path.full g w = .ok path ∧
      ∀ r ∈ rules, ∀ window ∈ path.stretches r.depth, r.applies g window = .ok false := by
  rw [matchOn, Run.bind_eq_ok]
  refine exists_congr fun path ↦ and_congr_right fun _ ↦ ?_
  rw [Run.findSomeM?_eq_none]
  simp only [matchAt_none, Path.stretches, List.forall_mem_map]
  constructor
  · intro hnone r hr rest hrest
    exact hnone rest hrest r hr
  · intro hnone rest hrest r hr
    exact hnone r hr rest hrest

/-- Nothing is found in a circuit if and only if nothing is found on any wire. -/
theorem findMatch_none {rules : List Rule} :
    findMatch rules g = .ok none ↔ ∀ w < g.wires.length, ∃ path, Path.full g w = .ok path ∧
      ∀ r ∈ rules, ∀ window ∈ path.stretches r.depth, r.applies g window = .ok false := by
  rw [findMatch, Run.findSomeM?_eq_none]
  simp only [List.mem_range, matchOn_none]

/-- In a circuit with a line nothing is found if and only if no rule applies to a window of its
depth. -/
theorem Threaded.findMatch_none (h : g.Threaded line) {rules : List Rule} :
    findMatch rules g = .ok none ↔
      ∀ w < g.wires.length, ∀ path, Path.full g w = .ok path → ∀ r ∈ rules,
        ∀ window ∈ path.stretches r.depth, r.applies g window = .ok false := by
  rw [Circuit.findMatch_none]
  refine forall₂_congr fun w hw ↦ ?_
  simp only [h.full_ok (List.getElem?_eq_getElem hw), Except.ok.injEq, exists_eq_left',
    forall_eq']

/-- A search that ends has found a match if and only if some rule applies to some window. -/
theorem isSome_of_findMatch {rules : List Rule} {found : Option Match}
    (h : findMatch rules g = .ok found) :
    found.isSome = true ↔ ∃ w < g.wires.length, ∃ path, Path.full g w = .ok path ∧
      ∃ r ∈ rules, ∃ window ∈ path.stretches r.depth, r.applies g window = .ok true := by
  constructor
  · intro hsome
    obtain ⟨m, rfl⟩ := Option.isSome_iff_exists.mp hsome
    obtain ⟨hrule, happlies, w, hw, path, hpath, hwindow⟩ := window_of_findMatch h
    exact ⟨w, hw, path, hpath, m.rule, hrule, m.path, hwindow, happlies⟩
  · rintro ⟨w, hw, path, hpath, r, hr, window, hwindow, happlies⟩
    cases found with
    | some m => rfl
    | none =>
      obtain ⟨path', hpath', hnone⟩ := Circuit.findMatch_none.mp h w hw
      cases hpath.symm.trans hpath'
      cases happlies.symm.trans (hnone r hr window hwindow)

end Circuit

end Peephole
