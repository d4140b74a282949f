import Peephole.Proofs.Exchanges
import Peephole.Proofs.Flattening
import Peephole.Proofs.SinglePath

/-!
# The cost of runs

Every use of a rule makes a circuit lighter, where the weight of a circuit is the number of its
gates and of their guards (`Rule.Trades.load_lt`). So a run takes at most as many steps as the
program weighs (`Reduces.length_add_weight_le`), with or without a cap. The number of gates that go
is fixed by the family of the rule, but for the gates that a decided guard keeps from acting
(`Reduces.length_gates`), and the account of a run lists the uses of each family
(`Simplification.uses_eq`).
-/

set_option autoImplicit false
set_option relaxedAutoImplicit false

namespace Peephole

/-! ### Weights -/

/-- The number of the gates of a program and of their guards. -/
def Program.weight (p : Program) : Nat :=
  p.gateCount + (p.applications.flatMap Application.guards).length

namespace GateNode

variable {l l' : List GateNode}

/-- The number of gates in a list and of their guards. -/
def load (l : List GateNode) : Nat :=
  l.length + (l.flatMap guards).length

theorem load_append (l l' : List GateNode) : load (l ++ l') = load l + load l' := by
  rw [load, load, load, List.length_append, List.flatMap_append, List.length_append]
  omega

theorem load_singleton (p : GateNode) : load [p] = 1 + p.guards.length := by
  rw [load, List.flatMap_singleton, List.length_singleton]

theorem load_perm (h : l.Perm l') : load l = load l' := by
  rw [load, load, h.length_eq, (h.flatMap_right guards).length_eq]

theorem length_le_load (l : List GateNode) : l.length ≤ load l :=
  Nat.le_add_right _ _

/-- Dropping a guard makes a gate lighter. -/
theorem length_dropGuards_lt {p : GateNode} {w : Nat} (h : p.isGuard w = true) :
    (p.dropGuards w).guards.length < p.guards.length := by
  obtain ⟨c, hc, hwire⟩ := List.mem_map.mp (isGuard_iff.mp h)
  rw [dropGuards]
  refine List.length_filter_lt_length_iff_exists.mpr ⟨c, hc, ?_⟩
  simp [hwire]

/-- A controlled not has as many guards after it has changed direction. -/
theorem FlipsUnder.length_reversed {p : GateNode} {t c : Nat} (h : p.FlipsUnder t c) :
    (Rule.reversed p t c).2.length = p.guards.length := by
  rw [Rule.reversed]
  rcases h with ⟨-, -, hguards⟩ | ⟨-, -, hguards⟩
  · simp [isUnguarded, hguards]
  · simp [isUnguarded, hguards]

end GateNode

/-- The number of the gates of a circuit and of their guards. -/
def Circuit.weight (g : Circuit) : Nat :=
  GateNode.load g.gates

namespace Rule

variable {rule : Rule} {old new : List GateNode}

/-- What comes in a trade is lighter than what goes. -/
theorem Trades.load_lt (h : rule.Trades old new) : GateNode.load new < GateNode.load old := by
  cases rule with
  | cancel gate =>
    obtain ⟨hlength, rfl⟩ := h
    have hle := GateNode.length_le_load old
    rw [hlength] at hle
    exact Nat.lt_of_lt_of_le Nat.two_pos hle
  | peep =>
    obtain ⟨p, w, hguard, rfl, rfl | rfl⟩ := h
    · rw [GateNode.load_singleton, GateNode.load_singleton]
      exact Nat.add_lt_add_left (GateNode.length_dropGuards_lt hguard) 1
    · rw [GateNode.load_singleton]
      exact Nat.lt_add_right _ Nat.one_pos
  | sandwich middle replacement =>
    obtain ⟨hadamards, p, hlength, rfl, rfl⟩ := h
    have hle := GateNode.length_le_load hadamards
    have hsame : GateNode.load [{ p with gate := .standard replacement }] = GateNode.load [p] := rfl
    rw [GateNode.load_append, hsame]
    omega
  | reverse =>
    obtain ⟨hadamards, p, t, c, hlength, rfl, hflips, rfl⟩ := h
    have hle := GateNode.length_le_load hadamards
    rw [GateNode.load_append, GateNode.load_singleton, GateNode.load_singleton,
      hflips.length_reversed]
    omega

/-- The number of gates that each use of a rule takes away, but for the one whose decided guard
keeps it from acting. -/
def saving (r : Rule) : Nat :=
  match r.family with
  | .nullGate => 2
  | .peepingControl => 0
  | .hSandwich => 2
  | .controlReversal => 4

theorem Trades.length_eq (h : rule.Trades old new) :
    ∃ d ≤ if rule.family = .peepingControl then 1 else 0,
      old.length = new.length + rule.saving + d := by
  cases rule with
  | cancel gate =>
    obtain ⟨hlength, rfl⟩ := h
    exact ⟨0, Nat.le_refl 0, hlength⟩
  | peep =>
    obtain ⟨p, w, -, rfl, rfl | rfl⟩ := h
    · exact ⟨0, Nat.zero_le 1, rfl⟩
    · exact ⟨1, Nat.le_refl 1, rfl⟩
  | sandwich middle replacement =>
    obtain ⟨hadamards, p, hlength, rfl, rfl⟩ := h
    refine ⟨0, Nat.le_refl 0, ?_⟩
    rw [List.length_append, hlength]
    rfl
  | reverse =>
    obtain ⟨hadamards, p, t, c, hlength, rfl, -, rfl⟩ := h
    refine ⟨0, Nat.le_refl 0, ?_⟩
    rw [List.length_append, hlength]
    rfl

end Rule

namespace Circuit

variable {build : Build} {g g' : Circuit} {line : List Nat} {rules used : List Rule} {rule : Rule}

/-! ### Steps and runs -/

/-- The use of a rule makes a circuit lighter. -/
theorem Rewrites.weight_lt (h : Rewrites rule g g') : g'.weight < g.weight := by
  obtain ⟨old, new, ⟨rest, hbefore, hafter⟩, htrades⟩ := h.traded
  rw [weight, weight, GateNode.load_perm hbefore, GateNode.load_perm hafter, GateNode.load_append,
    GateNode.load_append]
  exact Nat.add_lt_add_right htrades.load_lt _

theorem Rewrites.length_gates (h : Rewrites rule g g') :
    ∃ d ≤ if rule.family = .peepingControl then 1 else 0,
      g.gates.length = g'.gates.length + rule.saving + d := by
  obtain ⟨old, new, ⟨rest, hbefore, hafter⟩, htrades⟩ := h.traded
  obtain ⟨d, hd, hlength⟩ := htrades.length_eq
  refine ⟨d, hd, ?_⟩
  rw [hbefore.length_eq, hafter.length_eq, List.length_append, List.length_append, hlength]
  omega

/-- Each step of a run takes some of the weight, so that runs come to an end. -/
theorem Reduces.length_add_weight_le (hreduces : g.Reduces build rules used g')
    (h : g.Threaded line) : used.length + g'.weight ≤ g.weight := by
  induction hreduces generalizing line with
  | refl g => exact Nat.le_of_eq (Nat.zero_add _)
  | step hfound hperform hrest ih =>
    obtain ⟨-, hrewrites⟩ := h.rewrites_of_findMatch hfound hperform
    obtain ⟨line', ht⟩ := hrewrites.threaded
    have hlt := hrewrites.weight_lt
    have hle := ih ht
    rw [List.length_cons]
    omega

/-- How many gates a run takes away, by the families of the rules it uses. -/
theorem Reduces.length_gates (hreduces : g.Reduces build rules used g') (h : g.Threaded line) :
    ∃ d ≤ used.countP (·.family = .peepingControl),
      g.gates.length = g'.gates.length + 2 * used.countP (·.family = .nullGate) +
        2 * used.countP (·.family = .hSandwich) + 4 * used.countP (·.family = .controlReversal) +
        d := by
  induction hreduces generalizing line with
  | refl g => exact ⟨0, Nat.le_refl 0, rfl⟩
  | @step g t g' m used hfound hperform hrest ih =>
    obtain ⟨-, hrewrites⟩ := h.rewrites_of_findMatch hfound hperform
    obtain ⟨line', ht⟩ := hrewrites.threaded
    obtain ⟨d, hd, hlength⟩ := hrewrites.length_gates
    obtain ⟨d', hd', hlength'⟩ := ih ht
    refine ⟨d + d', ?_, ?_⟩
    · rw [List.countP_cons]
      simp only [decide_eq_true_eq]
      omega
    · rw [hlength, hlength', Rule.saving]
      cases hfamily : m.rule.family <;> simp [hfamily] <;> omega

/-- A rule applies only where there is a gate. -/
theorem weight_pos_of_applies {path : Path} (h : rule.applies g path = .ok true) :
    0 < g.weight := by
  have hgate : ∃ p, p ∈ g.gates := by
    simp only [mem_gates]
    cases rule with
    | cancel gate =>
      obtain ⟨first, p, second, q, -, hp, -⟩ := cancels_eq_true.mp h
      exact ⟨p, first, hp⟩
    | peep =>
      obtain ⟨n, p, value, -, hp, -⟩ := peeps_eq_true.mp h
      exact ⟨p, n, hp⟩
    | sandwich middle replacement =>
      obtain ⟨first, second, third, opening, inner, closing, hs⟩ := sandwiches_eq_true.mp h
      exact ⟨opening, first, hs.opening_at⟩
    | reverse =>
      obtain ⟨first, n, p, third, c, before, after, -, hn, -⟩ := reverses_eq_true.mp h
      exact ⟨p, n, hn⟩
  obtain ⟨p, hp⟩ := hgate
  exact Nat.lt_of_lt_of_le (List.length_pos_of_mem hp) (GateNode.length_le_load _)

/-! ### Circuits and programs -/

theorem Threaded.map_applied (h : g.Threaded line) :
    (g.listed line).map Prod.snd = (line.filterMap g.gate?).map g.applied := by
  rw [listed, List.map_map, List.map_filterMap, eq_comm,
    List.filterMap_eq_map_iff_forall_eq_some]
  intro n hn
  obtain ⟨p, hp⟩ := Option.isSome_iff_exists.mp (h.gate n hn)
  rw [Function.comp_apply, hp]
  rfl

/-- A circuit weighs as much as its flat list of applications. -/
theorem Threaded.weight_eq (h : g.Threaded line) {p : Program}
    (hp : p.applications = (g.listed line).map Prod.snd) : g.weight = p.weight := by
  rw [weight, GateNode.load_perm h.gates_perm, GateNode.load, Program.weight, Program.gateCount, hp,
    h.map_applied, List.length_map, List.length_flatMap, List.length_flatMap, List.map_map]
  simp [applied, Function.comp_def]

end Circuit

/-! ### The account -/

namespace Statistics

/-- The uses in an account of the rules with some names. -/
def total (keep : String → Bool) (tally : List (String × Nat)) : Nat :=
  ((tally.filter fun entry ↦ keep entry.1).map Prod.snd).sum

/-- The uses of the rules of a family. -/
def uses (s : Statistics) (f : Family) : Nat :=
  total (fun name ↦ (f.rules.map Rule.name).contains name) s.tally

theorem total_cons (keep : String → Bool) (n : String) (k : Nat) (rest : List (String × Nat)) :
    total keep ((n, k) :: rest) = (if keep n then k else 0) + total keep rest := by
  by_cases hkeep : keep n <;> simp [total, hkeep]

/-- Counting a name adds one use of it and changes no other. -/
theorem total_count (keep : String → Bool) (name : String) (tally : List (String × Nat)) :
    total keep (count name tally) = (if keep name then 1 else 0) + total keep tally := by
  induction tally with
  | nil => rw [count, total_cons]
  | cons entry rest ih =>
    obtain ⟨n, k⟩ := entry
    rw [count]
    by_cases hname : n = name
    · rw [if_pos hname, total_cons, total_cons, hname]
      split <;> omega
    · rw [if_neg hname]
      by_cases hlt : name < n
      · rw [if_pos hlt, total_cons]
      · rw [if_neg hlt, total_cons, total_cons, ih]
        omega

theorem total_foldl_count (keep : String → Bool) (used : List Rule) (tally : List (String × Nat)) :
    total keep (used.foldl (fun tally r ↦ count r.name tally) tally) =
      total keep tally + used.countP fun r ↦ keep r.name := by
  induction used generalizing tally with
  | nil => rfl
  | cons r rest ih =>
    rw [List.foldl_cons, ih, total_count, List.countP_cons]
    omega

end Statistics

/-- The name of a rule tells its family. -/
theorem Family.contains_name {f f' : Family} {r : Rule} (h : r ∈ f'.rules) :
    (f.rules.map Rule.name).contains r.name = decide (r.family = f) := by
  revert r
  cases f <;> cases f' <;> decide +kernel

variable {build : Build} {settings : Settings} {p q : Program} {stats : Statistics} {g g' : Circuit}
  {used : List Rule} {cap : Nat}

/-- The account of a run has the uses of each family. -/
theorem Simplification.uses_eq (hrun : Simplification build settings.rules cap p g used g' q stats)
    (hused : used ⊆ settings.rules) (f : Family) :
    stats.uses f = used.countP (·.family = f) := by
  rw [Statistics.uses, hrun.tally, Statistics.total_foldl_count]
  refine (Nat.zero_add _).trans (List.countP_congr fun r hr ↦ ?_)
  rw [Family.contains_name (Settings.mem_rules.mp (hused hr)).2.1]

theorem Simplification.sum_tally
    (hrun : Simplification build settings.rules cap p g used g' q stats) :
    (stats.tally.map Prod.snd).sum = used.length := by
  have htotal := Statistics.total_foldl_count (fun _ ↦ true) used []
  rw [← hrun.tally, List.countP_true] at htotal
  simpa [Statistics.total] using htotal

/-- A run that may take as many steps as the program weighs is never stopped. -/
theorem Simplification.not_capped
    (hrun : Simplification build settings.rules cap p g used g' q stats)
    {line line' : List Nat} (h : g.Threaded line) (h' : g'.Threaded line')
    (hcap : g.weight ≤ cap) : stats.capped = false := by
  by_contra hcapped
  obtain ⟨hlength, m, hfound⟩ := hrun.stopped (Bool.eq_true_of_not_eq_false hcapped)
  have hpos := Circuit.weight_pos_of_applies (h'.findMatch_some hfound).2.1
  have hle := hrun.reduces.length_add_weight_le h
  omega

/-- Every use of a rule makes the circuit lighter, and so no run from the circuit of a program has
more steps than the program weighs, whatever the cap. The account of a run is exact: it has one use
for each step, the numbers of gates before and after, and a family takes the same number of gates
away with each use, but for guards that are decided, where it is at most one. -/
theorem optimize_cost (h : optimize build settings p = .ok (q, stats)) :
    (∃ g, Circuit.ofProgram p = .ok g ∧ g.weight = p.weight ∧
      ∀ used s, g.Reduces build settings.rules used s → used.length + s.weight ≤ p.weight ∧
        ∀ (r : Rule) path t, r.applies s path = .ok true → (r.perform path).run s = .ok () t →
          t.weight < s.weight) ∧
    stats.iterations ≤ p.weight ∧
    (p.weight ≤ settings.maxIterations → stats.capped = false) ∧
    stats.iterations ≤ settings.maxIterations ∧
    stats.iterations = (stats.tally.map Prod.snd).sum ∧
    stats.gatesBefore = p.gateCount ∧ stats.gatesAfter = q.gateCount ∧
    stats.gatesAfter ≤ stats.gatesBefore ∧
    ∃ d ≤ stats.uses .peepingControl,
      stats.gatesRemoved = 2 * stats.uses .nullGate + 2 * stats.uses .hSandwich +
        4 * stats.uses .controlReversal + d := by
  obtain ⟨g, used, g', hrun⟩ := Program.exists_simplification (optimize_eq_ok.mp h).2
  obtain ⟨line, hthreaded, -, -, hlisted⟩ := Circuit.ofProgram_ok hrun.built
  obtain ⟨⟨line', hthreaded'⟩, -, -, hused⟩ := hrun.reduces.threaded hthreaded
  have hweight : g.weight = p.weight := hthreaded.weight_eq hlisted.symm
  have hsteps := hrun.reduces.length_add_weight_le hthreaded
  obtain ⟨-, hlisted'⟩ := hthreaded'.of_toProgram hrun.flattened
  have hbefore : stats.gatesBefore = p.gateCount :=
    hrun.gatesBefore.trans (hthreaded.gateCount_eq_of_listed hlisted.symm)
  have hafter : stats.gatesAfter = q.gateCount :=
    hrun.gatesAfter.trans (hthreaded'.gateCount_eq_of_listed hlisted')
  obtain ⟨d, hd, hgates⟩ := hrun.reduces.length_gates hthreaded
  have hremoved : stats.gatesBefore = stats.gatesAfter + 2 * stats.uses .nullGate +
      2 * stats.uses .hSandwich + 4 * stats.uses .controlReversal + d := by
    rw [hrun.gatesBefore, hrun.gatesAfter, hthreaded.gateCount_eq_gates,
      hthreaded'.gateCount_eq_gates, hrun.uses_eq hused, hrun.uses_eq hused, hrun.uses_eq hused]
    exact hgates
  refine ⟨⟨g, hrun.built, hweight, fun used s hreduces ↦ ?_⟩, ?_, ?_, ?_, ?_, hbefore, hafter, ?_,
    d, ?_, ?_⟩
  · obtain ⟨⟨line₁, hs⟩, -⟩ := hreduces.threaded hthreaded
    refine ⟨hweight ▸ hreduces.length_add_weight_le hthreaded, fun r path t happlies hperform ↦ ?_⟩
    exact (hs.rewrites_of_perform happlies hperform).weight_lt
  · rw [hrun.iterations]
    omega
  · intro hcap
    exact hrun.not_capped hthreaded hthreaded' (hweight ▸ hcap)
  · rw [hrun.iterations]
    exact hrun.length_le
  · rw [hrun.iterations, hrun.sum_tally]
  · omega
  · rw [hrun.uses_eq hused]
    exact hd
  · rw [Statistics.gatesRemoved]
    omega

/-- Two guards hold and a third one fails, two gates cancel, and a Z between Hadamards becomes an X:
one of the three decided guards has cost a gate. -/
theorem optimize_cost_decided :
    let p : Program := [.declare ⟨"q", some 3⟩, .apply ⟨.standard .x, [⟨"q", some 0⟩], []⟩,
      .apply ⟨.standard .h, [⟨"q", some 1⟩], [⟨⟨"q", some 0⟩, false⟩]⟩,
      .apply ⟨.standard .z, [⟨"q", some 1⟩], [⟨⟨"q", some 0⟩, false⟩]⟩,
      .apply ⟨.standard .h, [⟨"q", some 1⟩], []⟩, .apply ⟨.standard .x, [⟨"q", some 2⟩], []⟩,
      .apply ⟨.standard .s, [⟨"q", some 2⟩], [⟨⟨"q", some 0⟩, true⟩]⟩,
      .apply ⟨.standard .x, [⟨"q", some 2⟩], []⟩]
    let q : Program := [.declare ⟨"q", some 3⟩, .apply ⟨.standard .x, [⟨"q", some 0⟩], []⟩,
      .apply ⟨.standard .x, [⟨"q", some 1⟩], []⟩]
    let stats : Statistics :=
      ⟨7, 2, 5, [("h-sandwich(z->x)", 1), ("null-gate(x)", 1), ("peeping-control", 3)], false⟩
    let settings : Settings := ⟨.all, none, 10⟩
    optimize .development settings p = .ok (q, stats) ∧ p.weight = 10 ∧
      stats.iterations ≤ p.weight ∧
      (p.weight ≤ settings.maxIterations → stats.capped = false) ∧
      stats.iterations = (stats.tally.map Prod.snd).sum ∧
      stats.gatesBefore = p.gateCount ∧ stats.gatesAfter = q.gateCount ∧
      ∃ d ≤ stats.uses .peepingControl,
        stats.gatesRemoved = 2 * stats.uses .nullGate + 2 * stats.uses .hSandwich +
          4 * stats.uses .controlReversal + d := by
  intro p q stats settings
  have hrun : optimize .development settings p = .ok (q, stats) :=
    Run.toOption_eq_some.mp (by decide +kernel)
  obtain ⟨-, hiterations, hcap, -, htally, hbefore, hafter, -, hremoved⟩ := optimize_cost hrun
  exact ⟨hrun, rfl, hiterations, hcap, htally, hbefore, hafter, hremoved⟩

end Peephole
