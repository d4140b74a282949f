import Mathlib.Data.List.Nodup
import Peephole.Proofs.Peeping
import Peephole.Proofs.Reductions

/-!
# What rules do to the gates of a circuit

A rule takes some gates out of a circuit, puts others in, and leaves the rest as they are
(`Circuit.Exchanges`). `Rule.Trades` says for each family which gates go and which come: two
neighbours go, a gate loses guards or goes, the Hadamards around a gate go and the gate is replaced.
Every rule that is carried out where it applies is such a trade and leaves a circuit with a line on
the same wires (`Threaded.rewrites_of_perform`), and so does every step of a run
(`Reduces.threaded`).
-/

set_option autoImplicit false
set_option relaxedAutoImplicit false

namespace Peephole

namespace Circuit

variable {g g' t : Circuit} {line ns : List Nat} {n : Nat} {p : GateNode}
  {old old' new : List GateNode}

/-! ### The gates of a circuit -/

/-- The gates of a circuit in the order of their numbers. -/
def gates (g : Circuit) : List GateNode :=
  g.nodes.values.filterMap Node.gate?

/-- The gates of a circuit with their numbers. -/
def numbered (g : Circuit) : List (Nat × GateNode) :=
  g.nodes.entries.filterMap fun entry ↦ entry.2.gate?.map fun p ↦ (entry.1, p)

theorem map_snd_numbered (g : Circuit) : g.numbered.map Prod.snd = g.gates := by
  rw [numbered, gates, Slots.values_eq_map, List.map_filterMap, List.filterMap_map]
  congr 1
  funext entry
  simp

theorem numbers_eq_some {entry : Nat × Node} :
    (entry.2.gate?.map fun p ↦ (entry.1, p)) = some (n, p) ↔ entry = (n, .gate p) := by
  obtain ⟨m, node⟩ := entry
  cases node <;> simp [Node.gate?]

theorem mem_numbered : (n, p) ∈ g.numbered ↔ g.gate? n = some p := by
  rw [numbered, List.mem_filterMap, gate?_eq_some, node?, ← Slots.mem_entries]
  simp only [numbers_eq_some, exists_eq_right]

theorem nodup_numbered (g : Circuit) : g.numbered.Nodup := by
  refine g.nodes.nodup_entries.filterMap fun entry entry' e he he' ↦ ?_
  exact (numbers_eq_some.mp he).trans (numbers_eq_some.mp he').symm

theorem mem_gates : p ∈ g.gates ↔ ∃ n, g.gate? n = some p := by
  simp only [← map_snd_numbered, List.mem_map, Prod.exists, mem_numbered, exists_eq_right]

/-! ### Exchanges -/

/-- The gates of a circuit are those on its line. -/
theorem Threaded.gates_perm (h : g.Threaded line) :
    g.gates.Perm (line.filterMap g.gate?) := by
  have hnumbered : g.numbered.Perm (line.filterMap fun n ↦ (g.gate? n).map fun p ↦ (n, p)) := by
    refine (List.perm_ext_iff_of_nodup (nodup_numbered g) ?_).mpr ?_
    · refine h.nodup_line.filterMap fun n n' e he he' ↦ ?_
      obtain ⟨p, -, rfl⟩ := Option.map_eq_some_iff.mp he
      obtain ⟨p', -, heq⟩ := Option.map_eq_some_iff.mp he'
      exact (congrArg Prod.fst heq).symm
    · rintro ⟨n, p⟩
      rw [mem_numbered, List.mem_filterMap]
      constructor
      · intro hp
        exact ⟨n, h.mem_line_of_gate hp, by rw [hp]; rfl⟩
      · rintro ⟨m, -, hm⟩
        obtain ⟨q, hq, heq⟩ := Option.map_eq_some_iff.mp hm
        cases heq
        exact hq
  have hperm := hnumbered.map Prod.snd
  rw [map_snd_numbered, List.map_filterMap] at hperm
  simpa using hperm

/-- Some gates of a circuit are exchanged for others, and all the rest stay. -/
def Exchanges (g g' : Circuit) (old new : List GateNode) : Prop :=
  ∃ rest, g.gates.Perm (old ++ rest) ∧ g'.gates.Perm (new ++ rest)

/-- Where nothing came in a first exchange, what goes in a second one was there before. -/
theorem Exchanges.trans (h : g.Exchanges t old []) (h' : t.Exchanges g' old' new) :
    g.Exchanges g' (old ++ old') new := by
  obtain ⟨rest, hg, ht⟩ := h
  obtain ⟨rest', ht', hg'⟩ := h'
  refine ⟨rest', ?_, hg'⟩
  rw [List.append_assoc]
  exact hg.trans ((ht.symm.trans ht').append_left old)

/-- A change of one gate exchanges it. -/
theorem Revises.exchanges {q : Option GateNode} (h : g.Revises g' n p q) :
    g.Exchanges g' [p] q.toList := by
  -- A circuit consists of the gate with the number `n` and of those that are the same in both.
  have hsplit {s : Circuit} {r : Option GateNode} (hs : s.gate? n = r)
      (hsame : ∀ m, m ≠ n → s.gate? m = g.gate? m) :
      s.numbered.Perm (r.toList.map (n, ·) ++ g.numbered.filter (·.1 ≠ n)) := by
    refine (List.perm_ext_iff_of_nodup (nodup_numbered s) ?_).mpr ?_
    · have hfirst : (r.toList.map (n, ·)).Nodup := by cases r <;> simp
      refine hfirst.append ((nodup_numbered g).filter _) fun e he he' ↦ ?_
      obtain ⟨x, -, rfl⟩ := List.mem_map.mp he
      simp at he'
    · rintro ⟨m, x⟩
      by_cases hm : m = n
      · subst hm
        simp [mem_numbered, hs]
      · simp [mem_numbered, hm, hsame m hm, Ne.symm hm]
  refine ⟨(g.numbered.filter (·.1 ≠ n)).map Prod.snd, ?_, ?_⟩
  · have hperm := (hsplit h.old fun m _ ↦ rfl).map Prod.snd
    rwa [map_snd_numbered, List.map_append] at hperm
  · have hperm := (hsplit (h.gate? n) fun m hm ↦ (h.gate? m).trans (if_neg hm)).map Prod.snd
    rwa [if_pos rfl, map_snd_numbered, List.map_append, List.map_map, Function.comp_def,
      List.map_id'] at hperm

/-- Removing gates exchanges as many gates for nothing. -/
theorem Threaded.exchanges_of_removed (h : g.Threaded line) (hremoved : Removed ns g g') :
    ∃ old, old.length = ns.length ∧ g.Exchanges g' old [] := by
  induction ns generalizing g line with
  | nil =>
    cases hremoved
    exact ⟨[], rfl, _, .refl _, .refl _⟩
  | cons n rest ih =>
    obtain ⟨p, t, hrun, hrest⟩ := hremoved
    obtain ⟨ht, hrevises⟩ := h.of_remove hrun
    obtain ⟨old, hlength, hexchanges⟩ := ih ht hrest
    exact ⟨p :: old, congrArg (· + 1) hlength, hrevises.exchanges.trans hexchanges⟩

end Circuit

/-! ### Trades -/

/-- The gates that the use of a rule takes away and those it puts in their place. -/
def Rule.Trades (old new : List GateNode) : Rule → Prop
  | cancel _ => old.length = 2 ∧ new = []
  | peep => ∃ p w, p.isGuard w = true ∧ old = [p] ∧ (new = [p.dropGuards w] ∨ new = [])
  | sandwich _ replacement => ∃ hadamards p, hadamards.length = 2 ∧ old = hadamards ++ [p] ∧
      new = [{ p with gate := .standard replacement }]
  | reverse => ∃ hadamards p t c, hadamards.length = 4 ∧ old = hadamards ++ [p] ∧
      p.FlipsUnder t c ∧
      new = [{ p with targets := (reversed p t c).1, guards := (reversed p t c).2 }]

namespace Circuit

variable {build : Build} {g g' : Circuit} {line : List Nat} {rule : Rule} {path : Path}

/-- What the use of a rule leaves of a circuit: another one with a line, on the same wires, with
some gates traded. -/
structure Rewrites (rule : Rule) (g g' : Circuit) : Prop where
  threaded : ∃ line, g'.Threaded line
  wires : g'.wires = g.wires
  declarations : g'.declarations = g.declarations
  traded : ∃ old new, g.Exchanges g' old new ∧ rule.Trades old new

/-- Some gates are removed, and then one other gate is revised. -/
theorem Threaded.rewrites_of_revises (h : g.Threaded line) {ns line' : List Nat} {t : Circuit}
    {n : Nat} {p : GateNode} {q : Option GateNode} (hremoved : Removed ns g t)
    (hthreaded : g'.Threaded line') (hrevises : t.Revises g' n p q)
    (htrades : ∀ gone : List GateNode, gone.length = ns.length →
      rule.Trades (gone ++ [p]) q.toList) : Rewrites rule g g' := by
  obtain ⟨-, hwires, hdeclarations, -⟩ := h.of_removed hremoved
  obtain ⟨gone, hlength, hexchanges⟩ := h.exchanges_of_removed hremoved
  exact ⟨⟨line', hthreaded⟩, hrevises.wires.trans hwires,
    hrevises.declarations.trans hdeclarations, _, _, hexchanges.trans hrevises.exchanges,
    htrades gone hlength⟩

/-! ### One rule at a time -/

theorem Threaded.cancel_rewrites (h : g.Threaded line) {gate : StandardGate}
    (happlies : (Rule.cancel gate).applies g path = .ok true)
    (hrun : ((Rule.cancel gate).perform path).run g = .ok () g') :
    Rewrites (.cancel gate) g g' := by
  obtain ⟨first, p, second, q, hwindow, -⟩ := cancels_eq_true.mp happlies
  have hremoved := (performCancel_eq_ok hwindow).mp hrun
  obtain ⟨hthreaded, hwires, hdeclarations, -⟩ := h.of_removed hremoved
  obtain ⟨old, hlength, hexchanges⟩ := h.exchanges_of_removed hremoved
  exact ⟨⟨_, hthreaded⟩, hwires, hdeclarations, old, [], hexchanges, hlength, rfl⟩

theorem Threaded.peep_rewrites (h : g.Threaded line)
    (happlies : Rule.peep.applies g path = .ok true)
    (hrun : (Rule.peep.perform path).run g = .ok () g') : Rewrites .peep g g' := by
  obtain ⟨n, p, value, hwindow, hp, hguard, -, hstate⟩ := peeps_eq_true.mp happlies
  obtain rfl := last_of_window hwindow
  rw [Rule.perform, performPeep_eq_ok hp hstate] at hrun
  have hempty : Removed [] g g := rfl
  split_ifs at hrun
  · obtain ⟨q, hq, hthreaded, hrevises⟩ := h.of_removeGuards hrun
    refine h.rewrites_of_revises hempty hthreaded hrevises fun gone hgone ↦ ?_
    rw [List.eq_nil_of_length_eq_zero hgone]
    exact ⟨q, path.wire, hq, rfl, .inl rfl⟩
  · obtain ⟨q, hremove⟩ := hrun
    obtain ⟨hthreaded, hrevises⟩ := h.of_remove hremove
    have hq : q = p := Option.some.inj (hrevises.old.symm.trans hp)
    refine h.rewrites_of_revises hempty hthreaded hrevises fun gone hgone ↦ ?_
    rw [List.eq_nil_of_length_eq_zero hgone, hq]
    exact ⟨p, path.wire, hguard, rfl, .inr rfl⟩

theorem Threaded.sandwich_rewrites (h : g.Threaded line) {middle replacement : StandardGate}
    (happlies : (Rule.sandwich middle replacement).applies g path = .ok true)
    (hrun : ((Rule.sandwich middle replacement).perform path).run g = .ok () g') :
    Rewrites (.sandwich middle replacement) g g' := by
  obtain ⟨first, second, third, opening, inner, closing, hs⟩ := sandwiches_eq_true.mp happlies
  obtain ⟨t, hremoved, hset⟩ := (performSandwich_eq_ok hs.window).mp hrun
  obtain ⟨p, hthreaded, hrevises⟩ := (h.of_removed hremoved).1.of_setGate hset
  exact h.rewrites_of_revises hremoved hthreaded hrevises fun gone hgone ↦
    ⟨gone, p, hgone, rfl, rfl⟩

theorem Threaded.reverse_rewrites (h : g.Threaded line)
    (happlies : Rule.reverse.applies g path = .ok true)
    (hrun : (Rule.reverse.perform path).run g = .ok () g') : Rewrites .reverse g g' := by
  obtain ⟨first, n, p, third, c, before, after, hwindow, hn, -, -, hc, hhadamards⟩ :=
    reverses_eq_true.mp happlies
  obtain ⟨t, hremoved, hretarget⟩ := (performReverse_eq_ok hwindow hn hc hhadamards).mp hrun
  obtain ⟨q, -, hthreaded, hrevises⟩ := (h.of_removed hremoved).1.of_retarget hretarget
  have hq : q = p :=
    Option.some.inj ((h.of_removed_of_revises hremoved hrevises).2.symm.trans hn)
  subst hq
  exact h.rewrites_of_revises hremoved hthreaded hrevises fun gone hgone ↦
    ⟨gone, q, path.wire, c, hgone, rfl, (GateNode.controlOf_eq_some.mp hc).2, rfl⟩

/-- A rule that is carried out where it applies trades gates as its family does. -/
theorem Threaded.rewrites_of_perform (h : g.Threaded line)
    (happlies : rule.applies g path = .ok true) (hrun : (rule.perform path).run g = .ok () g') :
    Rewrites rule g g' := by
  cases rule with
  | cancel gate => exact h.cancel_rewrites happlies hrun
  | peep => exact h.peep_rewrites happlies hrun
  | sandwich middle replacement => exact h.sandwich_rewrites happlies hrun
  | reverse => exact h.reverse_rewrites happlies hrun

/-- A match that is carried out trades gates as its family does. -/
theorem Threaded.rewrites_of_findMatch (h : g.Threaded line) {rules : List Rule} {m : Match}
    (hfound : findMatch rules g = .ok (some m)) (hperform : (m.perform build).run g = .ok () g') :
    m.rule ∈ rules ∧ Rewrites m.rule g g' := by
  obtain ⟨hrule, happlies, -⟩ := h.findMatch_some hfound
  exact ⟨hrule, h.rewrites_of_perform happlies (Match.perform_rule hperform)⟩

/-- A run leaves a circuit with a line on the same wires. -/
theorem Reduces.threaded {rules used : List Rule} (hreduces : g.Reduces build rules used g')
    (h : g.Threaded line) : (∃ line', g'.Threaded line') ∧ g'.wires = g.wires ∧
      g'.declarations = g.declarations ∧ used ⊆ rules := by
  induction hreduces generalizing line with
  | refl g => exact ⟨⟨line, h⟩, rfl, rfl, List.nil_subset _⟩
  | step hfound hperform hrest ih =>
    obtain ⟨hrule, hrewrites⟩ := h.rewrites_of_findMatch hfound hperform
    obtain ⟨line', ht⟩ := hrewrites.threaded
    obtain ⟨hthreaded, hwires, hdeclarations, hsub⟩ := ih ht
    exact ⟨hthreaded, hwires.trans hrewrites.wires, hdeclarations.trans hrewrites.declarations,
      List.cons_subset.mpr ⟨hrule, hsub⟩⟩

end Circuit

end Peephole
