import Mathlib.Data.ZMod.Basic
import Peephole.Proofs.Flattening
import Peephole.Proofs.Peeping
import Peephole.Proofs.Reductions

/-!
# Simplification keeps the meaning of programs

Every rule of the four families keeps what a circuit makes of `ground`, and all but the one that
decides guards keep its operator (`Regular.perform_keeps`). So does a run of any number of rules
(`Regular.reduces_keeps`). The circuit of a program acts as the program does
(`Threaded.evolve_eq`), and the program of a circuit acts as the circuit does
(`Threaded.act_program`). Hence a simplified program takes `ground` to the same state as the program
it was made from, and without the rule that decides guards it is the same operator
(`Program.act_eq_of_simplify`).
-/

set_option autoImplicit false
set_option relaxedAutoImplicit false

namespace Peephole

universe u v

variable {R : Type u} [CommRing R] {W : Type v} [DecidableEq W] {I : Interpretation R}
  {spot : Nat → W}

/-! ### Rules of the families -/

/-- A rule that keeps the meaning of a circuit: what it cancels is its own inverse, and what it puts
between Hadamards is what belongs there. -/
def Rule.IsSound : Rule → Prop
  | cancel gate => (Gate.standard gate).fixedArity? = some 1
  | peep => True
  | sandwich middle replacement => Interpretation.Conjugate middle replacement
  | reverse => True

theorem Family.isSound_of_mem {f : Family} {r : Rule} (h : r ∈ f.rules) : r.IsSound := by
  cases f <;> simp only [rules, List.mem_cons, List.not_mem_nil, or_false] at h
  · rcases h with rfl | rfl | rfl | rfl <;> rfl
  · subst h
    trivial
  · rcases h with rfl | rfl
    · exact .inl ⟨rfl, rfl⟩
    · exact .inr ⟨rfl, rfl⟩
  · subst h
    trivial

theorem Settings.isSound_of_mem {s : Settings} {r : Rule} (h : r ∈ s.rules) : r.IsSound :=
  Family.isSound_of_mem (mem_rules.mp h).2.1

/-- Guards are decided only if their family is selected. -/
theorem Settings.peep_not_mem {s : Settings} (h : s.families.peepingControl = false) :
    Rule.peep ∉ s.rules := by
  intro hmem
  have hselected : s.families.peepingControl = true := (mem_rules.mp hmem).1
  rw [h] at hselected
  cases hselected

namespace Circuit

variable {build : Build} {g g' : Circuit} {line line' : List Nat} {good good' : State W R → Prop}

/-! ### Steps and runs -/

theorem Keeps.refl (h : g.Regular line) (good : State W R → Prop) :
    Keeps I spot good g line g line :=
  ⟨h, rfl, rfl, fun _ _ ↦ rfl⟩

theorem Keeps.trans {t : Circuit} {line'' : List Nat} (h : Keeps I spot good g line t line')
    (h' : Keeps I spot good t line' g' line'') : Keeps I spot good g line g' line'' :=
  ⟨h'.regular, h'.wires.trans h.wires, h'.declarations.trans h.declarations,
    fun ψ hψ ↦ (h'.same ψ hψ).trans (h.same ψ hψ)⟩

theorem Keeps.mono (h : Keeps I spot good g line g' line') (himp : ∀ ψ, good' ψ → good ψ) :
    Keeps I spot good' g line g' line' :=
  ⟨h.regular, h.wires, h.declarations, fun ψ hψ ↦ h.same ψ (himp ψ hψ)⟩

/-- A rule that is carried out where it applies keeps what a circuit makes of `ground`, and unless
it decides guards what it makes of any state. -/
theorem Regular.perform_keeps (h : g.Regular line)
    (hspot : Set.InjOn spot {w | w < g.wires.length}) {rule : Rule} {path : Path}
    (hsound : rule.IsSound) (happlies : rule.applies g path = .ok true)
    (hstretch : path.window.IsInfix (g.thread line path.wire))
    (hrun : (rule.perform path).run g = .ok () g') :
    ∃ line', Keeps I spot (fun ψ ↦ rule = .peep → ψ = ground) g line g' line' := by
  cases rule with
  | cancel gate =>
    have hfixed : ∃ m, I.fixed gate = some m := by
      rw [Rule.IsSound] at hsound
      cases gate <;> cases hsound <;> exact ⟨_, rfl⟩
    obtain ⟨m, hm⟩ := hfixed
    obtain ⟨line', hkeeps⟩ := h.cancel_keeps hspot hm happlies hrun
    exact ⟨line', hkeeps.mono fun _ _ ↦ trivial⟩
  | peep =>
    obtain ⟨line', hkeeps⟩ := h.peep_keeps (I := I) hspot happlies hrun
    exact ⟨line', hkeeps.mono fun _ hψ ↦ hψ rfl⟩
  | sandwich middle replacement =>
    obtain ⟨line', hkeeps⟩ := h.sandwich_keeps (I := I) hspot hsound happlies hstretch hrun
    exact ⟨line', hkeeps.mono fun _ _ ↦ trivial⟩
  | reverse =>
    obtain ⟨line', hkeeps⟩ := h.reverse_keeps (I := I) hspot happlies hstretch hrun
    exact ⟨line', hkeeps.mono fun _ _ ↦ trivial⟩

/-- A run keeps what a circuit makes of `ground`, and without the rule that decides guards what it
makes of any state. -/
theorem Regular.reduces_keeps (h : g.Regular line)
    (hspot : Set.InjOn spot {w | w < g.wires.length}) {rules used : List Rule}
    (hsound : ∀ r ∈ rules, r.IsSound) (hreduces : g.Reduces build rules used g') :
    ∃ line', Keeps I spot (fun ψ ↦ .peep ∈ rules → ψ = ground) g line g' line' := by
  induction hreduces generalizing line with
  | refl g => exact ⟨line, .refl h _⟩
  | @step g t g' m used hfound hperform hrest ih =>
    obtain ⟨hrule, happlies, hstretch⟩ := h.findMatch_some hfound
    have hrun := Match.perform_rule hperform
    obtain ⟨line', hkeeps⟩ :=
      h.perform_keeps (I := I) hspot (hsound m.rule hrule) happlies hstretch hrun
    have hspot' : Set.InjOn spot {w | w < t.wires.length} := by
      rw [hkeeps.wires]
      exact hspot
    obtain ⟨line'', hrest⟩ := ih hkeeps.regular hspot'
    have hfirst : Keeps I spot (fun ψ ↦ .peep ∈ rules → ψ = ground) g line t line' :=
      hkeeps.mono fun ψ hψ hpeep ↦ hψ (hpeep ▸ hrule)
    exact ⟨line'', hfirst.trans hrest⟩

/-! ### Circuits and programs -/

/-- A gate does to the places of its qubits what its application does. -/
theorem act_applied (place : Qubit → W) (p : GateNode) :
    (g.applied p).act I place = p.act I fun w ↦ place (g.qubitAt w) := by
  rw [Application.act, applied, GateNode.act, GateNode.placedGuards, List.map_map, List.map_map]
  rfl

/-- Gates of a circuit do what their flat list of applications does. -/
theorem evolve_listed (hgates : ∀ n ∈ line, (g.gate? n).isSome) (place : Qubit → W)
    (ψ : State W R) :
    evolve (g.act I fun w ↦ place (g.qubitAt w)) line ψ =
      ((g.listed line).map Prod.snd).foldl (fun ψ a ↦ a.act I place ψ) ψ := by
  rw [listed, List.map_map, List.foldl_map, evolve]
  refine List.foldl_ext _ _ _ fun ψ n hn ↦ ?_
  obtain ⟨p, hp⟩ := Option.isSome_iff_exists.mp (hgates n hn)
  rw [Function.comp_apply, hp, Option.map_some, Option.getD_some, act_applied, act_of_gate hp]

/-- A circuit does what its flat list of applications does. -/
theorem Threaded.evolve_eq (h : g.Threaded line) (place : Qubit → W) (ψ : State W R) :
    evolve (g.act I fun w ↦ place (g.qubitAt w)) line ψ =
      ((g.listed line).map Prod.snd).foldl (fun ψ a ↦ a.act I place ψ) ψ :=
  evolve_listed h.gate place ψ

/-- The program of a circuit does what the circuit does. -/
theorem Threaded.act_program (h : g.Threaded line) {q : Program} (hq : g.toProgram = .ok q)
    (place : Qubit → W) (ψ : State W R) :
    q.act I place ψ = evolve (g.act I fun w ↦ place (g.qubitAt w)) line ψ := by
  rw [Program.act, (h.of_toProgram hq).2, h.evolve_eq]

omit [DecidableEq W] in
/-- Different wires are placed apart if the qubits of the declarations are. -/
theorem Declared.injOn (hd : g.Declared) {place : Qubit → W}
    (hplace : Set.InjOn place {q | q ∈ g.declarations.flatMap Declaration.qubits}) :
    Set.InjOn (fun w ↦ place (g.qubitAt w)) {w | w < g.wires.length} := by
  intro v hv w hw heq
  have hmem {w : Nat} (hw : w < g.wires.length) :
      g.qubitAt w ∈ g.declarations.flatMap Declaration.qubits := by
    rw [← hd.qubits, qubitAt_of_some (List.getElem?_eq_getElem hw)]
    exact List.mem_map_of_mem (List.getElem_mem hw)
  exact hd.qubitAt_inj hv hw (hplace (hmem hv) (hmem hw) heq)

/-- The circuit of a well-formed program is regular. -/
theorem Threaded.regular (h : g.Threaded line) {program : Program} (hp : program.WellFormed)
    (hlisted : (g.listed line).map Prod.snd = program.applications) : g.Regular line := by
  refine ⟨h, fun n p hn ↦ ?_⟩
  have hmem : g.applied p ∈ program.applications := hlisted ▸ h.applied_mem_listed hn
  obtain ⟨hnodup, hapart, harity⟩ := hp _ hmem
  refine ⟨hnodup.of_map _, fun w hw ht ↦ ?_, fun k hk ↦ ?_⟩
  · obtain ⟨c, hc, rfl⟩ := List.mem_map.mp hw
    refine hapart (g.qubitAt c.wire) ?_ (List.mem_map_of_mem ht)
    exact List.mem_map.mpr ⟨⟨g.qubitAt c.wire, c.negated⟩, List.mem_map_of_mem hc, rfl⟩
  · have hlength := harity k hk
    rwa [applied, List.length_map] at hlength

end Circuit

/-! ### Programs -/

/-- An interpretation in the integers modulo 17, where 3 and 4 are the roots and every other gate
does nothing. -/
def Interpretation.mod17 : Interpretation (ZMod 17) where
  root := 3
  unit := 4
  two_mul_root := by decide
  unit_mul_unit := by decide
  other _ _ := 1

namespace Program

variable {build : Build} {p q : Program} {stats : Statistics}

/-- A simplified program does to `ground`, and without the rule that decides guards to any state,
what the program does that it was made from. -/
theorem act_eq_of_simplify (layout : Layout p W) (hp : p.WellFormed) {rules : List Rule}
    (hsound : ∀ r ∈ rules, r.IsSound) {cap : Nat} (h : p.simplify build rules cap = .ok (q, stats))
    {ψ : State W R} (hψ : .peep ∈ rules → ψ = ground) :
    q.act I layout.place ψ = p.act I layout.place ψ := by
  obtain ⟨g, used, g', hrun⟩ := exists_simplification h
  obtain ⟨line, hthreaded, hreachable, hdeclarations, hlisted⟩ := Circuit.ofProgram_ok hrun.built
  obtain ⟨-, -, hd⟩ := hreachable.threaded
  have hspot := hd.injOn (hdeclarations ▸ layout.injOn)
  obtain ⟨line', hkeeps⟩ :=
    (hthreaded.regular hp hlisted).reduces_keeps (I := I) hspot hsound hrun.reduces
  have hqubits : g'.qubitAt = g.qubitAt := by
    funext w
    rw [Circuit.qubitAt, hkeeps.wires, Circuit.qubitAt]
  rw [hkeeps.regular.act_program hrun.flattened, hqubits, hkeeps.same ψ hψ, hthreaded.evolve_eq,
    hlisted, Program.act]

/-- Under any settings, whether or not the cap is reached, the simplified program takes the state in
which every wire is zero to the same state as the program. -/
theorem act_ground_of_simplify (I : Interpretation R) {settings : Settings} (layout : Layout p W)
    (hp : p.WellFormed)
    (h : p.simplify build settings.rules settings.maxIterations = .ok (q, stats)) :
    q.act I layout.place (ground : State W R) = p.act I layout.place ground :=
  act_eq_of_simplify layout hp (fun _ hr ↦ Settings.isSound_of_mem hr) h fun _ ↦ rfl

/-- Two guards are decided and then a Z between Hadamards becomes an X. -/
theorem act_ground_of_simplify_guarded :
    let p : Program := [.declare ⟨"q", some 2⟩, .apply ⟨.standard .x, [⟨"q", some 0⟩], []⟩,
      .apply ⟨.standard .h, [⟨"q", some 1⟩], [⟨⟨"q", some 0⟩, false⟩]⟩,
      .apply ⟨.standard .z, [⟨"q", some 1⟩], [⟨⟨"q", some 0⟩, false⟩]⟩,
      .apply ⟨.standard .h, [⟨"q", some 1⟩], []⟩]
    let q : Program := [.declare ⟨"q", some 2⟩, .apply ⟨.standard .x, [⟨"q", some 0⟩], []⟩,
      .apply ⟨.standard .x, [⟨"q", some 1⟩], []⟩]
    p.WellFormed ∧
      (∃ stats, p.simplify .development Settings.standard.rules Settings.standard.maxIterations =
        .ok (q, stats)) ∧
      q.act .mod17 id (ground : State Qubit (ZMod 17)) = p.act .mod17 id ground := by
  intro p q
  have hp : p.WellFormed := by decide
  have hresult : (p.simplify .development Settings.standard.rules
      Settings.standard.maxIterations).toOption.map Prod.fst = some q := by decide +kernel
  obtain ⟨⟨_, stats⟩, hstats, rfl⟩ := Run.toOption_map_eq_some.mp hresult
  let layout : Layout p Qubit := ⟨id, Set.injOn_id _⟩
  exact ⟨hp, ⟨stats, hstats⟩, act_ground_of_simplify .mod17 layout hp hstats⟩

/-- If the family that decides guards is not selected, the simplified program is the same operator
as the program. -/
theorem act_of_simplify (I : Interpretation R) {settings : Settings} (layout : Layout p W)
    (hp : p.WellFormed) (hfamily : settings.families.peepingControl = false)
    (h : p.simplify build settings.rules settings.maxIterations = .ok (q, stats)) :
    (q.act I layout.place : State W R → State W R) = p.act I layout.place := by
  funext ψ
  exact act_eq_of_simplify layout hp (fun _ hr ↦ Settings.isSound_of_mem hr) h
    fun hpeep ↦ absurd hpeep (Settings.peep_not_mem hfamily)

/-- A CX between Hadamards on both of its qubits changes direction. -/
theorem act_of_simplify_reversed :
    let p : Program := [.declare ⟨"q", some 2⟩, .apply ⟨.standard .h, [⟨"q", some 0⟩], []⟩,
      .apply ⟨.standard .h, [⟨"q", some 1⟩], []⟩,
      .apply ⟨.standard .cx, [⟨"q", some 0⟩, ⟨"q", some 1⟩], []⟩,
      .apply ⟨.standard .h, [⟨"q", some 1⟩], []⟩, .apply ⟨.standard .h, [⟨"q", some 0⟩], []⟩]
    let q : Program := [.declare ⟨"q", some 2⟩,
      .apply ⟨.standard .cx, [⟨"q", some 1⟩, ⟨"q", some 0⟩], []⟩]
    let settings : Settings := ⟨⟨true, false, true, true⟩, none, 1⟩
    p.WellFormed ∧
      (∃ stats, p.simplify .development settings.rules settings.maxIterations = .ok (q, stats)) ∧
      (q.act .mod17 id : State Qubit (ZMod 17) → _) = p.act .mod17 id := by
  intro p q settings
  have hp : p.WellFormed := by decide
  have hresult : (p.simplify .development settings.rules
      settings.maxIterations).toOption.map Prod.fst = some q := by decide +kernel
  obtain ⟨⟨_, stats⟩, hstats, rfl⟩ := Run.toOption_map_eq_some.mp hresult
  let layout : Layout p Qubit := ⟨id, Set.injOn_id _⟩
  exact ⟨hp, ⟨stats, hstats⟩, act_of_simplify .mod17 layout hp rfl hstats⟩

end Program

end Peephole
