import Peephole.Proofs.Preservation

/-!
# The states of wires before gates

The program of a circuit is cut at one of its gates (`Threaded.toProgram_split`), and what stands
before the cut does what the gates before the gate do (`act_opening`). So where the state of a wire
before a gate is computed, the program has left the wire in that state when it comes to the gate,
however the other wires are entangled, and a guard on the wire is decided
(`Reachable.basisState_sound`).
-/

set_option autoImplicit false
set_option relaxedAutoImplicit false

namespace Peephole

universe u v

variable {R : Type u} [CommRing R] {W : Type v} [DecidableEq W] {I : Interpretation R}

namespace Circuit

variable {g : Circuit} {line before after : List Nat} {n w : Nat} {p : GateNode} {value : Bool}

/-! ### Cutting the program -/

/-- The declarations of a circuit followed by some of its gates. -/
def opening (g : Circuit) (before : List Nat) : Program :=
  g.declarations.map .declare ++ (g.listed before).map fun e ↦ .apply e.2

theorem applications_opening (g : Circuit) (before : List Nat) :
    (g.opening before).applications = (g.listed before).map Prod.snd := by
  simp [opening, Program.applications, Instruction.application?, List.filterMap_map,
    Function.comp_def]

/-- The program of a circuit up to a gate, the gate and the rest. -/
theorem Threaded.toProgram_split (h : g.Threaded line) (hline : line = before ++ n :: after)
    (hp : g.gate? n = some p) :
    g.toProgram = .ok (g.opening before ++
      .apply (g.applied p) :: (g.listed after).map fun e ↦ .apply e.2) := by
  rw [h.toProgram_ok, hline, opening, listed, List.map_append, List.map_cons, hp,
    List.map_append, List.map_cons, List.append_assoc]
  rfl

/-- Each gate before a gate has its application in the program before it. -/
theorem Threaded.mapM_application_opening (h : g.Threaded line)
    (hbefore : ∀ k ∈ before, (g.gate? k).isSome) :
    before.mapM g.application = .ok (g.opening before).applications := by
  rw [applications_opening, listed, List.map_map]
  refine Run.mapM_ok fun k hk ↦ ?_
  obtain ⟨q, hq⟩ := Option.isSome_iff_exists.mp (hbefore k hk)
  rw [h.application_ok hq, Function.comp_apply, hq]
  rfl

theorem act_opening (hbefore : ∀ k ∈ before, (g.gate? k).isSome) (place : Qubit → W)
    (ψ : State W R) :
    (g.opening before).act I place ψ =
      evolve (g.act I fun w ↦ place (g.qubitAt w)) before ψ := by
  rw [Program.act, applications_opening, evolve_listed hbefore]

/-! ### Decided guards -/

/-- On a state in which a wire is settled, a gate with a guard on the wire acts as without the
guards on it if they hold, and not at all if one of them fails. -/
theorem act_applied_of_settled {place : Qubit → W}
    (hspot : Set.InjOn (fun w ↦ place (g.qubitAt w)) {w | w < g.wires.length})
    (hwithin : ∀ v, p.touches v = true → v < g.wires.length) (hguard : p.isGuard w = true)
    (htarget : p.isTarget w = false) {ψ : State W R}
    (hψ : Settled (place (g.qubitAt w)) value ψ) :
    (g.applied p).act I place ψ =
      if Rule.triggers p w value then (g.applied (p.dropGuards w)).act I place ψ else ψ := by
  rw [act_applied, act_applied]
  split_ifs with htriggers
  · exact (GateNode.act_dropGuards hspot hwithin hguard htarget hψ htriggers).symm
  · exact GateNode.act_of_not_triggers hspot hwithin hguard htarget hψ
      (Bool.eq_false_iff.mpr htriggers)

/-- A computed state of a wire is the state of the wire. When the program of a circuit that edits
have made comes from the state in which every wire is zero to a gate, the wire has the value that
was computed for it in every basis state whose amplitude is not zero. On this state any gate with a
guard, and no target, on the wire acts as without its guards there, or not at all. -/
theorem Reachable.basisState_sound (hg : g.Reachable) (I : Interpretation R) {place : Qubit → W}
    (hplace : Set.InjOn place {q | q ∈ g.declarations.flatMap Declaration.qubits})
    (hp : g.gate? n = some p) (hon : p.touches w = true)
    (hstate : Rule.basisState g w n = .ok (some value)) :
    ∃ (before after : List Nat) (earlier later : Program) (x : Qubit),
      g.ordered = .ok (before ++ n :: after) ∧
      before.mapM g.application = .ok earlier.applications ∧
      g.toProgram = .ok (earlier ++ .apply (g.applied p) :: later) ∧
      g.qubitOf w = .ok x ∧
      (∀ b, b (place x) ≠ value → earlier.act I place (ground : State W R) b = 0) ∧
      ∀ q : GateNode, (∀ v, q.touches v = true → v < g.wires.length) → q.isGuard w = true →
        q.isTarget w = false →
        (g.applied q).act I place (earlier.act I place (ground : State W R)) =
          if Rule.triggers q w value then
            (g.applied (q.dropGuards w)).act I place (earlier.act I place ground)
          else earlier.act I place ground := by
  obtain ⟨line, h, hd⟩ := hg.threaded
  obtain ⟨before, after, hline⟩ := List.append_of_mem (h.mem_line_of_gate hp)
  have hbefore (k : Nat) (hk : k ∈ before) : (g.gate? k).isSome :=
    h.gate k (hline ▸ List.mem_append_left _ hk)
  have hspot := hd.injOn hplace
  have hw : w < g.wires.length := h.within n p w hp hon
  rw [h.basisState_eq hline (isOn_iff.mpr ⟨p, hp, hon⟩)] at hstate
  have hsettled : Settled (place (g.qubitAt w)) value
      ((g.opening before).act I place (ground : State W R)) := by
    rw [act_opening hbefore]
    exact settled_evolve h hspot hw (settled_ground _) hstate
  refine ⟨before, after, g.opening before, (g.listed after).map fun e ↦ .apply e.2, g.qubitAt w,
    hline ▸ h.ordered_ok, h.mapM_application_opening hbefore, h.toProgram_split hline hp,
    qubitOf_ok hw, hsettled, fun q hwithin hguard htarget ↦ ?_⟩
  exact act_applied_of_settled hspot hwithin hguard htarget hsettled

/-- An X and a Z on one wire, between gates that entangle the other two. Then a guard on the wire
holds, and two guards of different kinds on it never do. -/
theorem Reachable.basisState_sound_entangled :
    let q (i : Nat) : Qubit := ⟨"q", some i⟩
    let g := [Call.declare ⟨"q", some 3⟩, .apply ⟨.standard .h, [q 1], []⟩,
      .apply ⟨.standard .x, [q 0], []⟩, .apply ⟨.standard .cx, [q 1, q 2], []⟩,
      .apply ⟨.custom "spin" 0 [], [q 2], [⟨q 1, true⟩]⟩, .apply ⟨.standard .z, [q 0], []⟩,
      .apply ⟨.standard .x, [q 2], [⟨q 0, false⟩, ⟨q 1, false⟩]⟩].foldl
        (fun g c ↦ c.after g) Circuit.empty
    Rule.basisState g 0 11 = .ok (some true) ∧
      ∃ (p : GateNode) (earlier later : Program), g.gate? 11 = some p ∧
        g.toProgram = .ok (earlier ++ .apply (g.applied p) :: later) ∧
        (∀ b, b (q 0) ≠ true → earlier.act .mod17 id (ground : State Qubit (ZMod 17)) b = 0) ∧
        Application.act .mod17 id ⟨.standard .h, [q 2], [⟨q 0, false⟩, ⟨q 1, false⟩]⟩
            (earlier.act .mod17 id (ground : State Qubit (ZMod 17))) =
          Application.act .mod17 id ⟨.standard .h, [q 2], [⟨q 1, false⟩]⟩
            (earlier.act .mod17 id ground) ∧
        Application.act .mod17 id ⟨.standard .h, [q 2], [⟨q 0, false⟩, ⟨q 0, true⟩]⟩
            (earlier.act .mod17 id (ground : State Qubit (ZMod 17))) =
          earlier.act .mod17 id ground := by
  intro q g
  have hg : g.Reachable := List.foldlRecOn _ _ .empty fun _ hbefore _ _ ↦ .call _ hbefore
  have hstate : Rule.basisState g 0 11 = .ok (some true) := by decide +kernel
  have hon : g.isOn 0 11 = true := by decide +kernel
  have hx : g.qubitOf 0 = .ok (q 0) := by decide +kernel
  have hwires : g.wires.length = 3 := by decide +kernel
  have hqubit : ∀ i < 3, g.qubitAt i = q i := by decide +kernel
  clear_value g
  obtain ⟨p, hp, htouches⟩ := isOn_iff.mp hon
  obtain ⟨-, -, earlier, later, x, -, -, hprogram, hx', hzero, hact⟩ :=
    hg.basisState_sound .mod17 (Set.injOn_id _) hp htouches hstate
  cases hx.symm.trans hx'
  let holding : GateNode := ⟨.standard .h, [2], [⟨0, false⟩, ⟨1, false⟩], 0⟩
  let failing : GateNode := ⟨.standard .h, [2], [⟨0, false⟩, ⟨0, true⟩], 0⟩
  refine ⟨hstate, p, earlier, later, hp, hprogram, hzero, ?_, ?_⟩
  · have hkept := hact holding ?_ rfl rfl
    · simpa [holding, applied, GateNode.dropGuards, hqubit, Rule.triggers, GateNode.guardsOn]
        using hkept
    · intro v hv
      simp only [holding, GateNode.touches, GateNode.isTarget, GateNode.isGuard] at hv
      grind
  · have hidle := hact failing ?_ rfl rfl
    · simpa [failing, applied, hqubit, Rule.triggers, GateNode.guardsOn] using hidle
    · simp [failing, GateNode.touches, GateNode.isTarget, GateNode.isGuard, hwires]

end Circuit

end Peephole
