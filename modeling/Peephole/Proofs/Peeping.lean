import Peephole.Proofs.Settled
import Peephole.Proofs.Soundness

/-!
# The rule that decides guards

A circuit that starts with all wires at zero settles a wire as long as only unguarded X, Y and Z
gates on that wire alone are met (`settled_evolve`). This is what the state of a wire before a gate
is computed from (`Threaded.basisState_eq`). So a gate whose guard on that wire is decided can lose
the guard, or go, without a change of what the circuit makes of `ground` (`Regular.peep_keeps`).
-/

set_option autoImplicit false
set_option relaxedAutoImplicit false

namespace Peephole

universe u v

variable {R : Type u} [CommRing R] {W : Type v} [DecidableEq W] {I : Interpretation R}
  {spot : Nat → W}

namespace Circuit

variable {g g' : Circuit} {line before after : List Nat} {n w : Nat} {p : GateNode} {path : Path}
  {value value' : Bool} {ψ : State W R}

/-! ### The state of a wire -/

/-- Where the state of a wire after some gates is known, the first of them is an X, a Y or a Z on
that wire alone. -/
theorem stateAfter_cons {rest : List Nat}
    (h : Rule.stateAfter g w value (n :: rest) = .ok (some value')) :
    ∃ p, g.gate? n = some p ∧ p.guards = [] ∧ p.targets = [w] ∧
      ((p.gate = .standard .x ∨ p.gate = .standard .y) ∧
          Rule.stateAfter g w (!value) rest = .ok (some value') ∨
        p.gate = .standard .z ∧ Rule.stateAfter g w value rest = .ok (some value')) := by
  rw [Rule.stateAfter] at h
  split at h
  · cases h
  · rename_i p hp
    split at h
    · rename_i htest
      simp only [GateNode.isUnguarded, Bool.and_eq_true, List.isEmpty_iff, beq_iff_eq] at htest
      refine ⟨p, hp, htest.1, htest.2, ?_⟩
      split at h
      · exact .inl ⟨.inl ‹_›, h⟩
      · exact .inl ⟨.inr ‹_›, h⟩
      · exact .inr ⟨‹_›, h⟩
      · cases h
    · cases h

theorem settled_act_of_off (h : g.Threaded line) (hspot : Set.InjOn spot {w | w < g.wires.length})
    (hw : w < g.wires.length) (hoff : g.isOn w n = false) (hψ : Settled (spot w) value ψ) :
    Settled (spot w) value (g.act I spot n ψ) := by
  rw [act]
  cases hp : g.gate? n with
  | none => exact hψ
  | some p =>
    refine hψ.act_of_not_mem fun hmem ↦ ?_
    obtain ⟨t, ht, heq⟩ := List.mem_map.mp hmem
    have htouch : p.touches t = true := GateNode.touches_of_target ht
    rw [hspot (h.within n p t hp htouch) hw heq] at htouch
    rw [isOn, hp, Option.any_some, htouch] at hoff
    cases hoff

/-- The state of a wire is followed through the gates that are met. -/
theorem settled_evolve (h : g.Threaded line) (hspot : Set.InjOn spot {w | w < g.wires.length})
    (hw : w < g.wires.length) (hψ : Settled (spot w) value ψ)
    (hstate : Rule.stateAfter g w value (before.filter (g.isOn w)) = .ok (some value')) :
    Settled (spot w) value' (evolve (g.act I spot) before ψ) := by
  induction before generalizing value ψ with
  | nil =>
    cases hstate
    exact hψ
  | cons k rest ih =>
    rw [evolve_cons]
    by_cases hon : g.isOn w k = true
    · rw [List.filter_cons_of_pos hon] at hstate
      obtain ⟨p, hp, hguards, htargets, hcases⟩ := stateAfter_cons hstate
      have hact {kind : StandardGate} {m : Matrix Bool Bool R} (hm : I.fixed kind = some m)
          (hkind : p.gate = .standard kind) : g.act I spot k ψ = turn m [] (spot w) ψ := by
        rw [act_of_gate hp, GateNode.act_of_targets hkind htargets,
          Interpretation.act_singleton hm, GateNode.placedGuards, hguards]
        rfl
      rcases hcases with ⟨hgate | hgate, hrest⟩ | ⟨hgate, hrest⟩
      · refine ih ?_ hrest
        have hm : I.fixed .x = some Interpretation.pauliX := rfl
        rw [hact hm hgate]
        exact hψ.turn_antidiagonal fun x ↦ if_pos rfl
      · refine ih ?_ hrest
        have hm : I.fixed .y = some I.pauliY := rfl
        rw [hact hm hgate]
        exact hψ.turn_antidiagonal fun x ↦ if_pos rfl
      · refine ih ?_ hrest
        have hm : I.fixed .z = some Interpretation.pauliZ := rfl
        rw [hact hm hgate]
        exact hψ.turn_diagonal fun x ↦ if_neg (by simp)
    · rw [List.filter_cons_of_neg hon] at hstate
      exact ih (settled_act_of_off h hspot hw (Bool.eq_false_iff.mpr hon) hψ) hstate

/-- The state of a wire just before a gate is that after the gates before it. -/
theorem Threaded.basisState_eq (h : g.Threaded line) (hline : line = before ++ n :: after)
    (hon : g.isOn w n = true) :
    Rule.basisState g w n = Rule.stateAfter g w false (before.filter (g.isOn w)) := by
  obtain ⟨wire, hw⟩ := h.wire_of_isOn hon
  have hthread : g.thread line w = [] ++ wire.input ::
      ((before.filter (g.isOn w) ++ [n]) ++ (after.filter (g.isOn w) ++ [wire.output])) := by
    rw [thread_of_some hw, hline, List.filter_append, List.filter_cons_of_pos hon]
    simp
  have hpath := h.between_ok hthread
  rw [List.getLastD_concat] at hpath
  rw [Rule.basisState, inputOf_ok hw]
  change (Path.between g w wire.input n >>= _) = _
  rw [hpath]
  change Rule.stateAfter g w false (Path.inner _) = _
  rw [Path.inner, Path.window_links, List.dropLast_concat]

/-! ### Decided guards -/

/-- A guard is decided if it is not on a target and the state of its wire is known. -/
theorem peeps_eq_true :
    Rule.peeps g path = .ok true ↔
      ∃ n p value, path.window = [n] ∧ g.gate? n = some p ∧ p.isGuard path.wire = true ∧
        p.isTarget path.wire = false ∧ Rule.basisState g path.wire n = .ok (some value) := by
  constructor
  · intro h
    rw [Rule.peeps] at h
    split at h
    · rename_i n p hwindow
      obtain ⟨-, hnodes, hgates⟩ := gateWindow_eq_some.mp hwindow
      split at h
      · rename_i htest
        simp only [Bool.and_eq_true, Bool.not_eq_true'] at htest
        obtain ⟨state, hstate, hsome⟩ := Run.map_eq_ok.mp h
        obtain ⟨value, rfl⟩ := Option.isSome_iff_exists.mp hsome
        exact ⟨n, p, value, hnodes, hgates (n, p) (by simp), htest.1, htest.2, hstate⟩
      · cases h
    · cases h
  · rintro ⟨n, p, value, hwindow, hp, hguard, htarget, hstate⟩
    have hgates : g.gateWindow path Family.peepingControl.depth = some [(n, p)] :=
      gateWindow_eq_some.mpr ⟨rfl, hwindow, by simp [hp]⟩
    simp only [Rule.peeps, hgates, hguard, htarget, Bool.not_false, Bool.and_self, if_true, hstate]
    rfl

theorem last_of_window (h : path.window = [n]) : path.last = n := by
  rw [Path.last, h]
  rfl

theorem performPeep_eq_ok (hp : g.gate? path.last = some p)
    (hstate : Rule.basisState g path.wire path.last = .ok (some value)) :
    (Rule.performPeep path).run g = .ok () g' ↔
      if Rule.triggers p path.wire value then
        (removeGuards path.last path.wire).run g = .ok () g'
      else ∃ q, (remove path.last).run g = .ok q g' := by
  have hask : (Reduction.ask fun g ↦ Rule.basisState g path.wire path.last).run g =
      .ok (some value) g := Run.edit_eq_ok.mpr (Run.ask_ok hstate)
  rw [Rule.performPeep, Run.bind_ok hask]
  dsimp only
  rw [Run.bind_ok Run.get_ok, hp]
  dsimp only
  split
  · rw [Run.edit_eq_ok]
  · rw [Run.discard_eq_ok]
    simp only [Run.edit_eq_ok]

end Circuit

namespace GateNode

variable {p : GateNode} {w limit : Nat} {value : Bool} {ψ : State W R}

theorem Fits.dropGuards (h : p.Fits) (w : Nat) : (p.dropGuards w).Fits := by
  refine ⟨h.nodup, fun v hv ↦ h.apart v ?_, h.arity⟩
  exact List.map_subset _ (List.filter_subset_self _) hv

variable (hspot : Set.InjOn spot {w | w < limit})
  (hwithin : ∀ v, p.touches v = true → v < limit) (hguard : p.isGuard w = true)

include hspot hwithin hguard

omit [DecidableEq W] in
theorem eq_of_spot_eq {v : Nat} (hv : p.touches v = true) (heq : spot v = spot w) : v = w := by
  have hw : p.touches w = true := by
    rw [touches, hguard, Bool.or_true]
  exact hspot (hwithin v hv) (hwithin w hw) heq

omit [DecidableEq W] in
theorem spot_not_mem (htarget : p.isTarget w = false) : spot w ∉ p.targets.map spot := by
  intro hmem
  obtain ⟨t, ht, heq⟩ := List.mem_map.mp hmem
  have hsame := eq_of_spot_eq hspot hwithin hguard (touches_of_target ht) heq
  rw [isTarget_iff.mpr (hsame ▸ ht)] at htarget
  cases htarget

/-- Dropping the guards on a wire drops the guards on its place. -/
theorem placedGuards_dropGuards :
    (p.dropGuards w).placedGuards spot = (p.placedGuards spot).filter (·.1 ≠ spot w) := by
  rw [placedGuards, placedGuards, GateNode.dropGuards, List.filter_map]
  refine congrArg _ (List.filter_congr fun c hc ↦ ?_)
  have htouch : p.touches c.wire = true := touches_of_guard hc
  have hiff : c.wire = w ↔ spot c.wire = spot w :=
    ⟨congrArg spot, eq_of_spot_eq hspot hwithin hguard htouch⟩
  simp [hiff]

/-- Guards that hold on a settled wire are not needed. -/
theorem act_dropGuards (htarget : p.isTarget w = false) (hψ : Settled (spot w) value ψ)
    (htriggers : Rule.triggers p w value = true) :
    (p.dropGuards w).act I spot ψ = p.act I spot ψ := by
  have hnotin := spot_not_mem hspot hwithin hguard htarget
  rw [act, placedGuards_dropGuards hspot hwithin hguard]
  refine hψ.act_filter hnotin fun x hx heq ↦ ?_
  obtain ⟨c, hc, rfl⟩ := List.mem_map.mp hx
  have htouch : p.touches c.wire = true := touches_of_guard hc
  have hwire := eq_of_spot_eq hspot hwithin hguard htouch heq
  have hholds := List.all_eq_true.mp htriggers c (List.mem_filter.mpr ⟨hc, by simpa using hwire⟩)
  exact Ne.symm (by simpa using hholds)

/-- A gate with a guard that fails on a settled wire does nothing. -/
theorem act_of_not_triggers (htarget : p.isTarget w = false) (hψ : Settled (spot w) value ψ)
    (htriggers : Rule.triggers p w value = false) : p.act I spot ψ = ψ := by
  obtain ⟨c, hc, hfails⟩ := List.all_eq_false.mp htriggers
  obtain ⟨hmem, hwire⟩ := List.mem_filter.mp hc
  have hplaced : (spot c.wire, c.negated) ∈ p.placedGuards spot := List.mem_map.mpr ⟨c, hmem, rfl⟩
  refine hψ.act_eq_self (spot_not_mem hspot hwithin hguard htarget) hplaced ?_ ?_
  · rw [of_decide_eq_true hwire]
  · exact (by simpa using hfails : value = c.negated).symm

end GateNode

namespace Circuit

variable {g g' : Circuit} {line : List Nat} {path : Path}

/-- A gate with a guard on a wire in a known state can lose the guard, or go. -/
theorem Regular.peep_keeps (h : g.Regular line) (hspot : Set.InjOn spot {w | w < g.wires.length})
    (happlies : Rule.peeps g path = .ok true)
    (hrun : (Rule.performPeep path).run g = .ok () g') :
    ∃ line', Keeps I spot (· = ground) g line g' line' := by
  obtain ⟨n, p, value, hwindow, hp, hguard, htarget, hstate⟩ := peeps_eq_true.mp happlies
  obtain rfl := last_of_window hwindow
  rw [performPeep_eq_ok hp hstate] at hrun
  have hwithin := fun v ↦ h.within path.last p v hp
  have htouch : p.touches path.wire = true := by
    rw [GateNode.touches, hguard, Bool.or_true]
  obtain ⟨before, after, hline⟩ := List.append_of_mem (h.mem_line_of_gate hp)
  have hnodup : (before ++ path.last :: after).Nodup := hline ▸ h.nodup_line
  rw [h.basisState_eq hline (isOn_iff.mpr ⟨p, hp, htouch⟩)] at hstate
  have hsettled : Settled (spot path.wire) value (evolve (g.act I spot) before ground) :=
    settled_evolve h.toThreaded hspot (hwithin _ htouch) (settled_ground _) hstate
  split_ifs at hrun with htriggers
  · obtain ⟨q, -, hthreaded, hrevises⟩ := h.of_removeGuards hrun
    have hq : q = p := Option.some.inj (hrevises.old.symm.trans hp)
    subst hq
    refine ⟨line, h.of_revises hthreaded hrevises ((h.fits _ q hp).dropGuards _), hrevises.wires,
      hrevises.declarations, ?_⟩
    rintro ψ rfl
    rw [hrevises.act, hline]
    refine evolve_replace hnodup ?_
    rw [act_of_gate hp]
    exact GateNode.act_dropGuards hspot hwithin hguard htarget hsettled htriggers
  · obtain ⟨q, hremove⟩ := hrun
    have htriggers := Bool.eq_false_iff.mpr htriggers
    obtain ⟨hthreaded, hrevises⟩ := h.of_remove hremove
    have hremoved : Removed [path.last] g g' := ⟨q, g', hremove, rfl⟩
    refine ⟨without line [path.last], (h.of_removed hremoved).1, hrevises.wires,
      hrevises.declarations, ?_⟩
    rintro ψ rfl
    have hidle : evolve (g'.act I spot) line ground = evolve (g.act I spot) line ground := by
      rw [hrevises.act, hline]
      refine evolve_replace hnodup ?_
      rw [act_of_gate hp]
      exact (GateNode.act_of_not_triggers hspot hwithin hguard htarget hsettled htriggers).symm
    rw [← hidle]
    refine (evolve_skip ?_ ground).symm
    rw [hrevises.act, Function.update_self]
    rfl

end Circuit

end Peephole
