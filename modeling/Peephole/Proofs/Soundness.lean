import Peephole.Proofs.Identities
import Peephole.Proofs.Matches
import Peephole.Proofs.Meaning

/-!
# Rules that keep the operator of a circuit

A rule that applies to a stretch of a wire and is carried out there leaves a regular circuit on the
same wires (`Keeps`). The rules of three families keep what the circuit does to every state: equal
neighbours cancel (`Regular.cancel_keeps`), a gate between Hadamards is replaced
(`Regular.sandwich_keeps`), and a controlled not between Hadamards is turned around
(`Regular.reverse_keeps`). In each case the gates that go are first merged into the one that stays,
which they reach past gates they have no wire in common with.
-/

set_option autoImplicit false
set_option relaxedAutoImplicit false

namespace Peephole

universe u v

variable {R : Type u} [CommRing R] {W : Type v} [DecidableEq W] {I : Interpretation R}
  {spot : Nat → W}

/-! ### Gates with a fixed meaning -/

namespace Gate

variable {gate : Gate} {kind : StandardGate}

theorem eq_of_is (hkind : (Gate.standard kind).fixedArity? = some 1) (h : gate.is kind = true) :
    gate = .standard kind := by
  cases gate with
  | custom name arity params => cases h
  | standard other =>
    cases kind <;> cases hkind <;> cases other <;> first | rfl | exact absurd h Bool.false_ne_true

theorem eq_of_beq (hkind : (Gate.standard kind).fixedArity? = some 1)
    (h : (Gate.standard kind == gate) = true) : gate = .standard kind := by
  cases gate with
  | custom name arity params => cases h
  | standard other =>
    cases kind <;> cases hkind <;> cases other <;> first | rfl | exact absurd h Bool.false_ne_true

end Gate

theorem Interpretation.fixedArity_of_fixed {kind : StandardGate} {m : Matrix Bool Bool R}
    (hm : I.fixed kind = some m) : (Gate.standard kind).fixedArity? = some 1 := by
  cases kind <;> cases hm <;> rfl

namespace GateNode

variable {p q : GateNode} {kind : StandardGate} {limit t : Nat}

theorem act_of_targets (hgate : p.gate = .standard kind) (htargets : p.targets = [t]) :
    p.act I spot = I.act (.standard kind) (p.placedGuards spot) [spot t] := by
  rw [act, hgate, htargets]
  rfl

omit [DecidableEq W] in
/-- No guard of a gate is placed on a target. -/
theorem Fits.guard_ne (hp : p.Fits) (hspot : Set.InjOn spot {w | w < limit})
    (hwithin : ∀ w, p.touches w = true → w < limit) (ht : t ∈ p.targets) :
    ∀ c ∈ p.placedGuards spot, c.1 ≠ spot t := by
  intro x hx heq
  obtain ⟨c, hc, rfl⟩ := List.mem_map.mp hx
  have hsame := hspot (hwithin c.wire (touches_of_guard hc))
    (hwithin t (touches_of_target ht)) heq
  exact hp.apart c.wire (List.mem_map_of_mem hc) (hsame ▸ ht)

theorem Fits.exists_target (hp : p.Fits) (hgate : p.gate = .standard kind)
    (hkind : (Gate.standard kind).fixedArity? = some 1) : ∃ t, p.targets = [t] :=
  List.length_eq_one_iff.mp (hp.arity 1 (hgate ▸ hkind))

theorem of_sameEffect (h : p.sameEffect q = true) :
    (p.gate == q.gate) = true ∧ q.targets = p.targets ∧ p.guards ⊆ q.guards ∧
      q.guards ⊆ p.guards := by
  simp only [sameEffect, guardsWithin, Bool.and_eq_true, List.all_eq_true, List.contains_iff_mem,
    beq_iff_eq] at h
  exact ⟨h.1.1.1, h.1.1.2.symm, h.1.2, h.2⟩

theorem act_of_sameEffect (h : p.sameEffect q = true) (hgate : q.gate = p.gate) :
    q.act I spot = p.act I spot := by
  obtain ⟨-, htargets, hsub, hsub'⟩ := of_sameEffect h
  rw [act, act, hgate, htargets]
  exact I.act_congr (List.map_subset _ hsub') (List.map_subset _ hsub)

theorem touches_of_subset (htargets : q.targets = p.targets) (hguards : p.guards ⊆ q.guards)
    {w : Nat} (hw : p.touches w = true) : q.touches w = true := by
  rw [touches_iff] at hw ⊢
  rw [htargets]
  exact hw.imp_right fun hguard ↦ List.map_subset _ hguards hguard

theorem touches_of_sameEffect (h : p.sameEffect q = true) (w : Nat) :
    q.touches w = true ↔ p.touches w = true := by
  obtain ⟨-, htargets, hsub, hsub'⟩ := of_sameEffect h
  exact ⟨touches_of_subset htargets.symm hsub', touches_of_subset htargets hsub⟩

theorem isPlain_iff :
    p.isPlain kind t = true ↔ p.gate.is kind = true ∧ p.guards = [] ∧ p.targets = [t] := by
  simp only [isPlain, isUnguarded, Bool.and_eq_true, List.isEmpty_iff, beq_iff_eq, and_assoc]

theorem eq_of_touches_plain (h : p.isPlain kind t = true) {w : Nat} (hw : p.touches w = true) :
    w = t := by
  obtain ⟨-, hguards, htargets⟩ := isPlain_iff.mp h
  rw [touches_iff, guardWires, hguards, htargets] at hw
  simpa using hw

/-- A plain Hadamard turns its wire. -/
theorem act_of_isPlain (h : p.isPlain .h t = true) :
    p.act I spot = turn I.hadamard [] (spot t) := by
  obtain ⟨his, hguards, htargets⟩ := isPlain_iff.mp h
  have hfixed : I.fixed .h = some I.hadamard := rfl
  rw [act_of_targets (Gate.eq_of_is rfl his) htargets, Interpretation.act_singleton hfixed,
    placedGuards, hguards]
  rfl

/-! ### Controlled nots -/

/-- A gate that flips a wire where another one is one, written in either of two ways. -/
def FlipsUnder (p : GateNode) (t c : Nat) : Prop :=
  p.gate = .standard .cx ∧ p.targets = [c, t] ∧ p.guards = [] ∨
    p.gate = .standard .x ∧ p.targets = [t] ∧ p.guards = [⟨c, false⟩]

theorem controlOf_eq_some {c : Nat} :
    Rule.controlOf p t = some c ↔ c ≠ t ∧ p.FlipsUnder t c := by
  constructor
  · intro h
    rw [Rule.controlOf] at h
    split at h
    · rename_i hgate
      split at h
      · rename_i control u htargets
        split at h
        · rename_i htest
          simp only [isUnguarded, Bool.and_eq_true, List.isEmpty_iff, decide_eq_true_eq] at htest
          obtain ⟨⟨hguards, rfl⟩, hne⟩ := htest
          cases h
          exact ⟨hne, .inl ⟨hgate, htargets, hguards⟩⟩
        · cases h
      · cases h
    · rename_i hgate
      split at h
      · rename_i d hguards
        split at h
        · rename_i htest
          simp only [Bool.and_eq_true, Bool.not_eq_true', beq_iff_eq, decide_eq_true_eq] at htest
          obtain ⟨⟨hplain, hne⟩, htargets⟩ := htest
          cases h
          exact ⟨hne, .inr ⟨hgate, htargets, by rw [hguards, ← hplain]⟩⟩
        · cases h
      · cases h
    · cases h
  · rintro ⟨hne, ⟨hgate, htargets, hguards⟩ | ⟨hgate, htargets, hguards⟩⟩
    · simp [Rule.controlOf, hgate, htargets, isUnguarded, hguards, hne]
    · simp [Rule.controlOf, hgate, htargets, hguards, hne]

theorem FlipsUnder.touches {c : Nat} (h : p.FlipsUnder t c) :
    p.touches t = true ∧ p.touches c = true := by
  rw [touches_iff, touches_iff, guardWires]
  rcases h with ⟨-, htargets, hguards⟩ | ⟨-, htargets, hguards⟩
  · simp [htargets]
  · simp [htargets, hguards]

theorem FlipsUnder.act {c : Nat} (h : p.FlipsUnder t c) (hne : spot c ≠ spot t) :
    p.act I spot = turn Interpretation.pauliX [(spot c, false)] (spot t) := by
  have hfixed : I.fixed .x = some Interpretation.pauliX := rfl
  rcases h with ⟨hgate, htargets, hguards⟩ | ⟨hgate, htargets, hguards⟩
  · rw [GateNode.act, placedGuards, hgate, htargets, hguards]
    exact Interpretation.act_controlledNot hne
  · rw [act_of_targets hgate htargets, Interpretation.act_singleton hfixed, placedGuards, hguards]
    rfl

/-- A controlled not that changes direction is a controlled not in the other direction. -/
theorem FlipsUnder.reversed {c : Nat} (h : p.FlipsUnder t c) :
    FlipsUnder { p with
      targets := (Rule.reversed p t c).1, guards := (Rule.reversed p t c).2 } c t := by
  rcases h with ⟨hgate, htargets, hguards⟩ | ⟨hgate, htargets, hguards⟩
  · have hrev : Rule.reversed p t c = ([t, c], []) := if_pos (by simp [isUnguarded, hguards])
    rw [hrev]
    exact .inl ⟨hgate, rfl, rfl⟩
  · have hrev : Rule.reversed p t c = ([c], [⟨t, false⟩]) := if_neg (by simp [isUnguarded, hguards])
    rw [hrev]
    exact .inr ⟨hgate, rfl, rfl⟩

theorem FlipsUnder.fits {c : Nat} (h : p.FlipsUnder t c) (hne : c ≠ t) : p.Fits := by
  rcases h with ⟨hgate, htargets, hguards⟩ | ⟨hgate, htargets, hguards⟩
  · refine ⟨?_, ?_, fun k hk ↦ ?_⟩
    · simp [htargets, hne]
    · simp [guardWires, hguards]
    · rw [hgate] at hk
      cases hk
      simp [htargets]
  · refine ⟨?_, ?_, fun k hk ↦ ?_⟩
    · simp [htargets]
    · simp [guardWires, hguards, htargets, hne]
    · rw [hgate] at hk
      cases hk
      simp [htargets]

end GateNode

namespace Circuit

variable {g g' t : Circuit} {line ns : List Nat} {n k : Nat} {p q : GateNode} {path : Path}

/-! ### Merging gates -/

/-- One circuit does to some states what another one does, on the same wires. -/
structure Keeps (I : Interpretation R) (spot : Nat → W) (good : State W R → Prop) (g : Circuit)
    (line : List Nat) (g' : Circuit) (line' : List Nat) : Prop where
  regular : g'.Regular line'
  wires : g'.wires = g.wires
  declarations : g'.declarations = g.declarations
  same : ∀ ψ, good ψ → evolve (g'.act I spot) line' ψ = evolve (g.act I spot) line ψ

theorem Regular.of_revises (h : g.Regular line) (ht : g'.Threaded line)
    (hr : g.Revises g' n p (some q)) (hq : q.Fits) : g'.Regular line := by
  refine ⟨ht, fun m r hm ↦ ?_⟩
  rw [hr.gate?] at hm
  split at hm
  · rw [← Option.some.inj hm]
    exact hq
  · exact h.fits m r hm

/-- A circuit in which some gates have been removed and one gate has been replaced does what the
line of the gates that are left does with the new operation of that gate. -/
theorem Regular.keeps_of_revised (h : g.Regular line) (hremoved : Removed ns g t)
    (ht : g'.Threaded (without line ns)) (hr : t.Revises g' n p (some q)) (hq : q.Fits)
    (hsame : ∀ ψ, evolve (g.act I spot) line ψ =
      evolve (Function.update (g.act I spot) n (q.act I spot)) (without line ns) ψ) :
    Keeps I spot (fun _ ↦ True) g line g' (without line ns) := by
  obtain ⟨hregular, hwires, hdeclarations, hgate, -, -⟩ := h.of_removed hremoved
  refine ⟨hregular.of_revises ht hr hq, hr.wires.trans hwires,
    hr.declarations.trans hdeclarations, fun ψ _ ↦ ?_⟩
  rw [hsame, hr.act]
  refine evolve_congr (fun k hk ↦ ?_) ψ
  by_cases hkn : k = n
  · rw [hkn, Function.update_self, Function.update_self]
    rfl
  · rw [Function.update_of_ne hkn, Function.update_of_ne hkn, act, act, hgate,
      if_neg (mem_without.mp hk).2]

/-! ### Neighbours that cancel -/

/-- Two gates cancel if they have the same effect and are neighbours on all of their wires. -/
theorem cancels_eq_true {gate : StandardGate} :
    Rule.cancels gate g path = .ok true ↔
      ∃ first p second q, path.window = [first, second] ∧ g.gate? first = some p ∧
        g.gate? second = some q ∧ p.gate.is gate = true ∧ p.sameEffect q = true ∧
        ∀ w, p.touches w = true → g.nextOn first w = .ok second := by
  have hfollows {first second : Nat} {p : GateNode} (hp : g.gate? first = some p) :
      Rule.followsOnAll g first second = .ok true ↔
        ∀ w, p.touches w = true → g.nextOn first w = .ok second := by
    rw [Rule.followsOnAll, hp]
    refine Run.allM_eq_true.trans (forall_congr' fun w ↦ ?_)
    simp [GateNode.mem_wires, Run.map_eq_ok]
  constructor
  · intro h
    rw [Rule.cancels] at h
    split at h
    · rename_i first p second q hwindow
      obtain ⟨-, hnodes, hgates⟩ := gateWindow_eq_some.mp hwindow
      have hp : g.gate? first = some p := hgates (first, p) (by simp)
      split at h
      · rename_i hsame
        rw [Bool.and_eq_true] at hsame
        exact ⟨first, p, second, q, hnodes, hp, hgates (second, q) (by simp), hsame.1, hsame.2,
          (hfollows hp).mp h⟩
      · cases h
    · cases h
  · rintro ⟨first, p, second, q, hwindow, hp, hq, his, hsame, hnext⟩
    have hgates : g.gateWindow path Family.nullGate.depth = some [(first, p), (second, q)] :=
      gateWindow_eq_some.mpr ⟨rfl, hwindow, by simp [hp, hq]⟩
    simp only [Rule.cancels, hgates, his, hsame, Bool.and_self, if_true]
    exact (hfollows hp).mpr hnext

/-- Removing a gate as the first step of a rule. -/
theorem remove_step_eq_ok {rest : Reduction Unit} :
    (discard (Reduction.edit (remove n)) >>= fun _ ↦ rest).run g = .ok () g' ↔
      ∃ p t, (remove n).run g = .ok p t ∧ rest.run t = .ok () g' := by
  rw [Run.steps_eq_ok]
  constructor
  · rintro ⟨⟨⟩, t, hremove, hrest⟩
    obtain ⟨p, hremove⟩ := Run.discard_eq_ok.mp hremove
    exact ⟨p, t, Run.edit_eq_ok.mp hremove, hrest⟩
  · rintro ⟨p, t, hremove, hrest⟩
    exact ⟨(), t, Run.discard_ok (Run.edit_eq_ok.mpr hremove), hrest⟩

theorem performCancel_eq_ok {gate : StandardGate} {first second : Nat}
    (hwindow : path.window = [first, second]) :
    (Rule.performCancel gate path).run g = .ok () g' ↔ Removed [first, second] g g' := by
  rw [Rule.performCancel, hwindow, remove_step_eq_ok]
  simp only [Removed, Run.discard_eq_ok, Run.edit_eq_ok]
  refine exists₂_congr fun p t ↦ and_congr_right fun _ ↦ exists_congr fun q ↦ ?_
  exact ⟨fun h ↦ ⟨g', h, rfl⟩, fun ⟨_, h, heq⟩ ↦ heq ▸ h⟩

/-- Two equal neighbours that undo each other can be removed. -/
theorem Regular.cancel_keeps (h : g.Regular line)
    (hspot : Set.InjOn spot {w | w < g.wires.length}) {gate : StandardGate}
    {m : Matrix Bool Bool R} (hm : I.fixed gate = some m)
    (happlies : Rule.cancels gate g path = .ok true)
    (hrun : (Rule.performCancel gate path).run g = .ok () g') :
    ∃ line', Keeps I spot (fun _ ↦ True) g line g' line' := by
  obtain ⟨first, p, second, q, hwindow, hp, hq, his, hsame, hnext⟩ := cancels_eq_true.mp happlies
  obtain ⟨hregular, hwires, hdeclarations, hgate, -, -⟩ :=
    h.of_removed ((performCancel_eq_ok hwindow).mp hrun)
  refine ⟨_, hregular, hwires, hdeclarations, fun ψ _ ↦ ?_⟩
  have hkind := Interpretation.fixedArity_of_fixed hm
  have hpgate := Gate.eq_of_is hkind his
  obtain ⟨w, hw⟩ := (h.fits first p hp).exists_target hpgate hkind
  have htarget : w ∈ p.targets := by
    rw [hw]
    exact List.mem_singleton_self w
  have hfollows : Follows line
      (fun k ↦ Function.Commute (g.act I spot first) (g.act I spot k)) first second :=
    h.follows_comm hspot (by rw [hp]; rfl) (by rw [hq]; rfl) hp
      (GateNode.touches_iff.mpr (.inl htarget)) fun v hv ↦ h.nextOn_eq_ok.mp (hnext v hv)
  have hundo : g.act I spot second ∘ g.act I spot first = id := by
    have hqgate : q.gate = p.gate := by
      rw [hpgate]
      exact Gate.eq_of_beq hkind (hpgate ▸ (GateNode.of_sameEffect hsame).1)
    have hguard := (h.fits first p hp).guard_ne hspot (fun v ↦ h.within first p v hp) htarget
    funext φ
    rw [act_of_gate hp, act_of_gate hq, GateNode.act_of_sameEffect hsame hqgate,
      GateNode.act_of_targets hpgate hw, Function.comp_apply, Interpretation.act_act hm hguard]
    rfl
  calc
    evolve (g'.act I spot) (without line [first, second]) ψ =
        evolve (Function.update (g.act I spot) second id) (without line [first, second]) ψ := by
      refine evolve_congr (fun k hk ↦ ?_) ψ
      have hk := (mem_without.mp hk).2
      have hne : k ≠ second := fun heq ↦ hk (by simp [heq])
      rw [Function.update_of_ne hne, act, act, hgate, if_neg hk]
    _ = evolve (Function.update (g.act I spot) second id) (without line [first]) ψ := by
      have hid : Function.update (g.act I spot) second id second = id := by
        rw [Function.update_self]
      exact (evolve_skip hid ψ).symm
    _ = evolve (Function.update (g.act I spot) second (g.act I spot second)) line ψ := by
      rw [← hundo]
      exact (hfollows.merge_before h.nodup_line List.not_mem_nil List.not_mem_nil _ ψ).symm
    _ = evolve (g.act I spot) line ψ := by
      rw [Function.update_eq_self]

/-! ### Gates between Hadamards -/

/-- Three neighbours on the wire of a path: a gate of some kind on that wire between two equal
Hadamards, which have some of its guards and are its neighbours on the wires of these as well. -/
structure Sandwiched (g : Circuit) (path : Path) (kind : StandardGate) (first second third : Nat)
    (opening inner closing : GateNode) : Prop where
  window : path.window = [first, second, third]
  opening_at : g.gate? first = some opening
  inner_at : g.gate? second = some inner
  closing_at : g.gate? third = some closing
  hadamard : opening.gate.is .h = true
  outer_target : opening.targets = [path.wire]
  same : opening.sameEffect closing = true
  middle : inner.gate.is kind = true
  inner_target : inner.targets = [path.wire]
  guards : opening.guards ⊆ inner.guards
  next : ∀ c ∈ opening.guards,
    g.nextOn first c.wire = .ok second ∧ g.nextOn second c.wire = .ok third

theorem sandwiches_eq_true {kind : StandardGate} :
    Rule.sandwiches kind g path = .ok true ↔ ∃ first second third opening inner closing,
      Sandwiched g path kind first second third opening inner closing := by
  have hsteps {first second third : Nat} {c : WireGuard} :
      (do if (← g.nextOn first c.wire) = second then
            return decide ((← g.nextOn second c.wire) = third)
          return false : Except CircuitFault Bool) = .ok true ↔
        g.nextOn first c.wire = .ok second ∧ g.nextOn second c.wire = .ok third := by
    constructor
    · intro h
      obtain ⟨k, hk, hrest⟩ := Run.bind_eq_ok.mp h
      split at hrest
      · rename_i hsecond
        obtain ⟨k', hk', hthird⟩ := Run.bind_eq_ok.mp hrest
        have hthird : k' = third := of_decide_eq_true (Except.ok.inj hthird)
        exact ⟨hsecond ▸ hk, hthird ▸ hk'⟩
      · cases hrest
    · rintro ⟨hsecond, hthird⟩
      refine Run.bind_eq_ok.mpr ⟨second, hsecond, ?_⟩
      rw [if_pos rfl]
      exact Run.bind_eq_ok.mpr ⟨third, hthird, congrArg Except.ok (decide_eq_true rfl)⟩
  constructor
  · intro h
    rw [Rule.sandwiches] at h
    split at h
    · rename_i first opening second inner third closing hwindow
      obtain ⟨-, hnodes, hgates⟩ := gateWindow_eq_some.mp hwindow
      split at h
      · rename_i htest
        simp only [Bool.and_eq_true, beq_iff_eq, GateNode.guardsWithin, List.all_eq_true,
          List.contains_iff_mem] at htest
        obtain ⟨⟨⟨⟨⟨hhadamard, houter⟩, hsame⟩, hmiddle⟩, hinner⟩, hguards⟩ := htest
        exact ⟨first, second, third, opening, inner, closing, hnodes,
          hgates (first, opening) (by simp), hgates (second, inner) (by simp),
          hgates (third, closing) (by simp), hhadamard, houter, hsame, hmiddle, hinner, hguards,
          fun c hc ↦ hsteps.mp (Run.allM_eq_true.mp h c hc)⟩
      · cases h
    · cases h
  · rintro ⟨first, second, third, opening, inner, closing, hs⟩
    have hgates : g.gateWindow path Family.hSandwich.depth =
        some [(first, opening), (second, inner), (third, closing)] :=
      gateWindow_eq_some.mpr ⟨rfl, hs.window, by simp [hs.opening_at, hs.inner_at, hs.closing_at]⟩
    have hguards : opening.guardsWithin inner = true := by
      simp only [GateNode.guardsWithin, List.all_eq_true, List.contains_iff_mem]
      exact hs.guards
    simp only [Rule.sandwiches, hgates, hs.hadamard, hs.outer_target, hs.same, hs.middle,
      hs.inner_target, hguards, BEq.rfl, Bool.and_self, if_true]
    exact Run.allM_eq_true.mpr fun c hc ↦ hsteps.mpr (hs.next c hc)

namespace Sandwiched

variable {kind replacement : StandardGate} {first second third : Nat}
  {opening inner closing : GateNode}
  (hs : Sandwiched g path kind first second third opening inner closing)

include hs

theorem opening_touches : opening.touches path.wire = true :=
  GateNode.touches_of_target (by simp [hs.outer_target])

/-- The three gates are neighbours on every wire of the Hadamards. -/
theorem neighbours (h : g.Threaded line)
    (hstretch : path.window.IsInfix (g.thread line path.wire)) {v : Nat}
    (hv : opening.touches v = true) :
    [first, second].IsInfix (g.thread line v) ∧ [second, third].IsInfix (g.thread line v) := by
  rcases GateNode.touches_iff.mp hv with hv | hv
  · rw [hs.outer_target, List.mem_singleton] at hv
    subst hv
    rw [hs.window] at hstretch
    exact h.isInfix_triple.mp hstretch
  · obtain ⟨c, hc, rfl⟩ := List.mem_map.mp hv
    exact (hs.next c hc).imp h.nextOn_eq_ok.mp h.nextOn_eq_ok.mp

/-- Both Hadamards can be moved to the gate between them. -/
theorem follows (h : g.Threaded line) (hspot : Set.InjOn spot {w | w < g.wires.length})
    (hstretch : path.window.IsInfix (g.thread line path.wire)) :
    Follows line (fun k ↦ Function.Commute (g.act I spot first) (g.act I spot k)) first second ∧
      Follows line (fun k ↦ Function.Commute (g.act I spot third) (g.act I spot k))
        second third := by
  have hfirst : (g.gate? first).isSome := by rw [hs.opening_at]; rfl
  have hsecond : (g.gate? second).isSome := by rw [hs.inner_at]; rfl
  have hthird : (g.gate? third).isSome := by rw [hs.closing_at]; rfl
  have hclosing : closing.touches path.wire = true :=
    (GateNode.touches_of_sameEffect hs.same _).mpr hs.opening_touches
  constructor
  · exact h.follows_comm hspot hfirst hsecond hs.opening_at hs.opening_touches fun v hv ↦
      (hs.neighbours h hstretch hv).1
  · exact h.follows_comm hspot hsecond hthird hs.closing_at hclosing fun v hv ↦
      (hs.neighbours h hstretch ((GateNode.touches_of_sameEffect hs.same v).mp hv)).2

/-- The three gates together act as the conjugate of the one in the middle. -/
theorem act_eq (h : g.Regular line) (hspot : Set.InjOn spot {w | w < g.wires.length})
    (hpair : Interpretation.Conjugate kind replacement) :
    g.act I spot third ∘ g.act I spot second ∘ g.act I spot first =
      GateNode.act I spot { inner with gate := .standard replacement } := by
  have hgateH : opening.gate = .standard .h := Gate.eq_of_is rfl hs.hadamard
  have hgateM : inner.gate = .standard kind := by
    refine Gate.eq_of_is ?_ hs.middle
    rcases hpair with ⟨rfl, -⟩ | ⟨rfl, -⟩ <;> rfl
  have hgateC : closing.gate = opening.gate := by
    rw [hgateH]
    exact Gate.eq_of_beq rfl (hgateH ▸ (GateNode.of_sameEffect hs.same).1)
  have hnew : GateNode.act I spot { inner with gate := .standard replacement } =
      I.act (.standard replacement) (inner.placedGuards spot) [spot path.wire] :=
    GateNode.act_of_targets rfl hs.inner_target
  have htarget : path.wire ∈ inner.targets := by simp [hs.inner_target]
  have hguard := (h.fits second inner hs.inner_at).guard_ne hspot
    (fun v ↦ h.within second inner v hs.inner_at) htarget
  funext φ
  rw [hnew, act_of_gate hs.opening_at, act_of_gate hs.inner_at, act_of_gate hs.closing_at,
    GateNode.act_of_sameEffect hs.same hgateC, GateNode.act_of_targets hgateH hs.outer_target,
    GateNode.act_of_targets hgateM hs.inner_target]
  exact Interpretation.act_sandwich hpair hguard (List.map_subset _ hs.guards) φ

end Sandwiched

theorem performSandwich_eq_ok {kind replacement : StandardGate} {first second third : Nat}
    (hwindow : path.window = [first, second, third]) :
    (Rule.performSandwich kind replacement path).run g = .ok () g' ↔
      ∃ t, Removed [first, third] g t ∧
        (setGate second (.standard replacement)).run t = .ok () g' := by
  rw [Rule.performSandwich, hwindow, remove_step_eq_ok]
  simp only [remove_step_eq_ok, Run.edit_eq_ok, Removed]
  constructor
  · rintro ⟨p, s, hfirst, q, t, hthird, hset⟩
    exact ⟨t, ⟨p, s, hfirst, q, t, hthird, rfl⟩, hset⟩
  · rintro ⟨t, ⟨p, s, hfirst, q, t', hthird, rfl⟩, hset⟩
    exact ⟨p, s, hfirst, q, t, hthird, hset⟩

/-- A gate between two Hadamards can be replaced by its conjugate. -/
theorem Regular.sandwich_keeps (h : g.Regular line)
    (hspot : Set.InjOn spot {w | w < g.wires.length}) {kind replacement : StandardGate}
    (hpair : Interpretation.Conjugate kind replacement)
    (happlies : Rule.sandwiches kind g path = .ok true)
    (hstretch : path.window.IsInfix (g.thread line path.wire))
    (hrun : (Rule.performSandwich kind replacement path).run g = .ok () g') :
    ∃ line', Keeps I spot (fun _ ↦ True) g line g' line' := by
  obtain ⟨first, second, third, opening, inner, closing, hs⟩ := sandwiches_eq_true.mp happlies
  obtain ⟨t, hremoved, hset⟩ := (performSandwich_eq_ok hs.window).mp hrun
  obtain ⟨ht, -, -, -, hnodup, -⟩ := h.of_removed hremoved
  obtain ⟨p, hthreaded, hrevises⟩ := ht.of_setGate hset
  obtain ⟨-, hold⟩ := h.of_removed_of_revises hremoved hrevises
  have hp : p = inner := Option.some.inj (hold.symm.trans hs.inner_at)
  subst hp
  have hfits : GateNode.Fits { p with gate := .standard replacement } := by
    obtain ⟨hnodup, hapart, -⟩ := h.fits second p hs.inner_at
    have hreplacement : (Gate.standard replacement).fixedArity? = some 1 := by
      rcases hpair with ⟨-, rfl⟩ | ⟨-, rfl⟩ <;> rfl
    refine ⟨hnodup, hapart, fun k hk ↦ ?_⟩
    rw [hreplacement, Option.some.injEq] at hk
    rw [hs.inner_target, ← hk]
    rfl
  refine ⟨_, h.keeps_of_revised hremoved hthreaded hrevises hfits fun ψ ↦ ?_⟩
  obtain ⟨hbefore, hafter⟩ := hs.follows (I := I) h.toThreaded hspot hstretch
  calc
    evolve (g.act I spot) line ψ =
        evolve (Function.update (g.act I spot) second (g.act I spot second)) line ψ := by
      rw [Function.update_eq_self]
    _ = evolve (Function.update (g.act I spot) second (GateNode.act I spot _))
        (without line [first, third]) ψ := by
      rw [← hs.act_eq h hspot hpair]
      exact hbefore.merge_around h.nodup_line List.not_mem_nil hafter hnodup _ ψ

/-! ### Controlled nots between Hadamards -/

/-- A gate that is a Hadamard on one wire, without guards. -/
def IsHadamardOn (g : Circuit) (n w : Nat) : Prop :=
  ∃ p, g.gate? n = some p ∧ p.isPlain .h w = true

namespace IsHadamardOn

variable {a b w : Nat}

theorem isSome (h : g.IsHadamardOn n w) : (g.gate? n).isSome := by
  obtain ⟨p, hp, -⟩ := h
  rw [hp]
  rfl

theorem act_eq (h : g.IsHadamardOn n w) : g.act I spot n = turn I.hadamard [] (spot w) := by
  obtain ⟨p, hp, hplain⟩ := h
  rw [act_of_gate hp, GateNode.act_of_isPlain hplain]

/-- A Hadamard on one wire commutes with everything between neighbours on that wire. -/
theorem follows (hn : g.IsHadamardOn n w) (h : g.Threaded line)
    (hspot : Set.InjOn spot {w | w < g.wires.length}) (ha : (g.gate? a).isSome)
    (hb : (g.gate? b).isSome) (hnext : [a, b].IsInfix (g.thread line w)) :
    Follows line (fun k ↦ Function.Commute (g.act I spot n) (g.act I spot k)) a b := by
  obtain ⟨p, hp, hplain⟩ := hn
  have hon : p.touches w = true := by
    rw [GateNode.touches_iff, (GateNode.isPlain_iff.mp hplain).2.2]
    exact .inl (List.mem_singleton_self w)
  refine h.follows_comm hspot ha hb hp hon fun v hv ↦ ?_
  rw [GateNode.eq_of_touches_plain hplain hv]
  exact hnext

end IsHadamardOn

theorem controlHadamards_eq_some {c before after : Nat} :
    Rule.controlHadamards g n c = .ok (some (before, after)) ↔
      g.prevOn n c = .ok before ∧ g.nextOn n c = .ok after ∧
        g.IsHadamardOn before c ∧ g.IsHadamardOn after c := by
  constructor
  · intro h
    obtain ⟨b, hb, h⟩ := Run.bind_eq_ok.mp h
    obtain ⟨a, ha, h⟩ := Run.bind_eq_ok.mp h
    dsimp only at h
    split at h
    · rename_i hplain
      cases h
      obtain ⟨hp, hq⟩ := (Bool.and_eq_true _ _).mp hplain
      exact ⟨hb, ha, (Option.any_eq_true _ _).mp hp, (Option.any_eq_true _ _).mp hq⟩
    · cases h
  · rintro ⟨hb, ha, hbefore, hafter⟩
    refine Run.bind_eq_ok.mpr ⟨before, hb, Run.bind_eq_ok.mpr ⟨after, ha, ?_⟩⟩
    have hp : (g.gate? before).any (·.isPlain .h c) = true := (Option.any_eq_true _ _).mpr hbefore
    have hq : (g.gate? after).any (·.isPlain .h c) = true := (Option.any_eq_true _ _).mpr hafter
    exact congrArg Except.ok (if_pos (by simp [hp, hq]))

theorem reverses_eq_true :
    Rule.reverses g path = .ok true ↔
      ∃ first n p third c before after, path.window = [first, n, third] ∧
        g.gate? n = some p ∧ g.IsHadamardOn first path.wire ∧ g.IsHadamardOn third path.wire ∧
        Rule.controlOf p path.wire = some c ∧
        Rule.controlHadamards g n c = .ok (some (before, after)) := by
  constructor
  · intro h
    rw [Rule.reverses] at h
    split at h
    · rename_i first opening n p third closing hwindow
      obtain ⟨-, hnodes, hgates⟩ := gateWindow_eq_some.mp hwindow
      split at h
      · rename_i hplain
        obtain ⟨hopening, hclosing⟩ := (Bool.and_eq_true _ _).mp hplain
        split at h
        · cases h
        · rename_i c hc
          obtain ⟨pair, hpair, hsome⟩ := Run.map_eq_ok.mp h
          obtain ⟨⟨before, after⟩, rfl⟩ := Option.isSome_iff_exists.mp hsome
          exact ⟨first, n, p, third, c, before, after, hnodes, hgates (n, p) (by simp),
            ⟨opening, hgates (first, opening) (by simp), hopening⟩,
            ⟨closing, hgates (third, closing) (by simp), hclosing⟩, hc, hpair⟩
      · cases h
    · cases h
  · rintro ⟨first, n, p, third, c, before, after, hwindow, hn, ⟨opening, hopening, hplain⟩,
      ⟨closing, hclosing, hplain'⟩, hc, hpair⟩
    have hgates : g.gateWindow path Family.controlReversal.depth =
        some [(first, opening), (n, p), (third, closing)] :=
      gateWindow_eq_some.mpr ⟨rfl, hwindow, by simp [hopening, hn, hclosing]⟩
    simp only [Rule.reverses, hgates, hplain, hplain', Bool.and_self, if_true, hc, hpair]
    rfl

theorem removed_iff :
    (ns.forM fun m ↦ discard (Reduction.edit (remove m))).run g = .ok () g' ↔ Removed ns g g' := by
  induction ns generalizing g with
  | nil =>
    constructor
    · intro hrun
      cases hrun
      rfl
    · intro hremoved
      cases hremoved
      rfl
  | cons n rest ih =>
    refine remove_step_eq_ok.trans ?_
    simp only [Removed, ← ih]

theorem performReverse_eq_ok {first third c before after : Nat}
    (hwindow : path.window = [first, n, third]) (hn : g.gate? n = some p)
    (hc : Rule.controlOf p path.wire = some c)
    (hhadamards : Rule.controlHadamards g n c = .ok (some (before, after))) :
    (Rule.performReverse path).run g = .ok () g' ↔
      ∃ t, Removed [first, third, before, after] g t ∧
        (retarget n (Rule.reversed p path.wire c).1 (Rule.reversed p path.wire c).2).run t =
          .ok () g' := by
  have hask : (Reduction.ask fun g ↦ Rule.controlHadamards g n c).run g =
      .ok (some (before, after)) g := Run.edit_eq_ok.mpr (Run.ask_ok hhadamards)
  rw [Rule.performReverse, hwindow]
  dsimp only
  rw [Run.bind_ok Run.get_ok, hn]
  dsimp only
  rw [hc]
  dsimp only
  rw [Run.bind_ok hask, Run.steps_eq_ok]
  constructor
  · rintro ⟨⟨⟩, t, hremoved, hretarget⟩
    exact ⟨t, removed_iff.mp hremoved, Run.edit_eq_ok.mp hretarget⟩
  · rintro ⟨t, hremoved, hretarget⟩
    exact ⟨(), t, removed_iff.mpr hremoved, Run.edit_eq_ok.mpr hretarget⟩

/-- A controlled not with Hadamards on both sides of both wires acts as the one in the other
direction. -/
theorem Regular.act_reversed (h : g.Regular line)
    (hspot : Set.InjOn spot {w | w < g.wires.length}) {w c first third before after : Nat}
    (hn : g.gate? n = some p) (hc : Rule.controlOf p w = some c)
    (hfirst : g.IsHadamardOn first w) (hthird : g.IsHadamardOn third w)
    (hbefore : g.IsHadamardOn before c) (hafter : g.IsHadamardOn after c) :
    g.act I spot after ∘ (g.act I spot third ∘ g.act I spot n ∘ g.act I spot first) ∘
      g.act I spot before = GateNode.act I spot { p with
        targets := (Rule.reversed p w c).1
        guards := (Rule.reversed p w c).2 } := by
  obtain ⟨hne, hflips⟩ := GateNode.controlOf_eq_some.mp hc
  have hspots : spot c ≠ spot w := fun heq ↦
    hne (hspot (h.within n p c hn hflips.touches.2) (h.within n p w hn hflips.touches.1) heq)
  rw [hafter.act_eq, hthird.act_eq, hfirst.act_eq, hbefore.act_eq, act_of_gate hn,
    hflips.act hspots, hflips.reversed.act (Ne.symm hspots)]
  funext φ
  exact Interpretation.turn_reverse hspots φ

/-- A controlled not between Hadamards on both wires can be turned around. -/
theorem Regular.reverse_keeps (h : g.Regular line)
    (hspot : Set.InjOn spot {w | w < g.wires.length})
    (happlies : Rule.reverses g path = .ok true)
    (hstretch : path.window.IsInfix (g.thread line path.wire))
    (hrun : (Rule.performReverse path).run g = .ok () g') :
    ∃ line', Keeps I spot (fun _ ↦ True) g line g' line' := by
  obtain ⟨first, n, p, third, c, before, after, hwindow, hn, hfirst, hthird, hc, hhadamards⟩ :=
    reverses_eq_true.mp happlies
  obtain ⟨hprev, hnext, hbefore, hafter⟩ := controlHadamards_eq_some.mp hhadamards
  obtain ⟨t, hremoved, hretarget⟩ := (performReverse_eq_ok hwindow hn hc hhadamards).mp hrun
  obtain ⟨ht, -, -, -, hnodup, -⟩ := h.of_removed hremoved
  obtain ⟨q, -, hthreaded, hrevises⟩ := ht.of_retarget hretarget
  obtain ⟨hnotin, hold⟩ := h.of_removed_of_revises hremoved hrevises
  have hq : q = p := Option.some.inj (hold.symm.trans hn)
  subst hq
  obtain ⟨hne, hflips⟩ := GateNode.controlOf_eq_some.mp hc
  refine ⟨_, h.keeps_of_revised hremoved hthreaded hrevises
    (hflips.reversed.fits (Ne.symm hne)) fun ψ ↦ ?_⟩
  rw [hwindow] at hstretch
  obtain ⟨hpair, hpair'⟩ := h.isInfix_triple.mp hstretch
  have hsome : (g.gate? n).isSome := by rw [hn]; rfl
  have hfollowsFirst := hfirst.follows (I := I) h.toThreaded hspot hfirst.isSome hsome hpair
  have hfollowsThird := hthird.follows (I := I) h.toThreaded hspot hsome hthird.isSome hpair'
  have hfollowsBefore := hbefore.follows (I := I) h.toThreaded hspot hbefore.isSome hsome
    (h.prevOn_eq_ok.mp hprev)
  have hfollowsAfter := hafter.follows (I := I) h.toThreaded hspot hsome hafter.isSome
    (h.nextOn_eq_ok.mp hnext)
  -- First the Hadamards on the wire of the rule are merged, then those on the other wire.
  have hsub : [first, third].Sublist [first, third, before, after] := List.sublist_append_left _ _
  have hpair : n ∉ [first, third] := fun hmem ↦ hnotin (hsub.subset hmem)
  calc
    evolve (g.act I spot) line ψ =
        evolve (Function.update (g.act I spot) n (g.act I spot n)) line ψ := by
      rw [Function.update_eq_self]
    _ = evolve (Function.update (g.act I spot) n
        (g.act I spot third ∘ g.act I spot n ∘ g.act I spot first))
        (without line [first, third]) ψ :=
      hfollowsFirst.merge_around h.nodup_line List.not_mem_nil hfollowsThird
        (hnodup.sublist hsub) _ ψ
    _ = evolve (Function.update (g.act I spot) n (GateNode.act I spot _))
        (without line [first, third, before, after]) ψ := by
      rw [← h.act_reversed hspot hn hc hfirst hthird hbefore hafter]
      exact hfollowsBefore.merge_around h.nodup_line hpair hfollowsAfter hnodup _ ψ

end Circuit

end Peephole
