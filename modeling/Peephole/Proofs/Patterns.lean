import Peephole.Proofs.Flattening
import Peephole.Proofs.Meaning
import Peephole.Proofs.Soundness

/-!
# Patterns in programs

`Rule.Occurs` says where in a flat list of applications a rule could be used, in terms of positions
and of the qubits that applications touch, without circuits and windows. The rest of the module
compares such lists with the circuits that list them: what an application does to qubits is what its
gate does to their wires (`Declared.touches_qubitAt`, `Declared.sameEffect_applied`), cutting the
list cuts the line (`exists_of_flat_eq`), and neighbours on a wire are gates of the line with
nothing on that wire between them (`Threaded.isInfix_of_line`, `Follows.front_of_line`,
`Follows.back_of_line`).
-/

set_option autoImplicit false
set_option relaxedAutoImplicit false

namespace Peephole

/-! ### Patterns -/

namespace Application

/-- A qubit is a target or a guard of an application. -/
def Touches (a : Application) (q : Qubit) : Prop :=
  q ∈ a.targets ∨ q ∈ a.guards.map Guard.qubit

/-- A gate of some kind on one qubit alone, without guards. -/
def IsPlain (a : Application) (kind : StandardGate) (q : Qubit) : Prop :=
  a.gate.is kind = true ∧ a.guards = [] ∧ a.targets = [q]

/-- An X, Y or Z on one qubit alone, without guards. -/
def IsPauli (a : Application) (q : Qubit) : Prop :=
  (a.gate = .standard .x ∨ a.gate = .standard .y ∨ a.gate = .standard .z) ∧ a.guards = [] ∧
    a.targets = [q]

/-- A gate that flips a qubit where another one is one, written in either of two ways. -/
def FlipsUnder (a : Application) (t c : Qubit) : Prop :=
  a.gate = .standard .cx ∧ a.targets = [c, t] ∧ a.guards = [] ∨
    a.gate = .standard .x ∧ a.targets = [t] ∧ a.guards = [⟨c, false⟩]

end Application

/-- The last application that touches a qubit is a Hadamard on it. -/
def EndsInHadamard (as : List Application) (q : Qubit) : Prop :=
  ∃ front a back, as = front ++ a :: back ∧ a.IsPlain .h q ∧ ∀ k ∈ back, ¬ k.Touches q

/-- The first application that touches a qubit is a Hadamard on it. -/
def StartsWithHadamard (as : List Application) (q : Qubit) : Prop :=
  ∃ front a back, as = front ++ a :: back ∧ a.IsPlain .h q ∧ ∀ k ∈ front, ¬ k.Touches q

/-- There is a place in a list of applications where a rule could be used. -/
def Rule.Occurs (as : List Application) : Rule → Prop
  | cancel gate => ∃ before a between b after, as = before ++ a :: (between ++ b :: after) ∧
      a.gate.is gate = true ∧ (∃ q, a.Touches q) ∧ a.sameEffect b = true ∧
      ∀ k ∈ between, ∀ q, a.Touches q → ¬ k.Touches q
  | peep => ∃ before a after, as = before ++ a :: after ∧ ∃ c ∈ a.guards, c.qubit ∉ a.targets ∧
      ∀ k ∈ before, k.Touches c.qubit → k.IsPauli c.qubit
  | sandwich middle _ => ∃ before a left k right b after q,
      as = before ++ a :: (left ++ k :: (right ++ b :: after)) ∧
      a.gate.is .h = true ∧ a.targets = [q] ∧ a.sameEffect b = true ∧
      k.gate.is middle = true ∧ k.targets = [q] ∧ a.guards ⊆ k.guards ∧
      ∀ m ∈ left ++ right, ∀ x, a.Touches x → ¬ m.Touches x
  | reverse => ∃ before k after t c, as = before ++ k :: after ∧ c ≠ t ∧ k.FlipsUnder t c ∧
      ∀ q ∈ [t, c], EndsInHadamard before q ∧ StartsWithHadamard after q

/-! ### Lines -/

section Lines

variable {line front back : List Nat} {skip : Nat → Prop} {a b n : Nat} (hnodup : line.Nodup)
  (hline : line = front ++ n :: back)

include hnodup hline

/-- What comes before a number is found in front of it. -/
theorem Follows.front_of_line (h : Follows line skip a n) :
    ∃ before middle, front = before ++ a :: middle ∧ ∀ k ∈ middle, skip k := by
  obtain ⟨before, middle, after, hsplit, hskip⟩ := h
  rw [hline] at hnodup
  rw [hline, ← List.cons_append, ← List.append_assoc] at hsplit
  obtain ⟨hfront, -⟩ := (List.append_cons_inj_of_notMem (not_mem_front hnodup)
    (not_mem_back hnodup)).mp hsplit
  exact ⟨before, middle, hfront, hskip⟩

/-- What comes after a number is found behind it. -/
theorem Follows.back_of_line (h : Follows line skip n b) :
    ∃ middle after, back = middle ++ b :: after ∧ ∀ k ∈ middle, skip k := by
  obtain ⟨before, middle, after, hsplit, hskip⟩ := h
  rw [hline] at hnodup hsplit
  obtain ⟨-, -, hback⟩ := (List.append_cons_inj_of_notMem (not_mem_front hnodup)
    (not_mem_back hnodup)).mp hsplit
  exact ⟨middle, after, hback, hskip⟩

end Lines

theorem map_eq_map_iff_of_injOn {α β : Type} {f : α → β} {l l' : List α}
    (hf : ∀ a ∈ l, ∀ b ∈ l', f a = f b → a = b) : l.map f = l'.map f ↔ l = l' := by
  constructor
  · intro h
    induction l generalizing l' with
    | nil => exact (List.map_eq_nil_iff.mp h.symm).symm
    | cons a rest ih =>
      obtain ⟨b, rest', rfl, hb, hrest⟩ := List.map_eq_cons_iff.mp h.symm
      rw [hf a List.mem_cons_self b List.mem_cons_self hb.symm,
        ih (fun x hx y hy ↦ hf x (List.mem_cons_of_mem a hx) y (List.mem_cons_of_mem b hy))
          hrest.symm]
  · rintro rfl
    rfl

/-- An X, Y or Z on one wire alone, without guards. -/
def GateNode.IsPauli (p : GateNode) (w : Nat) : Prop :=
  (p.gate = .standard .x ∨ p.gate = .standard .y ∨ p.gate = .standard .z) ∧ p.guards = [] ∧
    p.targets = [w]

namespace Circuit

variable {g : Circuit} {line l : List Nat} {w n a b : Nat} {p q : GateNode} {x : Qubit}

/-! ### Gates and applications -/

/-- A gate whose wires are wires of a circuit. -/
def Carries (g : Circuit) (p : GateNode) : Prop :=
  ∀ w, p.touches w = true → w < g.wires.length

theorem Threaded.carries (h : g.Threaded line) (hp : g.gate? n = some p) : g.Carries p :=
  fun w ↦ h.within n p w hp

theorem touches_applied : (g.applied p).Touches x ↔ ∃ w, p.touches w = true ∧ g.qubitAt w = x := by
  simp only [Application.Touches, applied, GateNode.touches_iff, GateNode.guardWires,
    List.map_map, List.mem_map, Function.comp_apply]
  constructor
  · rintro (⟨w, hw, rfl⟩ | ⟨c, hc, rfl⟩)
    · exact ⟨w, .inl hw, rfl⟩
    · exact ⟨c.wire, .inr ⟨c, hc, rfl⟩, rfl⟩
  · rintro ⟨w, hw | ⟨c, hc, rfl⟩, rfl⟩
    · exact .inl ⟨w, hw, rfl⟩
    · exact .inr ⟨c, hc, rfl⟩

theorem flipsUnder_applied {t c : Qubit} :
    (g.applied p).FlipsUnder t c ↔
      ∃ v w, p.FlipsUnder v w ∧ g.qubitAt v = t ∧ g.qubitAt w = c := by
  simp only [Application.FlipsUnder, applied, GateNode.FlipsUnder]
  constructor
  · rintro (⟨hgate, htargets, hguards⟩ | ⟨hgate, htargets, hguards⟩)
    · obtain ⟨w, rest, hw, rfl, hrest⟩ := List.map_eq_cons_iff.mp htargets
      obtain ⟨v, rfl, rfl⟩ := List.map_eq_singleton_iff.mp hrest
      exact ⟨v, w, .inl ⟨hgate, hw, List.map_eq_nil_iff.mp hguards⟩, rfl, rfl⟩
    · obtain ⟨v, hv, rfl⟩ := List.map_eq_singleton_iff.mp htargets
      obtain ⟨⟨w, negated⟩, hw, hguard⟩ := List.map_eq_singleton_iff.mp hguards
      cases hguard
      exact ⟨v, w, .inr ⟨hgate, hv, hw⟩, rfl, rfl⟩
  · rintro ⟨v, w, ⟨hgate, htargets, hguards⟩ | ⟨hgate, htargets, hguards⟩, rfl, rfl⟩
    · exact .inl ⟨hgate, by rw [htargets]; rfl, by rw [hguards]; rfl⟩
    · exact .inr ⟨hgate, by rw [htargets]; rfl, by rw [hguards]; rfl⟩

section Declared

variable (hd : g.Declared) (hp : g.Carries p)

include hd hp

theorem Declared.touches_qubitAt (hw : w < g.wires.length) :
    (g.applied p).Touches (g.qubitAt w) ↔ p.touches w = true := by
  rw [touches_applied]
  constructor
  · rintro ⟨v, hv, heq⟩
    rwa [← hd.qubitAt_inj (hp v hv) hw heq]
  · intro htouch
    exact ⟨w, htouch, rfl⟩

theorem Declared.targets_applied (hw : w < g.wires.length) :
    (g.applied p).targets = [g.qubitAt w] ↔ p.targets = [w] := by
  change p.targets.map g.qubitAt = [w].map g.qubitAt ↔ p.targets = [w]
  refine map_eq_map_iff_of_injOn fun v hv v' hv' heq ↦ ?_
  rw [List.mem_singleton.mp hv'] at heq ⊢
  exact hd.qubitAt_inj (hp v (GateNode.touches_of_target hv)) hw heq

theorem Declared.isPlain_applied (hw : w < g.wires.length) {kind : StandardGate} :
    (g.applied p).IsPlain kind (g.qubitAt w) ↔ p.isPlain kind w = true := by
  rw [Application.IsPlain, hd.targets_applied hp hw, GateNode.isPlain_iff]
  refine and_congr_right fun _ ↦ and_congr_left fun _ ↦ ?_
  rw [applied, List.map_eq_nil_iff]

theorem Declared.isPauli_applied (hw : w < g.wires.length) :
    (g.applied p).IsPauli (g.qubitAt w) ↔ p.IsPauli w := by
  rw [Application.IsPauli, GateNode.IsPauli, hd.targets_applied hp hw]
  refine and_congr Iff.rfl (and_congr_left fun _ ↦ ?_)
  rw [applied, List.map_eq_nil_iff]

variable (hq : g.Carries q)

include hq

/-- Guards on the same qubits are guards on the same wires. -/
theorem Declared.eq_of_guard_eq {c d : WireGuard} (hc : c ∈ p.guards) (hc' : d ∈ q.guards)
    (heq : (⟨g.qubitAt c.wire, c.negated⟩ : Guard) = ⟨g.qubitAt d.wire, d.negated⟩) : c = d := by
  have htouch {p : GateNode} {c : WireGuard} (hc : c ∈ p.guards) : p.touches c.wire = true :=
    GateNode.touches_of_guard hc
  rw [Guard.mk.injEq] at heq
  obtain ⟨v, negated⟩ := c
  obtain ⟨w, negated'⟩ := d
  rw [WireGuard.mk.injEq]
  exact ⟨hd.qubitAt_inj (hp v (htouch hc)) (hq w (htouch hc')) heq.1, heq.2⟩

theorem Declared.guards_applied :
    (g.applied p).guards ⊆ (g.applied q).guards ↔ p.guards ⊆ q.guards := by
  constructor
  · intro hsub c hc
    obtain ⟨d, hd', heq⟩ := List.mem_map.mp (hsub (List.mem_map_of_mem hc))
    rwa [hd.eq_of_guard_eq hp hq hc hd' heq.symm]
  · intro hsub
    exact List.map_subset _ hsub

theorem Declared.sameEffect_applied :
    (g.applied p).sameEffect (g.applied q) = p.sameEffect q := by
  have htargets : (g.applied p).targets = (g.applied q).targets ↔ p.targets = q.targets := by
    refine map_eq_map_iff_of_injOn fun v hv w hw heq ↦ ?_
    exact hd.qubitAt_inj (hp v (GateNode.touches_of_target hv))
      (hq w (GateNode.touches_of_target hw)) heq
  have hguards := hd.guards_applied hp hq
  have hguards' := hd.guards_applied hq hp
  rw [Bool.eq_iff_iff]
  simp only [Application.sameEffect, GateNode.sameEffect, GateNode.guardsWithin, Bool.and_eq_true,
    beq_iff_eq, List.all_eq_true, List.contains_iff_mem]
  exact and_congr (and_congr (and_congr Iff.rfl htargets) hguards) hguards'

end Declared

/-! ### Lists and lines -/

/-- The applications of some gates, in order. -/
def flat (g : Circuit) (l : List Nat) : List Application :=
  (g.listed l).map Prod.snd

theorem flat_eq_map (g : Circuit) (l : List Nat) :
    g.flat l = l.map fun n ↦ ((g.gate? n).map g.applied).getD default := by
  rw [flat, listed, List.map_map]
  rfl

theorem flat_append (g : Circuit) (l l' : List Nat) : g.flat (l ++ l') = g.flat l ++ g.flat l' := by
  rw [flat_eq_map, flat_eq_map, flat_eq_map, List.map_append]

theorem flat_cons (hp : g.gate? n = some p) (l : List Nat) :
    g.flat (n :: l) = g.applied p :: g.flat l := by
  rw [flat_eq_map, flat_eq_map, List.map_cons, hp]
  rfl

/-- A cut through the list of applications is a cut through the list of gates. -/
theorem exists_of_flat_eq (hl : ∀ n ∈ l, (g.gate? n).isSome) {a : Application}
    {before after : List Application} (h : g.flat l = before ++ a :: after) :
    ∃ front n back p, l = front ++ n :: back ∧ g.gate? n = some p ∧ g.applied p = a ∧
      g.flat front = before ∧ g.flat back = after := by
  rw [flat_eq_map] at h
  obtain ⟨front, rest, rfl, hfront, hrest⟩ := List.map_eq_append_iff.mp h
  obtain ⟨n, back, rfl, hn, hback⟩ := List.map_eq_cons_iff.mp hrest
  obtain ⟨p, hp⟩ := Option.isSome_iff_exists.mp (hl n (by simp))
  refine ⟨front, n, back, p, rfl, hp, ?_, ?_, ?_⟩
  · rw [← hn, hp]
    rfl
  · rw [flat_eq_map, hfront]
  · rw [flat_eq_map, hback]

theorem forall_mem_flat (hl : ∀ n ∈ l, (g.gate? n).isSome) {P : Application → Prop} :
    (∀ k ∈ g.flat l, P k) ↔ ∀ n ∈ l, ∀ p, g.gate? n = some p → P (g.applied p) := by
  rw [flat_eq_map]
  refine List.forall_mem_map.trans (forall₂_congr fun n hn ↦ ?_)
  obtain ⟨p, hp⟩ := Option.isSome_iff_exists.mp (hl n hn)
  simp [hp]

/-- Applications that do not touch a qubit are gates that are not on its wire. -/
theorem Threaded.off_iff (h : g.Threaded line) (hd : g.Declared) (hl : ∀ n ∈ l, n ∈ line)
    (hw : w < g.wires.length) :
    (∀ k ∈ g.flat l, ¬ k.Touches (g.qubitAt w)) ↔
      ∀ k ∈ l, g.isOn w k = false := by
  refine (forall_mem_flat fun n hn ↦ h.gate n (hl n hn)).trans (forall₂_congr fun n hn ↦ ?_)
  obtain ⟨p, hp⟩ := Option.isSome_iff_exists.mp (h.gate n (hl n hn))
  rw [isOn, hp, Option.any_some, ← Bool.not_eq_true, ← hd.touches_qubitAt (h.carries hp) hw]
  simp

/-- Applications that touch no qubit of a gate are gates that are on none of its wires. -/
theorem Threaded.apart_iff (h : g.Threaded line) (hd : g.Declared) (hl : ∀ n ∈ l, n ∈ line)
    (hp : g.Carries p) :
    (∀ k ∈ g.flat l, ∀ x, (g.applied p).Touches x → ¬ k.Touches x) ↔
      ∀ k ∈ l, ∀ w, p.touches w = true → g.isOn w k = false := by
  constructor
  · intro hoff k hk w hw
    refine (h.off_iff hd hl (hp w hw)).mp (fun m hm ↦ hoff m hm _ ?_) k hk
    exact touches_applied.mpr ⟨w, hw, rfl⟩
  · intro hoff k hk x hx
    obtain ⟨w, hw, rfl⟩ := touches_applied.mp hx
    exact (h.off_iff hd hl (hp w hw)).mpr (fun m hm ↦ hoff m hm w hw) k hk

/-! ### Neighbours -/

/-- Gates on a wire are neighbours if nothing between them in the line is on the wire. -/
theorem Threaded.isInfix_of_line (h : g.Threaded line) {before middle after : List Nat}
    (hline : line = before ++ a :: (middle ++ b :: after)) (ha : g.isOn w a = true)
    (hb : g.isOn w b = true) (hmiddle : ∀ k ∈ middle, g.isOn w k = false) :
    [a, b].IsInfix (g.thread line w) := by
  obtain ⟨wire, hw⟩ := h.wire_of_isOn ha
  have hnone : middle.filter (g.isOn w) = [] :=
    List.filter_eq_nil_iff.mpr fun k hk ↦ by rw [hmiddle k hk]; exact Bool.false_ne_true
  refine ⟨wire.input :: before.filter (g.isOn w), after.filter (g.isOn w) ++ [wire.output], ?_⟩
  rw [thread_of_some hw, hline]
  simp [hnone, ha, hb]

theorem Threaded.touches_of_mem_thread (h : g.Threaded line) (hn : n ∈ g.thread line w)
    (hp : g.gate? n = some p) : p.touches w = true := by
  by_contra hoff
  refine h.not_mem_thread (h.mem_line_of_gate hp) ?_ hn
  rw [isOn, hp, Option.any_some]
  exact Bool.eq_false_iff.mpr hoff

end Circuit

end Peephole
