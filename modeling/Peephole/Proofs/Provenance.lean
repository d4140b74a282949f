import Peephole.Proofs.Acceptance

/-!
# Where the gates of a result come from

Every gate that is left after a run of the optimizer stems from one gate of the program: no rule
adds gates, and none moves a gate past another one. `Application.Descends` says what may have become
of a gate on the way, `Application.Removable` which gates may be missing, and `Circuit.Evolves`
collects both for two circuits. One use of a rule is such a change (`Threaded.evolves_of_perform`),
and so is a whole run (`Reduces.evolves`), since changes can be put together (`Evolves.trans`).
-/

set_option autoImplicit false
set_option relaxedAutoImplicit false

namespace Peephole

/-! ### Descendants -/

namespace Application

variable {a b c : Application}

/-- What the optimizer may make of an application `a`. A controlled not may change its direction,
and an X or Z may become the other one and exchange its target with its guard. Any other gate may
only lose guards. -/
structure Descends (a b : Application) : Prop where
  other : a.gate ≠ .standard .x → a.gate ≠ .standard .z → a.gate ≠ .standard .cx →
    b.gate = a.gate ∧ b.targets = a.targets ∧ b.guards.Sublist a.guards
  controlled_not : a.gate = .standard .cx → b.gate = .standard .cx ∧
    (b.targets = a.targets ∨ ∃ x y, a.targets = [x, y] ∧ b.targets = [y, x]) ∧
    b.guards.Sublist a.guards
  flip : a.gate = .standard .x ∨ a.gate = .standard .z →
    (b.gate = .standard .x ∨ b.gate = .standard .z) ∧ ∀ q, b.Touches q → a.Touches q
  length_guards : b.guards.length ≤ a.guards.length

/-- An application that the optimizer may remove. -/
def Removable (a : Application) : Prop :=
  a.guards ≠ [] ∨ a.gate ∈ [.standard .h, .standard .x, .standard .y, .standard .z]

theorem touches_of_sublist (htargets : b.targets = a.targets) (hguards : b.guards.Sublist a.guards)
    {q : Qubit} (h : b.Touches q) : a.Touches q := by
  rcases h with h | h
  · exact .inl (htargets ▸ h)
  · exact .inr ((hguards.map Guard.qubit).subset h)

/-- A gate that loses guards. -/
theorem Descends.of_sublist (hgate : b.gate = a.gate) (htargets : b.targets = a.targets)
    (hguards : b.guards.Sublist a.guards) : a.Descends b where
  other _ _ _ := ⟨hgate, htargets, hguards⟩
  controlled_not h := ⟨hgate.trans h, .inl htargets, hguards⟩
  flip h := ⟨hgate ▸ h, fun _ ↦ touches_of_sublist htargets hguards⟩
  length_guards := hguards.length_le

theorem Descends.refl (a : Application) : a.Descends a :=
  .of_sublist rfl rfl (.refl _)

/-- An X or Z that becomes one of them again. -/
theorem Descends.of_flip (ha : a.gate = .standard .x ∨ a.gate = .standard .z)
    (hb : b.gate = .standard .x ∨ b.gate = .standard .z) (htouches : ∀ q, b.Touches q → a.Touches q)
    (hlength : b.guards.length ≤ a.guards.length) : a.Descends b where
  other hx hz _ := (ha.elim hx hz).elim
  controlled_not h := by rcases ha with ha | ha <;> rw [ha] at h <;> cases h
  flip _ := ⟨hb, htouches⟩
  length_guards := hlength

/-- A controlled not that changes its direction. -/
theorem Descends.of_turn {x y : Qubit} (ha : a.gate = .standard .cx) (hb : b.gate = .standard .cx)
    (htargets : a.targets = [x, y]) (htargets' : b.targets = [y, x]) (hguards : b.guards = []) :
    a.Descends b where
  other _ _ h := (h ha).elim
  controlled_not _ := ⟨hb, .inr ⟨x, y, htargets, htargets'⟩, hguards ▸ List.nil_sublist _⟩
  flip h := by rcases h with h | h <;> rw [ha] at h <;> cases h
  length_guards := by rw [hguards]; exact Nat.zero_le _

theorem Descends.trans (hab : a.Descends b) (hbc : b.Descends c) : a.Descends c where
  other hx hz hcx := by
    obtain ⟨hgate, htargets, hguards⟩ := hab.other hx hz hcx
    obtain ⟨hgate', htargets', hguards'⟩ :=
      hbc.other (hgate ▸ hx) (hgate ▸ hz) (hgate ▸ hcx)
    exact ⟨hgate'.trans hgate, htargets'.trans htargets, hguards'.trans hguards⟩
  controlled_not hcx := by
    obtain ⟨hgate, htargets, hguards⟩ := hab.controlled_not hcx
    obtain ⟨hgate', htargets', hguards'⟩ := hbc.controlled_not hgate
    refine ⟨hgate', ?_, hguards'.trans hguards⟩
    rcases htargets' with hsame | ⟨x, y, hb, hc⟩
    · rwa [hsame]
    · rcases htargets with hsame | ⟨x', y', ha, hb'⟩
      · exact .inr ⟨x, y, hsame ▸ hb, hc⟩
      · -- turned around twice
        rw [hb', List.cons.injEq, List.cons.injEq] at hb
        obtain ⟨rfl, rfl, -⟩ := hb
        exact .inl (hc.trans ha.symm)
  flip h := by
    obtain ⟨hgate, htouches⟩ := hab.flip h
    obtain ⟨hgate', htouches'⟩ := hbc.flip hgate
    exact ⟨hgate', fun q hq ↦ htouches q (htouches' q hq)⟩
  length_guards := hbc.length_guards.trans hab.length_guards

/-- What stems from a gate that stays cannot be removed. -/
theorem Descends.removable (h : a.Descends b) (hb : b.Removable) : a.Removable := by
  by_cases hflip : a.gate = .standard .x ∨ a.gate = .standard .z
  · right
    rcases hflip with hflip | hflip <;> rw [hflip] <;> simp
  · obtain ⟨hx, hz⟩ := not_or.mp hflip
    rcases hb with hguards | hgate
    · left
      intro hnil
      have hlength := h.length_guards
      rw [hnil, List.length_nil, Nat.le_zero, List.length_eq_zero_iff] at hlength
      exact hguards hlength
    · right
      by_cases hcx : a.gate = .standard .cx
      · rw [(h.controlled_not hcx).1] at hgate
        simp at hgate
      · rwa [(h.other hx hz hcx).1] at hgate

end Application

/-! ### Changes of circuits -/

namespace Circuit

variable {build : Build} {g t g' : Circuit} {line line₁ line₂ ns : List Nat} {n : Nat}
  {p q : GateNode}

/-- One circuit comes from another one: the gates that are left stand in the same order and descend
from what they were, and the others could be removed. -/
structure Evolves (g : Circuit) (line : List Nat) (g' : Circuit) (line' : List Nat) : Prop where
  threaded : g'.Threaded line'
  wires : g'.wires = g.wires
  sublist : line'.Sublist line
  kept : ∀ n ∈ line', ∀ p q, g.gate? n = some p → g'.gate? n = some q →
    (g.applied p).Descends (g.applied q)
  gone : ∀ n ∈ line, n ∉ line' → ∀ p, g.gate? n = some p → (g.applied p).Removable

theorem Evolves.refl (h : g.Threaded line) : g.Evolves line g line where
  threaded := h
  wires := rfl
  sublist := .refl _
  kept n _ p q hp hq := by
    rw [hp, Option.some.injEq] at hq
    exact hq ▸ .refl _
  gone n hn hn' := absurd hn hn'

theorem Evolves.trans (h : g.Evolves line t line₁) (h' : t.Evolves line₁ g' line₂) :
    g.Evolves line g' line₂ where
  threaded := h'.threaded
  wires := h'.wires.trans h.wires
  sublist := h'.sublist.trans h.sublist
  kept n hn p q hp hq := by
    have hn₁ := h'.sublist.subset hn
    obtain ⟨r, hr⟩ := Option.isSome_iff_exists.mp (h.threaded.gate n hn₁)
    have hsecond := h'.kept n hn r q hr hq
    rw [applied_of_wires h.wires, applied_of_wires h.wires] at hsecond
    exact (h.kept n hn₁ p r hp hr).trans hsecond
  gone n hn hn₂ p hp := by
    by_cases hn₁ : n ∈ line₁
    · obtain ⟨r, hr⟩ := Option.isSome_iff_exists.mp (h.threaded.gate n hn₁)
      have hremovable := h'.gone n hn₁ hn₂ r hr
      rw [applied_of_wires h.wires] at hremovable
      exact (h.kept n hn₁ p r hp hr).removable hremovable
    · exact h.gone n hn hn₁ p hp

/-- Removing gates that may be removed. -/
theorem Threaded.evolves_of_removed (h : g.Threaded line) (hremoved : Removed ns g g')
    (hns : ∀ n ∈ ns, ∀ p, g.gate? n = some p → (g.applied p).Removable) :
    g.Evolves line g' (without line ns) := by
  obtain ⟨hthreaded, hwires, -, hgate, -, -⟩ := h.of_removed hremoved
  refine ⟨hthreaded, hwires, without_sublist line ns, ?_, ?_⟩
  · intro n hn p q hp hq
    rw [hgate, if_neg (mem_without.mp hn).2, hp, Option.some.injEq] at hq
    exact hq ▸ .refl _
  · intro n hn hn' p hp
    have hmem : n ∈ ns := by
      by_contra hne
      exact hn' (mem_without.mpr ⟨hn, hne⟩)
    exact hns n hmem p hp

/-- Revising a gate in an allowed way. -/
theorem Threaded.evolves_of_revises (hthreaded : g'.Threaded line)
    (hrevises : g.Revises g' n p (some q)) (hdescends : (g.applied p).Descends (g.applied q)) :
    g.Evolves line g' line := by
  refine ⟨hthreaded, hrevises.wires, .refl _, ?_, fun m hm hm' ↦ absurd hm hm'⟩
  intro m _ p' q' hp' hq'
  rw [hrevises.gate?] at hq'
  by_cases hm : m = n
  · rw [if_pos hm, Option.some.injEq] at hq'
    rw [hm, hrevises.old, Option.some.injEq] at hp'
    exact hp' ▸ hq' ▸ hdescends
  · rw [if_neg hm, hp', Option.some.injEq] at hq'
    exact hq' ▸ .refl _

/-- Some gates that may be removed are, and then another one is revised. -/
theorem Threaded.evolves_of_removed_of_revises (h : g.Threaded line) (hremoved : Removed ns g t)
    (hns : ∀ n ∈ ns, ∀ p, g.gate? n = some p → (g.applied p).Removable)
    (hthreaded : g'.Threaded (without line ns)) (hrevises : t.Revises g' n p (some q))
    (hdescends : (g.applied p).Descends (g.applied q)) :
    g.Evolves line g' (without line ns) := by
  have hevolves := h.evolves_of_removed hremoved hns
  refine hevolves.trans (evolves_of_revises hthreaded hrevises ?_)
  rwa [applied_of_wires hevolves.wires, applied_of_wires hevolves.wires]

/-! ### Rules -/

theorem removable_at (hp : g.gate? n = some p)
    (hgate : p.gate ∈ [.standard .h, .standard .x, .standard .y, .standard .z]) :
    ∀ r, g.gate? n = some r → (g.applied r).Removable := by
  intro r hr
  rw [hp, Option.some.injEq] at hr
  exact .inr (hr ▸ hgate)

theorem IsHadamardOn.removable {w : Nat} (h : g.IsHadamardOn n w) :
    ∀ r, g.gate? n = some r → (g.applied r).Removable := by
  obtain ⟨q, hq, hplain⟩ := h
  refine removable_at hq ?_
  rw [Gate.eq_of_is rfl (GateNode.isPlain_iff.mp hplain).1]
  exact List.mem_cons_self

theorem descends_dropGuards (g : Circuit) (p : GateNode) (w : Nat) :
    (g.applied p).Descends (g.applied (p.dropGuards w)) :=
  .of_sublist rfl rfl (List.filter_sublist.map _)

theorem descends_reversed {v w : Nat} (h : p.FlipsUnder v w) :
    (g.applied p).Descends (g.applied
      { p with targets := (Rule.reversed p v w).1, guards := (Rule.reversed p v w).2 }) := by
  rcases h with ⟨hgate, htargets, hguards⟩ | ⟨hgate, htargets, hguards⟩
  · have hreversed : Rule.reversed p v w = ([v, w], []) := by
      simp [Rule.reversed, GateNode.isUnguarded, hguards]
    rw [hreversed]
    have happlied : (g.applied p).targets = [g.qubitAt w, g.qubitAt v] := by
      rw [applied, htargets]
      rfl
    exact .of_turn hgate hgate happlied rfl rfl
  · have hreversed : Rule.reversed p v w = ([w], [⟨v, false⟩]) := by
      simp [Rule.reversed, GateNode.isUnguarded, hguards]
    rw [hreversed]
    refine .of_flip (.inl hgate) (.inl hgate) (fun q hq ↦ ?_) (by simp [applied, hguards])
    simp only [Application.Touches, applied, htargets, hguards, List.map_cons, List.map_nil,
      List.mem_singleton] at hq ⊢
    exact hq.symm

section Perform

variable {path : Path}

/-- Two equal gates that undo each other go. -/
theorem Threaded.cancel_evolves (h : g.Threaded line) {gate : StandardGate}
    (hsound : (Rule.cancel gate).IsSound) (happlies : (Rule.cancel gate).applies g path = .ok true)
    (hrun : ((Rule.cancel gate).perform path).run g = .ok () g') :
    ∃ line', g.Evolves line g' line' := by
  obtain ⟨first, p, second, q, hwindow, hp, hq, his, hsame, -⟩ := cancels_eq_true.mp happlies
  have hpgate := Gate.eq_of_is hsound his
  have hqgate := Gate.eq_of_beq hsound (hpgate ▸ (GateNode.of_sameEffect hsame).1)
  have hgate : Gate.standard gate ∈ [.standard .h, .standard .x, .standard .y, .standard .z] := by
    rw [Rule.IsSound] at hsound
    cases gate <;> cases hsound <;> simp
  refine ⟨_, h.evolves_of_removed ((performCancel_eq_ok hwindow).mp hrun) ?_⟩
  rw [List.forall_mem_cons, List.forall_mem_singleton]
  exact ⟨removable_at hp (hpgate ▸ hgate), removable_at hq (hqgate ▸ hgate)⟩

/-- A gate loses its guards on a wire, or it goes with them. -/
theorem Threaded.peep_evolves (h : g.Threaded line)
    (happlies : Rule.peep.applies g path = .ok true)
    (hrun : (Rule.peep.perform path).run g = .ok () g') : ∃ line', g.Evolves line g' line' := by
  obtain ⟨n, p, value, hwindow, hp, hguard, -, hstate⟩ := peeps_eq_true.mp happlies
  obtain rfl := last_of_window hwindow
  rw [Rule.perform, performPeep_eq_ok hp hstate] at hrun
  split_ifs at hrun
  · obtain ⟨q, -, hthreaded, hrevises⟩ := h.of_removeGuards hrun
    exact ⟨line, evolves_of_revises hthreaded hrevises (descends_dropGuards g q path.wire)⟩
  · obtain ⟨q, hremove⟩ := hrun
    have hremoved : Removed [path.last] g g' := ⟨q, g', hremove, rfl⟩
    refine ⟨_, h.evolves_of_removed hremoved ?_⟩
    rw [List.forall_mem_singleton]
    intro r hr
    rw [hp, Option.some.injEq] at hr
    refine .inl fun hnil ↦ ?_
    rw [← hr, applied, List.map_eq_nil_iff] at hnil
    rw [GateNode.isGuard, hnil] at hguard
    cases hguard

/-- The gate between two Hadamard gates becomes another one, and they go. -/
theorem Threaded.sandwich_evolves (h : g.Threaded line) {middle replacement : StandardGate}
    (hsound : (Rule.sandwich middle replacement).IsSound)
    (happlies : (Rule.sandwich middle replacement).applies g path = .ok true)
    (hrun : ((Rule.sandwich middle replacement).perform path).run g = .ok () g') :
    ∃ line', g.Evolves line g' line' := by
  obtain ⟨first, second, third, opening, inner, closing, hs⟩ := sandwiches_eq_true.mp happlies
  obtain ⟨t, hremoved, hset⟩ := (performSandwich_eq_ok hs.window).mp hrun
  obtain ⟨p, hthreaded, hrevises⟩ := (h.of_removed hremoved).1.of_setGate hset
  obtain rfl : p = inner :=
    Option.some.inj ((h.of_removed_of_revises hremoved hrevises).2.symm.trans hs.inner_at)
  have hopening : opening.gate = .standard .h := Gate.eq_of_is rfl hs.hadamard
  have hclosing : closing.gate = .standard .h :=
    Gate.eq_of_beq rfl (hopening ▸ (GateNode.of_sameEffect hs.same).1)
  refine ⟨_, h.evolves_of_removed_of_revises hremoved ?_ hthreaded hrevises ?_⟩
  · rw [List.forall_mem_cons, List.forall_mem_singleton]
    exact ⟨removable_at hs.opening_at (hopening ▸ List.mem_cons_self),
      removable_at hs.closing_at (hclosing ▸ List.mem_cons_self)⟩
  · rcases hsound with ⟨rfl, rfl⟩ | ⟨rfl, rfl⟩
    · exact .of_flip (.inl (Gate.eq_of_is rfl hs.middle)) (.inr rfl) (fun _ hq ↦ hq) le_rfl
    · exact .of_flip (.inr (Gate.eq_of_is rfl hs.middle)) (.inl rfl) (fun _ hq ↦ hq) le_rfl

/-- A gate is turned around, and the Hadamard gates on its sides go. -/
theorem Threaded.reverse_evolves (h : g.Threaded line)
    (happlies : Rule.reverse.applies g path = .ok true)
    (hrun : (Rule.reverse.perform path).run g = .ok () g') : ∃ line', g.Evolves line g' line' := by
  obtain ⟨first, n, p, third, c, before, after, hwindow, hn, hfirst, hthird, hc, hhadamards⟩ :=
    reverses_eq_true.mp happlies
  obtain ⟨-, -, hbefore, hafter⟩ := controlHadamards_eq_some.mp hhadamards
  obtain ⟨t, hremoved, hretarget⟩ := (performReverse_eq_ok hwindow hn hc hhadamards).mp hrun
  obtain ⟨q, -, hthreaded, hrevises⟩ := (h.of_removed hremoved).1.of_retarget hretarget
  obtain rfl : q = p :=
    Option.some.inj ((h.of_removed_of_revises hremoved hrevises).2.symm.trans hn)
  refine ⟨_, h.evolves_of_removed_of_revises hremoved ?_ hthreaded hrevises
    (descends_reversed (GateNode.controlOf_eq_some.mp hc).2)⟩
  simp only [List.forall_mem_cons]
  exact ⟨hfirst.removable, hthird.removable, hbefore.removable, hafter.removable,
    List.forall_mem_nil _⟩

/-- A rule that is carried out where it applies. -/
theorem Threaded.evolves_of_perform (h : g.Threaded line) {rule : Rule} (hsound : rule.IsSound)
    (happlies : rule.applies g path = .ok true) (hrun : (rule.perform path).run g = .ok () g') :
    ∃ line', g.Evolves line g' line' := by
  cases rule with
  | cancel gate => exact h.cancel_evolves hsound happlies hrun
  | peep => exact h.peep_evolves happlies hrun
  | sandwich middle replacement => exact h.sandwich_evolves hsound happlies hrun
  | reverse => exact h.reverse_evolves happlies hrun

end Perform

/-- A run of the optimizer. -/
theorem Reduces.evolves {rules used : List Rule} (hreduces : g.Reduces build rules used g')
    (h : g.Threaded line) (hsound : ∀ r ∈ rules, r.IsSound) :
    ∃ line', g.Evolves line g' line' := by
  induction hreduces generalizing line with
  | refl g => exact ⟨line, .refl h⟩
  | step hfound hperform _ ih =>
    obtain ⟨hrule, happlies, -⟩ := h.findMatch_some hfound
    have hrun := Match.perform_rule hperform
    obtain ⟨line₁, hfirst⟩ := h.evolves_of_perform (hsound _ hrule) happlies hrun
    obtain ⟨line₂, hrest⟩ := ih hfirst.threaded
    exact ⟨line₂, hfirst.trans hrest⟩

end Circuit

/-! ### Programs -/

/-- A list that is mapped and a part of it that is mapped otherwise: the places of the part are
placed in the whole list, in order. -/
theorem exists_places {α β γ : Type} {l' l : List α} (h : l'.Sublist l) (hnodup : l.Nodup)
    (F : α → β) (G : α → γ) :
    ∃ f : Fin (l'.map G).length ↪o Fin (l.map F).length,
      (∀ i, ∃ n ∈ l', (l'.map G).get i = G n ∧ (l.map F).get (f i) = F n) ∧
      ∀ j, (∃ n ∈ l, (l.map F).get j = F n ∧ n ∉ l') ∨ ∃ i, f i = j := by
  obtain ⟨f, hf⟩ := List.sublist_iff_exists_fin_orderEmbedding_get_eq.mp h
  have hsource : (l'.map G).length = l'.length := List.length_map G
  have htarget : l.length = (l.map F).length := (List.length_map F).symm
  refine ⟨(Fin.castOrderIso hsource).toOrderEmbedding.trans
    (f.trans (Fin.castOrderIso htarget).toOrderEmbedding), fun i ↦ ?_, fun j ↦ ?_⟩
  · refine ⟨l'.get (Fin.cast hsource i), List.get_mem _ _, by simp, ?_⟩
    rw [hf]
    simp
  · by_cases hmem : l.get (Fin.cast htarget.symm j) ∈ l'
    · right
      obtain ⟨i, hi⟩ := List.get_of_mem hmem
      refine ⟨Fin.cast hsource.symm i, ?_⟩
      rw [hf] at hi
      have hij : (f i).val = j.val :=
        congrArg Fin.val (List.nodup_iff_injective_get.mp hnodup hi)
      exact Fin.ext hij
    · left
      exact ⟨_, List.get_mem _ _, by simp, hmem⟩

section Results

variable {build : Build} {settings : Settings} {p q : Program} {stats : Statistics}

/-- The circuits at the beginning and at the end of a run. -/
theorem exists_evolves (h : optimize build settings p = .ok (q, stats)) :
    ∃ g line g' line', Circuit.Threaded g line ∧ g.Evolves line g' line' ∧
      q.declarations = p.declarations ∧ g.flat line = p.applications ∧
      g'.flat line' = q.applications := by
  obtain ⟨-, hsimplify⟩ := optimize_eq_ok.mp h
  obtain ⟨g, used, g', hrun⟩ := Program.exists_simplification hsimplify
  obtain ⟨line, hthreaded, -, -, hlisted⟩ := Circuit.ofProgram_ok hrun.built
  obtain ⟨line', hevolves⟩ :=
    hrun.reduces.evolves hthreaded fun r hr ↦ Settings.isSound_of_mem hr
  obtain ⟨-, happlications⟩ := hevolves.threaded.of_toProgram hrun.flattened
  exact ⟨g, line, g', line', hthreaded, hevolves, hrun.declarations, hlisted, happlications.symm⟩

/-- Every gate of a result descends from some gate of the program. -/
theorem exists_descends (h : optimize build settings p = .ok (q, stats)) :
    ∀ b ∈ q.applications, ∃ a ∈ p.applications, a.Descends b := by
  obtain ⟨g, line, g', line', hthreaded, hevolves, -, hp, hq⟩ := exists_evolves h
  rw [← hq, Circuit.forall_mem_flat hevolves.threaded.gate, ← hp]
  intro n hn b hb
  obtain ⟨a, ha⟩ := Option.isSome_iff_exists.mp (hthreaded.gate n (hevolves.sublist.subset hn))
  refine ⟨g.applied a, hthreaded.applied_mem_listed ha, ?_⟩
  rw [Circuit.applied_of_wires hevolves.wires b]
  exact hevolves.kept n hn a b ha hb

/-- Every gate of the result of the optimizer descends from a gate of the program, in the order of
the program, under the same declarations. An unguarded gate other than H, X, Y and Z is always there
to descend from: it is never removed. -/
theorem optimize_provenance (h : optimize build settings p = .ok (q, stats)) :
    q.declarations = p.declarations ∧
    ∃ f : Fin q.applications.length ↪o Fin p.applications.length,
      (∀ i, (p.applications.get (f i)).Descends (q.applications.get i)) ∧
      ∀ j, (p.applications.get j).guards = [] →
        (p.applications.get j).gate ∉ [.standard .h, .standard .x, .standard .y, .standard .z] →
        ∃ i, f i = j := by
  obtain ⟨g, line, g', line', hthreaded, hevolves, hdeclarations, hp, hq⟩ := exists_evolves h
  refine ⟨hdeclarations, ?_⟩
  rw [← hp, ← hq, g.flat_eq_map line, g'.flat_eq_map line']
  obtain ⟨f, hkept, hgone⟩ := exists_places hevolves.sublist hthreaded.nodup_line
    (fun n ↦ ((g.gate? n).map g.applied).getD default)
    (fun n ↦ ((g'.gate? n).map g'.applied).getD default)
  refine ⟨f, fun i ↦ ?_, fun j hguards hgate ↦ ?_⟩
  · obtain ⟨n, hn, hget, hget'⟩ := hkept i
    obtain ⟨a, ha⟩ := Option.isSome_iff_exists.mp (hthreaded.gate n (hevolves.sublist.subset hn))
    obtain ⟨b, hb⟩ := Option.isSome_iff_exists.mp (hevolves.threaded.gate n hn)
    rw [hget, hget', ha, hb]
    have hdescends := hevolves.kept n hn a b ha hb
    rwa [← Circuit.applied_of_wires hevolves.wires b] at hdescends
  · refine (hgone j).resolve_left ?_
    rintro ⟨n, hn, hget, hn'⟩
    obtain ⟨a, ha⟩ := Option.isSome_iff_exists.mp (hthreaded.gate n hn)
    rw [hget, ha] at hguards hgate
    exact (hevolves.gone n hn hn' a ha).elim (fun hne ↦ hne hguards) hgate

end Results

/-- A guarded X between Hadamard gates exchanges its target with its guard, a gate whose guard is
decided goes, and an S gate stays. -/
theorem optimize_provenance_reversed :
    let q₀ : Qubit := ⟨"q", some 0⟩
    let q₁ : Qubit := ⟨"q", some 1⟩
    let h₀ : Instruction := .apply ⟨.standard .h, [q₀], []⟩
    let h₁ : Instruction := .apply ⟨.standard .h, [q₁], []⟩
    let s₀ : Instruction := .apply ⟨.standard .s, [q₀], []⟩
    let p : Program := [.declare ⟨"q", some 2⟩, .apply ⟨.standard .t, [q₁], [⟨q₀, false⟩]⟩, s₀, h₀,
      h₁, .apply ⟨.standard .x, [q₀], [⟨q₁, false⟩]⟩, h₀, h₁, .declare ⟨"r", none⟩]
    let q : Program := [.declare ⟨"q", some 2⟩, .declare ⟨"r", none⟩, s₀,
      .apply ⟨.standard .x, [q₁], [⟨q₀, false⟩]⟩]
    let stats : Statistics := ⟨7, 2, 2, [("control-reversal", 1), ("peeping-control", 1)], false⟩
    optimize .development ⟨⟨true, true, false, true⟩, none, 10⟩ p = .ok (q, stats) ∧
      q.declarations = p.declarations ∧
      ∃ f : Fin 2 ↪o Fin 7,
        (∀ i, (p.applications.get (f i)).Descends (q.applications.get i)) ∧ ∃ i, f i = 1 := by
  intro q₀ q₁ h₀ h₁ s₀ p q stats
  have hrun : optimize .development ⟨⟨true, true, false, true⟩, none, 10⟩ p = .ok (q, stats) :=
    Run.toOption_eq_some.mp (by decide +kernel)
  obtain ⟨hdeclarations, f, hdescends, hkept⟩ := optimize_provenance hrun
  have hgate : (.standard .s : Gate) ∉
      [.standard .h, .standard .x, .standard .y, .standard .z] := by simp
  exact ⟨hrun, hdeclarations, f, hdescends, hkept (1 : Fin 7) rfl hgate⟩

end Peephole
