import Peephole.Proofs.Patterns
import Peephole.Proofs.Progress

/-!
# The search misses nothing

The search for a match looks at short windows of single wires. It finds nothing if and only if no
rule applies to any stretch of a wire (`Threaded.findMatch_none_iff`), and a rule applies to a
stretch if and only if its pattern occurs in the flat list of applications
(`Threaded.applies_iff_occurs`). So whether there is a match depends on the list alone
(`Threaded.findMatch_none_iff_occurs`).
-/

set_option autoImplicit false
set_option relaxedAutoImplicit false

namespace Peephole

namespace Circuit

variable {g : Circuit} {line ns : List Nat} {w n a b c : Nat} {p : GateNode} {path path' : Path}
  {rule : Rule} {rules : List Rule}

/-! ### Windows -/

/-- A path on a wire with given nodes after the first. -/
def stretch (w : Nat) (ns : List Nat) : Path :=
  ⟨w, 0, links w (0 :: ns)⟩

theorem window_stretch : (stretch w ns).window = ns :=
  Path.window_links

/-- Whether a rule applies depends on the wire of a path and its nodes after the first. -/
theorem applies_congr (hwindow : path'.window = path.window) (hwire : path'.wire = path.wire) :
    rule.applies g path' = rule.applies g path := by
  have hlength : path'.length = path.length := by
    simpa [Path.window, Path.length] using congrArg List.length hwindow
  have hgates (depth : Nat) : g.gateWindow path' depth = g.gateWindow path depth := by
    rw [gateWindow, gateWindow, hwindow, hlength]
  cases rule with
  | cancel gate => simp only [Rule.applies, Rule.cancels, hgates]
  | peep => simp only [Rule.applies, Rule.peeps, hgates, hwire]
  | sandwich middle replacement => simp only [Rule.applies, Rule.sandwiches, hgates, hwire]
  | reverse => simp only [Rule.applies, Rule.reverses, hgates, hwire]

/-- A rule applies to as many gates as its depth says. -/
theorem window_of_applies (h : rule.applies g path = .ok true) :
    path.window.length = rule.depth ∧ ∀ n ∈ path.window, (g.gate? n).isSome := by
  cases rule with
  | cancel gate =>
    obtain ⟨first, p, second, q, hwindow, hp, hq, -⟩ := cancels_eq_true.mp h
    rw [hwindow]
    exact ⟨rfl, by simp [hp, hq]⟩
  | peep =>
    obtain ⟨n, p, value, hwindow, hp, -⟩ := peeps_eq_true.mp h
    rw [hwindow]
    exact ⟨rfl, by simp [hp]⟩
  | sandwich middle replacement =>
    obtain ⟨first, second, third, opening, inner, closing, hs⟩ := sandwiches_eq_true.mp h
    rw [hs.window]
    exact ⟨rfl, by simp [hs.opening_at, hs.inner_at, hs.closing_at]⟩
  | reverse =>
    obtain ⟨first, n, p, third, c, before, after, hwindow, hn, hfirst, hthird, -⟩ :=
      reverses_eq_true.mp h
    rw [hwindow]
    exact ⟨rfl, by simp [hfirst.isSome, hn, hthird.isSome]⟩

/-- Every stretch of gates is seen in a window. -/
theorem Threaded.exists_window (h : g.Threaded line) (hpath : Path.full g w = .ok path)
    (hw : w < g.wires.length) (hns : ns.IsInfix (g.thread line w))
    (hgates : ∀ n ∈ ns, (g.gate? n).isSome) (hne : ns ≠ []) :
    ∃ window ∈ path.stretches ns.length, window.wire = w ∧ window.window = ns := by
  obtain ⟨front, back, hthread⟩ := hns
  have hwire := List.getElem?_eq_getElem hw
  -- The first node of the thread is not a gate, so that some node comes before the stretch.
  have hfront : front ≠ [] := by
    rintro rfl
    obtain ⟨n, rest, rfl⟩ := List.exists_cons_of_ne_nil hne
    rw [thread_of_some hwire] at hthread
    obtain ⟨rfl, -⟩ := List.cons.inj hthread
    have hnone := h.gate?_ends (input_mem_ends hwire)
    have hsome := hgates _ List.mem_cons_self
    rw [hnone] at hsome
    cases hsome
  obtain ⟨front, x, rfl⟩ := (List.eq_nil_or_concat' front).resolve_left hfront
  refine ⟨⟨w, x, links w (x :: ns)⟩, (h.mem_stretches hpath hw).mpr ?_, rfl, Path.window_links⟩
  refine ⟨front, x, ns ++ back, ?_, by rw [List.take_left]⟩
  rw [← hthread]
  simp

/-- The search finds nothing if and only if no rule applies to a stretch of a wire. -/
theorem Threaded.findMatch_none_iff (h : g.Threaded line) :
    findMatch rules g = .ok none ↔ ∀ r ∈ rules, ∀ path : Path,
      path.window.IsInfix (g.thread line path.wire) → r.applies g path ≠ .ok true := by
  rw [h.findMatch_none]
  constructor
  · intro hnone r hr path hstretch happlies
    obtain ⟨hlength, hgates⟩ := window_of_applies happlies
    have hne : path.window ≠ [] := by
      rintro hnil
      rw [hnil] at hlength
      cases r <;> cases hlength
    have hw : path.wire < g.wires.length := by
      by_contra hw
      rw [thread_of_none (List.getElem?_eq_none (Nat.le_of_not_lt hw))] at hstretch
      exact hne (List.infix_nil.mp hstretch)
    have hfull := h.full_ok (List.getElem?_eq_getElem hw)
    obtain ⟨window, hwindow, hwire, hnodes⟩ := h.exists_window hfull hw hstretch hgates hne
    have hfalse := hnone path.wire hw _ hfull r hr window (hlength ▸ hwindow)
    rw [applies_congr hnodes hwire, happlies] at hfalse
    cases hfalse
  · intro hnone w hw path hpath r hr window hwindow
    obtain ⟨answer, happlies⟩ := h.applies_ok r window
    cases answer with
    | false => exact happlies
    | true => exact absurd happlies (hnone r hr window (h.window_isInfix hpath hw hwindow))

theorem Threaded.isInfix_triple_of_line (h : g.Threaded line) {front left right back : List Nat}
    (hline : line = front ++ a :: (left ++ b :: (right ++ c :: back))) (ha : g.isOn w a = true)
    (hb : g.isOn w b = true) (hc : g.isOn w c = true)
    (hoff : ∀ k ∈ left ++ right, g.isOn w k = false) : [a, b, c].IsInfix (g.thread line w) := by
  have hline' : line = (front ++ a :: left) ++ b :: (right ++ c :: back) := by
    rw [hline, List.append_assoc, List.cons_append]
  exact h.isInfix_triple.mpr
    ⟨h.isInfix_of_line hline ha hb fun k hk ↦ hoff k (List.mem_append_left _ hk),
      h.isInfix_of_line hline' hb hc fun k hk ↦ hoff k (List.mem_append_right _ hk)⟩

section Occurrences

variable (h : g.Threaded line) (hd : g.Declared)

include h hd

/-! ### Neighbours that cancel -/

theorem Threaded.cancel_iff_occurs {gate : StandardGate} :
    (∃ path : Path, path.window.IsInfix (g.thread line path.wire) ∧
      Rule.cancels gate g path = .ok true) ↔
      (Rule.cancel gate).Occurs (g.flat line) := by
  constructor
  · rintro ⟨path, hstretch, happlies⟩
    obtain ⟨first, p, second, q, hwindow, hp, hq, his, hsame, hnext⟩ :=
      cancels_eq_true.mp happlies
    have hfirst : (g.gate? first).isSome := by rw [hp]; rfl
    have hsecond : (g.gate? second).isSome := by rw [hq]; rfl
    have htouch : p.touches path.wire = true := by
      refine h.touches_of_mem_thread (hstretch.subset ?_) hp
      rw [hwindow]
      exact List.mem_cons_self
    obtain ⟨before, middle, after, hline, hoff⟩ := h.follows_apart hfirst hsecond htouch
      fun v hv ↦ h.nextOn_eq_ok.mp (hnext v hv)
    refine ⟨g.flat before, g.applied p, g.flat middle, g.applied q, g.flat after, ?_, his,
      ⟨_, touches_applied.mpr ⟨path.wire, htouch, rfl⟩⟩, ?_, ?_⟩
    · rw [hline, flat_append, flat_cons hp, flat_append, flat_cons hq]
    · rw [hd.sameEffect_applied (h.carries hp) (h.carries hq), hsame]
    · refine (h.apart_iff hd (fun k hk ↦ ?_) (h.carries hp)).mpr hoff
      rw [hline]
      simp [hk]
  · rintro ⟨before, a, between, b, after, hlist, his, ⟨x, hx⟩, hsame, hoff⟩
    obtain ⟨front, first, rest, p, hline, hp, rfl, -, hrest⟩ := exists_of_flat_eq h.gate hlist
    have hmem : ∀ k ∈ rest, k ∈ line := by
      intro k hk
      rw [hline]
      simp [hk]
    obtain ⟨middle, second, back, q, rfl, hq, rfl, rfl, -⟩ :=
      exists_of_flat_eq (fun k hk ↦ h.gate k (hmem k hk)) hrest
    rw [hd.sameEffect_applied (h.carries hp) (h.carries hq)] at hsame
    obtain ⟨w, hw, rfl⟩ := touches_applied.mp hx
    have happart := (h.apart_iff hd (fun k hk ↦ hmem k (List.mem_append_left _ hk))
      (h.carries hp)).mp hoff
    have hnext : ∀ v, p.touches v = true → [first, second].IsInfix (g.thread line v) := by
      intro v hv
      refine h.isInfix_of_line hline (isOn_iff.mpr ⟨p, hp, hv⟩) (isOn_iff.mpr ⟨q, hq, ?_⟩)
        fun k hk ↦ happart k hk v hv
      exact (GateNode.touches_of_sameEffect hsame v).mpr hv
    refine ⟨stretch w [first, second], ?_, cancels_eq_true.mpr ⟨first, p, second, q, window_stretch,
      hp, hq, his, hsame, fun v hv ↦ h.nextOn_eq_ok.mpr (hnext v hv)⟩⟩
    rw [window_stretch]
    exact hnext w hw

/-! ### Gates between Hadamards -/

theorem Sandwiched.occurs {middle replacement : StandardGate} {first second third : Nat}
    {opening inner closing : GateNode}
    (hs : Sandwiched g path middle first second third opening inner closing)
    (hstretch : path.window.IsInfix (g.thread line path.wire)) :
    (Rule.sandwich middle replacement).Occurs (g.flat line) := by
  have hopening := h.carries hs.opening_at
  have hinner := h.carries hs.inner_at
  have hw := hopening path.wire hs.opening_touches
  have hfirst : (g.gate? first).isSome := by rw [hs.opening_at]; rfl
  have hsecond : (g.gate? second).isSome := by rw [hs.inner_at]; rfl
  have hthird : (g.gate? third).isSome := by rw [hs.closing_at]; rfl
  -- The gate in the middle cuts the line, and the outer ones are found on its two sides.
  obtain ⟨front, back, hline⟩ := List.append_of_mem (h.mem_line_of_gate hs.inner_at)
  obtain ⟨before, left, rfl, hleft⟩ := (h.follows_apart hfirst hsecond hs.opening_touches
    fun v hv ↦ (hs.neighbours h hstretch hv).1).front_of_line h.nodup_line hline
  obtain ⟨right, after, rfl, hright⟩ := (h.follows_apart hsecond hthird hs.opening_touches
    fun v hv ↦ (hs.neighbours h hstretch hv).2).back_of_line h.nodup_line hline
  refine ⟨g.flat before, g.applied opening, g.flat left, g.applied inner, g.flat right,
    g.applied closing, g.flat after, g.qubitAt path.wire, ?_, hs.hadamard,
    (hd.targets_applied hopening hw).mpr hs.outer_target, ?_, hs.middle,
    (hd.targets_applied hinner hw).mpr hs.inner_target,
    (hd.guards_applied hopening hinner).mpr hs.guards, ?_⟩
  · rw [hline, flat_append, flat_append, flat_cons hs.opening_at, flat_cons hs.inner_at,
      flat_append, flat_cons hs.closing_at, List.append_assoc, List.cons_append]
  · rw [hd.sameEffect_applied hopening (h.carries hs.closing_at), hs.same]
  · rw [← flat_append]
    refine (h.apart_iff hd (fun k hk ↦ ?_) hopening).mpr fun k hk ↦ ?_
    · rw [hline]
      rcases List.mem_append.mp hk with hk | hk <;> simp [hk]
    · exact (List.mem_append.mp hk).elim (hleft k) (hright k)

/-- The three gates of a sandwich in the list are neighbours on all wires of the outer ones. -/
theorem Threaded.exists_sandwiched {middle replacement : StandardGate}
    (hoccurs : (Rule.sandwich middle replacement).Occurs (g.flat line)) :
    ∃ w first second third opening inner closing,
      [first, second, third].IsInfix (g.thread line w) ∧
      Sandwiched g (stretch w [first, second, third]) middle first second third opening inner
        closing := by
  obtain ⟨before, a, left, k, right, b, after, x, hlist, hgate, htarget, hsame, hmiddle, htarget',
    hguards, hoff⟩ := hoccurs
  obtain ⟨front, first, rest, opening, hline, hopening, rfl, -, hrest⟩ :=
    exists_of_flat_eq h.gate hlist
  have hmem : ∀ k ∈ rest, k ∈ line := by
    intro k hk
    rw [hline]
    simp [hk]
  obtain ⟨left, second, rest', inner, rfl, hinner, rfl, rfl, hrest'⟩ :=
    exists_of_flat_eq (fun k hk ↦ h.gate k (hmem k hk)) hrest
  obtain ⟨right, third, back, closing, rfl, hclosing, rfl, rfl, -⟩ :=
    exists_of_flat_eq (fun k hk ↦ h.gate k (hmem k (by simp [hk]))) hrest'
  have hcarried := h.carries hopening
  obtain ⟨w, htargets, rfl⟩ := List.map_eq_singleton_iff.mp htarget
  have hw : opening.touches w = true := GateNode.touches_of_target (by simp [htargets])
  rw [hd.sameEffect_applied hcarried (h.carries hclosing)] at hsame
  rw [hd.targets_applied (h.carries hinner) (hcarried w hw)] at htarget'
  rw [hd.guards_applied hcarried (h.carries hinner)] at hguards
  rw [← flat_append] at hoff
  have hapart := (h.apart_iff hd (fun k hk ↦ hmem k (by
    rcases List.mem_append.mp hk with hk | hk <;> simp [hk])) hcarried).mp hoff
  have hnext : ∀ v, opening.touches v = true →
      [first, second, third].IsInfix (g.thread line v) := by
    intro v hv
    have hinside := GateNode.touches_of_subset (htarget'.trans htargets.symm) hguards hv
    have hclosed := (GateNode.touches_of_sameEffect hsame v).mpr hv
    exact h.isInfix_triple_of_line hline (isOn_iff.mpr ⟨opening, hopening, hv⟩)
      (isOn_iff.mpr ⟨inner, hinner, hinside⟩) (isOn_iff.mpr ⟨closing, hclosing, hclosed⟩)
      fun k hk ↦ hapart k hk v hv
  refine ⟨w, first, second, third, opening, inner, closing, hnext w hw, window_stretch, hopening,
    hinner, hclosing, hgate, htargets, hsame, hmiddle, htarget', hguards, fun c hc ↦ ?_⟩
  exact (h.isInfix_triple.mp (hnext c.wire (GateNode.touches_of_guard hc))).imp
    h.nextOn_eq_ok.mpr h.nextOn_eq_ok.mpr

theorem Threaded.sandwich_iff_occurs {middle replacement : StandardGate} :
    (∃ path : Path, path.window.IsInfix (g.thread line path.wire) ∧
      Rule.sandwiches middle g path = .ok true) ↔
      (Rule.sandwich middle replacement).Occurs (g.flat line) := by
  constructor
  · rintro ⟨path, hstretch, happlies⟩
    obtain ⟨first, second, third, opening, inner, closing, hs⟩ := sandwiches_eq_true.mp happlies
    exact hs.occurs h hd hstretch
  · intro hoccurs
    obtain ⟨w, first, second, third, opening, inner, closing, hstretch, hs⟩ :=
      h.exists_sandwiched hd hoccurs
    refine ⟨stretch w [first, second, third], ?_, sandwiches_eq_true.mpr ⟨_, _, _, _, _, _, hs⟩⟩
    rw [window_stretch]
    exact hstretch

/-! ### Controlled nots between Hadamards -/

theorem Threaded.endsInHadamard_iff {front back : List Nat} (hline : line = front ++ n :: back)
    (hn : g.isOn w n = true) :
    EndsInHadamard (g.flat front) (g.qubitAt w) ↔
      ∃ b, g.IsHadamardOn b w ∧ [b, n].IsInfix (g.thread line w) := by
  obtain ⟨p, hp, htouch⟩ := isOn_iff.mp hn
  have hw := h.carries hp w htouch
  have hmem : ∀ k ∈ front, k ∈ line := by
    intro k hk
    rw [hline]
    exact List.mem_append_left _ hk
  constructor
  · rintro ⟨before, a, after, hflat, hplain, hoff⟩
    obtain ⟨before, b, middle, q, rfl, hq, rfl, -, rfl⟩ :=
      exists_of_flat_eq (fun k hk ↦ h.gate k (hmem k hk)) hflat
    have hplain := (hd.isPlain_applied (h.carries hq) hw).mp hplain
    refine ⟨b, ⟨q, hq, hplain⟩, ?_⟩
    have hcut : line = before ++ b :: (middle ++ n :: back) := by
      rw [hline]
      simp
    refine h.isInfix_of_line hcut (isOn_iff.mpr ⟨q, hq, ?_⟩) hn
      ((h.off_iff hd (fun k hk ↦ hmem k (by simp [hk])) hw).mp hoff)
    exact GateNode.touches_of_target (by simp [(GateNode.isPlain_iff.mp hplain).2.2])
  · rintro ⟨b, ⟨q, hq, hplain⟩, hnext⟩
    obtain ⟨before, middle, rfl, hoff⟩ := (h.follows hnext (by rw [hq]; rfl)
      (by rw [hp]; rfl)).front_of_line h.nodup_line hline
    refine ⟨g.flat before, g.applied q, g.flat middle, by rw [flat_append, flat_cons hq],
      (hd.isPlain_applied (h.carries hq) hw).mpr hplain, ?_⟩
    exact (h.off_iff hd (fun k hk ↦ hmem k (by simp [hk])) hw).mpr hoff

theorem Threaded.startsWithHadamard_iff {front back : List Nat} (hline : line = front ++ n :: back)
    (hn : g.isOn w n = true) :
    StartsWithHadamard (g.flat back) (g.qubitAt w) ↔
      ∃ b, g.IsHadamardOn b w ∧ [n, b].IsInfix (g.thread line w) := by
  obtain ⟨p, hp, htouch⟩ := isOn_iff.mp hn
  have hw := h.carries hp w htouch
  have hmem : ∀ k ∈ back, k ∈ line := by
    intro k hk
    rw [hline]
    simp [hk]
  constructor
  · rintro ⟨before, a, after, hflat, hplain, hoff⟩
    obtain ⟨middle, b, after, q, rfl, hq, rfl, rfl, -⟩ :=
      exists_of_flat_eq (fun k hk ↦ h.gate k (hmem k hk)) hflat
    have hplain := (hd.isPlain_applied (h.carries hq) hw).mp hplain
    refine ⟨b, ⟨q, hq, hplain⟩, ?_⟩
    refine h.isInfix_of_line hline hn (isOn_iff.mpr ⟨q, hq, ?_⟩)
      ((h.off_iff hd (fun k hk ↦ hmem k (by simp [hk])) hw).mp hoff)
    exact GateNode.touches_of_target (by simp [(GateNode.isPlain_iff.mp hplain).2.2])
  · rintro ⟨b, ⟨q, hq, hplain⟩, hnext⟩
    obtain ⟨middle, after, rfl, hoff⟩ := (h.follows hnext (by rw [hp]; rfl)
      (by rw [hq]; rfl)).back_of_line h.nodup_line hline
    refine ⟨g.flat middle, g.applied q, g.flat after, by rw [flat_append, flat_cons hq],
      (hd.isPlain_applied (h.carries hq) hw).mpr hplain, ?_⟩
    exact (h.off_iff hd (fun k hk ↦ hmem k (by simp [hk])) hw).mpr hoff

theorem Threaded.reverse_iff_occurs :
    (∃ path : Path, path.window.IsInfix (g.thread line path.wire) ∧
      Rule.reverses g path = .ok true) ↔ Rule.reverse.Occurs (g.flat line) := by
  constructor
  · rintro ⟨path, hstretch, happlies⟩
    obtain ⟨first, n, p, third, c, before, after, hwindow, hn, hfirst, hthird, hc, hhadamards⟩ :=
      reverses_eq_true.mp happlies
    obtain ⟨hprev, hnext, hbefore, hafter⟩ := controlHadamards_eq_some.mp hhadamards
    obtain ⟨hne, hflips⟩ := GateNode.controlOf_eq_some.mp hc
    rw [hwindow] at hstretch
    obtain ⟨hpair, hpair'⟩ := h.isInfix_triple.mp hstretch
    obtain ⟨front, back, hline⟩ := List.append_of_mem (h.mem_line_of_gate hn)
    have hont := isOn_iff.mpr ⟨p, hn, hflips.touches.1⟩
    have honc := isOn_iff.mpr ⟨p, hn, hflips.touches.2⟩
    refine ⟨g.flat front, g.applied p, g.flat back, g.qubitAt path.wire, g.qubitAt c, ?_, ?_,
      flipsUnder_applied.mpr ⟨_, _, hflips, rfl, rfl⟩, ?_⟩
    · rw [hline, flat_append, flat_cons hn]
    · intro heq
      exact hne (hd.qubitAt_inj (h.carries hn c hflips.touches.2)
        (h.carries hn _ hflips.touches.1) heq)
    · simp only [List.forall_mem_cons, List.not_mem_nil, IsEmpty.forall_iff, implies_true, and_true]
      exact ⟨⟨(h.endsInHadamard_iff hd hline hont).mpr ⟨first, hfirst, hpair⟩,
        (h.startsWithHadamard_iff hd hline hont).mpr ⟨third, hthird, hpair'⟩⟩,
        (h.endsInHadamard_iff hd hline honc).mpr ⟨before, hbefore, h.prevOn_eq_ok.mp hprev⟩,
        (h.startsWithHadamard_iff hd hline honc).mpr ⟨after, hafter, h.nextOn_eq_ok.mp hnext⟩⟩
  · rintro ⟨before, k, after, t, c, hlist, hne, hturns, hhadamards⟩
    obtain ⟨front, n, back, p, hline, hn, rfl, rfl, rfl⟩ := exists_of_flat_eq h.gate hlist
    obtain ⟨v, w, hflips, rfl, rfl⟩ := flipsUnder_applied.mp hturns
    have honv := isOn_iff.mpr ⟨p, hn, hflips.touches.1⟩
    have honw := isOn_iff.mpr ⟨p, hn, hflips.touches.2⟩
    obtain ⟨hends, hstarts⟩ := hhadamards (g.qubitAt v) (by simp)
    obtain ⟨hends', hstarts'⟩ := hhadamards (g.qubitAt w) (by simp)
    obtain ⟨first, hfirst, hpair⟩ := (h.endsInHadamard_iff hd hline honv).mp hends
    obtain ⟨third, hthird, hpair'⟩ := (h.startsWithHadamard_iff hd hline honv).mp hstarts
    obtain ⟨before, hbefore, hprev⟩ := (h.endsInHadamard_iff hd hline honw).mp hends'
    obtain ⟨after, hafter, hnext⟩ := (h.startsWithHadamard_iff hd hline honw).mp hstarts'
    refine ⟨stretch v [first, n, third], ?_, reverses_eq_true.mpr
      ⟨first, n, p, third, w, before, after, window_stretch, hn, hfirst, hthird, ?_, ?_⟩⟩
    · rw [window_stretch]
      exact h.isInfix_triple.mpr ⟨hpair, hpair'⟩
    · exact GateNode.controlOf_eq_some.mpr ⟨fun heq ↦ hne (congrArg g.qubitAt heq), hflips⟩
    · exact controlHadamards_eq_some.mpr
        ⟨h.prevOn_eq_ok.mpr hprev, h.nextOn_eq_ok.mpr hnext, hbefore, hafter⟩

/-! ### Guards that are decided -/

omit h hd in
/-- The state of a wire is known as long as only X, Y and Z are met on it. -/
theorem stateAfter_isSome_iff {nodes : List Nat} {value : Bool} :
    (∃ value', Rule.stateAfter g w value nodes = .ok (some value')) ↔
      ∀ n ∈ nodes, ∃ p, g.gate? n = some p ∧ p.IsPauli w := by
  induction nodes generalizing value with
  | nil => exact ⟨fun _ n hn ↦ absurd hn List.not_mem_nil, fun _ ↦ ⟨value, rfl⟩⟩
  | cons n rest ih =>
    rw [List.forall_mem_cons]
    constructor
    · rintro ⟨value', hstate⟩
      obtain ⟨p, hp, hguards, htargets, ⟨hgate, hrest⟩ | ⟨hgate, hrest⟩⟩ := stateAfter_cons hstate
      · exact ⟨⟨p, hp, hgate.imp_right .inl, hguards, htargets⟩, ih.mp ⟨value', hrest⟩⟩
      · exact ⟨⟨p, hp, .inr (.inr hgate), hguards, htargets⟩, ih.mp ⟨value', hrest⟩⟩
    · rintro ⟨⟨p, hp, hgate, hguards, htargets⟩, hrest⟩
      have htest : (p.isUnguarded && p.targets == [w]) = true := by
        simp [GateNode.isUnguarded, hguards, htargets]
      rw [Rule.stateAfter, hp]
      dsimp only
      rw [if_pos htest]
      rcases hgate with hgate | hgate | hgate
      · rw [hgate]
        exact ih.mpr hrest
      · rw [hgate]
        exact ih.mpr hrest
      · rw [hgate]
        exact ih.mpr hrest

omit hd in
theorem Threaded.basisState_isSome_iff {before after : List Nat}
    (hline : line = before ++ n :: after) (hn : g.isOn w n = true) :
    (∃ value, Rule.basisState g w n = .ok (some value)) ↔
      ∀ k ∈ before, ∀ p, g.gate? k = some p → p.touches w = true → p.IsPauli w := by
  rw [h.basisState_eq hline hn, stateAfter_isSome_iff]
  constructor
  · intro hpauli k hk p hp htouch
    obtain ⟨q, hq, hpauli⟩ :=
      hpauli k (List.mem_filter.mpr ⟨hk, isOn_iff.mpr ⟨p, hp, htouch⟩⟩)
    rw [hp, Option.some.injEq] at hq
    rwa [hq]
  · intro hpauli k hk
    obtain ⟨hk, hon⟩ := List.mem_filter.mp hk
    obtain ⟨p, hp, htouch⟩ := isOn_iff.mp hon
    exact ⟨p, hp, hpauli k hk p hp htouch⟩

/-- The state of a wire is known before a gate if all earlier applications that touch its qubit are
X, Y and Z on it. -/
theorem Threaded.known_iff {before after : List Nat} (hline : line = before ++ n :: after)
    (hp : g.gate? n = some p) (hw : p.touches w = true) :
    (∃ value, Rule.basisState g w n = .ok (some value)) ↔
      ∀ k ∈ g.flat before, k.Touches (g.qubitAt w) → k.IsPauli (g.qubitAt w) := by
  have hgates : ∀ k ∈ before, (g.gate? k).isSome := by
    intro k hk
    refine h.gate k ?_
    rw [hline]
    exact List.mem_append_left _ hk
  have hlt := h.carries hp w hw
  rw [h.basisState_isSome_iff hline (isOn_iff.mpr ⟨p, hp, hw⟩), forall_mem_flat hgates]
  refine forall₂_congr fun k hk ↦ forall₂_congr fun q hq ↦ ?_
  rw [hd.touches_qubitAt (h.carries hq) hlt, hd.isPauli_applied (h.carries hq) hlt]

theorem Threaded.peep_iff_occurs :
    (∃ path : Path, path.window.IsInfix (g.thread line path.wire) ∧
      Rule.peeps g path = .ok true) ↔ Rule.peep.Occurs (g.flat line) := by
  constructor
  · rintro ⟨path, -, happlies⟩
    obtain ⟨n, p, value, hwindow, hp, hguard, htarget, hstate⟩ := peeps_eq_true.mp happlies
    obtain ⟨before, after, hline⟩ := List.append_of_mem (h.mem_line_of_gate hp)
    obtain ⟨c, hc, hwire⟩ := List.mem_map.mp (GateNode.isGuard_iff.mp hguard)
    have htouch : p.touches path.wire = true := by
      rw [GateNode.touches, hguard, Bool.or_true]
    refine ⟨g.flat before, g.applied p, g.flat after, by rw [hline, flat_append, flat_cons hp],
      ⟨g.qubitAt c.wire, c.negated⟩, List.mem_map_of_mem hc, ?_, ?_⟩
    · intro hmem
      obtain ⟨v, hv, heq⟩ := List.mem_map.mp hmem
      rw [hwire] at heq
      have hsame : v = path.wire := hd.qubitAt_inj
        (h.carries hp v (GateNode.touches_of_target hv)) (h.carries hp _ htouch) heq
      rw [← hsame, GateNode.isTarget_iff.mpr hv] at htarget
      cases htarget
    · rw [hwire]
      exact (h.known_iff hd hline hp htouch).mp ⟨value, hstate⟩
  · rintro ⟨before, a, after, hlist, c, hplaced, htarget, hpauli⟩
    obtain ⟨front, n, back, p, hline, hp, rfl, rfl, rfl⟩ := exists_of_flat_eq h.gate hlist
    obtain ⟨c, hc, rfl⟩ := List.mem_map.mp hplaced
    have hguard : c.wire ∈ p.guardWires := List.mem_map_of_mem hc
    have htouch : p.touches c.wire = true := GateNode.touches_iff.mpr (.inr hguard)
    obtain ⟨value, hstate⟩ := (h.known_iff hd hline hp htouch).mpr hpauli
    refine ⟨stretch c.wire [n], ?_, peeps_eq_true.mpr ⟨n, p, value, window_stretch, hp,
      GateNode.isGuard_iff.mpr hguard, ?_, hstate⟩⟩
    · have hmem : n ∈ g.thread line c.wire :=
        (mem_thread (List.getElem?_eq_getElem (h.carries hp _ htouch))).mpr
          (.inr (.inl ⟨h.mem_line_of_gate hp, isOn_iff.mpr ⟨p, hp, htouch⟩⟩))
      obtain ⟨front, back, hthread⟩ := List.append_of_mem hmem
      rw [window_stretch]
      exact ⟨front, back, by rw [stretch, hthread, List.append_assoc]; rfl⟩
    · rw [← Bool.not_eq_true, GateNode.isTarget_iff]
      exact fun hmem ↦ htarget (List.mem_map_of_mem hmem)

/-! ### All rules -/

/-- A rule applies to a stretch of a wire if and only if it occurs in the list of applications. -/
theorem Threaded.applies_iff_occurs (rule : Rule) :
    (∃ path : Path, path.window.IsInfix (g.thread line path.wire) ∧
      rule.applies g path = .ok true) ↔ rule.Occurs (g.flat line) := by
  cases rule with
  | cancel gate => exact h.cancel_iff_occurs hd
  | peep => exact h.peep_iff_occurs hd
  | sandwich middle replacement => exact h.sandwich_iff_occurs hd
  | reverse => exact h.reverse_iff_occurs hd

/-- The search finds nothing if and only if no rule occurs in the list of applications. -/
theorem Threaded.findMatch_none_iff_occurs :
    findMatch rules g = .ok none ↔ ∀ r ∈ rules, ¬ r.Occurs (g.flat line) := by
  rw [h.findMatch_none_iff]
  refine forall₂_congr fun r _ ↦ ?_
  rw [← h.applies_iff_occurs hd]
  simp only [not_exists, not_and, ne_eq]

end Occurrences

end Circuit

end Peephole
