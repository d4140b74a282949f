import Mathlib.Data.List.Perm.Subperm
import Peephole.Circuit.Integrity
import Peephole.Circuit.Path
import Peephole.Proofs.Running
import Peephole.Proofs.Threads

/-!
# Walks along wires

In a circuit with a line every walk along a wire finds the nodes of its thread: one step forward or
back leads to the neighbour (`Threaded.nextOn_eq_ok`, `Threaded.prevOn_eq_ok`), and the gates of a
wire are those of the line that touch it (`Threaded.gatesOn_ok`). A walk that makes a path takes the
links of a stretch that ends at its limit, at the node where it is to stop or at the output
(`Threaded.path_follow_ok`). So it keeps to its limit (`Threaded.walk_limited`), reaches a node on
its way (`Threaded.walk_reaching`) and notices at the output that it has missed another one
(`Threaded.walk_missing`). The bounds on the number of steps are never reached. The paths that start
at the nodes of a whole wire are its ends (`Path.mem_suffixesFrom`).
-/

set_option autoImplicit false
set_option relaxedAutoImplicit false

namespace Peephole

theorem eq_take_append_cons_drop {l : List Nat} {i a : Nat} (h : l[i]? = some a) :
    l = l.take i ++ a :: l.drop (i + 1) := by
  obtain ⟨hi, rfl⟩ := List.getElem?_eq_some_iff.mp h
  rw [← List.drop_eq_getElem_cons hi, List.take_append_drop]

/-- The last node of a list without repetitions is not among the others. -/
theorem getLastD_not_mem_dropLast {l : List Nat} {a : Nat} (h : (a :: l).Nodup) :
    l.getLastD a ∉ (a :: l).dropLast := by
  rw [← List.dropLast_concat_getLast (List.cons_ne_nil a l), List.getLast_eq_getLastD] at h
  exact fun hmem ↦ (List.nodup_append.mp h).2.2 _ hmem _ (List.mem_singleton_self _) rfl

namespace Path

variable {g : Circuit} {w output start : Nat} {stop left : Option Nat} {budget current : Nat}

theorem follow_stop (h : left = some 0 ∨ stop = some current ∨ current = output) :
    follow g w output start stop budget left current = .ok [] := by
  unfold follow
  exact if_pos h

theorem follow_step (h : ¬ (left = some 0 ∨ stop = some current ∨ current = output)) {i : Nat}
    {e : Edge} (he : g.outEdge current w = .ok (i, e)) {rest : List Edge}
    (hrest : follow g w output start stop budget (left.map (· - 1)) e.target = .ok rest) :
    follow g w output start stop (budget + 1) left current = .ok (e :: rest) := by
  unfold follow
  dsimp only
  rw [if_neg h, he]
  change (follow g w output start stop budget (left.map (· - 1)) e.target >>= _) = _
  rw [hrest]
  rfl

section Outcome

variable (houtput : g.outputOf w = .ok output) {limit : Option Nat} {edges : List Edge}
  (hfollow : follow g w output start stop (g.gateCount + 2) limit start = .ok edges)

include houtput hfollow

/-- A walk gives its edges unless it ends at the output and should have stopped before. -/
theorem walk_ok_of_follow (hreached : ∀ n, stop = some n → n ≠ output →
      last ⟨w, start, edges⟩ = output → ∃ k, limit = some k ∧ k ≤ edges.length) :
    walk g w start stop limit = .ok ⟨w, start, edges⟩ := by
  rw [walk, houtput]
  change (follow g w output start stop (g.gateCount + 2) limit start >>= _) = _
  rw [hfollow]
  cases stop with
  | none => rfl
  | some n =>
    change (if (_ && _ && _) = true then _ else _) = _
    rw [if_neg]
    · rfl
    · intro hmissed
      simp only [Bool.and_eq_true, decide_eq_true_eq] at hmissed
      obtain ⟨k, rfl, hk⟩ := hreached n rfl hmissed.1.2 hmissed.1.1
      exact absurd (of_decide_eq_true hmissed.2) (Nat.not_lt_of_le hk)

/-- A walk that ends at the output and should have stopped before is on a broken wire. -/
theorem walk_error_of_follow {n : Nat} (hstop : stop = some n) (hne : n ≠ output)
    (hlast : last ⟨w, start, edges⟩ = output) (hlimit : ∀ k ∈ limit, edges.length < k) :
    walk g w start stop limit = .error (.brokenWire w (.node start)) := by
  rw [walk, houtput]
  change (follow g w output start stop (g.gateCount + 2) limit start >>= _) = _
  rw [hfollow, hstop]
  change (if (_ && _ && _) = true then _ else _) = _
  rw [if_pos]
  · rfl
  · simp only [Bool.and_eq_true, decide_eq_true_eq]
    refine ⟨⟨hlast, hne⟩, ?_⟩
    cases limit with
    | none => rfl
    | some k => exact decide_eq_true (hlimit k rfl)

end Outcome

/-- The nodes of a path that consists of links. -/
theorem window_links {l : List Nat} : window ⟨w, current, links w (current :: l)⟩ = l := by
  rw [window]
  induction l generalizing current with
  | nil => rfl
  | cons b rest ih => rw [links_cons_cons, List.map_cons, ih]

theorem length_suffixesFrom {edges : List Edge} :
    (suffixesFrom w start edges).length = edges.length + 1 := by
  induction edges generalizing start with
  | nil => rfl
  | cons e rest ih => rw [suffixesFrom, List.length_cons, ih, List.length_cons]

/-- The path that starts at some node of a list of links is the end of the list from there. -/
theorem getElem?_suffixesFrom {l front back : List Nat} {a : Nat}
    (h : start :: l = front ++ a :: back) :
    (suffixesFrom w start (links w (start :: l)))[front.length]? =
      some ⟨w, a, links w (a :: back)⟩ := by
  induction front generalizing start l with
  | nil =>
    cases h
    cases back <;> rfl
  | cons x front ih =>
    rw [List.cons_append, List.cons.injEq] at h
    obtain ⟨rfl, rfl⟩ := h
    obtain ⟨b, rest, hrest⟩ := List.exists_cons_of_ne_nil (l := front ++ a :: back) (by simp)
    rw [hrest, links_cons_cons, suffixesFrom, List.length_cons, List.getElem?_cons_succ]
    exact ih hrest.symm

theorem mem_suffixesFrom {l : List Nat} {p : Path} :
    p ∈ suffixesFrom w start (links w (start :: l)) ↔
      ∃ front x back, start :: l = front ++ x :: back ∧ p = ⟨w, x, links w (x :: back)⟩ := by
  constructor
  · intro hp
    obtain ⟨i, hi, rfl⟩ := List.mem_iff_getElem.mp hp
    have hlt : i < (start :: l).length := by
      rw [length_suffixesFrom, length_links] at hi
      exact hi
    have hlist := eq_take_append_cons_drop (List.getElem?_eq_getElem hlt)
    have hfound := getElem?_suffixesFrom (w := w) hlist
    rw [List.length_take_of_le (Nat.le_of_lt hlt), List.getElem?_eq_getElem hi,
      Option.some.injEq] at hfound
    exact ⟨_, _, _, hlist, hfound⟩
  · rintro ⟨front, x, back, hlist, rfl⟩
    exact List.mem_of_getElem? (getElem?_suffixesFrom hlist)

/-- The stretches of a path that have at most `limit` edges, one from each of its nodes. -/
def stretches (p : Path) (limit : Nat) : List Path :=
  p.suffixes.map (·.take limit)

theorem last_links {l : List Nat} :
    last ⟨w, current, links w (current :: l)⟩ = l.getLastD current := by
  rw [last, window_links]

theorem take_links {l : List Nat} (limit : Nat) :
    (links w (start :: l)).take limit = links w (start :: l.take limit) := by
  induction l generalizing start limit with
  | nil => rw [links_singleton, List.take_nil, List.take_nil, links_singleton]
  | cons b rest ih =>
    cases limit with
    | zero => rfl
    | succ limit =>
      rw [links_cons_cons, List.take_succ_cons, ih, List.take_succ_cons, links_cons_cons]

end Path

theorem Circuit.mem_values_of_edgeAt {g : Circuit} {side : Side} {n w i : Nat} {e : Edge}
    (h : g.edgeAt side n w = .ok (i, e)) :
    e ∈ g.edges.values ∧ e.isAt n side = true ∧ e.wire = w := by
  rw [edgeAt] at h
  split at h
  · split at h
    · rename_i found hselect
      cases h
      have hmem : (i, e) ∈ g.edges.select fun e ↦ e.isAt n side && e.wire = w := by
        rw [hselect]
        exact List.mem_singleton_self _
      obtain ⟨hget, hkeep⟩ := Slots.mem_select.mp hmem
      rw [Bool.and_eq_true, decide_eq_true_iff] at hkeep
      exact ⟨Slots.mem_values.mpr ⟨i, hget⟩, hkeep⟩
    · cases h
    · cases h
  · cases h

theorem Circuit.outputOf_ok {g : Circuit} {w : Nat} {wire : Wire} (hw : g.wires[w]? = some wire) :
    g.outputOf w = .ok wire.output := by
  rw [outputOf, Circuit.wire, hw]
  rfl

theorem Circuit.inputOf_ok {g : Circuit} {w : Nat} {wire : Wire} (hw : g.wires[w]? = some wire) :
    g.inputOf w = .ok wire.input := by
  rw [inputOf, Circuit.wire, hw]
  rfl

theorem Circuit.exists_wire_of_thread {g : Circuit} {line front back : List Nat} {w a : Nat}
    (h : g.thread line w = front ++ a :: back) : ∃ wire, g.wires[w]? = some wire := by
  cases hw : g.wires[w]? with
  | none =>
    rw [thread_of_none hw] at h
    simp at h
  | some wire => exact ⟨wire, rfl⟩

/-- A whole wire as a stretch of itself. -/
theorem Circuit.thread_eq_stretch {g : Circuit} {w : Nat} {wire : Wire}
    (hw : g.wires[w]? = some wire) (line : List Nat) : g.thread line w =
      [] ++ wire.input :: ((line.filter (g.isOn w) ++ [wire.output]) ++ []) := by
  rw [List.append_nil]
  exact thread_of_some hw line

/-- Nodes that are all different are no more than there are. -/
theorem Circuit.length_le_size {g : Circuit} {l : List Nat} (hl : l.Nodup)
    (hcontains : ∀ n ∈ l, g.contains n = true) : l.length ≤ g.nodes.size := by
  rw [← Slots.length_keys]
  exact (hl.subperm fun n hn ↦ Slots.mem_keys.mpr (hcontains n hn)).length_le

namespace Strung

variable {g : Circuit} {path : Nat → List Nat} {w : Nat} (h : Strung g.edges path)
  (hnodup : (path w).Nodup) (hcontains : ∀ n ∈ path w, g.contains n = true)

include h hnodup hcontains

theorem nextOn_ok {front back : List Nat} {a b : Nat} (hpath : path w = front ++ a :: b :: back) :
    g.nextOn a w = .ok b := by
  obtain ⟨i, hedge, -⟩ := h.outEdge hnodup hpath (hcontains a (by rw [hpath]; simp))
  rw [Circuit.nextOn, hedge]
  rfl

/-- A walk from a node to the last node finds the nodes between them. -/
theorem follow_ok {front middle : List Nat} {current output steps : Nat}
    (hpath : path w = front ++ current :: (middle ++ [output])) (hsteps : middle.length < steps) :
    g.follow w output steps current = .ok middle := by
  induction middle generalizing front current steps with
  | nil =>
    obtain ⟨steps, rfl⟩ := Nat.exists_eq_succ_of_ne_zero (Nat.ne_of_gt hsteps)
    rw [Circuit.follow, h.nextOn_ok hnodup hcontains hpath]
    exact if_pos rfl
  | cons x rest ih =>
    obtain ⟨steps, rfl⟩ := Nat.exists_eq_succ_of_ne_zero (Nat.ne_of_gt (Nat.zero_lt_of_lt hsteps))
    have hcut : path w = (front ++ [current]) ++ x :: (rest ++ [output]) := by
      rw [hpath, List.append_cons, List.cons_append]
    have hne : x ≠ output := by
      rintro rfl
      rw [hcut] at hnodup
      exact (List.nodup_cons.mp (List.nodup_append.mp hnodup).2.1).1 (by simp)
    rw [Circuit.follow, h.nextOn_ok hnodup hcontains hpath]
    change (if x = output then _ else _) = _
    rw [if_neg hne, ih hcut (Nat.lt_of_succ_lt_succ hsteps)]
    rfl

/-- The gates of a wire are the nodes between its ends. -/
theorem gatesOn_ok {wire : Wire} (hw : g.wires[w]? = some wire) {gates : List Nat}
    (hpath : path w = wire.input :: gates ++ [wire.output]) : g.gatesOn w = .ok gates := by
  have hlength := Circuit.length_le_size hnodup hcontains
  have hsteps : gates.length < g.nodes.size + 1 := by
    rw [hpath, List.length_append, List.length_cons] at hlength
    omega
  have hcut : path w = [] ++ wire.input :: (gates ++ [wire.output]) := hpath
  rw [Circuit.gatesOn, Circuit.outputOf_ok hw, Circuit.inputOf_ok hw]
  exact h.follow_ok hnodup hcontains hcut hsteps

end Strung

namespace Circuit.Threaded

variable {g : Circuit} {line : List Nat} {w : Nat} {wire : Wire} (h : g.Threaded line)

include h

section Steps

variable {front back : List Nat} {a b : Nat} (hthread : g.thread line w = front ++ a :: b :: back)

include hthread

theorem outEdge_ok : ∃ i, g.outEdge a w = .ok (i, ⟨a, b, w⟩) := by
  have ha : a ∈ g.thread line w := by rw [hthread]; simp
  obtain ⟨i, hedge, -⟩ :=
    h.strung.outEdge (h.nodup_thread w) hthread (h.contains_of_mem_thread ha)
  exact ⟨i, hedge⟩

theorem inEdge_ok : ∃ i, g.inEdge b w = .ok (i, ⟨a, b, w⟩) := by
  have hb : b ∈ g.thread line w := by rw [hthread]; simp
  obtain ⟨i, hedge, -⟩ :=
    h.strung.inEdge (h.nodup_thread w) hthread (h.contains_of_mem_thread hb)
  exact ⟨i, hedge⟩

theorem nextOn_ok : g.nextOn a w = .ok b := by
  obtain ⟨i, hedge⟩ := h.outEdge_ok hthread
  rw [nextOn, hedge]
  rfl

theorem prevOn_ok : g.prevOn b w = .ok a := by
  obtain ⟨i, hedge⟩ := h.inEdge_ok hthread
  rw [prevOn, hedge]
  rfl

end Steps

/-- The step forward leads from a node of a wire to the next one, and nowhere else. -/
theorem nextOn_eq_ok {a b : Nat} :
    g.nextOn a w = .ok b ↔ [a, b].IsInfix (g.thread line w) := by
  constructor
  · intro hnext
    obtain ⟨⟨i, e⟩, hedge, htarget⟩ := Run.map_eq_ok.mp hnext
    obtain ⟨hmem, hsource, hwire⟩ := mem_values_of_edgeAt hedge
    obtain ⟨front, back, hthread⟩ := exists_of_mem_links (h.edge_mem hmem)
    have hsource : e.source = a := by simpa [Edge.isAt] using hsource
    have htarget : e.target = b := htarget
    rw [hwire, hsource, htarget] at hthread
    exact ⟨front, back, by rw [hthread]; simp⟩
  · rintro ⟨front, back, hthread⟩
    rw [List.append_assoc] at hthread
    exact h.nextOn_ok hthread.symm

/-- The step back leads from a node of a wire to the one before, and nowhere else. -/
theorem prevOn_eq_ok {a b : Nat} :
    g.prevOn b w = .ok a ↔ [a, b].IsInfix (g.thread line w) := by
  constructor
  · intro hprev
    obtain ⟨⟨i, e⟩, hedge, hsource⟩ := Run.map_eq_ok.mp hprev
    obtain ⟨hmem, htarget, hwire⟩ := mem_values_of_edgeAt hedge
    obtain ⟨front, back, hthread⟩ := exists_of_mem_links (h.edge_mem hmem)
    have htarget : e.target = b := by simpa [Edge.isAt] using htarget
    have hsource : e.source = a := hsource
    rw [hwire, hsource, htarget] at hthread
    exact ⟨front, back, by rw [hthread]; simp⟩
  · rintro ⟨front, back, hthread⟩
    rw [List.append_assoc] at hthread
    exact h.prevOn_ok hthread.symm

/-- The last node of a wire and no other is its output. -/
theorem eq_output_iff (hw : g.wires[w]? = some wire) {front back : List Nat} {a : Nat}
    (hthread : g.thread line w = front ++ a :: back) : a = wire.output ↔ back = [] := by
  have hlast : g.thread line w = (wire.input :: line.filter (g.isOn w)) ++ [wire.output] :=
    thread_of_some hw line
  rw [hthread] at hlast
  rcases List.eq_nil_or_concat back with rfl | ⟨rest, b, rfl⟩
  · exact ⟨fun _ ↦ rfl, fun _ ↦ List.singleton_inj.mp (List.append_inj' hlast rfl).2⟩
  · have hb : b = wire.output := by
      rw [List.concat_eq_append, ← List.cons_append, ← List.append_assoc] at hlast
      exact List.singleton_inj.mp (List.append_inj' hlast rfl).2
    have hnodup := h.nodup_thread w
    rw [hthread] at hnodup
    have hab : a ≠ b := fun hab ↦
      (List.nodup_cons.mp (List.nodup_append.mp hnodup).2.1).1 (by simp [hab])
    rw [← hb]
    exact ⟨fun heq ↦ absurd heq hab, fun hnil ↦ absurd hnil (by simp)⟩

/-- The gates of a wire are those of the line that touch it. -/
theorem gatesOn_ok (hw : g.wires[w]? = some wire) :
    g.gatesOn w = .ok (line.filter (g.isOn w)) :=
  h.strung.gatesOn_ok (h.nodup_thread w) (fun _ ↦ h.contains_of_mem_thread) hw
    (thread_of_some hw line)

/-! ### Paths -/

theorem gateCount_eq : g.gateCount = line.length := by
  rw [gateCount, h.size_nodes]
  omega

theorem length_thread_le : (g.thread line w).length ≤ g.gateCount + 2 := by
  rw [h.gateCount_eq]
  cases hw : g.wires[w]? with
  | none =>
    rw [thread_of_none hw]
    exact Nat.zero_le _
  | some wire =>
    have hfilter := List.length_filter_le (g.isOn w) line
    rw [thread_of_some hw, List.length_append, List.length_cons, List.length_singleton]
    omega

section Walks

variable {front taken beyond : List Nat} {start : Nat} {stop limit : Option Nat}

/-- A walk takes a stretch of links if nothing ends it earlier and something ends it then: the
limit, the node at which it is to stop, or the end of the wire. -/
theorem path_follow_ok (hw : g.wires[w]? = some wire) {current : Nat}
    (hthread : g.thread line w = front ++ current :: (taken ++ beyond))
    (hlimit : ∀ k ∈ limit, taken.length ≤ k)
    (hstop : ∀ n ∈ stop, n ∉ (current :: taken).dropLast)
    (hend : limit = some taken.length ∨ stop = some (taken.getLastD current) ∨ beyond = [])
    {budget : Nat} (hbudget : taken.length ≤ budget) :
    Path.follow g w wire.output start stop budget limit current =
      .ok (links w (current :: taken)) := by
  induction taken generalizing front current limit budget with
  | nil =>
    refine Path.follow_stop (hend.imp_right (.imp_right fun hnil ↦ ?_))
    exact (h.eq_output_iff hw hthread).mpr hnil
  | cons next taken ih =>
    obtain ⟨budget, rfl⟩ := Nat.exists_eq_succ_of_ne_zero
      (Nat.ne_of_gt (Nat.lt_of_lt_of_le (Nat.zero_lt_succ _) hbudget))
    have hgo : ¬ (limit = some 0 ∨ stop = some current ∨ current = wire.output) := by
      rintro (hzero | hhere | hout)
      · exact absurd (hlimit 0 hzero) (Nat.not_succ_le_zero _)
      · exact hstop current hhere List.mem_cons_self
      · exact absurd ((h.eq_output_iff hw hthread).mp hout) (List.cons_ne_nil _ _)
    have hnext : g.thread line w = (front ++ [current]) ++ next :: (taken ++ beyond) := by
      rw [hthread, List.cons_append, List.append_cons]
    obtain ⟨i, hedge⟩ := h.outEdge_ok hthread
    refine Path.follow_step hgo hedge (ih hnext ?_ ?_ ?_ (Nat.le_of_succ_le_succ hbudget))
    · intro k hk
      obtain ⟨most, hmost, rfl⟩ := Option.map_eq_some_iff.mp hk
      exact Nat.le_sub_of_add_le (hlimit most hmost)
    · intro n hn hmem
      exact hstop n hn (List.mem_cons_of_mem current hmem)
    · rw [List.getLastD_cons] at hend
      refine hend.imp_left fun hlast ↦ ?_
      rw [hlast]
      rfl

variable (hthread : g.thread line w = front ++ start :: (taken ++ beyond))

include hthread

theorem walk_follow_ok (hw : g.wires[w]? = some wire) (hlimit : ∀ k ∈ limit, taken.length ≤ k)
    (hstop : ∀ n ∈ stop, n ∉ (start :: taken).dropLast)
    (hend : limit = some taken.length ∨ stop = some (taken.getLastD start) ∨ beyond = []) :
    Path.follow g w wire.output start stop (g.gateCount + 2) limit start =
      .ok (links w (start :: taken)) := by
  refine h.path_follow_ok hw hthread hlimit hstop hend ?_
  have hlength := h.length_thread_le (w := w)
  rw [hthread, List.length_append, List.length_cons, List.length_append] at hlength
  omega

/-- A walk takes as many links as it may, unless it is to stop before. -/
theorem walk_limited (hstop : ∀ n ∈ stop, n ∉ (start :: taken).dropLast) :
    Path.walk g w start stop (some taken.length) = .ok ⟨w, start, links w (start :: taken)⟩ := by
  obtain ⟨wire, hw⟩ := exists_wire_of_thread hthread
  have hfollow := h.walk_follow_ok hthread hw (fun k hk ↦ Nat.le_of_eq (Option.some.inj hk)) hstop
    (.inl rfl)
  refine Path.walk_ok_of_follow (outputOf_ok hw) hfollow fun n _ _ _ ↦ ⟨_, rfl, ?_⟩
  rw [length_links]
  exact Nat.le_refl _

/-- A walk stops at the node where it is to stop. -/
theorem walk_reaching (hlimit : ∀ k ∈ limit, taken.length ≤ k) :
    Path.walk g w start (some (taken.getLastD start)) limit =
      .ok ⟨w, start, links w (start :: taken)⟩ := by
  obtain ⟨wire, hw⟩ := exists_wire_of_thread hthread
  have hnodup := h.nodup_thread w
  rw [hthread, ← List.cons_append] at hnodup
  have hstop : ∀ n ∈ some (taken.getLastD start), n ∉ (start :: taken).dropLast := by
    intro n hn
    rw [← Option.some.inj hn]
    exact getLastD_not_mem_dropLast (List.nodup_append.mp (List.nodup_append.mp hnodup).2.1).1
  have hfollow := h.walk_follow_ok hthread hw hlimit hstop (.inr (.inl rfl))
  refine Path.walk_ok_of_follow (outputOf_ok hw) hfollow fun n hn hne hlast ↦ ?_
  rw [Path.last_links, Option.some.inj hn] at hlast
  exact absurd hlast hne

/-- The path to a node takes the links on the way to it. -/
theorem between_ok : Path.between g w start (taken.getLastD start) =
    .ok ⟨w, start, links w (start :: taken)⟩ := by
  have hlimit : ∀ k ∈ (none : Option Nat), taken.length ≤ k := nofun
  rw [Path.between, h.walk_reaching hthread hlimit]
  exact if_pos Path.last_links

end Walks

section Ends

variable {front rest : List Nat} {start : Nat} {limit : Option Nat}
  (hthread : g.thread line w = front ++ start :: rest)

include hthread

/-- The last node of the rest of a wire is its output. -/
theorem getLastD_eq_output (hw : g.wires[w]? = some wire) : rest.getLastD start = wire.output := by
  have hcut : g.thread line w = (front ++ (start :: rest).dropLast) ++ [rest.getLastD start] := by
    rw [hthread, List.append_assoc, ← List.getLast_eq_getLastD (List.cons_ne_nil start rest),
      List.dropLast_concat_getLast]
  exact (h.eq_output_iff hw hcut).mpr rfl

/-- A walk without a node where it is to stop ends at the output. -/
theorem walk_to_end (hlimit : ∀ k ∈ limit, rest.length ≤ k) :
    Path.walk g w start none limit = .ok ⟨w, start, links w (start :: rest)⟩ := by
  obtain ⟨wire, hw⟩ := exists_wire_of_thread hthread
  have hcut : g.thread line w = front ++ start :: (rest ++ []) := by rw [List.append_nil, hthread]
  have hstop : ∀ n ∈ (none : Option Nat), n ∉ (start :: rest).dropLast := nofun
  have hfollow := h.walk_follow_ok hcut hw hlimit hstop (.inr (.inr rfl))
  exact Path.walk_ok_of_follow (outputOf_ok hw) hfollow nofun

/-- A walk that is to stop at a node that is not on its way finds the wire broken. -/
theorem walk_missing (hlimit : ∀ k ∈ limit, rest.length < k) {n : Nat} (hn : n ∉ start :: rest) :
    Path.walk g w start (some n) limit = .error (.brokenWire w (.node start)) := by
  obtain ⟨wire, hw⟩ := exists_wire_of_thread hthread
  have hcut : g.thread line w = front ++ start :: (rest ++ []) := by rw [List.append_nil, hthread]
  have hstop : ∀ m ∈ some n, m ∉ (start :: rest).dropLast := by
    intro m hm hmem
    rw [← Option.some.inj hm] at hmem
    exact hn (List.dropLast_subset _ hmem)
  have hfollow := h.walk_follow_ok hcut hw (fun k hk ↦ Nat.le_of_lt (hlimit k hk)) hstop
    (.inr (.inr rfl))
  have hlast := h.getLastD_eq_output hthread hw
  refine Path.walk_error_of_follow (outputOf_ok hw) hfollow rfl ?_ (Path.last_links.trans hlast) ?_
  · rintro rfl
    rw [← hlast, ← List.getLast_eq_getLastD (List.cons_ne_nil start rest)] at hn
    exact hn (List.getLast_mem _)
  · rw [length_links]
    exact hlimit

end Ends

/-- The path along a whole wire. -/
theorem full_ok (hw : g.wires[w]? = some wire) :
    Path.full g w = .ok ⟨w, wire.input, links w (g.thread line w)⟩ := by
  have hbetween := h.between_ok (thread_eq_stretch hw line)
  rw [List.getLastD_concat] at hbetween
  rw [Path.full, inputOf_ok hw, outputOf_ok hw, thread_of_some hw]
  exact hbetween

end Circuit.Threaded

end Peephole
