import Peephole.Proofs.Completeness

/-!
# Results of the optimizer

A run that is not stopped by the cap ends in a program in which no rule that was used occurs
(`Simplification.not_occurs`). The program of a circuit has a circuit again
(`Threaded.exists_ofProgram`), and since whether there is a match depends on the list of
applications alone, a second run finds nothing to do and gives the program back.
-/

set_option autoImplicit false
set_option relaxedAutoImplicit false

namespace Peephole

/-! ### Programs that have a circuit -/

/-- A program that declares new names only, and its qubits before they are used, after some
declarations. -/
def Program.Scoped : List Declaration → Program → Prop
  | _, [] => True
  | ds, .declare d :: rest => d.name ∉ ds.map Declaration.name ∧ Scoped (ds ++ [d]) rest
  | ds, .apply a :: rest =>
    (∀ x, a.Touches x → x ∈ ds.flatMap Declaration.qubits) ∧ Scoped ds rest

theorem Program.scoped_apply {ds : List Declaration} {as : List Application}
    (h : ∀ a ∈ as, ∀ x, a.Touches x → x ∈ ds.flatMap Declaration.qubits) :
    Program.Scoped ds (as.map .apply) := by
  induction as with
  | nil => exact trivial
  | cons a rest ih =>
    exact ⟨h a List.mem_cons_self, ih fun b hb ↦ h b (List.mem_cons_of_mem a hb)⟩

/-- Declarations with different names, followed by applications to declared qubits. -/
theorem Program.scoped_declare {ds ds' : List Declaration} {as : List Application}
    (hnames : ((ds ++ ds').map Declaration.name).Nodup)
    (has : ∀ a ∈ as, ∀ x, a.Touches x → x ∈ (ds ++ ds').flatMap Declaration.qubits) :
    Program.Scoped ds (ds'.map .declare ++ as.map .apply) := by
  induction ds' generalizing ds with
  | nil =>
    rw [List.append_nil] at has
    exact scoped_apply has
  | cons d rest ih =>
    rw [List.append_cons] at hnames has
    refine ⟨fun hmem ↦ ?_, ih hnames has⟩
    rw [List.map_append, List.map_append] at hnames
    exact (List.nodup_append.mp (List.nodup_append.mp hnames).1).2.2 _ hmem _ (by simp) rfl

namespace Circuit

variable {g g' : Circuit} {line : List Nat}

theorem Declared.congr (hd : g.Declared) (hwires : g'.wires = g.wires)
    (hdeclarations : g'.declarations = g.declarations) : g'.Declared := by
  constructor
  · rw [hwires, hdeclarations, hd.qubits]
  · rw [hdeclarations]
    exact hd.names

/-- Declared qubits have wires. -/
theorem Declared.exists_resolveAll (hd : g.Declared) {a : Application}
    (ha : ∀ x, a.Touches x → x ∈ g.declarations.flatMap Declaration.qubits) :
    ∃ targets guards, g.resolveAll a = .ok (targets, guards) := by
  have hdeclared : ∀ x, a.Touches x → ∃ d ∈ g.declarations, d.Introduces x := by
    intro x hx
    obtain ⟨d, hd, hmem⟩ := List.mem_flatMap.mp (ha x hx)
    exact ⟨d, hd, Declaration.mem_qubits.mp hmem⟩
  obtain ⟨⟨targets, guards⟩, hr⟩ := hd.resolveAll_iff.mpr
    ⟨fun q hq ↦ hdeclared q (.inl hq), fun c hc ↦ hdeclared c.qubit (.inr (List.mem_map_of_mem hc))⟩
  exact ⟨targets, guards, hr⟩

/-- A scoped program can be run. -/
theorem Threaded.exists_run (h : g.Threaded line) (hd : g.Declared) {program : Program}
    (hscoped : program.Scoped g.declarations) :
    ∃ t, (program.forM Instruction.run : Edit Unit).run g = .ok () t := by
  -- Every instruction leaves a circuit with a line whose declarations are those read so far.
  induction program generalizing g line with
  | nil => exact ⟨g, rfl⟩
  | cons instruction rest ih =>
    cases instruction with
    | declare d =>
      obtain ⟨hname, hrest⟩ := hscoped
      obtain ⟨hrun, hthreaded⟩ := h.declare_ok hname
      obtain ⟨t, ht⟩ := ih hthreaded (hd.declare hname) (by
        rw [declarations_addWires]
        exact hrest)
      exact ⟨t, (Run.bind_ok (Run.discard_ok hrun)).trans ht⟩
    | apply a =>
      obtain ⟨hqubits, hrest⟩ := hscoped
      obtain ⟨targets, guards, hresolve⟩ := hd.exists_resolveAll hqubits
      obtain ⟨edges, hrun, hthreaded⟩ := h.apply_ok hresolve
      obtain ⟨t, ht⟩ := ih hthreaded (hd.congr rfl rfl) hrest
      exact ⟨t, (Run.bind_ok (Run.discard_ok hrun)).trans ht⟩

theorem Threaded.toProgram_flat (h : g.Threaded line) :
    g.toProgram = .ok (g.declarations.map .declare ++ (g.flat line).map .apply) := by
  rw [h.toProgram_ok, flat, List.map_map]
  rfl

/-- The program of a circuit has a circuit. -/
theorem Threaded.exists_ofProgram (h : g.Threaded line) (hd : g.Declared) {q : Program}
    (hq : g.toProgram = .ok q) : ∃ t, ofProgram q = .ok t := by
  rw [h.toProgram_flat, Except.ok.injEq] at hq
  have hscoped : q.Scoped Circuit.empty.declarations := by
    rw [← hq]
    refine Program.scoped_declare hd.names ((forall_mem_flat h.gate).mpr fun n _ p hp x hx ↦ ?_)
    obtain ⟨w, hw, rfl⟩ := touches_applied.mp hx
    change g.qubitAt w ∈ g.declarations.flatMap Declaration.qubits
    rw [← hd.qubits]
    have hwire := List.getElem?_eq_getElem (h.carries hp w hw)
    rw [qubitAt_of_some hwire]
    exact List.mem_map_of_mem (List.mem_of_getElem? hwire)
  obtain ⟨t, ht⟩ := Threaded.empty.exists_run ⟨rfl, List.nodup_nil⟩ hscoped
  exact ⟨t, by rw [ofProgram, ht]⟩

end Circuit

/-! ### Lists without patterns -/

section Patterns

variable {as before after between left right : List Application} {a b k : Application}

/-- Something stands between equal gates that do not cancel. -/
theorem exists_between_of_not_occurs (h : ∀ r ∈ Family.nullGate.rules, ¬ r.Occurs as)
    (has : as = before ++ a :: (between ++ b :: after))
    (hgate : a.gate ∈ [.standard .h, .standard .x, .standard .y, .standard .z])
    (htouch : ∃ x, a.Touches x) (hsame : a.sameEffect b = true) :
    ∃ k ∈ between, ∃ x, a.Touches x ∧ k.Touches x := by
  have hkind : ∃ kind, Rule.cancel kind ∈ Family.nullGate.rules ∧ a.gate.is kind = true := by
    simp only [List.mem_cons, List.not_mem_nil, or_false] at hgate
    rcases hgate with hgate | hgate | hgate | hgate <;> rw [hgate]
    · exact ⟨.h, by simp [Family.rules], rfl⟩
    · exact ⟨.x, by simp [Family.rules], rfl⟩
    · exact ⟨.y, by simp [Family.rules], rfl⟩
    · exact ⟨.z, by simp [Family.rules], rfl⟩
  obtain ⟨kind, hkind, his⟩ := hkind
  by_contra hfree
  refine h _ hkind ⟨before, a, between, b, after, has, his, htouch, hsame, ?_⟩
  intro k hk x hx hkx
  exact hfree ⟨k, hk, x, hx, hkx⟩

/-- Something other than an X, Y or Z is met on the qubit of a guard that is not decided. -/
theorem exists_other_of_not_occurs (h : ∀ r ∈ Family.peepingControl.rules, ¬ r.Occurs as)
    (has : as = before ++ a :: after) {c : Guard} (hc : c ∈ a.guards)
    (htarget : c.qubit ∉ a.targets) :
    ∃ k ∈ before, k.Touches c.qubit ∧ ¬ k.IsPauli c.qubit := by
  by_contra hknown
  refine h .peep (by simp [Family.rules]) ⟨before, a, after, has, c, hc, htarget, ?_⟩
  intro k hk htouch
  by_contra hother
  exact hknown ⟨k, hk, htouch, hother⟩

/-- Something stands between the Hadamards around an X or a Z that stays. -/
theorem exists_inside_of_not_occurs (h : ∀ r ∈ Family.hSandwich.rules, ¬ r.Occurs as) {x : Qubit}
    (has : as = before ++ a :: (left ++ k :: (right ++ b :: after)))
    (hgate : a.gate = .standard .h) (htarget : a.targets = [x]) (hsame : a.sameEffect b = true)
    (hkind : k.gate ∈ [.standard .x, .standard .z]) (htarget' : k.targets = [x])
    (hguards : a.guards ⊆ k.guards) : ∃ m ∈ left ++ right, ∃ y, a.Touches y ∧ m.Touches y := by
  have hrule : ∃ middle replacement, Rule.sandwich middle replacement ∈ Family.hSandwich.rules ∧
      k.gate.is middle = true := by
    simp only [List.mem_cons, List.not_mem_nil, or_false] at hkind
    rcases hkind with hkind | hkind <;> rw [hkind]
    · exact ⟨.x, .z, by simp [Family.rules], rfl⟩
    · exact ⟨.z, .x, by simp [Family.rules], rfl⟩
  obtain ⟨middle, replacement, hrule, hmiddle⟩ := hrule
  have his : a.gate.is .h = true := by
    rw [hgate]
    rfl
  by_contra hfree
  refine h _ hrule ⟨before, a, left, k, right, b, after, x, has, his, htarget, hsame, hmiddle,
    htarget', hguards, ?_⟩
  intro m hm y hy hmy
  exact hfree ⟨m, hm, y, hy, hmy⟩

/-- Some Hadamard around a controlled not that keeps its direction is missing. -/
theorem exists_missing_of_not_occurs (h : ∀ r ∈ Family.controlReversal.rules, ¬ r.Occurs as)
    {t c : Qubit} (has : as = before ++ k :: after) (hne : c ≠ t) (hflips : k.FlipsUnder t c) :
    ∃ x ∈ [t, c], ¬ (EndsInHadamard before x ∧ StartsWithHadamard after x) := by
  by_contra hall
  refine h .reverse (by simp [Family.rules]) ⟨before, k, after, t, c, has, hne, hflips, ?_⟩
  intro x hx
  by_contra hmissing
  exact hall ⟨x, hx, hmissing⟩

end Patterns

/-! ### Runs that come to an end -/

/-- Windows of one edge are always allowed. -/
theorem Settings.all_of_validate {s : Settings} (h : s.validate = .ok ()) :
    s.maxDepth.all (Family.peepingControl.depth ≤ ·) = true := by
  cases hdepth : s.maxDepth with
  | none => rfl
  | some depth =>
    refine decide_eq_true (Nat.one_le_iff_ne_zero.mpr ?_)
    rintro rfl
    rw [validate, hdepth, if_pos rfl] at h
    split at h <;> cases h

variable {build : Build} {rules used : List Rule} {cap : Nat} {settings : Settings} {p q : Program}
  {stats : Statistics} {g g' : Circuit}

/-- The last circuit of a run has a line and declared wires. -/
theorem Simplification.exists_threaded (hrun : Simplification build rules cap p g used g' q stats) :
    ∃ line, g'.Threaded line ∧ g'.Declared := by
  obtain ⟨line, hthreaded, hreachable, -⟩ := Circuit.ofProgram_ok hrun.built
  obtain ⟨-, -, hd⟩ := hreachable.threaded
  obtain ⟨⟨line', hthreaded'⟩, hwires, hdeclarations, -⟩ := hrun.reduces.threaded hthreaded
  exact ⟨line', hthreaded', hd.congr hwires hdeclarations⟩

/-- A run keeps the declarations. -/
theorem Simplification.declarations (hrun : Simplification build rules cap p g used g' q stats) :
    q.declarations = p.declarations := by
  obtain ⟨line, hthreaded, -, hdeclarations, -⟩ := Circuit.ofProgram_ok hrun.built
  obtain ⟨⟨line', hthreaded'⟩, -, hsame, -⟩ := hrun.reduces.threaded hthreaded
  rw [(hthreaded'.of_toProgram hrun.flattened).1, hsame, hdeclarations]

/-- After a run that was not stopped no rule occurs in the program. -/
theorem Simplification.not_occurs (hrun : Simplification build rules cap p g used g' q stats)
    (hend : stats.capped = false) : ∀ r ∈ rules, ¬ r.Occurs q.applications := by
  obtain ⟨line, hthreaded, hd⟩ := hrun.exists_threaded
  rw [(hthreaded.of_toProgram hrun.flattened).2]
  exact (hthreaded.findMatch_none_iff_occurs hd).mp (hrun.ended hend)

theorem Simplification.family_not_occurs
    (hrun : Simplification build settings.rules cap p g used g' q stats)
    (hend : stats.capped = false) {f : Family} (hf : settings.families.has f = true)
    (hdepth : settings.maxDepth.all (f.depth ≤ ·) = true) :
    ∀ r ∈ f.rules, ¬ r.Occurs q.applications := by
  intro r hr
  refine hrun.not_occurs hend r (Settings.mem_rules.mpr ?_)
  rw [Rule.depth, Family.family_of_mem hr]
  exact ⟨hf, hr, hdepth⟩

/-- A program that has been optimized as far as the rules go has none of their patterns: something
stands between equal gates that would cancel, the state of a guard is unknown, something stands
between the Hadamards around an X or a Z, and some Hadamard around a controlled not is missing. -/
theorem optimize_normal_form (h : optimize build settings p = .ok (q, stats))
    (hend : stats.capped = false) :
    (settings.families.nullGate = true → settings.maxDepth.all (2 ≤ ·) = true →
      ∀ (before between after : List Application) (a b : Application),
        q.applications = before ++ a :: (between ++ b :: after) →
        a.gate ∈ [.standard .h, .standard .x, .standard .y, .standard .z] →
        (∃ x, a.Touches x) → a.sameEffect b = true →
        ∃ k ∈ between, ∃ x, a.Touches x ∧ k.Touches x) ∧
    (settings.families.peepingControl = true →
      ∀ (before after : List Application) (a : Application),
        q.applications = before ++ a :: after → ∀ c ∈ a.guards, c.qubit ∉ a.targets →
        ∃ k ∈ before, k.Touches c.qubit ∧ ¬ k.IsPauli c.qubit) ∧
    (settings.families.hSandwich = true → settings.maxDepth.all (3 ≤ ·) = true →
      ∀ (before left right after : List Application) (a k b : Application) (x : Qubit),
        q.applications = before ++ a :: (left ++ k :: (right ++ b :: after)) →
        a.gate = .standard .h → a.targets = [x] → a.sameEffect b = true →
        k.gate ∈ [.standard .x, .standard .z] → k.targets = [x] → a.guards ⊆ k.guards →
        ∃ m ∈ left ++ right, ∃ y, a.Touches y ∧ m.Touches y) ∧
    (settings.families.controlReversal = true → settings.maxDepth.all (3 ≤ ·) = true →
      ∀ (before after : List Application) (k : Application) (t c : Qubit),
        q.applications = before ++ k :: after → c ≠ t → k.FlipsUnder t c →
        ∃ x ∈ [t, c], ¬ (EndsInHadamard before x ∧ StartsWithHadamard after x)) := by
  obtain ⟨hvalid, hsimplify⟩ := optimize_eq_ok.mp h
  obtain ⟨g, used, g', hrun⟩ := Program.exists_simplification hsimplify
  refine ⟨?_, ?_, ?_, ?_⟩
  · intro hfamily hdepth before between after a b
    exact exists_between_of_not_occurs (hrun.family_not_occurs hend hfamily hdepth)
  · intro hfamily before after a hq c
    exact exists_other_of_not_occurs
      (hrun.family_not_occurs hend hfamily (Settings.all_of_validate hvalid)) hq
  · intro hfamily hdepth before left right after a k b x
    exact exists_inside_of_not_occurs (hrun.family_not_occurs hend hfamily hdepth)
  · intro hfamily hdepth before after k t c
    exact exists_missing_of_not_occurs (hrun.family_not_occurs hend hfamily hdepth)

/-- Two gates cancel, and a T keeps each of the other rules from being used: it stands between two
Xs, in front of a guard and between the Hadamards around an X. -/
theorem optimize_normal_form_blocked :
    let q₀ : Qubit := ⟨"q", some 0⟩
    let q₁ : Qubit := ⟨"q", some 1⟩
    let q₂ : Qubit := ⟨"q", some 2⟩
    let flip : Application := ⟨.standard .x, [q₁], []⟩
    let twist : Application := ⟨.standard .t, [q₁], []⟩
    let guarded : Application := ⟨.standard .t, [q₀], [⟨q₁, false⟩]⟩
    let h₂ : Application := ⟨.standard .h, [q₂], []⟩
    let t₂ : Application := ⟨.standard .t, [q₂], []⟩
    let x₂ : Application := ⟨.standard .x, [q₂], []⟩
    let cx : Application := ⟨.standard .cx, [q₀, q₁], []⟩
    let p : Program := [.declare ⟨"q", some 3⟩, .apply ⟨.standard .h, [q₀], []⟩, .apply flip,
      .apply twist, .apply ⟨.standard .h, [q₀], []⟩, .apply flip, .apply guarded, .apply h₂,
      .apply t₂, .apply x₂, .apply h₂, .apply cx]
    let q : Program := [.declare ⟨"q", some 3⟩, .apply flip, .apply twist, .apply flip,
      .apply guarded, .apply h₂, .apply t₂, .apply x₂, .apply h₂, .apply cx]
    let stats : Statistics := ⟨11, 9, 1, [("null-gate(h)", 1)], false⟩
    optimize .development ⟨.all, none, 10⟩ p = .ok (q, stats) ∧ stats.capped = false ∧
      (∃ k ∈ [twist], ∃ x, flip.Touches x ∧ k.Touches x) ∧
      (∃ k ∈ [flip, twist, flip], k.Touches q₁ ∧ ¬ k.IsPauli q₁) ∧
      (∃ m ∈ [t₂] ++ [], ∃ y, h₂.Touches y ∧ m.Touches y) ∧
      ∃ x ∈ [q₁, q₀], ¬ (EndsInHadamard [flip, twist, flip, guarded, h₂, t₂, x₂, h₂] x ∧
        StartsWithHadamard [] x) := by
  intro q₀ q₁ q₂ flip twist guarded h₂ t₂ x₂ cx p q stats
  have hrun : optimize .development ⟨.all, none, 10⟩ p = .ok (q, stats) :=
    Run.toOption_eq_some.mp (by decide +kernel)
  obtain ⟨hcancel, hpeep, hsandwich, hreverse⟩ := optimize_normal_form hrun rfl
  refine ⟨hrun, rfl, ?_, ?_, ?_, ?_⟩
  · exact hcancel rfl rfl [] [twist] [guarded, h₂, t₂, x₂, h₂, cx] flip flip rfl
      (.tail _ (.head _)) ⟨q₁, .inl (.head _)⟩ rfl
  · exact hpeep rfl [flip, twist, flip] [h₂, t₂, x₂, h₂, cx] guarded rfl ⟨q₁, false⟩ (.head _)
      (by decide)
  · exact hsandwich rfl rfl [flip, twist, flip, guarded] [t₂] [] [cx] h₂ x₂ h₂ q₂ rfl rfl rfl
      rfl (.head _) rfl (List.nil_subset _)
  · exact hreverse rfl rfl [flip, twist, flip, guarded, h₂, t₂, x₂, h₂] [] cx q₁ q₀ rfl (by decide)
      (.inl ⟨rfl, rfl, rfl⟩)

/-- Optimizing a second time changes nothing: no rule is used, and the program stays as it is. -/
theorem optimize_idempotent (h : optimize build settings p = .ok (q, stats))
    (hend : stats.capped = false) :
    optimize build settings q = .ok (q, ⟨q.gateCount, q.gateCount, 0, [], false⟩) := by
  obtain ⟨hvalid, hsimplify⟩ := optimize_eq_ok.mp h
  obtain ⟨g, used, g', hrun⟩ := Program.exists_simplification hsimplify
  obtain ⟨line, hthreaded, hd⟩ := hrun.exists_threaded
  obtain ⟨hdeclarations, happlications⟩ := hthreaded.of_toProgram hrun.flattened
  obtain ⟨s, hs⟩ := hthreaded.exists_ofProgram hd hrun.flattened
  obtain ⟨line', hthreaded', hreachable, hdeclarations', hlisted⟩ := Circuit.ofProgram_ok hs
  obtain ⟨-, -, hd'⟩ := hreachable.threaded
  -- The new circuit numbers its gates afresh, but it lists the applications of the last one.
  have hflat : s.flat line' = g'.flat line := hlisted.trans happlications
  have hnone : findMatch settings.rules s = .ok none := by
    rw [hthreaded'.findMatch_none_iff_occurs hd', hflat, ← hthreaded.findMatch_none_iff_occurs hd]
    exact hrun.ended hend
  have hsame : s.toProgram = .ok q := by
    rw [hthreaded'.toProgram_flat, hflat, hdeclarations', hdeclarations, ← hthreaded.toProgram_flat,
      hrun.flattened]
  rw [← hthreaded'.gateCount_eq_of_listed hlisted.symm]
  refine optimize_eq_ok.mpr ⟨hvalid, Program.simplify_eq_ok.mpr ⟨s, s, hs, ?_, hsame⟩⟩
  exact simplify_eq_ok.mpr ⟨_, simplifyLoop_of_none hnone, rfl⟩

/-- A guard is decided, the gates around it cancel, and the declaration in the middle moves to the
front: the result stays as it is. -/
theorem optimize_idempotent_late_declaration :
    let p : Program := [.declare ⟨"q", some 2⟩, .apply ⟨.standard .h, [⟨"q", some 1⟩], []⟩,
      .apply ⟨.standard .x, [⟨"q", some 0⟩], []⟩, .declare ⟨"r", none⟩,
      .apply ⟨.standard .h, [⟨"q", some 1⟩], [⟨⟨"q", some 0⟩, false⟩]⟩,
      .apply ⟨.standard .cx, [⟨"q", some 1⟩, ⟨"r", none⟩], []⟩]
    let q : Program := [.declare ⟨"q", some 2⟩, .declare ⟨"r", none⟩,
      .apply ⟨.standard .x, [⟨"q", some 0⟩], []⟩,
      .apply ⟨.standard .cx, [⟨"q", some 1⟩, ⟨"r", none⟩], []⟩]
    let stats : Statistics := ⟨4, 2, 2, [("null-gate(h)", 1), ("peeping-control", 1)], false⟩
    optimize .development ⟨.all, none, 10⟩ p = .ok (q, stats) ∧ stats.capped = false ∧
      optimize .development ⟨.all, none, 10⟩ q = .ok (q, ⟨2, 2, 0, [], false⟩) := by
  intro p q stats
  have hrun : optimize .development ⟨.all, none, 10⟩ p = .ok (q, stats) :=
    Run.toOption_eq_some.mp (by decide +kernel)
  exact ⟨hrun, rfl, optimize_idempotent hrun rfl⟩

end Peephole
