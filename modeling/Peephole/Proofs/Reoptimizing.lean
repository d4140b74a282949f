import Peephole.Proofs.Provenance
import Peephole.Proofs.Renaming
import Peephole.Proofs.RoundTrip

/-!
# Optimizing a text again

A text is read, optimized, given canonical names and written. The new text can be read, no rule is
used on it, and it is written as it is (`Source.optimize_text_idempotent`).

Between the two runs the names change, and the negated guards of every application move in front of
the others. Neither makes room for a rule: `Rule.Occurs.of_negatedFirst` says so for the guards, and
the circuits of `Circuit.findMatch_rename` for the names. That the text can be read rests on what
`Application.Descends` says about the gates that are left (`angles_of_optimize`,
`Program.Valid.rename`, `Program.spelled_canonical`).
-/

set_option autoImplicit false
set_option relaxedAutoImplicit false

namespace Peephole

open Source Source.Lexer Decimal

variable {build : Build} {settings : Settings} {p q : Program} {stats : Statistics}
  {f : String → String}

/-! ### Gates that are left -/

/-- A gate keeps its name and its angles, or it is an X or Z without any. -/
theorem Application.Descends.gate_cases {a b : Application} (h : a.Descends b) :
    b.gate = a.gate ∨ b.gate = .standard .x ∨ b.gate = .standard .z := by
  by_cases hflip : a.gate = .standard .x ∨ a.gate = .standard .z
  · exact .inr (h.flip hflip).1
  · obtain ⟨hx, hz⟩ := not_or.mp hflip
    left
    by_cases hcx : a.gate = .standard .cx
    · rw [(h.controlled_not hcx).1, hcx]
    · exact (h.other hx hz hcx).1

theorem angles_of_optimize (h : optimize build settings p = .ok (q, stats)) :
    ∀ θ ∈ q.angles, θ ∈ p.angles := by
  intro θ hθ
  obtain ⟨b, hb, hmem⟩ := List.mem_flatMap.mp hθ
  obtain ⟨a, ha, hdescends⟩ := exists_descends h b hb
  rcases hdescends.gate_cases with hgate | hgate | hgate <;> rw [hgate] at hmem
  · exact List.mem_flatMap.mpr ⟨a, ha, hmem⟩
  · cases hmem
  · cases hmem

theorem isName_gate_of_optimize (h : optimize build settings p = .ok (q, stats)) (hp : p.Spelled) :
    ∀ a ∈ q.applications, IsName a.gate.name := by
  intro b hb
  obtain ⟨a, ha, hdescends⟩ := exists_descends h b hb
  rcases hdescends.gate_cases with hgate | hgate | hgate <;> rw [hgate]
  · exact hp.gates a ha
  · exact StandardGate.isName_name .x
  · exact StandardGate.isName_name .z

/-! ### Programs with other names -/

theorem Qubit.Resolves.rename {scope : List Declaration} {x : Qubit} (h : x.Resolves scope) :
    (x.rename f).Resolves (scope.map (Declaration.rename f)) := by
  obtain ⟨d, hd, hname, hindex⟩ := h
  exact ⟨d.rename f, List.mem_map_of_mem hd, congrArg f hname, hindex⟩

theorem Application.Valid.rename {scope : List Declaration} {a : Application} (h : a.Valid scope) :
    (a.rename f).Valid (scope.map (Declaration.rename f)) where
  targets_ne_nil := mt List.map_eq_nil_iff.mp h.targets_ne_nil
  takes := by
    rw [Application.rename, List.length_map]
    exact h.takes
  targets := List.forall_mem_map.mpr fun x hx ↦ (h.targets x hx).rename
  guards := List.forall_mem_map.mpr fun c hc ↦ (h.guards c hc).rename

namespace Program

/-- A program obeys the static rules under other names, as long as these are kept apart. -/
theorem Valid.rename {scope : List Declaration}
    (hf : Set.InjOn f {n | n ∈ scope.map Declaration.name ++ p.names}) (h : p.Valid scope) :
    (p.rename f).Valid (scope.map (Declaration.rename f)) := by
  induction p generalizing scope with
  | nil => trivial
  | cons i rest ih =>
    cases i with
    | declare d =>
      have hnames : (scope ++ [d]).map Declaration.name ++ names rest =
          scope.map Declaration.name ++ names (.declare d :: rest) := by
        simp [names, declarations_declare]
      have hrest := ih (hnames ▸ hf) h.2
      rw [List.map_append, List.map_singleton] at hrest
      refine ⟨⟨List.forall_mem_map.mpr fun d' hd' heq ↦ ?_, h.1.size⟩, hrest⟩
      refine h.1.fresh d' hd' (hf ?_ ?_ heq)
      · exact List.mem_append_left _ (List.mem_map_of_mem hd')
      · exact List.mem_append_right _ List.mem_cons_self
    | apply a => exact ⟨h.1.rename, ih hf h.2⟩

theorem Valid.canonical (h : p.Valid []) : p.canonical.Valid [] :=
  h.rename (injOn_canonicalName p.names)

theorem angles_rename (p : Program) : (p.rename f).angles = p.angles := by
  rw [angles, applications_rename, List.flatMap_map]
  rfl

end Program

/-- Canonical names can be written. -/
theorem isName_id (k : Nat) : IsName ("id" ++ Nat.repr k) := by
  have htext : ("id" ++ Nat.repr k).toList = 'i' :: 'd' :: Nat.toDigits 10 k := by
    rw [String.toList_append, Nat.toList_repr]
    rfl
  have hkeywords : ∀ m ∈ Mark.keywords, m.text.toList.take 2 ≠ ['i', 'd'] := by decide
  constructor
  · rw [htext]
    refine ⟨by decide, List.forall_mem_cons.mpr ⟨by decide, fun c hc ↦ ?_⟩⟩
    rw [isWordChar, isDigit_of_mem_toDigits hc, Bool.or_true]
  · refine List.find?_eq_none.mpr fun m hm heq ↦ hkeywords m hm ?_
    rw [of_decide_eq_true heq, htext]
    rfl

theorem Program.spelled_canonical (hgates : ∀ a ∈ p.applications, IsName a.gate.name)
    (hsymbols : ∀ θ ∈ p.angles, ∀ name ∈ θ.symbols, IsName name) : p.canonical.Spelled where
  declared := by
    rw [canonical_eq_rename, declarations_rename]
    refine List.forall_mem_map.mpr fun d hd ↦ ?_
    obtain ⟨k, -, hname⟩ := canonicalName_of_mem (List.mem_map_of_mem hd)
    rw [Declaration.rename]
    exact hname ▸ isName_id k
  gates := by
    rw [canonical_eq_rename, applications_rename]
    exact List.forall_mem_map.mpr hgates
  symbols := by
    rw [canonical_eq_rename, angles_rename]
    exact hsymbols

/-! ### Guards in another order -/

namespace Application

/-- The application with its negated guards in front. -/
def negatedFirst (a : Application) : Application :=
  ⟨a.gate, a.targets, a.orderedGuards⟩

variable {a b : Application} {x y : Qubit}

theorem guards_negatedFirst (a : Application) : a.negatedFirst.guards.Perm a.guards :=
  List.filter_append_perm _ _

theorem guards_negatedFirst_eq_nil : a.negatedFirst.guards = [] ↔ a.guards = [] := by
  rw [← List.perm_nil, ← List.perm_nil, a.guards_negatedFirst.congr_left]

theorem touches_negatedFirst : a.negatedFirst.Touches x ↔ a.Touches x :=
  or_congr Iff.rfl (a.guards_negatedFirst.map Guard.qubit).mem_iff

theorem isPlain_negatedFirst {kind : StandardGate} :
    a.negatedFirst.IsPlain kind x ↔ a.IsPlain kind x :=
  and_congr Iff.rfl (and_congr guards_negatedFirst_eq_nil Iff.rfl)

theorem isPauli_negatedFirst : a.negatedFirst.IsPauli x ↔ a.IsPauli x :=
  and_congr Iff.rfl (and_congr guards_negatedFirst_eq_nil Iff.rfl)

theorem flipsUnder_negatedFirst : a.negatedFirst.FlipsUnder x y ↔ a.FlipsUnder x y := by
  have hguard : a.negatedFirst.guards = [⟨y, false⟩] ↔ a.guards = [⟨y, false⟩] := by
    rw [← List.perm_singleton, ← List.perm_singleton, a.guards_negatedFirst.congr_left]
  exact or_congr (and_congr Iff.rfl (and_congr Iff.rfl guards_negatedFirst_eq_nil))
    (and_congr Iff.rfl (and_congr Iff.rfl hguard))

theorem guards_negatedFirst_subset :
    a.negatedFirst.guards ⊆ b.negatedFirst.guards ↔ a.guards ⊆ b.guards := by
  rw [a.guards_negatedFirst.subset_congr_left, b.guards_negatedFirst.subset_congr_right]

theorem sameEffect_negatedFirst : a.negatedFirst.sameEffect b.negatedFirst = a.sameEffect b := by
  rw [Bool.eq_iff_iff]
  simp only [sameEffect, Bool.and_eq_true, beq_iff_eq, List.all_eq_true, List.contains_iff_mem]
  exact and_congr (and_congr Iff.rfl guards_negatedFirst_subset) guards_negatedFirst_subset

end Application

section Occurrences

variable {as : List Application} {x : Qubit}

theorem exists_of_map_eq {α β : Type} {F : α → β} {l : List α} {front back : List β} {b : β}
    (h : l.map F = front ++ b :: back) :
    ∃ front' a back', l = front' ++ a :: back' ∧ front'.map F = front ∧ F a = b ∧
      back'.map F = back := by
  obtain ⟨front', rest, rfl, hfront, hrest⟩ := List.map_eq_append_iff.mp h
  obtain ⟨a, back', rfl, ha, hback⟩ := List.map_eq_cons_iff.mp hrest
  exact ⟨front', a, back', rfl, hfront, ha, hback⟩

theorem EndsInHadamard.of_negatedFirst (h : EndsInHadamard (as.map Application.negatedFirst) x) :
    EndsInHadamard as x := by
  obtain ⟨front, a, back, has, hplain, hoff⟩ := h
  obtain ⟨front, a, back, rfl, rfl, rfl, rfl⟩ := exists_of_map_eq has
  refine ⟨front, a, back, rfl, Application.isPlain_negatedFirst.mp hplain, fun k hk htouch ↦ ?_⟩
  exact hoff _ (List.mem_map_of_mem hk) (Application.touches_negatedFirst.mpr htouch)

theorem StartsWithHadamard.of_negatedFirst
    (h : StartsWithHadamard (as.map Application.negatedFirst) x) : StartsWithHadamard as x := by
  obtain ⟨front, a, back, has, hplain, hoff⟩ := h
  obtain ⟨front, a, back, rfl, rfl, rfl, rfl⟩ := exists_of_map_eq has
  refine ⟨front, a, back, rfl, Application.isPlain_negatedFirst.mp hplain, fun k hk htouch ↦ ?_⟩
  exact hoff _ (List.mem_map_of_mem hk) (Application.touches_negatedFirst.mpr htouch)

/-- The order of guards makes no room for a rule. -/
theorem Rule.Occurs.of_negatedFirst {rule : Rule}
    (h : rule.Occurs (as.map Application.negatedFirst)) : rule.Occurs as := by
  cases rule with
  | cancel gate =>
    obtain ⟨before, a, between, b, after, has, hgate, ⟨x, hx⟩, hsame, hfree⟩ := h
    obtain ⟨before, a, rest, rfl, rfl, rfl, hrest⟩ := exists_of_map_eq has
    obtain ⟨between, b, after, rfl, rfl, rfl, rfl⟩ := exists_of_map_eq hrest
    refine ⟨before, a, between, b, after, rfl, hgate, ⟨x, Application.touches_negatedFirst.mp hx⟩,
      Application.sameEffect_negatedFirst ▸ hsame, fun k hk y hy hky ↦ ?_⟩
    exact hfree _ (List.mem_map_of_mem hk) y (Application.touches_negatedFirst.mpr hy)
      (Application.touches_negatedFirst.mpr hky)
  | peep =>
    obtain ⟨before, a, after, has, c, hc, htarget, hpauli⟩ := h
    obtain ⟨before, a, after, rfl, rfl, rfl, -⟩ := exists_of_map_eq has
    refine ⟨before, a, after, rfl, c, a.guards_negatedFirst.mem_iff.mp hc, htarget,
      fun k hk htouch ↦ Application.isPauli_negatedFirst.mp ?_⟩
    exact hpauli _ (List.mem_map_of_mem hk) (Application.touches_negatedFirst.mpr htouch)
  | sandwich middle replacement =>
    obtain ⟨before, a, left, k, right, b, after, x, has, hgate, htarget, hsame, hmiddle, htarget',
      hguards, hfree⟩ := h
    obtain ⟨before, a, rest, rfl, rfl, rfl, hrest⟩ := exists_of_map_eq has
    obtain ⟨left, k, rest', rfl, rfl, rfl, hrest'⟩ := exists_of_map_eq hrest
    obtain ⟨right, b, after, rfl, rfl, rfl, rfl⟩ := exists_of_map_eq hrest'
    refine ⟨before, a, left, k, right, b, after, x, rfl, hgate, htarget,
      Application.sameEffect_negatedFirst ▸ hsame, hmiddle, htarget',
      Application.guards_negatedFirst_subset.mp hguards, fun m hm y hy hmy ↦ ?_⟩
    rw [← List.map_append] at hfree
    exact hfree _ (List.mem_map_of_mem hm) y (Application.touches_negatedFirst.mpr hy)
      (Application.touches_negatedFirst.mpr hmy)
  | reverse =>
    obtain ⟨before, k, after, t, c, has, hne, hflips, hhadamards⟩ := h
    obtain ⟨before, k, after, rfl, rfl, rfl, rfl⟩ := exists_of_map_eq has
    refine ⟨before, k, after, t, c, rfl, hne, Application.flipsUnder_negatedFirst.mp hflips,
      fun x hx ↦ ?_⟩
    exact ⟨(hhadamards x hx).1.of_negatedFirst, (hhadamards x hx).2.of_negatedFirst⟩

end Occurrences

namespace Program

theorem declarations_negatedFirst (p : Program) : p.negatedFirst.declarations = p.declarations := by
  rw [declarations, declarations, negatedFirst, List.filterMap_map]
  congr 1
  funext i
  cases i <;> rfl

theorem applications_negatedFirst (p : Program) :
    p.negatedFirst.applications = p.applications.map Application.negatedFirst := by
  rw [applications, applications, negatedFirst, List.filterMap_map, List.map_filterMap]
  congr 1
  funext i
  cases i <;> rfl

theorem rename_negatedFirst (p : Program) :
    p.negatedFirst.rename f = (p.rename f).negatedFirst := by
  rw [rename, rename, negatedFirst, negatedFirst, List.map_map, List.map_map]
  refine List.map_congr_left fun i _ ↦ ?_
  cases i with
  | declare d => rfl
  | apply a =>
    simp [Instruction.rename, Application.orderedGuards, List.filter_map, Function.comp_def]

theorem canonical_negatedFirst (p : Program) :
    p.negatedFirst.canonical = p.canonical.negatedFirst := by
  rw [canonical_eq_rename, canonical_eq_rename, rename_negatedFirst, names,
    declarations_negatedFirst, names]

end Program

/-! ### Programs that stay -/

/-- A program whose declarations all come first. -/
def Program.DeclaresFirst (p : Program) : Prop :=
  p = p.declarations.map .declare ++ p.applications.map .apply

theorem Program.DeclaresFirst.rename (h : p.DeclaresFirst) : (p.rename f).DeclaresFirst := by
  rw [DeclaresFirst, declarations_rename, applications_rename]
  conv_lhs => rw [h, Program.rename, List.map_append, List.map_map, List.map_map]
  rw [List.map_map, List.map_map]
  rfl

theorem Program.DeclaresFirst.negatedFirst (h : p.DeclaresFirst) :
    p.negatedFirst.DeclaresFirst := by
  rw [DeclaresFirst, declarations_negatedFirst, applications_negatedFirst]
  conv_lhs => rw [h, Program.negatedFirst, List.map_append, List.map_map, List.map_map]
  rw [List.map_map]
  rfl

theorem declaresFirst_of_optimize (h : optimize build settings p = .ok (q, stats)) :
    q.DeclaresFirst := by
  obtain ⟨-, hsimplify⟩ := optimize_eq_ok.mp h
  obtain ⟨g, used, g', hrun⟩ := Program.exists_simplification hsimplify
  obtain ⟨line, hthreaded, -⟩ := hrun.exists_threaded
  obtain ⟨hdeclarations, happlications⟩ := hthreaded.of_toProgram hrun.flattened
  have hflat := hrun.flattened
  rw [hthreaded.toProgram_flat, Except.ok.injEq] at hflat
  rw [Program.DeclaresFirst, hdeclarations, happlications]
  exact hflat.symm

/-- No rule occurs in a program that was optimized to the end, whatever its names are. -/
theorem not_occurs_rename (h : optimize build settings p = .ok (q, stats))
    (hend : stats.capped = false) (hf : Set.InjOn f {n | n ∈ q.names}) :
    ∀ r ∈ settings.rules, ¬ r.Occurs (q.rename f).applications := by
  obtain ⟨-, hsimplify⟩ := optimize_eq_ok.mp h
  obtain ⟨g, used, g', hrun⟩ := Program.exists_simplification hsimplify
  obtain ⟨line, hthreaded, hd⟩ := hrun.exists_threaded
  obtain ⟨s, hs⟩ := hthreaded.exists_ofProgram hd hrun.flattened
  obtain ⟨line₁, hthreaded₁, hreachable₁, -, hlisted₁⟩ := Circuit.ofProgram_ok hs
  obtain ⟨-, -, hd₁⟩ := hreachable₁.threaded
  obtain ⟨line₂, hthreaded₂, hreachable₂, -, hlisted₂⟩ :=
    Circuit.ofProgram_ok (Circuit.ofProgram_rename hf hs)
  obtain ⟨-, -, hd₂⟩ := hreachable₂.threaded
  have hflat : (s.rename f).flat line₂ = (q.rename f).applications := hlisted₂
  rw [← hflat, ← hthreaded₂.findMatch_none_iff_occurs hd₂, Circuit.findMatch_rename,
    hthreaded₁.findMatch_none_iff_occurs hd₁, show s.flat line₁ = q.applications from hlisted₁]
  exact hrun.not_occurs hend

/-- The optimizer keeps a program in which no rule occurs. -/
theorem optimize_eq_self (hsettings : settings.validate = .ok ()) (hp : p.Valid [])
    (hfirst : p.DeclaresFirst) (hnone : ∀ r ∈ settings.rules, ¬ r.Occurs p.applications) :
    optimize build settings p = .ok (p, ⟨p.gateCount, p.gateCount, 0, [], false⟩) := by
  obtain ⟨g, hg⟩ := hp.exists_ofProgram
  obtain ⟨line, hthreaded, hreachable, hdeclarations, hlisted⟩ := Circuit.ofProgram_ok hg
  obtain ⟨-, -, hd⟩ := hreachable.threaded
  have hflat : g.flat line = p.applications := hlisted
  have hmatch : findMatch settings.rules g = .ok none :=
    (hthreaded.findMatch_none_iff_occurs hd).mpr (hflat ▸ hnone)
  have hsame : g.toProgram = .ok p := by
    rw [hthreaded.toProgram_flat, hflat, hdeclarations, ← hfirst]
  rw [← hthreaded.gateCount_eq_of_listed hlisted.symm]
  refine optimize_eq_ok.mpr ⟨hsettings, Program.simplify_eq_ok.mpr ⟨g, g, hg, ?_, hsame⟩⟩
  exact simplify_eq_ok.mpr ⟨_, simplifyLoop_of_none hmatch, rfl⟩

/-! ### Texts -/

namespace Source

variable {source : String}

/-- The text of a result under canonical names is read as that result, with the negated guards in
front. -/
theorem parse_emit_of_optimize (hlength : source.length ≤ maxInt) (hparse : parse source = .ok p)
    (hconstants : ∀ c ∈ p.constants, PrintsAsLiteral c)
    (h : optimize build settings p = .ok (q, stats)) :
    parse q.canonical.emit = .ok q.canonical.negatedFirst := by
  have hangles : ∀ θ ∈ q.canonical.angles, θ ∈ p.angles := by
    rw [q.canonical_eq_rename, Program.angles_rename]
    exact angles_of_optimize h
  have hspelled : q.canonical.Spelled :=
    Program.spelled_canonical (isName_gate_of_optimize h (spelled_of_parse hparse))
      fun θ hθ ↦ (spelled_of_parse hparse).symbols θ (angles_of_optimize h θ hθ)
  have hcount : ∀ a ∈ q.canonical.applications, a.guards.length ≤ maxInt := by
    rw [q.canonical_eq_rename, Program.applications_rename]
    refine List.forall_mem_map.mpr fun b hb ↦ ?_
    obtain ⟨a, ha, hdescends⟩ := exists_descends h b hb
    rw [Application.rename, List.length_map]
    exact hdescends.length_guards.trans ((length_guards_of_parse hparse a ha).trans hlength)
  have hvalid : q.canonical.Valid [] := ((valid_of_parse hparse).of_optimize h).canonical
  rw [← Program.reread_constant fun θ hθ ↦ folded_of_parse hparse θ (hangles θ hθ)]
  refine parse_emit hvalid (hvalid.writable (List.forall_mem_nil _) hspelled hcount) fun c hc ↦ ?_
  obtain ⟨θ, hθ, hmem⟩ := List.mem_flatMap.mp hc
  exact (hconstants c (List.mem_flatMap.mpr ⟨θ, hangles θ hθ, hmem⟩)).readsAs

/-- A text is optimized, and what is written under canonical names is optimized again. The second
run reads the text, uses no rule and writes the same text, unless the first run was stopped early.
The numbers of the first text have to be written as literals of their magnitudes, and its length
bounds the number of guards, which has to be an integer literal. -/
theorem optimize_text_idempotent (hsettings : settings.validate = .ok ())
    (hlength : source.length ≤ maxInt) (hparse : parse source = .ok p)
    (hconstants : ∀ c ∈ p.constants, PrintsAsLiteral c) :
    ∃ q stats, (∀ build, optimize build settings p = .ok (q, stats)) ∧ (stats.capped = false →
      ∃ r, parse q.canonical.emit = .ok r ∧
        (∀ build, optimize build settings r =
          .ok (r, ⟨r.gateCount, r.gateCount, 0, [], false⟩)) ∧
        r.canonical.emit = q.canonical.emit) := by
  obtain ⟨q, stats, hbuilds⟩ := (valid_of_parse hparse).exists_optimize hsettings
  have hresult := hbuilds .release
  have hread := parse_emit_of_optimize hlength hparse hconstants hresult
  refine ⟨q, stats, hbuilds, fun hend ↦ ⟨q.canonical.negatedFirst, hread, fun build ↦ ?_, ?_⟩⟩
  · have hfirst : q.canonical.DeclaresFirst := (declaresFirst_of_optimize hresult).rename
    have hnone : ∀ r ∈ settings.rules, ¬ r.Occurs q.canonical.applications :=
      not_occurs_rename hresult hend (injOn_canonicalName q.names)
    refine optimize_eq_self hsettings (valid_of_parse hread) hfirst.negatedFirst fun r hr h ↦ ?_
    rw [Program.applications_negatedFirst] at h
    exact hnone r hr h.of_negatedFirst
  · rw [Program.canonical_negatedFirst, Program.emit_negatedFirst,
      Program.canonical_canonical (named_of_optimize hresult)]

/-- Two gates cancel, a register is called as the canonical form calls another one, and a negated
guard moves in front of one that is not. -/
theorem optimize_text_idempotent_reordered :
    let source := "qubit[2] id1; qubit a; s a; s id1[0]; x a; x a; " ++
      "qif a do negctrl @ rz(-0.5*pi) id1[0], id1[1]; end"
    let text := "qubit[2] id0;\nqubit id1;\ns id1;\ns id0[0];\n" ++
      "negctrl(1) @ ctrl(1) @ rz(-0.5*pi) id0[0], id1, id0[1];\n"
    let settings : Settings := ⟨.all, none, 10⟩
    settings.validate = .ok () ∧ source.length ≤ maxInt ∧
    ∃ p q stats r, parse source = .ok p ∧ (∀ c ∈ p.constants, PrintsAsLiteral c) ∧
      (∀ build, optimize build settings p = .ok (q, stats)) ∧ stats.iterations = 1 ∧
      stats.capped = false ∧ q.canonical.emit = text ∧ parse text = .ok r ∧
      (∀ build, optimize build settings r = .ok (r, ⟨r.gateCount, r.gateCount, 0, [], false⟩)) ∧
      r.canonical.emit = text := by
  intro source text settings
  have hread : (parse source).toOption.map (fun p ↦ (p.constants,
      (optimize .development settings p).toOption.map fun r ↦
        (r.1.canonical.emit, r.2.iterations, r.2.capped))) =
      some ([-0.5], some (text, 1, false)) := by decide +kernel
  obtain ⟨p, hp, hpair⟩ := Run.toOption_map_eq_some.mp hread
  obtain ⟨hconstants, hresult⟩ := Prod.mk.inj hpair
  have hliterals : ∀ c ∈ p.constants, PrintsAsLiteral c := by
    have hhalf : (magnitudeWord? (-0.5)).bind Token.number? = some (-0.5 : Float).abs := by
      decide +kernel
    rw [hconstants, List.forall_mem_singleton]
    exact printsAsLiteral_iff.mpr hhalf
  have hlength : source.length ≤ maxInt := by decide +kernel
  have hsettings : settings.validate = .ok () := rfl
  obtain ⟨q, stats, hrun, hagain⟩ := optimize_text_idempotent hsettings hlength hp hliterals
  rw [hrun .development] at hresult
  obtain ⟨htext, hiterations, hend⟩ :
      q.canonical.emit = text ∧ stats.iterations = 1 ∧ stats.capped = false := by
    simpa [Except.toOption] using hresult
  obtain ⟨r, hr, hstays, hsame⟩ := hagain hend
  exact ⟨hsettings, hlength, p, q, stats, r, hp, hliterals, hrun, hiterations, hend, htext,
    htext ▸ hr, hstays, hsame.trans htext⟩

end Source

end Peephole
