import Peephole.Optimizer
import Peephole.Proofs.Running

/-!
# Runs of the optimizer

`Circuit.Reduces` says that one circuit becomes another one when the match that the search finds is
carried out again and again, and lists the rules that are used on the way. The loop of the optimizer
does just that (`reduces_of_simplifyLoop`): it ends where nothing is found, or at the cap. A
`Simplification` collects all that a successful run of the optimizer on a program consists of, and
`Program.exists_simplification` finds one for every result.
-/

set_option autoImplicit false
set_option relaxedAutoImplicit false

namespace Peephole

variable {build : Build} {rules used : List Rule} {cap : Nat} {stats stats' : Statistics}
  {g g' t : Circuit} {m : Match}

/-- One circuit becomes another one when the first match is carried out, then the first match of the
result, and so on. The rules of the matches are listed in order. -/
inductive Circuit.Reduces (build : Build) (rules : List Rule) :
    Circuit → List Rule → Circuit → Prop where
  | refl (g : Circuit) : Reduces build rules g [] g
  | step {g t g' : Circuit} {m : Match} {used : List Rule}
      (hfound : findMatch rules g = .ok (some m)) (hperform : (m.perform build).run g = .ok () t)
      (hrest : Reduces build rules t used g') : Reduces build rules g (m.rule :: used) g'

/-! ### The loop -/

theorem Run.reduction_ask_ok {α : Type} {question : Circuit → Except CircuitFault α} {a : α}
    (h : question g = .ok a) : (Reduction.ask question).run g = .ok a g :=
  Run.edit_eq_ok.mpr (Run.ask_ok h)

/-- A match that is carried out is a use of its rule, whether or not the result is checked. -/
theorem Match.perform_rule (h : (m.perform build).run g = .ok () t) :
    (m.rule.perform m.path).run g = .ok () t := by
  obtain ⟨⟨⟩, s, hrun, hcheck⟩ := Run.steps_eq_ok.mp h
  cases build with
  | development =>
    obtain ⟨-, rfl⟩ := Run.of_ask hcheck
    exact hrun
  | release =>
    cases hcheck
    exact hrun

/-- A use of a rule with a sound result is carried out in every build. -/
theorem Match.perform_ok (hrun : (m.rule.perform m.path).run g = .ok () t)
    (hverify : t.verify = .ok ()) (build : Build) : (m.perform build).run g = .ok () t := by
  refine (Run.bind_ok hrun).trans ?_
  cases build with
  | development => exact Run.reduction_ask_ok hverify
  | release => rfl

/-- Where nothing is found the loop ends. -/
theorem simplifyLoop_of_none (h : findMatch rules g = .ok none) :
    (simplifyLoop build rules cap stats).run g = .ok stats g := by
  unfold simplifyLoop
  rw [Run.bind_ok (Run.reduction_ask_ok h)]
  rfl

/-- At the cap the loop ends although there is a match. -/
theorem simplifyLoop_zero (h : findMatch rules g = .ok (some m)) :
    (simplifyLoop build rules 0 stats).run g = .ok { stats with capped := true } g := by
  unfold simplifyLoop
  rw [Run.bind_ok (Run.reduction_ask_ok h)]
  rfl

/-- Below the cap a match is carried out and recorded, and the loop goes on. -/
theorem simplifyLoop_succ (h : findMatch rules g = .ok (some m))
    (hperform : (m.perform build).run g = .ok () t) :
    (simplifyLoop build rules (cap + 1) stats).run g =
      (simplifyLoop build rules cap (stats.record m.rule)).run t := by
  rw [simplifyLoop, Run.bind_ok (Run.reduction_ask_ok h)]
  exact Run.bind_ok hperform

/-- A run of the loop that succeeds has searched the circuit. -/
theorem exists_findMatch_of_simplifyLoop
    (hrun : (simplifyLoop build rules cap stats).run g = .ok stats' g') :
    ∃ found, findMatch rules g = .ok found := by
  unfold simplifyLoop at hrun
  obtain ⟨found, t, hask, -⟩ := Run.steps_eq_ok.mp hrun
  exact ⟨found, (Run.of_ask hask).1⟩

/-- A run of the loop that succeeds with a match below the cap has carried it out. -/
theorem exists_perform_of_simplifyLoop (hfound : findMatch rules g = .ok (some m))
    (hrun : (simplifyLoop build rules (cap + 1) stats).run g = .ok stats' g') :
    ∃ t, (m.perform build).run g = .ok () t := by
  rw [simplifyLoop, Run.bind_ok (Run.reduction_ask_ok hfound)] at hrun
  obtain ⟨⟨⟩, t, hperform, -⟩ := Run.steps_eq_ok.mp hrun
  exact ⟨t, hperform⟩

/-- A run of the loop reduces the circuit. It ends where nothing is found, after at most as many
steps as the cap allows, or at the cap where there is still a match. -/
theorem reduces_of_simplifyLoop
    (hrun : (simplifyLoop build rules cap stats).run g = .ok stats' g') :
    ∃ used, g.Reduces build rules used g' ∧
      (used.length ≤ cap ∧ findMatch rules g' = .ok none ∧
          stats' = used.foldl Statistics.record stats ∨
        used.length = cap ∧ (∃ m, findMatch rules g' = .ok (some m)) ∧
          stats' = { used.foldl Statistics.record stats with capped := true }) := by
  induction cap generalizing g stats with
  | zero =>
    obtain ⟨found, hfound⟩ := exists_findMatch_of_simplifyLoop hrun
    cases found with
    | none =>
      rw [simplifyLoop_of_none hfound] at hrun
      cases hrun
      exact ⟨[], .refl _, .inl ⟨Nat.zero_le 0, hfound, rfl⟩⟩
    | some m =>
      rw [simplifyLoop_zero hfound] at hrun
      cases hrun
      exact ⟨[], .refl _, .inr ⟨rfl, ⟨m, hfound⟩, rfl⟩⟩
  | succ cap ih =>
    obtain ⟨found, hfound⟩ := exists_findMatch_of_simplifyLoop hrun
    cases found with
    | none =>
      rw [simplifyLoop_of_none hfound] at hrun
      cases hrun
      exact ⟨[], .refl _, .inl ⟨Nat.zero_le _, hfound, rfl⟩⟩
    | some m =>
      obtain ⟨t, hperform⟩ := exists_perform_of_simplifyLoop hfound hrun
      rw [simplifyLoop_succ hfound hperform] at hrun
      obtain ⟨used, hreduces, hend⟩ := ih hrun
      refine ⟨m.rule :: used, .step hfound hperform hreduces, ?_⟩
      rw [List.length_cons, Nat.succ_le_succ_iff, Nat.succ_inj]
      exact hend

/-! ### Programs -/

/-- What a successful run of the optimizer on a program consists of: the circuit of the program, the
rules that were used, the circuit they made of it, the program of that circuit, and the account. -/
structure Simplification (build : Build) (rules : List Rule) (cap : Nat) (p : Program) (g : Circuit)
    (used : List Rule) (g' : Circuit) (q : Program) (stats : Statistics) : Prop where
  built : Circuit.ofProgram p = .ok g
  reduces : g.Reduces build rules used g'
  length_le : used.length ≤ cap
  flattened : g'.toProgram = .ok q
  gatesBefore : stats.gatesBefore = g.gateCount
  gatesAfter : stats.gatesAfter = g'.gateCount
  iterations : stats.iterations = used.length
  tally : stats.tally = used.foldl (fun tally r ↦ Statistics.count r.name tally) []
  /-- A run that was not stopped has come to an end. -/
  ended : stats.capped = false → findMatch rules g' = .ok none
  /-- A run that was stopped had made all steps it could. -/
  stopped : stats.capped = true → used.length = cap ∧ ∃ m, findMatch rules g' = .ok (some m)

namespace Statistics

theorem foldl_record (used : List Rule) (stats : Statistics) :
    used.foldl record stats =
      { stats with
        iterations := stats.iterations + used.length
        tally := used.foldl (fun tally r ↦ count r.name tally) stats.tally } := by
  induction used generalizing stats with
  | nil => rfl
  | cons r rest ih =>
    rw [List.foldl_cons, ih, List.foldl_cons, List.length_cons]
    simp only [record, Nat.add_assoc, Nat.add_comm 1]

end Statistics

theorem simplify_eq_ok : (simplify build rules cap).run g = .ok stats g' ↔
    ∃ s, (simplifyLoop build rules cap (.start g.gateCount)).run g = .ok s g' ∧
      stats = { s with gatesAfter := g'.gateCount } := by
  rw [simplify, Run.bind_ok Run.get_ok, Run.steps_eq_ok]
  constructor
  · rintro ⟨s, t, hloop, hrest⟩
    rw [Run.bind_ok Run.get_ok] at hrest
    cases hrest
    exact ⟨s, hloop, rfl⟩
  · rintro ⟨s, hloop, rfl⟩
    exact ⟨s, g', hloop, Run.bind_ok Run.get_ok⟩

theorem Program.simplify_eq_ok {p q : Program} :
    p.simplify build rules cap = .ok (q, stats) ↔ ∃ g g', Circuit.ofProgram p = .ok g ∧
      (Peephole.simplify build rules cap).run g = .ok stats g' ∧ g'.toProgram = .ok q := by
  rw [Program.simplify, Run.bind_eq_ok]
  constructor
  · rintro ⟨g, hg, hrest⟩
    rw [Run.mapError_eq_ok] at hg
    cases hrun : (Peephole.simplify build rules cap).run g with
    | error fault t =>
      rw [hrun] at hrest
      cases hrest
    | ok s g' =>
      rw [hrun] at hrest
      obtain ⟨result, hresult, hpair⟩ := Run.bind_eq_ok.mp hrest
      cases hpair
      exact ⟨g, g', hg, hrun, Run.mapError_eq_ok.mp hresult⟩
  · rintro ⟨g, g', hg, hrun, hq⟩
    refine ⟨g, Run.mapError_eq_ok.mpr hg, ?_⟩
    rw [hrun]
    exact Run.bind_eq_ok.mpr ⟨q, Run.mapError_eq_ok.mpr hq, rfl⟩

theorem optimize_eq_ok {settings : Settings} {p : Program} {r : Program × Statistics} :
    optimize build settings p = .ok r ↔ settings.validate = .ok () ∧
      p.simplify build settings.rules settings.maxIterations = .ok r := by
  rw [optimize, Run.bind_eq_ok]
  constructor
  · rintro ⟨_, hvalid, hsimplify⟩
    exact ⟨Run.mapError_eq_ok.mp hvalid, Run.mapError_eq_ok.mp hsimplify⟩
  · rintro ⟨hvalid, hsimplify⟩
    exact ⟨(), Run.mapError_eq_ok.mpr hvalid, Run.mapError_eq_ok.mpr hsimplify⟩

/-- Every simplified program comes from a run. -/
theorem Program.exists_simplification {p q : Program}
    (h : p.simplify build rules cap = .ok (q, stats)) :
    ∃ g used g', Simplification build rules cap p g used g' q stats := by
  obtain ⟨g, g', hbuilt, hrun, hflattened⟩ := Program.simplify_eq_ok.mp h
  obtain ⟨s, hloop, rfl⟩ := Peephole.simplify_eq_ok.mp hrun
  obtain ⟨used, hreduces, hend⟩ := reduces_of_simplifyLoop hloop
  rw [Statistics.foldl_record] at hend
  rcases hend with ⟨hle, hnone, rfl⟩ | ⟨hlength, hmatch, rfl⟩
  · exact ⟨g, used, g', hbuilt, hreduces, hle, hflattened, rfl, rfl, Nat.zero_add _, rfl,
      fun _ ↦ hnone, nofun⟩
  · exact ⟨g, used, g', hbuilt, hreduces, Nat.le_of_eq hlength, hflattened, rfl, rfl,
      Nat.zero_add _, rfl, nofun, fun _ ↦ ⟨hlength, hmatch⟩⟩

/-! ### Settings -/

theorem Family.family_of_mem {f : Family} {r : Rule} (h : r ∈ f.rules) : r.family = f := by
  cases f <;> simp only [Family.rules, List.mem_cons, List.not_mem_nil, or_false] at h
  · rcases h with rfl | rfl | rfl | rfl <;> rfl
  · rw [h]; rfl
  · rcases h with rfl | rfl <;> rfl
  · rw [h]; rfl

/-- The rules that are used are the rules of the selected families that are not too deep. -/
theorem Settings.mem_rules {s : Settings} {r : Rule} :
    r ∈ s.rules ↔ s.families.has r.family = true ∧ r ∈ r.family.rules ∧
      s.maxDepth.all (r.depth ≤ ·) = true := by
  rw [Settings.rules, List.mem_filter, FamilySet.rules, (sortBy_perm _ _).mem_iff,
    List.mem_flatMap]
  constructor
  · rintro ⟨⟨f, hf, hr⟩, hdepth⟩
    rw [Family.family_of_mem hr]
    exact ⟨(List.mem_filter.mp hf).2, hr, hdepth⟩
  · rintro ⟨hf, hr, hdepth⟩
    refine ⟨⟨r.family, List.mem_filter.mpr ⟨?_, hf⟩, hr⟩, hdepth⟩
    cases r <;> simp [Rule.family, Family.all]

end Peephole
