import Mathlib.Data.String.Basic
import Peephole.Proofs.Accounting
import Peephole.Proofs.Progress

/-!
# Runs one after the other

A run of the optimizer carries out the first match again and again, so that it can be stopped and
taken up later. `simplify_iff_reduces` says which runs there are: a run ends where nothing is found,
or where it has used up its cap, and it counts as capped if there is still a match. Two runs, one
after the other, are therefore one run under the sum of their caps, and their accounts add up
(`simplify_add`). `rewrites` lists what a run carries out, and `Stepping` repeats runs of at most
one match each until no match is left. This carries out the same matches as one run that is not
stopped (`stepping_iff`).
-/

set_option autoImplicit false
set_option relaxedAutoImplicit false

namespace Peephole

variable {build : Build} {rules used used' : List Rule} {m n cap : Nat}
  {stats stats₁ stats₂ : Statistics} {g g' g₁ g₂ t : Circuit} {found : Option Match}

/-! ### Tallies -/

namespace Statistics

variable {name : String} {tally : List (String × Nat)}

/-- The names of a tally. -/
def names (tally : List (String × Nat)) : List String :=
  tally.map Prod.fst

theorem mem_names_count {n : String} (h : n ∈ names (count name tally)) :
    n = name ∨ n ∈ names tally := by
  induction tally with
  | nil => exact .inl (List.mem_singleton.mp h)
  | cons first rest ih =>
    obtain ⟨a, k⟩ := first
    rw [count] at h
    split_ifs at h with hname hlt
    · exact .inr h
    · exact List.mem_cons.mp h
    · rcases List.mem_cons.mp h with rfl | hmem
      · exact .inr List.mem_cons_self
      · exact (ih hmem).imp_right (List.mem_cons_of_mem a)

/-- A tally stays alphabetical when a name is counted. -/
theorem pairwise_names_count (h : (names tally).Pairwise (· < ·)) (name : String) :
    (names (count name tally)).Pairwise (· < ·) := by
  induction tally with
  | nil => exact List.pairwise_singleton _ _
  | cons first rest ih =>
    obtain ⟨a, k⟩ := first
    obtain ⟨hfirst, hrest⟩ := List.pairwise_cons.mp h
    rw [count]
    split_ifs with hname hlt
    · exact h
    · refine List.pairwise_cons.mpr ⟨fun n hn ↦ ?_, h⟩
      rcases List.mem_cons.mp hn with rfl | hn
      · exact hlt
      · exact lt_trans hlt (hfirst n hn)
    · refine List.pairwise_cons.mpr ⟨fun n hn ↦ ?_, ih hrest⟩
      rcases mem_names_count hn with rfl | hn
      · exact lt_of_le_of_ne (not_lt.mp hlt) hname
      · exact hfirst n hn

theorem lookup_cons_of_ne {n a : String} (h : n ≠ a) (k : Nat) :
    ((a, k) :: tally).lookup n = tally.lookup n := by
  rw [List.lookup_cons, beq_eq_false_iff_ne.mpr h]

/-- Counting a name adds one to its number and leaves the other names alone. -/
theorem lookup_count (h : (names tally).Pairwise (· < ·)) (name n : String) :
    (count name tally).lookup n =
      if n = name then some ((tally.lookup n).getD 0 + 1) else tally.lookup n := by
  induction tally with
  | nil =>
    by_cases hn : n = name
    · rw [if_pos hn, hn, count, List.lookup_cons_self]
      rfl
    · rw [if_neg hn, count, lookup_cons_of_ne hn]
  | cons first rest ih =>
    obtain ⟨a, k⟩ := first
    obtain ⟨hfirst, hrest⟩ := List.pairwise_cons.mp h
    rw [count]
    split_ifs with hname hn hlt hn hn
    · rw [hn, ← hname, List.lookup_cons_self, List.lookup_cons_self]
      rfl
    · rw [← hname] at hn
      rw [lookup_cons_of_ne hn, lookup_cons_of_ne hn]
    · -- The name comes before all others, so that it has not been counted yet.
      have hnew : ((a, k) :: rest).lookup name = none := by
        refine List.lookup_eq_none_iff.mpr fun entry hentry ↦ bne_iff_ne.mpr ?_
        rcases List.mem_cons.mp hentry with rfl | hentry
        · exact ne_of_lt hlt
        · exact ne_of_lt (lt_trans hlt (hfirst _ (List.mem_map_of_mem hentry)))
      rw [hn, List.lookup_cons_self, hnew]
      rfl
    · rw [lookup_cons_of_ne hn]
    · rw [lookup_cons_of_ne (hn ▸ Ne.symm hname), lookup_cons_of_ne (hn ▸ Ne.symm hname), ih hrest,
        if_pos hn]
    · rw [List.lookup_cons, List.lookup_cons, ih hrest, if_neg hn]

/-- The tally of a run has the number of uses of every rule that was used, and no other entry. -/
theorem tally_spec (used : List Rule) :
    (names (used.foldl (fun tally r ↦ count r.name tally) [])).Pairwise (· < ·) ∧
      ∀ n, (used.foldl (fun tally r ↦ count r.name tally) []).lookup n =
        let uses := used.countP (·.name = n)
        if uses = 0 then none else some uses := by
  induction used using List.reverseRecOn with
  | nil => exact ⟨List.Pairwise.nil, fun n ↦ rfl⟩
  | append_singleton used r ih =>
    obtain ⟨hnames, hlookup⟩ := ih
    rw [List.foldl_append, List.foldl_cons, List.foldl_nil]
    refine ⟨pairwise_names_count hnames _, fun n ↦ ?_⟩
    rw [lookup_count hnames, hlookup, List.countP_append, List.countP_singleton]
    dsimp only
    by_cases hn : n = r.name
    · rw [if_pos hn, if_pos (decide_eq_true hn.symm), if_neg (Nat.succ_ne_zero _)]
      by_cases hzero : used.countP (·.name = n) = 0
      · rw [if_pos hzero, hzero]
        rfl
      · rw [if_neg hzero]
        rfl
    · have hno : ¬ decide (r.name = n) = true := by simpa using Ne.symm hn
      rw [if_neg hn, if_neg hno, Nat.add_zero]

/-- The account of a run that has used some rules. -/
def ofRun (before after : Nat) (used : List Rule) (capped : Bool) : Statistics :=
  ⟨before, after, used.length, used.foldl (fun tally r ↦ count r.name tally) [], capped⟩

/-- The account of two runs, one after the other: the rules and the steps of both, from the gates
before the first to the gates after the second, and stopped if the second is. -/
structure Joins (s s₁ s₂ : Statistics) : Prop where
  gatesBefore : s.gatesBefore = s₁.gatesBefore
  gatesAfter : s.gatesAfter = s₂.gatesAfter
  iterations : s.iterations = s₁.iterations + s₂.iterations
  tally : ∀ name, s.tally.lookup name = (s₁.tally.lookup name).merge (· + ·) (s₂.tally.lookup name)
  alphabetical : (names s.tally).Pairwise (· < ·)
  capped : s.capped = s₂.capped

theorem joins_ofRun (before between between' after : Nat) (used used' : List Rule)
    (capped capped' : Bool) :
    (ofRun before after (used ++ used') capped').Joins (ofRun before between used capped)
      (ofRun between' after used' capped') where
  gatesBefore := rfl
  gatesAfter := rfl
  iterations := List.length_append
  tally name := by
    simp only [ofRun, (tally_spec _).2, List.countP_append]
    rcases Nat.eq_zero_or_pos (used.countP (·.name = name)) with h | h <;>
      rcases Nat.eq_zero_or_pos (used'.countP (·.name = name)) with h' | h' <;>
        simp [h, h', Nat.ne_of_gt]
  alphabetical := (tally_spec _).1
  capped := rfl

end Statistics

/-! ### Which runs there are -/

namespace Circuit.Reduces

theorem trans (h : g.Reduces build rules used t) (h' : t.Reduces build rules used' g') :
    g.Reduces build rules (used ++ used') g' := by
  induction h with
  | refl g => exact h'
  | step hfound hperform hrest ih => exact .step hfound hperform (ih h')

/-- Where nothing is found there is nothing to carry out. -/
theorem eq_of_none (h : g.Reduces build rules used g') (hnone : findMatch rules g = .ok none) :
    used = [] ∧ g' = g := by
  cases h with
  | refl g => exact ⟨rfl, rfl⟩
  | step hfound hperform hrest => cases hnone.symm.trans hfound

/-- The loop carries out matches up to a point where none is found, or up to its cap. -/
theorem simplifyLoop_eq (h : g.Reduces build rules used g')
    (hfound : findMatch rules g' = .ok found) (hle : used.length ≤ cap)
    (hcap : found.isSome = true → used.length = cap) :
    (simplifyLoop build rules cap stats).run g =
      .ok { used.foldl Statistics.record stats with
        capped := stats.capped || found.isSome } g' := by
  induction h generalizing cap stats with
  | refl g =>
    cases found with
    | none =>
      rw [simplifyLoop_of_none hfound, Option.isSome_none, Bool.or_false]
      rfl
    | some m =>
      obtain rfl : 0 = cap := hcap rfl
      rw [simplifyLoop_zero hfound, Option.isSome_some, Bool.or_true]
      rfl
  | step hmatch hperform hrest ih =>
    rw [List.length_cons] at hle hcap
    obtain ⟨cap, rfl⟩ := Nat.exists_eq_add_one_of_ne_zero (Nat.ne_zero_of_lt hle)
    rw [simplifyLoop_succ hmatch hperform]
    exact ih hfound (Nat.le_of_succ_le_succ hle) fun hsome ↦ Nat.succ.inj (hcap hsome)

end Circuit.Reduces

/-- A run of the optimizer carries out matches up to a point where none is found or up to its cap,
and counts as capped if there is a match where it ends. -/
theorem simplify_iff_reduces :
    (simplify build rules cap).run g = .ok stats g' ↔ ∃ used found, g.Reduces build rules used g' ∧
      findMatch rules g' = .ok found ∧ used.length ≤ cap ∧
      (found.isSome = true → used.length = cap) ∧
      stats = .ofRun g.gateCount g'.gateCount used found.isSome := by
  rw [simplify_eq_ok]
  constructor
  · rintro ⟨s, hloop, rfl⟩
    obtain ⟨used, hreduces, ⟨hle, hnone, rfl⟩ | ⟨hlength, ⟨m, hfound⟩, rfl⟩⟩ :=
      reduces_of_simplifyLoop hloop
    · refine ⟨used, none, hreduces, hnone, hle, (by cases ·), ?_⟩
      rw [Statistics.foldl_record]
      simp [Statistics.ofRun, Statistics.start]
    · refine ⟨used, some m, hreduces, hfound, Nat.le_of_eq hlength, fun _ ↦ hlength, ?_⟩
      rw [Statistics.foldl_record]
      simp [Statistics.ofRun, Statistics.start]
  · rintro ⟨used, found, hreduces, hfound, hle, hcap, rfl⟩
    refine ⟨_, hreduces.simplifyLoop_eq hfound hle hcap, ?_⟩
    rw [Statistics.foldl_record]
    simp [Statistics.ofRun, Statistics.start]

/-- Two runs, one after the other, are one run under the sum of their caps. -/
theorem simplify_add (h₁ : (simplify build rules m).run g = .ok stats₁ g₁)
    (h₂ : (simplify build rules n).run g₁ = .ok stats₂ g₂) :
    ∃ stats, (simplify build rules (m + n)).run g = .ok stats g₂ ∧ stats.Joins stats₁ stats₂ := by
  obtain ⟨used, found, hreduces, hfound, hle, hcap, rfl⟩ := simplify_iff_reduces.mp h₁
  obtain ⟨used', found', hreduces', hfound', hle', hcap', rfl⟩ := simplify_iff_reduces.mp h₂
  refine ⟨_, simplify_iff_reduces.mpr ⟨used ++ used', found', hreduces.trans hreduces', hfound', ?_,
    fun hsome ↦ ?_, rfl⟩, Statistics.joins_ofRun _ _ _ _ _ _ _ _⟩
  · rw [List.length_append]
    omega
  · -- If the second run was stopped there was something left to do after the first.
    have hlength : used.length = m := by
      cases found with
      | some m => exact hcap rfl
      | none =>
        obtain ⟨-, rfl⟩ := hreduces'.eq_of_none hfound
        cases hfound.symm.trans hfound'
        cases hsome
    rw [List.length_append, hlength, hcap' hsome]

/-! ### What a run carries out -/

/-- The matches that a run carries out, each with the circuit it leaves. -/
def rewrites (build : Build) (rules : List Rule) : (cap : Nat) → Circuit → List (Match × Circuit)
  | 0, _ => []
  | cap + 1, g =>
    match findMatch rules g with
    | .ok (some m) =>
      match (m.perform build).run g with
      | .ok _ t => (m, t) :: rewrites build rules cap t
      | .error _ _ => []
    | _ => []

theorem rewrites_of_none (h : findMatch rules g = .ok none) (cap : Nat) :
    rewrites build rules cap g = [] := by
  cases cap with
  | zero => rfl
  | succ cap => rw [rewrites, h]

theorem rewrites_succ {m : Match} (hfound : findMatch rules g = .ok (some m))
    (hperform : (m.perform build).run g = .ok () t) (cap : Nat) :
    rewrites build rules (cap + 1) g = (m, t) :: rewrites build rules cap t := by
  rw [rewrites, hfound]
  dsimp only
  rw [hperform]

namespace Circuit.Reduces

/-- A longer run carries out what leads to a circuit, and then what follows from there. -/
theorem rewrites_add (h : g.Reduces build rules used g') (n : Nat) :
    rewrites build rules (used.length + n) g =
      rewrites build rules used.length g ++ rewrites build rules n g' := by
  induction h with
  | refl g => rw [List.length_nil, Nat.zero_add, rewrites, List.nil_append]
  | step hfound hperform hrest ih =>
    rw [List.length_cons, Nat.add_right_comm, rewrites_succ hfound hperform,
      rewrites_succ hfound hperform, ih, List.cons_append]

/-- A run that may go on carries out no more if nothing is found. -/
theorem rewrites_eq (h : g.Reduces build rules used g') (hfound : findMatch rules g' = .ok found)
    (hle : used.length ≤ cap) (hcap : found.isSome = true → used.length = cap) :
    rewrites build rules cap g = rewrites build rules used.length g := by
  cases found with
  | none =>
    obtain ⟨n, rfl⟩ := Nat.exists_eq_add_of_le hle
    rw [h.rewrites_add, rewrites_of_none hfound, List.append_nil]
  | some m => rw [hcap rfl]

theorem map_rule_rewrites (h : g.Reduces build rules used g') :
    (rewrites build rules used.length g).map (·.1.rule) = used := by
  induction h with
  | refl g => rfl
  | step hfound hperform hrest ih =>
    rw [List.length_cons, rewrites_succ hfound hperform, List.map_cons, ih]

theorem getLastD_rewrites (h : g.Reduces build rules used g') :
    ((rewrites build rules used.length g).map Prod.snd).getLastD g = g' := by
  induction h with
  | refl g => rfl
  | step hfound hperform hrest ih =>
    rw [List.length_cons, rewrites_succ hfound hperform, List.map_cons, List.getLastD_cons, ih]

end Circuit.Reduces

/-- The account of a run counts what is carried out, and the circuit it leaves is the last one. -/
theorem rewrites_of_simplify (h : (simplify build rules cap).run g = .ok stats g') :
    stats = .ofRun g.gateCount g'.gateCount ((rewrites build rules cap g).map (·.1.rule))
        stats.capped ∧
      g' = ((rewrites build rules cap g).map Prod.snd).getLastD g := by
  obtain ⟨used, found, hreduces, hfound, hle, hcap, rfl⟩ := simplify_iff_reduces.mp h
  rw [hreduces.rewrites_eq hfound hle hcap, hreduces.map_rule_rewrites, hreduces.getLastD_rewrites]
  exact ⟨rfl, rfl⟩

/-! ### One match at a time -/

/-- Runs that may carry out one match each, until one of them is not stopped. All that they carry
out is listed. -/
inductive Stepping (build : Build) (rules : List Rule) :
    Circuit → List (Match × Circuit) → Circuit → Prop where
  | last {g g' : Circuit} {stats : Statistics}
      (hrun : (simplify build rules 1).run g = .ok stats g') (hend : stats.capped = false) :
      Stepping build rules g (rewrites build rules 1 g) g'
  | next {g t g' : Circuit} {stats : Statistics} {later : List (Match × Circuit)}
      (hrun : (simplify build rules 1).run g = .ok stats t) (hmore : stats.capped = true)
      (hrest : Stepping build rules t later g') :
      Stepping build rules g (rewrites build rules 1 g ++ later) g'

/-- What leads to a circuit in which nothing is found can be carried out one match at a time. -/
theorem Stepping.of_reduces (h : g.Reduces build rules used g')
    (hnone : findMatch rules g' = .ok none) :
    Stepping build rules g (rewrites build rules used.length g) g' := by
  induction h with
  | refl g =>
    have hstay : g.Reduces build rules [] g := .refl g
    have hrun := simplify_iff_reduces.mpr ⟨[], none, hstay, hnone, Nat.zero_le 1, nofun, rfl⟩
    rw [rewrites_of_none hnone, ← rewrites_of_none hnone 1]
    exact .last hrun rfl
  | @step g t g' m used hfound hperform hrest ih =>
    have hstep : g.Reduces build rules [m.rule] t := .step hfound hperform (.refl t)
    have hlist := hstep.rewrites_add used.length
    rw [List.length_singleton, Nat.add_comm] at hlist
    -- The first match leaves the last circuit, or one in which the next match is found.
    cases hrest with
    | refl =>
      exact .last (simplify_iff_reduces.mpr ⟨_, none, hstep, hnone, Nat.le_refl 1, nofun, rfl⟩) rfl
    | step hfound' hperform' hrest' =>
      rw [List.length_cons, hlist]
      exact .next (simplify_iff_reduces.mpr ⟨_, _, hstep, hfound', Nat.le_refl 1, fun _ ↦ rfl, rfl⟩)
        rfl (ih hnone)

/-- Going one match at a time carries out the same as one run that is not stopped. -/
theorem stepping_iff {visited : List (Match × Circuit)} :
    Stepping build rules g visited g' ↔
      ∃ cap stats, (simplify build rules cap).run g = .ok stats g' ∧
        stats.capped = false ∧ rewrites build rules cap g = visited := by
  constructor
  · intro h
    induction h with
    | last hrun hend => exact ⟨1, _, hrun, hend, rfl⟩
    | @next g t g' stats later hrun hmore hrest ih =>
      obtain ⟨cap, stats', hrun', hend, rfl⟩ := ih
      obtain ⟨both, hboth, hjoins⟩ := simplify_add hrun hrun'
      refine ⟨1 + cap, both, hboth, hjoins.capped.trans hend, ?_⟩
      obtain ⟨used, found, hreduces, -, -, hcap, rfl⟩ := simplify_iff_reduces.mp hrun
      rw [← hcap hmore, hreduces.rewrites_add]
  · rintro ⟨cap, stats, hrun, hend, rfl⟩
    obtain ⟨used, found, hreduces, hfound, hle, hcap, rfl⟩ := simplify_iff_reduces.mp hrun
    obtain rfl := Option.isNone_iff_eq_none.mp (Option.isSome_eq_false_iff.mp hend)
    rw [hreduces.rewrites_eq hfound hle hcap]
    exact .of_reduces hreduces hfound

/-- A circuit that a run can work on comes to an end, one match at a time. -/
theorem Circuit.Threaded.exists_stepping {line : List Nat} (h : g.Threaded line)
    (ht : g.Targeted) (rules : List Rule) :
    ∃ visited g', visited.length ≤ g.weight ∧ Stepping build rules g visited g' := by
  obtain ⟨s, g', hloop⟩ := h.simplifyLoop_ok ht rules g.weight (.start g.gateCount)
  have hrun := simplify_eq_ok.mpr ⟨s, hloop build, rfl⟩
  obtain ⟨used, found, hreduces, hfound, hle, hcap, -⟩ := simplify_iff_reduces.mp hrun
  have hnone : found = none := by
    cases found with
    | none => rfl
    | some m =>
      obtain ⟨⟨line', h'⟩, -⟩ := hreduces.threaded h
      have hpos := weight_pos_of_applies (h'.findMatch_some hfound).2.1
      have hweight := hreduces.length_add_weight_le h
      rw [hcap rfl] at hweight
      omega
  refine ⟨_, g', ?_, .of_reduces hreduces (hnone ▸ hfound)⟩
  rwa [← List.length_map (·.1.rule), hreduces.map_rule_rewrites]

/-- Two runs, one after the other, are one run under the sum of their caps, and their accounts add
up. Going one match at a time until a run is not stopped carries out the same as one run that is not
stopped, and a run is stopped if and only if some rule applies to some window where it ends. A
circuit that edits have made and whose gates have targets comes to an end in this way. -/
theorem simplify_stepwise (build : Build) (rules : List Rule) (g : Circuit) :
    (∀ m n stats₁ g₁ stats₂ g₂, (simplify build rules m).run g = .ok stats₁ g₁ →
      (simplify build rules n).run g₁ = .ok stats₂ g₂ →
      ∃ stats, (simplify build rules (m + n)).run g = .ok stats g₂ ∧ stats.Joins stats₁ stats₂) ∧
    (∀ visited g', Stepping build rules g visited g' ↔ ∃ cap stats,
      (simplify build rules cap).run g = .ok stats g' ∧ stats.capped = false ∧
        rewrites build rules cap g = visited) ∧
    (∀ cap stats g', (simplify build rules cap).run g = .ok stats g' →
      stats = .ofRun g.gateCount g'.gateCount ((rewrites build rules cap g).map (·.1.rule))
        stats.capped ∧
      g' = ((rewrites build rules cap g).map Prod.snd).getLastD g ∧
      (stats.capped = true ↔ ∃ w < g'.wires.length, ∃ path, Path.full g' w = .ok path ∧
        ∃ r ∈ rules, ∃ window ∈ path.stretches r.depth, r.applies g' window = .ok true)) ∧
    (g.Reachable → g.Targeted → ∃ visited g', Stepping build rules g visited g') := by
  refine ⟨fun m n stats₁ g₁ stats₂ g₂ ↦ simplify_add, fun visited g' ↦ stepping_iff,
    fun cap stats g' hrun ↦ ?_, fun hg ht ↦ ?_⟩
  · obtain ⟨hstats, hlast⟩ := rewrites_of_simplify hrun
    refine ⟨hstats, hlast, ?_⟩
    obtain ⟨used, found, -, hfound, -, -, rfl⟩ := simplify_iff_reduces.mp hrun
    exact Circuit.isSome_of_findMatch hfound
  · obtain ⟨line, hthreaded, -⟩ := hg.threaded
    obtain ⟨visited, g', -, hstepping⟩ := hthreaded.exists_stepping ht rules
    exact ⟨visited, g', hstepping⟩

/-- Two runs that are both stopped, with rules in common, and what is left for one more match. -/
theorem simplify_stepwise_stopped :
    let g := [.h, .h, .h, .h, .x, .x, .z, .z].foldl (fun g kind ↦
      (Call.apply ⟨.standard kind, [⟨"q", some 0⟩], []⟩).after g)
        ((Call.declare ⟨"q", some 1⟩).after Circuit.empty)
    let rules := Settings.standard.rules
    ∃ g₁ g₂ stats,
      (simplify .development rules 1).run g = .ok ⟨8, 6, 1, [("null-gate(h)", 1)], true⟩ g₁ ∧
      (simplify .development rules 2).run g₁ =
        .ok ⟨6, 2, 2, [("null-gate(h)", 1), ("null-gate(x)", 1)], true⟩ g₂ ∧
      (simplify .development rules 3).run g = .ok stats g₂ ∧ stats.iterations = 3 ∧
      stats.tally.lookup "null-gate(h)" = some 2 ∧ stats.capped = true ∧
      (∃ w < g₂.wires.length, ∃ path, Path.full g₂ w = .ok path ∧
        ∃ r ∈ rules, ∃ window ∈ path.stretches r.depth, r.applies g₂ window = .ok true) ∧
      ∃ visited g', Stepping .development rules g visited g' := by
  intro g rules
  have hruns :
      (do return (← simplify .development rules 1, ← simplify .development rules 2)).run' g =
      some (⟨8, 6, 1, [("null-gate(h)", 1)], true⟩,
        ⟨6, 2, 2, [("null-gate(h)", 1), ("null-gate(x)", 1)], true⟩) := by decide +kernel
  obtain ⟨g₂, hboth⟩ := Run.value_eq_some.mp hruns
  obtain ⟨stats₁, g₁, hfirst, hrest⟩ := Run.steps_eq_ok.mp hboth
  obtain ⟨stats₂, g₃, hsecond, hpair⟩ := Run.steps_eq_ok.mp hrest
  cases hpair
  have hg : g.Reachable :=
    List.foldlRecOn _ _ (.call _ .empty) fun _ hbefore _ _ ↦ .call _ hbefore
  have ht : ∀ p ∈ g.gates, p.targets ≠ [] := by decide +kernel
  obtain ⟨hadd, -, hstopped, hsteps⟩ := simplify_stepwise .development rules g
  obtain ⟨stats, hrun, hjoins⟩ := hadd 1 2 _ _ _ _ hfirst hsecond
  have hcapped : stats.capped = true := hjoins.capped
  refine ⟨g₁, g₂, stats, hfirst, hsecond, hrun, hjoins.iterations, ?_, hcapped,
    (hstopped 3 stats g₂ hrun).2.2.mp hcapped, hsteps hg ht⟩
  rw [hjoins.tally]
  decide +kernel

end Peephole
