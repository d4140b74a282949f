import Peephole.Program.Canonical
import Peephole.Proofs.Patterns

/-!
# Names of programs

`Program.rename` gives the registers of a program other names, and the canonical names are one such
choice. A renaming that keeps the declared names apart does not change the canonical form of a
program in which every name is declared (`Program.canonical_rename`), and the canonical names are
kept apart themselves (`injOn_canonicalName`).
-/

set_option autoImplicit false
set_option relaxedAutoImplicit false

namespace Peephole

variable {f : String → String}

/-! ### Renaming -/

def Qubit.rename (f : String → String) (q : Qubit) : Qubit :=
  { q with register := f q.register }

def Declaration.rename (f : String → String) (d : Declaration) : Declaration :=
  { d with name := f d.name }

def Guard.rename (f : String → String) (c : Guard) : Guard :=
  { c with qubit := c.qubit.rename f }

def Application.rename (f : String → String) (a : Application) : Application :=
  { a with targets := a.targets.map (Qubit.rename f), guards := a.guards.map (Guard.rename f) }

namespace Program

/-- A program with other names. -/
def rename (f : String → String) (p : Program) : Program :=
  List.map (Instruction.rename f) p

/-- The declared names in order. -/
def names (p : Program) : List String :=
  p.declarations.map Declaration.name

/-- Every qubit of an application is one of a declared name. -/
def Named (p : Program) : Prop :=
  ∀ a ∈ p.applications, ∀ x, a.Touches x → x.register ∈ p.names

variable {p q : Program}

theorem named_iff : p.Named ↔ ∀ a ∈ p.applications,
    (∀ x ∈ a.targets, x.register ∈ p.names) ∧ ∀ c ∈ a.guards, c.qubit.register ∈ p.names := by
  refine forall₂_congr fun a _ ↦ ?_
  simp only [Application.Touches, or_imp, forall_and, List.forall_mem_map]

instance (p : Program) : Decidable p.Named :=
  decidable_of_iff _ named_iff.symm

theorem canonical_eq_rename (p : Program) : p.canonical = p.rename (canonicalName p.names) :=
  rfl

theorem declarations_rename (p : Program) :
    (p.rename f).declarations = p.declarations.map (Declaration.rename f) := by
  rw [declarations, declarations, rename, List.filterMap_map, List.map_filterMap]
  congr 1
  funext i
  cases i <;> rfl

theorem applications_rename (p : Program) :
    (p.rename f).applications = p.applications.map (Application.rename f) := by
  rw [applications, applications, rename, List.filterMap_map, List.map_filterMap]
  congr 1
  funext i
  cases i <;> rfl

theorem names_rename (p : Program) : (p.rename f).names = p.names.map f := by
  rw [names, declarations_rename, names, List.map_map, List.map_map]
  rfl

end Program

/-! ### Positions of names -/

section Positions

variable {m n : String} {ns : List String}

theorem lastPosition_eq_none {start : Nat} : lastPosition n ns start = none ↔ n ∉ ns := by
  induction ns generalizing start with
  | nil => simp [lastPosition]
  | cons a rest ih =>
    rw [lastPosition, List.mem_cons, not_or, ← @ih (start + 1)]
    cases lastPosition n rest (start + 1) <;> simp [eq_comm]

/-- A name is found at a place where it stands. -/
theorem getElem?_of_lastPosition {start k : Nat} (h : lastPosition n ns start = some k) :
    start ≤ k ∧ ns[k - start]? = some n := by
  induction ns generalizing start with
  | nil => cases h
  | cons a rest ih =>
    rw [lastPosition] at h
    cases hrest : lastPosition n rest (start + 1) with
    | some j =>
      rw [hrest] at h
      cases h
      obtain ⟨hle, hget⟩ := ih hrest
      refine ⟨by omega, ?_⟩
      rw [show k - start = (k - (start + 1)) + 1 by omega, List.getElem?_cons_succ, hget]
    | none =>
      rw [hrest] at h
      obtain ⟨rfl, rfl⟩ : a = n ∧ start = k := by simpa using h
      simp

theorem lastPosition_map (hf : Set.InjOn f {m | m ∈ n :: ns}) (start : Nat) :
    lastPosition (f n) (ns.map f) start = lastPosition n ns start := by
  induction ns generalizing start with
  | nil => rfl
  | cons a rest ih =>
    have hrest : Set.InjOn f {m | m ∈ n :: rest} := hf.mono fun m hm ↦ by
      rcases List.mem_cons.mp hm with rfl | hm
      · exact List.mem_cons_self
      · exact List.mem_cons_of_mem _ (List.mem_cons_of_mem _ hm)
    have hiff : f a = f n ↔ a = n :=
      hf.eq_iff (List.mem_cons_of_mem _ List.mem_cons_self) List.mem_cons_self
    rw [List.map_cons, lastPosition, lastPosition, ih hrest]
    simp only [hiff]

theorem canonicalName_of_mem (h : n ∈ ns) :
    ∃ k, lastPosition n ns 0 = some k ∧ canonicalName ns n = "id" ++ Nat.repr k := by
  obtain ⟨k, hk⟩ := Option.ne_none_iff_exists'.mp (mt lastPosition_eq_none.mp (not_not.mpr h))
  exact ⟨k, hk, by rw [canonicalName, hk]⟩

/-- Different declared names have different canonical names. -/
theorem injOn_canonicalName (ns : List String) : Set.InjOn (canonicalName ns) {n | n ∈ ns} := by
  intro m hm n hn heq
  obtain ⟨k, hk, hmk⟩ := canonicalName_of_mem hm
  obtain ⟨l, hl, hnl⟩ := canonicalName_of_mem hn
  rw [hmk, hnl, String.append_right_inj] at heq
  -- The digits of a number determine it.
  rw [Nat.repr_eq_ofList_toDigits, Nat.repr_eq_ofList_toDigits, String.ofList_inj] at heq
  have hkl : k = l := by
    rw [← @Nat.ofDigitChars_ten_toDigits k, heq, Nat.ofDigitChars_ten_toDigits]
  rw [hkl] at hk
  have hget := (getElem?_of_lastPosition hk).2
  rw [(getElem?_of_lastPosition hl).2, Option.some.injEq] at hget
  exact hget.symm

/-- The canonical name of a declared name does not depend on what the names are. -/
theorem canonicalName_map (hf : Set.InjOn f {m | m ∈ ns}) (h : n ∈ ns) :
    canonicalName (ns.map f) (f n) = canonicalName ns n := by
  have hinj : Set.InjOn f {m | m ∈ n :: ns} := hf.mono fun m hm ↦ by
    rcases List.mem_cons.mp hm with rfl | hm
    · exact h
    · exact hm
  obtain ⟨k, hk, hn⟩ := canonicalName_of_mem h
  rw [hn, canonicalName, lastPosition_map hinj, hk]

end Positions

/-! ### Canonical forms -/

namespace Program

variable {p : Program}

theorem rename_rename {g : String → String} : (p.rename f).rename g = p.rename (g ∘ f) := by
  rw [rename, rename, rename, List.map_map]
  refine List.map_congr_left fun i _ ↦ ?_
  cases i with
  | declare d => rfl
  | apply a =>
    simp [Instruction.rename, Function.comp_def]

theorem rename_congr {g : String → String} (hp : p.Named) (h : ∀ n ∈ p.names, f n = g n) :
    p.rename f = p.rename g := by
  refine List.map_congr_left fun i hi ↦ ?_
  cases i with
  | declare d =>
    have hd : d ∈ p.declarations := List.mem_filterMap.mpr ⟨_, hi, rfl⟩
    rw [Instruction.rename, Instruction.rename, h d.name (List.mem_map_of_mem hd)]
  | apply a =>
    have ha : a ∈ p.applications := List.mem_filterMap.mpr ⟨_, hi, rfl⟩
    have htargets : a.targets.map (Qubit.rename f) = a.targets.map (Qubit.rename g) := by
      refine List.map_congr_left fun x hx ↦ ?_
      rw [Qubit.rename, Qubit.rename, h _ (hp a ha x (.inl hx))]
    have hguards : a.guards.map (Guard.rename f) = a.guards.map (Guard.rename g) := by
      refine List.map_congr_left fun c hc ↦ ?_
      rw [Guard.rename, Guard.rename, Qubit.rename, Qubit.rename,
        h _ (hp a ha c.qubit (.inr (List.mem_map_of_mem hc)))]
    change Instruction.apply (a.rename f) = .apply (a.rename g)
    rw [Application.rename, Application.rename, htargets, hguards]

/-- The canonical form does not depend on the names, as long as they are kept apart. -/
theorem canonical_rename (hp : p.Named) (hf : Set.InjOn f {n | n ∈ p.names}) :
    (p.rename f).canonical = p.canonical := by
  rw [canonical_eq_rename, canonical_eq_rename, rename_rename, names_rename]
  exact rename_congr hp fun n hn ↦ canonicalName_map hf hn

theorem canonical_canonical (hp : p.Named) : p.canonical.canonical = p.canonical :=
  canonical_rename hp (injOn_canonicalName p.names)

end Program

end Peephole
