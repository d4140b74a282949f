import Mathlib.Logic.Function.Conjugate
import Peephole.Proofs.Links

/-!
# Lines of operations

Every number has an operation on states, and a line of numbers is carried out from left to right
(`evolve`). `Follows` says that one number comes later in a line than another one and that all
numbers between them may be skipped. An operation that commutes with all operations between it and
another one can be merged into the other one, from the left or from the right
(`Follows.merge_before`, `Follows.merge_after`, and from both sides `Follows.merge_around`), which
takes it out of the line (`without`).
-/

set_option autoImplicit false
set_option relaxedAutoImplicit false

namespace Peephole

universe u

variable {S : Type u} {op op' : Nat → S → S} {line : List Nat} {a b n : Nat}
  {skip skip' : Nat → Prop}

/-- The state after the operations of a line. -/
def evolve (op : Nat → S → S) (line : List Nat) (s : S) : S :=
  line.foldl (fun s n ↦ op n s) s

/-- A line without some of its numbers. -/
def without (line ns : List Nat) : List Nat :=
  ns.foldl (fun line n ↦ line.filter (· ≠ n)) line

theorem mem_without {ns : List Nat} : n ∈ without line ns ↔ n ∈ line ∧ n ∉ ns := by
  induction ns generalizing line with
  | nil => simp [without]
  | cons m rest ih =>
    refine (@ih (line.filter (· ≠ m))).trans ?_
    simp [and_assoc]

theorem without_sublist (line ns : List Nat) : (without line ns).Sublist line := by
  induction ns generalizing line with
  | nil => exact .refl _
  | cons m rest ih => exact (ih _).trans List.filter_sublist

theorem nodup_without (h : line.Nodup) (ns : List Nat) : (without line ns).Nodup := by
  induction ns generalizing line with
  | nil => exact h
  | cons m rest ih => exact ih (h.filter _)

theorem without_append (line ns : List Nat) (n : Nat) :
    without line (ns ++ [n]) = (without line ns).filter (· ≠ n) :=
  List.foldl_append

theorem evolve_cons (op : Nat → S → S) (n : Nat) (line : List Nat) (s : S) :
    evolve op (n :: line) s = evolve op line (op n s) :=
  rfl

theorem evolve_append (op : Nat → S → S) (line line' : List Nat) (s : S) :
    evolve op (line ++ line') s = evolve op line' (evolve op line s) :=
  List.foldl_append

theorem evolve_congr (h : ∀ n ∈ line, op n = op' n) (s : S) :
    evolve op line s = evolve op' line s := by
  induction line generalizing s with
  | nil => rfl
  | cons n rest ih =>
    rw [evolve_cons, evolve_cons, h n List.mem_cons_self,
      ih fun k hk ↦ h k (List.mem_cons_of_mem n hk)]

theorem evolve_update (f : S → S) (h : n ∉ line) (s : S) :
    evolve (Function.update op n f) line s = evolve op line s := by
  refine evolve_congr (fun k hk ↦ ?_) s
  have hne : k ≠ n := fun heq ↦ h (heq ▸ hk)
  exact Function.update_of_ne hne f op

/-- An operation can be moved past all those it commutes with. -/
theorem evolve_comm (h : ∀ k ∈ line, Function.Commute (op a) (op k)) (s : S) :
    evolve op line (op a s) = op a (evolve op line s) := by
  induction line generalizing s with
  | nil => rfl
  | cons n rest ih =>
    rw [evolve_cons, evolve_cons, ← h n List.mem_cons_self s,
      ih fun k hk ↦ h k (List.mem_cons_of_mem n hk)]

/-- One number comes later in a line than another one, and all numbers between them are of a kind.
-/
def Follows (line : List Nat) (skip : Nat → Prop) (a b : Nat) : Prop :=
  ∃ before middle after, line = before ++ a :: (middle ++ b :: after) ∧ ∀ k ∈ middle, skip k

theorem follows_of_neighbours {keep : Nat → Bool} (h : [a, b].IsInfix (line.filter keep)) :
    Follows line (fun k ↦ keep k = false) a b := by
  obtain ⟨front, back, hfilter⟩ := h
  rw [List.append_assoc, List.cons_append, List.singleton_append] at hfilter
  obtain ⟨before, rest, rfl, -, hrest⟩ := List.filter_eq_append_iff.mp hfilter.symm
  obtain ⟨skipped, rest, rfl, -, -, hrest⟩ := List.filter_eq_cons_iff.mp hrest
  obtain ⟨middle, after, rfl, hmiddle, -, -⟩ := List.filter_eq_cons_iff.mp hrest
  refine ⟨before ++ skipped, middle, after, by rw [List.append_assoc], fun k hk ↦ ?_⟩
  exact Bool.eq_false_iff.mpr (hmiddle k hk)

theorem not_mem_front {front back : List Nat} (h : (front ++ n :: back).Nodup) : n ∉ front :=
  fun hn ↦ (List.nodup_append.mp h).2.2 n hn n List.mem_cons_self rfl

theorem not_mem_back {front back : List Nat} (h : (front ++ n :: back).Nodup) : n ∉ back :=
  (List.nodup_cons.mp (List.nodup_append.mp h).2.1).1

namespace Follows

theorem imp (h : Follows line skip a b) (himp : ∀ k, skip k → skip' k) :
    Follows line skip' a b := by
  obtain ⟨before, middle, after, hline, hskip⟩ := h
  exact ⟨before, middle, after, hline, fun k hk ↦ himp k (hskip k hk)⟩

theorem without (h : Follows line skip a b) {ns : List Nat} (ha : a ∉ ns) (hb : b ∉ ns) :
    Follows (without line ns) skip a b := by
  induction ns generalizing line with
  | nil => exact h
  | cons n rest ih =>
    rw [List.mem_cons, not_or] at ha hb
    refine ih ?_ ha.2 hb.2
    obtain ⟨before, middle, after, rfl, hskip⟩ := h
    refine ⟨before.filter (· ≠ n), middle.filter (· ≠ n), after.filter (· ≠ n), ?_, ?_⟩
    · simp [ha.1, hb.1]
    · exact fun k hk ↦ hskip k (List.mem_filter.mp hk).1

theorem ne (hnodup : line.Nodup) (h : Follows line skip a b) : a ≠ b := by
  obtain ⟨before, middle, after, rfl, -⟩ := h
  rintro rfl
  exact not_mem_back hnodup (by simp)

/-- What lies between two numbers is of every kind that some view of it shows. -/
theorem forall_mem (hnodup : line.Nodup) (h : Follows line skip a b) {α : Type} {l : List α}
    {kind : α → Nat → Prop} (hall : ∀ x ∈ l, Follows line (kind x) a b) :
    Follows line (fun k ↦ ∀ x ∈ l, kind x k) a b := by
  obtain ⟨before, middle, after, hline, -⟩ := h
  refine ⟨before, middle, after, hline, fun k hk x hx ↦ ?_⟩
  obtain ⟨before', middle', after', hline', hkind⟩ := hall x hx
  have hmiddle : middle = middle' := by
    rw [hline] at hline' hnodup
    have hrest := (List.nodup_cons.mp (List.nodup_append.mp hnodup).2.1).2
    obtain ⟨-, -, htail⟩ := (List.append_cons_inj_of_notMem (not_mem_front hnodup)
      (not_mem_back hnodup)).mp hline'
    exact ((List.append_cons_inj_of_notMem (not_mem_front hrest)
      (not_mem_back hrest)).mp htail).1
  exact hkind k (hmiddle ▸ hk)

variable (hnodup : line.Nodup)

include hnodup

/-- An operation is merged into a later one. -/
theorem evolve_before (h : Follows line (fun k ↦ Function.Commute (op a) (op k)) a n) (f : S → S)
    (s : S) :
    evolve (Function.update op n f) line s =
      evolve (Function.update op n (f ∘ op a)) (line.filter (· ≠ a)) s := by
  have hne : a ≠ n := h.ne hnodup
  obtain ⟨before, middle, after, rfl, hcomm⟩ := h
  have hless : ((before ++ middle) ++ n :: after).Nodup := by
    rw [List.append_assoc]
    exact (List.nodup_cons.mp (List.nodup_middle.mp hnodup)).2
  have hfront := not_mem_front hless
  have hback := not_mem_back hless
  rw [filter_ne_middle hnodup, ← List.append_assoc before middle]
  calc
    _ = evolve op after (f (evolve op middle (op a (evolve op before s)))) := by
      rw [evolve_append, evolve_cons, evolve_append, evolve_cons, Function.update_of_ne hne,
        Function.update_self, evolve_update _ hback,
        evolve_update _ fun hn ↦ hfront (List.mem_append_right _ hn),
        evolve_update _ fun hn ↦ hfront (List.mem_append_left _ hn)]
    _ = evolve op after (f (op a (evolve op (before ++ middle) s))) := by
      rw [evolve_comm hcomm, evolve_append]
    _ = _ := by
      rw [evolve_append _ (before ++ middle), evolve_cons, Function.update_self,
        evolve_update _ hfront, evolve_update _ hback]
      rfl

/-- An operation is merged into an earlier one. -/
theorem evolve_after (h : Follows line (fun k ↦ Function.Commute (op b) (op k)) n b) (f : S → S)
    (s : S) :
    evolve (Function.update op n f) line s =
      evolve (Function.update op n (op b ∘ f)) (line.filter (· ≠ b)) s := by
  have hne : b ≠ n := (h.ne hnodup).symm
  obtain ⟨before, middle, after, rfl, hcomm⟩ := h
  have hfilter : (before ++ n :: (middle ++ b :: after)).filter (· ≠ b) =
      before ++ n :: (middle ++ after) := by
    have hline : before ++ n :: (middle ++ b :: after) =
        (before ++ n :: middle) ++ b :: after := by
      simp
    rw [hline] at hnodup ⊢
    rw [filter_ne_middle hnodup, List.append_assoc, List.cons_append]
  have hfront := not_mem_front hnodup
  have hback := not_mem_back hnodup
  rw [hfilter]
  calc
    _ = evolve op after (op b (evolve op middle (f (evolve op before s)))) := by
      rw [evolve_append, evolve_cons, evolve_append, evolve_cons, Function.update_of_ne hne,
        Function.update_self, evolve_update _ hfront,
        evolve_update _ fun hn ↦ hback (List.mem_append_left _ hn),
        evolve_update _ fun hn ↦ hback (List.mem_append_right _ (List.mem_cons_of_mem b hn))]
    _ = evolve op (middle ++ after) (op b (f (evolve op before s))) := by
      rw [evolve_append, evolve_comm hcomm]
    _ = _ := by
      have hrest : n ∉ middle ++ after := fun hn ↦
        hback (List.mem_append.mpr ((List.mem_append.mp hn).imp_right (List.mem_cons_of_mem b)))
      rw [evolve_append _ before, evolve_cons, Function.update_self, evolve_update _ hfront,
        evolve_update _ hrest]
      rfl

variable {ns : List Nat} (hn : n ∉ ns)

include hn

/-- An operation is merged into a later one after some others are gone. -/
theorem merge_before (h : Follows line (fun k ↦ Function.Commute (op a) (op k)) a n) (ha : a ∉ ns)
    (f : S → S) (s : S) :
    evolve (Function.update op n f) (Peephole.without line ns) s =
      evolve (Function.update op n (f ∘ op a)) (Peephole.without line (ns ++ [a])) s := by
  rw [without_append, (h.without ha hn).evolve_before (nodup_without hnodup ns)]

/-- An operation is merged into an earlier one after some others are gone. -/
theorem merge_after (h : Follows line (fun k ↦ Function.Commute (op b) (op k)) n b) (hb : b ∉ ns)
    (f : S → S) (s : S) :
    evolve (Function.update op n f) (Peephole.without line ns) s =
      evolve (Function.update op n (op b ∘ f)) (Peephole.without line (ns ++ [b])) s := by
  rw [without_append, (h.without hn hb).evolve_after (nodup_without hnodup ns)]

/-- The operations on both sides of one are merged into it after some others are gone. -/
theorem merge_around (hbefore : Follows line (fun k ↦ Function.Commute (op a) (op k)) a n)
    (hafter : Follows line (fun k ↦ Function.Commute (op b) (op k)) n b)
    (hdistinct : (ns ++ [a, b]).Nodup) (f : S → S) (s : S) :
    evolve (Function.update op n f) (Peephole.without line ns) s =
      evolve (Function.update op n (op b ∘ f ∘ op a)) (Peephole.without line (ns ++ [a, b])) s := by
  rw [List.append_cons] at hdistinct ⊢
  have ha : a ∉ ns := not_mem_front (List.nodup_append.mp hdistinct).1
  have hb : b ∉ ns ++ [a] := not_mem_front hdistinct
  have hn' : n ∉ ns ++ [a] := by
    rw [List.mem_append, List.mem_singleton, not_or]
    exact ⟨hn, (hbefore.ne hnodup).symm⟩
  rw [hbefore.merge_before hnodup hn ha, hafter.merge_after hnodup hn' hb]

end Follows

/-- An operation can be replaced by one that does the same to the state it meets. -/
theorem evolve_replace {before after : List Nat} (hnodup : (before ++ n :: after).Nodup) {f : S → S}
    {s : S} (hf : f (evolve op before s) = op n (evolve op before s)) :
    evolve (Function.update op n f) (before ++ n :: after) s =
      evolve op (before ++ n :: after) s := by
  rw [evolve_append, evolve_append, evolve_cons, evolve_cons, Function.update_self,
    evolve_update f (not_mem_front hnodup), evolve_update f (not_mem_back hnodup), hf]

/-- An operation that does nothing can be left out. -/
theorem evolve_skip (h : op n = id) (s : S) :
    evolve op line s = evolve op (line.filter (· ≠ n)) s := by
  induction line generalizing s with
  | nil => rfl
  | cons k rest ih =>
    rw [evolve_cons, ih]
    by_cases hk : k = n
    · rw [List.filter_cons_of_neg (by simpa using hk), hk, h, id]
    · rw [List.filter_cons_of_pos (by simpa using hk), evolve_cons]

end Peephole
