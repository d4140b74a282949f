/-!
# Numbered slots

`Slots α` is a table of values with lasting numbers: erasing a value leaves the numbers of the
others alone. A new value takes the number that was freed most recently, and the next unused number
when none is free. The list of free numbers is part of the type, with the proof that it holds
exactly the numbers of the empty cells, each once.

Main statements: `get?_insert`, `get?_erase` and `get?_update` say what each operation does to every
number, `get?_next` that a new value never replaces another one, and `mem_select` that `select`
finds the values it should.
-/

set_option autoImplicit false
set_option relaxedAutoImplicit false

namespace Peephole

/-- A table of values with lasting numbers. -/
structure Slots (α : Type) where
  cells : List (Option α)
  /-- The numbers of the empty cells, the one freed last first. -/
  free : List Nat
  free_nodup : free.Nodup
  mem_free : ∀ i, i ∈ free ↔ cells[i]? = some none

namespace Slots

variable {α : Type}

/-- The table without a value. -/
def empty : Slots α where
  cells := []
  free := []
  free_nodup := List.nodup_nil
  mem_free := by simp

instance : Inhabited (Slots α) := ⟨empty⟩

/-- The value with number `i`. -/
def get? (s : Slots α) (i : Nat) : Option α :=
  s.cells[i]?.join

/-- The number that the next new value takes. -/
def next (s : Slots α) : Nat :=
  match s.free with
  | [] => s.cells.length
  | i :: _ => i

/-- Adds a value, with the number `s.next`. -/
def insert (s : Slots α) (a : α) : Slots α :=
  match h : s.free with
  | [] =>
    { cells := s.cells ++ [some a]
      free := []
      free_nodup := List.nodup_nil
      mem_free := by
        intro i
        have hi := s.mem_free i
        rw [h] at hi
        by_cases hlt : i < s.cells.length
        · rw [List.getElem?_append_left hlt]; exact hi
        · rw [List.getElem?_append_right (Nat.le_of_not_lt hlt)]
          cases i - s.cells.length <;> simp }
  | i :: rest =>
    { cells := s.cells.set i (some a)
      free := rest
      free_nodup := by
        have hn := s.free_nodup
        rw [h] at hn
        exact (List.nodup_cons.mp hn).2
      mem_free := by
        intro j
        have hn := s.free_nodup
        have hj := s.mem_free j
        rw [h] at hn hj
        by_cases hij : i = j
        · subst hij
          simp only [(List.nodup_cons.mp hn).1, false_iff]
          rw [List.getElem?_set_self']
          cases s.cells[i]? <;> simp
        · rw [List.getElem?_set_ne hij, ← hj]
          simp [Ne.symm hij] }

theorem get?_eq_some {s : Slots α} {i : Nat} {a : α} :
    s.get? i = some a ↔ s.cells[i]? = some (some a) := by
  simp [get?, Option.join_eq_some_iff]

/-- Removes the value with number `i`, if there is one. -/
def erase (s : Slots α) (i : Nat) : Slots α :=
  if h : (s.get? i).isSome then
    { cells := s.cells.set i none
      free := i :: s.free
      free_nodup := by
        refine List.nodup_cons.mpr ⟨?_, s.free_nodup⟩
        obtain ⟨a, ha⟩ := Option.isSome_iff_exists.mp h
        rw [s.mem_free i, get?_eq_some.mp ha]
        simp
      mem_free := by
        intro j
        obtain ⟨a, ha⟩ := Option.isSome_iff_exists.mp h
        have hlt : i < s.cells.length := (List.getElem?_eq_some_iff.mp (get?_eq_some.mp ha)).1
        by_cases hij : i = j
        · subst hij
          simp [List.getElem?_set_self hlt]
        · rw [List.getElem?_set_ne hij, ← s.mem_free j]
          simp [Ne.symm hij] }
  else s

/-- Changes the value with number `i`, if there is one. -/
def update (s : Slots α) (i : Nat) (f : α → α) : Slots α :=
  { cells := s.cells.modify i (Option.map f)
    free := s.free
    free_nodup := s.free_nodup
    mem_free := by
      intro j
      rw [s.mem_free j, List.getElem?_modify]
      by_cases hij : i = j
      · subst hij
        rcases s.cells[i]? with _ | (_ | a) <;> simp
      · simp [hij] }

/-- The values of some cells that pass a test, numbered from `i`. -/
def selectFrom (keep : α → Bool) : (i : Nat) → (cells : List (Option α)) → List (Nat × α)
  | _, [] => []
  | i, none :: rest => selectFrom keep (i + 1) rest
  | i, some a :: rest =>
    if keep a then (i, a) :: selectFrom keep (i + 1) rest else selectFrom keep (i + 1) rest

/-- The values that pass a test with their numbers, in increasing order of numbers. -/
def select (s : Slots α) (keep : α → Bool) : List (Nat × α) :=
  selectFrom keep 0 s.cells

/-- The values with their numbers, in increasing order of numbers. -/
def entries (s : Slots α) : List (Nat × α) :=
  s.select fun _ ↦ true

/-- The values in increasing order of their numbers. -/
def values (s : Slots α) : List α :=
  s.cells.filterMap id

/-- The number of values. -/
def size (s : Slots α) : Nat :=
  s.values.length

/-- A new value never replaces another one. -/
theorem get?_next (s : Slots α) : s.get? s.next = none := by
  unfold next get?
  split
  · simp
  · rename_i i rest h
    have hi : i ∈ s.free := by simp [h]
    rw [(s.mem_free i).mp hi]
    rfl

theorem next_of_free_nil {s : Slots α} (h : s.free = []) : s.next = s.cells.length := by
  simp [next, h]

theorem next_of_free_cons {s : Slots α} {i : Nat} {rest : List Nat} (h : s.free = i :: rest) :
    s.next = i := by
  simp [next, h]

theorem get?_insert (s : Slots α) (a : α) (i : Nat) :
    (s.insert a).get? i = if i = s.next then some a else s.get? i := by
  unfold insert
  split
  · rename_i h
    rw [next_of_free_nil h]
    unfold get?
    by_cases hlt : i < s.cells.length
    · rw [List.getElem?_append_left hlt, if_neg (by omega)]
    · by_cases heq : i = s.cells.length
      · simp [heq]
      · rw [if_neg heq, List.getElem?_eq_none (l := s.cells) (by omega),
          List.getElem?_eq_none (l := s.cells ++ [some a]) (by simp; omega)]
  · rename_i k rest h
    rw [next_of_free_cons h]
    have hk : s.cells[k]? = some none := (s.mem_free k).mp (by simp [h])
    have hlt : k < s.cells.length := (List.getElem?_eq_some_iff.mp hk).1
    unfold get?
    by_cases hik : i = k
    · subst hik; simp [List.getElem?_set_self hlt]
    · rw [if_neg hik, List.getElem?_set_ne (Ne.symm hik)]

theorem get?_erase (s : Slots α) (i j : Nat) :
    (s.erase i).get? j = if j = i then none else s.get? j := by
  by_cases h : (s.get? i).isSome
  · obtain ⟨a, ha⟩ := Option.isSome_iff_exists.mp h
    have hlt : i < s.cells.length := (List.getElem?_eq_some_iff.mp (get?_eq_some.mp ha)).1
    rw [erase, dif_pos h]
    unfold get?
    by_cases hij : j = i
    · subst hij; simp [List.getElem?_set_self hlt]
    · rw [if_neg hij, List.getElem?_set_ne (Ne.symm hij)]
  · rw [erase, dif_neg h]
    by_cases hij : j = i
    · subst hij; simpa using h
    · rw [if_neg hij]

theorem get?_update (s : Slots α) (i j : Nat) (f : α → α) :
    (s.update i f).get? j = if j = i then (s.get? j).map f else s.get? j := by
  unfold update get?
  simp only [List.getElem?_modify]
  by_cases hij : i = j
  · subst hij
    rcases s.cells[i]? with _ | (_ | a) <;> simp
  · simp [hij, Ne.symm hij]

theorem mem_selectFrom {keep : α → Bool} {cells : List (Option α)} {start i : Nat} {a : α} :
    (i, a) ∈ selectFrom keep start cells ↔
      ∃ k, i = start + k ∧ cells[k]? = some (some a) ∧ keep a = true := by
  induction cells generalizing start with
  | nil => simp [selectFrom]
  | cons cell rest ih =>
    have shift : (∃ k, i = start + 1 + k ∧ rest[k]? = some (some a) ∧ keep a = true) ↔
        ∃ k, i = start + (k + 1) ∧ (cell :: rest)[k + 1]? = some (some a) ∧ keep a = true := by
      simp only [List.getElem?_cons_succ, Nat.add_assoc, Nat.add_comm 1]
    rw [← Nat.or_exists_add_one, ← shift, ← ih]
    cases cell with
    | none => simp [selectFrom]
    | some b =>
      by_cases hb : keep b = true
      · simp only [selectFrom, hb, if_true, List.mem_cons, Prod.mk.injEq, List.getElem?_cons_zero,
          Option.some.injEq, Nat.add_zero]
        refine or_congr_left ⟨fun ⟨hi, ha⟩ ↦ ⟨hi, ha.symm, ha ▸ hb⟩, fun ⟨hi, ha, _⟩ ↦ ⟨hi, ha.symm⟩⟩
      · simp only [selectFrom, if_neg hb, List.getElem?_cons_zero, Option.some.injEq]
        refine ⟨Or.inr, fun h ↦ h.resolve_left fun ⟨_, ha, hk⟩ ↦ hb (ha ▸ hk)⟩

theorem mem_select {s : Slots α} {keep : α → Bool} {i : Nat} {a : α} :
    (i, a) ∈ s.select keep ↔ s.get? i = some a ∧ keep a = true := by
  simp [select, mem_selectFrom, get?_eq_some]

theorem mem_entries {s : Slots α} {i : Nat} {a : α} :
    (i, a) ∈ s.entries ↔ s.get? i = some a := by
  simp [entries, mem_select]

end Slots

end Peephole
