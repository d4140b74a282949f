import Mathlib.Data.List.Nodup
import Peephole.Circuit.Slots

/-!
# Tables as lists of numbered values

`Slots.entries` shows a table as a list of numbered values, in which every number stands once
(`nodup_keys`). Adding a value puts one entry into the list (`entries_insert`), removing a value
takes one out (`entries_erase`), and changing a value keeps the numbers (`keys_update`), each up to
the order of the list. The same holds of the values alone, which may repeat (`values_insert`,
`values_erase`).
-/

set_option autoImplicit false
set_option relaxedAutoImplicit false

namespace Peephole.Slots

variable {α : Type}

/-- The numbers in use, in increasing order. -/
def keys (s : Slots α) : List Nat :=
  s.entries.map Prod.fst

theorem mem_keys {s : Slots α} {i : Nat} : i ∈ s.keys ↔ (s.get? i).isSome := by
  rw [keys, List.mem_map, Option.isSome_iff_exists]
  constructor
  · rintro ⟨⟨j, a⟩, hmem, rfl⟩
    exact ⟨a, mem_entries.mp hmem⟩
  · rintro ⟨a, ha⟩
    exact ⟨(i, a), mem_entries.mpr ha, rfl⟩

theorem selectFrom_eq_filter (keep : α → Bool) (start : Nat) (cells : List (Option α)) :
    selectFrom keep start cells =
      (selectFrom (fun _ ↦ true) start cells).filter fun entry ↦ keep entry.2 := by
  induction cells generalizing start with
  | nil => rfl
  | cons cell rest ih =>
    cases cell with
    | none => exact ih (start + 1)
    | some a => by_cases ha : keep a = true <;> simp [selectFrom, ha, ih (start + 1)]

/-- A selection is the part of the entries that passes the test. -/
theorem select_eq_filter (s : Slots α) (keep : α → Bool) :
    s.select keep = s.entries.filter fun entry ↦ keep entry.2 :=
  selectFrom_eq_filter keep 0 s.cells

theorem map_snd_selectFrom (start : Nat) (cells : List (Option α)) :
    (selectFrom (fun _ ↦ true) start cells).map Prod.snd = cells.filterMap id := by
  induction cells generalizing start with
  | nil => rfl
  | cons cell rest ih =>
    cases cell with
    | none => exact ih (start + 1)
    | some a => simp [selectFrom, ih (start + 1)]

theorem values_eq_map (s : Slots α) : s.values = s.entries.map Prod.snd :=
  (map_snd_selectFrom 0 s.cells).symm

theorem mem_values {s : Slots α} {a : α} : a ∈ s.values ↔ ∃ i, s.get? i = some a := by
  rw [values_eq_map, List.mem_map]
  constructor
  · rintro ⟨⟨i, b⟩, hmem, rfl⟩
    exact ⟨i, mem_entries.mp hmem⟩
  · rintro ⟨i, hi⟩
    exact ⟨(i, a), mem_entries.mpr hi, rfl⟩

theorem length_keys (s : Slots α) : s.keys.length = s.size := by
  rw [keys, size, values_eq_map, List.length_map, List.length_map]

theorem pairwise_selectFrom (start : Nat) (cells : List (Option α)) :
    ((selectFrom (fun _ ↦ true) start cells).map Prod.fst).Pairwise (· < ·) := by
  induction cells generalizing start with
  | nil => exact List.Pairwise.nil
  | cons cell rest ih =>
    cases cell with
    | none => exact ih (start + 1)
    | some a =>
      refine List.Pairwise.cons ?_ (ih (start + 1))
      intro j hj
      obtain ⟨⟨i, b⟩, hmem, rfl⟩ := List.mem_map.mp hj
      obtain ⟨k, hk, -⟩ := mem_selectFrom.mp hmem
      change start < i
      omega

/-- Every number is in use at most once. -/
theorem nodup_keys (s : Slots α) : s.keys.Nodup :=
  (pairwise_selectFrom 0 s.cells).imp Nat.ne_of_lt

theorem nodup_entries (s : Slots α) : s.entries.Nodup :=
  List.Nodup.of_map Prod.fst s.nodup_keys

/-- A new value is one new entry. -/
theorem entries_insert (s : Slots α) (a : α) :
    (s.insert a).entries.Perm ((s.next, a) :: s.entries) := by
  have hnew : (s.next, a) ∉ s.entries := by
    rw [mem_entries, get?_next]
    exact nofun
  refine (List.perm_ext_iff_of_nodup (nodup_entries _)
    (List.nodup_cons.mpr ⟨hnew, nodup_entries _⟩)).mpr ?_
  rintro ⟨i, b⟩
  rw [mem_entries, get?_insert, List.mem_cons, mem_entries, Prod.mk.injEq]
  by_cases hi : i = s.next
  · subst hi
    simp [get?_next, eq_comm]
  · simp [hi]

/-- Removing a value takes its entry out. -/
theorem entries_erase {s : Slots α} {i : Nat} {a : α} (h : s.get? i = some a) :
    s.entries.Perm ((i, a) :: (s.erase i).entries) := by
  have hgone : (i, a) ∉ (s.erase i).entries := by
    rw [mem_entries, get?_erase, if_pos rfl]
    exact nofun
  refine (List.perm_ext_iff_of_nodup (nodup_entries _)
    (List.nodup_cons.mpr ⟨hgone, nodup_entries _⟩)).mpr ?_
  rintro ⟨j, b⟩
  rw [mem_entries, List.mem_cons, mem_entries, get?_erase, Prod.mk.injEq]
  by_cases hj : j = i
  · subst hj
    simp [h, eq_comm]
  · simp [hj]

theorem keys_insert (s : Slots α) (a : α) : (s.insert a).keys.Perm (s.next :: s.keys) :=
  (s.entries_insert a).map Prod.fst

theorem keys_erase {s : Slots α} {i : Nat} {a : α} (h : s.get? i = some a) :
    s.keys.Perm (i :: (s.erase i).keys) :=
  (entries_erase h).map Prod.fst

/-- A change of a value keeps the numbers in use. -/
theorem keys_update (s : Slots α) (i : Nat) (f : α → α) : (s.update i f).keys.Perm s.keys := by
  refine (List.perm_ext_iff_of_nodup (nodup_keys _) (nodup_keys _)).mpr fun j ↦ ?_
  rw [mem_keys, mem_keys, get?_update]
  by_cases hj : j = i <;> simp [hj]

theorem values_insert (s : Slots α) (a : α) : (s.insert a).values.Perm (a :: s.values) := by
  rw [values_eq_map, values_eq_map]
  exact (s.entries_insert a).map Prod.snd

theorem values_erase {s : Slots α} {i : Nat} {a : α} (h : s.get? i = some a) :
    s.values.Perm (a :: (s.erase i).values) := by
  rw [values_eq_map, values_eq_map]
  exact (entries_erase h).map Prod.snd

theorem mem_values_of_erase {s : Slots α} {i : Nat} {a : α} (h : a ∈ (s.erase i).values) :
    a ∈ s.values := by
  obtain ⟨j, hj⟩ := mem_values.mp h
  rw [get?_erase] at hj
  split at hj
  · cases hj
  · exact mem_values.mpr ⟨j, hj⟩

theorem get?_foldl_erase (s : Slots α) (l : List (Nat × α)) (j : Nat) :
    (l.foldl (fun t entry ↦ t.erase entry.1) s).get? j =
      if j ∈ l.map Prod.fst then none else s.get? j := by
  induction l generalizing s with
  | nil => rfl
  | cons entry rest ih =>
    rw [List.foldl_cons, ih, get?_erase, List.map_cons]
    by_cases hrest : j ∈ rest.map Prod.fst
    · rw [if_pos hrest, if_pos (List.mem_cons_of_mem _ hrest)]
    · rw [if_neg hrest]
      by_cases hj : j = entry.1 <;> simp [hj, hrest]

/-- If one value alone passes a test, the selection holds it with a number of its own. -/
theorem select_eq_singleton {s : Slots α} {keep : α → Bool} {a : α}
    (h : (s.values.filter keep).Perm [a]) :
    ∃ i, s.select keep = [(i, a)] ∧ s.get? i = some a := by
  have hvalues : (s.select keep).map Prod.snd = [a] := by
    rw [select_eq_filter, ← List.perm_singleton]
    rw [values_eq_map, List.filter_map] at h
    exact h
  obtain ⟨⟨i, b⟩, hselect, rfl⟩ := List.map_eq_singleton_iff.mp hvalues
  have hmem : (i, b) ∈ s.select keep := by rw [hselect]; exact List.mem_singleton_self _
  exact ⟨i, hselect, (mem_select.mp hmem).1⟩

end Peephole.Slots
