import Peephole.Rule.Basic

/-!
# Runs of questions and edits

Questions to a circuit are computations in `Except` and edits are computations in `EStateM`. The
facts here take a computation that is known to succeed apart into its steps, or put it together from
them, so that the proofs about circuits never unfold the two monads.
-/

set_option autoImplicit false
set_option relaxedAutoImplicit false

namespace Peephole.Run

section Questions

variable {ε ε' α β : Type}

theorem bind_eq_ok {x : Except ε α} {f : α → Except ε β} {b : β} :
    (x >>= f) = .ok b ↔ ∃ a, x = .ok a ∧ f a = .ok b := by
  cases x <;> simp [bind, Except.bind]

theorem map_eq_ok {x : Except ε α} {f : α → β} {b : β} :
    x.map f = .ok b ↔ ∃ a, x = .ok a ∧ f a = b := by
  cases x <;> simp [Except.map]

theorem toOption_eq_some {x : Except ε α} {a : α} : x.toOption = some a ↔ x = .ok a := by
  cases x <;> simp [Except.toOption]

theorem toOption_map_eq_some {x : Except ε α} {f : α → β} {b : β} :
    x.toOption.map f = some b ↔ ∃ a, x = .ok a ∧ f a = b := by
  cases x <;> simp [Except.toOption]

theorem mapError_eq_ok {x : Except ε α} {f : ε → ε'} {a : α} :
    x.mapError f = .ok a ↔ x = .ok a := by
  cases x with
  | error e => exact ⟨nofun, nofun⟩
  | ok b =>
    change Except.ok b = Except.ok a ↔ _
    rw [Except.ok.injEq, Except.ok.injEq]

/-- A question asked of every member succeeds if it always does. -/
theorem mapM_ok {f : α → Except ε β} {k : α → β} {l : List α} (h : ∀ a ∈ l, f a = .ok (k a)) :
    l.mapM f = .ok (l.map k) := by
  induction l with
  | nil => rfl
  | cons a rest ih =>
    rw [List.mapM_cons, h a List.mem_cons_self, ih fun b hb ↦ h b (List.mem_cons_of_mem a hb)]
    rfl

/-- All answers are collected if every question has one. -/
theorem exists_mapM {f : α → Except ε β} {l : List α} (h : ∀ a ∈ l, ∃ b, f a = .ok b) :
    ∃ r, l.mapM f = .ok r := by
  induction l with
  | nil => exact ⟨[], rfl⟩
  | cons a rest ih =>
    obtain ⟨b, hb⟩ := h a List.mem_cons_self
    obtain ⟨r, hr⟩ := ih fun x hx ↦ h x (List.mem_cons_of_mem a hx)
    refine ⟨b :: r, ?_⟩
    rw [List.mapM_cons]
    exact bind_eq_ok.mpr ⟨b, hb, bind_eq_ok.mpr ⟨r, hr, rfl⟩⟩

theorem exists_of_mapM {f : α → Except ε β} {l : List α} {r : List β} (h : l.mapM f = .ok r) {b : β}
    (hb : b ∈ r) : ∃ a ∈ l, f a = .ok b := by
  induction l generalizing r with
  | nil =>
    cases h
    exact absurd hb List.not_mem_nil
  | cons a rest ih =>
    rw [List.mapM_cons] at h
    obtain ⟨c, hc, h⟩ := bind_eq_ok.mp h
    obtain ⟨cs, hcs, h⟩ := bind_eq_ok.mp h
    cases h
    rcases List.mem_cons.mp hb with rfl | hb
    · exact ⟨a, List.mem_cons_self, hc⟩
    · obtain ⟨x, hx, hfx⟩ := ih hcs hb
      exact ⟨x, List.mem_cons_of_mem a hx, hfx⟩

/-- If all answers are collected, every question has one. -/
theorem exists_ok_of_mapM {f : α → Except ε β} {l : List α} {r : List β} (h : l.mapM f = .ok r)
    {a : α} (ha : a ∈ l) : ∃ b, f a = .ok b := by
  induction l generalizing r with
  | nil => exact absurd ha List.not_mem_nil
  | cons x rest ih =>
    rw [List.mapM_cons] at h
    obtain ⟨b, hb, h⟩ := bind_eq_ok.mp h
    obtain ⟨bs, hbs, -⟩ := bind_eq_ok.mp h
    rcases List.mem_cons.mp ha with rfl | ha
    · exact ⟨b, hb⟩
    · exact ih hbs ha

/-- If each answer determines its question, the answers determine the questions. -/
theorem map_of_mapM {f : α → Except ε β} {k : β → α} (hk : ∀ a b, f a = .ok b → k b = a)
    {l : List α} {r : List β} (h : l.mapM f = .ok r) : r.map k = l := by
  induction l generalizing r with
  | nil =>
    cases h
    rfl
  | cons a rest ih =>
    rw [List.mapM_cons] at h
    obtain ⟨c, hc, h⟩ := bind_eq_ok.mp h
    obtain ⟨cs, hcs, h⟩ := bind_eq_ok.mp h
    cases h
    rw [List.map_cons, hk a c hc, ih hcs]

/-- What is asked of every member and always granted is granted as a whole. -/
theorem forM_eq_ok {f : α → Except ε Unit} {l : List α} :
    l.forM f = .ok () ↔ ∀ a ∈ l, f a = .ok () := by
  induction l with
  | nil => exact ⟨fun _ _ ha ↦ absurd ha List.not_mem_nil, fun _ ↦ rfl⟩
  | cons a rest ih =>
    change (f a >>= fun _ ↦ rest.forM f) = .ok () ↔ _
    rw [bind_eq_ok, List.forall_mem_cons, ← ih]
    constructor
    · rintro ⟨_, ha, hrest⟩
      exact ⟨ha, hrest⟩
    · rintro ⟨ha, hrest⟩
      exact ⟨(), ha, hrest⟩

theorem discard_question_eq_ok {x : Except ε α} : discard x = .ok () ↔ ∃ a, x = .ok a := by
  cases x with
  | error e => exact ⟨nofun, nofun⟩
  | ok a => exact ⟨fun _ ↦ ⟨a, rfl⟩, fun _ ↦ rfl⟩

/-- What a search finds is the answer to one of its questions. -/
theorem exists_of_findSomeM? {f : α → Except ε (Option β)} {l : List α} {b : β}
    (h : l.findSomeM? f = .ok (some b)) : ∃ a ∈ l, f a = .ok (some b) := by
  induction l with
  | nil => cases h
  | cons a rest ih =>
    obtain ⟨answer, ha, h⟩ := bind_eq_ok.mp h
    cases answer with
    | none =>
      obtain ⟨x, hx, hfx⟩ := ih h
      exact ⟨x, List.mem_cons_of_mem a hx, hfx⟩
    | some c =>
      cases h
      exact ⟨a, List.mem_cons_self, ha⟩

/-- A search has an outcome if all of its questions have an answer. -/
theorem exists_findSomeM? {f : α → Except ε (Option β)} {l : List α}
    (h : ∀ a ∈ l, ∃ answer, f a = .ok answer) : ∃ found, l.findSomeM? f = .ok found := by
  induction l with
  | nil => exact ⟨none, rfl⟩
  | cons a rest ih =>
    obtain ⟨answer, ha⟩ := h a List.mem_cons_self
    cases answer with
    | none =>
      obtain ⟨found, hrest⟩ := ih fun b hb ↦ h b (List.mem_cons_of_mem a hb)
      exact ⟨found, bind_eq_ok.mpr ⟨none, ha, hrest⟩⟩
    | some b => exact ⟨some b, bind_eq_ok.mpr ⟨some b, ha, rfl⟩⟩

/-- A search finds nothing if and only if none of its questions does. -/
theorem findSomeM?_eq_none {f : α → Except ε (Option β)} {l : List α} :
    l.findSomeM? f = .ok none ↔ ∀ a ∈ l, f a = .ok none := by
  induction l with
  | nil => exact ⟨fun _ a ha ↦ absurd ha List.not_mem_nil, fun _ ↦ rfl⟩
  | cons a rest ih =>
    rw [List.forall_mem_cons, ← ih]
    constructor
    · intro h
      obtain ⟨answer, ha, hrest⟩ := bind_eq_ok.mp h
      cases answer with
      | none => exact ⟨ha, hrest⟩
      | some b => cases hrest
    · rintro ⟨ha, hrest⟩
      exact bind_eq_ok.mpr ⟨none, ha, hrest⟩

/-- A question about all members has an answer if it has one for each. -/
theorem exists_allM {f : α → Except ε Bool} {l : List α} (h : ∀ a ∈ l, ∃ answer, f a = .ok answer) :
    ∃ answer, l.allM f = .ok answer := by
  induction l with
  | nil => exact ⟨true, rfl⟩
  | cons a rest ih =>
    obtain ⟨answer, ha⟩ := h a List.mem_cons_self
    cases answer with
    | false => exact ⟨false, bind_eq_ok.mpr ⟨false, ha, rfl⟩⟩
    | true =>
      obtain ⟨others, hrest⟩ := ih fun b hb ↦ h b (List.mem_cons_of_mem a hb)
      exact ⟨others, bind_eq_ok.mpr ⟨true, ha, hrest⟩⟩

/-- A question is answered by yes for all members if and only if it is for each. -/
theorem allM_eq_true {f : α → Except ε Bool} {l : List α} :
    l.allM f = .ok true ↔ ∀ a ∈ l, f a = .ok true := by
  induction l with
  | nil => exact ⟨fun _ a ha ↦ absurd ha List.not_mem_nil, fun _ ↦ rfl⟩
  | cons a rest ih =>
    rw [List.forall_mem_cons, ← ih]
    constructor
    · intro h
      obtain ⟨answer, ha, hrest⟩ := bind_eq_ok.mp h
      cases answer with
      | false => cases hrest
      | true => exact ⟨ha, hrest⟩
    · rintro ⟨ha, hrest⟩
      exact bind_eq_ok.mpr ⟨true, ha, hrest⟩

end Questions

section Edits

variable {ε σ α β : Type} {x : EStateM ε σ α} {f : α → EStateM ε σ β} {s s' : σ} {a : α} {e : ε}

theorem bind_ok (h : x.run s = .ok a s') : (x >>= f).run s = (f a).run s' := by
  rw [EStateM.run] at h
  simp only [EStateM.run, bind, EStateM.bind, h]

theorem bind_error (h : x.run s = .error e s') : (x >>= f).run s = .error e s' := by
  rw [EStateM.run] at h
  simp only [EStateM.run, bind, EStateM.bind, h]

/-- A run of two steps that succeeds is a run of the first and a run of the second. -/
theorem steps_eq_ok {b : β} :
    (x >>= f).run s = .ok b s' ↔ ∃ a t, x.run s = .ok a t ∧ (f a).run t = .ok b s' := by
  constructor
  · intro h
    cases hx : x.run s with
    | ok a t =>
      rw [bind_ok hx] at h
      exact ⟨a, t, rfl, h⟩
    | error e t =>
      rw [bind_error hx] at h
      cases h
  · rintro ⟨a, t, hx, hf⟩
    rw [bind_ok hx, hf]

/-- A computation gives a value if it succeeds with it, whatever it leaves. -/
theorem value_eq_some : x.run' s = some a ↔ ∃ s', x.run s = .ok a s' := by
  delta EStateM.run'
  cases x.run s with
  | ok b t => simp
  | error e t => simp

theorem discard_ok (h : x.run s = .ok a s') : (discard x).run s = .ok () s' := by
  rw [EStateM.run] at h
  simp only [EStateM.run, discard, Functor.discard, Functor.mapConst, Function.comp, EStateM.map, h]

theorem discard_error (h : x.run s = .error e s') : (discard x).run s = .error e s' := by
  rw [EStateM.run] at h
  simp only [EStateM.run, discard, Functor.discard, Functor.mapConst, Function.comp, EStateM.map, h]

theorem discard_eq_ok : (discard x).run s = .ok () s' ↔ ∃ a, x.run s = .ok a s' := by
  constructor
  · intro h
    cases hx : x.run s with
    | ok a t =>
      rw [discard_ok hx] at h
      cases h
      exact ⟨a, rfl⟩
    | error e t =>
      rw [discard_error hx] at h
      cases h
  · rintro ⟨a, h⟩
    exact discard_ok h

theorem modify_ok (change : σ → σ) :
    (modify change : EStateM ε σ PUnit).run s = .ok ⟨⟩ (change s) :=
  rfl

theorem get_ok : (get : EStateM ε σ σ).run s = .ok s s :=
  rfl

theorem set_ok (t : σ) : (set t : EStateM ε σ PUnit).run s = .ok ⟨⟩ t :=
  rfl

theorem ask_ok {question : Circuit → Except CircuitFault α} {g : Circuit} {a : α}
    (h : question g = .ok a) : (Edit.ask question).run g = .ok a g := by
  simp only [EStateM.run, Edit.ask, h]

theorem ask_error {question : Circuit → Except CircuitFault α} {g : Circuit} {e : CircuitFault}
    (h : question g = .error e) : (Edit.ask question).run g = .error e g := by
  simp only [EStateM.run, Edit.ask, h]

theorem edit_eq_ok {change : Edit α} {g g' : Circuit} {a : α} :
    (Reduction.edit change).run g = .ok a g' ↔ change.run g = .ok a g' := by
  simp only [EStateM.run, Reduction.edit, EStateM.adaptExcept]
  cases change g <;> simp

theorem of_ask {question : Circuit → Except CircuitFault α} {g g' : Circuit} {a : α}
    (h : (Reduction.ask question).run g = .ok a g') : question g = .ok a ∧ g' = g := by
  rw [Reduction.ask, edit_eq_ok] at h
  cases hq : question g with
  | ok b =>
    rw [ask_ok hq] at h
    cases h
    exact ⟨rfl, rfl⟩
  | error e =>
    rw [ask_error hq] at h
    cases h

end Edits

end Peephole.Run
