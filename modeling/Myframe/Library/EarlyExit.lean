import Mathlib.Data.List.Basic

/-! # Loops that end early

A loop over a list comes to an element when all the elements before it have passed. What an element needs to pass
may depend on those before it.
-/
namespace EarlyExit
set_option autoImplicit false

universe u v

variable {α : Type u} {β : Type v}

/-- Every element passes, given those before it. -/
def Passed (pass : List α → α → Prop) (xs : List α) : Prop :=
  ∀ before x after, xs = before ++ x :: after → pass before x

/-- Every element that the loop comes to is fine. -/
def Fine (pass fine : List α → α → Prop) (xs : List α) : Prop :=
  ∀ before x after, xs = before ++ x :: after → Passed pass before → fine before x

theorem passed_nil (pass : List α → α → Prop) : Passed pass [] := by
  intro before x after h
  cases before with
  | nil => cases h
  | cons y before => cases h

theorem passed_cons {pass : List α → α → Prop} {x : α} {xs : List α} :
    Passed pass (x :: xs) ↔ pass [] x ∧ Passed (fun before => pass (x :: before)) xs := by
  constructor
  · intro h
    exact ⟨h [] x xs rfl, fun before y after hSplit => h (x :: before) y after (by rw [hSplit, List.cons_append])⟩
  · rintro ⟨hFirst, hRest⟩ before y after hSplit
    cases before with
    | nil =>
      obtain ⟨rfl, rfl⟩ := List.cons.inj hSplit
      exact hFirst
    | cons z before =>
      obtain ⟨rfl, hTail⟩ := List.cons.inj hSplit
      exact hRest before y after hTail

theorem fine_nil (pass fine : List α → α → Prop) : Fine pass fine [] := by
  intro before x after h
  cases before with
  | nil => cases h
  | cons y before => cases h

theorem fine_cons {pass fine : List α → α → Prop} {x : α} {xs : List α} :
    Fine pass fine (x :: xs) ↔
      fine [] x ∧ (pass [] x → Fine (fun before => pass (x :: before)) (fun before => fine (x :: before)) xs) := by
  constructor
  · intro h
    refine ⟨h [] x xs rfl (passed_nil pass), fun hPass before y after hSplit hBefore => ?_⟩
    exact h (x :: before) y after (by rw [hSplit, List.cons_append]) (passed_cons.mpr ⟨hPass, hBefore⟩)
  · rintro ⟨hFirst, hRest⟩ before y after hSplit hBefore
    cases before with
    | nil =>
      obtain ⟨rfl, rfl⟩ := List.cons.inj hSplit
      exact hFirst
    | cons z before =>
      obtain ⟨rfl, hTail⟩ := List.cons.inj hSplit
      obtain ⟨hPass, hBefore⟩ := passed_cons.mp hBefore
      exact hRest hPass before y after hTail hBefore

theorem passed_append {pass : List α → α → Prop} {xs ys : List α} :
    Passed pass (xs ++ ys) ↔ Passed pass xs ∧ Passed (fun before => pass (xs ++ before)) ys := by
  induction xs generalizing pass with
  | nil => exact (and_iff_right (passed_nil pass)).symm
  | cons x xs ih => rw [List.cons_append, passed_cons, passed_cons, ih, and_assoc]; rfl

theorem fine_append {pass fine : List α → α → Prop} {xs ys : List α} :
    Fine pass fine (xs ++ ys) ↔ Fine pass fine xs ∧
      (Passed pass xs → Fine (fun before => pass (xs ++ before)) (fun before => fine (xs ++ before)) ys) := by
  induction xs generalizing pass fine with
  | nil =>
    have hNil := fine_nil pass fine
    have hPassed := passed_nil pass
    simp [hNil, hPassed]
  | cons x xs ih =>
    rw [List.cons_append, fine_cons, fine_cons, passed_cons, ih, and_assoc, forall_and, and_imp]
    rfl

/-- Where it does not matter what comes before. -/
theorem passed_const {pass : α → Prop} {xs : List α} : Passed (fun _ => pass) xs ↔ ∀ x ∈ xs, pass x := by
  induction xs with
  | nil => exact iff_of_true (passed_nil _) fun _ h => absurd h List.not_mem_nil
  | cons x xs ih => rw [passed_cons, ih, List.forall_mem_cons]

theorem fine_congr {pass pass' fine fine' : List α → α → Prop} {xs : List α}
    (h : ∀ before, ∀ x ∈ xs, pass before x ↔ pass' before x)
    (h' : ∀ before, ∀ x ∈ xs, fine before x ↔ fine' before x) : Fine pass fine xs ↔ Fine pass' fine' xs := by
  induction xs generalizing pass pass' fine fine' with
  | nil => exact iff_of_true (fine_nil _ _) (fine_nil _ _)
  | cons x xs ih =>
    rw [fine_cons, fine_cons, h [] x List.mem_cons_self, h' [] x List.mem_cons_self,
      ih (fun before y hy => h (x :: before) y (List.mem_cons_of_mem _ hy))
        fun before y hy => h' (x :: before) y (List.mem_cons_of_mem _ hy)]

/-- What a computation comes back with: it does not throw just where `fine` holds, and is not broken off just where
`passed` does. -/
structure Ends {ε : Type u} {γ : Type v} (r : Except ε (Option γ)) (passed fine : Prop) : Prop where
  ok : (∃ a, r = .ok a) ↔ fine
  found : (∃ a, r = .ok (some a)) ↔ passed

section Ends

variable {ε : Type u} {γ δ : Type v} {r : Except ε (Option γ)}
variable {passed fine passed' fine' : Prop}

theorem Ends.of_some (a : γ) : Ends (.ok (some a) : Except ε (Option γ)) True True where
  ok := iff_of_true ⟨_, rfl⟩ trivial
  found := iff_of_true ⟨a, rfl⟩ trivial

theorem Ends.of_none : Ends (.ok none : Except ε (Option γ)) False True where
  ok := iff_of_true ⟨none, rfl⟩ trivial
  found := iff_of_false (by rintro ⟨a, ⟨⟩⟩) not_false

theorem Ends.of_error (e : ε) : Ends (.error e : Except ε (Option γ)) False False where
  ok := iff_of_false (by rintro ⟨found, ⟨⟩⟩) not_false
  found := iff_of_false (by rintro ⟨a, ⟨⟩⟩) not_false

theorem Ends.congr (h : Ends r passed fine) (hPassed : passed ↔ passed') (hFine : fine ↔ fine') :
    Ends r passed' fine' := ⟨h.ok.trans hFine, h.found.trans hPassed⟩

theorem Ends.unique (h : Ends r passed fine) (h' : Ends r passed' fine') : (passed ↔ passed') ∧ (fine ↔ fine') :=
  ⟨h.found.symm.trans h'.found, h.ok.symm.trans h'.ok⟩

theorem Ends.map (h : Ends r passed fine) (f : γ → δ) : Ends (r.map fun found => found.map f) passed fine := by
  cases r with
  | error e =>
    obtain ⟨hPassed, hFine⟩ := (Ends.of_error e).unique h
    exact (Ends.of_error e).congr hPassed hFine
  | ok found =>
    cases found with
    | none =>
      obtain ⟨hPassed, hFine⟩ := Ends.of_none.unique h
      exact Ends.of_none.congr hPassed hFine
    | some a =>
      obtain ⟨hPassed, hFine⟩ := (Ends.of_some a).unique h
      exact (Ends.of_some (f a)).congr hPassed hFine

/-- One computation after another, which is left out where the first is broken off. -/
theorem Ends.andThen (h : Ends r passed fine) {next : γ → Except ε (Option δ)}
    (hNext : ∀ a, Ends (next a) passed' fine') :
    Ends (r.bind fun found => found.elim (.ok none) next) (passed ∧ passed') (fine ∧ (passed → fine')) := by
  cases r with
  | error e =>
    obtain ⟨hPassed, hFine⟩ := (Ends.of_error e).unique h
    rw [← hPassed, ← hFine, false_and, false_and]
    exact Ends.of_error e
  | ok found =>
    cases found with
    | none =>
      obtain ⟨hPassed, hFine⟩ := Ends.of_none.unique h
      rw [← hPassed, ← hFine, false_and, true_and, false_imp_iff]
      exact Ends.of_none
    | some a =>
      obtain ⟨hPassed, hFine⟩ := (Ends.of_some a).unique h
      rw [← hPassed, ← hFine, true_and, true_and, true_imp_iff]
      exact hNext a

end Ends

end EarlyExit
