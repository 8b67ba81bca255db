import Mathlib.Data.List.Basic

/-! # Labelled systems, their runs and what holds along them

A system is a guard and a successor for each label; a run is a list of labels each of which is
enabled where it is taken. Interleavings of several parties are runs over the sum of their labels.
-/
namespace Transition
set_option autoImplicit false

universe u v

structure System (σ : Type u) (ℓ : Type v) where
  enabled : σ → ℓ → Prop
  next : σ → ℓ → σ

namespace System

variable {σ : Type u} {ℓ : Type v} (S : System σ ℓ)

/-- The state after all labels of the list. -/
def exec (s : σ) (ls : List ℓ) : σ := ls.foldl S.next s

/-- The steps of a list of labels: each label with the state in which it is taken. -/
def steps : σ → List ℓ → List (σ × ℓ)
  | _, [] => []
  | s, l :: ls => (s, l) :: steps (S.next s l) ls

/-- The states a list of labels passes through, both ends included. -/
def visited : σ → List ℓ → List σ
  | s, [] => [s]
  | s, l :: ls => s :: visited (S.next s l) ls

def Runs (s : σ) (ls : List ℓ) : Prop := ∀ p ∈ S.steps s ls, S.enabled p.1 p.2

instance [∀ s l, Decidable (S.enabled s l)] (s : σ) (ls : List ℓ) : Decidable (S.Runs s ls) :=
  inferInstanceAs (Decidable (∀ p ∈ S.steps s ls, S.enabled p.1 p.2))

@[simp] theorem exec_nil (s : σ) : S.exec s [] = s := rfl

@[simp] theorem exec_cons (s : σ) (l : ℓ) (ls : List ℓ) :
    S.exec s (l :: ls) = S.exec (S.next s l) ls := rfl

theorem exec_append (s : σ) (ls ms : List ℓ) : S.exec s (ls ++ ms) = S.exec (S.exec s ls) ms :=
  List.foldl_append

theorem steps_append (s : σ) (ls ms : List ℓ) :
    S.steps s (ls ++ ms) = S.steps s ls ++ S.steps (S.exec s ls) ms := by
  induction ls generalizing s with
  | nil => rfl
  | cons l ls ih => rw [List.cons_append, steps, ih, steps, exec_cons, List.cons_append]

theorem runs_append {s : σ} {ls ms : List ℓ} :
    S.Runs s (ls ++ ms) ↔ S.Runs s ls ∧ S.Runs (S.exec s ls) ms := by
  simp only [Runs, steps_append, List.forall_mem_append]

theorem runs_cons {s : σ} {l : ℓ} {ls : List ℓ} :
    S.Runs s (l :: ls) ↔ S.enabled s l ∧ S.Runs (S.next s l) ls := List.forall_mem_cons

theorem runs_singleton {s : σ} {l : ℓ} : S.Runs s [l] ↔ S.enabled s l :=
  S.runs_cons.trans (and_iff_left fun _ hp => absurd hp List.not_mem_nil)

theorem label_mem_of_mem_steps {s : σ} {ls : List ℓ} {p : σ × ℓ} (h : p ∈ S.steps s ls) :
    p.2 ∈ ls := by
  induction ls generalizing s with
  | nil => nomatch h
  | cons l ls ih =>
    obtain rfl | hTail := List.mem_cons.mp h
    · exact List.mem_cons_self
    · exact List.mem_cons_of_mem _ (ih hTail)

theorem start_mem_visited (s : σ) (ls : List ℓ) : s ∈ S.visited s ls := by
  cases ls with
  | nil => exact List.mem_singleton.mpr rfl
  | cons l ls => exact List.mem_cons_self

theorem mem_visited_of_exec (s : σ) (ls : List ℓ) : S.exec s ls ∈ S.visited s ls := by
  induction ls generalizing s with
  | nil => exact List.mem_singleton.mpr rfl
  | cons l ls ih => exact List.mem_cons_of_mem _ (ih _)

theorem next_mem_visited {s : σ} {ls : List ℓ} {p : σ × ℓ} (h : p ∈ S.steps s ls) :
    S.next p.1 p.2 ∈ S.visited s ls := by
  induction ls generalizing s with
  | nil => nomatch h
  | cons l ls ih =>
    obtain rfl | hTail := List.mem_cons.mp h
    · exact List.mem_cons_of_mem _ (S.start_mem_visited _ ls)
    · exact List.mem_cons_of_mem _ (ih hTail)

theorem mem_visited_of_mem_steps {s : σ} {ls : List ℓ} {p : σ × ℓ} (h : p ∈ S.steps s ls) :
    p.1 ∈ S.visited s ls := by
  induction ls generalizing s with
  | nil => nomatch h
  | cons l ls ih =>
    obtain rfl | hTail := List.mem_cons.mp h
    · exact S.start_mem_visited s (l :: ls)
    · exact List.mem_cons_of_mem _ (ih hTail)

/-- The invariant rule: what holds at the start and is kept by every step that meets `ok` holds
all along a run whose steps meet `ok`. -/
theorem inv_visited {I : σ → Prop} {ok : σ → ℓ → Prop}
    (step : ∀ s l, I s → S.enabled s l → ok s l → I (S.next s l)) {s : σ} {ls : List ℓ}
    (hs : I s) (h : S.Runs s ls) (hok : ∀ p ∈ S.steps s ls, ok p.1 p.2) :
    ∀ t ∈ S.visited s ls, I t := by
  induction ls generalizing s with
  | nil => simpa [visited] using hs
  | cons l ls ih =>
    simp only [Runs, steps, List.forall_mem_cons] at h hok
    have hNext : I (S.next s l) := step s l hs h.1 hok.1
    simp only [visited, List.forall_mem_cons]
    exact ⟨hs, ih hNext h.2 hok.2⟩

/-- Where a step keeps the property `I` just when it meets `ok`, a run keeps it just when all its
steps do. The invariant `J` is at hand as long as nothing has gone wrong. -/
theorem inv_visited_iff {I J : σ → Prop} {ok : σ → ℓ → Prop}
    (hKeep : ∀ s l, J s → I s → S.enabled s l → ok s l → J (S.next s l))
    (hStep : ∀ s l, J s → I s → S.enabled s l → (I (S.next s l) ↔ ok s l)) {s : σ} {ls : List ℓ}
    (hJ : J s) (hI : I s) (h : S.Runs s ls) :
    (∀ t ∈ S.visited s ls, I t) ↔ ∀ p ∈ S.steps s ls, ok p.1 p.2 := by
  induction ls generalizing s with
  | nil => simp [visited, steps, hI]
  | cons l ls ih =>
    simp only [Runs, steps, List.forall_mem_cons] at h
    simp only [visited, steps, List.forall_mem_cons]
    constructor
    · rintro ⟨-, hRest⟩
      have hNext : I (S.next s l) := hRest _ (S.start_mem_visited _ ls)
      have hOk : ok s l := (hStep s l hJ hI h.1).mp hNext
      exact ⟨hOk, (ih (hKeep s l hJ hI h.1 hOk) hNext h.2).mp hRest⟩
    · rintro ⟨hOk, hRest⟩
      have hNext : I (S.next s l) := (hStep s l hJ hI h.1).mpr hOk
      exact ⟨hI, (ih (hKeep s l hJ hI h.1 hOk) hNext h.2).mpr hRest⟩

/-- A property of steps that follows from an invariant holds of every step of such a run. -/
theorem inv_steps {I : σ → Prop} {ok : σ → ℓ → Prop}
    (step : ∀ s l, I s → S.enabled s l → ok s l → I (S.next s l)) {s : σ} {ls : List ℓ}
    (hs : I s) (h : S.Runs s ls) (hok : ∀ p ∈ S.steps s ls, ok p.1 p.2) :
    ∀ p ∈ S.steps s ls, I p.1 ∧ S.enabled p.1 p.2 := by
  induction ls generalizing s with
  | nil => simp [steps]
  | cons l ls ih =>
    simp only [Runs, steps, List.forall_mem_cons] at h hok ⊢
    exact ⟨⟨hs, h.1⟩, ih (step s l hs h.1 hok.1) h.2 hok.2⟩

/-- What the steps of a run emit, in their order. -/
def emitted {α : Type*} (f : σ → ℓ → List α) (s : σ) (ls : List ℓ) : List α :=
  (S.steps s ls).flatMap fun p => f p.1 p.2

theorem emitted_append {α : Type*} (f : σ → ℓ → List α) (s : σ) (ls ms : List ℓ) :
    S.emitted f s (ls ++ ms) = S.emitted f s ls ++ S.emitted f (S.exec s ls) ms := by
  rw [emitted, steps_append, List.flatMap_append]
  rfl

theorem emitted_singleton {α : Type*} (f : σ → ℓ → List α) (s : σ) (l : ℓ) :
    S.emitted f s [l] = f s l := by
  simp [emitted, steps]

/-- Conservation: if every step takes from the front of the contents what it puts out and adds to the
back what it takes in, so does a run. -/
theorem conservation {α : Type*} {taken given : σ → ℓ → List α} {contents : σ → List α} {I : σ → Prop}
    {ok : σ → ℓ → Prop} (step : ∀ s l, I s → S.enabled s l → ok s l → I (S.next s l))
    (balance : ∀ s l, I s → S.enabled s l → ok s l →
      contents s ++ taken s l = given s l ++ contents (S.next s l))
    {s : σ} {ls : List ℓ} (hs : I s) (h : S.Runs s ls) (hok : ∀ p ∈ S.steps s ls, ok p.1 p.2) :
    contents s ++ S.emitted taken s ls = S.emitted given s ls ++ contents (S.exec s ls) := by
  induction ls generalizing s with
  | nil => simp [emitted, steps]
  | cons l ls ih =>
    simp only [Runs, steps, List.forall_mem_cons] at h hok
    have hRest := ih (step s l hs h.1 hok.1) h.2 hok.2
    calc contents s ++ S.emitted taken s (l :: ls)
        = (contents s ++ taken s l) ++ S.emitted taken (S.next s l) ls := by
          simp [emitted, steps]
      _ = given s l ++ (contents (S.next s l) ++ S.emitted taken (S.next s l) ls) := by
          rw [balance s l hs h.1 hok.1, List.append_assoc]
      _ = S.emitted given s (l :: ls) ++ contents (S.exec s (l :: ls)) := by
          rw [hRest, ← List.append_assoc]
          simp [emitted, steps]

/-- The same for contents that are left in no order. -/
theorem conservation_perm {α : Type*} {taken given : σ → ℓ → List α} {contents : σ → List α} {I : σ → Prop}
    {ok : σ → ℓ → Prop} (step : ∀ s l, I s → S.enabled s l → ok s l → I (S.next s l))
    (balance : ∀ s l, I s → S.enabled s l → ok s l →
      (contents s ++ taken s l).Perm (given s l ++ contents (S.next s l)))
    {s : σ} {ls : List ℓ} (hs : I s) (h : S.Runs s ls) (hok : ∀ p ∈ S.steps s ls, ok p.1 p.2) :
    (contents s ++ S.emitted taken s ls).Perm (S.emitted given s ls ++ contents (S.exec s ls)) := by
  induction ls generalizing s with
  | nil => simp [emitted, steps]
  | cons l ls ih =>
    simp only [Runs, steps, List.forall_mem_cons] at h hok
    have hRest := ih (step s l hs h.1 hok.1) h.2 hok.2
    have hHead := (balance s l hs h.1 hok.1).append_right (S.emitted taken (S.next s l) ls)
    have hAll := hRest.append_left (given s l)
    simp only [emitted, steps, List.flatMap_cons, List.append_assoc, exec_cons] at hHead hAll ⊢
    exact hHead.trans hAll

/-- A budget: if every step emits a value at most as often as it takes from the budget, so does a
run. -/
theorem emitted_count_le {α : Type*} [BEq α] {f : σ → ℓ → List α} {x : α} {budget : σ → ℕ} {I : σ → Prop}
    (step : ∀ s l, I s → S.enabled s l → I (S.next s l))
    (spend : ∀ s l, I s → S.enabled s l → (f s l).count x + budget (S.next s l) ≤ budget s)
    {s : σ} {ls : List ℓ} (hs : I s) (h : S.Runs s ls) : (S.emitted f s ls).count x ≤ budget s := by
  induction ls generalizing s with
  | nil => exact Nat.zero_le _
  | cons l ls ih =>
    simp only [Runs, steps, List.forall_mem_cons] at h
    have hRest := ih (step s l hs h.1) h.2
    have hHead := spend s l hs h.1
    calc (S.emitted f s (l :: ls)).count x
        = (f s l).count x + (S.emitted f (S.next s l) ls).count x := by
          simp [emitted, steps, List.count_append]
      _ ≤ (f s l).count x + budget (S.next s l) := by omega
      _ ≤ budget s := hHead

/-- If what a step emits, and behind it what the step leaves of a list, was in the list in this order,
so was what a run emits and leaves. -/
theorem emitted_sublist {α : Type*} (f : σ → ℓ → List α) (left : σ → List α) {I : σ → Prop}
    {ok : σ → ℓ → Prop} (step : ∀ s l, I s → S.enabled s l → ok s l → I (S.next s l))
    (spend : ∀ s l, I s → S.enabled s l → ok s l → (f s l ++ left (S.next s l)).Sublist (left s))
    {s : σ} {ls : List ℓ} (hs : I s) (h : S.Runs s ls) (hok : ∀ p ∈ S.steps s ls, ok p.1 p.2) :
    (S.emitted f s ls ++ left (S.exec s ls)).Sublist (left s) := by
  induction ls generalizing s with
  | nil => exact List.Sublist.refl _
  | cons l ls ih =>
    simp only [Runs, steps, List.forall_mem_cons] at h hok
    have hRest := ih (step s l hs h.1 hok.1) h.2 hok.2
    have hHead := spend s l hs h.1 hok.1
    have hAll : S.emitted f s (l :: ls) ++ left (S.exec s (l :: ls)) =
        f s l ++ (S.emitted f (S.next s l) ls ++ left (S.exec (S.next s l) ls)) := by
      simp [emitted, steps]
    rw [hAll]
    exact (hRest.append_left (f s l)).trans hHead

end System
end Transition
