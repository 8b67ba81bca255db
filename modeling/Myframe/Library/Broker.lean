import Mathlib.Data.Bool.Basic
import Mathlib.Data.List.Count
import Myframe.Library.Transition

/-! # What a broker owes a component

A broker hears messages one after the other. Some are wishes for a topic, which it remembers; some
belong to a topic and go to whoever has wished for it before; some name the component they are for.
Some go to a gate besides. A component is owed what all of this comes to, in the order of the messages.
-/
namespace Broker
set_option autoImplicit false

universe u v w

/-- What a message is to a broker. It is for the components `here`, and goes `out` by the gate. -/
inductive Order (C T : Type u) where
  | wish (c : C) (t : T) (here out : Bool)
  | publish (t : T) (here out : Bool)
  | send (c : C) (here out : Bool)
  deriving DecidableEq, Repr

variable {C T M : Type u}

/-- A wish for `t` that was to be remembered has been heard from `c`. -/
def Asked (history : List (Order C T)) (c : C) (t : T) : Prop := ∃ out, .wish c t true out ∈ history

instance [DecidableEq C] [DecidableEq T] (history : List (Order C T)) (c : C) (t : T) :
    Decidable (Asked history c t) :=
  inferInstanceAs (Decidable (∃ _, _ ∈ _))

theorem not_asked_nil {c : C} {t : T} : ¬ Asked ([] : List (Order C T)) c t := by
  rintro ⟨_, ⟨⟩⟩

theorem asked_append_singleton {history : List (Order C T)} {o : Order C T} {c : C} {t : T} :
    Asked (history ++ [o]) c t ↔ Asked history c t ∨ ∃ out, o = .wish c t true out := by
  simp only [Asked, List.mem_append, List.mem_singleton, exists_or, eq_comm]

variable [DecidableEq C] [DecidableEq T]

/-- How many copies of a message `c` is due. A wish passes the gate unless it repeats one that is
remembered. -/
def due (history : List (Order C T)) (c : C) (gate : Bool) : Order C T → ℕ
  | .wish c' t here out => if gate ∧ out ∧ ¬ (here ∧ Asked history c' t) then 1 else 0
  | .publish t here out => (if here ∧ Asked history c t then 1 else 0) + if gate ∧ out then 1 else 0
  | .send c' here out => (if here ∧ c' = c then 1 else 0) + if gate ∧ out then 1 else 0

def owed (read : M → Order C T) (c : C) (gate : Bool) : List (Order C T) → List M → List M
  | _, [] => []
  | history, m :: ms =>
    List.replicate (due history c gate (read m)) m ++ owed read c gate (history ++ [read m]) ms

variable {read : M → Order C T} {c : C} {gate : Bool}

theorem owed_append (history : List (Order C T)) (ms ns : List M) :
    owed read c gate history (ms ++ ns) =
      owed read c gate history ms ++ owed read c gate (history ++ ms.map read) ns := by
  induction ms generalizing history with
  | nil => simp [owed]
  | cons m ms ih => simp only [List.cons_append, owed, ih, List.map_cons, List.append_assoc, List.nil_append]

theorem owed_singleton (history : List (Order C T)) (m : M) :
    owed read c gate history [m] = List.replicate (due history c gate (read m)) m := by
  rw [owed, owed, List.append_nil]

theorem due_le_one (history : List (Order C T)) (o : Order C T) : due history c false o ≤ 1 := by
  cases o <;> simp only [due, Bool.false_eq_true, false_and, if_false, Nat.add_zero, Nat.zero_le] <;>
    split <;> simp

theorem owed_sublist (history : List (Order C T)) (ms : List M) :
    (owed read c false history ms).Sublist ms := by
  induction ms generalizing history with
  | nil => exact .slnil
  | cons m ms ih =>
    have hOne : (List.replicate (due history c false (read m)) m).Sublist [m] :=
      List.replicate_sublist_replicate m |>.mpr (due_le_one history (read m))
    exact hOne.append (ih (history ++ [read m]))

/-- It is owed a published message for a wish that came before, and for nothing else. -/
theorem asked_of_mem_owed {history : List (Order C T)} {ms : List M} {m : M} {t : T} {here out : Bool}
    (hRead : read m = .publish t here out) (h : m ∈ owed read c false history ms) :
    here = true ∧ ∃ before after, ms = before ++ m :: after ∧ Asked (history ++ before.map read) c t := by
  induction ms generalizing history with
  | nil => cases h
  | cons m' ms ih =>
    rw [owed, List.mem_append] at h
    obtain hHead | hTail := h
    · obtain ⟨hPos, rfl⟩ := List.mem_replicate.mp hHead
      rw [hRead, due] at hPos
      have hAsked : here = true ∧ Asked history c t := by
        by_contra hNot
        exact hPos (by simp [hNot])
      refine ⟨hAsked.1, [], ms, rfl, ?_⟩
      rw [List.map_nil, List.append_nil]
      exact hAsked.2
    · obtain ⟨hHere, before, after, rfl, hAsked⟩ := ih hTail
      refine ⟨hHere, m' :: before, after, rfl, ?_⟩
      rwa [List.map_cons, List.append_cons]

theorem mem_owed_of_asked {history : List (Order C T)} {before after : List M} {m : M} {t : T} {out : Bool}
    (hRead : read m = .publish t true out) (hAsked : Asked (history ++ before.map read) c t) :
    m ∈ owed read c gate history (before ++ m :: after) := by
  rw [owed_append, List.mem_append, owed, List.mem_append]
  refine .inr (.inl (List.mem_replicate.mpr ⟨?_, rfl⟩))
  rw [hRead, due, if_pos ⟨rfl, hAsked⟩]
  omega

section Runs

variable {σ : Type v} {ℓ : Type w} (S : Transition.System σ ℓ)

/-- A system that gives out, step by step, what is owed for what it hears, does so along its runs. -/
theorem emitted_owed {heard given : σ → ℓ → List M} {R : σ → List (Order C T) → Prop} {ok : σ → ℓ → Prop}
    (step : ∀ s l history, R s history → S.enabled s l → ok s l →
      given s l = owed read c gate history (heard s l) ∧ R (S.next s l) (history ++ (heard s l).map read))
    {s : σ} {ls : List ℓ} {history : List (Order C T)} (hs : R s history) (h : S.Runs s ls)
    (hok : ∀ p ∈ S.steps s ls, ok p.1 p.2) :
    S.emitted given s ls = owed read c gate history (S.emitted heard s ls) := by
  induction ls generalizing s history with
  | nil => rfl
  | cons l ls ih =>
    simp only [Transition.System.Runs, Transition.System.steps, List.forall_mem_cons] at h hok
    obtain ⟨hGiven, hNext⟩ := step s l history hs h.1 hok.1
    calc S.emitted given s (l :: ls)
        = given s l ++ S.emitted given (S.next s l) ls := rfl
      _ = owed read c gate history (heard s l) ++
            owed read c gate (history ++ (heard s l).map read) (S.emitted heard (S.next s l) ls) := by
          rw [hGiven, ih hNext h.2 hok.2]
      _ = owed read c gate history (S.emitted heard s (l :: ls)) := (owed_append history _ _).symm

end Runs
end Broker
