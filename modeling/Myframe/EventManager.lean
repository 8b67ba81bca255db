import Mathlib.Logic.Function.Basic
import Mathlib.Data.String.Basic

/-! # The register of events

Two indexes: handles that are taken, and names with the handle last stored under them.
-/
namespace Myframe
set_option autoImplicit false

structure EventManager where
  evs : ℕ → Bool := fun _ => false
  names : String → Option ℕ := fun _ => none

namespace EventManager

def add (e : EventManager) (n : ℕ) (name : String) : EventManager where
  evs := Function.update e.evs n true
  names := Function.update e.names name (some n)

def del (e : EventManager) (n : ℕ) (name : String) : EventManager where
  evs := Function.update e.evs n false
  names := Function.update e.names name none

@[simp] theorem add_evs (e : EventManager) (n : ℕ) (name : String) :
    (e.add n name).evs = Function.update e.evs n true := rfl

@[simp] theorem add_names (e : EventManager) (n : ℕ) (name : String) :
    (e.add n name).names = Function.update e.names name (some n) := rfl

@[simp] theorem del_evs (e : EventManager) (n : ℕ) (name : String) :
    (e.del n name).evs = Function.update e.evs n false := rfl

@[simp] theorem del_names (e : EventManager) (n : ℕ) (name : String) :
    (e.del n name).names = Function.update e.names name none := rfl

/-- `nameOf` is `GetName()` of the event behind a handle. -/
structure Bijective (e : EventManager) (nameOf : ℕ → Option String) : Prop where
  named : ∀ name h, e.names name = some h → e.evs h = true ∧ nameOf h = some name
  found : ∀ h, e.evs h = true → ∃ name, nameOf h = some name ∧ e.names name = some h

theorem Bijective.congr {e : EventManager} {nameOf nameOf' : ℕ → Option String}
    (hB : e.Bijective nameOf) (hSame : ∀ h, e.evs h = true → nameOf' h = nameOf h) :
    e.Bijective nameOf' where
  named name h hName := by
    obtain ⟨hReg, hOf⟩ := hB.named name h hName
    exact ⟨hReg, (hSame h hReg).trans hOf⟩
  found h hReg := by
    obtain ⟨name, hOf, hName⟩ := hB.found h hReg
    exact ⟨name, (hSame h hReg).trans hOf, hName⟩

/-- Adding overwrites the entry of the name: the event that had it can no longer be found. -/
theorem add_bijective_iff {e : EventManager} {nameOf : ℕ → Option String} {n : ℕ} {name : String}
    (hB : e.Bijective nameOf) (hFree : e.evs n = false) (hOf : nameOf n = some name) :
    (e.add n name).Bijective nameOf ↔ e.names name = none := by
  constructor
  · intro hAfter
    rw [Option.eq_none_iff_forall_not_mem]
    intro h hName
    obtain ⟨hReg, hOld⟩ := hB.named name h hName
    have hNe : h ≠ n := by
      rintro rfl
      exact Bool.false_ne_true (hFree.symm.trans hReg)
    have hStill : (e.add n name).evs h = true := by
      rw [add_evs, Function.update_of_ne hNe]
      exact hReg
    obtain ⟨name', hOf', hName'⟩ := hAfter.found h hStill
    obtain rfl : name = name' := Option.some.inj (hOld.symm.trans hOf')
    rw [add_names, Function.update_self] at hName'
    exact hNe (Option.some.inj hName').symm
  · intro hNew
    constructor
    · intro name' h hName
      obtain rfl | hNe := eq_or_ne name' name
      · rw [add_names, Function.update_self] at hName
        obtain rfl := Option.some.inj hName
        exact ⟨Function.update_self .., hOf⟩
      · rw [add_names, Function.update_of_ne hNe] at hName
        obtain ⟨hReg, hOld⟩ := hB.named name' h hName
        refine ⟨?_, hOld⟩
        rw [add_evs, Function.update_apply]
        split
        · rfl
        · exact hReg
    · intro h hReg
      obtain rfl | hEq := eq_or_ne h n
      · exact ⟨name, hOf, Function.update_self ..⟩
      · rw [add_evs, Function.update_of_ne hEq] at hReg
        obtain ⟨name', hOld, hName⟩ := hB.found h hReg
        refine ⟨name', hOld, ?_⟩
        have hNe : name' ≠ name := by
          rintro rfl
          exact Option.some_ne_none h (hName.symm.trans hNew)
        rw [add_names, Function.update_of_ne hNe]
        exact hName

theorem Bijective.del {e : EventManager} {nameOf : ℕ → Option String} {n : ℕ} {name : String}
    (hB : e.Bijective nameOf) (hReg : e.evs n = true) (hOf : nameOf n = some name) :
    (e.del n name).Bijective nameOf := by
  have hName : e.names name = some n := by
    obtain ⟨name', hOf', hName'⟩ := hB.found n hReg
    obtain rfl : name = name' := Option.some.inj (hOf.symm.trans hOf')
    exact hName'
  constructor
  · intro name' h hName'
    have hNe : name' ≠ name := by
      rintro rfl
      rw [del_names, Function.update_self] at hName'
      cases hName'
    rw [del_names, Function.update_of_ne hNe] at hName'
    obtain ⟨hOld, hOf'⟩ := hB.named name' h hName'
    have hNeH : h ≠ n := by
      rintro rfl
      exact hNe (Option.some.inj (hOf'.symm.trans hOf))
    refine ⟨?_, hOf'⟩
    rw [del_evs, Function.update_of_ne hNeH]
    exact hOld
  · intro h hReg'
    have hNeH : h ≠ n := by
      rintro rfl
      rw [del_evs, Function.update_self] at hReg'
      exact Bool.false_ne_true hReg'
    rw [del_evs, Function.update_of_ne hNeH] at hReg'
    obtain ⟨name', hOf', hName'⟩ := hB.found h hReg'
    refine ⟨name', hOf', ?_⟩
    have hNe : name' ≠ name := by
      rintro rfl
      exact hNeH (Option.some.inj (hName'.symm.trans hName))
    rw [del_names, Function.update_of_ne hNe]
    exact hName'

end EventManager
end Myframe
