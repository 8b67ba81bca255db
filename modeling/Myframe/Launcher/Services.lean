import Myframe.App.LoadService
import Myframe.Launcher.ModuleArgument

/-! # The services that the launcher starts

The files are those of the command line, or else those of the service directory. Where one of them does not load,
or there is none, the application is told to quit before it has run.
-/
namespace Myframe
set_option autoImplicit false

namespace Launch

open Application

variable {κ : Type} (w : SetWalk) (o : Platform κ) (files : Files) (disk : Disk)

def loadConfList : Application κ → List String → (ℕ → ℕ → Grant) → Application κ × Except Json.Throw Unit
  | s, [], _ => (s, .ok ())
  | s, file :: rest, grants =>
    match s.loadServiceFromFile w o files disk file (grants 0) with
    | (t, .error e) => (t, .error e)
    | (t, .ok false) => (t.quit, .ok ())
    | (t, .ok true) => loadConfList t rest fun n => grants (n + 1)

/-- The services in `main`; `getDirFiles` lists a directory. -/
def loadServices (getDirFiles : String → List String) (l : Launch) (s : Application κ) (grants : ℕ → ℕ → Grant) :
    Application κ × Except Json.Throw Unit :=
  if l.confFiles ≠ [] then loadConfList w o files disk s l.confFiles grants
  else
    match s.loadServiceFromDir w o files disk (getDirFiles l.serviceDir) grants with
    | (t, .error e) => (t, .error e)
    | (t, .ok n) => (if n ≤ 0 then t.quit else t, .ok ())

def application (l : Launch) : Application κ :=
  let settings := Settings.ofArguments files l.args
  ({} : Application κ).init settings.libDir settings.defaultPendingQueueSize.toInt settings.defaultRunQueueSize.toInt

/-- `main` from `Init` to `Exec`. -/
def start (getDirFiles : String → List String) (l : Launch) (grants : ℕ → ℕ → Grant) :
    Application κ × Except Json.Throw Unit :=
  loadServices w o files disk getDirFiles l (l.application files) grants

def serviceFiles (getDirFiles : String → List String) (l : Launch) : List String :=
  if l.confFiles ≠ [] then l.confFiles else getDirFiles l.serviceDir

theorem quit_state {s : Application κ} (h : s.state = .kInitialized) : s.quit.state = .kQuitting := by
  rw [quit, if_pos (.inr h)]

theorem loadConfList_eq (paths : List String) {s : Application κ} (h : s.state = .kInitialized)
    (grants : ℕ → ℕ → Grant) :
    (∃ t, loadAll w o files disk s paths grants = some t ∧
        loadConfList w o files disk s paths grants = (t, .ok ())) ∨
      loadAll w o files disk s paths grants = none ∧
        ((loadConfList w o files disk s paths grants).2 = .ok () ∧
            (loadConfList w o files disk s paths grants).1.state = .kQuitting ∨
          ∃ e, (loadConfList w o files disk s paths grants).2 = .error e) := by
  induction paths generalizing s grants with
  | nil => exact .inl ⟨s, rfl, rfl⟩
  | cons file rest ih =>
    have hState : (s.loadServiceFromFile w o files disk file (grants 0)).1.state = .kInitialized :=
      (s.loadServiceFromJson_state w o _ (grants 0)).trans h
    rw [loadConfList, loadAll]
    generalize s.loadServiceFromFile w o files disk file (grants 0) = r at hState ⊢
    obtain ⟨u, e | b⟩ := r
    · exact .inr ⟨if_neg (by rintro ⟨⟩), .inr ⟨e, rfl⟩⟩
    · cases b with
      | false => exact .inr ⟨if_neg (by rintro ⟨⟩), .inl ⟨rfl, quit_state hState⟩⟩
      | true =>
        rw [if_pos rfl]
        exact ih hState fun n => grants (n + 1)

theorem loadServices_eq (getDirFiles : String → List String) (l : Launch) {s : Application κ}
    (h : s.state = .kInitialized) (grants : ℕ → ℕ → Grant) :
    (∃ t, serviceFiles getDirFiles l ≠ [] ∧
        loadAll w o files disk s (serviceFiles getDirFiles l) grants = some t ∧
        loadServices w o files disk getDirFiles l s grants = (t, .ok ())) ∨
      (serviceFiles getDirFiles l = [] ∨ loadAll w o files disk s (serviceFiles getDirFiles l) grants = none) ∧
        ((loadServices w o files disk getDirFiles l s grants).2 = .ok () ∧
            (loadServices w o files disk getDirFiles l s grants).1.state = .kQuitting ∨
          ∃ e, (loadServices w o files disk getDirFiles l s grants).2 = .error e) := by
  rw [serviceFiles, loadServices]
  split
  · next hList =>
    obtain ⟨t, hAll, hEq⟩ | ⟨hNone, hEnd⟩ := loadConfList_eq w o files disk l.confFiles h grants
    · exact .inl ⟨t, hList, hAll, hEq⟩
    · exact .inr ⟨.inr hNone, hEnd⟩
  · generalize getDirFiles l.serviceDir = paths
    rw [loadServiceFromDir]
    by_cases hEmpty : paths = []
    · rw [if_pos hEmpty]
      exact .inr ⟨.inl hEmpty, .inl ⟨rfl, quit_state h⟩⟩
    · have hPos : ¬(0 : ℤ) + paths.length ≤ 0 := by
        have hLength := List.length_pos_iff.mpr hEmpty
        omega
      rw [if_neg hEmpty]
      obtain ⟨t, hAll, hEq⟩ | ⟨hNone, hEnd, hState⟩ := loadServiceFiles_eq w o files disk paths s 0 grants
      · rw [hEq]
        exact .inl ⟨t, hEmpty, hAll, Prod.ext (if_neg hPos) rfl⟩
      · generalize loadServiceFiles w o files disk s 0 paths grants = r at hEnd hState ⊢
        obtain ⟨u, e | n⟩ := r
        · exact .inr ⟨.inr hNone, .inr ⟨e, rfl⟩⟩
        · obtain hBad | ⟨e, hError⟩ := hEnd
          · obtain rfl := Except.ok.inj hBad
            exact .inr ⟨.inr hNone, .inl ⟨rfl, quit_state (hState.trans h)⟩⟩
          · cases hError

/-- The launcher runs the application just where there is a service file and all of them load, and otherwise makes
it quit or ends with an exception. When it runs, each actor instance of the files is the one of its name, with its
configuration, just where no two instances of all the files have one name. -/
theorem started_iff (getDirFiles : String → List String) (l : Launch) (grants : ℕ → ℕ → Grant) :
    let r := start w o files disk getDirFiles l grants
    let paths := serviceFiles getDirFiles l
    let insts := instancesOfFiles o files disk paths
    (r.2 = .ok () → r.1.state = .kInitialized ∨ r.1.state = .kQuitting) ∧
      (r.2 = .ok () ∧ r.1.state = .kInitialized ↔
        paths ≠ [] ∧ (loadAll w o files disk (l.application files) paths grants).isSome) ∧
      (r.2 = .ok () ∧ r.1.state = .kInitialized →
        ((∀ k e, insts[k]? = some e → r.1.actorCtxMgr.ctxs e.1 = some k ∧ r.1.config k = configOf e.2) ↔
          (insts.map Prod.fst).Nodup)) := by
  dsimp only
  rw [start]
  obtain ⟨t, hSome, hAll, hEq⟩ | ⟨hNot, hEnd⟩ :=
    loadServices_eq w o files disk getDirFiles l (s := l.application files) rfl grants
  · have hCounted : (l.application files : Application κ).Counted := by rintro name i ⟨⟩
    obtain ⟨-, -, hState⟩ := loadAll_keeps w o files disk hAll
    have hOwns := owns_iff w o files disk hCounted hAll
    have hCount : (l.application files : Application κ).ctxCount = 0 := rfl
    simp only [Owns, hCount, Nat.zero_add] at hOwns
    rw [hEq, hAll]
    refine ⟨fun _ => .inl hState, iff_of_true ⟨rfl, hState⟩ ⟨hSome, rfl⟩, fun _ => hOwns.trans ?_⟩
    exact and_iff_left fun e _ => rfl
  · have hFails : ¬((loadServices w o files disk getDirFiles l (l.application files) grants).2 = .ok () ∧
        (loadServices w o files disk getDirFiles l (l.application files) grants).1.state = .kInitialized) := by
      rintro ⟨hOk, hState⟩
      obtain ⟨-, hQuit⟩ | ⟨e, hError⟩ := hEnd
      · cases hState.symm.trans hQuit
      · cases hError.symm.trans hOk
    refine ⟨fun hOk => ?_, iff_of_false hFails ?_, fun h => absurd h hFails⟩
    · obtain ⟨-, hQuit⟩ | ⟨e, hError⟩ := hEnd
      · exact .inr hQuit
      · cases hError.symm.trans hOk
    · rintro ⟨hSome, hAll⟩
      obtain hEmpty | hNone := hNot
      · exact hSome hEmpty
      · rw [hNone] at hAll
        cases hAll

end Launch
end Myframe
