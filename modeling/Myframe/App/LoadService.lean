import Myframe.App.Outcome
import Myframe.Arguments

/-! # Loading services from files

`LoadServiceFromDir` takes the files as they are listed and stops at the first that does not load; what it has
loaded until then stays.
-/
namespace Myframe
set_option autoImplicit false

namespace Application

variable {κ : Type} (w : SetWalk) (o : Platform κ) (files : Files) (disk : Disk)

def loadServiceFromFile (s : Application κ) (file : String) (grants : ℕ → Grant) : Application κ × Result :=
  s.loadServiceFromJson w o (Common.loadJsonFromFile files disk file) grants

/-- The loop of `LoadServiceFromDir`. -/
def loadServiceFiles : Application κ → ℤ → List String → (ℕ → ℕ → Grant) → Application κ × Except Json.Throw ℤ
  | s, count, [], _ => (s, .ok count)
  | s, count, file :: rest, grants =>
    match s.loadServiceFromFile w o files disk file (grants 0) with
    | (t, .error e) => (t, .error e)
    | (t, .ok false) => (t, .ok (-1))
    | (t, .ok true) => loadServiceFiles t (count + 1) rest fun n => grants (n + 1)

/-- `serviceList` is what the directory holds. -/
def loadServiceFromDir (s : Application κ) (serviceList : List String) (grants : ℕ → ℕ → Grant) :
    Application κ × Except Json.Throw ℤ :=
  if serviceList = [] then (s, .ok (-1)) else loadServiceFiles w o files disk s 0 serviceList grants

def loadAll : Application κ → List String → (ℕ → ℕ → Grant) → Option (Application κ)
  | s, [], _ => some s
  | s, file :: rest, grants =>
    if (s.loadServiceFromFile w o files disk file (grants 0)).2 = .ok true then
      loadAll (s.loadServiceFromFile w o files disk file (grants 0)).1 rest fun n => grants (n + 1)
    else none

def instancesOfFiles (paths : List String) : List (String × Json) :=
  paths.flatMap fun file => ModManager.actorInstances o (Common.loadJsonFromFile files disk file)

theorem addActors_state (xs : List (Json × Actor κ)) (s : Application κ) : (s.addActors w xs).1.state = s.state := by
  have hOne : ∀ (s : Application κ) (a : Actor κ) (cfg : Json), (s.addActor w a cfg).1.state = s.state := by
    intro s a cfg
    by_cases hAccepts : s.Accepts a cfg
    · obtain ⟨app, cache, hEq, -⟩ := addActor_accepted w hAccepts
      rw [hEq]
    · obtain ⟨addr, r, hEq, -⟩ := addActor_rejected w hAccepts
      rw [hEq]
  induction xs generalizing s with
  | nil => rfl
  | cons x xs ih =>
    rw [addActors]
    split
    · rfl
    · next cfg _ =>
      split
      · exact (ih _).trans (hOne s x.2 cfg)
      · exact hOne s x.2 cfg

theorem addWorkers_state (xs : List (Json × Worker)) (s : Application κ) (grants : ℕ → Grant) :
    (s.addWorkers xs grants).1.state = s.state := by
  have hOne : ∀ (s : Application κ) (v : Worker) (g : Grant), (s.addWorker v g).1.state = s.state := by
    intro s v g
    rw [addWorker]
    split
    · simp only
      split
      · rfl
      · rfl
    · rfl
  induction xs generalizing s grants with
  | nil => rfl
  | cons x xs ih =>
    rw [addWorkers]
    split
    · rfl
    · split
      · exact (ih _ _).trans (hOne s x.2 (grants 0))
      · exact hOne s x.2 (grants 0)

theorem loadServiceFromJson_state (s : Application κ) (service : Json) (grants : ℕ → Grant) :
    (s.loadServiceFromJson w o service grants).1.state = s.state := by
  obtain ⟨m, r, hEq, -⟩ | ⟨m, actors, workers, -, ⟨-, hEq⟩ | ⟨-, hEq⟩⟩ := s.loadServiceFromJson_cases w o service grants
  · rw [hEq]
  · rw [hEq]
    exact addActors_state w actors { s with mods := m }
  · rw [hEq, addWorkers_state]
    exact addActors_state w actors { s with mods := m }

theorem addActors_ok_frame {xs : List (Json × Actor κ)} {s : Application κ} (hOk : (s.addActors w xs).2 = .ok true) :
    (s.addActors w xs).1.ctxCount = s.ctxCount + xs.length ∧
      ∀ name ∉ xs.map (·.2.getActorName), (s.addActors w xs).1.actorCtxMgr.ctxs name = s.actorCtxMgr.ctxs name := by
  induction xs generalizing s with
  | nil => exact ⟨rfl, fun _ _ => rfl⟩
  | cons x xs ih =>
    obtain ⟨hAccepts, hEq⟩ := addActors_cons_of_ok w hOk
    rw [hEq] at hOk ⊢
    obtain ⟨hCount, hOthers⟩ := ih hOk
    obtain ⟨app, cache, hNext, hCtxs, -⟩ := addActor_accepted w hAccepts
    rw [hNext] at hCount hOthers ⊢
    constructor
    · rw [hCount, List.length_cons]
      dsimp only
      omega
    · intro name hName
      rw [List.map_cons, List.mem_cons, not_or] at hName
      rw [hOthers name hName.2]
      simp only [hCtxs]
      split
      · rfl
      · rw [Function.update_of_ne hName.1]

theorem load_ok_frame {s : Application κ} {service : Json} {grants : ℕ → Grant}
    (hOk : (s.loadServiceFromJson w o service grants).2 = .ok true) :
    (s.loadServiceFromJson w o service grants).1.ctxCount =
        s.ctxCount + (ModManager.actorInstances o service).length ∧
      ∀ name ∉ (ModManager.actorInstances o service).map Prod.fst,
        (s.loadServiceFromJson w o service grants).1.actorCtxMgr.ctxs name = s.actorCtxMgr.ctxs name := by
  obtain ⟨m, r, hEq, hNe⟩ | ⟨m, actors, workers, hNames, ⟨hNot, hEq⟩ | ⟨hAdded, hEq⟩⟩ :=
    s.loadServiceFromJson_cases w o service grants
  · rw [hEq] at hOk
    exact absurd hOk hNe
  · rw [hEq] at hOk
    exact absurd hOk hNot
  · obtain ⟨hActors, -, hCount⟩ :=
      addWorkers_frame workers (addActors w ({ s with mods := m } : Application κ) actors).1 grants
    obtain ⟨hAdds, hOthers⟩ := addActors_ok_frame w hAdded
    rw [hEq, hCount, hActors, hAdds, ← hNames, List.length_map, List.map_map]
    exact ⟨rfl, hOthers⟩

/-- From `s` to `t`, each instance has become the one of its name, with its configuration. -/
def Owns (s t : Application κ) (insts : List (String × Json)) : Prop :=
  ∀ k e, insts[k]? = some e →
    t.actorCtxMgr.ctxs e.1 = some (s.ctxCount + k) ∧ t.config (s.ctxCount + k) = configOf e.2

def New (s : Application κ) (insts : List (String × Json)) : Prop :=
  (insts.map Prod.fst).Nodup ∧ ∀ e ∈ insts, s.actorCtxMgr.ctxs e.1 = none

theorem Owns.new {s t : Application κ} {insts : List (String × Json)} (hOwns : s.Owns t insts) (h : s.Counted)
    (hGrows : s.Grows t) : s.New insts := by
  constructor
  · rw [List.Nodup, List.pairwise_iff_getElem]
    intro i j hi hj hLess hSame
    rw [List.length_map] at hi hj
    rw [List.getElem_map, List.getElem_map] at hSame
    have hFirst := (hOwns i _ (List.getElem?_eq_getElem hi)).1
    have hSecond := (hOwns j _ (List.getElem?_eq_getElem hj)).1
    rw [hSame, hSecond, Option.some_inj] at hFirst
    omega
  · intro e he
    obtain ⟨k, hk⟩ := List.mem_iff_getElem?.mp he
    by_contra hOld
    obtain ⟨i, hi⟩ := Option.ne_none_iff_exists'.mp hOld
    have hStays := hGrows.ctxs e.1 i hi
    rw [(hOwns k e hk).1, Option.some_inj] at hStays
    have hBelow := h e.1 i hi
    omega

theorem loadAll_cons {s t : Application κ} {file : String} {rest : List String} {grants : ℕ → ℕ → Grant}
    (h : loadAll w o files disk s (file :: rest) grants = some t) :
    (s.loadServiceFromFile w o files disk file (grants 0)).2 = .ok true ∧
      loadAll w o files disk (s.loadServiceFromFile w o files disk file (grants 0)).1 rest
        (fun n => grants (n + 1)) = some t := by
  rw [loadAll] at h
  split at h
  · next hOk => exact ⟨hOk, h⟩
  · cases h

theorem loadAll_keeps {paths : List String} {s t : Application κ} {grants : ℕ → ℕ → Grant}
    (hAll : loadAll w o files disk s paths grants = some t) :
    s.Grows t ∧ (s.Counted → t.Counted) ∧ t.state = s.state := by
  induction paths generalizing s grants with
  | nil =>
    obtain rfl := Option.some.inj hAll
    exact ⟨.refl s, id, rfl⟩
  | cons file rest ih =>
    obtain ⟨hOk, hRest⟩ := loadAll_cons w o files disk hAll
    obtain ⟨hGrows, hCounted, hState⟩ := ih hRest
    obtain ⟨hFirst, hFirstCounted⟩ :=
      s.loadServiceFromJson_grows w o (Common.loadJsonFromFile files disk file) (grants 0)
    exact ⟨hFirst.trans hGrows, fun h => hCounted (hFirstCounted h),
      hState.trans (s.loadServiceFromJson_state w o _ (grants 0))⟩

/-- When all files have been loaded with success, each of their instances is the one of its name just where the
names are new and differ, from file to file as well. -/
theorem owns_iff {paths : List String} {s t : Application κ} {grants : ℕ → ℕ → Grant} (h : s.Counted)
    (hAll : loadAll w o files disk s paths grants = some t) :
    s.Owns t (instancesOfFiles o files disk paths) ↔ s.New (instancesOfFiles o files disk paths) := by
  constructor
  · exact fun hOwns => hOwns.new h (loadAll_keeps w o files disk hAll).1
  · intro hNew
    induction paths generalizing s grants with
    | nil => exact fun k e he => absurd he (by simp [instancesOfFiles])
    | cons file rest ih =>
      obtain ⟨hOk, hRest⟩ := loadAll_cons w o files disk hAll
      obtain ⟨hGrows, -, -⟩ := loadAll_keeps w o files disk hRest
      obtain ⟨hCount, hOthers⟩ := load_ok_frame w o hOk
      obtain ⟨hNodup, hFree⟩ := hNew
      rw [instancesOfFiles, List.flatMap_cons, ← instancesOfFiles] at hNodup hFree ⊢
      rw [List.map_append, List.nodup_append'] at hNodup
      obtain ⟨hFirstNodup, hRestNodup, hApart⟩ := hNodup
      obtain ⟨hFirstFree, hRestFree⟩ := List.forall_mem_append.mp hFree
      have hCounted :=
        (s.loadServiceFromJson_grows w o (Common.loadJsonFromFile files disk file) (grants 0)).2 h
      have hFirst := (loadsAll_iff w o h hOk).mpr ⟨hFirstNodup, hFirstFree⟩
      have hLater := ih hCounted hRest ⟨hRestNodup, fun e he => ?_⟩
      · intro k e he
        rw [List.getElem?_append] at he
        split at he
        · next hIn =>
          obtain ⟨hName, hConfig⟩ := hFirst k e he
          refine ⟨hGrows.ctxs _ _ hName, ?_⟩
          rw [← hConfig]
          apply hGrows.config
          change _ < (s.loadServiceFromJson w o _ (grants 0)).1.ctxCount
          omega
        · next hOut =>
          have hIndex : (s.loadServiceFromFile w o files disk file (grants 0)).1.ctxCount +
              (k - (ModManager.actorInstances o (Common.loadJsonFromFile files disk file)).length) =
              s.ctxCount + k := by
            rw [loadServiceFromFile, hCount]
            omega
          rw [← hIndex]
          exact hLater _ e he
      · have hNotFirst : e.1 ∉ (ModManager.actorInstances o (Common.loadJsonFromFile files disk file)).map Prod.fst :=
          fun hMem => hApart hMem (List.mem_map_of_mem he)
        exact (hOthers e.1 hNotFirst).trans (hRestFree e he)

theorem loadServiceFiles_eq (paths : List String) (s : Application κ) (count : ℤ) (grants : ℕ → ℕ → Grant) :
    (∃ t, loadAll w o files disk s paths grants = some t ∧
        loadServiceFiles w o files disk s count paths grants = (t, .ok (count + paths.length))) ∨
      loadAll w o files disk s paths grants = none ∧
        ((loadServiceFiles w o files disk s count paths grants).2 = .ok (-1) ∨
          ∃ e, (loadServiceFiles w o files disk s count paths grants).2 = .error e) ∧
        (loadServiceFiles w o files disk s count paths grants).1.state = s.state := by
  induction paths generalizing s count grants with
  | nil => exact .inl ⟨s, rfl, by simp [loadServiceFiles]⟩
  | cons file rest ih =>
    have hState : (s.loadServiceFromFile w o files disk file (grants 0)).1.state = s.state :=
      s.loadServiceFromJson_state w o _ (grants 0)
    rw [loadServiceFiles, loadAll]
    generalize s.loadServiceFromFile w o files disk file (grants 0) = r at hState ⊢
    obtain ⟨u, e | b⟩ := r
    · exact .inr ⟨if_neg (by rintro ⟨⟩), .inr ⟨e, rfl⟩, hState⟩
    · cases b with
      | false => exact .inr ⟨if_neg (by rintro ⟨⟩), .inl rfl, hState⟩
      | true =>
        rw [if_pos rfl]
        dsimp only at hState ⊢
        rw [← hState, List.length_cons, Nat.cast_succ, add_comm (rest.length : ℤ) 1, ← add_assoc]
        exact ih u (count + 1) fun n => grants (n + 1)

end Application
end Myframe
