import Myframe.ModManager
import Myframe.Library.Transition
import Mathlib.Data.List.TakeWhile

/-! # The library that instances are created from

Libraries are kept by the last component of their paths and looked up by the name that the service file gives.
-/
namespace Myframe
set_option autoImplicit false

namespace Common

theorem filename_filename (path : String) : filename (filename path) = filename path := by
  rw [filename, filename, String.toList_ofList, List.reverse_reverse, List.takeWhile_idem]

theorem filename_append {dir name : String} (hDir : filename dir = "") : filename (dir ++ name) = filename name := by
  have hEmpty : dir.toList.reverse.takeWhile (· ≠ '/') = [] := by
    rw [filename, ← String.ofList_nil, String.ofList_inj, List.reverse_eq_nil_iff] at hDir
    exact hDir
  rw [filename, filename, String.toList_append, List.reverse_append]
  congr 2
  induction name.toList.reverse with
  | nil => exact hEmpty
  | cons c cs ih => rw [List.cons_append, List.takeWhile_cons, List.takeWhile_cons, ih]

theorem filename_joinPath (dir name : String) : filename (joinPath dir name) = filename name := by
  rw [joinPath]
  split
  · rfl
  · split
    · next hDir => exact filename_append hDir
    · have hSlash : filename (dir ++ "/") = "" := by
        rw [filename, String.toList_append, List.reverse_append]
        rfl
      exact filename_append hSlash

end Common

namespace ModManager

open Common

variable {κ : Type}

/-- A call of `LoadService`, with what the operating system has at that moment. -/
structure Call (κ : Type) where
  platform : Platform κ
  libDir : String
  service : Json

def Call.Loads (c : Call κ) (m : ModManager κ) (libName : String) : Prop :=
  serviceType c.platform c.service = .ok (some ("library", some libName)) ∧
    (m.loadMod c.platform (joinPath c.libDir libName)).2 = true

def system : Transition.System (ModManager κ) (Call κ) where
  enabled _ _ := True
  next m c := (m.loadService c.platform c.libDir c.service).1

def CreatesFrom (m : ModManager κ) (libName path : String) : Prop :=
  ∃ lib, m.mods libName = some (path, lib) ∧
    (∀ className instName, (m.createActorInst libName className instName).map Actor.init =
      lib.actorCreate.bind fun create => create className) ∧
    ∀ className instName, (m.createWorkerInst libName className instName).map Worker.type =
      lib.workerCreate.bind fun create => create className

/-- After each call that loads, and for good, instances come from the library of that call. -/
def LooksUpLoaded (m : ModManager κ) (calls : List (Call κ)) : Prop :=
  ∀ before c after, calls = before ++ c :: after → ∀ libName, c.Loads (system.exec m before) libName →
    ∀ t ∈ system.visited (system.next (system.exec m before) c) after,
      t.CreatesFrom libName (joinPath c.libDir libName)

/-- The name has no directories, and what is loaded under it already has come from the same path. -/
def Call.Fits (c : Call κ) (m : ModManager κ) (libName : String) : Prop :=
  filename libName = libName ∧ ∀ path lib, m.mods libName = some (path, lib) → path = joinPath c.libDir libName

def Keyed (m : ModManager κ) : Prop := ∀ k e, m.mods k = some e → filename k = k

theorem createsFrom_iff {m : ModManager κ} {libName path : String} :
    m.CreatesFrom libName path ↔ ∃ lib, m.mods libName = some (path, lib) := by
  constructor
  · rintro ⟨lib, hMods, -⟩
    exact ⟨lib, hMods⟩
  · rintro ⟨lib, hMods⟩
    refine ⟨lib, hMods, fun className instName => ?_, fun className instName => ?_⟩
    · simp [createActorInst, hMods, Option.map_bind, Function.comp_def]
    · simp [createWorkerInst, hMods, Option.map_bind, Function.comp_def]

theorem loadMod_cases (o : Platform κ) (m : ModManager κ) (dlPath : String) :
    (m.loadMod o dlPath).1 = m ∧ ((m.loadMod o dlPath).2 = true → (m.mods (filename dlPath)).isSome) ∨
      m.mods (filename dlPath) = none ∧ ∃ lib, o.load dlPath = some lib ∧
        (m.loadMod o dlPath).1.mods = Function.update m.mods (filename dlPath) (some (dlPath, lib)) := by
  rw [loadMod]
  split
  · next hSome => exact .inl ⟨rfl, fun _ => hSome⟩
  · next hNone =>
    cases hLoad : o.load dlPath with
    | none => exact .inl ⟨rfl, fun h => absurd h (by simp)⟩
    | some lib => exact .inr ⟨by simpa using hNone, lib, rfl, rfl⟩

theorem next_cases (m : ModManager κ) (c : Call κ) :
    system.next m c = m ∨ ∃ dlPath, system.next m c = (m.loadMod c.platform dlPath).1 := by
  change (m.loadService c.platform c.libDir c.service).1 = m ∨
    ∃ dlPath, (m.loadService c.platform c.libDir c.service).1 = _
  rw [loadService]
  split
  · exact .inl rfl
  · exact .inl rfl
  · exact .inl rfl
  · split
    · exact .inr ⟨_, rfl⟩
    · exact .inl rfl

theorem Call.Loads.next_eq {c : Call κ} {m : ModManager κ} {libName : String} (h : c.Loads m libName) :
    system.next m c = (m.loadMod c.platform (joinPath c.libDir libName)).1 := by
  change (m.loadService c.platform c.libDir c.service).1 = _
  rw [loadService, h.1]
  exact congrArg Prod.fst (if_pos h.2)

theorem Keyed.next {m : ModManager κ} (h : m.Keyed) (c : Call κ) : (system.next m c).Keyed := by
  obtain hSame | ⟨dlPath, hLoad⟩ := next_cases m c
  · rwa [hSame]
  · rw [hLoad]
    obtain ⟨hSame, -⟩ | ⟨-, lib, -, hMods⟩ := loadMod_cases c.platform m dlPath
    · rwa [hSame]
    · intro k e hk
      rw [hMods, Function.update_apply] at hk
      split at hk
      · next hKey => rw [hKey, filename_filename]
      · exact h k e hk

theorem mods_next {m : ModManager κ} {k : String} {e : String × SharedLibrary κ} (h : m.mods k = some e) (c : Call κ) :
    (system.next m c).mods k = some e := by
  obtain hSame | ⟨dlPath, hLoad⟩ := next_cases m c
  · rwa [hSame]
  · rw [hLoad]
    obtain ⟨hSame, -⟩ | ⟨hNone, lib, -, hMods⟩ := loadMod_cases c.platform m dlPath
    · rwa [hSame]
    · have hNe : k ≠ filename dlPath := by
        rintro rfl
        rw [hNone] at h
        cases h
      rw [hMods, Function.update_of_ne hNe, h]

theorem keyed_exec {m : ModManager κ} (h : m.Keyed) (calls : List (Call κ)) : (system.exec m calls).Keyed := by
  induction calls generalizing m with
  | nil => exact h
  | cons c calls ih => exact ih (h.next c)

theorem mods_visited {m : ModManager κ} {k : String} {e : String × SharedLibrary κ} (h : m.mods k = some e)
    (calls : List (Call κ)) : ∀ t ∈ system.visited m calls, t.mods k = some e := by
  have hStep : ∀ (t : ModManager κ) (c : Call κ), t.mods k = some e → system.enabled t c → True →
      (system.next t c).mods k = some e := fun t c ht _ _ => mods_next ht c
  exact system.inv_visited hStep h (fun _ _ => trivial) fun _ _ => trivial

theorem Call.Loads.fits_iff {c : Call κ} {m : ModManager κ} {libName : String} (h : c.Loads m libName)
    (hKeyed : m.Keyed) :
    (∃ lib, (system.next m c).mods libName = some (joinPath c.libDir libName, lib)) ↔ c.Fits m libName := by
  have hFile := filename_joinPath c.libDir libName
  rw [h.next_eq]
  by_cases hName : filename libName = libName
  · rw [Call.Fits, and_iff_right hName]
    rw [hName] at hFile
    obtain ⟨hSame, hSome⟩ | ⟨hNone, lib, -, hMods⟩ := loadMod_cases c.platform m (joinPath c.libDir libName)
    · obtain ⟨⟨path, lib⟩, hEntry⟩ := Option.isSome_iff_exists.mp (hSome h.2)
      rw [hFile] at hEntry
      simp [hSame, hEntry]
    · rw [hFile] at hNone hMods
      simp [hMods, hNone]
  · have hNone : ∀ t : ModManager κ, t.Keyed → t.mods libName = none := fun t ht =>
      Option.eq_none_iff_forall_ne_some.mpr fun e he => hName (ht _ e he)
    have hNext := hNone _ (h.next_eq ▸ hKeyed.next c)
    simp [hNext, Call.Fits, hName]

/-- Instances come from the library that was loaded, in every run of calls, just where each call that loads gives a
name without directories under which nothing has come from another path. -/
theorem looksUpLoaded_iff (classActors : String → Option (String → Init κ))
    (classWorkers : String → Option (String → WorkerType)) (calls : List (Call κ)) :
    LooksUpLoaded { classActors := classActors, classWorkers := classWorkers } calls ↔
      ∀ before c after, calls = before ++ c :: after → ∀ libName,
        c.Loads (system.exec { classActors := classActors, classWorkers := classWorkers } before) libName →
          c.Fits (system.exec { classActors := classActors, classWorkers := classWorkers } before) libName := by
  have hKeyed : ∀ before : List (Call κ),
      (system.exec { classActors := classActors, classWorkers := classWorkers } before).Keyed :=
    keyed_exec fun k e h => by cases h
  constructor
  · intro h before c after hCalls libName hLoads
    have hNow := h before c after hCalls libName hLoads _ (system.start_mem_visited _ _)
    exact (hLoads.fits_iff (hKeyed before)).mp (createsFrom_iff.mp hNow)
  · intro h before c after hCalls libName hLoads t ht
    obtain ⟨lib, hMods⟩ := (hLoads.fits_iff (hKeyed before)).mpr (h before c after hCalls libName hLoads)
    exact createsFrom_iff.mpr ⟨lib, mods_visited hMods after t ht⟩

def loadCall (libDir lib : String) : Call ℕ where
  platform := { load := fun _ => some {} }
  libDir := libDir
  service := .object [("type", .string "library"), ("lib", .string lib)]

/-- A name with a directory is not found at all, and a plain name finds what another directory had under it. -/
theorem library_not_looked_up : ¬LooksUpLoaded {} [loadCall "lib" "sub/libx.so"] ∧
    ¬LooksUpLoaded {} [loadCall "a" "x", loadCall "b" "x"] := by
  constructor
  · intro h
    obtain ⟨lib, hMods, -⟩ := h [] (loadCall "lib" "sub/libx.so") [] rfl "sub/libx.so" ⟨rfl, rfl⟩ _
      (system.start_mem_visited _ _)
    have hNone : ((system.next {} (loadCall "lib" "sub/libx.so")).mods "sub/libx.so").isSome = false := by decide
    exact absurd (congrArg Option.isSome hMods) (by simp [hNone])
  · intro h
    have hType : serviceType (loadCall "b" "x").platform (loadCall "b" "x").service =
        .ok (some ("library", some "libx.so")) := rfl
    have hLoaded : (loadMod (loadCall "b" "x").platform (system.exec {} [loadCall "a" "x"])
        (joinPath (loadCall "b" "x").libDir "libx.so")).2 = true := by decide +kernel
    obtain ⟨lib, hMods, -⟩ := h [loadCall "a" "x"] (loadCall "b" "x") [] rfl "libx.so" ⟨hType, hLoaded⟩ _
      (system.start_mem_visited _ _)
    have hPath : ((system.next (system.exec {} [loadCall "a" "x"]) (loadCall "b" "x")).mods "libx.so").map Prod.fst =
        some "a/libx.so" := by decide +kernel
    have hOther : joinPath (loadCall "b" "x").libDir "libx.so" ≠ "a/libx.so" := by decide
    rw [hMods] at hPath
    exact hOther (Option.some.inj hPath)

end ModManager
end Myframe
