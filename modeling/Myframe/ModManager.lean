import Myframe.Json
import Myframe.Common
import Myframe.UserWorker.System

/-! # Classes, libraries and the instances of a service file -/
namespace Myframe
set_option autoImplicit false

/-- What `Init` of an actor does with its configuration: the code it returns and what it posts. -/
abbrev Init (κ : Type) := Json → ℤ × List (Parcel (Origin κ))

structure Actor (κ : Type) where
  modName : String := ""
  typeName : String
  instName : String
  init : Init κ

def Actor.getActorName {κ : Type} (a : Actor κ) : String := Common.address "actor" a.typeName a.instName

structure Worker where
  modName : String := ""
  typeName : String
  instName : String
  type : WorkerType := .kWorkerUser

def Worker.getWorkerName (v : Worker) : String := Common.address "worker" v.typeName v.instName

/-- The symbols of a library; the functions may return null. -/
structure SharedLibrary (κ : Type) where
  actorCreate : Option (String → Option (Init κ)) := none
  workerCreate : Option (String → Option WorkerType) := none

/-- `mods` holds each library under its file name, with the path it was loaded from. -/
structure ModManager (κ : Type) where
  mods : String → Option (String × SharedLibrary κ) := fun _ => none
  classActors : String → Option (String → Init κ) := fun _ => none
  classWorkers : String → Option (String → WorkerType) := fun _ => none

/-- The operating system and the printing of numbers. -/
structure Platform (κ : Type) where
  load : String → Option (SharedLibrary κ) := fun _ => none
  showReal : ℚ → String := fun x => toString x

namespace Common

/-- A match of `.*\.(dll|so|dylib)$`; the dot matches no end of a line. -/
def isLibName (name : String) : Bool :=
  [".dll", ".so", ".dylib"].any fun ext =>
    ext.toList.isSuffixOf name.toList && (name.toList.take (name.length - ext.length)).all fun c =>
      c ≠ '\n' && c ≠ '\r'

def getLibName (name : String) : String := if isLibName name then name else "lib" ++ name ++ ".so"

end Common

namespace ModManager

open Common

variable {κ : Type} (o : Platform κ)

def loadMod (m : ModManager κ) (dlPath : String) : ModManager κ × Bool :=
  if (m.mods (filename dlPath)).isSome then (m, true)
  else
    match o.load dlPath with
    | none => (m, false)
    | some lib => ({ m with mods := Function.update m.mods (filename dlPath) (some (dlPath, lib)) }, true)

/-- `RegActor`; the function makes a new actor of the class. -/
def regActor (m : ModManager κ) (className : String) (func : String → Init κ) : ModManager κ × Bool :=
  if (m.classActors className).isSome then (m, false)
  else ({ m with classActors := Function.update m.classActors className (some func) }, true)

def regWorker (m : ModManager κ) (className : String) (func : String → WorkerType) : ModManager κ × Bool :=
  if (m.classWorkers className).isSome then (m, false)
  else ({ m with classWorkers := Function.update m.classWorkers className (some func) }, true)

/-- A loaded library of that name comes before the classes, and is not passed over when it fails. -/
def createActorInst (m : ModManager κ) (modOrClassName className instName : String) : Option (Actor κ) :=
  match m.mods modOrClassName with
  | some (_, lib) =>
    lib.actorCreate.bind fun create => (create className).map fun init =>
      { modName := modOrClassName, typeName := className, instName := instName, init := init }
  | none =>
    if modOrClassName = "class" then
      (m.classActors className).map fun create =>
        { modName := modOrClassName, typeName := className, instName := instName, init := create className }
    else none

def createWorkerInst (m : ModManager κ) (modOrClassName className instName : String) : Option Worker :=
  match m.mods modOrClassName with
  | some (_, lib) =>
    lib.workerCreate.bind fun create => (create className).map fun type =>
      { modName := modOrClassName, typeName := className, instName := instName, type := type }
  | none =>
    if modOrClassName = "class" then
      (m.classWorkers className).map fun create =>
        { modName := modOrClassName, typeName := className, instName := instName, type := create className }
    else none

/-- The loop over the instances of one class; `none` is a return of `false`. -/
def loadInsts {β : Type} (create : String → Option β) :
    List Json → Except Json.Throw (Option (List (Json × β)))
  | [] => .ok (some [])
  | inst :: rest => do
    if !(← inst.isMember "instance_name") then return none
    let instName ← (← inst.get "instance_name").asString o.showReal
    match create instName with
    | none => return none
    | some x => return (← loadInsts create rest).map ((inst, x) :: ·)

def loadActors (m : ModManager κ) (modName className : String) (actorList : Json) :
    Except Json.Throw (Option (List (Json × Actor κ))) := do
  loadInsts o (m.createActorInst modName className) (← actorList.get className).elements

def loadWorkers (m : ModManager κ) (modName className : String) (workerList : Json) :
    Except Json.Throw (Option (List (Json × Worker))) := do
  loadInsts o (m.createWorkerInst modName className) (← workerList.get className).elements

/-- What stands for the library in `LoadActors`; there is nothing for a type that is not known. -/
def modNameOf (type libName : String) : Option String :=
  if type = "library" then some libName else if type = "class" then some "class" else none

/-- The loop over the classes of a section. -/
def loadClasses {β : Type} (type libName : String)
    (load : String → String → Except Json.Throw (Option (List β))) :
    List String → Except Json.Throw (Option (List β))
  | [] => .ok (some [])
  | className :: rest =>
    match modNameOf type libName with
    | none => .ok none
    | some modName => do
      match ← load modName className with
      | none => return none
      | some xs => return (← loadClasses type libName load rest).map (xs ++ ·)

/-- The part of the service under `actor` or `worker`. -/
def loadSection {β : Type} (service : Json) (key type libName : String)
    (load : Json → String → String → Except Json.Throw (Option (List β))) :
    Except Json.Throw (Option (List β)) := do
  if (← service.isMember key) && (← service.get key).isObject then
    let list ← service.get key
    loadClasses type libName (fun modName className => load list modName className) (← list.getMemberNames)
  else return some []

def loadInstances (m : ModManager κ) (type libName : String) (service : Json) :
    Except Json.Throw (Option (List (Json × Actor κ) × List (Json × Worker))) := do
  match ← loadSection service "actor" type libName fun list modName className =>
      m.loadActors o modName className list with
  | none => return none
  | some actors =>
    match ← loadSection service "worker" type libName fun list modName className =>
        m.loadWorkers o modName className list with
    | none => return none
    | some workers => return some (actors, workers)

def stringMember (service : Json) (key : String) : Except Json.Throw (Option String) := do
  if !(← service.isMember key) || !(← service.get key).isString then return none
  return some (← (← service.get key).asString o.showReal)

def serviceType (service : Json) : Except Json.Throw (Option (String × Option String)) := do
  if service.isNull then return none
  match ← stringMember o service "type" with
  | none => return none
  | some type =>
    if type = "library" then
      return (← stringMember o service "lib").map fun lib => (type, some (getLibName lib))
    else return some (type, none)

def loadService (m : ModManager κ) (libDir : String) (service : Json) :
    ModManager κ × Except Json.Throw (Option (List (Json × Actor κ) × List (Json × Worker))) :=
  match serviceType o service with
  | .error e => (m, .error e)
  | .ok none => (m, .ok none)
  | .ok (some (type, none)) => (m, m.loadInstances o type "" service)
  | .ok (some (type, some libName)) =>
    if (m.loadMod o (joinPath libDir libName)).2 = true then
      ((m.loadMod o (joinPath libDir libName)).1,
        (m.loadMod o (joinPath libDir libName)).1.loadInstances o type libName service)
    else (m, .ok none)

def instanceName (inst : Json) : String :=
  ((inst.get "instance_name").bind (Json.asString o.showReal)).toOption.getD ""

def actorInstances (service : Json) : List (String × Json) :=
  match service.get "actor" with
  | .ok (.object members) =>
    (members.map Prod.fst).flatMap fun className =>
      (((members.lookup className).getD .null).elements.map fun inst =>
        (address "actor" className (instanceName o inst), inst))
  | _ => []

theorem createActorInst_names {m : ModManager κ} {modName className instName : String} {a : Actor κ}
    (h : m.createActorInst modName className instName = some a) : a.typeName = className ∧ a.instName = instName := by
  rw [createActorInst] at h
  split at h
  · obtain ⟨create, -, h⟩ := Option.bind_eq_some_iff.mp h
    obtain ⟨init, -, rfl⟩ := Option.map_eq_some_iff.mp h
    exact ⟨rfl, rfl⟩
  · split at h
    · obtain ⟨create, -, rfl⟩ := Option.map_eq_some_iff.mp h
      exact ⟨rfl, rfl⟩
    · cases h

theorem createActorInst_name {m : ModManager κ} {modName className instName : String} {a : Actor κ}
    (h : m.createActorInst modName className instName = some a) :
    a.getActorName = address "actor" className instName := by
  obtain ⟨hType, hInst⟩ := createActorInst_names h
  rw [Actor.getActorName, hType, hInst]

theorem loadInsts_spec {β : Type} {create : String → Option β} {insts : List Json} {xs : List (Json × β)}
    (h : loadInsts o create insts = .ok (some xs)) :
    xs.map Prod.fst = insts ∧ ∀ x ∈ xs, create (instanceName o x.1) = some x.2 := by
  induction insts generalizing xs with
  | nil =>
    cases h
    exact ⟨rfl, by simp⟩
  | cons inst rest ih =>
    rw [loadInsts, Json.bind_ok_iff] at h
    obtain ⟨has, -, h⟩ := h
    split at h
    · cases h
    · obtain ⟨v, hGet, h⟩ := Json.bind_ok_iff.mp h
      obtain ⟨instName, hName, h⟩ := Json.bind_ok_iff.mp h
      have hInst : instanceName o inst = instName := by
        rw [instanceName, hGet, Except.bind, hName]
        rfl
      split at h
      · cases h
      · next x hCreate =>
        obtain ⟨found, hRest, h⟩ := Json.bind_ok_iff.mp h
        obtain ⟨ys, rfl, rfl⟩ := Option.map_eq_some_iff.mp (Except.ok.inj h)
        obtain ⟨hInsts, hCreated⟩ := ih hRest
        refine ⟨by rw [List.map_cons, hInsts], List.forall_mem_cons.mpr ⟨?_, hCreated⟩⟩
        rw [hInst]
        exact hCreate

theorem loadActors_spec {m : ModManager κ} {modName className : String} {list : Json}
    {xs : List (Json × Actor κ)} (h : m.loadActors o modName className list = .ok (some xs)) :
    ∃ insts, list.get className = .ok insts ∧
      xs.map (fun x => (x.2.getActorName, x.1)) =
        insts.elements.map fun inst => (address "actor" className (instanceName o inst), inst) := by
  obtain ⟨insts, hGet, hInsts⟩ := Json.bind_ok_iff.mp h
  obtain ⟨hFst, hCreated⟩ := loadInsts_spec o hInsts
  refine ⟨insts, hGet, ?_⟩
  rw [← hFst, List.map_map]
  refine List.map_congr_left fun x hx => ?_
  rw [createActorInst_name (hCreated x hx)]
  rfl

theorem loadClasses_spec {α β : Type} {type libName : String}
    {load : String → String → Except Json.Throw (Option (List β))} {key : β → α} {expected : String → List α}
    (hLoad : ∀ modName, modNameOf type libName = some modName →
      ∀ className xs, load modName className = .ok (some xs) → xs.map key = expected className)
    {names : List String} {xs : List β} (h : loadClasses type libName load names = .ok (some xs)) :
    xs.map key = names.flatMap expected := by
  induction names generalizing xs with
  | nil =>
    cases h
    rfl
  | cons className rest ih =>
    rw [loadClasses] at h
    split at h
    · cases h
    · next modName hMod =>
      obtain ⟨found, hFound, h⟩ := Json.bind_ok_iff.mp h
      split at h
      · cases h
      · next ys =>
        obtain ⟨others, hRest, h⟩ := Json.bind_ok_iff.mp h
        obtain ⟨zs, rfl, rfl⟩ := Option.map_eq_some_iff.mp (Except.ok.inj h)
        rw [List.map_append, hLoad modName hMod className ys hFound, ih hRest, List.flatMap_cons]

/-- Which classes a section gives the loop: none, unless there is an object. -/
theorem loadSection_spec {β : Type} {service : Json} {key type libName : String}
    {load : Json → String → String → Except Json.Throw (Option (List β))} {xs : List β}
    (h : loadSection service key type libName load = .ok (some xs)) :
    (∃ members, service.get key = .ok (.object members) ∧
        loadClasses type libName (load (.object members)) (members.map Prod.fst) = .ok (some xs)) ∨
      xs = [] ∧ ∀ members, service.get key ≠ .ok (.object members) := by
  obtain ⟨has, hHas, h⟩ := Json.bind_ok_iff.mp h
  obtain ⟨v, hGet, h⟩ := Json.bind_ok_iff.mp h
  split at h
  · next hObject =>
    obtain ⟨v', hGet', h⟩ := Json.bind_ok_iff.mp h
    rw [hGet] at hGet'
    cases hGet'
    cases v with
    | object members =>
      obtain ⟨names, hNames, h⟩ := Json.bind_ok_iff.mp h
      cases hNames
      exact .inl ⟨members, hGet, h⟩
    | null | bool b | int n | real x | string t | array elems =>
      rw [Bool.and_eq_true] at hObject
      cases hObject.2
  · next hNone =>
    cases h
    refine .inr ⟨rfl, fun members hIs => hNone ?_⟩
    rw [hGet] at hIs
    cases hIs
    cases service with
    | null => cases hGet
    | object all =>
      cases hLookup : all.lookup key with
      | none => simp [Json.get, hLookup] at hGet
      | some v =>
        simp only [Json.isMember, hLookup, Option.isSome_some, Except.ok.injEq] at hHas
        rw [← hHas]
        rfl
    | bool b | int n | real x | string t | array elems => cases hGet

theorem loadInstances_spec {m : ModManager κ} {type libName : String} {service : Json}
    {actors : List (Json × Actor κ)} {workers : List (Json × Worker)}
    (h : m.loadInstances o type libName service = .ok (some (actors, workers))) :
    actors.map (fun x => (x.2.getActorName, x.1)) = actorInstances o service := by
  obtain ⟨found, hFound, h⟩ := Json.bind_ok_iff.mp h
  split at h
  · cases h
  · next actors' =>
    have hActors : actors' = actors := by
      obtain ⟨found', -, h⟩ := Json.bind_ok_iff.mp h
      split at h
      · cases h
      · exact congrArg Prod.fst (Option.some.inj (Except.ok.inj h))
    subst hActors
    obtain ⟨members, hGet, hClasses⟩ | ⟨rfl, hNone⟩ := loadSection_spec hFound
    · rw [actorInstances, hGet]
      refine loadClasses_spec (fun modName _ className xs hLoad => ?_) hClasses
      obtain ⟨insts, hInsts, hKeys⟩ := loadActors_spec o hLoad
      cases hInsts
      exact hKeys
    · rw [actorInstances]
      split
      · next members hGet => exact absurd hGet (hNone members)
      · rfl

theorem loadService_spec {m : ModManager κ} {libDir : String} {service : Json}
    {actors : List (Json × Actor κ)} {workers : List (Json × Worker)}
    (h : (m.loadService o libDir service).2 = .ok (some (actors, workers))) :
    actors.map (fun x => (x.2.getActorName, x.1)) = actorInstances o service := by
  rw [loadService] at h
  split at h
  · cases h
  · cases h
  · exact loadInstances_spec o h
  · split at h
    · exact loadInstances_spec o h
    · cases h

end ModManager
end Myframe
