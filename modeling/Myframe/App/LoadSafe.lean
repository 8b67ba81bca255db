import Myframe.App.Outcome
import Myframe.ModManager.Loading

/-! # Services that the loader can read

`LoadServiceFromJson` throws where an accessor does. The instances are walked twice: as they are created and as
they are added, where the configurations of the actors are read.
-/
namespace Myframe
set_option autoImplicit false
open Common EarlyExit

/-- Where `ActorContext::Init` does not throw. -/
def ConfigReadable (cfg : Json) : Prop :=
  cfg.IsMap ∧ ∀ key ∈ ["pending_queue_size", "run_queue_size"], ∀ v, cfg.member key = some v → v.Countable

namespace Application

variable {κ : Type}

theorem queueSize_ok_iff {cfg : Json} (hMap : cfg.IsMap) (key : String) (dflt : ℤ) :
    (∃ n, queueSize cfg key dflt = .ok n) ↔ ∀ v, cfg.member key = some v → v.Countable := by
  rw [queueSize, Json.isMember_eq hMap, Json.get_eq hMap]
  cases hMember : cfg.member key with
  | none => exact iff_of_true ⟨dflt, rfl⟩ (by rintro v ⟨⟩)
  | some v =>
    change (∃ n, v.asInt = .ok n) ↔ _
    rw [Json.asInt_ok_iff]
    constructor
    · exact fun h v' hv' => Option.some.inj hv' ▸ h
    · exact fun h => h v rfl

theorem initContext_ok_iff {s : Application κ} {a : Actor κ} {cfg : Json} :
    (∃ ctx, s.initContext a cfg = .ok (ctx, (a.init cfg).1)) ↔ ConfigReadable cfg := by
  rw [ConfigReadable, initContext]
  by_cases hMap : cfg.IsMap
  · rw [and_iff_right hMap, List.forall_mem_cons, List.forall_mem_singleton,
      ← queueSize_ok_iff hMap "pending_queue_size" s.defaultPendingQueueSize,
      ← queueSize_ok_iff hMap "run_queue_size" s.defaultRunQueueSize]
    cases queueSize cfg "pending_queue_size" s.defaultPendingQueueSize with
    | error e => exact iff_of_false (by rintro ⟨ctx, ⟨⟩⟩) (by rintro ⟨⟨n, ⟨⟩⟩, -⟩)
    | ok pendingQueueSize =>
      cases queueSize cfg "run_queue_size" s.defaultRunQueueSize with
      | error e => exact iff_of_false (by rintro ⟨ctx, ⟨⟩⟩) (by rintro ⟨-, n, ⟨⟩⟩)
      | ok runQueueSize => exact iff_of_true ⟨_, rfl⟩ ⟨⟨_, rfl⟩, _, rfl⟩
  · have hThrows : queueSize cfg "pending_queue_size" s.defaultPendingQueueSize = .error .logicError := by
      rw [queueSize, Json.isMember_error hMap]
      rfl
    rw [hThrows]
    exact iff_of_false (by rintro ⟨ctx, ⟨⟩⟩) fun h => hMap h.1

theorem initContext_code {s : Application κ} {a : Actor κ} {cfg : Json} {ctx : ActorContext (Origin κ)} {code : ℤ}
    (h : s.initContext a cfg = .ok (ctx, code)) : code = (a.init cfg).1 := by
  obtain ⟨pendingQueueSize, -, h⟩ := Json.bind_ok_iff.mp h
  obtain ⟨runQueueSize, -, h⟩ := Json.bind_ok_iff.mp h
  cases h
  rfl

def Loads (s : Application κ) : Prop := ¬(s.state = .kUninitialized ∨ s.state = .kQuitting ∨ s.state = .kQuit)

/-- An instance of this class is let in after those of the classes before: there may be one node only. -/
def LetsIn (s : Application κ) (before : List String) (className : String) : Prop :=
  className = "node" → s.nodeAddr = "" ∧ "node" ∉ before

theorem admits_iff {s : Application κ} (h : s.Loads) {typeName : String} :
    s.admits typeName = true ↔ s.LetsIn [] typeName := by
  rw [Loads, not_or, not_or] at h
  obtain ⟨hNew, hQuitting, hQuit⟩ := h
  simp [admits, LetsIn, hNew, hQuitting, hQuit, imp_iff_not_or]

section Actors

variable (w : SetWalk)

theorem addActor_ok_iff_readable {s : Application κ} (h : s.Loads) {a : Actor κ} {cfg : Json} :
    (∃ b, (s.addActor w a cfg).2 = .ok b) ↔ (s.LetsIn [] a.typeName → ConfigReadable cfg) := by
  rw [← admits_iff h, ← initContext_ok_iff (s := s) (a := a)]
  obtain ⟨hAdmits, hEq⟩ | ⟨hAdmits, ⟨e, hRun, hEq⟩ | ⟨ctx, code, hRun, hCode, hEq⟩ | ⟨ctx, hRun, hEq⟩⟩ :=
    s.addActor_cases w a cfg
  · rw [hEq, hAdmits]
    exact iff_of_true ⟨false, rfl⟩ (by rintro ⟨⟩)
  · rw [hEq, hAdmits, hRun]
    exact iff_of_false (by rintro ⟨b, ⟨⟩⟩) fun h => by obtain ⟨ctx, ⟨⟩⟩ := h rfl
  · rw [hEq, hRun, initContext_code hRun]
    exact iff_of_true ⟨false, rfl⟩ fun _ => ⟨ctx, rfl⟩
  · rw [hEq, hRun, ← initContext_code hRun]
    exact iff_of_true ⟨true, rfl⟩ fun _ => ⟨ctx, rfl⟩

theorem accepts_iff {s : Application κ} (h : s.Loads) {a : Actor κ} {cfg : Json} :
    s.Accepts a cfg ↔ s.LetsIn [] a.typeName ∧ ConfigReadable cfg ∧ (a.init cfg).1 = 0 := by
  rw [Accepts, admits_iff h, ← initContext_ok_iff (s := s) (a := a)]
  refine and_congr_right fun _ => ?_
  constructor
  · rintro ⟨ctx, hRun⟩
    have hCode := initContext_code hRun
    exact ⟨⟨ctx, by rw [hRun, ← hCode]⟩, hCode.symm⟩
  · rintro ⟨⟨ctx, hRun⟩, hCode⟩
    exact ⟨ctx, by rw [hRun, hCode]⟩

theorem Loads.addActor {s : Application κ} (h : s.Loads) {a : Actor κ} {cfg : Json} (hAccepts : s.Accepts a cfg) :
    (s.addActor w a cfg).1.Loads := by
  obtain ⟨app, cache, hEq, -⟩ := addActor_accepted w hAccepts
  rw [hEq]
  exact h

theorem letsIn_addActor {s : Application κ} {a : Actor κ} {cfg : Json} (hAccepts : s.Accepts a cfg)
    {before : List String} {className : String} :
    (s.addActor w a cfg).1.LetsIn before className ↔ s.LetsIn (a.typeName :: before) className := by
  obtain ⟨app, cache, hEq, -, hNode⟩ := addActor_accepted w hAccepts
  rw [LetsIn, LetsIn, hEq]
  simp only [hNode, setNode, List.mem_cons, not_or]
  split
  · next hIs =>
    rw [hIs]
    have hNe : a.getActorName ≠ "" := address_ne_empty _ _ _
    simp [hNe]
  · next hNot => rw [and_iff_right fun hIs : "node" = a.typeName => hNot hIs.symm]

def Added (o : Platform κ) (s : Application κ) (create : String → String → Option (Actor κ))
    (before : List (String × Json)) (x : String × Json) : Prop :=
  s.LetsIn (before.map Prod.fst) x.1 ∧ ConfigReadable (configOf x.2) ∧
    ∃ a, create x.1 (ModManager.instanceName o x.2) = some a ∧ (a.init (configOf x.2)).1 = 0

/-- The configuration of every instance that is let in can be read, up to the first instance that is not added. -/
def ConfigsReadable (o : Platform κ) (s : Application κ) (create : String → String → Option (Actor κ))
    (insts : List (String × Json)) : Prop :=
  Fine (s.Added o create) (fun before x => s.LetsIn (before.map Prod.fst) x.1 → ConfigReadable (configOf x.2)) insts

variable (o : Platform κ)

theorem instanceConfig_eq {inst : Json} (h : inst.IsMap) : instanceConfig inst = .ok (configOf inst) := by
  rw [configOf, instanceConfig, Json.isMember_eq h, Json.get_eq h]
  cases inst.member "instance_config" with
  | none => rfl
  | some v => rfl

theorem addActors_cons {inst : Json} (hMap : inst.IsMap) (s : Application κ) (a : Actor κ)
    (rest : List (Json × Actor κ)) :
    s.addActors w ((inst, a) :: rest) =
      if (s.addActor w a (configOf inst)).2 = .ok true then (s.addActor w a (configOf inst)).1.addActors w rest
      else s.addActor w a (configOf inst) := by
  rw [addActors, instanceConfig_eq hMap]

theorem added_nil_iff {create : String → String → Option (Actor κ)} {s : Application κ} (h : s.Loads) {inst : Json}
    {a : Actor κ} (hCreate : create a.typeName (ModManager.instanceName o inst) = some a) :
    s.Added o create [] (a.typeName, inst) ↔ s.Accepts a (configOf inst) := by
  rw [accepts_iff h, Added, hCreate]
  simp

theorem configsReadable_addActor {create : String → String → Option (Actor κ)} {s : Application κ} {a : Actor κ}
    {inst : Json} (hAccepts : s.Accepts a (configOf inst)) {insts : List (String × Json)} :
    (s.addActor w a (configOf inst)).1.ConfigsReadable o create insts ↔
      Fine (fun before => s.Added o create ((a.typeName, inst) :: before))
        (fun before x => s.LetsIn (((a.typeName, inst) :: before).map Prod.fst) x.1 → ConfigReadable (configOf x.2))
        insts := by
  refine fine_congr (fun before x _ => ?_) fun before x _ => ?_
  · rw [Added, Added, letsIn_addActor w hAccepts]
    rfl
  · rw [letsIn_addActor w hAccepts]
    rfl

theorem addActors_ok_iff {create : String → String → Option (Actor κ)}
    (hType : ∀ className instName a, create className instName = some a → a.typeName = className)
    {insts : List (String × Json)} (hMap : ∀ x ∈ insts, x.2.IsMap) {xs : List (Json × Actor κ)} {s : Application κ}
    (h : s.Loads)
    (hMade : xs.map (fun x => (x.1, some x.2)) =
      insts.map fun y => (y.2, create y.1 (ModManager.instanceName o y.2))) :
    (∃ b, (s.addActors w xs).2 = .ok b) ↔ s.ConfigsReadable o create insts := by
  induction insts generalizing xs s with
  | nil =>
    obtain rfl := List.map_eq_nil_iff.mp hMade
    exact iff_of_true ⟨true, rfl⟩ (fine_nil _ _)
  | cons y insts ih =>
    obtain ⟨className, inst⟩ := y
    obtain ⟨⟨inst', a⟩, rest, rfl, hFirst, hRest⟩ := List.map_eq_cons_iff.mp hMade
    obtain ⟨rfl, hCreate⟩ := Prod.mk.inj hFirst
    obtain rfl : a.typeName = className := hType _ _ _ hCreate.symm
    obtain ⟨hMapFirst, hMapRest⟩ := List.forall_mem_cons.mp hMap
    have hAdded := added_nil_iff o h hCreate.symm
    rw [ConfigsReadable, fine_cons, hAdded, addActors_cons w hMapFirst]
    by_cases hAccepts : s.Accepts a (configOf inst')
    · have hReadable : ConfigReadable (configOf inst') := ((accepts_iff h).mp hAccepts).2.1
      rw [if_pos ((addActor_ok_iff w).mpr hAccepts), ih hMapRest (h.addActor w hAccepts) hRest,
        configsReadable_addActor w o hAccepts, forall_prop_of_true hAccepts]
      exact (and_iff_right fun _ => hReadable).symm
    · rw [if_neg (mt (addActor_ok_iff w).mp hAccepts), addActor_ok_iff_readable w h]
      exact (and_iff_left fun hNow => absurd hNow hAccepts).symm

end Actors

theorem addWorkers_ok {xs : List (Json × Worker)} (hMap : ∀ x ∈ xs, x.1.IsMap) (s : Application κ)
    (grants : ℕ → Grant) : ∃ b, (s.addWorkers xs grants).2 = .ok b := by
  induction xs generalizing s grants with
  | nil => exact ⟨true, rfl⟩
  | cons x xs ih =>
    obtain ⟨hFirst, hRest⟩ := List.forall_mem_cons.mp hMap
    rw [addWorkers, instanceConfig_eq hFirst]
    simp only
    split
    · exact ih hRest _ _
    · rw [addWorker]
      split
      · simp only
        split
        · exact ⟨false, rfl⟩
        · exact ⟨(grants 0).polled, rfl⟩
      · exact ⟨false, rfl⟩

section Service

open ModManager

variable (w : SetWalk) (o : Platform κ)

/-- What `LoadServiceFromJson` has to be able to read of a service. -/
structure Readable (s : Application κ) (service : Json) : Prop where
  root : service.IsMap
  instances : ∀ m modName, s.mods.MadeBy o s.libDir service m modName → m.InstancesReadable o modName service
  configs : ∀ m modName, s.mods.MadeBy o s.libDir service m modName →
    AllCreated o (m.createActorInst modName) (instancesOf service "actor") →
    AllCreated o (m.createWorkerInst modName) (instancesOf service "worker") →
    s.ConfigsReadable o (m.createActorInst modName) (instancesOf service "actor")

variable {o} in
theorem readable_iff {s : Application κ} {service : Json} {m : ModManager κ} {modName : String}
    (hMade : s.mods.MadeBy o s.libDir service m modName) :
    s.Readable o service ↔ service.IsMap ∧ m.InstancesReadable o modName service ∧
      (AllCreated o (m.createActorInst modName) (instancesOf service "actor") ∧
          AllCreated o (m.createWorkerInst modName) (instancesOf service "worker") →
        s.ConfigsReadable o (m.createActorInst modName) (instancesOf service "actor")) := by
  constructor
  · intro h
    exact ⟨h.root, h.instances m modName hMade, fun hCreated => h.configs m modName hMade hCreated.1 hCreated.2⟩
  · rintro ⟨hRoot, hInstances, hConfigs⟩
    constructor
    · exact hRoot
    · intro m' modName' hMade'
      obtain ⟨rfl, rfl⟩ := hMade.unique hMade'
      exact hInstances
    · intro m' modName' hMade' hActors hWorkers
      obtain ⟨rfl, rfl⟩ := hMade.unique hMade'
      exact hConfigs ⟨hActors, hWorkers⟩

/-- The service is loaded, or turned down, just where it can be read; else an accessor throws. -/
theorem loadServiceFromJson_ok_iff {s : Application κ} (h : s.Loads) (service : Json) (grants : ℕ → Grant) :
    (∃ b, (s.loadServiceFromJson w o service grants).2 = .ok b) ↔ s.Readable o service := by
  rw [loadServiceFromJson, if_neg h]
  simp only
  by_cases hMap : service.IsMap
  · obtain ⟨m, type, libName, modName, hMade, hMod, hEq⟩ | ⟨hNone, hLoaded⟩ :=
      s.mods.loadService_cases o s.libDir hMap
    · have hEnds := loadInstances_ends o (m := m) hMod hMap
      rw [readable_iff hMade, and_iff_right hMap, hEq, ← hEnds.ok, ← hEnds.found]
      simp only
      cases hLoaded : m.loadInstances o type libName service with
      | error e => exact iff_of_false (by rintro ⟨b, ⟨⟩⟩) (by rintro ⟨⟨a, ⟨⟩⟩, -⟩)
      | ok found =>
        cases found with
        | none => exact iff_of_true ⟨false, rfl⟩ ⟨⟨none, rfl⟩, by rintro ⟨a, ⟨⟩⟩⟩
        | some lists =>
          obtain ⟨actors, workers⟩ := lists
          obtain ⟨hActors, hWorkers⟩ := hEnds.found.mp ⟨_, hLoaded⟩
          obtain ⟨hActorsMade, hWorkersMade⟩ := loadInstances_created o hMod hLoaded
          have hType : ∀ className instName a, m.createActorInst modName className instName = some a →
              a.typeName = className := fun _ _ _ hMake => (createActorInst_names hMake).1
          have hLoads : ({ s with mods := m } : Application κ).Loads := h
          have hWalk := addActors_ok_iff w o hType (isMap_of_created o hActors) hLoads hActorsMade
          rw [and_iff_right ⟨_, rfl⟩, forall_prop_of_true ⟨_, rfl⟩]
          refine Iff.trans ?_ hWalk
          simp only
          split
          · next hAdded =>
            have hWorkersMap := isMap_of_made (isMap_of_created o hWorkers) hWorkersMade
            exact iff_of_true (addWorkers_ok hWorkersMap _ _) ⟨true, hAdded⟩
          · exact Iff.rfl
    · have hReadable : s.Readable o service :=
        ⟨hMap, fun m modName hMade => absurd hMade (hNone m modName),
          fun m modName hMade => absurd hMade (hNone m modName)⟩
      refine iff_of_true ?_ hReadable
      obtain hLoaded | hLoaded := hLoaded
      · rw [hLoaded]
        exact ⟨false, rfl⟩
      · rw [hLoaded]
        exact ⟨true, rfl⟩
  · rw [loadService_error o hMap]
    exact iff_of_false (by rintro ⟨b, ⟨⟩⟩) fun hReadable => hMap hReadable.root

def oneOfA (inst : Json) : Json := .object [("actor", .object [("A", .array [inst])]), ("type", .string "class")]

theorem readable_twoOfAName : ((system .stored {}).exec {} withClass).Readable {} twoOfAName :=
  (loadServiceFromJson_ok_iff .stored {} (by unfold Loads; decide) twoOfAName fun n => ⟨n, true⟩).mp
    ⟨true, by decide⟩

/-- A root, an instance, a name, a configuration and a size of a kind that the loader does not expect. -/
theorem loader_throws :
    ((system .stored {}).exec {} withClass).Loads ∧
      ∀ service ∈ [.array [], oneOfA (.string "a"), oneOfA (.object [("instance_name", .array [])]),
          oneOfA (.object [("instance_config", .string "8"), ("instance_name", .string "a")]),
          oneOfA (.object [("instance_config", .object [("run_queue_size", .string "8")]),
            ("instance_name", .string "a")])],
        (((system .stored {}).exec {} withClass).loadServiceFromJson .stored {} service fun n => ⟨n, true⟩).2 =
          .error .logicError := by
  constructor
  · unfold Loads
    decide
  · decide

end Service

end Application
end Myframe
