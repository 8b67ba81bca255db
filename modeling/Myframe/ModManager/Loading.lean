import Myframe.ModManager
import Myframe.Library.EarlyExit

/-! # What the loader asks of a service

The instances in the order in which they are walked. The loop ends at the first one that cannot be created; an
accessor throws at one it comes to that is no object, or whose name is not a plain value.
-/
namespace Myframe
set_option autoImplicit false

namespace ModManager

open Common EarlyExit

variable {κ : Type} (o : Platform κ)

def instancesOf (service : Json) (key : String) : List (String × Json) :=
  match service.member key with
  | some (.object members) => (members.map Prod.fst).flatMap fun className =>
      ((members.lookup className).getD .null).elements.map fun inst => (className, inst)
  | _ => []

def InstReadable (inst : Json) : Prop := inst.IsMap ∧ ∀ v, inst.member "instance_name" = some v → v.Printable

/-- The instance has a name, and its class makes an instance. -/
def Created {β : Type} (create : String → String → Option β) (x : String × Json) : Prop :=
  (∃ v, x.2.member "instance_name" = some v ∧ v.Printable) ∧ (create x.1 (instanceName o x.2)).isSome

def AllCreated {β : Type} (create : String → String → Option β) (xs : List (String × Json)) : Prop :=
  Passed (fun _ => Created o create) xs

/-- Every instance that the loader comes to is readable. -/
def ListReadable {β : Type} (create : String → String → Option β) (xs : List (String × Json)) : Prop :=
  Fine (fun _ => Created o create) (fun _ x => InstReadable x.2) xs

variable {β : Type}

def createNamed (create : String → Option β) (inst : Json) : Except Json.Throw (Option β) := do
  if !(← inst.isMember "instance_name") then return none
  return create (← (← inst.get "instance_name").asString o.showReal)

theorem isMap_of_member {v x : Json} {key : String} (h : v.member key = some x) : v.IsMap := by
  cases v with
  | object members => trivial
  | null | bool b | int n | real x | string t | array elems => cases h

variable {o} in
theorem createNamed_error {create : String → Option β} {inst : Json} (h : ¬inst.IsMap) :
    createNamed o create inst = .error .logicError := by
  rw [createNamed, Json.isMember_error h]
  rfl

variable {o} in
theorem createNamed_none {create : String → Option β} {inst : Json} (hMap : inst.IsMap)
    (hMember : inst.member "instance_name" = none) : createNamed o create inst = .ok none := by
  rw [createNamed, Json.isMember_eq hMap, hMember]
  rfl

variable {o} in
theorem createNamed_some {create : String → Option β} {inst v : Json}
    (hMember : inst.member "instance_name" = some v) :
    createNamed o create inst = (v.asString o.showReal).map create := by
  have hMap := isMap_of_member hMember
  rw [createNamed, Json.isMember_eq hMap, Json.get_eq hMap, hMember]
  change (v.asString o.showReal >>= fun name => .ok (create name)) = _
  cases v.asString o.showReal with
  | error e => rfl
  | ok name => rfl

variable {o} in
theorem instanceName_eq {inst v : Json} {name : String} (hMember : inst.member "instance_name" = some v)
    (hName : v.asString o.showReal = .ok name) : instanceName o inst = name := by
  rw [instanceName, Json.get_eq (isMap_of_member hMember), hMember, Except.bind, Option.getD_some, hName]
  rfl

theorem createNamed_ends (create : String → String → Option β) (className : String) (inst : Json) :
    Ends (createNamed o (create className) inst) (Created o create (className, inst)) (InstReadable inst) := by
  cases hMember : inst.member "instance_name" with
  | none =>
    have hNot : ¬Created o create (className, inst) := by
      rintro ⟨⟨v, hv, -⟩, -⟩
      rw [hMember] at hv
      cases hv
    by_cases hMap : inst.IsMap
    · have hReadable : InstReadable inst := ⟨hMap, fun v hv => by rw [hMember] at hv; cases hv⟩
      rw [createNamed_none hMap hMember]
      exact Ends.of_none.congr (iff_false_intro hNot).symm (iff_true_intro hReadable).symm
    · have hUnreadable : ¬InstReadable inst := fun h => hMap h.1
      rw [createNamed_error hMap]
      exact (Ends.of_error _).congr (iff_false_intro hNot).symm (iff_false_intro hUnreadable).symm
  | some v =>
    have hReadable : InstReadable inst ↔ v.Printable := by
      rw [InstReadable, hMember]
      constructor
      · exact fun h => h.2 v rfl
      · exact fun h => ⟨isMap_of_member hMember, fun v' hv' => Option.some.inj hv' ▸ h⟩
    have hCreated : Created o create (className, inst) ↔
        v.Printable ∧ (create className (instanceName o inst)).isSome := by
      rw [Created, hMember]
      simp
    have hPrints : (∃ name, v.asString o.showReal = .ok name) ↔ v.Printable := Json.asString_ok_iff
    rw [createNamed_some hMember, hReadable, hCreated, ← hPrints]
    cases hName : v.asString o.showReal with
    | error e => exact (Ends.of_error e).congr (by simp) (by simp)
    | ok name =>
      rw [instanceName_eq hMember hName, Except.map]
      cases create className name with
      | none => exact Ends.of_none.congr (by simp) (by simp)
      | some x => exact (Ends.of_some x).congr (by simp) (by simp)

theorem loadInsts_cons (create : String → Option β) (inst : Json) (rest : List Json) :
    loadInsts o create (inst :: rest) = (createNamed o create inst).bind fun found =>
      found.elim (.ok none) fun x => (loadInsts o create rest).map fun xs => xs.map ((inst, x) :: ·) := by
  rw [loadInsts]
  cases hMember : inst.member "instance_name" with
  | none =>
    by_cases hMap : inst.IsMap
    · rw [createNamed_none hMap hMember, Json.isMember_eq hMap, hMember]
      rfl
    · rw [createNamed_error hMap, Json.isMember_error hMap]
      rfl
  | some v =>
    have hMap := isMap_of_member hMember
    rw [createNamed_some hMember, Json.isMember_eq hMap, Json.get_eq hMap, hMember]
    simp only [Option.isSome_some, Option.getD_some, bind, Except.bind, Except.map]
    cases v.asString o.showReal with
    | error e => rfl
    | ok name =>
      simp only
      cases create name with
      | none => rfl
      | some x =>
        cases loadInsts o create rest with
        | error e => rfl
        | ok xs => rfl

theorem loadInsts_ends (create : String → String → Option β) (className : String) (insts : List Json) :
    Ends (loadInsts o (create className) insts) (AllCreated o create (insts.map fun inst => (className, inst)))
      (ListReadable o create (insts.map fun inst => (className, inst))) := by
  induction insts with
  | nil => exact (Ends.of_some []).congr (iff_of_true trivial (passed_nil _)) (iff_of_true trivial (fine_nil _ _))
  | cons inst rest ih =>
    have hStep := createNamed_ends o create className inst
    rw [List.map_cons, AllCreated, passed_cons, ListReadable, fine_cons, loadInsts_cons]
    exact hStep.andThen fun x => ih.map _

section Classes

variable {type libName modName : String} {load : String → String → Except Json.Throw (Option (List β))}

theorem loadClasses_cons (hMod : modNameOf type libName = some modName) (className : String) (rest : List String) :
    loadClasses type libName load (className :: rest) = (load modName className).bind fun found =>
      found.elim (.ok none) fun xs => (loadClasses type libName load rest).map fun ys => ys.map (xs ++ ·) := by
  rw [loadClasses, hMod]
  change (load modName className >>= _) = _
  cases load modName className with
  | error e => rfl
  | ok found =>
    cases found with
    | none => rfl
    | some xs =>
      change (loadClasses type libName load rest >>= fun ys => pure (ys.map (xs ++ ·))) = _
      cases loadClasses type libName load rest with
      | error e => rfl
      | ok ys => rfl

theorem loadClasses_ends {γ : Type} {create : String → String → Option γ} {walk : String → List (String × Json)}
    (hMod : modNameOf type libName = some modName)
    (hLoad : ∀ className, Ends (load modName className) (AllCreated o create (walk className))
      (ListReadable o create (walk className))) (names : List String) :
    Ends (loadClasses type libName load names) (AllCreated o create (names.flatMap walk))
      (ListReadable o create (names.flatMap walk)) := by
  induction names with
  | nil => exact (Ends.of_some []).congr (iff_of_true trivial (passed_nil _)) (iff_of_true trivial (fine_nil _ _))
  | cons className rest ih =>
    rw [List.flatMap_cons, AllCreated, passed_append, ListReadable, fine_append, loadClasses_cons hMod]
    exact (hLoad className).andThen fun xs => ih.map _

/-- A service of a type that is not known has no instance looked at. -/
theorem loadClasses_unknown (hMod : modNameOf type libName = none) (names : List String) :
    loadClasses type libName load names = .ok none ∨ loadClasses type libName load names = .ok (some []) := by
  cases names with
  | nil => exact .inr rfl
  | cons className rest =>
    left
    rw [loadClasses, hMod]

end Classes

section Sections

variable {service : Json} {key type libName : String}
variable {load : Json → String → String → Except Json.Throw (Option (List β))}

theorem loadSection_object {members : List (String × Json)} (hMember : service.member key = some (.object members)) :
    loadSection service key type libName load =
      loadClasses type libName (load (.object members)) (members.map Prod.fst) := by
  have hMap := isMap_of_member hMember
  rw [loadSection, Json.isMember_eq hMap, Json.get_eq hMap, hMember]
  rfl

theorem loadSection_other (hMap : service.IsMap) (hOther : ∀ members, service.member key ≠ some (.object members)) :
    loadSection service key type libName load = .ok (some []) := by
  rw [loadSection, Json.isMember_eq hMap, Json.get_eq hMap]
  cases hMember : service.member key with
  | none => rfl
  | some v =>
    cases v with
    | object members => exact absurd hMember (hOther members)
    | null | bool b | int n | real x | string t | array elems => rfl

theorem instancesOf_object {members : List (String × Json)} (hMember : service.member key = some (.object members)) :
    instancesOf service key = (members.map Prod.fst).flatMap fun className =>
      ((members.lookup className).getD .null).elements.map fun inst => (className, inst) := by
  rw [instancesOf, hMember]

theorem instancesOf_other (hOther : ∀ members, service.member key ≠ some (.object members)) :
    instancesOf service key = [] := by
  rw [instancesOf]
  split
  · next members hMember => exact absurd hMember (hOther members)
  · rfl

theorem loadSection_ends {modName : String} {γ : Type} {create : String → String → Option γ}
    (hMod : modNameOf type libName = some modName) (hMap : service.IsMap)
    (hLoad : ∀ members className, Ends (load (.object members) modName className)
      (AllCreated o create (((members.lookup className).getD .null).elements.map fun inst => (className, inst)))
      (ListReadable o create (((members.lookup className).getD .null).elements.map fun inst => (className, inst)))) :
    Ends (loadSection service key type libName load) (AllCreated o create (instancesOf service key))
      (ListReadable o create (instancesOf service key)) := by
  by_cases hObject : ∃ members, service.member key = some (.object members)
  · obtain ⟨members, hMember⟩ := hObject
    rw [loadSection_object hMember, instancesOf_object hMember]
    exact loadClasses_ends o hMod (hLoad members) _
  · have hOther : ∀ members, service.member key ≠ some (.object members) := fun members h => hObject ⟨members, h⟩
    rw [loadSection_other hMap hOther, instancesOf_other hOther]
    exact (Ends.of_some []).congr (iff_of_true trivial (passed_nil _)) (iff_of_true trivial (fine_nil _ _))

theorem loadSection_unknown (hMod : modNameOf type libName = none) (hMap : service.IsMap) :
    loadSection service key type libName load = .ok none ∨
      loadSection service key type libName load = .ok (some []) := by
  by_cases hObject : ∃ members, service.member key = some (.object members)
  · obtain ⟨members, hMember⟩ := hObject
    rw [loadSection_object hMember]
    exact loadClasses_unknown hMod _
  · exact .inr (loadSection_other hMap fun members h => hObject ⟨members, h⟩)

end Sections

/-- What the loader needs to be able to read of the instances, where they are made by `modName`. -/
def InstancesReadable (m : ModManager κ) (modName : String) (service : Json) : Prop :=
  ListReadable o (m.createActorInst modName) (instancesOf service "actor") ∧
    (AllCreated o (m.createActorInst modName) (instancesOf service "actor") →
      ListReadable o (m.createWorkerInst modName) (instancesOf service "worker"))

theorem loadInstances_eq (m : ModManager κ) (type libName : String) (service : Json) :
    m.loadInstances o type libName service =
      (loadSection service "actor" type libName fun list modName className =>
        m.loadActors o modName className list).bind fun found =>
          found.elim (.ok none) fun actors =>
            (loadSection service "worker" type libName fun list modName className =>
              m.loadWorkers o modName className list).map fun found => found.map fun workers => (actors, workers) := by
  rw [loadInstances]
  cases loadSection service "actor" type libName fun list modName className =>
      m.loadActors o modName className list with
  | error e => rfl
  | ok found =>
    cases found with
    | none => rfl
    | some actors =>
      simp only [bind, Except.bind, Option.elim_some]
      cases loadSection service "worker" type libName fun list modName className =>
          m.loadWorkers o modName className list with
      | error e => rfl
      | ok found =>
        cases found with
        | none => rfl
        | some workers => rfl

theorem loadInstances_ends {m : ModManager κ} {type libName modName : String} {service : Json}
    (hMod : modNameOf type libName = some modName) (hMap : service.IsMap) :
    Ends (m.loadInstances o type libName service)
      (AllCreated o (m.createActorInst modName) (instancesOf service "actor") ∧
        AllCreated o (m.createWorkerInst modName) (instancesOf service "worker"))
      (m.InstancesReadable o modName service) := by
  have hActors : Ends (loadSection service "actor" type libName fun list modName className =>
      m.loadActors o modName className list) (AllCreated o (m.createActorInst modName) (instancesOf service "actor"))
      (ListReadable o (m.createActorInst modName) (instancesOf service "actor")) :=
    loadSection_ends o hMod hMap fun members className => loadInsts_ends o (m.createActorInst modName) className _
  have hWorkers : Ends (loadSection service "worker" type libName fun list modName className =>
      m.loadWorkers o modName className list) (AllCreated o (m.createWorkerInst modName) (instancesOf service "worker"))
      (ListReadable o (m.createWorkerInst modName) (instancesOf service "worker")) :=
    loadSection_ends o hMod hMap fun members className => loadInsts_ends o (m.createWorkerInst modName) className _
  rw [InstancesReadable, loadInstances_eq]
  exact hActors.andThen fun actors => hWorkers.map fun workers => (actors, workers)

theorem loadInstances_unknown {m : ModManager κ} {type libName : String} {service : Json}
    (hMod : modNameOf type libName = none) (hMap : service.IsMap) :
    m.loadInstances o type libName service = .ok none ∨
      m.loadInstances o type libName service = .ok (some ([], [])) := by
  rw [loadInstances_eq]
  obtain hActors | hActors : loadSection service "actor" type libName (fun list modName className =>
      m.loadActors o modName className list) = .ok none ∨ loadSection service "actor" type libName
      (fun list modName className => m.loadActors o modName className list) = .ok (some []) :=
    loadSection_unknown hMod hMap
  · rw [hActors]
    exact .inl rfl
  · rw [hActors]
    obtain hWorkers | hWorkers : loadSection service "worker" type libName (fun list modName className =>
        m.loadWorkers o modName className list) = .ok none ∨ loadSection service "worker" type libName
        (fun list modName className => m.loadWorkers o modName className list) = .ok (some []) :=
      loadSection_unknown hMod hMap
    · rw [hWorkers]
      exact .inl rfl
    · rw [hWorkers]
      exact .inr rfl

theorem member_of_get {service : Json} {key : String} {members : List (String × Json)}
    (h : service.get key = .ok (.object members)) : service.member key = some (.object members) := by
  by_cases hMap : service.IsMap
  · rw [Json.get_eq hMap] at h
    cases hMember : service.member key with
    | none =>
      rw [hMember] at h
      cases h
    | some v =>
      rw [hMember] at h
      exact congrArg some (Except.ok.inj h)
  · rw [Json.get_error hMap] at h
    cases h

/-- What is loaded are the instances, in their order, with what their classes have made. -/
theorem loadSection_created (create : String → String → Option β) {service : Json} {key type libName modName : String}
    {load : Json → String → String → Except Json.Throw (Option (List (Json × β)))}
    (hMod : modNameOf type libName = some modName)
    (hLoad : ∀ members className, load (.object members) modName className =
      loadInsts o (create className) ((members.lookup className).getD .null).elements)
    {xs : List (Json × β)} (h : loadSection service key type libName load = .ok (some xs)) :
    xs.map (fun x => (x.1, some x.2)) =
      (instancesOf service key).map fun y => (y.2, create y.1 (instanceName o y.2)) := by
  obtain ⟨members, hGet, hClasses⟩ | ⟨rfl, hOther⟩ := loadSection_spec h
  · rw [instancesOf_object (member_of_get hGet), List.map_flatMap]
    refine loadClasses_spec (fun modName' hMod' className ys hYs => ?_) hClasses
    obtain rfl : modName = modName' := Option.some.inj (hMod.symm.trans hMod')
    rw [hLoad] at hYs
    obtain ⟨hFst, hCreated⟩ := loadInsts_spec o hYs
    rw [← hFst, List.map_map, List.map_map]
    refine List.map_congr_left fun y hy => ?_
    rw [Function.comp_apply, Function.comp_apply, hCreated y hy]
  · rw [instancesOf_other fun members hMember => hOther members ?_]
    · rfl
    · rw [Json.get_eq (isMap_of_member hMember), hMember]
      rfl

/-- What comes of the instances, actors and workers. -/
theorem loadInstances_created {m : ModManager κ} {type libName modName : String} {service : Json}
    {actors : List (Json × Actor κ)} {workers : List (Json × Worker)} (hMod : modNameOf type libName = some modName)
    (h : m.loadInstances o type libName service = .ok (some (actors, workers))) :
    actors.map (fun x => (x.1, some x.2)) =
        (instancesOf service "actor").map (fun y => (y.2, m.createActorInst modName y.1 (instanceName o y.2))) ∧
      workers.map (fun x => (x.1, some x.2)) =
        (instancesOf service "worker").map fun y => (y.2, m.createWorkerInst modName y.1 (instanceName o y.2)) := by
  obtain ⟨found, hActors, h⟩ := Json.bind_ok_iff.mp h
  cases found with
  | none => cases h
  | some actors' =>
    obtain ⟨found', hWorkers, h⟩ := Json.bind_ok_iff.mp h
    cases found' with
    | none => cases h
    | some workers' =>
      cases h
      constructor
      · exact loadSection_created o (m.createActorInst modName) hMod (fun _ _ => rfl) hActors
      · exact loadSection_created o (m.createWorkerInst modName) hMod (fun _ _ => rfl) hWorkers

theorem isMap_of_created {β : Type} {create : String → String → Option β} {insts : List (String × Json)}
    (h : AllCreated o create insts) : ∀ x ∈ insts, x.2.IsMap := by
  intro x hx
  obtain ⟨⟨v, hName, -⟩, -⟩ := passed_const.mp h x hx
  exact isMap_of_member hName

theorem isMap_of_made {insts : List (String × Json)} (hMap : ∀ y ∈ insts, y.2.IsMap) {xs : List (Json × β)}
    {made : String × Json → Option β} (h : xs.map (fun x => (x.1, some x.2)) = insts.map fun y => (y.2, made y)) :
    ∀ x ∈ xs, x.1.IsMap := by
  intro x hx
  have hMem : (x.1, some x.2) ∈ insts.map fun y => (y.2, made y) := h ▸ List.mem_map_of_mem hx
  obtain ⟨y, hy, hSame⟩ := List.mem_map.mp hMem
  obtain ⟨hInst, -⟩ := Prod.mk.inj hSame
  rw [← hInst]
  exact hMap y hy

theorem stringMember_cases {service : Json} (hMap : service.IsMap) (key : String) :
    (∃ text, service.member key = some (.string text) ∧ stringMember o service key = .ok (some text)) ∨
      (∀ text, service.member key ≠ some (.string text)) ∧ stringMember o service key = .ok none := by
  rw [stringMember, Json.isMember_eq hMap, Json.get_eq hMap]
  cases service.member key with
  | none => exact .inr ⟨by rintro text ⟨⟩, rfl⟩
  | some v =>
    cases v with
    | string text => exact .inl ⟨text, rfl, rfl⟩
    | null | bool b | int n | real x | array elems | object members => exact .inr ⟨by rintro text ⟨⟩, rfl⟩

/-- The instances of the service are made by `modName`, as the libraries then are. -/
def MadeBy (m : ModManager κ) (libDir : String) (service : Json) (m' : ModManager κ) (modName : String) : Prop :=
  (∃ lib, service.member "type" = some (.string "library") ∧ service.member "lib" = some (.string lib) ∧
      modName = getLibName lib ∧ m.loadMod o (joinPath libDir modName) = (m', true)) ∨
    service.member "type" = some (.string "class") ∧ modName = "class" ∧ m' = m

theorem madeBy_library {m m' : ModManager κ} {libDir modName : String} {service : Json}
    (hType : service.member "type" = some (.string "library")) :
    m.MadeBy o libDir service m' modName ↔ ∃ lib, service.member "lib" = some (.string lib) ∧
      modName = getLibName lib ∧ m.loadMod o (joinPath libDir modName) = (m', true) := by
  rw [MadeBy, hType]
  simp

theorem madeBy_class {m m' : ModManager κ} {libDir modName : String} {service : Json}
    (hType : service.member "type" = some (.string "class")) :
    m.MadeBy o libDir service m' modName ↔ modName = "class" ∧ m' = m := by
  rw [MadeBy, hType]
  simp

variable {o} in
theorem MadeBy.type {m m' : ModManager κ} {libDir modName : String} {service : Json}
    (h : m.MadeBy o libDir service m' modName) :
    service.member "type" = some (.string "library") ∨ service.member "type" = some (.string "class") := by
  obtain ⟨lib, hType, -⟩ | ⟨hType, -⟩ := h
  · exact .inl hType
  · exact .inr hType

variable {o} in
theorem MadeBy.unique {m m₁ m₂ : ModManager κ} {libDir modName₁ modName₂ : String} {service : Json}
    (h₁ : m.MadeBy o libDir service m₁ modName₁) (h₂ : m.MadeBy o libDir service m₂ modName₂) :
    m₁ = m₂ ∧ modName₁ = modName₂ := by
  obtain hType | hType := h₁.type
  · obtain ⟨lib, hLib, rfl, hLoad⟩ := (madeBy_library o hType).mp h₁
    obtain ⟨lib', hLib', rfl, hLoad'⟩ := (madeBy_library o hType).mp h₂
    rw [hLib] at hLib'
    cases hLib'
    rw [hLoad] at hLoad'
    cases hLoad'
    exact ⟨rfl, rfl⟩
  · obtain ⟨rfl, rfl⟩ := (madeBy_class o hType).mp h₁
    obtain ⟨rfl, rfl⟩ := (madeBy_class o hType).mp h₂
    exact ⟨rfl, rfl⟩

theorem loadService_error {m : ModManager κ} {libDir : String} {service : Json} (hMap : ¬service.IsMap) :
    (m.loadService o libDir service).2 = .error .logicError := by
  have hThrows : serviceType o service = .error .logicError := by
    rw [serviceType, stringMember, Json.isMember_error hMap]
    cases service with
    | null | object members => exact absurd trivial hMap
    | bool b | int n | real x | string t | array elems => rfl
  rw [loadService, hThrows]

theorem serviceType_none {service : Json} (hMap : service.IsMap)
    (hNone : ∀ type, service.member "type" ≠ some (.string type)) : serviceType o service = .ok none := by
  obtain ⟨type, hType, -⟩ | ⟨-, hRead⟩ := stringMember_cases o hMap "type"
  · exact absurd hType (hNone type)
  · rw [serviceType, hRead]
    cases service with
    | null | object members => rfl
    | bool b | int n | real x | string t | array elems => exact absurd hMap not_false

theorem serviceType_some {service : Json} {type : String} (hType : service.member "type" = some (.string type)) :
    serviceType o service =
      if type = "library" then
        (stringMember o service "lib").map fun found => found.map fun lib => (type, some (getLibName lib))
      else .ok (some (type, none)) := by
  obtain ⟨type', hType', hRead⟩ | ⟨hNone, -⟩ := stringMember_cases o (isMap_of_member hType) "type"
  · obtain rfl : type = type' := Json.string.inj (Option.some.inj (hType.symm.trans hType'))
    have hNull : service.isNull = false := by
      cases service with
      | object members => rfl
      | null | bool b | int n | real x | string t | array elems => cases hType
    rw [serviceType, hNull, hRead]
    change (if type = "library" then _ else _) = _
    split
    · cases stringMember o service "lib" with
      | error e => rfl
      | ok found => rfl
    · rfl
  · exact absurd hType (hNone type)

theorem modNameOf_eq_none {type libName : String} (hLibrary : type ≠ "library") (hClass : type ≠ "class") :
    modNameOf type libName = none := by
  rw [modNameOf, if_neg hLibrary, if_neg hClass]

/-- Either the instances are made by something, or none of them is looked at. -/
theorem loadService_cases (m : ModManager κ) (libDir : String) {service : Json} (hMap : service.IsMap) :
    (∃ m' type libName modName, m.MadeBy o libDir service m' modName ∧ modNameOf type libName = some modName ∧
        m.loadService o libDir service = (m', m'.loadInstances o type libName service)) ∨
      (∀ m' modName, ¬m.MadeBy o libDir service m' modName) ∧
        ((m.loadService o libDir service).2 = .ok none ∨
          (m.loadService o libDir service).2 = .ok (some ([], []))) := by
  rw [loadService]
  by_cases hString : ∃ type, service.member "type" = some (.string type)
  · obtain ⟨type, hType⟩ := hString
    rw [serviceType_some o hType]
    by_cases hLibrary : type = "library"
    · subst hLibrary
      rw [if_pos rfl]
      simp only [madeBy_library o hType]
      obtain ⟨lib, hLib, hRead⟩ | ⟨hNoLib, hRead⟩ := stringMember_cases o hMap "lib"
      · rw [hRead]
        simp only [Except.map, Option.map_some]
        cases hLoad : m.loadMod o (joinPath libDir (getLibName lib)) with
        | mk m' loaded =>
          cases loaded with
          | true =>
            left
            exact ⟨m', "library", getLibName lib, getLibName lib, ⟨lib, hLib, rfl, hLoad⟩, rfl, rfl⟩
          | false =>
            right
            constructor
            · rintro m' modName ⟨lib', hLib', rfl, hLoad'⟩
              obtain rfl := Json.string.inj (Option.some.inj (hLib.symm.trans hLib'))
              rw [hLoad] at hLoad'
              cases hLoad'
            · exact .inl rfl
      · right
        rw [hRead]
        constructor
        · rintro m' modName ⟨lib, hLib, -⟩
          exact hNoLib lib hLib
        · exact .inl rfl
    · rw [if_neg hLibrary]
      by_cases hClass : type = "class"
      · left
        subst hClass
        exact ⟨m, "class", "", "class", (madeBy_class o hType).mpr ⟨rfl, rfl⟩, rfl, rfl⟩
      · right
        constructor
        · intro m' modName h
          obtain hType' | hType' := h.type
          · exact hLibrary (Json.string.inj (Option.some.inj (hType.symm.trans hType')))
          · exact hClass (Json.string.inj (Option.some.inj (hType.symm.trans hType')))
        · exact loadInstances_unknown o (modNameOf_eq_none hLibrary hClass) hMap
  · right
    rw [serviceType_none o hMap fun type hType => hString ⟨type, hType⟩]
    constructor
    · intro m' modName h
      obtain hType | hType := h.type
      · exact hString ⟨_, hType⟩
      · exact hString ⟨_, hType⟩
    · exact .inl rfl

end ModManager
end Myframe
