import Myframe.Library.Transition
import Myframe.Common
import Myframe.EventManager

/-! # Workers and connections in the register of events

Handles come from the command channel of each event: a new event may have any handle that no living
event has. Calls of `AddWorker` that the check of `state_` refuses change nothing and are left out.
-/
namespace Myframe
set_option autoImplicit false

inductive Event where
  | worker (typeName instName : String)
  | conn (i : ℕ)
  deriving DecidableEq, Repr

namespace Event

def getWorkerName (typeName instName : String) : String := Common.address "worker" typeName instName

def getName : Event → String
  | worker typeName instName => getWorkerName typeName instName
  | conn i => "event.conn." ++ toString i

def isWorker : Event → Bool
  | worker _ _ => true
  | conn _ => false

theorem getName_conn_injective {i j : ℕ} (h : (conn i).getName = (conn j).getName) : i = j :=
  Common.toString_injective ((String.append_right_inj _).mp h)

theorem getName_worker_ne_conn (typeName instName : String) (i : ℕ) :
    getWorkerName typeName instName ≠ (conn i).getName := by
  intro h
  have hChars := congrArg String.toList h
  simp [getWorkerName, getName, Common.address_toList, String.toList_append] at hChars

end Event

/-- `events` are the living event objects by their handles, `released` the connections that
`Release` has deleted and not yet put back. -/
structure Registry where
  evMgr : EventManager := {}
  events : ℕ → Option Event := fun _ => none
  idleConn : List ℕ := []
  released : List ℕ := []
  connSz : ℕ := 0
  nodeAddr : String := ""

namespace Registry

inductive Label where
  | addWorker (h : ℕ) (typeName instName : String)
  | addNodeActor (addr : String)
  | delWorker (h : ℕ)
  | addEventConn (h : ℕ)
  | alloc
  | release (h : ℕ)
  | store (h : ℕ)
  | destroy (h : ℕ)

def getName (s : Registry) (h : ℕ) : Option String := (s.events h).map Event.getName

/-- A second node is refused. -/
def accepts (s : Registry) (typeName : String) : Bool := typeName != "node" || s.nodeAddr == ""

def addWorker (s : Registry) (h : ℕ) (typeName instName : String) : Registry :=
  if s.accepts typeName = true then
    let name := Event.getWorkerName typeName instName
    let nodeAddr := if typeName = "node" then name else s.nodeAddr
    if s.evMgr.evs h = true then { s with nodeAddr := nodeAddr }
    else
      { s with
        nodeAddr := nodeAddr
        events := Function.update s.events h (some (.worker typeName instName))
        evMgr := s.evMgr.add h name }
  else s

def delWorker (s : Registry) (h : ℕ) : Registry :=
  match s.events h with
  | none => s
  | some ev => if s.evMgr.evs h = true then { s with evMgr := s.evMgr.del h ev.getName } else s

def addEventConn (s : Registry) (h : ℕ) : Registry :=
  { s with
    events := Function.update s.events h (some (.conn s.connSz))
    idleConn := s.idleConn ++ [h]
    connSz := s.connSz + 1 }

/-- `Alloc` when the list of idle connections is not empty; it makes one first where it is. -/
def alloc (s : Registry) : Registry :=
  match s.idleConn with
  | [] => s
  | h :: rest =>
    match s.events h with
    | none => s
    | some ev =>
      if s.evMgr.evs h = true then { s with idleConn := rest }
      else { s with idleConn := rest, evMgr := s.evMgr.add h ev.getName }

def release (s : Registry) (h : ℕ) : Registry :=
  match s.events h with
  | none => s
  | some ev =>
    if s.evMgr.evs h = true then
      { s with evMgr := s.evMgr.del h ev.getName, released := s.released ++ [h] }
    else s

def next (s : Registry) : Label → Registry
  | .addWorker h typeName instName => s.addWorker h typeName instName
  | .addNodeActor addr => if s.nodeAddr = "" then { s with nodeAddr := addr } else s
  | .delWorker h => s.delWorker h
  | .addEventConn h => s.addEventConn h
  | .alloc => s.alloc
  | .release h => s.release h
  | .store h => { s with released := s.released.erase h, idleConn := s.idleConn ++ [h] }
  | .destroy h => { s with events := Function.update s.events h none }

def enabled (s : Registry) : Label → Prop
  | .addWorker h _ _ => s.events h = none
  | .addNodeActor _ => True
  | .delWorker h => (s.events h).any Event.isWorker = true
  | .addEventConn h => s.events h = none
  | .alloc => s.idleConn ≠ []
  | .release h => (s.events h).any (fun ev => !ev.isWorker) = true
  | .store h => h ∈ s.released
  | .destroy h => (s.events h).any Event.isWorker = true ∧ s.evMgr.evs h = false

def system : Transition.System Registry Label where
  enabled := enabled
  next := next

instance (s : Registry) (l : Label) : Decidable (system.enabled s l) :=
  match l with
  | .addWorker h _ _ => inferInstanceAs (Decidable (s.events h = none))
  | .addNodeActor _ => inferInstanceAs (Decidable True)
  | .delWorker h => inferInstanceAs (Decidable ((s.events h).any Event.isWorker = true))
  | .addEventConn h => inferInstanceAs (Decidable (s.events h = none))
  | .alloc => inferInstanceAs (Decidable (s.idleConn ≠ []))
  | .release h => inferInstanceAs (Decidable ((s.events h).any (fun ev => !ev.isWorker) = true))
  | .store h => inferInstanceAs (Decidable (h ∈ s.released))
  | .destroy h => inferInstanceAs (Decidable
      ((s.events h).any Event.isWorker = true ∧ s.evMgr.evs h = false))

/-- Each registered event is found by its own name, and each name belongs to a registered event. -/
def Bijective (s : Registry) : Prop := s.evMgr.Bijective s.getName

/-- No worker is registered under a name that a registered event has. -/
def Fresh (s : Registry) : Label → Prop
  | .addWorker _ typeName instName =>
    s.accepts typeName = true → s.evMgr.names (Event.getWorkerName typeName instName) = none
  | _ => True

instance (s : Registry) (l : Label) : Decidable (s.Fresh l) :=
  match l with
  | .addWorker _ typeName instName => inferInstanceAs (Decidable
      (s.accepts typeName = true → s.evMgr.names (Event.getWorkerName typeName instName) = none))
  | .addNodeActor _ | .delWorker _ | .addEventConn _ | .alloc | .release _ | .store _ | .destroy _ =>
    inferInstanceAs (Decidable True)

/-- Connections have numbers of their own, so their names cannot collide. -/
structure Numbered (s : Registry) : Prop where
  lt : ∀ h i, s.events h = some (.conn i) → i < s.connSz
  unique : ∀ h h' i, s.events h = some (.conn i) → s.events h' = some (.conn i) → h = h'
  idle : ∀ h ∈ s.idleConn ++ s.released, ∃ i, s.events h = some (.conn i)
  living : ∀ h, s.evMgr.evs h = true → s.events h ≠ none

theorem Numbered.congr {s t : Registry} (hN : s.Numbered) (hSz : t.connSz = s.connSz)
    (hConn : ∀ h i, t.events h = some (.conn i) ↔ s.events h = some (.conn i))
    (hIdle : ∀ h ∈ t.idleConn ++ t.released, h ∈ s.idleConn ++ s.released)
    (hLiving : ∀ h, t.evMgr.evs h = true → t.events h ≠ none) : t.Numbered where
  lt h i hEv := by
    rw [hSz]
    exact hN.lt h i ((hConn h i).mp hEv)
  unique h h' i hEv hEv' := hN.unique h h' i ((hConn h i).mp hEv) ((hConn h' i).mp hEv')
  idle h hMem := by
    obtain ⟨i, hEv⟩ := hN.idle h (hIdle h hMem)
    exact ⟨i, (hConn h i).mpr hEv⟩
  living := hLiving

theorem Numbered.free {s : Registry} (hN : s.Numbered) {h : ℕ} (hNone : s.events h = none) :
    s.evMgr.evs h = false := by
  rw [Bool.eq_false_iff]
  exact fun hReg => hN.living h hReg hNone

theorem addWorker_eq {s : Registry} {h : ℕ} {typeName instName : String}
    (hAcc : s.accepts typeName = true) (hFree : s.evMgr.evs h = false) :
    s.addWorker h typeName instName =
      { s with
        nodeAddr := if typeName = "node" then Event.getWorkerName typeName instName else s.nodeAddr
        events := Function.update s.events h (some (.worker typeName instName))
        evMgr := s.evMgr.add h (Event.getWorkerName typeName instName) } := by
  simp [addWorker, hAcc, hFree]

theorem addWorker_refused {s : Registry} {h : ℕ} {typeName instName : String}
    (hAcc : s.accepts typeName ≠ true) : s.addWorker h typeName instName = s := if_neg hAcc

theorem Numbered.addWorker {s : Registry} (hN : s.Numbered) {h : ℕ} (typeName instName : String)
    (hNone : s.events h = none) : (s.addWorker h typeName instName).Numbered := by
  by_cases hAcc : s.accepts typeName = true
  · rw [addWorker_eq hAcc (hN.free hNone)]
    refine hN.congr rfl (fun h' i => ?_) (fun _ hMem => hMem) fun h' hReg => ?_
    · obtain rfl | hNe := eq_or_ne h' h
      · simp [hNone]
      · simp [hNe]
    · obtain rfl | hNe := eq_or_ne h' h
      · simp
      · simp only [EventManager.add_evs, Function.update_of_ne hNe] at hReg ⊢
        exact hN.living h' hReg
  · rw [addWorker_refused hAcc]
    exact hN

theorem Numbered.delWorker {s : Registry} (hN : s.Numbered) (h : ℕ) : (s.delWorker h).Numbered := by
  rw [Registry.delWorker]
  split
  · exact hN
  · split
    · refine hN.congr rfl (fun _ _ => Iff.rfl) (fun _ hMem => hMem) fun h' hReg => ?_
      rw [EventManager.del_evs, Function.update_apply] at hReg
      split at hReg
      · cases hReg
      · exact hN.living h' hReg
    · exact hN

theorem Numbered.addEventConn {s : Registry} (hN : s.Numbered) {h : ℕ} (hNone : s.events h = none) :
    (s.addEventConn h).Numbered := by
  have hEv : ∀ h' i, (s.addEventConn h).events h' = some (.conn i) →
      h' = h ∧ i = s.connSz ∨ s.events h' = some (.conn i) := by
    intro h' i hEv
    simp only [Registry.addEventConn, Function.update_apply] at hEv
    split at hEv
    · next hEq =>
      cases hEv
      exact .inl ⟨hEq, rfl⟩
    · exact .inr hEv
  refine ⟨fun h' i hEv' => ?_, fun h' h'' i hEv' hEv'' => ?_, fun h' hMem => ?_, fun h' hReg => ?_⟩
  · obtain ⟨-, rfl⟩ | hOld := hEv h' i hEv'
    · exact Nat.lt_succ_self _
    · exact Nat.lt_succ_of_lt (hN.lt h' i hOld)
  · obtain ⟨rfl, rfl⟩ | hOld := hEv h' i hEv'
    · obtain ⟨rfl, -⟩ | hOld' := hEv h'' _ hEv''
      · rfl
      · exact absurd (hN.lt _ _ hOld') (lt_irrefl _)
    · obtain ⟨rfl, rfl⟩ | hOld' := hEv h'' i hEv''
      · exact absurd (hN.lt _ _ hOld) (lt_irrefl _)
      · exact hN.unique h' h'' i hOld hOld'
  · obtain rfl | hNe := eq_or_ne h' h
    · exact ⟨s.connSz, Function.update_self ..⟩
    · have hOld : h' ∈ s.idleConn ++ s.released := by
        simpa [Registry.addEventConn, hNe] using hMem
      obtain ⟨i, hEv'⟩ := hN.idle h' hOld
      exact ⟨i, (Function.update_of_ne hNe ..).trans hEv'⟩
  · have hNe : h' ≠ h := by
      rintro rfl
      exact hN.living h' hReg hNone
    simp only [Registry.addEventConn, Function.update_of_ne hNe]
    exact hN.living h' hReg

theorem Numbered.alloc {s : Registry} (hN : s.Numbered) : s.alloc.Numbered := by
  rw [Registry.alloc]
  split
  · exact hN
  · next h rest hIdle =>
    have hSub : ∀ h' ∈ rest ++ s.released, h' ∈ s.idleConn ++ s.released := by
      intro h' hMem
      rw [hIdle]
      exact List.mem_cons_of_mem _ hMem
    split
    · exact hN
    · next ev hEv =>
      split
      · exact hN.congr rfl (fun _ _ => Iff.rfl) hSub hN.living
      · refine hN.congr rfl (fun _ _ => Iff.rfl) hSub fun h' hReg => ?_
        obtain rfl | hNe := eq_or_ne h' h
        · simp [hEv]
        · rw [EventManager.add_evs, Function.update_of_ne hNe] at hReg
          exact hN.living h' hReg

theorem Numbered.release {s : Registry} (hN : s.Numbered) {h : ℕ}
    (hConn : (s.events h).any (fun ev => !ev.isWorker) = true) : (s.release h).Numbered := by
  rw [Registry.release]
  split
  · exact hN
  · next ev hEv =>
    split
    · refine ⟨hN.lt, hN.unique, fun h' hMem => ?_, fun h' hReg => ?_⟩
      · obtain hMem | rfl : h' ∈ s.idleConn ++ s.released ∨ h' = h := by
          simpa [or_assoc] using hMem
        · exact hN.idle h' hMem
        · rw [hEv] at hConn
          cases ev with
          | worker => cases hConn
          | conn i => exact ⟨i, hEv⟩
      · rw [EventManager.del_evs, Function.update_apply] at hReg
        split at hReg
        · cases hReg
        · exact hN.living h' hReg
    · exact hN

theorem Numbered.next {s : Registry} (hN : s.Numbered) (l : Label) (hEn : s.enabled l) :
    (s.next l).Numbered := by
  cases l with
  | addWorker h typeName instName => exact hN.addWorker typeName instName hEn
  | addNodeActor addr =>
    rw [Registry.next]
    split
    · exact ⟨hN.lt, hN.unique, hN.idle, hN.living⟩
    · exact hN
  | delWorker h => exact hN.delWorker h
  | addEventConn h => exact hN.addEventConn hEn
  | alloc => exact hN.alloc
  | release h => exact hN.release hEn
  | store h =>
    refine hN.congr rfl (fun _ _ => Iff.rfl) (fun h' hMem => ?_) hN.living
    simp only [Registry.next, List.mem_append, List.mem_singleton] at hMem ⊢
    obtain (hMem | rfl) | hMem := hMem
    · exact .inl hMem
    · exact .inr hEn
    · exact .inr (List.mem_of_mem_erase hMem)
  | destroy h =>
    obtain ⟨hWorker, hFree⟩ := hEn
    refine hN.congr rfl (fun h' i => ?_) (fun _ hMem => hMem) fun h' hReg => ?_
    · obtain rfl | hNe := eq_or_ne h' h
      · simp only [Registry.next, Function.update_self]
        refine ⟨fun hEv => (by cases hEv), fun hEv => ?_⟩
        rw [hEv] at hWorker
        cases hWorker
      · simp only [Registry.next, Function.update_of_ne hNe]
    · have hNe : h' ≠ h := by
        rintro rfl
        exact Bool.false_ne_true (hFree.symm.trans hReg)
      simp only [Registry.next, Function.update_of_ne hNe]
      exact hN.living h' hReg

theorem bijective_addWorker_iff {s : Registry} (hN : s.Numbered) (hB : s.Bijective) {h : ℕ}
    {typeName instName : String} (hNone : s.events h = none) :
    (s.addWorker h typeName instName).Bijective ↔ s.Fresh (.addWorker h typeName instName) := by
  by_cases hAcc : s.accepts typeName = true
  · have hFree : s.evMgr.evs h = false := hN.free hNone
    rw [addWorker_eq hAcc hFree, Fresh, forall_prop_of_true hAcc]
    refine EventManager.add_bijective_iff (hB.congr fun h' hReg => ?_) hFree ?_
    · have hNe : h' ≠ h := by
        rintro rfl
        exact Bool.false_ne_true (hFree.symm.trans hReg)
      simp only [getName, Function.update_of_ne hNe]
    · simp [getName, Event.getName]
  · rw [addWorker_refused hAcc, Fresh]
    exact ⟨fun _ h => absurd h hAcc, fun _ => hB⟩

theorem Bijective.delWorker {s : Registry} (hB : s.Bijective) (h : ℕ) : (s.delWorker h).Bijective := by
  rw [Registry.delWorker]
  split
  · exact hB
  · next ev hEv =>
    split
    · next hReg => exact hB.del hReg (by rw [getName, hEv]; rfl)
    · exact hB

theorem Bijective.release {s : Registry} (hB : s.Bijective) (h : ℕ) : (s.release h).Bijective := by
  rw [Registry.release]
  split
  · exact hB
  · next ev hEv =>
    split
    · next hReg => exact hB.del hReg (by rw [getName, hEv]; rfl)
    · exact hB

theorem names_conn {s : Registry} (hN : s.Numbered) (hB : s.Bijective) {h i : ℕ}
    (hEv : s.events h = some (.conn i)) (hFree : s.evMgr.evs h = false) :
    s.evMgr.names (Event.conn i).getName = none := by
  rw [Option.eq_none_iff_forall_not_mem]
  intro h' hName
  obtain ⟨hReg, hOf⟩ := hB.named _ h' hName
  obtain ⟨ev, hEv', hSame⟩ := Option.map_eq_some_iff.mp hOf
  cases ev with
  | worker typeName instName => exact Event.getName_worker_ne_conn typeName instName i hSame
  | conn j =>
    obtain rfl := Event.getName_conn_injective hSame
    obtain rfl := hN.unique h h' j hEv hEv'
    exact Bool.false_ne_true (hFree.symm.trans hReg)

theorem Bijective.alloc {s : Registry} (hN : s.Numbered) (hB : s.Bijective) : s.alloc.Bijective := by
  rw [Registry.alloc]
  split
  · exact hB
  · next h rest hIdle =>
    obtain ⟨i, hConn⟩ := hN.idle h (by rw [hIdle]; exact List.mem_cons_self)
    split
    · exact hB
    · next ev hEv =>
      obtain rfl : ev = .conn i := Option.some.inj (hEv.symm.trans hConn)
      split
      · exact hB
      · next hReg =>
        have hFree : s.evMgr.evs h = false := Bool.eq_false_iff.mpr hReg
        exact (EventManager.add_bijective_iff hB hFree (by rw [getName, hEv]; rfl)).mpr
          (names_conn hN hB hConn hFree)

theorem Bijective.events_congr {s t : Registry} (hB : s.Bijective) (hMgr : t.evMgr = s.evMgr)
    (hEv : ∀ h, s.evMgr.evs h = true → t.events h = s.events h) : t.Bijective := by
  rw [Registry.Bijective, hMgr]
  exact EventManager.Bijective.congr hB fun h hReg => by rw [getName, getName, hEv h hReg]

theorem bijective_next_iff {s : Registry} (hN : s.Numbered) (hB : s.Bijective) (l : Label)
    (hEn : s.enabled l) : (s.next l).Bijective ↔ s.Fresh l := by
  cases l with
  | addWorker h typeName instName => exact bijective_addWorker_iff hN hB hEn
  | addNodeActor addr =>
    refine iff_of_true ?_ trivial
    rw [Registry.next]
    split
    · exact hB
    · exact hB
  | delWorker h => exact iff_of_true (hB.delWorker h) trivial
  | addEventConn h =>
    refine iff_of_true (hB.events_congr rfl fun h' hReg => ?_) trivial
    have hNe : h' ≠ h := by
      rintro rfl
      exact hN.living h' hReg hEn
    exact Function.update_of_ne hNe ..
  | alloc => exact iff_of_true (Bijective.alloc hN hB) trivial
  | release h => exact iff_of_true (hB.release h) trivial
  | store h => exact iff_of_true hB trivial
  | destroy h =>
    refine iff_of_true (hB.events_congr rfl fun h' hReg => ?_) trivial
    have hNe : h' ≠ h := by
      rintro rfl
      exact Bool.false_ne_true (hEn.2.symm.trans hReg)
    exact Function.update_of_ne hNe ..

theorem numbered_initial : Numbered {} where
  lt _ _ hEv := by cases hEv
  unique _ _ _ hEv := by cases hEv
  idle _ hMem := by cases hMem
  living _ hReg := by cases hReg

theorem bijective_initial : Bijective {} where
  named _ _ hName := by cases hName
  found _ hReg := by cases hReg

/-- Along a run the two indexes agree just as long as every worker comes with a name that no
registered event has. -/
theorem bijective_visited_iff (ls : List Label) (hRun : system.Runs {} ls) :
    (∀ t ∈ system.visited {} ls, t.Bijective) ↔ ∀ p ∈ system.steps {} ls, p.1.Fresh p.2 :=
  system.inv_visited_iff (fun _ l hN _ hEn _ => Numbered.next hN l hEn)
    (fun _ l hN hB hEn => bijective_next_iff hN hB l hEn) numbered_initial bijective_initial hRun

def twoNames : List Label :=
  [.addEventConn 0, .addWorker 1 "a" "b", .addWorker 2 "a" "c", .alloc, .delWorker 1, .addWorker 3 "a" "b",
    .release 0, .store 0]

theorem bijective_visited_twoNames : system.Runs {} twoNames ∧
    ∀ t ∈ system.visited {} twoNames, t.Bijective :=
  have hRun : system.Runs {} twoNames := by decide
  ⟨hRun, (bijective_visited_iff twoNames hRun).mpr (by decide)⟩

/-- Two workers of one name: the first can no longer be found, and deleting it takes the name from
the second, which keeps running. -/
def sameName : List Label := [.addWorker 1 "a" "b", .addWorker 2 "a" "b", .delWorker 1]

theorem sameName_not_bijective : system.Runs {} sameName ∧
    (system.exec {} sameName).evMgr.evs 2 = true ∧
    (system.exec {} sameName).evMgr.names "worker.a.b" = none ∧
    ¬ ∀ t ∈ system.visited {} sameName, t.Bijective := by
  refine ⟨by decide, by decide, by decide, fun hAll => ?_⟩
  have hB := hAll _ (system.mem_visited_of_exec {} sameName)
  obtain ⟨name, hOf, hName⟩ := hB.found 2 (by decide)
  obtain rfl : name = "worker.a.b" := Option.some.inj (hOf.symm.trans (by decide))
  have hNone : (system.exec {} sameName).evMgr.names "worker.a.b" = none := by decide
  exact Option.some_ne_none _ (hName.symm.trans hNone)

end Registry
end Myframe
