import Mathlib.Data.List.Infix
import Myframe.Scheduler.Serialized

/-! # Serial execution of an actor

What the turns give: with the actors in place before `Exec` every actor is serial; with actors added
at run time it is serial as long as `AddActor` does not interfere with a context that is running.
-/
namespace Myframe
set_option autoImplicit false
namespace Scheduler

variable {ι ω : Type} [DecidableEq ω]

/-- One worker at a time, with the flag up and the main loop away from the mailbox. -/
structure Serial (s : Scheduler ι ω) : Prop where
  one : ∀ w w' a, (s.worker w).executing = some a → (s.worker w').executing = some a → w = w'
  flag : ∀ w a, (s.worker w).executing = some a → s.inWorker a = true
  apart : ∀ w a, (s.worker w).executing = some a → s.main.touched ≠ some a

theorem Serialized.serial {s : Scheduler ι ω} (h : s.Serialized) : s.Serial where
  one w w' a hw hw' := h.unique w w' a (h.executing hw).1 (h.executing hw').1
  flag w a hw := by
    obtain ⟨hHeld, -, hServed⟩ := h.executing hw
    exact (h.held w a hHeld).resolve_right hServed
  apart w a hw := by
    obtain ⟨hHeld, -, hServed⟩ := h.executing hw
    intro hTouched
    cases hMain : s.main with
    | select w' b =>
      rw [hMain] at hTouched
      obtain rfl := Option.some.inj hTouched
      exact (h.chosen b (by rw [hMain]; rfl)).2 w hHeld
    | dispatch w' b =>
      rw [hMain] at hTouched
      obtain rfl := Option.some.inj hTouched
      have hServed' : s.main.served = some w' := by rw [hMain]; rfl
      obtain ⟨hRegistered, -⟩ := h.served w' hServed'
      have hHeld' : (s.worker w').held = some b := by
        rw [CommonWorker.held, if_pos hRegistered, h.dispatch w' b hMain]
      obtain rfl := h.unique w w' b hHeld hHeld'
      exact hServed hServed'
    | loop | check | front w' | assign w' b | requeue w' b | send w' | receive w' =>
      rw [hMain] at hTouched
      cases hTouched

variable [DecidableEq ι]

theorem main_box {s : Scheduler ι ω} (c : Setting ι) {l : Label ι ω} (hMain : l.IsMain) {a : ι}
    (hApart : s.main.touched ≠ some a) :
    ((s.next c l).box a).send = (s.box a).send ∧ ((s.next c l).box a).run = (s.box a).run := by
  cases l with
  | check => exact ⟨rfl, rfl⟩
  | event w =>
    simp only [next, event]
    split
    · exact ⟨rfl, rfl⟩
    · next b _ =>
      have hBox := setRuningFlag_box s a b false
      exact ⟨congrArg Mailbox.send hBox, congrArg Mailbox.run hBox⟩
  | arrive m =>
    obtain ⟨recv, hBox⟩ := deliver_box s c ⟨none, m⟩ a
    simp only [next, hBox, and_self]
  | main =>
    simp only [next, mainStep]
    split
    · exact ⟨rfl, rfl⟩
    · split <;> exact ⟨rfl, rfl⟩
    · have hBox := ActorContextManager.getContextWithMsg_mailbox s.actors a
      split <;> next hTake => rw [hTake] at hBox; exact ⟨congrArg Mailbox.send hBox, congrArg Mailbox.run hBox⟩
    · next w b hPc =>
      have hNe : a ≠ b := by
        rintro rfl
        exact hApart (by rw [hPc]; rfl)
      split
      · exact ⟨rfl, rfl⟩
      · have hBox : (s.mapBox b Mailbox.moveToRun).box a = s.box a := by rw [mapBox_box, if_neg hNe]
        exact ⟨congrArg Mailbox.send hBox, congrArg Mailbox.run hBox⟩
    · exact ⟨rfl, rfl⟩
    · next w b hPc =>
      split
      · exact ⟨rfl, rfl⟩
      · have hBox := ActorContextManager.pushContext_mailbox s.actors b a
        exact ⟨congrArg Mailbox.send hBox, congrArg Mailbox.run hBox⟩
    · exact ⟨rfl, rfl⟩
    · next w b hPc =>
      have hNe : a ≠ b := by
        rintro rfl
        exact hApart (by rw [hPc]; rfl)
      split
      · exact ⟨rfl, rfl⟩
      · obtain ⟨recv, hBox⟩ := dispatchOne_box s c hNe
        simp only [hBox, and_self]
    · split
      · exact ⟨rfl, rfl⟩
      · split <;> exact ⟨rfl, rfl⟩
  | worker w | post w m | setRunQueueSize w n | quit w | addInit b sent | addRegister b | addClear b
  | addDispatch b => exact hMain.elim

/-- With all actors added before `Exec`: in every state of every run an actor is serial, and no step
of the main loop changes the run or send queue of an actor that a worker executes. -/
theorem serial_execution (c : Setting ι) (ls : List (Label ι ω)) (hAdded : ∀ l ∈ ls, ¬ l.IsAdd)
    (hRuns : (system c).Runs (initial c) ls) :
    (∀ t ∈ (system c).visited (initial c) ls, t.Serial) ∧
      ∀ p ∈ (system c).steps (initial c) ls, p.2.IsMain →
        ∀ w a, (p.1.worker w).executing = some a →
          ((p.1.next c p.2).box a).run = (p.1.box a).run ∧
            ((p.1.next c p.2).box a).send = (p.1.box a).send := by
  obtain ⟨hVisited, hSteps⟩ := serialized_of_added hAdded hRuns
  refine ⟨fun t ht => (hVisited t ht).serial, fun p hp hMain w a hExec => ?_⟩
  exact (main_box c hMain ((hSteps p hp).1.serial.apart w a hExec)).symm

/-- One actor, two workers and a message. -/
def earlySetting : Setting Unit where
  actorName _ := "actor.a.1"
  ctxs name := if name = "actor.a.1" then some () else none

def helloMsg : Msg := { dst := "actor.a.1", type := "TEXT" }

def assignRun : List (Label Unit Bool) :=
  [.worker false, .worker true, .event false, .main, .event true, .main, .arrive helloMsg, .check, .main,
    .main, .main, .main, .main, .main, .main, .main, .worker false, .worker false]

theorem serial_execution_assigned :
    ((system earlySetting).exec (initial earlySetting) assignRun).Serial ∧
      (((system earlySetting).exec (initial earlySetting) assignRun).worker false).executing =
        some () := by
  obtain ⟨hSerial, -⟩ := serial_execution earlySetting assignRun (by decide) (by decide)
  exact ⟨hSerial _ ((system earlySetting).mem_visited_of_exec ..), by decide⟩

/-- A step lowers no flag but that of the context whose worker has an event processed, and that of
the context added. -/
theorem next_inWorker {s : Scheduler ι ω} (c : Setting ι) {l : Label ι ω} {a : ι}
    (hFlag : s.inWorker a = true) (hEvent : ∀ w, l = .event w → (s.worker w).context ≠ some a)
    (hAdd : l ≠ .addClear a) : (s.next c l).inWorker a = true := by
  cases l with
  | check => exact hFlag
  | event w =>
    simp only [next, event]
    split
    · exact hFlag
    · next b hContext =>
      have hNe : a ≠ b := by
        rintro rfl
        exact hEvent w rfl hContext
      simp only [inWorker, ActorContextManager.setRuningFlag, ActorContextManager.modify_heap, if_neg hNe]
      exact hFlag
  | arrive m => exact (deliver_inWorker s c _ a).trans hFlag
  | main =>
    simp only [next, mainStep]
    split
    · exact hFlag
    · split <;> exact hFlag
    · split
      · next hTake => rwa [inWorker, ActorContextManager.getContextWithMsg_none hTake]
      · next b hTake =>
        obtain ⟨-, -, -, hHeap⟩ := ActorContextManager.getContextWithMsg_some hTake
        rw [inWorker, hHeap]
        split
        · rfl
        · exact hFlag
    · split
      · exact hFlag
      · rwa [inWorker, mapBox, ActorContextManager.mapMailbox_heap]
    · exact hFlag
    · split
      · exact hFlag
      · rwa [inWorker, ActorContextManager.pushContext_inWorker]
    · exact hFlag
    · split
      · exact hFlag
      · exact (dispatchOne_inWorker s c _ a).trans hFlag
    · split
      · exact hFlag
      · split <;> exact hFlag
  | worker w =>
    obtain hSame | ⟨b, p, rest, -, -, hMap⟩ := workerStep_actors s w
    · rwa [inWorker, next, hSame]
    · rwa [inWorker, next, hMap, ActorContextManager.mapMailbox_heap]
  | post w m | setRunQueueSize w n =>
    obtain hSame | ⟨b, -, hMap⟩ := userStep_actors s w _
    · rwa [inWorker, next, hSame]
    · rwa [inWorker, next, hMap, ActorContextManager.mapMailbox_heap]
  | quit w => exact hFlag
  | addInit b sent =>
    simp only [next, addInit]
    split
    · exact hFlag
    · rwa [inWorker, mapBox, setAdder, ActorContextManager.mapMailbox_heap]
  | addRegister b =>
    simp only [next, ActorContextManager.add]
    split <;> exact hFlag
  | addClear b =>
    have hNe : a ≠ b := by
      rintro rfl
      exact hAdd rfl
    simp only [next, inWorker, ActorContextManager.setRuningFlag, ActorContextManager.modify_heap,
      if_neg hNe]
    exact hFlag
  | addDispatch b =>
    simp only [next, addDispatch]
    split
    · rwa [inWorker, mapBox, setAdder, ActorContextManager.mapMailbox_heap]
    · split
      · exact hFlag
      · exact (dispatchOne_inWorker s c b a).trans hFlag

theorem flag_kept {s : Scheduler ι ω} (h : s.Serialized) (c : Setting ι) {l : Label ι ω}
    (hEnabled : s.enabled l) (hApart : s.AddsApart l) {w : ω} {a : ι}
    (hExec : (s.worker w).executing = some a) : (s.next c l).inWorker a = true := by
  have hFlag := h.serial.flag w a hExec
  obtain ⟨hHeld, hToMain, -⟩ := h.executing hExec
  apply next_inWorker c hFlag
  · rintro w' rfl hContext
    obtain ⟨-, hRegistered, hNe⟩ := hEnabled
    have hHeld' : (s.worker w').held = some a := by
      rw [CommonWorker.held, if_pos hRegistered, hContext]
    obtain rfl := h.unique w w' a hHeld hHeld'
    exact hNe hToMain
  · rintro rfl
    cases hFlag.symm.trans hApart

theorem send_kept {s : Scheduler ι ω} (h : s.Serialized) (c : Setting ι) {l : Label ι ω}
    (hApart : s.AddsApart l) {w : ω} {a : ι} (hExec : (s.worker w).executing = some a) :
    (s.box a).send <+: ((s.next c l).box a).send := by
  have hFlag := h.serial.flag w a hExec
  have hMain : l.IsMain → (s.box a).send <+: ((s.next c l).box a).send := by
    intro hMain
    rw [(main_box c hMain (h.serial.apart w a hExec)).1]
  cases l with
  | check | event w' | arrive m | main => exact hMain trivial
  | worker w' =>
    obtain ⟨run, hBox⟩ := workerStep_box s w' a
    rw [next, hBox]
  | post w' m =>
    obtain hBox | ⟨-, hBox⟩ := userStep_box s w' (fun a b => b.push ⟨some a, m⟩) a
    · rw [next, hBox]
    · rw [next, hBox]
      exact List.prefix_append ..
  | setRunQueueSize w' n =>
    obtain hBox | ⟨-, hBox⟩ := userStep_box s w' (fun _ b => { b with runQueueSize := n }) a
    · rw [next, hBox]
    · rw [next, hBox]
  | quit w' => exact List.prefix_refl _
  | addInit b sent =>
    obtain ⟨more, hBox⟩ := addInit_box s c b sent a
    rw [next, hBox]
    exact List.prefix_append ..
  | addRegister b =>
    simp only [next, ActorContextManager.add]
    split <;> exact List.prefix_refl _
  | addClear b =>
    have hBox := setRuningFlag_box s a b false
    exact (congrArg Mailbox.send hBox).symm ▸ List.prefix_refl _
  | addDispatch b =>
    have hNe : a ≠ b := by
      rintro rfl
      cases hFlag.symm.trans hApart
    simp only [next, addDispatch]
    split
    · have hBox : (s.mapBox b fun x => { x with send := [] }).box a = s.box a := by
        rw [mapBox_box, if_neg hNe]
      exact (congrArg Mailbox.send hBox).symm ▸ List.prefix_refl _
    · split
      · exact List.prefix_refl _
      · obtain ⟨recv, hBox⟩ := dispatchOne_box s c hNe
        rw [hBox]

/-- Adding at run time: as long as `AddActor` clears the flag and drains the send queue of a context
only while its flag is down, no flag falls and no posted message leaves while a worker executes the
context, and no context is held by two workers. -/
theorem adding_serial (c : Setting ι) (ls : List (Label ι ω))
    (hRuns : (system c).Runs (initial c) ls)
    (hApart : ∀ p ∈ (system c).steps (initial c) ls, p.1.AddsApart p.2) :
    (∀ p ∈ (system c).steps (initial c) ls, ∀ w a, (p.1.worker w).executing = some a →
      p.1.inWorker a = true ∧ (p.1.next c p.2).inWorker a = true ∧
        (p.1.box a).send <+: ((p.1.next c p.2).box a).send) ∧
    ∀ t ∈ (system c).visited (initial c) ls, ∀ w w' a,
      (t.worker w).held = some a → (t.worker w').held = some a → w = w' := by
  obtain ⟨hVisited, hSteps⟩ := serialized_of_apart hRuns hApart
  refine ⟨fun p hp w a hExec => ?_, fun t ht => (hVisited t ht).unique⟩
  obtain ⟨hInv, hEnabled⟩ := hSteps p hp
  exact ⟨hInv.serial.flag w a hExec, flag_kept hInv c hEnabled (hApart p hp) hExec,
    send_kept hInv c (hApart p hp) hExec⟩

/-- The actor is added at run time, and two messages come. -/
def lateSetting : Setting Unit where
  actorName _ := "actor.a.1"
  present _ := false

def addFirst : List (Label Unit Bool) :=
  [.addInit () [], .addRegister (), .addClear (), .addDispatch (), .addDispatch ()]

theorem adding_serial_first :
    (((system lateSetting).exec (initial lateSetting) (addFirst ++ assignRun)).worker false).executing =
      some () ∧
    ∀ t ∈ (system lateSetting).visited (initial lateSetting) (addFirst ++ assignRun), ∀ w w' a,
      (t.worker w).held = some a → (t.worker w').held = some a → w = w' :=
  ⟨by decide, (adding_serial lateSetting (addFirst ++ assignRun) (by decide) (by decide)).2⟩

def lateBegin : List (Label Unit Bool) := [.addInit () [], .addRegister ()] ++ assignRun

def lateEnd : List (Label Unit Bool) :=
  [.addClear (), .arrive helloMsg, .check, .main, .main, .main, .main, .main, .main, .worker true]

def lateBegun : Scheduler Unit Bool := (system lateSetting).exec (initial lateSetting) lateBegin

def lateEnded : Scheduler Unit Bool := (system lateSetting).exec lateBegun lateEnd

/-- The flag falls while one worker executes the actor, and then two workers execute it. -/
theorem adding_two_workers :
    (system lateSetting).Runs (initial lateSetting) (lateBegin ++ lateEnd) ∧
      (lateBegun.worker false).executing = some () ∧
      (lateBegun.next lateSetting (.addClear ())).inWorker () = false ∧
      (lateEnded.worker false).executing = some () ∧
      (lateEnded.worker true).executing = some () := by
  decide

end Scheduler
end Myframe
