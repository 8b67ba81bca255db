import Myframe.Library.TurnQueue
import Myframe.Scheduler.Delivery
import Myframe.Scheduler.Serial
import Myframe.Scheduler.WaitQueue

/-! # No waiting actor is overtaken for long

The loop of `GetContextWithMsg` puts the running contexts it has passed over behind all others. So an
actor that waits and does not run is preceded only by those that stood ahead of it.
-/
namespace Myframe
set_option autoImplicit false
open TurnQueue

namespace ActorContextManager

variable {ι γ : Type} [DecidableEq ι]

theorem getContextWithMsg_move {s t : ActorContextManager ι γ} {found : Option ι}
    (h : s.getContextWithMsg = (t, found)) :
    Move (fun a => (s.heap a).inWorker = false) s.waitQueue found t.waitQueue := by
  cases found with
  | none =>
    rw [getContextWithMsg_none h]
    exact Move.rfl
  | some a =>
    rw [getContextWithMsg] at h
    cases hFound : (scan (fun b => (s.heap b).inWorker) s.waitQueue []).1 with
    | none => simp [hFound] at h
    | some b =>
      simp only [hFound, Prod.mk.injEq, Option.some.injEq] at h
      obtain ⟨rfl, rfl⟩ := h
      obtain ⟨skipped, rest, hSkipped, hQueue, hScan⟩ := scan_split hFound
      rw [hScan, hQueue, List.nil_append]
      exact Move.take (fun a ha => by rw [hSkipped a ha]; exact Bool.noConfusion) b rest

theorem getContextWithMsg_ne_none {s : ActorContextManager ι γ} {a : ι} (hMem : a ∈ s.waitQueue)
    (hFree : (s.heap a).inWorker = false) : (s.getContextWithMsg).2 ≠ none := by
  have hScan : (scan (fun b => (s.heap b).inWorker) s.waitQueue []).1 ≠ none := scan_ne_none hMem hFree
  rw [getContextWithMsg]
  cases hFound : (scan (fun b => (s.heap b).inWorker) s.waitQueue []).1 with
  | none => exact absurd hFound hScan
  | some b => simp [hFound]

theorem pushContext_waitQueue (s : ActorContextManager ι γ) (a : ι) :
    ∃ more, (s.pushContext a).waitQueue = s.waitQueue ++ more := by
  rw [pushContext]
  split
  · exact ⟨[], (List.append_nil _).symm⟩
  · exact ⟨[a], rfl⟩

theorem dispatchMsg_waitQueue (s : ActorContextManager ι γ) (name : String) (p : Parcel γ) :
    ∃ more, (s.dispatchMsg name p).waitQueue = s.waitQueue ++ more := by
  rw [dispatchMsg]
  split
  · exact ⟨[], (List.append_nil _).symm⟩
  · exact pushContext_waitQueue _ _

end ActorContextManager

namespace Scheduler

variable {ι ω : Type} [DecidableEq ι] [DecidableEq ω]

/-- The actor that the main loop takes from the wait queue. -/
def selected (s : Scheduler ι ω) : Label ι ω → Option ι
  | .main =>
    match s.main with
    | .front _ => s.actors.getContextWithMsg.2
    | _ => none
  | _ => none

omit [DecidableEq ω] in
theorem deliver_waitQueue (s : Scheduler ι ω) (c : Setting ι) (p : Parcel (Option ι)) :
    ∃ more, (s.deliver c p).actors.waitQueue = s.actors.waitQueue ++ more := by
  simp only [deliver]
  generalize ((s.directory c).dispatchMsg c.walk s.subs p.msg).2 = deliveries
  generalize s.actors = actors
  induction deliveries generalizing actors with
  | nil => exact ⟨[], (List.append_nil _).symm⟩
  | cons d ds ih =>
    rw [List.foldl_cons]
    cases d with
    | actor name =>
      obtain ⟨more, hRest⟩ := ih (actors.dispatchMsg name p)
      obtain ⟨first, hFirst⟩ := actors.dispatchMsg_waitQueue name p
      rw [deliverTo, hRest, hFirst, List.append_assoc]
      exact ⟨first ++ more, rfl⟩
    | worker name | conn name => exact ih actors

omit [DecidableEq ω] in
theorem dispatchOne_waitQueue (s : Scheduler ι ω) (c : Setting ι) (a : ι) :
    ∃ more, (s.dispatchOne c a).actors.waitQueue = s.actors.waitQueue ++ more := by
  rw [dispatchOne]
  split
  · exact ⟨[], (List.append_nil _).symm⟩
  · exact deliver_waitQueue _ c _

/-- A step that selects nobody adds to the end of the wait queue, if it changes it at all. -/
theorem next_move (s : Scheduler ι ω) (c : Setting ι) (l : Label ι ω) :
    Move (fun a => s.inWorker a = false) s.actors.waitQueue (s.selected l)
      (s.next c l).actors.waitQueue := by
  have hSame : Move (fun a => s.inWorker a = false) s.actors.waitQueue none s.actors.waitQueue :=
    Move.rfl
  have hJoin : ∀ queue : List ι, (∃ more, queue = s.actors.waitQueue ++ more) →
      Move (fun a => s.inWorker a = false) s.actors.waitQueue none queue := by
    rintro queue ⟨more, rfl⟩
    exact Move.join _ more
  cases l with
  | check | quit w => exact hSame
  | event w =>
    simp only [next, event]
    split <;> exact hSame
  | arrive m => exact hJoin _ (deliver_waitQueue s c _)
  | main =>
    simp only [next, mainStep, selected]
    cases hMain : s.main with
    | loop | assign w a | send w => exact hSame
    | check | select w a =>
      simp only
      split <;> exact hSame
    | front w =>
      simp only
      split <;> next hTake =>
        rw [hTake]
        exact ActorContextManager.getContextWithMsg_move hTake
    | requeue w a =>
      simp only
      split
      · exact hSame
      · exact hJoin _ (s.actors.pushContext_waitQueue a)
    | dispatch w a =>
      simp only
      split
      · exact hSame
      · exact hJoin _ (dispatchOne_waitQueue s c a)
    | receive w =>
      simp only
      split
      · exact hSame
      · split <;> exact hSame
  | worker w =>
    obtain hActors | ⟨b, p, rest, -, -, hActors⟩ := workerStep_actors s w
    · rw [next, hActors]
      exact hSame
    · rw [next, hActors]
      exact hSame
  | post w m | setRunQueueSize w n =>
    obtain hActors | ⟨b, -, hActors⟩ := userStep_actors s w _
    · rw [next, hActors]
      exact hSame
    · rw [next, hActors]
      exact hSame
  | addInit b sent =>
    simp only [next, addInit]
    split <;> exact hSame
  | addRegister b =>
    simp only [next, ActorContextManager.add]
    split <;> exact hSame
  | addClear b => exact hSame
  | addDispatch b =>
    simp only [next, addDispatch]
    split
    · exact hSame
    · split
      · exact hSame
      · exact hJoin _ (dispatchOne_waitQueue s c b)

/-- Only by being selected does an actor come to be marked as running. -/
theorem next_inWorker_false {s : Scheduler ι ω} (c : Setting ι) {l : Label ι ω} {a : ι}
    (hFlag : s.inWorker a = false) (hSelected : s.selected l ≠ some a) :
    (s.next c l).inWorker a = false := by
  have hDown : ∀ b, ({ s with actors := s.actors.setRuningFlag b false } : Scheduler ι ω).inWorker a = false := by
    intro b
    simp only [inWorker, ActorContextManager.setRuningFlag, ActorContextManager.modify_heap]
    split
    · rfl
    · exact hFlag
  cases l with
  | check | quit w => exact hFlag
  | event w =>
    simp only [next, event]
    split
    · exact hFlag
    · exact hDown _
  | arrive m => exact (deliver_inWorker s c _ a).trans hFlag
  | main =>
    simp only [next, mainStep, selected] at hSelected ⊢
    cases hMain : s.main with
    | loop | assign w b | send w => exact hFlag
    | check =>
      simp only
      split <;> exact hFlag
    | front w =>
      simp only [hMain] at hSelected ⊢
      split
      · next hTake => rwa [inWorker, ActorContextManager.getContextWithMsg_none hTake]
      · next b hTake =>
        obtain ⟨-, -, -, hHeap⟩ := ActorContextManager.getContextWithMsg_some hTake
        have hNe : a ≠ b := by
          rintro rfl
          exact hSelected (congrArg Prod.snd hTake)
        rwa [inWorker, hHeap, if_neg hNe]
    | select w b =>
      simp only
      split
      · exact hFlag
      · rwa [inWorker, mapBox, ActorContextManager.mapMailbox_heap]
    | requeue w b =>
      simp only
      split
      · exact hFlag
      · rwa [inWorker, ActorContextManager.pushContext_inWorker]
    | dispatch w b =>
      simp only
      split
      · exact hFlag
      · exact (dispatchOne_inWorker s c b a).trans hFlag
    | receive w =>
      simp only
      split
      · exact hFlag
      · split <;> exact hFlag
  | worker w =>
    obtain hSame | ⟨b, p, rest, -, -, hMap⟩ := workerStep_actors s w
    · rwa [inWorker, next, hSame]
    · rwa [inWorker, next, hMap, ActorContextManager.mapMailbox_heap]
  | post w m | setRunQueueSize w n =>
    obtain hSame | ⟨b, -, hMap⟩ := userStep_actors s w _
    · rwa [inWorker, next, hSame]
    · rwa [inWorker, next, hMap, ActorContextManager.mapMailbox_heap]
  | addInit b sent =>
    simp only [next, addInit]
    split
    · exact hFlag
    · rwa [inWorker, mapBox, setAdder, ActorContextManager.mapMailbox_heap]
  | addRegister b =>
    simp only [next, ActorContextManager.add]
    split <;> exact hFlag
  | addClear b => exact hDown b
  | addDispatch b =>
    simp only [next, addDispatch]
    split
    · rwa [inWorker, mapBox, setAdder, ActorContextManager.mapMailbox_heap]
    · split
      · exact hFlag
      · exact (dispatchOne_inWorker s c b a).trans hFlag

/-- What is on its way from the wait queue to a worker is marked as running. -/
structure Waits (s : Scheduler ι ω) : Prop where
  queued : s.Queued
  handing : ∀ a, s.main.handing = some a → s.inWorker a = true

omit [DecidableEq ω] [DecidableEq ι] in
theorem Waits.mem {s : Scheduler ι ω} (h : s.Waits) {a : ι} (hRecv : (s.box a).recv ≠ [])
    (hFree : s.inWorker a = false) : a ∈ s.actors.waitQueue := by
  have hHanding : s.main.handing ≠ some a := fun hEq => by cases hFree.symm.trans (h.handing a hEq)
  exact (h.queued.tidy.mem_iff a).mpr ((h.queued.tidy.recv_iff a hHanding).mp hRecv)

theorem mainStep_handing {s : Scheduler ι ω} (c : Setting ι) {a : ι}
    (h : (s.mainStep c).main.handing = some a) :
    s.main.handing = some a ∨ ∃ w actors, s.main = .front w ∧ s.actors.getContextWithMsg = (actors, some a) := by
  revert h
  simp only [mainStep]
  cases hMain : s.main with
  | loop | send w =>
    simp only [hMain]
    exact fun h => .inl h
  | check =>
    simp only
    split <;> rintro ⟨⟩
  | receive w =>
    simp only
    split
    · rintro ⟨⟩
    · split <;> rintro ⟨⟩
  | front w =>
    simp only
    split
    · rintro ⟨⟩
    · next actors b hTake =>
      intro h
      obtain rfl := Option.some.inj h
      exact .inr ⟨w, actors, rfl, hTake⟩
  | select w b =>
    simp only
    split
    · rintro ⟨⟩
    · exact fun h => .inl h
  | assign w b => exact fun h => .inl h
  | requeue w b =>
    simp only
    split <;> rintro ⟨⟩
  | dispatch w b =>
    simp only
    split
    · rintro ⟨⟩
    · rw [dispatchOne_main, hMain]
      rintro ⟨⟩

theorem Waits.next {s : Scheduler ι ω} (h : s.Waits) (c : Setting ι) {l : Label ι ω}
    (hEnabled : s.enabled l) (hAdd : ¬ l.IsAdd) : (s.next c l).Waits where
  queued := h.queued.next c hEnabled hAdd
  handing a ha := by
    have hKept : s.main.handing = some a → (∀ w, l ≠ .event w) → (s.next c l).inWorker a = true := by
      intro hHanding hEvent
      apply next_inWorker c (h.handing a hHanding)
      · exact fun w hEq => absurd hEq (hEvent w)
      · rintro rfl
        exact hAdd trivial
    cases l with
    | check => cases ha
    | event w =>
      rw [Scheduler.next, event] at ha
      split at ha <;> cases ha
    | arrive m => exact hKept ha (by rintro _ ⟨⟩)
    | main =>
      obtain hOld | ⟨w, actors, hMain, hTake⟩ := mainStep_handing c ha
      · exact hKept hOld (by rintro _ ⟨⟩)
      · obtain ⟨-, -, -, hHeap⟩ := ActorContextManager.getContextWithMsg_some hTake
        simp only [Scheduler.next, Scheduler.mainStep, hMain, hTake, inWorker]
        rw [hHeap, if_pos rfl]
    | worker w => exact hKept ((workerStep_main s w) ▸ ha) (by rintro _ ⟨⟩)
    | post w m | setRunQueueSize w n => exact hKept ((userStep_main s w _) ▸ ha) (by rintro _ ⟨⟩)
    | quit w => exact hKept ha (by rintro _ ⟨⟩)
    | addInit b sent | addRegister b | addClear b | addDispatch b => exact absurd trivial hAdd

omit [DecidableEq ω] [DecidableEq ι] in
theorem Waits.initial (c : Setting ι) : (initial c : Scheduler ι ω).Waits where
  queued := Queued.initial c
  handing _ hHanding := by cases hHanding

/-- Once an actor has messages and is not marked as running, then until it is selected the main loop
selects only actors that stood ahead of it in the wait queue, each of them at most once, and whenever
it looks for an actor it finds one. -/
theorem bounded_bypass (c : Setting ι) (a : ι) (before during : List (Label ι ω))
    (hAdded : ∀ l ∈ before ++ during, ¬ l.IsAdd) (hRuns : (system c).Runs (initial c) (before ++ during)) :
    let s := (system c).exec (initial c) before
    let t := (system c).exec s during
    let selections := (system c).emitted (fun s l => (s.selected l).toList) s during
    (s.box a).recv ≠ [] → s.inWorker a = false → a ∉ selections →
      selections.Sublist (ahead a s.actors.waitQueue) ∧ selections.Nodup ∧
        t.inWorker a = false ∧ (t.actors.getContextWithMsg).2 ≠ none := by
  intro s t selections hRecv hFree hNever
  have hStep : ∀ (s : Scheduler ι ω) (l : Label ι ω), s.Waits → s.enabled l → ¬ l.IsAdd →
      (s.next c l).Waits := fun s l h => h.next c
  obtain ⟨hBefore, hDuring⟩ := (system c).runs_append.mp hRuns
  have hNoAdd : ∀ p ∈ (system c).steps s during, ¬ p.2.IsAdd := fun p hp =>
    hAdded p.2 (List.mem_append_right before ((system c).label_mem_of_mem_steps hp))
  have hWaits : s.Waits := by
    refine (system c).inv_visited hStep (Waits.initial c) hBefore (fun p hp => ?_) s
      ((system c).mem_visited_of_exec ..)
    exact hAdded p.2 (List.mem_append_left during ((system c).label_mem_of_mem_steps hp))
  obtain ⟨⟨hMem, hStill⟩, hSub⟩ := bypass (system c) (fun s => s.actors.waitQueue)
    (fun s b => s.inWorker b = false) selected hStep
    (fun s l _ _ _ => s.next_move c l) (fun s l _ _ _ hFree hNe => next_inWorker_false c hFree hNe)
    hWaits hDuring hNoAdd (hWaits.mem hRecv hFree) hFree hNever
  have hAhead : selections.Sublist (ahead a s.actors.waitQueue) :=
    (List.sublist_append_left _ _).trans hSub
  refine ⟨hAhead, ?_, hStill, ActorContextManager.getContextWithMsg_ne_none hMem hStill⟩
  exact (hAhead.trans (List.takeWhile_sublist _)).nodup hWaits.queued.tidy.nodup

/-- Two actors have a message each when the only worker becomes idle. -/
def bothWait : List (Label Bool Unit) :=
  [.arrive helloMsg, .arrive (pairMsg ""), .worker (), .event (), .main]

theorem bounded_bypass_two :
    ((system pairSetting).emitted (fun s l => (s.selected l).toList)
      ((system pairSetting).exec (initial pairSetting) bothWait) [.check, .main, .main]).Sublist
        (ahead true ((system pairSetting).exec (initial pairSetting) bothWait).actors.waitQueue) ∧
      (system pairSetting).emitted (fun s l => (s.selected l).toList)
        ((system pairSetting).exec (initial pairSetting) bothWait) [.check, .main, .main] = [false] := by
  have h := bounded_bypass pairSetting true bothWait [.check, .main, .main] (by decide) (by decide)
    (by decide) (by decide) (by decide)
  exact ⟨h.1, by decide⟩

end Scheduler
end Myframe
