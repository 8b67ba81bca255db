import Myframe.UserWorker.System

/-! # Messages that wait for a user worker

The waiting flag and the weak-up list agree in every run. The receive queue agrees with them as
long as `WeakupWorker` hands over all of it: unlike `CheckStopWorkers` it never puts a worker back.
-/
namespace Myframe
set_option autoImplicit false

namespace WorkerContextManager

variable {ω γ : Type} [DecidableEq ω]

structure Listed (s : WorkerContextManager ω γ) : Prop where
  nodup : s.weakup.Nodup
  mem_iff : ∀ w, w ∈ s.weakup ↔ (s.heap w).inMsgWaitQueue = true

def Flagged (s : WorkerContextManager ω γ) : Prop :=
  ∀ w, (s.heap w).pc ≠ .done → (s.heap w).mailbox.recv ≠ [] → (s.heap w).inMsgWaitQueue = true

/-- The messages of a worker that has not quit are known to the main loop, which hands them over
as soon as the worker waits. -/
structure Tended (s : WorkerContextManager ω γ) (w : ω) : Prop where
  flag : (s.heap w).inMsgWaitQueue = true
  once : s.weakup.count w = 1
  handed : ((s.pushWaitWorker w).weakupWorker.heap w).mailbox = (s.heap w).mailbox.moveToRun
  woken : ((s.pushWaitWorker w).weakupWorker.heap w).channel =
    (s.heap w).channel.sendToOwner .kRunWithMsg

def NoneStranded (s : WorkerContextManager ω γ) : Prop :=
  ∀ w, (s.heap w).pc ≠ .done → (s.heap w).mailbox.recv ≠ [] → s.Tended w

/-- No hand-over of this step leaves a part of the receive queue behind. -/
def HandsOverAll (s : WorkerContextManager ω γ) : Label ω γ → Prop
  | .weakup => ∀ w ∈ s.weakup, (s.heap w).ctrlOwner = .kMain → (s.heap w).pc ≠ .done →
    (s.heap w).mailbox.runQueueSize ≤ 0 ∨
      ((s.heap w).mailbox.recv.length : ℤ) ≤ (s.heap w).mailbox.runQueueSize
  | _ => True

omit [DecidableEq ω] in
instance (s : WorkerContextManager ω γ) (l : Label ω γ) : Decidable (s.HandsOverAll l) :=
  match l with
  | .weakup => inferInstanceAs (Decidable (∀ w ∈ s.weakup, (s.heap w).ctrlOwner = .kMain →
      (s.heap w).pc ≠ .done → (s.heap w).mailbox.runQueueSize ≤ 0 ∨
        ((s.heap w).mailbox.recv.length : ℤ) ≤ (s.heap w).mailbox.runQueueSize))
  | .arrive _ | .event _ | .main | .call .. | .sendCmd .. | .recvCmd _ | .stop _ | .exit _ | .quit _ =>
    .isTrue trivial

theorem modify_heap (s : WorkerContextManager ω γ) (w v : ω) (f : WorkerContext γ → WorkerContext γ) :
    (s.modify w f).heap v = if v = w then f (s.heap w) else s.heap v := by
  simp only [modify, Function.update_apply]

@[simp] theorem modify_heap_self (s : WorkerContextManager ω γ) (w : ω)
    (f : WorkerContext γ → WorkerContext γ) : (s.modify w f).heap w = f (s.heap w) :=
  Function.update_self ..

@[simp] theorem modify_event (s : WorkerContextManager ω γ) (w : ω) (f : WorkerContext γ → WorkerContext γ) :
    (s.modify w f).event = s.event := rfl

@[simp] theorem modify_eventPc (s : WorkerContextManager ω γ) (w : ω)
    (f : WorkerContext γ → WorkerContext γ) : (s.modify w f).eventPc = s.eventPc := rfl

@[simp] theorem modify_weakup (s : WorkerContextManager ω γ) (w : ω)
    (f : WorkerContext γ → WorkerContext γ) : (s.modify w f).weakup = s.weakup := rfl

/-- A worker that `WeakupWorker` has handed its messages to. -/
def awake (x : WorkerContext γ) : WorkerContext γ :=
  { x with
    mailbox := x.mailbox.moveToRun
    ctrlOwner := .kWorker
    inMsgWaitQueue := false
    channel := x.channel.sendToOwner .kRunWithMsg }

theorem weakupLoop_spec (l kept : List ω) (s : WorkerContextManager ω γ) (hNodup : l.Nodup) :
    (weakupLoop l kept s).weakup = kept ++ l.filter (fun w => (s.heap w).ctrlOwner = .kWorker) ∧
      ∀ w, (weakupLoop l kept s).heap w =
        if w ∈ l ∧ (s.heap w).ctrlOwner = .kMain then awake (s.heap w) else s.heap w := by
  induction l generalizing kept s with
  | nil => simp [weakupLoop]
  | cons v rest ih =>
    obtain ⟨hNotMem, hRest⟩ := List.nodup_cons.mp hNodup
    unfold weakupLoop
    split
    · next hOwner =>
      obtain ⟨hList, hHeap⟩ := ih (kept ++ [v]) s hRest
      refine ⟨by simp [hList, hOwner], fun w => ?_⟩
      rw [hHeap w]
      obtain rfl | hNe := eq_or_ne w v
      · simp [hOwner]
      · simp [hNe]
    · next hOwner =>
      obtain ⟨hList, hHeap⟩ := ih kept (s.handOver v) hRest
      have hOther : ∀ w, w ≠ v → (s.handOver v).heap w = s.heap w := fun w hw => by
        rw [handOver, modify_heap, if_neg hw]
      have hMain : (s.heap v).ctrlOwner = .kMain := by
        cases h : (s.heap v).ctrlOwner with
        | kMain => rfl
        | kWorker => exact absurd h hOwner
      constructor
      · have hFilter : rest.filter (fun w => ((s.handOver v).heap w).ctrlOwner = .kWorker) =
            rest.filter fun w => (s.heap w).ctrlOwner = .kWorker :=
          List.filter_congr fun w hw => by rw [hOther w fun h => hNotMem (h ▸ hw)]
        simp [hList, hFilter, hMain]
      · intro w
        rw [hHeap w]
        obtain rfl | hNe := eq_or_ne w v
        · simp [hNotMem, hMain, handOver, awake]
        · simp [hNe, hOther w hNe]

variable {s : WorkerContextManager ω γ}

theorem weakupWorker_weakup (h : s.Listed) :
    s.weakupWorker.weakup = s.weakup.filter fun w => (s.heap w).ctrlOwner = .kWorker :=
  (weakupLoop_spec s.weakup [] s h.nodup).1

theorem weakupWorker_heap (h : s.Listed) (w : ω) :
    s.weakupWorker.heap w =
      if w ∈ s.weakup ∧ (s.heap w).ctrlOwner = .kMain then awake (s.heap w) else s.heap w :=
  (weakupLoop_spec s.weakup [] s h.nodup).2 w

theorem Listed.modify (h : s.Listed) (w : ω) {f : WorkerContext γ → WorkerContext γ}
    (hf : (f (s.heap w)).inMsgWaitQueue = (s.heap w).inMsgWaitQueue) : (s.modify w f).Listed := by
  refine ⟨h.nodup, fun v => ?_⟩
  rw [modify_weakup, h.mem_iff, modify_heap]
  split
  · next hv => rw [hv, hf]
  · rfl

theorem Flagged.modify (h : s.Flagged) (w : ω) {f : WorkerContext γ → WorkerContext γ}
    (hFlag : (f (s.heap w)).inMsgWaitQueue = (s.heap w).inMsgWaitQueue)
    (hRecv : (f (s.heap w)).mailbox.recv ≠ [] → (s.heap w).mailbox.recv ≠ [])
    (hPc : (f (s.heap w)).pc ≠ .done → (s.heap w).pc ≠ .done) : (s.modify w f).Flagged := by
  intro v hDone hNe
  rw [modify_heap] at hDone hNe ⊢
  by_cases hv : v = w
  · rw [if_pos hv] at hDone hNe ⊢
    rw [hFlag]
    exact h w (hPc hDone) (hRecv hNe)
  · rw [if_neg hv] at hDone hNe ⊢
    exact h v hDone hNe

theorem Listed.dispatchWorkerMsg (h : s.Listed) (name : String) (p : Parcel γ) :
    (s.dispatchWorkerMsg name p).Listed := by
  unfold WorkerContextManager.dispatchWorkerMsg
  split
  · exact h
  · next w hw =>
    split
    · exact h
    · split
      · exact h.modify w rfl
      · next hFlag =>
        have hNotMem : w ∉ s.weakup := fun hMem => hFlag ((h.mem_iff w).mp hMem)
        refine ⟨List.nodup_append.mpr ⟨h.nodup, List.nodup_singleton w, ?_⟩, fun v => ?_⟩
        · rintro v hv _ hMem rfl
          exact hNotMem (List.mem_singleton.mp hMem ▸ hv)
        · simp only [modify_heap, List.mem_append, List.mem_singleton]
          by_cases hv : v = w
          · simp [hv]
          · simp [hv, h.mem_iff v]

theorem Flagged.dispatchWorkerMsg (h : s.Flagged) (name : String) (p : Parcel γ) :
    (s.dispatchWorkerMsg name p).Flagged := by
  unfold WorkerContextManager.dispatchWorkerMsg
  split
  · exact h
  · next w hw =>
    split
    · exact h
    · intro v
      split
      · next hFlag =>
        rw [modify_heap]
        split
        · exact fun _ _ => hFlag
        · exact h v
      · simp only [modify_heap]
        split
        · exact fun _ _ => rfl
        · exact h v

/-- What the handling of an event keeps: it dispatches messages, and touches neither the flag nor the
receive queue nor the thread of any worker otherwise. -/
structure Kept (P : WorkerContextManager ω γ → Prop) : Prop where
  frame : ∀ {s t}, t.heap = s.heap → t.weakup = s.weakup → P s → P t
  dispatch : ∀ {s} name p, P s → P (s.dispatchWorkerMsg name p)
  modify : ∀ {s w} {f : WorkerContext γ → WorkerContext γ},
    (f (s.heap w)).inMsgWaitQueue = (s.heap w).inMsgWaitQueue →
    (f (s.heap w)).mailbox.recv = (s.heap w).mailbox.recv → (f (s.heap w)).pc = (s.heap w).pc →
    P s → P (s.modify w f)

theorem Kept.deliver {P : WorkerContextManager ω γ → Prop} (hP : Kept P) (c : Setting) (p : Parcel γ)
    (h : P s) : P (s.deliver c p) := by
  simp only [WorkerContextManager.deliver]
  generalize ((s.directory c).dispatchMsg c.walk s.subs p.msg).2 = deliveries
  have hStart : P { s with subs := ((s.directory c).dispatchMsg c.walk s.subs p.msg).1 } :=
    hP.frame (s := s) rfl rfl h
  generalize { s with subs := ((s.directory c).dispatchMsg c.walk s.subs p.msg).1 } = t at hStart
  induction deliveries generalizing t with
  | nil => exact hStart
  | cons d ds ih =>
    rw [List.foldl_cons]
    cases d with
    | worker name => exact ih _ (hP.dispatch name p hStart)
    | actor name | conn name => exact ih _ hStart

theorem Kept.receive {P : WorkerContextManager ω γ → Prop} (hP : Kept P) (w : ω) (h : P s) : P (s.receive w) := by
  unfold WorkerContextManager.receive
  split
  · exact h
  · next cmd rest _ =>
    have hRead : P (s.modify w fun x => { x with channel := { x.channel with toMain := rest } }) :=
      hP.modify rfl rfl rfl h
    cases cmd with
    | kIdle => exact hP.modify rfl rfl rfl hRead
    | kWaitForMsg => exact hP.modify rfl rfl rfl hRead
    | kQuit =>
      exact hP.frame (s := (s.modify w _).modify w fun x => { x with registered := false }) rfl rfl
        (hP.modify rfl rfl rfl hRead)
    | kRun | kRunWithMsg => exact hRead

theorem Kept.processUserEvent {P : WorkerContextManager ω γ → Prop} (hP : Kept P) (c : Setting) (w : ω)
    (h : P s) : P (s.processUserEvent c w) := by
  have hSend : ∀ send, P (s.modify w fun x => { x with mailbox := { x.mailbox with send := send } }) :=
    fun _ => hP.modify rfl rfl rfl h
  unfold WorkerContextManager.processUserEvent
  split
  · split
    · next p rest _ => exact hP.deliver c p (hSend rest)
    · exact hP.frame (s := s) rfl rfl h
  · exact hP.frame (s := s.modify w fun x => { x with mailbox := { x.mailbox with send := [] } }) rfl rfl (hSend [])
  · exact hP.frame (s := s.receive w) rfl rfl (hP.receive w h)

theorem Kept.main {P : WorkerContextManager ω γ → Prop} (hP : Kept P) (c : Setting) (h : P s) :
    P (s.next c .main) := by
  rw [WorkerContextManager.next]
  split
  · exact h
  · next w _ => exact hP.processUserEvent c w h

theorem kept_listed : Kept (Listed (ω := ω) (γ := γ)) where
  frame {s t} hHeap hList h := ⟨hList ▸ h.nodup, fun w => by rw [hHeap, hList]; exact h.mem_iff w⟩
  dispatch name p h := h.dispatchWorkerMsg name p
  modify hFlag _ _ h := h.modify _ hFlag

theorem kept_flagged : Kept (Flagged (ω := ω) (γ := γ)) where
  frame {s t} hHeap _ h w := by rw [hHeap]; exact h w
  dispatch name p h := h.dispatchWorkerMsg name p
  modify hFlag hRecv hPc h := h.modify _ hFlag (fun hNe => hRecv ▸ hNe) (fun hDone => hPc ▸ hDone)

theorem Listed.next (h : s.Listed) (c : Setting) (l : Label ω γ) : (s.next c l).Listed := by
  cases l with
  | arrive p => exact kept_listed.deliver c p h
  | weakup =>
    constructor
    · rw [WorkerContextManager.next, weakupWorker_weakup h]
      exact h.nodup.filter _
    · intro w
      rw [WorkerContextManager.next, weakupWorker_weakup h, weakupWorker_heap h, List.mem_filter]
      cases hOwner : (s.heap w).ctrlOwner with
      | kMain =>
        by_cases hMem : w ∈ s.weakup
        · simp [hMem, awake]
        · simp [hMem, ← h.mem_iff]
      | kWorker => simp [h.mem_iff]
  | event w => exact kept_listed.frame (s := s) rfl rfl h
  | main => exact kept_listed.main c h
  | call w f | sendCmd w wait | stop w | exit w | quit w =>
    rw [WorkerContextManager.next]
    exact h.modify w rfl
  | recvCmd w =>
    simp only [WorkerContextManager.next]
    split
    · exact h
    · exact h.modify w rfl

theorem OwnerCall.apply_recv_ne_nil {b : Mailbox γ} {f : OwnerCall γ} (h : (f.apply b).recv ≠ []) :
    b.recv ≠ [] := by
  cases f with
  | moveToRun =>
    intro hNil
    apply h
    simp only [OwnerCall.apply, Mailbox.moveToRun]
    split <;> simp [hNil]
  | send p | sendClear | popRun | setRunQueueSize n | setPendingQueueSize n => exact h

theorem Flagged.next (h : s.Flagged) (hListed : s.Listed) {c : Setting} {l : Label ω γ}
    (hEnabled : s.enabled l) (hAll : s.HandsOverAll l) : (s.next c l).Flagged := by
  cases l with
  | arrive p => exact kept_flagged.deliver c p h
  | weakup =>
    intro w
    rw [WorkerContextManager.next, weakupWorker_heap hListed]
    split
    · next hTaken =>
      intro hDone hNe
      have hEmpty : (s.heap w).mailbox.moveToRun.recv = [] := by
        obtain hNonpos | hFits := hAll w hTaken.1 hTaken.2 hDone
        · rw [Mailbox.moveToRun, if_neg (not_lt.mpr hNonpos)]
        · unfold Mailbox.moveToRun
          split
          · exact List.drop_eq_nil_of_le (by omega)
          · rfl
      exact absurd hEmpty hNe
    · exact h w
  | event w => exact kept_flagged.frame (s := s) rfl rfl h
  | main => exact kept_flagged.main c h
  | call w f =>
    rw [WorkerContextManager.next]
    exact h.modify w rfl OwnerCall.apply_recv_ne_nil id
  | sendCmd w wait =>
    have hRunning : (s.heap w).pc = .running := hEnabled
    have hAwake : (s.heap w).pc ≠ .done := by simp [hRunning]
    rw [WorkerContextManager.next]
    exact h.modify w rfl id fun _ => hAwake
  | recvCmd w =>
    have hBlocked : (s.heap w).pc = .blocked := hEnabled.1
    have hAwake : (s.heap w).pc ≠ .done := by simp [hBlocked]
    simp only [WorkerContextManager.next]
    split
    · exact h
    · exact h.modify w rfl id fun _ => hAwake
  | stop w | quit w =>
    rw [WorkerContextManager.next]
    exact h.modify w rfl id id
  | exit w =>
    rw [WorkerContextManager.next]
    exact h.modify w rfl id fun hDone => absurd rfl hDone

theorem noneStranded_iff (h : s.Listed) : s.NoneStranded ↔ s.Flagged := by
  refine ⟨fun hNone w hDone hNe => (hNone w hDone hNe).flag, fun hFlagged w hDone hNe => ?_⟩
  have hFlag := hFlagged w hDone hNe
  have hMem : w ∈ s.weakup := (h.mem_iff w).mpr hFlag
  have hHeap : (s.pushWaitWorker w).weakupWorker.heap w =
      awake { s.heap w with ctrlOwner := .kMain } := by
    have hWaiting : (s.pushWaitWorker w).Listed := h.modify w rfl
    rw [weakupWorker_heap hWaiting]
    simp [pushWaitWorker, hMem]
  exact ⟨hFlag, List.count_eq_one_of_mem h.nodup hMem, by rw [hHeap]; rfl, by rw [hHeap]; rfl⟩

theorem handsOverAll_of_flagged (h : s.Listed) {c : Setting} {l : Label ω γ}
    (hNext : (s.next c l).Flagged) : s.HandsOverAll l := by
  cases l with
  | weakup =>
    intro w hMem hOwner hDone
    by_contra hNot
    obtain ⟨hPos, hLong⟩ := not_or.mp hNot
    have hHeap : (s.next c .weakup).heap w = awake (s.heap w) := by
      rw [WorkerContextManager.next, weakupWorker_heap h, if_pos ⟨hMem, hOwner⟩]
    have hLeft : (awake (s.heap w)).mailbox.recv ≠ [] := by
      simp only [awake, Mailbox.moveToRun, if_pos (not_le.mp hPos), ne_eq, List.drop_eq_nil_iff]
      omega
    have hFlag := hNext w
    rw [hHeap] at hFlag
    cases hFlag hDone hLeft
  | arrive | event | main | call | sendCmd | recvCmd | stop | exit | quit => trivial

omit [DecidableEq ω] in
theorem initial_listed (name : ω → String) (type : ω → WorkerType) (pendingQueueSize runQueueSize : ω → ℤ)
    (names : String → Option ω) :
    (initial (γ := γ) name type pendingQueueSize runQueueSize names).Listed :=
  ⟨List.nodup_nil, fun _ => by simp [initial]⟩

omit [DecidableEq ω] in
theorem initial_flagged (name : ω → String) (type : ω → WorkerType) (pendingQueueSize runQueueSize : ω → ℤ)
    (names : String → Option ω) :
    (initial (γ := γ) name type pendingQueueSize runQueueSize names).Flagged :=
  fun _ _ hNe => absurd rfl hNe

/-- Messages to user workers are never stranded exactly in the runs in which every hand-over takes
the whole receive queue. -/
theorem noneStranded_visited_iff (c : Setting) (name : ω → String) (type : ω → WorkerType)
    (pendingQueueSize runQueueSize : ω → ℤ) (names : String → Option ω) (ls : List (Label ω γ))
    (h : (system c).Runs (initial name type pendingQueueSize runQueueSize names) ls) :
    (∀ t ∈ (system c).visited (initial name type pendingQueueSize runQueueSize names) ls,
      t.NoneStranded) ↔
    ∀ p ∈ (system c).steps (initial name type pendingQueueSize runQueueSize names) ls,
      p.1.HandsOverAll p.2 := by
  have hListed := initial_listed (γ := γ) name type pendingQueueSize runQueueSize names
  have hFlagged := initial_flagged (γ := γ) name type pendingQueueSize runQueueSize names
  refine (system c).inv_visited_iff (J := Listed) (fun s l hs _ _ _ => hs.next c l) ?_ hListed
    ((noneStranded_iff hListed).mpr hFlagged) h
  intro s l hs hNone hEnabled
  have hNext : (s.next c l).Listed := hs.next c l
  refine ⟨fun hAfter => handsOverAll_of_flagged hs ((noneStranded_iff hNext).mp hAfter), fun hAll => ?_⟩
  exact (noneStranded_iff hNext).mpr (((noneStranded_iff hs).mp hNone).next hs hEnabled hAll)

/-- A worker that sets a batch limit and waits, after two messages have reached it. -/
def batchStart : WorkerContextManager Unit Unit :=
  initial (fun _ => "worker.a.1") (fun _ => .kWorkerUser) (fun _ => -1) (fun _ => -1)
    (fun name => if name = "worker.a.1" then some () else none)

def batchRun (limit : ℤ) : List (Label Unit Unit) :=
  [.call () (.setRunQueueSize limit), .arrive ⟨(), { dst := "worker.a.1", data := "1" }⟩,
    .arrive ⟨(), { dst := "worker.a.1", data := "2" }⟩, .sendCmd () true, .event (), .main, .main, .main,
    .weakup]

/-- With a limit of two the hand-over takes both. -/
theorem noneStranded_visited_iff_batch :
    (((system {}).exec batchStart (batchRun 2)).heap ()).mailbox.run.length = 2 ∧
    ∀ t ∈ (system {}).visited batchStart (batchRun 2), t.NoneStranded :=
  ⟨by decide, (noneStranded_visited_iff {} _ _ _ _ _ (batchRun 2) (by decide)).mpr (by decide)⟩

/-- With a limit of one the second message waits for a worker that the main loop has forgotten. -/
theorem batch_strands : (system {}).Runs batchStart (batchRun 1) ∧
    ¬ ∀ t ∈ (system {}).visited batchStart (batchRun 1), t.NoneStranded := by
  refine ⟨by decide, fun hNone => ?_⟩
  have hLast := hNone _ ((system {}).mem_visited_of_exec batchStart (batchRun 1))
  have hFlag := (hLast () (by decide) (by decide)).flag
  exact absurd hFlag (by decide)

end WorkerContextManager
end Myframe
