import Myframe.UserWorker.Weakup

/-! # The mailbox of a user worker between its two users

The mailbox has no lock. The thread of the worker uses it until it has sent a command, the main loop from
then on until it has sent its answer. Here the main loop goes message by message and worker by worker.
The timer worker is one of the workers.
-/
namespace Myframe
set_option autoImplicit false

/-- Where the main loop stands: on its walk over the weak-up list, where `woken` has moved the messages of
a worker and not told it yet, or in the event of a worker. -/
inductive UserMain (ω : Type) where
  | loop
  | walk (kept rest : List ω)
  | woken (w : ω) (kept rest : List ω)
  | dispatch (w : ω)
  | clear (w : ω)
  | receive (w : ω)
  | reply (w : ω) (cmd : Cmd)
  deriving DecidableEq, Repr

/-- `taken` counts the `kQuit` commands that a worker has read from its channel. -/
structure UserLoop (ω γ : Type) where
  mgr : WorkerContextManager ω γ
  main : UserMain ω := .loop
  taken : ω → ℕ := fun _ => 0

namespace UserLoop

inductive Label (ω γ : Type) where
  | arrive (p : Parcel γ)
  | weakup
  | event (w : ω)
  | main
  | call (w : ω) (f : OwnerCall γ)
  | sendCmd (w : ω) (wait : Bool)
  | recvCmd (w : ω)
  | stop (w : ω)
  | exit (w : ω)
  | quit (w : ω)

variable {ω γ : Type} [DecidableEq ω]

def modify (s : UserLoop ω γ) (w : ω) (f : WorkerContext γ → WorkerContext γ) : UserLoop ω γ :=
  { s with mgr := s.mgr.modify w f }

/-- What `ProcessUserEvent` and `ProcessTimerEvent` do with a command. -/
def answer (s : UserLoop ω γ) (w : ω) : Cmd → UserLoop ω γ
  | .kIdle => s.modify w fun x => { x with channel := x.channel.sendToOwner .kRun }
  | .kWaitForMsg =>
    if (s.mgr.heap w).type = .kWorkerUser then { s with mgr := s.mgr.pushWaitWorker w } else s
  | .kQuit => { s with mgr := s.mgr.del w }
  | .kRun | .kRunWithMsg => s

def mainStep (c : WorkerContextManager.Setting) (s : UserLoop ω γ) : UserLoop ω γ :=
  match s.main with
  | .loop => s
  | .walk kept [] => { s with mgr := { s.mgr with weakup := kept }, main := .loop }
  | .walk kept (w :: rest) =>
    if (s.mgr.heap w).ctrlOwner = .kWorker then { s with main := .walk (kept ++ [w]) rest }
    else { s.modify w fun x => { x with mailbox := x.mailbox.moveToRun } with main := .woken w kept rest }
  | .woken w kept rest =>
    { s.modify w fun x =>
        { x with
          ctrlOwner := .kWorker
          inMsgWaitQueue := false
          channel := x.channel.sendToOwner .kRunWithMsg } with
      main := .walk kept rest }
  | .dispatch w =>
    match (s.mgr.heap w).mailbox.send with
    | [] => { s with main := .clear w }
    | p :: rest =>
      let s := s.modify w fun x => { x with mailbox := { x.mailbox with send := rest } }
      { s with mgr := s.mgr.deliver c p }
  | .clear w =>
    { s.modify w fun x => { x with mailbox := { x.mailbox with send := [] } } with main := .receive w }
  | .receive w =>
    match (s.mgr.heap w).channel.toMain with
    | [] => { s with main := .loop }
    | cmd :: rest =>
      { s.modify w fun x => { x with channel := { x.channel with toMain := rest } } with
        main := .reply w cmd }
  | .reply w cmd => { s.answer w cmd with main := .loop }

def recvCmd (s : UserLoop ω γ) (w : ω) : UserLoop ω γ :=
  match (s.mgr.heap w).channel.toOwner with
  | [] => s
  | cmd :: rest =>
    { s.modify w fun x =>
        { x with
          pc := .running
          runing := if cmd = .kQuit then false else x.runing
          channel := { x.channel with toOwner := rest } } with
      taken := Function.update s.taken w (s.taken w + if cmd = .kQuit then 1 else 0) }

def next (c : WorkerContextManager.Setting) (s : UserLoop ω γ) : Label ω γ → UserLoop ω γ
  | .arrive p => { s with mgr := s.mgr.deliver c p }
  | .weakup => { s with main := .walk [] s.mgr.weakup }
  | .event w => { s with main := .dispatch w }
  | .main => s.mainStep c
  | .call w f => s.modify w fun x => { x with mailbox := f.apply x.mailbox }
  | .sendCmd w wait => s.modify w fun x =>
    { x with pc := .blocked, channel := x.channel.sendToMain (if wait then .kWaitForMsg else .kIdle) }
  | .recvCmd w => s.recvCmd w
  | .stop w => s.modify w fun x => { x with runing := false }
  | .exit w => s.modify w fun x => { x with pc := .done, channel := x.channel.sendToMain .kQuit }
  | .quit w => s.modify w fun x => { x with channel := x.channel.sendToOwner .kQuit }

/-- A thread takes no more steps once it has sent its final `kQuit`. -/
def enabled (s : UserLoop ω γ) : Label ω γ → Prop
  | .arrive _ | .weakup => s.main = .loop
  | .event w => s.main = .loop ∧ (s.mgr.heap w).registered = true ∧ (s.mgr.heap w).channel.toMain ≠ []
  | .main => s.main ≠ .loop
  | .call w _ | .sendCmd w _ | .stop w => (s.mgr.heap w).pc = .running
  | .recvCmd w => (s.mgr.heap w).pc = .blocked ∧ (s.mgr.heap w).channel.toOwner ≠ []
  | .exit w => (s.mgr.heap w).pc = .running ∧ (s.mgr.heap w).runing = false
  | .quit _ => True

def system (c : WorkerContextManager.Setting) : Transition.System (UserLoop ω γ) (Label ω γ) where
  enabled s l := s.enabled l
  next s l := s.next c l

instance (c : WorkerContextManager.Setting) (s : UserLoop ω γ) (l : Label ω γ) :
    Decidable ((system c).enabled s l) :=
  match l with
  | .arrive _ | .weakup => inferInstanceAs (Decidable (s.main = .loop))
  | .event w => inferInstanceAs (Decidable
      (s.main = .loop ∧ (s.mgr.heap w).registered = true ∧ (s.mgr.heap w).channel.toMain ≠ []))
  | .main => inferInstanceAs (Decidable (s.main ≠ .loop))
  | .call w _ | .sendCmd w _ | .stop w => inferInstanceAs (Decidable ((s.mgr.heap w).pc = .running))
  | .recvCmd w => inferInstanceAs (Decidable
      ((s.mgr.heap w).pc = .blocked ∧ (s.mgr.heap w).channel.toOwner ≠ []))
  | .exit w => inferInstanceAs (Decidable
      ((s.mgr.heap w).pc = .running ∧ (s.mgr.heap w).runing = false))
  | .quit _ => inferInstanceAs (Decidable True)

def initial (name : ω → String) (type : ω → WorkerType) (pendingQueueSize runQueueSize : ω → ℤ)
    (names : String → Option ω) : UserLoop ω γ where
  mgr := .initial name type pendingQueueSize runQueueSize names

/-- The worker whose `send_` the next step of the main loop drains or clears, or whose `recv_` it moves. -/
def touched (s : UserLoop ω γ) : Option ω :=
  match s.main with
  | .dispatch w | .clear w => some w
  | .walk _ (w :: _) => if (s.mgr.heap w).ctrlOwner = .kMain then some w else none
  | _ => none

/-- The worker whose mailbox the main loop is at waits for a command or has ended. -/
def Exclusive (s : UserLoop ω γ) : Label ω γ → Prop
  | .main => ∀ w ∈ s.touched, (s.mgr.heap w).pc = .blocked ∨ (s.mgr.heap w).pc = .done
  | _ => True

/-- The main loop is at no mailbox of a worker that has taken a `kQuit` and has not ended. -/
def Spared (s : UserLoop ω γ) : Label ω γ → Prop
  | .main => ∀ w ∈ s.touched, s.taken w = 0 ∨ (s.mgr.heap w).pc = .done
  | _ => True

instance (s : UserLoop ω γ) (l : Label ω γ) : Decidable (s.Exclusive l) :=
  match l with
  | .main => inferInstanceAs (Decidable
      (∀ w ∈ s.touched, (s.mgr.heap w).pc = .blocked ∨ (s.mgr.heap w).pc = .done))
  | .arrive _ | .weakup | .event _ | .call _ _ | .sendCmd _ _ | .recvCmd _ | .stop _ | .exit _ | .quit _ =>
    .isTrue trivial

instance (s : UserLoop ω γ) (l : Label ω γ) : Decidable (s.Spared l) :=
  match l with
  | .main => inferInstanceAs (Decidable (∀ w ∈ s.touched, s.taken w = 0 ∨ (s.mgr.heap w).pc = .done))
  | .arrive _ | .weakup | .event _ | .call _ _ | .sendCmd _ _ | .recvCmd _ | .stop _ | .exit _ | .quit _ =>
    .isTrue trivial

end UserLoop

def UserPc.busy : UserPc → ℕ
  | .running => 1
  | .blocked | .done => 0

/-- The mailbox of a worker is for whoever has its turn: the worker while it runs, the main loop from the
command on. Each `kQuit` that the worker takes may give it a second one. -/
def WorkerContext.turns {γ : Type} (x : WorkerContext γ) : ℕ :=
  x.pc.busy + x.channel.toMain.countP (· ≠ .kQuit) + x.channel.toOwner.countP (· ≠ .kQuit) +
    if x.ctrlOwner = .kMain then 1 else 0

namespace UserMain

variable {ω : Type} [DecidableEq ω]

/-- The commands of a worker that have been read and not been answered. -/
def inHand : UserMain ω → ω → ℕ
  | .reply v cmd, w => if v = w ∧ cmd ≠ .kQuit then 1 else 0
  | _, _ => 0

/-- The main loop is not between the two halves of a hand-over with this worker. -/
structure Leaves (m : UserMain ω) (w : ω) : Prop where
  inHand : m.inHand w = 0
  dispatch : m ≠ .dispatch w ∧ m ≠ .clear w
  woken : ∀ kept rest, m ≠ .woken w kept rest

theorem leaves_loop (w : ω) : UserMain.loop.Leaves w :=
  ⟨rfl, ⟨by rintro ⟨⟩, by rintro ⟨⟩⟩, by rintro _ _ ⟨⟩⟩

theorem leaves_walk (kept rest : List ω) (w : ω) : (UserMain.walk kept rest).Leaves w :=
  ⟨rfl, ⟨by rintro ⟨⟩, by rintro ⟨⟩⟩, by rintro _ _ ⟨⟩⟩

theorem leaves_receive (v w : ω) : (UserMain.receive v).Leaves w :=
  ⟨rfl, ⟨by rintro ⟨⟩, by rintro ⟨⟩⟩, by rintro _ _ ⟨⟩⟩

theorem leaves_clear {v w : ω} (h : w ≠ v) : (UserMain.clear v).Leaves w := by
  refine ⟨rfl, ⟨by rintro ⟨⟩, ?_⟩, by rintro _ _ ⟨⟩⟩
  rintro ⟨⟩
  exact h rfl

theorem leaves_woken {v w : ω} (kept rest : List ω) (h : w ≠ v) : (UserMain.woken v kept rest).Leaves w := by
  refine ⟨rfl, ⟨by rintro ⟨⟩, by rintro ⟨⟩⟩, ?_⟩
  rintro _ _ ⟨⟩
  exact h rfl

theorem leaves_reply {v w : ω} (cmd : Cmd) (h : w ≠ v) : (UserMain.reply v cmd).Leaves w := by
  exact ⟨if_neg fun hv => h hv.1.symm, ⟨by rintro ⟨⟩, by rintro ⟨⟩⟩, by rintro _ _ ⟨⟩⟩

end UserMain

namespace WorkerContext

variable {γ : Type}

/-- Two contexts that the handshake cannot tell apart. -/
structure Alike (x y : WorkerContext γ) : Prop where
  pc : x.pc = y.pc
  channel : x.channel = y.channel
  owner : x.ctrlOwner = y.ctrlOwner

theorem Alike.turns {x y : WorkerContext γ} (h : x.Alike y) : x.turns = y.turns := by
  rw [WorkerContext.turns, WorkerContext.turns, h.pc, h.channel, h.owner]

theorem Alike.trans {x y z : WorkerContext γ} (h : x.Alike y) (h' : y.Alike z) : x.Alike z :=
  ⟨h.pc.trans h'.pc, h.channel.trans h'.channel, h.owner.trans h'.owner⟩

end WorkerContext

namespace WorkerContextManager

variable {ω γ : Type} [DecidableEq ω]

theorem modify_alike (s : WorkerContextManager ω γ) (w : ω) (f : WorkerContext γ → WorkerContext γ)
    (h : (f (s.heap w)).Alike (s.heap w)) (v : ω) : ((s.modify w f).heap v).Alike (s.heap v) := by
  rw [modify_heap]
  split
  · next hv => rwa [hv]
  · exact ⟨rfl, rfl, rfl⟩

theorem dispatchWorkerMsg_alike (s : WorkerContextManager ω γ) (name : String) (p : Parcel γ) (v : ω) :
    ((s.dispatchWorkerMsg name p).heap v).Alike (s.heap v) := by
  rw [dispatchWorkerMsg]
  split
  · exact ⟨rfl, rfl, rfl⟩
  · next w _ =>
    split
    · exact ⟨rfl, rfl, rfl⟩
    · have hRecv := s.modify_alike w (fun x => { x with mailbox := x.mailbox.receive p }) ⟨rfl, rfl, rfl⟩ v
      split
      · exact hRecv
      · exact (modify_alike _ w (fun x => { x with inMsgWaitQueue := true }) ⟨rfl, rfl, rfl⟩ v).trans hRecv

theorem deliver_alike (c : Setting) (s : WorkerContextManager ω γ) (p : Parcel γ) (v : ω) :
    ((s.deliver c p).heap v).Alike (s.heap v) := by
  simp only [deliver]
  generalize ((s.directory c).dispatchMsg c.walk s.subs p.msg).2 = deliveries
  generalize hStart : ({ s with subs := _ } : WorkerContextManager ω γ) = t
  have hHeap : t.heap = s.heap := by rw [← hStart]
  rw [← hHeap]
  clear hStart hHeap
  induction deliveries generalizing t with
  | nil => exact ⟨rfl, rfl, rfl⟩
  | cons d ds ih =>
    rw [List.foldl_cons]
    cases d with
    | worker name => exact (ih _).trans (t.dispatchWorkerMsg_alike name p v)
    | actor name | conn name => exact ih t

end WorkerContextManager

namespace UserLoop

variable {ω γ : Type} [DecidableEq ω]

def turns (s : UserLoop ω γ) (w : ω) : ℕ :=
  (s.mgr.heap w).turns + s.main.inHand w

structure Handshake (s : UserLoop ω γ) (w : ω) : Prop where
  turns : s.turns w ≤ 1 + s.taken w
  quitting : Cmd.kQuit ∈ (s.mgr.heap w).channel.toMain → (s.mgr.heap w).pc = .done
  dispatched : s.main = .dispatch w ∨ s.main = .clear w → (s.mgr.heap w).channel.toMain ≠ []
  woken : ∀ kept rest, s.main = .woken w kept rest → (s.mgr.heap w).ctrlOwner = .kMain

variable {s t : UserLoop ω γ} {v w : ω}

/-- What a step keeps of a worker that it is not about. -/
theorem Handshake.of_alike (h : s.Handshake v) (hHeap : (t.mgr.heap v).Alike (s.mgr.heap v))
    (hTaken : t.taken v = s.taken v) (hMain : t.main = s.main ∨ t.main.Leaves v) : t.Handshake v := by
  have hTurns := h.turns
  rw [UserLoop.turns] at hTurns
  refine ⟨?_, fun hMem => ?_, fun hAt => ?_, fun kept rest hAt => ?_⟩
  · rw [UserLoop.turns, hHeap.turns, hTaken]
    obtain hSame | hOff := hMain
    · rwa [hSame]
    · rw [hOff.inHand]
      omega
  · rw [hHeap.channel] at hMem
    rw [hHeap.pc]
    exact h.quitting hMem
  · rw [hHeap.channel]
    obtain hSame | hOff := hMain
    · exact h.dispatched (hSame ▸ hAt)
    · exact absurd hAt (not_or.mpr hOff.dispatch)
  · rw [hHeap.owner]
    obtain hSame | hOff := hMain
    · exact h.woken kept rest (hSame ▸ hAt)
    · exact absurd hAt (hOff.woken kept rest)

/-- A step about one worker keeps the handshake of all if it keeps that of this worker. -/
theorem Handshake.of_step (h : ∀ v, s.Handshake v) (hHeap : ∀ v, v ≠ w → t.mgr.heap v = s.mgr.heap v)
    (hTaken : ∀ v, v ≠ w → t.taken v = s.taken v)
    (hMain : t.main = s.main ∨ ∀ v, v ≠ w → t.main.Leaves v) (hw : t.Handshake w) (v : ω) :
    t.Handshake v := by
  obtain rfl | hNe := eq_or_ne v w
  · exact hw
  · refine (h v).of_alike ?_ (hTaken v hNe) (hMain.imp_right fun hLeaves => hLeaves v hNe)
    rw [hHeap v hNe]
    exact ⟨rfl, rfl, rfl⟩

theorem Handshake.of_modify {f : WorkerContext γ → WorkerContext γ} (h : ∀ v, s.Handshake v)
    (hw : (s.modify w f).Handshake w) (v : ω) : (s.modify w f).Handshake v := by
  refine Handshake.of_step h ?_ ?_ (.inl ?_) hw v
  · exact fun v hNe => Function.update_of_ne hNe ..
  · exact fun _ _ => rfl
  · rfl

theorem Handshake.answer {cmd : Cmd} (h : ∀ v, s.Handshake v) (hMain : s.main = .reply w cmd) (v : ω) :
    ({ s.answer w cmd with main := .loop } : UserLoop ω γ).Handshake v := by
  have hQuit := (h w).quitting
  have hTurns := (h w).turns
  rw [UserLoop.turns, WorkerContext.turns, hMain] at hTurns
  cases cmd with
  | kIdle =>
    refine Handshake.of_step (w := w) h ?_ ?_ (.inr fun v _ => UserMain.leaves_loop v) ⟨?_, ?_, ?_, ?_⟩ v
    · exact fun v hNe => Function.update_of_ne hNe ..
    · exact fun _ _ => rfl
    · simp [UserMain.inHand] at hTurns
      simp [UserLoop.turns, WorkerContext.turns, UserLoop.answer, modify, UserMain.inHand]
      omega
    · simpa [UserLoop.answer, modify] using hQuit
    · rintro (⟨⟨⟩⟩ | ⟨⟨⟩⟩)
    · rintro _ _ ⟨⟩
  | kWaitForMsg =>
    by_cases hUser : (s.mgr.heap w).type = .kWorkerUser
    · rw [UserLoop.answer, if_pos hUser]
      refine Handshake.of_step (w := w) h ?_ ?_ (.inr fun v _ => UserMain.leaves_loop v) ⟨?_, ?_, ?_, ?_⟩ v
      · exact fun v hNe => Function.update_of_ne hNe ..
      · exact fun _ _ => rfl
      · simp [UserMain.inHand] at hTurns
        simp [UserLoop.turns, WorkerContext.turns, WorkerContextManager.pushWaitWorker, UserMain.inHand]
        omega
      · simpa [WorkerContextManager.pushWaitWorker] using hQuit
      · rintro (⟨⟨⟩⟩ | ⟨⟨⟩⟩)
      · rintro _ _ ⟨⟩
    · rw [UserLoop.answer, if_neg hUser]
      exact (h v).of_alike ⟨rfl, rfl, rfl⟩ rfl (.inr (UserMain.leaves_loop v))
  | kQuit =>
    refine (h v).of_alike ?_ rfl (.inr (UserMain.leaves_loop v))
    exact s.mgr.modify_alike w (fun x => { x with registered := false }) ⟨rfl, rfl, rfl⟩ v
  | kRun | kRunWithMsg => exact (h v).of_alike ⟨rfl, rfl, rfl⟩ rfl (.inr (UserMain.leaves_loop v))

theorem Handshake.mainStep (c : WorkerContextManager.Setting) (h : ∀ v, s.Handshake v) (v : ω) :
    (s.mainStep c).Handshake v := by
  rw [UserLoop.mainStep]
  split
  · exact h v
  · exact (h v).of_alike ⟨rfl, rfl, rfl⟩ rfl (.inr (UserMain.leaves_loop v))
  · next kept w rest hMain =>
    split
    · exact (h v).of_alike ⟨rfl, rfl, rfl⟩ rfl (.inr (UserMain.leaves_walk (kept ++ [w]) rest v))
    · next hOwner =>
      have hTurns := (h w).turns
      rw [UserLoop.turns, hMain] at hTurns
      refine Handshake.of_step (w := w) h ?_ ?_ (.inr fun v hNe => UserMain.leaves_woken kept rest hNe)
        ⟨?_, ?_, ?_, ?_⟩ v
      · exact fun v hNe => Function.update_of_ne hNe ..
      · exact fun _ _ => rfl
      · simpa [UserLoop.turns, WorkerContext.turns, modify, UserMain.inHand] using hTurns
      · simpa [modify] using (h w).quitting
      · rintro (⟨⟨⟩⟩ | ⟨⟨⟩⟩)
      · intro _ _ _
        cases hAt : (s.mgr.heap w).ctrlOwner with
        | kMain => simpa [modify] using hAt
        | kWorker => exact absurd hAt hOwner
  · next w kept rest hMain =>
    have hOwner := (h w).woken kept rest hMain
    have hTurns := (h w).turns
    rw [UserLoop.turns, WorkerContext.turns, hMain, hOwner] at hTurns
    refine Handshake.of_step (w := w) h ?_ ?_ (.inr fun v _ => UserMain.leaves_walk kept rest v) ⟨?_, ?_, ?_, ?_⟩ v
    · exact fun v hNe => Function.update_of_ne hNe ..
    · exact fun _ _ => rfl
    · simp [UserMain.inHand] at hTurns
      simp [UserLoop.turns, WorkerContext.turns, modify, UserMain.inHand]
      omega
    · simpa [modify] using (h w).quitting
    · rintro (⟨⟨⟩⟩ | ⟨⟨⟩⟩)
    · rintro _ _ ⟨⟩
  · next w hMain =>
    split
    · -- `clear()` is still to come, and the command with it
      refine Handshake.of_step (w := w) h ?_ ?_ (.inr fun v hNe => UserMain.leaves_clear hNe) ⟨?_, ?_, ?_, ?_⟩ v
      · exact fun _ _ => rfl
      · exact fun _ _ => rfl
      · have hTurns := (h w).turns
        rwa [UserLoop.turns, hMain] at hTurns
      · exact (h w).quitting
      · exact fun _ => (h w).dispatched (.inl hMain)
      · rintro _ _ ⟨⟩
    · next p rest _ =>
      refine (h v).of_alike ?_ rfl (.inl rfl)
      refine (WorkerContextManager.deliver_alike c _ p v).trans ?_
      exact s.mgr.modify_alike w (fun x => { x with mailbox := { x.mailbox with send := rest } })
        ⟨rfl, rfl, rfl⟩ v
  · next w hMain =>
    refine (h v).of_alike ?_ rfl (.inr (UserMain.leaves_receive w v))
    exact s.mgr.modify_alike w (fun x => { x with mailbox := { x.mailbox with send := [] } }) ⟨rfl, rfl, rfl⟩ v
  · next w hMain =>
    have hTurns := (h w).turns
    rw [UserLoop.turns, WorkerContext.turns, hMain] at hTurns
    split
    · exact (h v).of_alike ⟨rfl, rfl, rfl⟩ rfl (.inr (UserMain.leaves_loop v))
    · next cmd rest hTo =>
      refine Handshake.of_step (w := w) h ?_ ?_ (.inr fun v hNe => UserMain.leaves_reply cmd hNe) ⟨?_, ?_, ?_, ?_⟩ v
      · exact fun v hNe => Function.update_of_ne hNe ..
      · exact fun _ _ => rfl
      · rw [hTo] at hTurns
        by_cases hQuit : cmd = .kQuit
        · simp [UserMain.inHand, hQuit] at hTurns
          simp [UserLoop.turns, WorkerContext.turns, modify, UserMain.inHand, hQuit]
          omega
        · simp [UserMain.inHand, hQuit] at hTurns
          simp [UserLoop.turns, WorkerContext.turns, modify, UserMain.inHand, hQuit]
          omega
      · intro hMem
        rw [modify, WorkerContextManager.modify_heap_self] at hMem
        simpa [modify] using (h w).quitting (hTo ▸ List.mem_cons_of_mem _ hMem)
      · rintro (⟨⟨⟩⟩ | ⟨⟨⟩⟩)
      · rintro _ _ ⟨⟩
  · next w cmd hMain => exact Handshake.answer h hMain v

theorem Handshake.recvCmd (h : ∀ v, s.Handshake v) (hBlocked : (s.mgr.heap w).pc = .blocked) (v : ω) :
    (s.recvCmd w).Handshake v := by
  have hTurns := (h w).turns
  rw [UserLoop.turns, WorkerContext.turns, hBlocked] at hTurns
  rw [UserLoop.recvCmd]
  split
  · exact h v
  · next cmd rest hOwner =>
    refine Handshake.of_step (w := w) h ?_ ?_ (.inl ?_) ⟨?_, ?_, ?_, ?_⟩ v
    · exact fun v hNe => Function.update_of_ne hNe ..
    · exact fun v hNe => Function.update_of_ne hNe ..
    · rfl
    · rw [hOwner] at hTurns
      by_cases hQuit : cmd = .kQuit
      · simp [UserPc.busy, hQuit] at hTurns
        simp [UserLoop.turns, WorkerContext.turns, modify, UserPc.busy, hQuit]
        omega
      · simp [UserPc.busy, hQuit] at hTurns
        simp [UserLoop.turns, WorkerContext.turns, modify, UserPc.busy, hQuit]
        omega
    · -- a thread that waits has not sent its last command
      intro hMem
      rw [modify, WorkerContextManager.modify_heap_self] at hMem
      rw [(h w).quitting hMem] at hBlocked
      cases hBlocked
    · simpa [modify] using (h w).dispatched
    · simpa [modify] using (h w).woken

theorem Handshake.sendCmd {wait : Bool} (h : ∀ v, s.Handshake v) (hRunning : (s.mgr.heap w).pc = .running)
    (v : ω) :
    (s.modify w fun x =>
      { x with
        pc := .blocked
        channel := x.channel.sendToMain (if wait then .kWaitForMsg else .kIdle) }).Handshake v := by
  have hTurns := (h w).turns
  rw [UserLoop.turns, WorkerContext.turns, hRunning] at hTurns
  have hCmd : (if wait then Cmd.kWaitForMsg else Cmd.kIdle) ≠ .kQuit := by cases wait <;> decide
  refine Handshake.of_modify h ⟨?_, ?_, ?_, ?_⟩ v
  · simp [UserPc.busy] at hTurns
    simp [UserLoop.turns, WorkerContext.turns, modify, UserPc.busy, hCmd]
    omega
  · intro hMem
    rw [modify, WorkerContextManager.modify_heap_self, CmdChannel.sendToMain_toMain] at hMem
    obtain hOld | hNew := List.mem_append.mp hMem
    · rw [(h w).quitting hOld] at hRunning
      cases hRunning
    · exact absurd (List.mem_singleton.mp hNew).symm hCmd
  · simp [modify]
  · simpa [modify] using (h w).woken

theorem Handshake.exit (h : ∀ v, s.Handshake v) (v : ω) :
    (s.modify w fun x =>
      { x with pc := .done, channel := x.channel.sendToMain .kQuit }).Handshake v := by
  have hTurns := (h w).turns
  rw [UserLoop.turns, WorkerContext.turns] at hTurns
  refine Handshake.of_modify h ⟨?_, ?_, ?_, ?_⟩ v
  · simp at hTurns
    simp [UserLoop.turns, WorkerContext.turns, modify, UserPc.busy]
    omega
  · simp [modify]
  · simp [modify]
  · simpa [modify] using (h w).woken

theorem Handshake.quit (h : ∀ v, s.Handshake v) (v : ω) :
    (s.modify w fun x => { x with channel := x.channel.sendToOwner .kQuit }).Handshake v := by
  have hTurns := (h w).turns
  rw [UserLoop.turns, WorkerContext.turns] at hTurns
  refine Handshake.of_modify h ⟨?_, ?_, ?_, ?_⟩ v
  · simp at hTurns
    simp [UserLoop.turns, WorkerContext.turns, modify]
    omega
  · simpa [modify] using (h w).quitting
  · simpa [modify] using (h w).dispatched
  · simpa [modify] using (h w).woken

theorem Handshake.next (c : WorkerContextManager.Setting) {l : Label ω γ} (h : ∀ v, s.Handshake v)
    (hEn : s.enabled l) (v : ω) : (s.next c l).Handshake v := by
  cases l with
  | arrive p => exact (h v).of_alike (s.mgr.deliver_alike c p v) rfl (.inl rfl)
  | weakup => exact (h v).of_alike ⟨rfl, rfl, rfl⟩ rfl (.inr (UserMain.leaves_walk [] s.mgr.weakup v))
  | event w =>
    obtain ⟨hLoop, -, hTo⟩ := hEn
    have hTurns := (h v).turns
    rw [UserLoop.turns, hLoop] at hTurns
    refine ⟨hTurns, (h v).quitting, ?_, by rintro _ _ ⟨⟩⟩
    rintro (⟨⟨⟩⟩ | ⟨⟨⟩⟩)
    exact hTo
  | main => exact Handshake.mainStep c h v
  | call w f =>
    exact (h v).of_alike (s.mgr.modify_alike w (fun x => { x with mailbox := f.apply x.mailbox })
      ⟨rfl, rfl, rfl⟩ v) rfl (.inl rfl)
  | sendCmd w wait => exact Handshake.sendCmd h hEn v
  | recvCmd w => exact Handshake.recvCmd h hEn.1 v
  | stop w =>
    exact (h v).of_alike (s.mgr.modify_alike w (fun x => { x with runing := false })
      ⟨rfl, rfl, rfl⟩ v) rfl (.inl rfl)
  | exit w => exact Handshake.exit h v
  | quit w => exact Handshake.quit h v

theorem handshake_initial (name : ω → String) (type : ω → WorkerType)
    (pendingQueueSize runQueueSize : ω → ℤ) (names : String → Option ω) (v : ω) :
    (initial name type pendingQueueSize runQueueSize names : UserLoop ω γ).Handshake v :=
  ⟨by rfl, by rintro ⟨⟩, by rintro (⟨⟨⟩⟩ | ⟨⟨⟩⟩), by rintro _ _ ⟨⟩⟩

/-- A worker that still runs when its event is handled has a turn of its own beside that of its command. -/
theorem Handshake.second_turn (h : s.Handshake w) (hAt : s.main = .dispatch w ∨ s.main = .clear w)
    (hRunning : (s.mgr.heap w).pc = .running) : 1 < s.turns w := by
  -- the command that the event is about is not a `kQuit`, for the thread still runs
  have hCmd : 0 < (s.mgr.heap w).channel.toMain.countP (· ≠ .kQuit) := by
    obtain ⟨cmd, hMem⟩ := List.exists_mem_of_ne_nil _ (h.dispatched hAt)
    refine List.countP_pos_iff.mpr ⟨cmd, hMem, decide_eq_true fun hQuit => ?_⟩
    rw [h.quitting (hQuit ▸ hMem)] at hRunning
    cases hRunning
  rw [UserLoop.turns, WorkerContext.turns, hRunning, UserPc.busy]
  omega

/-- A worker that has taken no `kQuit` is off its mailbox when the main loop is at it. -/
theorem Handshake.off (h : s.Handshake w) (hTouched : s.touched = some w) (hTaken : s.taken w = 0) :
    (s.mgr.heap w).pc = .blocked ∨ (s.mgr.heap w).pc = .done := by
  have hTurns := h.turns
  rw [hTaken] at hTurns
  cases hPc : (s.mgr.heap w).pc with
  | blocked => exact .inl rfl
  | done => exact .inr rfl
  | running =>
    rw [touched] at hTouched
    split at hTouched
    · next v hMain =>
      cases hTouched
      have hTwo := h.second_turn (.inl hMain) hPc
      omega
    · next v hMain =>
      cases hTouched
      have hTwo := h.second_turn (.inr hMain) hPc
      omega
    · split at hTouched
      · next hOwner =>
        cases hTouched
        rw [UserLoop.turns, WorkerContext.turns, hPc, UserPc.busy, if_pos hOwner] at hTurns
        omega
      · cases hTouched
    · cases hTouched

/-- A worker that waits, is woken with a message, hands over its own message and quits. -/
def soloStart : UserLoop Unit Unit :=
  initial (fun _ => "worker.a.1") (fun _ => .kWorkerUser) (fun _ => -1) (fun _ => -1)
    (fun name => if name = "worker.a.1" then some () else none)

def quitRun : List (Label Unit Unit) :=
  [.sendCmd () true, .event (), .main, .main, .main, .main, .arrive ⟨(), { dst := "worker.a.1" }⟩, .weakup, .main,
    .main, .main, .recvCmd (), .call () (.send ⟨(), {}⟩), .sendCmd () true, .event (), .main, .main, .main,
    .main, .main, .quit (), .recvCmd (), .exit (), .event (), .main, .main, .main, .main]

end UserLoop
end Myframe
