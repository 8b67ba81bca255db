import Myframe.Platform.PollerGeneric

/-! # Commands and handles stay in step

A step appends one command and one handle, reads one command and gives up one handle, or gives up a handle
that is not registered; only the last makes a difference.
-/
namespace Myframe
set_option autoImplicit false

namespace PollerGeneric

variable {ω κ : Type}

section Balance

variable [DecidableEq ω]

/-- A channel has a command for each of its handles. -/
def Covered (s : PollerGeneric ω κ) : Prop := ∀ h, s.waiting h ≤ (s.toMain h).length

/-- What a step may do to the channels and the handles. -/
inductive Effect (s t : PollerGeneric ω κ) (ok : Prop) : Prop
  | same (hOk : ok) (hMain : ∀ h, t.toMain h = s.toMain h) (hWaiting : ∀ h, t.waiting h = s.waiting h)
  | sent (hOk : ok) (h₀ : Handle ω) (cmd : Cmd)
      (hMain : ∀ h, t.toMain h = if h = h₀ then s.toMain h ++ [cmd] else s.toMain h)
      (hWaiting : ∀ h, t.waiting h = s.waiting h + if h = h₀ then 1 else 0)
  | read (hOk : ok) (h₀ : Handle ω)
      (hMain : ∀ h, t.toMain h = if h = h₀ then (s.toMain h).tail else s.toMain h)
      (hWaiting : ∀ h, s.waiting h = t.waiting h + if h = h₀ then 1 else 0)
  | skipped (hNot : ¬ ok) (h₀ : Handle ω) (hMain : ∀ h, t.toMain h = s.toMain h)
      (hWaiting : ∀ h, s.waiting h = t.waiting h + if h = h₀ then 1 else 0)

theorem Effect.balanced_iff {s t : PollerGeneric ω κ} {ok : Prop} (h : Effect s t ok) (hB : s.Balanced) :
    t.Balanced ↔ ok := by
  cases h with
  | same hOk hMain hWaiting =>
    refine iff_of_true (fun h => ?_) hOk
    rw [hMain, hWaiting]
    exact hB h
  | sent hOk h₀ cmd hMain hWaiting =>
    refine iff_of_true (fun h => ?_) hOk
    rw [hMain, hWaiting, ← hB h]
    split
    · rw [List.length_append, List.length_singleton]
    · rfl
  | read hOk h₀ hMain hWaiting =>
    refine iff_of_true (fun h => ?_) hOk
    have hBefore := hB h
    rw [hWaiting] at hBefore
    rw [hMain]
    split
    · next hEq =>
      rw [if_pos hEq] at hBefore
      rw [List.length_tail, hBefore, Nat.add_sub_cancel]
    · next hNe =>
      rw [if_neg hNe] at hBefore
      exact hBefore
  | skipped hNot h₀ hMain hWaiting =>
    refine iff_of_false (fun hAfter => ?_) hNot
    have hBefore := hB h₀
    rw [hWaiting, if_pos rfl, ← hAfter h₀, hMain] at hBefore
    omega

theorem Effect.covered {s t : PollerGeneric ω κ} {ok : Prop} (h : Effect s t ok) (hC : s.Covered) : t.Covered := by
  intro h'
  have hBefore := hC h'
  cases h with
  | same hOk hMain hWaiting =>
    rw [hMain, hWaiting]
    exact hBefore
  | sent hOk h₀ cmd hMain hWaiting =>
    rw [hMain, hWaiting]
    split
    · rw [List.length_append, List.length_singleton]
      omega
    · exact hBefore
  | read hOk h₀ hMain hWaiting =>
    rw [hWaiting] at hBefore
    rw [hMain]
    split
    · next hEq =>
      rw [if_pos hEq] at hBefore
      rw [List.length_tail]
      omega
    · next hNe =>
      rw [if_neg hNe] at hBefore
      exact hBefore
  | skipped hNot h₀ hMain hWaiting =>
    rw [hWaiting] at hBefore
    rw [hMain]
    omega

variable {s t : PollerGeneric ω κ}

theorem waiting_congr (hEvs : t.evs = s.evs) (hBatch : t.batch = s.batch) (hCurrent : t.current = s.current)
    (h : Handle ω) : t.waiting h = s.waiting h := by
  rw [waiting, waiting, hEvs, hBatch, hCurrent]

theorem count_handle (h h₀ : Handle ω) : List.count h [h₀] = if h = h₀ then 1 else 0 := by
  obtain rfl | hNe := eq_or_ne h h₀
  · simp
  · simp [hNe, hNe.symm]

theorem waiting_notify {h₀ : Handle ω} (hEvs : t.evs = s.evs ++ [h₀]) (hBatch : t.batch = s.batch)
    (hCurrent : t.current = s.current) (h : Handle ω) : t.waiting h = s.waiting h + if h = h₀ then 1 else 0 := by
  rw [waiting, waiting, hEvs, hBatch, hCurrent, List.count_append, count_handle]
  omega

theorem waiting_read {h₀ : Handle ω} (hEvs : t.evs = s.evs) (hBatch : t.batch = s.batch)
    (hBefore : s.current = some h₀) (hAfter : t.current = none) (h : Handle ω) :
    s.waiting h = t.waiting h + if h = h₀ then 1 else 0 := by
  rw [waiting, waiting, hEvs, hBatch, hBefore, hAfter]
  obtain rfl | hNe := eq_or_ne h h₀
  · simp
  · simp [hNe, hNe.symm]

theorem setWorker_toMain (w : ω) (x : TurnWorker) (h : Handle ω) :
    (s.setWorker w x).toMain h = if h = .worker w then x.toMain else s.toMain h := by
  cases h with
  | worker v =>
    obtain rfl | hNe := eq_or_ne v w
    · simp [toMain, setWorker]
    · simp [toMain, setWorker, hNe]
  | conn n => simp [toMain, setWorker]

theorem setWorker_toMain_map {f : List Cmd → List Cmd} {w : ω} {x : TurnWorker}
    (hToMain : x.toMain = f (s.toMain (.worker w))) (h : Handle ω) :
    (s.setWorker w x).toMain h = if h = .worker w then f (s.toMain h) else s.toMain h := by
  rw [setWorker_toMain]
  split
  · next hEq => rw [hEq, hToMain]
  · rfl

theorem effect_sendToMain (w : ω) (cmd : Cmd) (pc : TurnPc) : Effect s (s.sendToMain w cmd pc) True := by
  refine .sent trivial (.worker w) cmd (fun h => ?_) fun h => by refine waiting_notify ?_ ?_ ?_ h <;> rfl
  exact setWorker_toMain_map (f := (· ++ [cmd])) rfl h

theorem effect_reply (w : ω) : Effect s (s.setWorker w { s.workers w with pc := .running }) True := by
  refine .same trivial (fun h => ?_) fun h => by refine waiting_congr ?_ ?_ ?_ h <;> rfl
  have hSame : ({ s.workers w with pc := .running } : TurnWorker).toMain = id (s.toMain (.worker w)) := rfl
  exact (setWorker_toMain_map hSame h).trans (ite_self _)

theorem effect_take (hCurrent : s.current = none) (hBatch : s.batch ≠ []) :
    Effect s s.take (s.TakesRegistered .take) := by
  cases hList : s.batch with
  | nil => exact absurd hList hBatch
  | cons h₀ rest =>
    have hHead : s.TakesRegistered .take ↔ s.registered h₀ = true := by
      simp only [TakesRegistered, hList, List.head?_cons, Option.mem_some_iff, forall_eq']
    have hWaiting : ∀ h, s.waiting h = s.evs.count h + rest.count h + if h = h₀ then 1 else 0 := by
      intro h
      rw [waiting, hList, hCurrent, ← List.singleton_append, List.count_append, count_handle]
      simp only [reduceCtorEq, if_false]
      omega
    simp only [take, hList]
    split
    · next hReg =>
      refine .same (hHead.mpr hReg) (fun h => ?_) fun h => ?_
      · cases h₀ with
        | worker w => rfl
        | conn n => cases h <;> rfl
      · rw [hWaiting, waiting]
        simp only [Option.some_inj, eq_comm]
    · next hReg =>
      refine .skipped (fun hOk => hReg (hHead.mp hOk)) h₀ (fun h => rfl) fun h => ?_
      rw [hWaiting, waiting]
      simp [hCurrent]

omit [DecidableEq ω] in
theorem Formed.current (hF : s.Formed) {n : ℕ} (hEvent : s.mgr.event = some n) : s.current = some (.conn n) := by
  have hConn := hF.event.symm.trans hEvent
  cases hCur : s.current with
  | none =>
    rw [hCur] at hConn
    cases hConn
  | some h =>
    rw [hCur] at hConn
    cases h with
    | worker w => cases hConn
    | conn m =>
      obtain rfl : m = n := Option.some.inj hConn
      rfl

theorem effect_mainStep (hF : s.Formed) (c : EventConnManager.Setting) : Effect s (s.mainStep c) True := by
  obtain ⟨n, hReading, hEvent, -, hMain⟩ | ⟨hReading, -, hMain⟩ := mainStep_toMain s.mgr c
  · have hCurrent := hF.current hEvent
    simp only [mainStep, hReading]
    refine .read trivial (.conn n) (fun h => ?_) fun h => ?_
    · cases h with
      | worker w => simp [toMain]
      | conn m => simp only [toMain, hMain m, Handle.conn.injEq]
    · refine waiting_read ?_ ?_ hCurrent ?_ h <;> rfl
  · simp only [mainStep, hReading]
    refine .same trivial (fun h => ?_) fun h => by refine waiting_congr ?_ ?_ ?_ h <;> rfl
    cases h with
    | worker w => rfl
    | conn m => exact hMain m

theorem effect_recv : Effect s s.recv True := by
  unfold recv
  split
  · next w hCurrent =>
    split
    · exact .same trivial (fun _ => rfl) fun _ => rfl
    · next rest hMain =>
      refine .read trivial (.worker w) (fun h => ?_) fun h => by refine waiting_read ?_ ?_ hCurrent ?_ h <;> rfl
      exact setWorker_toMain_map (f := List.tail) (by rw [toMain, hMain, List.tail_cons]) h
    · next cmd rest _ hMain =>
      refine .read trivial (.worker w) (fun h => ?_) fun h => by refine waiting_read ?_ ?_ hCurrent ?_ h <;> rfl
      exact setWorker_toMain_map (f := List.tail) (by rw [toMain, hMain, List.tail_cons]) h
  · exact .same trivial (fun _ => rfl) fun _ => rfl

variable [DecidableEq κ]

theorem effect_alloc (hF : s.Formed) (k : κ) (type : ConnType) (msg : Msg) :
    Effect s (s.alloc k type msg) True := by
  obtain ⟨-, -, hMain⟩ := alloc_toMain s.mgr k type msg (hF.fresh _ (Nat.le_refl _))
  have hSame : (s.alloc k type msg).mgr = s.mgr.alloc k type msg ∧
      (s.alloc k type msg).workers = s.workers ∧
      ∀ h, (s.alloc k type msg).waiting h = s.waiting h := by
    unfold alloc
    split <;> exact ⟨rfl, rfl, fun _ => rfl⟩
  refine .same trivial (fun h => ?_) hSame.2.2
  cases h with
  | worker w => simp only [toMain, hSame.2.1]
  | conn n => simp only [toMain, hSame.1, hMain]

theorem effect_callStep {k : κ} (hReady : s.mgr.ready k = true) : Effect s (s.callStep k) True := by
  obtain ⟨n, hHolds⟩ := EventConnManager.holds_of_ready hReady
  have hFrame := EventConnManager.callStep_frame hHolds
  obtain ⟨-, hMain⟩ := callStep_toMain s.mgr hHolds
  have hOther : ∀ h, h ≠ .conn n → ∀ t : PollerGeneric ω κ, t.mgr = s.mgr.callStep k → t.workers = s.workers →
      t.toMain h = s.toMain h := by
    intro h hNe t hMgr hWorkers
    cases h with
    | worker w => simp only [toMain, hWorkers]
    | conn m => simp only [toMain, hMgr, hFrame.conn m fun hEq => hNe (congrArg Handle.conn hEq)]
  rw [callStep]
  split
  · next m hQueued =>
    obtain rfl : m = n := hHolds.eq hQueued rfl
    rw [if_pos hQueued] at hMain
    obtain ⟨cmd, hMain⟩ := hMain
    refine .sent trivial (.conn m) cmd (fun h => ?_) fun h => by refine waiting_notify ?_ ?_ ?_ h <;> rfl
    split
    · next hEq =>
      subst hEq
      exact hMain
    · next hNe => exact hOther h hNe _ rfl rfl
  · next hNot =>
    rw [if_neg (hNot n)] at hMain
    refine .same trivial (fun h => ?_) fun h => by refine waiting_congr ?_ ?_ ?_ h <;> rfl
    obtain rfl | hNe := eq_or_ne h (.conn n)
    · exact hMain
    · exact hOther h hNe _ rfl rfl

theorem effect_next (hF : s.Formed) (c : EventConnManager.Setting) {l : Label ω κ} (hEn : s.enabled l) :
    Effect s (s.next c l) (s.TakesRegistered l) := by
  cases l with
  | alloc k type msg => exact effect_alloc hF k type msg
  | call k => exact effect_callStep hEn
  | send w wait => exact effect_sendToMain ..
  | exit w => exact effect_sendToMain ..
  | reply w => exact effect_reply w
  | wait =>
    obtain ⟨-, hCurrent, hBatch⟩ := hEn
    refine .same trivial (fun _ => rfl) fun h => ?_
    rw [waiting, waiting, hBatch]
    simp [next, hCurrent]
  | take => exact effect_take hEn.2.1 hEn.2.2
  | answer p m | arrive m => exact .same trivial (fun _ => rfl) fun _ => rfl
  | main => exact effect_mainStep hF c
  | recv => exact effect_recv

omit [DecidableEq ω] in
theorem alloc_calls_ne {k l : κ} (hNe : l ≠ k) {type : ConnType} {msg : Msg} :
    (s.mgr.alloc k type msg).calls l = s.mgr.calls l := by
  obtain ⟨t, n, rest, hFrom, -, hEq⟩ := s.mgr.alloc_cases k type msg
  have hCalls : t.calls = s.mgr.calls := by obtain ⟨-, rfl⟩ | ⟨-, rfl⟩ := hFrom <;> rfl
  obtain ⟨-, hEq⟩ | ⟨-, hEq⟩ := hEq
  · rw [hEq, EventConnManager.taken_calls_ne hNe, hCalls]
  · simp only [hEq, Function.update_of_ne hNe, hCalls]

def Begun (s : PollerGeneric ω κ) : Prop := ∀ n, ∀ k ∈ s.senders n, (s.mgr.calls k).pc ≠ .start

omit [DecidableEq ω] in
theorem alloc_cases (k : κ) (type : ConnType) (msg : Msg) :
    (∃ n, (s.mgr.idleConn.head? = some n ∧ s.mgr.evMgr.evs n = false ∨ s.mgr.idleConn = [] ∧ n = s.mgr.connSz) ∧
        s.alloc k type msg =
          { s with mgr := s.mgr.alloc k type msg, user := Function.update s.user n (some k) }) ∨
      (∀ n, s.mgr.idleConn.head? = some n → s.mgr.evMgr.evs n = true) ∧
        s.alloc k type msg = { s with mgr := s.mgr.alloc k type msg } := by
  obtain ⟨t, n, rest, hFrom, hIdle, hEq⟩ := s.mgr.alloc_cases k type msg
  obtain ⟨hReg, hEq⟩ | ⟨hReg, hEq⟩ := hEq
  · have hPc : ((s.mgr.alloc k type msg).calls k).pc = .allocated n := by
      rw [hEq, EventConnManager.taken_calls_self]
    refine .inl ⟨n, ?_, by simp only [alloc, hPc]⟩
    obtain ⟨-, rfl⟩ | ⟨hNil, rfl⟩ := hFrom
    · exact .inl ⟨by rw [hIdle, List.head?_cons], hReg⟩
    · refine .inr ⟨hNil, ?_⟩
      rw [EventConnManager.addEventConn, hNil, List.nil_append] at hIdle
      exact (List.cons.inj hIdle).1.symm
  · have hPc : ((s.mgr.alloc k type msg).calls k).pc = .returned none := by
      simp only [hEq, Function.update_self]
    refine .inr ⟨fun m hHead => ?_, by simp only [alloc, hPc]⟩
    obtain ⟨-, rfl⟩ | ⟨hNil, -⟩ := hFrom
    · rw [hIdle, List.head?_cons] at hHead
      exact Option.some.inj hHead ▸ hReg
    · rw [hNil] at hHead
      cases hHead

omit [DecidableEq ω] [DecidableEq κ] in
theorem Formed.senders_nil (hF : s.Formed) {n : ℕ} :
    s.senders n = [] ↔ (s.mgr.conns n).channel.toMain = [] := by
  rw [← List.length_eq_zero_iff, hF.parallel, List.length_eq_zero_iff]

omit [DecidableEq ω] in
theorem own_alloc (hF : s.Formed) (hBegun : s.Begun) (hOwn : s.Own) {k : κ} (hStart : (s.mgr.calls k).pc = .start)
    (type : ConnType) (msg : Msg) : (s.alloc k type msg).Own ↔ s.SendsOwn (.alloc k type msg) := by
  obtain ⟨n, hTaken, hEq⟩ | ⟨hReg, hEq⟩ := alloc_cases (s := s) k type msg
  · have hNil : (s.alloc k type msg).Own ↔ s.senders n = [] := by
      rw [hEq]
      constructor
      · intro hAfter
        refine List.eq_nil_iff_forall_not_mem.mpr fun l hl => ?_
        have hUser : Function.update s.user n (some k) n = some l := hAfter n l hl
        rw [Function.update_self] at hUser
        exact hBegun n l hl (Option.some.inj hUser ▸ hStart)
      · intro hNil m l hl
        obtain rfl | hNe := eq_or_ne m n
        · rw [hNil] at hl
          cases hl
        · exact (Function.update_of_ne hNe ..).trans (hOwn m l hl)
    rw [hNil, hF.senders_nil]
    obtain ⟨hHead, hReg⟩ | ⟨hIdle, rfl⟩ := hTaken
    · refine ⟨fun hMain m hm _ => ?_, fun hSends => hSends n hHead hReg⟩
      obtain rfl : n = m := Option.some.inj (hHead.symm.trans hm)
      exact hMain
    · refine iff_of_true (hF.fresh _ (Nat.le_refl _)) fun m hm => ?_
      rw [hIdle] at hm
      cases hm
  · rw [hEq]
    refine iff_of_true hOwn fun n hn hFalse => ?_
    exact absurd ((hReg n hn).symm.trans hFalse) Bool.true_eq_false.mp

omit [DecidableEq ω] in
theorem own_callStep (hOwn : s.Own) (k : κ) : (s.callStep k).Own ↔ s.SendsOwn (.call k) := by
  rw [callStep]
  split
  · next n hQueued =>
    have hSends : s.SendsOwn (.call k) ↔ s.user n = some k := by
      refine ⟨fun h => h n hQueued, fun hUser m hm => ?_⟩
      obtain rfl : n = m := CallPc.queued.inj (hQueued.symm.trans hm)
      exact hUser
    rw [hSends]
    constructor
    · intro hAfter
      refine hAfter n k ?_
      simp only [Function.update_self]
      exact List.mem_append_right _ List.mem_cons_self
    · intro hUser m l hl
      obtain rfl | hNe := eq_or_ne m n
      · simp only [Function.update_self, List.mem_append, List.mem_singleton] at hl
        obtain hl | rfl := hl
        · exact hOwn m l hl
        · exact hUser
      · simp only [Function.update_of_ne hNe] at hl
        exact hOwn m l hl
  · next hNot => exact iff_of_true hOwn fun n hn => absurd hn (hNot n)

omit [DecidableEq ω] [DecidableEq κ] in
theorem mainStep_senders (c : EventConnManager.Setting) :
    (s.mainStep c).user = s.user ∧ (s.mainStep c).mgr = s.mgr.mainStep c ∧
      ∀ n, ∀ k ∈ (s.mainStep c).senders n, k ∈ s.senders n := by
  unfold mainStep
  split
  · next m _ =>
    refine ⟨rfl, rfl, fun n k hk => ?_⟩
    obtain rfl | hNe := eq_or_ne n m
    · simp only [Function.update_self] at hk
      exact List.mem_of_mem_tail hk
    · simpa only [Function.update_of_ne hNe] using hk
  · exact ⟨rfl, rfl, fun _ _ hk => hk⟩

omit [DecidableEq κ] in
theorem recv_senders : s.recv.user = s.user ∧ s.recv.mgr = s.mgr ∧ s.recv.senders = s.senders := by
  unfold recv
  split
  · split <;> exact ⟨rfl, rfl, rfl⟩
  · exact ⟨rfl, rfl, rfl⟩

omit [DecidableEq ω] [DecidableEq κ] in
theorem take_senders : s.take.user = s.user ∧ s.take.mgr.calls = s.mgr.calls ∧ s.take.senders = s.senders := by
  unfold take
  split
  · exact ⟨rfl, rfl, rfl⟩
  · next h rest _ =>
    split
    · cases h <;> exact ⟨rfl, rfl, rfl⟩
    · exact ⟨rfl, rfl, rfl⟩

theorem own_next (hF : s.Formed) (hBegun : s.Begun) (hOwn : s.Own) (c : EventConnManager.Setting)
    {l : Label ω κ} (hEn : s.enabled l) : (s.next c l).Own ↔ s.SendsOwn l := by
  cases l with
  | alloc k type msg => exact own_alloc hF hBegun hOwn hEn type msg
  | call k => exact own_callStep hOwn k
  | send w wait | exit w | reply w | wait | answer p m | arrive m => exact iff_of_true hOwn trivial
  | take =>
    obtain ⟨hUser, -, hSenders⟩ := take_senders (s := s)
    refine iff_of_true (fun n k hk => ?_) trivial
    rw [next, hUser]
    rw [next, hSenders] at hk
    exact hOwn n k hk
  | main =>
    obtain ⟨hUser, -, hSenders⟩ := mainStep_senders (s := s) c
    refine iff_of_true (fun n k hk => ?_) trivial
    rw [next, hUser]
    exact hOwn n k (hSenders n k hk)
  | recv =>
    obtain ⟨hUser, -, hSenders⟩ := recv_senders (s := s)
    refine iff_of_true (fun n k hk => ?_) trivial
    rw [next, hUser]
    rw [next, hSenders] at hk
    exact hOwn n k hk

theorem begun_next (hBegun : s.Begun) (c : EventConnManager.Setting) {l : Label ω κ} (hEn : s.enabled l) :
    (s.next c l).Begun := by
  cases l with
  | alloc k type msg =>
    have hSame : (s.alloc k type msg).mgr = s.mgr.alloc k type msg ∧
        (s.alloc k type msg).senders = s.senders := by
      unfold alloc
      split <;> exact ⟨rfl, rfl⟩
    intro n l hl
    rw [next, hSame.2] at hl
    have hBefore := hBegun n l hl
    rw [next, hSame.1]
    have hNe : l ≠ k := by
      rintro rfl
      exact hBefore hEn
    rw [alloc_calls_ne hNe]
    exact hBefore
  | call k =>
    obtain ⟨m, hHolds⟩ := EventConnManager.holds_of_ready hEn
    have hStarted := EventConnManager.callStep_started hHolds
    have hOthers := (EventConnManager.callStep_frame hHolds).others
    have hMgr : (s.callStep k).mgr = s.mgr.callStep k ∧
        ∀ n, ∀ l ∈ (s.callStep k).senders n, l ∈ s.senders n ∨ l = k := by
      rw [callStep]
      split
      · next v _ =>
        refine ⟨rfl, fun n l hl => ?_⟩
        obtain rfl | hNe := eq_or_ne n v
        · simp only [Function.update_self, List.mem_append, List.mem_singleton] at hl
          exact hl
        · simp only [Function.update_of_ne hNe] at hl
          exact .inl hl
      · exact ⟨rfl, fun _ _ hl => .inl hl⟩
    intro n l hl
    rw [next, hMgr.1]
    obtain rfl | hNe := eq_or_ne l k
    · exact hStarted
    · rw [hOthers l hNe]
      exact hBegun n l ((hMgr.2 n l hl).resolve_right hNe)
  | send w wait | exit w | reply w | wait | answer p m | arrive m => exact hBegun
  | take =>
    obtain ⟨-, hCalls, hSenders⟩ := take_senders (s := s)
    intro n k hk
    rw [next, hCalls]
    rw [next, hSenders] at hk
    exact hBegun n k hk
  | main =>
    obtain ⟨-, hMgr, hSenders⟩ := mainStep_senders (s := s) c
    intro n k hk
    rw [next, hMgr, (EventConnManager.mainStep_frame s.mgr c).calls]
    exact hBegun n k (hSenders n k hk)
  | recv =>
    obtain ⟨-, hMgr, hSenders⟩ := recv_senders (s := s)
    intro n k hk
    rw [next, hMgr]
    rw [next, hSenders] at hk
    exact hBegun n k hk

omit [DecidableEq κ] in
theorem Covered.current (hC : s.Covered) {h : Handle ω} (hCurrent : s.current = some h) : s.toMain h ≠ [] := by
  intro hNil
  have hLe := hC h
  rw [hNil, List.length_nil, waiting, if_pos hCurrent] at hLe
  omega

omit [DecidableEq κ] in
theorem Formed.finds (hF : s.Formed) (hC : s.Covered) (l : Label ω κ) : s.Finds l := by
  cases l with
  | main =>
    intro n hReading
    obtain ⟨m, hm, hEvent, -, -⟩ | ⟨hNone, -, -⟩ := mainStep_toMain s.mgr {}
    · obtain rfl : n = m := Option.some.inj (hReading.symm.trans hm)
      exact hC.current (hF.current hEvent)
    · rw [hNone] at hReading
      cases hReading
  | recv =>
    intro w hCurrent
    have hPos := List.length_pos_iff.mpr (hC.current hCurrent)
    have hShort := hF.short w
    exact Nat.le_antisymm hShort hPos
  | alloc | call | send | exit | reply | wait | take | answer | arrive => trivial

omit [DecidableEq ω] [DecidableEq κ] in
theorem readsOwn (hOwn : s.Own) {l : Label ω κ} (hF : s.Formed) (hFinds : s.Finds l) : s.ReadsOwn l := by
  cases l with
  | main =>
    intro n hReading
    have hSome : s.senders n ≠ [] := mt hF.senders_nil.mp (hFinds n hReading)
    refine ⟨(s.senders n).head hSome, List.head?_eq_some_head hSome, hOwn n _ (List.head_mem hSome)⟩
  | alloc | call | send | exit | reply | wait | take | answer | arrive | recv => trivial

omit [DecidableEq κ] in
theorem covered_initial (sz : ℕ) : (initial sz : PollerGeneric ω κ).Covered := fun _ => Nat.zero_le _

omit [DecidableEq κ] in
theorem balanced_initial (sz : ℕ) : (initial sz : PollerGeneric ω κ).Balanced := by
  intro h
  cases h with
  | worker w => rfl
  | conn n =>
    simp only [toMain, initial, (initial_conns sz).2]
    rfl

omit [DecidableEq ω] [DecidableEq κ] in
theorem own_initial (sz : ℕ) : (initial sz : PollerGeneric ω κ).Own := by rintro _ _ ⟨⟩

omit [DecidableEq ω] [DecidableEq κ] in
theorem begun_initial (sz : ℕ) : (initial sz : PollerGeneric ω κ).Begun := by rintro _ _ ⟨⟩

/-- The counts agree just as long as no handle is skipped. A command is there to be read in any case; that it
is one of the call whose connection it is takes calls that keep their connections until they have sent. -/
theorem inStep_visited (c : EventConnManager.Setting) (sz : ℕ) (ls : List (Label ω κ))
    (h : (system c).Runs (initial sz) ls) :
    ((∀ t ∈ (system c).visited (initial sz) ls, t.Balanced) ↔
      ∀ p ∈ (system c).steps (initial sz) ls, p.1.TakesRegistered p.2) ∧
    ((∀ t ∈ (system c).visited (initial sz) ls, t.Own) ↔
      ∀ p ∈ (system c).steps (initial sz) ls, p.1.SendsOwn p.2) ∧
    (∀ p ∈ (system c).steps (initial sz) ls, p.1.Finds p.2) ∧
    ((∀ p ∈ (system c).steps (initial sz) ls, p.1.SendsOwn p.2) →
      ∀ p ∈ (system c).steps (initial sz) ls, p.1.ReadsOwn p.2) := by
  have hCovered : ∀ (s : PollerGeneric ω κ) (l : Label ω κ), s.Formed ∧ s.Covered → s.enabled l → True →
      (s.next c l).Formed ∧ (s.next c l).Covered :=
    fun s l hs hEn _ => ⟨formed_next hs.1 c hEn, (effect_next hs.1 c hEn).covered hs.2⟩
  have hBegun : ∀ (s : PollerGeneric ω κ) (l : Label ω κ), s.Formed ∧ s.Begun → s.enabled l →
      (s.next c l).Formed ∧ (s.next c l).Begun :=
    fun s l hs hEn => ⟨formed_next hs.1 c hEn, begun_next hs.2 c hEn⟩
  have hOwn : ∀ (s : PollerGeneric ω κ) (l : Label ω κ), (s.Formed ∧ s.Begun) ∧ s.Own → s.enabled l →
      s.SendsOwn l → ((s.next c l).Formed ∧ (s.next c l).Begun) ∧ (s.next c l).Own :=
    fun s l hs hEn hOk => ⟨hBegun s l hs.1 hEn, (own_next hs.1.1 hs.1.2 hs.2 c hEn).mpr hOk⟩
  have hFinds : ∀ p ∈ (system c).steps (initial sz) ls, p.1.Formed ∧ p.1.Finds p.2 := by
    intro p hp
    obtain ⟨⟨hF, hC⟩, -⟩ := (system c).inv_steps hCovered ⟨formed_initial sz, covered_initial sz⟩ h
      (fun _ _ => trivial) p hp
    exact ⟨hF, hF.finds hC p.2⟩
  refine ⟨?_, ?_, fun p hp => (hFinds p hp).2, fun hSends p hp => ?_⟩
  · exact (system c).inv_visited_iff (fun s l hs _ hEn _ => formed_next hs c hEn)
      (fun s l hs hB hEn => (effect_next hs c hEn).balanced_iff hB) (formed_initial sz) (balanced_initial sz) h
  · exact (system c).inv_visited_iff (fun s l hs _ hEn _ => hBegun s l hs hEn)
      (fun s l hs hOwn hEn => own_next hs.1 hs.2 hOwn c hEn) ⟨formed_initial sz, begun_initial sz⟩
      (own_initial sz) h
  · obtain ⟨⟨-, hOwner⟩, -⟩ := (system c).inv_steps hOwn
      ⟨⟨formed_initial sz, begun_initial sz⟩, own_initial sz⟩ h hSends p hp
    exact readsOwn hOwner (hFinds p hp).1 (hFinds p hp).2

end Balance

/-- One connection, one worker and two requests. The first is answered once, then a second time. -/
def echoSetting : EventConnManager.Setting where
  hasActor name := name = "actor.echo.1"

def request (k : Bool) : List (Label Unit Bool) :=
  [.alloc k .kSendReq { dst := "actor.echo.1" }, .call k, .call k, .call k, .call k]

def answer : Label Unit Bool :=
  .answer ⟨.call false, { dst := "actor.echo.1", src := "event.conn.0" }⟩ {}

/-- The worker comes to the main loop, which dispatches what its actor has answered. -/
def answerRun : List (Label Unit Bool) :=
  [.wait, .take, answer, .main, .main, .main, .main, .main, .main, .recv]

def answeredRun : List (Label Unit Bool) :=
  request false ++ [.wait, .take, .main, .main, .main, .main, .main, .send () false] ++ answerRun ++
    [.reply (), .call false, .call false, .call false, .call false]

theorem inStep_visited_answered :
    (((system echoSetting).exec (initial 1) answeredRun).mgr.calls false).pc =
      .returned (some ⟨.answer (.call false), { dst := "event.conn.0" }⟩) ∧
    (∀ t ∈ (system echoSetting).visited (initial 1) answeredRun, t.Balanced) ∧
    (∀ t ∈ (system echoSetting).visited (initial 1) answeredRun, t.Own) ∧
    ∀ p ∈ (system echoSetting).steps (initial 1) answeredRun, p.1.ReadsOwn p.2 := by
  obtain ⟨hBalanced, hOwn, -, hReads⟩ := inStep_visited echoSetting 1 answeredRun (by decide)
  exact ⟨by decide, hBalanced.mpr (by decide), hOwn.mpr (by decide), hReads (by decide)⟩

def skippedRun : List (Label Unit Bool) :=
  answeredRun ++ [.send () false] ++ request true ++ answerRun ++ [.take]

/-- The second answer releases the connection of the second request, whose handle is next in the batch. -/
theorem second_handle_skipped : (system echoSetting).Runs (initial 1) skippedRun ∧
    ¬ ∀ t ∈ (system echoSetting).visited (initial 1) skippedRun, t.Balanced := by
  refine ⟨by decide, fun hAll => ?_⟩
  have hLast := hAll _ ((system echoSetting).mem_visited_of_exec (initial 1) skippedRun)
  exact absurd (hLast (.conn 0)) (by decide)

end PollerGeneric
end Myframe
