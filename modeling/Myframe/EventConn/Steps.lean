import Myframe.EventConn.Main

/-! # What each step does to a connection -/
namespace Myframe
set_option autoImplicit false

namespace Notify

variable {κ : Type}

def conn : Notify κ → Option ℕ
  | .ready => none
  | .found n _ | .checked n _ | .deleted n _ | .released n _ | .stored n => some n

/-- The connection that a `Notify` has deleted and not told yet. -/
def releasing : Notify κ → Option ℕ
  | .ready | .found .. | .checked .. => none
  | .deleted n _ | .released n _ | .stored n => some n

end Notify

namespace EventConnManager

variable {κ : Type}

/-- What a step of the main loop may do to a connection. -/
structure MainStep (s t : EventConnManager κ) (n : ℕ) : Prop where
  toOwner : ∃ cmds, (t.conns n).channel.toOwner = (s.conns n).channel.toOwner ++ cmds
  evs : t.evMgr.evs n = s.evMgr.evs n ∨ t.evMgr.evs n = false ∧ t.notify.releasing = some n
  idle : n ∈ t.idleConn → n ∈ s.idleConn ∨ s.notify.conn = some n
  notify : t.notify.conn = some n → s.notify.conn = some n ∨ s.evMgr.evs n = true
  releasing : s.notify.releasing = some n →
    t.notify.releasing = some n ∨ (t.conns n).channel.toOwner ≠ []

theorem MainStep.of_same {s t : EventConnManager κ} {n : ℕ}
    (hConns : (t.conns n).channel.toOwner = (s.conns n).channel.toOwner) (hEvs : t.evMgr = s.evMgr)
    (hIdle : t.idleConn = s.idleConn) (hNotify : t.notify = s.notify) : MainStep s t n :=
  ⟨⟨[], by rw [hConns, List.append_nil]⟩, .inl (by rw [hEvs]), fun hn => .inl (hIdle ▸ hn),
    fun hn => .inl (hNotify ▸ hn), fun hn => .inl (hNotify ▸ hn)⟩

theorem mapConn_channel (s : EventConnManager κ) (m n : ℕ) (f : EventConn κ → EventConn κ)
    (h : (f (s.conns m)).channel = (s.conns m).channel) :
    ((s.mapConn m f).conns n).channel = (s.conns n).channel := by
  obtain rfl | hNe := eq_or_ne n m
  · rw [mapConn_conns_self, h]
  · rw [mapConn_conns_ne _ _ _ hNe]

/-- The main loop answers a `kRun`, and nothing else. -/
theorem receive_toOwner (s : EventConnManager κ) (m n : ℕ) :
    ((s.receive m).conns n).channel.toOwner = (s.conns n).channel.toOwner ∨
      m = n ∧ (s.conns n).channel.toMain.head? = some .kRun ∧
        ((s.receive m).conns n).channel.toOwner = (s.conns n).channel.toOwner ++ [.kIdle] := by
  unfold receive
  split
  · exact .inl rfl
  · next cmd rest hMain =>
    dsimp only
    obtain rfl | hNe := eq_or_ne n m
    · split
      · next hRun => exact .inr ⟨rfl, by rw [hMain, hRun]; rfl, by simp⟩
      · exact .inl (by simp)
    · split
      · exact .inl (by simp only [mapConn_conns_ne _ _ _ hNe])
      · exact .inl (by simp only [mapConn_conns_ne _ _ _ hNe])

theorem receive_rest (s : EventConnManager κ) (m : ℕ) :
    (s.receive m).evMgr = s.evMgr ∧ (s.receive m).idleConn = s.idleConn ∧
      (s.receive m).notify = s.notify := by
  unfold receive
  split
  · exact ⟨rfl, rfl, rfl⟩
  · dsimp only
    split <;> exact ⟨rfl, rfl, rfl⟩

theorem notifyStep_spec (s : EventConnManager κ) (n : ℕ) : MainStep s (s.notifyStep s.notify) n := by
  cases hNotify : s.notify with
  | ready => exact .of_same rfl rfl rfl rfl
  | found m p =>
    rw [notifyStep]
    split
    · exact ⟨⟨[], (List.append_nil _).symm⟩, .inl rfl, .inl, by rintro ⟨⟩, by rw [hNotify]; rintro ⟨⟩⟩
    · exact ⟨⟨[], (List.append_nil _).symm⟩, .inl rfl, .inl, fun hn => .inl (by rw [hNotify]; exact hn),
        by rw [hNotify]; rintro ⟨⟩⟩
  | checked m p =>
    rw [notifyStep]
    split
    · refine ⟨⟨[], (List.append_nil _).symm⟩, ?_, .inl, fun hn => .inl (by rw [hNotify]; exact hn),
        by rw [hNotify]; rintro ⟨⟩⟩
      obtain rfl | hNe := eq_or_ne n m
      · exact .inr ⟨Function.update_self .., rfl⟩
      · exact .inl (Function.update_of_ne hNe ..)
    · exact ⟨⟨[], (List.append_nil _).symm⟩, .inl rfl, .inl, fun hn => .inl (by rw [hNotify]; exact hn),
        by rw [hNotify]; rintro ⟨⟩⟩
  | deleted m p =>
    refine ⟨⟨[], (List.append_nil _).symm⟩, .inl rfl, fun hn => ?_, fun hn => .inl (by rw [hNotify]; exact hn),
      fun hn => .inl (by rw [hNotify] at hn; exact hn)⟩
    rw [hNotify]
    obtain hn | hn := List.mem_append.mp hn
    · exact .inl hn
    · exact .inr (by rw [List.mem_singleton.mp hn]; rfl)
  | released m p =>
    refine ⟨⟨[], ?_⟩, .inl rfl, .inl, fun hn => .inl (by rw [hNotify]; exact hn),
      fun hn => .inl (by rw [hNotify] at hn; exact hn)⟩
    rw [List.append_nil]
    exact congrArg CmdChannel.toOwner
      (s.mapConn_channel m n (fun x => { x with mailbox := x.mailbox.receive p }) rfl)
  | stored m =>
    refine ⟨?_, .inl rfl, .inl, by rintro ⟨⟩, fun hn => .inr ?_⟩
    · obtain rfl | hNe := eq_or_ne n m
      · exact ⟨[.kIdle], by simp [notifyStep]⟩
      · refine ⟨[], ?_⟩
        simp only [notifyStep, mapConn_conns_ne _ _ _ hNe, List.append_nil]
    · rw [hNotify] at hn
      obtain rfl : m = n := Option.some.inj hn
      simp [notifyStep]

theorem setSend_channel (s : EventConnManager κ) (m n : ℕ) (send : List (Parcel (Origin κ))) :
    ((s.mapConn m fun x => { x with mailbox := { x.mailbox with send := send } }).conns n).channel =
      (s.conns n).channel :=
  s.mapConn_channel m n (fun x => { x with mailbox := { x.mailbox with send := send } }) rfl

theorem processEventConn_spec (s : EventConnManager κ) (c : Setting) (m n : ℕ) :
    MainStep s (s.processEventConn c m) n := by
  have hSend := fun send => congrArg CmdChannel.toOwner (s.setSend_channel m n send)
  unfold EventConnManager.processEventConn
  split
  · split
    · next p rest _ => exact .of_same (hSend rest) rfl rfl rfl
    · exact .of_same rfl rfl rfl rfl
  · exact .of_same (hSend []) rfl rfl rfl
  · obtain ⟨hEvs, hIdle, hNotify⟩ := s.receive_rest m
    have hOwner : ∃ cmds, ((s.receive m).conns n).channel.toOwner = (s.conns n).channel.toOwner ++ cmds := by
      obtain hSame | ⟨-, -, hTold⟩ := s.receive_toOwner m n
      · exact ⟨[], by rw [hSame, List.append_nil]⟩
      · exact ⟨[.kIdle], hTold⟩
    exact ⟨hOwner, .inl (congrArg (fun e => e.evs n) hEvs), fun hn => .inl (hIdle ▸ hn),
      fun hn => .inl (hNotify ▸ hn), fun hn => .inl (hNotify.symm ▸ hn)⟩

theorem mainStep_spec (s : EventConnManager κ) (c : Setting) (n : ℕ) : MainStep s (s.mainStep c) n := by
  unfold EventConnManager.mainStep
  split
  · next hReady =>
    split
    · next d p rest _ =>
      cases d with
      | actor name | worker name => exact .of_same rfl rfl rfl rfl
      | conn name =>
        simp only [EventConnManager.deliver]
        split
        · exact .of_same rfl rfl rfl rfl
        · split
          · next m _ hReg =>
            refine ⟨⟨[], (List.append_nil _).symm⟩, .inl rfl, .inl, ?_, by rw [hReady]; rintro ⟨⟩⟩
            rintro ⟨⟩
            exact .inr hReg
          · exact .of_same rfl rfl rfl rfl
    · split
      · exact .of_same rfl rfl rfl rfl
      · next m _ => exact s.processEventConn_spec c m n
  · exact s.notifyStep_spec n

structure Sized (s : EventConnManager κ) : Prop where
  holds_lt : ∀ k n, s.Holds k n → n < s.connSz
  idle_lt : ∀ n ∈ s.idleConn, n < s.connSz
  evs_lt : ∀ n, s.evMgr.evs n = true → n < s.connSz
  notify_lt : ∀ n, s.notify.conn = some n → n < s.connSz

variable {s t : EventConnManager κ}

theorem Sized.addEventConn (h : s.Sized) : s.addEventConn.Sized where
  holds_lt k n hk := Nat.lt_succ_of_lt (h.holds_lt k n hk)
  idle_lt n hn := by
    obtain hn | hn := List.mem_append.mp hn
    · exact Nat.lt_succ_of_lt (h.idle_lt n hn)
    · exact List.mem_singleton.mp hn ▸ Nat.lt_succ_self _
  evs_lt n hn := Nat.lt_succ_of_lt (h.evs_lt n hn)
  notify_lt n hn := Nat.lt_succ_of_lt (h.notify_lt n hn)

theorem sized_initial (sz : ℕ) : (initial sz : EventConnManager κ).Sized := by
  induction sz with
  | zero =>
    refine ⟨?_, ?_, ?_, ?_⟩
    · rintro _ _ ⟨⟩
    · rintro _ ⟨⟩
    · rintro _ ⟨⟩
    · rintro _ ⟨⟩
  | succ sz ih => exact ih.addEventConn

theorem Sized.mainStep (h : s.Sized) (c : Setting) : (s.mainStep c).Sized := by
  have hFrame := mainStep_frame s c
  refine ⟨fun k n hk => ?_, fun n hn => ?_, fun n hn => ?_, fun n hn => ?_⟩
  · rw [hFrame.connSz]
    rw [Holds, hFrame.calls] at hk
    exact h.holds_lt k n hk
  · rw [hFrame.connSz]
    obtain hIdle | hNotify := (mainStep_spec s c n).idle hn
    · exact h.idle_lt n hIdle
    · exact h.notify_lt n hNotify
  · rw [hFrame.connSz]
    obtain hEvs | ⟨hEvs, -⟩ := (mainStep_spec s c n).evs
    · exact h.evs_lt n (hEvs ▸ hn)
    · exact absurd (hEvs.symm.trans hn) Bool.false_ne_true
  · rw [hFrame.connSz]
    obtain hNotify | hEvs := (mainStep_spec s c n).notify hn
    · exact h.notify_lt n hNotify
    · exact h.evs_lt n hEvs

theorem Sized.of_same (h : s.Sized) (hIdle : t.idleConn = s.idleConn) (hSz : t.connSz = s.connSz)
    (hEvs : t.evMgr = s.evMgr) (hCalls : t.calls = s.calls) (hNotify : t.notify = s.notify) : t.Sized := by
  refine ⟨fun k n hk => ?_, ?_, ?_, ?_⟩
  · rw [Holds, hCalls] at hk
    rw [hSz]
    exact h.holds_lt k n hk
  · rw [hSz, hIdle]
    exact h.idle_lt
  · rw [hSz, hEvs]
    exact h.evs_lt
  · rw [hSz, hNotify]
    exact h.notify_lt

variable [DecidableEq κ]

theorem Sized.taken (h : t.Sized) {n : ℕ} {rest : List ℕ} {k : κ} {x : Call κ} (hIdle : t.idleConn = n :: rest)
    (hPc : x.pc = .allocated n) : (t.taken n rest k x).Sized := by
  have hLt : n < t.connSz := h.idle_lt n (hIdle ▸ List.mem_cons_self)
  refine ⟨fun l m hl => ?_, fun m hm => ?_, fun m hm => ?_, h.notify_lt⟩
  · obtain ⟨-, rfl⟩ | ⟨-, hOld⟩ := taken_holds hPc hl
    · exact hLt
    · exact h.holds_lt l m hOld
  · exact h.idle_lt m (hIdle ▸ List.mem_cons_of_mem n hm)
  · obtain rfl | hNe := eq_or_ne m n
    · exact hLt
    · exact h.evs_lt m ((taken_evs_ne hNe).symm.trans hm)

theorem holds_setCall {k l : κ} {m : ℕ} {x : Call κ} (hNone : x.pc.conn = none)
    (hl : ({ t with calls := Function.update t.calls k x } : EventConnManager κ).Holds l m) :
    l ≠ k ∧ t.Holds l m := by
  simp only [Holds] at hl
  obtain rfl | hNe := eq_or_ne l k
  · rw [Function.update_self, hNone] at hl
    cases hl
  · rw [Function.update_of_ne hNe] at hl
    exact ⟨hNe, hl⟩

theorem Sized.setCall (h : t.Sized) {k : κ} {x : Call κ} (hNone : x.pc.conn = none) :
    ({ t with calls := Function.update t.calls k x } : EventConnManager κ).Sized :=
  ⟨fun l m hl => h.holds_lt l m (holds_setCall hNone hl).2, h.idle_lt, h.evs_lt, h.notify_lt⟩

omit [DecidableEq κ] in
theorem Sized.pop (h : t.Sized) {n : ℕ} {rest : List ℕ} (hIdle : t.idleConn = n :: rest) :
    ({ t with idleConn := rest } : EventConnManager κ).Sized :=
  ⟨h.holds_lt, fun m hm => h.idle_lt m (hIdle ▸ List.mem_cons_of_mem n hm), h.evs_lt, h.notify_lt⟩

theorem Sized.alloc (h : s.Sized) (k : κ) (type : ConnType) (msg : Msg) : (s.alloc k type msg).Sized := by
  obtain ⟨t, n, rest, hFrom, hIdle, hEq⟩ := s.alloc_cases k type msg
  have ht : t.Sized := by
    obtain ⟨-, rfl⟩ | ⟨-, rfl⟩ := hFrom
    · exact h
    · exact h.addEventConn
  obtain ⟨-, hEq⟩ | ⟨-, hEq⟩ := hEq
  · rw [hEq]
    exact ht.taken hIdle rfl
  · rw [hEq]
    exact (ht.pop hIdle).setCall rfl

theorem early_of_callStep {k : κ} {n : ℕ} (hHolds : s.Holds k n)
    (hEarly : ((s.callStep k).calls k).pc.early = true) :
    (s.calls k).pc.early = true ∧ (s.calls k).pc ≠ .waiting n ∧
      ((s.calls k).pc = .cleared n → (s.calls k).msg.dst ≠ "") := by
  cases hPc : (s.calls k).pc with
  | start | returned r => exact absurd hHolds (not_holds hPc rfl)
  | allocated m | typed m | queued m => exact ⟨rfl, by rintro ⟨⟩, by rintro ⟨⟩⟩
  | cleared m =>
    refine ⟨rfl, by rintro ⟨⟩, fun _ hDst => ?_⟩
    simp only [EventConnManager.callStep, hPc, if_pos hDst, setPc_calls_self] at hEarly
    cases hEarly
  | waiting m =>
    simp only [EventConnManager.callStep, hPc, setPc_calls_self] at hEarly
    cases hType : (s.calls k).type <;> rw [hType] at hEarly <;> cases hEarly
  | woken m =>
    simp only [EventConnManager.callStep, hPc] at hEarly
    split at hEarly <;> rw [setPc_calls_self] at hEarly <;> cases hEarly
  | popped m p | unregistered m =>
    simp only [EventConnManager.callStep, hPc, setPc_calls_self] at hEarly
    cases hEarly
  | finished m r =>
    simp only [EventConnManager.callStep, hPc] at hEarly
    split at hEarly
    · rw [setPc_calls_self] at hEarly
      cases hEarly
    · split at hEarly <;> rw [setPc_calls_self] at hEarly <;> cases hEarly

theorem sent_of_callStep {k : κ} {m n : ℕ} (hHolds : s.Holds k n)
    (hSent : ((s.callStep k).calls k).pc = .queued m ∨ ((s.callStep k).calls k).pc = .waiting m) :
    (s.calls k).pc = .cleared n ∧ (s.calls k).msg.dst ≠ "" ∨ (s.calls k).pc = .queued n := by
  have hEarly : ((s.callStep k).calls k).pc.early = true := by
    obtain hPc | hPc := hSent <;> rw [hPc] <;> rfl
  obtain ⟨hBefore, hNot, hCleared⟩ := early_of_callStep hHolds hEarly
  cases hPc : (s.calls k).pc with
  | start | returned r | woken | popped | unregistered | finished =>
    rw [hPc] at hBefore
    cases hBefore
  | waiting v =>
    obtain rfl : v = n := hHolds.eq hPc rfl
    exact absurd hPc hNot
  | queued v =>
    obtain rfl : v = n := hHolds.eq hPc rfl
    exact .inr rfl
  | cleared v =>
    obtain rfl : v = n := hHolds.eq hPc rfl
    exact .inl ⟨rfl, hCleared hPc⟩
  | allocated v | typed v =>
    simp only [EventConnManager.callStep, hPc, setPc_calls_self] at hSent
    obtain hSent | hSent := hSent <;> cases hSent

theorem callStep_started {s : EventConnManager κ} {k : κ} {n : ℕ} (hHolds : s.Holds k n) :
    ((s.callStep k).calls k).pc ≠ .start := by
  cases hPc : (s.calls k).pc with
  | start | returned r => exact absurd hHolds (not_holds hPc rfl)
  | allocated m | typed m | queued m | popped m p | unregistered m =>
    simp [callStep, hPc]
  | waiting m => cases hType : (s.calls k).type <;> simp [callStep, hPc, hType]
  | cleared m | woken m =>
    simp only [callStep, hPc]
    split <;> simp
  | finished m r =>
    simp only [callStep, hPc]
    split
    · simp
    · split <;> simp

theorem holds_of_callStep {k l : κ} {m n : ℕ} (hHolds : s.Holds k n) (hl : (s.callStep k).Holds l m) :
    s.Holds l m := by
  have hFrame := callStep_frame hHolds
  obtain rfl | hNe := eq_or_ne l k
  · rw [Holds] at hl
    obtain hConn | hConn := hFrame.after
    · rw [hConn] at hl
      exact Option.some.inj hl ▸ hHolds
    · rw [hConn] at hl
      cases hl
  · rwa [Holds, hFrame.others l hNe] at hl

theorem toOwner_of_callStep {k : κ} {n : ℕ} (hHolds : s.Holds k n)
    (hEarly : ((s.callStep k).calls k).pc.early = true) :
    ((s.callStep k).conns n).channel.toOwner = (s.conns n).channel.toOwner ∧
      (s.callStep k).evMgr.evs n = s.evMgr.evs n := by
  obtain ⟨hBefore, hNot, hCleared⟩ := early_of_callStep hHolds hEarly
  obtain ⟨-, hSame⟩ := early_callStep hHolds hBefore hCleared hNot
  have hAt : s.At n (s.evMgr.evs n) (decide (n ∈ s.idleConn)) (s.conns n).channel.toOwner
      (s.conns n).mailbox.recv := ⟨rfl, decide_eq_true_iff.symm, rfl, rfl⟩
  exact ⟨(hSame _ _ _ _ hAt).toOwner, (hSame _ _ _ _ hAt).registered⟩

theorem Sized.callStep (h : s.Sized) {k : κ} (hReady : s.ready k = true) : (s.callStep k).Sized := by
  obtain ⟨n, hHolds⟩ := holds_of_ready hReady
  have hFrame := callStep_frame hHolds
  have hLt : n < s.connSz := h.holds_lt k n hHolds
  refine ⟨fun l m hl => ?_, fun m hm => ?_, fun m hm => ?_, fun m hm => ?_⟩
  · rw [hFrame.connSz]
    exact h.holds_lt l m (holds_of_callStep hHolds hl)
  · rw [hFrame.connSz]
    obtain hIdle | rfl := hFrame.mem_idle hm
    · exact h.idle_lt m hIdle
    · exact hLt
  · rw [hFrame.connSz]
    obtain hEvs | rfl := hFrame.registered hm
    · exact h.evs_lt m hEvs
    · exact hLt
  · rw [hFrame.connSz]
    exact h.notify_lt m (hFrame.notify ▸ hm)

end EventConnManager
end Myframe
