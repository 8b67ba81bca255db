import Myframe.EventConn.Phase

/-! # What the pool keeps while nobody takes a connection that is still in use -/
namespace Myframe
set_option autoImplicit false

variable {κ : Type}

namespace EventConnManager

variable [DecidableEq κ]

/-- What the step of a call on its connection may change. -/
structure CallFrame (s t : EventConnManager κ) (k : κ) (n : ℕ) : Prop where
  others : ∀ l, l ≠ k → t.calls l = s.calls l
  type : (t.calls k).type = (s.calls k).type
  msg : (t.calls k).msg = (s.calls k).msg
  after : (t.calls k).pc.conn = some n ∨ (t.calls k).pc.conn = none
  notify : t.notify = s.notify
  connSz : t.connSz = s.connSz
  conn : ∀ m, m ≠ n → t.conns m = s.conns m
  connType : (t.conns n).connType = (s.conns n).connType ∨ (t.conns n).connType = (s.calls k).type
  idle : t.idleConn = s.idleConn ∨ (s.calls k).pc = .unregistered n ∧ t.idleConn = s.idleConn ++ [n]
  evs : t.evMgr.evs = s.evMgr.evs ∨ (s.calls k).type = .kSend ∧ (∃ r, (s.calls k).pc = .finished n r) ∧
    t.evMgr.evs = Function.update s.evMgr.evs n false

omit [DecidableEq κ] in
theorem CallFrame.mem_idle {s t : EventConnManager κ} {k : κ} {n : ℕ} (h : CallFrame s t k n) {m : ℕ}
    (hm : m ∈ t.idleConn) : m ∈ s.idleConn ∨ m = n := by
  obtain hIdle | ⟨-, hIdle⟩ := h.idle
  · exact .inl (hIdle ▸ hm)
  · rwa [hIdle, List.mem_append, List.mem_singleton] at hm

omit [DecidableEq κ] in
theorem CallFrame.registered {s t : EventConnManager κ} {k : κ} {n : ℕ} (h : CallFrame s t k n) {m : ℕ}
    (hm : t.evMgr.evs m = true) : s.evMgr.evs m = true ∨ m = n := by
  obtain hEvs | ⟨-, -, hEvs⟩ := h.evs
  · exact .inl (hEvs ▸ hm)
  · obtain rfl | hNe := eq_or_ne m n
    · exact .inr rfl
    · rw [hEvs, Function.update_of_ne hNe] at hm
      exact .inl hm

theorem CallFrame.setPc (s t : EventConnManager κ) {k : κ} {n : ℕ} (hCalls : t.calls = s.calls)
    (hNotify : t.notify = s.notify) (hSz : t.connSz = s.connSz)
    (hConn : ∀ m, m ≠ n → t.conns m = s.conns m)
    (hConnType : (t.conns n).connType = (s.conns n).connType ∨ (t.conns n).connType = (s.calls k).type)
    {pc : CallPc κ} (hPc : pc.conn = some n ∨ pc.conn = none)
    (hIdle : t.idleConn = s.idleConn ∨
      (s.calls k).pc = .unregistered n ∧ t.idleConn = s.idleConn ++ [n])
    (hEvs : t.evMgr.evs = s.evMgr.evs ∨ (s.calls k).type = .kSend ∧
      (∃ r, (s.calls k).pc = .finished n r) ∧ t.evMgr.evs = Function.update s.evMgr.evs n false) :
    CallFrame s (t.setPc k pc) k n where
  others l hl := by rw [setPc_calls_ne t k pc hl, hCalls]
  type := by rw [setPc_calls_self, hCalls]
  msg := by rw [setPc_calls_self, hCalls]
  after := by rw [setPc_calls_self]; exact hPc
  notify := hNotify
  connSz := hSz
  conn := hConn
  connType := hConnType
  idle := hIdle
  evs := hEvs

theorem CallFrame.mapConn {s : EventConnManager κ} {k : κ} {n : ℕ} (f : EventConn κ → EventConn κ)
    (hConnType : (f (s.conns n)).connType = (s.conns n).connType ∨
      (f (s.conns n)).connType = (s.calls k).type)
    {pc : CallPc κ} (hPc : pc.conn = some n ∨ pc.conn = none) :
    CallFrame s ((s.mapConn n f).setPc k pc) k n :=
  .setPc s (s.mapConn n f) rfl rfl rfl (fun _ hm => mapConn_conns_ne s n f hm)
    (by rwa [mapConn_conns_self]) hPc (.inl rfl) (.inl rfl)

theorem callStep_frame {s : EventConnManager κ} {k : κ} {n : ℕ} (h : s.Holds k n) :
    CallFrame s (s.callStep k) k n := by
  have hSelf : ∀ {pc : CallPc κ}, pc.conn = some n ∨ pc.conn = none →
      CallFrame s (s.setPc k pc) k n :=
    fun hPc => .setPc s s rfl rfl rfl (fun _ _ => rfl) (.inl rfl) hPc (.inl rfl) (.inl rfl)
  cases hPc : (s.calls k).pc with
  | start | returned r => exact absurd h (not_holds hPc rfl)
  | allocated m =>
    obtain rfl : m = n := h.eq hPc rfl
    simp only [callStep, hPc]
    exact .mapConn _ (.inr rfl) (.inl rfl)
  | typed m =>
    obtain rfl : m = n := h.eq hPc rfl
    simp only [callStep, hPc]
    exact .mapConn _ (.inl rfl) (.inl rfl)
  | cleared m =>
    obtain rfl : m = n := h.eq hPc rfl
    simp only [callStep, hPc]
    split
    · exact hSelf (.inl rfl)
    · exact .mapConn _ (.inl rfl) (.inl rfl)
  | queued m =>
    obtain rfl : m = n := h.eq hPc rfl
    simp only [callStep, hPc]
    exact .mapConn _ (.inl rfl) (.inl rfl)
  | waiting m =>
    obtain rfl : m = n := h.eq hPc rfl
    simp only [callStep, hPc]
    refine .mapConn _ (.inl rfl) (.inl ?_)
    cases (s.calls k).type <;> rfl
  | woken m =>
    obtain rfl : m = n := h.eq hPc rfl
    simp only [callStep, hPc]
    split
    · exact hSelf (.inl rfl)
    · exact .mapConn _ (.inl rfl) (.inl rfl)
  | popped m p =>
    obtain rfl : m = n := h.eq hPc rfl
    simp only [callStep, hPc]
    exact .mapConn _ (.inl rfl) (.inl rfl)
  | finished m r =>
    obtain rfl : m = n := h.eq hPc rfl
    simp only [callStep, hPc]
    cases hType : (s.calls k).type with
    | kSendReq => exact hSelf (.inr rfl)
    | kSend =>
      dsimp only
      split
      · exact .setPc s { s with evMgr := s.evMgr.del m (s.name m) } rfl rfl rfl
          (fun _ _ => rfl) (.inl rfl) (.inl rfl) (.inl rfl) (.inr ⟨hType, ⟨r, hPc⟩, rfl⟩)
      · exact hSelf (.inr rfl)
  | unregistered m =>
    obtain rfl : m = n := h.eq hPc rfl
    simp only [callStep, hPc]
    exact .setPc s { s with idleConn := s.idleConn ++ [m] } rfl rfl rfl (fun _ _ => rfl)
      (.inl rfl) (.inr rfl) (.inr ⟨hPc, rfl⟩) (.inl rfl)

omit [DecidableEq κ] in
theorem CallFrame.sameAt {s t : EventConnManager κ} {k : κ} {n m : ℕ} (h : CallFrame s t k n)
    (hHolds : s.Holds k n) (hm : m ≠ n) : SameAt s t m where
  connType := by rw [h.conn m hm]
  recv := by rw [h.conn m hm]
  toOwner := by rw [h.conn m hm]
  toMain := by rw [h.conn m hm]
  idle := by
    obtain hIdle | ⟨-, hIdle⟩ := h.idle
    · rw [hIdle]
    · rw [hIdle, List.mem_append, List.mem_singleton, or_iff_left hm]
  evs := by
    obtain hEvs | ⟨-, -, hEvs⟩ := h.evs
    · rw [hEvs]
    · rw [hEvs, Function.update_of_ne hm]
  calls l hl := by
    refine h.others l ?_
    rintro rfl
    obtain hl | hl := hl
    · exact hm (Option.some.inj (hl.symm.trans hHolds))
    · obtain hAfter | hAfter := h.after
      · exact hm (Option.some.inj (hl.symm.trans hAfter))
      · exact nomatch hl.symm.trans hAfter
  notify := .inl h.notify
  found p hp := .inl (h.notify ▸ hp)

theorem holds_setPc {s : EventConnManager κ} {k : κ} {n : ℕ} {pc : CallPc κ} :
    (s.setPc k pc).Holds k n ↔ pc.conn = some n := by
  rw [Holds, setPc_calls_self]

theorem held_setPc {s : EventConnManager κ} {k : κ} {n : ℕ} {pc : CallPc κ} {A B : Prop}
    (hPc : pc.conn = some n) (hA : A) :
    ((s.setPc k pc).Holds k n → A) ∧ (¬ (s.setPc k pc).Holds k n → B) :=
  ⟨fun _ => hA, fun hNot => absurd (holds_setPc.mpr hPc) hNot⟩

theorem Sent.setPc {t : EventConnManager κ} {k : κ} {n : ℕ} {pc : CallPc κ}
    (hFree : t.notify.serving ≠ some n) (hReg : t.evMgr.evs n = pc.registered) (hIdle : n ∉ t.idleConn)
    (hRecv : (t.conns n).mailbox.recv = [])
    (hCount : (t.conns n).channel.toMain.count .kRun + (t.conns n).channel.toOwner.length = pc.owed)
    (hTyped : (t.conns n).connType = .kSend) :
    (t.setPc k pc).Sent ((t.setPc k pc).calls k) n := by
  rw [setPc_calls_self]
  exact ⟨hFree, ⟨_, ⟨hReg, iff_of_false hIdle Bool.false_ne_true, rfl, hRecv⟩, hCount⟩, fun _ => hTyped⟩

/-- A step of an `App::Send` keeps the phase of its connection or gives the connection back. -/
theorem Sent.callStep {s : EventConnManager κ} {k : κ} {n : ℕ} (h : s.Sent (s.calls k) n)
    (hHolds : s.Holds k n) (hReady : s.ready k = true) (hType : (s.calls k).type = .kSend) :
    ((s.callStep k).Holds k n → (s.callStep k).Sent ((s.callStep k).calls k) n) ∧
      (¬ (s.callStep k).Holds k n → (s.callStep k).Unheld n) := by
  obtain ⟨hFree, ⟨toOwner, ⟨hReg, hIdle, hOwner, hRecv⟩, hCount⟩, hTyped⟩ := h
  have hNotIdle : n ∉ s.idleConn := fun hMem => Bool.false_ne_true (hIdle.mp hMem)
  rw [← hOwner] at hCount
  cases hPc : (s.calls k).pc with
  | start | returned r => exact absurd hHolds (not_holds hPc rfl)
  | allocated m =>
    obtain rfl : m = n := hHolds.eq hPc rfl
    rw [hPc] at hReg hCount
    simp only [EventConnManager.callStep, hPc]
    refine held_setPc rfl (.setPc hFree hReg hNotIdle ?_ ?_ ?_)
    · simpa using hRecv
    · simpa [CallPc.owed] using hCount
    · simpa using hType
  | typed m =>
    obtain rfl : m = n := hHolds.eq hPc rfl
    have hSend := hTyped (by rw [hPc]; rintro ⟨⟩)
    rw [hPc] at hReg hCount
    simp only [EventConnManager.callStep, hPc]
    refine held_setPc rfl (.setPc hFree hReg hNotIdle ?_ ?_ ?_)
    · simpa using hRecv
    · simpa [CallPc.owed] using hCount
    · simpa using hSend
  | cleared m =>
    obtain rfl : m = n := hHolds.eq hPc rfl
    have hSend := hTyped (by rw [hPc]; rintro ⟨⟩)
    rw [hPc] at hReg hCount
    simp only [EventConnManager.callStep, hPc]
    split
    · exact held_setPc rfl (.setPc hFree hReg hNotIdle hRecv hCount hSend)
    · refine held_setPc rfl (.setPc hFree hReg hNotIdle ?_ ?_ ?_)
      · simpa using hRecv
      · simpa [CallPc.owed] using hCount
      · simpa using hSend
  | queued m =>
    obtain rfl : m = n := hHolds.eq hPc rfl
    have hSend := hTyped (by rw [hPc]; rintro ⟨⟩)
    rw [hPc] at hReg hCount
    simp only [EventConnManager.callStep, hPc, hType]
    refine held_setPc rfl (.setPc hFree hReg hNotIdle ?_ ?_ ?_)
    · simpa using hRecv
    · obtain ⟨hNoRun, hNoCmd⟩ := Nat.add_eq_zero_iff.mp hCount
      simp [hNoRun, hNoCmd, CallPc.owed]
    · simpa using hSend
  | waiting m =>
    obtain rfl : m = n := hHolds.eq hPc rfl
    have hSend := hTyped (by rw [hPc]; rintro ⟨⟩)
    rw [hPc] at hReg hCount
    have hNonempty : (s.conns m).channel.toOwner ≠ [] := by simpa [ready, hPc] using hReady
    have hPos := List.length_pos_of_ne_nil hNonempty
    simp only [EventConnManager.callStep, hPc, hType]
    refine held_setPc rfl (.setPc hFree hReg hNotIdle ?_ ?_ ?_)
    · simpa using hRecv
    · simp only [CallPc.owed, mapConn_conns_self, List.length_tail] at hCount ⊢
      omega
    · simpa using hSend
  | woken m =>
    obtain rfl : m = n := hHolds.eq hPc rfl
    have hSend := hTyped (by rw [hPc]; rintro ⟨⟩)
    rw [hPc] at hReg hCount
    simp only [EventConnManager.callStep, hPc, hRecv]
    exact held_setPc rfl (.setPc hFree hReg hNotIdle hRecv hCount hSend)
  | popped m p =>
    obtain rfl : m = n := hHolds.eq hPc rfl
    have hSend := hTyped (by rw [hPc]; rintro ⟨⟩)
    rw [hPc] at hReg hCount
    simp only [EventConnManager.callStep, hPc]
    refine held_setPc rfl (.setPc hFree hReg hNotIdle ?_ ?_ ?_)
    · simp
    · simpa [CallPc.owed] using hCount
    · simpa using hSend
  | finished m r =>
    obtain rfl : m = n := hHolds.eq hPc rfl
    have hSend := hTyped (by rw [hPc]; rintro ⟨⟩)
    rw [hPc] at hReg hCount
    have hEvs : s.evMgr.evs m = true := hReg
    simp only [EventConnManager.callStep, hPc, hType, if_pos hEvs]
    refine held_setPc rfl (.setPc hFree ?_ hNotIdle hRecv hCount hSend)
    exact Function.update_self ..
  | unregistered m =>
    obtain rfl : m = n := hHolds.eq hPc rfl
    rw [hPc] at hReg hCount
    obtain ⟨hNoRun, hNoCmd⟩ := Nat.add_eq_zero_iff.mp hCount
    simp only [EventConnManager.callStep, hPc]
    exact ⟨fun hHas => absurd (holds_setPc.mp hHas) nofun,
      fun _ => ⟨hFree, fun _ => hReg, List.eq_nil_of_length_eq_zero hNoCmd, hRecv, hNoRun⟩⟩

/-- An `App::SendRequest` never sends `kRun`. -/
theorem callStep_toMain {s : EventConnManager κ} {k : κ} {n : ℕ} (hHolds : s.Holds k n)
    (hType : (s.calls k).type = .kSendReq) :
    ((s.callStep k).conns n).channel.toMain.count .kRun = (s.conns n).channel.toMain.count .kRun := by
  cases hPc : (s.calls k).pc with
  | start | returned r => exact absurd hHolds (not_holds hPc rfl)
  | allocated m | typed m | popped m p | waiting m =>
    obtain rfl : m = n := hHolds.eq hPc rfl
    simp [EventConnManager.callStep, hPc]
  | cleared m =>
    obtain rfl : m = n := hHolds.eq hPc rfl
    simp only [EventConnManager.callStep, hPc]
    split <;> simp
  | queued m =>
    obtain rfl : m = n := hHolds.eq hPc rfl
    simp [EventConnManager.callStep, hPc, hType]
  | woken m =>
    obtain rfl : m = n := hHolds.eq hPc rfl
    simp only [EventConnManager.callStep, hPc]
    split <;> simp
  | finished m r | unregistered m => simp [EventConnManager.callStep, hPc, hType]

/-- Until it reads its command, a call with a destination touches nothing that a `Notify` looks at. -/
theorem early_callStep {s : EventConnManager κ} {k : κ} {n : ℕ} (hHolds : s.Holds k n)
    (hEarly : (s.calls k).pc.early = true)
    (hDst : (s.calls k).pc = .cleared n → (s.calls k).msg.dst ≠ "")
    (hNotWaiting : (s.calls k).pc ≠ .waiting n) :
    ((s.callStep k).calls k).pc.early = true ∧
      ∀ registered idle toOwner recv, s.At n registered idle toOwner recv →
        (s.callStep k).At n registered idle toOwner recv := by
  cases hPc : (s.calls k).pc with
  | start | returned r | woken m | popped m p | finished m r | unregistered m =>
    rw [hPc] at hEarly
    cases hEarly
  | waiting m =>
    obtain rfl : m = n := hHolds.eq hPc rfl
    exact absurd hPc hNotWaiting
  | allocated m | typed m | queued m =>
    obtain rfl : m = n := hHolds.eq hPc rfl
    simp only [EventConnManager.callStep, hPc]
    refine ⟨by rw [setPc_calls_self]; rfl, fun registered idle toOwner recv hAt => ?_⟩
    exact ⟨hAt.registered, hAt.idle, by simpa using hAt.toOwner, by simpa using hAt.recv⟩
  | cleared m =>
    obtain rfl : m = n := hHolds.eq hPc rfl
    simp only [EventConnManager.callStep, hPc, if_neg (hDst hPc)]
    refine ⟨by rw [setPc_calls_self]; rfl, fun registered idle toOwner recv hAt => ?_⟩
    exact ⟨hAt.registered, hAt.idle, by simpa using hAt.toOwner, by simpa using hAt.recv⟩

theorem Chosen.callStep {R : Parcel (Origin κ) → Prop} {s : EventConnManager κ} {k : κ} {n : ℕ}
    {p : Parcel (Origin κ)} (h : Chosen R (s.calls k) p) (hHolds : s.Holds k n)
    (hNotWaiting : (s.calls k).pc ≠ .waiting n) : Chosen R ((s.callStep k).calls k) p := by
  obtain ⟨hEarly, -⟩ := early_callStep hHolds h.early (fun _ => h.dst) hNotWaiting
  exact ⟨h.fits, hEarly, by rw [(callStep_frame hHolds).msg]; exact h.dst⟩

omit [DecidableEq κ] in
theorem not_waiting {s : EventConnManager κ} {k : κ} {n : ℕ} (hReady : s.ready k = true)
    (hOwner : (s.conns n).channel.toOwner = []) : (s.calls k).pc ≠ .waiting n := by
  intro hPc
  simp [ready, hPc, hOwner] at hReady

/-- A step of an `App::SendRequest` keeps the phase of its connection, takes it to the next one or
leaves the connection to the others; what it returns then has been given to it. -/
theorem Asked.callStep {R : Parcel (Origin κ) → Prop} {s : EventConnManager κ} {k : κ} {n : ℕ}
    (h : s.Asked R (s.calls k) n) (hCount : (s.conns n).channel.toMain.count .kRun = 0)
    (hHolds : s.Holds k n) (hReady : s.ready k = true) (hType : (s.calls k).type = .kSendReq) :
    ((s.callStep k).Holds k n → (s.callStep k).Asked R ((s.callStep k).calls k) n) ∧
      (¬ (s.callStep k).Holds k n → (s.callStep k).Unheld n ∧
        ∀ p, ((s.callStep k).calls k).pc = .returned (some p) → R p) := by
  have hFrame := callStep_frame hHolds
  have hStill : ((s.callStep k).calls k).pc.early = true → (s.callStep k).Holds k n := by
    intro hEarly
    obtain hAfter | hAfter := hFrame.after
    · exact hAfter
    · cases hPc : ((s.callStep k).calls k).pc <;> simp [hPc, CallPc.early, CallPc.conn] at hEarly hAfter
  have hFree' : s.notify.serving ≠ some n → (s.callStep k).notify.serving ≠ some n := fun hFree => by
    rwa [hFrame.notify]
  have hSame : ∀ {p}, Chosen R (s.calls k) p → (s.calls k).pc ≠ .waiting n →
      Chosen R ((s.callStep k).calls k) p ∧ (s.callStep k).Holds k n ∧
        ∀ registered idle toOwner recv, s.At n registered idle toOwner recv →
          (s.callStep k).At n registered idle toOwner recv := fun hChosen hNotWaiting =>
    have hNext := hChosen.callStep hHolds hNotWaiting
    ⟨hNext, hStill hNext.early,
      (early_callStep hHolds hChosen.early (fun _ => hChosen.dst) hNotWaiting).2⟩
  cases h with
  | untouched hFree hAt hPc =>
    obtain hEarly | ⟨hFinished, hDst⟩ := hPc
    · by_cases hStop : (s.calls k).pc = .cleared n ∧ (s.calls k).msg.dst = ""
      · have hNext : s.callStep k = s.setPc k (.finished n none) := by
          simp only [EventConnManager.callStep, hStop.1, if_pos hStop.2]
        rw [hNext]
        have hAt' : (s.setPc k (.finished n none)).At n true false [] [] :=
          ⟨hAt.registered, hAt.idle, hAt.toOwner, hAt.recv⟩
        refine held_setPc rfl (.untouched hFree hAt' (.inr ?_))
        rw [setPc_calls_self]
        exact ⟨rfl, hStop.2⟩
      · obtain ⟨hEarly', hAt'⟩ := early_callStep hHolds hEarly (fun hPc hDst => hStop ⟨hPc, hDst⟩)
          (not_waiting hReady hAt.toOwner)
        exact ⟨fun _ => .untouched (hFree' hFree) (hAt' _ _ _ _ hAt) (.inl hEarly'),
          fun hNot => absurd (hStill hEarly') hNot⟩
    · have hNext : s.callStep k = s.setPc k (.returned none) := by
        simp only [EventConnManager.callStep, hFinished, hType]
      rw [hNext]
      have hNotIdle : n ∉ s.idleConn := fun hMem => Bool.false_ne_true (hAt.idle.mp hMem)
      refine ⟨fun hHas => absurd (holds_setPc.mp hHas) nofun, fun _ => ⟨?_, fun p hp => ?_⟩⟩
      · exact ⟨hFree, fun hMem => absurd hMem hNotIdle, hAt.toOwner, hAt.recv, hCount⟩
      · rw [setPc_calls_self] at hp
        cases hp
  | checked p hNotify hAt hChosen =>
    obtain ⟨hNext, hHas, hAt'⟩ := hSame hChosen (not_waiting hReady hAt.toOwner)
    exact ⟨fun _ => .checked p (hFrame.notify.trans hNotify) (hAt' _ _ _ _ hAt) hNext,
      fun hNot => absurd hHas hNot⟩
  | deleted p hNotify hAt hChosen =>
    obtain ⟨hNext, hHas, hAt'⟩ := hSame hChosen (not_waiting hReady hAt.toOwner)
    exact ⟨fun _ => .deleted p (hFrame.notify.trans hNotify) (hAt' _ _ _ _ hAt) hNext,
      fun hNot => absurd hHas hNot⟩
  | released p hNotify hAt hChosen =>
    obtain ⟨hNext, hHas, hAt'⟩ := hSame hChosen (not_waiting hReady hAt.toOwner)
    exact ⟨fun _ => .released p (hFrame.notify.trans hNotify) (hAt' _ _ _ _ hAt) hNext,
      fun hNot => absurd hHas hNot⟩
  | stored p hNotify hAt hChosen =>
    obtain ⟨hNext, hHas, hAt'⟩ := hSame hChosen (not_waiting hReady hAt.toOwner)
    exact ⟨fun _ => .stored p (hFrame.notify.trans hNotify) (hAt' _ _ _ _ hAt) hNext,
      fun hNot => absurd hHas hNot⟩
  | given p hFree hAt hChosen =>
    by_cases hWaiting : (s.calls k).pc = .waiting n
    · simp only [EventConnManager.callStep, hWaiting, hType]
      refine held_setPc rfl (.taken p hFree ?_ hChosen.fits (by rw [setPc_calls_self]))
      exact ⟨hAt.registered, hAt.idle, by simp [hAt.toOwner], by simpa using hAt.recv⟩
    · obtain ⟨hNext, hHas, hAt'⟩ := hSame hChosen hWaiting
      exact ⟨fun _ => .given p (hFree' hFree) (hAt' _ _ _ _ hAt) hNext, fun hNot => absurd hHas hNot⟩
  | taken p hFree hAt hFits hPc =>
    simp only [EventConnManager.callStep, hPc, hAt.recv]
    refine held_setPc rfl (.answered p hFree ?_ hFits (.inl (by rw [setPc_calls_self])))
    exact ⟨hAt.registered, hAt.idle, by simpa using hAt.toOwner, by simp⟩
  | answered p hFree hAt hFits hPc =>
    obtain hPc | hPc := hPc
    · simp only [EventConnManager.callStep, hPc]
      refine held_setPc rfl (.answered p hFree ?_ hFits (.inr (by rw [setPc_calls_self])))
      exact ⟨hAt.registered, hAt.idle, by simpa using hAt.toOwner, by simp⟩
    · simp only [EventConnManager.callStep, hPc, hType]
      refine ⟨fun hHas => absurd (holds_setPc.mp hHas) nofun, fun _ => ⟨?_, fun q hq => ?_⟩⟩
      · exact ⟨hFree, fun _ => hAt.registered, hAt.toOwner, hAt.recv, hCount⟩
      · rw [setPc_calls_self] at hq
        obtain rfl : p = q := Option.some.inj (CallPc.returned.inj hq)
        exact hFits

/-- Nobody else comes to hold the connection of a call that takes a step. -/
theorem Proper.holds_callStep {R : κ → Parcel (Origin κ) → Prop} {s : EventConnManager κ} {k l : κ} {n : ℕ}
    (h : s.Proper R n) (hHolds : s.Holds k n) (hl : (s.callStep k).Holds l n) : l = k := by
  by_contra hNe
  rw [Holds, (callStep_frame hHolds).others l hNe] at hl
  exact hNe (h.unique l k hl hHolds)

/-- What a `Notify` has found stays registered unless an `App::Send` gives it back. -/
theorem Proper.found_callStep {R : κ → Parcel (Origin κ) → Prop} {s : EventConnManager κ} {k : κ} {n : ℕ}
    (h : s.Proper R n) (hHolds : s.Holds k n) {p : Parcel (Origin κ)}
    (hFound : (s.callStep k).notify = .found n p) : (s.callStep k).evMgr.evs n = true ∨
      ((s.callStep k).conns n).connType = .kSend ∧
        ∀ l, (s.callStep k).Holds l n → ((s.callStep k).calls l).type = .kSend := by
  have hFrame := callStep_frame hHolds
  rw [hFrame.notify] at hFound
  have hOnly : ∀ l, (s.callStep k).Holds l n → l = k := fun l => h.holds_callStep hHolds
  have hAll : (s.calls k).type = .kSend →
      ∀ l, (s.callStep k).Holds l n → ((s.callStep k).calls l).type = .kSend := by
    intro hType l hl
    rw [hOnly l hl, hFrame.type, hType]
  cases hType : (s.calls k).type with
  | kSendReq =>
    obtain hReg | ⟨-, hSend⟩ := h.found p hFound
    · obtain hEvs | ⟨hSend, -⟩ := hFrame.evs
      · exact .inl (by rw [hEvs, hReg])
      · rw [hType] at hSend
        cases hSend
    · have hSend := hSend k hHolds
      rw [hType] at hSend
      cases hSend
  | kSend =>
    have hStays : (s.conns n).connType = .kSend → ((s.callStep k).conns n).connType = .kSend := by
      intro hSend
      obtain hConn | hConn := hFrame.connType
      · rw [hConn, hSend]
      · rw [hConn, hType]
    obtain hEvs | ⟨-, ⟨r, hPc⟩, -⟩ := hFrame.evs
    · rw [hEvs]
      exact (h.found p hFound).imp_right fun hSend => ⟨hStays hSend.1, hAll hType⟩
    · have hTyped := (h.sent k hHolds hType).typed (by rw [hPc]; rintro ⟨⟩)
      exact .inr ⟨hStays hTyped, hAll hType⟩

omit [DecidableEq κ] in
theorem holds_of_ready {s : EventConnManager κ} {k : κ} (hReady : s.ready k = true) :
    ∃ n, s.Holds k n := by
  unfold Holds
  cases hPc : (s.calls k).pc with
  | start | returned r => simp [ready, hPc] at hReady
  | allocated n | typed n | cleared n | queued n | waiting n | woken n | popped n p | finished n r
  | unregistered n => exact ⟨n, rfl⟩

theorem Proper.callStep {R : κ → Parcel (Origin κ) → Prop} {s : EventConnManager κ} {k : κ} {n : ℕ}
    (h : s.Proper R n) (hHolds : s.Holds k n) (hReady : s.ready k = true) :
    (s.callStep k).Proper R n ∧ ((s.calls k).type = .kSendReq →
      ∀ p, ((s.callStep k).calls k).pc = .returned (some p) → R k p) := by
  have hFrame := callStep_frame hHolds
  have hOnly : ∀ l, (s.callStep k).Holds l n → l = k := fun l => h.holds_callStep hHolds
  have hUnique : ∀ l m, (s.callStep k).Holds l n → (s.callStep k).Holds m n → l = m :=
    fun l m hl hm => (hOnly l hl).trans (hOnly m hm).symm
  have hNone : (∀ l, ¬ (s.callStep k).Holds l n) → ¬ (s.callStep k).Holds k n := fun hNone => hNone k
  cases hType : (s.calls k).type with
  | kSend =>
    obtain ⟨hKept, hGiven⟩ := (h.sent k hHolds hType).callStep hHolds hReady hType
    refine ⟨⟨hUnique, fun l hl _ => ?_, fun l hl hReq => ?_, fun hNot => hGiven (hNone hNot),
      fun p hp => h.found_callStep hHolds hp⟩, by rintro ⟨⟩⟩
    · obtain rfl := hOnly l hl
      exact hKept hl
    · rw [hOnly l hl, hFrame.type, hType] at hReq
      cases hReq
  | kSendReq =>
    obtain ⟨hAsked, hCount⟩ := h.asked k hHolds hType
    obtain ⟨hKept, hGiven⟩ := hAsked.callStep hCount hHolds hReady hType
    have hCount' : ((s.callStep k).conns n).channel.toMain.count .kRun = 0 := by
      rw [callStep_toMain hHolds hType, hCount]
    refine ⟨⟨hUnique, fun l hl hSend => ?_, fun l hl _ => ?_, fun hNot => (hGiven (hNone hNot)).1,
      fun p hp => h.found_callStep hHolds hp⟩, fun _ p hp => ?_⟩
    · rw [hOnly l hl, hFrame.type, hType] at hSend
      cases hSend
    · obtain rfl := hOnly l hl
      exact ⟨hKept hl, hCount'⟩
    · exact (hGiven (not_holds hp rfl)).2 p hp

omit [DecidableEq κ] in
/-- Only an `App::Send` unregisters its connection itself. -/
theorem Asked.not_unregistered {R : Parcel (Origin κ) → Prop} {s : EventConnManager κ} {x : Call κ} {m n : ℕ}
    (h : s.Asked R x n) : x.pc ≠ .unregistered m := by
  intro hPc
  cases h with
  | untouched _ _ hEarly =>
    rw [hPc] at hEarly
    obtain hEarly | ⟨hEarly, -⟩ := hEarly <;> cases hEarly
  | checked _ _ _ hChosen | deleted _ _ _ hChosen | released _ _ _ hChosen | stored _ _ _ hChosen
  | given _ _ _ hChosen =>
    have hEarly := hChosen.early
    rw [hPc] at hEarly
    cases hEarly
  | taken _ _ _ _ hWoken =>
    rw [hPc] at hWoken
    cases hWoken
  | answered _ _ _ _ hLate =>
    rw [hPc] at hLate
    obtain hLate | hLate := hLate <;> cases hLate

theorem Sound.callStep {R : κ → Parcel (Origin κ) → Prop} {s : EventConnManager κ} (h : s.Sound R) {k : κ}
    (hReady : s.ready k = true) : (s.callStep k).Sound R := by
  obtain ⟨n, hHolds⟩ := holds_of_ready hReady
  have hFrame := callStep_frame hHolds
  obtain ⟨hProper, hReturned⟩ := (h.proper n).callStep hHolds hReady
  have hLt : n < s.connSz := h.holds_lt k n hHolds
  -- only the connection of an `App::Send` comes back here, and it was not in the idle list
  have hBack : (s.calls k).pc = .unregistered n → n ∉ s.idleConn := by
    intro hPc hMem
    cases hType : (s.calls k).type with
    | kSend =>
      obtain ⟨-, ⟨toOwner, hAt, -⟩, -⟩ := (h.proper n).sent k hHolds hType
      exact Bool.false_ne_true (hAt.idle.mp hMem)
    | kSendReq => exact ((h.proper n).asked k hHolds hType).1.not_unregistered hPc
  refine ⟨?_, fun m hm => ?_, fun l m hl => ?_, fun m hm => ?_, fun m p hp => ?_, fun l p hType hPc => ?_,
    fun m => ?_⟩
  · obtain hIdle | ⟨hPc, hIdle⟩ := hFrame.idle
    · rw [hIdle]
      exact h.nodup
    · rw [hIdle]
      refine List.nodup_append.mpr ⟨h.nodup, List.nodup_singleton n, ?_⟩
      rintro m hm _ hMem rfl
      exact hBack hPc (List.mem_singleton.mp hMem ▸ hm)
  · rw [hFrame.connSz]
    obtain hIdle | rfl := hFrame.mem_idle hm
    · exact h.idle_lt m hIdle
    · exact hLt
  · rw [hFrame.connSz]
    by_cases hEq : l = k
    · obtain hAfter | hAfter := hFrame.after
      · rw [Holds, hEq, hAfter] at hl
        exact Option.some.inj hl ▸ hLt
      · rw [Holds, hEq, hAfter] at hl
        cases hl
    · rw [Holds, hFrame.others l hEq] at hl
      exact h.holds_lt l m hl
  · rw [hFrame.connSz]
    obtain hEvs | rfl := hFrame.registered hm
    · exact h.evs_lt m hEvs
    · exact hLt
  · rw [hFrame.connSz]
    exact h.found_lt m p (hFrame.notify ▸ hp)
  · obtain rfl | hNe := eq_or_ne l k
    · exact hReturned (hFrame.type ▸ hType) p hPc
    · rw [hFrame.others l hNe] at hType hPc
      exact h.returned l p hType hPc
  · obtain rfl | hNe := eq_or_ne m n
    · exact hProper
    · exact (hFrame.sameAt hHolds hNe).proper (h.proper m)

end EventConnManager
end Myframe
