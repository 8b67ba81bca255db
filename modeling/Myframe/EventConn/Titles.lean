import Myframe.EventConn.Sound

/-! # The names of connections

`AddEventConn` gives each connection the name of its number, and `Alloc` registers it under this name.
-/
namespace Myframe
set_option autoImplicit false

variable {κ : Type}

/-- The connection that a `Notify` is about. -/
def Notify.about : Notify κ → Option ℕ
  | .ready => none
  | .found n _ | .checked n _ | .deleted n _ | .released n _ | .stored n => some n

namespace EventConnManager

def title (n : ℕ) : String := "event.conn." ++ toString n

/-- Whatever may get back to the pool or out of it has its name. -/
structure Titled (s : EventConnManager κ) : Prop where
  idle : ∀ n ∈ s.idleConn, s.name n = title n
  held : ∀ k n, s.Holds k n → s.name n = title n
  about : ∀ n, s.notify.about = some n → s.name n = title n
  registered : ∀ name n, s.evMgr.names name = some n → s.name n = name ∧ name = title n

variable {s t : EventConnManager κ}

theorem Titled.mapConn (h : s.Titled) (n : ℕ) {f : EventConn κ → EventConn κ}
    (hAddr : (f (s.conns n)).mailbox.addr = (s.conns n).mailbox.addr) : (s.mapConn n f).Titled := by
  have hName : (s.mapConn n f).name = s.name := by
    funext m
    rw [name, name]
    obtain rfl | hNe := eq_or_ne m n
    · rw [mapConn_conns_self, hAddr]
    · rw [mapConn_conns_ne _ _ _ hNe]
  obtain ⟨hIdle, hHeld, hAbout, hRegistered⟩ := h
  rw [← hName] at hIdle hHeld hAbout hRegistered
  exact ⟨hIdle, hHeld, hAbout, hRegistered⟩

theorem Titled.notified (h : s.Titled) (notify : Notify κ)
    (hAbout : ∀ n, notify.about = some n → s.name n = title n) : { s with notify := notify }.Titled :=
  ⟨h.idle, h.held, hAbout, h.registered⟩

/-- A name that is taken out of the index. -/
theorem Titled.del (h : s.Titled) (n : ℕ) (name : String) : { s with evMgr := s.evMgr.del n name }.Titled := by
  refine ⟨h.idle, h.held, h.about, fun name' m hName => h.registered name' m ?_⟩
  simp only [EventManager.del_names, Function.update_apply] at hName
  split at hName
  · cases hName
  · exact hName

theorem Titled.pushIdle (h : s.Titled) {n : ℕ} (hName : s.name n = title n) :
    { s with idleConn := s.idleConn ++ [n] }.Titled := by
  refine ⟨fun m hm => ?_, h.held, h.about, h.registered⟩
  obtain hOld | hNew := List.mem_append.mp hm
  · exact h.idle m hOld
  · rw [List.mem_singleton.mp hNew]
    exact hName

theorem Titled.addEventConn (h : s.Titled) : s.addEventConn.Titled := by
  have hNew : s.addEventConn.name s.connSz = title s.connSz := by
    rw [name, EventConnManager.addEventConn]
    simp only [Function.update_self]
    rfl
  have hOld : ∀ n, s.name n = title n → s.addEventConn.name n = title n := by
    intro n hName
    obtain rfl | hNe := eq_or_ne n s.connSz
    · exact hNew
    · rw [name, EventConnManager.addEventConn]
      simp only [Function.update_of_ne hNe]
      exact hName
  refine ⟨fun n hn => ?_, fun k n hk => hOld n (h.held k n hk), fun n hn => hOld n (h.about n hn), fun name n hn => ?_⟩
  · obtain hIdle | hLast := List.mem_append.mp hn
    · exact hOld n (h.idle n hIdle)
    · rw [List.mem_singleton.mp hLast]
      exact hNew
  · obtain ⟨hName, hTitle⟩ := h.registered name n hn
    rw [hOld n (hName.trans hTitle)]
    exact ⟨hTitle.symm, hTitle⟩

section Steps

variable [DecidableEq κ]

theorem Titled.withCall (h : s.Titled) (k : κ) (x : Call κ) (hConn : ∀ n, x.pc.conn = some n → s.name n = title n) :
    { s with calls := Function.update s.calls k x }.Titled := by
  refine ⟨h.idle, fun l n hl => ?_, h.about, h.registered⟩
  simp only [Holds, Function.update_apply] at hl
  split at hl
  · exact hConn n hl
  · exact h.held l n hl

theorem Titled.setPc (h : s.Titled) (k : κ) {pc : CallPc κ} (hConn : ∀ n, pc.conn = some n → s.name n = title n) :
    (s.setPc k pc).Titled := h.withCall k _ hConn

theorem Titled.alloc (h : s.Titled) (k : κ) (type : ConnType) (msg : Msg) : (s.alloc k type msg).Titled := by
  have hPool : (if s.idleConn = [] then s.addEventConn else s).Titled := by
    split
    · exact h.addEventConn
    · exact h
  rw [EventConnManager.alloc]
  generalize (if s.idleConn = [] then s.addEventConn else s) = t at hPool ⊢
  split
  · exact hPool
  · next n rest hIdle =>
    have hTaken : t.name n = title n := hPool.idle n (hIdle ▸ List.mem_cons_self)
    have hRest : { t with idleConn := rest }.Titled :=
      ⟨fun m hm => hPool.idle m (hIdle ▸ List.mem_cons_of_mem _ hm), hPool.held, hPool.about, hPool.registered⟩
    split
    · exact hRest.withCall k _ (by rintro _ ⟨⟩)
    · have hEntered : { t with idleConn := rest, evMgr := t.evMgr.add n (t.name n) }.Titled := by
        refine ⟨hRest.idle, hRest.held, hRest.about, fun name m hm => ?_⟩
        simp only [EventManager.add_names, Function.update_apply] at hm
        split at hm
        · next hName =>
          obtain rfl := Option.some.inj hm
          exact ⟨hName.symm, hName.trans hTaken⟩
        · exact hRest.registered name m hm
      refine hEntered.withCall k _ fun m hm => ?_
      obtain rfl := Option.some.inj hm
      exact hTaken

/-- A call keeps its connection or lets go of it. -/
theorem Titled.keep (h : s.Titled) {k : κ} {pc : CallPc κ}
    (hConn : ∀ n, pc.conn = some n → (s.calls k).pc.conn = some n) : (s.setPc k pc).Titled :=
  h.setPc k fun n hn => h.held k n (hConn n hn)

theorem Titled.callStep (h : s.Titled) (k : κ) : (s.callStep k).Titled := by
  cases hPc : (s.calls k).pc with
  | start | returned r =>
    simp only [EventConnManager.callStep, hPc]
    exact h
  | allocated n | typed n | queued n | popped n p =>
    simp only [EventConnManager.callStep, hPc]
    refine (h.mapConn n rfl).keep fun m hm => ?_
    rw [mapConn_calls, hPc]
    exact hm
  | cleared n =>
    simp only [EventConnManager.callStep, hPc]
    split
    · refine h.keep fun m hm => ?_
      rw [hPc]
      exact hm
    · refine (h.mapConn n rfl).keep fun m hm => ?_
      rw [mapConn_calls, hPc]
      exact hm
  | waiting n =>
    simp only [EventConnManager.callStep, hPc]
    refine (h.mapConn n rfl).keep fun m hm => ?_
    rw [mapConn_calls, hPc]
    cases hType : (s.calls k).type with
    | kSend | kSendReq =>
      rw [hType] at hm
      exact hm
  | woken n =>
    simp only [EventConnManager.callStep, hPc]
    split
    · refine h.keep fun m hm => ?_
      rw [hPc]
      exact hm
    · refine (h.mapConn n rfl).keep fun m hm => ?_
      rw [mapConn_calls, hPc]
      exact hm
  | finished n r =>
    simp only [EventConnManager.callStep, hPc]
    split
    · exact h.keep (by rintro m ⟨⟩)
    · split
      · refine (h.del n (s.name n)).keep fun m hm => ?_
        simp only [hPc]
        exact hm
      · exact h.keep (by rintro m ⟨⟩)
  | unregistered n =>
    simp only [EventConnManager.callStep, hPc]
    have hHeld : s.Holds k n := by rw [Holds, hPc]; rfl
    exact (h.pushIdle (h.held k n hHeld)).keep (by rintro m ⟨⟩)

end Steps

theorem Titled.dispatch (h : s.Titled) (c : Setting) (p : Parcel (Origin κ)) : (s.dispatch c p).Titled :=
  ⟨h.idle, h.held, h.about, h.registered⟩

theorem Titled.receive (h : s.Titled) (n : ℕ) : (s.receive n).Titled := by
  rw [EventConnManager.receive]
  split
  · exact h
  · dsimp only
    split
    · exact (h.mapConn n rfl).mapConn n rfl
    · exact h.mapConn n rfl

theorem Titled.notifyStep (h : s.Titled) : (s.notifyStep s.notify).Titled := by
  cases hNotify : s.notify with
  | ready => exact h
  | found n p =>
    have hAbout : s.name n = title n := h.about n (by rw [hNotify]; rfl)
    rw [EventConnManager.notifyStep]
    split
    · exact h.notified .ready (by rintro m ⟨⟩)
    · exact h.notified (.checked n p) fun m hm => Option.some.inj hm ▸ hAbout
  | checked n p =>
    have hAbout : s.name n = title n := h.about n (by rw [hNotify]; rfl)
    rw [EventConnManager.notifyStep]
    split
    · exact (h.del n (s.name n)).notified (.deleted n p) fun m hm => Option.some.inj hm ▸ hAbout
    · exact h.notified (.released n p) fun m hm => Option.some.inj hm ▸ hAbout
  | deleted n p =>
    have hAbout : s.name n = title n := h.about n (by rw [hNotify]; rfl)
    exact (h.pushIdle hAbout).notified (.released n p) fun m hm => Option.some.inj hm ▸ hAbout
  | released n p =>
    have hAddr : ((s.conns n).mailbox.receive p).addr = (s.conns n).mailbox.addr := by
      obtain ⟨recv, hRecv⟩ := (s.conns n).mailbox.receive_eq p
      rw [hRecv]
    have hStored : (s.mapConn n fun x => { x with mailbox := x.mailbox.receive p }).Titled := h.mapConn n hAddr
    refine hStored.notified (.stored n) fun m hm => ?_
    exact hStored.about m (by rw [mapConn_notify, hNotify]; exact hm)
  | stored n =>
    exact (h.mapConn n rfl).notified .ready (by rintro m ⟨⟩)

theorem Titled.deliver (h : s.Titled) (p : Parcel (Origin κ)) (d : Delivery) : (s.deliver p d).Titled := by
  cases d with
  | actor name | worker name => exact ⟨h.idle, h.held, h.about, h.registered⟩
  | conn name =>
    rw [EventConnManager.deliver]
    split
    · exact h
    · next n hName =>
      split
      · obtain ⟨hOwn, hTitle⟩ := h.registered name n hName
        exact h.notified (.found n p) fun m hm => Option.some.inj hm ▸ hOwn.trans hTitle
      · exact h

theorem Titled.processEventConn (h : s.Titled) (c : Setting) (n : ℕ) : (s.processEventConn c n).Titled := by
  rw [EventConnManager.processEventConn]
  split
  · split
    · exact (h.mapConn n rfl).dispatch c _
    · exact ⟨h.idle, h.held, h.about, h.registered⟩
  · obtain ⟨hIdle, hHeld, hAbout, hRegistered⟩ :=
      h.mapConn n (f := fun x => { x with mailbox := { x.mailbox with send := [] } }) rfl
    exact ⟨hIdle, hHeld, hAbout, hRegistered⟩
  · obtain ⟨hIdle, hHeld, hAbout, hRegistered⟩ := h.receive n
    exact ⟨hIdle, hHeld, hAbout, hRegistered⟩

theorem Titled.mainStep (h : s.Titled) (c : Setting) : (s.mainStep c).Titled := by
  rw [EventConnManager.mainStep]
  split
  · split
    · next d p rest _ =>
      have hRest : { s with deliveries := rest }.Titled := ⟨h.idle, h.held, h.about, h.registered⟩
      exact hRest.deliver p d
    · split
      · exact h
      · exact h.processEventConn c _
  · exact h.notifyStep

variable [DecidableEq κ]

theorem Titled.next (h : s.Titled) (c : Setting) (l : Label κ) : (s.next c l).Titled := by
  cases l with
  | alloc k type msg => exact h.alloc k type msg
  | call k => exact h.callStep k
  | main => exact h.mainStep c
  | event n => exact ⟨h.idle, h.held, h.about, h.registered⟩
  | answer p m => exact h.dispatch c _
  | arrive m => exact h.dispatch c _

omit [DecidableEq κ] in
theorem titled_initial (sz : ℕ) : (initial sz : EventConnManager κ).Titled := by
  induction sz with
  | zero => exact ⟨by rintro n ⟨⟩, by rintro k n ⟨⟩, by rintro n ⟨⟩, by rintro name n ⟨⟩⟩
  | succ sz ih => exact ih.addEventConn

theorem titled_visited (c : Setting) (sz : ℕ) {ls : List (Label κ)} (hRuns : (system c).Runs (initial sz) ls) :
    ∀ s ∈ (system c).visited (initial sz) ls, s.Titled :=
  have hStep : ∀ (s : EventConnManager κ) (l : Label κ), s.Titled → s.enabled l → True → (s.next c l).Titled :=
    fun _ l h _ _ => h.next c l
  (system c).inv_visited hStep (titled_initial sz) hRuns fun _ _ => trivial

end EventConnManager
end Myframe
