import Myframe.EventConn.Sound

/-! # Allocation, and the steps of the main loop on connections -/
namespace Myframe
set_option autoImplicit false

variable {κ : Type}

namespace EventConnManager

variable {R : κ → Parcel (Origin κ) → Prop}

/-- Where the pool is at risk: a connection is taken while a call still uses it, or a `Notify`
decides to release a connection although no request that fits the message is in progress on it. -/
def Apart (R : κ → Parcel (Origin κ) → Prop) (s : EventConnManager κ) : Label κ → Prop
  | .alloc .. => ∀ n, s.idleConn.head? = some n → ∀ k, ¬ s.Holds k n
  | .main => ∀ n p, s.notify = .found n p → (s.conns n).connType ≠ .kSend →
    ∃ k, s.Holds k n ∧ (s.calls k).type = .kSendReq ∧ (s.calls k).msg.dst ≠ "" ∧ R k p
  | _ => True

theorem Sound.addEventConn {s : EventConnManager κ} (h : s.Sound R) : s.addEventConn.Sound R := by
  have hNew : ∀ k, ¬ s.Holds k s.connSz := fun k hk => absurd (h.holds_lt k _ hk) (lt_irrefl _)
  have hNotMem : s.connSz ∉ s.idleConn := fun hMem => absurd (h.idle_lt _ hMem) (lt_irrefl _)
  refine ⟨?_, fun n hn => ?_, fun k n hk => ?_, fun n hn => ?_, fun n p hp => ?_, h.returned, fun n => ?_⟩
  · refine List.nodup_append.mpr ⟨h.nodup, List.nodup_singleton _, ?_⟩
    rintro n hn _ hMem rfl
    exact hNotMem (List.mem_singleton.mp hMem ▸ hn)
  · obtain hn | hn := List.mem_append.mp hn
    · exact Nat.lt_succ_of_lt (h.idle_lt n hn)
    · exact List.mem_singleton.mp hn ▸ Nat.lt_succ_self _
  · exact Nat.lt_succ_of_lt (h.holds_lt k n hk)
  · exact Nat.lt_succ_of_lt (h.evs_lt n hn)
  · exact Nat.lt_succ_of_lt (h.found_lt n p hp)
  · by_cases hEq : n = s.connSz
    · subst hEq
      have hConn : s.addEventConn.conns s.connSz =
          { mailbox := { addr := "event.conn." ++ toString s.connSz } } := Function.update_self ..
      have hUnheld := (h.proper _).unheld hNew
      refine ⟨fun k _ hk => absurd hk (hNew k), fun k hk => absurd hk (hNew k),
        fun k hk => absurd hk (hNew k), fun _ => ⟨hUnheld.notServed, fun _ => ?_, ?_, ?_, ?_⟩,
        fun p hp => absurd (h.found_lt _ p hp) (lt_irrefl _)⟩
      · cases hEvs : s.evMgr.evs s.connSz with
        | true => exact absurd (h.evs_lt _ hEvs) (lt_irrefl _)
        | false => exact hEvs
      all_goals simp [hConn]
    · have hConn : s.addEventConn.conns n = s.conns n := Function.update_of_ne hEq ..
      have hSame : SameAt s s.addEventConn n :=
        { connType := by rw [hConn]
          recv := by rw [hConn]
          toOwner := by rw [hConn]
          toMain := by rw [hConn]
          idle := by
            rw [EventConnManager.addEventConn, List.mem_append, List.mem_singleton, or_iff_left hEq]
          evs := rfl
          calls := fun _ _ => rfl
          notify := .inl rfl
          found := fun _ hp => .inl hp }
      exact hSame.proper (h.proper n)

theorem Sound.initial (sz : ℕ) : (initial sz : EventConnManager κ).Sound R := by
  induction sz with
  | zero =>
    refine ⟨List.nodup_nil, nofun, nofun, nofun, nofun, nofun, fun n => ?_⟩
    exact ⟨nofun, nofun, nofun, fun _ => ⟨nofun, nofun, rfl, rfl, rfl⟩, nofun⟩
  | succ sz ih => exact ih.addEventConn

section Alloc

variable [DecidableEq κ]

def taken (t : EventConnManager κ) (n : ℕ) (rest : List ℕ) (k : κ) (x : Call κ) : EventConnManager κ :=
  { t with
    idleConn := rest
    evMgr := t.evMgr.add n (t.name n)
    calls := Function.update t.calls k x }

variable {t : EventConnManager κ} {n : ℕ} {rest : List ℕ} {k : κ} {x : Call κ}

theorem taken_calls_self : (t.taken n rest k x).calls k = x := Function.update_self ..

theorem taken_calls_ne {l : κ} (h : l ≠ k) : (t.taken n rest k x).calls l = t.calls l :=
  Function.update_of_ne h ..

theorem taken_evs_self : (t.taken n rest k x).evMgr.evs n = true := Function.update_self ..

theorem taken_evs_ne {m : ℕ} (h : m ≠ n) : (t.taken n rest k x).evMgr.evs m = t.evMgr.evs m :=
  Function.update_of_ne h ..

theorem taken_holds (hPc : x.pc = .allocated n) {l : κ} {m : ℕ} (h : (t.taken n rest k x).Holds l m) :
    l = k ∧ m = n ∨ l ≠ k ∧ t.Holds l m := by
  unfold Holds at h
  by_cases hEq : l = k
  · rw [hEq, taken_calls_self, hPc] at h
    exact .inl ⟨hEq, (Option.some.inj h).symm⟩
  · rw [taken_calls_ne hEq] at h
    exact .inr ⟨hEq, h⟩

theorem Sound.taken_sameAt (hIdle : t.idleConn = n :: rest) (hStart : (t.calls k).pc = .start)
    (hPc : x.pc = .allocated n) {m : ℕ} (hm : m ≠ n) : SameAt t (t.taken n rest k x) m where
  connType := rfl
  recv := rfl
  toOwner := rfl
  toMain := rfl
  idle := by
    rw [hIdle, List.mem_cons, or_iff_right hm]
    rfl
  evs := taken_evs_ne hm
  calls := by
    rintro l (hl | hl)
    · refine taken_calls_ne ?_
      rintro rfl
      exact absurd hl (not_holds hStart rfl)
    · obtain ⟨-, hEq⟩ | ⟨hl, -⟩ := taken_holds hPc hl
      · exact absurd hEq hm
      · exact taken_calls_ne hl
  notify := .inl rfl
  found _ hp := .inl hp

theorem Sound.taken_proper (h : t.Sound R) (hIdle : t.idleConn = n :: rest) (hFree : ∀ l, ¬ t.Holds l n)
    (hPc : x.pc = .allocated n) : (t.taken n rest k x).Proper R n := by
  have hUnheld := (h.proper n).unheld hFree
  have hNotMem : n ∉ rest := (List.nodup_cons.mp (hIdle ▸ h.nodup)).1
  have hAt : (t.taken n rest k x).At n true false [] [] :=
    ⟨taken_evs_self, iff_of_false hNotMem Bool.false_ne_true, hUnheld.toOwner, hUnheld.recv⟩
  have hOnly : ∀ l, (t.taken n rest k x).Holds l n → l = k := by
    intro l hl
    obtain ⟨hl, -⟩ | ⟨-, hl⟩ := taken_holds hPc hl
    · exact hl
    · exact absurd hl (hFree l)
  refine ⟨fun l l' hl hl' => (hOnly l hl).trans (hOnly l' hl').symm, fun l hl _ => ?_, fun l hl _ => ?_,
    fun hNone => absurd (by rw [Holds, taken_calls_self, hPc]; rfl) (hNone k), fun p hp => .inl taken_evs_self⟩
  · obtain rfl := hOnly l hl
    rw [taken_calls_self]
    refine ⟨hUnheld.notServed, ⟨[], hPc ▸ hAt, ?_⟩, fun hNot => absurd hPc hNot⟩
    rw [hPc]
    exact hUnheld.toMain
  · obtain rfl := hOnly l hl
    rw [taken_calls_self]
    exact ⟨.untouched hUnheld.notServed hAt (.inl (by rw [hPc]; rfl)), hUnheld.toMain⟩

theorem Sound.taken (h : t.Sound R) (hIdle : t.idleConn = n :: rest) (hFree : ∀ l, ¬ t.Holds l n)
    (hStart : (t.calls k).pc = .start) (hPc : x.pc = .allocated n) : (t.taken n rest k x).Sound R := by
  have hMem : n ∈ t.idleConn := hIdle ▸ List.mem_cons_self
  refine ⟨(List.nodup_cons.mp (hIdle ▸ h.nodup)).2,
    fun m hm => h.idle_lt m (hIdle ▸ List.mem_cons_of_mem n hm), fun l m hl => ?_, fun m hm => ?_,
    h.found_lt, fun l p hType hReturned => ?_, fun m => ?_⟩
  · obtain ⟨-, rfl⟩ | ⟨-, hl⟩ := taken_holds hPc hl
    · exact h.idle_lt m hMem
    · exact h.holds_lt l m hl
  · obtain rfl | hNe := eq_or_ne m n
    · exact h.idle_lt m hMem
    · rw [taken_evs_ne hNe] at hm
      exact h.evs_lt m hm
  · obtain rfl | hNe := eq_or_ne l k
    · rw [taken_calls_self, hPc] at hReturned
      cases hReturned
    · rw [taken_calls_ne hNe] at hType hReturned
      exact h.returned l p hType hReturned
  · obtain rfl | hNe := eq_or_ne m n
    · exact h.taken_proper hIdle hFree hPc
    · exact (taken_sameAt hIdle hStart hPc hNe).proper (h.proper m)

theorem alloc_cases (s : EventConnManager κ) (k : κ) (type : ConnType) (msg : Msg) :
    ∃ t n rest, (s.idleConn ≠ [] ∧ t = s ∨ s.idleConn = [] ∧ t = s.addEventConn) ∧
      t.idleConn = n :: rest ∧
      (t.evMgr.evs n = false ∧
          s.alloc k type msg = t.taken n rest k { type := type, msg := msg, pc := .allocated n } ∨
        t.evMgr.evs n = true ∧ s.alloc k type msg = { t with
          idleConn := rest
          calls := Function.update t.calls k { type := type, msg := msg, pc := .returned none } }) := by
  have hTaken : ∀ (t : EventConnManager κ) (n : ℕ) (rest : List ℕ), t.idleConn = n :: rest →
      (if s.idleConn = [] then s.addEventConn else s) = t →
      t.evMgr.evs n = false ∧
          s.alloc k type msg = t.taken n rest k { type := type, msg := msg, pc := .allocated n } ∨
        t.evMgr.evs n = true ∧ s.alloc k type msg = { t with
          idleConn := rest
          calls := Function.update t.calls k { type := type, msg := msg, pc := .returned none } } := by
    intro t n rest hIdle hEq
    rw [EventConnManager.alloc, hEq]
    simp only [hIdle]
    split
    · next hReg => exact .inr ⟨hReg, rfl⟩
    · next hReg => exact .inl ⟨Bool.eq_false_of_not_eq_true hReg, rfl⟩
  cases hIdle : s.idleConn with
  | nil =>
    have hNew : s.addEventConn.idleConn = [s.connSz] := by
      rw [EventConnManager.addEventConn, hIdle, List.nil_append]
    exact ⟨_, _, _, .inr ⟨rfl, rfl⟩, hNew, hTaken _ _ _ hNew (if_pos hIdle)⟩
  | cons n rest =>
    have hNe : s.idleConn ≠ [] := by rw [hIdle]; exact List.cons_ne_nil n rest
    exact ⟨s, n, rest, .inl ⟨List.cons_ne_nil n rest, rfl⟩, hIdle, hTaken s n rest hIdle (if_neg hNe)⟩

/-- `Alloc` takes the first idle connection; without one it makes a new one, which nobody holds. -/
theorem Sound.alloc_spec {s : EventConnManager κ} (h : s.Sound R) (k : κ) (type : ConnType) (msg : Msg)
    (hApart : ∀ n, s.idleConn.head? = some n → ∀ l, ¬ s.Holds l n) :
    ∃ t n rest, (s.idleConn ≠ [] ∧ t = s ∨ s.idleConn = [] ∧ t = s.addEventConn) ∧ t.Sound R ∧
      t.idleConn = n :: rest ∧ (∀ l, ¬ t.Holds l n) ∧
      s.alloc k type msg = t.taken n rest k { type := type, msg := msg, pc := .allocated n } := by
  obtain ⟨t, n, rest, hFrom, hIdle, hEq⟩ := s.alloc_cases k type msg
  have hSound : t.Sound R := by
    obtain ⟨-, rfl⟩ | ⟨-, rfl⟩ := hFrom
    · exact h
    · exact h.addEventConn
  have hFree : ∀ l, ¬ t.Holds l n := by
    obtain ⟨-, rfl⟩ | ⟨hNil, rfl⟩ := hFrom
    · exact hApart n (by rw [hIdle]; rfl)
    · rw [EventConnManager.addEventConn, hNil, List.nil_append] at hIdle
      obtain ⟨rfl, -⟩ := List.cons.inj hIdle
      exact fun l hl => absurd (h.holds_lt l _ hl) (lt_irrefl _)
  have hReg : t.evMgr.evs n = false :=
    ((hSound.proper n).unheld hFree).unregistered (hIdle ▸ List.mem_cons_self)
  obtain ⟨-, hEq⟩ | ⟨hTaken, -⟩ := hEq
  · exact ⟨t, n, rest, hFrom, hSound, hIdle, hFree, hEq⟩
  · rw [hReg] at hTaken
    cases hTaken

theorem Sound.alloc {s : EventConnManager κ} (h : s.Sound R) (type : ConnType) (msg : Msg)
    (hStart : (s.calls k).pc = .start)
    (hApart : ∀ n, s.idleConn.head? = some n → ∀ l, ¬ s.Holds l n) : (s.alloc k type msg).Sound R := by
  obtain ⟨t, n, rest, hFrom, ht, hIdle, hFree, hEq⟩ := h.alloc_spec k type msg hApart
  have hStart' : (t.calls k).pc = .start := by
    obtain ⟨-, rfl⟩ | ⟨-, rfl⟩ := hFrom
    · exact hStart
    · exact hStart
  rw [hEq]
  exact ht.taken hIdle hFree hStart' rfl

end Alloc

section Main

variable {s t : EventConnManager κ}

theorem Sound.frame (h : s.Sound R) (hIdle : t.idleConn = s.idleConn) (hSz : t.connSz = s.connSz)
    (hEvs : t.evMgr.evs = s.evMgr.evs) (hCalls : t.calls = s.calls)
    (hFound : ∀ n p, t.notify = .found n p → s.notify = .found n p ∨ s.evMgr.evs n = true)
    (hProper : ∀ n, t.Proper R n) : t.Sound R := by
  have hHolds : ∀ k n, t.Holds k n ↔ s.Holds k n := fun k n => by rw [Holds, hCalls, Holds]
  refine ⟨hIdle ▸ h.nodup, fun n hn => ?_, fun k n hk => ?_, fun n hn => ?_, fun n p hp => ?_,
    by rw [hCalls]; exact h.returned, hProper⟩
  · rw [hSz]
    exact h.idle_lt n (hIdle ▸ hn)
  · rw [hSz]
    exact h.holds_lt k n ((hHolds k n).mp hk)
  · rw [hSz]
    exact h.evs_lt n (hEvs ▸ hn)
  · rw [hSz]
    obtain hp | hReg := hFound n p hp
    · exact h.found_lt n p hp
    · exact h.evs_lt n hReg

theorem Sound.same (h : s.Sound R) (hConns : ∀ n, (t.conns n).connType = (s.conns n).connType ∧
      (t.conns n).mailbox.recv = (s.conns n).mailbox.recv ∧ (t.conns n).channel = (s.conns n).channel)
    (hIdle : t.idleConn = s.idleConn) (hSz : t.connSz = s.connSz) (hEvs : t.evMgr.evs = s.evMgr.evs)
    (hCalls : t.calls = s.calls)
    (hNotify : t.notify = s.notify ∨ s.notify.serving = none ∧ t.notify.serving = none)
    (hFound : ∀ n p, t.notify = .found n p → s.notify = .found n p ∨ s.evMgr.evs n = true) :
    t.Sound R := by
  refine h.frame hIdle hSz hEvs hCalls hFound fun n => ?_
  have hSame : SameAt s t n :=
    { connType := (hConns n).1
      recv := (hConns n).2.1
      toOwner := by rw [(hConns n).2.2]
      toMain := by rw [(hConns n).2.2]
      idle := by rw [hIdle]
      evs := by rw [hEvs]
      calls := fun _ _ => by rw [hCalls]
      notify := hNotify.imp_right fun ⟨hs, ht⟩ => by rw [hs, ht]; exact ⟨nofun, nofun⟩
      found := hFound n }
  exact hSame.proper (h.proper n)

theorem Sound.dispatch (h : s.Sound R) (c : Setting) (p : Parcel (Origin κ)) : (s.dispatch c p).Sound R :=
  h.same (fun _ => ⟨rfl, rfl, rfl⟩) rfl rfl rfl rfl (.inl rfl) fun _ _ hp => .inl hp

theorem Sound.deliver (h : s.Sound R) (hReady : s.notify = .ready) (p : Parcel (Origin κ)) (d : Delivery) :
    (s.deliver p d).Sound R := by
  cases d with
  | actor name | worker name =>
    exact h.same (fun _ => ⟨rfl, rfl, rfl⟩) rfl rfl rfl rfl (.inl rfl) fun _ _ hp => .inl hp
  | conn name =>
    simp only [EventConnManager.deliver]
    split
    · exact h
    · next n _ =>
      split
      · next hReg =>
        refine h.same (fun _ => ⟨rfl, rfl, rfl⟩) rfl rfl rfl rfl (.inr ⟨by rw [hReady]; rfl, rfl⟩) ?_
        intro m q hq
        obtain ⟨rfl, -⟩ := Notify.found.inj hq
        exact .inr hReg
      · exact h

/-- Only an `App::Send` that waits sends `kRun`, and nothing else is on its way to it then. -/
theorem Proper.kRun {n : ℕ} (h : s.Proper R n) {rest : List Cmd} (hMain : (s.conns n).channel.toMain = .kRun :: rest) :
    ∃ k, s.Holds k n ∧ (s.calls k).type = .kSend ∧ (s.calls k).pc.owed = 1 ∧ rest.count .kRun = 0 ∧
      (s.conns n).channel.toOwner = [] := by
  have hPos : (s.conns n).channel.toMain.count .kRun = rest.count .kRun + 1 := by
    rw [hMain, List.count_cons_self]
  by_cases hHeld : ∃ k, s.Holds k n
  · obtain ⟨k, hk⟩ := hHeld
    cases hType : (s.calls k).type with
    | kSend =>
      obtain ⟨-, ⟨toOwner, hAt, hCount⟩, -⟩ := h.sent k hk hType
      have hOwed : (s.calls k).pc.owed ≤ 1 := by
        cases (s.calls k).pc <;> simp [CallPc.owed]
      have hEmpty : toOwner.length = 0 := by omega
      exact ⟨k, hk, hType, by omega, by omega, hAt.toOwner.trans (List.eq_nil_of_length_eq_zero hEmpty)⟩
    | kSendReq =>
      have hNone := (h.asked k hk hType).2
      omega
  · have hNone := (h.unheld fun k hk => hHeld ⟨k, hk⟩).toMain
    omega

theorem Sound.mapConn (h : s.Sound R) (n : ℕ) (f : EventConn κ → EventConn κ)
    (hProper : (s.mapConn n f).Proper R n) : (s.mapConn n f).Sound R := by
  refine h.frame rfl rfl rfl rfl (fun _ _ hp => .inl hp) fun m => ?_
  obtain rfl | hNe := eq_or_ne m n
  · exact hProper
  · have hConn : (s.mapConn n f).conns m = s.conns m := mapConn_conns_ne s n f hNe
    have hSame : SameAt s (s.mapConn n f) m :=
      { connType := by rw [hConn]
        recv := by rw [hConn]
        toOwner := by rw [hConn]
        toMain := by rw [hConn]
        idle := .rfl
        evs := rfl
        calls := fun _ _ => rfl
        notify := .inl rfl
        found := fun _ hp => .inl hp }
    exact hSame.proper (h.proper m)

theorem Sound.receive (h : s.Sound R) (n : ℕ) : (s.receive n).Sound R := by
  unfold EventConnManager.receive
  split
  · exact h
  · next cmd rest hMain =>
    dsimp only
    split
    · next hRun =>
      subst hRun
      obtain ⟨k, hk, hType, hOwed, hRest, hOwner⟩ := (h.proper n).kRun hMain
      have hTwice : ∀ f g : EventConn κ → EventConn κ,
          (s.mapConn n f).mapConn n g = s.mapConn n fun x => g (f x) := fun f g => by
        simp [EventConnManager.mapConn]
      rw [hTwice]
      refine h.mapConn n _ ⟨(h.proper n).unique, fun l hl _ => ?_, fun l hl hReq => ?_,
        fun hNone => absurd hk (hNone k), fun p hp => ?_⟩
      · obtain rfl := (h.proper n).unique l k hl hk
        obtain ⟨hFree, ⟨toOwner, hAt, -⟩, hTyped⟩ := (h.proper n).sent l hl hType
        refine ⟨hFree, ⟨[.kIdle], ⟨hAt.registered, hAt.idle, by simp [hOwner], by simpa using hAt.recv⟩, ?_⟩,
          by simpa using hTyped⟩
        simpa [hRest] using hOwed.symm
      · obtain rfl := (h.proper n).unique l k hl hk
        rw [mapConn_calls, hType] at hReq
        cases hReq
      · rw [mapConn_conns_self]
        exact (h.proper n).found p hp
    · next hOther =>
      refine h.mapConn n _ ?_
      have hSame : SameAt s (s.mapConn n fun x => { x with channel := { x.channel with toMain := rest } }) n :=
        { connType := by rw [mapConn_conns_self]
          recv := by rw [mapConn_conns_self]
          toOwner := by rw [mapConn_conns_self]
          toMain := by rw [mapConn_conns_self, hMain, List.count_cons_of_ne hOther]
          idle := .rfl
          evs := rfl
          calls := fun _ _ => rfl
          notify := .inl rfl
          found := fun _ hp => .inl hp }
      exact hSame.proper (h.proper n)

theorem Proper.served {n : ℕ} (h : s.Proper R n) (hServing : s.notify.serving = some n) :
    ∃ k, s.Holds k n ∧ (s.calls k).type = .kSendReq ∧ s.Asked (R k) (s.calls k) n ∧
      (s.conns n).channel.toMain.count .kRun = 0 := by
  by_cases hHeld : ∃ k, s.Holds k n
  · obtain ⟨k, hk⟩ := hHeld
    cases hType : (s.calls k).type with
    | kSend => exact absurd hServing (h.sent k hk hType).notServed
    | kSendReq =>
      obtain ⟨hAsked, hCount⟩ := h.asked k hk hType
      exact ⟨k, hk, hType, hAsked, hCount⟩
  · exact absurd hServing (h.unheld fun k hk => hHeld ⟨k, hk⟩).notServed

theorem Proper.of_asked {n : ℕ} {k : κ} (h : s.Proper R n) (hCalls : t.calls = s.calls)
    (hk : s.Holds k n) (hType : (s.calls k).type = .kSendReq) (hAsked : t.Asked (R k) (s.calls k) n)
    (hCount : (t.conns n).channel.toMain.count .kRun = 0) (hFound : ∀ p, t.notify ≠ .found n p) :
    t.Proper R n := by
  have hOnly : ∀ l, t.Holds l n → l = k := fun l hl => by
    rw [Holds, hCalls] at hl
    exact h.unique l k hl hk
  refine ⟨fun l l' hl hl' => (hOnly l hl).trans (hOnly l' hl').symm, fun l hl hSend => ?_,
    fun l hl _ => ?_, fun hNone => absurd (by rwa [Holds, hCalls]) (hNone k),
    fun p hp => absurd hp (hFound p)⟩
  · rw [hOnly l hl, hCalls, hType] at hSend
    cases hSend
  · rw [hOnly l hl, hCalls]
    exact ⟨hAsked, hCount⟩

theorem SameAt.of_notify {n m : ℕ} (hm : m ≠ n) (hConns : t.conns m = s.conns m)
    (hIdle : m ∈ t.idleConn ↔ m ∈ s.idleConn) (hEvs : t.evMgr.evs m = s.evMgr.evs m)
    (hCalls : t.calls = s.calls) (hServing : s.notify.serving = none ∨ s.notify.serving = some n)
    (hServing' : t.notify.serving = none ∨ t.notify.serving = some n)
    (hFound : ∀ p, t.notify ≠ .found m p) : SameAt s t m where
  connType := by rw [hConns]
  recv := by rw [hConns]
  toOwner := by rw [hConns]
  toMain := by rw [hConns]
  idle := hIdle
  evs := hEvs
  calls _ _ := by rw [hCalls]
  notify := by
    refine .inr ⟨?_, ?_⟩
    · obtain h | h := hServing
      · rw [h]
        nofun
      · rw [h]
        exact fun hEq => hm (Option.some.inj hEq).symm
    · obtain h | h := hServing'
      · rw [h]
        nofun
      · rw [h]
        exact fun hEq => hm (Option.some.inj hEq).symm
  found p hp := absurd hp (hFound p)

theorem Sound.found {n : ℕ} {p : Parcel (Origin κ)} (h : s.Sound R) (hNotify : s.notify = .found n p)
    (hApart : (s.conns n).connType ≠ .kSend →
      ∃ k, s.Holds k n ∧ (s.calls k).type = .kSendReq ∧ (s.calls k).msg.dst ≠ "" ∧ R k p) :
    (s.notifyStep (.found n p)).Sound R := by
  simp only [notifyStep]
  split
  · exact h.same (fun _ => ⟨rfl, rfl, rfl⟩) rfl rfl rfl rfl (.inr ⟨by rw [hNotify]; rfl, rfl⟩) nofun
  · next hOther =>
    obtain ⟨k, hk, hType, hDst, hFits⟩ := hApart hOther
    obtain ⟨hAsked, hCount⟩ := (h.proper n).asked k hk hType
    have hReg : s.evMgr.evs n = true := by
      obtain hReg | ⟨hSend, -⟩ := (h.proper n).found p hNotify
      · exact hReg
      · exact absurd hSend hOther
    have hGone : ∀ {idle toOwner recv}, ¬ s.At n false idle toOwner recv := fun hAt =>
      Bool.false_ne_true (hAt.registered.symm.trans hReg)
    refine h.frame rfl rfl rfl rfl nofun fun m => ?_
    obtain rfl | hNe := eq_or_ne m n
    · refine (h.proper m).of_asked rfl hk hType ?_ hCount nofun
      cases hAsked with
      | untouched _ hAt hPc =>
        obtain hEarly | ⟨-, hNoDst⟩ := hPc
        · exact .checked p rfl ⟨hAt.registered, hAt.idle, hAt.toOwner, hAt.recv⟩ ⟨hFits, hEarly, hDst⟩
        · exact absurd hNoDst hDst
      | checked _ hNotify' => rw [hNotify] at hNotify'; nomatch hNotify'
      | deleted _ _ hAt | released _ _ hAt | stored _ _ hAt | given _ _ hAt | taken _ _ hAt
      | answered _ _ hAt => exact absurd hAt hGone
    · refine SameAt.proper ?_ (h.proper m)
      exact .of_notify hNe rfl .rfl rfl rfl (.inl (by rw [hNotify]; rfl)) (.inr rfl) nofun

theorem Sound.checked {n : ℕ} {p : Parcel (Origin κ)} (h : s.Sound R) (hNotify : s.notify = .checked n p) :
    (s.notifyStep (.checked n p)).Sound R := by
  have hServing : s.notify.serving = some n := by rw [hNotify]; rfl
  obtain ⟨k, hk, hType, hAsked, hCount⟩ := (h.proper n).served hServing
  obtain ⟨hAt, hChosen⟩ : s.At n true false [] [] ∧ Chosen (R k) (s.calls k) p := by
    cases hAsked with
    | checked q hNotify' hAt hChosen =>
      obtain ⟨-, rfl⟩ := Notify.checked.inj (hNotify.symm.trans hNotify')
      exact ⟨hAt, hChosen⟩
    | untouched hFree | given _ hFree | taken _ hFree | answered _ hFree => exact absurd hServing hFree
    | deleted _ hNotify' | released _ hNotify' | stored _ hNotify' => exact nomatch hNotify.symm.trans hNotify'
  simp only [notifyStep, if_pos hAt.registered]
  refine ⟨h.nodup, h.idle_lt, h.holds_lt, fun m hm => ?_, nofun, h.returned, fun m => ?_⟩
  · obtain rfl | hNe := eq_or_ne m n
    · exact h.holds_lt k m hk
    · exact h.evs_lt m ((Function.update_of_ne hNe ..).symm.trans hm)
  · obtain rfl | hNe := eq_or_ne m n
    · exact (h.proper m).of_asked rfl hk hType (.deleted p rfl ⟨Function.update_self .., hAt.idle, hAt.toOwner,
        hAt.recv⟩ hChosen) hCount nofun
    · refine SameAt.proper ?_ (h.proper m)
      exact .of_notify hNe rfl .rfl (Function.update_of_ne hNe ..) rfl (.inr hServing) (.inr rfl) nofun

theorem Sound.deleted {n : ℕ} {p : Parcel (Origin κ)} (h : s.Sound R) (hNotify : s.notify = .deleted n p) :
    (s.notifyStep (.deleted n p)).Sound R := by
  have hServing : s.notify.serving = some n := by rw [hNotify]; rfl
  obtain ⟨k, hk, hType, hAsked, hCount⟩ := (h.proper n).served hServing
  obtain ⟨hAt, hChosen⟩ : s.At n false false [] [] ∧ Chosen (R k) (s.calls k) p := by
    cases hAsked with
    | deleted q hNotify' hAt hChosen =>
      obtain ⟨-, rfl⟩ := Notify.deleted.inj (hNotify.symm.trans hNotify')
      exact ⟨hAt, hChosen⟩
    | untouched hFree | given _ hFree | taken _ hFree | answered _ hFree => exact absurd hServing hFree
    | checked _ hNotify' | released _ hNotify' | stored _ hNotify' => exact nomatch hNotify.symm.trans hNotify'
  have hNotMem : n ∉ s.idleConn := fun hMem => Bool.false_ne_true (hAt.idle.mp hMem)
  simp only [notifyStep]
  refine ⟨?_, fun m hm => ?_, h.holds_lt, h.evs_lt, nofun, h.returned, fun m => ?_⟩
  · refine List.nodup_append.mpr ⟨h.nodup, List.nodup_singleton n, ?_⟩
    rintro m hm _ hMem rfl
    exact hNotMem (List.mem_singleton.mp hMem ▸ hm)
  · obtain hm | hm := List.mem_append.mp hm
    · exact h.idle_lt m hm
    · exact List.mem_singleton.mp hm ▸ h.holds_lt k n hk
  · obtain rfl | hNe := eq_or_ne m n
    · have hMem : m ∈ s.idleConn ++ [m] := List.mem_append_right _ List.mem_cons_self
      exact (h.proper m).of_asked rfl hk hType
        (.released p rfl ⟨hAt.registered, iff_of_true hMem rfl, hAt.toOwner, hAt.recv⟩ hChosen) hCount nofun
    · have hIdle : m ∈ s.idleConn ++ [n] ↔ m ∈ s.idleConn := by
        rw [List.mem_append, List.mem_singleton, or_iff_left hNe]
      refine SameAt.proper ?_ (h.proper m)
      exact .of_notify hNe rfl hIdle rfl rfl (.inr hServing) (.inr rfl) nofun

theorem Sound.released {n : ℕ} {p : Parcel (Origin κ)} (h : s.Sound R)
    (hNotify : s.notify = .released n p) : (s.notifyStep (.released n p)).Sound R := by
  have hServing : s.notify.serving = some n := by rw [hNotify]; rfl
  obtain ⟨k, hk, hType, hAsked, hCount⟩ := (h.proper n).served hServing
  obtain ⟨hAt, hChosen⟩ : s.At n false true [] [] ∧ Chosen (R k) (s.calls k) p := by
    cases hAsked with
    | released q hNotify' hAt hChosen =>
      obtain ⟨-, rfl⟩ := Notify.released.inj (hNotify.symm.trans hNotify')
      exact ⟨hAt, hChosen⟩
    | untouched hFree | given _ hFree | taken _ hFree | answered _ hFree => exact absurd hServing hFree
    | checked _ hNotify' | deleted _ hNotify' | stored _ hNotify' => exact nomatch hNotify.symm.trans hNotify'
  simp only [notifyStep]
  refine h.frame rfl rfl rfl rfl nofun fun m => ?_
  obtain rfl | hNe := eq_or_ne m n
  · have hRecv : ((s.conns m).mailbox.receive p).recv = [p] := by
      unfold Mailbox.receive
      split <;> simp [hAt.recv, Mailbox.dropOverflow]
    refine (h.proper m).of_asked rfl hk hType (.stored p rfl ⟨hAt.registered, hAt.idle, ?_, ?_⟩ hChosen) ?_ nofun
    · simpa using hAt.toOwner
    · simpa using hRecv
    · simpa using hCount
  · refine SameAt.proper ?_ (h.proper m)
    exact .of_notify hNe (Function.update_of_ne hNe ..) .rfl rfl rfl (.inr hServing) (.inr rfl) nofun

theorem Sound.stored {n : ℕ} (h : s.Sound R) (hNotify : s.notify = .stored n) :
    (s.notifyStep (.stored n)).Sound R := by
  have hServing : s.notify.serving = some n := by rw [hNotify]; rfl
  obtain ⟨k, hk, hType, hAsked, hCount⟩ := (h.proper n).served hServing
  obtain ⟨p, hAt, hChosen⟩ : ∃ p, s.At n false true [] [p] ∧ Chosen (R k) (s.calls k) p := by
    cases hAsked with
    | stored p _ hAt hChosen => exact ⟨p, hAt, hChosen⟩
    | untouched hFree | given _ hFree | taken _ hFree | answered _ hFree => exact absurd hServing hFree
    | checked _ hNotify' | deleted _ hNotify' | released _ hNotify' => exact nomatch hNotify.symm.trans hNotify'
  simp only [notifyStep]
  refine h.frame rfl rfl rfl rfl nofun fun m => ?_
  obtain rfl | hNe := eq_or_ne m n
  · refine (h.proper m).of_asked rfl hk hType (.given p nofun ⟨hAt.registered, hAt.idle, ?_, ?_⟩ hChosen) ?_ nofun
    · simp [hAt.toOwner]
    · simpa using hAt.recv
    · simpa using hCount
  · refine SameAt.proper ?_ (h.proper m)
    exact .of_notify hNe (Function.update_of_ne hNe ..) .rfl rfl rfl (.inr hServing) (.inl rfl) nofun

theorem Sound.setSend (h : s.Sound R) (n : ℕ) (send : List (Parcel (Origin κ))) :
    (s.mapConn n fun x => { x with mailbox := { x.mailbox with send := send } }).Sound R := by
  refine h.same (fun m => ?_) rfl rfl rfl rfl (.inl rfl) fun _ _ hp => .inl hp
  obtain rfl | hNe := eq_or_ne m n
  · rw [mapConn_conns_self]
    exact ⟨rfl, rfl, rfl⟩
  · rw [mapConn_conns_ne s n _ hNe]
    exact ⟨rfl, rfl, rfl⟩

theorem Sound.processEventConn (h : s.Sound R) (c : Setting) (n : ℕ) : (s.processEventConn c n).Sound R := by
  unfold EventConnManager.processEventConn
  split
  · split
    · next p rest _ => exact (h.setSend n rest).dispatch c p
    · exact h.same (fun _ => ⟨rfl, rfl, rfl⟩) rfl rfl rfl rfl (.inl rfl) fun _ _ hp => .inl hp
  · exact (h.setSend n []).same (fun _ => ⟨rfl, rfl, rfl⟩) rfl rfl rfl rfl (.inl rfl) fun _ _ hp => .inl hp
  · exact (h.receive n).same (fun _ => ⟨rfl, rfl, rfl⟩) rfl rfl rfl rfl (.inl rfl) fun _ _ hp => .inl hp

theorem Sound.mainStep (h : s.Sound R) (c : Setting)
    (hApart : ∀ n p, s.notify = .found n p → (s.conns n).connType ≠ .kSend →
      ∃ k, s.Holds k n ∧ (s.calls k).type = .kSendReq ∧ (s.calls k).msg.dst ≠ "" ∧ R k p) :
    (s.mainStep c).Sound R := by
  cases hNotify : s.notify with
  | ready =>
    simp only [EventConnManager.mainStep, hNotify]
    split
    · next d p rest _ =>
      have hRest : { s with notify := .ready, deliveries := rest }.Sound R :=
        h.same (fun _ => ⟨rfl, rfl, rfl⟩) rfl rfl rfl rfl (.inl hNotify.symm) nofun
      exact hRest.deliver rfl p d
    · split
      · exact h
      · next n _ => exact h.processEventConn c n
  | found n p =>
    simp only [EventConnManager.mainStep, hNotify]
    exact h.found hNotify (hApart n p hNotify)
  | checked n p =>
    simp only [EventConnManager.mainStep, hNotify]
    exact h.checked hNotify
  | deleted n p =>
    simp only [EventConnManager.mainStep, hNotify]
    exact h.deleted hNotify
  | released n p =>
    simp only [EventConnManager.mainStep, hNotify]
    exact h.released hNotify
  | stored n =>
    simp only [EventConnManager.mainStep, hNotify]
    exact h.stored hNotify

end Main

/-- What the main loop leaves to the calls: it takes no connection out of the idle list. -/
structure MainFrame (s t : EventConnManager κ) : Prop where
  calls : t.calls = s.calls
  connSz : t.connSz = s.connSz
  idle : ∀ n ∈ s.idleConn, n ∈ t.idleConn

theorem processEventConn_frame (s : EventConnManager κ) (c : Setting) (n : ℕ) :
    MainFrame s (s.processEventConn c n) := by
  unfold EventConnManager.processEventConn
  split
  · split <;> exact ⟨rfl, rfl, fun _ => id⟩
  · exact ⟨rfl, rfl, fun _ => id⟩
  · unfold EventConnManager.receive
    split
    · exact ⟨rfl, rfl, fun _ => id⟩
    · dsimp only
      split <;> exact ⟨rfl, rfl, fun _ => id⟩

theorem mainStep_frame (s : EventConnManager κ) (c : Setting) : MainFrame s (s.mainStep c) := by
  unfold EventConnManager.mainStep
  split
  · split
    · next d p rest _ =>
      cases d with
      | actor name | worker name => exact ⟨rfl, rfl, fun _ => id⟩
      | conn name =>
        simp only [EventConnManager.deliver]
        split
        · exact ⟨rfl, rfl, fun _ => id⟩
        · split <;> exact ⟨rfl, rfl, fun _ => id⟩
    · split
      · exact ⟨rfl, rfl, fun _ => id⟩
      · next n _ => exact s.processEventConn_frame c n
  · unfold notifyStep
    split
    · exact ⟨rfl, rfl, fun _ => id⟩
    · split <;> exact ⟨rfl, rfl, fun _ => id⟩
    · split <;> exact ⟨rfl, rfl, fun _ => id⟩
    · exact ⟨rfl, rfl, fun n hn => List.mem_append_left _ hn⟩
    · exact ⟨rfl, rfl, fun _ => id⟩
    · exact ⟨rfl, rfl, fun _ => id⟩

/-- Every step that takes no connection in use keeps the pool in order. -/
theorem Sound.next [DecidableEq κ] {s : EventConnManager κ} (h : s.Sound R) (c : Setting) {l : Label κ}
    (hEnabled : s.enabled l) (hApart : s.Apart R l) : (s.next c l).Sound R := by
  cases l with
  | alloc k type msg => exact h.alloc type msg hEnabled hApart
  | call k => exact h.callStep hEnabled
  | main => exact h.mainStep c hApart
  | event n => exact h.same (fun _ => ⟨rfl, rfl, rfl⟩) rfl rfl rfl rfl (.inl rfl) fun _ _ hp => .inl hp
  | answer p m | arrive m => exact h.dispatch c _

end EventConnManager
end Myframe
