import Mathlib.Data.Fintype.Defs
import Mathlib.Data.Set.Card
import Myframe.EventConn.Main

/-! # The pool neither leaks nor shares connections -/
namespace Myframe
set_option autoImplicit false

variable {κ : Type}

namespace EventConnManager

/-- Steps that are safe for the pool: a request has a destination, the connection taken is not in use
any more, and no `Notify` takes an `App::Send` that has not set its type yet for a request. -/
def Orderly (s : EventConnManager κ) : Label κ → Prop
  | .alloc _ type msg => (type = .kSendReq → msg.dst ≠ "") ∧
    ∀ n, s.idleConn.head? = some n → ∀ k, ¬ s.Holds k n
  | .main => ∀ n p, s.notify = .found n p → (s.conns n).connType ≠ .kSend →
    ∀ k, s.Holds k n → (s.calls k).type = .kSendReq
  | _ => True

/-- Each connection is idle once and unregistered, or in the hands of one call. -/
def Placed (s : EventConnManager κ) : Prop :=
  ∀ n < s.connSz, s.idleConn.count n = 1 ∧ s.evMgr.evs n = false ∨ ∃! k, s.Holds k n

instance [Fintype κ] (s : EventConnManager κ) (l : Label κ) : Decidable (s.Orderly l) :=
  match l with
  | .alloc _ type msg => match h : s.idleConn.head? with
    | none => decidable_of_iff (type = .kSendReq → msg.dst ≠ "")
      ⟨fun hDst => ⟨hDst, fun n hn => nomatch h.symm.trans hn⟩, And.left⟩
    | some m => decidable_of_iff ((type = .kSendReq → msg.dst ≠ "") ∧ ∀ k, ¬ s.Holds k m)
      ⟨fun ⟨hDst, hFree⟩ => ⟨hDst, fun n hn => Option.some.inj (h.symm.trans hn) ▸ hFree⟩,
        fun ⟨hDst, hFree⟩ => ⟨hDst, hFree m h⟩⟩
  | .main => match h : s.notify with
    | .found m q => decidable_of_iff ((s.conns m).connType ≠ .kSend →
        ∀ k, s.Holds k m → (s.calls k).type = .kSendReq)
      ⟨fun hAll n p hp => by
        obtain ⟨rfl, -⟩ := Notify.found.inj (h.symm.trans hp)
        exact hAll, fun hAll => hAll m q h⟩
    | .ready | .checked .. | .deleted .. | .released .. | .stored _ =>
      .isTrue fun n p hp => nomatch h.symm.trans hp
  | .call _ | .event _ | .answer .. | .arrive _ => .isTrue trivial

def inProgress (s : EventConnManager κ) : Set κ := {k | ∃ n, s.Holds k n}

structure Pooled (s : EventConnManager κ) : Prop where
  sound : s.Sound fun _ _ => True
  dst : ∀ k, (s.calls k).pc ≠ .start → (s.calls k).type = .kSendReq → (s.calls k).msg.dst ≠ ""
  covered : ∀ n < s.connSz, n ∈ s.idleConn ∨ ∃ k, s.Holds k n

variable {s t : EventConnManager κ}

theorem Pooled.placed (h : s.Pooled) : s.Placed := by
  intro n hn
  by_cases hHeld : ∃ k, s.Holds k n
  · obtain ⟨k, hk⟩ := hHeld
    exact .inr ⟨k, hk, fun l hl => (h.sound.proper n).unique l k hl hk⟩
  · have hUnheld := (h.sound.proper n).unheld fun k hk => hHeld ⟨k, hk⟩
    have hMem : n ∈ s.idleConn := (h.covered n hn).resolve_right hHeld
    exact .inl ⟨List.count_eq_one_of_mem h.sound.nodup hMem, hUnheld.unregistered hMem⟩

theorem Pooled.held (h : s.Pooled) {n : ℕ} (hReg : s.evMgr.evs n = true) : ∃ k, s.Holds k n := by
  by_contra hHeld
  have hUnheld := (h.sound.proper n).unheld fun k hk => hHeld ⟨k, hk⟩
  have hMem : n ∈ s.idleConn := (h.covered n (h.sound.evs_lt n hReg)).resolve_right hHeld
  exact Bool.false_ne_true ((hUnheld.unregistered hMem).symm.trans hReg)

theorem Pooled.apart (h : s.Pooled) {l : Label κ} (hOrderly : s.Orderly l) :
    s.Apart (fun _ _ => True) l := by
  cases l with
  | alloc k type msg => exact hOrderly.2
  | main =>
    intro n p hNotify hOther
    obtain hReg | ⟨hSend, -⟩ := (h.sound.proper n).found p hNotify
    · obtain ⟨k, hk⟩ := h.held hReg
      have hType := hOrderly n p hNotify hOther k hk
      refine ⟨k, hk, hType, h.dst k ?_ hType, trivial⟩
      intro hStart
      exact not_holds hStart rfl hk
    · exact absurd hSend hOther
  | call | event | answer | arrive => trivial

variable [DecidableEq κ]

theorem callStep_release {k : κ} {n : ℕ} (hHolds : s.Holds k n) (hNot : ¬ (s.callStep k).Holds k n) :
    (∃ r, (s.calls k).pc = .finished n r) ∨ (s.calls k).pc = .unregistered n := by
  cases hPc : (s.calls k).pc with
  | start | returned r => exact absurd hHolds (not_holds hPc rfl)
  | finished m r =>
    obtain rfl : m = n := hHolds.eq hPc rfl
    exact .inl ⟨r, rfl⟩
  | unregistered m =>
    obtain rfl : m = n := hHolds.eq hPc rfl
    exact .inr rfl
  | allocated m | typed m | queued m | popped m p =>
    obtain rfl : m = n := hHolds.eq hPc rfl
    simp only [callStep, hPc] at hNot
    exact absurd (holds_setPc.mpr rfl) hNot
  | waiting m =>
    obtain rfl : m = n := hHolds.eq hPc rfl
    simp only [callStep, hPc] at hNot
    refine absurd (holds_setPc.mpr ?_) hNot
    cases (s.calls k).type <;> rfl
  | cleared m | woken m =>
    obtain rfl : m = n := hHolds.eq hPc rfl
    simp only [callStep, hPc] at hNot
    split at hNot <;> exact absurd (holds_setPc.mpr rfl) hNot

theorem Pooled.callStep_back (h : s.Pooled) {k : κ} {n : ℕ} (hHolds : s.Holds k n)
    (hNot : ¬ (s.callStep k).Holds k n) : n ∈ (s.callStep k).idleConn := by
  have hStarted : (s.calls k).pc ≠ .start := fun hStart => not_holds hStart rfl hHolds
  obtain ⟨r, hPc⟩ | hPc := callStep_release hHolds hNot
  · cases hType : (s.calls k).type with
    | kSend =>
      obtain ⟨-, ⟨toOwner, hAt, -⟩, -⟩ := (h.sound.proper n).sent k hHolds hType
      have hReg : s.evMgr.evs n = true := hAt.registered.trans (by rw [hPc]; rfl)
      simp only [callStep, hPc, hType, if_pos hReg] at hNot
      exact absurd (holds_setPc.mpr rfl) hNot
    | kSendReq =>
      have hSame : (s.callStep k).idleConn = s.idleConn := by
        simp only [callStep, hPc, hType, setPc_idleConn]
      rw [hSame]
      cases ((h.sound.proper n).asked k hHolds hType).1 with
      | untouched _ _ hEarly =>
        obtain hEarly | ⟨-, hNoDst⟩ := hEarly
        · rw [hPc] at hEarly
          cases hEarly
        · exact absurd hNoDst (h.dst k hStarted hType)
      | checked _ _ _ hChosen | deleted _ _ _ hChosen | released _ _ _ hChosen | stored _ _ _ hChosen
      | given _ _ _ hChosen =>
        have hEarly := hChosen.early
        rw [hPc] at hEarly
        cases hEarly
      | taken _ _ hAt | answered _ _ hAt => exact hAt.idle.mpr rfl
  · have hPush : (s.callStep k).idleConn = s.idleConn ++ [n] := by
      simp only [callStep, hPc, setPc_idleConn]
    rw [hPush]
    exact List.mem_append_right _ List.mem_cons_self

theorem callStep_holds_of_ne {k l : κ} {n m : ℕ} (hHolds : s.Holds k n) (hNe : l ≠ k) :
    (s.callStep k).Holds l m ↔ s.Holds l m := by
  rw [Holds, (callStep_frame hHolds).others l hNe, Holds]

theorem Pooled.callStep (h : s.Pooled) {k : κ} (hReady : s.ready k = true) : (s.callStep k).Pooled := by
  obtain ⟨n, hHolds⟩ := holds_of_ready hReady
  have hFrame := callStep_frame hHolds
  refine ⟨h.sound.callStep hReady, fun l hStarted hType => ?_, fun m hm => ?_⟩
  · obtain rfl | hNe := eq_or_ne l k
    · rw [hFrame.msg]
      exact h.dst l (fun hStart => not_holds hStart rfl hHolds) (hFrame.type ▸ hType)
    · rw [hFrame.others l hNe] at hStarted hType ⊢
      exact h.dst l hStarted hType
  · rw [hFrame.connSz] at hm
    obtain hMem | ⟨l, hl⟩ := h.covered m hm
    · obtain hIdle | ⟨-, hIdle⟩ := hFrame.idle
      · exact .inl (hIdle ▸ hMem)
      · exact .inl (hIdle ▸ List.mem_append_left _ hMem)
    · obtain rfl | hNe := eq_or_ne l k
      · by_cases hStill : (s.callStep l).Holds l m
        · exact .inr ⟨l, hStill⟩
        · exact .inl (h.callStep_back hl hStill)
      · exact .inr ⟨l, (callStep_holds_of_ne hHolds hNe).mpr hl⟩

omit [DecidableEq κ] in
theorem Pooled.addEventConn (h : s.Pooled) : s.addEventConn.Pooled where
  sound := h.sound.addEventConn
  dst := h.dst
  covered n hn := by
    obtain hn | rfl := Nat.lt_succ_iff_lt_or_eq.mp hn
    · exact (h.covered n hn).imp_left fun hMem => List.mem_append_left _ hMem
    · exact .inl (List.mem_append_right _ List.mem_cons_self)

theorem Pooled.taken (h : t.Pooled) {n : ℕ} {rest : List ℕ} {k : κ} {x : Call κ}
    (hIdle : t.idleConn = n :: rest) (hFree : ∀ l, ¬ t.Holds l n) (hStart : (t.calls k).pc = .start)
    (hPc : x.pc = .allocated n) (hDst : x.type = .kSendReq → x.msg.dst ≠ "") :
    (t.taken n rest k x).Pooled where
  sound := h.sound.taken hIdle hFree hStart hPc
  dst l hStarted hType := by
    obtain rfl | hNe := eq_or_ne l k
    · rw [taken_calls_self] at hType ⊢
      exact hDst hType
    · rw [taken_calls_ne hNe] at hStarted hType ⊢
      exact h.dst l hStarted hType
  covered m hm := by
    have hHolds : (t.taken n rest k x).Holds k n := by
      rw [Holds, taken_calls_self, hPc]
      rfl
    obtain hMem | ⟨l, hl⟩ := h.covered m hm
    · obtain rfl | hMem := List.mem_cons.mp (hIdle ▸ hMem)
      · exact .inr ⟨k, hHolds⟩
      · exact .inl hMem
    · have hNe : l ≠ k := by
        rintro rfl
        exact not_holds hStart rfl hl
      exact .inr ⟨l, by rwa [Holds, taken_calls_ne hNe]⟩

theorem Pooled.alloc (h : s.Pooled) {k : κ} {type : ConnType} {msg : Msg} (hStart : (s.calls k).pc = .start)
    (hOrderly : s.Orderly (.alloc k type msg)) : (s.alloc k type msg).Pooled := by
  obtain ⟨t, n, rest, hFrom, -, hIdle, hFree, hEq⟩ := h.sound.alloc_spec k type msg hOrderly.2
  rw [hEq]
  obtain ⟨-, rfl⟩ | ⟨-, rfl⟩ := hFrom
  · exact h.taken hIdle hFree hStart rfl hOrderly.1
  · exact h.addEventConn.taken hIdle hFree hStart rfl hOrderly.1

omit [DecidableEq κ] in
theorem Pooled.main (h : s.Pooled) (ht : t.Sound fun _ _ => True) (hFrame : MainFrame s t) : t.Pooled where
  sound := ht
  dst := by rw [hFrame.calls]; exact h.dst
  covered n hn := by
    refine (h.covered n (hFrame.connSz ▸ hn)).imp (hFrame.idle n) fun ⟨k, hk⟩ => ⟨k, ?_⟩
    rwa [Holds, hFrame.calls]

theorem Pooled.next (h : s.Pooled) (c : Setting) {l : Label κ} (hEnabled : s.enabled l)
    (hOrderly : s.Orderly l) : (s.next c l).Pooled := by
  cases l with
  | alloc k type msg => exact h.alloc hEnabled hOrderly
  | call k => exact h.callStep hEnabled
  | main => exact h.main (h.sound.mainStep c (h.apart hOrderly)) (mainStep_frame s c)
  | event n =>
    have hSound : (s.next c (.event n)).Sound fun _ _ => True := h.sound.next c hEnabled trivial
    exact h.main hSound ⟨rfl, rfl, fun _ => id⟩
  | answer p m => exact h.main (h.sound.dispatch c _) ⟨rfl, rfl, fun _ => id⟩
  | arrive m => exact h.main (h.sound.dispatch c _) ⟨rfl, rfl, fun _ => id⟩

theorem Pooled.next_back (h : s.Pooled) (c : Setting) {l : Label κ} (hEnabled : s.enabled l)
    (hOrderly : s.Orderly l) {k : κ} {n : ℕ} (hHolds : s.Holds k n) (hNot : ¬ (s.next c l).Holds k n) :
    n ∈ (s.next c l).idleConn := by
  cases l with
  | alloc k' type msg =>
    obtain ⟨t, m, rest, hFrom, -, -, -, hEq⟩ := h.sound.alloc_spec k' type msg hOrderly.2
    have hNe : k ≠ k' := by
      rintro rfl
      exact not_holds hEnabled rfl hHolds
    have hCalls : t.calls = s.calls := by
      obtain ⟨-, rfl⟩ | ⟨-, rfl⟩ := hFrom <;> rfl
    rw [EventConnManager.next, hEq, Holds, taken_calls_ne hNe, hCalls] at hNot
    exact absurd hHolds hNot
  | call k' =>
    obtain rfl | hNe := eq_or_ne k k'
    · exact h.callStep_back hHolds hNot
    · obtain ⟨m, hm⟩ := holds_of_ready hEnabled
      exact absurd ((callStep_holds_of_ne hm hNe).mpr hHolds) hNot
  | main =>
    rw [EventConnManager.next, Holds, (mainStep_frame s c).calls] at hNot
    exact absurd hHolds hNot
  | event m | answer p m | arrive m => exact absurd hHolds hNot

theorem inProgress_insert {n : ℕ} {rest : List ℕ} {k : κ} {x : Call κ} (hStart : (t.calls k).pc = .start)
    (hPc : x.pc = .allocated n) : (t.taken n rest k x).inProgress = insert k t.inProgress := by
  ext l
  obtain rfl | hNe := eq_or_ne l k
  · refine iff_of_true ⟨n, ?_⟩ (Set.mem_insert l _)
    rw [Holds, taken_calls_self, hPc]
    rfl
  · simp only [inProgress, Set.mem_ofPred_eq, Set.mem_insert_iff, hNe, false_or, Holds, taken_calls_ne hNe]

omit [DecidableEq κ] in
theorem Pooled.connSz_le (h : s.Pooled) (hNil : s.idleConn = []) : (s.connSz : ℕ∞) ≤ s.inProgress.encard := by
  have hHeld : ∀ n : Fin s.connSz, ∃ k, s.Holds k n := by
    intro n
    obtain hMem | hHeld := h.covered n n.isLt
    · rw [hNil] at hMem
      cases hMem
    · exact hHeld
  choose holder hHolder using hHeld
  have hInj : Function.Injective holder := by
    intro m n hEq
    have hSame := hHolder m
    rw [hEq] at hSame
    exact Fin.ext (Option.some.inj (hSame.symm.trans (hHolder n)))
  have hMaps : Set.range holder ⊆ s.inProgress := by
    rintro _ ⟨n, rfl⟩
    exact ⟨n, hHolder n⟩
  calc (s.connSz : ℕ∞) = ENat.card (Fin s.connSz) := by simp
    _ ≤ (Set.range holder).encard := hInj.encard_range
    _ ≤ s.inProgress.encard := Set.encard_le_encard hMaps

theorem Pooled.connSz_next (h : s.Pooled) (c : Setting) {l : Label κ} (hEnabled : s.enabled l)
    (hOrderly : s.Orderly l) : (s.next c l).connSz = s.connSz ∨
      ((s.next c l).connSz : ℕ∞) ≤ (s.next c l).inProgress.encard := by
  cases l with
  | alloc k type msg =>
    obtain ⟨t, n, rest, hFrom, -, -, -, hEq⟩ := h.sound.alloc_spec k type msg hOrderly.2
    rw [EventConnManager.next, hEq]
    obtain ⟨-, rfl⟩ | ⟨hNil, rfl⟩ := hFrom
    · exact .inl rfl
    · refine .inr ?_
      have hNot : k ∉ s.inProgress := fun ⟨m, hm⟩ => not_holds hEnabled rfl hm
      have hInsert : (s.addEventConn.taken n rest k ⟨type, msg, .allocated n⟩).inProgress =
          insert k s.inProgress := inProgress_insert hEnabled rfl
      rw [hInsert]
      calc ((s.connSz + 1 : ℕ) : ℕ∞) = s.connSz + 1 := Nat.cast_succ _
        _ ≤ s.inProgress.encard + 1 := by gcongr; exact h.connSz_le hNil
        _ = (insert k s.inProgress).encard := (Set.encard_insert_of_notMem hNot).symm
  | call k =>
    obtain ⟨n, hn⟩ := holds_of_ready hEnabled
    exact .inl (callStep_frame hn).connSz
  | main => exact .inl (mainStep_frame s c).connSz
  | event n | answer p m | arrive m => exact .inl rfl

omit [DecidableEq κ] in
theorem Pooled.initial (sz : ℕ) : (initial sz : EventConnManager κ).Pooled := by
  induction sz with
  | zero => exact ⟨.initial 0, fun _ hStarted => absurd rfl hStarted, nofun⟩
  | succ sz ih => exact ih.addEventConn

omit [DecidableEq κ] in
theorem initial_connSz (sz : ℕ) : (initial sz : EventConnManager κ).connSz = sz := by
  induction sz with
  | zero => rfl
  | succ sz ih => exact congrArg Nat.succ ih

/-- In a run of safe steps every connection is idle or in the hands of one call, a call that lets go
of its connection gives it back, and no more connections are made than calls need at the same time. -/
theorem placed_visited (c : Setting) (sz : ℕ) (ls : List (Label κ))
    (hRuns : (system c).Runs (initial sz) ls)
    (hOrderly : ∀ p ∈ (system c).steps (initial sz) ls, p.1.Orderly p.2) :
    (∀ t ∈ (system c).visited (initial sz) ls, t.Placed) ∧
    (∀ p ∈ (system c).steps (initial sz) ls, ∀ k n, p.1.Holds k n →
      ¬ ((system c).next p.1 p.2).Holds k n → n ∈ ((system c).next p.1 p.2).idleConn) ∧
    ∀ most : ℕ, (∀ t ∈ (system c).visited (initial sz) ls, t.inProgress.encard ≤ most) →
      ∀ t ∈ (system c).visited (initial sz) ls, t.connSz ≤ sz + most := by
  have hStep : ∀ (s : EventConnManager κ) (l : Label κ), s.Pooled → s.enabled l → s.Orderly l →
      (s.next c l).Pooled := fun s l h hEnabled hOk => h.next c hEnabled hOk
  refine ⟨fun t ht => ?_, fun p hp k n hHolds hNot => ?_, fun most hMost => ?_⟩
  · exact ((system c).inv_visited hStep (.initial sz) hRuns hOrderly t ht).placed
  · obtain ⟨hPooled, hEnabled⟩ := (system c).inv_steps hStep (.initial sz) hRuns hOrderly p hp
    exact hPooled.next_back c hEnabled (hOrderly p hp) hHolds hNot
  · have hBound : ∀ (s : EventConnManager κ) (l : Label κ), s.Pooled ∧ s.connSz ≤ sz + most →
        s.enabled l → s.Orderly l ∧ (s.next c l).inProgress.encard ≤ most →
        (s.next c l).Pooled ∧ (s.next c l).connSz ≤ sz + most := by
      rintro s l ⟨h, hSz⟩ hEnabled ⟨hOk, hFew⟩
      refine ⟨h.next c hEnabled hOk, ?_⟩
      obtain hEq | hLe := h.connSz_next c hEnabled hOk
      · exact hEq ▸ hSz
      · have hCast : (s.next c l).connSz ≤ most := Nat.cast_le.mp (hLe.trans hFew)
        omega
    have hStart : (initial sz : EventConnManager κ).Pooled ∧
        (initial sz : EventConnManager κ).connSz ≤ sz + most := by
      refine ⟨.initial sz, ?_⟩
      rw [initial_connSz]
      exact Nat.le_add_right sz most
    exact fun t ht => ((system c).inv_visited hBound hStart hRuns
      (fun p hp => ⟨hOrderly p hp, hMost _ ((system c).next_mem_visited hp)⟩) t ht).2

def sendRun : List (Label Unit) :=
  [.alloc () .kSend { dst := "actor.echo.1" }, .call (), .call (), .call (), .call (), .event 0, .main, .main,
    .main, .main, .call (), .call (), .call ()]

theorem placed_visited_send : ((system {}).exec (initial 1) sendRun).idleConn = [0] ∧
    ∀ t ∈ (system {}).visited (initial 1) sendRun, t.Placed :=
  ⟨by decide, (placed_visited {} 1 sendRun (by decide) (by decide)).1⟩

/-- A request without a destination returns at once, and nobody releases its connection. -/
def emptyRun : List (Label Unit) :=
  [.alloc () .kSendReq {}, .call (), .call (), .call (), .call ()]

theorem empty_request_leaks : (system {}).Runs (initial 1) emptyRun ∧
    ¬ ∀ t ∈ (system {}).visited (initial 1) emptyRun, t.Placed := by
  refine ⟨by decide, fun hAll => ?_⟩
  have hLast := hAll _ ((system {}).mem_visited_of_exec (initial 1) emptyRun)
  obtain ⟨hIdle, -⟩ | ⟨k, hHolds, -⟩ := hLast 0 (by decide)
  · exact absurd hIdle (by decide)
  · exact absurd hHolds (by cases k; decide)

end EventConnManager
end Myframe
