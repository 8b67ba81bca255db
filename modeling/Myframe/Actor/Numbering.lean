import Myframe.Actor.Request

/-! # The numbers of requests

Ids are the decimal strings of a counter that wraps. A pending callback is among the last `2 ^ 32`
requests of its actor, and everything that a request has made, answers included, carries its id.
-/
namespace Myframe
set_option autoImplicit false

/-- The id of the request number `n`. -/
def requestKey (n : ℕ) : String := toString (n % 2 ^ 32)

theorem requestKey_inj {m n : ℕ} (h : requestKey m = requestKey n) : m % 2 ^ 32 = n % 2 ^ 32 :=
  Common.toString_injective h

/-- Every entry stands under the id of its request and is one of the last `2 ^ 32`. -/
def Window (issued : ℕ) (table : String → Option ℕ) : Prop :=
  ∀ key n, table key = some n → key = requestKey n ∧ n < issued ∧ issued ≤ n + 2 ^ 32

theorem Window.insert {issued : ℕ} {table : String → Option ℕ} (h : Window issued table) :
    Window (issued + 1) (Function.update table (requestKey issued) (some issued)) := by
  intro key n hEntry
  rw [Function.update_apply] at hEntry
  split at hEntry
  · next hKey =>
    obtain rfl := Option.some.inj hEntry
    exact ⟨hKey, Nat.lt_succ_self _, by omega⟩
  · next hKey =>
    obtain ⟨rfl, hLt, hLe⟩ := h key n hEntry
    refine ⟨rfl, Nat.lt_succ_of_lt hLt, ?_⟩
    -- a request that is `2 ^ 32` younger would have taken over the entry
    have hNe : issued ≠ n + 2 ^ 32 := by
      intro hEq
      refine hKey ?_
      rw [requestKey, requestKey, hEq, Nat.add_mod_right]
    omega

theorem Window.mono {issued : ℕ} {table table' : String → Option ℕ} (h : Window issued table)
    (hTable : ∀ key n, table' key = some n → table key = some n) : Window issued table' :=
  fun key n hEntry => h key n (hTable key n hEntry)

theorem Window.unique {issued : ℕ} {table : String → Option ℕ} (h : Window issued table) {m n : ℕ}
    (hEntry : table (requestKey m) = some n) (hLt : m < issued) (hLe : issued ≤ m + 2 ^ 32) : m = n := by
  obtain ⟨hKey, hEntryLt, hEntryLe⟩ := h _ n hEntry
  have hMod := requestKey_inj hKey
  omega

namespace RequestContext

variable {ι : Type}

theorem request_cases (x : RequestContext ι) (a : ι) (msg : Msg) :
    x.request a msg = (x, false) ∨ x.request a msg =
      ({ x with
          requestId := x.requestId + 1
          issued := x.issued + 1
          requestCallbacks :=
            Function.update x.requestCallbacks (toString x.requestId.toNat) (some x.issued)
          mailbox := x.mailbox.pushTo msg.dst ⟨.call (a, x.issued),
            { msg with type := msgTypeRequest, desc := toString x.requestId.toNat }⟩ }, true) := by
  unfold request
  split
  · exact .inl rfl
  · split
    · exact .inl rfl
    · exact .inr rfl

theorem response_cases (x : RequestContext ι) (req : Parcel (RequestOrigin ι)) (msg : Msg) :
    x.response req msg = (x, false) ∨ ∃ m, req.msg.type = msgTypeRequest ∧ m.type = msgTypeResponse ∧
      m.dst = req.msg.src ∧ m.desc = req.msg.desc ∧
      x.response req msg = ({ x with mailbox := x.mailbox.push ⟨.answer req.mark, m⟩ }, true) := by
  unfold response
  split
  · exact .inl rfl
  · next hType =>
    split
    · exact .inl rfl
    · split
      · exact .inl rfl
      · split
        · exact .inl rfl
        · exact .inr ⟨{ msg with
            src := x.mailbox.addr
            dst := req.msg.src
            name := req.msg.name
            type := msgTypeResponse
            desc := req.msg.desc }, not_ne_iff.mp hType, rfl, rfl, rfl, rfl⟩

theorem proc_cases (x : RequestContext ι) (p : Parcel (RequestOrigin ι)) :
    x.proc p = (x, none) ∨ ∃ n, p.msg.type = msgTypeResponse ∧
      x.requestCallbacks p.msg.desc = some n ∧
      x.proc p = ({ x with calling := some p.msg.desc }, some n) := by
  unfold proc
  split
  · next hType =>
    unfold procResponse
    split
    · exact .inl rfl
    · next n hEntry => exact .inr ⟨n, hType, hEntry, rfl⟩
  · exact .inl rfl

end RequestContext

namespace Exchange

variable {ι : Type}

/-- A message that a request made, or a response to it, carries the id of the request. -/
def Labelled (s : Exchange ι) (p : Parcel (RequestOrigin ι)) : Prop :=
  ∀ a n, p.mark = .call (a, n) ∨ p.mark = .answer (.call (a, n)) →
    p.msg.desc = requestKey n ∧ n < (s.actors a).issued

structure Numbered (s : Exchange ι) : Prop where
  counter : ∀ a, (s.actors a).requestId.toNat = (s.actors a).issued % 2 ^ 32
  table : ∀ a, Window (s.actors a).issued (s.actors a).requestCallbacks
  sent : ∀ a, ∀ p ∈ (s.actors a).mailbox.send, s.Labelled p
  posted : ∀ p ∈ s.posted, s.Labelled p

variable [DecidableEq ι]

theorem modify_actors (s : Exchange ι) (a b : ι) (f : RequestContext ι → RequestContext ι) :
    (s.modify a f).actors b = if b = a then f (s.actors a) else s.actors b := by
  simp only [modify, Function.update_apply]

@[simp] theorem modify_actors_self (s : Exchange ι) (a : ι) (f : RequestContext ι → RequestContext ι) :
    (s.modify a f).actors a = f (s.actors a) := Function.update_self ..

variable {s : Exchange ι}

omit [DecidableEq ι] in
theorem Labelled.mono {t : Exchange ι} {p : Parcel (RequestOrigin ι)} (h : s.Labelled p)
    (hIssued : ∀ a, (s.actors a).issued ≤ (t.actors a).issued) : t.Labelled p := by
  intro a n hMark
  obtain ⟨hDesc, hLt⟩ := h a n hMark
  exact ⟨hDesc, hLt.trans_le (hIssued a)⟩

theorem Numbered.modify (h : s.Numbered) (a : ι) {f : RequestContext ι → RequestContext ι}
    {x : RequestContext ι} (hx : f (s.actors a) = x) (hId : x.requestId = (s.actors a).requestId)
    (hIssued : x.issued = (s.actors a).issued)
    (hTable : ∀ key n, x.requestCallbacks key = some n → (s.actors a).requestCallbacks key = some n)
    (hSend : ∀ p ∈ x.mailbox.send, p ∈ (s.actors a).mailbox.send ∨ s.Labelled p) :
    (s.modify a f).Numbered := by
  subst hx
  have hSame : ∀ b, (s.actors b).issued ≤ ((s.modify a f).actors b).issued := by
    intro b
    rw [modify_actors]
    split
    · next hb => rw [hb, hIssued]
    · exact le_rfl
  refine ⟨fun b => ?_, fun b => ?_, fun b p => ?_, fun p hp => (h.posted p hp).mono hSame⟩
  · rw [modify_actors]
    split
    · rw [hId, hIssued]
      exact h.counter a
    · exact h.counter b
  · rw [modify_actors]
    split
    · rw [hIssued]
      exact (h.table a).mono hTable
    · exact h.table b
  · rw [modify_actors]
    split
    · intro hp
      obtain hOld | hNew := hSend p hp
      · exact (h.sent a p hOld).mono hSame
      · exact hNew.mono hSame
    · exact fun hp => (h.sent b p hp).mono hSame

theorem Numbered.request (h : s.Numbered) (a : ι) (msg : Msg) :
    (s.modify a fun x => (x.request a msg).1).Numbered := by
  have hId : toString (s.actors a).requestId.toNat = requestKey (s.actors a).issued := by
    rw [requestKey, h.counter a]
  obtain hRequest | hRequest := (s.actors a).request_cases a msg
  · exact h.modify a (congrArg Prod.fst hRequest) rfl rfl (fun _ _ => id) fun _ => .inl
  · have hIssued : ∀ b, (s.actors b).issued ≤
        ((s.modify a fun x => (x.request a msg).1).actors b).issued := by
      intro b
      rw [modify_actors]
      split
      · next hb =>
        rw [hb, hRequest]
        exact Nat.le_succ _
      · exact le_rfl
    refine ⟨fun b => ?_, fun b => ?_, fun b p => ?_, fun p hp => (h.posted p hp).mono hIssued⟩
    · rw [modify_actors]
      split
      · rw [hRequest]
        simp [h.counter a]
      · exact h.counter b
    · rw [modify_actors]
      split
      · rw [hRequest, hId]
        exact (h.table a).insert
      · exact h.table b
    · rw [modify_actors]
      split
      · next hb =>
        rw [hRequest]
        intro hp
        obtain hOld | hNew := List.mem_append.mp hp
        · exact (h.sent a p hOld).mono hIssued
        · rw [List.mem_singleton.mp hNew]
          rintro c n (hMark | hMark)
          · obtain ⟨rfl, rfl⟩ := Prod.mk.inj (Origin.call.inj hMark)
            refine ⟨hId, ?_⟩
            rw [modify_actors_self, hRequest]
            exact Nat.lt_succ_self _
          · cases hMark
      · exact fun hp => (h.sent b p hp).mono hIssued

theorem Numbered.response (h : s.Numbered) (a : ι) {req : Parcel (RequestOrigin ι)} (hReq : req ∈ s.posted)
    (msg : Msg) : (s.modify a fun x => (x.response req msg).1).Numbered := by
  obtain hResponse | ⟨m, -, -, -, hDesc, hResponse⟩ := (s.actors a).response_cases req msg
  · exact h.modify a (congrArg Prod.fst hResponse) rfl rfl (fun _ _ => id) fun _ => .inl
  · refine h.modify a (congrArg Prod.fst hResponse) rfl rfl (fun _ _ => id) fun p hp => ?_
    refine (List.mem_append.mp hp).imp_right fun hNew => ?_
    rw [List.mem_singleton.mp hNew]
    rintro c n (hMark | hMark)
    · cases hMark
    · rw [hDesc]
      exact h.posted req hReq c n (.inl (Origin.answer.inj hMark))

theorem Numbered.next (h : s.Numbered) (c : Setting ι) {l : Label ι} (hEnabled : enabled c s l) :
    (s.next l).Numbered := by
  cases l with
  | request a msg => exact h.request a msg
  | response a req msg => exact h.response a hEnabled msg
  | send a msg =>
    rw [Exchange.next]
    refine h.modify a rfl rfl rfl (fun _ _ => id) fun p hp => ?_
    refine (List.mem_append.mp hp).imp_right fun hNew => ?_
    rw [List.mem_singleton.mp hNew]
    rintro c n (hMark | hMark) <;> cases hMark
  | dispatch a =>
    simp only [Exchange.next]
    split
    · exact h
    · next p rest hSend =>
      have hPopped : (s.modify a fun x =>
          { x with mailbox := { x.mailbox with send := rest } }).Numbered :=
        h.modify a rfl rfl rfl (fun _ _ => id) fun q hq => .inl (hSend ▸ List.mem_cons_of_mem p hq)
      refine ⟨hPopped.counter, hPopped.table, hPopped.sent, fun q hq => ?_⟩
      obtain hOld | hNew := List.mem_append.mp hq
      · exact hPopped.posted q hOld
      · rw [List.mem_singleton.mp hNew]
        have hLabelled := h.sent a p (hSend ▸ List.mem_cons_self)
        refine hLabelled.mono fun b => ?_
        dsimp only
        rw [modify_actors]
        split
        · next hb => rw [hb]
        · exact le_rfl
  | proc a p =>
    rw [Exchange.next]
    obtain hProc | ⟨n, -, -, hProc⟩ := (s.actors a).proc_cases p
    · exact h.modify a (congrArg Prod.fst hProc) rfl rfl (fun _ _ => id) fun _ => .inl
    · exact h.modify a (congrArg Prod.fst hProc) rfl rfl (fun _ _ => id) fun _ => .inl
  | callbackReturn a =>
    rw [Exchange.next]
    cases hCalling : (s.actors a).calling with
    | none =>
      have hErase : (s.actors a).erase = s.actors a := by rw [RequestContext.erase, hCalling]
      exact h.modify a hErase rfl rfl (fun _ _ => id) fun _ => .inl
    | some key =>
      have hErase : (s.actors a).erase = { s.actors a with
          requestCallbacks := Function.update (s.actors a).requestCallbacks key none
          calling := none } := by rw [RequestContext.erase, hCalling]
      refine h.modify a hErase rfl rfl (fun key' n => ?_) fun _ => .inl
      dsimp only
      rw [Function.update_apply]
      split
      · nofun
      · exact id

omit [DecidableEq ι] in
theorem Numbered.initial (c : Setting ι) : (initial c).Numbered :=
  ⟨fun _ => rfl, nofun, nofun, nofun⟩

end Exchange
end Myframe
