import Myframe.Actor.Correlation

/-! # Answers reach their asker while no node actor is there

With names that belong to one actor each, requests that only `Request` makes and no actor that takes
the place of the node, an answer comes to the actor whose request it answers and to no other.
-/
namespace Myframe
set_option autoImplicit false
namespace Exchange

variable {ι : Type}

structure Setting.Local (c : Setting ι) : Prop where
  named : ∀ name a, c.ctxs name = some a → c.actorName a = name
  distinct : Function.Injective c.actorName
  noNode : c.nodeAddr.toList.take 5 ≠ "actor".toList

/-- Requests are made by `Request` only. -/
def Honest : Label ι → Prop
  | .send _ msg => msg.type ≠ msgTypeRequest
  | _ => True

/-- A request says who has made it, and an answer is addressed to the asker. -/
structure Traced (c : Setting ι) (p : Parcel (RequestOrigin ι)) : Prop where
  request : p.msg.type = msgTypeRequest → ∃ k, p.mark = .call k ∧ p.msg.src = c.actorName k.1
  response : p.msg.type = msgTypeResponse → ∃ k, Answers k p ∧ p.msg.dst = c.actorName k.1

structure Routed (c : Setting ι) (s : Exchange ι) : Prop where
  addr : ∀ a, (s.actors a).mailbox.addr = c.actorName a
  sent : ∀ a, ∀ p ∈ (s.actors a).mailbox.send, Traced c p
  posted : ∀ p ∈ s.posted, Traced c p

theorem request_ne_response : msgTypeRequest ≠ msgTypeResponse := by decide

variable [DecidableEq ι] {s : Exchange ι} {c : Setting ι}

theorem Routed.modify (h : s.Routed c) (a : ι) {f : RequestContext ι → RequestContext ι}
    {x : RequestContext ι} (hx : f (s.actors a) = x) (hAddr : x.mailbox.addr = (s.actors a).mailbox.addr)
    (hSend : ∀ p ∈ x.mailbox.send, p ∈ (s.actors a).mailbox.send ∨ Traced c p) :
    (s.modify a f).Routed c := by
  subst hx
  refine ⟨fun b => ?_, fun b p => ?_, h.posted⟩
  · rw [modify_actors]
    split
    · next hb => rw [hAddr, hb, h.addr a]
    · exact h.addr b
  · rw [modify_actors]
    split
    · exact fun hp => (hSend p hp).elim (h.sent a p) id
    · exact h.sent b p

theorem Routed.push (h : s.Routed c) (a : ι) {f : RequestContext ι → RequestContext ι}
    {x : RequestContext ι} (hx : f (s.actors a) = x) {p : Parcel (RequestOrigin ι)}
    (hBox : x.mailbox = (s.actors a).mailbox.push p) (hp : Traced c p) : (s.modify a f).Routed c := by
  refine h.modify a hx (by rw [hBox]; rfl) fun q hq => ?_
  rw [hBox] at hq
  obtain hOld | hNew := List.mem_append.mp hq
  · exact .inl hOld
  · rw [List.mem_singleton.mp hNew]
    exact .inr hp

theorem Routed.keep (h : s.Routed c) (a : ι) {f : RequestContext ι → RequestContext ι}
    (hBox : (f (s.actors a)).mailbox = (s.actors a).mailbox) : (s.modify a f).Routed c :=
  h.modify a rfl (congrArg Mailbox.addr hBox) fun _ hq => .inl (hBox ▸ hq)

theorem Routed.next (h : s.Routed c) {l : Label ι} (hEnabled : enabled c s l) (hHonest : Honest l) :
    (s.next l).Routed c := by
  cases l with
  | request a msg =>
    rw [Exchange.next]
    obtain hRequest | hRequest := (s.actors a).request_cases a msg
    · exact h.keep a (by rw [hRequest])
    · refine h.push a (congrArg Prod.fst hRequest) rfl ⟨fun _ => ⟨_, rfl, h.addr a⟩, fun hType => ?_⟩
      exact absurd hType request_ne_response
  | response a req msg =>
    rw [Exchange.next]
    obtain hResponse | ⟨m, hReq, hType, hDst, -, hResponse⟩ := (s.actors a).response_cases req msg
    · exact h.keep a (by rw [hResponse])
    · refine h.push a (congrArg Prod.fst hResponse) rfl ⟨fun hOther => ?_, fun _ => ?_⟩
      · exact absurd (hOther.symm.trans hType) request_ne_response
      · obtain ⟨k, hMark, hSrc⟩ := (h.posted req hEnabled).request hReq
        exact ⟨k, congrArg Origin.answer hMark, hDst.trans hSrc⟩
  | send a msg =>
    rw [Exchange.next]
    exact h.push a rfl rfl ⟨fun hType => absurd hType hHonest, fun hType => absurd hType hEnabled⟩
  | dispatch a =>
    simp only [Exchange.next]
    split
    · exact h
    · next p rest hSend =>
      have hPopped : (s.modify a fun x =>
          { x with mailbox := { x.mailbox with send := rest } }).Routed c :=
        h.modify a rfl rfl fun q hq => .inl (hSend ▸ List.mem_cons_of_mem p hq)
      refine ⟨hPopped.addr, hPopped.sent, fun q hq => ?_⟩
      obtain hOld | hNew := List.mem_append.mp hq
      · exact h.posted q hOld
      · rw [List.mem_singleton.mp hNew]
        exact h.sent a p (hSend ▸ List.mem_cons_self)
  | proc a p =>
    rw [Exchange.next]
    obtain hProc | ⟨n, -, -, hProc⟩ := (s.actors a).proc_cases p
    · exact h.keep a (by rw [hProc])
    · exact h.keep a (by rw [hProc])
  | callbackReturn a =>
    rw [Exchange.next]
    refine h.keep a ?_
    rw [RequestContext.erase]
    split <;> rfl

omit [DecidableEq ι] in
theorem Routed.initial (c : Setting ι) : (initial c).Routed c :=
  ⟨fun _ => rfl, nofun, nofun⟩

theorem Routed.addressed (h : s.Routed c) (hLocal : c.Local) {l : Label ι} (hEnabled : enabled c s l) :
    s.Addressed l := by
  cases l with
  | proc a p =>
    intro hType _
    obtain ⟨k, hAnswers, hDst⟩ := (h.posted p hEnabled.2.1).response hType
    obtain ⟨d, hMem, hReaches⟩ := List.any_eq_true.mp hEnabled.2.2
    cases d with
    | actor name =>
      have hName := (directory c).eq_of_actor_mem_dispatchTo hLocal.noNode hMem
      have hActor : c.actorName a = c.actorName k.1 := by
        rw [hLocal.named name a (of_decide_eq_true hReaches), hName, hDst]
      rw [hLocal.distinct hActor]
      exact ⟨k.2, hAnswers⟩
    | worker name | conn name => cases hReaches
  | request _ _ | response _ _ _ | send _ _ | dispatch _ | callbackReturn _ => trivial

/-- The intended use: every callback gets the answer to its own request. -/
theorem correlated_of_local {ls : List (Label ι)} (hLocal : c.Local)
    (hRuns : (system c).Runs (Exchange.initial c) ls) (hHonest : ∀ l ∈ ls, Honest l)
    (hRecent : ∀ p ∈ (system c).steps (Exchange.initial c) ls, p.1.Recent p.2) :
    Correlated c (Exchange.initial c) ls := by
  have hStep : ∀ (t : Exchange ι) (l : Label ι), t.Routed c → enabled c t l → Honest l →
      (t.next l).Routed c := fun t l ht => ht.next
  have hSteps := (system c).inv_steps hStep (Routed.initial c) hRuns
    fun p hp => hHonest p.2 ((system c).label_mem_of_mem_steps hp)
  refine correlated_of_addressed hRuns hRecent fun p hp => ?_
  exact (hSteps p hp).1.addressed hLocal (hSteps p hp).2

end Exchange
end Myframe
