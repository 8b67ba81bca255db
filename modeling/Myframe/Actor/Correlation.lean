import Myframe.Actor.Numbering

/-! # Each callback gets the answer to its own request

Ids are unique among the pending callbacks of one actor only. What `Proc` takes for an answer is
therefore right as long as it is an answer to some request of the same actor.
-/
namespace Myframe
set_option autoImplicit false

namespace RequestContext

variable {ι : Type}

/-- The callback may still be invoked: its request is yet to come, or its entry is in the table and
not in the hands of `ProcResponse`. -/
def Due (x : RequestContext ι) (n : ℕ) : Prop :=
  x.issued ≤ n ∨ x.requestCallbacks (requestKey n) = some n ∧ x.calling ≠ some (requestKey n)

instance (x : RequestContext ι) (n : ℕ) : Decidable (x.Due n) := inferInstanceAs (Decidable (_ ∨ _))

theorem Due.of_request {x : RequestContext ι} {a : ι} {msg : Msg} {n : ℕ}
    (h : (x.request a msg).1.Due n) : x.Due n := by
  obtain hRequest | hRequest := x.request_cases a msg
  · rwa [hRequest] at h
  · rw [hRequest] at h
    obtain hLater | ⟨hEntry, hCalling⟩ := h
    · exact .inl (Nat.le_of_succ_le hLater)
    · dsimp only at hEntry
      rw [Function.update_apply] at hEntry
      split at hEntry
      · exact .inl (Option.some.inj hEntry).le
      · exact .inr ⟨hEntry, hCalling⟩

theorem Due.of_erase {x : RequestContext ι} {n : ℕ} (h : x.erase.Due n) : x.Due n := by
  unfold erase at h
  split at h
  · exact h
  · next key hKey =>
    obtain hLater | ⟨hEntry, -⟩ := h
    · exact .inl hLater
    · dsimp only at hEntry
      rw [Function.update_apply] at hEntry
      split at hEntry
      · cases hEntry
      · next hNe =>
        refine .inr ⟨hEntry, ?_⟩
        rw [hKey]
        exact fun hEq => hNe (Option.some.inj hEq).symm

end RequestContext

namespace Exchange

variable {ι : Type}

def answered (p : Parcel (RequestOrigin ι)) : Option (ι × ℕ) :=
  match p.mark with
  | .answer (.call k) => some k
  | _ => none

theorem answers_iff {k : ι × ℕ} {p : Parcel (RequestOrigin ι)} : Answers k p ↔ answered p = some k := by
  unfold answered Answers
  split
  · next m hMark => rw [hMark, Origin.answer.injEq, Origin.call.injEq, Option.some.injEq]
  · next hOther => exact ⟨fun hMark => (hOther k hMark).elim, nofun⟩

/-- The callback that `Proc` invokes with the message, if any. -/
def invoked (s : Exchange ι) (a : ι) (p : Parcel (RequestOrigin ι)) : Option ℕ :=
  ((s.actors a).proc p).2

def invocations (s : Exchange ι) : Label ι → List (ι × ℕ)
  | .proc a p => (s.invoked a p).toList.map (a, ·)
  | _ => []

/-- Fewer than `2 ^ 32` requests lie between a request and an answer to it. -/
def Recent (s : Exchange ι) : Label ι → Prop
  | .proc a p => ∀ n, Answers (a, n) p → (s.actors a).issued ≤ n + 2 ^ 32
  | _ => True

/-- A response whose id is pending answers a request of the actor that it has reached. -/
def Addressed (s : Exchange ι) : Label ι → Prop
  | .proc a p => p.msg.type = msgTypeResponse → (s.actors a).requestCallbacks p.msg.desc ≠ none →
    ∃ n, Answers (a, n) p
  | _ => True

def Pending (s : Exchange ι) (a : ι) (n : ℕ) : Prop :=
  ∃ key, (s.actors a).requestCallbacks key = some n

/-- A callback is invoked with an answer to its own request. -/
def Own (s : Exchange ι) : Label ι → Prop
  | .proc a p => ∀ n ∈ s.invoked a p, Answers (a, n) p
  | _ => True

variable [DecidableEq ι]

instance (s : Exchange ι) (l : Label ι) : Decidable (s.Recent l) :=
  match l with
  | .proc a p => match h : answered p with
    | none => .isTrue fun n hAnswers => nomatch h.symm.trans (answers_iff.mp hAnswers)
    | some k => decidable_of_iff (k.1 = a → (s.actors a).issued ≤ k.2 + 2 ^ 32)
      ⟨fun hLe n hAnswers => by
        obtain rfl := Option.some.inj (h.symm.trans (answers_iff.mp hAnswers))
        exact hLe rfl, fun hAll hEq => hAll k.2 (answers_iff.mpr (hEq ▸ h))⟩
  | .request .. | .response .. | .send .. | .dispatch _ | .callbackReturn _ => .isTrue trivial

instance (a : ι) (p : Parcel (RequestOrigin ι)) : Decidable (∃ n, Answers (a, n) p) :=
  decidable_of_iff (∃ k ∈ answered p, k.1 = a)
    ⟨fun ⟨k, hk, hEq⟩ => ⟨k.2, answers_iff.mpr (hEq ▸ hk)⟩,
      fun ⟨n, hn⟩ => ⟨(a, n), answers_iff.mp hn, rfl⟩⟩

instance (s : Exchange ι) (l : Label ι) : Decidable (s.Addressed l) :=
  match l with
  | .proc a p => inferInstanceAs (Decidable (p.msg.type = msgTypeResponse →
    (s.actors a).requestCallbacks p.msg.desc ≠ none → ∃ n, Answers (a, n) p))
  | .request .. | .response .. | .send .. | .dispatch _ | .callbackReturn _ => .isTrue trivial

instance (s : Exchange ι) (l : Label ι) : Decidable (s.Own l) :=
  match l with
  | .proc a p => inferInstanceAs (Decidable (∀ n ∈ s.invoked a p, Answers (a, n) p))
  | .request .. | .response .. | .send .. | .dispatch _ | .callbackReturn _ => .isTrue trivial

/-- All other responses invoke nothing and leave all tables as they are. -/
def OthersIgnored (s : Exchange ι) : Label ι → Prop
  | .proc a p => p.msg.type = msgTypeResponse → (∀ n, Answers (a, n) p → ¬ s.Pending a n) →
    s.invoked a p = none ∧
      ∀ b, ((s.next (.proc a p)).actors b).requestCallbacks = (s.actors b).requestCallbacks
  | _ => True

/-- A `Request` or `Response` that returns `false` changes nothing. -/
def RefusedUnchanged (s : Exchange ι) : Label ι → Prop
  | .request a msg => ((s.actors a).request a msg).2 = false → s.next (.request a msg) = s
  | .response a req msg => ((s.actors a).response req msg).2 = false → s.next (.response a req msg) = s
  | _ => True

structure Correlated (c : Setting ι) (s : Exchange ι) (ls : List (Label ι)) : Prop where
  once : ((system c).emitted invocations s ls).Nodup
  own : ∀ p ∈ (system c).steps s ls, p.1.Own p.2
  others : ∀ p ∈ (system c).steps s ls, p.1.OthersIgnored p.2
  refused : ∀ p ∈ (system c).steps s ls, p.1.RefusedUnchanged p.2

variable {s : Exchange ι} {c : Setting ι}

theorem refusedUnchanged (s : Exchange ι) (l : Label ι) : s.RefusedUnchanged l := by
  have hSame : ∀ (a : ι) (f : RequestContext ι → RequestContext ι), f (s.actors a) = s.actors a →
      s.modify a f = s := by
    intro a f hf
    rw [modify, hf, Function.update_eq_self]
  cases l with
  | request a msg =>
    intro hRefused
    rw [next]
    refine hSame a _ ?_
    obtain hRequest | hRequest := (s.actors a).request_cases a msg
    · rw [hRequest]
    · cases (congrArg Prod.snd hRequest).symm.trans hRefused
  | response a req msg =>
    intro hRefused
    rw [next]
    refine hSame a _ ?_
    obtain hResponse | ⟨m, -, -, -, -, hResponse⟩ := (s.actors a).response_cases req msg
    · rw [hResponse]
    · cases (congrArg Prod.snd hResponse).symm.trans hRefused
  | send _ _ | dispatch _ | proc _ _ | callbackReturn _ => trivial

theorem invoked_cases (s : Exchange ι) (a : ι) (p : Parcel (RequestOrigin ι)) :
    s.invoked a p = none ∧ s.next (.proc a p) = s ∨
      ∃ n, s.invoked a p = some n ∧ p.msg.type = msgTypeResponse ∧
        (s.actors a).requestCallbacks p.msg.desc = some n ∧
        s.next (.proc a p) = s.modify a fun x => { x with calling := some p.msg.desc } := by
  rw [next, invoked]
  obtain hProc | ⟨n, hType, hEntry, hProc⟩ := (s.actors a).proc_cases p
  · refine .inl ⟨congrArg Prod.snd hProc, ?_⟩
    rw [modify, hProc, Function.update_eq_self]
  · refine .inr ⟨n, congrArg Prod.snd hProc, hType, hEntry, ?_⟩
    rw [modify, modify, hProc]

omit [DecidableEq ι] in
/-- With recent answers only, the entry that the id of an answer leads to is its own. -/
theorem Numbered.entry_eq (h : s.Numbered) {a : ι} {p : Parcel (RequestOrigin ι)} (hPosted : p ∈ s.posted)
    (hRecent : s.Recent (.proc a p)) {m n : ℕ} (hAnswers : Answers (a, m) p)
    (hEntry : (s.actors a).requestCallbacks p.msg.desc = some n) : m = n := by
  obtain ⟨hDesc, hLt⟩ := h.posted p hPosted a m (.inr hAnswers)
  exact (h.table a).unique (hDesc ▸ hEntry) hLt (hRecent m hAnswers)

theorem Numbered.own (h : s.Numbered) {l : Label ι} (hEnabled : enabled c s l) (hRecent : s.Recent l)
    (hAddressed : s.Addressed l) : s.Own l := by
  cases l with
  | proc a p =>
    intro n hInvoked
    obtain ⟨hNone, -⟩ | ⟨m, hSome, hType, hEntry, -⟩ := s.invoked_cases a p
    · nomatch hNone.symm.trans hInvoked
    · obtain rfl := Option.some.inj (hSome.symm.trans hInvoked)
      obtain ⟨k, hAnswers⟩ := hAddressed hType (hEntry ▸ Option.some_ne_none m)
      rwa [h.entry_eq hEnabled.2.1 hRecent hAnswers hEntry] at hAnswers
  | request _ _ | response _ _ _ | send _ _ | dispatch _ | callbackReturn _ => trivial

theorem othersIgnored_of_own {l : Label ι} (h : s.Own l) : s.OthersIgnored l := by
  cases l with
  | proc a p =>
    intro _ hOther
    obtain ⟨hNone, hNext⟩ | ⟨n, hSome, -, hEntry, -⟩ := s.invoked_cases a p
    · exact ⟨hNone, fun b => by rw [hNext]⟩
    · exact absurd ⟨_, hEntry⟩ (hOther n (h n hSome))
  | request _ _ | response _ _ _ | send _ _ | dispatch _ | callbackReturn _ => trivial

omit [DecidableEq ι] in
theorem addressed_of_own {l : Label ι} (h : s.Own l) : s.Addressed l := by
  cases l with
  | proc a p =>
    intro hType hEntry
    obtain ⟨n, hn⟩ := Option.ne_none_iff_exists'.mp hEntry
    refine ⟨n, h n ?_⟩
    rw [Option.mem_def, invoked, RequestContext.proc, if_pos hType, RequestContext.procResponse, hn]
  | request _ _ | response _ _ _ | send _ _ | dispatch _ | callbackReturn _ => trivial

theorem due_of_modify {a b : ι} {f : RequestContext ι → RequestContext ι} {n : ℕ}
    (h : ((s.modify b f).actors a).Due n) (hf : (f (s.actors b)).Due n → (s.actors b).Due n) :
    (s.actors a).Due n := by
  rw [modify_actors] at h
  split at h
  · next hEq => exact hEq ▸ hf h
  · exact h

theorem due_of_next {l : Label ι} (hEnabled : enabled c s l) {a : ι} {n : ℕ}
    (h : ((s.next l).actors a).Due n) : (s.actors a).Due n := by
  cases l with
  | request b msg =>
    rw [next] at h
    exact due_of_modify h RequestContext.Due.of_request
  | response b req msg =>
    rw [next] at h
    refine due_of_modify h fun hDue => ?_
    obtain hResponse | ⟨m, -, -, -, -, hResponse⟩ := (s.actors b).response_cases req msg
    · rwa [hResponse] at hDue
    · rwa [hResponse] at hDue
  | send b msg =>
    rw [next] at h
    exact due_of_modify h id
  | dispatch b =>
    simp only [next] at h
    split at h
    · exact h
    · next p rest _ =>
      have hPopped : ((s.modify b fun x =>
        { x with mailbox := { x.mailbox with send := rest } }).actors a).Due n := h
      exact due_of_modify hPopped id
  | proc b p =>
    rw [next] at h
    refine due_of_modify h fun hDue => ?_
    obtain hProc | ⟨m, -, -, hProc⟩ := (s.actors b).proc_cases p
    · rwa [hProc] at hDue
    · rw [hProc] at hDue
      refine hDue.imp_right fun hEntry => ⟨hEntry.1, ?_⟩
      rw [hEnabled.1]
      rintro ⟨⟩
  | callbackReturn b =>
    rw [next] at h
    exact due_of_modify h RequestContext.Due.of_erase

/-- A callback invoked was due, and is not any more. -/
theorem Numbered.due_of_invoked (h : s.Numbered) {a : ι} {p : Parcel (RequestOrigin ι)}
    (hEnabled : enabled c s (.proc a p)) {n : ℕ} (hInvoked : s.invoked a p = some n) :
    (s.actors a).Due n ∧ ¬ ((s.next (.proc a p)).actors a).Due n := by
  obtain ⟨hNone, -⟩ | ⟨m, hSome, -, hEntry, hNext⟩ := s.invoked_cases a p
  · nomatch hNone.symm.trans hInvoked
  · obtain rfl := Option.some.inj (hSome.symm.trans hInvoked)
    obtain ⟨hKey, hLt, -⟩ := h.table a _ m hEntry
    refine ⟨.inr ⟨hKey ▸ hEntry, ?_⟩, ?_⟩
    · rw [hEnabled.1]
      nofun
    · rw [hNext, modify_actors_self]
      rintro (hLater | ⟨-, hCalling⟩)
      · exact absurd hLater (Nat.not_le.mpr hLt)
      · exact hCalling (congrArg some hKey)

theorem Numbered.once (h : s.Numbered) {ls : List (Label ι)} (hRuns : (system c).Runs s ls) :
    ((system c).emitted invocations s ls).Nodup := by
  refine List.nodup_iff_count_le_one.mpr fun ⟨a, n⟩ => ?_
  let budget (t : Exchange ι) : ℕ := if (t.actors a).Due n then 1 else 0
  have hSpend : ∀ t l, Numbered t → enabled c t l →
      (invocations t l).count (a, n) + budget (t.next l) ≤ budget t := by
    intro t l ht hl
    have hKept : budget (t.next l) ≤ budget t := by
      by_cases hDue : ((t.next l).actors a).Due n
      · simp only [budget, if_pos hDue, if_pos (due_of_next hl hDue), le_refl]
      · simp only [budget, if_neg hDue, Nat.zero_le]
    by_cases hMem : (a, n) ∈ invocations t l
    · cases l with
      | proc b p =>
        obtain ⟨m, hInvoked, hEq⟩ := List.mem_map.mp hMem
        obtain ⟨rfl, rfl⟩ := Prod.mk.inj hEq
        obtain ⟨hDue, hSpent⟩ := ht.due_of_invoked hl (Option.mem_toList.mp hInvoked)
        simp only [budget, if_pos hDue, if_neg hSpent]
        rw [invocations, Option.mem_toList.mp hInvoked]
        simp
      | request _ _ | response _ _ _ | send _ _ | dispatch _ | callbackReturn _ => nomatch hMem
    · rwa [List.count_eq_zero_of_not_mem hMem, Nat.zero_add]
  refine ((system c).emitted_count_le (fun t l ht => ht.next c) hSpend h hRuns).trans ?_
  simp only [budget]
  split
  · exact le_rfl
  · exact Nat.zero_le 1

theorem correlated_of_addressed {ls : List (Label ι)} (hRuns : (system c).Runs (initial c) ls)
    (hRecent : ∀ p ∈ (system c).steps (initial c) ls, p.1.Recent p.2)
    (hAddressed : ∀ p ∈ (system c).steps (initial c) ls, p.1.Addressed p.2) :
    Correlated c (initial c) ls := by
  have hStep : ∀ t l, Numbered t → enabled c t l → t.Recent l → (t.next l).Numbered :=
    fun t l ht hl _ => ht.next c hl
  have hNumbered := (system c).inv_steps hStep (Numbered.initial c) hRuns hRecent
  have hOwn : ∀ p ∈ (system c).steps (initial c) ls, p.1.Own p.2 := by
    intro p hp
    obtain ⟨hNum, hEnabled⟩ := hNumbered p hp
    exact hNum.own hEnabled (hRecent p hp) (hAddressed p hp)
  exact ⟨(Numbered.initial c).once hRuns, hOwn, fun p hp => othersIgnored_of_own (hOwn p hp),
    fun p _ => refusedUnchanged p.1 p.2⟩

/-- With answers that are not too late, every callback gets the answer to its own request just when
no actor is handed the answer to another actor's request under an id that is pending there. -/
theorem correlated_iff_addressed {ls : List (Label ι)} (hRuns : (system c).Runs (initial c) ls)
    (hRecent : ∀ p ∈ (system c).steps (initial c) ls, p.1.Recent p.2) :
    Correlated c (initial c) ls ↔ ∀ p ∈ (system c).steps (initial c) ls, p.1.Addressed p.2 :=
  ⟨fun h p hp => addressed_of_own (h.own p hp), correlated_of_addressed hRuns hRecent⟩

/-- An actor and the node actor each wait for the answer of a third one. -/
inductive Peer where
  | asker
  | server
  | node
  deriving DecidableEq

def peerSetting : Setting Peer where
  actorName
    | .asker => "actor.asker.1"
    | .server => "actor.server.1"
    | .node => "actor.node.1"
  ctxs name :=
    if name = "actor.asker.1" then some .asker
    else if name = "actor.server.1" then some .server
    else if name = "actor.node.1" then some .node
    else none
  nodeAddr := "actor.node.1"

def serverRequest (a : Peer) : Parcel (RequestOrigin Peer) :=
  ⟨.call (a, 0), {
    src := peerSetting.actorName a
    dst := "actor.server.1"
    type := msgTypeRequest
    desc := "0" }⟩

def serverAnswer (a : Peer) (mode : TransMode) : Parcel (RequestOrigin Peer) :=
  ⟨.answer (.call (a, 0)), {
    src := "actor.server.1"
    dst := peerSetting.actorName a
    type := msgTypeResponse
    desc := "0"
    transMode := mode }⟩

def answeredRun (mode : TransMode) : List (Label Peer) :=
  [.request .node { dst := "actor.server.1" }, .request .asker { dst := "actor.server.1" },
    .dispatch .asker, .proc .server (serverRequest .asker),
    .response .server (serverRequest .asker) { transMode := mode }, .dispatch .server]

def localRun : List (Label Peer) :=
  answeredRun .kIntra ++ [.proc .asker (serverAnswer .asker .kIntra), .callbackReturn .asker]

def hybridRun : List (Label Peer) :=
  answeredRun .kHybrid ++ [.proc .node (serverAnswer .asker .kHybrid), .callbackReturn .node]

/-- The asker gets its answer while the node actor waits for its own. -/
theorem correlated_local : Correlated peerSetting (initial peerSetting) localRun :=
  (correlated_iff_addressed (by decide) (by decide)).mpr (by decide)

/-- The answer to the asker reaches the node actor as well, and runs the callback that waits there. -/
theorem hybrid_answer_taken : (system peerSetting).Runs (initial peerSetting) hybridRun ∧
    (∀ p ∈ (system peerSetting).steps (initial peerSetting) hybridRun, p.1.Recent p.2) ∧
    ¬ Correlated peerSetting (initial peerSetting) hybridRun := by
  refine ⟨by decide, by decide, fun h => ?_⟩
  exact absurd h.own (by decide)

end Exchange
end Myframe
