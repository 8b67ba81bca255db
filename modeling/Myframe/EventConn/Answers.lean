import Mathlib.Data.Fintype.Defs
import Myframe.EventConn.Main

/-! # `SendRequest` returns the answer to its own request -/
namespace Myframe
set_option autoImplicit false

variable {κ : Type}

namespace EventConnManager

instance [Fintype κ] (R : κ → Parcel (Origin κ) → Prop) [∀ k p, Decidable (R k p)]
    (s : EventConnManager κ) (l : Label κ) : Decidable (s.Apart R l) :=
  match l with
  | .alloc .. => match h : s.idleConn.head? with
    | none => .isTrue fun n hn => nomatch h.symm.trans hn
    | some m => decidable_of_iff (∀ k, ¬ s.Holds k m)
      ⟨fun hFree n hn => Option.some.inj (h.symm.trans hn) ▸ hFree, fun hFree => hFree m h⟩
  | .main => match h : s.notify with
    | .found m q => decidable_of_iff ((s.conns m).connType ≠ .kSend → ∃ k, s.Holds k m ∧
        (s.calls k).type = .kSendReq ∧ (s.calls k).msg.dst ≠ "" ∧ R k q)
      ⟨fun hFits n p hp => by
        obtain ⟨rfl, rfl⟩ := Notify.found.inj (h.symm.trans hp)
        exact hFits, fun hFits => hFits m q h⟩
    | .ready | .checked .. | .deleted .. | .released .. | .stored _ =>
      .isTrue fun n p hp => nomatch h.symm.trans hp
  | .call _ | .event _ | .answer .. | .arrive _ => .isTrue trivial

def OwnAnswers (s : EventConnManager κ) : Prop :=
  ∀ k p, (s.calls k).type = .kSendReq → (s.calls k).pc = .returned (some p) → Answers k p

variable [DecidableEq κ]

/-- Requests get their own answers in every run in which no connection is taken while a call still
uses it and `Notify` finds a connection for a message only while the request that the message
answers is in progress on it. -/
theorem ownAnswers_visited (c : Setting) (sz : ℕ) (ls : List (Label κ))
    (hRuns : (system c).Runs (initial sz) ls)
    (hApart : ∀ p ∈ (system c).steps (initial sz) ls, p.1.Apart Answers p.2) :
    ∀ t ∈ (system c).visited (initial sz) ls, t.OwnAnswers := by
  have hStep : ∀ (s : EventConnManager κ) (l : Label κ), s.Sound Answers → s.enabled l →
      s.Apart Answers l → (s.next c l).Sound Answers := fun s l h hEnabled hOk => h.next c hEnabled hOk
  intro t ht
  exact ((system c).inv_visited hStep (Sound.initial sz) hRuns hApart t ht).returned

/-- One connection and two requests, of which the first is answered twice. -/
def echoSetting : Setting where
  hasActor name := name = "actor.echo.1"

def echoMsg (data : String) : Msg := { dst := "actor.echo.1", data := data }

def firstParcel : Parcel (Origin Bool) := ⟨.call false, { echoMsg "1" with src := "event.conn.0" }⟩

def firstRun : List (Label Bool) :=
  [.alloc false .kSendReq (echoMsg "1"), .call false, .call false, .call false, .call false, .event 0,
    .main, .main, .main, .main, .main, .answer firstParcel {}, .main, .main, .main, .main, .main, .main, .call false,
    .call false, .call false, .call false]

def secondRun : List (Label Bool) :=
  [.alloc true .kSendReq (echoMsg "2"), .call true, .call true, .call true, .call true,
    .answer firstParcel {}, .main, .main, .main, .main, .main, .main, .call true, .call true, .call true,
    .call true]

theorem ownAnswers_visited_first :
    (((system echoSetting).exec (initial 1) firstRun).calls false).pc =
      .returned (some ⟨.answer (.call false), { dst := "event.conn.0" }⟩) ∧
    ∀ t ∈ (system echoSetting).visited (initial 1) firstRun, t.OwnAnswers :=
  ⟨by decide, ownAnswers_visited echoSetting 1 firstRun (by decide) (by decide)⟩

/-- The second answer reaches the second request, which has got the same connection. -/
theorem late_answer_taken : (system echoSetting).Runs (initial 1) (firstRun ++ secondRun) ∧
    ¬ ∀ t ∈ (system echoSetting).visited (initial 1) (firstRun ++ secondRun), t.OwnAnswers := by
  refine ⟨by decide, fun hAll => ?_⟩
  have hLast := hAll _ ((system echoSetting).mem_visited_of_exec (initial 1) (firstRun ++ secondRun))
  have hAnswers : Answers true ⟨.answer (.call false), { dst := "event.conn.0" }⟩ :=
    hLast true _ (by decide) (by decide)
  exact absurd hAnswers (by decide)

end EventConnManager
end Myframe
