import Myframe.Actor.Context
import Myframe.App.Broker

/-! # Subscribing and publishing

`Actor::Subscribe` and `Actor::Publish` only post a message; what comes of it is up to the main loop.
-/
namespace Myframe
set_option autoImplicit false
open Common

/-- An actor with its `ctx_`, which is missing before `SetContext`. `ActorContext::Init` gives the mailbox
the actor's name. -/
structure LinkedActor (γ : Type) where
  typeName : String
  instName : String
  ctx : Option (ActorContext γ) := none
  addr : ∀ x ∈ ctx, x.mailbox.addr = address "actor" typeName instName

namespace LinkedActor

variable {γ : Type} (a : LinkedActor γ)

def getActorName : String := address "actor" a.typeName a.instName

def mapMailbox (f : Mailbox γ → Mailbox γ) (h : ∀ b, (f b).addr = b.addr) : LinkedActor γ where
  typeName := a.typeName
  instName := a.instName
  ctx := a.ctx.map fun x => { x with mailbox := f x.mailbox }
  addr := by
    intro x hx
    obtain ⟨y, hy, rfl⟩ := Option.map_eq_some_iff.mp hx
    rw [h, a.addr y hy]

def subscribe (mark : γ) (addr msgName : String) (mode : TransMode) : LinkedActor γ × Bool :=
  if a.ctx.isNone then (a, false)
  else if addr = a.getActorName then (a, false)
  else
    let msg : Msg := { type := msgTypeSub, name := msgName, transMode := mode }
    (a.mapMailbox (·.pushTo addr ⟨mark, msg⟩) fun _ => rfl, true)

/-- What a call of `Publish` posts. -/
def publication (msg : Msg) : Msg := { msg with src := a.getActorName, dst := "", type := msgTypePub }

def publish (mark : γ) (msg : Msg) : LinkedActor γ × Bool :=
  if a.ctx.isNone then (a, false)
  else (a.mapMailbox (·.push ⟨mark, a.publication msg⟩) fun _ => rfl, true)

def sent : List (Parcel γ) := (a.ctx.map (·.mailbox.send)).getD []

/-- What a call of `Subscribe` posts. -/
def subscription (addr msgName : String) (mode : TransMode) : Msg :=
  { src := a.getActorName, dst := addr, type := msgTypeSub, name := msgName, transMode := mode }

theorem subscribe_sent (mark : γ) (addr msgName : String) (mode : TransMode) :
    (a.subscribe mark addr msgName mode).1.sent =
      a.sent ++
        if (a.subscribe mark addr msgName mode).2 then [⟨mark, a.subscription addr msgName mode⟩] else [] := by
  rw [subscribe]
  split
  · exact (List.append_nil _).symm
  · next hCtx =>
    split
    · exact (List.append_nil _).symm
    · obtain ⟨x, hx⟩ : ∃ x, a.ctx = some x := Option.ne_none_iff_exists'.mp (by simpa using hCtx)
      have hAddr : x.mailbox.addr = a.getActorName := a.addr x hx
      simp [sent, mapMailbox, hx, Mailbox.pushTo, Mailbox.push, subscription, hAddr]

theorem ne_of_subscribe {mark : γ} {addr msgName : String} {mode : TransMode}
    (h : (a.subscribe mark addr msgName mode).2 = true) : addr ≠ a.getActorName := by
  rw [subscribe] at h
  split at h
  · cases h
  · split at h
    · cases h
    · next hNe => exact hNe

theorem publish_sent (mark : γ) (msg : Msg) : (a.publish mark msg).1.sent =
    a.sent ++ if (a.publish mark msg).2 then [⟨mark, a.publication msg⟩] else [] := by
  rw [publish]
  split
  · exact (List.append_nil _).symm
  · next hCtx =>
    obtain ⟨x, hx⟩ : ∃ x, a.ctx = some x := Option.ne_none_iff_exists'.mp (by simpa using hCtx)
    simp [sent, mapMailbox, hx, Mailbox.push]

def Subscribes (m : Msg) : Prop :=
  ∃ (a : LinkedActor Unit) (addr msgName : String) (mode : TransMode),
    (a.subscribe () addr msgName mode).1.sent = a.sent ++ [⟨(), m⟩]

theorem Subscribes.addressed {m : Msg} (h : Subscribes m) : m.src ≠ "" ∧ m.dst ≠ m.src := by
  obtain ⟨a, addr, msgName, mode, hSent⟩ := h
  rw [subscribe_sent, List.append_cancel_left_eq] at hSent
  split at hSent
  · next hPosted =>
    obtain rfl : a.subscription addr msgName mode = m := congrArg Parcel.msg (List.singleton_inj.mp hSent)
    exact ⟨address_ne_empty _ _ _, a.ne_of_subscribe hPosted⟩
  · cases hSent

end LinkedActor
end Myframe
