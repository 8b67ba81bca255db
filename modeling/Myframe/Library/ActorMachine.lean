import Mathlib.Data.List.Count
import Mathlib.Logic.Function.Basic
import Myframe.Library.Transition

/-! # Machines of actors

Each actor has a queue and handles what is in it message by message, and each handling is one step.
What the handling posts goes to the actor's outbox, and from there to the queues of the recipients. Who
these are is a matter of `route`, whose state may change with each message.
-/
namespace ActorMachine
set_option autoImplicit false

universe u

structure Machine (ι μ ρ : Type u) where
  routes : ρ
  queue : ι → List μ := fun _ => []
  outbox : ι → List μ := fun _ => []

inductive Act (ι μ : Type u) where
  | arrive (m : μ)
  | handle (a : ι) (posts : List μ)
  | flush (a : ι)

variable {ι μ ρ : Type u} [DecidableEq ι] (route : ρ → μ → ρ × List ι)

/-- The copies of a message that actor `a` gets. -/
def copies (routes : ρ) (m : μ) (a : ι) : List μ := List.replicate ((route routes m).2.count a) m

namespace Machine

def deliver (s : Machine ι μ ρ) (m : μ) : Machine ι μ ρ :=
  { s with
    routes := (route s.routes m).1
    queue := fun a => s.queue a ++ copies route s.routes m a }

def next (s : Machine ι μ ρ) : Act ι μ → Machine ι μ ρ
  | .arrive m => s.deliver route m
  | .handle a posts =>
    { s with
      queue := Function.update s.queue a (s.queue a).tail
      outbox := Function.update s.outbox a (s.outbox a ++ posts) }
  | .flush a =>
    match s.outbox a with
    | [] => s
    | m :: rest => { s with outbox := Function.update s.outbox a rest }.deliver route m

def enabled (s : Machine ι μ ρ) : Act ι μ → Prop
  | .arrive _ => True
  | .handle a _ => s.queue a ≠ []
  | .flush a => s.outbox a ≠ []

def arrived (_ : Machine ι μ ρ) : Act ι μ → List μ
  | .arrive m => [m]
  | _ => []

def delivered (a : ι) (s : Machine ι μ ρ) : Act ι μ → List μ
  | .arrive m => copies route s.routes m a
  | .handle _ _ => []
  | .flush b => (s.outbox b).head?.toList.flatMap fun m => copies route s.routes m a

def handled (a : ι) (s : Machine ι μ ρ) : Act ι μ → List μ
  | .handle b _ => if b = a then (s.queue a).take 1 else []
  | _ => []

def posted (a : ι) (_ : Machine ι μ ρ) : Act ι μ → List μ
  | .handle b posts => if b = a then posts else []
  | _ => []

def flushed (a : ι) (s : Machine ι μ ρ) : Act ι μ → List μ
  | .flush b => if b = a then (s.outbox a).take 1 else []
  | _ => []

end Machine

def machine : Transition.System (Machine ι μ ρ) (Act ι μ) where
  enabled s l := s.enabled l
  next s l := s.next route l

namespace Machine

variable {route} {s : Machine ι μ ρ} {l : Act ι μ}

theorem queue_balance (a : ι) (h : s.enabled l) :
    s.queue a ++ s.delivered route a l = s.handled a l ++ (s.next route l).queue a := by
  cases l with
  | arrive m => rfl
  | handle b posts =>
    obtain ⟨m, rest, hQueue⟩ := List.exists_cons_of_ne_nil h
    obtain rfl | hNe := eq_or_ne a b
    · simp [delivered, handled, next, hQueue]
    · simp [delivered, handled, next, hNe, hNe.symm]
  | flush b =>
    obtain ⟨m, rest, hOutbox⟩ := List.exists_cons_of_ne_nil h
    simp [delivered, handled, next, deliver, hOutbox]

theorem outbox_balance (a : ι) (h : s.enabled l) :
    s.outbox a ++ s.posted a l = s.flushed a l ++ (s.next route l).outbox a := by
  cases l with
  | arrive m => simp [posted, flushed, next, deliver]
  | handle b posts =>
    obtain rfl | hNe := eq_or_ne a b
    · simp [posted, flushed, next]
    · simp [posted, flushed, next, hNe, hNe.symm]
  | flush b =>
    obtain ⟨m, rest, hOutbox⟩ := List.exists_cons_of_ne_nil h
    obtain rfl | hNe := eq_or_ne a b
    · simp [posted, flushed, next, deliver, hOutbox]
    · simp [posted, flushed, next, deliver, hOutbox, hNe, hNe.symm]

/-- What is in an actor's queue at the beginning and is delivered to it is handled in this order, each
message once, or still in the queue. -/
theorem queue_history (a : ι) {ls : List (Act ι μ)} (h : (machine route).Runs s ls) :
    s.queue a ++ (machine route).emitted (delivered route a) s ls =
      (machine route).emitted (handled a) s ls ++ ((machine route).exec s ls).queue a := by
  have hStep : ∀ (s : Machine ι μ ρ) (l : Act ι μ), True → s.enabled l → True → True :=
    fun _ _ _ _ _ => trivial
  have hBalance : ∀ (s : Machine ι μ ρ) (l : Act ι μ), True → s.enabled l → True →
      s.queue a ++ delivered route a s l = handled a s l ++ (s.next route l).queue a :=
    fun _ _ _ hEnabled _ => queue_balance a hEnabled
  exact (machine route).conservation hStep hBalance trivial h fun _ _ => trivial

/-- What an actor posts leaves its outbox in this order, each message once, or is still in it. -/
theorem outbox_history (a : ι) {ls : List (Act ι μ)} (h : (machine route).Runs s ls) :
    s.outbox a ++ (machine route).emitted (posted a) s ls =
      (machine route).emitted (flushed a) s ls ++ ((machine route).exec s ls).outbox a := by
  have hStep : ∀ (s : Machine ι μ ρ) (l : Act ι μ), True → s.enabled l → True → True :=
    fun _ _ _ _ _ => trivial
  have hBalance : ∀ (s : Machine ι μ ρ) (l : Act ι μ), True → s.enabled l → True →
      s.outbox a ++ posted a s l = flushed a s l ++ (s.next route l).outbox a :=
    fun _ _ _ hEnabled _ => outbox_balance a hEnabled
  exact (machine route).conservation hStep hBalance trivial h fun _ _ => trivial

end Machine
end ActorMachine
