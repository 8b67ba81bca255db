import Myframe.Library.Transition
import Myframe.Actor.Context
import Myframe.UserWorker.System
import Myframe.EventConn.System

/-! # Several applications in one process

The functions behind the routing table of `DispatchMsg` are static and hold the `this` of the
application whose dispatch came to them first. They look up and deliver there, whichever application
the message was given to.
-/
namespace Myframe
set_option autoImplicit false
open Common

/-- `received` lists, in their order, the messages that the mailboxes of the application have been
given. -/
structure App (ι ω κ : Type) where
  subs : MsgManager := .empty
  nodeAddr : String := ""
  nameList : List String := []
  actorCtxMgr : ActorContextManager ι (Origin κ)
  workerCtxMgr : WorkerContextManager ω (Origin κ)
  conns : ℕ → EventConn κ := fun _ => {}
  idleConn : List ℕ := []
  evMgr : EventManager := {}
  received : List (Delivery × Parcel (Origin κ)) := []

namespace App

variable {ι ω κ : Type}

def directory (a : App ι ω κ) : Directory where
  nodeAddr := a.nodeAddr
  hasActor name := (a.actorCtxMgr.ctxs name).isSome
  hasEvent name := (a.workerCtxMgr.names name).isSome

/-- The row is chosen by the address, the address is looked up in the application of the closures.
Reading `name_list_[1]` past the end is undefined; here it finds nothing. -/
def deliveries (a : App ι ω κ) (dst : String) (mode : TransMode) : List Delivery :=
  let d := a.directory
  match splitMsgName dst with
  | [part0, _, _] =>
    if part0 = "actor" then d.transMap (d.trans2actor dst) mode
    else if part0 = "worker" then d.transMap (d.trans2worker dst) mode
    else if part0 = "event" then d.transMap (Directory.trans2ev (a.nameList[1]?.getD "") dst) mode
    else []
  | _ => []

/-- Whether a delivery comes to a mailbox; otherwise it is only logged. -/
def finds (a : App ι ω κ) : Delivery → Bool
  | .actor name => (a.actorCtxMgr.ctxs name).isSome
  | .worker name => (a.workerCtxMgr.names name).any fun w => (a.workerCtxMgr.heap w).type = .kWorkerUser
  | .conn name => (a.evMgr.names name).any fun n => a.evMgr.evs n && (a.conns n).connType = .kSendReq

def notify (a : App ι ω κ) (name : String) (p : Parcel (Origin κ)) : App ι ω κ :=
  match a.evMgr.names name with
  | none => a
  | some n =>
    { a with
      evMgr := a.evMgr.del n (a.conns n).mailbox.addr
      idleConn := a.idleConn ++ [n]
      conns := Function.update a.conns n
        { a.conns n with
          mailbox := (a.conns n).mailbox.receive p
          channel := (a.conns n).channel.sendToOwner .kIdle } }

variable [DecidableEq ι] [DecidableEq ω]

def deliverTo (p : Parcel (Origin κ)) (a : App ι ω κ) (d : Delivery) : App ι ω κ :=
  if a.finds d = true then
    let a := { a with received := a.received ++ [(d, p)] }
    match d with
    | .actor name => { a with actorCtxMgr := a.actorCtxMgr.dispatchMsg name p }
    | .worker name => { a with workerCtxMgr := a.workerCtxMgr.dispatchWorkerMsg name p }
    | .conn name => a.notify name p
  else a

/-- The calls of `DispatchMsg(msg, dst, trans_mode)` that `DispatchMsg(msg)` makes. -/
def calls (w : SetWalk) (a : App ι ω κ) (msg : Msg) : List (String × TransMode) :=
  let (_, forward, calls) := a.subs.outcome w msg
  if msg.type = msgTypeSub then if forward then [(a.nodeAddr, .kDDS)] else []
  else if msg.type = msgTypePub then
    calls.map fun c => (if c.1 = "" then a.nodeAddr else c.1, c.2)
  else [(msg.dst, msg.transMode)]

end App

/-- `first` is the application whose `this` the closures hold. -/
structure Process (α ι ω κ : Type) where
  apps : α → App ι ω κ
  first : Option α := none

/-- `dst.empty() ? msg->GetDst() : dst`. -/
def dstAddr {κ : Type} (p : Parcel (Origin κ)) (dst : String) : String := if dst = "" then p.msg.dst else dst

namespace Process

variable {α ι ω κ : Type} [DecidableEq α] [DecidableEq ι] [DecidableEq ω]

def modify (s : Process α ι ω κ) (x : α) (f : App ι ω κ → App ι ω κ) : Process α ι ω κ :=
  { s with apps := Function.update s.apps x (f (s.apps x)) }

/-- `DispatchMsg(msg, dst, trans_mode)` of application `x`. -/
def call (s : Process α ι ω κ) (x : α) (p : Parcel (Origin κ)) (c : String × TransMode) :
    Process α ι ω κ :=
  let dst := dstAddr p c.1
  let s := s.modify x fun a => { a with nameList := splitMsgName dst }
  if (splitMsgName dst).length = 3 then
    let f := s.first.getD x
    { s.modify f fun a => (a.deliveries dst c.2).foldl (App.deliverTo p) a with first := some f }
  else s

/-- `DispatchMsg(msg)` of application `x`. -/
def dispatchMsg (w : SetWalk) (s : Process α ι ω κ) (x : α) (p : Parcel (Origin κ)) : Process α ι ω κ :=
  ((s.apps x).calls w p.msg).foldl (fun s c => s.call x p c)
    (s.modify x fun a => { a with subs := (a.subs.outcome w p.msg).1 })

def system (w : SetWalk) : Transition.System (Process α ι ω κ) (α × Parcel (Origin κ)) where
  enabled _ _ := True
  next s l := s.dispatchMsg w l.1 l.2

def alone (a : App ι ω κ) : Process Unit ι ω κ where
  apps _ := a

end Process

def own {α κ : Type} [DecidableEq α] (x : α) (ls : List (α × Parcel (Origin κ))) :
    List (Unit × Parcel (Origin κ)) :=
  (ls.filter fun l => l.1 = x).map fun l => ((), l.2)

namespace App

variable {ι ω κ : Type}

def reaches (a : App ι ω κ) (dst : String) (mode : TransMode) : Bool := (a.deliveries dst mode).any a.finds

end App

namespace Process

variable {α ι ω κ : Type}

/-- The dispatch goes through the application of the closures, or comes to no mailbox, neither there
nor by the registers of its own application. -/
def Own (w : SetWalk) (s : Process α ι ω κ) (l : α × Parcel (Origin κ)) : Prop :=
  s.first.getD l.1 = l.1 ∨
    ∀ c ∈ (s.apps l.1).calls w l.2.msg,
      ({ s.apps l.1 with nameList := splitMsgName (dstAddr l.2 c.1) } : App ι ω κ).reaches
          (dstAddr l.2 c.1) c.2 = false ∧
        (s.apps (s.first.getD l.1)).reaches (dstAddr l.2 c.1) c.2 = false

instance [DecidableEq α] (w : SetWalk) (s : Process α ι ω κ) (l : α × Parcel (Origin κ)) :
    Decidable (s.Own w l) :=
  inferInstanceAs (Decidable (_ ∨ ∀ c ∈ (s.apps l.1).calls w l.2.msg, _ ∧ _))

end Process

namespace App

variable {ι ω κ : Type} [DecidableEq ι] [DecidableEq ω]

/-- A call when the closures are the application's own. -/
def call (p : Parcel (Origin κ)) (a : App ι ω κ) (c : String × TransMode) : App ι ω κ :=
  let dst := dstAddr p c.1
  let a := { a with nameList := splitMsgName dst }
  (a.deliveries dst c.2).foldl (deliverTo p) a

def dispatchMsg (w : SetWalk) (a : App ι ω κ) (p : Parcel (Origin κ)) : App ι ω κ :=
  (a.calls w p.msg).foldl (call p) { a with subs := (a.subs.outcome w p.msg).1 }

omit [DecidableEq ι] [DecidableEq ω] in
theorem deliveries_of_length {a : App ι ω κ} {dst : String} {mode : TransMode}
    (h : (splitMsgName dst).length ≠ 3) : a.deliveries dst mode = [] := by
  rw [deliveries]
  split
  · next hSplit => exact absurd (by rw [hSplit]; rfl) h
  · rfl

theorem deliverTo_received_le (p : Parcel (Origin κ)) (a : App ι ω κ) (d : Delivery) :
    a.received.length ≤ (a.deliverTo p d).received.length := by
  rw [deliverTo]
  split
  · cases d with
    | actor name | worker name => simp
    | conn name =>
      simp only [notify]
      split <;> simp
  · exact le_rfl

theorem deliverTo_received_lt {p : Parcel (Origin κ)} {a : App ι ω κ} {d : Delivery}
    (h : a.finds d = true) : a.received.length < (a.deliverTo p d).received.length := by
  rw [deliverTo, if_pos h]
  cases d with
  | actor name | worker name => simp
  | conn name =>
    simp only [notify]
    split <;> simp

theorem deliverAll_received_le (p : Parcel (Origin κ)) (ds : List Delivery) (a : App ι ω κ) :
    a.received.length ≤ (ds.foldl (deliverTo p) a).received.length := by
  induction ds generalizing a with
  | nil => exact le_rfl
  | cons d ds ih => exact (deliverTo_received_le p a d).trans (ih _)

theorem deliverAll_quiet {p : Parcel (Origin κ)} {ds : List Delivery} {a : App ι ω κ}
    (h : ds.any a.finds = false) : ds.foldl (deliverTo p) a = a := by
  induction ds with
  | nil => rfl
  | cons d ds ih =>
    rw [List.any_cons, Bool.or_eq_false_iff] at h
    rw [List.foldl_cons, deliverTo, if_neg (by rw [h.1]; exact Bool.false_ne_true), ih h.2]

theorem deliverAll_received_lt {p : Parcel (Origin κ)} {ds : List Delivery} {a : App ι ω κ}
    (h : ds.any a.finds = true) : a.received.length < (ds.foldl (deliverTo p) a).received.length := by
  induction ds with
  | nil => cases h
  | cons d ds ih =>
    rw [List.foldl_cons]
    cases hFinds : a.finds d with
    | true => exact (deliverTo_received_lt hFinds).trans_le (deliverAll_received_le p ds _)
    | false =>
      rw [deliverTo, if_neg (by rw [hFinds]; exact Bool.false_ne_true)]
      rw [List.any_cons, hFinds, Bool.false_or] at h
      exact ih h

theorem call_received_le (p : Parcel (Origin κ)) (a : App ι ω κ) (c : String × TransMode) :
    a.received.length ≤ (a.call p c).received.length :=
  deliverAll_received_le p _ { a with nameList := splitMsgName (dstAddr p c.1) }

theorem calls_received_le (p : Parcel (Origin κ)) (cs : List (String × TransMode)) (a : App ι ω κ) :
    a.received.length ≤ (cs.foldl (call p) a).received.length := by
  induction cs generalizing a with
  | nil => exact le_rfl
  | cons c cs ih => exact (call_received_le p a c).trans (ih _)

def rename (p : Parcel (Origin κ)) (a : App ι ω κ) (c : String × TransMode) : App ι ω κ :=
  { a with nameList := splitMsgName (dstAddr p c.1) }

/-- Calls put nothing into a mailbox just when none of them comes to one. -/
theorem calls_received_iff (p : Parcel (Origin κ)) (cs : List (String × TransMode)) (a : App ι ω κ) :
    (cs.foldl (call p) a).received.length = a.received.length ↔
      ∀ c ∈ cs, (a.rename p c).reaches (dstAddr p c.1) c.2 = false := by
  induction cs generalizing a with
  | nil => simp
  | cons c cs ih =>
    rw [List.foldl_cons, List.forall_mem_cons]
    cases hReach : (a.rename p c).reaches (dstAddr p c.1) c.2 with
    | true =>
      refine iff_of_false (fun hSame => ?_) fun h => Bool.noConfusion h.1
      have hLt : a.received.length < (a.call p c).received.length :=
        deliverAll_received_lt (a := a.rename p c) hReach
      exact absurd hSame (hLt.trans_le (calls_received_le p cs _)).ne'
    | false =>
      have hCall : a.call p c = a.rename p c := deliverAll_quiet (a := a.rename p c) hReach
      rw [hCall, and_iff_right rfl]
      exact ih (a.rename p c)

theorem calls_quiet {p : Parcel (Origin κ)} {cs : List (String × TransMode)} {a : App ι ω κ}
    (h : ∀ c ∈ cs, (a.rename p c).reaches (dstAddr p c.1) c.2 = false) :
    cs.foldl (call p) a = cs.foldl (rename p) a := by
  induction cs generalizing a with
  | nil => rfl
  | cons c cs ih =>
    rw [List.forall_mem_cons] at h
    have hCall : a.call p c = a.rename p c := deliverAll_quiet (a := a.rename p c) h.1
    rw [List.foldl_cons, List.foldl_cons, hCall]
    exact ih h.2

omit [DecidableEq ι] [DecidableEq ω] in
theorem renames_received (p : Parcel (Origin κ)) (cs : List (String × TransMode)) (a : App ι ω κ) :
    (cs.foldl (rename p) a).received = a.received := by
  induction cs generalizing a with
  | nil => rfl
  | cons c cs ih => exact ih (a.rename p c)

end App

namespace Process

variable {α ι ω κ : Type} [DecidableEq α] [DecidableEq ι] [DecidableEq ω]

theorem call_own {s : Process α ι ω κ} {x : α} (hFirst : s.first.getD x = x) (p : Parcel (Origin κ))
    (c : String × TransMode) :
    (s.call x p c).apps = Function.update s.apps x ((s.apps x).call p c) ∧
      (s.call x p c).first.getD x = x := by
  rw [call]
  simp only
  split
  · next hLength => simp [modify, hFirst, App.call]
  · next hLength =>
    refine ⟨?_, hFirst⟩
    rw [App.call]
    simp only [App.deliveries_of_length hLength, List.foldl_nil, modify]

theorem calls_own {x : α} (p : Parcel (Origin κ)) (cs : List (String × TransMode)) {s : Process α ι ω κ}
    (hFirst : s.first.getD x = x) :
    (cs.foldl (fun s c => s.call x p c) s).apps =
        Function.update s.apps x (cs.foldl (App.call p) (s.apps x)) ∧
      (cs.foldl (fun s c => s.call x p c) s).first.getD x = x := by
  induction cs generalizing s with
  | nil => exact ⟨(Function.update_eq_self x s.apps).symm, hFirst⟩
  | cons c cs ih =>
    obtain ⟨hApps, hFirst'⟩ := call_own hFirst p c
    obtain ⟨hRest, hStill⟩ := ih hFirst'
    refine ⟨?_, hStill⟩
    rw [List.foldl_cons, hRest, hApps, Function.update_self, Function.update_idem, List.foldl_cons]

theorem dispatchMsg_own (w : SetWalk) {s : Process α ι ω κ} {x : α} (hFirst : s.first.getD x = x)
    (p : Parcel (Origin κ)) :
    (s.dispatchMsg w x p).apps = Function.update s.apps x ((s.apps x).dispatchMsg w p) ∧
      (s.dispatchMsg w x p).first.getD x = x := by
  obtain ⟨hApps, hFirst'⟩ := calls_own (s := s.modify x fun a => { a with subs := (a.subs.outcome w p.msg).1 })
    p ((s.apps x).calls w p.msg) hFirst
  refine ⟨?_, hFirst'⟩
  rw [dispatchMsg, hApps]
  simp only [modify, Function.update_self, Function.update_idem]
  rfl

theorem call_foreign {s : Process α ι ω κ} {x f : α} (hFirst : s.first = some f) (hNe : x ≠ f)
    (p : Parcel (Origin κ)) (c : String × TransMode) :
    (s.call x p c).first = some f ∧ (s.call x p c).apps x = (s.apps x).rename p c ∧
      (s.call x p c).apps f =
        ((s.apps f).deliveries (dstAddr p c.1) c.2).foldl (App.deliverTo p) (s.apps f) ∧
      ∀ y, y ≠ x → y ≠ f → (s.call x p c).apps y = s.apps y := by
  rw [call]
  simp only
  split
  · next hLength =>
    simp only [modify, hFirst, Option.getD_some, Function.update_of_ne hNe, Function.update_of_ne hNe.symm,
      Function.update_self]
    refine ⟨trivial, rfl, trivial, fun y hx hf => ?_⟩
    rw [Function.update_of_ne hf, Function.update_of_ne hx]
  · next hLength =>
    rw [App.deliveries_of_length hLength]
    refine ⟨hFirst, Function.update_self .., Function.update_of_ne hNe.symm .., fun y hx _ => ?_⟩
    exact Function.update_of_ne hx ..

theorem calls_foreign {x f : α} (hNe : x ≠ f) (p : Parcel (Origin κ)) (cs : List (String × TransMode))
    {s : Process α ι ω κ} (hFirst : s.first = some f) :
    let t := cs.foldl (fun s c => s.call x p c) s
    t.first = some f ∧ t.apps x = cs.foldl (App.rename p) (s.apps x) ∧
      (∀ y, y ≠ x → y ≠ f → t.apps y = s.apps y) ∧
      (s.apps f).received.length ≤ (t.apps f).received.length ∧
      ((t.apps f).received.length = (s.apps f).received.length ↔
        ∀ c ∈ cs, (s.apps f).reaches (dstAddr p c.1) c.2 = false) ∧
      ((∀ c ∈ cs, (s.apps f).reaches (dstAddr p c.1) c.2 = false) → t.apps f = s.apps f) := by
  induction cs generalizing s with
  | nil => simp [hFirst]
  | cons c cs ih =>
    obtain ⟨hFirst', hX, hF, hOthers⟩ := call_foreign hFirst hNe p c
    obtain ⟨hStill, hX', hOthers', hLe, hIff, hSame⟩ := ih hFirst'
    have hLeCall := App.deliverAll_received_le p ((s.apps f).deliveries (dstAddr p c.1) c.2) (s.apps f)
    rw [← hF] at hLeCall
    refine ⟨hStill, ?_, fun y hx hf => ?_, hLeCall.trans hLe, ?_, fun hQuiet => ?_⟩
    · rw [List.foldl_cons, hX', hX, List.foldl_cons]
    · rw [List.foldl_cons, hOthers' y hx hf, hOthers y hx hf]
    · rw [List.forall_mem_cons]
      cases hReach : (s.apps f).reaches (dstAddr p c.1) c.2 with
      | true =>
        refine iff_of_false (fun hLength => ?_) fun h => Bool.noConfusion h.1
        have hLt := App.deliverAll_received_lt (p := p) hReach
        rw [← hF] at hLt
        exact absurd hLength (hLt.trans_le hLe).ne'
      | false =>
        have hKept : (s.call x p c).apps f = s.apps f := hF.trans (App.deliverAll_quiet hReach)
        rw [and_iff_right rfl, ← hKept]
        exact hIff
    · rw [List.forall_mem_cons] at hQuiet
      have hKept : (s.call x p c).apps f = s.apps f := hF.trans (App.deliverAll_quiet hQuiet.1)
      rw [hKept] at hSame
      exact hSame hQuiet.2

/-- A dispatch does to all applications what it would do were each the only one just when it meets
`Own`. -/
theorem dispatchMsg_iff (w : SetWalk) (s : Process α ι ω κ) (x : α) (p : Parcel (Origin κ)) :
    (s.dispatchMsg w x p).apps = Function.update s.apps x ((s.apps x).dispatchMsg w p) ↔
      s.Own w (x, p) := by
  by_cases hFirst : s.first.getD x = x
  · exact iff_of_true (dispatchMsg_own w hFirst p).1 (.inl hFirst)
  · obtain ⟨f, hSome⟩ : ∃ f, s.first = some f := by
      refine Option.ne_none_iff_exists'.mp fun hNone => hFirst ?_
      rw [hNone, Option.getD_none]
    have hNe : x ≠ f := by
      rintro rfl
      exact hFirst (by rw [hSome, Option.getD_some])
    have hF : (s.modify x fun a => { a with subs := (a.subs.outcome w p.msg).1 }).apps f = s.apps f :=
      Function.update_of_ne hNe.symm ..
    have hX : (s.modify x fun a => { a with subs := (a.subs.outcome w p.msg).1 }).apps x =
        { s.apps x with subs := ((s.apps x).subs.outcome w p.msg).1 } := Function.update_self ..
    obtain ⟨-, hX', hOthers, -, hIff, hSame⟩ := calls_foreign hNe p ((s.apps x).calls w p.msg)
      (s := s.modify x fun a => { a with subs := (a.subs.outcome w p.msg).1 }) hSome
    rw [hX] at hX'
    rw [hF] at hIff hSame
    rw [Own, or_iff_right hFirst, hSome, Option.getD_some]
    constructor
    · intro hApps
      have hSolo : ((s.apps x).dispatchMsg w p).received.length = (s.apps x).received.length := by
        have hAt := congrFun hApps x
        rw [Function.update_self] at hAt
        rw [← hAt]
        exact congrArg List.length ((congrArg App.received hX').trans (App.renames_received ..))
      have hKept : ((s.dispatchMsg w x p).apps f).received.length = (s.apps f).received.length := by
        rw [hApps, Function.update_of_ne hNe.symm]
      have hQuietX := (App.calls_received_iff p _ _).mp hSolo
      have hQuietF := hIff.mp hKept
      exact fun c hc => ⟨hQuietX c hc, hQuietF c hc⟩
    · intro hQuiet
      funext y
      obtain rfl | hNe := eq_or_ne y x
      · rw [Function.update_self]
        have hSolo := App.calls_quiet (a := { s.apps y with subs := ((s.apps y).subs.outcome w p.msg).1 })
          fun c hc => (hQuiet c hc).1
        exact hX'.trans hSolo.symm
      · rw [Function.update_of_ne hNe]
        obtain rfl | hyf := eq_or_ne y f
        · exact hSame fun c hc => (hQuiet c hc).2
        · exact (hOthers y hNe hyf).trans (Function.update_of_ne hNe ..)

theorem alone_exec (w : SetWalk) (ls : List (Unit × Parcel (Origin κ))) (s : Process Unit ι ω κ) :
    ((system w).exec s ls).apps () = ls.foldl (fun a l => a.dispatchMsg w l.2) (s.apps ()) := by
  induction ls generalizing s with
  | nil => rfl
  | cons l ls ih =>
    have hNext : (s.dispatchMsg w l.1 l.2).apps () = (s.apps ()).dispatchMsg w l.2 := by
      rw [(dispatchMsg_own w rfl l.2).1]
      exact Function.update_self ..
    rw [Transition.System.exec_cons, ih, List.foldl_cons]
    exact congrArg (fun a => ls.foldl (fun a l => a.dispatchMsg w l.2) a) hNext

/-- Each application is, all along the run, as it would be had it been the only one and had seen its
own dispatches only. -/
def Isolated (w : SetWalk) (s : Process α ι ω κ) (ls : List (α × Parcel (Origin κ))) : Prop :=
  ∀ pre, pre <+: ls → ∀ x,
    ((system w).exec s pre).apps x = ((system w).exec (alone (s.apps x)) (own x pre)).apps ()

theorem own_cons_self (x : α) (p : Parcel (Origin κ)) (ls : List (α × Parcel (Origin κ))) :
    own x ((x, p) :: ls) = ((), p) :: own x ls := by
  simp [own]

theorem own_cons_ne {x y : α} (h : y ≠ x) (p : Parcel (Origin κ)) (ls : List (α × Parcel (Origin κ))) :
    own x ((y, p) :: ls) = own x ls := by
  simp [own, h]

theorem isolated_cons_iff (w : SetWalk) (s : Process α ι ω κ) (x : α) (p : Parcel (Origin κ))
    (ls : List (α × Parcel (Origin κ))) : Isolated w s ((x, p) :: ls) ↔
      (s.dispatchMsg w x p).apps = Function.update s.apps x ((s.apps x).dispatchMsg w p) ∧
        Isolated w (s.dispatchMsg w x p) ls := by
  have hOwn : ∀ (pre : List (α × Parcel (Origin κ))) (y : α),
      ((system w).exec (alone (s.apps y)) (own y ((x, p) :: pre))).apps () =
        ((system w).exec (alone (Function.update s.apps x ((s.apps x).dispatchMsg w p) y)) (own y pre)).apps
          () := by
    intro pre y
    rw [alone_exec, alone_exec]
    obtain rfl | hNe := eq_or_ne y x
    · rw [own_cons_self, List.foldl_cons, Function.update_self]
      rfl
    · rw [own_cons_ne (Ne.symm hNe), Function.update_of_ne hNe]
  constructor
  · intro hIso
    have hNext : (s.dispatchMsg w x p).apps = Function.update s.apps x ((s.apps x).dispatchMsg w p) := by
      funext y
      have hAt := hIso [(x, p)] (List.prefix_append [(x, p)] ls) y
      rw [hOwn] at hAt
      exact hAt
    refine ⟨hNext, fun pre hPre y => ?_⟩
    have hAt := hIso ((x, p) :: pre) (List.cons_prefix_cons.mpr ⟨rfl, hPre⟩) y
    rw [hOwn, ← hNext] at hAt
    exact hAt
  · rintro ⟨hNext, hIso⟩ pre hPre y
    cases pre with
    | nil => rfl
    | cons l pre =>
      obtain ⟨rfl, hRest⟩ := List.cons_prefix_cons.mp hPre
      rw [hOwn, ← hNext]
      exact hIso pre hRest y

def twoApps : Process Bool Unit Unit Unit where
  apps _ :=
    { actorCtxMgr :=
        { heap := fun _ => { mailbox := { addr := "actor.a.1" } }
          ctxs := fun name => if name = "actor.a.1" then some () else none }
      workerCtxMgr := { heap := fun _ => { name := "" }, names := fun _ => none } }

def toActor : Parcel (Origin Unit) := ⟨.other, { dst := "actor.a.1" }⟩

end Process
end Myframe
