import Myframe.Library.Repeats
import Myframe.App.Addressable

/-! # The order of what actors post in `Init`

Before `Exec` a message goes out at once, or when its destination is added, or with the rest of the cache.
Followed here are the messages of one call of `AddActor` to one actor.
-/
namespace Myframe
set_option autoImplicit false
open Common

/-- An actor whose messages have no marks yet. -/
structure Poster where
  typeName : String
  instName : String
  init : Json → ℤ × List Msg

/-- The actor of the call number `k`; the mark of a message is its call and its place. -/
def Poster.actor (a : Poster) (k : ℕ) : Actor (ℕ × ℕ) where
  typeName := a.typeName
  instName := a.instName
  init cfg := ((a.init cfg).1, (a.init cfg).2.mapIdx fun j m => { mark := .call (k, j), msg := m })

inductive Adding where
  | actor (a : Poster) (cfg : Json)
  | worker (v : Worker) (g : Grant)

/-- An ordinary message to this destination that stays in the process. -/
def Relevant (dst : String) (m : Msg) : Prop :=
  m.dst = dst ∧ m.Ordinary ∧ (m.transMode = .kIntra ∨ m.transMode = .kHybrid)

instance (dst : String) (m : Msg) : Decidable (Relevant dst m) := inferInstanceAs (Decidable (_ ∧ _ ∧ _))

/-- Which of the messages of the call `k` to this destination it is, if it is one of them. -/
def ordinal (k : ℕ) (dst : String) (p : Parcel (Origin (ℕ × ℕ))) : Option ℕ :=
  match p.mark with
  | .call (k', j) => if k' = k ∧ Relevant dst p.msg then some j else none
  | _ => none

namespace Application

variable (w : SetWalk)

def add (k : ℕ) (s : Application (ℕ × ℕ)) : Adding → Application (ℕ × ℕ)
  | .actor a cfg => (s.addActor w (a.actor k) cfg).1
  | .worker v g => (s.addWorker v g).1

/-- The calls one after the other, the first of them with the number `k`. -/
def addAll : ℕ → List Adding → Application (ℕ × ℕ) → Application (ℕ × ℕ)
  | _, [], s => s
  | k, c :: cs, s => addAll (k + 1) cs (s.add w k c)

/-- The places of the messages of the call `k` that `dst` has been given, as they came. -/
def arrivals (k : ℕ) (dst : String) (s : Application (ℕ × ℕ)) : List ℕ :=
  s.received.filterMap fun e => if e.1 = .actor dst then ordinal k dst e.2 else none

def cached (k : ℕ) (dst : String) (s : Application (ℕ × ℕ)) : List ℕ := s.cacheMsgs.filterMap (ordinal k dst)

def Reached (s : Application (ℕ × ℕ)) (dst : String) : Prop :=
  (s.actorCtxMgr.ctxs dst).isSome = true ∧ (splitMsgName dst).length = 3

end Application

namespace App

variable {ι ω κ : Type} [DecidableEq ι] [DecidableEq ω]

theorem deliverTo_received (p : Parcel (Origin κ)) (a : App ι ω κ) (d : Delivery) :
    (a.deliverTo p d).received = a.received ++ if a.finds d = true then [(d, p)] else [] := by
  rw [deliverTo]
  split
  · cases d with
    | actor name | worker name => rfl
    | conn name =>
      simp only [notify]
      split <;> rfl
  · rw [List.append_nil]

/-- What deliveries put into mailboxes: of those to actors just the ones to a registered actor. -/
theorem deliverAll_received (p : Parcel (Origin κ)) (ds : List Delivery) (a : App ι ω κ) :
    ∃ es : List Delivery, (ds.foldl (deliverTo p) a).received = a.received ++ es.map (fun d => (d, p)) ∧
      ∀ name, .actor name ∈ es ↔ .actor name ∈ ds ∧ (a.actorCtxMgr.ctxs name).isSome = true := by
  induction ds generalizing a with
  | nil => exact ⟨[], (List.append_nil _).symm, by simp⟩
  | cons d ds ih =>
    obtain ⟨es, hEq, hActors⟩ := ih (a.deliverTo p d)
    have hCtxs : (a.deliverTo p d).actorCtxMgr.ctxs = a.actorCtxMgr.ctxs :=
      deliverTo_actors (Q := fun m => m.ctxs = a.actorCtxMgr.ctxs)
        (fun m name hm => (m.dispatchMsg_ctxs name p).trans hm) rfl d
    rw [hCtxs] at hActors
    rw [List.foldl_cons, hEq, deliverTo_received]
    cases hFinds : a.finds d with
    | true =>
      refine ⟨d :: es, by simp, fun name => ?_⟩
      rw [List.mem_cons, List.mem_cons, hActors, or_and_right, or_congr_left]
      refine ⟨fun hIs => ⟨hIs, ?_⟩, And.left⟩
      rw [← hIs] at hFinds
      exact hFinds
    | false =>
      refine ⟨es, by simp, fun name => ?_⟩
      rw [List.mem_cons, hActors, or_and_right, or_iff_right]
      rintro ⟨hIs, hSome⟩
      rw [← hIs] at hFinds
      exact Bool.false_ne_true (hFinds.symm.trans hSome)

end App

namespace Application

variable (w : SetWalk)

theorem dispatchMsg_received (s : Application (ℕ × ℕ)) (p : Parcel (Origin (ℕ × ℕ))) :
    ∃ es : List Delivery, (s.dispatchMsg w p).received = s.received ++ es.map fun d => (d, p) := by
  refine App.dispatchMsg_inv (p := p)
    (P := fun b => ∃ es : List Delivery, b.received = s.received ++ es.map fun d => (d, p))
    ?_ (fun _ _ h => h) (fun _ _ h => h) w ⟨[], (List.append_nil _).symm⟩
  rintro b d ⟨es, hEq⟩
  rw [App.deliverTo_received, hEq]
  split
  · exact ⟨es ++ [d], by simp⟩
  · exact ⟨es, List.append_nil _⟩

/-- An ordinary message for an actor comes to it if it can be reached, and to the node besides. -/
theorem dispatchMsg_reaches (s : Application (ℕ × ℕ)) {cls inst : String} {p : Parcel (Origin (ℕ × ℕ))}
    (h : Relevant (address "actor" cls inst) p.msg) :
    ∃ es : List Delivery, (s.dispatchMsg w p).received = s.received ++ es.map (fun d => (d, p)) ∧
      (.actor (address "actor" cls inst) ∈ es ↔ s.Reached (address "actor" cls inst)) := by
  obtain ⟨hDst, hOrdinary, hMode⟩ := h
  have hCalls : s.toApp.calls w p.msg = [(p.msg.dst, p.msg.transMode)] := by
    simp only [App.calls, if_neg hOrdinary.1, if_neg hOrdinary.2]
  have hAddr : dstAddr p p.msg.dst = p.msg.dst := ite_self _
  obtain ⟨es, hEq, hActors⟩ := App.deliverAll_received p
    (({ s.toApp with
        subs := (s.subs.outcome w p.msg).1
        nameList := splitMsgName p.msg.dst } : App ℕ ℕ (ℕ × ℕ)).deliveries p.msg.dst p.msg.transMode)
    { s.toApp with subs := (s.subs.outcome w p.msg).1, nameList := splitMsgName p.msg.dst }
  refine ⟨es, ?_, ?_⟩
  · rw [dispatchMsg, App.dispatchMsg, hCalls, List.foldl_cons, List.foldl_nil, App.call, hAddr]
    exact hEq
  · rw [hActors, Reached, and_comm (a := Option.isSome _ = true)]
    refine and_congr_left fun hSome => ?_
    rw [hDst]
    by_cases hLength : (splitMsgName (address "actor" cls inst)).length = 3
    · refine iff_of_true ?_ hLength
      obtain ⟨hCls, hInst⟩ := (splitMsgName_address_length (by decide)).mp hLength
      have hSome' : (s.actorCtxMgr.ctxs (address "actor" cls inst)).isSome = true := hSome
      simp only [App.deliveries, splitMsgName_address (by decide : DotFree "actor") hCls hInst, if_true]
      rw [App.transMap_eq]
      refine List.mem_append_left _ ?_
      rw [if_neg (by obtain hIs | hIs := hMode <;> rw [hIs] <;> rintro ⟨⟩), Directory.trans2actor]
      rw [if_pos (by exact hSome')]
      exact List.mem_singleton.mpr rfl
    · refine iff_of_false ?_ hLength
      rw [App.deliveries_of_length hLength]
      exact List.not_mem_nil

theorem relevant_of_ordinal {k j : ℕ} {dst : String} {p : Parcel (Origin (ℕ × ℕ))}
    (h : ordinal k dst p = some j) : Relevant dst p.msg := by
  rw [ordinal] at h
  split at h
  · split at h
    · next hBoth => exact hBoth.2
    · cases h
  · cases h

theorem arrivals_append {s t : Application (ℕ × ℕ)} {p : Parcel (Origin (ℕ × ℕ))} {es : List Delivery}
    (h : t.received = s.received ++ es.map fun d => (d, p)) (k : ℕ) (dst : String) :
    t.arrivals k dst = s.arrivals k dst ++
      match ordinal k dst p with
      | none => []
      | some j => List.replicate (es.count (.actor dst)) j := by
  rw [arrivals, arrivals, h, List.filterMap_append, List.filterMap_map]
  refine congrArg _ ?_
  clear h
  induction es with
  | nil => cases ordinal k dst p <;> rfl
  | cons d es ih =>
    rw [List.filterMap_cons, ih, List.count_cons]
    obtain rfl | hNe := eq_or_ne d (.actor dst)
    · cases hOrdinal : ordinal k dst p <;> simp [hOrdinal, List.replicate_succ]
    · cases hOrdinal : ordinal k dst p <;> simp [hNe]

theorem arrivals_dispatchList (k : ℕ) (cls inst : String) (ps : List (Parcel (Origin (ℕ × ℕ))))
    (s : Application (ℕ × ℕ)) :
    ∃ r, (dispatchList w ps s).arrivals k (address "actor" cls inst) =
        s.arrivals k (address "actor" cls inst) ++ r ∧
      (s.Reached (address "actor" cls inst) →
        Repeats (ps.filterMap (ordinal k (address "actor" cls inst))) r) ∧
      (¬ s.Reached (address "actor" cls inst) → r = []) := by
  induction ps generalizing s with
  | nil => exact ⟨[], (List.append_nil _).symm, fun _ => .nil, fun _ => rfl⟩
  | cons p ps ih =>
    obtain ⟨r, hEq, hReached, hNot⟩ := ih (s.dispatchMsg w p)
    have hSame : (s.dispatchMsg w p).Reached (address "actor" cls inst) ↔ s.Reached (address "actor" cls inst) := by
      rw [Reached, Reached, (show (s.dispatchMsg w p).actorCtxMgr.ctxs = _ from (s.toApp.dispatchMsg_frame w p).1)]
    rw [hSame] at hReached hNot
    rw [dispatchList, List.foldl_cons]
    rw [dispatchList] at hEq
    rw [hEq, List.filterMap_cons]
    cases hOrdinal : ordinal k (address "actor" cls inst) p with
    | none =>
      obtain ⟨es, hReceived⟩ := s.dispatchMsg_received w p
      have hArrivals := arrivals_append hReceived k (address "actor" cls inst)
      rw [hOrdinal, List.append_nil] at hArrivals
      rw [hArrivals]
      exact ⟨r, rfl, hReached, hNot⟩
    | some j =>
      obtain ⟨es, hReceived, hMem⟩ := s.dispatchMsg_reaches w (relevant_of_ordinal hOrdinal)
      have hArrivals := arrivals_append hReceived k (address "actor" cls inst)
      rw [hOrdinal] at hArrivals
      refine ⟨List.replicate (es.count (.actor (address "actor" cls inst))) j ++ r, ?_, fun hReach => ?_,
        fun hNo => ?_⟩
      · rw [hArrivals, List.append_assoc]
      · obtain ⟨n, hCount⟩ := Nat.exists_eq_add_one.mpr (List.count_pos_iff.mpr (hMem.mpr hReach))
        rw [hCount]
        exact .cons j n (hReached hReach)
      · rw [hNot hNo, List.count_eq_zero.mpr fun hIn => hNo (hMem.mp hIn)]
        rfl

/-- The destination has been given these, in this order; nothing, as long as it is not registered. -/
structure Given (k : ℕ) (dst : String) (d : List ℕ) (s : Application (ℕ × ℕ)) : Prop where
  arrived : (splitMsgName dst).length = 3 → Repeats d (s.arrivals k dst)
  lost : (splitMsgName dst).length ≠ 3 → s.arrivals k dst = []
  unknown : s.actorCtxMgr.ctxs dst = none → d = []

/-- What the destination has been given and what is cached for it make up this list. -/
def Line (k : ℕ) (dst : String) (l : List ℕ) (s : Application (ℕ × ℕ)) : Prop :=
  ∃ d, s.Given k dst d ∧ d ++ s.cached k dst = l

theorem Given.of_eq {k : ℕ} {dst : String} {d : List ℕ} {s t : Application (ℕ × ℕ)} (h : s.Given k dst d)
    (hReceived : t.received = s.received)
    (hCtxs : t.actorCtxMgr.ctxs dst = none → s.actorCtxMgr.ctxs dst = none) : t.Given k dst d where
  arrived hLength := by
    rw [arrivals, hReceived]
    exact h.arrived hLength
  lost hLength := by
    rw [arrivals, hReceived]
    exact h.lost hLength
  unknown hNone := h.unknown (hCtxs hNone)

theorem Given.dispatchList {k : ℕ} {cls inst : String} {d : List ℕ} {s : Application (ℕ × ℕ)}
    (h : s.Given k (address "actor" cls inst) d) (ps : List (Parcel (Origin (ℕ × ℕ))))
    (hKnown : s.actorCtxMgr.ctxs (address "actor" cls inst) = none →
      ps.filterMap (ordinal k (address "actor" cls inst)) = []) :
    (Application.dispatchList w ps s).Given k (address "actor" cls inst)
      (d ++ ps.filterMap (ordinal k (address "actor" cls inst))) := by
  obtain ⟨r, hArrivals, hReached, hNot⟩ := arrivals_dispatchList w k cls inst ps s
  obtain ⟨app, hEq, hCtxs, -⟩ := dispatchList_frame w ps s
  constructor
  · intro hLength
    rw [hArrivals]
    cases hName : s.actorCtxMgr.ctxs (address "actor" cls inst) with
    | none =>
      have hNotReached : ¬ s.Reached (address "actor" cls inst) := by
        rintro ⟨hSome, -⟩
        rw [hName] at hSome
        cases hSome
      rw [hKnown hName, hNot hNotReached, List.append_nil, List.append_nil]
      exact h.arrived hLength
    | some i => exact (h.arrived hLength).append (hReached ⟨by rw [hName]; rfl, hLength⟩)
  · intro hLength
    rw [hArrivals, h.lost hLength, hNot fun hReach => hLength hReach.2, List.append_nil]
  · intro hNone
    rw [hEq] at hNone
    have hNone' : s.actorCtxMgr.ctxs (address "actor" cls inst) = none := by
      rw [← hCtxs]
      exact hNone
    rw [h.unknown hNone', hKnown hNone', List.append_nil]

theorem filterMap_filter_of_nil {α β : Type} {f : α → Option β} {l : List α} (h : l.filterMap f = [])
    (c : α → Bool) : (l.filter c).filterMap f = [] := by
  rw [List.filterMap_eq_nil_iff] at h ⊢
  exact fun x hx => h x (List.mem_filter.mp hx).1

theorem filterMap_ordinal_filter {k : ℕ} {dst : String} {c : Parcel (Origin (ℕ × ℕ)) → Bool}
    (ps : List (Parcel (Origin (ℕ × ℕ)))) :
    (∀ p, Relevant dst p.msg → c p = true) →
      (ps.filter c).filterMap (ordinal k dst) = ps.filterMap (ordinal k dst) := by
  intro hAll
  rw [List.filterMap_filter]
  refine List.filterMap_congr fun p _ => ?_
  cases hOrdinal : ordinal k dst p with
  | none => exact ite_self _
  | some j => rw [if_pos (hAll p (relevant_of_ordinal hOrdinal))]

theorem filterMap_ordinal_none {k : ℕ} {dst : String} {c : Parcel (Origin (ℕ × ℕ)) → Bool}
    (ps : List (Parcel (Origin (ℕ × ℕ)))) :
    (∀ p, Relevant dst p.msg → c p = false) → (ps.filter c).filterMap (ordinal k dst) = [] := by
  intro hNone
  rw [List.filterMap_filter, List.filterMap_eq_nil_iff]
  intro p _
  cases hOrdinal : ordinal k dst p with
  | none => exact ite_self _
  | some j => rw [if_neg (by rw [hNone p (relevant_of_ordinal hOrdinal)]; exact Bool.false_ne_true)]

/-- The cache gives a new actor what it holds for it, and keeps the rest. -/
theorem Line.recvCached {k : ℕ} {cls inst name : String} {l : List ℕ} {s : Application (ℕ × ℕ)}
    (h : s.Line k (address "actor" cls inst) l) (hName : (s.actorCtxMgr.ctxs name).isSome = true) :
    (Application.recvCached w name s).Line k (address "actor" cls inst) l := by
  obtain ⟨d, hGiven, hLine⟩ := h
  have hCached : (Application.recvCached w name s).cached k (address "actor" cls inst) =
      (s.cacheMsgs.filter (·.msg.dst ≠ name)).filterMap (ordinal k (address "actor" cls inst)) := by
    obtain ⟨app, hEq, -⟩ := dispatchList_frame w (s.cacheMsgs.filter (·.msg.dst = name))
      { s with cacheMsgs := s.cacheMsgs.filter (·.msg.dst ≠ name) }
    rw [Application.recvCached, hEq]
    rfl
  have hStart : ({ s with cacheMsgs := s.cacheMsgs.filter (·.msg.dst ≠ name) } : Application (ℕ × ℕ)).Given k
      (address "actor" cls inst) d := hGiven.of_eq rfl id
  obtain rfl | hOther := eq_or_ne name (address "actor" cls inst)
  · have hSent : (s.cacheMsgs.filter (·.msg.dst = address "actor" cls inst)).filterMap
        (ordinal k (address "actor" cls inst)) = s.cached k (address "actor" cls inst) :=
      filterMap_ordinal_filter _ fun p hRel => decide_eq_true hRel.1
    have hLeft : (s.cacheMsgs.filter (·.msg.dst ≠ address "actor" cls inst)).filterMap
        (ordinal k (address "actor" cls inst)) = [] :=
      filterMap_ordinal_none _ fun p hRel => decide_eq_false (not_not.mpr hRel.1)
    refine ⟨d ++ s.cached k (address "actor" cls inst), ?_, ?_⟩
    · rw [← hSent]
      refine hStart.dispatchList w _ fun hNone => ?_
      rw [show s.actorCtxMgr.ctxs _ = none from hNone] at hName
      cases hName
    · rw [hCached, hLeft, List.append_nil]
      exact hLine
  · have hSent : (s.cacheMsgs.filter (·.msg.dst = name)).filterMap (ordinal k (address "actor" cls inst)) = [] :=
      filterMap_ordinal_none _ fun p hRel => decide_eq_false fun hIs => hOther (hIs.symm.trans hRel.1)
    have hLeft : (s.cacheMsgs.filter (·.msg.dst ≠ name)).filterMap (ordinal k (address "actor" cls inst)) =
        s.cached k (address "actor" cls inst) :=
      filterMap_ordinal_filter _ fun p hRel => decide_eq_true fun hIs => hOther (hIs.symm.trans hRel.1)
    refine ⟨d, ?_, ?_⟩
    · have hAfter := hStart.dispatchList w (s.cacheMsgs.filter (·.msg.dst = name)) fun _ => hSent
      rw [hSent, List.append_nil] at hAfter
      exact hAfter
    · rw [hCached, hLeft]
      exact hLine

theorem dispatchList_sendOf (ps : List (Parcel (Origin (ℕ × ℕ)))) (s : Application (ℕ × ℕ)) (i : ℕ) :
    (dispatchList w ps s).sendOf i = s.sendOf i := by
  induction ps generalizing s with
  | nil => rfl
  | cons p ps ih =>
    rw [dispatchList, List.foldl_cons]
    refine (ih _).trans ?_
    refine App.dispatchMsg_actors (Q := fun m => (m.heap i).mailbox.send = s.sendOf i) (fun m name hm => ?_) w rfl
    rw [ActorContextManager.dispatchMsg_mailbox]
    split
    · rw [Mailbox.receive_send]
      exact hm
    · exact hm

theorem recvCached_frame (name : String) (s : Application (ℕ × ℕ)) :
    (recvCached w name s).actorCtxMgr.ctxs = s.actorCtxMgr.ctxs ∧ (recvCached w name s).state = s.state ∧
      ∀ i, (recvCached w name s).sendOf i = s.sendOf i := by
  obtain ⟨app, hEq, hCtxs, -⟩ := dispatchList_frame w (s.cacheMsgs.filter (·.msg.dst = name))
    { s with cacheMsgs := s.cacheMsgs.filter (·.msg.dst ≠ name) }
  refine ⟨?_, ?_, fun i => dispatchList_sendOf w _ _ i⟩
  · rw [recvCached, hEq]
    exact hCtxs
  · rw [recvCached, hEq]

theorem cacheSends_sendOf (i : ℕ) (s : Application (ℕ × ℕ)) :
    (cacheSends i s).sendOf i = (s.sendOf i).filter fun p => !s.caches p.msg := by
  rw [sendOf, cacheSends, setSend, mapActors]
  simp only [ActorContextManager.mapMailbox_heap, if_true]

/-- What an actor has posted goes out or waits behind what is cached. Nothing of the call is cached yet, or
nothing posted is of the call. -/
theorem Line.sendAll {k : ℕ} {cls inst : String} {l : List ℕ} {s : Application (ℕ × ℕ)}
    (h : s.Line k (address "actor" cls inst) l) (i : ℕ)
    (hOwn : s.cached k (address "actor" cls inst) = [] ∨
      (s.sendOf i).filterMap (ordinal k (address "actor" cls inst)) = [])
    (hKnown : s.actorCtxMgr.ctxs (address "actor" cls inst) = none →
      ((s.sendOf i).filter fun p => !s.caches p.msg).filterMap (ordinal k (address "actor" cls inst)) = []) :
    (Application.dispatchContext w i (cacheSends i s)).Line k (address "actor" cls inst)
      (l ++ (((s.sendOf i).filter fun p => !s.caches p.msg).filterMap (ordinal k (address "actor" cls inst)) ++
        ((s.sendOf i).filter fun p => s.caches p.msg).filterMap (ordinal k (address "actor" cls inst)))) := by
  obtain ⟨d, hGiven, rfl⟩ := h
  have hCached : (Application.dispatchContext w i (cacheSends i s)).cached k (address "actor" cls inst) =
      s.cached k (address "actor" cls inst) ++
        ((s.sendOf i).filter fun p => s.caches p.msg).filterMap (ordinal k (address "actor" cls inst)) := by
    obtain ⟨app, hEq, -⟩ := dispatchList_frame w ((cacheSends i s).sendOf i)
      ((cacheSends i s).mapActors fun m => m.setRuningFlag i false)
    rw [Application.dispatchContext, hEq]
    exact List.filterMap_append
  have hStart : ((cacheSends i s).mapActors fun m => m.setRuningFlag i false).Given k
      (address "actor" cls inst) d := hGiven.of_eq rfl id
  have hSent := hStart.dispatchList w ((cacheSends i s).sendOf i) (by
    rw [cacheSends_sendOf]
    exact hKnown)
  rw [cacheSends_sendOf] at hSent
  refine ⟨_, (hSent.of_eq (t := Application.dispatchContext w i (cacheSends i s)) ?_ ?_), ?_⟩
  · rw [Application.dispatchContext, cacheSends_sendOf]
    rfl
  · rw [Application.dispatchContext, cacheSends_sendOf]
    exact id
  · rw [hCached]
    obtain hNone | hNone := hOwn
    · rw [hNone, List.nil_append, List.append_nil, List.append_assoc]
    · rw [filterMap_filter_of_nil hNone, filterMap_filter_of_nil hNone, List.append_nil, List.append_nil,
        List.append_nil, List.append_nil]

/-- Whether the actor is registered once the new one is. -/
def Known (s : Application (ℕ × ℕ)) (a : Poster) (dst : String) : Prop :=
  (s.actorCtxMgr.ctxs dst).isSome = true ∨ dst = address "actor" a.typeName a.instName

theorem hasUserInst_actor (s : Application (ℕ × ℕ)) (cls inst : String) :
    s.hasUserInst (address "actor" cls inst) = (s.actorCtxMgr.ctxs (address "actor" cls inst)).isSome := by
  have hActor : (address "actor" cls inst).toList.take 5 = "actor".toList := by
    rw [address_toList]
    rfl
  have hWorker : (address "actor" cls inst).toList.take 6 ≠ "worker".toList := by
    rw [address_toList]
    simp
  rw [hasUserInst, if_neg hWorker, if_pos hActor]

/-- Before `Exec` only a kIntra message to a registered actor goes out at once. -/
theorem caches_eq {s : Application (ℕ × ℕ)} (hState : s.state = .kInitialized) {cls inst : String} {m : Msg}
    (h : Relevant (address "actor" cls inst) m) :
    s.caches m = (!(s.actorCtxMgr.ctxs (address "actor" cls inst)).isSome || decide (m.transMode = .kHybrid)) := by
  have hMode : decide (m.transMode = .kDDS) = false := by
    refine decide_eq_false fun hDds => ?_
    obtain hIs | hIs := h.2.2 <;> rw [hIs] at hDds <;> cases hDds
  rw [caches, hState, h.1, hasUserInst_actor, hMode, Bool.or_false]
  rfl

theorem ordinal_actor {k j : ℕ} (dst : String) (a : Poster) (cfg : Json) (hNe : j ≠ k) :
    ((a.actor j).init cfg).2.filterMap (ordinal k dst) = [] := by
  rw [List.filterMap_eq_nil_iff]
  intro p hp
  obtain ⟨x, hx, rfl⟩ := List.mem_mapIdx.mp hp
  rw [ordinal]
  exact if_neg fun hBoth => hNe hBoth.1

/-- The state in which `AddActor` looks at what the new actor has posted. -/
theorem addActor_line {k j : ℕ} {cls inst : String} {l : List ℕ} {s : Application (ℕ × ℕ)}
    (hState : s.state = .kInitialized) (h : s.Line k (address "actor" cls inst) l) {a : Poster} {cfg : Json}
    (hAccepts : s.Accepts (a.actor j) cfg) (hOwn : j ≠ k ∨ l = []) :
    ∃ u : Application (ℕ × ℕ), u.state = .kInitialized ∧
      ((u.actorCtxMgr.ctxs (address "actor" cls inst)).isSome = true ↔ s.Known a (address "actor" cls inst)) ∧
      (s.add w j (.actor a cfg)).Line k (address "actor" cls inst)
        (l ++ (((((a.actor j).init cfg).2.filter fun p => !u.caches p.msg).filterMap
            (ordinal k (address "actor" cls inst))) ++
          (((a.actor j).init cfg).2.filter fun p => u.caches p.msg).filterMap
            (ordinal k (address "actor" cls inst)))) := by
  obtain ⟨hAdmits, ctx, hRun⟩ := hAccepts
  have hSendOf : ((s.setNode a.typeName (a.actor j).getActorName).enter (a.actor j) cfg ctx).sendOf s.ctxCount =
      ((a.actor j).init cfg).2 := by
    rw [← (initContext_new hRun).2.2, enter, sendOf, ActorContextManager.add]
    split <;> simp [setNode]
  have hCtxs := enter_ctxs (s.setNode a.typeName (a.actor j).getActorName) (a.actor j) cfg ctx
  have hKnown : (((s.setNode a.typeName (a.actor j).getActorName).enter (a.actor j) cfg ctx).actorCtxMgr.ctxs
      (address "actor" cls inst)).isSome = true ↔ s.Known a (address "actor" cls inst) := by
    rw [hCtxs, Known]
    split
    · next hSome =>
      refine (or_iff_left_of_imp ?_).symm
      rintro hIs
      rw [hIs]
      exact hSome
    · rw [Function.update_apply]
      split
      · next hIs => exact iff_of_true rfl (.inr hIs)
      · next hNe => exact (or_iff_left hNe).symm
  have hNew : ((s.setNode a.typeName (a.actor j).getActorName).enter (a.actor j) cfg ctx).Line k
      (address "actor" cls inst) l := by
    obtain ⟨d, hGiven, hLine⟩ := h
    refine ⟨d, hGiven.of_eq rfl fun hNone => ?_, hLine⟩
    by_contra hSome
    have hIs := hKnown.mpr (.inl (Option.isSome_iff_ne_none.mpr hSome))
    rw [hNone] at hIs
    cases hIs
  have hName : (((s.setNode a.typeName (a.actor j).getActorName).enter (a.actor j) cfg ctx).actorCtxMgr.ctxs
      (a.actor j).getActorName).isSome = true := by
    rw [hCtxs]
    split
    · next hSome => exact hSome
    · rw [Function.update_self]
      rfl
  have hStateNew : ((s.setNode a.typeName (a.actor j).getActorName).enter (a.actor j) cfg ctx).state =
      .kInitialized := hState
  have hCall : s.add w j (.actor a cfg) = dispatchContext w s.ctxCount (cacheSends s.ctxCount
      (recvCached w (a.actor j).getActorName
        ((s.setNode a.typeName (a.actor j).getActorName).enter (a.actor j) cfg ctx))) :=
    congrArg Prod.fst (addActor_of_init w hAdmits hRun)
  rw [hCall]
  generalize (s.setNode a.typeName (a.actor j).getActorName).enter (a.actor j) cfg ctx = t at *
  obtain ⟨hCtxs', hState', hSendOf'⟩ := recvCached_frame w (a.actor j).getActorName t
  have hLine := hNew.recvCached w hName
  refine ⟨recvCached w (a.actor j).getActorName t, hState'.trans hStateNew, by rw [hCtxs', hKnown], ?_⟩
  have hSent := hLine.sendAll w s.ctxCount ?_ ?_
  · rw [hSendOf', hSendOf] at hSent
    exact hSent
  · obtain hOther | rfl := hOwn
    · rw [hSendOf', hSendOf]
      exact .inr (ordinal_actor _ _ _ hOther)
    · obtain ⟨d, -, hNil⟩ := hLine
      exact .inl (List.append_eq_nil_iff.mp hNil).2
  · intro hNone
    refine filterMap_ordinal_none _ fun p hRel => ?_
    rw [caches_eq (hState'.trans hStateNew) hRel, hNone]
    rfl

theorem addWorker_quiet (s : Application (ℕ × ℕ)) (v : Worker) (g : Grant) :
    (s.addWorker v g).1.received = s.received ∧ (s.addWorker v g).1.cacheMsgs = s.cacheMsgs ∧
      (s.addWorker v g).1.state = s.state := by
  rw [addWorker]
  split
  · simp only
    split <;> exact ⟨rfl, rfl, rfl⟩
  · exact ⟨rfl, rfl, rfl⟩

theorem add_frame (j : ℕ) (s : Application (ℕ × ℕ)) (c : Adding) :
    (s.add w j c).state = s.state ∧ s.Grows (s.add w j c) := by
  cases c with
  | actor a cfg =>
    refine ⟨?_, s.addActor_grows w (a.actor j) cfg⟩
    rw [add]
    by_cases hAccepts : s.Accepts (a.actor j) cfg
    · obtain ⟨app, cache, hEq, -⟩ := addActor_accepted w hAccepts
      rw [hEq]
    · obtain ⟨addr, r, hEq, -⟩ := addActor_rejected w hAccepts
      rw [hEq]
  | worker v g =>
    obtain ⟨hActors, hConfig, hCount⟩ := s.addWorker_frame v g
    exact ⟨(s.addWorker_quiet v g).2.2, .of_eq (congrArg _ hActors) hConfig hCount⟩

theorem Line.add {k j : ℕ} {cls inst : String} {l : List ℕ} {s : Application (ℕ × ℕ)}
    (h : s.Line k (address "actor" cls inst) l) (hState : s.state = .kInitialized) {c : Adding}
    (hOther : j ≠ k ∨ ∀ a cfg, c = .actor a cfg → ¬ s.Accepts (a.actor j) cfg) :
    (s.add w j c).Line k (address "actor" cls inst) l := by
  cases c with
  | worker v g =>
    obtain ⟨d, hGiven, hLine⟩ := h
    obtain ⟨hReceived, hCache, -⟩ := s.addWorker_quiet v g
    obtain ⟨hActors, -⟩ := s.addWorker_frame v g
    refine ⟨d, hGiven.of_eq hReceived fun hNone => ?_, ?_⟩
    · rw [← hActors]
      exact hNone
    · rw [← hLine, cached, Application.add, hCache, cached]
  | actor a cfg =>
    by_cases hAccepts : s.Accepts (a.actor j) cfg
    · have hNe : j ≠ k := hOther.resolve_right fun hNot => hNot a cfg rfl hAccepts
      obtain ⟨u, -, -, hLine⟩ := addActor_line w hState h hAccepts (.inl hNe)
      have hNone := ordinal_actor (address "actor" cls inst) a cfg hNe
      rw [filterMap_filter_of_nil hNone, filterMap_filter_of_nil hNone, List.append_nil, List.append_nil] at hLine
      exact hLine
    · obtain ⟨addr, r, hEq, -⟩ := addActor_rejected w hAccepts
      obtain ⟨d, hGiven, hLine⟩ := h
      rw [Application.add, hEq]
      exact ⟨d, hGiven.of_eq rfl id, hLine⟩

theorem addAll_append (xs ys : List Adding) (j : ℕ) (s : Application (ℕ × ℕ)) :
    addAll w j (xs ++ ys) s = addAll w (j + xs.length) ys (addAll w j xs s) := by
  induction xs generalizing j s with
  | nil => rfl
  | cons c xs ih =>
    rw [List.cons_append, addAll, ih, addAll, List.length_cons, Nat.add_right_comm, Nat.add_assoc]

theorem addAll_frame (cs : List Adding) (j : ℕ) (s : Application (ℕ × ℕ)) :
    (addAll w j cs s).state = s.state ∧ s.Grows (addAll w j cs s) := by
  induction cs generalizing j s with
  | nil => exact ⟨rfl, .refl s⟩
  | cons c cs ih =>
    obtain ⟨hState, hGrows⟩ := s.add_frame w j c
    obtain ⟨hState', hGrows'⟩ := ih (j + 1) (s.add w j c)
    exact ⟨hState'.trans hState, hGrows.trans hGrows'⟩

theorem Line.addAll {k : ℕ} {cls inst : String} {l : List ℕ} (cs : List Adding) {j : ℕ} {s : Application (ℕ × ℕ)}
    (h : s.Line k (address "actor" cls inst) l) (hState : s.state = .kInitialized)
    (hOther : ∀ i < cs.length, j + i ≠ k) :
    (Application.addAll w j cs s).Line k (address "actor" cls inst) l := by
  induction cs generalizing j s with
  | nil => exact h
  | cons c cs ih =>
    refine ih (h.add w hState (.inl (hOther 0 (Nat.succ_pos _)))) ((s.add_frame w j c).1.trans hState)
      fun i hi => ?_
    rw [Nat.add_right_comm]
    exact hOther (i + 1) (Nat.succ_lt_succ hi)

theorem exec_arrivals {k : ℕ} {cls inst : String} {l : List ℕ} {s : Application (ℕ × ℕ)}
    (h : s.Line k (address "actor" cls inst) l) (hState : s.state = .kInitialized) :
    (s.Reached (address "actor" cls inst) → Repeats l ((s.exec w).arrivals k (address "actor" cls inst))) ∧
      (¬ s.Reached (address "actor" cls inst) → (s.exec w).arrivals k (address "actor" cls inst) = []) := by
  obtain ⟨d, hGiven, hLine⟩ := h
  obtain ⟨r, hArrivals, hReached, hNot⟩ :=
    arrivals_dispatchList w k cls inst s.cacheMsgs { s with state := .kRunning }
  have hExec : (s.exec w).arrivals k (address "actor" cls inst) = s.arrivals k (address "actor" cls inst) ++ r := by
    rw [exec, if_pos (.inl hState)]
    exact hArrivals
  rw [hExec]
  constructor
  · intro hReach
    exact hLine ▸ (hGiven.arrived hReach.2).append (hReached hReach)
  · intro hReach
    rw [hNot hReach, List.append_nil]
    by_cases hLength : (splitMsgName (address "actor" cls inst)).length = 3
    · have hNone : s.actorCtxMgr.ctxs (address "actor" cls inst) = none := by
        by_contra hSome
        exact hReach ⟨Option.isSome_iff_ne_none.mpr hSome, hLength⟩
      have hArrived := hGiven.arrived hLength
      rw [hGiven.unknown hNone] at hArrived
      exact List.eq_nil_iff_forall_not_mem.mpr fun i hi => List.not_mem_nil (hArrived.mem_iff.mp hi)
    · exact hGiven.lost hLength

theorem exec_sorted_iff {k : ℕ} {cls inst : String} {l : List ℕ} {s : Application (ℕ × ℕ)}
    (h : s.Line k (address "actor" cls inst) l) (hState : s.state = .kInitialized) :
    ((s.exec w).arrivals k (address "actor" cls inst)).Pairwise (· ≤ ·) ↔
      (s.Reached (address "actor" cls inst) → l.Pairwise (· ≤ ·)) := by
  obtain ⟨hReached, hNot⟩ := exec_arrivals w h hState
  by_cases hReach : s.Reached (address "actor" cls inst)
  · rw [(hReached hReach).pairwise_le_iff]
    exact ⟨fun hSorted _ => hSorted, fun hSorted => hSorted hReach⟩
  · rw [hNot hReach]
    exact iff_of_true .nil fun hIs => absurd hIs hReach

theorem ordinal_mark {k i : ℕ} {dst : String} {m : Msg} :
    ordinal k dst { mark := .call (k, i), msg := m } = if Relevant dst m then some i else none := by
  simp only [ordinal, true_and]

theorem mem_posted_iff {k x : ℕ} {dst : String} {a : Poster} {cfg : Json} {g : Msg → Bool} :
    x ∈ (((a.actor k).init cfg).2.filter fun p => g p.msg).filterMap (ordinal k dst) ↔
      ∃ m, (a.init cfg).2[x]? = some m ∧ Relevant dst m ∧ g m = true := by
  rw [List.mem_filterMap]
  constructor
  · rintro ⟨p, hp, hOrdinal⟩
    obtain ⟨hMem, hKept⟩ := List.mem_filter.mp hp
    obtain ⟨i, hi, rfl⟩ := List.mem_mapIdx.mp hMem
    rw [ordinal_mark] at hOrdinal
    split at hOrdinal
    · next hRel =>
      obtain rfl := Option.some.inj hOrdinal
      exact ⟨_, List.getElem?_eq_getElem hi, hRel, hKept⟩
    · cases hOrdinal
  · rintro ⟨m, hAt, hRel, hKept⟩
    obtain ⟨hx, rfl⟩ := List.getElem?_eq_some_iff.mp hAt
    exact ⟨_, List.mem_filter.mpr ⟨List.mem_mapIdx.mpr ⟨x, hx, rfl⟩, hKept⟩, by rw [ordinal_mark, if_pos hRel]⟩

theorem posted_sorted (k : ℕ) (dst : String) (a : Poster) (cfg : Json) (g : Parcel (Origin (ℕ × ℕ)) → Bool) :
    ((((a.actor k).init cfg).2.filter g).filterMap (ordinal k dst)).Pairwise (· ≤ ·) := by
  rw [List.pairwise_filterMap]
  refine List.Pairwise.filter g (List.pairwise_iff_getElem.mpr fun i j hi hj hij x hx y hy => ?_)
  have hIndex : ∀ (n : ℕ) (hn : n < ((a.actor k).init cfg).2.length) (z : ℕ),
      ordinal k dst ((a.actor k).init cfg).2[n] = some z → z = n := by
    intro n hn z hz
    simp only [Poster.actor, List.getElem_mapIdx, ordinal_mark] at hz
    split at hz
    · exact (Option.some.inj hz).symm
    · cases hz
  rw [hIndex i hi x hx, hIndex j hj y hy]
  exact hij.le

/-- To this destination no kHybrid message is posted before a kIntra one. -/
def Parted (msgs : List Msg) (dst : String) : Prop :=
  ∀ (i j : ℕ) (m m' : Msg), msgs[i]? = some m → msgs[j]? = some m' → Relevant dst m → Relevant dst m' →
    m.transMode = .kIntra → m'.transMode = .kHybrid → i < j

/-- The line that a call of `AddActor` leaves is in order, unless the destination is known already and the
modes are mixed; nothing is missing from it. -/
theorem addActor_sorted_iff {k : ℕ} {cls inst : String} {s : Application (ℕ × ℕ)}
    (hState : s.state = .kInitialized) (h : s.Line k (address "actor" cls inst) []) {a : Poster} {cfg : Json}
    (hAccepts : s.Accepts (a.actor k) cfg) :
    ∃ l, (s.add w k (.actor a cfg)).Line k (address "actor" cls inst) l ∧
      (∀ i, i ∈ l ↔ ∃ m, (a.init cfg).2[i]? = some m ∧ Relevant (address "actor" cls inst) m) ∧
      (l.Pairwise (· ≤ ·) ↔
        (s.Known a (address "actor" cls inst) → Parted (a.init cfg).2 (address "actor" cls inst))) := by
  obtain ⟨u, hStateU, hKnown, hLine⟩ := addActor_line w hState h hAccepts (.inr rfl)
  refine ⟨_, hLine, fun i => ?_, ?_⟩
  · rw [List.nil_append, List.mem_append, mem_posted_iff (g := fun m => !u.caches m), mem_posted_iff (g := u.caches)]
    constructor
    · rintro (⟨m, hi, hRel, -⟩ | ⟨m, hi, hRel, -⟩)
      · exact ⟨m, hi, hRel⟩
      · exact ⟨m, hi, hRel⟩
    · rintro ⟨m, hi, hRel⟩
      cases hCaches : u.caches m with
      | false => exact .inl ⟨m, hi, hRel, by rw [hCaches]; rfl⟩
      | true => exact .inr ⟨m, hi, hRel, hCaches⟩
  rw [List.nil_append, List.pairwise_append, and_iff_right (posted_sorted ..), and_iff_right (posted_sorted ..)]
  constructor
  · intro hAll hIs i j m m' hi hj hRel hRel' hIntra hHybrid
    have hSome := hKnown.mpr hIs
    have hFirst := (mem_posted_iff (k := k) (g := fun m => !u.caches m)).mpr ⟨m, hi, hRel, by
      rw [caches_eq hStateU hRel, hSome, hIntra]
      rfl⟩
    have hSecond := (mem_posted_iff (k := k) (g := u.caches)).mpr ⟨m', hj, hRel', by
      rw [caches_eq hStateU hRel', hSome, hHybrid]
      rfl⟩
    refine lt_of_le_of_ne (hAll i hFirst j hSecond) ?_
    rintro rfl
    rw [Option.some.inj (hi.symm.trans hj), hHybrid] at hIntra
    cases hIntra
  · intro hParted x hx y hy
    obtain ⟨m, hi, hRel, hSent⟩ := (mem_posted_iff (g := fun m => !u.caches m)).mp hx
    obtain ⟨m', hj, hRel', hCached⟩ := (mem_posted_iff (g := u.caches)).mp hy
    rw [caches_eq hStateU hRel, Bool.not_eq_true', Bool.or_eq_false_iff, Bool.not_eq_false'] at hSent
    rw [caches_eq hStateU hRel', hSent.1, Bool.not_true, Bool.false_or, decide_eq_true_eq] at hCached
    have hIntra : m.transMode = .kIntra := hRel.2.2.resolve_right (of_decide_eq_false hSent.2)
    exact (hParted (hKnown.mp hSent.1) x y m m' hi hj hRel hRel' hIntra hCached).le

/-- What `AddActor` does with the messages of an actor it accepts keeps their order. -/
def Unmixed (s : Application (ℕ × ℕ)) (k : ℕ) (a : Poster) (cfg : Json) : Prop :=
  s.Accepts (a.actor k) cfg → ∀ cls inst, DotFree cls → DotFree inst →
    s.Known a (address "actor" cls inst) → Parted (a.init cfg).2 (address "actor" cls inst)

theorem addAll_split {cs : List Adding} {k : ℕ} {c : Adding} (h : cs[k]? = some c) (s : Application (ℕ × ℕ)) :
    addAll w 0 cs s = addAll w (k + 1) (cs.drop (k + 1)) ((addAll w 0 (cs.take k) s).add w k c) := by
  obtain ⟨hk, rfl⟩ := List.getElem?_eq_some_iff.mp h
  have hLength : 0 + (cs.take k).length = k := by
    rw [Nat.zero_add, List.length_take_of_le hk.le]
  conv_lhs => rw [← List.take_append_drop k cs, List.drop_eq_getElem_cons hk]
  rw [addAll_append, hLength, addAll]

theorem Known.add {s : Application (ℕ × ℕ)} {a : Poster} {dst : String} (h : s.Known a dst) {k : ℕ} {cfg : Json}
    (hAccepts : s.Accepts (a.actor k) cfg) :
    ((s.add w k (.actor a cfg)).actorCtxMgr.ctxs dst).isSome = true := by
  obtain ⟨app, cache, hEq, hCtxs, -⟩ := addActor_accepted w hAccepts
  rw [Application.add, hEq]
  simp only [hCtxs]
  split
  · next hSome =>
    obtain hOld | rfl := h
    · exact hOld
    · exact hSome
  · rw [Function.update_apply]
    split
    · rfl
    · next hNe => exact h.resolve_right hNe

theorem Grows.isSome {s t : Application (ℕ × ℕ)} (h : s.Grows t) {dst : String}
    (hSome : (s.actorCtxMgr.ctxs dst).isSome = true) : (t.actorCtxMgr.ctxs dst).isSome = true := by
  obtain ⟨i, hi⟩ := Option.isSome_iff_exists.mp hSome
  rw [h.ctxs dst i hi]
  rfl

/-- What a call that adds an actor has posted, after all the calls. -/
theorem line_of_call {s : Application (ℕ × ℕ)} (hState : s.state = .kInitialized) {k : ℕ}
    (hStart : ∀ dst, s.Line k dst []) {cs : List Adding} {a : Poster} {cfg : Json}
    (hCall : cs[k]? = some (.actor a cfg)) (hAccepts : (addAll w 0 (cs.take k) s).Accepts (a.actor k) cfg)
    (cls inst : String) :
    ∃ l, (addAll w 0 cs s).Line k (address "actor" cls inst) l ∧
      (∀ i, i ∈ l ↔ ∃ m, (a.init cfg).2[i]? = some m ∧ Relevant (address "actor" cls inst) m) ∧
      (l.Pairwise (· ≤ ·) ↔ ((addAll w 0 (cs.take k) s).Known a (address "actor" cls inst) →
        Parted (a.init cfg).2 (address "actor" cls inst))) := by
  have hStateAt : (addAll w 0 (cs.take k) s).state = .kInitialized := (addAll_frame w _ 0 s).1.trans hState
  have hBefore : (addAll w 0 (cs.take k) s).Line k (address "actor" cls inst) [] := by
    refine (hStart _).addAll w (cs.take k) hState fun i hi => ?_
    rw [List.length_take] at hi
    omega
  obtain ⟨l, hLine, hAll, hOrder⟩ := addActor_sorted_iff w hStateAt hBefore hAccepts
  refine ⟨l, ?_, hAll, hOrder⟩
  rw [addAll_split w hCall]
  exact hLine.addAll w _ (((addAll w 0 (cs.take k) s).add_frame w k _).1.trans hStateAt) fun i _ => by omega

/-- One call among all: its messages come in order just where it does not mix them up. -/
theorem arrivals_call_iff {s : Application (ℕ × ℕ)} (hState : s.state = .kInitialized) {k : ℕ}
    (hStart : ∀ dst, s.Line k dst []) (cs : List Adding) :
    (∀ cls inst, (((addAll w 0 cs s).exec w).arrivals k (address "actor" cls inst)).Pairwise (· ≤ ·)) ↔
      ∀ a cfg, cs[k]? = some (.actor a cfg) → (addAll w 0 (cs.take k) s).Unmixed k a cfg := by
  have hStateEnd : (addAll w 0 cs s).state = .kInitialized := (addAll_frame w cs 0 s).1.trans hState
  have hStateAt : (addAll w 0 (cs.take k) s).state = .kInitialized := (addAll_frame w _ 0 s).1.trans hState
  have hBefore : ∀ cls inst, (addAll w 0 (cs.take k) s).Line k (address "actor" cls inst) [] := by
    intro cls inst
    refine (hStart _).addAll w (cs.take k) hState fun i hi => ?_
    rw [List.length_take] at hi
    omega
  -- An empty line is in order.
  have hSorted : ∀ cls inst, (addAll w 0 cs s).Line k (address "actor" cls inst) [] →
      (((addAll w 0 cs s).exec w).arrivals k (address "actor" cls inst)).Pairwise (· ≤ ·) :=
    fun cls inst hLine => (exec_sorted_iff w hLine hStateEnd).mpr fun _ => .nil
  cases hCall : cs[k]? with
  | none =>
    refine iff_of_true (fun cls inst => hSorted cls inst ?_) (by rintro a cfg ⟨⟩)
    refine (hStart _).addAll w cs hState fun i hi => ?_
    have hLength := List.getElem?_eq_none_iff.mp hCall
    omega
  | some c =>
    -- A call that adds no actor leaves an empty line.
    by_cases hAccepted : ∃ a cfg, c = .actor a cfg ∧ (addAll w 0 (cs.take k) s).Accepts (a.actor k) cfg
    · obtain ⟨a, cfg, rfl, hAccepts⟩ := hAccepted
      have hRegistered : ∀ cls inst, (addAll w 0 (cs.take k) s).Known a (address "actor" cls inst) →
          ((addAll w 0 cs s).actorCtxMgr.ctxs (address "actor" cls inst)).isSome = true := by
        intro cls inst hKnown
        rw [addAll_split w hCall]
        exact (addAll_frame w _ _ _).2.isSome (hKnown.add w hAccepts)
      constructor
      · rintro hAll _ _ ⟨⟩ - cls inst hCls hInst hKnown
        obtain ⟨l, hLine, -, hOrder⟩ := line_of_call w hState hStart hCall hAccepts cls inst
        have hLength := (splitMsgName_address_length (by decide : DotFree "actor")).mpr ⟨hCls, hInst⟩
        exact hOrder.mp ((exec_sorted_iff w hLine hStateEnd).mp (hAll cls inst)
          ⟨hRegistered cls inst hKnown, hLength⟩) hKnown
      · intro hUnmixed cls inst
        obtain ⟨l, hLine, -, hOrder⟩ := line_of_call w hState hStart hCall hAccepts cls inst
        rw [exec_sorted_iff w hLine hStateEnd]
        rintro ⟨-, hLength⟩
        obtain ⟨hCls, hInst⟩ := (splitMsgName_address_length (by decide : DotFree "actor")).mp hLength
        exact hOrder.mpr (hUnmixed a cfg rfl hAccepts cls inst hCls hInst)
    · refine iff_of_true (fun cls inst => hSorted cls inst ?_) ?_
      · rw [addAll_split w hCall]
        have hHere := (hBefore cls inst).add w hStateAt (j := k) (c := c)
          (.inr fun a cfg hIs hAccepts => hAccepted ⟨a, cfg, hIs, hAccepts⟩)
        exact hHere.addAll w _ (((addAll w 0 (cs.take k) s).add_frame w k c).1.trans hStateAt) fun i _ => by omega
      · intro a cfg hIs hAccepts
        exact absurd ⟨a, cfg, Option.some.inj hIs, hAccepts⟩ hAccepted

/-- The messages that an actor posts to another in `Init` are given to it in their order, `Exec` included,
just where every actor that is known already, or is the sender, is sent its kIntra messages first. In whatever
order, all of them are given to an actor that can be reached. -/
theorem arrivals_sorted_iff {s : Application (ℕ × ℕ)} (hState : s.state = .kInitialized)
    (hCache : s.cacheMsgs = []) (hReceived : s.received = []) (cs : List Adding) :
    ((∀ k cls inst, (((addAll w 0 cs s).exec w).arrivals k (address "actor" cls inst)).Pairwise (· ≤ ·)) ↔
      ∀ k a cfg, cs[k]? = some (.actor a cfg) → (addAll w 0 (cs.take k) s).Unmixed k a cfg) ∧
      ∀ k a cfg, cs[k]? = some (.actor a cfg) → (addAll w 0 (cs.take k) s).Accepts (a.actor k) cfg →
        ∀ cls inst, (addAll w 0 cs s).Reached (address "actor" cls inst) →
          ∀ i, i ∈ ((addAll w 0 cs s).exec w).arrivals k (address "actor" cls inst) ↔
            ∃ m, (a.init cfg).2[i]? = some m ∧ Relevant (address "actor" cls inst) m := by
  have hStart : ∀ k dst, s.Line k dst [] := by
    intro k dst
    have hNone : s.arrivals k dst = [] := by
      rw [arrivals, hReceived]
      rfl
    refine ⟨[], ⟨fun _ => hNone ▸ .nil, fun _ => hNone, fun _ => rfl⟩, ?_⟩
    rw [cached, hCache]
    rfl
  refine ⟨forall_congr' fun k => arrivals_call_iff w hState (hStart k) cs, ?_⟩
  intro k a cfg hCall hAccepts cls inst hReached i
  obtain ⟨l, hLine, hAll, -⟩ := line_of_call w hState (hStart k) hCall hAccepts cls inst
  have hStateEnd : (addAll w 0 cs s).state = .kInitialized := (addAll_frame w cs 0 s).1.trans hState
  rw [((exec_arrivals w hLine hStateEnd).1 hReached).mem_iff]
  exact hAll i

def listener : Poster where
  typeName := "X"
  instName := "x"
  init _ := (0, [])

def poster (modes : List TransMode) : Poster where
  typeName := "A"
  instName := "a"
  init _ := (0, modes.map fun mode => { src := "actor.A.a", dst := "actor.X.x", transMode := mode })

def listenerFirst (modes : List TransMode) : List Adding := [.actor listener .null, .actor (poster modes) .null]

theorem arrivals_sorted_local_first :
    (((addAll .stored 0 (listenerFirst [.kIntra, .kHybrid]) (init {} "lib" (-1) 2)).exec .stored).arrivals 1
      (address "actor" "X" "x")).Pairwise (· ≤ ·) := by
  obtain ⟨hSorted, -⟩ := arrivals_sorted_iff (s := init {} "lib" (-1) 2) .stored (by decide) (by decide) (by decide)
    (listenerFirst [.kIntra, .kHybrid])
  refine hSorted.mpr (fun k a cfg hCall => ?_) 1 "X" "x"
  match k with
  | 0 =>
    cases hCall
    rintro - cls inst - - - i j m m' ⟨⟩
  | 1 =>
    cases hCall
    rintro - cls inst - - - i j m m' hi hj - - hIntra hHybrid
    match i, j with
    | 0, 1 => exact Nat.zero_lt_one
    | 0, 0 =>
      cases hj
      cases hHybrid
    | 1, 0 | 1, 1 =>
      cases hi
      cases hIntra
    | i + 2, _ => cases hi
    | _, j + 2 => cases hj
  | k + 2 => cases hCall

/-- The kHybrid message waits in the cache for `Exec`, and the kIntra one behind it goes out at once. -/
theorem hybrid_overtaken :
    ((addAll .stored 0 (listenerFirst [.kHybrid, .kIntra]) (init {} "lib" (-1) 2)).exec .stored).arrivals 1
        "actor.X.x" = [1, 0] ∧
      ¬ (((addAll .stored 0 (listenerFirst [.kHybrid, .kIntra]) (init {} "lib" (-1) 2)).exec .stored).arrivals 1
        "actor.X.x").Pairwise (· ≤ ·) := by
  have hSwapped : ((addAll .stored 0 (listenerFirst [.kHybrid, .kIntra]) (init {} "lib" (-1) 2)).exec
      .stored).arrivals 1 "actor.X.x" = [1, 0] := by decide
  rw [hSwapped]
  decide

end Application
end Myframe
