import Mathlib.Data.List.Perm.Basic
import Myframe.App.AddActor

/-! # Runs of `AddActor`

A run is read as one sequence of dispatches, each with the directory in force.
-/
namespace Myframe
set_option autoImplicit false
open Common

namespace Startup

variable (w : Workers)

/-- What `AddActor` dispatches and what it leaves in `cache_msgs_`. -/
def now (s : Startup) (a : Entrant) : List Msg :=
  s.cacheMsgs.filter (·.dst = a.name) ++ a.sends.filter fun m => !(s.enter a).caches w m

def later (s : Startup) (a : Entrant) : List Msg :=
  s.cacheMsgs.filter (·.dst ≠ a.name) ++ a.sends.filter ((s.enter a).caches w)

/-- The dispatches of a run that adds the actors in this order and calls `Exec`. -/
def trace : Startup → List Entrant → List (Directory × Msg)
  | s, [] => s.cacheMsgs.map fun m => (s.directory w, m)
  | s, a :: order =>
    (s.now w a).map (fun m => ((s.enter a).directory w, m)) ++ trace (s.addActor w a) order

theorem dispatchList_eq (s : Startup) (msgs : List Msg) :
    s.dispatchList w msgs =
      { s with
        subs := ((msgs.map fun m => (s.directory w, m)).foldl (Directory.post w.walk) (s.subs, s.received)).1
        received :=
          ((msgs.map fun m => (s.directory w, m)).foldl (Directory.post w.walk) (s.subs, s.received)).2 } := by
  induction msgs generalizing s with
  | nil => rfl
  | cons m msgs ih => exact ih (s.dispatch w m)

variable {w} {s : Startup} {a : Entrant}

theorem addActor_eq (h : s.accepts a = true) :
    s.addActor w a =
      { s.enter a with
        cacheMsgs := s.later w a
        subs := (((s.now w a).map fun m => ((s.enter a).directory w, m)).foldl (Directory.post w.walk)
          (s.subs, s.received)).1
        received := (((s.now w a).map fun m => ((s.enter a).directory w, m)).foldl (Directory.post w.walk)
          (s.subs, s.received)).2 } := by
  rw [addActor, if_pos h]
  simp only [dispatchList_eq, now, later, List.map_append, List.foldl_append]
  rfl

theorem addActor_fields (h : s.accepts a = true) :
    (s.addActor w a).cacheMsgs = s.later w a ∧ (s.addActor w a).actors = (s.enter a).actors ∧
      (s.addActor w a).nodeAddr = (s.enter a).nodeAddr := by
  rw [addActor_eq h]
  exact ⟨rfl, rfl, rfl⟩

/-- No second node is among those to be added. -/
structure Admits (s : Startup) (order : List Entrant) : Prop where
  noNode : ∀ a ∈ order, a.typeName = "node" → s.nodeAddr = ""
  oneNode : order.Pairwise fun a b => a.typeName = "node" → b.typeName ≠ "node"

theorem Admits.accepts {order : List Entrant} (h : s.Admits (a :: order)) : s.accepts a = true := by
  by_cases hNode : a.typeName = "node"
  · simp [Startup.accepts, h.noNode a List.mem_cons_self hNode]
  · simp [Startup.accepts, hNode]

theorem Admits.tail {order : List Entrant} (h : s.Admits (a :: order)) : (s.addActor w a).Admits order := by
  obtain ⟨hHead, hTail⟩ := List.pairwise_cons.mp h.oneNode
  refine ⟨fun b hb hNode => ?_, hTail⟩
  have hNot : a.typeName ≠ "node" := fun hEq => hHead b hb hEq hNode
  rw [addActor_eq h.accepts]
  simp only [enter, if_neg hNot]
  exact h.noNode b (List.mem_cons_of_mem a hb) hNode

theorem exec_addAll {order : List Entrant} (h : s.Admits order) :
    ((exec w (addAll w s order)).subs, (exec w (addAll w s order)).received) =
      (s.trace w order).foldl (Directory.post w.walk) (s.subs, s.received) := by
  induction order generalizing s with
  | nil =>
    rw [addAll, List.foldl_nil, exec, dispatchList_eq, trace]
    rfl
  | cons a order ih =>
    have hNext := ih (h.tail (w := w))
    rw [trace, List.foldl_append]
    rw [addAll, List.foldl_cons]
    refine hNext.trans ?_
    rw [addActor_eq h.accepts]

theorem now_append_later_perm (w : Workers) (s : Startup) (a : Entrant) :
    (s.now w a ++ s.later w a).Perm (s.cacheMsgs ++ a.sends) := by
  have hCache : (s.cacheMsgs.filter (·.dst = a.name) ++ s.cacheMsgs.filter (·.dst ≠ a.name)).Perm s.cacheMsgs := by
    simpa only [decide_not] using List.filter_append_perm (fun m : Msg => decide (m.dst = a.name)) s.cacheMsgs
  have hSends : ((a.sends.filter fun m => !(s.enter a).caches w m) ++ a.sends.filter ((s.enter a).caches w)).Perm
      a.sends :=
    List.perm_append_comm.trans (List.filter_append_perm ((s.enter a).caches w) a.sends)
  refine .trans ?_ (hCache.append hSends)
  rw [now, later, List.append_assoc, List.append_assoc]
  refine .append_left _ ?_
  rw [← List.append_assoc, ← List.append_assoc]
  exact .append_right _ List.perm_append_comm

theorem trace_perm {order : List Entrant} (h : s.Admits order) :
    ((s.trace w order).map Prod.snd).Perm (s.cacheMsgs ++ order.flatMap Entrant.sends) := by
  induction order generalizing s with
  | nil => simp [trace, Function.comp_def]
  | cons a order ih =>
    have hNext := ih (h.tail (w := w))
    rw [(addActor_fields h.accepts).1] at hNext
    rw [trace, List.map_append, List.map_map, List.flatMap_cons, ← List.append_assoc]
    have hNow : (s.now w a).map (Prod.snd ∘ fun m => ((s.enter a).directory w, m)) = s.now w a := List.map_id _
    rw [hNow]
    refine (hNext.append_left _).trans ?_
    rw [← List.append_assoc]
    exact (now_append_later_perm w s a).append_right _

theorem filter_swap (l : List Msg) (p q : Msg → Bool) : (l.filter q).filter p = (l.filter p).filter q := by
  rw [List.filter_filter, List.filter_filter]
  simp only [Bool.and_comm]

theorem filter_dst_append {l : List Msg} {p : Msg → Bool} {dst : String}
    (h : ∀ m ∈ l, p m = true → m.dst = dst) (name : String) :
    (l.filter (·.dst = name)).filter p ++ (l.filter (·.dst ≠ name)).filter p = l.filter p := by
  rw [filter_swap, filter_swap l p]
  have hDst : ∀ m ∈ l.filter p, m.dst = dst := fun m hm =>
    h m (List.mem_of_mem_filter hm) (List.mem_filter.mp hm).2
  obtain rfl | hNe := eq_or_ne dst name
  · have hAll : (l.filter p).filter (·.dst = dst) = l.filter p :=
      List.filter_eq_self.mpr fun m hm => decide_eq_true (hDst m hm)
    have hNone : (l.filter p).filter (·.dst ≠ dst) = [] :=
      List.filter_eq_nil_iff.mpr fun m hm hNot => of_decide_eq_true hNot (hDst m hm)
    rw [hAll, hNone, List.append_nil]
  · have hNone : (l.filter p).filter (·.dst = name) = [] :=
      List.filter_eq_nil_iff.mpr fun m hm hEq => hNe ((hDst m hm).symm.trans (of_decide_eq_true hEq))
    have hAll : (l.filter p).filter (·.dst ≠ name) = l.filter p :=
      List.filter_eq_self.mpr fun m hm => decide_eq_true fun hEq => hNe ((hDst m hm).symm.trans hEq)
    rw [hNone, hAll, List.nil_append]

theorem filter_sends_nil {l : List Msg} {p : Msg → Bool} (h : ∀ m ∈ l, p m = false) (q : Msg → Bool) :
    (l.filter q).filter p = [] := by
  refine List.filter_eq_nil_iff.mpr fun m hm => ?_
  rw [h m (List.mem_of_mem_filter hm)]
  exact Bool.false_ne_true

theorem trace_cons_filter (w : Workers) (s : Startup) (a : Entrant) (order : List Entrant) (p : Msg → Bool) :
    ((s.trace w (a :: order)).map Prod.snd).filter p =
      (s.now w a).filter p ++ (((s.addActor w a).trace w order).map Prod.snd).filter p := by
  have hNow : (s.now w a).map (Prod.snd ∘ fun m => ((s.enter a).directory w, m)) = s.now w a := List.map_id _
  rw [trace, List.map_append, List.map_map, hNow, List.filter_append]

/-- Cached messages of one destination leave the cache together, in their order. -/
theorem trace_filter_cached {order : List Entrant} (h : s.Admits order) {p : Msg → Bool} {dst : String}
    (hCache : ∀ m ∈ s.cacheMsgs, p m = true → m.dst = dst)
    (hOrder : ∀ b ∈ order, ∀ m ∈ b.sends, p m = false) :
    ((s.trace w order).map Prod.snd).filter p = s.cacheMsgs.filter p := by
  induction order generalizing s with
  | nil => simp [trace, Function.comp_def]
  | cons b order ih =>
    obtain ⟨hHead, hTail⟩ := List.forall_mem_cons.mp hOrder
    have hCached := (addActor_fields (w := w) h.accepts).1
    have hNext := ih (h.tail (w := w)) (fun m hm => ?_) hTail
    · rw [trace_cons_filter, hNext, hCached, now, later, List.filter_append, List.filter_append,
        filter_sends_nil hHead, filter_sends_nil hHead, List.append_nil, List.append_nil]
      exact filter_dst_append hCache b.name
    · rw [hCached, later, List.mem_append] at hm
      obtain hm | hm := hm
      · exact hCache m (List.mem_of_mem_filter hm)
      · intro hp
        rw [hHead m (List.mem_of_mem_filter hm)] at hp
        cases hp

/-- The subscriptions of an actor to one topic are dispatched in their order, but for those in the process
that overtake the others where the destination is there already. -/
theorem trace_filter_repeats {before after : List Entrant} (h : s.Admits (before ++ a :: after)) {x : Msg}
    (hx : x ∈ a.sends) (hRec : x.Recorded) (hCache : ∀ m ∈ s.cacheMsgs, ¬ x.Repeats m)
    (hOther : ∀ b ∈ before ++ after, ∀ m ∈ b.sends, ¬ x.Repeats m) :
    ((s.trace w (before ++ a :: after)).map Prod.snd).filter (fun m => decide (x.Repeats m)) =
      if ((addAll w s before).enter a).hasUserInst w x.dst = true then
        (a.sends.filter fun m => decide (x.Repeats m)).filter (·.transMode = .kIntra) ++
          (a.sends.filter fun m => decide (x.Repeats m)).filter (·.transMode ≠ .kIntra)
      else a.sends.filter fun m => decide (x.Repeats m) := by
  have hNil : ∀ (t : Startup) (q : Msg → Bool), (∀ m ∈ t.cacheMsgs, ¬ x.Repeats m) →
      (t.cacheMsgs.filter q).filter (fun m => decide (x.Repeats m)) = [] := fun t q ht =>
    filter_sends_nil (fun m hm => decide_eq_false (ht m hm)) q
  induction before generalizing s with
  | nil =>
    have hCached := (addActor_fields (w := w) (Admits.accepts h)).1
    have hDst : ∀ m ∈ (s.addActor w a).cacheMsgs, decide (x.Repeats m) = true → m.dst = x.dst := by
      intro m hm hRep
      have hRep' := of_decide_eq_true hRep
      rw [hCached, later, List.mem_append] at hm
      obtain hm | hm := hm
      · exact absurd hRep' (hCache m (List.mem_of_mem_filter hm))
      · exact a.oneDst m (List.mem_of_mem_filter hm) x hx hRec hRep'
    have hRest := trace_filter_cached (w := w) (Admits.tail (w := w) h) hDst
      fun b hb m hm => decide_eq_false (hOther b (List.mem_append_right _ hb) m hm)
    rw [List.nil_append, trace_cons_filter, hRest, hCached, now, later, List.filter_append, List.filter_append,
      hNil s _ hCache, hNil s _ hCache, List.nil_append, List.nil_append,
      filter_swap a.sends _ ((s.enter a).caches w), filter_swap a.sends _ fun m => !(s.enter a).caches w m,
      show addAll w s [] = s from rfl]
    have hUser : ∀ m ∈ a.sends.filter (fun m => decide (x.Repeats m)),
        (s.enter a).caches w m = (!(s.enter a).hasUserInst w x.dst || decide (m.transMode ≠ .kIntra)) := by
      intro m hm
      obtain ⟨hm, hRep⟩ := List.mem_filter.mp hm
      have hRep := of_decide_eq_true hRep
      rw [caches, a.oneDst m hm x hx hRec hRep]
      obtain hMode | hMode := hRep.1.2 <;> simp [hMode]
    split
    · next hHas =>
      refine congrArg₂ _ (List.filter_congr fun m hm => ?_) (List.filter_congr fun m hm => ?_)
      · simp [hUser m hm, hHas]
      · simp [hUser m hm, hHas]
    · next hHas =>
      have hAll : (a.sends.filter fun m => decide (x.Repeats m)).filter ((s.enter a).caches w) =
          a.sends.filter fun m => decide (x.Repeats m) :=
        List.filter_eq_self.mpr fun m hm => by simp [hUser m hm, hHas]
      have hNone : (a.sends.filter fun m => decide (x.Repeats m)).filter (fun m => !(s.enter a).caches w m) = [] :=
        List.filter_eq_nil_iff.mpr fun m hm => by simp [hUser m hm, hHas]
      rw [hNone, hAll, List.nil_append]
  | cons b before ih =>
    obtain ⟨hHead, hTail⟩ := List.forall_mem_cons.mp hOther
    have hSends : ∀ m ∈ b.sends, decide (x.Repeats m) = false := fun m hm => decide_eq_false (hHead m hm)
    have hCached := (addActor_fields (w := w) (Admits.accepts h)).1
    have hNext := ih (Admits.tail (w := w) h) (fun m hm => ?_) hTail
    · rw [List.cons_append, trace_cons_filter, hNext, now, List.filter_append, hNil s _ hCache,
        filter_sends_nil hSends, List.append_nil, List.nil_append]
      rfl
    · rw [hCached, later, List.mem_append] at hm
      obtain hm | hm := hm
      · exact hCache m (List.mem_of_mem_filter hm)
      · exact hHead m (List.mem_of_mem_filter hm)

/-- The directory once these actors have been added. -/
def settled (w : Workers) (l : List Entrant) : Directory where
  nodeAddr := Entrant.nodeOf l
  hasActor name := decide (name ∈ l.map Entrant.name)
  hasEvent := w.hasEvent

/-- The state after some actors have been added. -/
structure Built (s : Startup) (done : List Entrant) : Prop where
  actors : ∀ name, name ∈ s.actors ↔ name ∈ done.map Entrant.name
  node : s.nodeAddr = Entrant.nodeOf done
  cached : ∀ m ∈ s.cacheMsgs, ∃ a ∈ done, m ∈ a.sends

theorem built_empty : ({} : Startup).Built [] where
  actors _ := Iff.rfl
  node := rfl
  cached := by rintro _ ⟨⟩

theorem Built.enter {done : List Entrant} (h : s.Built done) (hAccepts : s.accepts a = true) :
    (∀ name, name ∈ (s.enter a).actors ↔ name ∈ (done ++ [a]).map Entrant.name) ∧
      (s.enter a).nodeAddr = Entrant.nodeOf (done ++ [a]) := by
  constructor
  · intro name
    rw [List.map_append, List.mem_append, ← h.actors]
    simp only [Startup.enter, List.map_cons, List.map_nil, List.mem_singleton]
    split
    · next hMem =>
      refine (or_iff_left_of_imp ?_).symm
      rintro rfl
      exact hMem
    · rw [List.mem_append, List.mem_singleton]
  · rw [Entrant.nodeOf_concat, ← h.node]
    simp only [Startup.enter]
    split
    · next hNode =>
      rw [Startup.accepts, hNode] at hAccepts
      have hEmpty : s.nodeAddr = "" := by simpa using hAccepts
      rw [if_pos hEmpty]
    · next hNode =>
      split
      · next hEmpty => rw [hEmpty]
      · rfl

theorem Built.addActor {done : List Entrant} (h : s.Built done) (hAccepts : s.accepts a = true) :
    (s.addActor w a).Built (done ++ [a]) := by
  obtain ⟨hCache, hActors, hNode⟩ := addActor_fields (w := w) hAccepts
  obtain ⟨hNames, hAddr⟩ := h.enter hAccepts
  refine ⟨by rw [hActors]; exact hNames, hNode.trans hAddr, fun m hm => ?_⟩
  rw [hCache, later, List.mem_append] at hm
  obtain hm | hm := hm
  · obtain ⟨b, hb, hSent⟩ := h.cached m (List.mem_of_mem_filter hm)
    exact ⟨b, List.mem_append_left _ hb, hSent⟩
  · exact ⟨a, List.mem_append_right _ List.mem_cons_self, List.mem_of_mem_filter hm⟩

theorem Built.addAll {done before order : List Entrant} (h : s.Built done) (hAdmits : s.Admits (before ++ order)) :
    (addAll w s before).Built (done ++ before) ∧ (addAll w s before).Admits order := by
  induction before generalizing s done with
  | nil => exact ⟨by rwa [List.append_nil], hAdmits⟩
  | cons a before ih =>
    have hNext := ih (h.addActor (w := w) (Admits.accepts hAdmits)) (Admits.tail hAdmits)
    rwa [List.append_assoc, List.singleton_append] at hNext

/-- A message that goes to the node is flushed for its destination while the node is not there. -/
def Early (l : List Entrant) (m : Msg) : Prop :=
  ∃ a ∈ l, ∃ b ∈ l, ∃ n ∈ l, n.typeName = "node" ∧ m ∈ a.sends ∧ m.dst = b.name ∧ a.name ≠ b.name ∧
    n.name ≠ a.name ∧ n.name ≠ b.name

/-- A dispatch sees what there will be in the end, but for the node. -/
structure Settled (w : Workers) (l : List Entrant) (e : Directory × Msg) : Prop where
  hasEvent : e.1.hasEvent = w.hasEvent
  hasActor : e.1.hasActor e.2.dst = (settled w l).hasActor e.2.dst
  nodeAddr : e.1.nodeAddr = Entrant.nodeOf l ∨ e.1.nodeAddr = "" ∧ (e.2.transMode = .kIntra ∨ Early l e.2)

theorem Built.now {done order : List Entrant} (h : s.Built done) (hAccepts : s.accepts a = true)
    (hNodup : ((done ++ a :: order).map Entrant.name).Nodup) :
    ∀ m ∈ s.now w a, Settled w (done ++ a :: order) ((s.enter a).directory w, m) := by
  obtain ⟨hNames, hAddr⟩ := h.enter hAccepts
  have hSub : ∀ name, name ∈ (s.enter a).actors → name ∈ (done ++ a :: order).map Entrant.name := by
    intro name hName
    have hMem := (hNames name).mp hName
    rw [List.map_append, List.mem_append] at hMem ⊢
    exact hMem.imp_right fun hMem => List.mem_cons.mpr (.inl (List.mem_singleton.mp hMem))
  have hNode : (s.enter a).nodeAddr = Entrant.nodeOf (done ++ a :: order) ∨ (s.enter a).nodeAddr = "" ∧
      ∃ n ∈ order, n.typeName = "node" := by
    rw [hAddr, List.append_cons done a order, Entrant.nodeOf_append (done ++ [a])]
    split
    · next hEmpty =>
      by_cases hRest : Entrant.nodeOf order = ""
      · exact .inl (hEmpty.trans hRest.symm)
      · obtain ⟨n, hn, hNode, -⟩ := Entrant.exists_of_nodeOf hRest
        exact .inr ⟨hEmpty, n, hn, hNode⟩
    · exact .inl rfl
  intro m hm
  obtain hm | hm := List.mem_append.mp hm
  · obtain ⟨hm, hDst⟩ := List.mem_filter.mp hm
    have hDst := of_decide_eq_true hDst
    have hHere : m.dst ∈ (s.enter a).actors := (hNames _).mpr (by simp [hDst])
    refine ⟨rfl, ?_, hNode.imp_right fun hNode => ⟨hNode.1, .inr ?_⟩⟩
    · exact (decide_eq_true hHere).trans (decide_eq_true (hSub _ hHere)).symm
    · obtain ⟨-, n, hn, hIsNode⟩ := hNode
      obtain ⟨b, hb, hSent⟩ := h.cached m hm
      rw [List.map_append, List.map_cons, List.nodup_append] at hNodup
      obtain ⟨-, hRest, hDisjoint⟩ := hNodup
      refine ⟨b, List.mem_append_left _ hb, a, List.mem_append_right _ List.mem_cons_self, n,
        List.mem_append_right _ (List.mem_cons_of_mem a hn), hIsNode, hSent, hDst, ?_, ?_, ?_⟩
      · exact hDisjoint _ (List.mem_map_of_mem hb) _ List.mem_cons_self
      · exact (hDisjoint _ (List.mem_map_of_mem hb) _ (List.mem_cons_of_mem _ (List.mem_map_of_mem hn))).symm
      · intro hEq
        exact (List.nodup_cons.mp hRest).1 (hEq ▸ List.mem_map_of_mem hn)
  · obtain ⟨hm, hPrompt⟩ := List.mem_filter.mp hm
    have hPrompt : (s.enter a).hasUserInst w m.dst = true ∧ m.transMode = .kIntra := by
      rw [caches] at hPrompt
      cases hMode : m.transMode <;> simp_all
    refine ⟨rfl, ?_, hNode.imp_right fun hNode => ⟨hNode.1, .inl hPrompt.2⟩⟩
    have hUser := hPrompt.1
    rw [hasUserInst] at hUser
    split at hUser
    · next hWorker =>
      have hNot : ∀ l : List Entrant, m.dst ∉ l.map Entrant.name := by
        intro l hMem
        obtain ⟨b, -, hEq⟩ := List.mem_map.mp hMem
        exact b.name_take_worker (hEq ▸ hWorker)
      have hHere : m.dst ∉ (s.enter a).actors := fun hMem => hNot _ ((hNames _).mp hMem)
      exact (decide_eq_false hHere).trans (decide_eq_false (hNot _)).symm
    · split at hUser
      · have hHere := of_decide_eq_true hUser
        exact (decide_eq_true hHere).trans (decide_eq_true (hSub _ hHere)).symm
      · cases hUser

theorem Built.trace {done order : List Entrant} (h : s.Built done) (hAdmits : s.Admits order)
    (hNodup : ((done ++ order).map Entrant.name).Nodup) :
    ∀ e ∈ s.trace w order, Settled w (done ++ order) e := by
  induction order generalizing s done with
  | nil =>
    intro e he
    obtain ⟨m, -, rfl⟩ := List.mem_map.mp he
    rw [List.append_nil]
    refine ⟨rfl, ?_, .inl h.node⟩
    exact decide_eq_decide.mpr (h.actors m.dst)
  | cons a order ih =>
    intro e he
    rw [Startup.trace, List.mem_append] at he
    obtain he | he := he
    · obtain ⟨m, hm, rfl⟩ := List.mem_map.mp he
      exact h.now hAdmits.accepts hNodup m hm
    · rw [List.append_cons] at hNodup ⊢
      exact ih (h.addActor hAdmits.accepts) hAdmits.tail hNodup e he

theorem Built.trace_node {done order : List Entrant} (h : s.Built done) (hAdmits : s.Admits order)
    (hNode : s.nodeAddr ≠ "") : ∀ e ∈ s.trace w order, e.1.nodeAddr = s.nodeAddr := by
  induction order generalizing s done with
  | nil =>
    intro e he
    obtain ⟨m, -, rfl⟩ := List.mem_map.mp he
    rfl
  | cons a order ih =>
    obtain ⟨-, hAddr⟩ := h.enter hAdmits.accepts
    have hSame : (s.enter a).nodeAddr = s.nodeAddr := by
      rw [hAddr, Entrant.nodeOf_concat, if_neg (h.node ▸ hNode), h.node]
    intro e he
    rw [Startup.trace, List.mem_append] at he
    obtain he | he := he
    · obtain ⟨m, -, rfl⟩ := List.mem_map.mp he
      exact hSame
    · have hNext : (s.addActor w a).nodeAddr = s.nodeAddr :=
        (addActor_fields hAdmits.accepts).2.2.trans hSame
      rw [← hNext]
      exact ih (h.addActor hAdmits.accepts) hAdmits.tail (hNext ▸ hNode) e he

/-- A message goes where it will go in the end, unless its copy for the node is lost. -/
theorem Settled.out {l : List Entrant} {e : Directory × Msg} (h : Settled w l e)
    (hIntra : ¬ (e.2.isSub ∧ e.2.transMode = .kIntra))
    (hNode : Directory.Copied (Entrant.nodeOf l) e.2 → e.1.nodeAddr = Entrant.nodeOf l) :
    e.1.out e.2 = (settled w l).out e.2 := by
  rw [Directory.out_eq hIntra, Directory.out_eq hIntra,
    Directory.localCopy_congr h.hasActor h.hasEvent]
  congr 1
  by_cases hCopied : Directory.Copied (Entrant.nodeOf l) e.2
  · exact Directory.nodeCopy_congr (hNode hCopied)
  · have hNone : (settled w l).nodeCopy e.2 = [] := if_neg hCopied
    obtain hAddr | ⟨hEmpty, -⟩ := h.nodeAddr
    · exact Directory.nodeCopy_congr hAddr
    · rw [hNone, Directory.nodeCopy_of_empty hEmpty]

end Startup
end Myframe
