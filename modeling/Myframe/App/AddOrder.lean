import Mathlib.Data.List.Nodup
import Myframe.App.AddTrace

/-! # The order in which actors are added

Orders differ in whether the node is there when a message is flushed, and in which of two subscriptions
comes first.
-/
namespace Myframe
set_option autoImplicit false

/-- Actors with distinct names, at most one of them of type node. -/
structure Lineup where
  actors : List Entrant
  nodup : (actors.map Entrant.name).Nodup
  oneNode : ∀ a ∈ actors, ∀ b ∈ actors, a.typeName = "node" → b.typeName = "node" → a = b

namespace Lineup

open Startup Directory

/-- What mailboxes have received of ordinary and SUB messages. -/
def delivered (s : Startup) : List (Delivery × Msg) := s.received.filter (·.2.type ≠ msgTypePub)

/-- The same messages have been received, and the same subscriptions are held. -/
def Agree (s t : Startup) : Prop :=
  (delivered s).Perm (delivered t) ∧
    ∀ topic, ((s.subs.lookup topic).map SubInfo.comName).Perm ((t.subs.lookup topic).map SubInfo.comName)

def OrderFree (w : Workers) (l : Lineup) : Prop :=
  ∀ o₁ o₂ : List Entrant, o₁.Perm l.actors → o₂.Perm l.actors → Agree (start w o₁) (start w o₂)

/-- The actor sends no other subscription to this topic before. -/
def Leads (a : Entrant) (x : Msg) : Prop := x.Recorded → a.sends.find? (fun m => x.Repeats m) = some x

/-- A message for another actor of the set and for the node comes from the node or goes to it; and where it
is a subscription that counts, no later one of the same kind stays in the process. -/
def Timely (l : Lineup) : Prop :=
  ∀ a ∈ l.actors, ∀ b ∈ l.actors, ∀ n ∈ l.actors, n.typeName = "node" → a.name ≠ b.name →
    ∀ x ∈ a.sends, x.dst = b.name → x.type ≠ msgTypePub → Copied n.name x → Leads a x →
      (n.name = a.name ∨ n.name = b.name) ∧
        (x.Recorded → ∀ m ∈ a.sends, x.Repeats m → m.transMode ≠ .kIntra)

variable {w : Workers} {l : Lineup} {o : List Entrant}

theorem eq_of_name {a b : Entrant} (ha : a ∈ l.actors) (hb : b ∈ l.actors) (h : a.name = b.name) : a = b :=
  List.inj_on_of_nodup_map l.nodup ha hb h

theorem nodup_order (h : o.Perm l.actors) : (o.map Entrant.name).Nodup :=
  (h.map Entrant.name).nodup_iff.mpr l.nodup

theorem admits (h : o.Perm l.actors) : ({} : Startup).Admits o where
  noNode _ _ _ := rfl
  oneNode := by
    refine (List.Nodup.of_map _ (nodup_order h)).imp_of_mem fun ha hb hNe hNodeA hNodeB => hNe ?_
    exact l.oneNode _ (h.mem_iff.mp ha) _ (h.mem_iff.mp hb) hNodeA hNodeB

theorem nodeOf_eq (h : o.Perm l.actors) {n : Entrant} (hn : n ∈ l.actors) (hNode : n.typeName = "node") :
    Entrant.nodeOf o = n.name := by
  obtain ⟨m, hm, hNode', hName⟩ := Entrant.exists_of_nodeOf (Entrant.nodeOf_ne_empty (h.mem_iff.mpr hn) hNode)
  rw [hName, l.oneNode m (h.mem_iff.mp hm) n hn hNode' hNode]

theorem nodeOf_perm (h : o.Perm l.actors) : Entrant.nodeOf o = Entrant.nodeOf l.actors := by
  by_cases hEmpty : Entrant.nodeOf l.actors = ""
  · by_contra hNe
    rw [hEmpty] at hNe
    obtain ⟨n, hn, hNode, -⟩ := Entrant.exists_of_nodeOf hNe
    exact Entrant.nodeOf_ne_empty (h.mem_iff.mp hn) hNode hEmpty
  · obtain ⟨n, hn, hNode, hName⟩ := Entrant.exists_of_nodeOf hEmpty
    rw [hName, nodeOf_eq h hn hNode]

theorem settled_perm (h : o.Perm l.actors) : settled w o = settled w l.actors := by
  have hMem : ∀ name, name ∈ o.map Entrant.name ↔ name ∈ l.actors.map Entrant.name := fun name =>
    (h.map Entrant.name).mem_iff
  simp only [settled, nodeOf_perm h, hMem]

theorem settled_trace (h : o.Perm l.actors) : ∀ e ∈ trace w {} o, Settled w o e :=
  built_empty.trace (admits h) (nodup_order h)

theorem mem_seq (h : o.Perm l.actors) {x : Msg} :
    x ∈ (trace w {} o).map Prod.snd ↔ ∃ a ∈ l.actors, x ∈ a.sends := by
  rw [(trace_perm (admits h)).mem_iff, show ({} : Startup).cacheMsgs = [] from rfl, List.nil_append,
    List.mem_flatMap]
  exact exists_congr fun a => and_congr_left fun _ => h.mem_iff

theorem seq_perm {o₁ o₂ : List Entrant} (h₁ : o₁.Perm l.actors) (h₂ : o₂.Perm l.actors) :
    ((trace w {} o₁).map Prod.snd).Perm ((trace w {} o₂).map Prod.snd) :=
  (trace_perm (admits h₁)).trans
    ((((h₁.trans h₂.symm).flatMap_right Entrant.sends).append_left _).trans (trace_perm (admits h₂)).symm)

/-- Whether the destination is there when the actor has been added after these. -/
def userAt (w : Workers) (before : List Entrant) (a : Entrant) (dst : String) : Bool :=
  ((addAll w {} before).enter a).hasUserInst w dst

theorem repeats_own {a b : Entrant} (ha : a ∈ l.actors) (hb : b ∈ l.actors) {x m : Msg} (hx : x ∈ a.sends)
    (hRec : x.Recorded) (hm : m ∈ b.sends) (hRep : x.Repeats m) : b = a := by
  refine eq_of_name hb ha ?_
  rw [Entrant.name, Entrant.name, ← b.own m hm hRep.1.1, ← a.own x hx hRec.1]
  exact hRep.2.1

theorem seq_filter {before after : List Entrant} {a : Entrant} (h : (before ++ a :: after).Perm l.actors) {x : Msg}
    (hx : x ∈ a.sends) (hRec : x.Recorded) :
    ((trace w {} (before ++ a :: after)).map Prod.snd).filter (fun m => decide (x.Repeats m)) =
      if userAt w before a x.dst = true then
        (a.sends.filter fun m => decide (x.Repeats m)).filter (·.transMode = .kIntra) ++
          (a.sends.filter fun m => decide (x.Repeats m)).filter (·.transMode ≠ .kIntra)
      else a.sends.filter fun m => decide (x.Repeats m) := by
  have hMem : ∀ b, b ∈ before ++ a :: after → b ∈ l.actors := fun b hb => h.mem_iff.mp hb
  have ha := hMem a (List.mem_append_right _ List.mem_cons_self)
  refine trace_filter_repeats (admits h) hx hRec (by rintro _ ⟨⟩) fun b hb m hm hRep => ?_
  have hb' : b ∈ before ++ a :: after := by
    rw [List.mem_append] at hb ⊢
    exact hb.imp_right (List.mem_cons_of_mem a)
  obtain rfl := repeats_own ha (hMem b hb') hx hRec hm hRep
  have hNodup := nodup_order h
  rw [List.map_append, List.map_cons, List.nodup_append] at hNodup
  obtain ⟨-, hRest, hDisjoint⟩ := hNodup
  obtain hb | hb := List.mem_append.mp hb
  · exact hDisjoint _ (List.mem_map_of_mem hb) _ List.mem_cons_self rfl
  · exact (List.nodup_cons.mp hRest).1 (List.mem_map_of_mem hb)

/-- The first subscription to be dispatched is the first that was sent, and it stays so unless a later one
overtakes it. -/
theorem seq_find {before after : List Entrant} {a : Entrant} (h : (before ++ a :: after).Perm l.actors) {x : Msg}
    (hx : x ∈ a.sends) (hRec : x.Recorded) (hMode : x.transMode ≠ .kIntra) :
    ((trace w {} (before ++ a :: after)).map Prod.snd).find? (fun m => x.Repeats m) = some x ↔
      a.sends.find? (fun m => x.Repeats m) = some x ∧
        (userAt w before a x.dst = true → ∀ m ∈ a.sends, x.Repeats m → m.transMode ≠ .kIntra) := by
  rw [← List.head?_filter, ← List.head?_filter, seq_filter h hx hRec]
  have hMem : ∀ m, m ∈ a.sends.filter (fun m => decide (x.Repeats m)) ↔ m ∈ a.sends ∧ x.Repeats m := fun m => by
    rw [List.mem_filter, decide_eq_true_iff]
  have hSplit : (∀ m ∈ a.sends, x.Repeats m → m.transMode ≠ .kIntra) →
      (a.sends.filter fun m => decide (x.Repeats m)).filter (·.transMode = .kIntra) = [] ∧
        (a.sends.filter fun m => decide (x.Repeats m)).filter (·.transMode ≠ .kIntra) =
          a.sends.filter fun m => decide (x.Repeats m) := by
    intro hNone
    refine ⟨List.filter_eq_nil_iff.mpr fun m hm hIntra => ?_, List.filter_eq_self.mpr fun m hm => ?_⟩
    · exact hNone m ((hMem m).mp hm).1 ((hMem m).mp hm).2 (of_decide_eq_true hIntra)
    · exact decide_eq_true (hNone m ((hMem m).mp hm).1 ((hMem m).mp hm).2)
  split
  · next hUser =>
    constructor
    · intro hHead
      have hNone : ∀ m ∈ a.sends, x.Repeats m → m.transMode ≠ .kIntra := by
        intro m hm hRep hIntra
        have hBefore : m ∈ (a.sends.filter fun m => decide (x.Repeats m)).filter (·.transMode = .kIntra) :=
          List.mem_filter.mpr ⟨(hMem m).mpr ⟨hm, hRep⟩, decide_eq_true hIntra⟩
        rw [List.head?_append_of_ne_nil _ (List.ne_nil_of_mem hBefore)] at hHead
        exact hMode (of_decide_eq_true (List.mem_filter.mp (List.mem_of_mem_head? hHead)).2)
      obtain ⟨hNil, hSame⟩ := hSplit hNone
      rw [hNil, hSame, List.nil_append] at hHead
      exact ⟨hHead, fun _ => hNone⟩
    · rintro ⟨hHead, hNone⟩
      obtain ⟨hNil, hSame⟩ := hSplit (hNone hUser)
      rw [hNil, hSame, List.nil_append]
      exact hHead
  · next hUser => exact (and_iff_left fun hYes => absurd hYes hUser).symm

theorem start_count (h : o.Perm l.actors) (v : Delivery) {x : Msg} (hPub : x.type ≠ msgTypePub) :
    (start w o).received.count (v, x) = copies (effective (trace w {} o) x) v x := by
  have hRun := congrArg Prod.snd (exec_addAll (w := w) (admits h))
  have hRun : (start w o).received =
      ((trace w {} o).foldl (post w.walk) (({} : Startup).subs, ({} : Startup).received)).2 := hRun
  rw [hRun]
  by_cases hRec : x.Recorded
  · have hNot : ¬ ({} : Startup).subs.Seen x := List.not_mem_nil
    rw [count_foldl_recorded _ _ hRec, if_neg hNot]
    exact Nat.zero_add _
  · rw [count_foldl_plain _ _ hPub hRec]
    exact Nat.zero_add _

theorem agree_iff {s t : Startup} : Agree s t ↔
    (∀ v x, x.type ≠ msgTypePub → s.received.count (v, x) = t.received.count (v, x)) ∧
      ∀ topic, ((s.subs.lookup topic).map SubInfo.comName).Perm ((t.subs.lookup topic).map SubInfo.comName) := by
  refine and_congr_left fun _ => ?_
  rw [List.perm_iff_count]
  constructor
  · intro h v x hPub
    have hCount := h (v, x)
    rwa [delivered, delivered, List.count_filter (by simpa using hPub),
      List.count_filter (by simpa using hPub)] at hCount
  · rintro h ⟨v, x⟩
    by_cases hPub : x.type = msgTypePub
    · have hNone : ∀ r : Startup, (delivered r).count (v, x) = 0 := by
        intro r
        refine List.count_eq_zero.mpr fun hMem => ?_
        exact of_decide_eq_true (List.mem_filter.mp hMem).2 hPub
      rw [hNone, hNone]
    · rw [delivered, delivered, List.count_filter (by simpa using hPub),
        List.count_filter (by simpa using hPub)]
      exact h v x hPub

theorem userAt_eq {before after : List Entrant} {a : Entrant} (h : (before ++ a :: after).Perm l.actors)
    (dst : String) : userAt w before a dst =
      if dst.toList.take 6 = "worker".toList then w.isUser dst
      else if dst.toList.take 5 = "actor".toList then decide (dst ∈ (before ++ [a]).map Entrant.name)
      else false := by
  obtain ⟨hBuilt, hAdmits⟩ := (built_empty.addAll (w := w) (admits h))
  have hNames := (hBuilt.enter hAdmits.accepts).1 dst
  rw [List.nil_append] at hNames
  rw [userAt, hasUserInst, decide_eq_decide.mpr hNames]

theorem userAt_actor {before after : List Entrant} {a b : Entrant} (h : (before ++ a :: after).Perm l.actors) :
    userAt w before a b.name = decide (b.name ∈ (before ++ [a]).map Entrant.name) := by
  rw [userAt_eq h, if_neg b.name_take_worker, if_pos b.name_take_actor]

theorem userAt_other {before after before' after' : List Entrant} {a : Entrant}
    (h : (before ++ a :: after).Perm l.actors) (h' : (before' ++ a :: after').Perm l.actors) {dst : String}
    (hOther : ∀ b ∈ l.actors, dst = b.name → b.name = a.name) :
    userAt w before a dst = userAt w before' a dst := by
  have hMem : ∀ {c d : List Entrant}, (c ++ a :: d).Perm l.actors →
      (dst ∈ (c ++ [a]).map Entrant.name ↔ dst = a.name) := by
    intro c d hPerm
    constructor
    · intro hMem
      obtain ⟨b, hb, rfl⟩ := List.mem_map.mp hMem
      refine hOther b (hPerm.mem_iff.mp ?_) rfl
      rw [List.mem_append] at hb ⊢
      exact hb.imp_right fun hb => List.mem_cons.mpr (.inl (List.mem_singleton.mp hb))
    · rintro rfl
      exact List.mem_map_of_mem (List.mem_append_right _ List.mem_cons_self)
  rw [userAt_eq h, userAt_eq h']
  simp only [hMem h, hMem h']

variable {o₁ o₂ : List Entrant} {x : Msg}

theorem exists_split {a : Entrant} (h : o.Perm l.actors) (ha : a ∈ l.actors) :
    ∃ before after, o = before ++ a :: after := List.append_of_mem (h.mem_iff.mpr ha)

/-- What counts of a message leads among what its actor sends. -/
theorem leads_of_effective (h : o.Perm l.actors) {d : Directory} (hd : d ∈ effective (trace w {} o) x)
    {a : Entrant} (ha : a ∈ l.actors) (hx : x ∈ a.sends) : Leads a x := by
  intro hRec
  obtain ⟨-, hIntra, hFind⟩ := mem_of_effective hd
  obtain ⟨before, after, rfl⟩ := exists_split h ha
  exact ((seq_find h hx hRec fun hMode => hIntra ⟨hRec.1, hMode⟩).mp (hFind hRec)).1

theorem out_of_timely (hT : l.Timely) (h : o.Perm l.actors) (hPub : x.type ≠ msgTypePub) {d : Directory}
    (hd : d ∈ effective (trace w {} o) x) : d.out x = (settled w l.actors).out x := by
  obtain ⟨hMem, hIntra, -⟩ := mem_of_effective hd
  have hSettled := settled_trace h _ hMem
  rw [← settled_perm h]
  refine hSettled.out hIntra fun hCopied => ?_
  obtain hAddr | ⟨-, hMode | hEarly⟩ := hSettled.nodeAddr
  · exact hAddr
  · exact absurd hMode hCopied.2.1
  · obtain ⟨a, ha, b, hb, n, hn, hNode, hx, hDst, hAB, hNA, hNB⟩ := hEarly
    have hMemL : ∀ c, c ∈ o → c ∈ l.actors := fun c hc => h.mem_iff.mp hc
    rw [nodeOf_eq h (hMemL n hn) hNode] at hCopied
    have hLate := (hT a (hMemL a ha) b (hMemL b hb) n (hMemL n hn) hNode hAB x hx hDst hPub hCopied
      (leads_of_effective h hd (hMemL a ha) hx)).1
    exact (hLate.elim hNA hNB).elim

theorem length_of_timely (hT : l.Timely) (h₁ : o₁.Perm l.actors) (h₂ : o₂.Perm l.actors) (hRec : x.Recorded)
    {n : Entrant} (hn : n ∈ l.actors) (hNode : n.typeName = "node") (hCopied : Copied n.name x)
    (hFind : ((trace w {} o₁).map Prod.snd).find? (fun m => x.Repeats m) = some x) :
    ((trace w {} o₂).map Prod.snd).find? (fun m => x.Repeats m) = some x := by
  obtain ⟨a, ha, hx⟩ := (mem_seq h₁).mp (List.mem_of_find?_eq_some hFind)
  obtain ⟨before₁, after₁, rfl⟩ := exists_split h₁ ha
  obtain ⟨before₂, after₂, rfl⟩ := exists_split h₂ ha
  have hPub : x.type ≠ msgTypePub := by
    rw [show x.type = msgTypeSub from hRec.1]
    decide
  obtain ⟨hLead, hNone⟩ := (seq_find h₁ hx hRec hCopied.2.1).mp hFind
  refine (seq_find h₂ hx hRec hCopied.2.1).mpr ⟨hLead, ?_⟩
  by_cases hOther : ∃ b ∈ l.actors, x.dst = b.name ∧ a.name ≠ b.name
  · obtain ⟨b, hb, hDst, hNe⟩ := hOther
    have hKept := (hT a ha b hb n hn hNode hNe x hx hDst hPub hCopied fun _ => hLead).2
    exact fun _ => hKept hRec
  · have hSame : userAt w before₂ a x.dst = userAt w before₁ a x.dst :=
      userAt_other h₂ h₁ fun b hb hDst => by
        by_contra hNe
        exact hOther ⟨b, hb, hDst, fun hEq => hNe hEq.symm⟩
    rw [hSame]
    exact hNone

theorem count_of_timely (hT : l.Timely) (h₁ : o₁.Perm l.actors) (h₂ : o₂.Perm l.actors) (v : Delivery)
    (hPub : x.type ≠ msgTypePub) :
    (start w o₁).received.count (v, x) = (start w o₂).received.count (v, x) := by
  rw [start_count h₁ v hPub, start_count h₂ v hPub,
    copies_eq fun d hd => congrArg (List.count v) (out_of_timely hT h₁ hPub hd),
    copies_eq fun d hd => congrArg (List.count v) (out_of_timely hT h₂ hPub hd)]
  by_cases hRec : x.Recorded
  · by_cases hCopied : Copied (Entrant.nodeOf l.actors) x
    · obtain ⟨n, hn, hNode, hName⟩ := Entrant.exists_of_nodeOf hCopied.1
      rw [hName] at hCopied
      have hIff : ((trace w {} o₁).map Prod.snd).find? (fun m => x.Repeats m) = some x ↔
          ((trace w {} o₂).map Prod.snd).find? (fun m => x.Repeats m) = some x :=
        ⟨length_of_timely hT h₁ h₂ hRec hn hNode hCopied, length_of_timely hT h₂ h₁ hRec hn hNode hCopied⟩
      simp only [effective_length_recorded hRec, hIff]
    · by_cases hMode : x.transMode = .kIntra
      · have hZero : ∀ es, (effective es x).length = 0 := fun es => by
          rw [effective_length_recorded hRec, if_neg fun hEq => by rw [hMode] at hEq; cases hEq.2]
        rw [hZero, hZero]
      · have hNil : (settled w l.actors).out x = [] := by
          rw [out_eq fun hIntra => hMode hIntra.2, localCopy, if_neg fun hNot => hNot.1 hRec.1, nodeCopy]
          exact if_neg hCopied
        rw [hNil, List.count_nil, Nat.mul_zero, Nat.mul_zero]
  · rw [effective_length_plain hRec, effective_length_plain hRec, (seq_perm h₁ h₂).count_eq]

theorem subs_perm (h₁ : o₁.Perm l.actors) (h₂ : o₂.Perm l.actors) (topic : String) :
    (((start w o₁).subs.lookup topic).map SubInfo.comName).Perm
      (((start w o₂).subs.lookup topic).map SubInfo.comName) := by
  have hSubs : ∀ {o : List Entrant}, o.Perm l.actors → (start w o).subs =
      ((trace w {} o).foldl (post w.walk) (({} : Startup).subs, ({} : Startup).received)).1 :=
    fun h => congrArg Prod.fst (exec_addAll (w := w) (admits h))
  rw [hSubs h₁, hSubs h₂]
  have hEmpty : ∀ key, ((({} : Startup).subs.lookup key).map SubInfo.comName).Nodup := fun _ => List.nodup_nil
  refine (List.perm_ext_iff_of_nodup (foldl_subs_nodup _ _ _ hEmpty topic)
    (foldl_subs_nodup _ _ _ hEmpty topic)).mpr fun c => ?_
  rw [foldl_subs_mem, foldl_subs_mem]
  refine or_congr_right (exists_congr fun m => and_congr_left fun _ => ?_)
  exact (seq_perm h₁ h₂).mem_iff

theorem orderFree_of_timely (hT : l.Timely) : OrderFree w l := by
  intro o₁ o₂ h₁ h₂
  exact agree_iff.mpr ⟨fun v x hPub => count_of_timely hT h₁ h₂ v hPub, subs_perm h₁ h₂⟩

theorem exists_perm {a b : Entrant} (ha : a ∈ l.actors) (hb : b ∈ l.actors) (hNe : a.name ≠ b.name) :
    ∃ rest, (a :: b :: rest).Perm l.actors := by
  have hb' : b ∈ l.actors.erase a := (List.mem_erase_of_ne fun hEq => hNe (by rw [hEq])).mpr hb
  exact ⟨(l.actors.erase a).erase b,
    ((List.perm_cons_erase hb').symm.cons a).trans (List.perm_cons_erase ha).symm⟩

theorem exists_perm_three {a b n : Entrant} (ha : a ∈ l.actors) (hb : b ∈ l.actors) (hn : n ∈ l.actors)
    (hAB : a.name ≠ b.name) (hNA : n.name ≠ a.name) (hNB : n.name ≠ b.name) :
    ∃ rest, (a :: b :: n :: rest).Perm l.actors := by
  obtain ⟨rest, hPerm⟩ := exists_perm ha hb hAB
  have hn' : n ∈ rest := by
    have hMem := hPerm.mem_iff.mpr hn
    rw [List.mem_cons, List.mem_cons] at hMem
    obtain rfl | rfl | hMem := hMem
    · exact absurd rfl hNA
    · exact absurd rfl hNB
    · exact hMem
  exact ⟨rest.erase n, (((List.perm_cons_erase hn').symm.cons b).cons a).trans hPerm⟩

theorem nodeAddr_first {n : Entrant} {rest : List Entrant} (h : (n :: rest).Perm l.actors)
    (hNode : n.typeName = "node") : ∀ e ∈ trace w {} (n :: rest), e.1.nodeAddr = n.name := by
  have hAccepts := (admits h).accepts
  have hEnter : (({} : Startup).enter n).nodeAddr = n.name := if_pos hNode
  have hNext : (({} : Startup).addActor w n).nodeAddr = n.name := (addActor_fields hAccepts).2.2.trans hEnter
  intro e he
  rw [trace, List.mem_append] at he
  obtain he | he := he
  · obtain ⟨m, -, rfl⟩ := List.mem_map.mp he
    exact hEnter
  · rw [← hNext]
    exact (built_empty.addActor hAccepts).trace_node (admits h).tail (hNext ▸ n.name_ne_empty) e he

theorem effective_length (h₁ : o₁.Perm l.actors) (h₂ : o₂.Perm l.actors)
    (hFind₁ : x.Recorded → ((trace w {} o₁).map Prod.snd).find? (fun m => x.Repeats m) = some x)
    (hFind₂ : x.Recorded → ((trace w {} o₂).map Prod.snd).find? (fun m => x.Repeats m) = some x) :
    (effective (trace w {} o₁) x).length = (effective (trace w {} o₂) x).length := by
  by_cases hYes : x.Recorded
  · rw [effective_length_recorded hYes, effective_length_recorded hYes, hFind₁ hYes, hFind₂ hYes]
  · rw [effective_length_plain hYes, effective_length_plain hYes, (seq_perm h₁ h₂).count_eq]

theorem lost_of_early {a b : Entrant} {rest : List Entrant} (h : (a :: b :: rest).Perm l.actors)
    (hA : a.typeName ≠ "node") (hB : b.typeName ≠ "node") (hx : x ∈ a.sends) (hDst : x.dst = b.name)
    (hMode : x.transMode ≠ .kIntra)
    (hFind : x.Recorded → ((trace w {} (a :: b :: rest)).map Prod.snd).find? (fun m => x.Repeats m) = some x) :
    ∃ d ∈ effective (trace w {} (a :: b :: rest)) x, d.nodeAddr = "" := by
  have hAdmits := admits h
  have hAdmits' := hAdmits.tail (w := w)
  obtain ⟨hCacheA, -, hAddrA⟩ := addActor_fields (w := w) hAdmits.accepts
  obtain ⟨hCacheB, -, -⟩ := addActor_fields (w := w) hAdmits'.accepts
  have hEmptyA : (({} : Startup).enter a).nodeAddr = "" := if_neg hA
  have hEmptyB : ((addActor w {} a).enter b).nodeAddr = "" := (if_neg hB).trans (hAddrA.trans hEmptyA)
  by_cases hRec : x.Recorded
  · have hHybrid : x.transMode = .kHybrid := hRec.2.resolve_left hMode
    have hLength : (effective (trace w {} (a :: b :: rest)) x).length = 1 := by
      rw [effective_length_recorded hRec, if_pos ⟨hFind hRec, hHybrid⟩]
    obtain ⟨d, hd⟩ := List.exists_mem_of_length_pos (hLength ▸ Nat.one_pos)
    refine ⟨d, hd, ?_⟩
    have hMem := (mem_of_effective hd).1
    rw [trace, trace, List.mem_append, List.mem_append] at hMem
    obtain hMem | hMem | hMem := hMem
    · obtain ⟨m, -, hEq⟩ := List.mem_map.mp hMem
      rw [← (Prod.mk.inj hEq).1]
      exact hEmptyA
    · obtain ⟨m, -, hEq⟩ := List.mem_map.mp hMem
      rw [← (Prod.mk.inj hEq).1]
      exact hEmptyB
    · exfalso
      have hNodup := nodup_order h
      rw [List.map_cons, List.nodup_cons] at hNodup
      have hOwner : ∀ c ∈ b :: rest, x ∉ c.sends := by
        intro c hc hSent
        have hEq := repeats_own (h.mem_iff.mp List.mem_cons_self) (h.mem_iff.mp (List.mem_cons_of_mem a hc)) hx hRec
          hSent ⟨hRec, rfl, rfl⟩
        exact hNodup.1 (hEq ▸ List.mem_map_of_mem hc)
      have hSeq := (trace_perm (w := w) hAdmits'.tail).mem_iff.mp (List.mem_map_of_mem hMem)
      rw [List.mem_append, hCacheB, later, List.mem_append] at hSeq
      obtain (hSeq | hSeq) | hSeq := hSeq
      · exact of_decide_eq_true (List.mem_filter.mp hSeq).2 hDst
      · exact hOwner b List.mem_cons_self (List.mem_of_mem_filter hSeq)
      · obtain ⟨c, hc, hSent⟩ := List.mem_flatMap.mp hSeq
        exact hOwner c (List.mem_cons_of_mem b hc) hSent
  · refine ⟨((addActor w {} a).enter b).directory w, ?_, hEmptyB⟩
    have hCached : x ∈ (addActor w {} a).cacheMsgs := by
      rw [hCacheA]
      refine List.mem_append_right _ (List.mem_filter.mpr ⟨hx, ?_⟩)
      rw [caches]
      cases hCase : x.transMode with
      | kIntra => exact absurd hCase hMode
      | kDDS | kHybrid => simp
    have hNow : x ∈ (addActor w {} a).now w b :=
      List.mem_append_left _ (List.mem_filter.mpr ⟨hCached, decide_eq_true hDst⟩)
    rw [effective, if_neg hRec]
    refine List.mem_map.mpr ⟨(_, x), List.mem_filter.mpr ⟨?_, decide_eq_true rfl⟩, rfl⟩
    rw [trace, trace]
    exact List.mem_append_right _ (List.mem_append_left _ (List.mem_map.mpr ⟨x, hNow, rfl⟩))

/-- The order in which the destination comes before the node loses the copy that the node gets when it
comes first. -/
theorem node_first_or_last (hFree : OrderFree w l) {a b n : Entrant} (ha : a ∈ l.actors) (hb : b ∈ l.actors)
    (hn : n ∈ l.actors) (hNode : n.typeName = "node") (hAB : a.name ≠ b.name) (hx : x ∈ a.sends)
    (hDst : x.dst = b.name) (hPub : x.type ≠ msgTypePub) (hCopied : Copied n.name x) (hLead : Leads a x) :
    n.name = a.name ∨ n.name = b.name := by
  by_contra hNot
  obtain ⟨hNA, hNB⟩ := not_or.mp hNot
  obtain ⟨rest, hLast⟩ := exists_perm_three ha hb hn hAB hNA hNB
  have hFirst : (n :: a :: b :: rest).Perm l.actors :=
    ((List.Perm.swap a n (b :: rest)).trans ((List.Perm.swap b n rest).cons a)).trans hLast
  have hIntra : ¬ (x.isSub ∧ x.transMode = .kIntra) := fun h => hCopied.2.1 h.2
  have hUser : ∀ {before after : List Entrant}, (before ++ a :: after).Perm l.actors →
      b.name ∉ before.map Entrant.name → userAt w before a x.dst ≠ true := by
    intro before after hPerm hBefore hUser
    rw [hDst, userAt_actor hPerm, List.map_append, decide_eq_true_iff, List.mem_append] at hUser
    exact hUser.elim hBefore fun hMem => hAB (List.mem_singleton.mp hMem).symm
  have hFirst' : ([n] ++ a :: b :: rest).Perm l.actors := hFirst
  have hLast' : ([] ++ a :: b :: n :: rest).Perm l.actors := hLast
  have hFindFirst : x.Recorded →
      ((trace w {} (n :: a :: b :: rest)).map Prod.snd).find? (fun m => x.Repeats m) = some x := fun hRec =>
    (seq_find hFirst' hx hRec hCopied.2.1).mpr ⟨hLead hRec, fun hYes =>
      absurd hYes (hUser hFirst' fun hMem => hNB (List.mem_singleton.mp hMem).symm)⟩
  have hFindLast : x.Recorded →
      ((trace w {} (a :: b :: n :: rest)).map Prod.snd).find? (fun m => x.Repeats m) = some x := fun hRec =>
    (seq_find hLast' hx hRec hCopied.2.1).mpr ⟨hLead hRec, fun hYes =>
      absurd hYes (hUser hLast' List.not_mem_nil)⟩
  have hCount := (agree_iff.mp (hFree _ _ hFirst hLast)).1 (.actor n.name) x hPub
  rw [start_count hFirst _ hPub, start_count hLast _ hPub] at hCount
  have hOne : copies (effective (trace w {} (n :: a :: b :: rest)) x) (.actor n.name) x =
      (effective (trace w {} (n :: a :: b :: rest)) x).length * 1 :=
    copies_eq fun d hd => (out_count hIntra (.inr (hDst ▸ Ne.symm hNB)) hCopied).1
      (nodeAddr_first hFirst hNode _ (mem_of_effective hd).1)
  have hType : ∀ c ∈ l.actors, n.name ≠ c.name → c.typeName ≠ "node" := fun c hc hNe hNodeC =>
    hNe (congrArg Entrant.name (l.oneNode n hn c hc hNode hNodeC))
  obtain ⟨d, hd, hEmpty⟩ := lost_of_early hLast (hType a ha hNA) (hType b hb hNB) hx hDst hCopied.2.1 hFindLast
  have hLess := copies_lt (v := .actor n.name) (fun e he => ?_) hd
    ((out_count hIntra (.inr (hDst ▸ Ne.symm hNB)) hCopied).2 hEmpty)
  · rw [effective_length hFirst hLast hFindFirst hFindLast] at hOne
    omega
  · have hAddr := (settled_trace hLast _ (mem_of_effective he).1).nodeAddr
    rw [nodeOf_eq hLast hn hNode] at hAddr
    obtain hAddr | ⟨hAddr, -⟩ := hAddr
    · exact ((out_count hIntra (.inr (hDst ▸ Ne.symm hNB)) hCopied).1 hAddr).le
    · exact ((out_count hIntra (.inr (hDst ▸ Ne.symm hNB)) hCopied).2 hAddr).trans_le (Nat.zero_le 1)

/-- A later subscription in the process overtakes where the destination is there already. -/
theorem first_stays (hFree : OrderFree w l) {a b n : Entrant} (ha : a ∈ l.actors) (hb : b ∈ l.actors)
    (hn : n ∈ l.actors) (hNode : n.typeName = "node") (hAB : a.name ≠ b.name) (hx : x ∈ a.sends)
    (hDst : x.dst = b.name) (hCopied : Copied n.name x) (hLead : Leads a x) (hRec : x.Recorded)
    (hEnd : n.name = a.name ∨ n.name = b.name) :
    ∀ m ∈ a.sends, x.Repeats m → m.transMode ≠ .kIntra := by
  intro m hm hRep hMode
  obtain ⟨rest, hPerm⟩ := exists_perm ha hb hAB
  have hPerm' : ([] ++ a :: b :: rest).Perm l.actors := hPerm
  have hSwap : ([b] ++ a :: rest).Perm l.actors := (List.Perm.swap a b rest).trans hPerm
  have hIntra : ¬ (x.isSub ∧ x.transMode = .kIntra) := fun h => hCopied.2.1 h.2
  have hHybrid : x.transMode = .kHybrid := hRec.2.resolve_left hCopied.2.1
  have hPub : x.type ≠ msgTypePub := by
    rw [show x.type = msgTypeSub from hRec.1]
    decide
  have hFind : ((trace w {} ([] ++ a :: b :: rest)).map Prod.snd).find? (fun m => x.Repeats m) = some x := by
    refine (seq_find hPerm' hx hRec hCopied.2.1).mpr ⟨hLead hRec, fun hUser => ?_⟩
    rw [hDst, userAt_actor hPerm', decide_eq_true_iff] at hUser
    exact absurd (List.mem_singleton.mp hUser).symm hAB
  have hNotFind : ¬ ((trace w {} ([b] ++ a :: rest)).map Prod.snd).find? (fun m => x.Repeats m) = some x := by
    intro hYes
    refine ((seq_find hSwap hx hRec hCopied.2.1).mp hYes).2 ?_ m hm hRep hMode
    rw [hDst, userAt_actor hSwap, decide_eq_true_iff]
    exact List.mem_cons_self
  have hCount := (agree_iff.mp (hFree _ _ hPerm' hSwap)).1 (.actor n.name) x hPub
  rw [start_count hPerm' _ hPub, start_count hSwap _ hPub] at hCount
  have hOne : copies (effective (trace w {} ([] ++ a :: b :: rest)) x) (.actor n.name) x =
      (effective (trace w {} ([] ++ a :: b :: rest)) x).length * 1 := by
    refine copies_eq fun d hd => (out_count hIntra (.inl hRec.1) hCopied).1 ?_
    have hAddr := (settled_trace hPerm' _ (mem_of_effective hd).1).nodeAddr
    rw [nodeOf_eq hPerm' hn hNode] at hAddr
    obtain hAddr | ⟨-, hIntra' | hEarly⟩ := hAddr
    · exact hAddr
    · exact absurd hIntra' hCopied.2.1
    · obtain ⟨a', ha', b', hb', n', hn', hNode', hx', hDst', -, hNA, hNB⟩ := hEarly
      obtain rfl := repeats_own ha (hPerm'.mem_iff.mp ha') hx hRec hx' ⟨hRec, rfl, rfl⟩
      obtain rfl := l.oneNode n hn n' (hPerm'.mem_iff.mp hn') hNode hNode'
      rw [← hDst', hDst] at hNB
      exact (hEnd.elim hNA hNB).elim
  have hZero : effective (trace w {} ([b] ++ a :: rest)) x = [] := by
    refine List.eq_nil_of_length_eq_zero ?_
    rw [effective_length_recorded hRec, if_neg fun h => hNotFind h.1]
  rw [hOne, hZero, effective_length_recorded hRec, if_pos ⟨hFind, hHybrid⟩] at hCount
  exact Nat.one_ne_zero hCount

theorem timely_of_orderFree (hFree : OrderFree w l) : l.Timely := by
  intro a ha b hb n hn hNode hAB x hx hDst hPub hCopied hLead
  have hEnd := node_first_or_last hFree ha hb hn hNode hAB hx hDst hPub hCopied hLead
  exact ⟨hEnd, fun hRec => first_stays hFree ha hb hn hNode hAB hx hDst hCopied hLead hRec hEnd⟩

/-- The order makes no difference just where every copy for the node is safe from it. -/
theorem orderFree_iff (w : Workers) (l : Lineup) : OrderFree w l ↔ l.Timely :=
  ⟨timely_of_orderFree, orderFree_of_timely⟩

/-- Two actors and the node. The one message is for an actor and, over the node, for another process. -/
def lateMsg : Msg := { src := "actor.a.1", dst := "actor.b.1", transMode := .kHybrid }

def sender : Entrant := ⟨"a", "1", [lateMsg], by decide, by decide⟩

def receiver : Entrant := ⟨"b", "1", [], by decide, by decide⟩

def node : Entrant := ⟨"node", "1", [], by decide, by decide⟩

def trio : Lineup := ⟨[sender, receiver, node], by decide, by decide⟩

/-- With the node last the message is flushed before there is a node. -/
theorem late_node_loses_copy : ¬ OrderFree {} trio := by
  intro hFree
  have hAgree := hFree [sender, receiver, node] [node, sender, receiver] (by decide) (by decide)
  have hCount := hAgree.1.count_eq (.actor "actor.node.1", lateMsg)
  exact absurd hCount (by decide)

end Lineup
end Myframe
