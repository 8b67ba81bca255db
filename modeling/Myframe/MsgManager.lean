import Myframe.Msg
import Myframe.Common
import Mathlib.Data.List.Perm.Basic
import Mathlib.Data.List.Nodup
import Mathlib.Logic.Function.Basic

/-! # Subscriptions

The table from topics to subscribers. A hash table is read as a partial function and a hash set as
the list of its elements in the order of insertion; the order in which the set is walked is not
fixed by the language, so it is a parameter.
-/
namespace Myframe
set_option autoImplicit false
open Common

/-- Two entries are equal when their `comName` is. -/
structure SubInfo where
  comName : String
  msgName : String
  deriving DecidableEq, Repr

/-- One order of walking each set. -/
structure SetWalk where
  order : List SubInfo → List SubInfo
  perm : ∀ l, (order l).Perm l

def SetWalk.stored : SetWalk where
  order := id
  perm _ := .refl _

structure MsgManager where
  subList : String → Option (List SubInfo)

namespace MsgManager

def empty : MsgManager := ⟨fun _ => none⟩

def topicName (addr name : String) : String :=
  if addr = "" then "" else if name ≠ "" then addr ++ "." ++ name else addr

def getTopicName (msg : Msg) (subMsg : Bool) : String :=
  topicName (if subMsg then msg.dst else msg.src) msg.name

def setFind (set : List SubInfo) (comName : String) : Bool := set.any (·.comName = comName)

def emplace (set : List SubInfo) (info : SubInfo) : List SubInfo :=
  if setFind set info.comName then set else set ++ [info]

/-- `sub_list_[topic]`: a missing entry reads as the empty set. -/
def lookup (s : MsgManager) (topic : String) : List SubInfo := (s.subList topic).getD []

def set (s : MsgManager) (topic : String) (l : List SubInfo) : MsgManager :=
  ⟨Function.update s.subList topic (some l)⟩

def addSubInfo (s : MsgManager) (msg : Msg) : MsgManager × Bool :=
  let topic := getTopicName msg true
  let tm := msg.transMode
  let info : SubInfo := ⟨msg.src, msg.name⟩
  let forward := decide (tm = .kDDS ∨ tm = .kHybrid)
  if tm = .kIntra ∨ tm = .kHybrid then
    match s.subList topic with
    | none => (s.set topic (emplace [] info), forward)
    | some l => if setFind l info.comName then (s, false) else (s.set topic (emplace l info), forward)
  else (s, forward)

def addPubInfo (s : MsgManager) (msg : Msg) : Bool :=
  if msg.transMode = .kIntra then (s.subList (getTopicName msg false)).isSome else true

/-- The calls of the callback, in their order. The lookup leaves an empty entry behind. -/
def dispatchPubMsg (w : SetWalk) (s : MsgManager) (msg : Msg) :
    MsgManager × List (String × TransMode) :=
  let topic := getTopicName msg false
  let tm := msg.transMode
  let intra := tm = .kIntra ∨ tm = .kHybrid
  let dds := tm = .kDDS ∨ tm = .kHybrid
  (if intra then s.set topic (s.lookup topic) else s,
    (if intra then (w.order (s.lookup topic)).map fun i => (i.comName, TransMode.kIntra) else []) ++
      if dds then [("", TransMode.kDDS)] else [])

/-- What becomes of a message of the two types in `App::DispatchMsg`: whether a SUB goes on to the
node, and the calls made for a PUB. -/
def outcome (w : SetWalk) (s : MsgManager) (msg : Msg) : MsgManager × Bool × List (String × TransMode) :=
  if msg.type = msgTypeSub then ((s.addSubInfo msg).1, (s.addSubInfo msg).2, [])
  else if msg.type = msgTypePub then
    if s.addPubInfo msg then ((s.dispatchPubMsg w msg).1, false, (s.dispatchPubMsg w msg).2)
    else (s, false, [])
  else (s, false, [])

def after (w : SetWalk) (history : List Msg) (s : MsgManager) : MsgManager :=
  history.foldl (fun s msg => (s.outcome w msg).1) s

end MsgManager

/-- Three parts without inner dots. -/
def ThreePart (addr : String) : Prop :=
  ∃ a b c, DotFree a ∧ DotFree b ∧ DotFree c ∧ addr = address a b c

namespace MsgManager

theorem append_dot_inj {a a' x x' : List Char} (ha : '.' ∉ a) (ha' : '.' ∉ a')
    (h : a ++ '.' :: x = a' ++ '.' :: x') : a = a' ∧ x = x' := by
  have hSplit := congrArg (splitLoop []) h
  rw [splitLoop_dotFree [] a ha, splitLoop_dotFree [] a' ha'] at hSplit
  have hHead : a = a' := by simpa using (List.cons.inj hSplit).1
  subst hHead
  exact ⟨rfl, (List.cons.inj (List.append_cancel_left h)).2⟩

/-- A dot after three parts can only start the name. -/
theorem not_dotFree_of_append {c r c' : List Char} (hc' : '.' ∉ c') : c ++ '.' :: r ≠ c' := by
  rintro rfl
  simp at hc'

theorem topicName_toList {addr name : String} (h : ThreePart addr) :
    (topicName addr name).toList =
      addr.toList ++ if name = "" then [] else '.' :: name.toList := by
  have hNe : addr ≠ "" := by
    obtain ⟨a, b, c, -, -, -, rfl⟩ := h
    intro hEmpty
    have hLength := congrArg (fun s => s.toList.length) hEmpty
    simp [address_toList] at hLength
  rw [topicName, if_neg hNe]
  split
  · simp [*, String.toList_append]
  · simp [*]

/-- The key of the table determines address and name. -/
theorem topicName_inj {addr addr' name name' : String} (h : ThreePart addr) (h' : ThreePart addr')
    (hEq : topicName addr name = topicName addr' name') : addr = addr' ∧ name = name' := by
  have hList := congrArg String.toList hEq
  rw [topicName_toList h, topicName_toList h'] at hList
  obtain ⟨a, b, c, ha, hb, hc, rfl⟩ := h
  obtain ⟨a', b', c', ha', hb', hc', rfl⟩ := h'
  simp only [address_toList, List.append_assoc, List.cons_append] at hList
  obtain ⟨hA, hTail⟩ := append_dot_inj ha ha' hList
  obtain ⟨hB, hLast⟩ := append_dot_inj hb hb' hTail
  obtain rfl := String.toList_inj.mp hA
  obtain rfl := String.toList_inj.mp hB
  clear hList hTail
  split at hLast <;> split at hLast
  · next hName hName' =>
    simp only [List.append_nil] at hLast
    obtain rfl := String.toList_inj.mp hLast
    exact ⟨rfl, hName.trans hName'.symm⟩
  · rw [List.append_nil] at hLast
    exact absurd hLast.symm (not_dotFree_of_append hc)
  · rw [List.append_nil] at hLast
    exact absurd hLast (not_dotFree_of_append hc')
  · obtain ⟨hC, hName⟩ := append_dot_inj hc hc' hLast
    obtain rfl := String.toList_inj.mp hC
    exact ⟨rfl, String.toList_inj.mp hName⟩

theorem lookup_set (s : MsgManager) (topic key : String) (l : List SubInfo) :
    (s.set topic l).lookup key = if key = topic then l else s.lookup key := by
  change (Function.update s.subList topic (some l) key).getD [] = _
  rw [Function.update_apply]
  split <;> rfl

theorem setFind_iff {l : List SubInfo} {c : String} : setFind l c = true ↔ c ∈ l.map SubInfo.comName := by
  simp [setFind]

/-- Adding a subscriber twice is adding it once. -/
theorem addSubInfo_lookup (s : MsgManager) (msg : Msg) (key : String) :
    (s.addSubInfo msg).1.lookup key =
      if (msg.transMode = .kIntra ∨ msg.transMode = .kHybrid) ∧ key = getTopicName msg true then
        emplace (s.lookup key) ⟨msg.src, msg.name⟩
      else s.lookup key := by
  unfold addSubInfo
  by_cases hMode : msg.transMode = .kIntra ∨ msg.transMode = .kHybrid
  · simp only [hMode, if_true, true_and]
    split
    · next hNone =>
      rw [lookup_set]
      split
      · next hKey => rw [hKey, lookup, hNone, Option.getD_none]
      · rfl
    · next l hSome =>
      have hAt : s.lookup (getTopicName msg true) = l := by rw [lookup, hSome, Option.getD_some]
      split
      · next hFind =>
        split
        · next hKey => rw [hKey, hAt, emplace, if_pos hFind]
        · rfl
      · rw [lookup_set]
        split
        · next hKey => rw [hKey, hAt]
        · rfl
  · simp [hMode]

theorem addSubInfo_forward (s : MsgManager) (msg : Msg) :
    (s.addSubInfo msg).2 =
      (decide (msg.transMode = .kDDS ∨ msg.transMode = .kHybrid) &&
        !(decide (msg.transMode = .kIntra ∨ msg.transMode = .kHybrid) &&
          setFind (s.lookup (getTopicName msg true)) msg.src)) := by
  unfold addSubInfo lookup
  by_cases hMode : msg.transMode = .kIntra ∨ msg.transMode = .kHybrid
  · simp only [hMode, if_true, decide_true, Bool.true_and]
    split
    · next hNone => simp [hNone, setFind]
    · next l hSome =>
      rw [hSome, Option.getD_some]
      split
      · next hFind => simp [hFind]
      · next hFind => simp [Bool.not_eq_true _ ▸ hFind]
  · simp [hMode]

theorem dispatchPubMsg_lookup (w : SetWalk) (s : MsgManager) (msg : Msg) (key : String) :
    (s.dispatchPubMsg w msg).1.lookup key = s.lookup key := by
  simp only [dispatchPubMsg]
  split
  · rw [lookup_set]
    split
    · next hKey => rw [hKey]
    · rfl
  · rfl

/-- A PUB that `AddPubInfo` drops would have made no call anyway. -/
theorem outcome_pub {w : SetWalk} {s : MsgManager} {msg : Msg} (h : msg.type = msgTypePub) :
    (s.outcome w msg).2 = (false, (s.dispatchPubMsg w msg).2) := by
  have hSub : msg.type ≠ msgTypeSub := by rw [h]; decide
  rw [outcome, if_neg hSub, if_pos h]
  split
  · rfl
  · next hAdd =>
    have hMode : msg.transMode = .kIntra := by
      by_contra hNot
      exact hAdd (by rw [addPubInfo, if_neg hNot])
    have hNone : s.subList (getTopicName msg false) = none := by
      rw [addPubInfo, if_pos hMode] at hAdd
      simpa using hAdd
    have hNil : w.order [] = [] := List.perm_nil.mp (w.perm [])
    simp [dispatchPubMsg, hMode, lookup, hNone, hNil]

/-- The sets held for each topic, whether or not the table has an entry for it. -/
def Same (s t : MsgManager) : Prop := ∀ key, s.lookup key = t.lookup key

theorem outcome_lookup (w : SetWalk) (s : MsgManager) (msg : Msg) (key : String) :
    (s.outcome w msg).1.lookup key =
      if msg.type = msgTypeSub then (s.addSubInfo msg).1.lookup key else s.lookup key := by
  unfold outcome
  split
  · rfl
  · split
    · split
      · exact dispatchPubMsg_lookup w s msg key
      · rfl
    · rfl

theorem Same.outcome {s t : MsgManager} (h : Same s t) (w : SetWalk) (msg : Msg) :
    (s.outcome w msg).2 = (t.outcome w msg).2 ∧ Same (s.outcome w msg).1 (t.outcome w msg).1 := by
  constructor
  · by_cases hSub : msg.type = msgTypeSub
    · simp only [MsgManager.outcome, if_pos hSub, addSubInfo_forward, h (getTopicName msg true)]
    · by_cases hPub : msg.type = msgTypePub
      · rw [outcome_pub hPub, outcome_pub hPub]
        simp only [dispatchPubMsg, h (getTopicName msg false)]
      · simp only [MsgManager.outcome, if_neg hSub, if_neg hPub]
  · intro key
    rw [outcome_lookup, outcome_lookup, addSubInfo_lookup, addSubInfo_lookup, h key]

theorem Same.after {s t : MsgManager} (h : Same s t) (w : SetWalk) (later : List Msg) :
    Same (after w later s) (after w later t) := by
  induction later generalizing s t with
  | nil => exact h
  | cons msg later ih => exact ih (h.outcome w msg).2

/-- Whether `c` asked for the local messages `name` of `addr`. -/
def Subscribed (history : List Msg) (c addr name : String) : Prop :=
  ∃ msg ∈ history, msg.type = msgTypeSub ∧ (msg.transMode = .kIntra ∨ msg.transMode = .kHybrid) ∧
    msg.src = c ∧ msg.dst = addr ∧ msg.name = name

/-- Subscribed to and publishing addresses have three parts. -/
def Addressed (msg : Msg) : Prop :=
  (msg.type = msgTypeSub → ThreePart msg.dst) ∧ (msg.type = msgTypePub → ThreePart msg.src)

/-- The table agrees with the history. -/
structure Records (history : List Msg) (s : MsgManager) : Prop where
  nodup : ∀ key, ((s.lookup key).map SubInfo.comName).Nodup
  mem_iff : ∀ addr name c, ThreePart addr →
    (c ∈ (s.lookup (topicName addr name)).map SubInfo.comName ↔ Subscribed history c addr name)

theorem Records.empty : Records [] empty where
  nodup _ := List.nodup_nil
  mem_iff _ _ _ _ := by simp [lookup, MsgManager.empty, Subscribed]

theorem emplace_nodup {l : List SubInfo} (h : (l.map SubInfo.comName).Nodup) (info : SubInfo) :
    ((emplace l info).map SubInfo.comName).Nodup := by
  unfold emplace
  split
  · exact h
  · next hFind =>
    rw [setFind_iff] at hFind
    rw [List.map_append, List.nodup_append]
    refine ⟨h, List.nodup_singleton _, ?_⟩
    intro c hc d hd hcd
    rw [List.map_singleton, List.mem_singleton] at hd
    exact hFind (hd ▸ hcd ▸ hc)

theorem mem_emplace {l : List SubInfo} {info : SubInfo} {c : String} :
    c ∈ (emplace l info).map SubInfo.comName ↔ c ∈ l.map SubInfo.comName ∨ c = info.comName := by
  unfold emplace
  split
  · next hFind =>
    rw [setFind_iff] at hFind
    exact ⟨.inl, fun h => h.elim id (· ▸ hFind)⟩
  · rw [List.map_append, List.map_singleton, List.mem_append, List.mem_singleton]

theorem Records.outcome {history : List Msg} {s : MsgManager} (h : Records history s) (w : SetWalk)
    {msg : Msg} (hMsg : Addressed msg) : Records (history ++ [msg]) (s.outcome w msg).1 where
  nodup key := by
    rw [outcome_lookup, addSubInfo_lookup]
    split
    · split
      · exact emplace_nodup (h.nodup key) _
      · exact h.nodup key
    · exact h.nodup key
  mem_iff addr name c hAddr := by
    have hSplit : Subscribed (history ++ [msg]) c addr name ↔ Subscribed history c addr name ∨
        (msg.type = msgTypeSub ∧ (msg.transMode = .kIntra ∨ msg.transMode = .kHybrid) ∧
          msg.src = c ∧ msg.dst = addr ∧ msg.name = name) := by
      simp only [Subscribed, List.mem_append, List.mem_singleton]
      constructor
      · rintro ⟨m, hm | rfl, hRest⟩
        · exact .inl ⟨m, hm, hRest⟩
        · exact .inr hRest
      · rintro (⟨m, hm, hRest⟩ | hRest)
        · exact ⟨m, .inl hm, hRest⟩
        · exact ⟨msg, .inr rfl, hRest⟩
    rw [hSplit, outcome_lookup, addSubInfo_lookup]
    by_cases hSub : msg.type = msgTypeSub
    · rw [if_pos hSub]
      have hKey : topicName addr name = getTopicName msg true ↔ msg.dst = addr ∧ msg.name = name := by
        constructor
        · intro hEq
          obtain ⟨hDst, hName⟩ := topicName_inj hAddr (hMsg.1 hSub) hEq
          exact ⟨hDst.symm, hName.symm⟩
        · rintro ⟨rfl, rfl⟩
          rfl
      split
      · next hHit => rw [mem_emplace, h.mem_iff addr name c hAddr]; grind
      · next hMiss => rw [h.mem_iff addr name c hAddr]; grind
    · rw [if_neg hSub, h.mem_iff addr name c hAddr]
      simp [hSub]

theorem Records.after {history : List Msg} {s : MsgManager} (h : Records history s) (w : SetWalk)
    (later : List Msg) (hLater : ∀ msg ∈ later, Addressed msg) :
    Records (history ++ later) (after w later s) := by
  induction later generalizing history s with
  | nil => rwa [List.append_nil]
  | cons msg later ih =>
    obtain ⟨hMsg, hLater⟩ := List.forall_mem_cons.mp hLater
    have hNext := ih (h.outcome w hMsg) hLater
    rwa [List.append_assoc, List.singleton_append] at hNext

/-- The calls a PUB is to make. -/
def Reaches (history : List Msg) (msg : Msg) (call : String × TransMode) : Prop :=
  (call.2 = .kIntra ∧ (msg.transMode = .kIntra ∨ msg.transMode = .kHybrid) ∧
    Subscribed history call.1 msg.src msg.name) ∨
  (call = ("", .kDDS) ∧ (msg.transMode = .kDDS ∨ msg.transMode = .kHybrid))

theorem mem_calls {w : SetWalk} {s : MsgManager} {msg : Msg} {call : String × TransMode} :
    call ∈ (s.dispatchPubMsg w msg).2 ↔
      (call.2 = .kIntra ∧ (msg.transMode = .kIntra ∨ msg.transMode = .kHybrid) ∧
        call.1 ∈ (s.lookup (getTopicName msg false)).map SubInfo.comName) ∨
      (call = ("", .kDDS) ∧ (msg.transMode = .kDDS ∨ msg.transMode = .kHybrid)) := by
  obtain ⟨c, mode⟩ := call
  simp only [dispatchPubMsg, List.mem_append]
  apply or_congr
  · split
    · next hIntra =>
      simp only [List.mem_map, (w.perm _).mem_iff, Prod.mk.injEq, hIntra, true_and]
      constructor
      · rintro ⟨i, hi, rfl, rfl⟩
        exact ⟨rfl, i, hi, rfl⟩
      · rintro ⟨rfl, i, hi, rfl⟩
        exact ⟨i, hi, rfl, rfl⟩
    · next hIntra => simp [hIntra]
  · split
    · next hDds => simp [hDds]
    · next hDds => simp [hDds]

theorem calls_nodup {w : SetWalk} {s : MsgManager} {msg : Msg}
    (h : ((s.lookup (getTopicName msg false)).map SubInfo.comName).Nodup) :
    (s.dispatchPubMsg w msg).2.Nodup := by
  have hWalk : ((w.order (s.lookup (getTopicName msg false))).map SubInfo.comName).Nodup :=
    ((w.perm _).map _).nodup_iff.mpr h
  have hIntra := hWalk.map (f := fun c => (c, TransMode.kIntra)) (fun _ _ hEq => (Prod.mk.inj hEq).1)
  rw [List.map_map] at hIntra
  simp only [dispatchPubMsg, List.nodup_append]
  refine ⟨?_, ?_, ?_⟩
  · split
    · exact hIntra
    · exact List.nodup_nil
  · split
    · exact List.nodup_singleton _
    · exact List.nodup_nil
  · intro x hx y hy hxy
    split at hx <;> split at hy <;> simp_all

/-- A PUB calls back once for each subscriber of its topic and once for the node when its mode says
so, and no later message meets another fate because of it. -/
theorem outcome_reaches (w : SetWalk) (history : List Msg) (hHistory : ∀ msg ∈ history, Addressed msg)
    (msg : Msg) (hPub : msg.type = msgTypePub) (hSrc : ThreePart msg.src) :
    ((after w history empty).outcome w msg).2.2.Nodup ∧
    (∀ call, call ∈ ((after w history empty).outcome w msg).2.2 ↔ Reaches history msg call) ∧
    ∀ later next, ((after w (history ++ msg :: later) empty).outcome w next).2 =
      ((after w (history ++ later) empty).outcome w next).2 := by
  have hRecords : Records history (after w history empty) := Records.empty.after w history hHistory
  rw [outcome_pub hPub]
  refine ⟨calls_nodup (hRecords.nodup _), fun call => ?_, fun later next => ?_⟩
  · rw [mem_calls, Reaches, ← hRecords.mem_iff msg.src msg.name call.1 hSrc]
    rfl
  · have hSame : Same ((after w history empty).outcome w msg).1 (after w history empty) := by
      intro key
      have hSub : msg.type ≠ msgTypeSub := by rw [hPub]; decide
      rw [outcome_lookup, if_neg hSub]
    have hAfter := hSame.after w later
    simp only [after, List.foldl_append, List.foldl_cons] at hAfter ⊢
    exact (hAfter.outcome w next).1

/-- Two topics of one publisher, one of them with a dotted name. -/
def dottedHistory : List Msg :=
  [{ src := "actor.b.1", dst := "actor.a.1", name := "x.y", type := msgTypeSub },
    { src := "actor.c.1", dst := "actor.a.1", name := "x", type := msgTypeSub }]

def dottedPub : Msg :=
  { src := "actor.a.1", name := "x.y", type := msgTypePub, transMode := .kHybrid }

theorem outcome_reaches_dotted :
    ("actor.b.1", TransMode.kIntra) ∈
        ((after ⟨id, fun _ => .refl _⟩ dottedHistory empty).outcome ⟨id, fun _ => .refl _⟩ dottedPub).2.2 ∧
      ("actor.c.1", TransMode.kIntra) ∉
        ((after ⟨id, fun _ => .refl _⟩ dottedHistory empty).outcome ⟨id, fun _ => .refl _⟩ dottedPub).2.2 := by
  have hAddr : ThreePart "actor.a.1" := ⟨"actor", "a", "1", by decide, by decide, by decide, by decide⟩
  have hHistory : ∀ msg ∈ dottedHistory, Addressed msg := by
    intro msg hMsg
    obtain rfl | rfl := List.mem_pair.mp hMsg <;> exact ⟨fun _ => hAddr, fun h => absurd h (by decide)⟩
  obtain ⟨-, hCalls, -⟩ :=
    outcome_reaches ⟨id, fun _ => .refl _⟩ dottedHistory hHistory dottedPub rfl hAddr
  simp only [hCalls, Reaches, Subscribed]
  decide

end MsgManager
end Myframe
