import Myframe.MsgManager

/-! # Subscriptions and the order of their modes

Whether a SUB goes on to the node is decided together with whether it is recorded: a repeat is not forwarded
whatever its mode.
-/
namespace Myframe
set_option autoImplicit false

namespace MsgManager

/-- The table the SUB messages leave, and those for which `AddSubInfo` returned true. -/
def addAll : MsgManager → List Msg → MsgManager × List Msg
  | s, [] => (s, [])
  | s, msg :: subs =>
    let rest := addAll (s.addSubInfo msg).1 subs
    (rest.1, if (s.addSubInfo msg).2 then msg :: rest.2 else rest.2)

def Local (m : Msg) : Prop := m.transMode = .kIntra ∨ m.transMode = .kHybrid

def Remote (m : Msg) : Prop := m.transMode = .kDDS ∨ m.transMode = .kHybrid

/-- The pair of a SUB: its subscriber and its topic. -/
def Of (c topic : String) (m : Msg) : Prop := m.src = c ∧ getTopicName m true = topic

instance (m : Msg) : Decidable (Local m) := inferInstanceAs (Decidable (_ ∨ _))

instance (m : Msg) : Decidable (Remote m) := inferInstanceAs (Decidable (_ ∨ _))

instance (c topic : String) (m : Msg) : Decidable (Of c topic m) := inferInstanceAs (Decidable (_ ∧ _))

def names (s : MsgManager) (topic : String) : List String := (s.lookup topic).map SubInfo.comName

/-- The node has been told of the pair. -/
def Announced (subs : List Msg) (c topic : String) : Prop := ∃ m ∈ (addAll empty subs).2, Of c topic m

instance (subs : List Msg) (c topic : String) : Decidable (Announced subs c topic) :=
  inferInstanceAs (Decidable (∃ m ∈ _, _))

/-- Of the SUBs of the pair that are recorded the first is `kHybrid`. -/
def HybridFirst (subs : List Msg) (c topic : String) : Prop :=
  ∃ m, subs.find? (fun m => Local m ∧ Of c topic m) = some m ∧ m.transMode = .kHybrid

theorem addSubInfo_names (s : MsgManager) (m : Msg) (c topic : String) :
    c ∈ (s.addSubInfo m).1.names topic ↔ c ∈ s.names topic ∨ Local m ∧ Of c topic m := by
  rw [names, addSubInfo_lookup]
  split
  · next hHit =>
    rw [mem_emplace]
    refine or_congr_right ⟨fun hc => ⟨hHit.1, hc.symm, hHit.2.symm⟩, fun h => h.2.1.symm⟩
  · next hMiss =>
    refine (or_iff_left ?_).symm
    rintro ⟨hLocal, -, rfl⟩
    exact hMiss ⟨hLocal, rfl⟩

theorem addSubInfo_nodup {s : MsgManager} (h : ∀ topic, (s.names topic).Nodup) (m : Msg) (topic : String) :
    ((s.addSubInfo m).1.names topic).Nodup := by
  rw [names, addSubInfo_lookup]
  split
  · exact emplace_nodup (h topic) _
  · exact h topic

theorem forwards_iff {s : MsgManager} {m : Msg} : (s.addSubInfo m).2 = true ↔
    m.transMode = .kDDS ∨ m.transMode = .kHybrid ∧ m.src ∉ s.names (getTopicName m true) := by
  rw [addSubInfo_forward, names, ← setFind_iff]
  cases m.transMode <;> simp

theorem mem_names_addAll (s : MsgManager) (subs : List Msg) (c topic : String) :
    c ∈ (addAll s subs).1.names topic ↔ c ∈ s.names topic ∨ ∃ m ∈ subs, Local m ∧ Of c topic m := by
  induction subs generalizing s with
  | nil => simp [addAll]
  | cons m subs ih =>
    simp only [addAll]
    rw [ih, addSubInfo_names, or_assoc, List.exists_mem_cons_iff]

theorem nodup_addAll {s : MsgManager} (h : ∀ topic, (s.names topic).Nodup) (subs : List Msg) (topic : String) :
    ((addAll s subs).1.names topic).Nodup := by
  induction subs generalizing s with
  | nil => exact h topic
  | cons m subs ih => exact ih (addSubInfo_nodup h m)

/-- A pair is announced by a `kDDS` SUB, or by a `kHybrid` one that is the first to be recorded. -/
theorem announces_iff (s : MsgManager) (subs : List Msg) (c topic : String) :
    (∃ m ∈ (addAll s subs).2, Of c topic m) ↔
      (∃ m ∈ subs, m.transMode = .kDDS ∧ Of c topic m) ∨ c ∉ s.names topic ∧ HybridFirst subs c topic := by
  induction subs generalizing s with
  | nil => simp [addAll, HybridFirst]
  | cons m subs ih =>
    have hHead : (∃ m' ∈ (addAll s (m :: subs)).2, Of c topic m') ↔
        (s.addSubInfo m).2 = true ∧ Of c topic m ∨ ∃ m' ∈ (addAll (s.addSubInfo m).1 subs).2, Of c topic m' := by
      simp only [addAll]
      split
      · next hForward => rw [List.exists_mem_cons_iff, and_iff_right hForward]
      · next hForward => rw [or_iff_right fun h => hForward h.1]
    rw [hHead, ih, addSubInfo_names, forwards_iff, List.exists_mem_cons_iff]
    by_cases hOf : Of c topic m
    · obtain ⟨rfl, rfl⟩ := hOf
      cases hMode : m.transMode with
      | kDDS => simp [Of, Local, hMode]
      | kIntra => simp [Of, Local, HybridFirst, hMode]
      | kHybrid => simp [Of, Local, HybridFirst, hMode, or_comm]
    · simp [hOf, HybridFirst]

theorem announced_iff {subs : List Msg} {c topic : String} : Announced subs c topic ↔
    (∃ m ∈ subs, m.transMode = .kDDS ∧ Of c topic m) ∨ HybridFirst subs c topic := by
  rw [Announced, announces_iff]
  exact or_congr_right (and_iff_right List.not_mem_nil)

def Announces (subs : List Msg) : Prop :=
  ∀ c topic, (∃ m ∈ subs, Remote m ∧ Of c topic m) → Announced subs c topic

def HoldsOnce (subs : List Msg) : Prop :=
  ∀ c topic, (∃ m ∈ subs, Local m ∧ Of c topic m) → ((addAll empty subs).1.names topic).count c = 1

def Agree (subs subs' : List Msg) : Prop :=
  (∀ topic, ((addAll empty subs).1.names topic).Perm ((addAll empty subs').1.names topic)) ∧
    ∀ c topic, Announced subs c topic ↔ Announced subs' c topic

/-- A pair with a `kHybrid` SUB has a `kDDS` one, or no `kIntra` one before. -/
def Leads (subs : List Msg) : Prop :=
  ∀ c topic, (∃ m ∈ subs, m.transMode = .kHybrid ∧ Of c topic m) →
    (∃ m ∈ subs, m.transMode = .kDDS ∧ Of c topic m) ∨ HybridFirst subs c topic

/-- A pair with a `kHybrid` and a `kIntra` SUB has a `kDDS` one, too. -/
def Unmixed (subs : List Msg) : Prop :=
  ∀ c topic, (∃ m ∈ subs, m.transMode = .kHybrid ∧ Of c topic m) →
    (∃ m ∈ subs, m.transMode = .kIntra ∧ Of c topic m) → ∃ m ∈ subs, m.transMode = .kDDS ∧ Of c topic m

variable {subs subs' : List Msg}

theorem nodup_names (subs : List Msg) (topic : String) : ((addAll empty subs).1.names topic).Nodup := by
  refine nodup_addAll (fun topic => ?_) subs topic
  rw [names]
  exact List.nodup_nil

theorem of_find {c topic : String} {m : Msg} (h : subs.find? (fun m => Local m ∧ Of c topic m) = some m) :
    m ∈ subs ∧ Local m ∧ Of c topic m := by
  have hMatch := List.find?_some h
  exact ⟨List.mem_of_find?_eq_some h, of_decide_eq_true hMatch⟩

theorem mem_names_iff {c topic : String} :
    c ∈ (addAll empty subs).1.names topic ↔ ∃ m ∈ subs, Local m ∧ Of c topic m := by
  rw [mem_names_addAll]
  exact or_iff_right List.not_mem_nil

theorem holdsOnce (subs : List Msg) : HoldsOnce subs := fun _ topic h =>
  List.count_eq_one_of_mem (nodup_names subs topic) (mem_names_iff.mpr h)

theorem announces_iff_leads : Announces subs ↔ Leads subs := by
  constructor
  · rintro hAll c topic ⟨m, hMem, hMode, hOf⟩
    exact announced_iff.mp (hAll c topic ⟨m, hMem, .inr hMode, hOf⟩)
  · rintro hLeads c topic ⟨m, hMem, hMode | hMode, hOf⟩
    · exact announced_iff.mpr (.inl ⟨m, hMem, hMode, hOf⟩)
    · exact announced_iff.mpr (hLeads c topic ⟨m, hMem, hMode, hOf⟩)

theorem Unmixed.perm (h : Unmixed subs) (hPerm : subs'.Perm subs) : Unmixed subs' := by
  intro c topic
  simp only [hPerm.mem_iff]
  exact h c topic

theorem Unmixed.leads (h : Unmixed subs) : Leads subs := by
  rintro c topic ⟨m, hMem, hMode, hOf⟩
  cases hFind : subs.find? (fun m => Local m ∧ Of c topic m) with
  | none =>
    have hNot := List.find?_eq_none.mp hFind m hMem
    exact absurd (decide_eq_true ⟨.inr hMode, hOf⟩) hNot
  | some m' =>
    obtain ⟨hMem', hIntra | hHybrid, hOf'⟩ := of_find hFind
    · exact .inl (h c topic ⟨m, hMem, hMode, hOf⟩ ⟨m', hMem', hIntra, hOf'⟩)
    · exact .inr ⟨m', hFind, hHybrid⟩

theorem Announces.agree (hPerm : subs'.Perm subs) (h : Announces subs) (h' : Announces subs') :
    Agree subs' subs := by
  have hRemote : ∀ {l : List Msg} {c topic : String}, Announced l c topic → ∃ m ∈ l, Remote m ∧ Of c topic m := by
    intro l c topic hAnnounced
    obtain ⟨m, hMem, hMode, hOf⟩ | ⟨m, hFind, hMode⟩ := announced_iff.mp hAnnounced
    · exact ⟨m, hMem, .inl hMode, hOf⟩
    · exact ⟨m, (of_find hFind).1, .inr hMode, (of_find hFind).2.2⟩
  constructor
  · intro topic
    refine (List.perm_ext_iff_of_nodup (nodup_names subs' topic) (nodup_names subs topic)).mpr fun c => ?_
    simp only [mem_names_iff, hPerm.mem_iff]
  · intro c topic
    constructor
    · intro hAnnounced
      obtain ⟨m, hMem, hBoth⟩ := hRemote hAnnounced
      exact h c topic ⟨m, hPerm.mem_iff.mp hMem, hBoth⟩
    · intro hAnnounced
      obtain ⟨m, hMem, hBoth⟩ := hRemote hAnnounced
      exact h' c topic ⟨m, hPerm.mem_iff.mpr hMem, hBoth⟩

/-- With the `kIntra` SUB in front the `kHybrid` one is taken for a repeat. -/
theorem unmixed_of_agree (h : ∀ subs' : List Msg, subs'.Perm subs → Agree subs' subs) : Unmixed subs := by
  rintro c topic ⟨m, hMem, hMode, hOf⟩ ⟨m', hMem', hMode', hOf'⟩
  by_contra hNone
  have hFirst : ∀ {x : Msg}, x ∈ subs → Local x ∧ Of c topic x →
      (Announced subs c topic ↔ x.transMode = .kHybrid) := by
    intro x hx hBoth
    have hPerm : (x :: subs.erase x).Perm subs := (List.perm_cons_erase hx).symm
    have hDds : ¬ ∃ m ∈ x :: subs.erase x, m.transMode = .kDDS ∧ Of c topic m := by
      simpa only [hPerm.mem_iff] using hNone
    have hFind : (x :: subs.erase x).find? (fun m => Local m ∧ Of c topic m) = some x :=
      List.find?_cons_of_pos (decide_eq_true hBoth)
    rw [← (h _ hPerm).2 c topic, announced_iff, or_iff_right hDds, HybridFirst, hFind]
    simp
  have hYes := (hFirst hMem ⟨.inr hMode, hOf⟩).mpr hMode
  have hNo := (hFirst hMem' ⟨.inl hMode', hOf'⟩).mp hYes
  rw [hMode'] at hNo
  cases hNo

/-- The table is right in any order; what the node is told depends on it where a pair asks for two modes. -/
theorem modes_account (subs : List Msg) :
    HoldsOnce subs ∧ (Announces subs ↔ Leads subs) ∧
      ((∀ subs' : List Msg, subs'.Perm subs → Announces subs' ∧ Agree subs' subs) ↔ Unmixed subs) := by
  refine ⟨holdsOnce subs, announces_iff_leads, fun h => unmixed_of_agree fun l hPerm => (h l hPerm).2, ?_⟩
  intro h subs' hPerm
  have hAnnounces := announces_iff_leads.mpr h.leads
  have hAnnounces' := announces_iff_leads.mpr (h.perm hPerm).leads
  exact ⟨hAnnounces', hAnnounces.agree hPerm hAnnounces'⟩

def subscription (mode : TransMode) : Msg :=
  { src := "actor.b.1", dst := "actor.a.1", name := "text", type := msgTypeSub, transMode := mode }

/-- The node never hears of the second of two subscriptions. -/
theorem intra_hides_hybrid : ¬ Announces [subscription .kIntra, subscription .kHybrid] := by
  intro hAll
  have hAnnounced := hAll "actor.b.1" "actor.a.1.text"
    ⟨subscription .kHybrid, by decide, by decide, by decide⟩
  revert hAnnounced
  decide

end MsgManager
end Myframe
