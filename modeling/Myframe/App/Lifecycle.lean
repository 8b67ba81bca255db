import Myframe.Library.Transition
import Myframe.CmdChannel
import Mathlib.Logic.Function.Basic
import Mathlib.Data.List.Perm.Basic
import Mathlib.Data.Int.Order.Basic
import Mathlib.Data.Fintype.Basic

/-! # Start and end of an application

`Init`, `AddWorker`, `Exec` and `Quit` may run in threads of their own. They are split at the check of
`state_`, at what they store there, at each change of the event manager and at each send. The `AddWorker`
calls that `Init` makes are among all the others.
-/
namespace Myframe
set_option autoImplicit false

inductive AppState where
  | kUninitialized
  | kInitialized
  | kRunning
  | kQuitting
  | kQuit
  deriving DecidableEq, Repr

inductive InitPc where
  | start
  | checked
  | returned
  deriving DecidableEq, Repr

/-- Where the one `AddWorker` call for a worker stands. -/
inductive AddWorkerPc where
  | start
  | checked
  | noded
  | added
  | counted
  | polled
  | started
  | refused
  deriving DecidableEq, Repr

/-- `sending` holds the list that `StopAllWorker` has got and what of it is still to be served. A call
that its check has turned away is `skipped`. -/
inductive QuitPc (ω : Type) where
  | start
  | checked
  | stored
  | sending (workers rest : List ω)
  | returned
  | skipped
  deriving DecidableEq, Repr

inductive ExecPc (ω : Type) where
  | start
  | checked
  | loop
  | deleted (w : ω)
  | left
  | cleared
  deriving DecidableEq, Repr

/-- `evs` are the workers in the event manager, `consumed` those that have taken a `kQuit` from their
channel, `ended` those whose thread has sent its final command. -/
structure Lifecycle (ω θ : Type) where
  state : AppState := .kUninitialized
  inits : θ → InitPc := fun _ => .start
  adds : ω → AddWorkerPc := fun _ => .start
  quits : θ → QuitPc ω := fun _ => .start
  exec : ExecPc ω := .start
  evs : List ω := []
  curWorkerCount : ℤ := 0
  node : Bool := false
  toOwner : ω → List Cmd := fun _ => []
  consumed : ω → Bool := fun _ => false
  ended : ω → Bool := fun _ => false

namespace Lifecycle

inductive Label (ω θ : Type) where
  | init (i : θ)
  | addWorker (w : ω)
  | pollerFails (w : ω)
  | quit (q : θ)
  | snapshot (q : θ) (workers : List ω)
  | exec
  | quitEvent (w : ω)
  | reply (w : ω) (cmd : Cmd)
  | take (w : ω)
  | exit (w : ω)

variable {ω θ : Type} [DecidableEq ω] [DecidableEq θ]

def setAdd (s : Lifecycle ω θ) (w : ω) (pc : AddWorkerPc) : Lifecycle ω θ :=
  { s with adds := Function.update s.adds w pc }

def setQuit (s : Lifecycle ω θ) (q : θ) (pc : QuitPc ω) : Lifecycle ω θ :=
  { s with quits := Function.update s.quits q pc }

def sendToOwner (s : Lifecycle ω θ) (w : ω) (cmd : Cmd) : Lifecycle ω θ :=
  { s with toOwner := Function.update s.toOwner w (s.toOwner w ++ [cmd]) }

def init (s : Lifecycle ω θ) (i : θ) : Lifecycle ω θ :=
  match s.inits i with
  | .start =>
    { s with
      inits := Function.update s.inits i (if s.state = .kUninitialized then .checked else .returned) }
  | .checked => { s with inits := Function.update s.inits i .returned, state := .kInitialized }
  | .returned => s

def addWorker (isNode : ω → Bool) (s : Lifecycle ω θ) (w : ω) : Lifecycle ω θ :=
  match s.adds w with
  | .start =>
    s.setAdd w
      (match s.state with
      | .kUninitialized | .kQuitting | .kQuit => .refused
      | .kInitialized | .kRunning => .checked)
  | .checked =>
    if isNode w then
      if s.node then s.setAdd w .refused else { s.setAdd w .noded with node := true }
    else s.setAdd w .noded
  | .noded =>
    if w ∈ s.evs then s.setAdd w .refused else { s.setAdd w .added with evs := s.evs ++ [w] }
  | .added => { s.setAdd w .counted with curWorkerCount := s.curWorkerCount + 1 }
  | .counted => s.setAdd w .polled
  | .polled => s.setAdd w .started
  | .started | .refused => s

def quit (s : Lifecycle ω θ) (q : θ) : Lifecycle ω θ :=
  match s.quits q with
  | .start =>
    s.setQuit q
      (match s.state with
      | .kInitialized | .kRunning => .checked
      | .kUninitialized | .kQuitting | .kQuit => .skipped)
  | .checked => { s.setQuit q .stored with state := .kQuitting }
  | .sending workers (w :: rest) => (s.setQuit q (.sending workers rest)).sendToOwner w .kQuit
  | .sending _ [] => s.setQuit q .returned
  | .stored | .returned | .skipped => s

/-- One step of `Exec`. The calls that dispatch messages change nothing here. -/
def execStep (s : Lifecycle ω θ) : Lifecycle ω θ :=
  match s.exec with
  | .start =>
    { s with
      exec :=
        match s.state with
        | .kInitialized | .kQuitting => .checked
        | .kUninitialized | .kRunning | .kQuit => .start }
  | .checked => { s with exec := .loop, state := .kRunning }
  | .loop => if s.curWorkerCount = 0 then { s with exec := .left } else s
  | .deleted _ => { s with exec := .loop, curWorkerCount := s.curWorkerCount - 1 }
  | .left => { s with exec := .cleared, evs := [] }
  | .cleared => { s with exec := .start, state := .kQuit }

def next (isNode : ω → Bool) (s : Lifecycle ω θ) : Label ω θ → Lifecycle ω θ
  | .init i => s.init i
  | .addWorker w => s.addWorker isNode w
  | .pollerFails w => s.setAdd w .refused
  | .quit q => s.quit q
  | .snapshot q workers => s.setQuit q (.sending workers workers)
  | .exec => s.execStep
  | .quitEvent w => { s with exec := .deleted w, evs := s.evs.erase w }
  | .reply w cmd => s.sendToOwner w cmd
  | .take w =>
    { s with
      toOwner := Function.update s.toOwner w (s.toOwner w).tail
      consumed := Function.update s.consumed w (s.consumed w || (s.toOwner w).head? == some .kQuit) }
  | .exit w => { s with ended := Function.update s.ended w true }

/-- The map of events is walked in any order. -/
def enabled (s : Lifecycle ω θ) : Label ω θ → Prop
  | .init i => s.inits i ≠ .returned
  | .addWorker w => s.adds w ≠ .started ∧ s.adds w ≠ .refused
  | .pollerFails w => s.adds w = .counted
  | .quit q => s.quits q ≠ .stored ∧ s.quits q ≠ .returned ∧ s.quits q ≠ .skipped
  | .snapshot q workers => s.quits q = .stored ∧ workers.Perm s.evs
  | .exec => True
  | .quitEvent w => s.exec = .loop ∧ w ∈ s.evs ∧ s.ended w = true
  | .reply w cmd => s.exec = .loop ∧ w ∈ s.evs ∧ cmd ≠ .kQuit
  | .take w => s.adds w = .started ∧ s.ended w = false ∧ s.toOwner w ≠ []
  | .exit w => s.adds w = .started ∧ s.ended w = false

def system (isNode : ω → Bool) : Transition.System (Lifecycle ω θ) (Label ω θ) where
  enabled := enabled
  next := next isNode

instance (isNode : ω → Bool) (s : Lifecycle ω θ) (l : Label ω θ) :
    Decidable ((system isNode).enabled s l) :=
  match l with
  | .init i => inferInstanceAs (Decidable (s.inits i ≠ .returned))
  | .addWorker w => inferInstanceAs (Decidable (s.adds w ≠ .started ∧ s.adds w ≠ .refused))
  | .pollerFails w => inferInstanceAs (Decidable (s.adds w = .counted))
  | .quit q => inferInstanceAs (Decidable
      (s.quits q ≠ .stored ∧ s.quits q ≠ .returned ∧ s.quits q ≠ .skipped))
  | .snapshot q workers => inferInstanceAs (Decidable (s.quits q = .stored ∧ workers.Perm s.evs))
  | .exec => inferInstanceAs (Decidable True)
  | .quitEvent w => inferInstanceAs (Decidable (s.exec = .loop ∧ w ∈ s.evs ∧ s.ended w = true))
  | .reply w cmd => inferInstanceAs (Decidable (s.exec = .loop ∧ w ∈ s.evs ∧ cmd ≠ .kQuit))
  | .take w => inferInstanceAs (Decidable
      (s.adds w = .started ∧ s.ended w = false ∧ s.toOwner w ≠ []))
  | .exit w => inferInstanceAs (Decidable (s.adds w = .started ∧ s.ended w = false))

/-- A `kQuit` waits in the channel of the worker, or the worker has taken one. -/
def Told (s : Lifecycle ω θ) (w : ω) : Prop := Cmd.kQuit ∈ s.toOwner w ∨ s.consumed w = true

/-- Once a successful `Quit` has returned, every registered worker has been told. -/
def QuitReaches (s : Lifecycle ω θ) : Prop :=
  ∀ q, s.quits q = .returned → ∀ w ∈ s.evs, s.Told w

/-- Where a call of `Quit` is about to return: the workers that came after its list was made have been
told by another one. -/
def OthersTold (s : Lifecycle ω θ) : QuitPc ω → Prop
  | .sending workers [] => ∀ w ∈ s.evs, w ∉ workers → s.Told w
  | _ => True

/-- No worker is registered after a successful `Quit` has returned, and each that is registered while
one runs has been told when that returns. -/
def InTime (s : Lifecycle ω θ) : Label ω θ → Prop
  | .addWorker w => s.adds w = .noded → ∀ q, s.quits q ≠ .returned
  | .quit q => s.OthersTold (s.quits q)
  | _ => True

instance (s : Lifecycle ω θ) (w : ω) : Decidable (s.Told w) := inferInstanceAs (Decidable (_ ∨ _))

instance (s : Lifecycle ω θ) (pc : QuitPc ω) : Decidable (s.OthersTold pc) :=
  match pc with
  | .sending workers [] => inferInstanceAs (Decidable (∀ w ∈ s.evs, w ∉ workers → s.Told w))
  | .sending _ (_ :: _) | .start | .checked | .stored | .returned | .skipped => .isTrue trivial

instance [Fintype θ] (s : Lifecycle ω θ) (l : Label ω θ) : Decidable (s.InTime l) :=
  match l with
  | .addWorker w => inferInstanceAs (Decidable (s.adds w = .noded → ∀ q, s.quits q ≠ .returned))
  | .quit q => inferInstanceAs (Decidable (s.OthersTold (s.quits q)))
  | .init _ | .pollerFails _ | .snapshot _ _ | .exec | .quitEvent _ | .reply _ _ | .take _ | .exit _ =>
    .isTrue trivial

omit [DecidableEq ω] in
theorem init_eq (s : Lifecycle ω θ) (i : θ) :
    ∃ inits state, s.init i = { s with inits := inits, state := state } := by
  rw [init]
  split <;> exact ⟨_, _, rfl⟩

omit [DecidableEq ω] [DecidableEq θ] in
theorem execStep_eq (s : Lifecycle ω θ) : ∃ exec state count evs,
    s.execStep = { s with exec := exec, state := state, curWorkerCount := count, evs := evs } ∧
      evs ⊆ s.evs := by
  rw [execStep]
  split
  · exact ⟨_, _, _, _, rfl, List.Subset.refl _⟩
  · exact ⟨_, _, _, _, rfl, List.Subset.refl _⟩
  · split <;> exact ⟨_, _, _, _, rfl, List.Subset.refl _⟩
  · exact ⟨_, _, _, _, rfl, List.Subset.refl _⟩
  · exact ⟨_, _, _, _, rfl, List.nil_subset _⟩
  · exact ⟨_, _, _, _, rfl, List.Subset.refl _⟩

/-- The worker is, or has been, in the event manager, or its call has been refused. -/
def Past : AddWorkerPc → Prop
  | .start | .checked | .noded => False
  | .added | .counted | .polled | .started | .refused => True

omit [DecidableEq θ] in
theorem addWorker_eq (isNode : ω → Bool) (s : Lifecycle ω θ) (w : ω) : ∃ pc evs count node,
    s.addWorker isNode w =
        { s with adds := Function.update s.adds w pc, evs := evs, curWorkerCount := count, node := node } ∧
      (Past (s.adds w) → Past pc) ∧
      (evs = s.evs ∧ (s.adds w = .noded → w ∈ s.evs) ∨
        s.adds w = .noded ∧ evs = s.evs ++ [w] ∧ pc = .added) := by
  rw [addWorker]
  split
  · next hPc => exact ⟨_, _, _, _, rfl, by rw [hPc]; rintro ⟨⟩, .inl ⟨rfl, by rw [hPc]; rintro ⟨⟩⟩⟩
  · next hPc =>
    have hOld : Past (s.adds w) → False := by rw [hPc]; exact id
    split
    · split
      · exact ⟨_, _, _, _, rfl, fun h => (hOld h).elim, .inl ⟨rfl, by rw [hPc]; rintro ⟨⟩⟩⟩
      · exact ⟨_, _, _, _, rfl, fun h => (hOld h).elim, .inl ⟨rfl, by rw [hPc]; rintro ⟨⟩⟩⟩
    · exact ⟨_, _, _, _, rfl, fun h => (hOld h).elim, .inl ⟨rfl, by rw [hPc]; rintro ⟨⟩⟩⟩
  · next hPc =>
    split
    · next hMem => exact ⟨_, _, _, _, rfl, fun _ => trivial, .inl ⟨rfl, fun _ => hMem⟩⟩
    · exact ⟨_, _, _, _, rfl, fun _ => trivial, .inr ⟨hPc, rfl, rfl⟩⟩
  · next hPc => exact ⟨_, _, _, _, rfl, fun _ => trivial, .inl ⟨rfl, by rw [hPc]; rintro ⟨⟩⟩⟩
  · next hPc => exact ⟨_, _, _, _, rfl, fun _ => trivial, .inl ⟨rfl, by rw [hPc]; rintro ⟨⟩⟩⟩
  · next hPc => exact ⟨_, _, _, _, rfl, fun _ => trivial, .inl ⟨rfl, by rw [hPc]; rintro ⟨⟩⟩⟩
  · next hPc =>
    refine ⟨s.adds w, s.evs, s.curWorkerCount, s.node, ?_, id, .inl ⟨rfl, by rw [hPc]; rintro ⟨⟩⟩⟩
    rw [Function.update_eq_self]
  · next hPc =>
    refine ⟨s.adds w, s.evs, s.curWorkerCount, s.node, ?_, id, .inl ⟨rfl, by rw [hPc]; rintro ⟨⟩⟩⟩
    rw [Function.update_eq_self]

/-- A call of `Quit` before its list is made, at the end of its loop, and inside it. -/
theorem quit_cases (s : Lifecycle ω θ) (q : θ) (hEn : s.enabled (.quit q)) :
    (∃ pc state, s.quit q = { s.setQuit q pc with state := state } ∧
      (∀ workers rest, s.quits q ≠ .sending workers rest) ∧
      (pc = .checked ∨ pc = .skipped ∨ pc = .stored)) ∨
    (∃ workers, s.quits q = .sending workers [] ∧ s.quit q = s.setQuit q .returned) ∨
    ∃ workers w rest, s.quits q = .sending workers (w :: rest) ∧
      s.quit q = (s.setQuit q (.sending workers rest)).sendToOwner w .kQuit := by
  rw [quit]
  split
  · next hPc =>
    refine .inl ⟨_, _, rfl, by rw [hPc]; rintro _ _ ⟨⟩, ?_⟩
    split
    · exact .inl rfl
    · exact .inl rfl
    all_goals exact .inr (.inl rfl)
  · next hPc => exact .inl ⟨_, _, rfl, by rw [hPc]; rintro _ _ ⟨⟩, .inr (.inr rfl)⟩
  · next workers w rest hPc => exact .inr (.inr ⟨workers, w, rest, hPc, rfl⟩)
  · next workers hPc => exact .inr (.inl ⟨workers, hPc, rfl⟩)
  · next hPc => exact absurd hPc hEn.1
  · next hPc => exact absurd hPc hEn.2.1
  · next hPc => exact absurd hPc hEn.2.2

omit [DecidableEq ω] [DecidableEq θ] in
theorem Told.of_eq {s t : Lifecycle ω θ} {w : ω} (h : s.Told w) (hQueue : t.toOwner = s.toOwner)
    (hConsumed : t.consumed = s.consumed) : t.Told w := by
  rw [Told, hQueue, hConsumed]
  exact h

omit [DecidableEq θ] in
theorem Told.sendToOwner {s : Lifecycle ω θ} {w : ω} (h : s.Told w) (w' : ω) (cmd : Cmd) :
    (s.sendToOwner w' cmd).Told w := by
  refine h.imp_left fun hMem => ?_
  simp only [Lifecycle.sendToOwner, Function.update_apply]
  split
  · next hEq =>
    subst hEq
    exact List.mem_append_left _ hMem
  · exact hMem

omit [DecidableEq θ] in
theorem told_sendToOwner (s : Lifecycle ω θ) (w : ω) : (s.sendToOwner w .kQuit).Told w := by
  refine .inl ?_
  simp only [sendToOwner, Function.update_self]
  exact List.mem_append_right _ (List.mem_singleton.mpr rfl)

theorem Told.next (isNode : ω → Bool) {s : Lifecycle ω θ} {w : ω} (h : s.Told w) (l : Label ω θ)
    (hEn : s.enabled l) : (s.next isNode l).Told w := by
  cases l with
  | init i =>
    obtain ⟨_, _, hEq⟩ := s.init_eq i
    exact h.of_eq (by rw [Lifecycle.next, hEq]) (by rw [Lifecycle.next, hEq])
  | addWorker w' =>
    obtain ⟨_, _, _, _, hEq, -⟩ := s.addWorker_eq isNode w'
    exact h.of_eq (by rw [Lifecycle.next, hEq]) (by rw [Lifecycle.next, hEq])
  | quit q =>
    rw [Lifecycle.next]
    obtain ⟨_, _, hEq, -⟩ | ⟨_, -, hEq⟩ | ⟨_, w', _, -, hEq⟩ := s.quit_cases q hEn
    · exact h.of_eq (by rw [hEq]; rfl) (by rw [hEq]; rfl)
    · exact h.of_eq (by rw [hEq]; rfl) (by rw [hEq]; rfl)
    · rw [hEq]
      exact Told.sendToOwner (h.of_eq rfl rfl) w' .kQuit
  | exec =>
    obtain ⟨_, _, _, _, hEq, -⟩ := s.execStep_eq
    exact h.of_eq (by rw [Lifecycle.next, hEq]) (by rw [Lifecycle.next, hEq])
  | reply w' cmd => exact h.sendToOwner w' cmd
  | take w' =>
    simp only [Lifecycle.next, Told, Function.update_apply]
    split
    · next hEq =>
      subst hEq
      obtain hMem | hConsumed := h
      · cases hQueue : s.toOwner w with
        | nil =>
          rw [hQueue] at hMem
          cases hMem
        | cons cmd rest =>
          rw [hQueue] at hMem
          obtain rfl | hMem := List.mem_cons.mp hMem
          · exact .inr (by simp)
          · exact .inl hMem
      · exact .inr (by simp [hConsumed])
    · exact h
  | pollerFails w' | snapshot q workers | quitEvent w' | exit w' => exact h

/-- Workers that are not registered yet have an untouched channel; each worker on the list of a call of
`Quit` has been told or still will be. -/
structure Covered (s : Lifecycle ω θ) : Prop where
  past : ∀ w ∈ s.evs, Past (s.adds w)
  untouched : ∀ w, ¬ Past (s.adds w) → ¬ s.Told w
  listed : ∀ q workers rest, s.quits q = .sending workers rest →
    rest ⊆ workers ∧ ∀ w ∈ workers, Past (s.adds w) ∧ (w ∈ rest ∨ s.Told w)

namespace Covered

variable {s : Lifecycle ω θ}

omit [DecidableEq ω] [DecidableEq θ] in
theorem mono {t : Lifecycle ω θ} (h : s.Covered) (hPast : ∀ w, Past (s.adds w) → Past (t.adds w))
    (hEvs : ∀ w ∈ t.evs, w ∈ s.evs ∨ Past (t.adds w)) (hQuits : t.quits = s.quits)
    (hTold : ∀ w, s.Told w → t.Told w) (hNew : ∀ w, ¬ Past (t.adds w) → t.Told w → s.Told w) :
    t.Covered where
  past w hMem := (hEvs w hMem).elim (fun hOld => hPast w (h.past w hOld)) id
  untouched w hNot hNow := h.untouched w (fun hOld => hNot (hPast w hOld)) (hNew w hNot hNow)
  listed q workers rest hPc := by
    rw [hQuits] at hPc
    obtain ⟨hSub, hListed⟩ := h.listed q workers rest hPc
    exact ⟨hSub, fun w hMem => ⟨hPast w (hListed w hMem).1, (hListed w hMem).2.imp_right (hTold w)⟩⟩

omit [DecidableEq ω] [DecidableEq θ] in
theorem congr {t : Lifecycle ω θ} (h : s.Covered) (hAdds : t.adds = s.adds) (hEvs : t.evs ⊆ s.evs)
    (hQuits : t.quits = s.quits) (hQueue : t.toOwner = s.toOwner) (hConsumed : t.consumed = s.consumed) :
    t.Covered := by
  refine h.mono ?_ (fun w hMem => .inl (hEvs hMem)) hQuits (fun w hTold => hTold.of_eq hQueue hConsumed) ?_
  · rw [hAdds]
    exact fun _ => id
  · exact fun w _ hTold => hTold.of_eq hQueue.symm hConsumed.symm

omit [DecidableEq ω] in
theorem setQuit (h : s.Covered) {q : θ} {pc : QuitPc ω} (hPc : ∀ workers rest, pc = .sending workers rest →
    rest ⊆ workers ∧ ∀ w ∈ workers, Past (s.adds w) ∧ (w ∈ rest ∨ s.Told w)) : (s.setQuit q pc).Covered where
  past := h.past
  untouched := h.untouched
  listed q' workers rest hPc' := by
    simp only [Lifecycle.setQuit, Function.update_apply] at hPc'
    split at hPc'
    · exact hPc workers rest hPc'
    · exact h.listed q' workers rest hPc'

omit [DecidableEq θ] in
theorem sendToOwner (h : s.Covered) {w : ω} (hPast : Past (s.adds w)) (cmd : Cmd) :
    (s.sendToOwner w cmd).Covered := by
  refine h.mono (fun _ => id) (fun _ => .inl) rfl (fun w' hTold => hTold.sendToOwner w cmd)
    fun w' hNot hTold => ?_
  have hNe : w' ≠ w := by
    rintro rfl
    exact hNot hPast
  simpa only [Lifecycle.sendToOwner, Told, Function.update_of_ne hNe] using hTold

theorem quit (h : s.Covered) (q : θ) (hEn : s.enabled (.quit q)) : (s.quit q).Covered := by
  obtain ⟨pc, state, hEq, -, hPc⟩ | ⟨workers, -, hEq⟩ | ⟨workers, w, rest, hSending, hEq⟩ :=
    s.quit_cases q hEn
  · rw [hEq]
    have hSet : (s.setQuit q pc).Covered := by
      refine h.setQuit fun workers rest hSending => ?_
      obtain rfl | rfl | rfl := hPc <;> cases hSending
    exact hSet.congr rfl (List.Subset.refl _) rfl rfl rfl
  · rw [hEq]
    exact h.setQuit (by rintro _ _ ⟨⟩)
  · rw [hEq]
    obtain ⟨hSub, hListed⟩ := h.listed q workers _ hSending
    have hPast : Past (s.adds w) := (hListed w (hSub List.mem_cons_self)).1
    have hSent := h.sendToOwner hPast .kQuit
    have hNext : ((s.sendToOwner w .kQuit).setQuit q (.sending workers rest)).Covered := by
      refine hSent.setQuit fun workers' rest' hSame => ?_
      obtain ⟨rfl, rfl⟩ := QuitPc.sending.inj hSame
      refine ⟨fun w' hMem => hSub (List.mem_cons_of_mem _ hMem), fun w' hMem => ?_⟩
      obtain ⟨hPast', hCase⟩ := hListed w' hMem
      refine ⟨hPast', ?_⟩
      obtain hRest | hTold := hCase
      · obtain rfl | hRest := List.mem_cons.mp hRest
        · exact .inr (told_sendToOwner s w')
        · exact .inl hRest
      · exact .inr (hTold.sendToOwner w .kQuit)
    exact hNext

theorem next (isNode : ω → Bool) (h : s.Covered) (l : Label ω θ) (hEn : s.enabled l) :
    (s.next isNode l).Covered := by
  cases l with
  | init i =>
    obtain ⟨_, _, hEq⟩ := s.init_eq i
    rw [Lifecycle.next, hEq]
    exact h.congr rfl (List.Subset.refl _) rfl rfl rfl
  | addWorker w =>
    obtain ⟨pc, evs, _, _, hEq, hPast, hEvs⟩ := s.addWorker_eq isNode w
    have hMono : ∀ w', Past (s.adds w') → Past (Function.update s.adds w pc w') := by
      intro w' hOld
      rw [Function.update_apply]
      split
      · next hSame =>
        subst hSame
        exact hPast hOld
      · exact hOld
    rw [Lifecycle.next, hEq]
    refine h.mono hMono (fun w' hMem => ?_) rfl (fun _ => id) fun _ _ => id
    obtain ⟨hSame, -⟩ | ⟨-, hNew, hPc⟩ := hEvs
    · exact .inl (hSame ▸ hMem)
    · have hMem' : w' ∈ s.evs ++ [w] := hNew ▸ hMem
      obtain hOld | hLast := List.mem_append.mp hMem'
      · exact .inl hOld
      · obtain rfl := List.mem_singleton.mp hLast
        refine .inr ?_
        simp only [Function.update_self, hPc]
        trivial
  | pollerFails w =>
    have hMono : ∀ w', Past (s.adds w') → Past (Function.update s.adds w .refused w') := by
      intro w' hOld
      rw [Function.update_apply]
      split
      · trivial
      · exact hOld
    exact h.mono hMono (fun _ => .inl) rfl (fun _ => id) fun _ _ => id
  | quit q => exact h.quit q hEn
  | snapshot q workers =>
    refine h.setQuit fun workers' rest hSame => ?_
    obtain ⟨rfl, rfl⟩ := QuitPc.sending.inj hSame
    exact ⟨List.Subset.refl _, fun w hMem => ⟨h.past w (hEn.2.subset hMem), .inl hMem⟩⟩
  | exec =>
    obtain ⟨_, _, _, _, hEq, hSub⟩ := s.execStep_eq
    rw [Lifecycle.next, hEq]
    exact h.congr rfl hSub rfl rfl rfl
  | quitEvent w => exact h.congr rfl List.erase_subset rfl rfl rfl
  | reply w cmd => exact h.sendToOwner (h.past w hEn.2.1) cmd
  | take w =>
    refine h.mono (fun _ => id) (fun _ => .inl) rfl (fun w' hTold => hTold.next isNode (.take w) hEn)
      fun w' hNot hTold => ?_
    have hPast : Past (s.adds w) := by
      rw [hEn.1]
      trivial
    have hNe : w' ≠ w := by
      rintro rfl
      exact hNot hPast
    simpa only [Lifecycle.next, Told, Function.update_of_ne hNe] using hTold
  | exit w => exact h.congr rfl (List.Subset.refl _) rfl rfl rfl

end Covered

theorem next_evs (isNode : ω → Bool) {s : Lifecycle ω θ} {l : Label ω θ} {w : ω}
    (h : w ∈ (s.next isNode l).evs) : w ∈ s.evs ∨ l = .addWorker w ∧ s.adds w = .noded := by
  cases l with
  | init i =>
    obtain ⟨_, _, hEq⟩ := s.init_eq i
    rw [next, hEq] at h
    exact .inl h
  | addWorker w' =>
    obtain ⟨_, _, _, _, hEq, -, hEvs⟩ := s.addWorker_eq isNode w'
    rw [next, hEq] at h
    obtain ⟨hSame, -⟩ | ⟨hPc, hNew, -⟩ := hEvs
    · exact .inl (hSame ▸ h)
    · have hMem : w ∈ s.evs ++ [w'] := hNew ▸ h
      obtain hOld | hLast := List.mem_append.mp hMem
      · exact .inl hOld
      · obtain rfl := List.mem_singleton.mp hLast
        exact .inr ⟨rfl, hPc⟩
  | quit q =>
    rw [next, quit] at h
    split at h <;> exact .inl h
  | exec =>
    obtain ⟨_, _, _, _, hEq, hSub⟩ := s.execStep_eq
    rw [next, hEq] at h
    exact .inl (hSub h)
  | quitEvent w' => exact .inl (List.mem_of_mem_erase h)
  | pollerFails w' | snapshot q workers | reply w' cmd | take w' | exit w' => exact .inl h

theorem next_returned_iff (isNode : ω → Bool) {s : Lifecycle ω θ} {l : Label ω θ} (q : θ)
    (hEn : s.enabled l) : (s.next isNode l).quits q = .returned ↔
      s.quits q = .returned ∨ l = .quit q ∧ ∃ workers, s.quits q = .sending workers [] := by
  have hOther : ∀ {t : Lifecycle ω θ}, t.quits = s.quits → (∀ q', l ≠ .quit q') →
      (t.quits q = .returned ↔
        s.quits q = .returned ∨ l = .quit q ∧ ∃ workers, s.quits q = .sending workers []) := by
    intro t hSame hLabel
    rw [hSame, or_iff_left fun h => hLabel q h.1]
  cases l with
  | init i =>
    obtain ⟨_, _, hEq⟩ := s.init_eq i
    exact hOther (by rw [next, hEq]) (by rintro _ ⟨⟩)
  | addWorker w =>
    obtain ⟨_, _, _, _, hEq, -⟩ := s.addWorker_eq isNode w
    exact hOther (by rw [next, hEq]) (by rintro _ ⟨⟩)
  | exec =>
    obtain ⟨_, _, _, _, hEq, -⟩ := s.execStep_eq
    exact hOther (by rw [next, hEq]) (by rintro _ ⟨⟩)
  | pollerFails w | quitEvent w | reply w cmd | take w | exit w => exact hOther rfl (by rintro _ ⟨⟩)
  | snapshot q' workers =>
    rw [or_iff_left (by rintro ⟨⟨⟩, -⟩)]
    simp only [next, setQuit, Function.update_apply]
    split
    · next hSame =>
      subst hSame
      rw [hEn.1]
      exact iff_of_false (by rintro ⟨⟩) (by rintro ⟨⟩)
    · exact Iff.rfl
  | quit q' =>
    rw [next]
    obtain rfl | hNe := eq_or_ne q q'
    · rw [or_iff_right hEn.2.1, and_iff_right rfl]
      obtain ⟨pc, _, hEq, hNot, hPc⟩ | ⟨workers, hSending, hEq⟩ | ⟨workers, w, rest, hSending, hEq⟩ :=
        s.quit_cases q hEn
      · rw [hEq]
        refine iff_of_false ?_ fun ⟨workers, hSending⟩ => hNot workers [] hSending
        simp only [setQuit, Function.update_self]
        obtain rfl | rfl | rfl := hPc <;> rintro ⟨⟩
      · rw [hEq]
        exact iff_of_true (Function.update_self ..) ⟨workers, hSending⟩
      · rw [hEq, hSending]
        refine iff_of_false ?_ (by rintro ⟨_, ⟨⟩⟩)
        simp only [sendToOwner, setQuit, Function.update_self]
        rintro ⟨⟩
    · rw [or_iff_left fun h => hNe (Label.quit.inj h.1).symm]
      obtain ⟨pc, _, hEq, -⟩ | ⟨workers, -, hEq⟩ | ⟨workers, w, rest, -, hEq⟩ := s.quit_cases q' hEn
      all_goals
        rw [hEq]
        simp only [sendToOwner, setQuit, Function.update_of_ne hNe]

theorem quitReaches_next_iff (isNode : ω → Bool) {s : Lifecycle ω θ} (h : s.Covered)
    (hReaches : s.QuitReaches) (l : Label ω θ) (hEn : s.enabled l) :
    (s.next isNode l).QuitReaches ↔ s.InTime l := by
  constructor
  · intro hAfter
    cases l with
    | addWorker w =>
      intro hPc q hReturned
      have hNotPast : ¬ Past (s.adds w) := by
        rw [hPc]
        exact id
      have hNotMem : w ∉ s.evs := fun hMem => hNotPast (h.past w hMem)
      have hNext : s.next isNode (.addWorker w) = { s.setAdd w .added with evs := s.evs ++ [w] } := by
        simp only [next, addWorker, hPc, if_neg hNotMem]
      have hTold := hAfter q ((next_returned_iff isNode q hEn).mpr (.inl hReturned)) w (by
        rw [hNext]
        exact List.mem_append_right _ (List.mem_singleton.mpr rfl))
      rw [hNext] at hTold
      exact h.untouched w hNotPast hTold
    | quit q =>
      simp only [InTime]
      unfold OthersTold
      split
      · next workers hSending =>
        intro w hMem _
        have hReturned := (next_returned_iff isNode q hEn).mpr (.inr ⟨rfl, workers, hSending⟩)
        have hNext : s.next isNode (.quit q) = s.setQuit q .returned := by
          simp only [next, quit, hSending]
        have hTold := hAfter q hReturned w (by rw [hNext]; exact hMem)
        rw [hNext] at hTold
        exact hTold
      · trivial
    | init i | pollerFails w | snapshot q workers | exec | quitEvent w | reply w cmd | take w | exit w =>
      trivial
  · intro hInTime q hReturned w hMem
    obtain hOld | ⟨rfl, workers, hSending⟩ := (next_returned_iff isNode q hEn).mp hReturned
    · obtain hMem | ⟨rfl, hPc⟩ := next_evs isNode hMem
      · exact (hReaches q hOld w hMem).next isNode l hEn
      · exact absurd hOld (hInTime hPc q)
    · have hMem' : w ∈ s.evs := (next_evs isNode hMem).resolve_right (by rintro ⟨⟨⟩, -⟩)
      rw [InTime, hSending] at hInTime
      refine Told.next isNode ?_ (.quit q) hEn
      by_contra hNot
      have hNotListed : w ∉ workers := by
        intro hListed
        obtain ⟨-, hCase⟩ := (h.listed q workers [] hSending).2 w hListed
        exact hCase.elim (by rintro ⟨⟩) hNot
      exact hNot (hInTime w hMem' hNotListed)

omit [DecidableEq ω] [DecidableEq θ] in
theorem covered_initial : ({} : Lifecycle ω θ).Covered where
  past _ hMem := by cases hMem
  untouched _ _ hTold := hTold.elim (by rintro ⟨⟩) (by rintro ⟨⟩)
  listed _ _ _ hPc := by cases hPc

/-- Along a run every worker that is registered when a successful `Quit` has returned has been told to
stop, just as long as workers are registered in time. -/
theorem quitReaches_visited_iff (isNode : ω → Bool) (ls : List (Label ω θ))
    (hRun : (system isNode).Runs {} ls) :
    (∀ t ∈ (system isNode).visited {} ls, t.QuitReaches) ↔
      ∀ p ∈ (system isNode).steps {} ls, p.1.InTime p.2 :=
  (system isNode).inv_visited_iff (fun _ l h _ hEn _ => h.next isNode l hEn)
    (fun _ l h hReaches hEn => quitReaches_next_iff isNode h hReaches l hEn) covered_initial
    (by rintro _ ⟨⟩) hRun

def started : List (Label Bool Unit) := [.init (), .init ()]

/-- `AddWorker` up to the place where it registers the worker. -/
def adding (w : Bool) : List (Label Bool Unit) := [.addWorker w, .addWorker w]

def quitting (workers : List Bool) : List (Label Bool Unit) :=
  [.quit (), .quit (), .snapshot () workers] ++ workers.map (fun _ => .quit ()) ++ [.quit ()]

/-- One worker is added, and `Quit` and `Exec` run to their ends. -/
def wholeRun : List (Label Bool Unit) :=
  started ++ adding false ++ [.addWorker false, .addWorker false, .addWorker false, .addWorker false] ++
    quitting [false] ++
    [.exec, .exec, .take false, .exit false, .quitEvent false, .exec, .exec, .exec, .exec]

theorem quitReaches_wholeRun :
    ((system fun _ => false).exec {} wholeRun : Lifecycle Bool Unit).state = .kQuit ∧
      ((system fun _ => false).exec {} wholeRun : Lifecycle Bool Unit).consumed false = true ∧
      ∀ t ∈ (system fun _ => false).visited ({} : Lifecycle Bool Unit) wholeRun, t.QuitReaches :=
  ⟨by decide, by decide, (quitReaches_visited_iff (fun _ => false) wholeRun (by decide)).mpr (by decide)⟩

/-- `AddWorker` has passed its check when `Quit` runs, and registers its worker afterwards. -/
def addedLate : List (Label Bool Unit) := started ++ adding true ++ quitting [] ++ [.addWorker true]

/-- `Exec` sets the state back to `kRunning` after `Quit`, and `AddWorker` is accepted. -/
def addedAfterReset : List (Label Bool Unit) :=
  started ++ quitting [] ++ [.exec, .exec] ++ adding true ++ [.addWorker true]

theorem not_quitReaches_addedLate :
    (system fun _ => false).Runs ({} : Lifecycle Bool Unit) addedLate ∧
      (system fun _ => false).Runs ({} : Lifecycle Bool Unit) addedAfterReset ∧
      ¬ ((system fun _ => false).exec {} addedLate : Lifecycle Bool Unit).QuitReaches ∧
      ((system fun _ => false).exec {} addedAfterReset : Lifecycle Bool Unit).state = .kRunning ∧
      ¬ ((system fun _ => false).exec {} addedAfterReset : Lifecycle Bool Unit).QuitReaches := by
  refine ⟨by decide, by decide, fun h => ?_, by decide, fun h => ?_⟩
  · exact absurd (h () (by decide) true (by decide)) (by decide)
  · exact absurd (h () (by decide) true (by decide)) (by decide)

end Lifecycle
end Myframe
