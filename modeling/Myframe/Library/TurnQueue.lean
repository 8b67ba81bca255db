import Mathlib.Data.List.Infix
import Myframe.Library.Transition

/-! # Queues in which busy entries are passed over

What is taken is the first free entry, and the busy ones in front of it go to the end. An entry that
stays free is overtaken by none but those ahead of it.
-/
namespace TurnQueue
set_option autoImplicit false

variable {α : Type*}

/-- A step of such a queue: entries join at its end, or the first free one is taken. -/
inductive Move (free : α → Prop) : List α → Option α → List α → Prop where
  | join (queue more : List α) : Move free queue none (queue ++ more)
  | take {passed : List α} (hPassed : ∀ y ∈ passed, ¬ free y) (x : α) (rest : List α) :
      Move free (passed ++ x :: rest) (some x) (rest ++ passed)

theorem Move.rfl {free : α → Prop} {queue : List α} : Move free queue none queue := by
  have hJoin : Move free queue none (queue ++ []) := Move.join queue []
  rwa [List.append_nil] at hJoin

variable [DecidableEq α]

def ahead (x : α) (queue : List α) : List α := queue.takeWhile (· ≠ x)

theorem ahead_append_of_mem {x : α} {queue : List α} (h : x ∈ queue) (more : List α) :
    ahead x (queue ++ more) = ahead x queue := by
  induction queue with
  | nil => cases h
  | cons y queue ih =>
    rw [List.cons_append, ahead, ahead, List.takeWhile_cons, List.takeWhile_cons]
    split
    · next hNe =>
      have hTail : x ∈ queue := (List.mem_cons.mp h).resolve_left fun hEq => by simp [hEq] at hNe
      exact congrArg (y :: ·) (ih hTail)
    · rfl

theorem ahead_append_of_not_mem {x : α} {queue : List α} (h : x ∉ queue) (more : List α) :
    ahead x (queue ++ more) = queue ++ ahead x more := by
  refine List.takeWhile_append_of_pos fun y hy => ?_
  rw [decide_eq_true_eq]
  rintro rfl
  exact h hy

theorem Move.ahead_suffix {free : α → Prop} {queue queue' : List α} {taken : Option α} {x : α}
    (h : Move free queue taken queue') (hMem : x ∈ queue) (hFree : free x) (hTaken : taken ≠ some x) :
    x ∈ queue' ∧ taken.toList ++ ahead x queue' <:+ ahead x queue := by
  cases h with
  | join _ more =>
    refine ⟨List.mem_append_left more hMem, ?_⟩
    rw [ahead_append_of_mem hMem]
    exact List.suffix_rfl
  | @take passed hPassed y rest =>
    have hNotPassed : x ∉ passed := fun hIn => hPassed x hIn hFree
    have hNe : y ≠ x := fun hEq => hTaken (congrArg some hEq)
    have hRest : x ∈ rest := by
      obtain hIn | hIn := List.mem_append.mp hMem
      · exact absurd hIn hNotPassed
      · exact (List.mem_cons.mp hIn).resolve_left hNe.symm
    refine ⟨List.mem_append_left passed hRest, ?_⟩
    have hHead : ahead x (y :: rest) = y :: ahead x rest := by
      rw [ahead, List.takeWhile_cons, if_pos (by simpa using hNe)]
      rfl
    rw [ahead_append_of_mem hRest, ahead_append_of_not_mem hNotPassed, hHead]
    exact List.suffix_append passed _

/-- The rule of bounded bypass: in a system whose steps move a queue, and in which an entry stays free
until it is taken, a run that does not take the entry `x` takes only entries from ahead of it. -/
theorem bypass {σ ℓ : Type*} (S : Transition.System σ ℓ) (queue : σ → List α) (free : σ → α → Prop)
    (taken : σ → ℓ → Option α) {I : σ → Prop} {ok : σ → ℓ → Prop} {x : α}
    (step : ∀ s l, I s → S.enabled s l → ok s l → I (S.next s l))
    (move : ∀ s l, I s → S.enabled s l → ok s l →
      Move (free s) (queue s) (taken s l) (queue (S.next s l)))
    (keep : ∀ s l, I s → S.enabled s l → ok s l → free s x → taken s l ≠ some x →
      free (S.next s l) x)
    {s : σ} {ls : List ℓ} (hs : I s) (h : S.Runs s ls) (hok : ∀ p ∈ S.steps s ls, ok p.1 p.2)
    (hMem : x ∈ queue s) (hFree : free s x)
    (hTaken : x ∉ S.emitted (fun s l => (taken s l).toList) s ls) :
    (x ∈ queue (S.exec s ls) ∧ free (S.exec s ls) x) ∧
      (S.emitted (fun s l => (taken s l).toList) s ls ++ ahead x (queue (S.exec s ls))).Sublist
        (ahead x (queue s)) := by
  have hNever : ∀ p ∈ S.steps s ls, taken p.1 p.2 ≠ some x := by
    intro p hp hEq
    refine hTaken (List.mem_flatMap.mpr ⟨p, hp, ?_⟩)
    change x ∈ (taken p.1 p.2).toList
    rw [hEq]
    exact List.mem_singleton_self x
  have hStep : ∀ s l, (I s ∧ x ∈ queue s ∧ free s x) → S.enabled s l →
      (ok s l ∧ taken s l ≠ some x) → I (S.next s l) ∧ x ∈ queue (S.next s l) ∧ free (S.next s l) x := by
    rintro t l ⟨hI, hMem, hFree⟩ hEnabled ⟨hOk, hNe⟩
    obtain ⟨hMem', -⟩ := (move t l hI hEnabled hOk).ahead_suffix hMem hFree hNe
    exact ⟨step t l hI hEnabled hOk, hMem', keep t l hI hEnabled hOk hFree hNe⟩
  have hOk : ∀ p ∈ S.steps s ls, ok p.1 p.2 ∧ taken p.1 p.2 ≠ some x := fun p hp =>
    ⟨hok p hp, hNever p hp⟩
  have hEnd := S.inv_visited hStep ⟨hs, hMem, hFree⟩ h hOk _ (S.mem_visited_of_exec s ls)
  refine ⟨hEnd.2, S.emitted_sublist (fun s l => (taken s l).toList) (fun s => ahead x (queue s)) hStep ?_
    ⟨hs, hMem, hFree⟩ h hOk⟩
  rintro t l ⟨hI, hMem, hFree⟩ hEnabled ⟨hOk, hNe⟩
  exact ((move t l hI hEnabled hOk).ahead_suffix hMem hFree hNe).2.sublist

end TurnQueue
