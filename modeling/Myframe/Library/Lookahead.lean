import Mathlib.Data.List.Basic

/-! # Reading words with one word of lookahead

A turn reads a word, sees the one after it if there is one and may take that one as well. A reader that goes on
after a fault has accepted its words just where they are the words of a list of items.
-/
namespace Lookahead
set_option autoImplicit false

variable {σ α ι : Type*}

/-- The turn says whether it has taken the next word as well. -/
def scan (turn : σ → α → Option α → σ × Bool) : σ → List α → σ
  | s, [] => s
  | s, [a] => (turn s a none).1
  | s, a :: b :: rest =>
    if (turn s a (some b)).2 = true then scan turn (turn s a (some b)).1 rest
    else scan turn (turn s a (some b)).1 (b :: rest)

variable {turn : σ → α → Option α → σ × Bool}

theorem scan_cons_one {s t : σ} {a : α} (h : ∀ next, turn s a next = (t, false)) (rest : List α) :
    scan turn s (a :: rest) = scan turn t rest := by
  cases rest with
  | nil => exact congrArg Prod.fst (h none)
  | cons b rest => rw [scan, h, if_neg Bool.false_ne_true]

theorem scan_cons_two {s t : σ} {a b : α} (h : turn s a (some b) = (t, true)) (rest : List α) :
    scan turn s (a :: b :: rest) = scan turn t rest := by
  rw [scan, h, if_pos rfl]

theorem scan_invariant {P : σ → Prop} (hTurn : ∀ s a next, P s → P (turn s a next).1) {s : σ} (hs : P s)
    (xs : List α) : P (scan turn s xs) := by
  fun_induction scan turn s xs with
  | case1 s => exact hs
  | case2 s a => exact hTurn s a none hs
  | case3 s a b rest hTwo ih => exact ih (hTurn s a (some b) hs)
  | case4 s a b rest hOne ih => exact ih (hTurn s a (some b) hs)

/-- `Good` holds of the states without a fault. -/
structure Reads (turn : σ → α → Option α → σ × Bool) (Good : σ → Prop) (words : ι → List α) (Fits : ι → Prop)
    (act : σ → ι → σ) : Prop where
  faults : ∀ {s : σ} {a : α} {next : Option α}, Good (turn s a next).1 → Good s
  item : ∀ {s : σ} {a : α} {next : Option α}, Good (turn s a next).1 →
    ∃ i, Fits i ∧ words i = a :: if (turn s a next).2 = true then next.toList else []
  act_good : ∀ {s : σ} {i : ι}, Good s → Fits i → Good (act s i)
  scan_item : ∀ {s : σ} {i : ι}, Good s → Fits i → ∀ rest,
    scan turn s (words i ++ rest) = scan turn (act s i) rest

namespace Reads

variable {Good : σ → Prop} {words : ι → List α} {Fits : ι → Prop} {act : σ → ι → σ}

theorem scan_faults (h : Reads turn Good words Fits act) {s : σ} {xs : List α} (hGood : Good (scan turn s xs)) :
    Good s := by
  fun_induction scan turn s xs with
  | case1 s => exact hGood
  | case2 s a => exact h.faults hGood
  | case3 s a b rest hTwo ih => exact h.faults (ih hGood)
  | case4 s a b rest hOne ih => exact h.faults (ih hGood)

theorem foldl_good (h : Reads turn Good words Fits act) {s : σ} (hGood : Good s) {items : List ι}
    (hFits : ∀ i ∈ items, Fits i) : Good (items.foldl act s) := by
  induction items generalizing s with
  | nil => exact hGood
  | cons i items ih =>
    obtain ⟨hFirst, hRest⟩ := List.forall_mem_cons.mp hFits
    exact ih (h.act_good hGood hFirst) hRest

theorem scan_items (h : Reads turn Good words Fits act) {s : σ} (hGood : Good s) {items : List ι}
    (hFits : ∀ i ∈ items, Fits i) : scan turn s (items.flatMap words) = items.foldl act s := by
  induction items generalizing s with
  | nil => rfl
  | cons i items ih =>
    obtain ⟨hFirst, hRest⟩ := List.forall_mem_cons.mp hFits
    rw [List.flatMap_cons, h.scan_item hGood hFirst, List.foldl_cons]
    exact ih (h.act_good hGood hFirst) hRest

theorem exists_items (h : Reads turn Good words Fits act) {s : σ} {xs : List α}
    (hGood : Good (scan turn s xs)) : ∃ items : List ι, xs = items.flatMap words ∧ ∀ i ∈ items, Fits i := by
  fun_induction scan turn s xs with
  | case1 s => exact ⟨[], rfl, List.forall_mem_nil _⟩
  | case2 s a =>
    obtain ⟨i, hFits, hWords⟩ := h.item hGood
    refine ⟨[i], ?_, List.forall_mem_singleton.mpr hFits⟩
    rw [List.flatMap_singleton, hWords]
    split
    · rfl
    · rfl
  | case3 s a b rest hTwo ih =>
    obtain ⟨i, hFits, hWords⟩ := h.item (h.scan_faults hGood)
    obtain ⟨items, hRest, hAll⟩ := ih hGood
    refine ⟨i :: items, ?_, List.forall_mem_cons.mpr ⟨hFits, hAll⟩⟩
    rw [List.flatMap_cons, hWords, if_pos hTwo, ← hRest]
    rfl
  | case4 s a b rest hOne ih =>
    obtain ⟨i, hFits, hWords⟩ := h.item (h.scan_faults hGood)
    obtain ⟨items, hRest, hAll⟩ := ih hGood
    refine ⟨i :: items, ?_, List.forall_mem_cons.mpr ⟨hFits, hAll⟩⟩
    rw [List.flatMap_cons, hWords, if_neg hOne, ← hRest]
    rfl

/-- What a reader accepts, and what it has made of it. -/
theorem good_iff (h : Reads turn Good words Fits act) {s : σ} (hGood : Good s) (xs : List α) (t : σ) :
    scan turn s xs = t ∧ Good t ↔
      ∃ items : List ι, xs = items.flatMap words ∧ (∀ i ∈ items, Fits i) ∧ t = items.foldl act s := by
  constructor
  · rintro ⟨rfl, hEnd⟩
    obtain ⟨items, rfl, hFits⟩ := h.exists_items hEnd
    exact ⟨items, rfl, hFits, h.scan_items hGood hFits⟩
  · rintro ⟨items, rfl, hFits, rfl⟩
    exact ⟨h.scan_items hGood hFits, h.foldl_good hGood hFits⟩

end Reads
end Lookahead
