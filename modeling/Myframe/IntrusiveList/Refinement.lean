import Myframe.IntrusiveList.Heap

/-! # The lists are sequences

Each list stands for the sequence of its nodes. The operations are compared with what they mean for the
sequences; a node is in no two of them.
-/
namespace Myframe
set_option autoImplicit false

namespace ListHeap

open LinkRing

variable {ℓ ν : Type}

/-- What an operation does to the sequences. -/
def Op.meaning [DecidableEq ℓ] [DecidableEq ν] (σ : ℓ → List ν) : Op ℓ ν → ℓ → List ν
  | .addHead l n => Function.update σ l (n :: σ l)
  | .addTail l n => Function.update σ l (σ l ++ [n])
  | .del l n => Function.update σ l ((σ l).erase n)
  | .moveHead l n => Function.update σ l (n :: (σ l).erase n)
  | .moveTail l n => Function.update σ l ((σ l).erase n ++ [n])
  | .delHead l => Function.update σ l (σ l).tail
  | .delTail l => Function.update σ l (σ l).dropLast
  | .delWithIndex l index => Function.update σ l (if 0 ≤ index then (σ l).eraseIdx index.toNat else σ l)
  | .append l source => Function.update (Function.update σ l (σ l ++ σ source)) source []
  | .clear l => Function.update σ l []

/-- A node is added that is in no list, taken from the list it is in; a list is appended to another one. -/
def Op.Allowed (σ : ℓ → List ν) : Op ℓ ν → Prop
  | .addHead _ n | .addTail _ n => ∀ k, n ∉ σ k
  | .del l n | .moveHead l n | .moveTail l n => n ∈ σ l
  | .append l source => l ≠ source
  | .delHead _ | .delTail _ | .delWithIndex _ _ | .clear _ => True

def ringOf (l : ℓ) (xs : List ν) : List (Addr ℓ ν) := .root l :: xs.map .node

/-- The lists represent the sequences. -/
structure Represents (h : ListHeap ℓ ν) (σ : ℓ → List ν) : Prop where
  ring : ∀ l, h.Ring (ringOf l (σ l))
  nodup : ∀ l, (σ l).Nodup
  apart : ∀ l k n, n ∈ σ l → n ∈ σ k → l = k
  count : ∀ l, h.count l = (σ l).length

theorem node_mem_ringOf {l : ℓ} {xs : List ν} {n : ν} : Addr.node n ∈ ringOf l xs ↔ n ∈ xs := by
  simp [ringOf]

theorem ringOf_nodup {l : ℓ} {xs : List ν} (h : xs.Nodup) : (ringOf l xs).Nodup := by
  refine List.nodup_cons.mpr ⟨by simp, h.map fun _ _ hEq => ?_⟩
  exact Addr.node.inj hEq

theorem Represents.initial : (initial : ListHeap ℓ ν).Represents fun _ => [] where
  ring _ := .cons_cons ⟨rfl, rfl⟩ (.singleton _)
  nodup _ := List.nodup_nil
  apart _ _ _ h := absurd h List.not_mem_nil
  count _ := rfl

variable {h : ListHeap ℓ ν} {σ : ℓ → List ν} {l : ℓ} {n : ν}

theorem Represents.notMem_ring (hRep : h.Represents σ) {k : ℓ} (hk : k ≠ l) {a : Addr ℓ ν}
    (ha : a ∈ ringOf l (σ l)) : a ∉ ringOf k (σ k) := by
  intro hMem
  cases a with
  | root j => simp only [ringOf, List.mem_cons, Addr.root.injEq, List.mem_map, reduceCtorEq, and_false,
      exists_false, or_false] at ha hMem; exact hk (hMem.symm.trans ha)
  | node n => exact hk (hRep.apart k l n (node_mem_ringOf.mp hMem) (node_mem_ringOf.mp ha))

variable [DecidableEq ℓ]

theorem Represents.update (hRep : h.Represents σ) {t : ListHeap ℓ ν} {xs : List ν}
    (hRing : t.Ring (ringOf l xs)) (hNodup : xs.Nodup) (hApart : ∀ n ∈ xs, ∀ k ≠ l, n ∉ σ k)
    (hOthers : ∀ k ≠ l, t.Ring (ringOf k (σ k))) (hCount : t.count = Function.update h.count l xs.length) :
    t.Represents (Function.update σ l xs) := by
  constructor
  · intro k
    obtain rfl | hk := eq_or_ne k l
    · rwa [Function.update_self]
    · rw [Function.update_of_ne hk]
      exact hOthers k hk
  · intro k
    obtain rfl | hk := eq_or_ne k l
    · rwa [Function.update_self]
    · rw [Function.update_of_ne hk]
      exact hRep.nodup k
  · intro j k n hj hk
    simp only [Function.update_apply] at hj hk
    split at hj
    · next hjl =>
      split at hk
      · next hkl => rw [hjl, hkl]
      · next hkl => exact absurd hk (hApart n hj k hkl)
    · next hjl =>
      split at hk
      · exact absurd hj (hApart n hk j hjl)
      · exact hRep.apart j k n hj hk
  · intro k
    rw [hCount]
    obtain rfl | hk := eq_or_ne k l
    · rw [Function.update_self, Function.update_self]
    · rw [Function.update_of_ne hk, Function.update_of_ne hk]
      exact hRep.count k

variable [DecidableEq ν]

theorem rawAdd_eq (h : ListHeap ℓ ν) (l : ℓ) {p q x : Addr ℓ ν} (hq : x ≠ q) :
    h.rawAdd l (some p) (some q) (some x) =
      some { toLinks := (h.link p x).link x q, count := Function.update h.count l (h.count l + 1) } := by
  simp only [rawAdd, reduceCtorEq, if_false, setCount, setNext, setPrev, Option.map_some, Option.bind_eq_bind,
    Option.bind_some]
  simp only [Links.link, Function.update_comm hq]

theorem Represents.of_insert (hRep : h.Represents σ) (hNew : ∀ k, n ∉ σ k) {p q : Addr ℓ ν}
    (hp : p ∈ ringOf l (σ l)) (hq : q ∈ ringOf l (σ l)) {xs : List ν} (hPerm : xs.Perm (n :: σ l))
    (hRing : ((h.link p (.node n)).link (.node n) q).Ring (ringOf l xs)) :
    ∃ t, h.rawAdd l (some p) (some q) (some (.node n)) = some t ∧ t.Represents (Function.update σ l xs) := by
  have hFresh : ∀ k, Addr.node n ∉ ringOf k (σ k) := fun k => node_mem_ringOf.not.mpr (hNew k)
  have hNodup : xs.Nodup := hPerm.nodup_iff.mpr (List.nodup_cons.mpr ⟨hNew l, hRep.nodup l⟩)
  refine ⟨_, h.rawAdd_eq l fun hEq => hFresh l (hEq ▸ hq), hRep.update hRing hNodup ?_ ?_ ?_⟩
  · intro m hm k hk hMem
    obtain rfl | hm := List.mem_cons.mp (hPerm.mem_iff.mp hm)
    · exact hNew k hMem
    · exact hk (hRep.apart k l m hMem hm)
  · intro k hk
    exact ((hRep.ring k).link_of_notMem (hRep.notMem_ring hk hp) (hFresh k)).link_of_notMem (hFresh k)
      (hRep.notMem_ring hk hq)
  · simp only [hRep.count l, hPerm.length_eq, List.length_cons]
    push_cast
    rfl

theorem Represents.addHead (hRep : h.Represents σ) (hNew : ∀ k, n ∉ σ k) :
    ∃ t, h.addHead l (some (.node n)) = some t ∧ t.Represents (Function.update σ l (n :: σ l)) := by
  obtain ⟨q, hq, hNext, hRing⟩ := (hRep.ring l).insert_after (ringOf_nodup (hRep.nodup l))
    (node_mem_ringOf.not.mpr (hNew l))
  rw [ListHeap.addHead, hNext]
  exact hRep.of_insert hNew List.mem_cons_self hq (.refl _) hRing

theorem Represents.addTail (hRep : h.Represents σ) (hNew : ∀ k, n ∉ σ k) :
    ∃ t, h.addTail l (some (.node n)) = some t ∧ t.Represents (Function.update σ l (σ l ++ [n])) := by
  obtain ⟨p, hp, hPrev, hRing⟩ := (hRep.ring l).insert_before (ringOf_nodup (hRep.nodup l))
    (node_mem_ringOf.not.mpr (hNew l))
  rw [ListHeap.addTail, hPrev]
  refine hRep.of_insert hNew hp List.mem_cons_self (List.perm_append_singleton n (σ l)) ?_
  rwa [ringOf, List.map_append]

theorem Represents.rawDel (hRep : h.Represents σ) (hn : n ∈ σ l) :
    ∃ p q t, h.prev (.node n) = some p ∧ h.next (.node n) = some q ∧ h.rawDel l (some p) (some q) = some t ∧
      t.Represents (Function.update σ l ((σ l).erase n)) := by
  obtain ⟨before, after, hSplit⟩ := List.append_of_mem hn
  have hNodup := hRep.nodup l
  rw [hSplit] at hNodup
  have hErase : (σ l).erase n = before ++ after := by
    rw [hSplit, List.erase_append_right _ fun hMem => ?_, List.erase_cons_head]
    exact (List.nodup_append.mp hNodup).2.2 n hMem n List.mem_cons_self rfl
  have hRotated : h.Ring (.node n :: (after.map .node ++ ringOf l before)) := by
    have hRing := hRep.ring l
    rw [hSplit, ringOf, List.map_append, ← List.cons_append] at hRing
    exact (Links.ring_append_comm _ _).mp hRing
  have hPerm : (ringOf l (σ l)).Perm (.node n :: (after.map .node ++ ringOf l before)) := by
    rw [hSplit, ringOf, List.map_append, ← List.cons_append]
    exact List.perm_append_comm
  obtain ⟨p, hp, q, hq, hPrev, hNext, hRing⟩ := hRotated.remove
    (hPerm.nodup_iff.mp (ringOf_nodup (hRep.nodup l))) (by simp [ringOf])
  have hp : p ∈ ringOf l (σ l) := hPerm.mem_iff.mpr (List.mem_cons_of_mem _ hp)
  have hq : q ∈ ringOf l (σ l) := hPerm.mem_iff.mpr (List.mem_cons_of_mem _ hq)
  refine ⟨p, q, _, hPrev, hNext, rfl, hRep.update ?_ ((hRep.nodup l).erase n) ?_ ?_ ?_⟩
  · rw [hErase, ringOf, List.map_append, ← List.cons_append]
    exact (Links.ring_append_comm _ _).mp hRing
  · exact fun m hm k hk hMem => hk (hRep.apart k l m hMem (List.mem_of_mem_erase hm))
  · exact fun k hk => (hRep.ring k).link_of_notMem (hRep.notMem_ring hk hp) (hRep.notMem_ring hk hq)
  · have hPos : 0 < (σ l).length := List.length_pos_of_mem hn
    have hLess : (((σ l).length - 1 : ℕ) : ℤ) = h.count l - 1 := by
      rw [hRep.count l]
      omega
    rw [List.length_erase_of_mem hn, hLess]
    rfl

theorem Represents.link_self (hRep : h.Represents σ) (hFree : ∀ k, n ∉ σ k) :
    ListHeap.Represents { toLinks := h.link (.node n) (.node n), count := h.count } σ where
  ring k := (hRep.ring k).link_of_notMem (node_mem_ringOf.not.mpr (hFree k)) (node_mem_ringOf.not.mpr (hFree k))
  nodup := hRep.nodup
  apart := hRep.apart
  count := hRep.count

theorem Represents.taken (hRep : h.Represents σ) (hn : n ∈ σ l) (k : ℓ) :
    n ∉ Function.update σ l ((σ l).erase n) k := by
  rw [Function.update_apply]
  split
  · exact (hRep.nodup l).not_mem_erase
  · next hk => exact fun hMem => hk (hRep.apart k l n hMem hn)

theorem Represents.del (hRep : h.Represents σ) (hn : n ∈ σ l) :
    ∃ t, h.del l (some (.node n)) = some t ∧ t.Represents (Function.update σ l ((σ l).erase n)) := by
  obtain ⟨p, q, t, hPrev, hNext, hDel, hLeft⟩ := hRep.rawDel hn
  refine ⟨_, ?_, hLeft.link_self (hRep.taken hn)⟩
  simp only [ListHeap.del, getPrev, getNext, Option.map_some, Option.bind_eq_bind, Option.bind_some, hPrev, hNext,
    hDel, setNext, setPrev]
  rfl

theorem Represents.moveHead (hRep : h.Represents σ) (hn : n ∈ σ l) :
    ∃ t, h.moveHead l (some (.node n)) = some t ∧ t.Represents (Function.update σ l (n :: (σ l).erase n)) := by
  obtain ⟨p, q, t, hPrev, hNext, hDel, hLeft⟩ := hRep.rawDel hn
  obtain ⟨u, hAdd, hAdded⟩ := hLeft.addHead (l := l) (hRep.taken hn)
  rw [Function.update_self, Function.update_idem] at hAdded
  refine ⟨u, ?_, hAdded⟩
  simp only [ListHeap.moveHead, getPrev, getNext, Option.map_some, Option.bind_eq_bind, Option.bind_some, hPrev,
    hNext, hDel, hAdd]

theorem Represents.moveTail (hRep : h.Represents σ) (hn : n ∈ σ l) :
    ∃ t, h.moveTail l (some (.node n)) = some t ∧ t.Represents (Function.update σ l ((σ l).erase n ++ [n])) := by
  obtain ⟨p, q, t, hPrev, hNext, hDel, hLeft⟩ := hRep.rawDel hn
  obtain ⟨u, hAdd, hAdded⟩ := hLeft.addTail (l := l) (hRep.taken hn)
  rw [Function.update_self, Function.update_idem] at hAdded
  refine ⟨u, ?_, hAdded⟩
  simp only [ListHeap.moveTail, getPrev, getNext, Option.map_some, Option.bind_eq_bind, Option.bind_some, hPrev,
    hNext, hDel, hAdd]

theorem Represents.isEmpty_iff (hRep : h.Represents σ) : h.isEmpty l = true ↔ σ l = [] := by
  rw [isEmpty, decide_eq_true_eq, (hRep.ring l).next_head]
  cases σ l with
  | nil => simp
  | cons n xs => simp

theorem Represents.delHead (hRep : h.Represents σ) :
    ∃ t, h.delHead l = some t ∧ t.Represents (Function.update σ l (σ l).tail) := by
  rw [ListHeap.delHead]
  cases hList : σ l with
  | nil =>
    refine ⟨h, if_pos (hRep.isEmpty_iff.mpr hList), ?_⟩
    rwa [List.tail_nil, ← hList, Function.update_eq_self]
  | cons n xs =>
    have hNot : ¬ h.isEmpty l = true := by simp [hRep.isEmpty_iff, hList]
    obtain ⟨t, hDel, hLeft⟩ := hRep.del (l := l) (n := n) (by simp [hList])
    rw [hList, List.erase_cons_head] at hLeft
    refine ⟨t, ?_, hLeft⟩
    rw [if_neg hNot, (hRep.ring l).next_head, hList]
    exact hDel

theorem Represents.delTail (hRep : h.Represents σ) :
    ∃ t, h.delTail l = some t ∧ t.Represents (Function.update σ l (σ l).dropLast) := by
  rw [ListHeap.delTail]
  obtain hNil | ⟨xs, n, hList⟩ := List.eq_nil_or_concat' (σ l)
  · refine ⟨h, if_pos (hRep.isEmpty_iff.mpr hNil), ?_⟩
    rwa [hNil, List.dropLast_nil, ← hNil, Function.update_eq_self]
  · have hNot : ¬ h.isEmpty l = true := by simp [hRep.isEmpty_iff, hList]
    obtain ⟨t, hDel, hLeft⟩ := hRep.del (l := l) (n := n) (by simp [hList])
    have hNotMem : n ∉ xs := by
      have hNodup := hRep.nodup l
      rw [hList] at hNodup
      exact fun hMem => (List.nodup_append.mp hNodup).2.2 n hMem n List.mem_cons_self rfl
    rw [hList, List.erase_append_right _ hNotMem, List.erase_cons_head, List.append_nil] at hLeft
    rw [hList, List.dropLast_concat]
    refine ⟨t, ?_, hLeft⟩
    rw [if_neg hNot, (hRep.ring l).prev_head, hList, List.map_append, List.map_singleton, ← List.cons_append,
      List.getLast?_concat]
    exact hDel

theorem Represents.append {source : ℓ} (hRep : h.Represents σ) (hNe : l ≠ source) :
    ∃ t, h.append l source = some t ∧
      t.Represents (Function.update (Function.update σ l (σ l ++ σ source)) source []) := by
  rw [ListHeap.append]
  by_cases hEmpty : σ source = []
  · refine ⟨h, if_pos (hRep.isEmpty_iff.mpr hEmpty), ?_⟩
    rwa [hEmpty, List.append_nil, Function.update_eq_self, ← hEmpty, Function.update_eq_self]
  · rw [if_neg (hRep.isEmpty_iff.not.mpr hEmpty)]
    have hApart : ∀ n ∈ σ l, n ∉ σ source := fun n hn hMem => hNe (hRep.apart l source n hn hMem)
    have hNodup : (ringOf l (σ l) ++ ringOf source (σ source)).Nodup := by
      refine List.nodup_append.mpr ⟨ringOf_nodup (hRep.nodup l), ringOf_nodup (hRep.nodup source), ?_⟩
      rintro a ha _ ha' rfl
      exact hRep.notMem_ring hNe ha' ha
    obtain ⟨p, hp, f, hf, t, ht, hPrev, hNext, hPrev', hRing⟩ :=
      (hRep.ring l).splice (hRep.ring source) (by simpa using hEmpty) hNodup
    have hf : f ∈ ringOf source (σ source) := List.mem_cons_of_mem _ hf
    have ht : t ∈ ringOf source (σ source) := List.mem_cons_of_mem _ ht
    have hRoot : Addr.root source ∉ ringOf l (σ l ++ σ source) := by simp [ringOf, Ne.symm hNe]
    have hJoined : (ringOf l (σ l ++ σ source)) = .root l :: ((σ l).map .node ++ (σ source).map .node) := by
      rw [ringOf, List.map_append]
    refine ⟨{ toLinks := ((h.link p f).link t (.root l)).link (.root source) (.root source)
              count := Function.update (Function.update h.count l (h.count l + h.count source)) source 0 },
      ?_, ?_, ?_, ?_, ?_⟩
    · simp only [hPrev, hNext, hPrev', setNext, setPrev, Option.map_some, Option.bind_eq_bind, Option.bind_some]
      rfl
    · intro k
      obtain rfl | hk := eq_or_ne k source
      · rw [Function.update_self]
        exact Links.ring_singleton _ _
      · rw [Function.update_of_ne hk]
        obtain rfl | hkl := eq_or_ne k l
        · rw [Function.update_self, hJoined]
          exact hRing.link_of_notMem (hJoined ▸ hRoot) (hJoined ▸ hRoot)
        · rw [Function.update_of_ne hkl]
          have hFirst := (hRep.ring k).link_of_notMem (hRep.notMem_ring hkl hp) (hRep.notMem_ring hk hf)
          have hSecond := hFirst.link_of_notMem (hRep.notMem_ring hk ht) (hRep.notMem_ring hkl List.mem_cons_self)
          exact hSecond.link_of_notMem (hRep.notMem_ring hk List.mem_cons_self)
            (hRep.notMem_ring hk List.mem_cons_self)
    · intro k
      simp only [Function.update_apply]
      split
      · exact List.nodup_nil
      · split
        · exact List.nodup_append.mpr ⟨hRep.nodup l, hRep.nodup source, fun a ha b hb hEq => hApart a ha (hEq ▸ hb)⟩
        · exact hRep.nodup k
    · -- what has come from the source is in the source no more
      have hHome : ∀ k m, m ∈ Function.update (Function.update σ l (σ l ++ σ source)) source [] k →
          k ≠ source ∧ ∃ j, m ∈ σ j ∧ (k = if j = source then l else j) := by
        intro k m hm
        simp only [Function.update_apply] at hm
        split at hm
        · exact absurd hm List.not_mem_nil
        · next hk =>
          refine ⟨hk, ?_⟩
          split at hm
          · next hkl =>
            obtain hm | hm := List.mem_append.mp hm
            · exact ⟨l, hm, by rw [if_neg hNe, hkl]⟩
            · exact ⟨source, hm, by rw [if_pos rfl, hkl]⟩
          · exact ⟨k, hm, by rw [if_neg hk]⟩
      intro j k m hj hk
      obtain ⟨-, j', hj', rfl⟩ := hHome j m hj
      obtain ⟨-, k', hk', rfl⟩ := hHome k m hk
      rw [hRep.apart j' k' m hj' hk']
    · intro k
      simp only [Function.update_apply]
      split
      · rfl
      · split
        · rw [hRep.count, hRep.count, List.length_append]
          push_cast
          rfl
        · exact hRep.count k

omit [DecidableEq ℓ] [DecidableEq ν] in
theorem seek_chain {s : Links (Addr ℓ ν)} {a : Addr ℓ ν} {as : List (Addr ℓ ν)} {dir index tempIndex : ℤ} {fuel : ℕ}
    (hChain : List.IsChain s.Linked (a :: as)) (hDir : dir ≠ 0) (hIndex : index = tempIndex + dir * as.length)
    (hFuel : as.length < fuel) : seek s.next dir index fuel tempIndex (some a) = some (a :: as).getLast? := by
  induction as generalizing a tempIndex fuel with
  | nil =>
    obtain ⟨fuel, rfl⟩ := Nat.exists_eq_succ_of_ne_zero (Nat.ne_zero_of_lt hFuel)
    have hHere : index = tempIndex := by simpa using hIndex
    rw [seek, if_neg (not_not.mpr hHere)]
    rfl
  | cons b as ih =>
    obtain ⟨fuel, rfl⟩ := Nat.exists_eq_succ_of_ne_zero (Nat.ne_zero_of_lt hFuel)
    obtain ⟨hLinked, hRest⟩ := List.isChain_cons_cons.mp hChain
    have hSteps : index = tempIndex + dir + dir * as.length := by
      rw [hIndex, List.length_cons, Int.natCast_succ, Int.mul_add, Int.mul_one]
      omega
    have hNot : index ≠ tempIndex := by
      intro hEq
      have hZero : dir * ((as.length : ℤ) + 1) = 0 := by
        rw [Int.mul_add, Int.mul_one]
        omega
      have hNe : (as.length : ℤ) + 1 ≠ 0 := by omega
      exact (Int.mul_ne_zero hDir hNe) hZero
    rw [seek, if_pos hNot, Option.bind_some, hLinked.1, ih hRest hSteps (Nat.lt_of_succ_lt_succ hFuel),
      List.getLast?_cons_cons]

theorem getLast?_cons_take {α : Type} {a : α} {l : List α} {k : ℕ} (hk : k < l.length) :
    (a :: l.take (k + 1)).getLast? = l[k]? := by
  rw [List.getLast?_eq_getElem?, List.length_cons, List.length_take, Nat.min_eq_left hk, Nat.add_sub_cancel,
    List.getElem?_cons_succ, List.getElem?_take_of_lt (Nat.lt_succ_self k)]

omit [DecidableEq ℓ] [DecidableEq ν] in
theorem seek_ring {s : Links (Addr ℓ ν)} {a : Addr ℓ ν} {as : List (Addr ℓ ν)} {dir index tempIndex : ℤ}
    {fuel k : ℕ} (hRing : s.Ring (a :: as)) (hk : k < as.length) (hDir : dir ≠ 0)
    (hIndex : index = tempIndex + dir * (k + 1)) (hFuel : k + 1 < fuel) :
    seek s.next dir index fuel tempIndex (some a) = some as[k]? := by
  have hLength : (as.take (k + 1)).length = k + 1 := by
    rw [List.length_take, Nat.min_eq_left hk]
  rw [seek_chain (hRing.chain.take (k + 1 + 1)) hDir (by rw [hLength, hIndex, Int.natCast_succ])
    (by rwa [hLength]), getLast?_cons_take hk]

theorem Represents.getData (hRep : h.Represents σ) {index : ℤ} (h0 : 0 ≤ index) (hLt : index < h.count l)
    {fuel : ℕ} (hFuel : (σ l).length < fuel) :
    h.getData fuel l index = some ((σ l)[index.toNat]?.map .node) := by
  have hCount := hRep.count l
  obtain ⟨k, rfl⟩ := Int.eq_ofNat_of_zero_le h0
  have hk : k < (σ l).length := by omega
  have hSome : ¬ h.isEmpty l = true := by
    rw [hRep.isEmpty_iff, ← List.length_eq_zero_iff]
    omega
  rw [ListHeap.getData, if_neg hSome, if_neg (by omega), Int.toNat_natCast, ← List.getElem?_map]
  split
  · -- from the end: the same ring, read the other way
    have hSwap : h.swap.Ring (.root l :: ((σ l).map .node).reverse) :=
      (Links.ring_swap _ _).mpr (by rw [List.reverse_reverse]; exact hRep.ring l)
    have hBack : (σ l).length - 1 - k < ((σ l).map (Addr.node : ν → Addr ℓ ν)).length := by
      rw [List.length_map]
      omega
    rw [show h.prev = h.swap.next from rfl,
      seek_ring hSwap (k := (σ l).length - 1 - k) (by rwa [List.length_reverse]) (by decide)
        (by rw [hCount]; omega) (by omega), List.getElem?_reverse hBack]
    congr 2
    rw [List.length_map]
    omega
  · exact seek_ring (hRep.ring l) (by rwa [List.length_map]) (by decide) (by omega) (by omega)

theorem Represents.delWithIndex (hRep : h.Represents σ) (index : ℤ) {fuel : ℕ} (hFuel : (σ l).length < fuel) :
    ∃ t, h.delWithIndex fuel l index = some t ∧ t.Represents
      (Function.update σ l (if 0 ≤ index then (σ l).eraseIdx index.toNat else σ l)) := by
  have hCount := hRep.count l
  rw [ListHeap.delWithIndex]
  by_cases hIn : 0 ≤ index ∧ index < h.count l
  · obtain ⟨h0, hLt⟩ := hIn
    have hk : index.toNat < (σ l).length := by omega
    have hSome : ¬ h.isEmpty l = true := by
      rw [hRep.isEmpty_iff, ← List.length_eq_zero_iff]
      omega
    obtain ⟨p, q, t, hPrev, hNext, hDel, hLeft⟩ := hRep.rawDel (List.getElem_mem hk)
    refine ⟨t, ?_, ?_⟩
    · rw [if_neg hSome, hRep.getData h0 hLt hFuel, List.getElem?_eq_getElem hk]
      simp only [Option.map_some, Option.bind_eq_bind, Option.bind_some, reduceCtorEq, if_false, getPrev, getNext,
        hPrev, hNext, hDel]
    · rwa [if_pos h0, ← (hRep.nodup l).erase_getElem _ hk]
  · have hSame : (if 0 ≤ index then (σ l).eraseIdx index.toNat else σ l) = σ l := by
      split
      · exact List.eraseIdx_of_length_le (by omega)
      · rfl
    rw [hSame, Function.update_eq_self]
    refine ⟨h, ?_, hRep⟩
    split
    · rfl
    · next hSome =>
      rw [ListHeap.getData, if_neg hSome, if_pos (by omega)]
      rfl

theorem Represents.clearLoop {fuel : ℕ} (hRep : h.Represents σ) (hFuel : (σ l).length < fuel) :
    ∃ t, clearLoop l fuel h = some t ∧ t.Represents (Function.update σ l []) := by
  induction fuel generalizing h σ with
  | zero => exact absurd hFuel (Nat.not_lt_zero _)
  | succ fuel ih =>
    rw [ListHeap.clearLoop]
    split
    · next hEmpty =>
      refine ⟨h, rfl, ?_⟩
      rwa [← hRep.isEmpty_iff.mp hEmpty, Function.update_eq_self]
    · next hSome =>
      obtain ⟨t, hDel, hLeft⟩ := hRep.delHead (l := l)
      have hPos : 0 < (σ l).length := List.length_pos_of_ne_nil (hRep.isEmpty_iff.not.mp hSome)
      obtain ⟨u, hLoop, hEnd⟩ := ih hLeft (by rw [Function.update_self, List.length_tail]; omega)
      rw [Function.update_idem] at hEnd
      exact ⟨u, by rw [hDel, Option.bind_some, hLoop], hEnd⟩

theorem Represents.clear {fuel : ℕ} (hRep : h.Represents σ) (hFuel : (σ l).length < fuel) :
    ∃ t, h.clear fuel l = some t ∧ t.Represents (Function.update σ l []) := by
  obtain ⟨t, hLoop, hEnd⟩ := hRep.clearLoop hFuel
  have hCount : t.count l = 0 := by rw [hEnd.count, Function.update_self]; rfl
  have hSame : t.setCount l 0 = t := by
    rw [setCount, ← hCount, Function.update_eq_self]
  exact ⟨t, by rw [ListHeap.clear, hLoop, Option.map_some, hSame], hEnd⟩

/-- The operations are allowed one after the other. -/
def AllowedRun : (ℓ → List ν) → List (Op ℓ ν) → Prop
  | _, [] => True
  | σ, op :: ops => op.Allowed σ ∧ AllowedRun (op.meaning σ) ops

theorem Represents.apply {op : Op ℓ ν} {fuel : ℕ} (hRep : h.Represents σ) (hAllowed : op.Allowed σ)
    (hFuel : ∀ l, (σ l).length < fuel) : ∃ t, h.apply fuel op = some t ∧ t.Represents (op.meaning σ) := by
  cases op with
  | addHead l n => exact hRep.addHead hAllowed
  | addTail l n => exact hRep.addTail hAllowed
  | del l n => exact hRep.del hAllowed
  | moveHead l n => exact hRep.moveHead hAllowed
  | moveTail l n => exact hRep.moveTail hAllowed
  | delHead l => exact hRep.delHead
  | delTail l => exact hRep.delTail
  | delWithIndex l index => exact hRep.delWithIndex index (hFuel l)
  | append l source => exact hRep.append hAllowed
  | clear l => exact hRep.clear (hFuel l)

theorem Op.meaning_subset (op : Op ℓ ν) {known : List ν} (hKnown : ∀ l, σ l ⊆ known) :
    ∃ known', known'.length ≤ known.length + 1 ∧ ∀ l, op.meaning σ l ⊆ known' := by
  have hOne : ∀ (l : ℓ) (n : ν) (xs : List ν), xs ⊆ n :: known →
      ∀ k, Function.update σ l xs k ⊆ n :: known := by
    intro l n xs hxs k
    rw [Function.update_apply]
    split
    · exact hxs
    · exact List.Subset.trans (hKnown k) (List.subset_cons_self n known)
  have hNone : ∀ (l : ℓ) (xs : List ν), xs ⊆ known → ∀ k, Function.update σ l xs k ⊆ known := by
    intro l xs hxs k
    rw [Function.update_apply]
    split
    · exact hxs
    · exact hKnown k
  have hErase : ∀ (l : ℓ) (n : ν), (σ l).erase n ⊆ known :=
    fun l n => List.Subset.trans List.erase_subset (hKnown l)
  cases op with
  | addHead l n => exact ⟨n :: known, le_rfl, hOne l n _ (List.cons_subset_cons n (hKnown l))⟩
  | addTail l n =>
    refine ⟨n :: known, le_rfl, hOne l n _ (List.append_subset.mpr ⟨?_, by simp⟩)⟩
    exact List.Subset.trans (hKnown l) (List.subset_cons_self n known)
  | moveHead l n => exact ⟨n :: known, le_rfl, hOne l n _ (List.cons_subset_cons n (hErase l n))⟩
  | moveTail l n =>
    refine ⟨n :: known, le_rfl, hOne l n _ (List.append_subset.mpr ⟨?_, by simp⟩)⟩
    exact List.Subset.trans (hErase l n) (List.subset_cons_self n known)
  | del l n => exact ⟨known, Nat.le_succ _, hNone l _ (hErase l n)⟩
  | delHead l => exact ⟨known, Nat.le_succ _, hNone l _ (List.Subset.trans (List.tail_sublist _).subset (hKnown l))⟩
  | delTail l => exact ⟨known, Nat.le_succ _, hNone l _ (List.Subset.trans (List.dropLast_subset _) (hKnown l))⟩
  | delWithIndex l index =>
    refine ⟨known, Nat.le_succ _, hNone l _ ?_⟩
    split
    · exact List.Subset.trans (List.eraseIdx_sublist _ _).subset (hKnown l)
    · exact hKnown l
  | append l source =>
    refine ⟨known, Nat.le_succ _, fun k => ?_⟩
    rw [meaning, Function.update_apply]
    split
    · exact List.nil_subset _
    · exact hNone l _ (List.append_subset.mpr ⟨hKnown l, hKnown source⟩) k
  | clear l => exact ⟨known, Nat.le_succ _, hNone l _ (List.nil_subset _)⟩

theorem Represents.runOps {ops : List (Op ℓ ν)} {fuel : ℕ} {known : List ν} (hRep : h.Represents σ)
    (hAllowed : AllowedRun σ ops) (hKnown : ∀ l, σ l ⊆ known) (hFuel : known.length + ops.length < fuel) :
    ∃ t, h.runOps fuel ops = some t ∧ t.Represents (ops.foldl Op.meaning σ) ∧
      ∀ l, (ops.foldl Op.meaning σ l).length < fuel := by
  induction ops generalizing h σ known with
  | nil =>
    refine ⟨h, rfl, hRep, fun l => ?_⟩
    have hLength := (hRep.nodup l).length_le_of_subset (hKnown l)
    rw [List.foldl_nil]
    omega
  | cons op ops ih =>
    obtain ⟨hFirst, hRest⟩ := hAllowed
    rw [List.length_cons] at hFuel
    have hLengths : ∀ l, (σ l).length < fuel := by
      intro l
      have hLength := (hRep.nodup l).length_le_of_subset (hKnown l)
      omega
    obtain ⟨t, hApply, hAfter⟩ := hRep.apply hFirst hLengths
    obtain ⟨known', hLess, hKnown'⟩ := op.meaning_subset hKnown
    obtain ⟨u, hRun, hEnd⟩ := ih hAfter hRest hKnown' (by omega)
    exact ⟨u, by rw [ListHeap.runOps, hApply, Option.bind_some, hRun], hEnd⟩

theorem Represents.forward (hRep : h.Represents σ) {fuel : ℕ} (hFuel : (σ l).length < fuel) :
    h.forward fuel l = some ((σ l).map .node) :=
  (hRep.ring l).walk_next (ringOf_nodup (hRep.nodup l)) (by rwa [List.length_map])

theorem Represents.backward (hRep : h.Represents σ) {fuel : ℕ} (hFuel : (σ l).length < fuel) :
    h.backward fuel l = some ((σ l).reverse.map .node) := by
  rw [List.map_reverse]
  exact (hRep.ring l).walk_prev (ringOf_nodup (hRep.nodup l)) (by rwa [List.length_map])

/-- What a reader of the lists sees. -/
structure Reads (fuel : ℕ) (h : ListHeap ℓ ν) (σ : ℓ → List ν) : Prop where
  nodup : ∀ l, (σ l).Nodup
  apart : ∀ l k n, n ∈ σ l → n ∈ σ k → l = k
  forward : ∀ l, h.forward fuel l = some ((σ l).map .node)
  backward : ∀ l, h.backward fuel l = some ((σ l).reverse.map .node)
  count : ∀ l, h.count l = (σ l).length
  isEmpty : ∀ l, h.isEmpty l = true ↔ σ l = []
  getData : ∀ l (k : ℕ) (hk : k < (σ l).length), h.getData fuel l k = some (some (.node (σ l)[k]))

/-- Whatever allowed operations are run, with fuel for their number, none of them follows a null pointer, and the
lists read as the sequences that the operations mean. -/
theorem lists_implement_sequences (ops : List (Op ℓ ν)) (fuel : ℕ) (hAllowed : AllowedRun (fun _ => []) ops)
    (hFuel : ops.length < fuel) :
    ∃ h, initial.runOps fuel ops = some h ∧ h.Reads fuel (ops.foldl Op.meaning fun _ => []) := by
  obtain ⟨h, hRun, hRep, hLengths⟩ := Represents.initial.runOps hAllowed (fun _ => List.Subset.refl [])
    (by rwa [List.length_nil, Nat.zero_add])
  refine ⟨h, hRun, hRep.nodup, hRep.apart, fun l => hRep.forward (hLengths l), fun l => hRep.backward (hLengths l),
    hRep.count, fun l => hRep.isEmpty_iff, fun l k hk => ?_⟩
  rw [hRep.getData (Int.natCast_nonneg k) (by rw [hRep.count]; omega) (hLengths l), Int.toNat_natCast,
    List.getElem?_eq_getElem hk]
  rfl

theorem lists_implement_sequences_run :
    ∃ h : ListHeap Bool ℕ,
      initial.runOps 7 [.addTail false 1, .addHead false 2, .addTail true 3, .append false true, .moveHead false 3,
        .delWithIndex false 1] = some h ∧
      h.forward 7 false = some [.node 3, .node 1] ∧ h.count true = 0 := by
  obtain ⟨h, hRun, hReads⟩ := @lists_implement_sequences Bool ℕ _ _ [.addTail false 1, .addHead false 2,
    .addTail true 3, .append false true, .moveHead false 3, .delWithIndex false 1] 7
    (by simp [AllowedRun, Op.Allowed, Op.meaning]) (by decide)
  exact ⟨h, hRun, hReads.forward false, hReads.count true⟩

end ListHeap
end Myframe
