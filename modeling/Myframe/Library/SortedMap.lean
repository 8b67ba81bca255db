import Mathlib.Data.List.Basic
import Mathlib.Order.Lattice

/-! # Maps as lists sorted by their keys

An entry that is put in replaces the one with its key. What a map holds after a list of entries is the last
entry of each key.
-/
namespace SortedMap
set_option autoImplicit false

variable {κ β : Type*} [LinearOrder κ]

def put (k : κ) (v : β) : List (κ × β) → List (κ × β)
  | [] => [(k, v)]
  | e :: rest =>
    if e.1 < k then e :: put k v rest
    else if e.1 = k then (k, v) :: rest
    else (k, v) :: e :: rest

def Sorted (entries : List (κ × β)) : Prop := (entries.map Prod.fst).Pairwise (· < ·)

instance (entries : List (κ × β)) : Decidable (Sorted entries) :=
  inferInstanceAs (Decidable ((entries.map Prod.fst).Pairwise (· < ·)))

theorem put_ne_nil (k : κ) (v : β) (entries : List (κ × β)) : put k v entries ≠ [] := by
  cases entries with
  | nil => simp [put]
  | cons e rest =>
    rw [put]
    split
    · simp
    · split
      · simp
      · simp

theorem mem_put {k : κ} {v : β} {e : κ × β} {entries : List (κ × β)} (h : e ∈ put k v entries) :
    e = (k, v) ∨ e ∈ entries := by
  induction entries with
  | nil => exact .inl (List.mem_singleton.mp h)
  | cons e' rest ih =>
    rw [put] at h
    split at h
    · obtain rfl | h := List.mem_cons.mp h
      · exact .inr List.mem_cons_self
      · exact (ih h).imp_right (List.mem_cons_of_mem _)
    · split at h
      · exact (List.mem_cons.mp h).imp_right (List.mem_cons_of_mem _)
      · exact List.mem_cons.mp h

theorem mem_foldl_put {e : κ × β} {new entries : List (κ × β)}
    (h : e ∈ new.foldl (fun acc e => put e.1 e.2 acc) entries) : e ∈ new ∨ e ∈ entries := by
  induction new generalizing entries with
  | nil => exact .inr h
  | cons e' new ih =>
    obtain hNew | hAcc := ih h
    · exact .inl (List.mem_cons_of_mem _ hNew)
    · obtain rfl | hOld := mem_put hAcc
      · exact .inl List.mem_cons_self
      · exact .inr hOld

theorem Sorted.put {entries : List (κ × β)} (h : Sorted entries) (k : κ) (v : β) : Sorted (put k v entries) := by
  induction entries with
  | nil => exact List.pairwise_singleton _ _
  | cons e rest ih =>
    obtain ⟨hFirst, hRest⟩ := List.pairwise_cons.mp h
    rw [SortedMap.put]
    split
    · next hLess =>
      refine List.pairwise_cons.mpr ⟨fun k' hk => ?_, ih hRest⟩
      obtain ⟨e', he', rfl⟩ := List.mem_map.mp hk
      obtain rfl | hOld := mem_put he'
      · exact hLess
      · exact hFirst e'.1 (List.mem_map_of_mem hOld)
    · next hNot =>
      split
      · next hEq =>
        rw [hEq] at hFirst
        exact List.pairwise_cons.mpr ⟨hFirst, hRest⟩
      · next hNe =>
        have hLess : k < e.1 := lt_of_le_of_ne (not_lt.mp hNot) (Ne.symm hNe)
        refine List.pairwise_cons.mpr ⟨fun k' hk => ?_, h⟩
        obtain rfl | hk := List.mem_cons.mp hk
        · exact hLess
        · exact lt_trans hLess (hFirst k' hk)

theorem sorted_foldl_put (new : List (κ × β)) {entries : List (κ × β)} (h : Sorted entries) :
    Sorted (new.foldl (fun acc e => put e.1 e.2 acc) entries) := by
  induction new generalizing entries with
  | nil => exact h
  | cons e new ih => exact ih (h.put e.1 e.2)

variable [BEq κ] [LawfulBEq κ]

theorem lookup_cons_ite (k : κ) (e : κ × β) (rest : List (κ × β)) :
    (e :: rest).lookup k = if k = e.1 then some e.2 else rest.lookup k := by
  rw [List.lookup_cons]
  split
  · next hEq => rw [if_pos (beq_iff_eq.mp hEq)]
  · next hNe => rw [if_neg (beq_eq_false_iff_ne.mp hNe)]

theorem lookup_put (k k' : κ) (v : β) (entries : List (κ × β)) :
    (put k v entries).lookup k' = if k' = k then some v else entries.lookup k' := by
  induction entries with
  | nil => exact lookup_cons_ite k' (k, v) []
  | cons e rest ih =>
    rw [put]
    split
    · next hLess =>
      rw [lookup_cons_ite, ih, lookup_cons_ite]
      split
      · next hEq => rw [if_neg (hEq ▸ ne_of_lt hLess)]
      · rfl
    · split
      · next hEq =>
        rw [lookup_cons_ite, lookup_cons_ite, hEq]
        split
        · rfl
        · rfl
      · rw [lookup_cons_ite]

/-- After a list of entries, a key has the last of them that is its own. -/
theorem lookup_foldl_put (new entries : List (κ × β)) (k : κ) :
    (new.foldl (fun acc e => put e.1 e.2 acc) entries).lookup k =
      ((new.filter fun e => e.1 = k).getLast?.map Prod.snd).or (entries.lookup k) := by
  induction new generalizing entries with
  | nil => rfl
  | cons e new ih =>
    rw [List.foldl_cons, ih, lookup_put, List.filter_cons]
    obtain rfl | hNe := eq_or_ne k e.1
    · rw [if_pos rfl, if_pos (decide_eq_true rfl), List.getLast?_cons]
      cases (new.filter fun e' => e'.1 = e.1).getLast? with
      | none => rfl
      | some e' => rfl
    · rw [if_neg hNe, if_neg (by simpa using hNe.symm)]

/-- In a sorted list a key has one entry at most, the one that is looked up. -/
theorem Sorted.filter_key {entries : List (κ × β)} (h : Sorted entries) (k : κ) :
    (entries.filter fun e => e.1 = k) = (entries.lookup k).toList.map fun v => (k, v) := by
  induction entries with
  | nil => rfl
  | cons e rest ih =>
    obtain ⟨hFirst, hRest⟩ := List.pairwise_cons.mp h
    rw [List.filter_cons, lookup_cons_ite]
    obtain rfl | hNe := eq_or_ne k e.1
    · have hNone : (rest.filter fun e' => e'.1 = e.1) = [] := by
        rw [List.filter_eq_nil_iff]
        intro e' he' hEq
        exact ne_of_gt (hFirst e'.1 (List.mem_map_of_mem he')) (of_decide_eq_true hEq)
      simp [hNone]
    · simp [hNe, hNe.symm, ih hRest]

theorem Sorted.lookup_of_mem {entries : List (κ × β)} (h : Sorted entries) {e : κ × β} (he : e ∈ entries) :
    entries.lookup e.1 = some e.2 := by
  have hMem : e ∈ entries.filter fun e' => e'.1 = e.1 := List.mem_filter.mpr ⟨he, decide_eq_true rfl⟩
  rw [h.filter_key] at hMem
  obtain ⟨v, hv, hEq⟩ := List.mem_map.mp hMem
  rw [Option.mem_toList.mp hv, ← hEq]

/-- Under a key that is there, the entry is replaced where it stands. -/
theorem Sorted.put_eq_map {entries : List (κ × β)} (h : Sorted entries) {k : κ} {v' : β}
    (hKey : entries.lookup k = some v') (v : β) :
    SortedMap.put k v entries = entries.map fun e => (e.1, if e.1 = k then v else e.2) := by
  induction entries with
  | nil => cases hKey
  | cons e rest ih =>
    obtain ⟨hFirst, hRest⟩ := List.pairwise_cons.mp h
    rw [SortedMap.put, List.map_cons]
    rw [lookup_cons_ite] at hKey
    split at hKey
    · next hEq =>
      have hSame : (rest.map fun e => (e.1, if e.1 = k then v else e.2)) = rest := by
        conv_rhs => rw [← List.map_id rest]
        apply List.map_congr_left
        intro e' he'
        have hLess : k < e'.1 := hEq ▸ hFirst e'.1 (List.mem_map_of_mem he')
        rw [if_neg (ne_of_gt hLess), id]
      rw [hSame, if_neg (not_lt_of_ge hEq.le), if_pos hEq.symm, if_pos hEq.symm, hEq]
    · next hNe =>
      have hMem : k ∈ rest.map Prod.fst := by
        rw [List.mem_map]
        refine ⟨(k, v'), ?_, rfl⟩
        have hEntry : (k, v') ∈ rest.filter fun e => e.1 = k := by
          rw [Sorted.filter_key hRest, hKey]
          exact List.mem_singleton_self _
        exact List.mem_of_mem_filter hEntry
      rw [if_pos (hFirst k hMem), ih hRest hKey, if_neg (Ne.symm hNe)]

end SortedMap
