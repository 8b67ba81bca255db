import Mathlib.Data.List.Chain
import Mathlib.Data.List.Nodup
import Mathlib.Logic.Function.Basic

/-! # Rings of linked nodes

Each node has a link to the next and one to the previous node, either of which may be missing. A ring is
given by the list of its nodes, read from any of them; `link` joins two nodes, and inserting, removing and
splicing are a few such joins.
-/
namespace LinkRing
set_option autoImplicit false

structure Links (α : Type*) where
  next : α → Option α
  prev : α → Option α

namespace Links

variable {α : Type*}

def Linked (s : Links α) (x y : α) : Prop := s.next x = some y ∧ s.prev y = some x

/-- The ring read from its first node comes back to it. -/
def Ring (s : Links α) : List α → Prop
  | [] => True
  | a :: l => List.IsChain s.Linked (a :: (l ++ [a]))

/-- The same links read the other way. -/
def swap (s : Links α) : Links α := ⟨s.prev, s.next⟩

variable {s : Links α} {l m : List α} {a x y : α}

theorem linked_swap : s.swap.Linked x y ↔ s.Linked y x := and_comm

theorem ring_append_comm (l m : List α) : s.Ring (l ++ m) ↔ s.Ring (m ++ l) := by
  cases l with
  | nil => rw [List.append_nil, List.nil_append]
  | cons a l =>
    cases m with
    | nil => rw [List.append_nil, List.nil_append]
    | cons b m =>
      have hSplit : ∀ (c d : α) (k n : List α), s.Ring (c :: k ++ d :: n) ↔
          List.IsChain s.Linked (c :: k ++ [d]) ∧ List.IsChain s.Linked (d :: n ++ [c]) := by
        intro c d k n
        change List.IsChain s.Linked (c :: ((k ++ d :: n) ++ [c])) ↔ _
        rw [List.append_assoc]
        exact List.isChain_cons_split
      rw [hSplit, hSplit, and_comm]

theorem ring_swap (a : α) (l : List α) : s.swap.Ring (a :: l) ↔ s.Ring (a :: l.reverse) := by
  have hReverse : a :: (l ++ [a]) = (a :: (l.reverse ++ [a])).reverse := by simp
  rw [Ring, Ring, hReverse, List.isChain_reverse]
  exact List.IsChain.iff fun _ _ => linked_swap

theorem Ring.chain (h : s.Ring l) : List.IsChain s.Linked l := by
  cases l with
  | nil => exact .nil
  | cons a l =>
    rw [Ring, ← List.cons_append] at h
    exact (List.isChain_append.mp h).1

theorem Ring.next_head (h : s.Ring (a :: l)) : s.next a = (l ++ [a]).head? := by
  cases l with
  | nil => exact (List.isChain_cons_cons.mp h).1.1
  | cons b l => exact (List.isChain_cons_cons.mp h).1.1

theorem Ring.prev_head (h : s.Ring (a :: l)) : s.prev a = (a :: l).getLast? := by
  have hSwap : s.swap.Ring (a :: l.reverse) := (ring_swap a l.reverse).mpr (by rwa [List.reverse_reverse])
  rw [show s.prev a = s.swap.next a from rfl, hSwap.next_head, ← List.head?_reverse, List.reverse_cons]

section Link

variable [DecidableEq α]

/-- The nodes met on the way to `stop`, in at most `n` steps. -/
def walk (step : α → Option α) (stop : α) : ℕ → Option α → Option (List α)
  | 0, _ => none
  | n + 1, p => if p = some stop then some [] else p.bind fun a => (walk step stop n (step a)).map (a :: ·)

theorem walk_chain {b : α} {n : ℕ} (h : List.IsChain s.Linked (b :: (l ++ [a]))) (ha : a ∉ l)
    (hn : l.length < n) : walk s.next a n (s.next b) = some l := by
  induction l generalizing b n with
  | nil =>
    obtain ⟨n, rfl⟩ := Nat.exists_eq_succ_of_ne_zero (Nat.ne_zero_of_lt hn)
    rw [walk, (List.isChain_cons_cons.mp h).1.1, if_pos rfl]
  | cons c l ih =>
    obtain ⟨n, rfl⟩ := Nat.exists_eq_succ_of_ne_zero (Nat.ne_zero_of_lt hn)
    obtain ⟨hLinked, hRest⟩ := List.isChain_cons_cons.mp h
    obtain ⟨hca, ha⟩ := not_or.mp (List.mem_cons.not.mp ha)
    rw [walk, hLinked.1, if_neg fun hEq => hca (Option.some.inj hEq).symm, Option.bind_some,
      ih hRest ha (Nat.lt_of_succ_lt_succ hn)]
    rfl

theorem Ring.walk_next (h : s.Ring (a :: l)) (hNodup : (a :: l).Nodup) {n : ℕ} (hn : l.length < n) :
    walk s.next a n (s.next a) = some l := walk_chain h (List.nodup_cons.mp hNodup).1 hn

theorem Ring.walk_prev (h : s.Ring (a :: l)) (hNodup : (a :: l).Nodup) {n : ℕ} (hn : l.length < n) :
    walk s.prev a n (s.prev a) = some l.reverse := by
  have hSwap : s.swap.Ring (a :: l.reverse) := (ring_swap a l.reverse).mpr (by rwa [List.reverse_reverse])
  exact hSwap.walk_next (by simpa using hNodup) (by rwa [List.length_reverse])

def link (s : Links α) (x y : α) : Links α where
  next := Function.update s.next x (some y)
  prev := Function.update s.prev y (some x)

theorem linked_link (s : Links α) (x y : α) : (s.link x y).Linked x y :=
  ⟨Function.update_self .., Function.update_self ..⟩

theorem Linked.link {u v : α} (h : s.Linked u v) (hu : u ≠ x) (hv : v ≠ y) : (s.link x y).Linked u v :=
  ⟨(Function.update_of_ne hu ..).trans h.1, (Function.update_of_ne hv ..).trans h.2⟩

theorem chain_link (h : List.IsChain s.Linked l) (hx : x ∉ l.dropLast) (hy : y ∉ l.tail) :
    List.IsChain (s.link x y).Linked l := by
  induction h with
  | nil => exact .nil
  | singleton a => exact .singleton a
  | @cons_cons a b l hLinked hChain ih =>
    rw [List.dropLast_cons_cons, List.mem_cons, not_or] at hx
    rw [List.tail_cons, List.mem_cons, not_or] at hy
    exact .cons_cons (hLinked.link (Ne.symm hx.1) (Ne.symm hy.1)) (ih hx.2 hy.2)

theorem Ring.link_of_notMem (h : s.Ring l) (hx : x ∉ l) (hy : y ∉ l) : (s.link x y).Ring l := by
  cases l with
  | nil => trivial
  | cons a l =>
    apply chain_link h
    · rwa [← List.cons_append, List.dropLast_concat]
    · intro hMem
      obtain hMem | hMem := List.mem_append.mp hMem
      · exact hy (List.mem_cons_of_mem a hMem)
      · exact hy (List.mem_singleton.mp hMem ▸ List.mem_cons_self)

theorem link_comm {u v : α} (hNext : x ≠ u) (hPrev : y ≠ v) : (s.link x y).link u v = (s.link u v).link x y := by
  rw [link, link, link, link]
  simp only [Function.update_comm hNext, Function.update_comm hPrev]

theorem swap_link (s : Links α) (x y : α) : s.swap.link x y = (s.link y x).swap := rfl

theorem ring_singleton (s : Links α) (a : α) : (s.link a a).Ring [a] :=
  .cons_cons (s.linked_link a a) (.singleton a)

/-- A node is joined in behind the first one. -/
theorem Ring.insert_after (h : s.Ring (a :: l)) (hNodup : (a :: l).Nodup) (hx : x ∉ a :: l) :
    ∃ b ∈ a :: l, s.next a = some b ∧ ((s.link a x).link x b).Ring (a :: x :: l) := by
  obtain ⟨b, rest, hRest⟩ : ∃ b rest, l ++ [a] = b :: rest := List.exists_cons_of_ne_nil (by simp)
  have hMem : ∀ {c}, c ∈ b :: rest → c ∈ a :: l := by
    rw [← hRest]
    intro c hc
    exact List.mem_cons.mpr ((List.mem_append.mp hc).symm.imp_left List.mem_singleton.mp)
  have hb : b ∈ a :: l := hMem List.mem_cons_self
  have hChain : List.IsChain s.Linked (a :: b :: rest) := hRest ▸ h
  obtain ⟨hFirst, hChain⟩ := List.isChain_cons_cons.mp hChain
  have hOnce : (b :: rest).Nodup := hRest ▸ (List.nodup_append_comm.mp hNodup : (l ++ [a]).Nodup)
  have hxa : a ≠ x := fun hEq => hx (hEq ▸ List.mem_cons_self)
  have hxb : x ≠ b := fun hEq => hx (hEq ▸ hb)
  have hNew : ∀ {c}, c ∈ b :: rest → c ≠ x := fun hc hEq => hx (hEq ▸ hMem hc)
  refine ⟨b, hb, hFirst.1, ?_⟩
  change List.IsChain _ (a :: x :: (l ++ [a]))
  rw [hRest]
  refine .cons_cons ((linked_link s a x).link hxa hxb) (.cons_cons (linked_link _ x b) ?_)
  apply chain_link (chain_link hChain _ _)
  · exact fun hc => hNew (List.dropLast_subset _ hc) rfl
  · exact (List.nodup_cons.mp hOnce).1
  · rw [← hRest, List.dropLast_concat]
    exact (List.nodup_cons.mp hNodup).1
  · exact fun hc => hNew (List.mem_of_mem_tail hc) rfl

/-- A node is joined in before the first one. -/
theorem Ring.insert_before (h : s.Ring (a :: l)) (hNodup : (a :: l).Nodup) (hx : x ∉ a :: l) :
    ∃ b ∈ a :: l, s.prev a = some b ∧ ((s.link b x).link x a).Ring (a :: (l ++ [x])) := by
  have hSwap : s.swap.Ring (a :: l.reverse) := (ring_swap a l.reverse).mpr (by rwa [List.reverse_reverse])
  have hMem : ∀ {c}, c ∈ a :: l.reverse ↔ c ∈ a :: l := by simp
  obtain ⟨b, hb, hPrev, hRing⟩ := hSwap.insert_after (x := x) (by simpa using hNodup) (hMem.not.mpr hx)
  have hb : b ∈ a :: l := hMem.mp hb
  have hxa : a ≠ x := fun hEq => hx (hEq ▸ List.mem_cons_self)
  have hxb : x ≠ b := fun hEq => hx (hEq ▸ hb)
  refine ⟨b, hb, hPrev, ?_⟩
  rw [swap_link, swap_link, ring_swap, List.reverse_cons, List.reverse_reverse] at hRing
  rwa [link_comm hxb hxa] at hRing

/-- The neighbours of the first node are joined. -/
theorem Ring.remove (h : s.Ring (a :: l)) (hNodup : (a :: l).Nodup) (hl : l ≠ []) :
    ∃ b ∈ l, ∃ c ∈ l, s.prev a = some b ∧ s.next a = some c ∧ (s.link b c).Ring l := by
  obtain ⟨c, rest, rfl⟩ := List.exists_cons_of_ne_nil hl
  obtain ⟨initial, b, hLast⟩ : ∃ initial b, c :: rest = initial ++ [b] :=
    (List.eq_nil_or_concat' _).resolve_left hl
  have hb : b ∈ c :: rest := hLast ▸ List.mem_append_right _ List.mem_cons_self
  refine ⟨b, hb, c, List.mem_cons_self, ?_, h.next_head, ?_⟩
  · rw [h.prev_head, hLast, ← List.cons_append, List.getLast?_concat]
  · obtain ⟨-, hOnce⟩ := List.nodup_cons.mp hNodup
    have hChain : List.IsChain s.Linked (c :: rest) := (List.isChain_cons_cons.mp h.chain).2
    have hNew : List.IsChain (s.link b c).Linked (initial ++ [b]) := by
      rw [← hLast]
      apply chain_link hChain
      · rw [hLast] at hOnce ⊢
        rw [List.dropLast_concat]
        exact fun hMem => (List.nodup_append.mp hOnce).2.2 b hMem b List.mem_cons_self rfl
      · exact (List.nodup_cons.mp hOnce).1
    change List.IsChain _ (c :: rest ++ [c])
    rw [hLast, List.append_assoc]
    exact List.isChain_append_cons_cons.mpr ⟨hNew, linked_link s b c, .singleton c⟩

/-- The nodes of the second ring but its first are joined in behind the last one of the first ring. -/
theorem Ring.splice {b : α} (h : s.Ring (a :: l)) (h' : s.Ring (b :: m)) (hm : m ≠ [])
    (hNodup : (a :: (l ++ b :: m)).Nodup) :
    ∃ p ∈ a :: l, ∃ f ∈ m, ∃ t ∈ m, s.prev a = some p ∧ s.next b = some f ∧ s.prev b = some t ∧
      ((s.link p f).link t a).Ring (a :: (l ++ m)) := by
  obtain ⟨f, rest, rfl⟩ := List.exists_cons_of_ne_nil hm
  obtain ⟨start, t, hLast⟩ : ∃ start t, f :: rest = start ++ [t] := (List.eq_nil_or_concat' _).resolve_left hm
  obtain ⟨initial, p, hFirst⟩ : ∃ initial p, a :: l = initial ++ [p] :=
    (List.eq_nil_or_concat' _).resolve_left (List.cons_ne_nil a l)
  have hp : p ∈ a :: l := hFirst ▸ List.mem_append_right _ List.mem_cons_self
  have ht : t ∈ f :: rest := hLast ▸ List.mem_append_right _ List.mem_cons_self
  have hAll : (a :: l ++ b :: f :: rest).Nodup := hNodup
  obtain ⟨hOnce, hOnce', hApart⟩ := List.nodup_append.mp hAll
  have hOnce' : (f :: rest).Nodup := (List.nodup_cons.mp hOnce').2
  have hNe : ∀ {c d}, c ∈ a :: l → d ∈ f :: rest → c ≠ d := fun hc hd =>
    hApart _ hc _ (List.mem_cons_of_mem b hd)
  have hpInit : p ∉ (a :: l).dropLast := by
    rw [hFirst] at hOnce ⊢
    rw [List.dropLast_concat]
    exact fun hMem => (List.nodup_append.mp hOnce).2.2 p hMem p List.mem_cons_self rfl
  have htStart : t ∉ (f :: rest).dropLast := by
    rw [hLast] at hOnce' ⊢
    rw [List.dropLast_concat]
    exact fun hMem => (List.nodup_append.mp hOnce').2.2 t hMem t List.mem_cons_self rfl
  have hChain : List.IsChain ((s.link p f).link t a).Linked (a :: l) := by
    apply chain_link (chain_link h.chain hpInit _)
    · exact fun hMem => hNe (List.dropLast_subset _ hMem) ht rfl
    · exact (List.nodup_cons.mp hOnce).1
    · exact fun hMem => hNe (List.mem_cons_of_mem a hMem) List.mem_cons_self rfl
  have hChain' : List.IsChain ((s.link p f).link t a).Linked (f :: rest) := by
    apply chain_link (chain_link (List.isChain_cons_cons.mp h'.chain).2 _ _) htStart
    · exact fun hMem => hNe List.mem_cons_self (List.mem_of_mem_tail hMem) rfl
    · exact fun hMem => hNe hp (List.dropLast_subset _ hMem) rfl
    · exact (List.nodup_cons.mp hOnce').1
  have hJoin : ((s.link p f).link t a).Linked p f :=
    (linked_link s p f).link (hNe hp ht) (Ne.symm (hNe List.mem_cons_self List.mem_cons_self))
  refine ⟨p, hp, f, List.mem_cons_self, t, ht, ?_, h'.next_head, ?_, ?_⟩
  · rw [h.prev_head, hFirst, List.getLast?_concat]
  · rw [h'.prev_head, hLast, ← List.cons_append, List.getLast?_concat]
  · have hClose : List.IsChain ((s.link p f).link t a).Linked (f :: rest ++ [a]) := by
      rw [hLast] at hChain' ⊢
      rw [List.append_assoc]
      exact List.isChain_append_cons_cons.mpr ⟨hChain', linked_link _ t a, .singleton a⟩
    change List.IsChain _ (a :: l ++ f :: rest ++ [a])
    rw [hFirst] at hChain ⊢
    rw [List.append_assoc, List.append_assoc]
    exact List.isChain_append_cons_cons.mpr ⟨hChain, hJoin, hClose⟩

end Link

end Links
end LinkRing
