/-
A doubly linked list with a head and a tail, its links kept in the elements.

`Rep l xs` says that the links spell the sequence `xs`: `previous` and `next` of an element are its neighbours in `xs`, and
`head` and `tail` are the ends. Links of elements outside the list are not looked at.

Results: `unlink_rep` removes an element from the sequence, `linkHead_rep` puts a new one in front, `touch_rep` moves one to
the front; `unlink_filter` and `touch_filter` say the same without naming the neighbours.
-/
import Mathlib.Data.List.Basic
import Mathlib.Data.List.Nodup
import Mathlib.Logic.Function.Basic
import Mathlib.Tactic

namespace LinkedList

open List
open Function (update update_apply)

structure Links (α : Type) where
  previous : α → Option α
  next : α → Option α
  head : Option α
  tail : Option α

variable {α : Type}

structure Rep (l : Links α) (xs : List α) : Prop where
  nodup : xs.Nodup
  head : l.head = xs.head?
  tail : l.tail = xs.getLast?
  previous : ∀ p x q, xs = p ++ x :: q → l.previous x = p.getLast?
  next : ∀ p x q, xs = p ++ x :: q → l.next x = q.head?

theorem rep_empty (previous next : α → Option α) : Rep ⟨previous, next, none, none⟩ [] :=
  ⟨nodup_nil, rfl, rfl, by simp, by simp⟩

namespace Links

variable [DecidableEq α]

/-- take an element out: its neighbours, or the ends of the list, are linked past it -/
def unlink (l : Links α) (a : α) : Links α :=
  let l1 :=
    match l.previous a with
    | some b => { l with next := update l.next b (l.next a) }
    | none => { l with head := l.next a }
  let l2 :=
    match l1.next a with
    | some b => { l1 with previous := update l1.previous b (l1.previous a) }
    | none => { l1 with tail := l1.previous a }
  { l2 with previous := update l2.previous a none, next := update l2.next a none }

def linkHead (l : Links α) (a : α) : Links α :=
  let l1 := { l with previous := update l.previous a none, next := update l.next a l.head }
  let l2 :=
    match l.head with
    | some b => { l1 with previous := update l1.previous b (some a) }
    | none => { l1 with tail := some a }
  { l2 with head := some a }

/-- move an element to the front -/
def touch (l : Links α) (a : α) : Links α := if l.head = some a then l else (l.unlink a).linkHead a

end Links

variable {p q : List α} {a : α}

/-- where an element of `p ++ q` stands in `p ++ x :: q` -/
theorem insert_decomp {a b : List α} {y : α} (h : p ++ q = a ++ y :: b) :
    (∃ c, p = a ++ y :: c ∧ b = c ++ q) ∨ ∃ c, q = c ++ y :: b ∧ a = p ++ c := by
  rcases append_eq_append_iff.1 h with ⟨c, rfl, hq⟩ | ⟨c, rfl, hb⟩
  · exact Or.inr ⟨c, hq, rfl⟩
  · cases c with
    | nil =>
      refine Or.inr ⟨[], ?_, by simp⟩
      simpa using hb.symm
    | cons z c =>
      rw [cons_append, List.cons.injEq] at hb
      exact Or.inl ⟨c, by rw [hb.1], hb.2⟩

variable [DecidableEq α] {l : Links α}

theorem unlink_next (l : Links α) (a x : α) (hx : x ≠ a) (hp : l.previous a ≠ some a) :
    (l.unlink a).next x = if l.previous a = some x then l.next a else l.next x := by
  unfold Links.unlink
  cases h1 : l.previous a with
  | none =>
    simp only
    cases h2 : l.next a <;> simp [hx]
  | some b =>
    have hab : a ≠ b := fun hc => hp (by rw [h1, hc])
    simp only [update_apply, if_neg hab]
    cases h2 : l.next a <;> simp [update_apply, hx, eq_comm]

theorem unlink_previous (l : Links α) (a x : α) (hx : x ≠ a) (hp : l.previous a ≠ some a) :
    (l.unlink a).previous x = if l.next a = some x then l.previous a else l.previous x := by
  unfold Links.unlink
  cases h1 : l.previous a with
  | none =>
    simp only
    cases h2 : l.next a <;> simp [update_apply, hx, h1, eq_comm]
  | some b =>
    have hab : a ≠ b := fun hc => hp (by rw [h1, hc])
    simp only [update_apply, if_neg hab]
    cases h2 : l.next a <;> simp [update_apply, hx, h1, eq_comm]

theorem unlink_head (l : Links α) (a : α) : (l.unlink a).head = if l.previous a = none then l.next a else l.head := by
  unfold Links.unlink
  cases h1 : l.previous a with
  | none =>
    simp only
    cases h2 : l.next a <;> simp
  | some b =>
    simp only
    cases h2 : update l.next b (l.next a) a <;> simp

theorem unlink_tail (l : Links α) (a : α) (hp : l.previous a ≠ some a) :
    (l.unlink a).tail = if l.next a = none then l.previous a else l.tail := by
  unfold Links.unlink
  cases h1 : l.previous a with
  | none =>
    simp only
    cases h2 : l.next a <;> simp [h1]
  | some b =>
    have hab : a ≠ b := fun hc => hp (by rw [h1, hc])
    simp only [update_apply, if_neg hab]
    cases h2 : l.next a <;> simp [h1]

/-- **Unlinking** removes the element from the sequence. -/
theorem unlink_rep (h : Rep l (p ++ a :: q)) : Rep (l.unlink a) (p ++ q) := by
  have hprev := h.previous p a q rfl
  have hnext := h.next p a q rfl
  have hnd := h.nodup
  have hap : a ∉ p := fun hc => (nodup_append'.1 hnd).2.2 hc mem_cons_self
  have haq : a ∉ q := (nodup_cons.1 (nodup_append.1 hnd).2.1).1
  have hself : l.previous a ≠ some a := fun hc => hap (List.mem_of_getLast? (hprev.symm.trans hc))
  have hnd' : (p ++ q).Nodup := hnd.sublist ((sublist_cons_self a q).append_left p)
  refine ⟨hnd', ?_, ?_, fun r x s he => ?_, fun r x s he => ?_⟩
  · rw [unlink_head, hprev, hnext, h.head]
    cases p with
    | nil => simp
    | cons y p => simp
  · rw [unlink_tail l a hself, hprev, hnext, h.tail]
    cases q with
    | nil => simp
    | cons y q => simp
  · have hxa : x ≠ a := by
      rintro rfl
      have : x ∈ p ++ q := he ▸ mem_append_right r mem_cons_self
      exact (mem_append.1 this).elim hap haq
    rw [unlink_previous l a x hxa hself, hnext, hprev]
    rcases insert_decomp he with ⟨c, rfl, rfl⟩ | ⟨c, rfl, rfl⟩
    · rw [h.previous r x (c ++ a :: q) (by simp), if_neg]
      intro hc
      have hxq := List.mem_of_head? hc
      exact (nodup_append'.1 hnd').2.2 (mem_append_right r mem_cons_self) hxq
    · rw [h.previous (p ++ a :: c) x s (by simp)]
      cases c with
      | nil => simp
      | cons z c =>
        have hzx : (z :: c ++ x :: s).head? ≠ some x := by
          simp only [cons_append, List.head?_cons, ne_eq, Option.some.injEq]
          rintro rfl
          have := (nodup_append'.1 hnd').2.1
          simp at this
        rw [if_neg hzx, List.getLast?_append, List.getLast?_append, List.getLast?_cons_cons]
  · have hxa : x ≠ a := by
      rintro rfl
      have : x ∈ p ++ q := he ▸ mem_append_right r mem_cons_self
      exact (mem_append.1 this).elim hap haq
    rw [unlink_next l a x hxa hself, hprev, hnext]
    rcases insert_decomp he with ⟨c, rfl, rfl⟩ | ⟨c, rfl, rfl⟩
    · rw [h.next r x (c ++ a :: q) (by simp)]
      cases c with
      | nil => simp
      | cons z c =>
        rw [if_neg]
        · simp
        · rw [show r ++ x :: z :: c = (r ++ [x]) ++ z :: c by simp, List.getLast?_append]
          intro hc
          have hx : x ∈ z :: c := by
            cases hlast : (z :: c).getLast? with
            | none => simp at hlast
            | some w =>
              rw [hlast] at hc
              have : w = x := by simpa using hc
              exact this ▸ List.mem_of_getLast? hlast
          have hnd2 := (nodup_append'.1 hnd').1
          have := (nodup_append'.1 hnd2).2.1
          exact (nodup_cons.1 this).1 hx
    · rw [h.next (p ++ a :: c) x s (by simp), if_neg]
      intro hc
      have hxp := List.mem_of_getLast? hc
      exact (nodup_append'.1 hnd').2.2 hxp (mem_append_right c mem_cons_self)

theorem linkHead_next (l : Links α) (a x : α) : (l.linkHead a).next x = if x = a then l.head else l.next x := by
  unfold Links.linkHead
  cases l.head <;> simp [update_apply]

theorem linkHead_previous (l : Links α) (a x : α) (ha : l.head ≠ some a) :
    (l.linkHead a).previous x = if x = a then none else if l.head = some x then some a else l.previous x := by
  unfold Links.linkHead
  cases h : l.head with
  | none => simp [update_apply]
  | some b =>
    have hab : a ≠ b := fun hc => ha (by rw [h, hc])
    simp only [update_apply, Option.some.injEq]
    by_cases hxa : x = a
    · subst hxa
      simp [hab]
    · simp [hxa, eq_comm]

variable {xs : List α}

/-- **Linking in front** puts a new element at the head of the sequence. -/
theorem linkHead_rep (h : Rep l xs) (ha : a ∉ xs) : Rep (l.linkHead a) (a :: xs) := by
  have hhead : l.head ≠ some a := fun hc => ha (List.mem_of_head? (h.head.symm.trans hc))
  refine ⟨nodup_cons.2 ⟨ha, h.nodup⟩, rfl, ?_, fun p x q he => ?_, fun p x q he => ?_⟩
  · unfold Links.linkHead
    cases xs with
    | nil => simp [h.head]
    | cons y xs => simp [h.head, h.tail, List.getLast?_cons_cons]
  · rw [linkHead_previous l a x hhead]
    cases p with
    | nil =>
      rw [nil_append, List.cons.injEq] at he
      rw [if_pos he.1.symm]
      rfl
    | cons z p =>
      rw [cons_append, List.cons.injEq] at he
      obtain ⟨rfl, rfl⟩ := he
      have hxa : x ≠ a := by rintro rfl; exact ha (mem_append_right p mem_cons_self)
      rw [if_neg hxa, h.head, h.previous p x q rfl]
      cases p with
      | nil => simp
      | cons w p =>
        rw [List.getLast?_cons_cons, if_neg]
        simp only [cons_append, List.head?_cons, Option.some.injEq]
        rintro rfl
        have := h.nodup
        simp at this
  · rw [linkHead_next]
    cases p with
    | nil =>
      rw [nil_append, List.cons.injEq] at he
      obtain ⟨rfl, rfl⟩ := he
      rw [if_pos rfl, h.head]
    | cons z p =>
      rw [cons_append, List.cons.injEq] at he
      obtain ⟨rfl, rfl⟩ := he
      have hxa : x ≠ a := by rintro rfl; exact ha (mem_append_right p mem_cons_self)
      rw [if_neg hxa, h.next p x q rfl]

theorem touch_rep (h : Rep l (p ++ a :: q)) : Rep (l.touch a) (a :: (p ++ q)) := by
  unfold Links.touch
  split_ifs with hhead
  · -- the element is the head already, so nothing stands before it
    cases p with
    | nil => exact h
    | cons y p =>
      rw [h.head] at hhead
      simp only [cons_append, List.head?_cons, Option.some.injEq] at hhead
      subst hhead
      have := h.nodup
      simp at this
  · refine linkHead_rep (unlink_rep h) fun hc => ?_
    have hnd := h.nodup
    rw [nodup_middle, nodup_cons] at hnd
    exact hnd.1 hc

theorem filter_ne_middle (hnd : (p ++ a :: q).Nodup) : (p ++ a :: q).filter (· ≠ a) = p ++ q := by
  rw [nodup_middle, nodup_cons] at hnd
  have hkeep : ∀ b ∈ p ++ q, decide (b ≠ a) = true := by
    intro b hb
    simp only [ne_eq, decide_eq_true_eq]
    rintro rfl
    exact hnd.1 hb
  rw [filter_append, filter_cons_of_neg (by simp), ← filter_append, filter_eq_self.2 hkeep]

theorem unlink_filter (h : Rep l xs) (ha : a ∈ xs) : Rep (l.unlink a) (xs.filter (· ≠ a)) := by
  obtain ⟨p, q, rfl⟩ := append_of_mem ha
  rw [filter_ne_middle h.nodup]
  exact unlink_rep h

theorem touch_filter (h : Rep l xs) (ha : a ∈ xs) : Rep (l.touch a) (a :: xs.filter (· ≠ a)) := by
  obtain ⟨p, q, rfl⟩ := append_of_mem ha
  rw [filter_ne_middle h.nodup]
  exact touch_rep h

end LinkedList
