/-
The levels of a skip list with spans.

A skip list keeps one sequence of nodes, its header first. On each level only the tall nodes are linked: a tall node
points to the next tall one and records how many places ahead that is, or, when none follows, how many nodes are left.
`Chain` says that for one level; which nodes are tall is a parameter. A search walks right on a level while a condition
on the next node and its place in the sequence holds, then continues one level down from where it stopped.

Results: what `linkAfter`, `extend`, `unlink` and `shrink` do to a level when a node enters or leaves the sequence, and
where a search by `walk`, `descend` or `seek` ends.
-/
import Mathlib.Tactic

namespace SkipChain

open List Function

variable {α : Type}

/-! ## One level -/

variable {tall : α → Bool} {xs P A : List α} {x : α}

structure Links (α : Type) where
  forward : α → Option α
  span : α → ℕ

/-- how far the next tall node is, or the end -/
def reach (tall : α → Bool) : List α → ℕ
  | [] => 0
  | y :: ys => if tall y then 1 else reach tall ys + 1

/-- the tall nodes of the sequence are linked -/
def Chain (l : Links α) (tall : α → Bool) : List α → Prop
  | [] => True
  | x :: xs => (tall x → l.forward x = xs.find? tall ∧ l.span x = reach tall xs) ∧ Chain l tall xs

/-- the tall nodes among `P` are linked, with the tall node `x` next after them -/
def Before (l : Links α) (tall : α → Bool) (x : α) : List α → Prop
  | [] => True
  | p :: P => (tall p → l.forward p = (P ++ [x]).find? tall ∧ l.span p = reach tall (P ++ [x])) ∧ Before l tall x P

variable {l l' : Links α} {R : List α}

theorem Chain.congr (h : Chain l tall xs)
    (hf : ∀ x ∈ xs, l'.forward x = l.forward x) (hs : ∀ x ∈ xs, l'.span x = l.span x) : Chain l' tall xs := by
  induction xs with
  | nil => trivial
  | cons x xs ih =>
    refine ⟨fun hx => ?_, ih h.2 (fun y hy => hf y (by simp [hy])) (fun y hy => hs y (by simp [hy]))⟩
    rw [hf x (by simp), hs x (by simp)]
    exact h.1 hx

/-- a chain only depends on which of its own nodes are tall -/
theorem Chain.congr_tall {tall' : α → Bool} (h : Chain l tall xs) (ht : ∀ x ∈ xs, tall' x = tall x) : Chain l tall' xs := by
  induction xs with
  | nil => trivial
  | cons x xs ih =>
    have hxs : ∀ y ∈ xs, tall' y = tall y := fun y hy => ht y (by simp [hy])
    have hfind : xs.find? tall' = xs.find? tall ∧ reach tall' xs = reach tall xs := by
      clear ih h ht
      induction xs with
      | nil => exact ⟨rfl, rfl⟩
      | cons y ys ih =>
        obtain ⟨h1, h2⟩ := ih fun z hz => hxs z (by simp [hz])
        rw [List.find?_cons, List.find?_cons, reach, reach, hxs y (by simp), h1, h2]
        exact ⟨rfl, rfl⟩
    refine ⟨fun hx => ?_, ih h.2 hxs⟩
    rw [hfind.1, hfind.2]
    exact h.1 (by rw [← ht x (by simp)]; exact hx)

theorem Before.congr (h : Before l tall x P)
    (hf : ∀ p ∈ P, l'.forward p = l.forward p) (hs : ∀ p ∈ P, l'.span p = l.span p) : Before l' tall x P := by
  induction P with
  | nil => trivial
  | cons p P ih =>
    refine ⟨fun hp => ?_, ih h.2 (fun y hy => hf y (by simp [hy])) (fun y hy => hs y (by simp [hy]))⟩
    rw [hf p (by simp), hs p (by simp)]
    exact h.1 hp

theorem find?_tall (tall : α → Bool) (P R : List α) (hx : tall x) : (P ++ x :: R).find? tall = (P ++ [x]).find? tall := by
  simp [List.find?_append, hx]

theorem reach_tall (tall : α → Bool) (P R : List α) (hx : tall x) :
    reach tall (P ++ x :: R) = reach tall (P ++ [x]) := by
  induction P with
  | nil => simp [reach, hx]
  | cons p P ih => simp [reach, ih]

theorem find?_skip (tall : α → Bool) (R : List α) (hA : ∀ a ∈ A, tall a = false) : (A ++ R).find? tall = R.find? tall := by
  induction A with
  | nil => rfl
  | cons a A ih =>
    rw [cons_append, List.find?_cons, hA a (by simp)]
    exact ih fun b hb => hA b (by simp [hb])

theorem reach_skip (tall : α → Bool) (R : List α) (hA : ∀ a ∈ A, tall a = false) :
    reach tall (A ++ R) = A.length + reach tall R := by
  induction A with
  | nil => simp
  | cons a A ih =>
    rw [cons_append, reach, if_neg (by simp [hA a (by simp)]), ih fun b hb => hA b (by simp [hb])]
    simp only [length_cons]
    omega

theorem chain_split (l : Links α) (P R : List α) (hx : tall x) :
    Chain l tall (P ++ x :: R) ↔ Before l tall x P ∧ Chain l tall (x :: R) := by
  induction P with
  | nil => simp [Before]
  | cons p P ih =>
    rw [cons_append, Chain, ih, Before, find?_tall tall P R hx, reach_tall tall P R hx]
    tauto

theorem chain_skip (l : Links α) (R : List α) (hA : ∀ a ∈ A, tall a = false) :
    Chain l tall (A ++ R) ↔ Chain l tall R := by
  induction A with
  | nil => rfl
  | cons a A ih =>
    rw [cons_append, Chain, ih fun b hb => hA b (by simp [hb])]
    simp [hA a (by simp)]

/-- the links of the last tall node before a stretch of nodes that are not tall -/
theorem Chain.at (h : Chain l tall (P ++ x :: (A ++ R))) (hx : tall x) (hA : ∀ a ∈ A, tall a = false) :
    l.forward x = R.find? tall ∧ l.span x = A.length + reach tall R := by
  have h1 := (((chain_split l P _ hx).1 h).2).1 hx
  rw [find?_skip tall R hA, reach_skip tall R hA] at h1
  exact h1

/-! ## Nodes enter and leave -/

/-- the links of `x` are renewed for another tail, and those before it stay -/
theorem chain_splice {R' : List α} (h : Chain l tall (P ++ x :: R)) (hx : tall x)
    (hP : ∀ p ∈ P, l'.forward p = l.forward p ∧ l'.span p = l.span p)
    (hat : l'.forward x = R'.find? tall ∧ l'.span x = reach tall R') (hR : Chain l' tall R') : Chain l' tall (P ++ x :: R') := by
  obtain ⟨hbefore, _⟩ := (chain_split l P R hx).1 h
  exact (chain_split l' P R' hx).2 ⟨hbefore.congr (fun p hp => (hP p hp).1) fun p hp => (hP p hp).2, fun _ => hat, hR⟩

theorem Chain.tail (h : Chain l tall (P ++ x :: R)) (hx : tall x) : Chain l tall R := ((chain_split l P R hx).1 h).2.2

theorem nodup_around (h : (P ++ x :: R).Nodup) : (∀ p ∈ P, p ≠ x) ∧ ∀ r ∈ R, r ≠ x := by
  obtain ⟨_, hx, hP⟩ := nodup_append.1 h
  exact ⟨fun p hp => hP p hp x mem_cons_self, fun r hr hc => (nodup_cons.1 hx).1 (hc ▸ hr)⟩

section Update

variable [DecidableEq α]

def Links.setForward (l : Links α) (x : α) (y : Option α) : Links α := { l with forward := update l.forward x y }

def Links.setSpan (l : Links α) (x : α) (n : ℕ) : Links α := { l with span := update l.span x n }

/-- link a tall node `gap` places behind the tall node `x` -/
def linkAfter (l : Links α) (x node : α) (gap : ℕ) : Links α :=
  let l := l.setForward node (l.forward x)
  let l := l.setSpan node (l.span x - gap)
  let l := l.setForward x (some node)
  l.setSpan x (gap + 1)

/-- a node that is not tall entered behind `x` -/
def extend (l : Links α) (x : α) : Links α := l.setSpan x (l.span x + 1)

/-- unlink the tall node that `x` points to -/
def unlink (l : Links α) (x target : α) : Links α :=
  let l := l.setSpan x (l.span x + l.span target - 1)
  l.setForward x (l.forward target)

/-- a node that is not tall left behind `x` -/
def shrink (l : Links α) (x : α) : Links α := l.setSpan x (l.span x - 1)

variable {l : Links α} {tall : α → Bool} {P A B : List α} {x : α}

section

variable (h : Chain l tall (P ++ x :: (A ++ B))) (hnd : (P ++ x :: (A ++ B)).Nodup) (hx : tall x)
include h hnd hx

theorem chain_linkAfter {node : α} (hnode : tall node) (hA : ∀ a ∈ A, tall a = false) (hnew : node ∉ P ++ x :: (A ++ B)) :
    Chain (linkAfter l x node A.length) tall (P ++ x :: (A ++ node :: B)) := by
  obtain ⟨hf, hs⟩ := h.at hx hA
  obtain ⟨hPx, hRx⟩ := nodup_around hnd
  simp only [mem_append, mem_cons, not_or] at hnew
  have hne : node ≠ x := hnew.2.1
  have keep : ∀ a, a ≠ x → a ≠ node →
      (linkAfter l x node A.length).forward a = l.forward a ∧ (linkAfter l x node A.length).span a = l.span a := by
    intro a hax han
    simp [linkAfter, Links.setForward, Links.setSpan, hax, han]
  have hB : ∀ b ∈ B, (linkAfter l x node A.length).forward b = l.forward b ∧ (linkAfter l x node A.length).span b = l.span b :=
    fun b hb => keep b (hRx b (mem_append_right _ hb)) fun hc => hnew.2.2.2 (hc ▸ hb)
  refine chain_splice h hx (fun p hp => keep p (hPx p hp) fun hc => hnew.1 (hc ▸ hp)) ?_ ((chain_skip _ _ hA).2 ⟨fun _ => ?_, ?_⟩)
  · rw [find?_skip tall _ hA, reach_skip tall _ hA]
    simp [linkAfter, Links.setForward, Links.setSpan, hnode, reach]
  · simp only [linkAfter, Links.setForward, Links.setSpan, update_of_ne hne, update_self, hf, hs]
    exact ⟨trivial, by omega⟩
  · exact ((chain_skip l B hA).1 (h.tail hx)).congr (fun b hb => (hB b hb).1) fun b hb => (hB b hb).2

/-- the number of nodes between `x` and the next tall one changes -/
theorem chain_setSpan {A' : List α} {n : ℕ} (hA : ∀ a ∈ A, tall a = false) (hA' : ∀ a ∈ A', tall a = false)
    (hn : n + A.length = l.span x + A'.length) :
    Chain (l.setSpan x n) tall (P ++ x :: (A' ++ B)) := by
  obtain ⟨hf, hs⟩ := h.at hx hA
  obtain ⟨hPx, hRx⟩ := nodup_around hnd
  have keep : ∀ a, a ≠ x → (l.setSpan x n).span a = l.span a := fun a ha => by simp [Links.setSpan, ha]
  refine chain_splice h hx (fun p hp => ⟨rfl, keep p (hPx p hp)⟩) ?_ ((chain_skip _ _ hA').2 ?_)
  · rw [find?_skip tall _ hA', reach_skip tall _ hA']
    refine ⟨hf, ?_⟩
    simp only [Links.setSpan, update_self]
    omega
  · exact ((chain_skip l B hA).1 (h.tail hx)).congr (fun _ _ => rfl) fun b hb => keep b (hRx b (mem_append_right _ hb))

theorem chain_extend {node : α} (hnode : tall node = false)
    (hA : ∀ a ∈ A, tall a = false) : Chain (extend l x) tall (P ++ x :: (A ++ node :: B)) := by
  have hA' : ∀ a ∈ A ++ [node], tall a = false := forall_mem_append.2 ⟨hA, by simpa using hnode⟩
  rw [show A ++ node :: B = (A ++ [node]) ++ B by simp]
  refine chain_setSpan h hnd hx hA hA' ?_
  simp only [length_append, length_singleton]
  omega

end

theorem chain_unlink {target : α}
    (h : Chain l tall (P ++ x :: (A ++ target :: B))) (hnd : (P ++ x :: (A ++ target :: B)).Nodup) (hx : tall x)
    (ht : tall target) (hA : ∀ a ∈ A, tall a = false) :
    l.forward x = some target ∧ Chain (unlink l x target) tall (P ++ x :: (A ++ B)) := by
  obtain ⟨hf, hs⟩ := h.at hx hA
  obtain ⟨hPx, hRx⟩ := nodup_around hnd
  obtain ⟨htgt, hB⟩ := (chain_skip l _ hA).1 (h.tail hx)
  obtain ⟨htf, hts⟩ := htgt ht
  have keep : ∀ a, a ≠ x → (unlink l x target).forward a = l.forward a ∧ (unlink l x target).span a = l.span a := by
    intro a ha
    simp [unlink, Links.setForward, Links.setSpan, ha]
  have hBx : ∀ b ∈ B, b ≠ x := fun b hb => hRx b (by simp [hb])
  refine ⟨by simp [hf, ht], chain_splice h hx (fun p hp => keep p (hPx p hp)) ?_ ((chain_skip _ _ hA).2 ?_)⟩
  · rw [find?_skip tall _ hA, reach_skip tall _ hA]
    simp only [unlink, Links.setForward, Links.setSpan, update_self, htf, hts, hs, reach, ht, if_true]
    exact ⟨trivial, by omega⟩
  · exact hB.congr (fun b hb => (keep b (hBx b hb)).1) fun b hb => (keep b (hBx b hb)).2

theorem chain_shrink {target : α}
    (h : Chain l tall (P ++ x :: (A ++ target :: B))) (hnd : (P ++ x :: (A ++ target :: B)).Nodup) (hx : tall x)
    (ht : tall target = false) (hA : ∀ a ∈ A, tall a = false) :
    l.forward x ≠ some target ∧ Chain (shrink l x) tall (P ++ x :: (A ++ B)) := by
  have hA' : ∀ a ∈ A ++ [target], tall a = false := forall_mem_append.2 ⟨hA, by simpa using ht⟩
  rw [show A ++ target :: B = (A ++ [target]) ++ B by simp] at h hnd
  obtain ⟨hf, hs⟩ := h.at hx hA'
  rw [length_append, length_singleton] at hs
  refine ⟨fun hc => ?_, chain_setSpan h hnd hx hA' hA ?_⟩
  · have := List.find?_some (hf.symm.trans hc)
    simp [ht] at this
  · rw [length_append, length_singleton]
    omega

end Update

/-- a level without tall nodes behind its header -/
theorem chain_empty (hA : ∀ a ∈ xs, tall a = false)
    (hf : l.forward x = none) (hs : l.span x = xs.length) : Chain l tall (x :: xs) := by
  have h := (chain_skip l [] hA).2 trivial
  have hfind := find?_skip tall [] hA
  have hreach := reach_skip tall [] hA
  rw [append_nil] at h hfind hreach
  refine ⟨fun _ => ⟨by rw [hf, hfind]; rfl, by rw [hs, hreach]; rfl⟩, h⟩

/-! ## Searches -/

/-- walk right from `cur`, at place `rank`, while the condition holds of the next node and its place -/
def walk (l : Links α) (cond : α → ℕ → Bool) : ℕ → α → ℕ → α × ℕ
  | 0, cur, rank => (cur, rank)
  | fuel + 1, cur, rank =>
    match l.forward cur with
    | none => (cur, rank)
    | some next =>
      if cond next (rank + l.span cur) then walk l cond fuel next (rank + l.span cur) else (cur, rank)

/-- the last tall node of `L` and its place -/
def Last (tall : α → Bool) (L : List α) (r : α × ℕ) : Prop :=
  ∃ P A, L = P ++ r.1 :: A ∧ tall r.1 ∧ (∀ a ∈ A, tall a = false) ∧ r.2 = P.length

/-- the condition of a search holds exactly at the places before `m` -/
def Cuts (cond : α → ℕ → Bool) (m : ℕ) (S : List α) : Prop :=
  ∀ S1 q S2, S = S1 ++ q :: S2 → S1 ≠ [] → cond q S1.length = decide (S1.length < m)

/-- a search that stops at `x` before the nodes `A`, which are not tall, has found the last tall node before `m` -/
theorem last_take {B : List α} {m : ℕ} (hx : tall x) (hm : P.length < m)
    (hA : ∀ a ∈ A, tall a = false) (hB : B = [] ∨ m ≤ P.length + 1 + A.length) :
    Last tall ((P ++ x :: (A ++ B)).take m) (x, P.length) := by
  refine ⟨P, A.take (m - P.length - 1), ?_, hx, fun a ha => hA a (mem_of_mem_take ha), rfl⟩
  obtain ⟨j, rfl⟩ : ∃ j, m = P.length + (j + 1) := ⟨m - P.length - 1, by omega⟩
  rw [take_length_add_append, take_succ_cons]
  congr 2
  rcases hB with rfl | hB
  · rw [append_nil]
    congr 1
    omega
  · rw [take_append_of_le_length (by omega)]
    congr 1
    omega

theorem walk_spec {S : List α} (hc : Chain l tall S) {cond : α → ℕ → Bool} {m : ℕ}
    (hcond : Cuts cond m S) (fuel : ℕ) {Q : List α} (hS : S = P ++ x :: Q) (hx : tall x) (hm : P.length < m)
    (hfuel : Q.length ≤ fuel) : Last tall (S.take m) (walk l cond fuel x P.length) := by
  induction fuel generalizing P Q x with
  | zero =>
    obtain rfl : Q = [] := length_eq_zero_iff.1 (by omega)
    rw [hS]
    exact last_take (A := []) (B := []) hx hm (by simp) (Or.inl rfl)
  | succ fuel ih =>
    obtain ⟨hf, hs⟩ := ((chain_split l P Q hx).1 (hS ▸ hc)).2.1 hx
    rw [walk, hf, hs]
    cases hfind : Q.find? tall with
    | none =>
      have hA : ∀ a ∈ Q, tall a = false := by simpa using List.find?_eq_none.1 hfind
      have := last_take (B := []) hx hm hA (Or.inl rfl)
      rwa [append_nil, ← hS] at this
    | some next =>
      obtain ⟨hnext, A, B, hQ, hA⟩ := List.find?_eq_some_iff_append.1 hfind
      replace hA : ∀ a ∈ A, tall a = false := by simpa using hA
      have hreach : reach tall Q = A.length + 1 := by
        rw [hQ, reach_skip tall _ hA]
        simp [reach, hnext]
      have hplace : P.length + reach tall Q = (P ++ x :: A).length := by
        rw [hreach]
        simp
      have hS' : S = (P ++ x :: A) ++ next :: B := by rw [hS, hQ]; simp
      simp only [hplace, hcond _ next B hS' (by simp), decide_eq_true_eq]
      by_cases hlt : (P ++ x :: A).length < m
      · rw [if_pos hlt]
        refine ih hS' hnext hlt ?_
        rw [hQ, length_append, length_cons] at hfuel
        omega
      · rw [if_neg hlt, hS, hQ]
        refine last_take hx hm hA (Or.inr ?_)
        simp only [length_append, length_cons] at hlt
        omega

/-- walk on the levels below `n`, from the top one down; records where the walk on each level ends -/
def descend (lvl : ℕ → Links α) (cond : α → ℕ → Bool) (fuel : ℕ) : ℕ → α → ℕ → (ℕ → α × ℕ) → ℕ → α × ℕ
  | 0, _, _, found => found
  | i + 1, cur, rank, found =>
    let r := walk (lvl i) cond fuel cur rank
    descend lvl cond fuel i r.1 r.2 (update found i r)

/-- walk on the levels below `n` until the place `wanted` is reached -/
def seek (lvl : ℕ → Links α) (wanted fuel : ℕ) : ℕ → α → ℕ → Option α
  | 0, _, _ => none
  | i + 1, cur, rank =>
    let r := walk (lvl i) (fun _ place => place ≤ wanted) fuel cur rank
    if r.2 = wanted then some r.1 else seek lvl wanted fuel i r.1 r.2

section Levels

variable {lvl : ℕ → Links α} {tall : ℕ → α → Bool} {S : List α} {n i : ℕ}

theorem descend_other (cond : α → ℕ → Bool) (fuel n : ℕ) (x : α) (rank : ℕ) (found : ℕ → α × ℕ) (hi : n ≤ i) :
    descend lvl cond fuel n x rank found i = found i := by
  induction n generalizing x rank found with
  | zero => rfl
  | succ n ih => rw [descend, ih _ _ _ (by omega), update_of_ne (by omega)]

variable {x : α}

theorem tall_below (hmono : ∀ i x, tall (i + 1) x → tall i x) {j : ℕ} (h : tall j x) (hi : i ≤ j) : tall i x := by
  induction hi with
  | refl => exact h
  | step _ ih => exact ih (hmono _ _ h)

theorem descend_spec (hc : ∀ i < n, Chain (lvl i) (tall i) S) (hmono : ∀ i x, tall (i + 1) x → tall i x)
    {cond : α → ℕ → Bool} {m : ℕ} (hcond : Cuts cond m S) {fuel : ℕ} (hfuel : S.length ≤ fuel) {P Q : List α}
    (hS : S = P ++ x :: Q) (hx : ∀ i < n, tall i x) (hm : P.length < m) (found : ℕ → α × ℕ) (hi : i < n) :
    Last (tall i) (S.take m) (descend lvl cond fuel n x P.length found i) := by
  induction n generalizing P Q x found with
  | zero => omega
  | succ n ih =>
    have hQ : Q.length ≤ fuel := by
      rw [hS, length_append, length_cons] at hfuel
      omega
    have hlast := walk_spec (hc n (by omega)) hcond fuel hS (hx n (by omega)) hm hQ
    rw [descend]
    by_cases hin : i = n
    · subst hin
      rw [descend_other cond fuel i _ _ _ le_rfl, update_self]
      exact hlast
    · obtain ⟨P', A, hL, hy, _, hrank⟩ := hlast
      have hS' : S = P' ++ (walk (lvl n) cond fuel x P.length).1 :: (A ++ S.drop m) := by
        conv_lhs => rw [← take_append_drop m S, hL]
        simp
      have hm' : P'.length < m := by
        have := congrArg List.length hL
        simp only [length_take, length_append, length_cons] at this
        omega
      rw [hrank]
      exact ih (fun j hj => hc j (by omega)) hS' (fun j hj => tall_below hmono hy hj.le) hm' _ (by omega)

/-- a search by place finds the node at that place, if there is one -/
theorem seek_spec (wanted : ℕ) (hc : ∀ i < n, Chain (lvl i) (tall i) S) (hmono : ∀ i x, tall (i + 1) x → tall i x)
    (hall : ∀ x ∈ S, tall 0 x) (hn : 0 < n) {fuel : ℕ} (hfuel : S.length ≤ fuel) {P Q : List α}
    (hS : S = P ++ x :: Q) (hx : ∀ i < n, tall i x) (hm : P.length ≤ wanted) :
    seek lvl wanted fuel n x P.length = S[wanted]? := by
  have hcuts : Cuts (fun _ place => decide (place ≤ wanted)) (wanted + 1) S := by
    intro S1 q S2 _ _
    simp only [decide_eq_decide]
    omega
  induction n generalizing P Q x with
  | zero => omega
  | succ n ih =>
    have hQ : Q.length ≤ fuel := by
      rw [hS, length_append, length_cons] at hfuel
      omega
    have hlast := walk_spec (hc n (by omega)) hcuts fuel hS (hx n (by omega)) (by omega) hQ
    rw [seek]
    set r := walk (lvl n) (fun _ place => decide (place ≤ wanted)) fuel x P.length with hr
    obtain ⟨P', A, hL, hy, hA, hrank⟩ := hlast
    have hS' : S = P' ++ r.1 :: (A ++ S.drop (wanted + 1)) := by
      conv_lhs => rw [← take_append_drop (wanted + 1) S, hL]
      simp
    have hlen := congrArg List.length hL
    simp only [length_take, length_append, length_cons] at hlen
    by_cases hw : r.2 = wanted
    · rw [if_pos hw, hS', List.getElem?_append_right (by omega), show wanted - P'.length = 0 by omega]
      rfl
    · rw [if_neg hw, hrank]
      cases n with
      | zero =>
        have hnil : A = [] := by
          cases A with
          | nil => rfl
          | cons a A =>
            have ha : a ∈ S := by rw [hS']; simp
            have := hA a (by simp)
            rw [hall a ha] at this
            exact absurd this (by simp)
        rw [hnil, length_nil] at hlen
        rw [seek, List.getElem?_eq_none (by omega)]
      | succ n =>
        exact ih (fun j hj => hc j (by omega)) (by omega) hS' (fun j hj => tall_below hmono hy hj.le) (by omega)

end Levels

end SkipChain
