/-
The skip list engine of a sorted set (`src/engine/object.c`, `skip_*` and `skiplist_*`).

The links of a level are those of `SkipChain`; node 0 is the header. A node takes part in the first `levelCount` levels,
a number drawn from a xorshift generator when it is prepared. The arrays `update[]` and `rank[]` of the source are the
two components of what `descend` finds on each level.

Results: `Rep` says that the list holds a sequence of nodes, sorted, linked on every level with the right spans and
backwards. `skiplistInsertNode_rep` and `skiplistDetachNode_rep` keep it, and `skiplistByRank_spec` and `forward_spec` read
it. Nothing depends on the levels that were drawn beyond their bounds.
-/
import StoreSystem.Engine.Order
import StoreSystem.Lib.SkipChain

namespace StoreSystem.Skip

open List Function SkipChain

/-! ## Model -/

def zskiplistMaxlevel : ℕ := 32

def zskiplistThreshold : UInt64 := 0xFFFFFFFFFFFFFFFF / 4

/-- `struct skiplist` with the nodes it can reach; `item` holds their `score` and `member`, `lvl i` their `levels[i]` -/
structure SkipList where
  item : ℕ → Item
  backward : ℕ → Option ℕ
  levelCount : ℕ → ℕ
  lvl : ℕ → Links ℕ
  tail : Option ℕ
  level : ℕ
  length : ℕ
  randomState : UInt64

/-- the next state and the next number -/
def nextRandom (state : UInt64) : UInt64 × UInt64 :=
  let value := state
  let value := value ^^^ (value >>> 12)
  let value := value ^^^ (value <<< 25)
  let value := value ^^^ (value >>> 27)
  (value, value * 2685821657736338717)

/-- the loop of `skip_random_level`; `fuel` is the number of levels still to be had -/
def randomLevelFrom : ℕ → UInt64 → ℕ → UInt64 × ℕ
  | 0, state, level => (state, level)
  | fuel + 1, state, level =>
    let (state, number) := nextRandom state
    if number ≤ zskiplistThreshold then randomLevelFrom fuel state (level + 1) else (state, level)

def skipRandomLevel (state : UInt64) : UInt64 × ℕ := randomLevelFrom (zskiplistMaxlevel - 1) state 1

variable (s : SkipList)

/-- `skip_node_create`; `node` is the address `calloc` returned -/
def skipNodeCreate (node level : ℕ) (score : Score) : SkipList :=
  { s with
    item := update s.item node ⟨score, []⟩
    backward := update s.backward node none
    levelCount := update s.levelCount node level
    lvl := fun i => ((s.lvl i).setForward node none).setSpan node 0 }

def skiplistInit : SkipList :=
  let s : SkipList :=
    { item := fun _ => ⟨⟨false, 0, Score.zero_notNan⟩, []⟩, backward := fun _ => none, levelCount := fun _ => 0,
      lvl := fun _ => ⟨fun _ => none, fun _ => 0⟩, tail := none, level := 1, length := 0, randomState := 0x9e3779b97f4a7c15 }
  skipNodeCreate s 0 zskiplistMaxlevel ⟨false, 0, Score.zero_notNan⟩

variable (node : ℕ) (score : Score)

def skiplistPrepareNode : SkipList :=
  let drawn := skipRandomLevel s.randomState
  skipNodeCreate { s with randomState := drawn.1 } node drawn.2 score

/-- the skip list branch of `ordered_set_score` -/
def skiplistSetScore : SkipList :=
  { s with item := update s.item node { s.item node with score := score } }

/-- the skip list branch of `ordered_set_member` -/
def skiplistSetMember (member : Bytes) : SkipList :=
  { s with item := update s.item node { s.item node with member := member } }

/-- a loop over levels whose body only touches the links of its level -/
def forLevels (body : ℕ → Links ℕ → Links ℕ) (is : List ℕ) (lvl : ℕ → Links ℕ) : ℕ → Links ℕ :=
  is.foldl (fun lvl i => update lvl i (body i (lvl i))) lvl

/-- `update[i]` and `rank[i]` for the levels in use; above them `update[i]` is the header and `rank[i]` is 0 -/
def findUpdate (target : ℕ) : ℕ → ℕ × ℕ :=
  descend s.lvl (fun next _ => compareOrder (s.item next) (s.item target) = .lt) (s.length + 1) s.level 0 0 fun _ => (0, 0)

/-- `level` grows to the height of the new node; the header spans the whole list on the new levels -/
def raiseLevel (levelCount : ℕ) : SkipList :=
  if levelCount > s.level then
    { s with
      lvl := forLevels (fun _ l => l.setSpan 0 s.length) (List.range' s.level (levelCount - s.level)) s.lvl
      level := levelCount }
  else s

/-- the two loops of `skiplist_insert_node` over the levels: link the node on its own, widen the spans over it above -/
def insertLinks (found : ℕ → ℕ × ℕ) : ℕ → Links ℕ :=
  let rank0 := (found 0).2
  let lvl := forLevels (fun i l => linkAfter l (found i).1 node (rank0 - (found i).2)) (List.range (s.levelCount node)) s.lvl
  forLevels (fun i l => extend l (found i).1) (List.range' (s.levelCount node) (s.level - s.levelCount node)) lvl

def skiplistInsertNode : SkipList :=
  let found := findUpdate s node
  let s := raiseLevel s (s.levelCount node)
  let lvl := insertLinks s node found
  let backward := update s.backward node (if (found 0).1 = 0 then none else some (found 0).1)
  let s := { s with lvl := lvl, backward := backward, length := s.length + 1 }
  match (lvl 0).forward node with
  | some next => { s with backward := update s.backward next (some node) }
  | none => { s with tail := some node }

/-- the loop that gives up levels the header has no link on -/
def lowerLevel (lvl : ℕ → Links ℕ) : ℕ → ℕ
  | n + 2 => if (lvl (n + 1)).forward 0 = none then lowerLevel lvl (n + 1) else n + 2
  | n => n

def skiplistDetachNode (target : ℕ) : SkipList :=
  let found := findUpdate s target
  let lvl := forLevels (fun i l =>
    if l.forward (found i).1 = some target then unlink l (found i).1 target else shrink l (found i).1) (List.range s.level) s.lvl
  let s := { s with lvl := lvl, level := lowerLevel lvl s.level, length := s.length - 1 }
  match (lvl 0).forward target with
  | some next => { s with backward := update s.backward next (s.backward target) }
  | none => { s with tail := s.backward target }

def skiplistByRank (rank : ℕ) : Option ℕ := seek s.lvl (rank + 1) (s.length + 1) s.level 0 0

/-! ## Representation -/

variable {s} {b b' : ℕ → Option ℕ} {xs A B : List ℕ} {i node : ℕ}

/-- whether a node takes part in a level -/
def tall (s : SkipList) (i x : ℕ) : Bool := i < s.levelCount x

/-- every node points back to the one before it, the first one to `p` -/
def Backs (backward : ℕ → Option ℕ) (p : Option ℕ) : List ℕ → Prop
  | [] => True
  | x :: xs => backward x = p ∧ Backs backward (some x) xs

/-- the list holds the nodes `xs`, in order -/
structure Rep (s : SkipList) (xs : List ℕ) : Prop where
  nodup : (0 :: xs).Nodup
  sorted : Sorted s.item xs
  header : s.levelCount 0 = zskiplistMaxlevel
  level_pos : 1 ≤ s.level
  level_le : s.level ≤ zskiplistMaxlevel
  heights : ∀ x ∈ xs, 1 ≤ s.levelCount x ∧ s.levelCount x ≤ s.level
  chain : ∀ i < s.level, Chain (s.lvl i) (tall s i) (0 :: xs)
  above : ∀ i, s.level ≤ i → (s.lvl i).forward 0 = none
  back : Backs s.backward none xs
  tail : s.tail = xs.getLast?
  length : s.length = xs.length

theorem randomLevelFrom_bounds (fuel : ℕ) (state : UInt64) (level : ℕ) :
    level ≤ (randomLevelFrom fuel state level).2 ∧ (randomLevelFrom fuel state level).2 ≤ level + fuel := by
  induction fuel generalizing state level with
  | zero => simp [randomLevelFrom]
  | succ fuel ih =>
    rw [randomLevelFrom]
    simp only
    split_ifs
    · obtain ⟨h1, h2⟩ := ih (nextRandom state).1 (level + 1)
      omega
    · simp

theorem skipRandomLevel_bounds (state : UInt64) :
    1 ≤ (skipRandomLevel state).2 ∧ (skipRandomLevel state).2 ≤ zskiplistMaxlevel := by
  have := randomLevelFrom_bounds (zskiplistMaxlevel - 1) state 1
  simpa [skipRandomLevel, zskiplistMaxlevel] using this

theorem forLevels_apply (body : ℕ → Links ℕ → Links ℕ) {is : List ℕ} (hn : is.Nodup) (lvl : ℕ → Links ℕ) (i : ℕ) :
    forLevels body is lvl i = if i ∈ is then body i (lvl i) else lvl i := by
  unfold forLevels
  induction is generalizing lvl with
  | nil => simp
  | cons j is ih =>
    obtain ⟨hj, hn⟩ := nodup_cons.1 hn
    rw [foldl_cons, ih hn]
    by_cases hij : i = j
    · subst hij
      simp [hj]
    · simp [hij]

theorem backs_append (b : ℕ → Option ℕ) (p : Option ℕ) (xs ys : List ℕ) :
    Backs b p (xs ++ ys) ↔ Backs b p xs ∧ Backs b (xs.getLast?.or p) ys := by
  induction xs generalizing p with
  | nil => simp [Backs]
  | cons x xs ih =>
    rw [cons_append, Backs, Backs, ih, and_assoc]
    have : xs.getLast?.or (some x) = ((x :: xs).getLast?).or p := by
      cases xs with
      | nil => rfl
      | cons y ys => simp [List.getLast?_eq_some_getLast]
    rw [this]

theorem Backs.congr {p : Option ℕ} (h : Backs b p xs) (hb : ∀ x ∈ xs, b' x = b x) :
    Backs b' p xs := by
  induction xs generalizing p with
  | nil => trivial
  | cons x xs ih => exact ⟨(hb x (by simp)).trans h.1, ih h.2 fun y hy => hb y (by simp [hy])⟩

/-- on the lowest level every node points to its successor in the sequence -/
theorem chain_zero {l : Links ℕ} {tall : ℕ → Bool} {p q : List ℕ} {x : ℕ} (h : Chain l tall (p ++ x :: q))
    (hall : ∀ y ∈ p ++ x :: q, tall y) : l.forward x = q.head? := by
  have hx := hall x (by simp)
  rw [(((chain_split l p q hx).1 h).2.1 hx).1]
  cases q with
  | nil => rfl
  | cons y ys => simp [hall y (by simp)]

theorem Rep.tall_zero (h : Rep s xs) : ∀ y ∈ 0 :: xs, tall s 0 y := by
  intro y hy
  rcases mem_cons.1 hy with rfl | hy
  · simp [tall, h.header, zskiplistMaxlevel]
  · have := (h.heights y hy).1
    simp only [tall, decide_eq_true_eq]
    omega

/-- on the lowest level the last tall node of a prefix is its last node -/
theorem Rep.last_zero (h : Rep s (A ++ B)) {r : ℕ × ℕ} (hr : Last (tall s 0) (0 :: A) r) :
    ∃ P, 0 :: A = P ++ [r.1] ∧ r.2 = P.length := by
  obtain ⟨P, A2, h1, _, h3, h4⟩ := hr
  cases A2 with
  | nil => exact ⟨P, h1, h4⟩
  | cons a A2 =>
    have ha : a ∈ 0 :: (A ++ B) := by
      rw [← cons_append, h1]
      simp
    have := h3 a (by simp)
    rw [h.tall_zero a ha] at this
    exact absurd this (by simp)

theorem tall_mono (s : SkipList) (i x : ℕ) (h : tall s (i + 1) x) : tall s i x := by
  simp only [tall, decide_eq_true_eq] at h ⊢
  omega

theorem Rep.tall_header (h : Rep s xs) (hi : i < zskiplistMaxlevel) : tall s i 0 := by
  simp [tall, h.header, hi]

theorem rep_init : Rep skiplistInit [] := by
  refine ⟨by simp, List.Pairwise.nil, rfl, le_rfl, by decide, by simp, fun i hi => ?_, fun i _ => rfl, trivial, rfl, rfl⟩
  exact ⟨fun _ => ⟨rfl, rfl⟩, trivial⟩

/-- the list does not look at nodes outside its sequence -/
theorem Rep.frame {s' : SkipList} (h : Rep s xs) (hi : ∀ x ∈ xs, s'.item x = s.item x)
    (hlc : ∀ x ∈ 0 :: xs, s'.levelCount x = s.levelCount x) (hb : ∀ x ∈ xs, s'.backward x = s.backward x)
    (hf : ∀ i, ∀ x ∈ 0 :: xs, (s'.lvl i).forward x = (s.lvl i).forward x)
    (hs : ∀ i, ∀ x ∈ 0 :: xs, (s'.lvl i).span x = (s.lvl i).span x) (ht : s'.tail = s.tail) (hl : s'.level = s.level)
    (hlen : s'.length = s.length) : Rep s' xs := by
  have h0 : (0 : ℕ) ∈ 0 :: xs := mem_cons_self
  refine ⟨h.nodup, ?_, by rw [hlc 0 h0, h.header], hl ▸ h.level_pos, hl ▸ h.level_le, fun x hx => ?_, fun i hi' => ?_,
    fun i hi' => ?_, h.back.congr hb, ht.trans h.tail, hlen.trans h.length⟩
  · exact h.sorted.imp_of_mem fun ha hb hlt => by rwa [hi _ ha, hi _ hb]
  · rw [hlc x (mem_cons_of_mem _ hx), hl]
    exact h.heights x hx
  · refine ((h.chain i (hl ▸ hi')).congr (hf i) (hs i)).congr_tall fun x hx => ?_
    rw [tall, tall, hlc x hx]
  · rw [hf i 0 h0]
    exact h.above i (hl ▸ hi')

theorem Rep.setItem (h : Rep s xs) (hn : node ∉ xs) (it : Item) :
    Rep { s with item := update s.item node it } xs :=
  h.frame (fun x hx => update_of_ne (fun hc : x = node => hn (hc ▸ hx)) _ _) (fun _ _ => rfl) (fun _ _ => rfl)
    (fun _ _ _ => rfl) (fun _ _ _ => rfl) rfl rfl rfl

theorem skiplistPrepareNode_rep (h : Rep s xs) (h0 : node ≠ 0) (hn : node ∉ xs)
    (score : Score) : Rep (skiplistPrepareNode s node score) xs := by
  have hne : ∀ x ∈ 0 :: xs, x ≠ node := by
    rintro x hx rfl
    rcases mem_cons.1 hx with hx | hx
    · exact h0 hx
    · exact hn hx
  have hne' : ∀ x ∈ xs, x ≠ node := fun x hx => hne x (mem_cons_of_mem _ hx)
  refine h.frame (fun x hx => update_of_ne (hne' x hx) _ _) (fun x hx => update_of_ne (hne x hx) _ _)
    (fun x hx => update_of_ne (hne' x hx) _ _) (fun i x hx => update_of_ne (hne x hx) _ _)
    (fun i x hx => update_of_ne (hne x hx) _ _) rfl rfl rfl

/-! ## The search -/

variable {target : ℕ}

/-- the condition of the search holds of a prefix of a sorted sequence -/
theorem cuts_of_split {cond : ℕ → ℕ → Bool} (x : ℕ) (hA : ∀ a ∈ A, ∀ r, cond a r = true)
    (hB : ∀ b ∈ B, ∀ r, cond b r = false) : Cuts cond (A.length + 1) (x :: (A ++ B)) := by
  intro S1 q S2 hS hne
  obtain ⟨y, S1, rfl⟩ : ∃ y S, S1 = y :: S := exists_cons_of_ne_nil hne
  obtain ⟨_, hS⟩ := List.cons.inj hS
  have hq : (A ++ B)[S1.length]? = some q := by rw [hS]; simp
  rw [length_cons]
  by_cases hlt : S1.length < A.length
  · rw [List.getElem?_append_left hlt] at hq
    rw [hA q (mem_of_getElem? hq), decide_eq_true (by omega)]
  · rw [List.getElem?_append_right (by omega)] at hq
    rw [hB q (mem_of_getElem? hq), decide_eq_false (by omega)]

/-- the search for a place in the order ends, on every level in use, at the last node that is tall there and smaller -/
theorem findUpdate_spec (h : Rep s (A ++ B))
    (hA : ∀ a ∈ A, (s.item a).key < (s.item target).key) (hB : ∀ b ∈ B, ¬ (s.item b).key < (s.item target).key)
    (hi : i < s.level) : Last (tall s i) (0 :: A) (findUpdate s target i) := by
  have hcuts : Cuts (fun next _ => decide (compareOrder (s.item next) (s.item target) = .lt)) (A.length + 1) (0 :: (A ++ B)) := by
    refine cuts_of_split 0 (fun a ha _ => ?_) (fun b hb _ => ?_)
    · exact decide_eq_true ((compareOrder_lt_iff _ _).2 (hA a ha))
    · exact decide_eq_false fun hc => hB b hb ((compareOrder_lt_iff _ _).1 hc)
  have hlen : (0 :: (A ++ B)).length ≤ s.length + 1 := by rw [h.length]; simp
  have := descend_spec h.chain (tall_mono s) hcuts hlen (P := []) (Q := A ++ B) rfl
    (fun j hj => h.tall_header (by have := h.level_le; omega)) (by simp) (fun _ => (0, 0)) hi
  rwa [take_succ_cons, take_left] at this

theorem findUpdate_above (target : ℕ) (hi : s.level ≤ i) : findUpdate s target i = (0, 0) :=
  descend_other _ _ _ _ _ _ hi

/-! ## Insertion -/

/-- a prepared node: it takes part in at least one level and at most all of them -/
structure Fresh (s : SkipList) (node : ℕ) : Prop where
  ne : node ≠ 0
  pos : 1 ≤ s.levelCount node
  le : s.levelCount node ≤ zskiplistMaxlevel

theorem skiplistPrepareNode_fresh (s : SkipList) (h0 : node ≠ 0) (score : Score) :
    Fresh (skiplistPrepareNode s node score) node := by
  obtain ⟨h1, h2⟩ := skipRandomLevel_bounds s.randomState
  refine ⟨h0, ?_, ?_⟩
  · simpa [skiplistPrepareNode, skipNodeCreate] using h1
  · simpa [skiplistPrepareNode, skipNodeCreate] using h2

theorem raiseLevel_level (s : SkipList) (n : ℕ) : (raiseLevel s n).level = max s.level n := by
  unfold raiseLevel
  split_ifs with h
  · simp only
    omega
  · omega

theorem raiseLevel_lvl (s : SkipList) (n i : ℕ) :
    (raiseLevel s n).lvl i = if s.level ≤ i ∧ i < n then (s.lvl i).setSpan 0 s.length else s.lvl i := by
  unfold raiseLevel
  split_ifs with h1 h2 h2
  · dsimp only
    rw [forLevels_apply _ nodup_range', if_pos (by rw [mem_range'_1]; omega)]
  · dsimp only
    rw [forLevels_apply _ nodup_range', if_neg (by rw [mem_range'_1]; omega)]
  · omega
  · rfl

theorem raiseLevel_chain (h : Rep s xs) (n : ℕ) (hi : i < max s.level n) :
    Chain ((raiseLevel s n).lvl i) (tall s i) (0 :: xs) := by
  rw [raiseLevel_lvl]
  by_cases hlow : i < s.level
  · rw [if_neg (by omega)]
    exact h.chain i hlow
  · rw [if_pos (by omega)]
    refine chain_empty (fun x hx => ?_) (h.above i (by omega)) ?_
    · have := (h.heights x hx).2
      simp only [tall, decide_eq_false_iff_not]
      omega
    · simp [Links.setSpan, h.length]

theorem raiseLevel_levelCount (s : SkipList) (n : ℕ) : (raiseLevel s n).levelCount = s.levelCount := by
  unfold raiseLevel
  split_ifs <;> rfl

theorem insertLinks_apply (s : SkipList) (node : ℕ) (found : ℕ → ℕ × ℕ) (i : ℕ) :
    insertLinks s node found i =
      if i < s.levelCount node then linkAfter (s.lvl i) (found i).1 node ((found 0).2 - (found i).2)
      else if i < s.level then extend (s.lvl i) (found i).1 else s.lvl i := by
  rw [insertLinks, forLevels_apply _ nodup_range', forLevels_apply _ nodup_range]
  simp only [mem_range'_1, mem_range]
  split_ifs <;> first | rfl | omega

/-- the links of a level after an insertion -/
theorem insertLinks_chain (h : Rep s (A ++ B)) (hf : Fresh s node)
    (hnew : node ∉ 0 :: (A ++ B)) (hA : ∀ a ∈ A, (s.item a).key < (s.item node).key)
    (hB : ∀ b ∈ B, ¬ (s.item b).key < (s.item node).key) (hi : i < max s.level (s.levelCount node)) :
    Chain (insertLinks (raiseLevel s (s.levelCount node)) node (findUpdate s node) i) (tall s i) (0 :: (A ++ node :: B)) := by
  have hlast : ∀ j < max s.level (s.levelCount node), Last (tall s j) (0 :: A) (findUpdate s node j) := by
    intro j hj
    by_cases hlow : j < s.level
    · exact findUpdate_spec h hA hB hlow
    · rw [findUpdate_above node (by omega)]
      refine ⟨[], A, rfl, h.tall_header (by have := hf.le; have := h.level_le; omega), fun a ha => ?_, rfl⟩
      have := (h.heights a (mem_append_left _ ha)).2
      simp only [tall, decide_eq_false_iff_not]
      omega
  obtain ⟨P0, hP0, hrank⟩ := h.last_zero (hlast 0 (by have := h.level_pos; omega))
  have hrank0 : (findUpdate s node 0).2 = A.length := by
    have := congrArg List.length hP0
    simp only [length_cons, length_append, length_nil] at this
    omega
  obtain ⟨P, A2, h1, h2, h3, h4⟩ := hlast i hi
  have hlen := congrArg List.length h1
  simp only [length_cons, length_append] at hlen
  have hgap : (findUpdate s node 0).2 - (findUpdate s node i).2 = A2.length := by
    rw [hrank0, h4]
    omega
  have hseq : 0 :: (A ++ B) = P ++ (findUpdate s node i).1 :: (A2 ++ B) := by
    rw [← cons_append, h1]
    simp
  have hseq' : 0 :: (A ++ node :: B) = P ++ (findUpdate s node i).1 :: (A2 ++ node :: B) := by
    rw [← cons_append, h1]
    simp
  have hchain := raiseLevel_chain h (s.levelCount node) hi
  rw [hseq] at hchain
  have hnd := h.nodup
  rw [hseq] at hnd hnew
  rw [hseq', insertLinks_apply, raiseLevel_levelCount, raiseLevel_level, hgap, if_pos hi]
  split_ifs with hlc
  · exact chain_linkAfter hchain hnd h2 (by simp [tall, hlc]) h3 hnew
  · exact chain_extend hchain hnd h2 (by simp only [tall, decide_eq_false_iff_not]; omega) h3

theorem insert_backs (h : Backs b none (A ++ B)) (hnd : (A ++ B).Nodup)
    (hnew : node ∉ A ++ B) (hnode : b' node = A.getLast?) (hhead : ∀ c, B.head? = some c → b' c = some node)
    (hother : ∀ x, x ≠ node → B.head? ≠ some x → b' x = b x) : Backs b' none (A ++ node :: B) := by
  obtain ⟨h1, h2⟩ := (backs_append b none A B).1 h
  obtain ⟨_, ndB, dis⟩ := nodup_append.1 hnd
  refine (backs_append _ _ _ _).2 ⟨h1.congr fun a ha => hother a ?_ ?_, ?_, ?_⟩
  · exact fun hc => hnew (hc ▸ mem_append_left _ ha)
  · exact fun hc => dis a ha a (List.mem_of_mem_head? hc) rfl
  · rw [hnode, Option.or_none]
  · cases B with
    | nil => trivial
    | cons c B =>
      refine ⟨hhead c rfl, h2.2.congr fun x hx => hother x ?_ ?_⟩
      · exact fun hc => hnew (hc ▸ mem_append_right _ (mem_cons_of_mem _ hx))
      · rintro hc
        obtain rfl : c = x := Option.some.inj hc
        exact (nodup_cons.1 ndB).1 hx

/-- `update[0]` as the backward link of what follows it -/
theorem Rep.back_link (h : Rep s (A ++ B)) {r : ℕ × ℕ} (hr : Last (tall s 0) (0 :: A) r) :
    (if r.1 = 0 then none else some r.1) = A.getLast? := by
  obtain ⟨P, h1, _⟩ := h.last_zero hr
  cases P with
  | nil =>
    obtain ⟨h2, h3⟩ := List.cons.inj h1
    rw [h3, ← h2]
    rfl
  | cons p P =>
    obtain ⟨_, h3⟩ := List.cons.inj h1
    have hne : r.1 ≠ 0 := by
      intro hc
      refine (nodup_cons.1 h.nodup).1 ?_
      rw [h3, hc]
      simp
    rw [if_neg hne, h3]
    simp

/-- **Insertion** of a prepared node whose key is not in the list puts it at its place in the sequence. -/
theorem skiplistInsertNode_rep (h : Rep s xs) (hf : Fresh s node) (hn : node ∉ xs)
    (hne : ∀ a ∈ xs, (s.item a).key ≠ (s.item node).key) :
    ∃ p q, xs = p ++ q ∧ Rep (skiplistInsertNode s node) (p ++ node :: q) := by
  obtain ⟨A, B, rfl, hA, hB⟩ := split_sorted h.sorted (s.item node).key
  refine ⟨A, B, rfl, ?_⟩
  have hnew : node ∉ 0 :: (A ++ B) := by
    intro hc
    rcases mem_cons.1 hc with hc | hc
    · exact hf.ne hc
    · exact hn hc
  have hgt : ∀ b ∈ B, (s.item node).key < (s.item b).key := fun b hb =>
    lt_of_le_of_ne (not_lt.1 (hB b hb)) (Ne.symm (hne b (mem_append_right _ hb)))
  obtain ⟨lvl, hlvl⟩ : ∃ lvl, insertLinks (raiseLevel s (s.levelCount node)) node (findUpdate s node) = lvl := ⟨_, rfl⟩
  have hchain : ∀ i < max s.level (s.levelCount node), Chain (lvl i) (tall s i) (0 :: (A ++ node :: B)) := by
    intro i hi
    rw [← hlvl]
    exact insertLinks_chain h hf hnew hA hB hi
  have hall : ∀ y ∈ (0 :: A) ++ node :: B, tall s 0 y := by
    intro y hy
    by_cases hyn : y = node
    · rw [hyn, tall, decide_eq_true_eq]
      exact hf.pos
    · exact h.tall_zero y (by simpa [hyn] using hy)
  have hfwd : (lvl 0).forward node = B.head? :=
    chain_zero (p := 0 :: A) (by simpa using hchain 0 (by have := h.level_pos; omega)) hall
  have hback := h.back_link (findUpdate_spec h hA hB h.level_pos)
  have habove : ∀ i, max s.level (s.levelCount node) ≤ i → (lvl i).forward 0 = none := by
    intro i hi
    rw [← hlvl, insertLinks_apply, raiseLevel_levelCount, raiseLevel_level, if_neg (by omega), if_neg (by omega),
      raiseLevel_lvl, if_neg (by omega)]
    exact h.above i (by omega)
  have hsame : (raiseLevel s (s.levelCount node)).item = s.item ∧ (raiseLevel s (s.levelCount node)).backward = s.backward ∧
      (raiseLevel s (s.levelCount node)).tail = s.tail ∧ (raiseLevel s (s.levelCount node)).length = s.length := by
    unfold raiseLevel
    split_ifs <;> exact ⟨rfl, rfl, rfl, rfl⟩
  obtain ⟨e2, e3, e4, e5⟩ := hsame
  have hnd : (A ++ B).Nodup := (nodup_cons.1 h.nodup).2
  have hndn : (0 :: (A ++ node :: B)).Nodup := by
    have hp : List.Perm (0 :: (A ++ node :: B)) (node :: 0 :: (A ++ B)) :=
      (List.Perm.cons 0 perm_middle).trans (List.Perm.swap _ _ _)
    exact hp.nodup_iff.2 (nodup_cons.2 ⟨hnew, h.nodup⟩)
  have hheights : ∀ x ∈ A ++ node :: B, 1 ≤ s.levelCount x ∧ s.levelCount x ≤ max s.level (s.levelCount node) := by
    intro x hx
    by_cases hxn : x = node
    · rw [hxn]
      exact ⟨hf.pos, le_max_right _ _⟩
    · obtain ⟨h1, h2⟩ := h.heights x (by simpa [hxn] using hx)
      exact ⟨h1, h2.trans (le_max_left _ _)⟩
  have hlength : s.length + 1 = (A ++ node :: B).length := by
    rw [h.length]
    simp only [length_append, length_cons]
    omega
  unfold skiplistInsertNode
  simp only [hlvl, hfwd, hback, raiseLevel_levelCount, raiseLevel_level, e2, e3, e4, e5]
  cases hB0 : B.head? with
  | none =>
    obtain rfl : B = [] := List.head?_eq_none_iff.1 hB0
    refine ⟨hndn, pairwise_insert h.sorted hA hgt, h.header, h.level_pos.trans (le_max_left _ _), max_le h.level_le hf.le,
      hheights, hchain, habove, ?_, by simp, hlength⟩
    exact insert_backs h.back hnd hn (by simp) (by simp) fun x hx _ => update_of_ne hx _ _
  | some c =>
    have hcn : c ≠ node := fun hc => hn (hc ▸ mem_append_right _ (List.mem_of_mem_head? hB0))
    refine ⟨hndn, pairwise_insert h.sorted hA hgt, h.header, h.level_pos.trans (le_max_left _ _), max_le h.level_le hf.le,
      hheights, hchain, habove, ?_, ?_, hlength⟩
    · refine insert_backs h.back hnd hn ?_ (fun c' hc' => ?_) (fun x hx hxB => ?_)
      · simp [update_of_ne (Ne.symm hcn)]
      · obtain rfl : c = c' := Option.some.inj (hB0.symm.trans hc')
        simp
      · have hxc : x ≠ c := fun hc => hxB (by rw [hB0, hc])
        simp [update_of_ne hxc, update_of_ne hx]
    · cases B with
      | nil => simp at hB0
      | cons b B =>
        have := h.tail
        simpa [List.getLast?_append] using this

theorem skiplistInsertNode_item (s : SkipList) (node : ℕ) : (skiplistInsertNode s node).item = s.item := by
  have : (raiseLevel s (s.levelCount node)).item = s.item := by
    unfold raiseLevel
    split_ifs <;> rfl
  unfold skiplistInsertNode
  simp only
  split <;> exact this

/-! ## Removal -/

/-- the search for a node of the list ends before it -/
theorem findUpdate_target (h : Rep s (A ++ target :: B)) (hi : i < s.level) :
    Last (tall s i) (0 :: A) (findUpdate s target i) := by
  obtain ⟨_, sB, sA⟩ := pairwise_append.1 h.sorted
  have hA : ∀ a ∈ A, (s.item a).key < (s.item target).key := fun a ha => sA a ha target mem_cons_self
  have hB : ∀ b ∈ target :: B, ¬ (s.item b).key < (s.item target).key := by
    intro b hb
    rcases mem_cons.1 hb with rfl | hb
    · exact lt_irrefl _
    · exact lt_asymm ((pairwise_cons.1 sB).1 b hb)
  exact findUpdate_spec h hA hB hi

/-- the body of the removal loop, on a level in use -/
theorem detach_level (h : Rep s (A ++ target :: B)) (hi : i < s.level) :
    Chain (if (s.lvl i).forward (findUpdate s target i).1 = some target then unlink (s.lvl i) (findUpdate s target i).1 target
        else shrink (s.lvl i) (findUpdate s target i).1) (tall s i) (0 :: (A ++ B)) := by
  obtain ⟨P, A2, h1, h2, h3, _⟩ := findUpdate_target h hi
  have hseq : 0 :: (A ++ target :: B) = P ++ (findUpdate s target i).1 :: (A2 ++ target :: B) := by
    rw [← cons_append, h1]
    simp
  have hseq' : 0 :: (A ++ B) = P ++ (findUpdate s target i).1 :: (A2 ++ B) := by
    rw [← cons_append, h1]
    simp
  have hchain := h.chain i hi
  have hnd := h.nodup
  rw [hseq] at hchain hnd
  rw [hseq']
  by_cases ht : tall s i target
  · obtain ⟨h4, h5⟩ := chain_unlink hchain hnd h2 ht h3
    rwa [if_pos h4]
  · obtain ⟨h4, h5⟩ := chain_shrink hchain hnd h2 (by simpa using ht) h3
    rwa [if_neg h4]

theorem lowerLevel_spec (lvl : ℕ → Links ℕ) (n : ℕ) :
    lowerLevel lvl n ≤ n ∧ (1 ≤ n → 1 ≤ lowerLevel lvl n) ∧ (∀ i, lowerLevel lvl n ≤ i → i < n → (lvl i).forward 0 = none) := by
  induction n using lowerLevel.induct lvl with
  | case1 n hnone ih =>
    rw [lowerLevel, if_pos hnone]
    refine ⟨by omega, fun _ => ih.2.1 (by omega), fun i h1 h2 => ?_⟩
    by_cases hi : i = n + 1
    · rw [hi]
      exact hnone
    · exact ih.2.2 i h1 (by omega)
  | case2 n hsome =>
    rw [lowerLevel, if_neg hsome]
    exact ⟨le_rfl, fun _ => by omega, fun i h1 h2 => by omega⟩
  | case3 n hn =>
    have : lowerLevel lvl n = n := by
      match n, hn with
      | 0, _ => rfl
      | 1, _ => rfl
      | n + 2, hn => exact absurd rfl (hn n)
    rw [this]
    exact ⟨le_rfl, id, fun i h1 h2 => by omega⟩

/-- a level on which the header has no link has no tall node -/
theorem tall_of_header_none {l : Links ℕ} {tall : ℕ → Bool} (h : Chain l tall (0 :: xs)) (h0 : tall 0)
    (hf : l.forward 0 = none) : ∀ x ∈ xs, tall x = false := by
  rw [(h.1 h0).1] at hf
  simpa using List.find?_eq_none.1 hf

theorem remove_backs (h : Backs b none (A ++ target :: B))
    (hnd : (A ++ target :: B).Nodup) (hhead : ∀ c, B.head? = some c → b' c = b target)
    (hother : ∀ x, B.head? ≠ some x → b' x = b x) : Backs b' none (A ++ B) := by
  obtain ⟨h1, h2⟩ := (backs_append b none A _).1 h
  obtain ⟨_, ndB, dis⟩ := nodup_append.1 hnd
  refine (backs_append _ _ _ _).2 ⟨h1.congr fun a ha => hother a fun hc => ?_, ?_⟩
  · exact dis a ha a (mem_cons_of_mem _ (List.mem_of_mem_head? hc)) rfl
  · cases B with
    | nil => trivial
    | cons c B =>
      refine ⟨(hhead c rfl).trans h2.1, h2.2.2.congr fun x hx => hother x fun hc => ?_⟩
      obtain rfl : c = x := Option.some.inj hc
      exact (nodup_cons.1 (nodup_cons.1 ndB).2).1 hx

/-- **Removal** of a node of the list takes it out of the sequence. -/
theorem skiplistDetachNode_rep (h : Rep s (A ++ target :: B)) :
    Rep (skiplistDetachNode s target) (A ++ B) := by
  obtain ⟨lvl, hlvl⟩ : ∃ lvl, forLevels (fun i l => if l.forward (findUpdate s target i).1 = some target
      then unlink l (findUpdate s target i).1 target else shrink l (findUpdate s target i).1) (List.range s.level) s.lvl = lvl :=
    ⟨_, rfl⟩
  have hat : ∀ i, lvl i = if i < s.level then (if (s.lvl i).forward (findUpdate s target i).1 = some target
      then unlink (s.lvl i) (findUpdate s target i).1 target else shrink (s.lvl i) (findUpdate s target i).1) else s.lvl i := by
    intro i
    rw [← hlvl, forLevels_apply _ nodup_range]
    simp only [mem_range]
  have hchain : ∀ i < s.level, Chain (lvl i) (tall s i) (0 :: (A ++ B)) := by
    intro i hi
    rw [hat i, if_pos hi]
    exact detach_level h hi
  have hnd := nodup_cons.1 h.nodup
  have hsub : (A ++ B).Sublist (A ++ target :: B) := List.Sublist.append_left (sublist_cons_self _ _) _
  -- the removed node keeps its own links: the loop writes to nodes before it
  have hfwd : (lvl 0).forward target = B.head? := by
    have hold : (s.lvl 0).forward target = B.head? := by
      have := h.chain 0 h.level_pos
      rw [← cons_append] at this
      exact chain_zero this (by simpa using h.tall_zero)
    obtain ⟨P, h1, _⟩ := h.last_zero (findUpdate_target h h.level_pos)
    have hmem : (findUpdate s target 0).1 ∈ 0 :: A := by rw [h1]; simp
    have hne : target ≠ (findUpdate s target 0).1 := by
      intro hc
      rcases mem_cons.1 (hc.symm ▸ hmem : target ∈ 0 :: A) with h0 | h0
      · exact hnd.1 (by simp [h0])
      · exact (nodup_append.1 hnd.2).2.2 target h0 target mem_cons_self rfl
    rw [hat 0, if_pos (show 0 < s.level from h.level_pos), ← hold]
    split_ifs
    · simp [unlink, Links.setForward, Links.setSpan, update_of_ne hne]
    · simp [shrink, Links.setSpan]
  have hlow := lowerLevel_spec lvl s.level
  have hheights : ∀ x ∈ A ++ B, 1 ≤ s.levelCount x ∧ s.levelCount x ≤ lowerLevel lvl s.level := by
    intro x hx
    obtain ⟨h1, h2⟩ := h.heights x (hsub.subset hx)
    refine ⟨h1, not_lt.1 fun hlt => ?_⟩
    have hi : lowerLevel lvl s.level < s.level := by omega
    have := tall_of_header_none (hchain _ hi) (h.tall_header (by have := h.level_le; omega)) (hlow.2.2 _ le_rfl hi) x hx
    simp only [tall, decide_eq_false_iff_not] at this
    omega
  have hlevel : lowerLevel lvl s.level ≤ zskiplistMaxlevel := hlow.1.trans h.level_le
  have hchain' : ∀ i < lowerLevel lvl s.level, Chain (lvl i) (tall s i) (0 :: (A ++ B)) := fun i hi =>
    hchain i (by have := hlow.1; omega)
  have habove : ∀ i, lowerLevel lvl s.level ≤ i → (lvl i).forward 0 = none := by
    intro i hi
    by_cases hlt : i < s.level
    · exact hlow.2.2 i hi hlt
    · rw [hat i, if_neg hlt]
      exact h.above i (by omega)
  have hndn : (0 :: (A ++ B)).Nodup := h.nodup.sublist (List.Sublist.cons_cons _ hsub)
  have hlength : s.length - 1 = (A ++ B).length := by
    rw [h.length]
    simp only [length_append, length_cons]
    omega
  unfold skiplistDetachNode
  simp only [hlvl, hfwd]
  cases hB0 : B.head? with
  | none =>
    obtain rfl : B = [] := List.head?_eq_none_iff.1 hB0
    refine ⟨hndn, h.sorted.sublist hsub, h.header, hlow.2.1 h.level_pos, hlevel, hheights, hchain', habove, ?_, ?_, hlength⟩
    · exact remove_backs h.back hnd.2 (by simp) fun x _ => rfl
    · have := ((backs_append _ _ A [target]).1 h.back).2.1
      simpa using this
  | some c =>
    refine ⟨hndn, h.sorted.sublist hsub, h.header, hlow.2.1 h.level_pos, hlevel, hheights, hchain', habove, ?_, ?_, hlength⟩
    · refine remove_backs h.back hnd.2 (fun c' hc' => ?_) (fun x hx => ?_)
      · obtain rfl : c = c' := Option.some.inj (hB0.symm.trans hc')
        simp
      · have hxc : x ≠ c := fun hc => hx (by rw [hB0, hc])
        simp [update_of_ne hxc]
    · cases B with
      | nil => simp at hB0
      | cons b B =>
        have := h.tail
        simpa [List.getLast?_append] using this

theorem skiplistDetachNode_item (s : SkipList) (target : ℕ) : (skiplistDetachNode s target).item = s.item := by
  unfold skiplistDetachNode
  simp only
  split <;> rfl

theorem skiplistDetachNode_fresh (h : Rep s (A ++ target :: B)) :
    Fresh (skiplistDetachNode s target) target := by
  have hlc : (skiplistDetachNode s target).levelCount = s.levelCount := by
    unfold skiplistDetachNode
    simp only
    split <;> rfl
  obtain ⟨h1, h2⟩ := h.heights target (by simp)
  refine ⟨fun hc => ?_, by rw [hlc]; exact h1, by rw [hlc]; exact h2.trans h.level_le⟩
  exact (nodup_cons.1 h.nodup).1 (by simp [hc])

/-! ## Ranks and successors -/

/-- the node at a rank is the one at that index of the sequence -/
theorem skiplistByRank_spec (h : Rep s xs) (rank : ℕ) : skiplistByRank s rank = xs[rank]? := by
  have hlen : (0 :: xs).length ≤ s.length + 1 := by rw [h.length]; simp
  have := seek_spec (rank + 1) h.chain (tall_mono s) h.tall_zero h.level_pos hlen (P := []) (Q := xs) rfl
    (fun i hi => h.tall_header (by have := h.level_le; omega)) (by simp)
  rwa [List.getElem?_cons_succ] at this

/-- `levels[0].forward` of a node is the next one of the sequence -/
theorem forward_spec {p q : List ℕ} {a : ℕ} (h : Rep s (p ++ a :: q)) : (s.lvl 0).forward a = q.head? := by
  have := h.chain 0 h.level_pos
  rw [← cons_append] at this
  exact chain_zero this (by simpa using h.tall_zero)

end StoreSystem.Skip
