/-
The requests on Hashes and ZSets meet the reference semantics (`Service.Keyspace`): the array replies with their size limits,
and the writes, which go to the stored object or to a copy that takes its place.

An array is collected element by element and given up when the encoded response would pass 1 MiB. Its size is computed on
`size_t`; the differences do not wrap because every field, value and member that came in a client's frame is far shorter
than the limit (`Obj.Short`).
-/
import StoreSystem.Service.Refinement

namespace StoreSystem

open List Function Option

/-! ## Objects from client frames -/

/-- no part of the object is longer than a client's frame -/
def Obj.Short : Obj → Prop
  | .string _ => True
  | .hash m => ∀ f v, m f = some v → f.length ≤ respMaxFrameSize ∧ v.length ≤ respMaxFrameSize
  | .zset m => ∀ k score, m k = some score → k.length ≤ respMaxFrameSize

def Keyspace.Short (ks : Keyspace) : Prop := ∀ k o d, ks k = some (o, d) → o.Short

namespace Service

open Cache (Becomes Good Finds Mutated)

variable {hash : Hasher} {libc : Libc} {t : ℕ} {env : Env} {s s' : Service}

/-! ## Arrays -/

theorem decimalDigitsLoop_le (fuel value digits : ℕ) : decimalDigitsLoop fuel value digits ≤ digits + fuel := by
  induction fuel generalizing value digits with
  | zero => exact le_rfl
  | succ fuel ih =>
    rw [decimalDigitsLoop]
    split_ifs
    · exact (ih _ _).trans (by omega)
    · omega

theorem decimalDigits_le (value : ℕ) : decimalDigits value ≤ 21 := decimalDigitsLoop_le 20 value 1

/-- the bytes of a bulk string on the wire -/
def bulkSize (element : Bytes) : ℕ := 1 + decimalDigits element.length + 2 + element.length + 2

theorem bulkEncodedSize_eq {element : Bytes} (h : element.length ≤ respMaxFrameSize) :
    bulkEncodedSize element.length = bulkSize element ∧ bulkSize element ≤ 2 * respMaxFrameSize := by
  have hd := decimalDigits_le element.length
  unfold bulkEncodedSize bulkSize respMaxFrameSize sizeMax at *
  constructor
  · rw [if_neg (by omega)]
    omega
  · omega

theorem sizeSub_eq {a b : ℕ} (h : b ≤ a) (ha : a < 2 ^ 64) : sizeSub a b = a - b := by
  unfold sizeSub
  rw [Nat.mod_eq_of_lt (by omega : b < 2 ^ 64)]
  omega

/-- a callback that adds the elements `chunk x` to a collection when the response stays within the limit -/
structure Collects {α : Type} (callback : Collection → α → Collection × Bool) (chunk : α → List Bytes) (x : α) : Prop where
  fits : ∀ c : Collection, c.encodedSize ≤ serviceMaxResponse →
    c.encodedSize + ((chunk x).map bulkSize).sum ≤ serviceMaxResponse →
    callback c x = (⟨c.elements ++ chunk x, c.encodedSize + ((chunk x).map bulkSize).sum, c.tooLarge⟩, true)
  tooLarge : ∀ c : Collection, c.encodedSize ≤ serviceMaxResponse →
    ¬ c.encodedSize + ((chunk x).map bulkSize).sum ≤ serviceMaxResponse →
    (callback c x).2 = false ∧ (callback c x).1.tooLarge = true

theorem visit_collects {α : Type} {callback : Collection → α → Collection × Bool} {chunk : α → List Bytes} (l : List α)
    (hc : ∀ x ∈ l, Collects callback chunk x) (c : Collection) (hsize : c.encodedSize ≤ serviceMaxResponse) :
    (c.encodedSize + ((l.flatMap chunk).map bulkSize).sum ≤ serviceMaxResponse →
        visit callback c l =
          (⟨c.elements ++ l.flatMap chunk, c.encodedSize + ((l.flatMap chunk).map bulkSize).sum, c.tooLarge⟩, true)) ∧
      (¬ c.encodedSize + ((l.flatMap chunk).map bulkSize).sum ≤ serviceMaxResponse →
        (visit callback c l).2 = false ∧ (visit callback c l).1.tooLarge = true) := by
  induction l generalizing c with
  | nil =>
    constructor
    · intro _
      simp [visit]
    · intro hno
      exact absurd (by simpa using hsize) hno
  | cons x l ih =>
    obtain ⟨hx, hl⟩ := forall_mem_cons.1 hc
    simp only [visit, flatMap_cons, map_append, sum_append]
    by_cases hfit : c.encodedSize + ((chunk x).map bulkSize).sum ≤ serviceMaxResponse
    · rw [hx.fits c hsize hfit]
      simp only [if_true]
      obtain ⟨h1, h2⟩ := ih hl ⟨c.elements ++ chunk x, c.encodedSize + ((chunk x).map bulkSize).sum, c.tooLarge⟩ hfit
      simp only [Nat.add_assoc, append_assoc] at h1 h2 ⊢
      exact ⟨h1, h2⟩
    · obtain ⟨h1, h2⟩ := hx.tooLarge c hsize hfit
      rw [if_neg (by simp [h1])]
      exact ⟨fun hc => absurd hc (by omega), fun _ => ⟨rfl, h2⟩⟩

theorem collectHashPair_collects {p : Bytes × Bytes} (h1 : p.1.length ≤ respMaxFrameSize) (h2 : p.2.length ≤ respMaxFrameSize) :
    Collects collectHashPair (fun p => [p.1, p.2]) p := by
  obtain ⟨e1, l1⟩ := bulkEncodedSize_eq h1
  obtain ⟨e2, l2⟩ := bulkEncodedSize_eq h2
  have hmax : serviceMaxResponse = 1048576 := rfl
  have hframe : respMaxFrameSize = 65536 := rfl
  constructor
  · intro c hc hfit
    simp only [map_cons, map_nil, sum_cons, sum_nil] at hfit ⊢
    unfold collectHashPair
    simp only [e1, e2]
    rw [sizeSub_eq (by omega) (by omega), sizeSub_eq (by omega) (by omega), Nat.mod_eq_of_lt (by omega), Nat.mod_eq_of_lt (by omega),
      if_neg (by unfold sizeMax; omega)]
    simp only [Prod.mk.injEq, Collection.mk.injEq, and_true, true_and]
    omega
  · intro c hc hfit
    simp only [map_cons, map_nil, sum_cons, sum_nil] at hfit
    unfold collectHashPair
    simp only [e1, e2]
    rw [sizeSub_eq (by omega) (by omega), sizeSub_eq (by omega) (by omega), Nat.mod_eq_of_lt (by omega), if_pos (by omega)]
    exact ⟨rfl, rfl⟩

theorem collectElement_collects {element : Bytes} (h : element.length ≤ respMaxFrameSize) :
    Collects collectElement (fun e => [e]) element := by
  obtain ⟨e1, l1⟩ := bulkEncodedSize_eq h
  have hmax : serviceMaxResponse = 1048576 := rfl
  have hframe : respMaxFrameSize = 65536 := rfl
  constructor
  · intro c hc hfit
    simp only [map_cons, map_nil, sum_cons, sum_nil] at hfit ⊢
    unfold collectElement
    simp only [e1]
    rw [sizeSub_eq (by omega) (by omega), Nat.mod_eq_of_lt (by omega), if_neg (by unfold sizeMax; omega)]
    rfl
  · intro c hc hfit
    simp only [map_cons, map_nil, sum_cons, sum_nil] at hfit
    unfold collectElement
    simp only [e1]
    rw [sizeSub_eq (by omega) (by omega), if_pos (by omega)]
    exact ⟨rfl, rfl⟩

/-- the elements of one member of a range -/
def memberElements (libc : Libc) (withScores : Bool) (i : Item) : List Bytes :=
  if withScores then [i.member, libc.formatScore i.score] else [i.member]

theorem collectZsetMember_collects (withScores : Bool) {i : Item} (h : i.member.length ≤ respMaxFrameSize) :
    Collects (collectZsetMember libc withScores) (memberElements libc withScores) i := by
  have hm := collectElement_collects h
  have hshort := libc.formatScore_short i.score
  have ht := collectElement_collects (show (libc.formatScore i.score).length ≤ respMaxFrameSize from
    hshort.le.trans (by decide))
  constructor
  · intro c hc hfit
    unfold collectZsetMember
    unfold memberElements at hfit ⊢
    cases withScores with
    | false =>
      rw [hm.fits c hc hfit]
      rfl
    | true =>
      simp only [if_true, map_cons, map_nil, sum_cons, sum_nil] at hfit ⊢
      have hfirst : c.encodedSize + (([i.member] : List Bytes).map bulkSize).sum ≤ serviceMaxResponse := by
        simp only [map_cons, map_nil, sum_cons, sum_nil]
        omega
      rw [hm.fits c hc hfirst]
      simp only [if_neg (not_le.2 hshort)]
      rw [ht.fits _ hfirst (by
        simp only [map_cons, map_nil, sum_cons, sum_nil]
        omega)]
      simp only [map_cons, map_nil, sum_cons, sum_nil, append_assoc, singleton_append,
        Prod.mk.injEq, Collection.mk.injEq, and_true, true_and]
      omega
  · intro c hc hfit
    unfold collectZsetMember
    unfold memberElements at hfit
    by_cases hfirst : c.encodedSize + (([i.member] : List Bytes).map bulkSize).sum ≤ serviceMaxResponse
    · rw [hm.fits c hc hfirst]
      cases withScores with
      | false => exact absurd hfirst hfit
      | true =>
        simp only [if_true, map_cons, map_nil, sum_cons, sum_nil] at hfit hfirst ⊢
        rw [if_neg (not_le.2 hshort)]
        exact ht.tooLarge _ hfirst (by
          simp only [map_cons, map_nil, sum_cons, sum_nil]
          omega)
    · obtain ⟨h1, h2⟩ := hm.tooLarge c hc hfirst
      cases hr : collectElement c i.member with
      | mk c' ok =>
        rw [hr] at h1 h2
        simp only at h1 h2
        subst h1
        exact ⟨rfl, h2⟩

theorem arraySize_eq (elements : List Bytes) :
    arraySize elements = decimalDigits elements.length + 3 + (elements.map bulkSize).sum := by
  rw [arraySize, show (fun e : Bytes => 1 + decimalDigits e.length + 2 + e.length + 2) = bulkSize from rfl]
  omega

/-- **The reply of a collection** is the array, or the error for one that is too large. -/
theorem finishCollection_reply {α : Type} {callback : Collection → α → Collection × Bool} {chunk : α → List Bytes} (l : List α)
    (hc : ∀ x ∈ l, Collects callback chunk x) (hcount : (l.flatMap chunk).length ≤ serviceMaxArrayElements) :
    s.finishCollection (visit callback ⟨[], decimalDigits (l.flatMap chunk).length + 3, false⟩ l) =
      s.answer (boundedArray (l.flatMap chunk)) := by
  have hmax : serviceMaxResponse = 1024 * 1024 := rfl
  have hstart : decimalDigits (l.flatMap chunk).length + 3 ≤ serviceMaxResponse := by
    have := decimalDigits_le (l.flatMap chunk).length
    omega
  obtain ⟨h1, h2⟩ := visit_collects l hc ⟨[], decimalDigits (l.flatMap chunk).length + 3, false⟩ hstart
  unfold finishCollection boundedArray
  rw [arraySize_eq]
  by_cases hfit : decimalDigits (l.flatMap chunk).length + 3 + ((l.flatMap chunk).map bulkSize).sum ≤ serviceMaxResponse
  · rw [h1 hfit, if_pos rfl, if_neg]
    · rfl
    · rw [← hmax, not_or, not_lt, not_lt]
      exact ⟨hcount, hfit⟩
  · obtain ⟨h3, h4⟩ := h2 hfit
    rw [if_neg (by rw [h3]; decide), if_pos h4, if_pos]
    exact Or.inr (by rw [← hmax]; omega)

/-! ## Reply buffers -/

/-- the doubling reaches every size within the limit -/
theorem growReply_ge {limit count : ℕ} (hcount : count ≤ limit) (fuel : ℕ) :
    ∀ capacity, limit < capacity * 2 ^ fuel → count ≤ growReply limit fuel capacity count := by
  induction fuel with
  | zero =>
    intro capacity h
    rw [growReply]
    omega
  | succ fuel ih =>
    intro capacity h
    rw [growReply]
    split_ifs with h1 h2
    · exact hcount
    · exact ih _ (by rwa [Nat.mul_assoc, ← Nat.pow_succ'])
    · omega

/-- a reservation that is not refused for its size changes nothing but a capacity -/
structure Reserves (s : Service) (r : Service × ReserveResult) : Prop where
  cache : r.1.cache = s.cache
  frame : Frame s r.1
  result : r.2 = .ok ∨ r.2 = .failed

theorem reserveReplyElements_reserves (ok : Bool) {count : ℕ} (h : count ≤ serviceMaxArrayElements) :
    Reserves s (s.reserveReplyElements ok count) := by
  unfold reserveReplyElements
  rw [if_neg (not_lt.2 h)]
  by_cases hfits : count ≤ s.replyElementCapacity
  · rw [if_pos hfits]
    exact ⟨rfl, .refl s, Or.inl rfl⟩
  rw [if_neg hfits]
  cases ok with
  | true => exact ⟨rfl, ⟨rfl, rfl, rfl, rfl⟩, Or.inl rfl⟩
  | false => exact ⟨rfl, .refl s, Or.inr rfl⟩

theorem reserveScoreBuffer_reserves (ok : Bool) {bytes : ℕ} (h : bytes ≤ serviceMaxResponse) :
    Reserves s (s.reserveScoreBuffer ok bytes) := by
  unfold reserveScoreBuffer
  have hmax : serviceMaxResponse = 1048576 := rfl
  have hgrow := growReply_ge h 32 (if s.replyScoreCapacity = 0 then 256 else s.replyScoreCapacity) (by
    split_ifs <;> omega)
  by_cases hfits : bytes ≤ s.replyScoreCapacity
  · rw [if_pos hfits]
    exact ⟨rfl, .refl s, Or.inl rfl⟩
  rw [if_neg hfits]
  simp only
  rw [if_neg (not_lt.2 hgrow)]
  cases ok with
  | true => exact ⟨rfl, ⟨rfl, rfl, rfl, rfl⟩, Or.inl rfl⟩
  | false => exact ⟨rfl, .refl s, Or.inr rfl⟩

theorem boundedArray_long {elements : List Bytes} (h : elements.length > serviceMaxArrayElements) :
    boundedArray elements = .error .responseTooLarge := if_pos (Or.inl h)

theorem executeHgetall_meets (hg : Good hash t s.cache) (hshort : (s.cache.shown t).Short) (name key : Bytes) :
    Meets hash t s (s.executeHgetall hash env [name, key])
      (perform libc t (s.cache.shown t) [name, key] (.hgetall key)) := by
  have hf := Cache.cacheGetHashObjectRef_finds hg key true
  refine readObject_meets hash_kind hf fun id m d hid hview hinv hk => ?_
  obtain ⟨l, hl, hlen, hvisit⟩ := hashVisit_spec hinv hview
  have hsize : (l.flatMap fun p => [p.1, p.2]).length = l.length * 2 := by
    simp [length_flatMap]
  have hmax : serviceMaxArrayElements = 65536 := rfl
  simp only [hlen, hvisit]
  by_cases hcount : l.length > serviceMaxArrayElements / 2
  · rw [if_pos hcount]
    refine Meets.reads hf.becomes (Frame.cache s _) ⟨l, hl, ?_⟩
    rw [boundedArray_long (by omega)]
  rw [if_neg hcount]
  have hres := reserveReplyElements_reserves (s := s.withCache (s.cache.cacheGetHashObjectRef hash key true).1)
    env.elements (show l.length * 2 ≤ serviceMaxArrayElements by omega)
  generalize reserveReplyElements env.elements (s.withCache (s.cache.cacheGetHashObjectRef hash key true).1)
    (l.length * 2) = r at hres
  obtain ⟨s', result⟩ := r
  obtain ⟨hcache, hframe, rfl | rfl⟩ := hres
  · simp only
    rw [← hsize, finishCollection_reply l _ (by omega)]
    · refine Meets.reads ?_ ((Frame.cache s _).trans hframe) ⟨l, hl, rfl⟩
      rw [hcache]
      exact hf.becomes
    · intro p hp
      obtain ⟨h1, h2⟩ := hshort key _ _ hk p.1 p.2 ((hl.mem p.1 p.2).1 hp)
      exact collectHashPair_collects h1 h2
  · exact Meets.exhausted

theorem executeZscore_meets (hg : Good hash t s.cache) (name key member : Bytes) :
    Meets hash t s (s.executeZscore hash libc env [name, key, member])
      (perform libc t (s.cache.shown t) [name, key, member] (.zscore key member)) := by
  have hf := Cache.cacheGetObjectRef_finds hg key true
  refine readObject_meets zset_kind hf fun id m d hid hview hinv _ => ?_
  obtain ⟨g1, g2, g3⟩ := zsetScore_spec hinv hview member
  have hb := putObject_becomes hg hf hid g1 (g2.trans hview.symm) fun _ => (zsetScore_usage _ _).le
  simp only [argument, getD_cons_succ, getD_cons_zero, g3]
  cases hm : m member with
  | none => exact Meets.reads hb ⟨rfl, rfl, rfl, rfl⟩ (by simp [Reply.ofOption])
  | some score =>
    have hframe : Frame s ((s.withCache (s.cache.cacheGetObjectRef hash key true).1).putObject id
        (kvObjectZsetScore hash ((s.cache.cacheGetObjectRef hash key true).1.entry id).object member).1) :=
      ⟨rfl, rfl, rfl, rfl⟩
    generalize (s.withCache (s.cache.cacheGetObjectRef hash key true).1).putObject id _ = s' at hb hframe ⊢
    have hres := reserveScoreBuffer_reserves (s := s') env.scores (show 32 ≤ serviceMaxResponse by decide)
    generalize reserveScoreBuffer env.scores s' 32 = r at hres
    obtain ⟨s'', result⟩ := r
    obtain ⟨hcache, hframe', rfl | rfl⟩ := hres
    · simp only
      rw [if_neg (not_le.2 (libc.formatScore_short score))]
      refine Meets.reads ?_ (hframe.trans hframe') (by simp [Reply.ofOption])
      rw [hcache]
      exact hb
    · exact Meets.exhausted

theorem visit_countZsetMember (l : List Item) (count : ℕ) : visit countZsetMember count l = (count + l.length, true) := by
  induction l generalizing count with
  | nil => rfl
  | cons i l ih =>
    simp only [visit, countZsetMember, if_true, ih, length_cons, Prod.mk.injEq, and_true]
    omega

theorem rangeElements_length (libc : Libc) (withScores : Bool) (items : List Item) :
    (items.flatMap (memberElements libc withScores)).length = items.length * if withScores then 2 else 1 := by
  unfold memberElements
  cases withScores <;> simp [length_flatMap]

theorem slice_subset {α : Type} (l : List α) (start stop : ℤ) : ∀ x ∈ ZSet.slice l start stop, x ∈ l := by
  intro x hx
  unfold ZSet.slice at hx
  obtain ⟨p, hp, rfl⟩ := List.mem_map.1 hx
  exact fst_mem_of_mem_zipIdx (mem_of_mem_filter hp)

/-- the reply to a range, once the members are counted -/
theorem collectRange_meets {s' : Service} (hb : Becomes hash t s.cache s'.cache [] (s.cache.shown t)) (hframe : Frame s s')
    {object : KvObject} {m : Bytes → Option Score} {l : List Item} (hl : ZSet.Enumerates m l) (hshort : (Obj.zset m).Short)
    (hrange : ∀ {C : Type} (start stop : ℤ) (callback : C → Item → C × Bool) (c : C),
      kvObjectZsetRange object start stop callback c =
        ((visit callback c (ZSet.slice l start stop)).1,
          if (visit callback c (ZSet.slice l start stop)).2 then some (ZSet.slice l start stop).length else none))
    (start stop : ℤ) (withScores : Bool)
    (hcount : (ZSet.slice l start stop).length * (if withScores then 2 else 1) ≤ serviceMaxArrayElements) :
    Meets hash t s (s'.collectRange libc env object start stop withScores (ZSet.slice l start stop).length)
      (.reads (s.cache.shown t) fun r =>
        ∃ l, ZSet.Enumerates m l ∧ r = boundedArray (rangeElements libc withScores (ZSet.slice l start stop))) := by
  unfold collectRange
  have hres := reserveReplyElements_reserves (s := s') env.elements hcount
  simp only
  generalize reserveReplyElements env.elements s' _ = r at hres
  obtain ⟨s1, result⟩ := r
  obtain ⟨hcache, hframe1, rfl | rfl⟩ := hres
  · simp only
    have hmax : serviceMaxResponse = 1048576 ∧ serviceMaxArrayElements = 65536 := ⟨rfl, rfl⟩
    have hscore : Reserves s1 (if withScores then s1.reserveScoreBuffer env.scores ((ZSet.slice l start stop).length * 32)
        else (s1, .ok)) := by
      cases withScores with
      | false => exact ⟨rfl, .refl s1, Or.inl rfl⟩
      | true =>
        simp only [if_true] at hcount ⊢
        exact reserveScoreBuffer_reserves env.scores (by omega)
    generalize (if withScores then s1.reserveScoreBuffer env.scores ((ZSet.slice l start stop).length * 32)
      else (s1, ReserveResult.ok)) = r at hscore
    obtain ⟨s2, result⟩ := r
    obtain ⟨hcache2, hframe2, rfl | rfl⟩ := hscore
    · simp only [hrange]
      have hisSome : ∀ (b : Bool) (n : ℕ), (if b then some n else none).isSome = b := by
        intro b n
        cases b <;> rfl
      simp only at hcache hcache2
      rw [hisSome, Prod.mk.eta, ← rangeElements_length libc, finishCollection_reply _ _ (by rwa [rangeElements_length])]
      · refine Meets.reads ?_ (hframe.trans (hframe1.trans hframe2)) ⟨l, hl, rfl⟩
        rw [hcache2, hcache]
        exact hb
      · intro i hi
        exact collectZsetMember_collects withScores (hshort i.member i.score ((hl.mem _ _).1 (slice_subset l start stop i hi)))
    · exact Meets.exhausted
  · exact Meets.exhausted

theorem zrange_meets (hg : Good hash t s.cache) (hshort : (s.cache.shown t).Short) (arguments : Record) (start stop : ℤ) :
    Meets hash t s
      (s.readObject (s.cache.cacheGetObjectRef hash (argument arguments 1) true) .zset (.array []) fun s _ object =>
        match kvObjectZsetRange object start stop countZsetMember 0 with
        | (_, none) => s.answer (.error .internal)
        | (count, some _) =>
          if count > serviceMaxArrayElements / (if arguments.length = 5 then 2 else 1) then s.answer (.error .responseTooLarge)
          else s.collectRange libc env object start stop (arguments.length = 5) count)
      (perform libc t (s.cache.shown t) arguments (.zrange (argument arguments 1) start stop (arguments.length = 5))) := by
  have hf := Cache.cacheGetObjectRef_finds hg (argument arguments 1) true
  refine readObject_meets zset_kind hf fun id m d hid hview hinv hk => ?_
  obtain ⟨l, hl, _, hrange⟩ := zsetRange_spec hinv hview
  have hlen := rangeElements_length libc (decide (arguments.length = 5)) (ZSet.slice l start stop)
  have hmax : serviceMaxArrayElements = 65536 := rfl
  simp only [hrange, visit_countZsetMember, if_true, Nat.zero_add]
  simp only [decide_eq_true_eq] at hlen
  by_cases hcount : (ZSet.slice l start stop).length > serviceMaxArrayElements / (if arguments.length = 5 then 2 else 1)
  · rw [if_pos hcount]
    refine Meets.reads hf.becomes (Frame.cache s _) ⟨l, hl, ?_⟩
    refine (boundedArray_long ?_).symm
    refine lt_of_lt_of_eq ?_ hlen.symm
    split_ifs at hcount ⊢ <;> omega
  · rw [if_neg hcount]
    refine collectRange_meets hf.becomes (Frame.cache s _) hl (hshort _ _ _ hk) hrange start stop _ ?_
    simp only [decide_eq_true_eq]
    split_ifs at hcount ⊢ <;> omega

theorem executeZrange_meets (libc : Libc) (env : Env) (hg : Good hash t s.cache) (hshort : (s.cache.shown t).Short)
    (arguments : Record) :
    Meets hash t s (s.executeZrange hash libc env arguments)
      (match readRange (argument arguments 1) (argument arguments 2) (argument arguments 3) (arguments.length = 5) with
        | .error e => .reads (s.cache.shown t) (· = .error e)
        | .ok request =>
          if arguments.length = 5 ∧ ¬ argumentEquals (argument arguments 4) "WITHSCORES" then
            .reads (s.cache.shown t) (· = .error .malformed)
          else perform libc t (s.cache.shown t) arguments request) := by
  unfold executeZrange readRange
  simp only [parseInt64_eq]
  cases intValue (argument arguments 2) with
  | none => exact Meets.unread hg rfl
  | some first =>
    cases intValue (argument arguments 3) with
    | none => exact Meets.unread hg rfl
    | some last =>
      simp only
      by_cases hoption : arguments.length = 5 ∧ ¬ argumentEquals (argument arguments 4) "WITHSCORES" = true
      · rw [if_pos hoption, if_pos hoption]
        exact Meets.unread hg rfl
      · rw [if_neg hoption, if_neg hoption]
        exact zrange_meets hg hshort arguments first last

/-! ## Writes to a collection -/

variable {found : Cache × Option ℕ} {rest : List Bytes}

section Writes

variable {M W : Type} {read : Obj → Option M} {wrap : M → Obj} {type : KvType} {next : M → W → M}
  {result : M → W → ZSet.SetResult} {write : ℕ → KvObject → W → KvObject × Option ZSet.SetResult}

/-- a write acts on the map, or fails for want of memory and leaves it alone -/
structure Writes (hash : Hasher) (wrap : M → Obj) (next : M → W → M) (result : M → W → ZSet.SetResult)
    (write : ℕ → KvObject → W → KvObject × Option ZSet.SetResult) : Prop where
  step : ∀ index o m w, KvObject.Inv hash o → o.view = wrap m → (write index o w).1.Inv hash ∧
    ((write index o w).2 = none ∨
      ((write index o w).2 = some (result m w) ∧ (write index o w).1.view = wrap (next m w)))
  idle : ∀ m w, (result m w).changed = false → next m w = m

theorem fieldResult_idle (m : Bytes → Option Bytes) (pair : Bytes × Bytes) (h : (fieldResult m pair.1 pair.2).changed = false) :
    update m pair.1 (some pair.2) = m := by
  have hsame : m pair.1 = some pair.2 := by simpa [fieldResult] using h
  rw [← hsame, update_eq_self]

theorem addResult_idle (m : Bytes → Option Score) (pair : Score × Bytes) (h : (ZSet.addResult m pair.1 pair.2).changed = false) :
    ZSet.addTo m pair.1 pair.2 = m := by
  unfold ZSet.addTo
  unfold ZSet.addResult at h
  cases hm : m pair.2 with
  | none => simp [hm] at h
  | some old =>
    have hnum : old.num = pair.1.num := by simpa [hm] using h
    simp [hnum]

theorem hashSet_writes (alloc : ℕ → HashAlloc) :
    Writes hash Obj.hash (fun m (pair : Bytes × Bytes) => update m pair.1 (some pair.2))
      (fun m pair => fieldResult m pair.1 pair.2)
      (fun index object pair => kvObjectHashSet hash (alloc index) object pair.1 pair.2) := by
  constructor
  · intro index o m pair hi hv
    obtain ⟨h1, h2⟩ := hashSet_spec hi hv (alloc index) pair.1 pair.2
    exact ⟨h1, h2.imp_left And.left⟩
  · exact fieldResult_idle

theorem zsetAdd_writes (alloc : ℕ → ZSet.Alloc) :
    Writes hash Obj.zset (fun m (pair : Score × Bytes) => ZSet.addTo m pair.1 pair.2)
      (fun m pair => ZSet.addResult m pair.1 pair.2)
      (fun index object pair => kvObjectZsetAdd hash (alloc index) object pair.1 pair.2) := by
  constructor
  · intro index o m pair hi hv
    obtain ⟨h1, h2⟩ := zsetAdd_spec hi hv (alloc index) pair.1 pair.2
    exact ⟨h1, h2.imp_left And.left⟩
  · exact addResult_idle

/-- **The loop over the pairs** is the fold of the single writes. -/
theorem writeAll_spec (hw : Writes hash wrap next result write) (ws : List W) :
    ∀ index o m, KvObject.Inv hash o → o.view = wrap m → ∃ object answer, writeAll write index o ws = (object, answer) ∧
      object.Inv hash ∧ (answer = none ∨
        answer = some ((writePairs next result m ws).added, (writePairs next result m ws).changed) ∧
          object.view = wrap (writePairs next result m ws).map) := by
  induction ws with
  | nil =>
    intro index o m hi hv
    exact ⟨o, _, rfl, hi, Or.inr ⟨rfl, hv⟩⟩
  | cons w ws ih =>
    intro index o m hi hv
    obtain ⟨h1, h2⟩ := hw.step index o m w hi hv
    unfold writeAll writePairs
    generalize write index o w = r at h1 h2 ⊢
    obtain ⟨o1, answer⟩ := r
    simp only at h1 h2
    rcases h2 with rfl | ⟨rfl, h3⟩
    · exact ⟨o1, none, rfl, h1, Or.inl rfl⟩
    obtain ⟨o2, _, heq, h4, rfl | ⟨rfl, h5⟩⟩ := ih (index + 1) o1 (next m w) h1 h3
    · exact ⟨o2, none, by simp only [heq], h4, Or.inl rfl⟩
    · exact ⟨o2, _, by simp only [heq], h4, Or.inr ⟨rfl, h5⟩⟩

theorem writePairs_idle (hidle : ∀ m w, (result m w).changed = false → next m w = m) (ws : List W) (m : M)
    (h : (writePairs next result m ws).changed = false) : (writePairs next result m ws).map = m := by
  induction ws generalizing m with
  | nil => rfl
  | cons w ws ih =>
    simp only [writePairs, Bool.or_eq_false_iff] at h ⊢
    rw [hidle m w h.1] at h ⊢
    exact ih m h.2

/-- what the reference makes of the writes to a map -/
def written (ks : Keyspace) (key : Bytes) (wrap : M → Obj) (w : Written M) (d : Option ℕ) (arguments : Record) : Outcome :=
  ⟨update ks key (some (wrap w.map, d)), (· = .integer w.added), if w.changed then some arguments else none⟩

/-- the writes to an object that takes the key's place -/
theorem updateCopy_settles {s' : Service} (hw : Writes hash wrap next result write) (henv : env.Healthy)
    (hb : Becomes hash t s.cache s'.cache [] (s.cache.shown t)) (hframe : Frame s s')
    (arguments : Record) (ws : List W) {working : KvObject} {m : M} (hinv : working.Inv hash) (hview : working.view = wrap m)
    (hsame : (writePairs next result m ws).changed = false →
      s.cache.shown t (argument arguments 1) = some (wrap m, (s.cache.shown t (argument arguments 1)).bind Prod.snd)) :
    Settles hash t s (s'.updateCopy hash env arguments write ws working)
      (written (s.cache.shown t) (argument arguments 1) wrap (writePairs next result m ws)
        ((s.cache.shown t (argument arguments 1)).bind Prod.snd) arguments) := by
  unfold updateCopy
  obtain ⟨object, _, heq, h1, rfl | ⟨rfl, h3⟩⟩ := writeAll_spec hw ws 0 working m hinv hview
  · rw [heq]
    exact Or.inl Meets.exhausted
  rw [heq]
  cases hc : (writePairs next result m ws).changed with
  | false =>
    left
    refine Meets.answer ?_ hframe rfl (by simp [written, hc])
    rw [written, writePairs_idle hw.idle ws m hc, ← hsame hc, update_eq_self]
    exact hb
  | true =>
    simp only
    obtain ⟨τ, gone, hτ, he⟩ := Cache.cacheStoreObject_effect hb.good.core hb.good.within env.cache (argument arguments 1)
      object 0 true
    have hτ := hτ t hb.good.fixed
    subst hτ
    simp only [if_true] at he
    have hkept := Cache.keptDeadline_shown (t := τ) s'.cache (argument arguments 1)
    have hlive : ¬ (Cache.keptDeadline τ (s'.cache.keyspace (argument arguments 1)) 0 ≠ 0 ∧
        Cache.keptDeadline τ (s'.cache.keyspace (argument arguments 1)) 0 ≤ τ) := by
      unfold Cache.keptDeadline
      split
      · split_ifs with h
        · exact fun h => h.1 rfl
        · exact h
      · exact fun h => h.1 rfl
    generalize Cache.keptDeadline τ (s'.cache.keyspace (argument arguments 1)) 0 = d at he hkept hlive
    generalize s'.cache.cacheStoreObject hash env.cache (argument arguments 1) object 0 true = r at he ⊢
    cases hr : r.2 with
    | ok =>
      obtain ⟨hb', hkeep⟩ := he.becomes hb.good hr h1 hlive
      rw [hkept, hb.shown_eq, h3] at hb'
      left
      exact Meets.append henv (hb.trans hb') ⟨hframe.aof, hframe.engine, hframe.admin, hframe.mysql⟩ rfl (by simp [written, hc])
        hkeep
    | capacity => exact capacity_settles hb hframe he hr h1
    | range => exact absurd hr he.inRange
    | error => exact Or.inl Meets.exhausted

/-- the writes to the stored object -/
theorem updateInPlace_meets (hkind : Kind read wrap type) (hw : Writes hash wrap next result write) (henv : env.Healthy)
    (hg : Good hash t s.cache) (hmem : s.cache.maxMemory = 0) {arguments : Record}
    (hf : Finds hash t s.cache (argument arguments 1) found) {id : ℕ} (hid : found.2 = some id) (ws : List W) {m : M}
    (hview : (found.1.entry id).object.view = wrap m) :
    Meets hash t s ((s.withCache found.1).updateInPlace env arguments write ws id (found.1.entry id).object)
      (written (s.cache.shown t) (argument arguments 1) wrap (writePairs next result m ws)
        ((s.cache.shown t (argument arguments 1)).bind Prod.snd) arguments) := by
  obtain ⟨g1, _, g3, _⟩ := hf.entry id hid
  unfold updateInPlace
  obtain ⟨object, _, heq, h1, rfl | ⟨rfl, h3⟩⟩ := writeAll_spec hw ws 0 _ m (hf.becomes.good.sound id g1) hview
  · rw [heq]
    exact Meets.exhausted
  rw [heq]
  cases hc : (writePairs next result m ws).changed with
  | false =>
    have hidle := writePairs_idle hw.idle ws m hc
    refine Meets.answer ?_ ⟨rfl, rfl, rfl, rfl⟩ rfl (by simp [written, hc])
    rw [written, hidle, ← hview, g3, bind_some, ← g3, update_eq_self]
    exact putObject_becomes hg hf hid h1 (by rw [h3, hidle, hview]) fun hlimit => absurd hmem hlimit
  | true =>
    have htype : kvObjectType object = kvObjectType (found.1.entry id).object := by
      rw [← KvObject.type_view, ← KvObject.type_view, h3, hview, hkind.type_wrap, hkind.type_wrap]
    obtain ⟨gone, d, hd, hkeep, hb, hcap, herr, hrange⟩ :=
      (hf.mutate hid htype h1 fun hlimit => absurd hmem hlimit).recharge hg
    have hbind : (s.cache.shown t (argument arguments 1)).bind Prod.snd = d := by
      rw [g3, map_some, Option.some.injEq] at hd
      rw [g3, bind_some, hd]
    simp only [putObject, withCache]
    generalize (found.1.mutate id object).cacheRechargeRef (some id) = r at hb hcap herr hrange ⊢
    cases hr : r.2 with
    | ok =>
      rw [hbind]
      rw [h3] at hb
      exact Meets.append henv hb (Frame.cache s _) rfl (by simp [written, hc]) hkeep
    | capacity =>
      intro hoom
      have := hcap hr fun hlimit => absurd hmem hlimit
      simp [objectError, chargeOverflows, this] at hoom
    | range => exact absurd hr hrange
    | error => exact absurd hr herr

/-- **HSET and ZADD** take the writes to the collection under the key, or to a new one. -/
theorem updateCollection_settles (hkind : Kind read wrap type) (hw : Writes hash wrap next result write)
    (henv : env.Healthy) (hg : Good hash t s.cache) (arguments : Record) (hf : Finds hash t s.cache (argument arguments 1) found)
    {create : Option KvObject} {empty : M} (hcreate : ∀ o, create = some o → o.Inv hash ∧ o.view = wrap empty) {ws : List W}
    (hfresh : (writePairs next result empty ws).changed = true) :
    Settles hash t s (s.updateCollection hash env arguments found type create write ws)
      (updateWith (s.cache.shown t) (argument arguments 1) read wrap empty (writePairs next result · ws) arguments) := by
  unfold updateCollection updateWith
  cases hid : found.2 with
  | none =>
    have hk := hf.missing hid
    simp only [hk]
    cases hc : create with
    | none => exact Or.inl Meets.exhausted
    | some working =>
      obtain ⟨h1, h2⟩ := hcreate working hc
      have h := updateCopy_settles hw henv hf.becomes (Frame.cache s _) arguments ws h1 h2
        (fun hno => absurd hfresh (by rw [hno]; decide))
      rwa [hk] at h
  | some id =>
    obtain ⟨g1, _, g3, _⟩ := hf.entry id hid
    have hinv := hf.becomes.good.sound id g1
    simp only [g3]
    by_cases htype : kvObjectType (found.1.entry id).object = type
    · rw [if_neg (not_not_intro htype)]
      obtain ⟨m, hm⟩ := hkind.of_type _ ((KvObject.type_view _).trans htype)
      simp only [hm, hkind.read_wrap]
      have hbind : (s.cache.shown t (argument arguments 1)).bind Prod.snd = deadlineOf (found.1.expireAt id) := by
        rw [g3]
        rfl
      by_cases hmany : ws.length > 1 ∨ found.1.maxMemory ≠ 0
      · rw [if_pos hmany]
        cases hc : kvObjectClone hash env.clone (found.1.entry id).object with
        | none => exact Or.inl Meets.exhausted
        | some working =>
          obtain ⟨h1, h2⟩ := clone_spec hinv env.clone hc
          have h := updateCopy_settles hw henv hf.becomes (Frame.cache s _) arguments ws h1
            (h2.trans hm) (fun _ => by rw [hbind, g3, hm])
          rwa [hbind] at h
      · rw [if_neg hmany]
        -- without a limit on memory a single pair is written in place
        have hmem : s.cache.maxMemory = 0 := by
          rw [not_or, not_not] at hmany
          exact hf.becomes.limits.2.symm.trans hmany.2
        have h := updateInPlace_meets hkind hw henv hg hmem hf hid ws hm
        rw [hbind] at h
        exact Or.inl h
    · rw [if_pos htype]
      have hother := hkind.other (found.1.entry id).object.view (by rwa [KvObject.type_view])
      simp only [hother]
      exact Or.inl (Meets.reads hf.becomes (Frame.cache s _) rfl)

end Writes

theorem pairsOf_ne_nil (h : rest.length ≥ 2) : pairsOf rest ≠ [] := by
  match rest, h with
  | _ :: _ :: _, _ => exact cons_ne_nil _ _

theorem executeHset_settles (hg : Good hash t s.cache) (henv : env.Healthy) (name key : Bytes) (hrest : rest.length ≥ 2) :
    Settles hash t s (s.executeHset hash env (name :: key :: rest))
      (perform libc t (s.cache.shown t) (name :: key :: rest) (.hset key (pairsOf rest))) := by
  refine updateCollection_settles hash_kind (hashSet_writes env.hash) henv hg (name :: key :: rest)
    (Cache.cacheGetHashObjectRef_finds hg key false) (fun o ho => createHash_spec ho) ?_
  -- the first pair is new to an empty Hash
  show (writePairs _ _ _ (pairsOf rest)).changed = true
  cases hp : pairsOf rest with
  | nil => exact absurd hp (pairsOf_ne_nil hrest)
  | cons pair pairs => simp [writePairs, fieldResult]

theorem parseDoubleArgument_spec (libc : Libc) {text : Bytes} (h : text.length ≠ sizeMax) (copyOk : Bool) :
    (copyOk = false ∧ parseDoubleArgument libc copyOk text = .error .internal) ∨
      parseDoubleArgument libc copyOk text = match scoreOf libc text with
        | none => .error .float
        | some score => .ok score := by
  unfold parseDoubleArgument scoreOf
  by_cases hnil : text = []
  · rw [if_pos (Or.inl (by rw [hnil]; rfl)), if_pos (Or.inl hnil)]
    exact Or.inr rfl
  rw [if_neg (by
    rw [not_or, length_eq_zero_iff]
    exact ⟨hnil, h⟩)]
  by_cases hcopy : text.length + 1 > 128 ∧ ¬ copyOk = true
  · rw [if_pos hcopy]
    exact Or.inl ⟨Bool.eq_false_iff.2 hcopy.2, rfl⟩
  rw [if_neg hcopy]
  refine Or.inr ?_
  simp only
  by_cases hread : (libc.strtod text).1 = text.length
  · rw [if_neg (not_not_intro hread)]
    cases hrange : (libc.strtod text).2.2 with
    | true =>
      rw [if_pos (Or.inr (Or.inr rfl))]
      cases (libc.strtod text).2.1 <;> rfl
    | false =>
      rw [if_neg (by simp [hnil, hread])]
      cases (libc.strtod text).2.1 <;> rfl
  · rw [if_pos hread, if_pos (Or.inr (Or.inl hread))]

theorem parseScores_spec (libc : Libc) (env : Env) (pairs : List (Bytes × Bytes)) (h : ∀ pair ∈ pairs, pair.1.length ≠ sizeMax)
    (index : ℕ) :
    ((∃ n, env.copy n = false) ∧ parseScores libc env index pairs = .error .internal) ∨
      parseScores libc env index pairs = match readScores libc pairs with
        | none => .error .float
        | some scores => .ok scores := by
  induction pairs generalizing index with
  | nil => exact Or.inr rfl
  | cons pair pairs ih =>
    obtain ⟨h1, h2⟩ := forall_mem_cons.1 h
    unfold parseScores readScores
    rcases parseDoubleArgument_spec libc h1 (env.copy index) with ⟨hcopy, hp⟩ | hp
    · rw [hp]
      exact Or.inl ⟨⟨index, hcopy⟩, rfl⟩
    rw [hp]
    cases hs : scoreOf libc pair.1 with
    | none => exact Or.inr rfl
    | some score =>
      simp only [bind_some]
      rcases ih h2 (index + 1) with ⟨hcopy, ht⟩ | ht
      · rw [ht]
        exact Or.inl ⟨hcopy, rfl⟩
      · rw [ht]
        cases readScores libc pairs with
        | none => exact Or.inr rfl
        | some scores => exact Or.inr rfl

theorem readScores_ne_nil {pairs : List (Bytes × Bytes)} {scores : List (Score × Bytes)} (h : readScores libc pairs = some scores)
    (hne : pairs ≠ []) : scores ≠ [] := by
  cases pairs with
  | nil => exact absurd rfl hne
  | cons pair pairs =>
    rw [readScores, bind_eq_some_iff] at h
    obtain ⟨score, _, h⟩ := h
    obtain ⟨tail, _, rfl⟩ := map_eq_some_iff.1 h
    exact cons_ne_nil _ _

theorem executeZadd_settles (libc : Libc) (hg : Good hash t s.cache) (henv : env.Healthy)
    (name key : Bytes) (hrest : rest.length ≥ 2) (hmany : (pairsOf rest).length ≤ zaddScores)
    (hlong : ∀ pair ∈ pairsOf rest, pair.1.length ≠ sizeMax) :
    Settles hash t s (s.executeZadd hash libc env (name :: key :: rest))
      (match readScores libc (pairsOf rest) with
        | none => .reads (s.cache.shown t) (· = .error .float)
        | some pairs => perform libc t (s.cache.shown t) (name :: key :: rest) (.zadd key pairs)) := by
  unfold executeZadd
  simp only [drop_succ_cons, drop_zero]
  rw [if_neg (not_lt.2 hmany)]
  rcases parseScores_spec libc env (pairsOf rest) hlong 0 with ⟨_, hp⟩ | hp
  · rw [hp]
    exact Or.inl fun hoom => absurd hoom (by simp)
  rw [hp]
  cases hs : readScores libc (pairsOf rest) with
  | none => exact Or.inl (Meets.unread hg rfl)
  | some scores =>
    refine updateCollection_settles zset_kind (zsetAdd_writes env.zset) henv hg (name :: key :: rest)
      (Cache.cacheGetObjectRef_finds hg key false) (fun o ho => createZset_spec ho) ?_
    show (writePairs _ _ _ scores).changed = true
    cases scores with
    | nil => exact absurd rfl (readScores_ne_nil hs (pairsOf_ne_nil hrest))
    | cons pair pairs => simp [writePairs, ZSet.addResult]

/-! ## Removals from a collection -/

section Removals

variable {V : Type} {read : Obj → Option (Bytes → Option V)} {wrap : (Bytes → Option V) → Obj} {type : KvType}
  {remove : KvObject → Bytes → KvObject × Option Bool}

/-- a removal never fails and takes no memory -/
def Removes (hash : Hasher) (wrap : (Bytes → Option V) → Obj) (remove : KvObject → Bytes → KvObject × Option Bool) :
    Prop :=
  ∀ o m item, KvObject.Inv hash o → o.view = wrap m → (remove o item).1.Inv hash ∧
    (remove o item).1.view = wrap (update m item none) ∧ (remove o item).2 = some (m item).isSome ∧
    kvObjectMemoryUsage (remove o item).1 ≤ kvObjectMemoryUsage o

theorem removeAll_spec (hr : Removes hash wrap remove) (items : List Bytes) :
    ∀ o m, KvObject.Inv hash o → o.view = wrap m → ∃ object,
      removeAll remove o items = (object, some (StoreSystem.removeItems m items).2) ∧ object.Inv hash ∧
      object.view = wrap (StoreSystem.removeItems m items).1 ∧ kvObjectMemoryUsage object ≤ kvObjectMemoryUsage o := by
  induction items with
  | nil =>
    intro o m hi hv
    exact ⟨o, rfl, hi, hv, le_rfl⟩
  | cons item items ih =>
    intro o m hi hv
    obtain ⟨h1, h2, h3, hsmall⟩ := hr o m item hi hv
    obtain ⟨object, heq, h4, h5, hrest⟩ := ih (remove o item).1 _ h1 h2
    refine ⟨object, ?_, h4, h5, hrest.trans hsmall⟩
    unfold removeAll StoreSystem.removeItems
    generalize remove o item = r at h3 heq ⊢
    obtain ⟨o1, answer⟩ := r
    cases h3
    simp only [heq]

/-- removing nothing changes nothing -/
theorem removeItems_none (m : Bytes → Option V) (items : List Bytes) (h : (StoreSystem.removeItems m items).2 = 0) :
    (StoreSystem.removeItems m items).1 = m := by
  induction items generalizing m with
  | nil => rfl
  | cons item items ih =>
    simp only [StoreSystem.removeItems, Nat.add_eq_zero_iff] at h ⊢
    have hnone : m item = none := by
      cases hm : m item with
      | none => rfl
      | some v => simp [hm] at h
    rw [← hnone, update_eq_self] at h ⊢
    exact ih m h.2

/-- **HDEL and ZREM** take items from the collection under the key and remove it when it is empty. -/
theorem removeItems_meets (hkind : Kind read wrap type) (hr : Removes hash wrap remove) {length : KvObject → ℕ}
    (hlength : ∀ o m, KvObject.Inv hash o → o.view = wrap m → (length o = 0 ↔ ∀ item, m item = none))
    (henv : env.Healthy) (hg : Good hash t s.cache) (hcharged : s.cache.Charged) (arguments : Record)
    (hf : Finds hash t s.cache (argument arguments 1) found) :
    Meets hash t s (s.removeItems hash env arguments found type remove length)
      (removeWith (s.cache.shown t) (argument arguments 1) read wrap (arguments.drop 2) arguments) := by
  refine readObject_meets hkind hf fun id m d hid hview hinv hk => ?_
  obtain ⟨object, heq, h1, h2, hsmall⟩ := removeAll_spec hr (arguments.drop 2) _ m hinv hview
  simp only [heq]
  have hempty := hlength object _ h1 h2
  have hidle := removeItems_none m (arguments.drop 2)
  generalize StoreSystem.removeItems m (arguments.drop 2) = r at h2 hempty hidle ⊢
  obtain ⟨left, removed⟩ := r
  simp only at h2 hempty hidle ⊢
  unfold finishRemoval
  by_cases hnone : removed = 0
  · rw [if_neg (by omega)]
    refine Meets.answer ?_ ⟨rfl, rfl, rfl, rfl⟩ rfl (by simp [hnone])
    simp only [if_pos hnone]
    exact putObject_becomes hg hf hid h1 (by rw [h2, hidle hnone, hview]) fun _ => hsmall
  rw [if_pos (Nat.pos_of_ne_zero hnone)]
  have htype : kvObjectType object = kvObjectType (found.1.entry id).object := by
    rw [← KvObject.type_view, ← KvObject.type_view, h2, hview, hkind.type_wrap, hkind.type_wrap]
  have hm := hf.mutate hid htype h1 fun _ => hsmall
  by_cases hall : ∀ item, left item = none
  · rw [if_pos (hempty.2 hall)]
    obtain ⟨hb, hone⟩ := hm.delete hg
    simp only [putObject, withCache, hone]
    rw [if_neg (by decide)]
    simp only [if_neg hnone, if_pos hall]
    exact Meets.append henv hb (Frame.cache s _) rfl rfl (by simp)
  · rw [if_neg (fun h => hall (hempty.1 h))]
    obtain ⟨gone, d', hd, hkeep, hb, hcap, herr, hrange⟩ := hm.recharge hg
    rw [hk, map_some, Option.some.injEq] at hd
    simp only at hd
    subst hd
    simp only [putObject, withCache]
    generalize (found.1.mutate id object).cacheRechargeRef (some id) = r at hb hcap herr hrange ⊢
    cases hres : r.2 with
    | ok =>
      simp only [if_neg hnone, if_neg hall]
      rw [h2] at hb
      exact Meets.append henv hb (Frame.cache s _) rfl rfl hkeep
    | capacity =>
      intro hoom
      have := hcap hres hcharged
      simp [chargeOverflows, this] at hoom
    | range => exact absurd hres hrange
    | error => exact absurd hres herr

end Removals

theorem executeHdel_meets (hg : Good hash t s.cache) (hcharged : s.cache.Charged) (henv : env.Healthy)
    (name key : Bytes) (fields : List Bytes) :
    Meets hash t s (s.executeHdel hash env (name :: key :: fields))
      (perform libc t (s.cache.shown t) (name :: key :: fields) (.hdel key fields)) := by
  refine removeItems_meets hash_kind (fun o m field hi hv => ?_) (fun o m hi hv => ?_) henv hg hcharged
    (name :: key :: fields) (Cache.cacheGetHashObjectRef_finds hg key false)
  · obtain ⟨h1, h2, h3⟩ := hashDelete_spec hi hv field
    exact ⟨h1, h2, h3, hashDelete_usage o field⟩
  obtain ⟨l, hl, hlen, _⟩ := hashVisit_spec hi hv
  rw [hlen, length_eq_zero_iff, eq_nil_iff_forall_not_mem]
  constructor
  · intro hnil field
    cases hm : m field with
    | none => rfl
    | some v => exact absurd ((hl.mem field v).2 hm) (hnil _)
  · intro hnone p hp
    rw [← Prod.mk.eta (p := p), hl.mem, hnone] at hp
    exact absurd hp (by simp)

theorem executeZrem_meets (hg : Good hash t s.cache) (hcharged : s.cache.Charged) (henv : env.Healthy)
    (name key : Bytes) (members : List Bytes) :
    Meets hash t s (s.executeZrem hash env (name :: key :: members))
      (perform libc t (s.cache.shown t) (name :: key :: members) (.zrem key members)) := by
  refine removeItems_meets zset_kind (fun o m member hi hv => ?_) (fun o m hi hv => ?_) henv hg hcharged
    (name :: key :: members) (Cache.cacheGetObjectRef_finds hg key false)
  · obtain ⟨h1, h2, h3⟩ := zsetRemove_spec hi hv member
    exact ⟨h1, h2, h3, zsetRemove_usage o member⟩
  obtain ⟨l, hl, hlen, _⟩ := zsetRange_spec hi hv
  rw [hlen, length_eq_zero_iff, eq_nil_iff_forall_not_mem]
  constructor
  · intro hnil member
    cases hm : m member with
    | none => rfl
    | some score => exact absurd ((hl.mem member score).2 hm) (hnil _)
  · intro hnone i hi
    rw [show i = ⟨i.score, i.member⟩ from rfl, hl.mem, hnone] at hi
    exact absurd hi (by simp)

end Service

end StoreSystem
