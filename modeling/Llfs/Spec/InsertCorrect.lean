import Llfs.Spec.Addressing
import Llfs.Spec.Interleaving

/-! # Insert and query on the packed filter

`insert` ORs each of the item's `hash_count` bit masks into the word its hash addresses,
and `might_contain` reports whether all of those bits are set, stopping at the first
clear one. So a sequence of inserts leaves each word equal to its old value OR-ed with
the masks of every hash value that addresses it: which hash values these are depends
only on the set of items inserted, not on their order or how often each comes.
`clear` zeroes the words its `u64` byte count `8 * (word_count_mask + 1)` covers: all of
them unless that count wraps.

## Key results

- `hashForBloom_contract`: the calls `hash_for_bloom` makes and what it returns
- `hashForBloomLoop_continue`, `hashForBloomLoop_eq_continue_iff`: the two uses of the loop
- `foldl_setHashBit`: setting the bits of a list of hash values, word by word
- `insertAll_words_apply`: the words after a sequence of inserts
- `mightContain_iff`: `might_contain` tests exactly the item's bits
- `insert_sequence_law`: the whole law, with no false negatives and order independence
- `hashCount_above_64`: hash functions past the 64th repeat the first 64, so a larger
  `hash_count` sets and tests no other bits
-/

namespace Llfs

open PackedBloomFilter

variable {α : Type}

/-! ## The `hash_for_bloom` loop -/

/-- With a body that never breaks, the loop runs it on hashes `i, ..., i + n - 1`. -/
theorem hashForBloomLoop_continue {σ : Type} (gh : α → Nat → BitVec 64) (x : α)
    (g : σ → BitVec 64 → σ) (i n : Nat) (s : σ) :
    hashForBloomLoop gh x (fun s h => (g s h, .kContinue)) i n s =
      ((List.range' i n).foldl (fun s j => g s (gh x j)) s, .kContinue) := by
  induction n generalizing i s with
  | zero => rfl
  | succ n ih => simp only [hashForBloomLoop, ih, List.range'_succ, List.foldl_cons]

/-- With a body that only tests, the loop runs to the end exactly when no hash fails. -/
theorem hashForBloomLoop_eq_continue_iff (gh : α → Nat → BitVec 64) (x : α)
    (p : BitVec 64 → Prop) [DecidablePred p] (i n : Nat) :
    (hashForBloomLoop gh x (fun (_ : Unit) h => ((), if p h then .kBreak else .kContinue))
      i n ()).2 = .kContinue ↔ ∀ j ∈ List.range' i n, ¬ p (gh x j) := by
  induction n generalizing i with
  | zero => simp [hashForBloomLoop]
  | succ n ih =>
    rw [List.range'_succ, List.forall_mem_cons]
    by_cases hp : p (gh x i) <;> simp [hashForBloomLoop, hp, ih]

/-- The state the loop body has threaded through hashes `i, ..., i + j - 1`, none of
    which broke. -/
def loopState {σ : Type} (gh : α → Nat → BitVec 64) (x : α)
    (fn : σ → BitVec 64 → σ × LoopControl) (i j : Nat) (s : σ) : σ :=
  (List.range' i j).foldl (fun s k => (fn s (gh x k)).1) s

theorem loopState_succ {σ : Type} (gh : α → Nat → BitVec 64) (x : α)
    (fn : σ → BitVec 64 → σ × LoopControl) (i j : Nat) (s : σ) :
    loopState gh x fn i (j + 1) s = loopState gh x fn (i + 1) j (fn s (gh x i)).1 := rfl

/-- Call `j + 1` of the loop body from hash `i` is call `j` from hash `i + 1`. -/
theorem loopCall_succ {σ : Type} (gh : α → Nat → BitVec 64) (x : α)
    (fn : σ → BitVec 64 → σ × LoopControl) (i j : Nat) (s : σ) :
    fn (loopState gh x fn i (j + 1) s) (gh x (i + (j + 1))) =
      fn (loopState gh x fn (i + 1) j (fn s (gh x i)).1) (gh x (i + 1 + j)) := by
  rw [loopState_succ, show i + (j + 1) = i + 1 + j by omega]

/-- The loop from hash `i`: either all `n` calls of the body continue and it returns
    `kContinue`, or it returns `kBreak` with the state of the first call that breaks. -/
theorem hashForBloomLoop_cases {σ : Type} (gh : α → Nat → BitVec 64) (x : α)
    (fn : σ → BitVec 64 → σ × LoopControl) (i n : Nat) (s : σ) :
    ((∀ j < n, (fn (loopState gh x fn i j s) (gh x (i + j))).2 = .kContinue) ∧
      hashForBloomLoop gh x fn i n s = (loopState gh x fn i n s, .kContinue)) ∨
    ∃ j < n, (∀ j' < j, (fn (loopState gh x fn i j' s) (gh x (i + j'))).2 = .kContinue) ∧
      (fn (loopState gh x fn i j s) (gh x (i + j))).2 = .kBreak ∧
      hashForBloomLoop gh x fn i n s =
        ((fn (loopState gh x fn i j s) (gh x (i + j))).1, .kBreak) := by
  induction n generalizing i s with
  | zero => exact .inl ⟨fun j hj => absurd hj (Nat.not_lt_zero j), rfl⟩
  | succ n ih =>
    have hfirst : fn (loopState gh x fn i 0 s) (gh x (i + 0)) = fn s (gh x i) := rfl
    rcases hfn : fn s (gh x i) with ⟨s', _ | _⟩
    · -- the first call continues: the rest is the loop from hash `i + 1`
      have hloop : hashForBloomLoop gh x fn i (n + 1) s =
          hashForBloomLoop gh x fn (i + 1) n s' := by
        rw [hashForBloomLoop, hfn]
      have hcalls : ∀ j, (∀ j' < j, (fn (loopState gh x fn (i + 1) j' s')
          (gh x (i + 1 + j'))).2 = .kContinue) →
          ∀ j' < j + 1, (fn (loopState gh x fn i j' s) (gh x (i + j'))).2 = .kContinue := by
        intro j hj j' hj'
        cases j' with
        | zero => rw [hfirst, hfn]
        | succ j' =>
          rw [loopCall_succ gh x fn i j' s, hfn]
          exact hj j' (by omega)
      rcases ih (i + 1) s' with ⟨hall, hret⟩ | ⟨j, hj, hpre, hbrk, hret⟩
      · refine .inl ⟨hcalls n hall, ?_⟩
        rw [hloop, hret, loopState_succ, hfn]
      · refine .inr ⟨j + 1, by omega, hcalls j hpre, ?_, ?_⟩
        · rw [loopCall_succ gh x fn i j s, hfn]
          exact hbrk
        · rw [hloop, hret, loopCall_succ gh x fn i j s, hfn]
    · -- the first call breaks
      exact .inr ⟨0, Nat.succ_pos n, fun j hj => absurd hj (Nat.not_lt_zero j),
        by rw [hfirst, hfn], by rw [hashForBloomLoop, hfn, hfirst, hfn]⟩

/-- `hash_for_bloom(item, count, fn)` calls `fn` on hashes `0, 1, ...` of `item` in order,
    threading the state `fn` changes. It returns `kBreak` right after the first call that
    asks to break, and otherwise `kContinue` after exactly `count` calls. -/
theorem hashForBloom_contract {σ : Type} (gh : α → Nat → BitVec 64) (x : α) (count : Nat)
    (fn : σ → BitVec 64 → σ × LoopControl) (s : σ) :
    ((∀ j < count, (fn (loopState gh x fn 0 j s) (gh x j)).2 = .kContinue) ∧
      hashForBloom gh x count fn s = (loopState gh x fn 0 count s, .kContinue)) ∨
    ∃ j < count, (∀ j' < j, (fn (loopState gh x fn 0 j' s) (gh x j')).2 = .kContinue) ∧
      (fn (loopState gh x fn 0 j s) (gh x j)).2 = .kBreak ∧
      hashForBloom gh x count fn s = ((fn (loopState gh x fn 0 j s) (gh x j)).1, .kBreak) := by
  simpa only [hashForBloom, Nat.zero_add] using hashForBloomLoop_cases gh x fn 0 count s

/-! ## Setting bits -/

/-- The OR of the bit masks of those hash values in `hs` that address word `k`. -/
def maskUnion (f : PackedBloomFilter) (hs : List (BitVec 64)) (k : Nat) : BitVec 64 :=
  hs.foldr (fun h acc => if (f.indexFromHash h).toNat = k then bitMaskFromHash h ||| acc
    else acc) 0#64

@[simp] theorem maskUnion_nil (f : PackedBloomFilter) (k : Nat) : maskUnion f [] k = 0#64 :=
  rfl

theorem maskUnion_cons (f : PackedBloomFilter) (h : BitVec 64) (hs : List (BitVec 64))
    (k : Nat) : maskUnion f (h :: hs) k = if (f.indexFromHash h).toNat = k
      then bitMaskFromHash h ||| maskUnion f hs k else maskUnion f hs k :=
  rfl

theorem maskUnion_append (f : PackedBloomFilter) (hs hs' : List (BitVec 64)) (k : Nat) :
    maskUnion f (hs ++ hs') k = maskUnion f hs k ||| maskUnion f hs' k := by
  induction hs with
  | nil => exact BitVec.zero_or.symm
  | cons h hs ih =>
    rw [List.cons_append, maskUnion_cons, maskUnion_cons, ih]
    split_ifs
    · exact (BitVec.or_assoc _ _ _).symm
    · rfl

/-- Bit `b` of `maskUnion f hs k` is set exactly when a hash value of `hs` addresses bit
    `b` of word `k`. -/
theorem getLsbD_maskUnion (f : PackedBloomFilter) (hs : List (BitVec 64)) (k b : Nat) :
    (maskUnion f hs k).getLsbD b = true ↔
      ∃ h ∈ hs, (f.indexFromHash h).toNat = k ∧ h.toNat % 64 = b := by
  induction hs with
  | nil => simp
  | cons h hs ih =>
    simp only [maskUnion_cons, List.mem_cons, or_and_right, exists_or, exists_eq_left]
    by_cases hk : (f.indexFromHash h).toNat = k
    · rw [if_pos hk, BitVec.getLsbD_or, Bool.or_eq_true, getLsbD_bitMaskFromHash,
        decide_eq_true_iff, ih]
      simp [hk]
    · rw [if_neg hk, ih]
      simp [hk]

/-- No hash value addresses a word past `word_count_mask`. -/
theorem maskUnion_of_lt (f : PackedBloomFilter) (hs : List (BitVec 64)) {k : Nat}
    (hk : f.wordCountMask.toNat < k) : maskUnion f hs k = 0#64 := by
  induction hs with
  | nil => rfl
  | cons h hs ih =>
    have := f.indexFromHash_le h
    rw [maskUnion_cons, if_neg (by omega), ih]

/-- Setting the bits of the hash values `hs` ORs every word with the masks addressing it. -/
theorem foldl_setHashBit (f : PackedBloomFilter) (hs : List (BitVec 64))
    (w : Nat → BitVec 64) (k : Nat) :
    hs.foldl f.setHashBit w k = w k ||| maskUnion f hs k := by
  induction hs generalizing w with
  | nil => simp
  | cons h hs ih =>
    rw [List.foldl_cons, ih, setHashBit, writeAt_apply, maskUnion_cons]
    by_cases hk : (f.indexFromHash h).toNat = k
    · subst hk; simp [BitVec.or_assoc]
    · simp [hk, Ne.symm hk]

/-- A word ANDed with `bit_mask_from_hash(h)` is nonzero exactly when bit `h mod 64` of it
    is set. -/
theorem and_bitMaskFromHash_ne_zero_iff (w h : BitVec 64) :
    w &&& bitMaskFromHash h ≠ 0#64 ↔ w.getLsbD (h.toNat % 64) = true := by
  constructor
  · intro hne
    by_contra hb
    exact hne (BitVec.eq_of_getLsbD_eq fun j => by
      by_cases hj : h.toNat % 64 = j.val
      · simp_all [BitVec.getLsbD_and, getLsbD_bitMaskFromHash]
      · simp [BitVec.getLsbD_and, getLsbD_bitMaskFromHash, hj])
  · intro hb h0
    have := congrArg (BitVec.getLsbD · (h.toNat % 64)) h0
    simp [BitVec.getLsbD_and, getLsbD_bitMaskFromHash, hb] at this

/-! ## `clear` -/

namespace PackedBloomFilter

@[simp] theorem clear_wordCountMask (f : PackedBloomFilter) :
    f.clear.wordCountMask = f.wordCountMask := rfl

@[simp] theorem clear_hashCount (f : PackedBloomFilter) : f.clear.hashCount = f.hashCount :=
  rfl

theorem clear_words (f : PackedBloomFilter) (x : Nat) :
    f.clear.words x = if x < f.clearCount then 0#64 else f.words x := rfl

/-- `clearSteps` are the word writes of `clear`. -/
theorem runSteps_clearSteps (f : PackedBloomFilter) (w : Nat → BitVec 64) (x : Nat) :
    runSteps f.clearSteps w x = if x < f.clearCount then 0#64 else w x := by
  rw [clearSteps, List.map_eq_flatMap]
  exact runSteps_flatMap_range_writeAt (fun _ => [fun _ => 0#64]) _ w x

/-- Without wrap-around in `8 * (word_count_mask + 1)`, `clear` zeroes exactly the words of
    the filter. -/
theorem clearCount_eq {f : PackedBloomFilter} (h : f.wordCountMask.toNat + 1 < 2 ^ 61) :
    f.clearCount = f.wordCountMask.toNat + 1 := by
  simp only [clearCount, BitVec.toNat_mul, BitVec.toNat_add, BitVec.toNat_ofNat]
  omega

end PackedBloomFilter

theorem maskUnion_clear (f : PackedBloomFilter) : maskUnion f.clear = maskUnion f := rfl

/-! ## Inserting a sequence of items -/

/-- `insert(x1); ...; insert(xn)`. -/
def insertAll (f : PackedBloomFilter) (gh : α → Nat → BitVec 64) (items : List α) :
    PackedBloomFilter :=
  items.foldl (fun f x => f.insert gh x) f

/-- Every hash value that inserting `items` computes, item by item. -/
def insertedHashes (gh : α → Nat → BitVec 64) (hashCount : Nat) (items : List α) :
    List (BitVec 64) :=
  items.flatMap fun x => (List.range hashCount).map (gh x)

theorem mem_insertedHashes {gh : α → Nat → BitVec 64} {hashCount : Nat} {items : List α}
    {h : BitVec 64} :
    h ∈ insertedHashes gh hashCount items ↔ ∃ x ∈ items, ∃ i < hashCount, gh x i = h := by
  simp [insertedHashes]

/-- `insert` sets the bits of the item's hash values one after the other. -/
theorem insert_eq (f : PackedBloomFilter) (gh : α → Nat → BitVec 64) (x : α) :
    f.insert gh x = { f with
      words := (insertedHashes gh f.hashCount.toNat [x]).foldl f.setHashBit f.words } := by
  simp only [PackedBloomFilter.insert, hashForBloom, hashForBloomLoop_continue, insertedHashes,
    List.flatMap_cons, List.flatMap_nil, List.append_nil, List.foldl_map,
    ← List.range_eq_range']

/-- `insertSteps` are the word writes of `insert`. -/
theorem runSteps_insertSteps (f : PackedBloomFilter) (gh : α → Nat → BitVec 64) (x : α)
    (w : Nat → BitVec 64) :
    runSteps (f.insertSteps gh x) w = (insertedHashes gh f.hashCount.toNat [x]).foldl
      f.setHashBit w := by
  simp [runSteps, insertSteps, insertedHashes, List.foldl_map]

theorem insertAll_eq (f : PackedBloomFilter) (gh : α → Nat → BitVec 64) (items : List α) :
    insertAll f gh items = { f with
      words := (insertedHashes gh f.hashCount.toNat items).foldl f.setHashBit f.words } := by
  induction items generalizing f with
  | nil => rfl
  | cons x xs ih =>
    rw [insertAll, List.foldl_cons, ← insertAll, ih, insert_eq]
    simp only [insertedHashes, List.flatMap_cons, List.foldl_append, List.flatMap_nil,
      List.append_nil]
    rfl

/-- The words after a sequence of inserts: the old words OR-ed with the masks of every hash
    value the items have, each in the word it addresses. -/
theorem insertAll_words_apply (f : PackedBloomFilter) (gh : α → Nat → BitVec 64)
    (items : List α) (k : Nat) :
    (insertAll f gh items).words k =
      f.words k ||| maskUnion f (insertedHashes gh f.hashCount.toNat items) k := by
  rw [insertAll_eq]
  exact foldl_setHashBit _ _ _ _

/-- `might_contain` reports whether every one of the item's bits is set. -/
theorem mightContain_iff (f : PackedBloomFilter) (gh : α → Nat → BitVec 64) (y : α) :
    f.mightContain gh y = true ↔ ∀ i < f.hashCount.toNat,
      f.words (f.indexFromHash (gh y i)).toNat &&& bitMaskFromHash (gh y i) ≠ 0#64 := by
  simp only [mightContain, hashForBloom, beq_iff_eq, hashForBloomLoop_eq_continue_iff,
    List.mem_range'_1, Nat.zero_add, Nat.zero_le, true_and, not_not, ne_eq]

/-- Every inserted item is reported present. -/
theorem mightContain_insertAll_of_mem (f : PackedBloomFilter) (gh : α → Nat → BitVec 64)
    {items : List α} {x : α} (hx : x ∈ items) :
    (insertAll f gh items).mightContain gh x = true := by
  rw [mightContain_iff]
  intro i hi
  rw [and_bitMaskFromHash_ne_zero_iff, insertAll_words_apply, BitVec.getLsbD_or,
    Bool.or_eq_true, getLsbD_maskUnion]
  rw [insertAll_eq] at hi ⊢
  exact .inr ⟨gh x i, mem_insertedHashes.2 ⟨x, hx, i, hi, rfl⟩, rfl, rfl⟩

/-- The masks depend only on the set of hash values. -/
theorem maskUnion_congr (f : PackedBloomFilter) {hs hs' : List (BitVec 64)}
    (hmem : ∀ h, h ∈ hs ↔ h ∈ hs') : maskUnion f hs = maskUnion f hs' := by
  funext k
  exact BitVec.eq_of_getLsbD_eq fun b => Bool.eq_iff_iff.2 <| by
    simp only [getLsbD_maskUnion, hmem]

/-- The words after a sequence of inserts depend only on the set of items inserted. -/
theorem insertAll_words_congr (f : PackedBloomFilter) (gh : α → Nat → BitVec 64)
    {items items' : List α} (hmem : ∀ x, x ∈ items ↔ x ∈ items') :
    (insertAll f gh items).words = (insertAll f gh items').words := by
  funext k
  rw [insertAll_words_apply, insertAll_words_apply]
  exact congrArg (f.words k ||| ·) (congrFun (maskUnion_congr f fun h => by
    simp only [mem_insertedHashes, hmem]) k)

/-- The law of a sequence of inserts on a filter of power-of-two size: words outside the
    filter are untouched, every word is its old value OR-ed with the masks of the hash
    values addressing it, `might_contain` tests exactly an item's bits, every inserted item
    is reported present, and the words depend only on the set of items inserted. -/
theorem insert_sequence_law (f : PackedBloomFilter) (gh : α → Nat → BitVec 64)
    (items : List α) (hpow : f.wordCount.toNat.isPowerOfTwo) :
    (∀ k, f.wordCount.toNat ≤ k → (insertAll f gh items).words k = f.words k) ∧
    (∀ k, (insertAll f gh items).words k =
      f.words k ||| maskUnion f (insertedHashes gh f.hashCount.toNat items) k) ∧
    (∀ (g : PackedBloomFilter) (y : α), g.mightContain gh y = true ↔
      ∀ i < g.hashCount.toNat,
        g.words (g.indexFromHash (gh y i)).toNat &&& bitMaskFromHash (gh y i) ≠ 0#64) ∧
    (∀ x ∈ items, (insertAll f gh items).mightContain gh x = true) ∧
    (∀ items' : List α, (∀ x, x ∈ items ↔ x ∈ items') →
      (insertAll f gh items).words = (insertAll f gh items').words) := by
  refine ⟨fun k hk => ?_, insertAll_words_apply f gh items, fun g y => mightContain_iff g gh y,
    fun x hx => mightContain_insertAll_of_mem f gh hx,
    fun items' hmem => insertAll_words_congr f gh hmem⟩
  rw [wordCount_toNat_of_isPowerOfTwo hpow] at hk
  rw [insertAll_words_apply, maskUnion_of_lt f _ (by omega), BitVec.or_zero]

theorem insert_sequence_law_two_words :
    (⟨1#64, 2#16, fun _ => 0#64⟩ : PackedBloomFilter).wordCount.toNat.isPowerOfTwo ∧
    (∀ k, (⟨1#64, 2#16, fun _ => 0#64⟩ : PackedBloomFilter).wordCount.toNat ≤ k →
      (insertAll ⟨1#64, 2#16, fun _ => 0#64⟩
        (fun y i => BitVec.ofNat 64 (64 * (y + i) + i)) [0, 1]).words k = 0#64) ∧
    (∀ k, (insertAll ⟨1#64, 2#16, fun _ => 0#64⟩
        (fun y i => BitVec.ofNat 64 (64 * (y + i) + i)) [0, 1]).words k =
      0#64 ||| maskUnion ⟨1#64, 2#16, fun _ => 0#64⟩ (insertedHashes
        (fun y i => BitVec.ofNat 64 (64 * (y + i) + i)) (2#16).toNat [0, 1]) k) ∧
    (∀ (g : PackedBloomFilter) (y : Nat),
      g.mightContain (fun y i => BitVec.ofNat 64 (64 * (y + i) + i)) y = true ↔
        ∀ i < g.hashCount.toNat,
          g.words (g.indexFromHash (BitVec.ofNat 64 (64 * (y + i) + i))).toNat &&&
            bitMaskFromHash (BitVec.ofNat 64 (64 * (y + i) + i)) ≠ 0#64) ∧
    (∀ x ∈ [0, 1], (insertAll ⟨1#64, 2#16, fun _ => 0#64⟩
      (fun y i => BitVec.ofNat 64 (64 * (y + i) + i)) [0, 1]).mightContain
        (fun y i => BitVec.ofNat 64 (64 * (y + i) + i)) x = true) ∧
    (∀ items' : List Nat, (∀ x, x ∈ [0, 1] ↔ x ∈ items') →
      (insertAll ⟨1#64, 2#16, fun _ => 0#64⟩
        (fun y i => BitVec.ofNat 64 (64 * (y + i) + i)) [0, 1]).words =
      (insertAll ⟨1#64, 2#16, fun _ => 0#64⟩
        (fun y i => BitVec.ofNat 64 (64 * (y + i) + i)) items').words) :=
  ⟨⟨1, rfl⟩, insert_sequence_law ⟨1#64, 2#16, fun _ => 0#64⟩
    (fun y i => BitVec.ofNat 64 (64 * (y + i) + i)) [0, 1] ⟨1, rfl⟩⟩

/-! ## Hash functions past the 64th -/

/-- There are 64 seeds, picked by `n & 63`: hash function `n` is hash function `n % 64`. -/
theorem xxh64NthHash_mod (xxh64 : List UInt8 → BitVec 64 → BitVec 64) (bytes : List UInt8)
    (n : Nat) : xxh64NthHash xxh64 bytes (n % 64) = xxh64NthHash xxh64 bytes n := by
  have hsize : kBloomFilterHashSeeds.size - 1 = 2 ^ 6 - 1 := rfl
  simp only [xxh64NthHash, hsize, Nat.and_pow_two_sub_one_eq_mod, Nat.mod_mod]

/-- A property of hash function `i` that only depends on `i % 64` holds for one of the
    first `n ≥ 64` exactly when it holds for one of the first 64. -/
theorem exists_lt_iff_of_mod_64 {Q : Nat → Prop} (hQ : ∀ i, Q (i % 64) ↔ Q i) {n : Nat}
    (h64 : 64 ≤ n) : (∃ i < n, Q i) ↔ ∃ i < 64, Q i :=
  ⟨fun ⟨i, _, hi⟩ => ⟨i % 64, Nat.mod_lt _ (by decide), (hQ i).2 hi⟩,
    fun ⟨i, hi, hq⟩ => ⟨i, by omega, hq⟩⟩

theorem forall_lt_iff_of_mod_64 {Q : Nat → Prop} (hQ : ∀ i, Q (i % 64) ↔ Q i) {n : Nat}
    (h64 : 64 ≤ n) : (∀ i < n, Q i) ↔ ∀ i < 64, Q i := by
  simpa only [not_exists, not_and, not_not] using
    not_congr (exists_lt_iff_of_mod_64 (Q := fun i => ¬ Q i) (fun i => not_congr (hQ i)) h64)

/-- With the seeded hash functions of `get_nth_hash_for_bloom`, whichever bytes an item is
    hashed from, a `hash_count` above 64 sets and tests exactly the bits `hash_count = 64`
    does: hash functions `64, 65, ...` repeat the first 64. -/
theorem hashCount_above_64 (xxh64 : List UInt8 → BitVec 64 → BitVec 64)
    (bytes : α → List UInt8) (f : PackedBloomFilter) (h64 : 64 ≤ f.hashCount.toNat)
    (items : List α) (y : α) :
    (insertAll f (fun x => xxh64NthHash xxh64 (bytes x)) items).words =
      (insertAll { f with hashCount := 64#16 } (fun x => xxh64NthHash xxh64 (bytes x))
        items).words ∧
    (insertAll f (fun x => xxh64NthHash xxh64 (bytes x)) items).mightContain
        (fun x => xxh64NthHash xxh64 (bytes x)) y =
      (insertAll { f with hashCount := 64#16 } (fun x => xxh64NthHash xxh64 (bytes x))
        items).mightContain (fun x => xxh64NthHash xxh64 (bytes x)) y := by
  have hper : ∀ x n, xxh64NthHash xxh64 (bytes x) (n % 64) = xxh64NthHash xxh64 (bytes x) n :=
    fun x => xxh64NthHash_mod xxh64 (bytes x)
  have hwords : (insertAll f (fun x => xxh64NthHash xxh64 (bytes x)) items).words =
      (insertAll { f with hashCount := 64#16 } (fun x => xxh64NthHash xxh64 (bytes x))
        items).words := by
    funext k
    rw [insertAll_words_apply, insertAll_words_apply]
    refine congrArg (f.words k ||| ·) (congrFun (maskUnion_congr f fun h => ?_) k)
    simp only [mem_insertedHashes]
    exact exists_congr fun x => and_congr_right fun _ =>
      exists_lt_iff_of_mod_64 (fun i => by rw [hper]) h64
  refine ⟨hwords, Bool.eq_iff_iff.2 ?_⟩
  rw [mightContain_iff, mightContain_iff, hwords, insertAll_eq, insertAll_eq]
  dsimp only [indexFromHash]
  rw [show (64#16).toNat = 64 from rfl]
  exact forall_lt_iff_of_mod_64 (fun i => by rw [hper]) h64

theorem hashCount_above_64_seventy :
    64 ≤ (70#16).toNat ∧
    (insertAll ⟨0#64, 70#16, fun _ => 0#64⟩
        (fun (_ : Unit) => xxh64NthHash (fun _ seed => seed) []) [()]).words =
      (insertAll { (⟨0#64, 70#16, fun _ => 0#64⟩ : PackedBloomFilter) with hashCount := 64#16 }
        (fun (_ : Unit) => xxh64NthHash (fun _ seed => seed) []) [()]).words ∧
    (insertAll ⟨0#64, 70#16, fun _ => 0#64⟩
        (fun (_ : Unit) => xxh64NthHash (fun _ seed => seed) []) [()]).mightContain
        (fun (_ : Unit) => xxh64NthHash (fun _ seed => seed) []) () =
      (insertAll { (⟨0#64, 70#16, fun _ => 0#64⟩ : PackedBloomFilter) with hashCount := 64#16 }
        (fun (_ : Unit) => xxh64NthHash (fun _ seed => seed) []) [()]).mightContain
        (fun (_ : Unit) => xxh64NthHash (fun _ seed => seed) []) () :=
  ⟨by decide, hashCount_above_64 (fun _ seed => seed) (fun _ => []) ⟨0#64, 70#16, fun _ => 0#64⟩
    (by decide) [()] ()⟩

end Llfs
