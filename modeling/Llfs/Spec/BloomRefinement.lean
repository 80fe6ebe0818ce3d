import Llfs.Spec.InsertCorrect
import Llfs.Spec.Sizing

/-! # The packed filter implements a Bloom filter

The Bloom filter a `PackedBloomFilter` stands for has `m` bits, `k` hash functions and a
set of set bits: inserting `x` sets bits `h(x, i) mod m` for `i < k`, and a query reports
whether all of them are set. Reading bit `p` of a packed filter as bit `p % 64` of word
`p / 64`, a filter of `word_count_mask + 1` words is the Bloom filter with
`m = 64 * (word_count_mask + 1)` and `k = hash_count`.

The proof has three steps:
1. **Bits**: `bitSet_insert` and `bitSet_clear` give every bit after an operation.
2. **Operations**: when `word_count()` is a power of two, `insert` and `might_contain` are
   the abstract operations (`toSpec_insert`, `mightContain_eq_query`), and so is `clear`
   while its byte count `8 * word_count()` does not wrap (`toSpec_clear`).
3. **Runs**: `initialize` builds only such filters and the operations keep them such
   (`ValidFilter`), so along every run of inserts and clears the packed filter is the
   abstract one (`ValidFilter.toSpec_run`).

## Key results

- `BloomSpec.query_insert_self`, `BloomSpec.query_insert_of_query`: no false negatives
- `toSpec_insert`, `toSpec_clear`, `mightContain_eq_query`: the operations refine
- `initializeFilter_sizes`: `initialize` gives `2^k ≤ 2^58` words, exactly what `clear` and
  `packed_sizeof_bloom_filter` count
- `bloom_refinement`: every run from a valid filter refines the abstract run
- `mightContain_run_of_insert`: an item inserted after the last `clear` is reported present
-/

namespace Llfs

/-- A Bloom filter of `m` bits and `k` hash functions: the set of its set bits. -/
@[ext] structure BloomSpec where
  m : Nat
  k : Nat
  bits : Finset Nat
  m_pos : 0 < m
  bits_lt : ∀ p ∈ bits, p < m

/-- What a filter is asked to do: `insert(x)` or `clear()`. -/
inductive FilterOp (α : Type) where
  | insert (x : α)
  | clear
  deriving DecidableEq, Repr

namespace BloomSpec

variable {α : Type}

/-- The bits of item `x`: `h(x, i) mod m` for each hash function `i < k`. -/
def positions (b : BloomSpec) (gh : α → Nat → BitVec 64) (x : α) : Finset Nat :=
  (Finset.range b.k).image fun i => (gh x i).toNat % b.m

theorem mem_positions {b : BloomSpec} {gh : α → Nat → BitVec 64} {x : α} {p : Nat} :
    p ∈ b.positions gh x ↔ ∃ i < b.k, (gh x i).toNat % b.m = p := by
  simp [positions]

theorem lt_of_mem_positions {b : BloomSpec} {gh : α → Nat → BitVec 64} {x : α} {p : Nat}
    (hp : p ∈ b.positions gh x) : p < b.m := by
  obtain ⟨i, -, rfl⟩ := mem_positions.1 hp
  exact Nat.mod_lt _ b.m_pos

/-- Insert `x`: set its bits. -/
def insert (b : BloomSpec) (gh : α → Nat → BitVec 64) (x : α) : BloomSpec :=
  { b with
    bits := b.bits ∪ b.positions gh x
    bits_lt := fun p hp => (Finset.mem_union.1 hp).elim (b.bits_lt p) lt_of_mem_positions }

/-- Clear every bit. -/
def clear (b : BloomSpec) : BloomSpec :=
  { b with
    bits := ∅
    bits_lt := fun p hp => absurd hp (Finset.not_mem_empty p) }

/-- Whether every bit of `y` is set. -/
def query (b : BloomSpec) (gh : α → Nat → BitVec 64) (y : α) : Bool :=
  decide (b.positions gh y ⊆ b.bits)

def applyOp (gh : α → Nat → BitVec 64) (b : BloomSpec) : FilterOp α → BloomSpec
  | .insert x => b.insert gh x
  | .clear => b.clear

/-- An inserted item is reported present. -/
theorem query_insert_self (b : BloomSpec) (gh : α → Nat → BitVec 64) (x : α) :
    (b.insert gh x).query gh x = true :=
  decide_eq_true Finset.subset_union_right

/-- An insert keeps every item reported present. -/
theorem query_insert_of_query {b : BloomSpec} {gh : α → Nat → BitVec 64} {y : α}
    (h : b.query gh y = true) (x : α) : (b.insert gh x).query gh y = true :=
  decide_eq_true ((of_decide_eq_true h).trans Finset.subset_union_left)

/-- A run of inserts keeps every item reported present. -/
theorem query_run_of_query (gh : α → Nat → BitVec 64) {b : BloomSpec} {y : α}
    (h : b.query gh y = true) (ops : List (FilterOp α)) (hops : FilterOp.clear ∉ ops) :
    (ops.foldl (applyOp gh) b).query gh y = true := by
  induction ops generalizing b with
  | nil => exact h
  | cons op ops ih =>
    cases op with
    | insert x =>
      exact ih (query_insert_of_query h x) fun hc => hops (List.mem_cons_of_mem _ hc)
    | clear => exact absurd (List.mem_cons_self _ _) hops

end BloomSpec

namespace PackedBloomFilter

variable {α : Type}

/-- Bit `p` of the filter: bit `p % 64` of word `p / 64`. -/
def bitSet (f : PackedBloomFilter) (p : Nat) : Bool :=
  (f.words (p / 64)).getLsbD (p % 64)

/-- The Bloom filter a packed filter stands for: `64 * (word_count_mask + 1)` bits,
    `hash_count` hash functions, and the bits set in words `0 .. word_count_mask`. -/
def toSpec (f : PackedBloomFilter) : BloomSpec where
  m := 64 * (f.wordCountMask.toNat + 1)
  k := f.hashCount.toNat
  bits := (Finset.range (64 * (f.wordCountMask.toNat + 1))).filter fun p => f.bitSet p
  m_pos := by omega
  bits_lt := fun _ hp => Finset.mem_range.1 (Finset.mem_filter.1 hp).1

theorem mem_toSpec_bits {f : PackedBloomFilter} {p : Nat} :
    p ∈ f.toSpec.bits ↔ p < 64 * (f.wordCountMask.toNat + 1) ∧ f.bitSet p = true := by
  simp [toSpec]

/-- `insert` or `clear`. -/
def applyOp (gh : α → Nat → BitVec 64) (f : PackedBloomFilter) : FilterOp α → PackedBloomFilter
  | .insert x => f.insert gh x
  | .clear => f.clear

/-! ## Bits -/

/-- After `insert(x)`, a bit is set exactly when it was, or a hash of `x` addresses it. -/
theorem bitSet_insert (f : PackedBloomFilter) (gh : α → Nat → BitVec 64) (x : α) (p : Nat) :
    (f.insert gh x).bitSet p = true ↔
      f.bitSet p = true ∨ ∃ i < f.hashCount.toNat, bitPosition f (gh x i) = p := by
  have hins : f.insert gh x = insertAll f gh [x] := rfl
  simp only [bitSet, hins, insertAll_words_apply, BitVec.getLsbD_or, Bool.or_eq_true,
    getLsbD_maskUnion, mem_insertedHashes, List.mem_singleton, exists_eq_left,
    exists_exists_and_eq_and, bitPosition_eq_iff]

/-- After `clear()`, the bits of the words it zeroes are clear and the others as they were. -/
theorem bitSet_clear (f : PackedBloomFilter) (p : Nat) :
    f.clear.bitSet p = (decide (f.clearCount ≤ p / 64) && f.bitSet p) := by
  rw [bitSet, clear_words]
  by_cases hp : p / 64 < f.clearCount
  · rw [if_pos hp, BitVec.getLsbD_zero, decide_eq_false (Nat.not_le.2 hp), Bool.false_and]
  · rw [if_neg hp, decide_eq_true (Nat.le_of_not_lt hp), Bool.true_and]
    rfl

/-- The bit a hash value addresses lies in the filter's words. -/
theorem bitPosition_lt (f : PackedBloomFilter) (h : BitVec 64) :
    bitPosition f h < 64 * (f.wordCountMask.toNat + 1) := by
  have := f.indexFromHash_le h
  rw [bitPosition, bitMaskFromHash_toNat, Nat.log2_two_pow]
  omega

/-- The bit a hash value addresses is the bit `insert` sets and `might_contain` tests. -/
theorem bitSet_bitPosition (f : PackedBloomFilter) (h : BitVec 64) :
    f.bitSet (bitPosition f h) = (f.words (f.indexFromHash h).toNat).getLsbD (h.toNat % 64) := by
  obtain ⟨hw, hb⟩ := (bitPosition_eq_iff f h _).1 rfl
  rw [bitSet, ← hw, ← hb]

/-- With `word_count()` a power of two, a hash value addresses bit `h mod m`. -/
theorem bitPosition_eq_mod_bits {f : PackedBloomFilter} (hpow : f.wordCount.toNat.isPowerOfTwo)
    (h : BitVec 64) : bitPosition f h = h.toNat % (64 * (f.wordCountMask.toNat + 1)) := by
  obtain ⟨j, hj⟩ := hpow
  rw [bitPosition_eq_mod hj, ← hj, wordCount_toNat_of_isPowerOfTwo ⟨j, hj⟩]

/-! ## Operations -/

@[simp] theorem toSpec_m (f : PackedBloomFilter) :
    f.toSpec.m = 64 * (f.wordCountMask.toNat + 1) := rfl

@[simp] theorem toSpec_k (f : PackedBloomFilter) : f.toSpec.k = f.hashCount.toNat := rfl

@[simp] theorem insert_wordCountMask (f : PackedBloomFilter) (gh : α → Nat → BitVec 64) (x : α) :
    (f.insert gh x).wordCountMask = f.wordCountMask := rfl

/-- With `word_count()` a power of two, `insert` is the abstract insert. -/
theorem toSpec_insert {f : PackedBloomFilter} (hpow : f.wordCount.toNat.isPowerOfTwo)
    (gh : α → Nat → BitVec 64) (x : α) : (f.insert gh x).toSpec = f.toSpec.insert gh x := by
  refine BloomSpec.ext rfl rfl (Finset.ext fun p => ?_)
  simp only [mem_toSpec_bits, insert_wordCountMask, bitSet_insert, BloomSpec.insert,
    Finset.mem_union, BloomSpec.mem_positions, toSpec_k, toSpec_m, bitPosition_eq_mod_bits hpow]
  constructor
  · rintro ⟨hp, hb | hi⟩
    · exact .inl ⟨hp, hb⟩
    · exact .inr hi
  · rintro (⟨hp, hb⟩ | ⟨i, hi, rfl⟩)
    · exact ⟨hp, .inl hb⟩
    · exact ⟨Nat.mod_lt _ (by omega), .inr ⟨i, hi, rfl⟩⟩

/-- While its byte count `8 * word_count()` does not wrap, `clear` is the abstract clear. -/
theorem toSpec_clear {f : PackedBloomFilter} (h : f.wordCountMask.toNat + 1 < 2 ^ 61) :
    f.clear.toSpec = f.toSpec.clear := by
  refine BloomSpec.ext rfl rfl (Finset.ext fun p => ?_)
  simp only [mem_toSpec_bits, clear_wordCountMask, bitSet_clear, clearCount_eq h,
    Bool.and_eq_true, decide_eq_true_eq, BloomSpec.clear, Finset.not_mem_empty, iff_false]
  omega

/-- With `word_count()` a power of two, `might_contain` is the abstract query. -/
theorem mightContain_eq_query {f : PackedBloomFilter} (hpow : f.wordCount.toNat.isPowerOfTwo)
    (gh : α → Nat → BitVec 64) (y : α) : f.mightContain gh y = f.toSpec.query gh y := by
  rw [Bool.eq_iff_iff, mightContain_iff, BloomSpec.query, decide_eq_true_iff,
    BloomSpec.positions, Finset.image_subset_iff]
  simp only [Finset.mem_range, toSpec_k, toSpec_m, mem_toSpec_bits,
    and_bitMaskFromHash_ne_zero_iff, ← bitPosition_eq_mod_bits hpow, bitPosition_lt, true_and,
    bitSet_bitPosition]

@[simp] theorem applyOp_wordCount (gh : α → Nat → BitVec 64) (f : PackedBloomFilter)
    (op : FilterOp α) : (f.applyOp gh op).wordCount = f.wordCount := by
  cases op <;> rfl

/-- An operation on a filter of power-of-two size whose `clear` does not wrap is the
    abstract operation. -/
theorem toSpec_applyOp {f : PackedBloomFilter} (hpow : f.wordCount.toNat.isPowerOfTwo)
    (hlt : f.wordCount.toNat < 2 ^ 61) (gh : α → Nat → BitVec 64) (op : FilterOp α) :
    (f.applyOp gh op).toSpec = f.toSpec.applyOp gh op := by
  cases op with
  | insert x => exact toSpec_insert hpow gh x
  | clear => exact toSpec_clear (wordCount_toNat_of_isPowerOfTwo hpow ▸ hlt)

end PackedBloomFilter

open PackedBloomFilter

/-! ## Runs -/

/-- A filter as the code requires it: `word_count()` a power of two, and fewer than `2^61`
    words so that `clear`'s byte count does not wrap. -/
structure ValidFilter where
  filter : PackedBloomFilter
  isPowerOfTwo : filter.wordCount.toNat.isPowerOfTwo
  lt : filter.wordCount.toNat < 2 ^ 61

namespace ValidFilter

variable {α : Type}

/-- `initialize(params, item_count)` builds a valid filter, whatever the storage held. Validity
    is about the word count only; the results over runs hold for every `hash_count`, so also
    for the one the C++ would store where the model's `optimalHashCount` is not faithful. -/
def initializeFilter (f : PackedBloomFilter) (params : BloomFilterParams)
    (itemCount : BitVec 64) : ValidFilter where
  filter := f.initializeFilter params itemCount
  isPowerOfTwo := by
    obtain ⟨k, -, hk⟩ := initializeFilter_wordCount f params itemCount
    exact ⟨k, hk⟩
  lt := by
    obtain ⟨k, hk, hwc⟩ := initializeFilter_wordCount f params itemCount
    rw [hwc]
    exact lt_of_le_of_lt (Nat.pow_le_pow_right (by decide) hk) (by decide)

/-- An operation keeps the header, so it keeps the filter valid. -/
def applyOp (gh : α → Nat → BitVec 64) (v : ValidFilter) (op : FilterOp α) : ValidFilter where
  filter := v.filter.applyOp gh op
  isPowerOfTwo := by rw [applyOp_wordCount]; exact v.isPowerOfTwo
  lt := by rw [applyOp_wordCount]; exact v.lt

theorem filter_run (gh : α → Nat → BitVec 64) (v : ValidFilter) (ops : List (FilterOp α)) :
    (ops.foldl (applyOp gh) v).filter = ops.foldl (PackedBloomFilter.applyOp gh) v.filter := by
  induction ops generalizing v with
  | nil => rfl
  | cons op ops ih => exact ih (v.applyOp gh op)

/-- Every run from a valid filter ends in the abstract run's state. -/
theorem toSpec_run (gh : α → Nat → BitVec 64) (v : ValidFilter) (ops : List (FilterOp α)) :
    (ops.foldl (PackedBloomFilter.applyOp gh) v.filter).toSpec =
      ops.foldl (BloomSpec.applyOp gh) v.filter.toSpec := by
  induction ops generalizing v with
  | nil => rfl
  | cons op ops ih =>
    rw [List.foldl_cons, List.foldl_cons, ← toSpec_applyOp v.isPowerOfTwo v.lt]
    exact ih (v.applyOp gh op)

/-- Every run from a valid filter answers every query as the abstract run does. -/
theorem mightContain_run (gh : α → Nat → BitVec 64) (v : ValidFilter) (ops : List (FilterOp α))
    (y : α) : (ops.foldl (PackedBloomFilter.applyOp gh) v.filter).mightContain gh y =
      (ops.foldl (BloomSpec.applyOp gh) v.filter.toSpec).query gh y := by
  rw [← filter_run, mightContain_eq_query (ops.foldl (applyOp gh) v).isPowerOfTwo, filter_run,
    toSpec_run]

end ValidFilter

/-- From every valid filter, in particular every filter `initialize` sizes, every run of
    inserts and clears refines the abstract Bloom filter's run: the packed filter's bits are
    the abstract bits and `might_contain` is the abstract query, at every step. -/
theorem bloom_refinement {α : Type} (gh : α → Nat → BitVec 64) (v : ValidFilter)
    (ops : List (FilterOp α)) :
    (ops.foldl (PackedBloomFilter.applyOp gh) v.filter).toSpec =
      ops.foldl (BloomSpec.applyOp gh) v.filter.toSpec ∧
    ∀ y, (ops.foldl (PackedBloomFilter.applyOp gh) v.filter).mightContain gh y =
      (ops.foldl (BloomSpec.applyOp gh) v.filter.toSpec).query gh y :=
  ⟨ValidFilter.toSpec_run gh v ops, ValidFilter.mightContain_run gh v ops⟩

/-- No false negatives along a run: an item inserted after the last `clear` is reported
    present. -/
theorem mightContain_run_of_insert {α : Type} (gh : α → Nat → BitVec 64) (v : ValidFilter)
    (pre post : List (FilterOp α)) (x : α) (hpost : FilterOp.clear ∉ post) :
    ((pre ++ FilterOp.insert x :: post).foldl (PackedBloomFilter.applyOp gh) v.filter).mightContain
      gh x = true := by
  rw [ValidFilter.mightContain_run, List.foldl_append, List.foldl_cons]
  exact BloomSpec.query_run_of_query gh (BloomSpec.query_insert_self _ gh x) post hpost

theorem mightContain_run_of_insert_after_clear :
    FilterOp.clear ∉ [FilterOp.insert 7, FilterOp.insert 9] ∧
    (([FilterOp.insert 3, FilterOp.clear] ++
        FilterOp.insert 5 :: [FilterOp.insert 7, FilterOp.insert 9]).foldl
      (PackedBloomFilter.applyOp fun y i => BitVec.ofNat 64 (64 * (y + i) + i))
      (ValidFilter.initializeFilter default ⟨10#64⟩ 100#64).filter).mightContain
      (fun y i => BitVec.ofNat 64 (64 * (y + i) + i)) 5 = true :=
  ⟨by decide, mightContain_run_of_insert (fun y i => BitVec.ofNat 64 (64 * (y + i) + i))
    (ValidFilter.initializeFilter default ⟨10#64⟩ 100#64) [FilterOp.insert 3, FilterOp.clear]
    [FilterOp.insert 7, FilterOp.insert 9] 5 (by decide)⟩

end Llfs
