import Llfs.Spec.Addressing

/-! # Sizing a filter

`initialize(params, item_count)` asks `word_count_from_bit_count` for the least power of
two number of 64-bit words that holds `bits_per_item * item_count` bits. It computes
this in `u64`: the product and the `+ 63` of the rounding both wrap. While
`bits_per_item * item_count ≤ 2^64 - 64` nothing wraps and the size is exactly the least
power of two; past that the product is taken mod `2^64` and the filter can come out far
too small. Whatever the inputs, the word count is a power of two `2^k` with `k ≤ 58`, so
`word_count()`, `clear` and `packed_sizeof` never wrap for a filter `initialize` built.

The results here are about `word_count_mask` and the sizes only. The `hash_count`
`initialize` stores comes from floating point and is undefined in C++ for `item_count = 0`;
none of them reads it, so they hold for every `item_count`, `0` included.

## Key results

- `le_two_pow_iff_log2Ceil_le`: `log2_ceil(i)` is the least `k` with `i ≤ 2^k`
- `initializeFilter_wordCount`: `word_count()` is `2^k` with `k ≤ 58`, for every input
- `initializeFilter_isLeast`: without wrap-around, the least power of two that holds the bits
- `initializeFilter_wraps`: with it, a filter of one word for `2^64` requested bits
-/

namespace Llfs

open PackedBloomFilter

/-- `log2_ceil(i)` is the least `k` with `i ≤ 2^k`. -/
theorem le_two_pow_iff_log2Ceil_le (i : BitVec 64) (k : Nat) :
    i.toNat ≤ 2 ^ k ↔ log2Ceil i ≤ k := by
  unfold log2Ceil
  split
  · have := Nat.one_le_two_pow (n := k)
    simp only [Nat.zero_le, iff_true]
    omega
  · rw [Nat.add_one_le_iff, Nat.log2_lt (by omega)]
    omega

/-- The words `word_count_from_bit_count` rounds the bit count up to, before the power of
    two: `(filter_bit_count + 63) / 64`, whose `+ 63` wraps in `u64`. -/
theorem toNat_roundedWords (x : BitVec 64) :
    ((x + 63#64) / 64#64).toNat = (x.toNat + 63) % 2 ^ 64 / 64 := by
  simp [BitVec.toNat_udiv]

theorem log2Ceil_roundedWords_le (x : BitVec 64) : log2Ceil ((x + 63#64) / 64#64) ≤ 58 := by
  rw [← le_two_pow_iff_log2Ceil_le, toNat_roundedWords]
  have := Nat.mod_lt (x.toNat + 63) (Nat.two_pow_pos 64)
  omega

/-- `word_count_from_bit_count` is `2^log2_ceil(...)`: the shift never reaches 64. -/
theorem wordCountFromBitCount_toNat (x : BitVec 64) :
    (wordCountFromBitCount x).toNat = 2 ^ log2Ceil ((x + 63#64) / 64#64) := by
  have hlt : 2 ^ log2Ceil ((x + 63#64) / 64#64) < 2 ^ 64 :=
    Nat.pow_lt_pow_right (by decide) (by have := log2Ceil_roundedWords_le x; omega)
  simp only [wordCountFromBitCount, BitVec.shiftLeft_eq, BitVec.toNat_shiftLeft,
    BitVec.toNat_ofNat, Nat.one_mod_two_pow (by decide : 0 < 64), Nat.one_shiftLeft]
  exact Nat.mod_eq_of_lt hlt

/-- `word_count_mask + 1` after `initialize` is what `word_count_from_bit_count` returned. -/
theorem initializeFilter_wordCountMask_add_one (f : PackedBloomFilter)
    (params : BloomFilterParams) (itemCount : BitVec 64) :
    (f.initializeFilter params itemCount).wordCountMask.toNat + 1 =
      (wordCountFromBitCount (params.bitsPerItem * itemCount)).toNat := by
  have hpos : 0 < (wordCountFromBitCount (params.bitsPerItem * itemCount)).toNat := by
    rw [wordCountFromBitCount_toNat]
    exact Nat.two_pow_pos _
  have hlt := (wordCountFromBitCount (params.bitsPerItem * itemCount)).isLt
  norm_num [initializeFilter, BitVec.toNat_sub] at hlt ⊢
  omega

/-- `initialize` leaves `word_count()` a power of two `2^k` with `k ≤ 58`, for every
    `bits_per_item` and `item_count`. -/
theorem initializeFilter_wordCount (f : PackedBloomFilter) (params : BloomFilterParams)
    (itemCount : BitVec 64) :
    ∃ k ≤ 58, (f.initializeFilter params itemCount).wordCount.toNat = 2 ^ k := by
  refine ⟨_, log2Ceil_roundedWords_le (params.bitsPerItem * itemCount), ?_⟩
  rw [wordCount_toNat, initializeFilter_wordCountMask_add_one, wordCountFromBitCount_toNat,
    Nat.mod_eq_of_lt (by rw [← wordCountFromBitCount_toNat]; exact BitVec.isLt _)]

theorem initializeFilter_wordCountMask_lt (f : PackedBloomFilter) (params : BloomFilterParams)
    (itemCount : BitVec 64) : (f.initializeFilter params itemCount).wordCountMask.toNat < 2 ^ 58 := by
  have h := initializeFilter_wordCountMask_add_one f params itemCount
  rw [wordCountFromBitCount_toNat] at h
  have := Nat.pow_le_pow_right (by decide : 0 < 2) (log2Ceil_roundedWords_le
    (params.bitsPerItem * itemCount))
  omega

/-- `packed_sizeof` does not wrap for a filter of fewer than `2^61 - 2` words. -/
theorem packedSizeof_toNat {f : PackedBloomFilter} (h : f.wordCountMask.toNat + 3 < 2 ^ 61) :
    (packedSizeof f).toNat = 16 + 8 * (f.wordCountMask.toNat + 1) := by
  simp only [packedSizeof, BitVec.toNat_add, BitVec.toNat_mul, BitVec.toNat_ofNat]
  omega

/-- When `bits_per_item * item_count` does not wrap, neither does the rounding, and
    `word_count_from_bit_count` gives the least power of two that holds the bits. -/
theorem wordCountFromBitCount_isLeast (x : BitVec 64) (hx : x.toNat ≤ 2 ^ 64 - 64) :
    IsLeast {w : Nat | (∃ k, w = 2 ^ k) ∧ x.toNat ≤ 64 * w} (wordCountFromBitCount x).toNat := by
  have hround : ((x + 63#64) / 64#64).toNat = (x.toNat + 63) / 64 := by
    rw [toNat_roundedWords, Nat.mod_eq_of_lt (by omega)]
  rw [wordCountFromBitCount_toNat]
  refine ⟨⟨⟨_, rfl⟩, ?_⟩, ?_⟩
  · have := (le_two_pow_iff_log2Ceil_le ((x + 63#64) / 64#64) _).2 le_rfl
    rw [hround] at this
    omega
  · rintro w ⟨⟨k, rfl⟩, hw⟩
    refine Nat.pow_le_pow_right (by decide) ((le_two_pow_iff_log2Ceil_le _ _).1 ?_)
    rw [hround]
    omega

/-- Without wrap-around, `initialize` sets `word_count_mask` to `w - 1` for the least power
    of two `w` with `64 * w ≥ bits_per_item * item_count`, and `packed_sizeof_bloom_filter`
    is the 16-byte header and those `w` words. -/
theorem initializeFilter_isLeast (f : PackedBloomFilter) (params : BloomFilterParams)
    (itemCount : BitVec 64)
    (hfit : params.bitsPerItem.toNat * itemCount.toNat ≤ 2 ^ 64 - 64) :
    IsLeast {w : Nat | (∃ k, w = 2 ^ k) ∧ params.bitsPerItem.toNat * itemCount.toNat ≤ 64 * w}
      ((f.initializeFilter params itemCount).wordCountMask.toNat + 1) ∧
    (packedSizeofBloomFilter params itemCount).toNat =
      16 + 8 * ((f.initializeFilter params itemCount).wordCountMask.toNat + 1) := by
  have hprod : (params.bitsPerItem * itemCount).toNat =
      params.bitsPerItem.toNat * itemCount.toNat := by
    rw [BitVec.toNat_mul, Nat.mod_eq_of_lt (by omega)]
  obtain ⟨k, hk, hwc⟩ := initializeFilter_wordCount f params itemCount
  rw [wordCount_toNat, initializeFilter_wordCountMask_add_one] at hwc
  refine ⟨?_, ?_⟩
  · rw [initializeFilter_wordCountMask_add_one, ← hprod]
    exact wordCountFromBitCount_isLeast _ (hprod ▸ hfit)
  · have := initializeFilter_wordCountMask_lt default params itemCount
    rw [packedSizeofBloomFilter, fromParams, packedSizeof_toNat (by omega)]
    rfl

theorem initializeFilter_isLeast_ten_bits :
    (BitVec.ofNat 64 10).toNat * (BitVec.ofNat 64 1000).toNat ≤ 2 ^ 64 - 64 ∧
    IsLeast {w : Nat | (∃ k, w = 2 ^ k) ∧
        (BitVec.ofNat 64 10).toNat * (BitVec.ofNat 64 1000).toNat ≤ 64 * w}
      (((default : PackedBloomFilter).initializeFilter ⟨BitVec.ofNat 64 10⟩
        (BitVec.ofNat 64 1000)).wordCountMask.toNat + 1) ∧
    (packedSizeofBloomFilter ⟨BitVec.ofNat 64 10⟩ (BitVec.ofNat 64 1000)).toNat =
      16 + 8 * (((default : PackedBloomFilter).initializeFilter ⟨BitVec.ofNat 64 10⟩
        (BitVec.ofNat 64 1000)).wordCountMask.toNat + 1) :=
  ⟨by decide, initializeFilter_isLeast default ⟨BitVec.ofNat 64 10⟩ (BitVec.ofNat 64 1000)
    (by decide)⟩

/-- With wrap-around the filter can be far too small: `2^32` bits for each of `2^32` items
    multiply to `0` in `u64`, and the filter gets one word where `2^64` bits need `2^58`. -/
theorem initializeFilter_wraps :
    ¬ IsLeast {w : Nat | (∃ k, w = 2 ^ k) ∧
        (BitVec.ofNat 64 (2 ^ 32)).toNat * (BitVec.ofNat 64 (2 ^ 32)).toNat ≤ 64 * w}
      (((default : PackedBloomFilter).initializeFilter ⟨BitVec.ofNat 64 (2 ^ 32)⟩
        (BitVec.ofNat 64 (2 ^ 32))).wordCountMask.toNat + 1) := by
  have hmask : ((default : PackedBloomFilter).initializeFilter ⟨BitVec.ofNat 64 (2 ^ 32)⟩
      (BitVec.ofNat 64 (2 ^ 32))).wordCountMask = 0#64 := by decide
  rw [hmask]
  exact fun h => absurd h.1.2 (by decide)

end Llfs
