import Llfs.Native.BloomFilter

/-! # Bit addressing of the packed filter

A hash value `h` addresses bit `h & 63` of word `(h >> 6) & word_count_mask`. For a
power-of-two `word_count() = 2^k` this pair is the plain reduction of `h` modulo the
`64 * 2^k` bits of the filter: the word index is the hash's next `k` bits and never
overlaps the bit index. When `k ≤ 58` the reduction is onto, and each filter bit is
addressed by exactly `2^64 / (64 * 2^k)` of the `2^64` hash values. For any other word
count up to `2^58` some words are never addressed: this is why `word_count()` must be a
power of two.

## Key results

- `getLsbD_bitMaskFromHash`: `bit_mask_from_hash(h)` has exactly bit `h mod 64` set
- `indexFromHash_lt_wordCount`: the word index is inside the filter
- `bitPosition_eq_mod`: the addressed bit is `h mod (64 * word_count())`
- `hash_addressing`: the three together, and every bit addressed equally often
- `indexFromHash_surjective_iff`: every word is addressed exactly when `word_count()` is a
  power of two
-/

namespace Llfs.PackedBloomFilter

/-- `h & 63` is `h mod 64`. -/
theorem toNat_and_63 (h : BitVec 64) : (h &&& 63#64).toNat = h.toNat % 64 := by
  rw [BitVec.toNat_and]
  exact Nat.and_pow_two_sub_one_eq_mod h.toNat 6

@[simp] theorem bitMaskFromHash_toNat (h : BitVec 64) :
    (bitMaskFromHash h).toNat = 2 ^ (h.toNat % 64) := by
  have hlt : 2 ^ (h.toNat % 64) < 2 ^ 64 :=
    Nat.pow_lt_pow_right (by decide) (Nat.mod_lt _ (by decide))
  simp only [bitMaskFromHash, BitVec.shiftLeft_eq', BitVec.toNat_shiftLeft, toNat_and_63,
    BitVec.toNat_ofNat, Nat.one_mod, Nat.one_shiftLeft, Nat.mod_eq_of_lt hlt]

/-- `bit_mask_from_hash(h)` has exactly one bit set, bit `h mod 64`. -/
theorem getLsbD_bitMaskFromHash (h : BitVec 64) (j : Nat) :
    (bitMaskFromHash h).getLsbD j = decide (h.toNat % 64 = j) := by
  rw [← BitVec.testBit_toNat, bitMaskFromHash_toNat, Nat.testBit_two_pow]

theorem indexFromHash_toNat (f : PackedBloomFilter) (h : BitVec 64) :
    (f.indexFromHash h).toNat = h.toNat / 64 &&& f.wordCountMask.toNat := by
  simp [indexFromHash, Nat.shiftRight_eq_div_pow]

theorem indexFromHash_le (f : PackedBloomFilter) (h : BitVec 64) :
    (f.indexFromHash h).toNat ≤ f.wordCountMask.toNat := by
  rw [indexFromHash_toNat]
  exact Nat.and_le_right

/-- The word a hash value addresses depends only on `word_count_mask`. -/
theorem indexFromHash_congr {f g : PackedBloomFilter} (h : f.wordCountMask = g.wordCountMask)
    (x : BitVec 64) : f.indexFromHash x = g.indexFromHash x := by
  rw [indexFromHash, indexFromHash, h]

theorem wordCount_toNat (f : PackedBloomFilter) :
    f.wordCount.toNat = (f.wordCountMask.toNat + 1) % 2 ^ 64 := by
  simp [wordCount]

/-- A nonzero `word_count()` has not wrapped: it is `word_count_mask + 1`. -/
theorem wordCount_toNat_of_pos {f : PackedBloomFilter} (h : 0 < f.wordCount.toNat) :
    f.wordCount.toNat = f.wordCountMask.toNat + 1 := by
  have hlt := f.wordCountMask.isLt
  rw [wordCount_toNat] at h ⊢
  rcases Nat.lt_or_ge (f.wordCountMask.toNat + 1) (2 ^ 64) with hl | hl
  · exact Nat.mod_eq_of_lt hl
  · rw [show f.wordCountMask.toNat + 1 = 2 ^ 64 by omega, Nat.mod_self] at h
    exact absurd h (Nat.lt_irrefl 0)

theorem wordCount_toNat_of_isPowerOfTwo {f : PackedBloomFilter}
    (h : f.wordCount.toNat.isPowerOfTwo) : f.wordCount.toNat = f.wordCountMask.toNat + 1 := by
  obtain ⟨k, hk⟩ := h
  exact wordCount_toNat_of_pos (hk ▸ Nat.two_pow_pos k)

theorem indexFromHash_lt_wordCount {f : PackedBloomFilter} (hpos : 0 < f.wordCount.toNat)
    (h : BitVec 64) : (f.indexFromHash h).toNat < f.wordCount.toNat := by
  have := f.indexFromHash_le h
  rw [wordCount_toNat_of_pos hpos]
  omega

/-- With `word_count() = 2^k`, the word index is the hash's bits `6 .. 6 + k`. -/
theorem indexFromHash_toNat_of_pow {f : PackedBloomFilter} {k : Nat}
    (hwc : f.wordCount.toNat = 2 ^ k) (h : BitVec 64) :
    (f.indexFromHash h).toNat = h.toNat / 64 % 2 ^ k := by
  have hmask : f.wordCountMask.toNat = 2 ^ k - 1 := by
    have := wordCount_toNat_of_pos (f := f) (hwc ▸ Nat.two_pow_pos k)
    omega
  rw [indexFromHash_toNat, hmask, Nat.and_pow_two_sub_one_eq_mod]

end PackedBloomFilter

open PackedBloomFilter

/-- The filter bit a hash value addresses: bit `log2(bit_mask_from_hash(h))` of word
    `index_from_hash(h)`, counted from bit 0 of `words[0]`. -/
def bitPosition (f : PackedBloomFilter) (h : BitVec 64) : Nat :=
  64 * (f.indexFromHash h).toNat + (bitMaskFromHash h).toNat.log2

/-- The shift-and-mask addressing is reduction modulo the filter's bit count. -/
theorem bitPosition_eq_mod {f : PackedBloomFilter} {k : Nat} (hwc : f.wordCount.toNat = 2 ^ k)
    (h : BitVec 64) : bitPosition f h = h.toNat % (64 * 2 ^ k) := by
  rw [bitPosition, indexFromHash_toNat_of_pow hwc, bitMaskFromHash_toNat, Nat.log2_two_pow,
    Nat.mod_mul]
  omega

/-- The filter bit a hash value addresses is bit `h mod 64` of word `index_from_hash(h)`. -/
theorem bitPosition_eq_iff (f : PackedBloomFilter) (h : BitVec 64) (p : Nat) :
    bitPosition f h = p ↔ (f.indexFromHash h).toNat = p / 64 ∧ h.toNat % 64 = p % 64 := by
  rw [bitPosition, bitMaskFromHash_toNat, Nat.log2_two_pow]
  omega

/-- Two hash values address the same bit exactly when they address the same word and the
    same bit of it. -/
theorem bitPosition_eq_bitPosition_iff (f : PackedBloomFilter) (h h' : BitVec 64) :
    bitPosition f h = bitPosition f h' ↔
      (f.indexFromHash h).toNat = (f.indexFromHash h').toNat ∧ h.toNat % 64 = h'.toNat % 64 := by
  rw [bitPosition, bitPosition, bitMaskFromHash_toNat, bitMaskFromHash_toNat, Nat.log2_two_pow,
    Nat.log2_two_pow]
  omega

/-- Of the `2^64` hash values, exactly `2^64 / (64 * 2^k)` address each bit of a filter of
    `2^k ≤ 2^58` words. -/
theorem count_bitPosition {f : PackedBloomFilter} {k : Nat} (hk : k ≤ 58)
    (hwc : f.wordCount.toNat = 2 ^ k) {p : Nat} (hp : p < 64 * 2 ^ k) :
    Nat.count (fun n => bitPosition f (BitVec.ofNat 64 n) = p) (2 ^ 64) =
      2 ^ 64 / (64 * 2 ^ k) := by
  have hM : 64 * 2 ^ k = 2 ^ (6 + k) := by rw [Nat.pow_add]
  have hdvd : 2 ^ 64 % (64 * 2 ^ k) = 0 :=
    Nat.mod_eq_zero_of_dvd (hM ▸ Nat.pow_dvd_pow 2 (by omega))
  have hcongr : ∀ n ∈ Finset.range (2 ^ 64),
      bitPosition f (BitVec.ofNat 64 n) = p ↔ n ≡ p [MOD 64 * 2 ^ k] := by
    intro n hn
    rw [bitPosition_eq_mod hwc, BitVec.toNat_ofNat, Nat.mod_eq_of_lt (Finset.mem_range.1 hn),
      Nat.ModEq, Nat.mod_eq_of_lt hp]
  rw [Nat.count_eq_card_filter_range, Finset.filter_congr hcongr,
    ← Nat.count_eq_card_filter_range, Nat.count_modEq_card _ (by positivity), hdvd]
  simp

/-- For a filter of `word_count() = 2^k ≤ 2^58` words, every hash value addresses one bit
    of a word inside the filter, the bit `h mod (64 * word_count())`, and every bit of the
    filter is addressed by the same number of hash values. -/
theorem hash_addressing (f : PackedBloomFilter) (k : Nat) (hk : k ≤ 58)
    (hwc : f.wordCount.toNat = 2 ^ k) :
    (∀ h : BitVec 64,
      (∀ j, (bitMaskFromHash h).getLsbD j = true ↔ j = h.toNat % 64) ∧
      (f.indexFromHash h).toNat < f.wordCount.toNat ∧
      bitPosition f h = h.toNat % (64 * f.wordCount.toNat)) ∧
    ∀ p < 64 * f.wordCount.toNat,
      Nat.count (fun n => bitPosition f (BitVec.ofNat 64 n) = p) (2 ^ 64) =
        2 ^ 64 / (64 * f.wordCount.toNat) := by
  rw [hwc]
  refine ⟨fun h => ⟨fun j => ?_, ?_, bitPosition_eq_mod hwc h⟩,
    fun p hp => count_bitPosition hk hwc hp⟩
  · rw [getLsbD_bitMaskFromHash, decide_eq_true_iff, eq_comm]
  · exact hwc ▸ indexFromHash_lt_wordCount (hwc ▸ Nat.two_pow_pos k) h

theorem hash_addressing_four_words :
    2 ≤ 58 ∧ (⟨3#64, 1#16, fun _ => 0#64⟩ : PackedBloomFilter).wordCount.toNat = 2 ^ 2 ∧
    ((∀ h : BitVec 64,
      (∀ j, (bitMaskFromHash h).getLsbD j = true ↔ j = h.toNat % 64) ∧
      ((⟨3#64, 1#16, fun _ => 0#64⟩ : PackedBloomFilter).indexFromHash h).toNat <
        (⟨3#64, 1#16, fun _ => 0#64⟩ : PackedBloomFilter).wordCount.toNat ∧
      bitPosition ⟨3#64, 1#16, fun _ => 0#64⟩ h =
        h.toNat % (64 * (⟨3#64, 1#16, fun _ => 0#64⟩ : PackedBloomFilter).wordCount.toNat)) ∧
    ∀ p < 64 * (⟨3#64, 1#16, fun _ => 0#64⟩ : PackedBloomFilter).wordCount.toNat,
      Nat.count (fun n => bitPosition ⟨3#64, 1#16, fun _ => 0#64⟩ (BitVec.ofNat 64 n) = p)
          (2 ^ 64) =
        2 ^ 64 / (64 * (⟨3#64, 1#16, fun _ => 0#64⟩ : PackedBloomFilter).wordCount.toNat)) :=
  ⟨by decide, rfl, hash_addressing ⟨3#64, 1#16, fun _ => 0#64⟩ 2 (by decide) rfl⟩

/-! ## Which words `index_from_hash` reaches -/

/-- A number that has among its bits every power of two up to it is one less than a power
    of two. -/
theorem isPowerOfTwo_succ_of_testBit {n : Nat} (h : ∀ b, 2 ^ b ≤ n → n.testBit b = true) :
    (n + 1).isPowerOfTwo := by
  have hn : n = 2 ^ n.size - 1 := Nat.eq_of_testBit_eq fun b => by
    rw [Nat.testBit_two_pow_sub_one]
    by_cases hb : b < n.size
    · rw [h b (Nat.lt_size.1 hb), decide_eq_true hb]
    · rw [decide_eq_false hb]
      exact Bool.eq_false_iff.2 fun ht => hb (Nat.lt_size.2 (Nat.testBit_implies_ge ht))
  have := Nat.two_pow_pos n.size
  exact ⟨n.size, by omega⟩

/-- For a filter of at most `2^58` words, `index_from_hash` reaches every word below
    `word_count()` exactly when `word_count()` is a power of two. Otherwise some words are
    never addressed: the word index `(h >> 6) & word_count_mask` only has bits of the mask. -/
theorem indexFromHash_surjective_iff (f : PackedBloomFilter)
    (hmask : f.wordCountMask.toNat < 2 ^ 58) :
    (∀ w < f.wordCount.toNat, ∃ h, (f.indexFromHash h).toNat = w) ↔
      f.wordCount.toNat.isPowerOfTwo := by
  have hwc : f.wordCount.toNat = f.wordCountMask.toNat + 1 := by
    rw [wordCount_toNat]
    exact Nat.mod_eq_of_lt (by omega)
  constructor
  · intro hreach
    rw [hwc]
    refine isPowerOfTwo_succ_of_testBit fun b hb => ?_
    obtain ⟨h, hh⟩ := hreach (2 ^ b) (by omega)
    have hbit := congrArg (Nat.testBit · b) hh
    simp only [indexFromHash_toNat, Nat.testBit_and, Nat.testBit_two_pow_self,
      Bool.and_eq_true] at hbit
    exact hbit.2
  · rintro ⟨k, hk⟩ w hw
    have h64 : 64 * w % 2 ^ 64 = 64 * w := Nat.mod_eq_of_lt (by omega)
    refine ⟨BitVec.ofNat 64 (64 * w), ?_⟩
    rw [indexFromHash_toNat_of_pow hk, BitVec.toNat_ofNat, h64,
      Nat.mul_div_cancel_left _ (by decide), Nat.mod_eq_of_lt (hk ▸ hw)]

theorem indexFromHash_surjective_iff_three_words :
    (2#64).toNat < 2 ^ 58 ∧
    ((∀ w < (⟨2#64, 1#16, fun _ => 0#64⟩ : PackedBloomFilter).wordCount.toNat,
        ∃ h, ((⟨2#64, 1#16, fun _ => 0#64⟩ : PackedBloomFilter).indexFromHash h).toNat = w) ↔
      (⟨2#64, 1#16, fun _ => 0#64⟩ : PackedBloomFilter).wordCount.toNat.isPowerOfTwo) :=
  ⟨by decide, indexFromHash_surjective_iff ⟨2#64, 1#16, fun _ => 0#64⟩ (by decide)⟩

end Llfs
