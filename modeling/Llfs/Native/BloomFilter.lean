import Mathlib

/-! # The packed Bloom filter of `llfs/bloom_filter.hpp`

A shallow model of `llfs::PackedBloomFilter` and the hashing helpers it uses. Every
`u64` of the source is a `BitVec 64`, so the unchecked arithmetic of the C++ wraps here
exactly as it does there; a `little_u16` is a `BitVec 16`. The flexible array
`words[1]` is the memory that starts at `words`: a function from word index to word,
so an access past `word_count()` is a write to some other word, never a silent no-op.

Two pieces come from outside this repository and are modelled from their code in the
`batteries` library: `batt::log2_ceil` and `seq::LoopControl`. XXH64 is a parameter, and
so is the hash family an item is hashed with: every lemma holds for any hash function.

The floating-point `optimal_hash_count` is modelled with `Float` so that `initialize`
stays executable; no result depends on its value. Where the C++ conversion of its double to
`usize` is undefined (`item_count = 0`), the model saturates, so the `hash_count` it gives
there is not the program's.
-/

namespace Llfs

/-- A write to one location of memory: `l` gets `g` of its old value. -/
def writeAt {ι β : Type} [DecidableEq ι] (l : ι) (g : β → β) (m : ι → β) : ι → β :=
  Function.update m l (g (m l))

/-- Run a list of steps in order. -/
def runSteps {σ : Type} (steps : List (σ → σ)) (s : σ) : σ :=
  steps.foldl (fun s a => a s) s

/-- `seq::LoopControl`: what a loop body tells `hash_for_bloom` to do next. -/
inductive LoopControl where
  | kContinue
  | kBreak
  deriving DecidableEq, Repr

/-- `BloomFilterParams`: how many filter bits to reserve per inserted item. -/
structure BloomFilterParams where
  bitsPerItem : BitVec 64
  deriving DecidableEq, Repr

/-- `optimal_bloom_filter_bit_rate`: the bits per item that reach a target false positive
    probability. -/
def optimalBloomFilterBitRate (targetFalsePositiveP : Float) : Float :=
  -Float.log targetFalsePositiveP * 2.0780869212350273

/-! ## Hash functions -/

/-- `detail::kBloomFilterHashSeeds`: the seeds of the 64 hash functions. -/
def kBloomFilterHashSeeds : Array (BitVec 64) := #[
  0xce3a9eb8b885d5af#64, 0x33d9975b8a739ac6#64, 0xe65d0fff49425f03#64, 0x10bb3a132ec4fabc#64,
  0x88d476f6e7f2c53c#64, 0xcb4905c588217f44#64, 0x54eb7b8b55ac05d6#64, 0xac0de731d7f3f97c#64,
  0x998963e5d908c156#64, 0x0bdf939d3b7c1cd6#64, 0x2cf7007c36b2c966#64, 0xb53c35171f25ccce#64,
  0x7d6d2ad5e3ef7ae3#64, 0xe3aaa3bf1dbffd08#64, 0xa81f70b4f8dc0f80#64, 0x1f4887ce81cdf25a#64,
  0x6433a69ba9e9d9b1#64, 0xf859167265201651#64, 0xe48c6589be0ff660#64, 0xadd5250ba0e7ac09#64,
  0x833f55b86dee015f#64, 0xae3b000feb85dcea#64, 0x0110cfeb4fe23291#64, 0xf3a5d699ab2ce23c#64,
  0x7c3a2b8a1c43942c#64, 0x8cb3fb6783724d25#64, 0xe3619c66bf3aa139#64, 0x3fdf358be099c7d9#64,
  0x0c38ccabc94a487f#64, 0x43e19e80ee4fe6ed#64, 0x22699c9fc26f20ee#64, 0xa559cbafff2cea37#64,
  0xfbed4777b17fb16d#64, 0x7197788291858011#64, 0xa9325a240f0d996e#64, 0x6782b2e3766f2f76#64,
  0xbc3aca45c9d9dc36#64, 0x7b687762afe92061#64, 0x7b2a7cb985790bcf#64, 0xf244ed1bc2b06f7d#64,
  0x29acd54ff9cb3809#64, 0xe1926523e6f67949#64, 0x98f964fbc223bb91#64, 0xaab5ee47827c5506#64,
  0x0dab726106a4c8dd#64, 0xa88bb10b8e57cdd9#64, 0xbef7ede281a687af#64, 0x0e2a6b9bc5b7d6e3#64,
  0x5b6f250b605200c8#64, 0xafe46bbd0e81722f#64, 0xb5d978e72ac594da#64, 0x8c4362498b85fff9#64,
  0xce8cd0d29a933471#64, 0x9c2a28aabd1e71cb#64, 0x572c8c1d4ea24d86#64, 0x8fc7dff3afb5fbf7#64,
  0xf378bc6c41606bf9#64, 0xa4c36401cf7a557f#64, 0x0b0a5bdd27f682af#64, 0x3fbe0f66ef4777c1#64,
  0x0ed678ccbd246356#64, 0xc2d3489afc4edcd6#64, 0xc482a884240966c6#64, 0x19b952db37267518#64]

/-- The shared body of the `get_nth_hash_for_bloom` overloads: XXH64 of the item's bytes,
    seeded with seed `n & (kBloomFilterHashSeeds.size() - 1)`. -/
def xxh64NthHash (xxh64 : List UInt8 → BitVec 64 → BitVec 64) (bytes : List UInt8)
    (n : Nat) : BitVec 64 :=
  xxh64 bytes (kBloomFilterHashSeeds.getD (n &&& (kBloomFilterHashSeeds.size - 1)) 0)

/-- The `sizeof(usize)` bytes of a `usize` in memory order (little-endian). -/
def usizeBytes (v : BitVec 64) : List UInt8 :=
  (List.range 8).map fun i => (v >>> (8 * i)).toNat.toUInt8

/-- `get_nth_hash_for_bloom(usize int_value, usize n)`. -/
def getNthHashForBloom (xxh64 : List UInt8 → BitVec 64 → BitVec 64) (intValue : BitVec 64)
    (n : Nat) : BitVec 64 :=
  xxh64NthHash xxh64 (usizeBytes intValue) n

/-- `get_nth_hash_for_bloom(const std::string_view& str, usize n)`. -/
def getNthHashForBloomStr (xxh64 : List UInt8 → BitVec 64 → BitVec 64) (str : String)
    (n : Nat) : BitVec 64 :=
  xxh64NthHash xxh64 str.toUTF8.toList n

/-- The generic `get_nth_hash_for_bloom(const T& item, usize n)`: `std::hash<T>` first, then
    the `usize` overload. -/
def getNthHashForBloomOf {α : Type} (stdHash : α → BitVec 64)
    (xxh64 : List UInt8 → BitVec 64 → BitVec 64) (item : α) (n : Nat) : BitVec 64 :=
  getNthHashForBloom xxh64 (stdHash item) n

/-- The loop of `hash_for_bloom` at hash index `i` with `n` iterations left: `fn` runs on
    each hash in turn, threading the state it changes, and a `kBreak` ends the loop. -/
def hashForBloomLoop {α σ : Type} (getNthHash : α → Nat → BitVec 64) (item : α)
    (fn : σ → BitVec 64 → σ × LoopControl) : Nat → Nat → σ → σ × LoopControl
  | _, 0, s => (s, .kContinue)
  | i, n + 1, s =>
    match fn s (getNthHash item i) with
    | (s', .kBreak) => (s', .kBreak)
    | (s', .kContinue) => hashForBloomLoop getNthHash item fn (i + 1) n s'

/-- `hash_for_bloom(item, count, fn)`: `fn` on hashes `0, 1, ..., count - 1` of `item`. -/
def hashForBloom {α σ : Type} (getNthHash : α → Nat → BitVec 64) (item : α) (count : Nat)
    (fn : σ → BitVec 64 → σ × LoopControl) (s : σ) : σ × LoopControl :=
  hashForBloomLoop getNthHash item fn 0 count s

/-- `batt::log2_ceil` (from `batteries/math.hpp`, not in this repository):
    `(i <= 1) ? 0 : 64 - __builtin_clzll(i - 1)`. For `x ≠ 0`, `64 - clz(x)` is the bit
    length of `x`, that is `log2 x + 1`. -/
def log2Ceil (i : BitVec 64) : Nat :=
  if i.toNat ≤ 1 then 0 else (i.toNat - 1).log2 + 1

/-! ## The filter -/

/-- `PackedBloomFilter`: the header fields and the memory of the word array. The
    `reserved_` padding is never read. -/
structure PackedBloomFilter where
  /-- The size of the filter in 64-bit words, minus 1. -/
  wordCountMask : BitVec 64
  /-- The number of hash functions used. -/
  hashCount : BitVec 16
  /-- `words[i]`, for every `i`: the array and the memory after it. -/
  words : Nat → BitVec 64

instance : Inhabited PackedBloomFilter := ⟨⟨0, 0, fun _ => 0⟩⟩

namespace PackedBloomFilter

/-- `word_count_from_bit_count`: the power-of-two number of words for `filterBitCount`
    bits. -/
def wordCountFromBitCount (filterBitCount : BitVec 64) : BitVec 64 :=
  1#64 <<< log2Ceil ((filterBitCount + 63#64) / 64#64)

/-- `optimal_hash_count`: `max(1, usize(bit_rate * ln 2 - 0.5))` in double precision.
    Converting a double outside the range of `usize` is undefined behaviour in C++: for
    `item_count = 0` the bit rate is `+inf` (or NaN when the bit count is also 0). Here
    `Float.toUInt64` saturates instead, so this model's `hash_count` for `item_count = 0` is
    not the program's; no result about `initialize` reads `hash_count`. -/
def optimalHashCount (filterSizeInBits itemCount : BitVec 64) : BitVec 64 :=
  let bitRate := Float.ofNat filterSizeInBits.toNat / Float.ofNat itemCount.toNat
  BitVec.ofNat 64 (max 1 (bitRate * Float.log 2.0 - 0.5).toUInt64.toNat)

/-- `initialize` (a keyword here): size the filter for `itemCount` items. The `u64` result
    of `optimal_hash_count` is stored into the `little_u16` field; for `itemCount = 0` that
    result is undefined in C++ (see `optimalHashCount`), and only `word_count_mask` is
    faithful. -/
def initializeFilter (f : PackedBloomFilter) (params : BloomFilterParams)
    (itemCount : BitVec 64) : PackedBloomFilter :=
  let numWords := wordCountFromBitCount (params.bitsPerItem * itemCount)
  let filterBitCount := numWords * 64#64
  { f with
    wordCountMask := numWords - 1#64
    hashCount := (optimalHashCount filterBitCount itemCount).setWidth 16 }

/-- `from_params`: a filter header initialised in `storage`, whose bytes are
    indeterminate. -/
def fromParams (params : BloomFilterParams) (itemCount : BitVec 64)
    (storage : PackedBloomFilter) : PackedBloomFilter :=
  storage.initializeFilter params itemCount

/-- `index_from_hash`: the word a hash value addresses. -/
def indexFromHash (f : PackedBloomFilter) (hashVal : BitVec 64) : BitVec 64 :=
  (hashVal >>> 6) &&& f.wordCountMask

/-- `bit_mask_from_hash`: the bit within that word. -/
def bitMaskFromHash (hashVal : BitVec 64) : BitVec 64 :=
  1#64 <<< (hashVal &&& 63#64)

/-- The body of `insert`'s loop: `words[index_from_hash(h)] |= bit_mask_from_hash(h)`. -/
def setHashBit (f : PackedBloomFilter) (words : Nat → BitVec 64) (h : BitVec 64) :
    Nat → BitVec 64 :=
  writeAt (f.indexFromHash h).toNat (· ||| bitMaskFromHash h) words

/-- `might_contain`: every one of the item's `hash_count` bits is set; the loop stops at
    the first clear one. -/
def mightContain {α : Type} (f : PackedBloomFilter) (getNthHash : α → Nat → BitVec 64)
    (item : α) : Bool :=
  (hashForBloom getNthHash item f.hashCount.toNat
    (fun _ h => ((), if f.words (f.indexFromHash h).toNat &&& bitMaskFromHash h = 0#64
      then .kBreak else .kContinue)) ()).2 == .kContinue

/-- `insert`: set the item's `hash_count` bits. -/
def insert {α : Type} (f : PackedBloomFilter) (getNthHash : α → Nat → BitVec 64) (item : α) :
    PackedBloomFilter :=
  { f with
    words := (hashForBloom getNthHash item f.hashCount.toNat
      (fun words h => (f.setHashBit words h, .kContinue)) f.words).1 }

/-- `clear`: `memset(words, 0, sizeof(little_u64) * (word_count_mask + 1))`, the byte count
    computed in `usize`. -/
def clear (f : PackedBloomFilter) : PackedBloomFilter :=
  let byteCount := 8#64 * (f.wordCountMask + 1#64)
  { f with words := fun i => if i < byteCount.toNat / 8 then 0#64 else f.words i }

/-- The number of words `clear` zeroes: its byte count over 8. -/
def clearCount (f : PackedBloomFilter) : Nat :=
  (8#64 * (f.wordCountMask + 1#64)).toNat / 8

/-- `clear` as the word writes `memset` makes. -/
def clearSteps (f : PackedBloomFilter) : List ((Nat → BitVec 64) → Nat → BitVec 64) :=
  (List.range f.clearCount).map fun j => writeAt j fun _ => 0#64

/-- `insert` as the word writes it makes: one read-modify-write per hash. -/
def insertSteps {α : Type} (f : PackedBloomFilter) (getNthHash : α → Nat → BitVec 64)
    (item : α) : List ((Nat → BitVec 64) → Nat → BitVec 64) :=
  (List.range f.hashCount.toNat).map fun i words => f.setHashBit words (getNthHash item i)

/-- `clear` as located word writes: word `j` of the filter becomes zero, for each word the
    `memset` covers. -/
def clearWrites (f : PackedBloomFilter) : List (Nat × (BitVec 64 → BitVec 64)) :=
  (List.range f.clearCount).map fun j => (j, fun _ => 0#64)

/-- `insert` as located word writes: `words[index_from_hash(h)] |= bit_mask_from_hash(h)` for
    each of the item's hashes. -/
def insertWrites {α : Type} (f : PackedBloomFilter) (getNthHash : α → Nat → BitVec 64)
    (item : α) : List (Nat × (BitVec 64 → BitVec 64)) :=
  (List.range f.hashCount.toNat).map fun i =>
    ((f.indexFromHash (getNthHash item i)).toNat, (· ||| bitMaskFromHash (getNthHash item i)))

/-- `word_count`: `word_count_mask + 1` in `usize`. -/
def wordCount (f : PackedBloomFilter) : BitVec 64 :=
  f.wordCountMask + 1#64

/-- `get_words`: the slice of the first `word_count()` words. -/
def getWords (f : PackedBloomFilter) : List (BitVec 64) :=
  (List.range f.wordCount.toNat).map f.words

end PackedBloomFilter

/-- `packed_sizeof(filter)`: `sizeof(PackedBloomFilter) + sizeof(little_u64) * word_count_mask`
    in `usize`; `sizeof(PackedBloomFilter)` is 24. -/
def packedSizeof (f : PackedBloomFilter) : BitVec 64 :=
  24#64 + 8#64 * f.wordCountMask

/-- `packed_sizeof_bloom_filter(params, item_count)`. The header `from_params` builds is
    the only thing read, so the indeterminate storage is the default one. -/
def packedSizeofBloomFilter (params : BloomFilterParams) (itemCount : BitVec 64) : BitVec 64 :=
  packedSizeof (PackedBloomFilter.fromParams params itemCount default)

end Llfs
