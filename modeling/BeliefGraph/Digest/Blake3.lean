import BeliefGraph.Text.Hex

/-!
# The BLAKE3 digest

The digest of a sequence of bytes, as 64 lower-case hexadecimal digits. The input is cut into chunks
of 1024 bytes, each chunk into blocks of 64. The blocks of a chunk are compressed one after the other
into a chaining value; chunks are the leaves of a binary tree whose left subtrees are as large a power
of two as can be. The last compression, whatever it is of, is marked as the root.
-/

namespace BeliefGraph.Blake3

/-- A chaining value. -/
abbrev ChainingValue := Vector UInt32 8

/-- The words of a message block, and also the state of the compression function. -/
abbrev Block := Vector UInt32 16

/-- The initial chaining value. -/
def initial : ChainingValue :=
  #v[0x6a09e667, 0xbb67ae85, 0x3c6ef372, 0xa54ff53a, 0x510e527f, 0x9b05688c, 0x1f83d9ab, 0x5be0cd19]

/-! ## Compression -/

def rotateRight (word count : UInt32) : UInt32 :=
  (word >>> count) ||| (word <<< (32 - count))

/-- Mixes two message words into four words of the state. -/
def mix (s : Block) (a b c d : Fin 16) (x y : UInt32) : Block :=
  let s := s.set a (s[a] + s[b] + x)
  let s := s.set d (rotateRight (s[d] ^^^ s[a]) 16)
  let s := s.set c (s[c] + s[d])
  let s := s.set b (rotateRight (s[b] ^^^ s[c]) 12)
  let s := s.set a (s[a] + s[b] + y)
  let s := s.set d (rotateRight (s[d] ^^^ s[a]) 8)
  let s := s.set c (s[c] + s[d])
  s.set b (rotateRight (s[b] ^^^ s[c]) 7)

/-- One round: the columns of the state, then its diagonals. -/
def round (s m : Block) : Block :=
  let s := mix s 0 4 8 12 m[0] m[1]
  let s := mix s 1 5 9 13 m[2] m[3]
  let s := mix s 2 6 10 14 m[4] m[5]
  let s := mix s 3 7 11 15 m[6] m[7]
  let s := mix s 0 5 10 15 m[8] m[9]
  let s := mix s 1 6 11 12 m[10] m[11]
  let s := mix s 2 7 8 13 m[12] m[13]
  mix s 3 4 9 14 m[14] m[15]

/-- The order in which the next round takes the words of the message. -/
def permute (m : Block) : Block :=
  #v[m[2], m[6], m[3], m[10], m[7], m[0], m[4], m[13], m[1], m[11], m[12], m[5], m[9], m[14], m[15],
    m[8]]

/-- A number of rounds, with the message permuted between them. -/
def rounds : Nat → Block → Block → Block
  | 0, s, _ => s
  | n + 1, s, m => rounds n (round s m) (permute m)

/-- What a compression works on. -/
structure Input where
  chaining : ChainingValue
  block : Block
  /-- The number of the chunk; zero for what is not in a chunk. -/
  counter : Nat
  /-- Bytes of the block that come from the input. -/
  blockLength : Nat
  flags : UInt32

def chunkStart : UInt32 := 1

def chunkEnd : UInt32 := 2

def parent : UInt32 := 4

def root : UInt32 := 8

/-- The chaining value after a compression. -/
def compress (input : Input) : ChainingValue :=
  let v := input.chaining
  let s : Block := #v[v[0], v[1], v[2], v[3], v[4], v[5], v[6], v[7],
    initial[0], initial[1], initial[2], initial[3],
    UInt32.ofNat input.counter, UInt32.ofNat (input.counter >>> 32),
    UInt32.ofNat input.blockLength, input.flags]
  let s := rounds 7 s input.block
  #v[s[0] ^^^ s[8], s[1] ^^^ s[9], s[2] ^^^ s[10], s[3] ^^^ s[11],
    s[4] ^^^ s[12], s[5] ^^^ s[13], s[6] ^^^ s[14], s[7] ^^^ s[15]]

/-! ## Chunks -/

/-- Cuts a list into parts of `size + 1` elements, the last of which may be shorter. A list that is
empty is one part. -/
def cut {α : Type} (size : Nat) (xs : List α) : List (List α) :=
  if xs.length ≤ size + 1 then [xs]
  else xs.take (size + 1) :: cut size (xs.drop (size + 1))
termination_by xs.length
decreasing_by simp only [List.length_drop]; omega

/-- The four bytes at a word's place, the low one first; zeros stand for what is missing. -/
def wordAt (bytes : Array UInt8) (word : Nat) : UInt32 :=
  let byte (i : Nat) : UInt32 := (bytes[4 * word + i]?.getD 0).toUInt32
  byte 0 ||| (byte 1 <<< 8) ||| (byte 2 <<< 16) ||| (byte 3 <<< 24)

def blockOfBytes (bytes : List UInt8) : Block :=
  let bytes := bytes.toArray
  Vector.ofFn fun word => wordAt bytes word.val

/-- The compression that ends a chunk: all blocks but the last have been compressed. -/
def chunkInput (counter : Nat) : UInt32 → ChainingValue → List (List UInt8) → Input
  | flags, v, [] => ⟨v, blockOfBytes [], counter, 0, flags ||| chunkEnd⟩
  | flags, v, [last] => ⟨v, blockOfBytes last, counter, last.length, flags ||| chunkEnd⟩
  | flags, v, block :: next :: rest =>
    chunkInput counter 0 (compress ⟨v, blockOfBytes block, counter, block.length, flags⟩)
      (next :: rest)

/-- The compression that ends the chunk with a number. -/
def leaf (counter : Nat) (chunk : List UInt8) : Input :=
  chunkInput counter chunkStart initial (cut 63 chunk)

/-! ## The tree -/

/-- The compression that joins two subtrees. -/
def join (left right : ChainingValue) : Input :=
  ⟨initial, #v[left[0], left[1], left[2], left[3], left[4], left[5], left[6], left[7],
    right[0], right[1], right[2], right[3], right[4], right[5], right[6], right[7]], 0, 64, parent⟩

/-- The chunks in the left subtree when there are `n` chunks: the largest power of two below `n`. -/
def leftSize (n : Nat) : Nat := Nat.pow 2 (n - 1).log2

/-- The left side of the tree over two chunks or more leaves a chunk for the right side. -/
theorem leftSize_lt {n : Nat} (h : 2 ≤ n) : leftSize n < n := by
  have := Nat.log2_self_le (n := n - 1) (by omega)
  simp only [leftSize, Nat.pow_eq]
  omega

/-- The left side of the tree has at least one chunk, so the right side has fewer than all. -/
theorem leftSize_pos (n : Nat) : 0 < leftSize n := Nat.two_pow_pos _

/-- The compression that ends the tree over some chunks, the first of which has a number. -/
def tree (counter : Nat) (chunks : List (List UInt8)) : Input :=
  if 2 ≤ chunks.length then
    let size := leftSize chunks.length
    join (compress (tree counter (chunks.take size)))
      (compress (tree (counter + size) (chunks.drop size)))
  else leaf counter (chunks.headD [])
termination_by chunks.length
decreasing_by
  · have := leftSize_lt (n := chunks.length) (by assumption)
    simp only [List.length_take]
    omega
  · have := leftSize_pos chunks.length
    simp only [List.length_drop]
    omega

/-! ## The digest -/

/-- The eight hexadecimal digits of a word, byte by byte from the low one. -/
def wordDigits (w : UInt32) : List Char :=
  let byte (i : Nat) := Hex.digits 2 (w.toNat >>> (8 * i))
  byte 0 ++ byte 1 ++ byte 2 ++ byte 3

/-- The digest of some bytes. -/
def digest (bytes : List UInt8) : List Char :=
  let last := tree 0 (cut 1023 bytes)
  (compress { last with flags := last.flags ||| root }).toList.flatMap wordDigits

/-- A word of a digest is written with two digits for each of its four bytes. -/
theorem length_wordDigits (w : UInt32) : (wordDigits w).length = 8 := by
  simp [wordDigits, Hex.length_digits]

/-- A digest has 64 digits. -/
theorem length_digest (bytes : List UInt8) : (digest bytes).length = 64 := by
  simp [digest, List.length_flatMap, length_wordDigits, List.map_const']

end BeliefGraph.Blake3
