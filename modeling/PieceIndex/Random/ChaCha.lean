import PieceIndex.Random.Dice

/-!
A source of words that reads the ChaCha stream of twelve rounds. A block starts as four rows of four
32-bit words: constants, two rows of key, and the number of the block. A double round mixes its
columns and then its diagonals, which are the columns once the rows are shifted against each other.
The stream takes the words of block after block, and a 64-bit word is two of them, the low half
first. The key is made from a 64-bit seed by a linear step, whose top bits say how far its middle
bits are turned round.
-/
namespace PieceIndex
namespace ChaCha

def rotateLeft (word amount : UInt32) : UInt32 := (word <<< amount) ||| (word >>> (32 - amount))

/-- Turns a word round by fewer than 32 bits. A shift takes its amount modulo 32, so by no bits at
all it gives the word twice over itself. -/
def rotateRight (word amount : UInt32) : UInt32 := (word >>> amount) ||| (word <<< (32 - amount))

structure Row where
  w0 : UInt32
  w1 : UInt32
  w2 : UInt32
  w3 : UInt32
  deriving DecidableEq, Repr

namespace Row

def map (f : UInt32 → UInt32) (row : Row) : Row := ⟨f row.w0, f row.w1, f row.w2, f row.w3⟩

def zip (f : UInt32 → UInt32 → UInt32) (r s : Row) : Row :=
  ⟨f r.w0 s.w0, f r.w1 s.w1, f r.w2 s.w2, f r.w3 s.w3⟩

def add (r s : Row) : Row := zip (· + ·) r s

def mask (r s : Row) : Row := zip (· ^^^ ·) r s

def shift (row : Row) : Row := ⟨row.w1, row.w2, row.w3, row.w0⟩

/-- The row's words in pairs, the low half of a pair first. -/
def pairs (row : Row) : List UInt64 :=
  [row.w0.toUInt64 ||| (row.w1.toUInt64 <<< 32), row.w2.toUInt64 ||| (row.w3.toUInt64 <<< 32)]

end Row

structure Block where
  a : Row
  b : Row
  c : Row
  d : Row
  deriving DecidableEq, Repr

namespace Block

def halfMix (block : Block) (first second : UInt32) : Block :=
  let a := block.a.add block.b
  let d := (block.d.mask a).map (rotateLeft · first)
  let c := block.c.add d
  let b := (block.b.mask c).map (rotateLeft · second)
  ⟨a, b, c, d⟩

def mixColumns (block : Block) : Block := (block.halfMix 16 12).halfMix 8 7

def skew (block : Block) : Block :=
  { block with b := block.b.shift, c := block.c.shift.shift, d := block.d.shift.shift.shift }

def unskew (block : Block) : Block :=
  { block with b := block.b.shift.shift.shift, c := block.c.shift.shift, d := block.d.shift }

def doubleRound (block : Block) : Block := block.mixColumns.skew.mixColumns.unskew

def add (x y : Block) : Block := ⟨x.a.add y.a, x.b.add y.b, x.c.add y.c, x.d.add y.d⟩

def words (block : Block) : List UInt64 :=
  block.a.pairs ++ block.b.pairs ++ block.c.pairs ++ block.d.pairs

def doubleRounds : Nat → Block → Block
  | 0, block => block
  | count + 1, block => doubleRounds count block.doubleRound

end Block

structure Key where
  low : Row
  high : Row
  deriving DecidableEq, Repr

namespace Key

def step (state : UInt64) : UInt64 := state * 6364136223846793005 + 11634580027462260723

def word (state : UInt64) : UInt32 :=
  rotateRight (((state >>> 18) ^^^ state) >>> 27).toUInt32 (state >>> 59).toUInt32

/-- The next four words of a key, and the state they leave. -/
def row (state : UInt64) : Row × UInt64 :=
  let s0 := step state
  let s1 := step s0
  let s2 := step s1
  let s3 := step s2
  (⟨word s0, word s1, word s2, word s3⟩, s3)

def ofSeed (seed : UInt64) : Key :=
  let (low, state) := row seed
  ⟨low, (row state).1⟩

/-- The block of the stream with the given number. -/
def block (key : Key) (number : UInt64) : Block :=
  let start : Block :=
    { a := ⟨0x61707865, 0x3320646e, 0x79622d32, 0x6b206574⟩, b := key.low, c := key.high,
      d := ⟨number.toUInt32, (number >>> 32).toUInt32, 0, 0⟩ }
  (start.doubleRounds 6).add start

end Key

/-- A place in the stream of a key. -/
structure Stream where
  key : Key
  /-- The number of the block to read next. -/
  number : UInt64 := 0
  /-- What is left of the block before it. -/
  unread : List UInt64 := []
  deriving DecidableEq, Repr

namespace Stream

def ofSeed (seed : UInt64) : Stream := { key := .ofSeed seed }

def next (stream : Stream) : UInt64 × Stream :=
  match stream.unread with
  | word :: unread => (word, { stream with unread := unread })
  | [] =>
    let words := (stream.key.block stream.number).words
    (words.headD 0, { stream with number := stream.number + 1, unread := words.tail })

def dice : Dice Stream := .ofSource next

end Stream
end ChaCha
end PieceIndex
