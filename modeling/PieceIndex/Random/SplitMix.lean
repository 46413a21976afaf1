import PieceIndex.Random.Dice

/-!
A source of words that steps a counter by a fixed odd number and stirs it.
-/
namespace PieceIndex

structure SplitMix where
  counter : UInt64

namespace SplitMix

def ofSeed (seed : UInt64) : SplitMix := ⟨seed⟩

def stir (word : UInt64) : UInt64 :=
  let word := (word ^^^ (word >>> 30)) * 0xbf58476d1ce4e5b9
  let word := (word ^^^ (word >>> 27)) * 0x94d049bb133111eb
  word ^^^ (word >>> 31)

def next (source : SplitMix) : UInt64 × SplitMix :=
  let counter := source.counter + 0x9e3779b97f4a7c15
  (stir counter, ⟨counter⟩)

def dice : Dice SplitMix := .ofSource next

end SplitMix
end PieceIndex
