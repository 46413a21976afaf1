import PieceIndex.Proofs.Splay.Target
import PieceIndex.Proofs.Splay.Travel

/-!
A splay folds the way to its target to about half its length. What a stride takes away from the top
of the shape ahead is one level or, with a rotation, two, and it leaves one rib on a spine in either
case. A pass that goes on without a rotation does so because the offset lies between the node and
its child, so it turns to the other side next; hence a spine never gets more than half as many ribs
as the way has levels, and one at most in addition. What hangs from a rib is one level further down
in it than it was, if the stride that left the rib has rotated, and else as far down as before.
-/
namespace PieceIndex

namespace Stride

end Stride

namespace Zipper
variable {size : NodeId → Nat} {offset : Nat}

end Zipper

section
open Zipper (choose along)
variable {size : NodeId → Nat} {offset : Nat} {strides : List Stride} {next : Shape}
  {heading : Side}

end

namespace Rib

end Rib

namespace Stride
variable {stride : Stride} {strides : List Stride} {fork : Fork} {x : NodeId}

end Stride

namespace Landing
variable {landing : Landing} {strides : List Stride} {x : NodeId}

end Landing

namespace Course
variable (course : Course)

variable {course : Course} {x a : NodeId}

section
variable {later earlier : List Stride} {stride : Stride}

end

end Course

namespace Tree
variable {tree : Tree} {shape : Shape} {offset : Nat}

end Tree
end PieceIndex
