import PieceIndex.KeyMap.Walk
import PieceIndex.KeyMap.WellFormed
import PieceIndex.Main
import PieceIndex.Proofs.Build.Balance
import PieceIndex.Proofs.Build.Chain
import PieceIndex.Proofs.Build.Choices
import PieceIndex.Proofs.Build.Forest
import PieceIndex.Proofs.Build.Picking
import PieceIndex.Proofs.Check.Verdict
import PieceIndex.Proofs.Document
import PieceIndex.Proofs.Dot
import PieceIndex.Proofs.KeyMap.Capacity
import PieceIndex.Proofs.KeyMap.Dense
import PieceIndex.Proofs.KeyMap.Refinement
import PieceIndex.Proofs.KeyMap.SearchPath
import PieceIndex.Proofs.Mirror
import PieceIndex.Proofs.Splay.AccessPath
import PieceIndex.Proofs.Splay.Account
import PieceIndex.Proofs.Splay.Halving
import PieceIndex.Proofs.Splay.Limits
import PieceIndex.Proofs.Splay.Owner
import PieceIndex.Proofs.Splay.Repeat
import PieceIndex.Proofs.Trial
import PieceIndex.Proofs.Walk.Offsets
import PieceIndex.Proofs.Walk.Spans
import PieceIndex.Proofs.Walk.Sum
import PieceIndex.Random.SplitMix
import PieceIndex.Tree.Dump
import PieceIndex.Tree.Insert
import PieceIndex.Tree.Span
import PieceIndex.Tree.WellFormed
