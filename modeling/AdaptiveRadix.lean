import AdaptiveRadix.Key.Lemmas
import AdaptiveRadix.Path.Lemmas
import AdaptiveRadix.Index
import AdaptiveRadix.Store
import AdaptiveRadix.Dictionary.Basic
import AdaptiveRadix.Dictionary.Insert
import AdaptiveRadix.Dictionary.Remove
import AdaptiveRadix.Proofs.Index.Reaches
import AdaptiveRadix.Proofs.Index.Paths
import AdaptiveRadix.Proofs.Index.Nearest
import AdaptiveRadix.Proofs.Index.Lookup
import AdaptiveRadix.Proofs.Index.Rejection
import AdaptiveRadix.Proofs.Index.Subtree
import AdaptiveRadix.Proofs.Index.Shape
import AdaptiveRadix.Proofs.Dictionary.Run
import AdaptiveRadix.Proofs.Dictionary.Agreement
import AdaptiveRadix.Proofs.Dictionary.StartingWith
import AdaptiveRadix.Proofs.Dictionary.Order
import AdaptiveRadix.Proofs.Dictionary.Issued
import AdaptiveRadix.Proofs.Dictionary.Failure
import AdaptiveRadix.Proofs.Dictionary.Loading
import AdaptiveRadix.Proofs.Tree.AnyLoader
import AdaptiveRadix.Proofs.Index.AnyLoader
import AdaptiveRadix.Proofs.Index.Clean
import AdaptiveRadix.Proofs.Index.Found
import AdaptiveRadix.Proofs.Dictionary.Exhaustion
import AdaptiveRadix.Proofs.Node.History
import AdaptiveRadix.Proofs.Index.Undo
import AdaptiveRadix.Proofs.Store.Past
import AdaptiveRadix.Proofs.Node.BothEnds
import AdaptiveRadix.Proofs.Index.Stats
import AdaptiveRadix.Proofs.Index.PathOrder
import AdaptiveRadix.Proofs.Node.Steady
import AdaptiveRadix.Proofs.Tree.Walk
