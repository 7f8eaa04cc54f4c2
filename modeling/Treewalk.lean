import Treewalk.Main
import Treewalk.Proofs.Heap.Environment
import Treewalk.Proofs.Machine.Assignment
import Treewalk.Proofs.Machine.Construction
import Treewalk.Proofs.Machine.Faults
import Treewalk.Proofs.Machine.Local
import Treewalk.Proofs.Machine.Parameters
import Treewalk.Proofs.Scope.FastPath
import Treewalk.Proofs.Scope.Order
import Treewalk.Proofs.Scope.SuperCalls
import Treewalk.Proofs.Session.Breaks
import Treewalk.Proofs.Session.ErrorSpans
import Treewalk.Proofs.Session.Loose
import Treewalk.Proofs.Session.Shadowing
import Treewalk.Proofs.Session.Silent
import Treewalk.Proofs.Text.EditDistance
import Treewalk.Proofs.Token.LongestMatch
import Treewalk.Proofs.Token.Written
import Treewalk.Proofs.Tree.Earliest
import Treewalk.Proofs.Tree.Exact
import Treewalk.Proofs.Tree.Extent
import Treewalk.Proofs.Tree.RoundTrip
import Treewalk.Proofs.Value.Arithmetic
import Treewalk.Proofs.Value.Comparison
import Treewalk.Proofs.Command.Drive
import Treewalk.Proofs.Command.Semicolon
import Treewalk.Proofs.Session.Founded
