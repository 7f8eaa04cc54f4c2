import Std.Data.TreeMap
import Std.Data.TreeSet
import Treewalk.Tree.Basic

/-!
# What is known about nodes before a run

A `Resolution` files under the number of a variable or assignment the distance to the
scope that declares its name, and notes the calls that go straight to a capability of
the host. It is put together from single findings (`Note`) in the order in which they
are made.
-/

namespace Treewalk

/-- One finding about a node. -/
inductive Note where
  /-- A variable or assignment refers to the scope at this distance. -/
  | distance (id : NodeId) (distance : Nat)
  /-- A call goes to the capability of its name. -/
  | nativeCall (id : NodeId)
deriving DecidableEq

/-- What is known about the nodes of a program. -/
structure Resolution where
  distances : Std.TreeMap NodeId Nat
  nativeCalls : Std.TreeSet NodeId

namespace Resolution

/-- Nothing known. -/
def empty : Resolution :=
  ⟨∅, ∅⟩

/-- Takes in one finding; of two distances of a node the later one stays. -/
def note (resolution : Resolution) : Note → Resolution
  | .distance id distance =>
    { resolution with distances := resolution.distances.insert id distance }
  | .nativeCall id =>
    { resolution with nativeCalls := resolution.nativeCalls.insert id }

/-- Takes in findings in order. -/
def ofNotes (notes : List Note) : Resolution :=
  notes.foldl note empty

/-- Records a distance, unless the node has one. -/
def record (resolution : Resolution) (id : NodeId) (distance : Nat) : Resolution :=
  { resolution with distances := resolution.distances.insertIfNew id distance }

/-- Marks a call as one of a capability. -/
def mark (resolution : Resolution) (id : NodeId) : Resolution :=
  { resolution with nativeCalls := resolution.nativeCalls.insert id }

/-- Adds what another resolution knows; a distance that is there already stays. -/
def merge (resolution other : Resolution) : Resolution where
  distances := other.distances.foldl (fun distances id d => distances.insertIfNew id d)
    resolution.distances
  nativeCalls :=
    other.nativeCalls.foldl (fun calls id => calls.insert id) resolution.nativeCalls

/-- The distance of a node. -/
def distance? (resolution : Resolution) (id : NodeId) : Option Nat :=
  resolution.distances[id]?

/-- Whether a call is one of a capability. -/
def isNativeCall (resolution : Resolution) (id : NodeId) : Bool :=
  resolution.nativeCalls.contains id

end Resolution

end Treewalk
