import Mathlib.Tactic.Linarith
import NctuCourses.Lib.Cint

namespace NctuCourses.FpGrowth

open NctuCourses.Lib

/-- A node; the pointers are places in the heap. -/
structure FPNode where
  item : Int
  frequency : Int
  parent : Option Nat
  children : List Nat
  next : Option Nat
  deriving DecidableEq

/-- A tree, with the heap that holds its nodes. -/
structure FPTree where
  nodes : List FPNode
  root : Nat
  header : Std.TreeMap Int Nat

namespace FPTree

/-- The constructor. The root has the frequency that `FPNode` defaults to. -/
def empty : FPTree := ⟨[⟨-1, 1, none, [], none⟩], 0, ∅⟩

def modify (t : FPTree) (i : Nat) (f : FPNode → FPNode) : FPTree :=
  { t with nodes := t.nodes.modify i f }

def hasItem (t : FPTree) (item : Int) (i : Nat) : Bool := (t.nodes[i]?).any fun n => n.item == item

/-- The walk to the end of the list of nodes for one item. -/
def lastNode (t : FPTree) : Nat → Nat → Option Nat
  | 0, _ => none
  | fuel + 1, i =>
    (t.nodes[i]?).bind fun n =>
      match n.next with
      | none => some i
      | some j => lastNode t fuel j

/-- The new node at place `node` is linked from the header or from the last node of its item. -/
def linkNode (fuel : Nat) (t : FPTree) (item : Int) (node : Nat) : Option FPTree :=
  match t.header[item]? with
  | some first =>
    (t.lastNode fuel first).map fun last => t.modify last fun n => { n with next := some node }
  | none => some { t with header := t.header.insertIfNew item node }

def pushNode (t : FPTree) (n : FPNode) : FPTree := { t with nodes := t.nodes ++ [n] }

/-- One round of the loop of `InsertNodes`; the state is the tree and `current_node`. -/
def insertNode (fuel : Nat) (rep : Int) : FPTree × Nat → Int → Option (FPTree × Nat)
  | (t, current), item =>
    (t.nodes[current]?).bind fun n =>
      match n.children.find? (t.hasItem item) with
      | none =>
        let node := t.nodes.length
        ((t.pushNode ⟨item, rep, some current, [], none⟩).linkNode fuel item node).map fun t =>
          (t.modify current fun n => { n with children := n.children ++ [node] }, node)
      | some pos => some (t.modify pos fun n => { n with frequency := n.frequency + rep }, pos)

/-- `trans` is read from its end. -/
def insertNodes (fuel : Nat) (trans : List Int) (rep : Int) (t : FPTree) : Option FPTree :=
  (trans.reverse.foldlM (insertNode fuel rep) (t, t.root)).map (·.1)

def frequencyAt (t : FPTree) (i : Nat) : Int := (t.nodes[i]?).elim 0 (·.frequency)

/-- A round whose counter is an `int`: the frequency that it leaves in the
new `current_node` has to fit. -/
def insertNodeInt (fuel : Nat) (rep : Int) (st : FPTree × Nat) (item : Int) :
    Option (FPTree × Nat) :=
  (insertNode fuel rep st item).bind fun st => (cint (st.1.frequencyAt st.2)).map fun _ => st

/-- `InsertNodes` with the `int`s of the source. -/
def insertNodesInt (fuel : Nat) (trans : List Int) (rep : Int) (t : FPTree) : Option FPTree :=
  (trans.reverse.foldlM (insertNodeInt fuel rep) (t, t.root)).map (·.1)

end FPTree

end NctuCourses.FpGrowth
