import Mathlib.Data.Finset.Sort
import Mathlib.Data.List.Lex
import Mathlib.Data.Prod.Lex
import NctuCourses.FpGrowth.Tree

namespace NctuCourses.FpGrowth

/-- The order of the item sets in the result: by size, then as sorted sequences. -/
def comp (s₁ s₂ : Finset Int) : Bool :=
  if s₁.card ≠ s₂.card then s₁.card < s₂.card else s₁.sort < s₂.sort

/-- What `comp` compares. -/
def PatternKey : Type := ℕ ×ₗ List Int

instance : LinearOrder PatternKey := inferInstanceAs (LinearOrder (ℕ ×ₗ List Int))

def patternKey (s : Finset Int) : PatternKey := toLex (s.card, s.sort)

/-- How `std::map` uses it. -/
def patternCmp (s₁ s₂ : Finset Int) : Ordering :=
  if comp s₁ s₂ then .lt else if comp s₂ s₁ then .gt else .eq

/-- Item sets with their frequencies. -/
abbrev Patterns := Std.TreeMap (Finset Int) Int patternCmp

structure FPgrowth where
  minSupport : Rat
  minSupportCount : Int
  totalTransactions : Int
  itemFrequency : Std.TreeMap Int Int

/-- `if (count) at += rep else insert`. -/
def tally (rep : Int) (m : Std.TreeMap Int Int) (item : Int) : Std.TreeMap Int Int :=
  match m[item]? with
  | some n => m.insert item (n + rep)
  | none => m.insertIfNew item rep

namespace FPgrowth

def countItemFrequency (fp : FPgrowth) (trans : List Int) : FPgrowth :=
  { fp with
    itemFrequency := trans.foldl (tally 1) fp.itemFrequency
    totalTransactions := fp.totalTransactions + 1 }

/-- The constructor. `min_support_count_` has no value before `CalculateMinSupportCount`. -/
def new (minSupport : Rat) : FPgrowth := ⟨minSupport, 0, 0, ∅⟩

/-- The conversion to `int` drops the fraction. -/
def truncate (q : Rat) : Int := q.num.tdiv q.den

def calculateMinSupportCount (fp : FPgrowth) : FPgrowth :=
  { fp with minSupportCount := truncate (fp.minSupport * fp.totalTransactions) }

/-- The order that `SortAndTrimTransaction` sorts by. -/
def before (fp : FPgrowth) (x y : Int) : Bool :=
  if fp.itemFrequency.getD x 0 = fp.itemFrequency.getD y 0 then x < y
  else fp.itemFrequency.getD x 0 < fp.itemFrequency.getD y 0

/-- `at` throws for an item that has not been counted. -/
def sortAndTrimTransaction (fp : FPgrowth) (trans : List Int) : Option (List Int) :=
  if trans.all fp.itemFrequency.contains then
    some ((trans.mergeSort fun x y => !fp.before y x).dropWhile fun x =>
      fp.itemFrequency.getD x 0 < fp.minSupportCount)
  else none

end FPgrowth

/-- What the walk along the nodes of one item gathers. -/
structure Conditional where
  transactions : List (List Int × Int)
  frequency : Std.TreeMap Int Int
  oneItemFrequency : Int

namespace FPTree

def isSinglePathFrom (t : FPTree) : Nat → Nat → Option Bool
  | 0, _ => none
  | fuel + 1, cur =>
    (t.nodes[cur]?).bind fun n =>
      match n.children with
      | [] => some true
      | [child] => isSinglePathFrom t fuel child
      | _ :: _ :: _ => some false

def isSinglePath (fuel : Nat) (t : FPTree) : Option Bool := t.isSinglePathFrom fuel t.root

/-- The entry that an iterator comes to after the one for `s`. -/
def after (m : Patterns) (s : Finset Int) : Option (Finset Int × Int) :=
  m.toList.find? fun e => comp s e.1

/-- The loop over the patterns found so far, which inserts into what it iterates over; the last
argument is the iterator. -/
def addItem (item frequency : Int) : Nat → Patterns → Option (Finset Int × Int) → Option Patterns
  | 0, _, _ => none
  | _ + 1, m, none => some m
  | fuel + 1, m, some elem =>
    let m := if elem.1 ≠ {item} then m.insertIfNew (insert item elem.1) frequency else m
    addItem item frequency fuel m (after m elem.1)

/-- The patterns of a tree that is a single path, from `cur` down. -/
def pathPatterns (t : FPTree) : Nat → Nat → Patterns → Option Patterns
  | 0, _, _ => none
  | fuel + 1, cur, m =>
    (t.nodes[cur]?).bind fun n =>
      match n.children with
      | [] => some m
      | child :: _ =>
        (t.nodes[child]?).bind fun c =>
          let m := m.insertIfNew {c.item} c.frequency
          (addItem c.item c.frequency fuel m m.toList.head?).bind (pathPatterns t fuel child)

/-- The walk up to the root: the items passed, and their frequencies. -/
def climb (t : FPTree) (frequency : Int) :
    Nat → Option Nat → List Int → Std.TreeMap Int Int → Option (List Int × Std.TreeMap Int Int)
  | 0, _, _, _ => none
  | fuel + 1, cur, items, counts =>
    (cur.bind (t.nodes[·]?)).bind fun n =>
      if n.item = -1 then some (items, counts)
      else climb t frequency fuel n.parent (items ++ [n.item]) (tally frequency counts n.item)

/-- The walk along the nodes of one item. -/
def collect (t : FPTree) : Nat → Option Nat → Conditional → Option Conditional
  | 0, _, _ => none
  | _ + 1, none, c => some c
  | fuel + 1, some cur, c =>
    (t.nodes[cur]?).bind fun n =>
      (t.climb n.frequency fuel n.parent [] c.frequency).bind fun (items, counts) =>
        collect t fuel n.next
          { transactions :=
              if items.isEmpty then c.transactions else c.transactions ++ [(items, n.frequency)]
            frequency := counts
            oneItemFrequency := c.oneItemFrequency + n.frequency }

end FPTree

namespace Conditional

/-- `copy_if` with `at`, which throws for an item that is not there. -/
def keep (c : Conditional) (minSupportCount : Int) (items : List Int) : Option (List Int) :=
  if items.all c.frequency.contains then
    some (items.filter fun x => minSupportCount ≤ c.frequency.getD x 0)
  else none

def tree (fuel : Nat) (c : Conditional) (minSupportCount : Int) : Option FPTree :=
  c.transactions.foldlM
    (fun t tran => (c.keep minSupportCount tran.1).bind fun tmp => t.insertNodes fuel tmp tran.2)
    FPTree.empty

end Conditional

/-- The patterns of a conditional tree, with `item` added to each. -/
def addPatterns (item oneItemFrequency : Int) (m pattern : Patterns) : Patterns :=
  (pattern.toList.foldl (fun m e => m.insertIfNew (insert item e.1) e.2) m).insertIfNew {item}
    oneItemFrequency

/-- The loop over the header; `find` is for the conditional trees. -/
def FPTree.headerPatterns (fuel : Nat) (minSupportCount : Int) (find : FPTree → Option Patterns)
    (t : FPTree) : Option Patterns :=
  t.header.toList.foldlM
    (fun m elem =>
      (t.collect fuel (some elem.2) ⟨[], ∅, 0⟩).bind fun c =>
        (c.tree fuel minSupportCount).bind fun conditional =>
          (find conditional).map (addPatterns elem.1 c.oneItemFrequency m))
    ∅

def findPattern (minSupportCount : Int) : Nat → FPTree → Option Patterns
  | 0, _ => none
  | fuel + 1, t =>
    (t.isSinglePath fuel).bind fun single =>
      if single then t.pathPatterns fuel t.root ∅
      else t.headerPatterns fuel minSupportCount (findPattern minSupportCount fuel)

/-- The two passes over the transactions, and the search. -/
def FPgrowth.mine (fuel : Nat) (fp : FPgrowth) (transactions : List (List Int)) : Option Patterns :=
  let fp := transactions.foldl countItemFrequency fp
  (transactions.foldlM
    (fun t trans => (fp.sortAndTrimTransaction trans).bind fun trans => t.insertNodes fuel trans 1)
    FPTree.empty).bind (findPattern fp.minSupportCount fuel)

/-- What `main` does with the transactions: `min_support_count_` is
calculated between the passes. -/
def FPgrowth.run (fuel : Nat) (minSupport : Rat) (transactions : List (List Int)) :
    Option Patterns :=
  let fp := (transactions.foldl countItemFrequency (new minSupport)).calculateMinSupportCount
  (transactions.foldlM
    (fun t trans => (fp.sortAndTrimTransaction trans).bind fun trans => t.insertNodes fuel trans 1)
    FPTree.empty).bind (findPattern fp.minSupportCount fuel)

end NctuCourses.FpGrowth
