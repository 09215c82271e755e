import Redka.RList.Tx
import Redka.RHash.Tx

/-! # Calls, runs and reachable stores

A client calls the list and hash repositories one method at a time inside
transactions.  `ListCall` and `HashCall` name every method with its arguments; a call
runs at an instant `now`.  The store after a call is the one the method leaves,
whether it returned an error or not: a transaction that goes on after an error and
commits keeps what the failed call did.  `Reachable` is every store a sequence of
allowed calls reaches from the empty database under that discipline; it contains the
stores reached when failed calls are rolled back, since a rolled-back call is the
call that was never made.
-/

namespace Redka

/-- A call of the list repository. -/
inductive ListCall where
  | pushBack (key : String) (elem : Value)
  | pushFront (key : String) (elem : Value)
  | popBack (key : String)
  | popFront (key : String)
  | insertBefore (key : String) (pivot elem : Value)
  | insertAfter (key : String) (pivot elem : Value)
  | set (key : String) (idx : Int) (elem : Value)
  | delete (key : String) (elem : Value)
  | deleteFront (key : String) (elem : Value) (count : Int)
  | deleteBack (key : String) (elem : Value) (count : Int)
  | popBackPushFront (src dest : String)
  | trim (key : String) (start stop : Int)
  | get (key : String) (idx : Int)
  | len (key : String)
  | range (key : String) (start stop : Int)

/-- A call of the hash repository. -/
inductive HashCall where
  | set (key field : String) (value : Value)
  | setMany (key : String) (items : RHash.Items)
  | setNotExists (key field : String) (value : Value)
  | delete (key : String) (fields : List String)
  | incr (key field : String) (delta : Int)
  | incrFloat (key field : String) (delta : Float)
  | get (key field : String)
  | getMany (key : String) (fields : List String)
  | «exists» (key field : String)
  | fields (key : String)
  | values (key : String)
  | items (key : String)
  | len (key : String)

/-- The method a list call runs. -/
def ListCall.tx (d : Dialect) (now : Int) : ListCall → Tx Unit
  | .pushBack k e => (RList.pushBack d k e now).forget
  | .pushFront k e => (RList.pushFront d k e now).forget
  | .popBack k => (RList.popBack d k now).forget
  | .popFront k => (RList.popFront d k now).forget
  | .insertBefore k p e => (RList.insertBefore d k p e now).forget
  | .insertAfter k p e => (RList.insertAfter d k p e now).forget
  | .set k i e => RList.set d k i e now
  | .delete k e => (RList.delete k e now).forget
  | .deleteFront k e n => (RList.deleteFront d k e n now).forget
  | .deleteBack k e n => (RList.deleteBack d k e n now).forget
  | .popBackPushFront src dest => (RList.popBackPushFront d src dest now).forget
  | .trim k a b => (RList.trim d k a b now).forget
  | .get k i => (RList.get d k i now).forget
  | .len k => (RList.len d k now).forget
  | .range k a b => (RList.range d k a b now).forget

/-- The method a hash call runs. -/
def HashCall.tx (d : Dialect) (c : Core) (now : Int) : HashCall → Tx Unit
  | .set k f v => (RHash.set d k f v now).forget
  | .setMany k m => (RHash.setMany d k m now).forget
  | .setNotExists k f v => (RHash.setNotExists d k f v now).forget
  | .delete k fs => (RHash.delete d k fs now).forget
  | .incr k f n => (RHash.incr d c k f n now).forget
  | .incrFloat k f x => (RHash.incrFloat d c k f x now).forget
  | .get k f => (RHash.get d k f now).forget
  | .getMany k fs => (RHash.getMany d k fs now).forget
  | .exists k f => (RHash.exists d k f now).forget
  | .fields k => (RHash.fields d k now).forget
  | .values k => (RHash.values k now).forget
  | .items k => (RHash.items k now).forget
  | .len k => (RHash.len k now).forget

/-- A call of either repository. -/
inductive Call where
  | list (c : ListCall)
  | hash (c : HashCall)

/-- The method a call runs. -/
def Call.tx (d : Dialect) (core : Core) (now : Int) : Call → Tx Unit
  | .list c => c.tx d now
  | .hash c => c.tx d core now

/-- The stores reached from the empty database by calls `allowed` admits, each at an
instant of its own, every call's effect kept. -/
inductive Reachable (d : Dialect) (core : Core) (allowed : Call → Prop) : Store → Prop where
  | empty : Reachable d core allowed Store.empty
  | step {s : Store} (c : Call) (now : Int) :
      allowed c → Reachable d core allowed s →
      Reachable d core allowed ((c.tx d core now).final s)

theorem Reachable.mono {d : Dialect} {core : Core} {a b : Call → Prop} (hab : ∀ c, a c → b c)
    {s : Store} (h : Reachable d core a s) : Reachable d core b s := by
  induction h with
  | empty => exact .empty
  | step c now hc _ ih => exact .step c now (hab c hc) ih

/-- A call of the list repository. -/
def Call.IsList : Call → Prop
  | .list _ => True
  | .hash _ => False

/-- A call of the hash repository. -/
def Call.IsHash : Call → Prop
  | .list _ => False
  | .hash _ => True

/-- Run calls in order from a store, keeping every call's effect. -/
def runCalls (d : Dialect) (core : Core) : Store → List (Call × Int) → Store
  | s, [] => s
  | s, (c, now) :: rest => runCalls d core ((c.tx d core now).final s) rest

theorem runCalls_reachable {d : Dialect} {core : Core} {allowed : Call → Prop} :
    ∀ (s : Store) (l : List (Call × Int)), Reachable d core allowed s →
      (∀ p ∈ l, allowed p.1) → Reachable d core allowed (runCalls d core s l)
  | _, [], hs, _ => hs
  | _, (c, now) :: rest, hs, hl =>
    runCalls_reachable _ rest (.step c now (hl (c, now) (List.mem_cons_self _ _)) hs)
      fun p hp => hl p (List.mem_cons_of_mem _ hp)

/-- Run list calls in order from a store; a list call never reads `core`. -/
def runList (d : Dialect) : Store → List (ListCall × Int) → Store
  | s, [] => s
  | s, (c, now) :: rest => runList d ((c.tx d now).final s) rest

theorem runList_reachable {d : Dialect} {core : Core} :
    ∀ (s : Store) (l : List (ListCall × Int)), Reachable d core Call.IsList s →
      Reachable d core Call.IsList (runList d s l)
  | _, [], hs => hs
  | _, (c, now) :: rest, hs => runList_reachable _ rest (.step (.list c) now trivial hs)

end Redka
