import Std.Data.HashMap
import Std.Data.HashSet
import PickledModel.Value.Equality

/-!
# Distinct keys

Dicts and sets grow without a look at what they hold and are made distinct when
they are used. The first of equal keys keeps its place and the last of their
values is kept. Leaves other than floats are found by an index, other keys by a
search for an equal one.
-/

set_option autoImplicit false

namespace PickledModel

/-- The leaf of a key that an index can find: equality of such leaves is identity. -/
def Value.indexKey? : Value → Option Leaf
  | .leaf (.float _) => .none
  | .leaf l => some l
  | _ => .none

/-- A search for first occurrences: the keys gone through, where the indexed ones stand
first, and the slot of each key, the place of the first one that equals it. -/
structure SlotSearch where
  before : Array Value
  index : Std.HashMap Leaf Nat
  slots : Array Nat

namespace SlotSearch

def empty : SlotSearch := ⟨#[], ∅, #[]⟩

def next (s : SlotSearch) (key : Value) : SlotSearch :=
  let i := s.before.size
  match key.indexKey? with
  | some l => ⟨s.before.push key, s.index.insertIfNew l i, s.slots.push (s.index.getD l i)⟩
  | none =>
    let slot := (s.before.findIdx? fun k => k.equal key).getD i
    ⟨s.before.push key, s.index, s.slots.push slot⟩

end SlotSearch

/-- A search for items to keep: the items gone through, the indexed ones among them, and
for each item whether it equals none before it. -/
structure ItemSearch where
  before : Array Value
  seen : Std.HashSet Leaf
  keep : Array Bool

namespace ItemSearch

def empty : ItemSearch := ⟨#[], ∅, #[]⟩

def next (s : ItemSearch) (item : Value) : ItemSearch :=
  match item.indexKey? with
  | some l => ⟨s.before.push item, s.seen.insert l, s.keep.push (!s.seen.contains l)⟩
  | none => ⟨s.before.push item, s.seen, s.keep.push (!s.before.any fun v => v.equal item)⟩

end ItemSearch

namespace Value

def fillSlot (out : Array (Option (Value × Value))) (e : (Value × Value) × Nat) :
    Array (Option (Value × Value)) :=
  if e.2 = out.size then out.push (some e.1)
  else (out.push .none).modify e.2 (Option.map fun row => (row.1, e.1.2))

/-- Slots are sought for all keys first; if each is its own, nothing has to be done. -/
def distinctEntries (entries : List (Value × Value)) : List (Value × Value) :=
  let slots := ((entries.map Prod.fst).foldl SlotSearch.next .empty).slots.toList
  if slots = List.range entries.length then entries
  else ((entries.zip slots).foldl fillSlot #[]).toList.filterMap id

def distinctItems (items : List Value) : List Value :=
  let keep := (items.foldl ItemSearch.next .empty).keep.toList
  (items.zip keep).filterMap fun (v, keep) => if keep then some v else .none

def normalize : Value → Value
  | .dict entries => .dict (distinctEntries entries)
  | .set items => .set (distinctItems items)
  | .frozenSet items => .frozenSet (distinctItems items)
  | v => v

end Value

end PickledModel
