/-! The order in which a hashed set lists its members. A member takes the first free slot from the one
that its digest points to, wrapping around. At most seven eighths of the slots are taken: a table that
is full first moves its members, in the order of their slots, to one with twice as many. -/
namespace Patchwork.Slots

variable {α : Type} [DecidableEq α]

structure Table (α : Type) where
  slots : Array (Option α)
  taken : Nat
deriving DecidableEq, Inhabited

def sizeFor (n : Nat) : Nat :=
  if n < 4 then 4 else if n < 8 then 8 else 1 <<< ((n * 8 / 7 - 1).log2 + 1)

def capacity (size : Nat) : Nat := if size ≤ 8 then size - 1 else size / 8 * 7

def vacant (size : Nat) : Table α := ⟨Array.replicate size none, 0⟩

def empty : Table α := vacant (sizeFor 0)

def members (t : Table α) : List α := t.slots.toList.filterMap id

/-- The slot that a member's digest points to. -/
def home (digest : α → UInt64) (t : Table α) (x : α) : Nat := (digest x).toNat % t.slots.size

/-- The first slot from `i` on, wrapping around, that is as wanted; one of the next `tries`. -/
def firstFrom (wanted : Option α → Bool) (t : Table α) : (tries : Nat) → (i : Nat) → Nat
  | 0, i => i
  | tries + 1, i =>
      if wanted t.slots[i]?.join then i
      else firstFrom wanted t tries (if i + 1 < t.slots.size then i + 1 else 0)

def place (digest : α → UInt64) (t : Table α) (x : α) : Table α :=
  let slot := firstFrom Option.isNone t t.slots.size (home digest t x)
  ⟨t.slots.setIfInBounds slot (some x), t.taken + 1⟩

/-- The table itself if one more member fits, or else a larger one. -/
def withRoom (digest : α → UInt64) (t : Table α) : Table α :=
  if t.taken < capacity t.slots.size then t
  else (members t).foldl (place digest) (vacant (sizeFor (t.taken + 1)))

def add (digest : α → UInt64) (t : Table α) (x : α) : Table α :=
  let roomy := withRoom digest t
  if roomy.slots.contains (some x) then roomy else place digest roomy x

def filter (keep : α → Bool) (t : Table α) : Table α :=
  let slots := t.slots.map (Option.filter keep)
  ⟨slots, slots.toList.countP Option.isSome⟩

/-- The table of members, each listed once, that were added in order to a table for `reserved`. -/
def ofMembers (digest : α → UInt64) (reserved : Nat) (xs : List α) : Table α :=
  xs.foldl (fun t x => place digest (withRoom digest t) x) (vacant (sizeFor reserved))

def slotOf (digest : α → UInt64) (t : Table α) (x : α) : Nat :=
  firstFrom (· == some x) t t.slots.size (home digest t x)

def sortBy (digest : α → UInt64) (t : Table α) (key : β → α) (items : List β) : List β :=
  ((items.map fun item => (slotOf digest t (key item), item)).mergeSort fun a b => a.1 ≤ b.1).map
    Prod.snd

theorem sortBy_perm (digest : α → UInt64) (t : Table α) (key : β → α) (items : List β) :
    (sortBy digest t key items).Perm items := by
  have perm := (List.mergeSort_perm (items.map fun item => (slotOf digest t (key item), item))
    fun a b => a.1 ≤ b.1).map Prod.snd
  simpa only [sortBy, List.map_map, Function.comp_def, List.map_id'] using perm

theorem mem_sortBy {digest : α → UInt64} {t : Table α} {key : β → α} {items : List β} {x : β} :
    x ∈ sortBy digest t key items ↔ x ∈ items := (sortBy_perm digest t key items).mem_iff

end Patchwork.Slots
