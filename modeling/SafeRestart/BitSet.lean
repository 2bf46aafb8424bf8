import SafeRestart.Ident

/-!
# Bit sets

A set of numbers with a fixed capacity.  Room is reserved in words of 64 bits, so a set of
capacity 70 has room for 128 members.  Single members are only added below the capacity, while
`union` and `difference` work on the whole room: the union with a larger set can bring in members
between the capacity and the end of the room.  Such members are listed and counted, but
`contains` denies them.
-/

namespace SafeRestart

structure BitSet where
  capacity : Nat
  bits : Nat
deriving DecidableEq

namespace BitSet

def empty (capacity : Nat) : BitSet := ⟨capacity, 0⟩

/-- The number of bits reserved: the capacity rounded up to whole words. -/
def room (s : BitSet) : Nat := (s.capacity + 63) / 64 * 64

/-!
# Looking at a set
-/

def members (s : BitSet) : List Nat := (List.range s.room).filter s.bits.testBit

def count (s : BitSet) : Nat := s.members.length

def isEmpty (s : BitSet) : Bool := s.bits == 0

def contains (s : BitSet) (i : Nat) : Bool := i < s.capacity && s.bits.testBit i

def text (s : BitSet) : String :=
  "\x7b" ++ String.intercalate ", " (s.members.map toString) ++ "\x7d"

/-!
# Changing a set

An operation that can leave the set as it was also answers whether it changed it.
-/

def insert (s : BitSet) (i : Nat) : Except Fault (BitSet × Bool) :=
  if i < s.capacity then
    .ok (⟨s.capacity, s.bits ||| 1 <<< i⟩, !s.bits.testBit i)
  else
    .error (.bitOutOfRange i s.capacity)

def remove (s : BitSet) (i : Nat) : BitSet × Bool :=
  if s.contains i then (⟨s.capacity, s.bits ^^^ 1 <<< i⟩, true) else (s, false)

def clear (s : BitSet) : BitSet := empty s.capacity

/-- Adds the members of `t` for which there is room. -/
def union (s t : BitSet) : BitSet × Bool :=
  let merged := s.bits ||| t.bits % (1 <<< s.room)
  (⟨s.capacity, merged⟩, merged != s.bits)

def difference (s t : BitSet) : BitSet := ⟨s.capacity, s.bits ^^^ (s.bits &&& t.bits)⟩

/-- The set of the given members; those at or above the capacity are left out. -/
def ofMembers (capacity : Nat) (members : List Nat) : BitSet :=
  ⟨capacity, (members.filter (· < capacity)).foldl (fun bits i => bits ||| 1 <<< i) 0⟩

end BitSet
end SafeRestart
