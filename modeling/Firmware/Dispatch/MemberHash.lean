import Firmware.Failure

/-!
# Hash of interface members

Interface members are found at run time by a multiplicative hash of their id: the product with the
multiplier, shifted right by the multiplier's low byte, is the first slot to look at, and the
member is in one of three slots from there. A multiplier is built from one of fifty primes; of the
primes that place all ids in the smallest table, the one with the fewest collisions is taken.
-/

namespace Firmware

/-- A table that holds each member id in one of three slots from its hashed one; zero marks a free
slot. -/
structure MemberHash where
  multiplier : UInt32
  slots : Array UInt16
  /-- The number of hashed slots, a power of two. -/
  size : Nat
deriving DecidableEq, Repr

namespace MemberHash

/-- How many slots are looked at for an id. -/
def probes : Nat := 3

def largestSize : Nat := 0x10000

/-- The candidates for multipliers. -/
def primes : List UInt32 :=
  [21078089, 22513679, 15655169, 18636881, 19658081, 21486649, 21919277, 20041213, 20548751,
   16180187, 18361627, 19338023, 19772677, 16506547, 23530697, 22998697, 21225203, 19815283,
   23679599, 19822889, 21136133, 19540043, 21837031, 18095489, 23924267, 23434627, 22582379,
   21584111, 22615171, 23403001, 19640683, 19998031, 18460439, 20105387, 17595791, 16482043,
   23199959, 18881641, 21578371, 22765747, 20170273, 16547639, 16434589, 21435019, 20226751,
   19506731, 21454393, 23224541, 23431973, 23745511]

/-- The shift that a multiplier holds in its low byte. -/
def shiftOf (multiplier : UInt32) : UInt32 := multiplier &&& 0xff

/-- The first slot to look at for an id. -/
def bucket (multiplier id : UInt32) : Nat :=
  (shiftRight32 (id * multiplier) (shiftOf multiplier).toNat).toNat

def shift (h : MemberHash) : UInt32 := shiftOf h.multiplier

/-- The slot that holds an id, looking where the runtime looks. -/
def lookup (h : MemberHash) (id : Int) : Option Nat :=
  let k := bucket h.multiplier (UInt32.ofInt id)
  ((List.range probes).map (k + ·)).find? fun i =>
    match h.slots[i]? with
    | some stored => (stored.toNat : Int) == id
    | none => false

/-! ## Placement -/

def freeProbe (slots : Array UInt16) (k : Nat) : Option Nat :=
  (List.range probes).find? fun l => slots[k + l]? == some 0

/-- Puts the ids into the slots, one after the other, and adds up how many taken slots were
passed. Fails when an id finds none of its slots free. -/
def place (multiplier : UInt32) : List UInt16 → Array UInt16 → Nat → Option (Array UInt16 × Nat)
  | [], slots, collisions => some (slots, collisions)
  | id :: rest, slots, collisions =>
    let k := bucket multiplier id.toUInt32
    match freeProbe slots k with
    | some l => place multiplier rest (slots.setIfInBounds (k + l) id) (collisions + l)
    | none => none

/-- The multiplier of a prime for tables of `2 ^ (32 - shift)` slots. -/
def multiplierOf (prime : UInt32) (shift : Nat) : UInt32 := (prime <<< 8) ||| shift.toUInt32

structure Candidate where
  hash : MemberHash
  collisions : Nat

/-- The placement by a prime in a table of the given size. -/
def candidate (ids : List UInt16) (size shift : Nat) (prime : UInt32) : Option Candidate :=
  let multiplier := multiplierOf prime shift
  match place multiplier ids (Array.replicate (size + probes + 1) 0) 0 with
  | some (slots, collisions) => some ⟨⟨multiplier, slots, size⟩, collisions⟩
  | none => none

/-- The one with fewer collisions, the first of two that are equal. -/
def better (best : Option Candidate) (next : Option Candidate) : Option Candidate :=
  match best, next with
  | some b, some n => if n.collisions < b.collisions then some n else some b
  | none, n => n
  | b, none => b

/-- The best placement in a table of `2 ^ bits` slots. -/
def bestOfSize (ids : List UInt16) (bits : Nat) : Option MemberHash :=
  let size := 1 <<< bits
  if size < ids.length then none
  else
    (primes.foldl (fun best prime => better best (candidate ids size (32 - bits) prime)) none).map
      (·.hash)

/-! ## Search -/

def inRange (id : Int) : Bool := 0 < id && id ≤ 0xffff

/-- Checks that all ids can be stored and none is repeated; `seen` marks the ids so far. -/
def checkIds : List Int → Array Bool → Except Failure Unit
  | [], _ => .ok ()
  | id :: rest, seen =>
    if !inRange id then .error (.memberIdOutOfRange id)
    else if seen.getD id.toNat false then .error (.memberIdRepeated id)
    else checkIds rest (seen.setIfInBounds id.toNat true)

/-- The numbers of bits of the table sizes, in the order they are tried. -/
def sizes : List Nat := (List.range 16).map (· + 1)

/-- The hash of a list of member ids: the smallest table in which some prime places all of
them, and the first prime with the fewest collisions there. -/
def compute (ids : List Int) : Except Failure MemberHash := do
  checkIds ids (Array.replicate (largestSize + 1) false)
  let stored := ids.map fun id => id.toNat.toUInt16
  match sizes.findSome? (bestOfSize stored) with
  | some h => return h
  | none => throw (.noMemberHash ids.length largestSize)

end MemberHash
end Firmware
