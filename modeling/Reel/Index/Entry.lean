import Reel.Format.Key

/-!
What the index resolves a key to, and the rows a segment's footer answers with.
-/

set_option autoImplicit false

namespace Reel
open Bytes

structure Loc where
  segment : Nat
  offset : Nat
  len : Nat
  deriving DecidableEq, Repr

/-- One resident entry. No record sits in segment zero, so an entry there is a grave. -/
structure Entry where
  loc : Loc
  lsn : Nat
  deriving DecidableEq, Repr

namespace Entry

def graveFrom (lsn tombstone : Nat) : Entry := ⟨⟨0, tombstone, 0⟩, lsn⟩

def grave (lsn : Nat) : Entry := graveFrom lsn 0

def isGrave (entry : Entry) : Bool := entry.loc.segment == 0

def graveOrigin (entry : Entry) : Option Nat :=
  if entry.isGrave && entry.loc.offset != 0 then some entry.loc.offset else none

@[simp] theorem isGrave_graveFrom (lsn tombstone : Nat) : (graveFrom lsn tombstone).isGrave = true :=
  rfl

@[simp] theorem lsn_graveFrom (lsn tombstone : Nat) : (graveFrom lsn tombstone).lsn = lsn := rfl

end Entry

inductive Kind where
  | data
  | tombstone
  | rangeTombstone
  deriving DecidableEq, Repr

/-- One record of a column as its segment's footer lists it. -/
structure Row where
  key : Str
  lsn : Nat
  offset : Nat
  len : Nat
  kind : Kind
  deriving DecidableEq, Repr

def Row.loc (row : Row) (segment : Nat) : Loc := ⟨segment, row.offset, row.len⟩

def Row.entry (row : Row) (segment : Nat) : Entry :=
  match row.kind with
  | .data => ⟨row.loc segment, row.lsn⟩
  | .tombstone | .rangeTombstone => Entry.grave row.lsn

/-- What a mutation found in the map at its key. -/
inductive Landed where
  | nothing
  | record
  | grave
  | newer
  deriving DecidableEq, Repr

def Landed.mayBePaged (landed : Landed) : Bool := landed == .nothing

end Reel
