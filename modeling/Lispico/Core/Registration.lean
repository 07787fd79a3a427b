import Mathlib

/-!
# The journal of a registration

A registration writes through a view and can be taken back. Its journal has for each key the
binding before, the cell of its last write and the version that write left; a write by anyone
else shows as another cell or version. A key says its namespace, and a cell is named by its
place among those made for its key.
-/

namespace Lispico

namespace Core

structure RegistrationKey where
  name : String
  fn : Bool
deriving DecidableEq, Repr

structure Cell (V : Type) where
  v : Option V
  canonical : Bool
  version : Nat
  retainedMeter : Option Nat
  retainedBytes : Int
deriving DecidableEq

structure RegistrationEntry (V : Type) where
  prior : Option Nat
  v : Option V
  canonical : Bool
  last : Option Nat
  lastVer : Nat
  bytes : Int
  slots : Int

structure Registration (V : Type) where
  id : Nat
  entries : AList fun _ : RegistrationKey => RegistrationEntry V

namespace Registration

section

variable {V : Type}

/-- The cell is the operation's last write to its key, at the version of that write. -/
def owns (ent : RegistrationEntry V) (i : Nat) (cell : Cell V) : Bool :=
  ent.last == some i && cell.version == ent.lastVer

/-- `record`: keep the binding before the operation's first write to the key, or before
its first write after a foreign one. -/
def record (r : Registration V) (key : RegistrationKey) (cur : Option (Nat × Cell V)) :
    Registration V :=
  let before (ent : RegistrationEntry V) : RegistrationEntry V :=
    { ent with
      prior := cur.map Prod.fst
      v := cur.bind fun c => c.2.v
      canonical := (cur.map fun c => c.2.canonical).getD false }
  match r.entries.lookup key with
  | some ent =>
    if cur.any fun c => owns ent c.1 c.2 then r
    else { r with entries := r.entries.insert key (before ent) }
  | none => { r with entries := r.entries.insert key (before ⟨none, none, false, none, 0, 0, 0⟩) }

/-- `afterWrite`: mark the cell as the last write, with the capacity the write reserved. -/
def afterWrite (r : Registration V) (key : RegistrationKey) (i ver : Nat)
    (reservedBytes reservedSlots : Int) : Registration V :=
  match r.entries.lookup key with
  | none => r
  | some ent =>
    let ent := { ent with last := some i, lastVer := ver }
    let ent := if reservedBytes ≠ 0 ∨ reservedSlots ≠ 0 then
      { ent with bytes := reservedBytes, slots := reservedSlots } else ent
    { r with entries := r.entries.insert key ent }

/-- `pins`; without a registration nothing is pinned. -/
def pins (r : Option (Registration V)) (key : RegistrationKey) (i : Nat) (cell : Cell V) : Bool :=
  (r.bind fun r => r.entries.lookup key).any fun ent => owns ent i cell

end

end Registration

end Core

end Lispico
