import BeaconChain.Root
import BeaconChain.Table

/-!
# State stores

A state store keeps finalized states under their roots.  Its operations may fail
with a message, and a failed one may have changed what the store holds.  Two stores
are given: one keeps the states as they are, the other packs them into bytes and
unpacks them again whenever they are asked for.
-/

namespace BeaconChain

/-- The operations of a store that holds `contents`. -/
structure StateStore (contents State : Type) where
  store : Root → State → contents → Except String Unit × contents
  get : Root → contents → Except String (Option State)
  remove : Root → contents → Except String Unit × contents

namespace StateStore

variable {State : Type}

/-- The store that keeps states as they are. -/
def memory : StateStore (Table Root State) State where
  store root state contents := (.ok (), contents.insert root state)
  get root contents := .ok (contents.find? root)
  remove root contents := (.ok (), contents.erase root)

end StateStore

/-- A way to write states as bytes and to read them back. -/
structure Codec (State : Type) where
  pack : State → Except String (List UInt8)
  unpack : List UInt8 → Except String State

namespace StateStore

variable {State : Type}

/-- The store that keeps packed states. -/
def packed (codec : Codec State) : StateStore (Table Root (List UInt8)) State where
  store root state contents :=
    match codec.pack state with
    | .error message => (.error message, contents)
    | .ok bytes => (.ok (), contents.insert root bytes)
  get root contents :=
    match contents.find? root with
    | none => .ok none
    | some bytes => (codec.unpack bytes).map some
  remove root contents := (.ok (), contents.erase root)

def packedSize (contents : Table Root (List UInt8)) : Nat :=
  contents.values.foldl (fun size bytes => size + bytes.length) 0

theorem get_memory_insert_self (contents : Table Root State) (root : Root) (state : State) :
    memory.get root (contents.insert root state) = .ok (some state) := by
  simp [memory]

end StateStore

end BeaconChain
