import BeaconChain.Reference
import BeaconChain.Json.Value

/-!
# The JSON form of checkpoints, attestations and steps

A checkpoint and the data of an attestation are written as one object without
blanks, their fields in a fixed order; on reading the fields may come in any order.
A step is written as its number.
-/

namespace BeaconChain

open Json

/-- The text between quotes. -/
def Json.quote (content : String) : String := "\"" ++ content ++ "\""

/-- An object with the given fields, whose values are already written. -/
def Json.object (fields : List (String × String)) : String :=
  "\x7b" ++ ",".intercalate (fields.map fun field => quote field.1 ++ ":" ++ field.2) ++ "\x7d"

namespace Checkpoint

/-- The written form. -/
def toJson (checkpoint : Checkpoint) : String :=
  object [("epoch", toString checkpoint.epoch), ("root", quote checkpoint.root.text)]

/-- The checkpoint that a value describes. -/
def ofValue? (source : Value) : Option Checkpoint := do
  match ← source.columns? ["epoch", "root"] with
  | [epoch, root] => return ⟨← epoch.number?, ← Root.ofText? (← root.text?)⟩
  | _ => none

/-- Reads a checkpoint from its JSON form. -/
def ofJson? (source : String) : Option Checkpoint := do
  ofValue? (← Value.ofText? source)

end Checkpoint

namespace AttestationData

/-- The written form. -/
def toJson (data : AttestationData) : String :=
  object
    [("slot", toString data.slot), ("index", toString data.index),
      ("beacon_block_root", quote data.blockRoot.text),
      ("source", data.source.toJson), ("target", data.target.toJson)]

/-- The attestation data that a value describes. -/
def ofValue? (source : Value) : Option AttestationData := do
  match ← source.columns? ["slot", "index", "beacon_block_root", "source", "target"] with
  | [slot, index, blockRoot, source, target] =>
    return {
      slot := ← slot.number?
      index := ← index.number?
      blockRoot := ← Root.ofText? (← blockRoot.text?)
      source := ← Checkpoint.ofValue? source
      target := ← Checkpoint.ofValue? target }
  | _ => none

/-- Reads attestation data from its JSON form. -/
def ofJson? (source : String) : Option AttestationData := do
  ofValue? (← Value.ofText? source)

end AttestationData

namespace Step

/-- The written form. -/
def toJson (step : Step) : String := step.text

/-- Reads a step from its JSON form. -/
def ofJson? (source : String) : Option Step := do
  let value ← Value.ofText? source
  return ⟨← value.number?⟩

end Step

end BeaconChain
