import KvRaft.Lib.Bytes

/-! # Commands and snapshots of the browser learner (`web-app/src/fsm.rs`)

The learner's reading of raft log entries and snapshot streams. `usize` has 32 bits in the browser,
its additions wrap, and a slice with its end before its start or beyond the buffer panics. -/

namespace KvRaft.Web

open Bytes

/-! ## Rust -/

/-- A returned error, or a panic, which stops the module. -/
inductive Fault (ε : Type)
  | err (e : ε)
  | panic
deriving DecidableEq, Repr

/-- What the code is compiled for; a length of 32 bits is a `usize`. -/
class Target where
  pointerWidth : Nat
  le_pointerWidth : 32 ≤ pointerWidth

/-- The browser, where nothing else is said. -/
instance wasm32 : Target where
  pointerWidth := 32
  le_pointerWidth := le_refl _

theorem Target.le_two_pow [Target] : 2 ^ 32 ≤ 2 ^ pointerWidth :=
  Nat.pow_le_pow_right Nat.two_pos le_pointerWidth

def usizeAdd [Target] (a b : Nat) : Nat := (a + b) % 2 ^ Target.pointerWidth

def slice {ε : Type} (data : Bytes) (start stop : Nat) : Except (Fault ε) Bytes :=
  if start ≤ stop ∧ stop ≤ data.length then .ok ((data.take stop).drop start) else .error .panic

/-! ## Commands -/

inductive Op
  | set
  | del
deriving DecidableEq, Repr

def Op.fromByte (b : UInt8) : Option Op :=
  if b = 1 then some .set else if b = 2 then some .del else none

structure Command where
  op : Op
  key : Bytes
  value : Bytes
deriving DecidableEq, Repr

inductive FsmError
  | commandTooShort
  | unknownOp
  | truncatedKey
  | missingValueLength
  | truncatedValue
  | truncatedSnapshotKeyLength
  | truncatedSnapshotKey
  | truncatedSnapshotValueLength
  | truncatedSnapshotValue
deriving DecidableEq, Repr

def decodeCommand (data : Bytes) : Except (Fault FsmError) Command :=
  if data.length < 5 then .error (.err .commandTooShort)
  else
    match data.head?.bind Op.fromByte with
    | none => .error (.err .unknownOp)
    | some op => do
      let klen := beNat (← slice data 1 5)
      let off := 5
      if data.length < usizeAdd off klen then throw (.err .truncatedKey)
      else do
        let key ← slice data off (usizeAdd off klen)
        let off := usizeAdd off klen
        if data.length < usizeAdd off 4 then throw (.err .missingValueLength)
        else do
          let vlen := beNat (← slice data off (usizeAdd off 4))
          let off := usizeAdd off 4
          if data.length < usizeAdd off vlen then throw (.err .truncatedValue)
          else do
            let value ← slice data off (usizeAdd off vlen)
            return ⟨op, key, value⟩

/-! ## Snapshots -/

/-- The loop. Each entry takes eight bytes at least, so `fuel` only has to exceed the length. -/
def snapshotEntries : Nat → Bytes → Except FsmError (List (Bytes × Bytes))
  | 0, _ => .ok []
  | fuel + 1, data =>
    if data = [] then .ok []
    else
      match readNat 4 data with
      | none => .error .truncatedSnapshotKeyLength
      | some (klen, data) =>
        match readBytes klen data with
        | none => .error .truncatedSnapshotKey
        | some (key, data) =>
          match readNat 4 data with
          | none => .error .truncatedSnapshotValueLength
          | some (vlen, data) =>
            match readBytes vlen data with
            | none => .error .truncatedSnapshotValue
            | some (value, data) => (snapshotEntries fuel data).map ((key, value) :: ·)

def decodeSnapshotEntries (data : Bytes) : Except FsmError (List (Bytes × Bytes)) :=
  snapshotEntries (data.length + 1) data

end KvRaft.Web
