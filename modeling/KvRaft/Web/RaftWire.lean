import KvRaft.Web.Msgpack

/-! # Requests and responses of raft (`web-app/src/raft_wire.rs`)

The types, and the decoders of requests. A decoder is the table of the fields that it knows, each
with what it does to the request, over the loop `readMapFields`. -/

namespace KvRaft.Web

open Bytes Reader

structure RpcHeader where
  protocolVersion : Int64 := 0
  id : Option Bytes := none
  addr : Option Bytes := none
deriving DecidableEq, Repr

/-- The version that the learner's own headers carry. -/
def protocolVersion : Int64 := 3

structure Log where
  index : UInt64 := 0
  term : UInt64 := 0
  logType : UInt8 := 0
  data : Option Bytes := none
  extensions : Option Bytes := none
deriving DecidableEq, Repr

structure AppendEntriesRequest where
  header : RpcHeader := {}
  term : UInt64 := 0
  leader : Option Bytes := none
  prevLogEntry : UInt64 := 0
  prevLogTerm : UInt64 := 0
  entries : List Log := []
  leaderCommitIndex : UInt64 := 0
deriving DecidableEq, Repr

structure AppendEntriesResponse where
  header : RpcHeader
  term : UInt64
  lastLog : UInt64
  success : Bool
  noRetryBackoff : Bool
deriving DecidableEq, Repr

structure RequestVoteRequest where
  header : RpcHeader := {}
  term : UInt64 := 0
  candidate : Option Bytes := none
  lastLogIndex : UInt64 := 0
  lastLogTerm : UInt64 := 0
  leadershipTransfer : Bool := false
deriving DecidableEq, Repr

structure RequestVoteResponse where
  header : RpcHeader
  term : UInt64
  peers : Option Bytes
  granted : Bool
deriving DecidableEq, Repr

structure RequestPreVoteRequest where
  header : RpcHeader := {}
  term : UInt64 := 0
  lastLogIndex : UInt64 := 0
  lastLogTerm : UInt64 := 0
deriving DecidableEq, Repr

structure RequestPreVoteResponse where
  header : RpcHeader
  term : UInt64
  granted : Bool
deriving DecidableEq, Repr

structure InstallSnapshotRequest where
  header : RpcHeader := {}
  snapshotVersion : Int64 := 0
  term : UInt64 := 0
  leader : Option Bytes := none
  lastLogIndex : UInt64 := 0
  lastLogTerm : UInt64 := 0
  peers : Option Bytes := none
  configuration : Option Bytes := none
  configurationIndex : UInt64 := 0
  /-- How many bytes of the snapshot follow. -/
  size : Int64 := 0
deriving DecidableEq, Repr

structure InstallSnapshotResponse where
  header : RpcHeader
  term : UInt64
  success : Bool
deriving DecidableEq, Repr

structure TimeoutNowRequest where
  header : RpcHeader := {}
deriving DecidableEq, Repr

structure TimeoutNowResponse where
  header : RpcHeader
deriving DecidableEq, Repr

/-! ## Decoders -/

inductive RpcType
  | appendEntries
  | requestVote
  | installSnapshot
  | timeoutNow
  | requestPreVote
deriving DecidableEq, Repr

def RpcType.toByte : RpcType → UInt8
  | appendEntries => 0
  | requestVote => 1
  | installSnapshot => 2
  | timeoutNow => 3
  | requestPreVote => 4

def RpcType.fromByte (b : UInt8) : Option RpcType :=
  if b = 0 then some .appendEntries
  else if b = 1 then some .requestVote
  else if b = 2 then some .installSnapshot
  else if b = 3 then some .timeoutNow
  else if b = 4 then some .requestPreVote
  else none

/-- The arms of a `match key`: for each name, what is read and done to the value being built. -/
abbrev Fields (σ : Type) := List (Bytes × (σ → Reader σ))

section

variable [Target] {σ : Type}

/-- One round of the loop. Names are compared as bytes: a lossy conversion to a string yields one of
the (ASCII) names only from the bytes of that name. -/
def readField (fields : Fields σ) (s : σ) : Reader σ := do
  let key ← readRaw
  match fields.lookup key with
  | some read => read s
  | none => do
    skipValue
    return s

def readMapFields (fields : Fields σ) (s : σ) : Reader σ := do
  let n ← readMapHeader
  Scan.iterate (readField fields) n s

end

def logFields : Fields Log := [
  (ascii "Index", fun s => do return { s with index := ← readUint }),
  (ascii "Term", fun s => do return { s with term := ← readUint }),
  (ascii "Type", fun s => do return { s with logType := (← readUint).toUInt8 }),
  (ascii "Data", fun s => do return { s with data := ← readBytesField }),
  (ascii "Extensions", fun s => do return { s with extensions := ← readBytesField }),
  -- read and forgotten
  (ascii "AppendedAt", fun s => do
    let _ ← readRaw
    return s)]

def decodeLog : Reader Log := readMapFields logFields {}

/-- The value of `Entries`; `nil` leaves what is there. -/
def readEntries (s : AppendEntriesRequest) : Reader AppendEntriesRequest := do
  if ← isNil then do
    readNil
    return s
  else do
    let n ← readArrayHeader
    let entries ← Scan.iterate (fun entries => do return entries ++ [← decodeLog]) n []
    return { s with entries }

def appendEntriesFields : Fields AppendEntriesRequest := [
  (ascii "ProtocolVersion", fun s => do return { s with header.protocolVersion := ← readInt }),
  (ascii "ID", fun s => do return { s with header.id := ← readBytesField }),
  (ascii "Addr", fun s => do return { s with header.addr := ← readBytesField }),
  (ascii "Term", fun s => do return { s with term := ← readUint }),
  (ascii "Leader", fun s => do return { s with leader := ← readBytesField }),
  (ascii "PrevLogEntry", fun s => do return { s with prevLogEntry := ← readUint }),
  (ascii "PrevLogTerm", fun s => do return { s with prevLogTerm := ← readUint }),
  (ascii "LeaderCommitIndex", fun s => do return { s with leaderCommitIndex := ← readUint }),
  (ascii "Entries", readEntries)]

def decodeAppendEntriesRequest : Reader AppendEntriesRequest := readMapFields appendEntriesFields {}

def requestVoteFields : Fields RequestVoteRequest := [
  (ascii "ProtocolVersion", fun s => do return { s with header.protocolVersion := ← readInt }),
  (ascii "ID", fun s => do return { s with header.id := ← readBytesField }),
  (ascii "Addr", fun s => do return { s with header.addr := ← readBytesField }),
  (ascii "Term", fun s => do return { s with term := ← readUint }),
  (ascii "Candidate", fun s => do return { s with candidate := ← readBytesField }),
  (ascii "LastLogIndex", fun s => do return { s with lastLogIndex := ← readUint }),
  (ascii "LastLogTerm", fun s => do return { s with lastLogTerm := ← readUint }),
  (ascii "LeadershipTransfer", fun s => do return { s with leadershipTransfer := ← readBool })]

def decodeRequestVoteRequest : Reader RequestVoteRequest := readMapFields requestVoteFields {}

def requestPreVoteFields : Fields RequestPreVoteRequest := [
  (ascii "ProtocolVersion", fun s => do return { s with header.protocolVersion := ← readInt }),
  (ascii "ID", fun s => do return { s with header.id := ← readBytesField }),
  (ascii "Addr", fun s => do return { s with header.addr := ← readBytesField }),
  (ascii "Term", fun s => do return { s with term := ← readUint }),
  (ascii "LastLogIndex", fun s => do return { s with lastLogIndex := ← readUint }),
  (ascii "LastLogTerm", fun s => do return { s with lastLogTerm := ← readUint })]

def decodeRequestPreVoteRequest : Reader RequestPreVoteRequest :=
  readMapFields requestPreVoteFields {}

def installSnapshotFields : Fields InstallSnapshotRequest := [
  (ascii "ProtocolVersion", fun s => do return { s with header.protocolVersion := ← readInt }),
  (ascii "ID", fun s => do return { s with header.id := ← readBytesField }),
  (ascii "Addr", fun s => do return { s with header.addr := ← readBytesField }),
  (ascii "SnapshotVersion", fun s => do return { s with snapshotVersion := ← readInt }),
  (ascii "Term", fun s => do return { s with term := ← readUint }),
  (ascii "Leader", fun s => do return { s with leader := ← readBytesField }),
  (ascii "LastLogIndex", fun s => do return { s with lastLogIndex := ← readUint }),
  (ascii "LastLogTerm", fun s => do return { s with lastLogTerm := ← readUint }),
  (ascii "Peers", fun s => do return { s with peers := ← readBytesField }),
  (ascii "Configuration", fun s => do return { s with configuration := ← readBytesField }),
  (ascii "ConfigurationIndex", fun s => do return { s with configurationIndex := ← readUint }),
  (ascii "Size", fun s => do return { s with size := ← readInt })]

def decodeInstallSnapshotRequest : Reader InstallSnapshotRequest :=
  readMapFields installSnapshotFields {}

def timeoutNowFields : Fields TimeoutNowRequest := [
  (ascii "ProtocolVersion", fun s => do return { s with header.protocolVersion := ← readInt }),
  (ascii "ID", fun s => do return { s with header.id := ← readBytesField }),
  (ascii "Addr", fun s => do return { s with header.addr := ← readBytesField })]

def decodeTimeoutNowRequest : Reader TimeoutNowRequest := readMapFields timeoutNowFields {}

end KvRaft.Web
