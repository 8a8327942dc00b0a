import KvRaft.Lib.Effect
import KvRaft.Lib.OrdMap
import KvRaft.Lib.Word
import KvRaft.Web.Fsm

/-! # The learner's database (`web-app/src/sqlite_store.rs`)

The tables `kv`, `raft_log` and `raft_state` of one SQLite connection. Indexes and terms are `u64`
in the code and signed 64-bit integers in the tables, so the log is ordered and cut by its signed
indexes. The statements themselves do not fail, except for a second row under a primary key and a
`BEGIN` within a transaction; no `ROLLBACK` is ever issued. -/

namespace KvRaft.Web

open Bytes

structure SqliteStore where
  kv : OrdMap Bytes Bytes := .empty
  /-- Term and data under the signed index. -/
  raftLog : OrdMap Int (UInt64 × Bytes) := .empty
  currentTerm : UInt64 := 0
  lastIncludedIndex : UInt64 := 0
  lastIncludedTerm : UInt64 := 0
  commitIndex : UInt64 := 0
  lastApplied : UInt64 := 0
  votedFor : Option Bytes := none
  /-- A transaction is open on the connection. -/
  inTransaction : Bool := false
deriving DecidableEq

inductive StoreError
  /-- `step: unexpected code` -/
  | step (rc : Nat)
  /-- `cannot start a transaction within a transaction` -/
  | nestedTransaction
deriving DecidableEq, Repr

abbrev Db := EStateM (Fault StoreError) SqliteStore

namespace SqliteStore

/-! ## The `kv` table -/

def kvSet (s : SqliteStore) (key value : Bytes) : SqliteStore :=
  { s with kv := s.kv.insert key value }

def kvDelete (s : SqliteStore) (key : Bytes) : SqliteStore := { s with kv := s.kv.erase key }

def begin : Db Unit := do
  if (← get).inTransaction then throw (.err .nestedTransaction)
  else modify fun s => { s with inTransaction := true }

/-- A plain `INSERT`. A second row under the key is `SQLITE_CONSTRAINT`. -/
def insertRow (row : Bytes × Bytes) : Db PUnit := do
  if ((← get).kv.get row.1).isSome then throw (.err (.step 19))
  else modify fun s => s.kvSet row.1 row.2

def kvReplaceAll (entries : List (Bytes × Bytes)) : Db Unit := do
  begin
  modify fun s => { s with kv := .empty }
  entries.forM insertRow
  modify fun s => { s with inTransaction := false }

/-! ## The `raft_log` table -/

def logAppend (s : SqliteStore) (index term : UInt64) (data : Bytes) : SqliteStore :=
  { s with raftLog := s.raftLog.insert index.signed (term, data) }

def logGet (s : SqliteStore) (index : UInt64) : Option (UInt64 × Bytes) :=
  s.raftLog.get index.signed

def logGetTerm (s : SqliteStore) (index : UInt64) : Option UInt64 := (s.logGet index).map (·.1)

/-- `DELETE FROM raft_log WHERE idx >= ?1` -/
def logTruncateFrom (s : SqliteStore) (start : UInt64) : SqliteStore :=
  { s with raftLog := s.raftLog.filter fun idx => idx < start.signed }

/-- `DELETE FROM raft_log WHERE idx <= ?1` -/
def logTruncateThrough (s : SqliteStore) (through : UInt64) : SqliteStore :=
  { s with raftLog := s.raftLog.filter fun idx => through.signed < idx }

/-- `SELECT COALESCE(MAX(idx), 0)` -/
def logLastIndex (s : SqliteStore) : UInt64 :=
  UInt64.ofSigned ((s.raftLog.entries.getLast?.map (·.1)).getD 0)

/-! ## The `raft_state` row -/

def setCurrentTerm (s : SqliteStore) (term : UInt64) : SqliteStore := { s with currentTerm := term }

def setLastIncluded (s : SqliteStore) (index term : UInt64) : SqliteStore :=
  { s with lastIncludedIndex := index, lastIncludedTerm := term }

def setCommitIndex (s : SqliteStore) (index : UInt64) : SqliteStore :=
  { s with commitIndex := index }

def setLastApplied (s : SqliteStore) (index : UInt64) : SqliteStore :=
  { s with lastApplied := index }

def setVotedFor (s : SqliteStore) (candidateID : Option Bytes) : SqliteStore :=
  { s with votedFor := candidateID }

end SqliteStore

end KvRaft.Web
