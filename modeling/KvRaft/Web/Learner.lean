import KvRaft.Web.RaftWire
import KvRaft.Web.SqliteStore

/-! # The raft learner (`web-app/src/learner.rs`)

The learner's answers to the requests of a leader or a candidate, over its database. -/

namespace KvRaft.Web

open Bytes

structure Learner where
  selfID : Bytes
  selfAddr : Bytes

inductive Request
  | appendEntries (req : AppendEntriesRequest)
  | requestVote (req : RequestVoteRequest)
  | requestPreVote (req : RequestPreVoteRequest)
  | installSnapshot (req : InstallSnapshotRequest) (body : Bytes)
  | timeoutNow (req : TimeoutNowRequest)
deriving DecidableEq

inductive Response
  | appendEntries (resp : AppendEntriesResponse)
  | requestVote (resp : RequestVoteResponse)
  | requestPreVote (resp : RequestPreVoteResponse)
  | installSnapshot (resp : InstallSnapshotResponse)
  | timeoutNow (resp : TimeoutNowResponse)

/-! ## Applying entries -/

/-- An entry that is missing or does not decode is passed over. -/
def applyLogged : Option (UInt64 × Bytes) → Db Unit
  | none => pure ()
  | some (_, data) =>
    match decodeCommand data with
    | .ok ⟨.set, key, value⟩ => modify fun s => s.kvSet key value
    | .ok ⟨.del, key, _⟩ => modify fun s => s.kvDelete key
    | .error (.err _) => pure ()
    | .error .panic => throw .panic

def applyEntry (next : UInt64) : Db Unit := do
  applyLogged ((← get).logGet next)
  modify fun s => s.setLastApplied next

/-- `while last_applied < commit_index`, which takes as many rounds as the indexes are apart. -/
def applyEntries : Nat → UInt64 → Db Unit
  | 0, _ => pure ()
  | rounds + 1, lastApplied => do
    applyEntry (lastApplied + 1)
    applyEntries rounds (lastApplied + 1)

def applyCommitted : Db Unit := do
  let s ← get
  let lastApplied := max s.lastApplied s.lastIncludedIndex
  applyEntries (s.commitIndex.toNat - lastApplied.toNat) lastApplied

/-! ## AppendEntries -/

/-- A later term is taken over, and its vote is free. -/
def adoptTerm (s : SqliteStore) (term : UInt64) : SqliteStore :=
  if s.currentTerm < term then (s.setCurrentTerm term).setVotedFor none else s

/-- Outcome of the check of `PrevLogEntry` and `PrevLogTerm`. -/
inductive PrevCheck
  | consistent
  | missing
  | conflict
deriving DecidableEq, Repr

def checkPrev (s : SqliteStore) (prevLogEntry prevLogTerm : UInt64) : PrevCheck :=
  if 0 < prevLogEntry then
    match if prevLogEntry = s.lastIncludedIndex then some s.lastIncludedTerm
      else s.logGetTerm prevLogEntry with
    | none => .missing
    | some t => if t ≠ prevLogTerm then .conflict else .consistent
  else .consistent

/-- One entry of the request, with the index that the request has reached. -/
def storeEntry (lastIncludedIndex : UInt64) (acc : SqliteStore × UInt64) (entry : Log) :
    SqliteStore × UInt64 :=
  let (s, lastNewIndex) := acc
  if entry.index ≤ lastIncludedIndex then (s, max lastNewIndex entry.index)
  else
    let s :=
      match s.logGetTerm entry.index with
      | some existingTerm =>
        if existingTerm = entry.term then s
        else (s.logTruncateFrom entry.index).logAppend entry.index entry.term (entry.data.getD [])
      | none => s.logAppend entry.index entry.term (entry.data.getD [])
    (s, entry.index)

def storeEntries (s : SqliteStore) (req : AppendEntriesRequest) : SqliteStore × UInt64 :=
  req.entries.foldl (storeEntry s.lastIncludedIndex) (s, max req.prevLogEntry s.lastIncludedIndex)

def advanceCommit (s : SqliteStore) (leaderCommitIndex lastNewIndex : UInt64) : SqliteStore :=
  if s.commitIndex < leaderCommitIndex then s.setCommitIndex (min leaderCommitIndex lastNewIndex)
  else s

variable (self : Learner)

def myHeader : RpcHeader := ⟨protocolVersion, some self.selfID, some self.selfAddr⟩

def appendEntriesResponse (term : UInt64) (success : Bool) : Db AppendEntriesResponse := do
  return ⟨myHeader self, term, (← get).logLastIndex, success, false⟩

def handleAppendEntries (req : AppendEntriesRequest) : Db AppendEntriesResponse := do
  let currentTerm := (← get).currentTerm
  if req.term < currentTerm then appendEntriesResponse self currentTerm false
  else do
    modify fun s => adoptTerm s req.term
    match checkPrev (← get) req.prevLogEntry req.prevLogTerm with
    | .missing => appendEntriesResponse self req.term false
    | .conflict => do
      modify fun s => s.logTruncateFrom req.prevLogEntry
      appendEntriesResponse self req.term false
    | .consistent => do
      let acc := storeEntries (← get) req
      set (advanceCommit acc.1 req.leaderCommitIndex acc.2)
      applyCommitted
      appendEntriesResponse self req.term true

/-! ## Votes -/

def lastLogIndexTerm (s : SqliteStore) : UInt64 × UInt64 :=
  if s.logLastIndex = 0 then (s.lastIncludedIndex, s.lastIncludedTerm)
  else (s.logLastIndex, (s.logGetTerm s.logLastIndex).getD 0)

/-- Whether a candidate with this last entry is as far as the learner. -/
def upToDate (s : SqliteStore) (lastLogIndex lastLogTerm : UInt64) : Bool :=
  let (lastIndex, lastTerm) := lastLogIndexTerm s
  decide (lastTerm < lastLogTerm) || (lastLogTerm = lastTerm && decide (lastIndex ≤ lastLogIndex))

def handleRequestVote (req : RequestVoteRequest) : Db RequestVoteResponse := do
  let currentTerm := (← get).currentTerm
  if req.term < currentTerm then return ⟨myHeader self, currentTerm, none, false⟩
  else do
    modify fun s => adoptTerm s req.term
    let s ← get
    let candidateID := req.header.id.or req.candidate
    let canVote :=
      match s.votedFor with
      | none => true
      | some v => some v = candidateID
    let granted := canVote && upToDate s req.lastLogIndex req.lastLogTerm
    if granted then modify fun s => s.setVotedFor candidateID
    return ⟨myHeader self, req.term, none, granted⟩

def handleRequestPreVote (req : RequestPreVoteRequest) : Db RequestPreVoteResponse := do
  let s ← get
  if req.term < s.currentTerm then return ⟨myHeader self, s.currentTerm, false⟩
  else return ⟨myHeader self, max s.currentTerm req.term,
    upToDate s req.lastLogIndex req.lastLogTerm⟩

/-! ## Snapshots -/

/-- The marker and the indexes after the table was replaced. -/
def installMarker (s : SqliteStore) (req : InstallSnapshotRequest) : SqliteStore :=
  let s := (s.logTruncateThrough req.lastLogIndex).setLastIncluded req.lastLogIndex req.lastLogTerm
  let s := if s.currentTerm < req.term then s.setCurrentTerm req.term else s
  let s := if s.commitIndex < req.lastLogIndex then s.setCommitIndex req.lastLogIndex else s
  s.setLastApplied req.lastLogIndex

def handleInstallSnapshot (req : InstallSnapshotRequest) (body : Bytes) :
    Db InstallSnapshotResponse := do
  match decodeSnapshotEntries body with
  | .error _ => return ⟨myHeader self, (← get).currentTerm, false⟩
  | .ok entries => do
    SqliteStore.kvReplaceAll entries
    modify fun s => installMarker s req
    return ⟨myHeader self, (← get).currentTerm, true⟩

def handleTimeoutNow (_req : TimeoutNowRequest) : Db TimeoutNowResponse := return ⟨myHeader self⟩

/-! ## Requests -/

def handle : Request → Db Response
  | .appendEntries req => return .appendEntries (← handleAppendEntries self req)
  | .requestVote req => return .requestVote (← handleRequestVote self req)
  | .requestPreVote req => return .requestPreVote (← handleRequestPreVote self req)
  | .installSnapshot req body => return .installSnapshot (← handleInstallSnapshot self req body)
  | .timeoutNow req => return .timeoutNow (← handleTimeoutNow self req)

end KvRaft.Web
