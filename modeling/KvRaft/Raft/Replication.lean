import KvRaft.Raft.Election

/-! # Leaders and followers (`thirdparty/raft/raft.go`, `thirdparty/raft/replication.go`)

The entries' way from a leader to the state machines: `dispatchLogs` and the replication routines on
one side, `appendEntries` on the other, and `processLogs` on both.

What the main thread does between two `select`s is one step, and so is the prologue of `runLeader`
up to the first entry of the new term. In `raft.go` the replication routines are started before that
entry is dispatched, so that a round may begin with the last index from before it; such rounds are
left out. A routine builds its request in one step, from one state of the log and of the commit
index, and it ends when its leader steps down; in `replication.go` the log is read entry by entry,
and a routine may send a last request after that. -/

namespace KvRaft.Raft

variable (cl : Cluster) (n : ServerID)

/-! ## Applying entries -/

/-- `prepareLog`: which entries go to the state machine. -/
def prepareLog (l : Log) : Bool :=
  match l.data with
  | .noop => false
  | _ => true

/-- The entry of an index, from a future or from the log store. -/
def committedLog (s : Stable) (futures : List Log) (idx : Nat) : Option Log :=
  match futures.find? fun l => l.index = idx with
  | some l => some l
  | none => s.getLog idx

/-- The loop of `processLogs`; `none` if an entry is missing. -/
def collectLogs (s : Stable) (futures : List Log) (idx : Nat) : Nat → Option (List Log)
  | 0 => some []
  | count + 1 => do
    let l ← committedLog s futures idx
    let rest ← collectLogs s futures (idx + 1) count
    return if prepareLog l then l :: rest else rest

def processLogs (index : Nat) (futures : List Log) (r : Run) : Run :=
  let lastApplied := r.vol.lastApplied
  if index ≤ lastApplied then r
  else
    match collectLogs r.stable futures (lastApplied + 1) (index - lastApplied) with
    | some batch => r.setVol fun v => { v with fsm := v.fsm ++ batch, lastApplied := index }
    | none => r.setVol fun v => { v with panicked := true }

/-! ## The follower's side -/

def prevLogMatches (s : Stable) (req : AppendEntriesRequest) : Bool :=
  req.prevLogEntry = 0 ||
    (if req.prevLogEntry = s.lastIndex then some s.lastTerm
      else (s.getLog req.prevLogEntry).map Log.term) = some req.prevLogTerm

/-- The loop over the entries of a request: from where the log is to be cleared, and what is
to be stored. -/
def newEntries (s : Stable) : List Log → Option (Option Nat × List Log)
  | [] => some (none, [])
  | entry :: rest =>
    if s.lastIndex < entry.index then some (none, entry :: rest)
    else
      match s.getLog entry.index with
      | none => none
      | some storeEntry =>
        if entry.term ≠ storeEntry.term then some (some entry.index, entry :: rest)
        else newEntries s rest

/-- `DeleteRange`, and the configuration that is in force without the entries. -/
def clearSuffix (clearFrom : Option Nat) (r : Run) : Run :=
  match clearFrom with
  | none => r
  | some i =>
    (r.write (.deleteFrom i)).setVol fun v =>
      { v with
        configurations :=
          if i ≤ v.configurations.latestIndex then
            { v.configurations with
              latest := v.configurations.committed
              latestIndex := v.configurations.committedIndex }
          else v.configurations }

def storeEntries (entries : List Log) (r : Run) : Run :=
  if entries = [] then r
  else
    (r.write (.storeLogs entries)).setVol fun v =>
      { v with configurations := entries.foldl processConfigurationLogEntry v.configurations }

/-- The commit index of the leader, as far as the own log goes. -/
def followCommit (leaderCommitIndex : Nat) (r : Run) : Run :=
  if 0 < leaderCommitIndex ∧ r.vol.commitIndex < leaderCommitIndex then
    let idx := min leaderCommitIndex r.stable.lastIndex
    processLogs idx [] (r.setVol fun v =>
      { v with
        commitIndex := idx
        configurations :=
          if v.configurations.latestIndex ≤ idx then v.configurations.setCommitted
          else v.configurations })
  else r

def isFollower (v : Volatile) : Bool :=
  match v.role with
  | .follower => true
  | _ => false

/-- `appendEntries` in the term of the request; `lastLog` is the index it answers with. -/
def acceptEntries (req : AppendEntriesRequest) (lastLog : Nat) (r : Run) : Run :=
  if ¬prevLogMatches r.stable req then
    r.send (.appendEntriesReply n req ⟨req.term, lastLog, false, true⟩)
  else
    match newEntries r.stable req.entries with
    | none => r.send (.appendEntriesReply n req ⟨req.term, lastLog, false, false⟩)
    | some (clearFrom, entries) =>
      (followCommit req.leaderCommitIndex (storeEntries entries (clearSuffix clearFrom r))).send
        (.appendEntriesReply n req ⟨req.term, lastLog, true, false⟩)

def appendEntries (req : AppendEntriesRequest) (r : Run) : Run :=
  let lastLog := r.stable.lastIndex
  if req.term < r.stable.currentTerm then
    r.send (.appendEntriesReply n req ⟨r.stable.currentTerm, lastLog, false, false⟩)
  else if r.stable.currentTerm < req.term ∨
      ¬isFollower r.vol ∧ ¬r.vol.candidateFromLeadershipTransfer then
    acceptEntries n req lastLog
      (((r.setState .follower).setCurrentTerm req.term).setLeader req.addr)
  else acceptEntries n req lastLog (r.setLeader req.addr)

/-! ## The leader's side -/

def Run.setLeaderState (r : Run) (ls : LeaderState) : Run :=
  r.setVol fun v => { v with role := .leader ls }

/-- The entries get consecutive indices, the leader's term and the time. -/
def numberLogs (now : Int) (term : Nat) : Nat → List LogData → List Log
  | _, [] => []
  | lastIndex, d :: ds => ⟨lastIndex + 1, term, d, now⟩ :: numberLogs now term (lastIndex + 1) ds

def dispatchLogs (now : Int) (ls : LeaderState) (applyLogs : List LogData) (r : Run) : Run :=
  let logs := numberLogs now r.stable.currentTerm r.stable.lastIndex applyLogs
  let lastIndex := r.stable.lastIndex + applyLogs.length
  (r.write (.storeLogs logs)).setLeaderState
    { ls with inflight := ls.inflight ++ logs, commitment := ls.commitment.matched n lastIndex }

def startReplication (lastIdx : Nat) (repl : List Replication) (server : Server) :
    List Replication :=
  if server.id = n ∨ repl.any (fun s => s.peer = server.id ∧ s.stop = none) then repl
  else repl ++ [⟨server.id, lastIdx + 1, .idle, false, none⟩]

def stopReplication (latest : Configuration) (lastIdx : Nat) (s : Replication) : Replication :=
  if s.stop = none ∧ ¬(s.peer ≠ n ∧ inConfiguration latest s.peer) then
    { s with stop := some lastIdx }
  else s

def startStopReplication (latest : Configuration) (lastIdx : Nat) (repl : List Replication) :
    List Replication :=
  (latest.servers.foldl (startReplication n lastIdx) repl).map (stopReplication n latest lastIdx)

/-- `setState(Leader)` in `runCandidate`, and `runLeader` up to `leaderLoop`. -/
def runLeader (now : Int) (r : Run) : Run :=
  let r := r.setLeader (cl.localAddr n)
  let latest := r.vol.configurations.latest
  dispatchLogs n now
    { commitment := newCommitment latest (r.stable.lastIndex + 1)
      inflight := []
      repl := startStopReplication n latest r.stable.lastIndex []
      leadershipTransferInProgress := false
      stepDown := false }
    [.noop] r

def voteResult (voter : ServerID) (resp : RequestVoteResponse) (now : Int) (r : Run) : Run :=
  match r.vol.role with
  | .candidate (some c) =>
    if r.stable.currentTerm < resp.term then (r.setState .follower).setCurrentTerm resp.term
    else if c.votesNeeded ≤ (c.count voter resp.granted).granted then runLeader cl n now r
    else r.setVol fun v => { v with role := .candidate (some (c.count voter resp.granted)) }
  | _ => r

inductive Apply
  | command (data : Bytes)
  | barrier

def Apply.logData : Apply → LogData
  | .command data => .command data
  | .barrier => .barrier

def applyRequests (requests : List Apply) (now : Int) (r : Run) : Run :=
  match r.vol.role with
  | .leader ls =>
    if ls.leadershipTransferInProgress ∨ ls.stepDown then r
    else dispatchLogs n now ls (requests.map Apply.logData) r
  | _ => r

/-- `configurationChangeChIfStable`, not nil. -/
def configurationStable (ls : LeaderState) (v : Volatile) : Bool :=
  v.configurations.latestIndex = v.configurations.committedIndex ∧
    ls.commitment.startIndex ≤ v.commitIndex

/-- The rest of `appendConfigurationEntry`, with the entry in the log. -/
def adoptConfiguration (configuration : Configuration) (r : Run) : Run :=
  match r.vol.role with
  | .leader ls =>
    (r.setVol fun v =>
      { v with
        configurations :=
          { v.configurations with latest := configuration, latestIndex := r.stable.lastIndex } }
      ).setLeaderState
        { ls with
          commitment := ls.commitment.setConfiguration configuration
          repl := startStopReplication n configuration r.stable.lastIndex ls.repl }
  | _ => r

/-- A request from `configurationChangeCh`. -/
def changeConfiguration (change : ConfigurationChangeRequest) (now : Int) (r : Run) : Run :=
  match r.vol.role with
  | .leader ls =>
    if ¬configurationStable ls r.vol ∨ ls.leadershipTransferInProgress then r
    else
      match nextConfiguration r.vol.configurations.latest
          r.vol.configurations.latestIndex change with
      | .error _ => r
      | .ok configuration =>
        adoptConfiguration n configuration (dispatchLogs n now ls [.configuration configuration] r)
  | _ => r

/-- The notification of `commitCh`. A leader that removed itself shuts down some time later. -/
def processCommit (r : Run) : Run :=
  match r.vol.role with
  | .leader ls =>
    if ls.commitment.commitCh then
      let oldCommitIndex := r.vol.commitIndex
      let commitIndex := ls.commitment.commitIndex
      let c := r.vol.configurations
      let configCommitted : Bool := oldCommitIndex < c.latestIndex ∧ c.latestIndex ≤ commitIndex
      let group := ls.inflight.takeWhile fun l => l.index ≤ commitIndex
      let r :=
        (r.setVol fun v =>
          { v with
            commitIndex := commitIndex
            configurations := if configCommitted then c.setCommitted else c }).setLeaderState
          { ls with
            commitment := { ls.commitment with commitCh := false }
            inflight := ls.inflight.dropWhile fun l => l.index ≤ commitIndex
            stepDown := ls.stepDown || configCommitted && !hasVote c.latest n }
      match group.getLast? with
      | some last => processLogs last.index group r
      | none => r
    else r
  | _ => r

/-- A leader gives up: a follower told it of a newer term, its lease ran out, or
a verification failed. -/
def stepDown (r : Run) : Run :=
  match r.vol.role with
  | .leader _ => r.setState .follower
  | _ => r

/-! ## Replication routines -/

def logsFrom (s : Stable) (i : Nat) : Nat → Option (List Log)
  | 0 => some []
  | count + 1 => do
    let l ← s.getLog i
    let rest ← logsFrom s (i + 1) count
    return l :: rest

def previousLog (s : Stable) (nextIndex : Nat) : Option (Nat × Nat) :=
  if nextIndex = 1 then some (0, 0) else (s.getLog (nextIndex - 1)).map fun l => (l.index, l.term)

/-- `none` if an entry is not in the log. -/
def setupAppendEntries (node : Node) (nextIndex lastIndex : Nat) : Option AppendEntriesRequest := do
  let prev ← previousLog node.stable nextIndex
  let entries ← logsFrom node.stable nextIndex
      (min (nextIndex + cl.maxAppendEntries - 1) lastIndex + 1 - nextIndex)
  return { cl.rpcHeader n with
    term := node.stable.currentTerm
    prevLogEntry := prev.1
    prevLogTerm := prev.2
    entries := entries
    leaderCommitIndex := node.vol.commitIndex }

/-- A routine of a leader, with what it does to the leader's state. -/
def withRoutine (k : Nat) (r : Run) (f : LeaderState → Replication → Run) : Run :=
  match r.vol.role with
  | .leader ls =>
    match ls.repl[k]? with
    | some s => f ls s
    | none => r
  | _ => r

def LeaderState.setRoutine (ls : LeaderState) (k : Nat) (s : Replication) : LeaderState :=
  { ls with repl := ls.repl.set k s }

/-- A round begins: a trigger, or the commit timeout. -/
def startRound (k : Nat) (r : Run) : Run :=
  withRoutine k r fun ls s =>
    match s.mode with
    | .idle => r.setLeaderState (ls.setRoutine k { s with mode := .start r.stable.lastIndex false })
    | _ => r

def stopRound (k : Nat) (r : Run) : Run :=
  withRoutine k r fun ls s =>
    match s.mode, s.stop with
    | .idle, some maxIndex =>
      let mode := if 0 < maxIndex then Mode.start maxIndex true else .ended
      r.setLeaderState (ls.setRoutine k { s with mode := mode })
    | _, _ => r

/-- `replicateTo` has returned; if things look healthy, the routine goes on in pipeline mode. -/
def roundOver (lastRound : Bool) (s : Replication) : Replication :=
  if lastRound then { s with mode := .ended }
  else if s.allowPipeline then { s with allowPipeline := false, mode := .pipeline s.nextIndex }
  else { s with mode := .idle }

/-- The request of a round. Without snapshots there is nothing else to send. -/
def sendRound (k : Nat) (r : Run) : Run :=
  withRoutine k r fun ls s =>
    match s.mode with
    | .start lastIndex lastRound =>
      match setupAppendEntries cl n r.toNode s.nextIndex lastIndex with
      | some req =>
        (r.send (.appendEntries s.peer req)).setLeaderState
          (ls.setRoutine k { s with mode := .waiting lastIndex lastRound req })
      | none => r.setLeaderState (ls.setRoutine k (roundOver lastRound s))
    | _ => r

def updateLastAppended (req : AppendEntriesRequest) (ls : LeaderState) (s : Replication) :
    LeaderState × Replication :=
  match req.entries.getLast? with
  | some last =>
    ({ ls with commitment := ls.commitment.matched s.peer last.index },
      { s with nextIndex := last.index + 1 })
  | none => (ls, s)

def checkMore (lastIndex : Nat) (lastRound : Bool) (s : Replication) : Replication :=
  if s.stop.isSome then { s with mode := .ended }
  else if s.nextIndex ≤ lastIndex then { s with mode := .start lastIndex lastRound }
  else roundOver lastRound s

def roundReply (k : Nat) (resp : AppendEntriesResponse) (r : Run) : Run :=
  withRoutine k r fun ls s =>
    match s.mode with
    | .waiting lastIndex lastRound req =>
      if req.term < resp.term then r.setLeaderState (ls.setRoutine k { s with mode := .ended })
      else if resp.success then
        let (ls, s) := updateLastAppended req ls s
        r.setLeaderState
          (ls.setRoutine k (checkMore lastIndex lastRound { s with allowPipeline := true }))
      else
        let s := { s with nextIndex := max (min (s.nextIndex - 1) (resp.lastLog + 1)) 1 }
        r.setLeaderState (ls.setRoutine k (checkMore lastIndex lastRound s))
    | _ => r

/-- The call of a round failed, or the pipeline broke or could not be opened. -/
def routineFailed (k : Nat) (r : Run) : Run :=
  withRoutine k r fun ls s =>
    match s.mode with
    | .waiting _ lastRound _ => r.setLeaderState (ls.setRoutine k (roundOver lastRound s))
    | .pipeline _ => r.setLeaderState (ls.setRoutine k { s with mode := .idle })
    | _ => r

/-- `pipelineSend`, after a trigger. -/
def pipelineSend (k : Nat) (r : Run) : Run :=
  withRoutine k r fun ls s =>
    match s.mode with
    | .pipeline nextIndex =>
      match setupAppendEntries cl n r.toNode nextIndex r.stable.lastIndex with
      | some req =>
        let nextIndex := (req.entries.getLast?.map fun last => last.index + 1).getD nextIndex
        (r.send (.appendEntries s.peer req)).setLeaderState
          (ls.setRoutine k { s with mode := .pipeline nextIndex })
      | none => r.setLeaderState (ls.setRoutine k { s with mode := .idle })
    | _ => r

/-- The routine reads `stopCh` in pipeline mode; what it finds there later is zero. -/
def pipelineStop (k : Nat) (r : Run) : Run :=
  withRoutine k r fun ls s =>
    match s.mode, s.stop with
    | .pipeline nextIndex, some maxIndex =>
      let s' := { s with mode := .idle, stop := some 0 }
      match setupAppendEntries cl n r.toNode nextIndex maxIndex with
      | some req =>
        if 0 < maxIndex then
          (r.send (.appendEntries s.peer req)).setLeaderState (ls.setRoutine k s')
        else r.setLeaderState (ls.setRoutine k s')
      | none => r.setLeaderState (ls.setRoutine k s')
    | _, _ => r

/-- `pipelineDecode`: the answer to a pipelined request. -/
def pipelineReply (k : Nat) (req : AppendEntriesRequest) (resp : AppendEntriesResponse)
    (r : Run) : Run :=
  withRoutine k r fun ls s =>
    match s.mode with
    | .pipeline _ =>
      if req.term < resp.term ∨ ¬resp.success then
        r.setLeaderState (ls.setRoutine k { s with mode := .idle })
      else
        let (ls, s) := updateLastAppended req ls s
        r.setLeaderState (ls.setRoutine k s)
    | _ => r

/-- A heartbeat carries no entries and no indices. -/
def heartbeat (k : Nat) (r : Run) : Run :=
  withRoutine k r fun _ s =>
    match s.mode with
    | .ended => r
    | _ =>
      r.send (.appendEntries s.peer
        { cl.rpcHeader n with
          term := r.stable.currentTerm
          prevLogEntry := 0
          prevLogTerm := 0
          entries := []
          leaderCommitIndex := 0 })

/-- `leadershipTransfer` reached its last step: the follower has the whole log. -/
def transferLeadership (k : Nat) (r : Run) : Run :=
  withRoutine k r fun _ s =>
    if r.stable.lastIndex < s.nextIndex then r.send (.timeoutNow s.peer) else r

def setTransferInProgress (b : Bool) (r : Run) : Run :=
  match r.vol.role with
  | .leader ls => r.setLeaderState { ls with leadershipTransferInProgress := b }
  | _ => r

/-! ## Bootstrapping -/

/-- `time.Time{}` in Unix seconds. -/
def zeroTime : Int := -62135596800

/-- The first entry of every log. -/
def Cluster.genesis : Log := ⟨1, 1, .configuration cl.bootstrap, zeroTime⟩

def liveBootstrap (r : Run) : Run :=
  match r.vol.role with
  | .follower =>
    if ¬hasVote cl.bootstrap n then r
    else if 0 < r.stable.currentTerm ∨ 0 < r.stable.lastIndex then r
    else
      (((r.write (.currentTerm 1)).write (.storeLogs [cl.genesis])).setCurrentTerm 1).setVol
        fun v =>
          { v with configurations := processConfigurationLogEntry v.configurations cl.genesis }
  | _ => r

end KvRaft.Raft
