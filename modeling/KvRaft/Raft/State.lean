import KvRaft.Raft.Commitment

/-! # A server, its disk and its messages

The data of `thirdparty/raft`: what a server keeps on disk (`Stable`), what it loses in a crash
(`Volatile`), the calls servers make to each other, and the effects of handling one event in the
order in which they happen (`Run`). A crash in the middle of an event leaves the disk and the
network as some of these effects left them.

Snapshots are left out, and so are the deprecated kinds of log entries, which protocol version 3
does not write. Indices and terms are natural numbers where `thirdparty/raft` has `uint64`: the two
agree in runs with fewer than 2^64 terms and entries. -/

namespace KvRaft.Raft

/-! ## The log -/

/-- The `Type` and the `Data` of an entry. -/
inductive LogData
  | command (data : Bytes)
  | noop
  | barrier
  | configuration (c : Configuration)
deriving DecidableEq

structure Log where
  index : Nat
  term : Nat
  data : LogData
  /-- The leader's clock when it appended the entry, in Unix seconds. -/
  appendedAt : Int
deriving DecidableEq

def Log.config (l : Log) : Option Configuration :=
  match l.data with
  | .configuration c => some c
  | _ => none

/-! ## Calls (`commands.go`) -/

structure RPCHeader where
  id : ServerID
  addr : ServerAddress
deriving DecidableEq

structure RequestVoteRequest extends RPCHeader where
  term : Nat
  lastLogIndex : Nat
  lastLogTerm : Nat
  leadershipTransfer : Bool
deriving DecidableEq

structure RequestVoteResponse where
  term : Nat
  granted : Bool
deriving DecidableEq

structure RequestPreVoteRequest extends RPCHeader where
  term : Nat
  lastLogIndex : Nat
  lastLogTerm : Nat
deriving DecidableEq

structure RequestPreVoteResponse where
  term : Nat
  granted : Bool
deriving DecidableEq

structure AppendEntriesRequest extends RPCHeader where
  term : Nat
  prevLogEntry : Nat
  prevLogTerm : Nat
  entries : List Log
  leaderCommitIndex : Nat
deriving DecidableEq

structure AppendEntriesResponse where
  term : Nat
  lastLog : Nat
  success : Bool
  noRetryBackoff : Bool
deriving DecidableEq

/-- A request on its way to `dst`, or the answer of `src` to a request. The sender of a request is
in its header. -/
inductive Msg
  | requestVote (dst : ServerID) (req : RequestVoteRequest)
  | requestVoteReply (src : ServerID) (req : RequestVoteRequest) (resp : RequestVoteResponse)
  | requestPreVote (dst : ServerID) (req : RequestPreVoteRequest)
  | requestPreVoteReply (src : ServerID) (req : RequestPreVoteRequest)
      (resp : RequestPreVoteResponse)
  | appendEntries (dst : ServerID) (req : AppendEntriesRequest)
  | appendEntriesReply (src : ServerID) (req : AppendEntriesRequest) (resp : AppendEntriesResponse)
  | timeoutNow (dst : ServerID)
deriving DecidableEq

/-! ## The disk -/

/-- The stable store and the log store. The entry with index `i` stands at place `i - 1`. -/
structure Stable where
  currentTerm : Nat
  lastVoteTerm : Nat
  lastVoteCand : Option Bytes
  logs : List Log
deriving DecidableEq

def Stable.empty : Stable := ⟨0, 0, none, []⟩

def Stable.getLog (s : Stable) (i : Nat) : Option Log := if i = 0 then none else s.logs[i - 1]?

def Stable.lastIndex (s : Stable) : Nat := s.logs.length

def Stable.lastTerm (s : Stable) : Nat := (s.logs.getLast?.map Log.term).getD 0

inductive Write
  | currentTerm (t : Nat)
  | lastVoteTerm (t : Nat)
  | lastVoteCand (candidate : Bytes)
  /-- `DeleteRange` from an index to the end. -/
  | deleteFrom (i : Nat)
  | storeLogs (entries : List Log)
deriving DecidableEq

def Write.apply (s : Stable) : Write → Stable
  | .currentTerm t => { s with currentTerm := t }
  | .lastVoteTerm t => { s with lastVoteTerm := t }
  | .lastVoteCand candidate => { s with lastVoteCand := some candidate }
  | .deleteFrom i => { s with logs := s.logs.take (i - 1) }
  | .storeLogs entries => { s with logs := s.logs ++ entries }

/-! ## Memory -/

structure Configurations where
  committed : Configuration
  committedIndex : Nat
  latest : Configuration
  latestIndex : Nat
deriving DecidableEq

def Configurations.empty : Configurations := ⟨.empty, 0, .empty, 0⟩

def Configurations.setCommitted (c : Configurations) : Configurations :=
  { c with committed := c.latest, committedIndex := c.latestIndex }

def processConfigurationLogEntry (c : Configurations) (entry : Log) : Configurations :=
  match entry.data with
  | .configuration conf => { c.setCommitted with latest := conf, latestIndex := entry.index }
  | _ => c

/-- Where the loop of `runCandidate` is: asking for permission to stand, or for votes. -/
inductive Stage
  | preVote
  | vote
deriving DecidableEq

/-- The local variables of `runCandidate`, and the voters whose answer has not come out of the
channel yet. -/
structure Campaign where
  stage : Stage
  term : Nat
  waiting : List ServerID
  granted : Nat
  votesNeeded : Nat
deriving DecidableEq

def Campaign.count (c : Campaign) (voter : ServerID) (granted : Bool) : Campaign :=
  { c with
    waiting := c.waiting.erase voter
    granted := if granted then c.granted + 1 else c.granted }

/-- Where a replication routine is. -/
inductive Mode
  /-- At the `select` of `replicate`. -/
  | idle
  /-- At `START` of `replicateTo`; in the last round the routine returns when it is done. -/
  | start (lastIndex : Nat) (lastRound : Bool)
  /-- Waiting for the answer to its request. -/
  | waiting (lastIndex : Nat) (lastRound : Bool) (req : AppendEntriesRequest)
  /-- In `pipelineReplicate`, with the index to send from. -/
  | pipeline (nextIndex : Nat)
  | ended
deriving DecidableEq

structure Replication where
  peer : ServerID
  nextIndex : Nat
  mode : Mode
  allowPipeline : Bool
  /-- What is in `stopCh`: the index up to which a removed follower is still served. -/
  stop : Option Nat
deriving DecidableEq

structure LeaderState where
  commitment : Commitment
  /-- The entries whose futures wait for their commit. -/
  inflight : List Log
  /-- All replication routines of the term, also those of removed servers that have
  not returned yet. -/
  repl : List Replication
  leadershipTransferInProgress : Bool
  /-- The local variable `stepDown` of `leaderLoop`. -/
  stepDown : Bool
deriving DecidableEq

inductive Role
  | follower
  /-- Without a campaign, `runCandidate` has not begun. -/
  | candidate (campaign : Option Campaign)
  | leader (state : LeaderState)
deriving DecidableEq

structure Volatile where
  role : Role
  leaderAddr : ServerAddress
  candidateFromLeadershipTransfer : Bool
  commitIndex : Nat
  lastApplied : Nat
  configurations : Configurations
  /-- The entries handed to the state machine since the start. -/
  fsm : List Log
  /-- The server ran into a `panic`. -/
  panicked : Bool
deriving DecidableEq

structure Node where
  stable : Stable
  vol : Volatile
deriving DecidableEq

def newRaft (s : Stable) : Volatile where
  role := .follower
  leaderAddr := []
  candidateFromLeadershipTransfer := false
  commitIndex := 0
  lastApplied := 0
  configurations := s.logs.foldl processConfigurationLogEntry .empty
  fsm := []
  panicked := false

/-! ## Handling an event -/

inductive Effect
  | write (w : Write)
  | send (m : Msg)
deriving DecidableEq

/-- A server in the middle of handling an event, with the effects so far. -/
structure Run extends Node where
  out : List Effect

namespace Run

variable (r : Run)

def write (w : Write) : Run := { r with stable := w.apply r.stable, out := r.out ++ [.write w] }

def send (m : Msg) : Run := { r with out := r.out ++ [.send m] }

def setVol (f : Volatile → Volatile) : Run := { r with vol := f r.vol }

def setCurrentTerm (t : Nat) : Run := r.write (.currentTerm t)

def persistVote (term : Nat) (candidate : Bytes) : Run :=
  (r.write (.lastVoteTerm term)).write (.lastVoteCand candidate)

def setLeader (addr : ServerAddress) : Run := r.setVol fun v => { v with leaderAddr := addr }

/-- `setState`, which forgets the leader. -/
def setState (role : Role) : Run := r.setVol fun v => { v with role := role, leaderAddr := [] }

end Run

/-! ## What the servers of a cluster share -/

structure Cluster where
  /-- The configuration with which the cluster is bootstrapped. -/
  bootstrap : Configuration
  valid : checkConfiguration bootstrap = .ok ()
  localAddr : ServerID → ServerAddress
  localAddr_injective : Function.Injective localAddr
  maxAppendEntries : Nat
  maxAppendEntries_pos : 0 < maxAppendEntries
  preVoteDisabled : Bool

def Cluster.rpcHeader (cl : Cluster) (n : ServerID) : RPCHeader := ⟨n, cl.localAddr n⟩

end KvRaft.Raft
