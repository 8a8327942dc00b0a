import KvRaft.Raft.Replication

/-! # The cluster as a whole

Servers and a network that may lose, delay, repeat and reorder what is sent. In one step a server
handles one event (`Step.act`), or crashes after some of the effects of one and starts again from
its disk (`Step.crash`).

A heartbeat is an event like the others. `net_transport.go` has it handled on the goroutine of its
connection, where it may come between two statements of the main thread; those schedules
are left out. -/

namespace KvRaft.Raft

inductive Event
  | requestVote (req : RequestVoteRequest)
  | requestPreVote (req : RequestPreVoteRequest)
  | appendEntries (req : AppendEntriesRequest)
  | timeoutNow
  | heartbeatTimeout
  | runCandidate
  | electionTimeout
  | preVoteResult (voter : ServerID) (resp : RequestPreVoteResponse)
  | voteResult (voter : ServerID) (resp : RequestVoteResponse) (now : Int)
  | apply (requests : List Apply) (now : Int)
  | changeConfiguration (change : ConfigurationChangeRequest) (now : Int)
  | commit
  | stepDown
  | startRound (k : Nat)
  | stopRound (k : Nat)
  | sendRound (k : Nat)
  | roundReply (k : Nat) (resp : AppendEntriesResponse)
  | routineFailed (k : Nat)
  | pipelineSend (k : Nat)
  | pipelineStop (k : Nat)
  | pipelineReply (k : Nat) (req : AppendEntriesRequest) (resp : AppendEntriesResponse)
  | heartbeat (k : Nat)
  | transferLeadership (k : Nat)
  | setTransferInProgress (b : Bool)
  | bootstrap

/-- The `defer` of `runCandidate`: outside of it the flag of the leadership transfer is not set. -/
def leaveCandidate (r : Run) : Run :=
  match r.vol.role with
  | .candidate _ => r
  | _ => r.setVol fun v => { v with candidateFromLeadershipTransfer := false }

def handle (cl : Cluster) (n : ServerID) : Event → Run → Run
  | .requestVote req => requestVote n req
  | .requestPreVote req => requestPreVote n req
  | .appendEntries req => appendEntries n req
  | .timeoutNow => timeoutNow
  | .heartbeatTimeout => heartbeatTimeout n
  | .runCandidate => runCandidate cl n
  | .electionTimeout => electionTimeout
  | .preVoteResult voter resp => preVoteResult cl n voter resp
  | .voteResult voter resp now => voteResult cl n voter resp now
  | .apply requests now => applyRequests n requests now
  | .changeConfiguration change now => changeConfiguration n change now
  | .commit => processCommit n
  | .stepDown => stepDown
  | .startRound k => startRound k
  | .stopRound k => stopRound k
  | .sendRound k => sendRound cl n k
  | .roundReply k resp => roundReply k resp
  | .routineFailed k => routineFailed k
  | .pipelineSend k => pipelineSend cl n k
  | .pipelineStop k => pipelineStop cl n k
  | .pipelineReply k req resp => pipelineReply k req resp
  | .heartbeat k => heartbeat cl n k
  | .transferLeadership k => transferLeadership k
  | .setTransferInProgress b => setTransferInProgress b
  | .bootstrap => liveBootstrap cl n

def react (cl : Cluster) (n : ServerID) (ev : Event) (node : Node) : Run :=
  leaveCandidate (handle cl n ev ⟨node, []⟩)

structure System where
  node : ServerID → Node
  /-- Everything that was ever sent. -/
  sent : List Msg

def System.init : System := ⟨fun _ => ⟨.empty, newRaft .empty⟩, []⟩

def messages (out : List Effect) : List Msg :=
  out.filterMap fun
    | .send m => some m
    | .write _ => none

def writes (out : List Effect) : List Write :=
  out.filterMap fun
    | .write w => some w
    | .send _ => none

/-- The disk and the network after some effects of the server `n`. -/
def System.after (σ : System) (n : ServerID) (node : Node) (out : List Effect) : System :=
  ⟨Function.update σ.node n node, σ.sent ++ messages out⟩

/-- The server after a crash that let only `out` happen. -/
def crashed (s : Stable) (out : List Effect) : Node :=
  let s := (writes out).foldl Write.apply s
  ⟨s, newRaft s⟩

def Volatile.campaign (v : Volatile) : Option Campaign :=
  match v.role with
  | .candidate c => c
  | _ => none

def Volatile.routine (v : Volatile) (k : Nat) : Option Replication :=
  match v.role with
  | .leader ls => ls.repl[k]?
  | _ => none

/-- When an event can occur: calls were sent, and the answers are answers to what
the server asked. -/
def Enabled (σ : System) (n : ServerID) : Event → Prop
  | .requestVote req => .requestVote n req ∈ σ.sent
  | .requestPreVote req => .requestPreVote n req ∈ σ.sent
  | .appendEntries req => .appendEntries n req ∈ σ.sent
  | .timeoutNow => .timeoutNow n ∈ σ.sent
  | .preVoteResult voter _ =>
    -- a pre-vote only opens the way to an election; what the answer is and where it comes from
    -- plays no role
    ∃ c, (σ.node n).vol.campaign = some c ∧ c.stage = .preVote ∧ voter ∈ c.waiting
  | .voteResult voter resp _ =>
    ∃ c, (σ.node n).vol.campaign = some c ∧ c.stage = .vote ∧ voter ∈ c.waiting ∧
      (voter = n ∧ resp = ⟨c.term, true⟩ ∨
        -- the call failed
        voter ≠ n ∧ resp = ⟨c.term, false⟩ ∨
        voter ≠ n ∧ ∃ req, .requestVoteReply voter req resp ∈ σ.sent ∧ req.id = n ∧
          req.term = c.term)
  | .roundReply k resp =>
    ∃ s lastIndex lastRound req, (σ.node n).vol.routine k = some s ∧
      s.mode = .waiting lastIndex lastRound req ∧ .appendEntriesReply s.peer req resp ∈ σ.sent
  | .pipelineReply k req resp =>
    ∃ s, (σ.node n).vol.routine k = some s ∧ .appendEntriesReply s.peer req resp ∈ σ.sent ∧
      req.id = n ∧ req.term = (σ.node n).stable.currentTerm
  | _ => True

def System.act (cl : Cluster) (σ : System) (n : ServerID) (ev : Event) : System :=
  σ.after n (react cl n ev (σ.node n)).toNode (react cl n ev (σ.node n)).out

inductive Step (cl : Cluster) : System → System → Prop
  | act {σ n ev} (h : Enabled σ n ev) : Step cl σ (σ.act cl n ev)
  | crash {σ n ev} (h : Enabled σ n ev) {out rest}
      (hout : (react cl n ev (σ.node n)).out = out ++ rest) :
    Step cl σ (σ.after n (crashed (σ.node n).stable out) out)

end KvRaft.Raft
