import KvRaft.Raft.State

/-! # Elections (`thirdparty/raft/raft.go`)

How a server answers the requests of candidates, and how it becomes a candidate and counts its
votes. `runCandidate` is cut where it waits: `runCandidate` up to the loop, `preVoteResult` and
`voteResult` for what comes out of the two channels. -/

namespace KvRaft.Raft

variable (cl : Cluster) (n : ServerID)

/-! ## Answering candidates -/

/-- `len(Servers) > 0` and a check that fails on the candidate. -/
def rejects (c : Configuration) (check : Configuration → ServerID → Bool)
    (candidate : ServerID) : Bool :=
  !c.servers.isEmpty && !check c candidate

def replyVote (req : RequestVoteRequest) (term : Nat) (granted : Bool) (r : Run) : Run :=
  r.send (.requestVoteReply n req ⟨term, granted⟩)

/-- The checks of `requestVote` in the term of the request. -/
def considerVote (req : RequestVoteRequest) (r : Run) : Run :=
  if req.id ≠ [] ∧ rejects r.vol.configurations.latest hasVote req.id then
    replyVote n req req.term false r
  else if r.stable.lastVoteTerm = req.term ∧ r.stable.lastVoteCand.isSome then
    replyVote n req req.term (r.stable.lastVoteCand = some req.addr) r
  else if req.lastLogTerm < r.stable.lastTerm then replyVote n req req.term false r
  else if r.stable.lastTerm = req.lastLogTerm ∧ req.lastLogIndex < r.stable.lastIndex then
    replyVote n req req.term false r
  else replyVote n req req.term true (r.persistVote req.term req.addr)

def requestVote (req : RequestVoteRequest) (r : Run) : Run :=
  let currentTerm := r.stable.currentTerm
  if req.id ≠ [] ∧ rejects r.vol.configurations.latest inConfiguration req.id then
    replyVote n req currentTerm false r
  else if r.vol.leaderAddr ≠ [] ∧ r.vol.leaderAddr ≠ req.addr ∧ ¬req.leadershipTransfer then
    replyVote n req currentTerm false r
  else if req.term < currentTerm then replyVote n req currentTerm false r
  else if currentTerm < req.term then
    considerVote n req ((r.setState .follower).setCurrentTerm req.term)
  else considerVote n req r

def requestPreVote (req : RequestPreVoteRequest) (r : Run) : Run :=
  let reply (term : Nat) (granted : Bool) := r.send (.requestPreVoteReply n req ⟨term, granted⟩)
  let currentTerm := r.stable.currentTerm
  let latest := r.vol.configurations.latest
  if rejects latest inConfiguration req.id then reply currentTerm false
  else if r.vol.leaderAddr ≠ [] ∧ r.vol.leaderAddr ≠ req.addr then reply currentTerm false
  else if req.term < currentTerm then reply currentTerm false
  else if rejects latest hasVote req.id then reply req.term false
  else if req.lastLogTerm < r.stable.lastTerm then reply req.term false
  else if r.stable.lastTerm = req.lastLogTerm ∧ req.lastLogIndex < r.stable.lastIndex then
    reply req.term false
  else reply req.term true

/-! ## Becoming a candidate -/

/-- A candidate that is already in `runCandidate` stays there. -/
def timeoutNow (r : Run) : Run :=
  r.setVol fun v =>
    { v with
      role := match v.role with
        | .candidate campaign => .candidate campaign
        | _ => .candidate none
      leaderAddr := []
      candidateFromLeadershipTransfer := true }

/-- The case of the expired timer in `runFollower`, with no recent contact. -/
def heartbeatTimeout (r : Run) : Run :=
  match r.vol.role with
  | .follower =>
    let r := r.setLeader []
    let c := r.vol.configurations
    if c.latestIndex = 0 then r
    else if c.latestIndex = c.committedIndex ∧ ¬hasVote c.latest n then r
    else if hasVote c.latest n then r.setState (.candidate none)
    else r
  | _ => r

/-- The loop of `electSelf` over the voters. -/
def askForVote (req : RequestVoteRequest) (r : Run) (voter : ServerID) : Run :=
  if voter = n then r.persistVote req.term req.addr else r.send (.requestVote voter req)

def electSelf (votesNeeded : Nat) (r : Run) : Run :=
  let newTerm := r.stable.currentTerm + 1
  let r := r.setCurrentTerm newTerm
  let req : RequestVoteRequest :=
    { cl.rpcHeader n with
      term := newTerm
      lastLogIndex := r.stable.lastIndex
      lastLogTerm := r.stable.lastTerm
      leadershipTransfer := r.vol.candidateFromLeadershipTransfer }
  let voters := r.vol.configurations.latest.voters
  (voters.foldl (askForVote n req) r).setVol fun v =>
    { v with role := .candidate (some ⟨.vote, newTerm, voters, 0, votesNeeded⟩) }

def askForPreVote (req : RequestPreVoteRequest) (r : Run) (voter : ServerID) : Run :=
  if voter = n then r else r.send (.requestPreVote voter req)

def preElectSelf (votesNeeded : Nat) (r : Run) : Run :=
  let newTerm := r.stable.currentTerm + 1
  let req : RequestPreVoteRequest :=
    { cl.rpcHeader n with
      term := newTerm
      lastLogIndex := r.stable.lastIndex
      lastLogTerm := r.stable.lastTerm }
  let voters := r.vol.configurations.latest.voters
  (voters.foldl (askForPreVote n req) r).setVol fun v =>
    { v with role := .candidate (some ⟨.preVote, newTerm, voters, 0, votesNeeded⟩) }

def runCandidate (r : Run) : Run :=
  match r.vol.role with
  | .candidate none =>
    let votesNeeded := quorumSize r.vol.configurations.latest
    if ¬cl.preVoteDisabled ∧ ¬r.vol.candidateFromLeadershipTransfer then
      preElectSelf cl n votesNeeded r
    else electSelf cl n votesNeeded r
  | _ => r

/-- The expired election timer: `runCandidate` returns and is entered again. -/
def electionTimeout (r : Run) : Run :=
  match r.vol.role with
  | .candidate (some _) =>
    r.setVol fun v => { v with role := .candidate none, candidateFromLeadershipTransfer := false }
  | _ => r

def preVoteResult (voter : ServerID) (resp : RequestPreVoteResponse) (r : Run) : Run :=
  match r.vol.role with
  | .candidate (some c) =>
    if c.term < resp.term then (r.setState .follower).setCurrentTerm resp.term
    else if c.votesNeeded ≤ (c.count voter resp.granted).granted then electSelf cl n c.votesNeeded r
    else r.setVol fun v => { v with role := .candidate (some (c.count voter resp.granted)) }
  | _ => r

end KvRaft.Raft
