import KvRaft.Daemon.Node

/-! # Membership (`pkg/daemon/daemon.go`)

How a server enters and leaves the raft configuration, and the records that mirror the
configuration: the member's own record, its personal group and its places in the reserved groups.
Failures of the bookkeeping are logged and otherwise ignored. A response line `ERR: e` is
a thrown `e`. -/

namespace KvRaft.Daemon

open Bytes Shmevent Kvfsm Encoding

/-! ## Records of a member -/

def recordClusterMember (env : Env) (peerID : Bytes) (role : UInt8) : M Unit := do
  let raw ← ofExcept (env.publicKey peerID)
  handleSetForward env (clusterMemberKey peerID) (encodeClusterMemberPayload raw.1 role) true

def setPeerGroup (env : Env) (peerID groupID : Bytes) : M Unit := do
  let key ← ofExcept (peerGroupKey peerID groupID)
  handleSetForward env key [] true

def deletePeerGroup (env : Env) (peerID groupID : Bytes) : M Unit := do
  let key ← ofExcept (peerGroupKey peerID groupID)
  deleteRecord env key

/-- `fmt.Errorf("…: %w", err)` around the errors of a program. -/
def wrapping {α : Type} (ctx : Ctx) (f : M α) : M α := fun n =>
  match f n with
  | .ok a n' => .ok a n'
  | .error e n' => .error (.wrap ctx e) n'

@[simp] theorem final_wrapping {α : Type} (ctx : Ctx) (f : M α) (n : Node) :
    (wrapping ctx f).final n = f.final n := by
  unfold EStateM.final wrapping
  cases f n <;> rfl

theorem outcome_wrapping {α : Type} (ctx : Ctx) (f : M α) (n : Node) :
    (wrapping ctx f).outcome n = (f.outcome n).mapError (.wrap ctx) := by
  unfold EStateM.outcome wrapping
  cases f n <;> rfl

def ensurePersonalGroup (env : Env) (peerID : Bytes) : M Unit :=
  wrapping (.createPersonalGroup peerID)
    (putRecord env (groupKey peerID) (encodeGroupPayload peerID false))

/-- A member is in the cluster group and in exactly one of the voter and the learner group. -/
def syncMemberGroups (env : Env) (peerID : Bytes) (role : UInt8) : M Unit := do
  ensurePersonalGroup env peerID
  setPeerGroup env peerID reservedGroupCluster
  if role = roleLearner then do
    setPeerGroup env peerID reservedGroupLearner
    deletePeerGroup env peerID reservedGroupVoter
  else do
    setPeerGroup env peerID reservedGroupVoter
    deletePeerGroup env peerID reservedGroupLearner

def clearMemberGroups (env : Env) (peerID : Bytes) : M Unit := do
  deletePeerGroup env peerID reservedGroupCluster
  deletePeerGroup env peerID reservedGroupVoter
  deletePeerGroup env peerID reservedGroupLearner

/-! ## Leadership transfer (`raft_lifecycle.go`) -/

def isRelayServerAddress (addr : Bytes) : Bool := ascii "/p2p-circuit" <:+: addr

/-- The first voter with a direct address, for a node that only a relay reaches. -/
def preferredLeaderTransferTarget (servers : List Server) (self : Bytes) : Option Server :=
  let selfAddr := (servers.find? (·.id = self)).elim [] (·.address)
  if isRelayServerAddress selfAddr then
    servers.find? fun srv =>
      srv.id ≠ self ∧ srv.suffrage = .voter ∧ ¬isRelayServerAddress srv.address
  else none

def transferLeadershipToStableVoter (env : Env) : M Unit :=
  modify fun n =>
    match preferredLeaderTransferTarget n.servers n.peerID with
    | none => n
    | some srv =>
      match env.transferErr srv.id with
      | some _ => n
      | none => n.modifyRaft fun rf => { rf with role := .follower srv.id }

/-! ## Adding and removing servers -/

def addServer (id addr : Bytes) : Suffrage → ConfigChange
  | .nonvoter => .addNonvoter id addr
  | .voter => .addVoter id addr

def addServerLine (env : Env) (peerID addr : Bytes) (suffrage : Suffrage) : M Unit := do
  changeConfig env (addServer peerID addr suffrage)
  let role := if suffrage = .nonvoter then roleLearner else roleVoter
  EStateM.ignore (recordClusterMember env peerID role)
  EStateM.ignore (syncMemberGroups env peerID role)
  if suffrage = .nonvoter then pure () else transferLeadershipToStableVoter env

def removeServerLine (env : Env) (peerID : Bytes) : M Unit := do
  changeConfig env (.removeServer peerID)
  EStateM.ignore (applyOp env .del (clusterMemberKey peerID) [])
  EStateM.ignore (clearMemberGroups env peerID)

/-! ## Confirmed joins -/

def suffrageOf (sf : UInt8) : Suffrage := if sf = suffrageLearner then .nonvoter else .voter

def admitClusterJoinIfConfirmed (env : Env) (confirmedKey : Bytes) : M Unit := do
  if systemKind confirmedKey ≠ some kindClusterJoin then pure ()
  else do
    let peerID := confirmedKey.drop systemKeyPrefixLen
    let value ← wrapping (.clusterJoinRead peerID) (ofExcept ((← get).store.get! confirmedKey))
    let (addr, sf) ← wrapping (.clusterJoinDecode peerID)
        (ofExcept (decodeClusterJoinMetadata value))
    wrapping .clusterJoin (addServerLine env peerID addr (suffrageOf sf))

def handleConfirmForward (env : Env) (op : OpType) (key1 key2 : Bytes)
    (allowForward : Bool) : M Unit :=
  handleConfirmForwardWith env (admitClusterJoinIfConfirmed env) op key1 key2 allowForward

/-! ## Join requests -/

structure JoinRequest where
  peerID : Bytes
  addr : Bytes
  suffrage : Suffrage
  inviteToken : Bytes
deriving DecidableEq, Repr

def parseSuffrage (word : Bytes) : Except Err Suffrage :=
  if word = ascii "voter" then .ok .voter
  else if word = ascii "learner" then .ok .nonvoter
  else .error (.joinLineSuffrage word)

def parseInviteToken (hex : Bytes) : Except Err Bytes :=
  match Text.hexDecode hex with
  | some token => .ok token
  | none => .error (.inviteTokenHex hex)

def parseJoinLine (line : Bytes) : Except Err JoinRequest :=
  match Text.fields line with
  | [peerID, addr] => .ok ⟨peerID, addr, .voter, []⟩
  | [peerID, addr, word] => do
    let suffrage ← parseSuffrage word
    return ⟨peerID, addr, suffrage, []⟩
  | [peerID, addr, word, hex] => do
    let suffrage ← parseSuffrage word
    let token ← parseInviteToken hex
    return ⟨peerID, addr, suffrage, token⟩
  | _ => .error (.joinLineFields line)

/-- `parseJoinRequest`: only the first line of the stream counts. -/
def parseJoinRequest (stream : Bytes) : Except Err JoinRequest :=
  match Text.scan stream with
  | .eof => .error .joinLineEmpty
  | .tooLong => .error .joinLineTooLong
  | .line text => parseJoinLine text

def suffrageWord : Suffrage → Bytes
  | .voter => ascii "voter"
  | .nonvoter => ascii "learner"

def joinRequestLine (r : JoinRequest) : Bytes :=
  r.peerID ++ 0x20 :: (r.addr ++ 0x20 :: (suffrageWord r.suffrage ++
    ((if r.inviteToken = [] then [] else 0x20 :: Text.hexEncode r.inviteToken) ++ [0x0A])))

def forwardJoin (env : Env) (leaderID : Bytes) (r : JoinRequest) : M Bytes := do
  let resp ← send env leaderID .join (joinRequestLine r)
  match Text.scan resp with
  | .line text => return text
  | .eof => throw (.noResponse leaderID)
  | .tooLong => throw .joinLineTooLong

/-- `consumeJoinInvite`: the suffrage that the invite grants. -/
def consumeJoinInvite (env : Env) (token : Bytes) : M Suffrage := do
  let res ← wrapping .invite (raftApply env (encodeCommand .consumeInvite (joinInviteKey token) []))
  match res.err with
  | some e => throw (.wrap .invalidInvite e)
  | none => do
    let sf ← wrapping .invite (ofExcept (decodeJoinInviteRecord res.value))
    return suffrageOf sf

def pendingJoinKey (peerID : Bytes) : Bytes := systemKey kindClusterJoin statusPending peerID

def lodgeJoinRequest (env : Env) (r : JoinRequest) : M Unit :=
  let sf := if r.suffrage = .nonvoter then suffrageLearner else suffrageVoter
  handleSetForward env (pendingJoinKey r.peerID) (encodeClusterJoinMetadata r.addr sf) true

inductive JoinLine
  | ok
  | pending
  /-- A leader's line, passed on. -/
  | text (line : Bytes)
deriving DecidableEq, Repr

/-- An invite's own suffrage counts, and a bad token is never a request without one. -/
def admitOrLodgeJoin (env : Env) (r : JoinRequest) : M JoinLine := do
  if r.inviteToken ≠ [] then do
    let granted ← consumeJoinInvite env r.inviteToken
    addServerLine env r.peerID r.addr granted
    return .ok
  else if (← get).requireConfirmForJoin then do
    lodgeJoinRequest env r
    return .pending
  else do
    addServerLine env r.peerID r.addr r.suffrage
    return .ok

/-- The leader this node knows of, empty if none. -/
def Node.leaderID (n : Node) : Bytes :=
  match n.raft with
  | some ⟨_, .follower id, _, _, _⟩ => id
  | _ => []

/-- `handleJoinStream`: `stream` is what the requester wrote. -/
def handleJoinStream (env : Env) (stream : Bytes) : M JoinLine := do
  let r ← wrapping .malformedJoinRequest (ofExcept (parseJoinRequest stream))
  if (← get).isLeader then admitOrLodgeJoin env r
  else if (← get).leaderID = [] then throw .joinNotLeader
  else do
    let line ← wrapping .forwardJoin (forwardJoin env (← get).leaderID r)
    return .text line

/-- `handleForwardJoinStream`: one hop only. -/
def handleForwardJoinStream (env : Env) (stream : Bytes) : M JoinLine := do
  let r ← wrapping .malformedJoinRequest (ofExcept (parseJoinRequest stream))
  if (← get).isLeader then admitOrLodgeJoin env r
  else throw (.alreadyForwarded (← get).leaderID)

end KvRaft.Daemon
