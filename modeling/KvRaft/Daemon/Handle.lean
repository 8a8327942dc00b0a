import KvRaft.Daemon.Acl

/-! # The programs of the message handler (`pkg/daemon/daemon.go`)

What `handleShmEvent` calls for the variants: joining a cluster and leaving it, admitting learners,
recruiting, executing, and the writes to the catalog and to the log records. -/

namespace KvRaft.Daemon

open Bytes Shmevent Kvfsm Encoding

/-! ## Joining and bootstrapping (`handleAdd`) -/

def initRaft (env : Env) : M Unit := do
  match (← get).raft with
  | some _ => pure ()
  | none => do
    let (rf, s) ← ofExcept (env.newRaft (← get).store)
    modify fun n => { n with raft := some rf, store := s }

/-- `rf.BootstrapCluster` with this node as the only voter. -/
def bootstrapCluster (env : Env) : M Unit := do
  match (← get).raft with
  | some ⟨_, _, false, _, _⟩ =>
    modify fun n => n.modifyRaft fun rf => rf.withServers [⟨.voter, n.peerID, env.advertisedAddr⟩]
  | _ => throw (.lib (ascii "bootstrap only works on new clusters"))

def awaitLeader (env : Env) : M Unit := do
  ofExcept env.elected
  modify fun n => n.modifyRaft fun rf => { rf with role := .leader }

def reservedGroups : List Bytes :=
  [reservedGroupCluster, reservedGroupVoter, reservedGroupLearner, reservedGroupChannel,
    reservedGroupRelay, reservedGroupRemote, reservedGroupExecute]

def ensureReservedGroups (env : Env) : M Unit :=
  reservedGroups.forM fun id =>
    wrapping (.createReservedGroup id) (putRecord env (groupKey id) (encodeGroupPayload id false))

def ensureDefaultPublicCommand (env : Env) : M Unit := do
  wrapping .createDefaultPublicGroup
    (putRecord env (groupKey defaultPublicGroupID) (encodeGroupPayload defaultPublicGroupID true))
  let value ← wrapping .encodeDefaultPublicCommand
    (ofExcept (encodeCommandPayload defaultPublicCommandID []))
  wrapping .createDefaultPublicCommand (putRecord env (commandKey defaultPublicCommandID) value)
  let link ← wrapping .buildDefaultPublicLink
    (ofExcept (groupCommandKey defaultPublicCommandID defaultPublicGroupID))
  wrapping .linkDefaultPublicCommand (putRecord env link [])

/-- The first branch of `handleAdd`: a new cluster of this node alone. -/
def bootstrap (env : Env) : M Unit := do
  wrapping .bootstrap (bootstrapCluster env)
  wrapping .awaitSelfElection (awaitLeader env)
  wrapping .bootstrapReservedGroups (ensureReservedGroups env)
  wrapping .bootstrapDefaultPublicCommand (ensureDefaultPublicCommand env)

def splitInviteToken (addr : Bytes) : Except Err (Bytes × Bytes) :=
  match Text.cut 0x23 addr with
  | none => .ok (addr, [])
  | some (clean, hex) => (parseInviteToken hex).map fun token => (clean, token)

def isMultiaddr (addr : Bytes) : Bool := ascii "/" <+: addr

/-- A trailing ` learner` asks to join without a vote. -/
def splitLearner (leaderPeerID : Bytes) : Bytes × Suffrage :=
  match Text.cutSuffix (ascii " learner") leaderPeerID with
  | some rest => (rest, .nonvoter)
  | none => (leaderPeerID, .voter)

/-- `join`: this node's request, and the leader's answer to it. -/
def join (env : Env) (leaderAddr : Bytes) (suffrage : Suffrage) (inviteToken : Bytes) :
    M Bytes := do
  let line := joinRequestLine ⟨(← get).peerID, env.advertisedAddr, suffrage, inviteToken⟩
  match env.join leaderAddr line with
  | .unsent e => throw e
  | .sent reply => do
    modify fun n => n.modifyRaft fun rf => { rf with joinsSent := rf.joinsSent ++ [leaderAddr] }
    let answer ← ofExcept reply
    if answer = ascii "OK" then return ascii "ok"
    else if answer = ascii "PENDING" then return ascii "pending"
    else throw (.joinRejected answer)

def joinTarget (env : Env) (leader : Bytes) : Except Err (Bytes × Bytes) := do
  let (leaderPeerID, inviteToken) ← splitInviteToken leader
  let leaderAddr ←
    if isMultiaddr leaderPeerID then pure leaderPeerID else env.resolveAddress leaderPeerID
  return (leaderAddr, inviteToken)

/-- The second branch of `handleAdd`: joining the cluster of a leader. -/
def joinLeader (env : Env) (leader : Bytes) (suffrage : Suffrage) : M Bytes := do
  let (leaderAddr, inviteToken) ← ofExcept (joinTarget env leader)
  wrapping .join (join env leaderAddr suffrage inviteToken)

def enterCluster (env : Env) (leaderPeerID : Bytes) : M Bytes := do
  let (leader, suffrage) := splitLearner leaderPeerID
  if leader = [] then do
    bootstrap env
    return (← get).peerID
  else do
    let status ← joinLeader env leader suffrage
    return (← get).peerID ++ (0x20 :: status)

def handleAdd (env : Env) (leaderPeerID : Bytes) : M Bytes := do
  wrapping .initRaft (initRaft env)
  enterCluster env leaderPeerID

/-! ## Learners -/

def handleAddLearner (env : Env) (joinPeerID joinAddr : Bytes) : M Bytes := do
  if joinPeerID = [] ∨ joinAddr = [] then throw .clientAddMissing
  else if (← get).isLeader then do
    addServerLine env joinPeerID joinAddr .nonvoter
    return (← get).peerID
  else if (← get).leaderID = [] then throw .clientAddNoLeader
  else do
    let line ← wrapping .clientAddForward
      (forwardJoin env (← get).leaderID ⟨joinPeerID, joinAddr, .nonvoter, []⟩)
    match cutPrefix (ascii "ERR: ") line with
    | some reason => throw (.lib reason)
    | none => return (← get).peerID

/-- The claimed peer is the one registered under `claimedPeerId`, and a remote caller has
to be it. -/
def handleAddDispatch (env : Env) (claimedPeerId : UInt16) (addr : Bytes)
    (remotePeer : Option Bytes) :
    M Bytes := do
  match (← get).registry.get claimedPeerId.toNat with
  | none => throw (.noPeerIDRegistered claimedPeerId)
  | some joinPeerID =>
    if remotePeer.any (· ≠ joinPeerID.1) then
      throw (.claimMismatch joinPeerID.1 (remotePeer.getD []))
    else handleAddLearner env joinPeerID.1 addr

/-! ## Leaving -/

def leaveCluster (env : Env) : M Unit := do
  match ← resolveWriteTarget with
  | .leader => removeServerLine env (← get).peerID
  | .forward leaderID => do
    let resp ← send env leaderID .leave []
    if resp ≠ [] then throw (.forwardLeaveRejected resp) else pure ()

def kickPeer (env : Env) (target : Bytes) : M Unit := do
  if target = [] then throw .kickMissingPeer
  else
    match ← resolveWriteTarget with
    | .leader => removeServerLine env target
    | .forward leaderID => do
      let resp ← send env leaderID .kick target
      if resp ≠ [] then throw (.forwardKickRejected resp) else pure ()

/-! ## Recruiting -/

def mintJoinInvite (env : Env) (suffrage : UInt8) : M Bytes := do
  let token ← wrapping .generateToken (ofExcept env.randomToken)
  putRecord env (joinInviteKey token.1) (encodeJoinInviteRecord suffrage)
  return token.1

def dialAndPushRecruit (env : Env) (ticket : Bytes) (suffrage : UInt8) : M Bytes := do
  let (deviceAddr, correlationToken) ← ofExcept (splitInviteToken ticket)
  if correlationToken = [] then throw (.recruitNoToken ticket)
  else if deviceAddr = [] then throw (.recruitNoAddress ticket)
  else do
    let inviteToken ← wrapping .recruitMint (mintJoinInvite env suffrage)
    let addr ←
      if isMultiaddr deviceAddr then pure deviceAddr
      else ofExcept (env.resolveAddress deviceAddr)
    let line := env.advertisedAddr ++ (0x20 :: (Text.hexEncode inviteToken ++
      (0x20 :: Text.hexEncode correlationToken)))
    let answer ← ofExcept (env.recruit addr line)
    match cutPrefix (ascii "OK ") answer with
    | some rest => return rest
    | none => throw (.recruitRejected answer)

/-! ## Execute -/

def dispatchExecute (env : Env) (sourceId destinationId : UInt16) (value : Data) : M Unit := do
  let n ← get
  match n.registry.get sourceId.toNat with
  | none => throw (.executeNoSource sourceId)
  | some sender =>
    if sender.1 ≠ n.peerID then throw (.executeNotOwnSource sender.1 n.peerID)
    else
      match n.registry.get destinationId.toNat with
      | none => throw (.executeNoDestination destinationId)
      | some dest =>
        if env.isPeerID dest.1 then ofExcept (env.sendExecute dest.1 value.1)
        else throw (.executeInvalidDestination dest.1)

/-! ## Records of the catalog -/

def setData (b : Bytes) : M Data :=
  match Data.ofBytes b with
  | some d => pure d
  | none => throw .dataTooLarge

def groupPut (env : Env) (id name : Bytes) (isPublic : Bool) : M Unit := do
  if isReservedGroupID id ∨ env.isPeerID id then throw (.groupReserved id)
  else handleConfirmForward env .set (groupKey id) (encodeGroupPayload name isPublic) true

def groupDelete (env : Env) (id : Bytes) : M Unit := do
  if isReservedGroupID id ∨ env.isPeerID id then throw (.groupReservedDelete id)
  else handleConfirmForward env .cascadeDelete (groupKey id) [] true

/-- An empty spec clears the stored one, an absent spec leaves it alone. -/
def commandPut (env : Env) (id name peerID : Bytes) (spec : Option Bytes) : M Unit := do
  let value ← ofExcept (match spec with
    | some [] => encodeCommandPayloadClearingSpec name peerID
    | some spec => encodeCommandPayloadWithSpec name peerID spec
    | none => encodeCommandPayload name peerID)
  handleConfirmForward env .set (commandKey id) value true

def stationPut (env : Env) (peerID name attrs : Bytes) : M Unit := do
  if peerID = [] then throw .stationPeerEmpty
  else do
    let value ← ofExcept (encodeStationPayload name attrs)
    handleConfirmForward env .set (stationKey peerID) value true

def groupCommandPut (env : Env) (commandID groupID : Bytes) : M Unit := do
  let key ← ofExcept (groupCommandKey commandID groupID)
  handleConfirmForward env .set key [] true

def groupCommandDelete (env : Env) (commandID groupID : Bytes) : M Unit := do
  let key ← ofExcept (groupCommandKey commandID groupID)
  handleConfirmForward env .del key [] true

def peerGroupPut (env : Env) (peerID groupID : Bytes) : M Unit := do
  if isAutoManagedGroupID groupID then throw (.groupManaged groupID)
  else do
    let key ← ofExcept (peerGroupKey peerID groupID)
    handleConfirmForward env .set key [] true

def peerGroupDelete (env : Env) (peerID groupID : Bytes) : M Unit := do
  if isAutoManagedGroupID groupID then throw (.groupManaged groupID)
  else do
    let key ← ofExcept (peerGroupKey peerID groupID)
    handleConfirmForward env .del key [] true

/-- The expiry is absolute, from this node's clock. -/
def execInviteCreate (env : Env) (token commandID inputsJSON : Bytes)
    (ttlSeconds : UInt64) : M Unit :=
  let expiresAtUnix :=
    if ttlSeconds = 0 then 0 else (Logrecord.uint64 env.now + ttlSeconds.toNat) % 2 ^ 64
  handleConfirmForward env .set (execInviteKey token)
    (encodeExecInviteRecord commandID inputsJSON expiresAtUnix) true

/-! ## Log records and transactions -/

/-- A command request is appended under the name of its authenticated author, any other record as it
is. -/
def logAppend (env : Env) (caller : CallerIdentity) (key value : Bytes) : M Unit := do
  if key.head? ≠ some Logrecord.logKeyPrefix then throw .logAppendPrefix
  else do
    let k ← ofExcept (Logrecord.parseKey key)
    if (parseCommandRequestLogKind k.kind).isSome then do
      let author := caller.remotePeer.getD (← get).peerID
      let payload ← ofExcept (encodeCommandRequestApplyPayload author value)
      handleOpForward env .appendCommandRequest key payload true
    else handleSetForward env key value true

def handleTxn (env : Env) (ops : List TxnOp) : M Unit := do
  let ops := ops.map TxnOp.spec
  ops.forM fun o => ofExcept (rejectReservedKey o.key)
  let payload ← ofExcept (encodeTxnPayload ops)
  handleOpForward env .txn [] payload true

def listRange (start stop key value : Data) : M Event := do
  match (← get).store.scanRange start.1 stop.1 1 with
  | [] => return .listRange start stop key value
  | (k, v) :: _ => do
    let k ← setData k
    let v ← setData v
    return .listRange start stop k v

def handleGet (key : Bytes) : M Bytes := do ofExcept ((← get).store.get! key)

end KvRaft.Daemon
