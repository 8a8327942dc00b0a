import KvRaft.Daemon.Handle

/-! # Dispatch (`pkg/daemon/daemon.go`: `handleShmEvent`)

`handleShmEvent` is the entry of every local and remote message: the refusals of remote callers, the
signature, the standing of a remote caller, then one program for each variant. -/

namespace KvRaft.Daemon

open Bytes Shmevent Kvfsm

def refusedToRemote : Event → Option Refused
  | .getPrivateKey _ => some .getPrivateKey
  | .getPublicKey _ => some .getPublicKey
  | .leave => some .leave
  | .execInviteRedeem .. => some .execInviteRedeem
  | .joinRequestCreate _ => some .joinRequestCreate
  | .joinRequestCancel _ => some .joinRequestCancel
  | .recruit .. => some .recruit
  | .publicAccess .. => some .publicAccess
  | .dialSubmitCommand .. => some .dialSubmitCommand
  | .dialQueryCommandLog .. => some .dialQueryCommandLog
  | .channelOpen .. => some .channelOpen
  | .channelSend .. => some .channelSend
  | .channelPoll .. => some .channelPoll
  | .channelListen .. => some .channelListen
  | .channelClose _ => some .channelClose
  | .channelCloseWrite _ => some .channelCloseWrite
  | .channelDataReady _ => some .channelDataReady
  | _ => none

def needsNoStanding : Event → Bool
  | .permitRequest .. => true
  | .permitConfirm .. => true
  | .setKey _ => true
  | .getKey .. => true
  | .bootstrapOrJoinCluster _ => true
  | .addLearner .. => true
  | .getVersion .. => true
  | _ => false

def checkRefused (caller : CallerIdentity) (m : Event) : M Unit :=
  match caller.remotePeer, refusedToRemote m with
  | some _, some r => throw (.notAvailableToRemote r)
  | _, _ => pure ()

def checkStanding (caller : CallerIdentity) (m : Event) : M Unit := do
  match caller.remotePeer with
  | none => pure ()
  | some p => do
    let n ← get
    if needsNoStanding m || isAuthorizedForGatedAccess n.store n.peerID p reservedGroupRemote ||
        isCommandLogCarveOut n.store m p then pure ()
    else throw (.notPermitted p n.peerID)

def dispatch (env : Env) (caller : CallerIdentity) (id : UInt16) : Event → M Event
  | .setKey value => do
    modify fun n => { n with registry := n.registry.insert id.toNat value }
    return .setKey value
  | .getKey sourceId _ => do
    match (← get).registry.get sourceId.toNat with
    | none => throw (.noEntryRegistered sourceId)
    | some v => return .getKey sourceId v
  | .setField sourceId value => do
    match (← get).registry.get sourceId.toNat with
    | none => throw (.noKeyRegistered sourceId)
    | some key => do
      ofExcept (rejectReservedKey key.1)
      handleSetForward env key.1 value.1 true
      return .setField sourceId value
  | .set key value => do
    ofExcept (rejectReservedKey key.1)
    handleSetForward env key.1 value.1 true
    return .set key value
  | .txn ops => do
    handleTxn env ops
    return .txn ops
  | .leave => do
    leaveCluster env
    return .leave
  | .kick peerID => do
    requireVoter caller
    kickPeer env peerID.1
    return .kick peerID
  | .groupPut gid name isPublic => do
    requireVoter caller
    groupPut env gid.1 name.1 isPublic
    return .groupPut gid name isPublic
  | .groupDelete gid => do
    requireVoter caller
    groupDelete env gid.1
    return .groupDelete gid
  | .commandPut cid name peerID spec => do
    requireVoter caller
    commandPut env cid.1 name.1 peerID.1 (spec.map (·.1))
    return .commandPut cid name peerID spec
  | .commandDelete cid => do
    requireVoter caller
    handleConfirmForward env .cascadeDelete (commandKey cid.1) [] true
    return .commandDelete cid
  | .stationPut peerID name attrs => do
    requireVoter caller
    stationPut env peerID.1 name.1 attrs.1
    return .stationPut peerID name attrs
  | .stationDelete peerID => do
    requireVoter caller
    handleConfirmForward env .del (stationKey peerID.1) [] true
    return .stationDelete peerID
  | .groupCommandPut commandID groupID => do
    requireVoter caller
    groupCommandPut env commandID.1 groupID.1
    return .groupCommandPut commandID groupID
  | .groupCommandDelete commandID groupID => do
    requireVoter caller
    groupCommandDelete env commandID.1 groupID.1
    return .groupCommandDelete commandID groupID
  | .peerGroupPut peerID groupID => do
    requireVoter caller
    peerGroupPut env peerID.1 groupID.1
    return .peerGroupPut peerID groupID
  | .peerGroupDelete peerID groupID => do
    requireVoter caller
    peerGroupDelete env peerID.1 groupID.1
    return .peerGroupDelete peerID groupID
  | .permitRequest kind peerID metadata => do
    handleSetForward env (systemKey kind statusPending peerID.1) metadata.1 true
    return .permitRequest kind peerID metadata
  | .permitConfirm kind peerID => do
    requireVoter caller
    handleConfirmForward env .confirm (systemKey kind statusPending peerID.1)
      (systemKey kind statusConfirmed peerID.1) true
    return .permitConfirm kind peerID
  | .permitRevoke kind peerID => do
    requireVoter caller
    handleConfirmForward env .del (systemKey kind statusConfirmed peerID.1) [] true
    return .permitRevoke kind peerID
  | .joinInviteCreate token suffrage => do
    requireVoter caller
    handleConfirmForward env .set (joinInviteKey token.1) (encodeJoinInviteRecord suffrage) true
    return .joinInviteCreate token suffrage
  | .joinInviteRevoke token => do
    requireVoter caller
    handleConfirmForward env .del (joinInviteKey token.1) [] true
    return .joinInviteRevoke token
  | .execInviteCreate token commandID inputsJSON ttlSeconds => do
    requireVoter caller
    execInviteCreate env token.1 commandID.1 inputsJSON.1 ttlSeconds
    return .execInviteCreate token commandID inputsJSON ttlSeconds
  | .execInviteRevoke token => do
    requireVoter caller
    handleConfirmForward env .del (execInviteKey token.1) [] true
    return .execInviteRevoke token
  | .joinRequestCreate _ => do
    let token ← wrapping .generateToken (ofExcept env.randomToken)
    modify fun n => { n with joinRequestToken := token.1 }
    return .joinRequestCreate token
  | .joinRequestCancel token => do
    modify fun n => if n.joinRequestToken = token.1 then { n with joinRequestToken := [] } else n
    return .joinRequestCancel token
  | .recruit ticket suffrage => do
    let result ← setData (← dialAndPushRecruit env ticket.1 suffrage)
    return .recruit result suffrage
  | .execute sourceId destinationId senderPeerID value => do
    dispatchExecute env sourceId destinationId value
    return .execute sourceId destinationId senderPeerID value
  | .pollExecute senderPeerID value => do
    match (← get).executeInbox with
    | [] => return .pollExecute senderPeerID value
    | (sender, payload) :: rest => do
      modify fun n => { n with executeInbox := rest }
      return .pollExecute sender payload
  | .getFieldByRegistry sourceId _ => do
    match (← get).registry.get sourceId.toNat with
    | none => throw (.noKeyRegistered sourceId)
    | some key => do
      let value ← setData (← handleGet key.1)
      return .getFieldByRegistry sourceId value
  | .getFieldByKey key _ => do
    let value ← setData (← handleGet key.1)
    return .getFieldByKey key value
  | .listRange start stop key value => listRange start stop key value
  | .logAppend key value => do
    logAppend env caller key.1 value.1
    return .logAppend key value
  | .getPublicKey _ => do return .getPublicKey (← get).ed25519Pub
  | .getPrivateKey _ => do return .getPrivateKey (← get).ed25519Priv
  | .getOwnAddr _ => do return .getOwnAddr (← setData env.advertisedAddr)
  | .bootstrapOrJoinCluster leaderAddr => do
    let peerID ← setData (← handleAdd env leaderAddr.1)
    return .bootstrapOrJoinCluster peerID
  | .addLearner claimedPeerId addr => do
    let peerID ← setData (← handleAddDispatch env claimedPeerId addr.1 caller.remotePeer)
    return .addLearner claimedPeerId peerID
  | .error _ => throw (.unknownEvent (ascii "error"))
  | .execTicket .. => throw (.unknownEvent (ascii "execTicket"))
  | .joinTicket .. => throw (.unknownEvent (ascii "joinTicket"))
  | .joinRequestTicket .. => throw (.unknownEvent (ascii "joinRequestTicket"))
  -- dialling another node, the channel sessions and the build's version leave this node as it is
  | m => ofExcept (env.dial m)

structure Request where
  msg : Msg
  crc : UInt32
  sig : Bytes

def handleShmEvent (env : Env) (r : Request) (caller : CallerIdentity) : M Event := do
  checkRefused caller r.msg.body
  if requiresSignature r.msg.body then ofExcept (env.verify caller.verifyPub r.msg r.crc r.sig)
  else pure ()
  checkStanding caller r.msg.body
  dispatch env caller r.msg.id r.msg.body

/-! ## The checks -/

@[simp] theorem final_checkRefused (caller : CallerIdentity) (m : Event) (n : Node) :
    (checkRefused caller m).final n = n := by
  unfold checkRefused
  split <;> rfl

theorem outcome_checkStanding {caller : CallerIdentity} {p : Bytes}
    (hcaller : caller.remotePeer = some p) (m : Event) (n : Node) :
    (checkStanding caller m).outcome n =
      if needsNoStanding m || isAuthorizedForGatedAccess n.store n.peerID p reservedGroupRemote ||
        isCommandLogCarveOut n.store m p then .ok () else .error (.notPermitted p n.peerID) := by
  simp only [checkStanding, hcaller, EStateM.outcome_get_bind]
  split_ifs <;> rfl

@[simp] theorem final_checkStanding (caller : CallerIdentity) (m : Event) (n : Node) :
    (checkStanding caller m).final n = n := by
  unfold checkStanding
  split
  · rfl
  · rw [EStateM.final_get_bind]
    split_ifs <;> rfl

theorem final_handleShmEvent_open {r : Request} (hrefused : refusedToRemote r.msg.body = none)
    (hsign : requiresSignature r.msg.body = true) (hopen : needsNoStanding r.msg.body = true)
    (env : Env) (caller : CallerIdentity) (n : Node) :
    (handleShmEvent env r caller).final n =
      match env.verify caller.verifyPub r.msg r.crc r.sig with
      | .ok () => (dispatch env caller r.msg.id r.msg.body).final n
      | .error _ => n := by
  have hcheck : checkRefused caller r.msg.body = pure () := by
    unfold checkRefused
    rw [hrefused]
    cases caller.remotePeer <;> rfl
  have hstanding : (checkStanding caller r.msg.body).outcome n = .ok () := by
    cases hcaller : caller.remotePeer with
    | none =>
      unfold checkStanding
      rw [hcaller]
      rfl
    | some p =>
      rw [outcome_checkStanding hcaller, hopen]
      rfl
  simp only [handleShmEvent, hcheck, pure_bind, hsign, if_true]
  rw [EStateM.final_bind, EStateM.outcome_ofExcept, EStateM.final_ofExcept]
  rcases env.verify caller.verifyPub r.msg r.crc r.sig with e | ⟨⟩
  · rfl
  · dsimp only
    rw [EStateM.final_bind_of_ok hstanding, final_checkStanding]

theorem handleShmEvent_open_cases {r : Request} (hrefused : refusedToRemote r.msg.body = none)
    (hsign : requiresSignature r.msg.body = true) (hopen : needsNoStanding r.msg.body = true)
    (env : Env) (caller : CallerIdentity) (n : Node) :
    ((handleShmEvent env r caller).final n = n ∧
      env.verify caller.verifyPub r.msg r.crc r.sig ≠ .ok ()) ∨
      ((handleShmEvent env r caller).final n = (dispatch env caller r.msg.id r.msg.body).final n ∧
        env.verify caller.verifyPub r.msg r.crc r.sig = .ok ()) := by
  rw [final_handleShmEvent_open hrefused hsign hopen]
  rcases env.verify caller.verifyPub r.msg r.crc r.sig with e | ⟨⟩
  · refine .inl ⟨rfl, fun h => ?_⟩
    cases h
  · exact .inr ⟨rfl, rfl⟩

theorem dispatch_of_ok {env : Env} {r : Request} {caller : CallerIdentity} {n : Node} {e : Event}
    (hok : (handleShmEvent env r caller).outcome n = .ok e) :
    (dispatch env caller r.msg.id r.msg.body).outcome n = .ok e ∧
      (handleShmEvent env r caller).final n =
        (dispatch env caller r.msg.id r.msg.body).final n := by
  have standing (hok : (checkStanding caller r.msg.body >>= fun _ =>
      dispatch env caller r.msg.id r.msg.body).outcome n = .ok e) :
      (dispatch env caller r.msg.id r.msg.body).outcome n = .ok e ∧
        (checkStanding caller r.msg.body >>= fun _ =>
          dispatch env caller r.msg.id r.msg.body).final n =
            (dispatch env caller r.msg.id r.msg.body).final n := by
    obtain ⟨_, -, hok, hfinal⟩ := EStateM.bind_of_ok hok
    rw [hfinal]
    rw [final_checkStanding] at hok ⊢
    exact ⟨hok, rfl⟩
  unfold handleShmEvent at hok ⊢
  obtain ⟨_, -, hok, hfinal⟩ := EStateM.bind_of_ok hok
  rw [hfinal]
  rw [final_checkRefused] at hok ⊢
  split_ifs at hok ⊢
  · obtain ⟨_, -, hok, hfinal⟩ := EStateM.bind_of_ok hok
    rw [hfinal]
    rw [EStateM.final_ofExcept] at hok ⊢
    exact standing hok
  · exact standing hok

end KvRaft.Daemon
