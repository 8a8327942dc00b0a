import KvRaft.Daemon.Enter

/-! # What no message changes

A node's name and its configuration are set when it starts, and the registry of message ids is
written by `setKey` alone. The frame `settingsFrame` says so; every program of the daemon stays
within it. -/

namespace KvRaft.Daemon

open Bytes Shmevent Kvfsm

/-- Name, join policy and registry stay as they are. -/
def settingsFrame : Frame Node where
  rel n n' := n'.peerID = n.peerID ∧ n'.requireConfirmForJoin = n.requireConfirmForJoin ∧
    n'.registry = n.registry
  refl _ := ⟨rfl, rfl, rfl⟩
  trans hab hbc := ⟨hbc.1.trans hab.1, hbc.2.1.trans hab.2.1, hbc.2.2.trans hab.2.2⟩

def Settled {α : Type} (f : M α) : Prop := settingsFrame.Keeps f

open Frame

/-! ## Raft and the leader -/

section Programs

variable (env : Env)

theorem settled_modify {g : Node → Node} (h : ∀ n, settingsFrame.rel n (g n)) :
    Settled (modify g : M PUnit) := keeps_modify h

theorem settled_modifyRaft (f : Raft → Raft) : Settled (modify fun n => n.modifyRaft f : M PUnit) :=
  settled_modify fun _ => ⟨rfl, rfl, rfl⟩

theorem settled_raftApply (cmd : Bytes) : Settled (raftApply env cmd) := by
  intro n
  rw [final_raftApply]
  split_ifs <;> exact ⟨rfl, rfl, rfl⟩

theorem settled_changeConfig (c : ConfigChange) : Settled (changeConfig env c) := by
  intro n
  rw [final_changeConfig]
  split_ifs <;> exact ⟨rfl, rfl, rfl⟩

theorem settled_resolveWriteTarget : Settled resolveWriteTarget :=
  keeps_get_bind fun _ => keeps_ofExcept _

theorem settled_send (leaderID : Bytes) (proto : Proto) (request : Bytes) :
    Settled (send env leaderID proto request) := by
  intro n
  rw [final_send]
  split <;> exact ⟨rfl, rfl, rfl⟩

theorem settled_applyOp (op : OpType) (key value : Bytes) : Settled (applyOp env op key value) := by
  refine (settled_raftApply env _).bind fun res => ?_
  split
  · exact keeps_throw _
  · exact keeps_pure _

theorem settled_handleOpForward (op : OpType) (key value : Bytes) (allow : Bool) :
    Settled (handleOpForward env op key value allow) := by
  refine settled_resolveWriteTarget.bind fun target => ?_
  cases target with
  | leader => exact settled_applyOp env op key value
  | forward leaderID =>
    refine keeps_ite (fun _ => ?_) fun _ => keeps_throw _
    exact (settled_send env _ _ _).bind fun _ => (keeps_ofExcept _).bind fun _ => keeps_pure _

theorem settled_handleConfirmForwardWith {onConfirmed : Bytes → M Unit}
    (h : ∀ key, Settled (onConfirmed key)) (op : OpType) (key1 key2 : Bytes) (allow : Bool) :
    Settled (handleConfirmForwardWith env onConfirmed op key1 key2 allow) := by
  refine settled_resolveWriteTarget.bind fun target => ?_
  cases target with
  | leader =>
    exact (settled_applyOp env _ _ _).bind fun _ => keeps_ite (fun _ => h key2) fun _ =>
      keeps_pure _
  | forward leaderID =>
    refine keeps_ite (fun _ => ?_) fun _ => keeps_throw _
    exact (settled_send env _ _ _).bind fun _ => keeps_ite (fun _ => keeps_throw _) fun _ =>
      keeps_pure _

theorem settled_putRecord (key value : Bytes) : Settled (putRecord env key value) :=
  settled_handleConfirmForwardWith env (fun _ => keeps_pure _) _ _ _ _

/-! ## Members -/

theorem settled_recordClusterMember (peerID : Bytes) (role : UInt8) :
    Settled (recordClusterMember env peerID role) :=
  (keeps_ofExcept _).bind fun _ => settled_handleOpForward env _ _ _ _

theorem settled_setPeerGroup (peerID groupID : Bytes) : Settled (setPeerGroup env peerID groupID) :=
  (keeps_ofExcept _).bind fun _ => settled_handleOpForward env _ _ _ _

theorem settled_deletePeerGroup (peerID groupID : Bytes) :
    Settled (deletePeerGroup env peerID groupID) :=
  (keeps_ofExcept _).bind fun _ =>
    settled_handleConfirmForwardWith env (fun _ => keeps_pure _) _ _ _ _

theorem settled_syncMemberGroups (peerID : Bytes) (role : UInt8) :
    Settled (syncMemberGroups env peerID role) := by
  refine (keeps_wrapping _ (settled_putRecord env _ _)).bind fun _ =>
    (settled_setPeerGroup env _ _).bind fun _ => keeps_ite (fun _ => ?_) fun _ => ?_
  · exact (settled_setPeerGroup env _ _).bind fun _ => settled_deletePeerGroup env _ _
  · exact (settled_setPeerGroup env _ _).bind fun _ => settled_deletePeerGroup env _ _

theorem settled_transferLeadership : Settled (transferLeadershipToStableVoter env) := by
  refine keeps_modify fun n => ?_
  split
  · exact ⟨rfl, rfl, rfl⟩
  · split <;> exact ⟨rfl, rfl, rfl⟩

theorem settled_addServerLine (peerID addr : Bytes) (sf : Suffrage) :
    Settled (addServerLine env peerID addr sf) :=
  (settled_changeConfig env _).bind fun _ =>
    (settled_recordClusterMember env _ _).ignore.bind fun _ =>
    (settled_syncMemberGroups env _ _).ignore.bind fun _ =>
      keeps_ite (fun _ => keeps_pure _) fun _ => settled_transferLeadership env

theorem settled_removeServerLine (peerID : Bytes) : Settled (removeServerLine env peerID) := by
  refine (settled_changeConfig env _).bind fun _ => (settled_applyOp env _ _ _).ignore.bind fun _ =>
    Keeps.ignore ?_
  exact (settled_deletePeerGroup env _ _).bind fun _ =>
    (settled_deletePeerGroup env _ _).bind fun _ =>
    settled_deletePeerGroup env _ _

theorem settled_admitClusterJoinIfConfirmed (key : Bytes) :
    Settled (admitClusterJoinIfConfirmed env key) := by
  refine keeps_ite (fun _ => keeps_pure _) fun _ => keeps_get_bind fun _ => ?_
  refine (keeps_wrapping _ (keeps_ofExcept _)).bind fun _ =>
    (keeps_wrapping _ (keeps_ofExcept _)).bind fun _ => ?_
  exact keeps_wrapping _ (settled_addServerLine env _ _ _)

theorem settled_handleConfirmForward (op : OpType) (key1 key2 : Bytes) (allow : Bool) :
    Settled (handleConfirmForward env op key1 key2 allow) :=
  settled_handleConfirmForwardWith env (settled_admitClusterJoinIfConfirmed env) _ _ _ _

/-! ## Join requests -/

theorem settled_consumeJoinInvite (token : Bytes) : Settled (consumeJoinInvite env token) := by
  refine (keeps_wrapping _ (settled_raftApply env _)).bind fun res => ?_
  split
  · exact keeps_throw _
  · exact (keeps_wrapping _ (keeps_ofExcept _)).bind fun _ => keeps_pure _

theorem settled_forwardJoin (leaderID : Bytes) (r : JoinRequest) :
    Settled (forwardJoin env leaderID r) := by
  refine (settled_send env _ _ _).bind fun resp => ?_
  split
  · exact keeps_pure _
  · exact keeps_throw _
  · exact keeps_throw _

theorem settled_admitOrLodgeJoin (r : JoinRequest) : Settled (admitOrLodgeJoin env r) := by
  refine keeps_ite (fun _ => ?_) fun _ => keeps_get_bind fun _ =>
    keeps_ite (fun _ => ?_) fun _ => ?_
  · exact (settled_consumeJoinInvite env _).bind fun _ =>
      (settled_addServerLine env _ _ _).bind fun _ => keeps_pure _
  · exact (settled_handleOpForward env _ _ _ _).bind fun _ => keeps_pure _
  · exact (settled_addServerLine env _ _ _).bind fun _ => keeps_pure _

theorem settled_handleJoinStream (stream : Bytes) : Settled (handleJoinStream env stream) := by
  refine (keeps_wrapping _ (keeps_ofExcept _)).bind fun r => keeps_get_bind fun _ =>
    keeps_ite (fun _ => settled_admitOrLodgeJoin env r) fun _ => keeps_get_bind fun _ =>
      keeps_ite (fun _ => keeps_throw _) fun _ => keeps_get_bind fun _ => ?_
  exact (keeps_wrapping _ (settled_forwardJoin env _ _)).bind fun _ => keeps_pure _

theorem settled_handleForwardJoinStream (stream : Bytes) :
    Settled (handleForwardJoinStream env stream) :=
  (keeps_wrapping _ (keeps_ofExcept _)).bind fun r => keeps_get_bind fun _ =>
    keeps_ite (fun _ => settled_admitOrLodgeJoin env r) fun _ => keeps_get_bind fun _ =>
      keeps_throw _

theorem settled_handleAddLearner (p addr : Bytes) : Settled (handleAddLearner env p addr) := by
  refine keeps_ite (fun _ => keeps_throw _) fun _ => keeps_get_bind fun _ => keeps_ite (fun _ => ?_)
    fun _ => keeps_get_bind fun _ => keeps_ite (fun _ => keeps_throw _) fun _ =>
      keeps_get_bind fun _ => ?_
  · exact (settled_addServerLine env _ _ _).bind fun _ => keeps_get_bind fun _ => keeps_pure _
  · refine (keeps_wrapping _ (settled_forwardJoin env _ _)).bind fun line => ?_
    split
    · exact keeps_throw _
    · exact keeps_get_bind fun _ => keeps_pure _

theorem settled_handleAddDispatch (claimedPeerId : UInt16) (addr : Bytes) (remote : Option Bytes) :
    Settled (handleAddDispatch env claimedPeerId addr remote) := by
  refine keeps_get_bind fun n => ?_
  split
  · exact keeps_throw _
  · exact keeps_ite (fun _ => keeps_throw _) fun _ => settled_handleAddLearner env _ _

/-! ## Founding a cluster -/

theorem settled_initRaft : Settled (initRaft env) := by
  refine keeps_get_bind fun n => ?_
  split
  · exact keeps_pure _
  · exact keeps_get_bind fun _ => (keeps_ofExcept _).bind fun _ => keeps_modify fun _ =>
      ⟨rfl, rfl, rfl⟩

theorem settled_bootstrapCluster : Settled (bootstrapCluster env) := by
  refine keeps_get_bind fun n => ?_
  split
  · exact keeps_modify fun _ => ⟨rfl, rfl, rfl⟩
  · exact keeps_throw _

theorem settled_bootstrap : Settled (bootstrap env) := by
  refine (keeps_wrapping _ (settled_bootstrapCluster env)).bind fun _ =>
    (keeps_wrapping _ ((keeps_ofExcept _).bind fun _ => settled_modifyRaft _)).bind fun _ =>
      (keeps_wrapping _ (keeps_forM fun _ => keeps_wrapping _ (settled_putRecord env _ _))).bind
        fun _ =>
        keeps_wrapping _ ?_
  exact (keeps_wrapping _ (settled_putRecord env _ _)).bind fun _ =>
    (keeps_wrapping _ (keeps_ofExcept _)).bind fun _ =>
      (keeps_wrapping _ (settled_putRecord env _ _)).bind fun _ =>
        (keeps_wrapping _ (keeps_ofExcept _)).bind fun _ =>
          keeps_wrapping _ (settled_putRecord env _ _)

theorem settled_join (leaderAddr : Bytes) (sf : Suffrage) (token : Bytes) :
    Settled (join env leaderAddr sf token) := by
  refine keeps_get_bind fun n => ?_
  dsimp only
  cases env.join leaderAddr (joinRequestLine ⟨n.peerID, env.advertisedAddr, sf, token⟩) with
  | unsent e => exact keeps_throw e
  | sent reply =>
    refine (settled_modifyRaft _).bind fun _ => (keeps_ofExcept _).bind fun answer => ?_
    exact keeps_ite (fun _ => keeps_pure _) fun _ =>
      keeps_ite (fun _ => keeps_pure _) fun _ => keeps_throw _

theorem settled_handleAdd (leaderPeerID : Bytes) : Settled (handleAdd env leaderPeerID) := by
  refine (keeps_wrapping _ (settled_initRaft env)).bind fun _ => ?_
  refine keeps_ite (fun _ => ?_) fun _ => ?_
  · exact (settled_bootstrap env).bind fun _ => keeps_get_bind fun _ => keeps_pure _
  · refine Keeps.bind ?_ fun _ => keeps_get_bind fun _ => keeps_pure _
    exact (keeps_ofExcept _).bind fun _ => keeps_wrapping _ (settled_join env _ _ _)

/-! ## Messages -/

variable (caller : CallerIdentity)

theorem settled_requireVoter : Settled (requireVoter caller) := by
  unfold requireVoter
  split
  · exact keeps_pure _
  · exact keeps_get_bind fun _ => keeps_ite (fun _ => keeps_pure _) fun _ => keeps_throw _

theorem settled_voterOp {f : M Unit} (h : Settled f) (e : Event) :
    Settled (do requireVoter caller; f; return e) :=
  (settled_requireVoter caller).bind fun _ => h.bind fun _ => keeps_pure _

theorem settled_setData (b : Bytes) : Settled (setData b) := by
  unfold setData
  split
  · exact keeps_pure _
  · exact keeps_throw _

theorem settled_answer {f : M Bytes} (h : Settled f) (reply : Data → Event) :
    Settled (do let d ← setData (← f); return reply d) :=
  h.bind fun _ => (settled_setData _).bind fun _ => keeps_pure _

theorem settled_handleGet (key : Bytes) : Settled (handleGet key) :=
  keeps_get_bind fun _ => keeps_ofExcept _

theorem settled_leaveCluster : Settled (leaveCluster env) := by
  refine settled_resolveWriteTarget.bind fun target => ?_
  cases target with
  | leader => exact keeps_get_bind fun _ => settled_removeServerLine env _
  | forward leaderID =>
    exact (settled_send env _ _ _).bind fun _ => keeps_ite (fun _ => keeps_throw _) fun _ =>
      keeps_pure _

theorem settled_kickPeer (target : Bytes) : Settled (kickPeer env target) := by
  refine keeps_ite (fun _ => keeps_throw _) fun _ => settled_resolveWriteTarget.bind fun t => ?_
  cases t with
  | leader => exact settled_removeServerLine env _
  | forward leaderID =>
    exact (settled_send env _ _ _).bind fun _ => keeps_ite (fun _ => keeps_throw _) fun _ =>
      keeps_pure _

theorem settled_dialAndPushRecruit (ticket : Bytes) (sf : UInt8) :
    Settled (dialAndPushRecruit env ticket sf) := by
  refine (keeps_ofExcept _).bind fun _ => keeps_ite (fun _ => keeps_throw _) fun _ =>
    keeps_ite (fun _ => keeps_throw _) fun _ => ?_
  refine (keeps_wrapping _ ?_).bind fun _ => keeps_ite (fun _ => (keeps_pure _).bind fun _ => ?_)
    fun _ => (keeps_ofExcept _).bind fun _ => ?_
  · exact (keeps_wrapping _ (keeps_ofExcept _)).bind fun _ =>
      (settled_putRecord env _ _).bind fun _ => keeps_pure _
  -- the answer of the device is read in the same way on both paths
  all_goals
    refine (keeps_ofExcept _).bind fun answer => ?_
    split
    · exact keeps_pure _
    · exact keeps_throw _

theorem settled_dispatchExecute (sourceId destinationId : UInt16) (value : Data) :
    Settled (dispatchExecute env sourceId destinationId value) := by
  refine keeps_get_bind fun n => ?_
  split
  · exact keeps_throw _
  · refine keeps_ite (fun _ => keeps_throw _) fun _ => ?_
    split
    · exact keeps_throw _
    · exact keeps_ite (fun _ => keeps_ofExcept _) fun _ => keeps_throw _

theorem settled_logAppend (key value : Bytes) : Settled (logAppend env caller key value) := by
  refine keeps_ite (fun _ => keeps_throw _) fun _ => (keeps_ofExcept _).bind fun _ =>
    keeps_ite (fun _ => keeps_get_bind fun _ => ?_) fun _ => settled_handleOpForward env _ _ _ _
  exact (keeps_ofExcept _).bind fun _ => settled_handleOpForward env _ _ _ _

theorem settled_handleTxn (ops : List TxnOp) : Settled (handleTxn env ops) :=
  (keeps_forM fun _ => keeps_ofExcept _).bind fun _ => (keeps_ofExcept _).bind fun _ =>
    settled_handleOpForward env _ _ _ _

theorem settled_listRange (start stop key value : Data) :
    Settled (listRange start stop key value) := by
  refine keeps_get_bind fun n => ?_
  split
  · exact keeps_pure _
  · exact (settled_setData _).bind fun _ => (settled_setData _).bind fun _ => keeps_pure _

theorem settled_dispatch (id : UInt16) {m : Event} (h : ∀ v, m ≠ .setKey v) :
    Settled (dispatch env caller id m) := by
  have confirm := settled_handleConfirmForward env
  have write := settled_handleOpForward env
  cases m with
  | setKey v => exact absurd rfl (h v)
  | getKey sourceId _ =>
    refine keeps_get_bind fun n => ?_
    split
    · exact keeps_throw _
    · exact keeps_pure _
  | setField sourceId value =>
    refine keeps_get_bind fun n => ?_
    split
    · exact keeps_throw _
    · exact (keeps_ofExcept _).bind fun _ => (write _ _ _ _).bind fun _ => keeps_pure _
  | set key value =>
    exact (keeps_ofExcept _).bind fun _ => (write _ _ _ _).bind fun _ => keeps_pure _
  | txn ops => exact (settled_handleTxn env ops).bind fun _ => keeps_pure _
  | leave => exact (settled_leaveCluster env).bind fun _ => keeps_pure _
  | kick peerID => exact settled_voterOp caller (settled_kickPeer env _) _
  | groupPut gid name isPublic =>
    exact settled_voterOp caller (keeps_ite (fun _ => keeps_throw _) fun _ => confirm _ _ _ _) _
  | groupDelete gid =>
    exact settled_voterOp caller (keeps_ite (fun _ => keeps_throw _) fun _ => confirm _ _ _ _) _
  | commandPut cid name peerID spec =>
    exact settled_voterOp caller ((keeps_ofExcept _).bind fun _ => confirm _ _ _ _) _
  | commandDelete cid => exact settled_voterOp caller (confirm _ _ _ _) _
  | stationPut peerID name attrs =>
    refine settled_voterOp caller (keeps_ite (fun _ => keeps_throw _) fun _ => ?_) _
    exact (keeps_ofExcept _).bind fun _ => confirm _ _ _ _
  | stationDelete peerID => exact settled_voterOp caller (confirm _ _ _ _) _
  | groupCommandPut commandID groupID =>
    exact settled_voterOp caller ((keeps_ofExcept _).bind fun _ => confirm _ _ _ _) _
  | groupCommandDelete commandID groupID =>
    exact settled_voterOp caller ((keeps_ofExcept _).bind fun _ => confirm _ _ _ _) _
  | peerGroupPut peerID groupID =>
    refine settled_voterOp caller (keeps_ite (fun _ => keeps_throw _) fun _ => ?_) _
    exact (keeps_ofExcept _).bind fun _ => confirm _ _ _ _
  | peerGroupDelete peerID groupID =>
    refine settled_voterOp caller (keeps_ite (fun _ => keeps_throw _) fun _ => ?_) _
    exact (keeps_ofExcept _).bind fun _ => confirm _ _ _ _
  | permitRequest kind peerID metadata => exact (write _ _ _ _).bind fun _ => keeps_pure _
  | permitConfirm kind peerID => exact settled_voterOp caller (confirm _ _ _ _) _
  | permitRevoke kind peerID => exact settled_voterOp caller (confirm _ _ _ _) _
  | joinInviteCreate token suffrage => exact settled_voterOp caller (confirm _ _ _ _) _
  | joinInviteRevoke token => exact settled_voterOp caller (confirm _ _ _ _) _
  | execInviteCreate token commandID inputsJSON ttlSeconds =>
    exact settled_voterOp caller (confirm _ _ _ _) _
  | execInviteRevoke token => exact settled_voterOp caller (confirm _ _ _ _) _
  | joinRequestCreate _ =>
    refine (keeps_wrapping _ (keeps_ofExcept _)).bind fun _ =>
      (settled_modify fun n => ?_).bind fun _ => keeps_pure _
    exact ⟨rfl, rfl, rfl⟩
  | joinRequestCancel token =>
    refine (settled_modify fun n => ?_).bind fun _ => keeps_pure _
    split_ifs <;> exact ⟨rfl, rfl, rfl⟩
  | recruit ticket suffrage => exact settled_answer (settled_dialAndPushRecruit env _ _) _
  | execute sourceId destinationId senderPeerID value =>
    exact (settled_dispatchExecute env _ _ _).bind fun _ => keeps_pure _
  | pollExecute senderPeerID value =>
    refine keeps_get_bind fun n => ?_
    split
    · exact keeps_pure _
    · refine (settled_modify fun n => ?_).bind fun _ => keeps_pure _
      exact ⟨rfl, rfl, rfl⟩
  | getFieldByRegistry sourceId _ =>
    refine keeps_get_bind fun n => ?_
    split
    · exact keeps_throw _
    · exact settled_answer (settled_handleGet _) _
  | getFieldByKey key _ => exact settled_answer (settled_handleGet _) _
  | listRange start stop key value => exact settled_listRange start stop key value
  | logAppend key value => exact (settled_logAppend env caller _ _).bind fun _ => keeps_pure _
  | getPublicKey _ => exact keeps_get_bind fun _ => keeps_pure _
  | getPrivateKey _ => exact keeps_get_bind fun _ => keeps_pure _
  | getOwnAddr _ => exact (settled_setData _).bind fun _ => keeps_pure _
  | bootstrapOrJoinCluster leaderAddr => exact settled_answer (settled_handleAdd env _) _
  | addLearner claimedPeerId addr => exact settled_answer (settled_handleAddDispatch env _ _ _) _
  | error _ => exact keeps_throw _
  | execTicket _ _ => exact keeps_throw _
  | joinTicket _ _ => exact keeps_throw _
  | joinRequestTicket _ _ => exact keeps_throw _
  | _ => exact keeps_ofExcept _

theorem final_handleShmEvent (r : Request) (n : Node) :
    (handleShmEvent env r caller).final n = n ∨
      (handleShmEvent env r caller).final n =
        (dispatch env caller r.msg.id r.msg.body).final n := by
  have hgate : (checkStanding caller r.msg.body >>= fun _ =>
      dispatch env caller r.msg.id r.msg.body).final n = n ∨
      (checkStanding caller r.msg.body >>= fun _ =>
        dispatch env caller r.msg.id r.msg.body).final n =
        (dispatch env caller r.msg.id r.msg.body).final n := by
    rw [EStateM.final_bind, final_checkStanding]
    cases (checkStanding caller r.msg.body).outcome n with
    | error e => exact .inl rfl
    | ok _ => exact .inr rfl
  unfold handleShmEvent
  rw [EStateM.final_bind, final_checkRefused]
  cases (checkRefused caller r.msg.body).outcome n with
  | error e => exact .inl rfl
  | ok _ =>
    dsimp only
    split_ifs
    · rw [EStateM.final_bind, EStateM.outcome_ofExcept, EStateM.final_ofExcept]
      cases env.verify caller.verifyPub r.msg r.crc r.sig with
      | error e => exact .inl rfl
      | ok _ => exact hgate
    · exact hgate

theorem policy_handleShmEvent (r : Request) (n : Node) :
    ((handleShmEvent env r caller).final n).peerID = n.peerID ∧
      ((handleShmEvent env r caller).final n).requireConfirmForJoin = n.requireConfirmForJoin := by
  rcases final_handleShmEvent env caller r n with h | h <;> rw [h]
  · exact ⟨rfl, rfl⟩
  by_cases hkey : ∃ v, r.msg.body = .setKey v
  · obtain ⟨v, hv⟩ := hkey
    rw [hv]
    exact ⟨rfl, rfl⟩
  · obtain ⟨hname, hpolicy, -⟩ := settled_dispatch env caller r.msg.id (fun v hv => hkey ⟨v, hv⟩) n
    exact ⟨hname, hpolicy⟩

theorem registry_handleShmEvent (r : Request) (n : Node) :
    ((handleShmEvent env r caller).final n).registry =
      match r.msg.body, env.verify caller.verifyPub r.msg r.crc r.sig with
      | .setKey v, .ok () => n.registry.insert r.msg.id.toNat v
      | _, _ => n.registry := by
  by_cases hkey : ∃ v, r.msg.body = .setKey v
  · obtain ⟨v, hv⟩ := hkey
    rw [final_handleShmEvent_open (by rw [hv]; rfl) (by rw [hv]; rfl) (by rw [hv]; rfl)]
    rcases env.verify caller.verifyPub r.msg r.crc r.sig with e | ⟨⟩
    · rw [hv]
    · rw [hv]
      rfl
  · have hsame : ((handleShmEvent env r caller).final n).registry = n.registry := by
      rcases final_handleShmEvent env caller r n with h | h <;> rw [h]
      exact (settled_dispatch env caller r.msg.id (fun v hv => hkey ⟨v, hv⟩) n).2.2
    rw [hsame]
    split
    · rename_i v hv _
      exact absurd ⟨v, hv⟩ hkey
    · rfl

end Programs

end KvRaft.Daemon
