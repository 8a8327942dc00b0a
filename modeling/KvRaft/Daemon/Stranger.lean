import KvRaft.Daemon.Enter
import KvRaft.Daemon.Join
import KvRaft.Daemon.Submit

/-! # What a caller without standing can do

A remote caller that is no voter and has no standing passes the checks of `handleShmEvent` with a
few variants only. `StrangerEffect` lists what these are meant to be good for. Two variants do more:
a `bootstrapOrJoinCluster` is obeyed whoever sends it, and an `addLearner` that is handed to the
leader writes the caller's address into a line without looking for white space in it. `Harmless`
says when neither happens. -/

namespace KvRaft.Daemon

open Bytes Shmevent Kvfsm

/-! ## The effects meant -/

/-- The leader reads the line as a request of `p` to join without a vote, if at all. -/
def AsksForLearner (p line : Bytes) : Prop :=
  ∀ r, parseJoinRequest line = .ok r → r.peerID = p ∧ r.suffrage = .nonvoter ∧ r.inviteToken = []

/-- The requests that may be handed to the leader for the stranger `p`. -/
inductive StrangerRequest (p : Bytes) : Proto → Bytes → Prop
  | pending (kind : UInt8) (id value : Bytes) :
      StrangerRequest p .set (encodeCommand .set (systemKey kind statusPending id) value)
  | request {key payload record : Bytes}
      (h : decodeCommandRequestApplyPayload payload = .ok (p, record)) :
      StrangerRequest p .set (encodeCommand .appendCommandRequest key payload)
  | learner {line : Bytes} (h : AsksForLearner p line) : StrangerRequest p .join line

/-- What a message of the stranger `p` may change: nothing but the registry, one pending record, the
store by a request of `p`, the configuration by `p` as a learner, or any of these on the leader. -/
inductive StrangerEffect (p : Bytes) (n n' : Node) : Prop
  | unchanged (hs : n'.store = n.store) (hr : n'.raft = n.raft) (hf : n'.forwarded = n.forwarded)
  | pending (kind : UInt8) (id : Bytes)
      (hs : ∀ key, key ≠ systemKey kind statusPending id → n'.store.get key = n.store.get key)
      (hr : n'.raft = n.raft) (hf : n'.forwarded = n.forwarded)
  | request (hs : OwnChange p n.store n'.store) (hr : n'.raft = n.raft)
      (hf : n'.forwarded = n.forwarded)
  | learner (servers : List Server) (heffect : MemberEffect p servers n n')
      (hothers : servers.filter (·.id ≠ p) = n.servers.filter (·.id ≠ p))
      (hvote : ∀ srv ∈ servers, srv.id = p → srv.suffrage = .nonvoter)
  | handed (f : Forwarded) (h : n' = n.forward f) (hreq : StrangerRequest p f.proto f.request)

theorem StrangerEffect.refl (p : Bytes) (n : Node) : StrangerEffect p n n := .unchanged rfl rfl rfl

variable {n : Node} {p : Bytes} {caller : CallerIdentity}

theorem StrangerEffect.joinsSent {n' : Node} (h : StrangerEffect p n n') :
    n'.raft.map (·.joinsSent) = n.raft.map (·.joinsSent) := by
  cases h with
  | unchanged _ hr _ => rw [hr]
  | pending _ _ _ hr _ => rw [hr]
  | request _ hr _ => rw [hr]
  | learner _ heffect _ _ => exact heffect.joinsSent
  | handed f h _ => rw [h]; rfl

theorem StrangerEffect.servers_ne {n' : Node} (h : StrangerEffect p n n')
    (hempty : n.servers = []) {id addr : Bytes} : n'.servers ≠ [⟨.voter, id, addr⟩] := by
  have hsame : n'.raft = n.raft → n'.servers ≠ [⟨.voter, id, addr⟩] := by
    intro hr
    rw [Node.servers, hr]
    change n.servers ≠ _
    rw [hempty]
    exact (List.cons_ne_nil _ _).symm
  cases h with
  | unchanged _ hr _ => exact hsame hr
  | pending _ _ _ hr _ => exact hsame hr
  | request _ hr _ => exact hsame hr
  | learner servers heffect hothers hvote =>
    rintro hs
    rw [heffect.servers] at hs
    subst hs
    by_cases hid : id = p
    · cases hvote _ (List.mem_singleton.mpr rfl) hid
    · simp [hempty, hid] at hothers
  | handed f h _ => exact hsame (by rw [h]; rfl)

/-! ## Requests and pending records -/

theorem permitRequest_effect (p : Bytes) (env : Env) (caller : CallerIdentity) (id : UInt16)
    (kind : UInt8) (peerID metadata : Data) (n : Node) :
    StrangerEffect p n
      ((dispatch env caller id (.permitRequest kind peerID metadata)).final n) := by
  have hf : (dispatch env caller id (.permitRequest kind peerID metadata)).final n =
      (handleOpForward env .set (systemKey kind statusPending peerID.1) metadata.1 true).final n :=
    EStateM.final_bind_of_pure (fun _ _ => rfl) n
  rw [hf]
  have hk : (systemKey kind statusPending peerID.1).length < 256 ^ 4 := by
    have := peerID.2
    simp only [systemKey, List.length_cons]
    omega
  have hv : metadata.1.length < 256 ^ 4 := by
    have := metadata.2
    omega
  rcases final_handleOpForward env .set (systemKey kind statusPending peerID.1) metadata.1 n with
    h | h | ⟨leader, h⟩ <;> rw [h]
  · exact .refl p n
  · exact .pending kind peerID.1 (fun key hne =>
      get_apply_of_ne rfl hk hv hne n.store env.now) rfl rfl
  · exact .handed _ rfl (.pending kind peerID.1 metadata.1)

theorem logAppend_effect {key value : Data}
    (hcaller : caller.remotePeer = some p)
    (hcarve : isCommandLogCarveOut n.store (.logAppend key value) p = true) (env : Env)
    (id : UInt16) :
    StrangerEffect p n ((dispatch env caller id (.logAppend key value)).final n) := by
  rcases final_logAppend_carveOut hcaller hcarve env id with
    h | ⟨payload, hpay, h | ⟨leader, h⟩⟩ <;>
    rw [h]
  · exact .refl p n
  · rcases submission_applied hpay env n with hs | ⟨commandID, happ⟩
    · exact .unchanged hs rfl rfl
    · exact .request (.inr ⟨key.1, value.1, commandID, happ⟩) rfl rfl
  · exact .handed _ rfl (.request (decodeCommandRequestApplyPayload_encode hpay))

/-! ## Bootstrapping and joining -/

/-- The node does nothing on a `bootstrapOrJoinCluster`: it cannot start raft, has a state already,
or its request to join does not go out. Once a request is written, the leader may have added the
node whatever the answer is. -/
def Inert (env : Env) (n : Node) (leaderPeerID : Bytes) : Prop :=
  match n.raft with
  | none => ∃ e, env.newRaft n.store = .error e
  | some rf =>
    if (splitLearner leaderPeerID).1 = [] then rf.hasState = true
    else ∀ addr token, joinTarget env (splitLearner leaderPeerID).1 = .ok (addr, token) →
      ∃ e, env.join addr (ownJoinLine env n (splitLearner leaderPeerID).2 token) = .unsent e

theorem handleAdd_effect_iff (p : Bytes) (env : Env) (leaderPeerID : Bytes) (n : Node) :
    StrangerEffect p n ((handleAdd env leaderPeerID).final n) ↔ Inert env n leaderPeerID := by
  rw [final_handleAdd]
  unfold Inert
  rcases hraft : n.raft with _ | rf
  · dsimp only
    rcases env.newRaft n.store with e | ⟨rf, s⟩
    · exact iff_of_true (.refl p n) ⟨e, rfl⟩
    · refine iff_of_false (fun h => ?_) (by rintro ⟨e, h⟩; cases h)
      have hsome := keeps_enterCluster env leaderPeerID { n with raft := some rf, store := s } rfl
      have hnone := h.joinsSent
      rw [hraft, Option.map_none, Option.map_eq_none_iff] at hnone
      simp [hnone] at hsome
  dsimp only
  rw [final_enterCluster]
  split_ifs with hleader
  · have hboot := final_bootstrap hraft env
    cases hstate : rf.hasState with
    | true =>
      rw [hstate, if_pos rfl] at hboot
      rw [hboot]
      exact iff_of_true (.refl p n) rfl
    | false =>
      rw [hstate, if_neg Bool.false_ne_true] at hboot
      refine iff_of_false (fun h => h.servers_ne ?_ hboot) Bool.false_ne_true
      rw [Node.servers, hraft]
      exact rf.fresh hstate
  · rw [final_joinLeader]
    rcases joinTarget env (splitLearner leaderPeerID).1 with e | ⟨addr, token⟩
    · refine iff_of_true (.refl p n) fun addr token h => ?_
      cases h
    dsimp only
    cases hjoin : env.join addr (ownJoinLine env n (splitLearner leaderPeerID).2 token) with
    | unsent e =>
      refine iff_of_true (.refl p n) fun addr' token' h => ?_
      cases h
      exact ⟨e, hjoin⟩
    | sent reply =>
      refine iff_of_false (fun h => ?_) fun h => ?_
      · have hsent := h.joinsSent
        simp [Node.modifyRaft, hraft] at hsent
      · obtain ⟨e, he⟩ := h addr token rfl
        cases hjoin.symm.trans he

/-! ## Learners -/

theorem nonvoter_addNonvoter {addr : Bytes} {servers : List Server}
    (hvote : ∀ srv ∈ servers, srv.id = p → srv.suffrage = .nonvoter) :
    ∀ srv ∈ nextConfiguration servers (.addNonvoter p addr),
      srv.id = p → srv.suffrage = .nonvoter := by
  intro srv hmem hid
  rcases mem_upsert hmem with h | rfl | ⟨⟨sf, oldID, address⟩, hold, holdID, rfl⟩
  · exact hvote srv h hid
  · rfl
  · cases hvote _ hold holdID
    rfl

theorem nonvoter_of_isVoter (hvote : isVoter n p = false) :
    ∀ srv ∈ n.servers, srv.id = p → srv.suffrage = .nonvoter := by
  intro srv hmem hid
  have hnot := List.any_eq_false.mp hvote srv hmem
  cases hs : srv.suffrage with
  | nonvoter => rfl
  | voter => exact absurd (decide_eq_true ⟨hid, hs⟩) hnot

theorem addServerLine_stranger (hp : p.length < 2 ^ 29)
    (hvote : isVoter n p = false) (hlead : n.isLeader = true) (env : Env) (addr : Bytes) :
    StrangerEffect p n ((addServerLine env p addr .nonvoter).final n) := by
  have hnv := nonvoter_of_isVoter hvote
  refine .learner _ (addServerLine_effect hp hlead env addr .nonvoter) ?_ ?_
  · obtain ⟨f, hf, hnext⟩ := nextConfiguration_addServer p addr .nonvoter
    rw [hnext]
    split_ifs
    · exact filter_upsert_self hf n.servers
    · rfl
  · split_ifs
    · exact nonvoter_addNonvoter hnv
    · exact hnv

theorem Node.forward_ne (n : Node) (f : Forwarded) : (n.forward f).forwarded ≠ n.forwarded := by
  intro h
  simpa [Node.forward] using congrArg List.length h

theorem forward_join_effect_iff {leaderID line : Bytes} :
    StrangerEffect p n (n.forward ⟨leaderID, .join, line⟩) ↔ AsksForLearner p line := by
  constructor
  · rintro (⟨-, -, hf⟩ | ⟨_, _, -, -, hf⟩ | ⟨-, -, hf⟩ | ⟨_, heffect, -, -⟩ | ⟨f, hf, hreq⟩)
    · exact absurd hf (n.forward_ne _)
    · exact absurd hf (n.forward_ne _)
    · exact absurd hf (n.forward_ne _)
    · exact absurd heffect.forwarded (n.forward_ne _)
    · have heq : (⟨leaderID, .join, line⟩ : Forwarded) = f := by
        have := congrArg Node.forwarded hf
        simpa [Node.forward] using this
      subst heq
      cases hreq with
      | learner h => exact h
  · exact fun h => .handed _ rfl (.learner h)

/-- The claimed peer that a caller may have added: one registered under the number,
and the caller. -/
def Claims (n : Node) (claimedPeerId : UInt16) (p : Bytes) : Prop :=
  (n.registry.get claimedPeerId.toNat).map (·.1) = some p ∧ p ≠ []

/-- An `addLearner` does what it is for, unless a request is handed on that the leader reads as
another one. -/
theorem addLearner_effect_iff
    (hcaller : caller.remotePeer = some p) (hvote : isVoter n p = false) (env : Env) (id : UInt16)
    (claimedPeerId : UInt16) (addr : Data) :
    StrangerEffect p n ((dispatch env caller id (.addLearner claimedPeerId addr)).final n) ↔
      (Claims n claimedPeerId p → addr.1 ≠ [] → HandsLearner env n p addr.1 →
        AsksForLearner p (learnerLine p addr.1)) := by
  have hf : (dispatch env caller id (.addLearner claimedPeerId addr)).final n =
      (handleAddDispatch env claimedPeerId addr.1 (some p)).final n := by
    rw [← hcaller]
    exact final_setData_bind _ _ n
  rw [hf, handleAddDispatch, EStateM.final_get_bind]
  rcases hreg : n.registry.get claimedPeerId.toNat with _ | joinPeerID
  · refine iff_of_true (.refl p n) fun h => ?_
    rw [Claims, hreg] at h
    cases h.1
  by_cases hjoin : p = joinPeerID.1
  · subst hjoin
    have hself : (some joinPeerID.1).any (· ≠ joinPeerID.1) = false := by simp
    simp only [hself]
    rcases final_handleAddLearner env n joinPeerID.1 addr.1 with
      ⟨hempty, h⟩ | ⟨hne, ⟨hlead, h⟩ | ⟨hhands, h⟩ | ⟨-, hhands, h⟩⟩
    all_goals rw [if_neg Bool.false_ne_true, h]
    · exact iff_of_true (.refl _ n) fun hc haddr => absurd hempty (not_or.mpr ⟨hc.2, haddr⟩)
    · refine iff_of_true (addServerLine_stranger joinPeerID.2 hvote hlead env addr.1)
        fun _ _ hhands => ?_
      exact absurd hhands.1 (by simp [hlead])
    · rw [forward_join_effect_iff]
      exact ⟨fun h _ _ _ => h, fun h => h ⟨by rw [hreg]; rfl, hne.1⟩ hne.2 hhands⟩
    · exact iff_of_true (.refl _ n) fun _ _ h => absurd h hhands
  · have hother : (some p).any (· ≠ joinPeerID.1) = true := by simpa using hjoin
    simp only [hother, if_true]
    refine iff_of_true (.refl p n) fun h => ?_
    rw [Claims, hreg] at h
    exact absurd (Option.some.inj h.1).symm hjoin

/-! ## Any message -/

theorem final_dispatch_read {m : Event} (h : IsRead m) (env : Env) (caller : CallerIdentity)
    (id : UInt16) (n : Node) : (dispatch env caller id m).final n = n := by
  have hset : ∀ (b : Bytes) (n : Node), (setData b).final n = n := by
    intro b n
    unfold setData
    split <;> rfl
  cases h with
  | byKey key value =>
    have hget : (handleGet key.1).final n = n := by
      rw [EStateM.final, run_handleGet]
      cases n.store.get! key.1 <;> rfl
    exact (final_setData_bind _ _ n).trans hget
  | range start stop key value =>
    change (listRange start stop key value).final n = n
    rw [listRange, EStateM.final_get_bind]
    split
    · rfl
    · rw [EStateM.final_bind_of_pure fun _ n => ?_, hset]
      rw [EStateM.final_bind_of_pure fun _ _ => rfl, hset]

theorem final_permitConfirm
    (hcaller : caller.remotePeer = some p) (hvote : isVoter n p = false) (env : Env) (id : UInt16)
    (kind : UInt8) (peerID : Data) :
    (dispatch env caller id (.permitConfirm kind peerID)).final n = n := by
  have hrun : requireVoter caller n = .error (.notVoter p) n := by
    rw [requireVoter, hcaller]
    change (if isVoter n p = true then pure () else throw (.notVoter p) : M Unit) n = _
    rw [hvote]
    rfl
  have hout : (requireVoter caller).outcome n = .error (.notVoter p) := by
    rw [EStateM.outcome, hrun]
  rw [dispatch, EStateM.final_bind_of_error hout, EStateM.final, hrun]

/-- The messages of a stranger that do only what they are for. -/
def Harmless (env : Env) (p : Bytes) (n : Node) : Event → Prop
  | .bootstrapOrJoinCluster leaderAddr => Inert env n leaderAddr.1
  | .addLearner claimedPeerId addr =>
    Claims n claimedPeerId p → addr.1 ≠ [] → HandsLearner env n p addr.1 →
      AsksForLearner p (learnerLine p addr.1)
  | _ => True

/-- A signed message of a remote caller without standing and vote has no effect but those listed in
`StrangerEffect`, exactly if it is harmless. -/
theorem stranger_effect_iff {p : Bytes} {n : Node} {r : Request}
    {caller : CallerIdentity} {env : Env} (hcaller : caller.remotePeer = some p)
    (hstanding : isAuthorizedForGatedAccess n.store n.peerID p reservedGroupRemote = false)
    (hvote : isVoter n p = false)
    (hsigned : env.verify caller.verifyPub r.msg r.crc r.sig = .ok ()) :
    StrangerEffect p n ((handleShmEvent env r caller).final n) ↔ Harmless env p n r.msg.body := by
  rw [final_handleShmEvent_stranger hcaller hstanding hsigned]
  obtain ⟨⟨id, m⟩, crc, sig⟩ := r
  dsimp only
  cases m with
  | bootstrapOrJoinCluster leaderAddr =>
    have hf : (dispatch env caller id (.bootstrapOrJoinCluster leaderAddr)).final n =
        (handleAdd env leaderAddr.1).final n := final_setData_bind _ _ n
    rw [if_pos ⟨rfl, .inl rfl⟩, hf]
    exact handleAdd_effect_iff p env leaderAddr.1 n
  | addLearner claimedPeerId addr =>
    rw [if_pos ⟨rfl, .inl rfl⟩]
    exact addLearner_effect_iff hcaller hvote env id claimedPeerId addr
  | permitRequest kind peerID metadata =>
    rw [if_pos ⟨rfl, .inl rfl⟩]
    exact iff_of_true (permitRequest_effect p env caller id kind peerID metadata n) trivial
  | permitConfirm kind peerID =>
    rw [if_pos ⟨rfl, .inl rfl⟩, final_permitConfirm hcaller hvote]
    exact iff_of_true (.refl p n) trivial
  | setKey value => exact iff_of_true (.unchanged rfl rfl rfl) trivial
  | getKey sourceId value =>
    refine iff_of_true ?_ trivial
    rw [if_pos ⟨rfl, .inl rfl⟩, dispatch, EStateM.final_get_bind]
    split <;> exact .refl p n
  | getVersion version dirty buildTime goVersion libp2pVersion =>
    refine iff_of_true ?_ trivial
    rw [if_pos ⟨rfl, .inl rfl⟩]
    change StrangerEffect p n ((ofExcept (env.dial _) : M Event).final n)
    rw [EStateM.final_ofExcept]
    exact .refl p n
  | logAppend key value =>
    refine iff_of_true ?_ trivial
    split_ifs with h
    · have hcarve := h.2.resolve_left Bool.false_ne_true
      exact logAppend_effect hcaller hcarve env id
    · exact .refl p n
  | getFieldByKey key value =>
    refine iff_of_true ?_ trivial
    rw [final_dispatch_read (.byKey key value), ite_self]
    exact .refl p n
  | listRange start stop key value =>
    refine iff_of_true ?_ trivial
    rw [final_dispatch_read (.range start stop key value), ite_self]
    exact .refl p n
  -- the rest is refused, or needs the standing that the caller does not have
  | _ =>
    rw [if_neg (by simp [refusedToRemote, needsNoStanding, isCommandLogCarveOut])]
    exact iff_of_true (.refl p n) trivial

def strangerMessage (m : Event) : Request where
  msg := ⟨7, m⟩
  crc := 0
  sig := []

/-- A stranger's request to be confirmed is recorded as pending, and that is all. -/
theorem stranger_effect_pending :
    StrangerEffect (ascii "p") (Node.alone (ascii "l") OrdMap.empty)
      ((handleShmEvent {}
        (strangerMessage (.permitRequest 1 ⟨ascii "p", by decide⟩ ⟨[], by decide⟩))
        ⟨[], some (ascii "p")⟩).final (Node.alone (ascii "l") OrdMap.empty)) :=
  (stranger_effect_iff rfl (by decide) (by decide) rfl).mpr trivial

def idleNode : Node := { Node.alone (ascii "l") OrdMap.empty with raft := none }

/-- A node that follows the leader `m`, and under number 7 has registered the peer id `p`. -/
def followerNode : Node :=
  { Node.alone (ascii "l") OrdMap.empty with
    registry := OrdMap.empty.insert 7 ⟨ascii "p", by decide⟩
    raft :=
      some ⟨[⟨.voter, ascii "l", []⟩, ⟨.voter, ascii "m", []⟩], .follower (ascii "m"), true,
        [], nofun⟩ }

def followerEnv : Env where
  deliver _ _ _ := .sent (.ok (ascii "OK\n"))

def addressWithLineBreak : Data := ⟨ascii "/ip4/1.2.3.4 voter\n", by decide⟩

/-- A stranger makes an idle node found a cluster. Through a follower, a stranger asks for a place
as a learner with an address of two words and a line break, and the leader gives it a vote. -/
theorem stranger_bootstraps :
    (Stranger idleNode (ascii "p") ∧
      ((handleShmEvent {} (strangerMessage (.bootstrapOrJoinCluster ⟨[], by decide⟩))
        ⟨[], some (ascii "p")⟩).final idleNode).servers = [⟨.voter, ascii "l", []⟩] ∧
      ¬StrangerEffect (ascii "p") idleNode
        ((handleShmEvent {} (strangerMessage (.bootstrapOrJoinCluster ⟨[], by decide⟩))
          ⟨[], some (ascii "p")⟩).final idleNode)) ∧
    Stranger followerNode (ascii "p") ∧
      ((handleShmEvent followerEnv (strangerMessage (.addLearner 7 addressWithLineBreak))
        ⟨[], some (ascii "p")⟩).final followerNode).forwarded =
          [⟨ascii "m", .join, ascii "p /ip4/1.2.3.4 voter\n learner\n"⟩] ∧
      isVoter ((handleForwardJoinStream {} (ascii "p /ip4/1.2.3.4 voter\n learner\n")).final
        (Node.alone (ascii "m") OrdMap.empty)) (ascii "p") = true ∧
      ¬StrangerEffect (ascii "p") followerNode
        ((handleShmEvent followerEnv (strangerMessage (.addLearner 7 addressWithLineBreak))
          ⟨[], some (ascii "p")⟩).final followerNode) := by
  refine ⟨⟨by decide, by decide +kernel, fun h => ?_⟩, by
    decide, by decide +kernel, by decide +kernel, fun h => ?_⟩
  · rw [@final_handleShmEvent_stranger (ascii "p") _ _ _ _ rfl (by decide) rfl,
      if_pos ⟨rfl, .inl rfl⟩, strangerMessage, dispatch, final_setData_bind] at h
    obtain ⟨e, he⟩ := (handleAdd_effect_iff _ _ _ _).mp h
    cases he
  · rw [@final_handleShmEvent_stranger (ascii "p") _ _ _ _ rfl (by decide) rfl,
      if_pos ⟨rfl, .inl rfl⟩] at h
    have hline := (addLearner_effect_iff rfl (by decide) _ _ _ _).mp h ⟨by decide, by decide⟩
      (by decide) ⟨by decide, by decide, _, rfl⟩
    exact absurd (hline ⟨ascii "p", ascii "/ip4/1.2.3.4", .voter, []⟩ (by decide)).2.1 (by decide)

end KvRaft.Daemon
