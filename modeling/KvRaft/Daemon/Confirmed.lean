import KvRaft.Daemon.Append
import KvRaft.Daemon.Join
import KvRaft.Daemon.Settings
import KvRaft.Kvfsm.Invites
import KvRaft.Lib.Reach

/-! # Joining a cluster that asks for confirmation

On a leader with `RequireConfirmForJoin` a join request without an invite is only recorded, until a
voter confirms it. `Authorized` lists the two ways into the configuration that are meant.
`addLearner` is a third: it adds its caller without looking at the setting. -/

namespace KvRaft.Daemon

open Bytes Shmevent Kvfsm

/-! ## Steps -/

def concernsJoining : Event → Bool
  | .addLearner .. => true
  | .permitRequest .. => true
  | .permitConfirm .. => true
  | _ => false

inductive Arrival
  | joinStream (stream : Bytes)
  | forwardJoinStream (stream : Bytes)
  | message (r : Request) (caller : CallerIdentity) (h : concernsJoining r.msg.body = true)

structure JoinStep where
  env : Env
  arrival : Arrival

def JoinStep.serve (e : JoinStep) (n : Node) : Node :=
  match e.arrival with
  | .joinStream stream => (handleJoinStream e.env stream).final n
  | .forwardJoinStream stream => (handleForwardJoinStream e.env stream).final n
  | .message r caller _ => (handleShmEvent e.env r caller).final n

def serveJoinSteps (n : Node) (steps : List JoinStep) : Node := steps.foldl (fun n e => e.serve n) n

def Node.HasServer (n : Node) (q : Bytes) : Prop := ∃ srv ∈ n.servers, srv.id = q

instance (n : Node) (q : Bytes) : Decidable (n.HasServer q) :=
  inferInstanceAs (Decidable (∃ srv ∈ n.servers, srv.id = q))

/-- The node leads. Raft elects voters only. -/
structure Node.Leads (n : Node) : Prop where
  leader : n.isLeader = true
  voter : isVoter n n.peerID = true

/-- The step redeems a valid invite for `q`, or confirms a pending request of `q` for a voter. The
voter that a local caller stands for is the leader itself. -/
inductive Authorized (n : Node) (e : JoinStep) (q : Bytes) : Prop
  | invited {stream : Bytes} {r : JoinRequest} {sf : Suffrage}
      (harrival : e.arrival = .joinStream stream ∨ e.arrival = .forwardJoinStream stream)
      (hparse : parseJoinRequest stream = .ok r) (hpeer : r.peerID = q)
      (htoken : r.inviteToken ≠ [])
      (hcommit : e.env.applyFault (consumeInviteEntry r.inviteToken) = none)
      (hinvite : inviteSuffrage n.store r.inviteToken = some sf)
  | confirmed {r : Request} {caller : CallerIdentity} {h : concernsJoining r.msg.body = true}
      {peerID : Data} (harrival : e.arrival = .message r caller h)
      (hbody : r.msg.body = .permitConfirm kindClusterJoin peerID) (hpeer : peerID.1 = q)
      (hpending : n.store.get (pendingJoinKey q) ≠ none)
      (hvoter : isVoter n (caller.remotePeer.getD n.peerID) = true)

/-- The step is a signed `addLearner` that brings a new peer into the configuration. -/
def AddsUnconfirmed (n : Node) (e : JoinStep) : Prop :=
  ∃ r caller h claimedPeerId addr p, e.arrival = .message r caller h ∧
    r.msg.body = .addLearner claimedPeerId addr ∧
    e.env.verify caller.verifyPub r.msg r.crc r.sig = .ok () ∧
    n.registry.get claimedPeerId.toNat = some p ∧ (∀ q, caller.remotePeer = some q → q = p.1) ∧
    p.1 ≠ [] ∧ addr.1 ≠ [] ∧ ¬n.HasServer p.1 ∧
    e.env.commitsConfig (addServer p.1 addr.1 .nonvoter) = true

/-! ## Who enters -/

theorem hasServer_of_raft {n n' : Node} (h : n'.raft = n.raft) (q : Bytes) :
    n'.HasServer q ↔ n.HasServer q := by
  rw [Node.HasServer, Node.HasServer, Node.servers, Node.servers, h]

theorem hasServer_addServerLine {n : Node} (hlead : n.isLeader = true) (env : Env) {p : Bytes}
    (hp : p.length < 2 ^ 29) (addr : Bytes) (sf : Suffrage) (q : Bytes) :
    ((addServerLine env p addr sf).final n).HasServer q ↔
      n.HasServer q ∨ q = p ∧ env.commitsConfig (addServer p addr sf) = true := by
  rw [Node.HasServer, (addServerLine_effect hp hlead env addr sf).servers, Node.HasServer]
  split_ifs with hcommit
  · obtain ⟨f, hf, hnext⟩ := nextConfiguration_addServer p addr sf
    rw [hnext, exists_mem_upsert hf]
    simp only [hcommit, and_true]
  · exact ⟨.inl, fun h => h.resolve_right fun h => hcommit h.2⟩

theorem final_admitClusterJoinIfConfirmed (env : Env) (kind : UInt8) (peerID : Bytes) (n : Node) :
    (admitClusterJoinIfConfirmed env (systemKey kind statusConfirmed peerID)).final n = n ∨
      kind = kindClusterJoin ∧ ∃ addr sf,
        (admitClusterJoinIfConfirmed env (systemKey kind statusConfirmed peerID)).final n =
          (addServerLine env peerID addr sf).final n := by
  unfold admitClusterJoinIfConfirmed
  by_cases hkind : systemKind (systemKey kind statusConfirmed peerID) ≠ some kindClusterJoin
  · rw [if_pos hkind]
    exact .inl rfl
  rw [if_neg hkind, EStateM.final_get_bind, EStateM.final_bind, outcome_wrapping, final_wrapping,
    EStateM.outcome_ofExcept, EStateM.final_ofExcept]
  rcases n.store.get! (systemKey kind statusConfirmed peerID) with e | value
  · exact .inl rfl
  dsimp only [Except.mapError]
  rw [EStateM.final_bind, outcome_wrapping, final_wrapping, EStateM.outcome_ofExcept,
    EStateM.final_ofExcept]
  rcases decodeClusterJoinMetadata value with e | ⟨addr, sf⟩
  · exact .inl rfl
  dsimp only [Except.mapError]
  rw [final_wrapping]
  exact .inr ⟨Option.some.inj (not_not.mp hkind), addr, suffrageOf sf, rfl⟩

theorem raft_applyOp (env : Env) (op : OpType) (key value : Bytes) (n : Node) :
    ((applyOp env op key value).final n).raft = n.raft := by
  rw [final_applyOp]
  split_ifs <;> rfl

theorem pending_of_confirmed {env : Env} {n : Node} {kind : UInt8} (peerID : Data)
    (hok : (applyOp env .confirm (systemKey kind statusPending peerID.1)
      (systemKey kind statusConfirmed peerID.1)).outcome n = .ok ()) :
    n.store.get (systemKey kind statusPending peerID.1) ≠ none := by
  have hlen := peerID.2
  have hk : ∀ status, (systemKey kind status peerID.1).length < 256 ^ 4 := by
    intro status
    simp only [systemKey, List.length_cons]
    omega
  obtain ⟨herr, -⟩ := applyOp_of_ok hok
  rcases @decodeCommand_reencode .confirm _ _ (hk statusPending) (hk statusConfirmed) with
    ⟨e, hd⟩ | hd
  · simp only [apply, hd] at herr
    cases herr
  · exact (redeemed rfl hd herr).1

@[simp] theorem final_requireVoter (caller : CallerIdentity) (n : Node) :
    (requireVoter caller).final n = n := by
  unfold requireVoter
  split
  · rfl
  · rw [EStateM.final_get_bind]
    split_ifs <;> rfl

/-- On a leader, the caller that passes stands for a voter. -/
theorem outcome_requireVoter {n : Node} (hlead : n.Leads) (caller : CallerIdentity) :
    (requireVoter caller).outcome n =
      if isVoter n (caller.remotePeer.getD n.peerID) = true then .ok ()
      else .error (.notVoter (caller.remotePeer.getD n.peerID)) := by
  unfold requireVoter
  cases caller.remotePeer with
  | none =>
    rw [Option.getD_none, if_pos hlead.voter]
    rfl
  | some p =>
    rw [EStateM.outcome_get_bind, Option.getD_some]
    split_ifs <;> rfl

section Step

variable {n : Node} (hlead : n.Leads) (env : Env)
include hlead

theorem entered_of_admitOrLodgeJoin (hconfirm : n.requireConfirmForJoin = true) {r : JoinRequest}
    (hlen : r.peerID.length < 65536 ∧ r.addr.length < 65536 ∧ r.inviteToken.length < 65536)
    {q : Bytes}
    (hbefore : ¬n.HasServer q) (hafter : ((admitOrLodgeJoin env r).final n).HasServer q) :
    r.peerID = q ∧ r.inviteToken ≠ [] ∧ env.applyFault (consumeInviteEntry r.inviteToken) = none ∧
      ∃ sf, inviteSuffrage n.store r.inviteToken = some sf := by
  have heffect := admitOrLodgeJoin_effect hlen hlead.leader env
  rw [Node.HasServer, heffect.servers] at hafter
  rcases hchange : joinChange env n r with _ | c
  · rw [hchange] at hafter
    exact absurd hafter hbefore
  rw [hchange, serversAfter] at hafter
  have hpeer : r.peerID = q := by
    obtain ⟨sf, rfl⟩ := joinChange_eq_some hchange
    obtain ⟨f, hf, hnext⟩ := nextConfiguration_addServer r.peerID r.addr sf
    split_ifs at hafter
    · rw [hnext, exists_mem_upsert hf] at hafter
      exact (hafter.resolve_left hbefore).symm
    · exact absurd hafter hbefore
  unfold joinChange at hchange
  split_ifs at hchange with htoken hfault
  obtain ⟨sf, hsf, -⟩ := Option.map_eq_some_iff.mp hchange
  exact ⟨hpeer, htoken, by simpa using hfault, sf, hsf⟩

omit hlead in
theorem raft_permitRequest (caller : CallerIdentity) (id : UInt16) (kind : UInt8)
    (peerID metadata : Data) :
    ((dispatch env caller id (.permitRequest kind peerID metadata)).final n).raft = n.raft := by
  have hf : (dispatch env caller id (.permitRequest kind peerID metadata)).final n =
      (handleOpForward env .set (systemKey kind statusPending peerID.1) metadata.1 true).final n :=
    EStateM.final_bind_of_pure (fun _ _ => rfl) n
  rw [hf]
  rcases final_handleOpForward env .set (systemKey kind statusPending peerID.1) metadata.1 n with
    h | h | ⟨leader, h⟩ <;> rw [h] <;> rfl

theorem entered_of_permitConfirm (caller : CallerIdentity) (id : UInt16) (kind : UInt8)
    (peerID : Data) {q : Bytes} (hbefore : ¬n.HasServer q)
    (hafter : ((dispatch env caller id (.permitConfirm kind peerID)).final n).HasServer q) :
    kind = kindClusterJoin ∧ peerID.1 = q ∧ n.store.get (pendingJoinKey q) ≠ none ∧
      isVoter n (caller.remotePeer.getD n.peerID) = true := by
  have hvoter := outcome_requireVoter hlead caller
  rw [dispatch, EStateM.final_bind, final_requireVoter, hvoter] at hafter
  split_ifs at hafter with hvote
  · dsimp only at hafter
    rw [EStateM.final_bind_of_pure fun _ _ => rfl] at hafter
    have hrun : (handleConfirmForward env .confirm (systemKey kind statusPending peerID.1)
        (systemKey kind statusConfirmed peerID.1) true).final n =
          (applyConfirmWith env (admitClusterJoinIfConfirmed env) .confirm
            (systemKey kind statusPending peerID.1)
              (systemKey kind statusConfirmed peerID.1)).final n := by
      unfold EStateM.final
      rw [handleConfirmForward, handleConfirmForwardWith_of_leader hlead.leader]
    rw [hrun, applyConfirmWith, EStateM.final_bind] at hafter
    have hraft := raft_applyOp env .confirm (systemKey kind statusPending peerID.1)
      (systemKey kind statusConfirmed peerID.1) n
    rcases hout : (applyOp env .confirm (systemKey kind statusPending peerID.1)
        (systemKey kind statusConfirmed peerID.1)).outcome n with e | ⟨⟩
    · rw [hout] at hafter
      exact absurd ((hasServer_of_raft hraft q).mp hafter) hbefore
    rw [hout] at hafter
    dsimp only at hafter
    rw [if_pos rfl] at hafter
    set n₁ := (applyOp env .confirm (systemKey kind statusPending peerID.1)
      (systemKey kind statusConfirmed peerID.1)).final n with hn₁
    have hbefore₁ : ¬n₁.HasServer q := fun h => hbefore ((hasServer_of_raft hraft q).mp h)
    have hlead₁ : n₁.isLeader = true := by
      rw [Node.isLeader, hraft]
      exact hlead.leader
    rcases final_admitClusterJoinIfConfirmed env kind peerID.1 n₁ with h | ⟨rfl, addr, sf, h⟩
    · rw [h] at hafter
      exact absurd hafter hbefore₁
    · rw [h, hasServer_addServerLine hlead₁ env peerID.2] at hafter
      obtain rfl := (hafter.resolve_left hbefore₁).1
      exact ⟨rfl, rfl, pending_of_confirmed peerID hout, hvote⟩
  · exact absurd hafter hbefore

theorem entered_iff_addLearner (caller : CallerIdentity) (id claimedPeerId : UInt16) (addr : Data)
    {q : Bytes} (hbefore : ¬n.HasServer q) :
    ((dispatch env caller id (.addLearner claimedPeerId addr)).final n).HasServer q ↔
      ∃ p, n.registry.get claimedPeerId.toNat = some p ∧ p.1 = q ∧
        (∀ x, caller.remotePeer = some x → x = p.1) ∧ p.1 ≠ [] ∧ addr.1 ≠ [] ∧
        env.commitsConfig (addServer p.1 addr.1 .nonvoter) = true := by
  have hf : (dispatch env caller id (.addLearner claimedPeerId addr)).final n =
      (handleAddDispatch env claimedPeerId addr.1 caller.remotePeer).final n :=
        final_setData_bind _ _ n
  rw [hf, handleAddDispatch, EStateM.final_get_bind]
  rcases hreg : n.registry.get claimedPeerId.toNat with _ | p
  · exact iff_of_false hbefore (by simp)
  dsimp only
  have hclaim : caller.remotePeer.any (· ≠ p.1) = false ↔
      ∀ x, caller.remotePeer = some x → x = p.1 := by
    cases caller.remotePeer <;> simp
  by_cases hclaims : caller.remotePeer.any (· ≠ p.1) = true
  · rw [if_pos hclaims]
    refine iff_of_false hbefore ?_
    rintro ⟨p', hp', -, hown, -⟩
    cases hp'
    rw [hclaim.mpr hown] at hclaims
    cases hclaims
  rw [if_neg hclaims]
  have hown := hclaim.mp (Bool.not_eq_true _ ▸ hclaims)
  rcases final_handleAddLearner env n p.1 addr.1 with
    ⟨hempty, h⟩ | ⟨⟨hp, haddr⟩, ⟨-, h⟩ | ⟨hhands, -⟩ | ⟨hnot, -⟩⟩
  · rw [h]
    refine iff_of_false hbefore ?_
    rintro ⟨p', hp', -, -, hne, haddr, -⟩
    cases hp'
    exact hempty.elim hne haddr
  · rw [h, hasServer_addServerLine hlead.leader env p.2]
    constructor
    · intro hafter
      obtain ⟨rfl, hcommit⟩ := hafter.resolve_left hbefore
      exact ⟨p, rfl, rfl, hown, hp, haddr, hcommit⟩
    · rintro ⟨p', hp', rfl, -, -, -, hcommit⟩
      cases hp'
      exact .inr ⟨rfl, hcommit⟩
  · exact absurd hlead.leader (Bool.not_eq_true _ ▸ hhands.1)
  · rw [hlead.leader] at hnot
    cases hnot

end Step

/-! ## Runs -/

/-- In one step on a leader with confirmation required, everybody who enters is authorised, unless
the step is an `addLearner` that adds somebody. -/
theorem step_authorized_iff {n : Node} (hlead : n.Leads) (hconfirm : n.requireConfirmForJoin = true)
    (e : JoinStep) :
    (∀ q, ¬n.HasServer q → (e.serve n).HasServer q → Authorized n e q) ↔ ¬AddsUnconfirmed n e := by
  obtain ⟨env, arrival⟩ := e
  -- the streams, which differ in nothing but the protocol
  have stream (arrival : Arrival) (s : Bytes)
      (harrival : arrival = .joinStream s ∨ arrival = .forwardJoinStream s)
      (hserve : JoinStep.serve ⟨env, arrival⟩ n = n ∨ ∃ r, parseJoinRequest s = .ok r ∧
        JoinStep.serve ⟨env, arrival⟩ n = (admitOrLodgeJoin env r).final n) :
      (∀ q, ¬n.HasServer q → (JoinStep.serve ⟨env, arrival⟩ n).HasServer q →
        Authorized n ⟨env, arrival⟩ q) ↔ ¬AddsUnconfirmed n ⟨env, arrival⟩ := by
    refine iff_of_true (fun q hbefore hafter => ?_) ?_
    · rcases hserve with hserve | ⟨r, hparse, hserve⟩ <;> rw [hserve] at hafter
      · exact absurd hafter hbefore
      obtain ⟨hpeer, htoken, hcommit, sf, hinvite⟩ := entered_of_admitOrLodgeJoin hlead env hconfirm
        (length_parseJoinRequest hparse) hbefore hafter
      exact .invited harrival hparse hpeer htoken hcommit hinvite
    · rintro ⟨r, caller, h, claimedPeerId, addr, p, harrival', -⟩
      dsimp only at harrival'
      subst harrival'
      rcases harrival with h | h <;> cases h
  cases arrival with
  | joinStream s => exact stream _ s (.inl rfl) (joinStream_cases hlead.leader env s)
  | forwardJoinStream s => exact stream _ s (.inr rfl) (forwardJoinStream_cases hlead.leader env s)
  | message r caller h =>
    obtain ⟨⟨id, m⟩, crc, sig⟩ := r
    have hserve (hopen : refusedToRemote m = none ∧ requiresSignature m = true ∧
        needsNoStanding m = true) :
        (JoinStep.serve ⟨env, .message ⟨⟨id, m⟩, crc, sig⟩ caller h⟩ n = n ∧
          env.verify caller.verifyPub ⟨id, m⟩ crc sig ≠ .ok ()) ∨
        (JoinStep.serve ⟨env, .message ⟨⟨id, m⟩, crc, sig⟩ caller h⟩ n =
          (dispatch env caller id m).final n ∧
          env.verify caller.verifyPub ⟨id, m⟩ crc sig = .ok ()) :=
      handleShmEvent_open_cases hopen.1 hopen.2.1 hopen.2.2 env caller n
    cases m with
    | addLearner claimedPeerId addr =>
      constructor
      · rintro hall ⟨r, caller', h', claimed, addr', p, harrival, hbody, hverify, hreg,
          hown, hp, haddr, hnew, hcommit⟩
        cases harrival
        cases hbody
        obtain ⟨hserve, -⟩ :=
          (hserve ⟨rfl, rfl, rfl⟩).resolve_left fun hrefused => hrefused.2 hverify
        rw [hserve] at hall
        have hauth := hall p.1 hnew ((entered_iff_addLearner hlead env caller id claimedPeerId addr
          hnew).mpr ⟨p, hreg, rfl, hown, hp, haddr, hcommit⟩)
        cases hauth with
        | invited harrival => rcases harrival with h | h <;> cases h
        | confirmed harrival hbody =>
          cases harrival
          cases hbody
      · intro hno q hbefore hafter
        rcases hserve ⟨rfl, rfl, rfl⟩ with ⟨hserve, -⟩ | ⟨hserve, hverify⟩ <;> rw [hserve] at hafter
        · exact absurd hafter hbefore
        obtain ⟨p, hreg, rfl, hown, hp, haddr, hcommit⟩ :=
          (entered_iff_addLearner hlead env caller id claimedPeerId addr hbefore).mp hafter
        exact absurd ⟨_, caller, h, claimedPeerId, addr, p, rfl, rfl, hverify, hreg,
          hown, hp, haddr, hbefore, hcommit⟩ hno
    | permitRequest kind peerID metadata =>
      refine iff_of_true (fun q hbefore hafter => ?_) ?_
      · rcases hserve ⟨rfl, rfl, rfl⟩ with ⟨hserve, -⟩ | ⟨hserve, -⟩ <;> rw [hserve] at hafter
        · exact absurd hafter hbefore
        · exact absurd ((hasServer_of_raft (raft_permitRequest env caller id kind peerID metadata)
            q).mp hafter) hbefore
      · rintro ⟨r, caller', h', claimed, addr, p, harrival, hbody, -⟩
        cases harrival
        cases hbody
    | permitConfirm kind peerID =>
      refine iff_of_true (fun q hbefore hafter => ?_) ?_
      · rcases hserve ⟨rfl, rfl, rfl⟩ with ⟨hserve, -⟩ | ⟨hserve, -⟩ <;> rw [hserve] at hafter
        · exact absurd hafter hbefore
        · obtain ⟨rfl, hpeer, hpending, hvoter⟩ :=
            entered_of_permitConfirm hlead env caller id kind peerID hbefore hafter
          exact .confirmed rfl rfl hpeer hpending hvoter
      · rintro ⟨r, caller', h', claimed, addr, p, harrival, hbody, -⟩
        cases harrival
        cases hbody
    | _ => cases h

theorem settled_serve (e : JoinStep) (n : Node) :
    (e.serve n).requireConfirmForJoin = n.requireConfirmForJoin := by
  unfold JoinStep.serve
  split
  · exact (settled_handleJoinStream e.env _ n).2.1
  · exact (settled_handleForwardJoinStream e.env _ n).2.1
  · exact (policy_handleShmEvent e.env _ _ n).2

theorem settled_serveJoinSteps (steps : List JoinStep) (n : Node) :
    (serveJoinSteps n steps).requireConfirmForJoin = n.requireConfirmForJoin := by
  induction steps generalizing n with
  | nil => rfl
  | cons e steps ih =>
    rw [serveJoinSteps, List.foldl_cons, ← serveJoinSteps, ih, settled_serve]

theorem serveJoinSteps_take {steps : List JoinStep} {i : Nat} (hi : i < steps.length) (n : Node) :
    serveJoinSteps n (steps.take (i + 1)) = steps[i].serve (serveJoinSteps n (steps.take i)) :=
  List.foldl_take_succ _ _ hi

/-- Along every sequence of join requests and messages served while the node leads and asks for
confirmation, a peer enters the configuration only for an invite or a confirmation, exactly if no
step is an `addLearner` that adds a new peer. -/
theorem entry_authorized_iff {n : Node} (hconfirm : n.requireConfirmForJoin = true)
    {steps : List JoinStep} (hlead : ∀ i < steps.length, (serveJoinSteps n (steps.take i)).Leads) :
    (∀ i (hi : i < steps.length) q, ¬(serveJoinSteps n (steps.take i)).HasServer q →
      (serveJoinSteps n (steps.take (i + 1))).HasServer q →
      Authorized (serveJoinSteps n (steps.take i)) steps[i] q) ↔
    ∀ i (hi : i < steps.length), ¬AddsUnconfirmed (serveJoinSteps n (steps.take i)) steps[i] := by
  refine forall_congr' fun i => forall_congr' fun hi => ?_
  rw [serveJoinSteps_take hi]
  refine step_authorized_iff (hlead i hi) ?_ steps[i]
  rw [settled_serveJoinSteps]
  exact hconfirm

/-- A leader that asks for confirmation, with an invite for one voter and a peer id
under number 7. -/
def cautiousNode : Node :=
  { Node.alone (ascii "l") (OrdMap.empty.insert (joinInviteKey [1]) [suffrageVoter]) with
    requireConfirmForJoin := true
    registry := OrdMap.empty.insert 7 ⟨ascii "q", by decide⟩ }

def invitedStep : JoinStep := ⟨{}, .joinStream (ascii "q /ip4/1.2.3.4 voter 01\n")⟩

theorem entry_authorized_invited : Authorized cautiousNode invitedStep (ascii "q") := by
  have hlead :
      ∀ i < [invitedStep].length, (serveJoinSteps cautiousNode ([invitedStep].take i)).Leads := by
    intro i hi
    obtain rfl : i = 0 := by simpa using hi
    exact ⟨by decide, by decide⟩
  refine (entry_authorized_iff (n := cautiousNode) rfl hlead).mpr ?_ 0 (by decide)
    (ascii "q") (by decide)
    (by decide)
  intro i hi
  obtain rfl : i = 0 := by simpa using hi
  rintro ⟨r, caller, h, claimed, addr, p, harrival, -⟩
  cases harrival

def addLearnerStep : JoinStep :=
  ⟨{}, .message ⟨⟨8, .addLearner 7 ⟨ascii "/ip4/1.2.3.4", by decide⟩⟩, 0, []⟩
    ⟨[], some (ascii "q")⟩ rfl⟩

/-- A leader that asks for confirmation adds a stranger who asks with `addLearner`. -/
theorem addLearner_unconfirmed :
    cautiousNode.Leads ∧ cautiousNode.requireConfirmForJoin = true ∧
      ¬cautiousNode.HasServer (ascii "q") ∧
        (addLearnerStep.serve cautiousNode).HasServer (ascii "q") ∧
      ¬Authorized cautiousNode addLearnerStep (ascii "q") := by
  refine ⟨⟨by decide, by decide⟩, rfl, by decide, by decide, fun h => ?_⟩
  cases h with
  | invited harrival => rcases harrival with h | h <;> cases h
  | confirmed harrival hbody =>
    cases harrival
    cases hbody

end KvRaft.Daemon
