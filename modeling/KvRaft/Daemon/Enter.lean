import KvRaft.Daemon.Bookkeeping
import KvRaft.Daemon.Dispatch

/-! # Entering a cluster

What a node does on a `bootstrapOrJoinCluster`, and with a learner's request: `handleAdd` starts
raft, then founds a cluster of the node alone or asks a leader for a place; `handleAddLearner` adds
the learner or hands its request to the leader. -/

namespace KvRaft.Daemon

open Bytes Shmevent Kvfsm

theorem final_setData_bind (f : M Bytes) (reply : Data → Event) (n : Node) :
    (do let d ← setData (← f); return reply d : M Event).final n = f.final n := by
  refine EStateM.final_bind_of_pure (fun answer n => ?_) n
  rw [EStateM.final_bind_of_pure fun _ _ => rfl, setData]
  split <;> rfl

/-! ## Bootstrapping and joining -/

def configFrame : Frame Node where
  rel n n' := n'.raft.map (·.servers) = n.raft.map (·.servers)
  refl _ := rfl
  trans hab hbc := hbc.trans hab

def presentFrame : Frame Node where
  rel n n' := n.raft.isSome = true → n'.raft.isSome = true
  refl _ := id
  trans hab hbc h := hbc (hab h)

theorem present_of_config (n n' : Node) (h : configFrame.rel n n') : presentFrame.rel n n' := by
  intro hsome
  have := congrArg Option.isSome h
  simpa [hsome] using this

theorem keeps_modifyRaft {f : Raft → Raft} (hf : ∀ rf, (f rf).servers = rf.servers) :
    configFrame.Keeps (modify fun n => n.modifyRaft f : M PUnit) := by
  refine Frame.keeps_modify fun n => ?_
  simp only [configFrame, Node.modifyRaft, Option.map_map]
  cases n.raft with
  | none => rfl
  | some rf => exact congrArg some (hf rf)

theorem keeps_putRecord (env : Env) (key value : Bytes) :
    configFrame.Keeps (putRecord env key value) := by
  intro n
  unfold putRecord handleConfirmForwardWith EStateM.final
  rw [run_resolveWriteTarget]
  rcases n.writeTarget with e | _ | leaderID
  · rfl
  · change configFrame.rel n ((applyConfirmWith env (fun _ => pure ()) .set key value).final n)
    rw [applyConfirmWith_of_ne (by decide), final_applyOp]
    split_ifs <;> rfl
  · change configFrame.rel n ((forwardConfirm env leaderID .set key value).final n)
    have hf : (forwardConfirm env leaderID .set key value).final n =
        (send env leaderID .confirm (encodeCommand .set key value)).final n := by
      refine EStateM.final_bind_of_pure (fun resp n => ?_) n
      split_ifs <;> rfl
    rw [hf, final_send]
    split <;> rfl

theorem keeps_awaitLeader (env : Env) : configFrame.Keeps (awaitLeader env) :=
  (Frame.keeps_ofExcept _).bind fun _ => keeps_modifyRaft fun _ => rfl

theorem keeps_bootstrapRecords (env : Env) :
    configFrame.Keeps (do
      wrapping .awaitSelfElection (awaitLeader env)
      wrapping .bootstrapReservedGroups (ensureReservedGroups env)
      wrapping .bootstrapDefaultPublicCommand (ensureDefaultPublicCommand env)) := by
  refine (keeps_wrapping _ (keeps_awaitLeader env)).bind fun _ =>
    (keeps_wrapping _ ?_).bind fun _ => keeps_wrapping _ ?_
  · exact Frame.keeps_forM fun id => keeps_wrapping _ (keeps_putRecord env _ _)
  · refine (keeps_wrapping _ (keeps_putRecord env _ _)).bind fun _ =>
      (keeps_wrapping _ (Frame.keeps_ofExcept _)).bind fun value =>
        (keeps_wrapping _ (keeps_putRecord env _ _)).bind fun _ =>
          (keeps_wrapping _ (Frame.keeps_ofExcept _)).bind fun link => ?_
    exact keeps_wrapping _ (keeps_putRecord env _ _)

theorem outcome_bootstrapCluster {n : Node} {rf : Raft} (hraft : n.raft = some rf) (env : Env) :
    (bootstrapCluster env).outcome n = (if rf.hasState then
        .error (.lib (ascii "bootstrap only works on new clusters")) else .ok ()) ∧
      (bootstrapCluster env).final n = if rf.hasState then n else
        n.modifyRaft fun rf => rf.withServers [⟨.voter, n.peerID, env.advertisedAddr⟩] := by
  unfold bootstrapCluster
  rw [EStateM.outcome_get_bind, EStateM.final_get_bind, hraft]
  obtain ⟨servers, role, _ | _, joinsSent, fresh⟩ := rf
  · exact ⟨rfl, rfl⟩
  · exact ⟨rfl, rfl⟩

theorem keeps_bootstrapCluster (env : Env) : presentFrame.Keeps (bootstrapCluster env) := by
  intro n hsome
  obtain ⟨rf, hraft⟩ := Option.isSome_iff_exists.mp hsome
  rw [(outcome_bootstrapCluster hraft env).2]
  split_ifs
  · exact hsome
  · simpa [Node.modifyRaft] using hsome

theorem final_bootstrap {n : Node} {rf : Raft} (hraft : n.raft = some rf) (env : Env) :
    if rf.hasState then (bootstrap env).final n = n
    else ((bootstrap env).final n).servers = [⟨.voter, n.peerID, env.advertisedAddr⟩] := by
  obtain ⟨hout, hfin⟩ := outcome_bootstrapCluster hraft env
  unfold bootstrap
  cases hstate : rf.hasState with
  | true =>
    rw [hstate, if_pos rfl] at hout hfin
    rw [if_pos rfl, EStateM.final_bind, outcome_wrapping, final_wrapping, hout, hfin]
    rfl
  | false =>
    rw [hstate, if_neg Bool.false_ne_true] at hout hfin
    rw [if_neg Bool.false_ne_true, EStateM.final_bind, outcome_wrapping, final_wrapping, hout, hfin]
    have hkeeps := keeps_bootstrapRecords env
      (n.modifyRaft fun rf => rf.withServers [⟨.voter, n.peerID, env.advertisedAddr⟩])
    simp only [configFrame, Node.modifyRaft, hraft, Option.map_some] at hkeeps
    obtain ⟨rf', hraft', hservers⟩ := Option.map_eq_some_iff.mp hkeeps
    change Node.servers _ = _
    rw [Node.servers]
    simp only [Except.mapError, Node.modifyRaft, hraft, Option.map_some]
    rw [hraft']
    exact hservers

def ownJoinLine (env : Env) (n : Node) (suffrage : Suffrage) (token : Bytes) : Bytes :=
  joinRequestLine ⟨n.peerID, env.advertisedAddr, suffrage, token⟩

theorem final_joinLeader (env : Env) (leader : Bytes) (suffrage : Suffrage) (n : Node) :
    (joinLeader env leader suffrage).final n =
      match joinTarget env leader with
      | .error _ => n
      | .ok (addr, token) =>
        match env.join addr (ownJoinLine env n suffrage token) with
        | .unsent _ => n
        | .sent _ => n.modifyRaft fun rf => { rf with joinsSent := rf.joinsSent ++ [addr] } := by
  unfold joinLeader
  rw [EStateM.final_bind, EStateM.outcome_ofExcept, EStateM.final_ofExcept]
  rcases joinTarget env leader with e | ⟨addr, token⟩
  · rfl
  dsimp only
  rw [final_wrapping, join, EStateM.final_get_bind, ← ownJoinLine]
  dsimp only
  rcases env.join addr (ownJoinLine env n suffrage token) with e | reply
  · rfl
  dsimp only
  rw [EStateM.final_bind, EStateM.final_modify, EStateM.outcome_modify]
  refine (EStateM.final_bind_of_pure (fun answer n => ?_) _).trans (EStateM.final_ofExcept _ _)
  split_ifs <;> rfl

theorem keeps_joinLeader (env : Env) (leader : Bytes) (suffrage : Suffrage) :
    configFrame.Keeps (joinLeader env leader suffrage) := by
  intro n
  rw [final_joinLeader]
  split
  · rfl
  next addr token _ =>
    split
    · rfl
    · exact @keeps_modifyRaft (fun rf => { rf with joinsSent := rf.joinsSent ++ [addr] })
        (fun _ => rfl) n

theorem final_enterCluster (env : Env) (leaderPeerID : Bytes) (n : Node) :
    (enterCluster env leaderPeerID).final n =
      if (splitLearner leaderPeerID).1 = [] then (bootstrap env).final n
      else (joinLeader env (splitLearner leaderPeerID).1
        (splitLearner leaderPeerID).2).final n := by
  unfold enterCluster
  rcases splitLearner leaderPeerID with ⟨leader, suffrage⟩
  dsimp only
  split_ifs
  · exact EStateM.final_bind_of_pure (fun _ _ => rfl) n
  · exact EStateM.final_bind_of_pure (fun _ _ => rfl) n

theorem keeps_enterCluster (env : Env) (leaderPeerID : Bytes) :
    presentFrame.Keeps (enterCluster env leaderPeerID) := by
  intro n
  rw [final_enterCluster]
  split_ifs
  · exact ((keeps_wrapping _ (keeps_bootstrapCluster env)).bind fun _ =>
      (keeps_bootstrapRecords env).mono present_of_config) n
  · exact (keeps_joinLeader env _ _).mono present_of_config n

theorem final_handleAdd (env : Env) (leaderPeerID : Bytes) (n : Node) :
    (handleAdd env leaderPeerID).final n =
      match n.raft with
      | some _ => (enterCluster env leaderPeerID).final n
      | none =>
        match env.newRaft n.store with
        | .error _ => n
        | .ok (rf, s) =>
        (enterCluster env leaderPeerID).final { n with raft := some rf, store := s } := by
  unfold handleAdd
  rw [EStateM.final_bind, outcome_wrapping, final_wrapping, initRaft, EStateM.outcome_get_bind,
    EStateM.final_get_bind]
  cases n.raft with
  | some rf => rfl
  | none =>
    dsimp only
    rw [EStateM.outcome_get_bind, EStateM.final_get_bind]
    rcases env.newRaft n.store with e | ⟨rf, s⟩ <;> rfl

/-! ## Learners -/

/-- The line with which a node asks the leader to add `p` at `addr` as a learner. -/
def learnerLine (p addr : Bytes) : Bytes := joinRequestLine ⟨p, addr, .nonvoter, []⟩

theorem final_forwardJoin (env : Env) (leaderID : Bytes) (r : JoinRequest) (n : Node) :
    (forwardJoin env leaderID r).final n =
      (send env leaderID .join (joinRequestLine r)).final n := by
  refine EStateM.final_bind_of_pure (fun resp n => ?_) n
  split <;> rfl

def HandsLearner (env : Env) (n : Node) (p addr : Bytes) : Prop :=
  n.isLeader = false ∧ n.leaderID ≠ [] ∧
    ∃ reply, env.deliver n.leaderID .join (learnerLine p addr) = .sent reply

theorem final_handleAddLearner (env : Env) (n : Node) (p addr : Bytes) :
    (p = [] ∨ addr = []) ∧ (handleAddLearner env p addr).final n = n ∨
    (p ≠ [] ∧ addr ≠ []) ∧
      (n.isLeader = true ∧
          (handleAddLearner env p addr).final n = (addServerLine env p addr .nonvoter).final n ∨
        HandsLearner env n p addr ∧
          (handleAddLearner env p addr).final n =
            n.forward ⟨n.leaderID, .join, learnerLine p addr⟩ ∨
        n.isLeader = false ∧ ¬HandsLearner env n p addr ∧
          (handleAddLearner env p addr).final n = n) := by
  unfold handleAddLearner
  by_cases hempty : p = [] ∨ addr = []
  · rw [if_pos hempty]
    exact .inl ⟨hempty, rfl⟩
  rw [if_neg hempty, EStateM.final_get_bind]
  refine .inr ⟨not_or.mp hempty, ?_⟩
  cases hlead : n.isLeader with
  | true =>
    left
    refine ⟨rfl, ?_⟩
    rw [if_pos rfl]
    exact EStateM.final_bind_of_pure (fun _ _ => rfl) n
  | false =>
    right
    rw [if_neg Bool.false_ne_true, EStateM.final_get_bind]
    by_cases hid : n.leaderID = []
    · rw [if_pos hid]
      exact .inr ⟨rfl, fun h => h.2.1 hid, rfl⟩
    rw [if_neg hid, EStateM.final_get_bind, EStateM.final_bind_of_pure fun line n => by
      split <;> rfl, final_wrapping, final_forwardJoin, final_send]
    cases hsent : env.deliver n.leaderID .join (joinRequestLine ⟨p, addr, .nonvoter, []⟩) with
    | unsent e =>
      refine .inr ⟨rfl, ?_, rfl⟩
      rintro ⟨-, -, reply, h⟩
      rw [learnerLine, hsent] at h
      cases h
    | sent reply => exact .inl ⟨⟨hlead, hid, reply, hsent⟩, rfl⟩

end KvRaft.Daemon
