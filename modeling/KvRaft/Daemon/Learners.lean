import KvRaft.Daemon.Replies
import KvRaft.Daemon.Retry

/-! # Adding a learner on a leader and through a follower

On a leader `addLearner` adds the peer. A follower writes a join request for it to the leader, which
is served like every other: it may be lodged for a confirmation instead, and the words of its line
may not be the ones that were meant. The follower takes every answer that does not begin with `ERR:
` for a success. -/

namespace KvRaft.Daemon

open Bytes Shmevent Kvfsm EStateM Encoding

/-! ## The leader's answer -/

def joinReply (text : Err → Bytes) : Except Err JoinLine → Bytes
  | .ok .ok => ascii "OK\n"
  | .ok .pending => ascii "PENDING\n"
  | .ok (.text line) => line ++ [0x0A]
  | .error e => ascii "ERR: " ++ (text e ++ [0x0A])

def learnerRequest (joinPeerID joinAddr : Bytes) : JoinRequest :=
  ⟨joinPeerID, joinAddr, .nonvoter, []⟩

/-- A follower and its leader, with a stream between them that carries whole lines. -/
structure Pair where
  text : Err → Bytes
  follower : Node
  followerEnv : Env
  leader : Node
  leaderEnv : Env
  follows : follower.isLeader = false
  known : follower.leaderID ≠ []
  leads : leader.isLeader = true
  delivers : ∀ line, followerEnv.deliver follower.leaderID .join line =
    .sent (.ok (joinReply text ((handleForwardJoinStream leaderEnv line).outcome leader)))

namespace Pair

variable (x : Pair) (joinPeerID joinAddr : Bytes)

def handed : List Forwarded :=
  ((handleAddLearner x.followerEnv joinPeerID joinAddr).final x.follower).forwarded.drop
    x.follower.forwarded.length

def leaderAfter : Node :=
  (x.handed joinPeerID joinAddr).foldl (fun n f =>
    (handleForwardJoinStream x.leaderEnv f.request).final n) x.leader

end Pair

/-! ## On a leader -/

section Leader

variable {n : Node} (hlead : n.isLeader = true) {p addr : Bytes} (hp : p ≠ [])
  (haddr : addr ≠ []) (env : Env)
include hlead hp haddr

theorem run_addLearner_on_leader :
    (handleAddLearner env p addr).final n = (addServerLine env p addr .nonvoter).final n ∧
      ((∃ id, (handleAddLearner env p addr).outcome n = .ok id) ↔
        env.configFault (.addNonvoter p addr) = none) := by
  have hargs : ¬(p = [] ∨ addr = []) := not_or.mpr ⟨hp, haddr⟩
  have hout := outcome_addServerLine env p addr .nonvoter n
  have hprogram : handleAddLearner env p addr n = (do
      addServerLine env p addr .nonvoter
      return (← get).peerID : M Bytes) n := by
    rw [handleAddLearner, if_neg hargs]
    change (if n.isLeader = true then _ else _ : M Bytes) n = _
    rw [if_pos hlead]
  constructor
  · rw [final, hprogram, ← final, final_bind]
    rcases (addServerLine env p addr .nonvoter).outcome n with e | u <;> rfl
  · rw [outcome, hprogram, ← outcome, outcome_bind, hout]
    rw [show addServer p addr .nonvoter = .addNonvoter p addr from rfl]
    rcases env.configFault (.addNonvoter p addr) with _ | f
    · exact iff_of_true ⟨_, rfl⟩ rfl
    · refine iff_of_false (fun h => ?_) (fun h => ?_)
      · obtain ⟨id, h⟩ := h
        cases h
      · cases h

end Leader

/-! ## Through a follower -/

theorem run_addLearner_missing {p addr : Bytes} (h : p = [] ∨ addr = []) (env : Env) (n : Node) :
    handleAddLearner env p addr n = .error .clientAddMissing n := by
  rw [handleAddLearner, if_pos h]
  rfl

def readJoinLine (line : Bytes) : M Bytes := do
  match cutPrefix (ascii "ERR: ") line with
  | some reason => throw (.lib reason)
  | none => return (← get).peerID

theorem final_readJoinLine (line : Bytes) (n : Node) : (readJoinLine line).final n = n := by
  unfold readJoinLine
  rcases cutPrefix (ascii "ERR: ") line <;> rfl

section Follower

variable {x : Pair} {p addr : Bytes} (hp : p ≠ []) (haddr : addr ≠ [])
include hp haddr

theorem addLearner_of_follower :
    handleAddLearner x.followerEnv p addr x.follower =
      (wrapping .clientAddForward
        (forwardJoin x.followerEnv x.follower.leaderID (learnerRequest p addr)) >>=
        readJoinLine) x.follower := by
  have hargs : ¬(p = [] ∨ addr = []) := not_or.mpr ⟨hp, haddr⟩
  rw [handleAddLearner, if_neg hargs]
  change (if x.follower.isLeader = true then _ else _ : M Bytes) x.follower = _
  rw [if_neg (by rw [x.follows]; decide)]
  change (if x.follower.leaderID = [] then _ else _ : M Bytes) x.follower = _
  rw [if_neg x.known]
  rfl

theorem final_addLearner_of_follower :
    (handleAddLearner x.followerEnv p addr).final x.follower =
      x.follower.forward ⟨x.follower.leaderID, .join, joinRequestLine (learnerRequest p addr)⟩ := by
  have hread : ∀ (line : Bytes) (n : Node), (readJoinLine line).final n = n := final_readJoinLine
  rw [final, addLearner_of_follower hp haddr, ← final, final_bind_of_pure hread, final_wrapping,
    forwardJoin, final_bind_of_pure, final_send, x.delivers]
  intro resp n
  rcases Text.scan resp <;> rfl

theorem leaderAfter_eq :
    x.leaderAfter p addr =
      (handleForwardJoinStream x.leaderEnv (joinRequestLine (learnerRequest p addr))).final
        x.leader := by
  rw [Pair.leaderAfter, Pair.handed, final_addLearner_of_follower hp haddr, Node.forward,
    List.drop_left]
  rfl

theorem addLearner_relayed_error {e : Err}
    (h : (handleForwardJoinStream x.leaderEnv (joinRequestLine (learnerRequest p addr))).outcome
      x.leader = .error e)
    (id : Bytes) : (handleAddLearner x.followerEnv p addr).outcome x.follower ≠ .ok id := by
  intro hok
  rw [outcome, addLearner_of_follower hp haddr, ← outcome] at hok
  obtain ⟨line, hline, hread, -⟩ := bind_of_ok hok
  rw [outcome_wrapping] at hline
  have hscan : Text.scan (joinReply x.text (.error e)) = .line line := by
    rw [forwardJoin, outcome_bind, outcome, send_ok (x.delivers _), h] at hline
    dsimp only at hline
    rcases hscan : Text.scan (joinReply x.text (.error e)) with _ | _ | text <;>
      rw [hscan] at hline <;> cases hline
    rfl
  have hbegins : ascii "ERR: " <+: line :=
    Text.isPrefix_of_scan (List.prefix_append ..) (List.forall_iff_forall_mem.mp (by decide))
      (by decide) hscan
  rw [readJoinLine, cutPrefix, if_pos (List.isPrefixOf_iff_prefix.mpr hbegins)] at hread
  cases hread

end Follower

/-! ## The configuration after it -/

section Served

variable {n : Node} (hlead : n.isLeader = true) (env : Env) {stream q : Bytes}
include hlead

theorem hasServer_unread {e : Err} (h : parseJoinRequest stream = .error e) :
    ((handleForwardJoinStream env stream).final n).HasServer q ↔ n.HasServer q := by
  rw [final_handleForwardJoinStream hlead, h]

theorem hasServer_read {r : JoinRequest} (h : parseJoinRequest stream = .ok r) :
    ((handleForwardJoinStream env stream).final n).HasServer q ↔
      n.HasServer q ∨ q = r.peerID ∧
        ∃ c, joinChange env n r = some c ∧ env.commitsConfig c = true := by
  have heffect := admitOrLodgeJoin_effect (length_parseJoinRequest h) hlead env
  rw [final_handleForwardJoinStream hlead, h]
  dsimp only
  rw [Node.HasServer, heffect.servers, Node.HasServer]
  rcases hchange : joinChange env n r with _ | c
  · simp [serversAfter]
  · obtain ⟨sf, rfl⟩ := joinChange_eq_some hchange
    obtain ⟨f, hf, hnext⟩ := nextConfiguration_addServer r.peerID r.addr sf
    rw [serversAfter]
    split_ifs with hcommit
    · rw [hnext, exists_mem_upsert hf]
      simp [hcommit]
    · simp [hcommit]

theorem hasServer_served (h : n.HasServer q) :
    ((handleForwardJoinStream env stream).final n).HasServer q := by
  rcases hparse : parseJoinRequest stream with e | r
  · exact (hasServer_unread hlead env hparse).mpr h
  · exact (hasServer_read hlead env hparse).mpr (.inl h)

theorem outcome_served_of_fault {p addr : Bytes} {f : Fault}
    (hparse : parseJoinRequest stream = .ok (learnerRequest p addr))
    (hconfirm : n.requireConfirmForJoin = false)
    (hfault : env.configFault (.addNonvoter p addr) = some f) :
    (handleForwardJoinStream env stream).outcome n = .error f.err := by
  have hadd := outcome_addServerLine env p addr .nonvoter n
  rw [show addServer p addr .nonvoter = .addNonvoter p addr from rfl, hfault] at hadd
  rw [handleForwardJoinStream, outcome_bind, outcome_wrapping, outcome_ofExcept, hparse]
  simp only [Except.mapError, final_wrapping, final_ofExcept, outcome_get_bind, hlead, if_true]
  rw [admitOrLodgeJoin, if_neg (by simp [learnerRequest]), outcome_get_bind, hconfirm,
    if_neg (by decide), outcome_bind]
  rw [show (addServerLine env (learnerRequest p addr).peerID (learnerRequest p addr).addr
    (learnerRequest p addr).suffrage).outcome n = _ from hadd]

end Served

/-! ## Both ways -/

/-- A success means that the peer is in the configuration, and it makes no difference to the peer
whether the leader is asked directly or through a follower. -/
def ReportsAdmission (leader : Node) (joinPeerID joinAddr : Bytes) : Prop :=
  ∀ x : Pair, x.leader = leader →
    (∀ id, (handleAddLearner x.leaderEnv joinPeerID joinAddr).outcome leader = .ok id →
      ((handleAddLearner x.leaderEnv joinPeerID joinAddr).final leader).HasServer joinPeerID) ∧
    (∀ id, (handleAddLearner x.followerEnv joinPeerID joinAddr).outcome x.follower = .ok id →
      (x.leaderAfter joinPeerID joinAddr).HasServer joinPeerID) ∧
    (((handleAddLearner x.leaderEnv joinPeerID joinAddr).final leader).HasServer joinPeerID ↔
      (x.leaderAfter joinPeerID joinAddr).HasServer joinPeerID)

def Pair.withLeader {leader : Node} (hlead : leader.isLeader = true) (env : Env) : Pair where
  text := fun _ => []
  follower :=
    { Node.alone [] OrdMap.empty with raft := some ⟨[], .follower [1], false, [], Raft.fresh_nil⟩ }
  followerEnv :=
    { deliver := fun _ _ line =>
      .sent (.ok (joinReply (fun _ => []) ((handleForwardJoinStream env line).outcome leader))) }
  leader := leader
  leaderEnv := env
  follows := rfl
  known := by decide
  leads := hlead
  delivers := fun _ => rfl

/-- Raft commits every change of the configuration but one. -/
def allBut (c : ConfigChange) : Env :=
  { configFault := fun c' => if c' = c then some ⟨.lib [], false⟩ else none }

/-- The leader may change the configuration and cannot write. -/
def noEntries : Env := { applyFault := fun _ => some ⟨.lib [], false⟩ }

section Both

variable {leader : Node} (hlead : leader.isLeader = true) {p addr : Data}
include hlead

/-- A peer that is not in yet has to get in both ways or not at all, whatever raft does. -/
theorem admission_same (hp : p.1 ≠ []) (haddr : addr.1 ≠ []) (hnew : ¬leader.HasServer p.1)
    (h : ReportsAdmission leader p.1 addr.1) (env : Env) :
    env.commitsConfig (.addNonvoter p.1 addr.1) = true ↔
      ∃ r, parseJoinRequest (joinRequestLine (learnerRequest p.1 addr.1)) = .ok r ∧ p.1 = r.peerID ∧
        ∃ c, joinChange env leader r = some c ∧ env.commitsConfig c = true := by
  have hsame := (h (Pair.withLeader hlead env) rfl).2.2
  rw [leaderAfter_eq hp haddr, (run_addLearner_on_leader hlead hp haddr _).1,
    hasServer_addServerLine hlead _ p.2] at hsame
  simp only [hnew, false_or, true_and] at hsame
  refine Iff.trans hsame ?_
  change ((handleForwardJoinStream env _).final leader).HasServer p.1 ↔ _
  rcases hparse : parseJoinRequest (joinRequestLine (learnerRequest p.1 addr.1)) with e | r
  · rw [hasServer_unread hlead env hparse]
    simp [hnew]
  · rw [hasServer_read hlead env hparse]
    simp [hnew]

omit hlead in
theorem joinChange_plain {r : JoinRequest} (htoken : r.inviteToken = [])
    (hconfirm : leader.requireConfirmForJoin = false)
    (env : Env) : joinChange env leader r = some (addServer r.peerID r.addr r.suffrage) := by
  rw [joinChange, if_neg (not_not_intro htoken), hconfirm, if_neg (by decide)]

theorem read_as_meant (hp : p.1 ≠ []) (haddr : addr.1 ≠ []) (hnew : ¬leader.HasServer p.1)
    (h : ReportsAdmission leader p.1 addr.1) :
    leader.requireConfirmForJoin = false ∧
      parseJoinRequest (joinRequestLine (learnerRequest p.1 addr.1)) =
        .ok (learnerRequest p.1 addr.1) := by
  -- a leader that cannot write still adds servers, and redeems no invite
  obtain ⟨r, hparse, hpeer, c, hchange, -⟩ :=
    (admission_same hlead hp haddr hnew h noEntries).mp rfl
  have hplain : r.inviteToken = [] ∧ leader.requireConfirmForJoin = false := by
    unfold joinChange at hchange
    split_ifs at hchange with htoken hfault hconfirm
    · exact absurd rfl hfault
    · exact ⟨not_not.mp htoken, by simpa using hconfirm⟩
  -- where raft refuses the learner and nothing else, the line must not lead to anything else
  have hmeant : addServer r.peerID r.addr r.suffrage = .addNonvoter p.1 addr.1 := by
    by_contra hother
    have hcommits :
        (allBut (.addNonvoter p.1 addr.1)).commitsConfig (addServer r.peerID r.addr r.suffrage) =
          true := by
      rw [Env.commitsConfig, allBut]
      simp only [if_neg hother]
    have hboth := (admission_same hlead hp haddr hnew h (allBut (.addNonvoter p.1 addr.1))).mpr
      ⟨r, hparse, hpeer, _, joinChange_plain hplain.1 hplain.2 _, hcommits⟩
    simp [Env.commitsConfig, allBut] at hboth
  refine ⟨hplain.2, ?_⟩
  rw [hparse]
  rcases r with ⟨peerID, raddr, _ | _, token⟩
  · cases hmeant
  · cases hmeant
    cases hplain.1
    rfl

/-- A success means that the learner is in, on the leader as through a follower, exactly if there
was nothing to add, or if the leader asks for no confirmation and the words of the line are the ones
that were meant. -/
theorem reports_admission_iff :
    ReportsAdmission leader p.1 addr.1 ↔
      p.1 = [] ∨ addr.1 = [] ∨ leader.HasServer p.1 ∨
        leader.requireConfirmForJoin = false ∧
          parseJoinRequest (joinRequestLine (learnerRequest p.1 addr.1)) =
            .ok (learnerRequest p.1 addr.1) := by
  by_cases hargs : p.1 = [] ∨ addr.1 = []
  · refine iff_of_true ?_ (by tauto)
    rintro x rfl
    have hmissing := run_addLearner_missing hargs
    have hafter : x.leaderAfter p.1 addr.1 = x.leader := by
      rw [Pair.leaderAfter, Pair.handed, final, hmissing, List.drop_length]
      rfl
    refine ⟨fun id hok => ?_, fun id hok => ?_, ?_⟩
    · rw [outcome, hmissing] at hok
      cases hok
    · rw [outcome, hmissing] at hok
      cases hok
    · rw [hafter, final, hmissing]
  have hp : p.1 ≠ [] := fun h => hargs (.inl h)
  have haddr : addr.1 ≠ [] := fun h => hargs (.inr h)
  constructor
  · intro h
    by_cases hnew : leader.HasServer p.1
    · exact .inr (.inr (.inl hnew))
    · exact .inr (.inr (.inr (read_as_meant hlead hp haddr hnew h)))
  · rintro (h | h | h | ⟨hconfirm, hparse⟩)
    · exact absurd h hp
    · exact absurd h haddr
    · rintro x rfl
      have hdirect : ((handleAddLearner x.leaderEnv p.1 addr.1).final x.leader).HasServer p.1 := by
        rw [(run_addLearner_on_leader hlead hp haddr _).1, hasServer_addServerLine hlead _ p.2]
        exact .inl h
      have hrelayed : (x.leaderAfter p.1 addr.1).HasServer p.1 := by
        rw [leaderAfter_eq hp haddr]
        exact hasServer_served hlead _ h
      exact ⟨fun _ _ => hdirect, fun _ _ => hrelayed, iff_of_true hdirect hrelayed⟩
    · rintro x rfl
      have hdirect := hasServer_addServerLine hlead x.leaderEnv p.2 addr.1 .nonvoter p.1
      have hrelayed := hasServer_read hlead x.leaderEnv (q := p.1) hparse
      rw [← leaderAfter_eq hp haddr, joinChange_plain rfl hconfirm] at hrelayed
      rw [← (run_addLearner_on_leader hlead hp haddr _).1] at hdirect
      have hsame : ((handleAddLearner x.leaderEnv p.1 addr.1).final x.leader).HasServer p.1 ↔
          (x.leaderAfter p.1 addr.1).HasServer p.1 := by
        rw [hdirect, hrelayed]
        simp [learnerRequest]
      have hcommitted : x.leaderEnv.configFault (.addNonvoter p.1 addr.1) = none →
          ((handleAddLearner x.leaderEnv p.1 addr.1).final x.leader).HasServer p.1 := by
        intro hcalm
        refine hdirect.mpr (.inr ⟨rfl, ?_⟩)
        rw [Env.commitsConfig,
          show addServer p.1 addr.1 .nonvoter = .addNonvoter p.1 addr.1 from rfl, hcalm]
      refine ⟨fun id hok => ?_, fun id hok => ?_, hsame⟩
      · exact hcommitted ((run_addLearner_on_leader hlead hp haddr _).2.mp ⟨id, hok⟩)
      · rcases hfault : x.leaderEnv.configFault (.addNonvoter p.1 addr.1) with _ | f
        · exact hsame.mp (hcommitted hfault)
        · exact absurd hok (addLearner_relayed_error hp haddr
            (outcome_served_of_fault hlead _ hparse hconfirm hfault) id)

end Both

/-! ## Lines that are read as they were meant -/

section Plain

variable {p addr : Bytes} (hp : p ≠ []) (haddr : addr ≠ [])
  (hvisible : ∀ c ∈ p ++ addr, Text.isVisible c = true) (hlen : p.length + addr.length < 65527)

def learnerWords (p addr : Bytes) : Bytes := p ++ 0x20 :: (addr ++ 0x20 :: ascii "learner")

theorem joinRequestLine_words (p addr : Bytes) :
    joinRequestLine (learnerRequest p addr) = learnerWords p addr ++ [0x0A] := by
  simp [joinRequestLine, learnerRequest, learnerWords, suffrageWord]

include hp haddr hvisible hlen in
theorem parse_joinRequestLine :
    parseJoinRequest (joinRequestLine (learnerRequest p addr)) = .ok (learnerRequest p addr) := by
  have hpeer := Text.isWord_of_visible hp fun c hc => hvisible c (List.mem_append_left _ hc)
  have hword := Text.isWord_of_visible haddr fun c hc => hvisible c (List.mem_append_right _ hc)
  refine parseJoinRequest_joinRequestLine hpeer hword ?_
  have hlearner : (ascii "learner").length = 7 := rfl
  rw [joinRequestLine_words]
  simp only [learnerWords, List.length_append, List.length_cons, List.length_nil, hlearner,
    Text.maxScanTokenSize]
  omega

end Plain

/-- A follower of a leader that asks for confirmation, and of one that does not. -/
def strictLeader : Node :=
  { Node.alone (ascii "l") OrdMap.empty with requireConfirmForJoin := true }

def openLeader : Node := Node.alone (ascii "l") OrdMap.empty

theorem length_addressA_lt : (ascii "/ip4/1.2.3.4").length < 2 ^ 29 := by decide

def addressA : Data := ⟨ascii "/ip4/1.2.3.4", length_addressA_lt⟩

theorem reports_admission_open : ReportsAdmission openLeader peerQ.1 addressA.1 := by
  refine (@reports_admission_iff openLeader rfl peerQ addressA).mpr (.inr (.inr (.inr ⟨rfl, ?_⟩)))
  exact parse_joinRequestLine (by decide) (by decide)
    (List.forall_iff_forall_mem.mp (by decide)) (by decide)

/-- The leader itself adds the learner. A follower reports the same, and the learner waits
for its confirmation. -/
theorem learner_reported_pending :
    ((handleAddLearner {} peerQ.1 addressA.1).final strictLeader).HasServer peerQ.1 ∧
      (handleAddLearner (@Pair.withLeader strictLeader rfl {}).followerEnv peerQ.1
        addressA.1).outcome
        (@Pair.withLeader strictLeader rfl {}).follower = .ok [] ∧
      ¬((@Pair.withLeader strictLeader rfl {}).leaderAfter peerQ.1 addressA.1).HasServer
        peerQ.1 := by
  refine ⟨?_, ?_, ?_⟩ <;> decide

end KvRaft.Daemon
