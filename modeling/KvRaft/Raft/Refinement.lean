import KvRaft.Lib.Reach
import KvRaft.Raft.RoutineProof

/-! # Runs of a cluster keep to a history

Every state that a cluster reaches goes together with a history (`Sim.step`, `Sim.run`), whatever
the network does and wherever servers crash. Besides the schedules that are not steps here (see
`Replication` and `System`), two things are excluded (`Orderly`, `Torn`): a crash between the two
writes of `persistVote`, after which the server takes its vote of an earlier term for one of the new
term; and a `TimeoutNow` that reaches a candidate while it still asks for permission to stand, which
then counts the votes of its election against the quorum of an earlier configuration. -/

namespace KvRaft.Raft

open LeaderLog

/-- An event at a time when it can occur, and finds no candidate that asks for permission if it
is a `TimeoutNow`. -/
def Orderly (σ : System) (n : ServerID) (ev : Event) : Prop :=
  Enabled σ n ev ∧ (ev = .timeoutNow → ¬AsksPermission (σ.node n).vol)

/-- The steps of a cluster without the two exceptions. -/
inductive OrderlyStep (cl : Cluster) : System → System → Prop
  | act {σ n ev} (h : Orderly σ n ev) : OrderlyStep cl σ (σ.act cl n ev)
  | crash {σ n ev} (h : Orderly σ n ev) {out rest}
      (hout : (react cl n ev (σ.node n)).out = out ++ rest)
    (htorn : ¬Torn out rest) : OrderlyStep cl σ (σ.after n (crashed (σ.node n).stable out) out)

theorem OrderlyStep.step {cl : Cluster} {σ σ' : System} (h : OrderlyStep cl σ σ') :
    Step cl σ σ' := by
  cases h with
  | act h => exact .act h.1
  | crash h hout => exact .crash h.1 hout

abbrev Cluster.Reaches (cl : Cluster) : System → System → Prop :=
  Relation.ReflTransGen (OrderlyStep cl)

/-- Outside of `runCandidate` the flag of the leadership transfer is not set. -/
def FlagOk (v : Volatile) : Prop :=
  v.candidateFromLeadershipTransfer = true → ∃ c, v.role = .candidate c

/-- A cluster goes together with a history. -/
structure Sim (cl : Cluster) (σ : System) (a : Hist) : Prop where
  core : Core cl a (fun n => (σ.node n).stable) σ.sent
  vol : ∀ n, VolOk a n (σ.node n).stable (σ.node n).vol
  flag : ∀ n, FlagOk (σ.node n).vol

section
variable {cl : Cluster} {σ σ' : System} {n : ServerID} {a₀ a : Hist} {r : Run}

/-! ## One event -/

theorem handle_good {ev : Event} (h : Good cl σ n a₀ r) (hnode : r.toNode = σ.node n)
    (hflag : FlagOk r.vol) (hev : Orderly σ n ev) : Good cl σ n a₀ (handle cl n ev r) := by
  obtain ⟨hen, hpermission⟩ := hev
  have hvol : (σ.node n).vol = r.vol := by rw [← hnode]
  have hstable : (σ.node n).stable = r.stable := by rw [← hnode]
  cases ev with
  | requestVote req => exact requestVote_good h hen
  | requestPreVote req => exact requestPreVote_good h req
  | appendEntries req => exact appendEntries_good h hen hflag
  | timeoutNow => exact timeoutNow_good h (hvol ▸ hpermission rfl)
  | heartbeatTimeout => exact heartbeatTimeout_good h
  | runCandidate => exact runCandidate_good h
  | electionTimeout => exact electionTimeout_good h
  | preVoteResult voter resp =>
    obtain ⟨c, hc, hst, -⟩ := hen
    exact preVoteResult_good h (hvol ▸ hc) hst voter resp
  | voteResult voter resp now =>
    obtain ⟨c, hc, hst, hmem, hresp⟩ := hen
    exact voteResult_good h (hvol ▸ hc) hst hmem hresp now
  | apply requests now => exact applyRequests_good h requests now
  | changeConfiguration change now => exact changeConfiguration_good h change now
  | commit => exact processCommit_good h
  | stepDown => exact stepDown_good h
  | startRound k => exact startRound_good h k
  | stopRound k => exact stopRound_good h k
  | sendRound k => exact sendRound_good h k
  | roundReply k resp =>
    obtain ⟨s, lastIndex, lastRound, req, hk, hm, hsent⟩ := hen
    exact roundReply_good h (hvol ▸ hk) hm hsent
  | routineFailed k => exact routineFailed_good h k
  | pipelineSend k => exact pipelineSend_good h k
  | pipelineStop k => exact pipelineStop_good h k
  | pipelineReply k req resp =>
    obtain ⟨s, hk, hsent, -, hterm⟩ := hen
    exact pipelineReply_good h (hvol ▸ hk) hsent (hstable ▸ hterm)
  | heartbeat k => exact heartbeat_good h k
  | transferLeadership k => exact transferLeadership_good h k
  | setTransferInProgress b => exact setTransferInProgress_good h b
  | bootstrap => exact liveBootstrap_good h

theorem leaveCandidate_good (h : Good cl σ n a₀ r) : Good cl σ n a₀ (leaveCandidate r) := by
  unfold leaveCandidate
  split
  · exact h
  · next hno =>
    refine h.setVol (fun _ hl => { hl with }) fun a hrole => ?_
    unfold RoleOk at hrole ⊢
    cases hr : r.vol.role with
    | follower => trivial
    | candidate c => exact absurd hr (hno c)
    | leader ls =>
      rw [hr] at hrole
      exact { (hrole : LeaderOk _ _ _ _ _) with }

theorem flagOk_leaveCandidate (r : Run) : FlagOk (leaveCandidate r).vol := by
  intro hset
  unfold leaveCandidate at hset ⊢
  split at hset
  · next c hc => exact ⟨c, by rw [hc]⟩
  · cases hset

theorem react_good (h : Sim cl σ a) {ev : Event} (hev : Orderly σ n ev) :
    Good cl σ n a (react cl n ev (σ.node n)) := by
  have hstart : Good cl σ n a ⟨σ.node n, []⟩ := ⟨a, Tracks.start h.core _ rfl, h.vol n⟩
  exact leaveCandidate_good (handle_good hstart rfl (h.flag n) hev)

/-! ## One step -/

theorem System.after_stable (σ : System) (n : ServerID) (node : Node) (out : List Effect) :
    (fun m => ((σ.after n node out).node m).stable) = σ.disks n node.stable := by
  funext m
  by_cases hm : m = n
  · subst hm
    simp [System.after, System.disks]
  · simp [System.after, System.disks, hm]

/-- The step of one server, and what the others make of it. -/
theorem Sim.after (h : Sim cl σ a) {a' : Hist} {node : Node} {out : List Effect}
    (hrun : cl.Steps n a a')
    (hcore : Core cl a' (σ.disks n node.stable) (σ.sent ++ messages out))
    (hvol : VolOk a' n node.stable node.vol)
    (hflag : FlagOk node.vol) : Sim cl (σ.after n node out) a' := by
  refine ⟨?_, fun m => ?_, fun m => ?_⟩
  · rw [System.after_stable]
    exact hcore
  · by_cases hm : m = n
    · subst hm
      simpa [System.after] using hvol
    · simpa [System.after, hm] using (h.vol m).run_other h.core.inv hrun (Ne.symm hm)
  · by_cases hm : m = n
    · subst hm
      simpa [System.after] using hflag
    · simpa [System.after, hm] using h.flag m

theorem newRaft_ok {disk : ServerID → Stable} {sent : List Msg} (h : Core cl a disk sent)
    (n : ServerID) :
    VolOk a n (disk n) (newRaft (disk n)) := by
  have hroot : Rooted cl.scheme a (disk n).logs := h.log n ▸ h.inv.log_rooted n
  have hterm : ∀ x ∈ (disk n).logs, x.term ≤ (disk n).currentTerm := by
    rw [← h.log, ← h.cur]
    exact h.inv.log_term n
  exact ⟨⟨.inl rfl, settled_committedIndex h.inv hroot hterm, settled_zero _ _ _, le_rfl, rfl, rfl⟩,
    trivial⟩

/-- Every step of a cluster is some steps of the history. -/
theorem Sim.step (h : Sim cl σ a) (hstep : OrderlyStep cl σ σ') :
    ∃ a', Sim cl σ' a' ∧ ∃ n, cl.Steps n a a' := by
  cases hstep with
  | @act n ev hev =>
    obtain ⟨a', ht, hv⟩ := react_good h hev
    exact ⟨a', h.after ht.run ht.core hv (flagOk_leaveCandidate _), n, ht.run⟩
  | @crash n ev hev out rest hout htorn =>
    obtain ⟨b, ht, -⟩ := react_good h hev
    obtain ⟨a', hrun, hcore⟩ := ht.cut out rest hout htorn
    refine ⟨a', h.after hrun hcore ?_ (fun hf => by cases hf), n, hrun⟩
    have := newRaft_ok hcore n
    rwa [System.disks, Function.update_self] at this

end

/-! ## Runs -/

theorem Sim.init (cl : Cluster) : Sim cl System.init (History.init cl.scheme) := by
  refine ⟨⟨Inv.init _, ?_, fun _ => rfl, fun _ => rfl, fun n => ⟨?_, ?_, le_rfl⟩,
    List.forall_mem_nil _⟩,
    fun n => ⟨⟨.inl rfl, ?_, ?_, le_rfl, rfl, rfl⟩, trivial⟩, fun n hf => by cases hf⟩
  · simp [History.init]
  · exact fun t c hv => by cases hv
  · exact fun addr haddr => by cases haddr
  · exact settled_zero _ _ _
  · exact settled_zero _ _ _

section
variable {cl : Cluster} {σ σ' : System} {a : Hist}

/-- A run extends the history, and keeps what is settled in a server's log. -/
theorem Sim.run (h : Sim cl σ a) (hrun : cl.Reaches σ σ') :
    ∃ a', Sim cl σ' a' ∧ Extends a a' ∧
      ∀ m i, Settled a (a.log m) (a.cur m) i → Settled a' (a'.log m) (a'.cur m) i := by
  induction hrun with
  | refl => exact ⟨a, h, .refl a, fun _ _ => id⟩
  | tail _ hstep ih =>
    obtain ⟨b, hb, hext, hkept⟩ := ih
    obtain ⟨a', ha', n, hsteps⟩ := hb.step hstep
    exact ⟨a', ha', hext.trans (Extends.run hb.core.inv hsteps),
      fun m i hs => (hkept m i hs).run hb.core.inv hsteps⟩

end

end KvRaft.Raft
