import KvRaft.Daemon.Members
import KvRaft.Kvfsm.Requests

/-! # What adding a server changes

The leader's records of a member lie under a handful of keys. The frame `memberFrame q` allows a
leader to change the records of `q` and nothing else; every piece of the bookkeeping keeps it, so
the effect of `addServerLine` is the configuration change and the member's own records. -/

namespace KvRaft.Daemon

open Bytes Shmevent Kvfsm

/-! ## The keys of a member -/

def memberGroups : List Bytes := [reservedGroupCluster, reservedGroupVoter, reservedGroupLearner]

/-- The member's record, its personal group, and its places in the groups above. -/
def IsMemberKey (q key : Bytes) : Prop :=
  key = clusterMemberKey q ∨ key = groupKey q ∨ ∃ g ∈ memberGroups, peerGroupKey q g = .ok key

theorem not_isMemberKey_pending (q : Bytes) (kind : UInt8) (id : Bytes) :
    ¬IsMemberKey q (systemKey kind statusPending id) := by
  rintro (h | h | ⟨g, -, h⟩)
  · exact absurd (systemKey_inj.mp h).2.1 (by decide)
  · exact absurd (systemKey_inj.mp h).2.1 (by decide)
  · exact absurd (systemKey_inj.mp (relationKey_eq_ok h).2).2.1 (by decide)

/-- A leader changes the records of the member `q` only. -/
def memberFrame (q : Bytes) : Frame Node where
  rel n n' := n.isLeader = true →
    ∃ s, n' = { n with store := s } ∧ ∀ key, ¬IsMemberKey q key → s.get key = n.store.get key
  refl n := fun _ => ⟨n.store, rfl, fun _ _ => rfl⟩
  trans := by
    intro a b c hab hbc ha
    obtain ⟨s, rfl, hs⟩ := hab ha
    obtain ⟨s', rfl, hs'⟩ := hbc ha
    exact ⟨s', rfl, fun key hkey => (hs' key hkey).trans (hs key hkey)⟩

section Frame

variable {q : Bytes} (env : Env)

variable {key value g : Bytes}

theorem keeps_applyOp {op : OpType} (hop : op.single = true)
    (hkey : IsMemberKey q key) (hk : key.length < 256 ^ 4) (hv : value.length < 256 ^ 4) :
    (memberFrame q).Keeps (applyOp env op key value) := by
  intro n _
  rw [final_applyOp]
  split_ifs
  · refine ⟨_, rfl, fun k hnot => get_apply_of_ne hop hk hv ?_ n.store env.now⟩
    rintro rfl
    exact hnot hkey
  · exact ⟨n.store, rfl, fun _ _ => rfl⟩

theorem keeps_handleSetForward (hkey : IsMemberKey q key)
    (hk : key.length < 256 ^ 4) (hv : value.length < 256 ^ 4) :
    (memberFrame q).Keeps (handleSetForward env key value true) := by
  intro n hlead
  have hf :
      (handleSetForward env key value true).final n = (applyOp env .set key value).final n := by
    unfold EStateM.final
    rw [handleSetForward, handleOpForward_of_leader hlead]
  rw [hf]
  exact keeps_applyOp env rfl hkey hk hv n hlead

theorem keeps_handleConfirmForwardWith {op : OpType} (hop : op.single = true)
    (hkey : IsMemberKey q key) (hk : key.length < 256 ^ 4) (hv : value.length < 256 ^ 4)
    (onConfirmed : Bytes → M Unit) :
    (memberFrame q).Keeps (handleConfirmForwardWith env onConfirmed op key value true) := by
  intro n hlead
  have hne : op ≠ .confirm := by
    rintro rfl
    cases hop
  have hf : (handleConfirmForwardWith env onConfirmed op key value true).final n =
      (applyOp env op key value).final n := by
    unfold EStateM.final
    rw [handleConfirmForwardWith_of_leader hlead, applyConfirmWith_of_ne hne]
  rw [hf]
  exact keeps_applyOp env hop hkey hk hv n hlead

theorem keeps_wrapping {α : Type} {F : Frame Node} {f : M α} (ctx : Ctx) (h : F.Keeps f) :
    F.Keeps (wrapping ctx f) := by
  intro n
  rw [final_wrapping]
  exact h n

/-! ## The bookkeeping keeps to them -/

variable (hq : q.length < 2 ^ 29)
include hq

theorem keeps_recordClusterMember (role : UInt8) :
    (memberFrame q).Keeps (recordClusterMember env q role) := by
  refine (Frame.keeps_ofExcept _).bind fun raw => keeps_handleSetForward env (.inl rfl) ?_ ?_
  · simp only [clusterMemberKey, systemKey, List.length_cons]
    omega
  · have hraw := raw.2
    simp only [encodeClusterMemberPayload, List.length_append, List.length_singleton]
    omega

theorem length_peerGroupKey (hg : g ∈ memberGroups) (hkey : peerGroupKey q g = .ok key) :
    key.length < 256 ^ 4 := by
  have hlen : ∀ g ∈ memberGroups, g.length ≤ 7 := by decide
  have := hlen g hg
  obtain ⟨-, rfl⟩ := relationKey_eq_ok hkey
  simp only [systemKey, List.length_cons, List.length_append, length_beBytes]
  omega

theorem keeps_setPeerGroup (hg : g ∈ memberGroups) :
    (memberFrame q).Keeps (setPeerGroup env q g) := by
  intro n
  unfold setPeerGroup
  rw [EStateM.final_bind, EStateM.outcome_ofExcept, EStateM.final_ofExcept]
  rcases hkey : peerGroupKey q g with e | key
  · exact (memberFrame q).refl n
  · exact keeps_handleSetForward env (.inr (.inr ⟨g, hg, hkey⟩)) (length_peerGroupKey hq hg hkey)
      (by simp) n

theorem keeps_deletePeerGroup (hg : g ∈ memberGroups) :
    (memberFrame q).Keeps (deletePeerGroup env q g) := by
  intro n
  unfold deletePeerGroup
  rw [EStateM.final_bind, EStateM.outcome_ofExcept, EStateM.final_ofExcept]
  rcases hkey : peerGroupKey q g with e | key
  · exact (memberFrame q).refl n
  · exact keeps_handleConfirmForwardWith env rfl (.inr (.inr ⟨g, hg, hkey⟩))
      (length_peerGroupKey hq hg hkey) (by simp) _ n

theorem keeps_ensurePersonalGroup : (memberFrame q).Keeps (ensurePersonalGroup env q) := by
  refine keeps_wrapping _ (keeps_handleConfirmForwardWith env rfl (.inr (.inl rfl)) ?_ ?_ _)
  · simp only [groupKey, systemKey, List.length_cons]
    omega
  · simp only [encodeGroupPayload, List.length_cons]
    omega

theorem keeps_syncMemberGroups (role : UInt8) :
    (memberFrame q).Keeps (syncMemberGroups env q role) := by
  refine (keeps_ensurePersonalGroup env hq).bind fun _ =>
    (keeps_setPeerGroup env hq (by decide)).bind fun _ => Frame.keeps_ite (fun _ => ?_) fun _ => ?_
  · exact (keeps_setPeerGroup env hq (by decide)).bind fun _ =>
      keeps_deletePeerGroup env hq (by decide)
  · exact (keeps_setPeerGroup env hq (by decide)).bind fun _ =>
      keeps_deletePeerGroup env hq (by decide)

end Frame

/-! ## Admitting a server -/

/-- A leader's configuration became `servers`, and besides it only records of `q` changed. -/
structure MemberEffect (q : Bytes) (servers : List Server) (n n' : Node) : Prop where
  servers : n'.servers = servers
  store : ∀ key, ¬IsMemberKey q key → n'.store.get key = n.store.get key
  joinsSent : n'.raft.map (·.joinsSent) = n.raft.map (·.joinsSent)
  forwarded : n'.forwarded = n.forwarded

variable {n : Node}

theorem servers_withServers (hlead : n.isLeader = true)
    (f : List Server → List Server) :
    (n.modifyRaft fun rf => rf.withServers (f rf.servers)).servers = f n.servers := by
  unfold Node.isLeader at hlead
  unfold Node.modifyRaft Node.servers
  cases h : n.raft with
  | none => simp [h] at hlead
  | some rf => rfl

theorem memberEffect_transfer {q : Bytes} {servers : List Server} {n' : Node}
    (h : MemberEffect q servers n n') (env : Env) :
    MemberEffect q servers n ((transferLeadershipToStableVoter env).final n') := by
  unfold transferLeadershipToStableVoter
  rw [EStateM.final_modify]
  split
  · exact h
  · split
    · exact h
    · refine ⟨?_, h.store, ?_, h.forwarded⟩
      · rw [← h.servers]
        unfold Node.modifyRaft Node.servers
        cases n'.raft <;> rfl
      · rw [← h.joinsSent]
        unfold Node.modifyRaft
        cases n'.raft <;> rfl

theorem addServerLine_effect {q : Bytes} (hq : q.length < 2 ^ 29)
    (hlead : n.isLeader = true) (env : Env) (addr : Bytes) (sf : Suffrage) :
    MemberEffect q
      (if env.commitsConfig (addServer q addr sf) then nextConfiguration n.servers
        (addServer q addr sf)
       else n.servers) n ((addServerLine env q addr sf).final n) := by
  unfold addServerLine
  rw [EStateM.final_bind, outcome_changeConfig, final_changeConfig]
  generalize addServer q addr sf = c
  set n₁ := n.modifyRaft fun rf => rf.withServers (nextConfiguration rf.servers c) with hn₁
  have hservers : n₁.servers = nextConfiguration n.servers c :=
    servers_withServers hlead fun servers => nextConfiguration servers c
  have hjoins : n₁.raft.map (·.joinsSent) = n.raft.map (·.joinsSent) := by
    rw [hn₁, Node.modifyRaft]
    cases n.raft <;> rfl
  have hlead₁ : n₁.isLeader = true := by
    rw [hn₁, Node.modifyRaft, ← hlead]
    unfold Node.isLeader
    cases n.raft <;> rfl
  unfold Env.commitsConfig
  cases env.configFault c with
  | some f =>
    dsimp only
    split_ifs
    · exact ⟨hservers, fun _ _ => rfl, hjoins, rfl⟩
    · exact ⟨rfl, fun _ _ => rfl, rfl, rfl⟩
  | none =>
    simp only [if_true, EStateM.final_ignore_bind]
    set role := if sf = .nonvoter then roleLearner else roleVoter
    have hbook := ((keeps_recordClusterMember env hq role).ignore.bind fun _ =>
      (keeps_syncMemberGroups env hq role).ignore) n₁ hlead₁
    obtain ⟨s, hs, hget⟩ := hbook
    have heffect : MemberEffect q (nextConfiguration n.servers c) n
        ((syncMemberGroups env q role).final ((recordClusterMember env q role).final n₁)) := by
      change (syncMemberGroups env q role).final
        ((recordClusterMember env q role).final n₁) = _ at hs
      rw [hs]
      exact ⟨hservers, hget, hjoins, rfl⟩
    split_ifs
    · exact heffect
    · exact memberEffect_transfer heffect env

end KvRaft.Daemon
