import KvRaft.Daemon.Bookkeeping

/-! # The bookkeeping, check by check

A member's records are written one after the other, each through the state machine's own checks, and
the first refusal ends the series without anybody hearing of it. On a leader whose entries all
commit the result depends on the store alone: `Room` holds the checks that all of them
have to pass. -/

namespace KvRaft.Daemon

open Bytes Shmevent Kvfsm

/-- Raft commits whatever it is given. -/
structure Calm (env : Env) : Prop where
  apply : ∀ cmd, env.applyFault cmd = none
  config : ∀ c, env.configFault c = none

def Node.withStore (n : Node) (s : Store) : Node := { n with store := s }

/-! ## What the checks depend on -/

variable {s s' : Store}

theorem checkSystemListCap_congr {kind status : UInt8}
    (h : ∀ id, s.get (systemKey kind status id) = s'.get (systemKey kind status id)) (id : Bytes) :
    checkSystemListCap s (systemKey kind status id) =
      checkSystemListCap s' (systemKey kind status id) := by
  have hcount : s.countPrefix ((systemKey kind status id).take systemKeyPrefixLen) =
      s'.countPrefix ((systemKey kind status id).take systemKeyPrefixLen) := by
    refine congrArg List.length (Store.scanPrefix_congr 0 fun k hk => ?_)
    obtain ⟨r, rfl⟩ := hk
    exact h r
  simp only [checkSystemListCap, h id, hcount]

theorem checkGroupNameUnique_congr (h : ∀ id, s.get (groupKey id) = s'.get (groupKey id))
    (key value : Bytes) : checkGroupNameUnique s key value = checkGroupNameUnique s' key value := by
  have hscan : s.scanRange groupKeyBounds.1 groupKeyBounds.2 0 =
      s'.scanRange groupKeyBounds.1 groupKeyBounds.2 0 := by
    refine Store.scanRange_congr 0 fun k hk => ?_
    simp only [Store.inRange, Bool.and_eq_true, Bool.not_eq_true', decide_eq_false_iff_not] at hk
    obtain ⟨r, rfl⟩ := List.isPrefix_of_between (List.prefix_refl groupKeyBounds.1)
      (List.prefix_append _ _) hk.1 hk.2
    exact h r
  simp only [checkGroupNameUnique, hscan]

/-! ## The places in the groups -/

def memberKey (q g : Bytes) : Bytes :=
  systemKey kindPeerGroup catalogStatusPlaceholder (beBytes 2 q.length ++ (q ++ g))

theorem peerGroupKey_eq {q : Bytes} (hq : q.length ≤ 0xFFFF) (g : Bytes) :
    peerGroupKey q g = .ok (memberKey q g) := by
  rw [peerGroupKey, relationKey, if_neg (not_lt.mpr hq)]
  rfl

theorem peerGroupKey_error {q : Bytes} (hq : ¬q.length ≤ 0xFFFF) (g : Bytes) :
    ∃ e, peerGroupKey q g = .error e := by
  rw [peerGroupKey, relationKey, if_pos (not_le.mp hq)]
  exact ⟨_, rfl⟩

theorem memberKey_inj {q g g' : Bytes} (h : memberKey q g = memberKey q g') : g = g' := by
  have hid := (systemKey_inj.mp h).2.2
  exact List.append_cancel_left (List.append_cancel_left hid)

def roleGroup : Suffrage → Bytes
  | .voter => reservedGroupVoter
  | .nonvoter => reservedGroupLearner

def otherGroup : Suffrage → Bytes
  | .voter => reservedGroupLearner
  | .nonvoter => reservedGroupVoter

def roleOf (sf : Suffrage) : UInt8 := if sf = .nonvoter then roleLearner else roleVoter

/-- A member's records pass the checks of the state machine: its personal group, its place in the
cluster group, and then its place in the group of its role. -/
structure Room (s : Store) (q : Bytes) (sf : Suffrage) : Prop where
  group : checkSystemListCap s (groupKey q) = .ok ()
  name : checkGroupNameUnique s (groupKey q) (encodeGroupPayload q false) = .ok ()
  fits : q.length ≤ 0xFFFF
  cluster : checkSystemListCap s (memberKey q reservedGroupCluster) = .ok ()
  role : checkSystemListCap (s.set (memberKey q reservedGroupCluster) [])
    (memberKey q (roleGroup sf)) = .ok ()

/-- The two stores hold the same groups and the same places in them. -/
structure SameGroups (s s' : Store) : Prop where
  groups : ∀ id, s.get (groupKey id) = s'.get (groupKey id)
  places : ∀ id, s.get (systemKey kindPeerGroup catalogStatusPlaceholder id) =
    s'.get (systemKey kindPeerGroup catalogStatusPlaceholder id)

theorem SameGroups.symm (h : SameGroups s s') : SameGroups s' s :=
  ⟨fun id => (h.groups id).symm, fun id => (h.places id).symm⟩

theorem cap_set_congr (h : ∀ id, s.get (systemKey kindPeerGroup catalogStatusPlaceholder id) =
    s'.get (systemKey kindPeerGroup catalogStatusPlaceholder id)) (key v q g : Bytes) :
    checkSystemListCap (s.set key v) (memberKey q g) =
      checkSystemListCap (s'.set key v) (memberKey q g) := by
  refine checkSystemListCap_congr (fun id => ?_) _
  rw [Store.set, Store.set, OrdMap.get_insert, OrdMap.get_insert, h]

theorem Room.congr (h : SameGroups s s') {q : Bytes} {sf : Suffrage} (hr : Room s q sf) :
    Room s' q sf where
  group := checkSystemListCap_congr h.groups q ▸ hr.group
  name := checkGroupNameUnique_congr h.groups _ _ ▸ hr.name
  fits := hr.fits
  cluster := (checkSystemListCap_congr h.places _).symm.trans hr.cluster
  role := (cap_set_congr h.places _ _ _ _).symm.trans hr.role

/-! ## One record -/

theorem run_raftApply {env : Env} {cmd : Bytes} (h : env.applyFault cmd = none) (n : Node) :
    raftApply env cmd n =
      .ok (apply n.store ⟨cmd, env.now⟩).1 (n.withStore (apply n.store ⟨cmd, env.now⟩).2) := by
  unfold raftApply
  rw [h]
  rfl

theorem run_applyOp {env : Env} {op : OpType} {key value : Bytes}
    (h : env.applyFault (encodeCommand op key value) = none) (n : Node) :
    applyOp env op key value n =
      match (apply n.store ⟨encodeCommand op key value, env.now⟩).1.err with
      | none => .ok () (n.withStore (apply n.store ⟨encodeCommand op key value, env.now⟩).2)
      | some e =>
        .error e (n.withStore (apply n.store ⟨encodeCommand op key value, env.now⟩).2) := by
  rw [applyOp, EStateM.run_bind_of_ok (run_raftApply h n)]
  cases (apply n.store ⟨encodeCommand op key value, env.now⟩).1.err <;> rfl

section Record

variable {env : Env} (hcalm : Calm env)
include hcalm

variable {q : Bytes} (hq : q.length < 2 ^ 29) {n : Node} (hlead : n.isLeader = true)
include hq hlead

theorem run_ensurePersonalGroup :
    (checkSystemListCap n.store (groupKey q) = .ok () ∧
      checkGroupNameUnique n.store (groupKey q) (encodeGroupPayload q false) = .ok () ∧
      ensurePersonalGroup env q n =
        .ok () (n.withStore (n.store.set (groupKey q) (encodeGroupPayload q false)))) ∨
    (¬(checkSystemListCap n.store (groupKey q) = .ok () ∧
        checkGroupNameUnique n.store (groupKey q) (encodeGroupPayload q false) = .ok ()) ∧
      ∃ e, ensurePersonalGroup env q n = .error e n) := by
  have hdec : decodeCommand (encodeCommand .set (groupKey q) (encodeGroupPayload q false)) =
      .ok ⟨.set, groupKey q, encodeGroupPayload q false⟩ := by
    refine decodeCommand_encodeCommand ?_
    simp only [groupKey, systemKey, encodeGroupPayload, List.length_cons]
    omega
  have hspec : preserveCommandSpec n.store (groupKey q) (encodeGroupPayload q false) =
      .ok (encodeGroupPayload q false) := rfl
  unfold ensurePersonalGroup wrapping putRecord
  rw [handleConfirmForwardWith_of_leader hlead, applyConfirmWith_of_ne (by decide),
    run_applyOp (hcalm.apply _)]
  simp only [apply, hdec, applySet, hspec]
  rcases checkSystemListCap n.store (groupKey q) with e | ⟨⟩
  · refine .inr ⟨?_, _, rfl⟩
    rintro ⟨h, -⟩
    cases h
  rcases checkGroupNameUnique n.store (groupKey q) (encodeGroupPayload q false) with e | ⟨⟩
  · refine .inr ⟨?_, _, rfl⟩
    rintro ⟨-, h⟩
    cases h
  · exact .inl ⟨rfl, rfl, rfl⟩

variable {g : Bytes} (hg : g ∈ memberGroups) (hfits : q.length ≤ 0xFFFF)
include hg hfits

omit hcalm hlead in
theorem decode_memberEntry (op : OpType) :
    decodeCommand (encodeCommand op (memberKey q g) []) = .ok ⟨op, memberKey q g, []⟩ := by
  have hlen : ∀ g ∈ memberGroups, g.length ≤ 7 := by decide
  have := hlen g hg
  refine decodeCommand_encodeCommand ?_
  simp only [memberKey, systemKey, List.length_cons, List.length_append, length_beBytes,
    List.length_nil]
  omega

theorem run_setPeerGroup :
    setPeerGroup env q g n =
      match checkSystemListCap n.store (memberKey q g) with
      | .ok () => .ok () (n.withStore (n.store.set (memberKey q g) []))
      | .error e => .error e n := by
  have hname : checkGroupNameUnique n.store (memberKey q g) [] = .ok () := rfl
  have hspec : preserveCommandSpec n.store (memberKey q g) [] = .ok [] := rfl
  have hrun : setPeerGroup env q g n = handleOpForward env .set (memberKey q g) [] true n := by
    unfold setPeerGroup
    rw [peerGroupKey_eq hfits]
    rfl
  rw [hrun, handleOpForward_of_leader hlead, run_applyOp (hcalm.apply _)]
  simp only [apply, decode_memberEntry hq hg hfits, applySet, hname, hspec]
  cases checkSystemListCap n.store (memberKey q g) <;> rfl

theorem run_deletePeerGroup :
    deletePeerGroup env q g n = .ok () (n.withStore (n.store.delete (memberKey q g))) := by
  have hrun : deletePeerGroup env q g n = deleteRecord env (memberKey q g) n := by
    unfold deletePeerGroup
    rw [peerGroupKey_eq hfits]
    rfl
  rw [hrun, deleteRecord, handleConfirmForwardWith_of_leader hlead,
    applyConfirmWith_of_ne (by decide), run_applyOp (hcalm.apply _)]
  simp only [apply, decode_memberEntry hq hg hfits]
  rfl

end Record

/-! ## The series -/

theorem get_place_after_group (s : Store) (q v id : Bytes) :
    (s.set (groupKey q) v).get (systemKey kindPeerGroup catalogStatusPlaceholder id) =
      s.get (systemKey kindPeerGroup catalogStatusPlaceholder id) := by
  have hne : systemKey kindPeerGroup catalogStatusPlaceholder id ≠ groupKey q :=
    systemKey_ne_of_kind (by decide) _ _ _ _
  rw [Store.set, OrdMap.get_insert, if_neg hne]

theorem cap_after_group (s : Store) (q v g : Bytes) :
    checkSystemListCap (s.set (groupKey q) v) (memberKey q g) =
      checkSystemListCap s (memberKey q g) :=
  checkSystemListCap_congr (get_place_after_group s q v) _

section Series

variable {env : Env} (hcalm : Calm env) {q : Bytes} (hq : q.length < 2 ^ 29) {n : Node}
  (hlead : n.isLeader = true)
include hcalm hq hlead

omit hcalm hq hlead in
theorem run_syncMemberGroups (sf : Suffrage) :
    syncMemberGroups env q (roleOf sf) n =
      (do ensurePersonalGroup env q
          setPeerGroup env q reservedGroupCluster
          setPeerGroup env q (roleGroup sf)
          deletePeerGroup env q (otherGroup sf) : M Unit) n := by
  unfold syncMemberGroups
  cases sf <;> rfl

theorem sync_of_room {sf : Suffrage} (h : Room n.store q sf) :
    (syncMemberGroups env q (roleOf sf)).final n =
      n.withStore ((((n.store.set (groupKey q) (encodeGroupPayload q false)).set
        (memberKey q reservedGroupCluster) []).set (memberKey q (roleGroup sf)) []).delete
          (memberKey q (otherGroup sf))) := by
  have hrole : roleGroup sf ∈ memberGroups := by cases sf <;> decide
  have hother : otherGroup sf ∈ memberGroups := by cases sf <;> decide
  rcases run_ensurePersonalGroup hcalm hq hlead with ⟨-, -, hgroup⟩ | ⟨hno, -⟩
  · unfold EStateM.final
    rw [run_syncMemberGroups, EStateM.run_bind_of_ok hgroup]
    set n₁ := n.withStore (n.store.set (groupKey q) (encodeGroupPayload q false)) with hn₁
    have hcluster : setPeerGroup env q reservedGroupCluster n₁ =
        .ok () (n₁.withStore (n₁.store.set (memberKey q reservedGroupCluster) [])) := by
      rw [run_setPeerGroup hcalm hq (n := n₁) hlead (by decide) h.fits]
      simp only [hn₁, Node.withStore, cap_after_group, h.cluster]
    rw [EStateM.run_bind_of_ok hcluster]
    set n₂ := n₁.withStore (n₁.store.set (memberKey q reservedGroupCluster) []) with hn₂
    have hset : setPeerGroup env q (roleGroup sf) n₂ =
        .ok () (n₂.withStore (n₂.store.set (memberKey q (roleGroup sf)) [])) := by
      have hcap : checkSystemListCap n₂.store (memberKey q (roleGroup sf)) = .ok () := by
        rw [← h.role]
        exact cap_set_congr (get_place_after_group _ _ _) _ _ _ _
      rw [run_setPeerGroup hcalm hq (n := n₂) hlead hrole h.fits]
      simp only [hcap]
    set n₃ := n₂.withStore (n₂.store.set (memberKey q (roleGroup sf)) [])
    rw [EStateM.run_bind_of_ok hset, run_deletePeerGroup hcalm hq (n := n₃) hlead hother h.fits]
    rfl
  · exact absurd ⟨h.group, h.name⟩ hno

/-- The series was cut short: the places in the groups of the two roles are as they were, and the
place in the cluster group was not lost. -/
theorem sync_of_not_room {sf : Suffrage} (h : ¬Room n.store q sf) :
    ∃ s, (syncMemberGroups env q (roleOf sf)).final n = n.withStore s ∧
      (∀ key, key ≠ groupKey q → key ≠ memberKey q reservedGroupCluster →
        s.get key = n.store.get key) ∧
      ((n.store.get (memberKey q reservedGroupCluster)).isSome →
        (s.get (memberKey q reservedGroupCluster)).isSome) := by
  have hrole : roleGroup sf ∈ memberGroups := by cases sf <;> decide
  unfold EStateM.final
  rw [run_syncMemberGroups]
  rcases run_ensurePersonalGroup hcalm hq hlead with ⟨hcap, hname, hgroup⟩ | ⟨-, e, hgroup⟩
  · rw [EStateM.run_bind_of_ok hgroup]
    set n₁ := n.withStore (n.store.set (groupKey q) (encodeGroupPayload q false)) with hn₁
    have hget₁ : ∀ key, key ≠ groupKey q → n₁.store.get key = n.store.get key := by
      intro key hne
      rw [hn₁, Node.withStore, Store.set, OrdMap.get_insert, if_neg hne]
    have hneGroup : memberKey q reservedGroupCluster ≠ groupKey q :=
      systemKey_ne_of_kind (by decide) _ _ _ _
    -- the series ends here if the peer id is too long for a key, or the list is full
    have stopped (e : Err) (hstop : setPeerGroup env q reservedGroupCluster n₁ = .error e n₁) :
        ∃ s, EStateM.final (do
            setPeerGroup env q reservedGroupCluster
            setPeerGroup env q (roleGroup sf)
            deletePeerGroup env q (otherGroup sf) : M Unit) n₁ = n.withStore s ∧
          (∀ key, key ≠ groupKey q → key ≠ memberKey q reservedGroupCluster →
            s.get key = n.store.get key) ∧
          ((n.store.get (memberKey q reservedGroupCluster)).isSome →
            (s.get (memberKey q reservedGroupCluster)).isSome) := by
      unfold EStateM.final
      rw [EStateM.run_bind_of_error hstop]
      refine ⟨n₁.store, rfl, fun key hne _ => hget₁ key hne, fun hsome => ?_⟩
      rw [hget₁ _ hneGroup]
      exact hsome
    by_cases hfits : q.length ≤ 0xFFFF
    · have hrun := run_setPeerGroup hcalm hq (n := n₁) hlead
        (g := reservedGroupCluster) (by decide) hfits
      rcases hcluster : checkSystemListCap n₁.store (memberKey q reservedGroupCluster) with e | ⟨⟩
      · rw [hcluster] at hrun
        exact stopped e hrun
      rw [hcluster] at hrun
      rw [EStateM.run_bind_of_ok hrun]
      set n₂ := n₁.withStore (n₁.store.set (memberKey q reservedGroupCluster) []) with hn₂
      have hrun₂ := run_setPeerGroup hcalm hq (n := n₂) hlead hrole hfits
      rcases hcap₂ : checkSystemListCap n₂.store (memberKey q (roleGroup sf)) with e | ⟨⟩
      · rw [hcap₂] at hrun₂
        rw [EStateM.run_bind_of_error hrun₂]
        refine ⟨n₂.store, rfl, fun key hne hne' => ?_, fun _ => ?_⟩
        · rw [hn₂, Node.withStore, Store.set, OrdMap.get_insert, if_neg hne', hget₁ key hne]
        · simp [hn₂, Node.withStore, Store.set]
      · refine absurd ⟨hcap, hname, hfits, ?_, ?_⟩ h
        · rw [← hcluster, hn₁, Node.withStore, cap_after_group]
        · rw [← hcap₂]
          exact cap_set_congr (fun id => (get_place_after_group _ _ _ id).symm) _ _ _ _
    · obtain ⟨e, he⟩ := peerGroupKey_error hfits reservedGroupCluster
      refine stopped e ?_
      unfold setPeerGroup
      rw [he]
      rfl
  · rw [EStateM.run_bind_of_error hgroup]
    exact ⟨n.store, rfl, fun _ _ _ => rfl, id⟩

end Series

end KvRaft.Daemon
