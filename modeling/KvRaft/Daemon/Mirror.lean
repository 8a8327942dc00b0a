import KvRaft.Daemon.Confirmed
import KvRaft.Daemon.Sync

/-! # Reserved groups and the raft configuration

The groups `cluster`, `voter` and `learner` are meant to mirror the configuration. A removal keeps
them so. An admission does not when its bookkeeping is refused halfway, nor when it asks for a
learner's place for a voter, since raft leaves the voter its vote while the groups are changed. -/

namespace KvRaft.Daemon

open Bytes Shmevent Kvfsm

/-! ## The mirror -/

/-- Whether a peer is in `cluster`, in `voter` and in `learner`. -/
def standing (s : Store) (q : Bytes) : Bool × Bool × Bool :=
  (isInGroup s q reservedGroupCluster, isInGroup s q reservedGroupVoter,
    isInGroup s q reservedGroupLearner)

/-- The places that belong to a suffrage. A peer outside the configuration has none. -/
def placesOf : Option Suffrage → Bool × Bool × Bool
  | none => (false, false, false)
  | some .voter => (true, true, false)
  | some .nonvoter => (true, false, true)

/-- Every server has the places that belong to its suffrage, and nobody else has any. -/
structure Lockstep (n : Node) : Prop where
  servers : ∀ srv ∈ n.servers, standing n.store srv.id = placesOf (some srv.suffrage)
  others : ∀ q, ¬n.HasServer q → standing n.store q = placesOf none

def Node.DistinctServers (n : Node) : Prop := (n.servers.map (·.id)).Nodup

def suffrageIn (servers : List Server) (q : Bytes) : Option Suffrage :=
  (servers.find? (·.id = q)).map (·.suffrage)

theorem suffrageIn_of_mem : ∀ {servers : List Server}, (servers.map (·.id)).Nodup →
    ∀ {srv : Server}, srv ∈ servers → suffrageIn servers srv.id = some srv.suffrage
  | [], _, _, h => nomatch h
  | first :: servers, hnodup, srv, h => by
    obtain ⟨hfirst, hnodup⟩ := List.nodup_cons.mp hnodup
    rcases List.mem_cons.mp h with rfl | h
    · simp [suffrageIn]
    · have hne : first.id ≠ srv.id := fun he => hfirst (List.mem_map.mpr ⟨srv, h, he.symm⟩)
      rw [suffrageIn, List.find?_cons_of_neg (by simpa using hne)]
      exact suffrageIn_of_mem hnodup h

theorem suffrageIn_eq_none {servers : List Server} {q : Bytes} :
    suffrageIn servers q = none ↔ ¬∃ srv ∈ servers, srv.id = q := by
  simp [suffrageIn]

/-- With distinct ids, the mirror can be read peer by peer. -/
theorem lockstep_iff_standing {n : Node} (hdistinct : n.DistinctServers) :
    Lockstep n ↔ ∀ q, standing n.store q = placesOf (suffrageIn n.servers q) := by
  constructor
  · intro h q
    by_cases hq : n.HasServer q
    · obtain ⟨srv, hmem, rfl⟩ := hq
      rw [suffrageIn_of_mem hdistinct hmem]
      exact h.servers srv hmem
    · rw [suffrageIn_eq_none.mpr hq]
      exact h.others q hq
  · intro h
    refine ⟨fun srv hmem => ?_, fun q hq => ?_⟩
    · rw [h, suffrageIn_of_mem hdistinct hmem]
    · rw [h, suffrageIn_eq_none.mpr hq]

/-! ## The configuration after an operation -/

theorem suffrageIn_upsert {q : Bytes} {f : Option Server → Server} (hf : ∀ o, (f o).id = q)
    (x : Bytes) :
    ∀ servers, suffrageIn (upsert q f servers) x =
      if x = q then some (f (servers.find? (·.id = q))).suffrage else suffrageIn servers x
  | [] => by
    by_cases hx : x = q
    · simp [upsert, suffrageIn, hf, hx]
    · simp [upsert, suffrageIn, hf, hx, Ne.symm hx]
  | srv :: servers => by
    unfold upsert
    by_cases hsrv : srv.id = q
    · rw [if_pos hsrv]
      by_cases hx : x = q
      · simp [suffrageIn, hf, hx, hsrv]
      · simp [suffrageIn, hf, hx, Ne.symm hx, hsrv]
    · rw [if_neg hsrv]
      have ih := suffrageIn_upsert hf x servers
      by_cases hx : srv.id = x
      · have hne : x ≠ q := fun he => hsrv (hx.trans he)
        simp [suffrageIn, hx, hne]
      · simp only [suffrageIn, List.find?_cons_of_neg, hx, hsrv, decide_false, Bool.false_eq_true,
          not_false_eq_true] at ih ⊢
        exact ih

theorem nodup_upsert {q : Bytes} {f : Option Server → Server} (hf : ∀ o, (f o).id = q) :
    ∀ {servers : List Server}, (servers.map (·.id)).Nodup → ((upsert q f servers).map (·.id)).Nodup
  | [], _ => by simp [upsert]
  | srv :: servers, h => by
    obtain ⟨hsrv, hnodup⟩ := List.nodup_cons.mp h
    unfold upsert
    split_ifs with hid
    · rw [List.map_cons, hf, ← hid]
      exact h
    · refine List.nodup_cons.mpr ⟨fun hmem => ?_, nodup_upsert hf hnodup⟩
      obtain ⟨srv', hmem, heq⟩ := List.mem_map.mp hmem
      rcases (exists_mem_upsert hf srv.id servers).mp ⟨srv', hmem, heq⟩ with
        ⟨srv'', hmem, heq⟩ | heq
      · exact hsrv (List.mem_map.mpr ⟨srv'', hmem, heq⟩)
      · exact hid heq

/-- The suffrage of a peer after it was added: raft leaves a voter its vote. -/
def suffrageAfter (old : Option Suffrage) : Suffrage → Suffrage
  | .voter => .voter
  | .nonvoter => if old = some .voter then .voter else .nonvoter

/-- With the roles' places as they were and the cluster's not lost, a peer's places fit its new
suffrage exactly if it is the old one. -/
theorem places_eq_iff {places : Bool × Bool × Bool} {old : Option Suffrage} {new : Suffrage}
    (hroles : places.2 = (placesOf old).2) (hcluster : (placesOf old).1 = true → places.1 = true) :
    places = placesOf (some new) ↔ some new = old := by
  obtain ⟨cluster, roles⟩ := places
  dsimp only at hroles hcluster
  subst hroles
  rcases old with _ | _ | _ <;> cases new <;> simp_all [placesOf]

theorem suffrageIn_addServer (servers : List Server) (q addr : Bytes) (sf : Suffrage) (x : Bytes) :
    suffrageIn (nextConfiguration servers (addServer q addr sf)) x =
      if x = q then some (suffrageAfter (suffrageIn servers q) sf) else suffrageIn servers x := by
  cases sf with
  | voter =>
    rw [addServer, nextConfiguration, suffrageIn_upsert]
    · rfl
    · exact fun _ => rfl
  | nonvoter =>
    rw [addServer, nextConfiguration, suffrageIn_upsert]
    · refine if_congr Iff.rfl (congrArg some ?_) rfl
      rw [suffrageAfter, suffrageIn]
      generalize servers.find? _ = old
      rcases old with _ | ⟨_ | _, id, address⟩ <;> rfl
    · intro o
      split <;> rfl

theorem suffrageIn_removeServer {servers : List Server} (hnodup : (servers.map (·.id)).Nodup)
    (q x : Bytes) :
    suffrageIn (nextConfiguration servers (.removeServer q)) x =
      if x = q then none else suffrageIn servers x := by
  rw [nextConfiguration]
  induction servers with
  | nil => simp [suffrageIn]
  | cons srv servers ih =>
    obtain ⟨hsrv, hnodup⟩ := List.nodup_cons.mp hnodup
    by_cases hid : srv.id = q
    · rw [List.eraseP_cons_of_pos (by simpa using hid)]
      split_ifs with hx
      · rw [hx, ← hid]
        refine suffrageIn_eq_none.mpr ?_
        rintro ⟨srv', hmem, heq⟩
        exact hsrv (List.mem_map.mpr ⟨srv', hmem, heq⟩)
      · rw [suffrageIn, suffrageIn, List.find?_cons_of_neg (by simpa [hid] using Ne.symm hx)]
    · rw [List.eraseP_cons_of_neg (by simpa using hid)]
      by_cases hx : srv.id = x
      · have hne : x ≠ q := fun he => hid (hx.trans he)
        simp [suffrageIn, hx, hne]
      · have ih := ih hnodup
        simp only [suffrageIn, List.find?_cons_of_neg, hx, decide_false, Bool.false_eq_true,
          not_false_eq_true] at ih ⊢
        exact ih

/-! ## The places after an operation -/

theorem isInGroup_eq {q : Bytes} (hq : q.length ≤ 0xFFFF) (s : Store) (g : Bytes) :
    isInGroup s q g = (s.get (memberKey q g)).isSome := by
  rw [isInGroup, peerGroupKey_eq hq]

theorem isInGroup_too_long {q : Bytes} (hq : ¬q.length ≤ 0xFFFF) (s : Store) (g : Bytes) :
    isInGroup s q g = false := by
  obtain ⟨e, he⟩ := peerGroupKey_error hq g
  rw [isInGroup, he]

theorem standing_congr {s s' : Store} {q : Bytes}
    (h : ∀ g ∈ memberGroups, ∀ key, peerGroupKey q g = .ok key → s'.get key = s.get key) :
    standing s' q = standing s q := by
  have same : ∀ g ∈ memberGroups, isInGroup s' q g = isInGroup s q g := by
    intro g hg
    unfold isInGroup
    rcases hkey : peerGroupKey q g with e | key
    · rfl
    · dsimp only
      rw [h g hg key hkey]
  rw [standing, standing, same _ (by decide), same _ (by decide), same _ (by decide)]

theorem standing_of_other {q x : Bytes} (hx : x ≠ q) {s s' : Store}
    (h : ∀ key, ¬IsMemberKey q key → s'.get key = s.get key) : standing s' x = standing s x := by
  refine standing_congr fun g _ key hkey => h key ?_
  rintro (hk | hk | ⟨g', -, hk⟩)
  · rw [(relationKey_eq_ok hkey).2] at hk
    exact systemKey_ne_of_kind (by decide) _ _ _ _ hk
  · rw [(relationKey_eq_ok hkey).2] at hk
    exact systemKey_ne_of_kind (by decide) _ _ _ _ hk
  · exact hx (relationKey_inj hkey hk).1

/-! ## Admissions -/

theorem isLeader_withServers (n : Node) (f : List Server → List Server) :
    (n.modifyRaft fun rf => rf.withServers (f rf.servers)).isLeader = n.isLeader := by
  unfold Node.modifyRaft Node.isLeader
  cases n.raft <;> rfl

theorem recordClusterMember_store (env : Env) {q : Bytes} (hq : q.length < 2 ^ 29) {n : Node}
    (hlead : n.isLeader = true) (role : UInt8) :
    ∃ s, (recordClusterMember env q role).final n = n.withStore s ∧
      ∀ key, key ≠ clusterMemberKey q → s.get key = n.store.get key := by
  unfold recordClusterMember
  rw [EStateM.final_bind, EStateM.outcome_ofExcept, EStateM.final_ofExcept]
  rcases env.publicKey q with e | raw
  · exact ⟨n.store, rfl, fun _ _ => rfl⟩
  have hrun : (handleSetForward env (clusterMemberKey q) (encodeClusterMemberPayload raw.1 role)
      true).final n = (applyOp env .set (clusterMemberKey q)
        (encodeClusterMemberPayload raw.1 role)).final n := by
    unfold EStateM.final
    rw [handleSetForward, handleOpForward_of_leader hlead]
  have hraw := raw.2
  dsimp only
  rw [hrun, final_applyOp]
  split_ifs
  · refine ⟨_, rfl, fun key hne => get_apply_of_ne rfl ?_ ?_ hne n.store env.now⟩
    · simp only [clusterMemberKey, systemKey, List.length_cons]
      omega
    · simp only [encodeClusterMemberPayload, List.length_append, List.length_singleton]
      omega
  · exact ⟨n.store, rfl, fun _ _ => rfl⟩

theorem store_transferLeadership (env : Env) (n : Node) :
    ((transferLeadershipToStableVoter env).final n).store = n.store := by
  unfold transferLeadershipToStableVoter
  rw [EStateM.final_modify]
  split
  · rfl
  · split <;> rfl

theorem sameGroups_of_member {q : Bytes} {s s' : Store}
    (h : ∀ key, key ≠ clusterMemberKey q → s.get key = s'.get key) : SameGroups s s' :=
  ⟨fun _ => h _ (systemKey_ne_of_kind (by decide) _ _ _ _),
    fun _ => h _ (systemKey_ne_of_kind (by decide) _ _ _ _)⟩

section Admission

variable {env : Env} (hcalm : Calm env) {q : Bytes} (hq : q.length < 2 ^ 29) {n : Node}
  (hlead : n.isLeader = true)
include hcalm hq hlead

theorem store_addServerLine (addr : Bytes) (sf : Suffrage) :
    ∃ m : Node, m.isLeader = true ∧ SameGroups m.store n.store ∧
      ((addServerLine env q addr sf).final n).store =
        ((syncMemberGroups env q (roleOf sf)).final m).store := by
  set n₁ :=
    n.modifyRaft fun rf => rf.withServers (nextConfiguration rf.servers (addServer q addr sf))
  have hlead₁ : n₁.isLeader = true :=
    (isLeader_withServers n (nextConfiguration · (addServer q addr sf))).trans hlead
  obtain ⟨s, hs, hget⟩ := recordClusterMember_store env hq hlead₁ (roleOf sf)
  refine ⟨n₁.withStore s, hlead₁, sameGroups_of_member hget, ?_⟩
  have hconfig : (changeConfig env (addServer q addr sf)).final n = n₁ := by
    rw [final_changeConfig, Env.commitsConfig, hcalm.config]
    rfl
  rw [addServerLine, EStateM.final_bind, outcome_changeConfig, hcalm.config, hconfig]
  dsimp only
  rw [EStateM.final_ignore_bind, EStateM.final_ignore_bind, ← roleOf, hs]
  split_ifs
  · rfl
  · exact store_transferLeadership env _

theorem standing_of_room (addr : Bytes) {sf : Suffrage} (h : Room n.store q sf) :
    standing ((addServerLine env q addr sf).final n).store q = placesOf (some sf) := by
  obtain ⟨m, hm, hsame, hstore⟩ := store_addServerLine hcalm hq hlead addr sf
  have hne : ∀ g g', g ≠ g' → memberKey q g ≠ memberKey q g' :=
    fun g g' hg e => hg (memberKey_inj e)
  have h₁ := hne reservedGroupCluster reservedGroupVoter (by decide)
  have h₂ := hne reservedGroupCluster reservedGroupLearner (by decide)
  have h₃ := hne reservedGroupVoter reservedGroupLearner (by decide)
  rw [hstore, sync_of_room hcalm hq hm (h.congr hsame.symm)]
  simp only [standing, isInGroup_eq h.fits, Node.withStore, Store.delete, Store.set,
    OrdMap.get_erase, OrdMap.get_insert]
  cases sf <;> simp [roleGroup, otherGroup, placesOf, h₁, h₂, h₃, h₃.symm]

theorem standing_of_not_room (addr : Bytes) {sf : Suffrage} (h : ¬Room n.store q sf) :
    (standing ((addServerLine env q addr sf).final n).store q).2 = (standing n.store q).2 ∧
      ((standing n.store q).1 = true →
        (standing ((addServerLine env q addr sf).final n).store q).1 = true) := by
  obtain ⟨m, hm, hsame, hstore⟩ := store_addServerLine hcalm hq hlead addr sf
  obtain ⟨s, hs, hget, hcluster⟩ := sync_of_not_room hcalm hq hm fun hr => h (hr.congr hsame)
  rw [hstore, hs]
  by_cases hfits : q.length ≤ 0xFFFF
  · have hplace : ∀ g ∈ memberGroups, g ≠ reservedGroupCluster →
        s.get (memberKey q g) = n.store.get (memberKey q g) := by
      intro g _ hg
      have hgroup : memberKey q g ≠ groupKey q := systemKey_ne_of_kind (by decide) _ _ _ _
      rw [hget _ hgroup fun e => hg (memberKey_inj e)]
      exact hsame.places _
    simp only [standing, isInGroup_eq hfits, Node.withStore]
    refine ⟨?_, fun hsome => hcluster ?_⟩
    · rw [hplace _ (by decide) (by decide), hplace _ (by decide) (by decide)]
    · rw [show m.store.get (memberKey q reservedGroupCluster) = _ from hsame.places _]
      exact hsome
  · simp [standing, isInGroup_too_long hfits]

/-- When an admission keeps the mirror. A voter stays a voter, so its groups must not be changed to
a learner's; a learner that is made a voter and a new server need the whole series. -/
def KeepsMirror (n : Node) (q : Bytes) (sf : Suffrage) : Prop :=
  match suffrageIn n.servers q with
  | some .voter => sf = .voter ∨ ¬Room n.store q sf
  | some .nonvoter => sf = .nonvoter ∨ Room n.store q sf
  | none => Room n.store q sf

theorem servers_addServerLine (addr : Bytes) (sf : Suffrage) :
    ((addServerLine env q addr sf).final n).servers =
      nextConfiguration n.servers (addServer q addr sf) := by
  rw [(addServerLine_effect hq hlead env addr sf).servers, Env.commitsConfig, hcalm.config]
  rfl

theorem distinct_addServerLine (hdistinct : n.DistinctServers) (addr : Bytes) (sf : Suffrage) :
    ((addServerLine env q addr sf).final n).DistinctServers := by
  obtain ⟨f, hf, hnext⟩ := nextConfiguration_addServer q addr sf
  rw [Node.DistinctServers, servers_addServerLine hcalm hq hlead, hnext]
  exact nodup_upsert hf hdistinct

theorem admission_lockstep_iff (hdistinct : n.DistinctServers) (hlock : Lockstep n) (addr : Bytes)
    (sf : Suffrage) :
    Lockstep ((addServerLine env q addr sf).final n) ↔ KeepsMirror n q sf := by
  have hbefore := (lockstep_iff_standing hdistinct).mp hlock
  rw [lockstep_iff_standing (distinct_addServerLine hcalm hq hlead hdistinct addr sf)]
  -- nothing changes for anybody else
  have hown : (∀ x, standing ((addServerLine env q addr sf).final n).store x =
      placesOf (suffrageIn ((addServerLine env q addr sf).final n).servers x)) ↔
      standing ((addServerLine env q addr sf).final n).store q =
        placesOf (some (suffrageAfter (suffrageIn n.servers q) sf)) := by
    simp only [servers_addServerLine hcalm hq hlead, suffrageIn_addServer]
    refine ⟨fun h => by simpa using h q, fun h x => ?_⟩
    split_ifs with hx
    · rw [hx, h]
    · rw [standing_of_other hx (addServerLine_effect hq hlead env addr sf).store, hbefore]
  rw [hown, KeepsMirror]
  by_cases hroom : Room n.store q sf
  · rw [standing_of_room hcalm hq hlead addr hroom]
    rcases suffrageIn n.servers q with _ | _ | _ <;> cases sf <;>
      simp [suffrageAfter, placesOf, hroom]
  · obtain ⟨hroles, hcluster⟩ := standing_of_not_room hcalm hq hlead addr hroom
    rw [hbefore] at hroles hcluster
    rw [places_eq_iff hroles hcluster]
    rcases suffrageIn n.servers q with _ | _ | _ <;> cases sf <;> simp [suffrageAfter, hroom]

end Admission

/-! ## Removals -/

section Removal

variable {env : Env} (hcalm : Calm env) {q : Bytes} (hq : q.length < 2 ^ 29) {n : Node}
  (hlead : n.isLeader = true)
include hcalm hq hlead

theorem standing_clearMemberGroups :
    standing ((clearMemberGroups env q).final n).store q = placesOf none := by
  by_cases hfits : q.length ≤ 0xFFFF
  · have hrun : clearMemberGroups env q n = .ok () (n.withStore
        (((n.store.delete (memberKey q reservedGroupCluster)).delete
          (memberKey q reservedGroupVoter)).delete (memberKey q reservedGroupLearner))) := by
      set n₁ := n.withStore (n.store.delete (memberKey q reservedGroupCluster))
      set n₂ := n₁.withStore (n₁.store.delete (memberKey q reservedGroupVoter))
      unfold clearMemberGroups
      rw [EStateM.run_bind_of_ok (run_deletePeerGroup hcalm hq hlead (by decide) hfits),
        EStateM.run_bind_of_ok (run_deletePeerGroup hcalm hq (n := n₁) hlead (by decide) hfits),
        run_deletePeerGroup hcalm hq (n := n₂) hlead (by decide) hfits]
      rfl
    rw [EStateM.final, hrun]
    simp [standing, isInGroup_eq hfits, Node.withStore, Store.delete, OrdMap.get_erase, placesOf]
  · simp [standing, isInGroup_too_long hfits, placesOf]

theorem removeServerLine_effect :
    ∃ m : Node, m.isLeader = true ∧ m.servers = nextConfiguration n.servers (.removeServer q) ∧
      (∀ key, ¬IsMemberKey q key → m.store.get key = n.store.get key) ∧
      (removeServerLine env q).final n = (clearMemberGroups env q).final m := by
  set n₁ :=
    n.modifyRaft fun rf => rf.withServers (nextConfiguration rf.servers (.removeServer q)) with hn₁
  have hlead₁ : n₁.isLeader = true :=
    (isLeader_withServers n (nextConfiguration · (.removeServer q))).trans hlead
  have hkeeps : (memberFrame q).Keeps (applyOp env .del (clusterMemberKey q) []) := by
    refine keeps_applyOp env rfl (.inl rfl) ?_ (by simp)
    simp only [clusterMemberKey, systemKey, List.length_cons]
    omega
  obtain ⟨s, hs, hget⟩ := hkeeps n₁ hlead₁
  refine ⟨n₁.withStore s, hlead₁,
    servers_withServers hlead (nextConfiguration · (.removeServer q)), hget, ?_⟩
  have hconfig : (changeConfig env (.removeServer q)).final n = n₁ := by
    rw [final_changeConfig, Env.commitsConfig, hcalm.config]
    rfl
  rw [removeServerLine, EStateM.final_bind, outcome_changeConfig, hcalm.config, hconfig]
  dsimp only
  rw [EStateM.final_ignore_bind, hs]
  rfl

omit hcalm hlead in
theorem keeps_clearMemberGroups : (memberFrame q).Keeps (clearMemberGroups env q) :=
  (keeps_deletePeerGroup env hq (by decide)).bind fun _ =>
    (keeps_deletePeerGroup env hq (by decide)).bind fun _ =>
      keeps_deletePeerGroup env hq (by decide)

theorem removal_lockstep (hdistinct : n.DistinctServers) (hlock : Lockstep n) :
    Lockstep ((removeServerLine env q).final n) ∧
      ((removeServerLine env q).final n).DistinctServers := by
  obtain ⟨m, hm, hservers, hget, hfinal⟩ := removeServerLine_effect hcalm hq hlead
  obtain ⟨s, hs, hget'⟩ := keeps_clearMemberGroups hq m hm
  have hafter : ((removeServerLine env q).final n).servers =
      nextConfiguration n.servers (.removeServer q) := by
    rw [hfinal, hs, ← hservers]
    rfl
  have hdistinct' : ((removeServerLine env q).final n).DistinctServers := by
    rw [Node.DistinctServers, hafter, nextConfiguration]
    exact hdistinct.sublist (List.eraseP_sublist.map _)
  refine ⟨(lockstep_iff_standing hdistinct').mpr fun x => ?_, hdistinct'⟩
  rw [hafter, suffrageIn_removeServer hdistinct]
  split_ifs with hx
  · rw [hx, hfinal]
    exact standing_clearMemberGroups hcalm hq hm
  · have hother : standing s x = standing n.store x :=
      standing_of_other hx fun key hkey => (hget' key hkey).trans (hget key hkey)
    rw [hfinal, hs]
    exact hother.trans ((lockstep_iff_standing hdistinct).mp hlock x)

end Removal

end KvRaft.Daemon
