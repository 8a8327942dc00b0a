import KvRaft.Daemon.Mirror
import KvRaft.Lib.Reach

/-! # Lockstep of groups and configuration

Catalog operations keep the reserved groups as they are. With what admissions and removals do
(`KvRaft.Daemon.Mirror`) this gives the groups after any sequence of operations: they mirror the
configuration exactly if every admission keeps the mirror, and an admission that does not reports
success all the same. -/

namespace KvRaft.Daemon

open Bytes Shmevent Kvfsm Frame

/-! ## Catalog operations -/

def isCatalogOp : Event → Bool
  | .groupPut .. => true
  | .groupDelete .. => true
  | .commandPut .. => true
  | .commandDelete .. => true
  | .stationPut .. => true
  | .stationDelete .. => true
  | .groupCommandPut .. => true
  | .groupCommandDelete .. => true
  | .peerGroupPut .. => true
  | .peerGroupDelete .. => true
  | _ => false

/-- A leader keeps the configuration and everybody's places. -/
def mirrorFrame : Frame Node where
  rel n n' := n.isLeader = true → n'.raft = n.raft ∧ ∀ q, standing n'.store q = standing n.store q
  refl _ _ := ⟨rfl, fun _ => rfl⟩
  trans := by
    intro a b c hab hbc ha
    obtain ⟨hraft, hplaces⟩ := hab ha
    have hb : b.isLeader = true := by
      rw [Node.isLeader, hraft]
      exact ha
    obtain ⟨hraft', hplaces'⟩ := hbc hb
    exact ⟨hraft'.trans hraft, fun q => (hplaces' q).trans (hplaces q)⟩

def NotPlace (key : Bytes) : Prop := ∀ q, ∀ g ∈ memberGroups, peerGroupKey q g ≠ .ok key

theorem notPlace_of_kind {kind : UInt8} (h : kind ≠ kindPeerGroup) (status : UInt8) (id : Bytes) :
    NotPlace (systemKey kind status id) := by
  intro q g _ hkey
  exact systemKey_ne_of_kind h _ _ _ _ (relationKey_eq_ok hkey).2

variable {key id : Bytes} {ks : List Bytes}

theorem notPlace_of_group {q g : Bytes} (hg : isAutoManagedGroupID g = false)
    (hkey : peerGroupKey q g = .ok key) : NotPlace key := by
  intro q' g' hg' hkey'
  obtain ⟨-, rfl⟩ := relationKey_inj hkey hkey'
  have hmanaged : isAutoManagedGroupID g = true := by
    simpa [isAutoManagedGroupID, memberGroups] using hg'
  rw [hg] at hmanaged
  cases hmanaged

theorem mirror_applied {env : Env} {cmd : Bytes} {n : Node}
    (h : ∀ w ∈ plan n.store ⟨cmd, env.now⟩, NotPlace w.key) :
    mirrorFrame.rel n (n.applied env cmd) := by
  refine fun _ => ⟨rfl, fun q => standing_congr fun g hg key hkey => ?_⟩
  rw [Node.applied, apply_store]
  refine Write.get_perform_of_not_written n.store fun w hw hkw => ?_
  exact h w hw q g hg (hkw ▸ hkey)

theorem mirror_handleConfirmForward (env : Env) {op : OpType} (hop : op ≠ .confirm) {value : Bytes}
    (h : ∀ s t, ∀ w ∈ plan s ⟨encodeCommand op key value, t⟩, NotPlace w.key) :
    mirrorFrame.Keeps (handleConfirmForward env op key value true) := by
  intro n hlead
  have hrun :
      (handleConfirmForward env op key value true).final n =
        (applyOp env op key value).final n := by
    unfold EStateM.final
    rw [handleConfirmForward, handleConfirmForwardWith_of_leader hlead, applyConfirmWith_of_ne hop]
  rw [hrun, final_applyOp]
  split_ifs
  · exact mirror_applied (h _ _) hlead
  · exact ⟨rfl, fun _ => rfl⟩

theorem mirror_single (env : Env) {op : OpType} (hop : op.single = true) {value : Bytes}
    (hk : key.length < 256 ^ 4) (hv : value.length < 256 ^ 4) (hkey : NotPlace key) :
    mirrorFrame.Keeps (handleConfirmForward env op key value true) := by
  refine mirror_handleConfirmForward env ?_ fun s t w hw => ?_
  · rintro rfl
    cases hop
  · rw [plan_key hop hk hv hw]
    exact hkey

theorem parse_of_matchingKeys {parse : Bytes → Except Err (Bytes × Bytes)} {groupID : Bytes}
    {ms : List (Bytes × Bytes)} (h : matchingKeys parse groupID ms = .ok ks) :
    ∀ k ∈ ks, ∃ id, parse k = .ok (id, groupID) := by
  intro k hk
  obtain ⟨id, -, hparse⟩ := (mem_matchingKeys h).mp hk
  exact ⟨id, hparse⟩

theorem notPlace_of_cascadeGroup {s : Store}
    (hid : isReservedGroupID id = false) (h : cascadeKeys s (groupKey id) = .ok ks) :
    ∀ k ∈ ks, NotPlace k := by
  have hkind : systemKind (groupKey id) = some kindGroup := rfl
  have hdrop : (groupKey id).drop systemKeyPrefixLen = id := rfl
  unfold cascadeKeys at h
  simp only [hkind, hdrop] at h
  rw [if_neg (by decide), if_pos trivial] at h
  rcases hcs : matchingKeys parseGroupCommandKey id
    (s.scanPrefix allGroupCommandsPrefix 0) with e | cs
  · rw [hcs] at h
    cases h
  rcases hps : matchingKeys parsePeerGroupKey id (s.scanPrefix allPeerGroupsPrefix 0) with e | ps
  · rw [hcs, hps] at h
    cases h
  rw [hcs, hps] at h
  cases h
  intro k hk
  simp only [List.mem_append, List.mem_singleton] at hk
  rcases hk with hk | hk | rfl
  · obtain ⟨⟨k, v⟩, hmem, rfl⟩ := List.mem_map.mp (mem_of_matchingKeys hcs k hk)
    obtain ⟨⟨r, rfl⟩, -⟩ := Store.mem_scanPrefix.mp hmem
    exact notPlace_of_kind (show kindGroupCommand ≠ kindPeerGroup by decide) _ r
  · -- a place of the group was found under its own id, which is none of the three
    intro q g hg hkey
    obtain ⟨i, hparse⟩ := parse_of_matchingKeys hps k hk
    rw [parsePeerGroupKey, parseRelationKey_relationKey hkey] at hparse
    obtain ⟨-, rfl⟩ := Prod.mk.inj (Except.ok.inj hparse)
    have hreserved : ∀ g ∈ memberGroups, isReservedGroupID g = true := by decide
    rw [hreserved g hg] at hid
    cases hid
  · exact notPlace_of_kind (by decide) _ _

theorem notPlace_of_cascadeCommand {s : Store}
    (h : cascadeKeys s (commandKey id) = .ok ks) : ∀ k ∈ ks, NotPlace k := by
  have hkind : systemKind (commandKey id) = some kindCommand := rfl
  have hdrop : (commandKey id).drop systemKeyPrefixLen = id := rfl
  unfold cascadeKeys at h
  simp only [hkind, hdrop] at h
  rw [if_pos trivial] at h
  rcases hp : groupCommandKey id [] with e | p
  · rw [hp] at h
    cases h
  rw [hp] at h
  cases h
  intro k hk
  simp only [List.mem_append, List.mem_singleton] at hk
  rcases hk with hk | rfl
  · obtain ⟨⟨k, v⟩, hmem, rfl⟩ := List.mem_map.mp hk
    obtain ⟨⟨r, rfl⟩, -⟩ := Store.mem_scanPrefix.mp hmem
    obtain ⟨-, rfl⟩ := relationKey_eq_ok hp
    exact notPlace_of_kind (show kindGroupCommand ≠ kindPeerGroup by decide) _ _
  · exact notPlace_of_kind (by decide) _ _

theorem mirror_cascade (env : Env) (hk : key.length + 4 < 2 ^ 32)
    (h : ∀ s ks, cascadeKeys s key = .ok ks → ∀ k ∈ ks, NotPlace k) :
    mirrorFrame.Keeps (handleConfirmForward env .cascadeDelete key [] true) := by
  refine mirror_handleConfirmForward env (by decide) fun s t w hw => ?_
  unfold plan at hw
  rw [decodeCommand_encodeCommand (by simpa using hk)] at hw
  dsimp only [planCascadeDelete] at hw
  rcases hks : cascadeKeys s key with e | ks
  · simp [hks] at hw
  · simp only [hks] at hw
    obtain ⟨k, hmem, rfl⟩ := List.mem_map.mp hw
    exact h s ks hks k hmem

theorem length_relationKey {kind : UInt8} {groupID : Data}
    (h : relationKey kind id groupID.1 = .ok key) : key.length < 256 ^ 4 := by
  obtain ⟨hlen, rfl⟩ := relationKey_eq_ok h
  have := groupID.2
  simp only [systemKey, List.length_cons, List.length_append, length_beBytes]
  omega

theorem length_encodeCommandPayloadWithSpec {name peerID : Data} {spec payload : Bytes}
    (hspec : spec.length < 2 ^ 29)
    (h : encodeCommandPayloadWithSpec name.1 peerID.1 spec = .ok payload) :
    payload.length < 256 ^ 4 := by
  have hn := name.2
  have hp := peerID.2
  unfold encodeCommandPayloadWithSpec encodeCommandPayload at h
  rcases hlen : checkCommandNameLen name.1 with e | ⟨⟩ <;> rw [hlen] at h <;>
    split_ifs at h <;> cases h
  all_goals
    simp only [List.length_append, length_beBytes]
    omega

theorem mirror_dispatch (env : Env) (caller : CallerIdentity) (id : UInt16) {m : Event}
    (hm : isCatalogOp m = true) : mirrorFrame.Keeps (dispatch env caller id m) := by
  have voterOp {f : M Unit} (hf : mirrorFrame.Keeps f) (e : Event) :
      mirrorFrame.Keeps (do requireVoter caller; f; return e) := by
    have hvoter : mirrorFrame.Keeps (requireVoter caller) := fun n _ => by
      rw [final_requireVoter]
      exact ⟨rfl, fun _ => rfl⟩
    exact hvoter.bind fun _ => hf.bind fun _ => keeps_pure _
  have hkey (kind : UInt8) (d : Data) :
      (systemKey kind catalogStatusPlaceholder d.1).length < 256 ^ 4 := by
    have := d.2
    simp only [systemKey, List.length_cons]
    omega
  cases m with
  | groupPut gid name isPublic =>
    refine voterOp (keeps_ite (fun _ => keeps_throw _) fun _ =>
      mirror_single env rfl (hkey _ gid) ?_
      (notPlace_of_kind (by decide) _ _)) _
    have := name.2
    simp only [encodeGroupPayload, List.length_cons]
    omega
  | groupDelete gid =>
    refine voterOp (keeps_ite (fun _ => keeps_throw _) fun hid => mirror_cascade env ?_ ?_) _
    · have := gid.2
      simp only [groupKey, systemKey, List.length_cons]
      omega
    · rw [not_or, Bool.not_eq_true] at hid
      exact fun s ks => notPlace_of_cascadeGroup hid.1
  | commandPut cid name peerID spec =>
    refine voterOp (keeps_ofExcept_bind fun value hvalue => ?_) _
    refine mirror_single env rfl (hkey _ cid) ?_ (notPlace_of_kind (by decide) _ _)
    rcases spec with _ | ⟨_ | ⟨b, spec⟩, hspec⟩
    · exact length_encodeCommandPayloadWithSpec (show ([] : Bytes).length < 2 ^ 29 by decide) hvalue
    · have hvalue : encodeCommandPayloadClearingSpec name.1 peerID.1 = .ok value := hvalue
      rcases hpayload : encodeCommandPayloadWithSpec name.1 peerID.1 [0] with e | payload <;>
        rw [encodeCommandPayloadClearingSpec, hpayload] at hvalue <;> cases hvalue
      have hlen := length_encodeCommandPayloadWithSpec (by decide) hpayload
      rw [List.length_dropLast]
      omega
    · exact length_encodeCommandPayloadWithSpec hspec hvalue
  | commandDelete cid =>
    refine voterOp (mirror_cascade env ?_ fun s ks => notPlace_of_cascadeCommand) _
    have := cid.2
    simp only [commandKey, systemKey, List.length_cons]
    omega
  | stationPut peerID name attrs =>
    refine voterOp (keeps_ite (fun _ => keeps_throw _) fun _ =>
      keeps_ofExcept_bind fun value hvalue =>
      mirror_single env rfl (hkey _ peerID) ?_ (notPlace_of_kind (by decide) _ _)) _
    have := name.2
    have := attrs.2
    unfold encodeStationPayload at hvalue
    split_ifs at hvalue
    cases hvalue
    simp only [List.length_append, length_beBytes]
    omega
  | stationDelete peerID =>
    exact voterOp
      (mirror_single env rfl (hkey _ peerID) (by simp) (notPlace_of_kind (by decide) _ _)) _
  | groupCommandPut commandID groupID =>
    refine voterOp (keeps_ofExcept_bind fun key hk => ?_) _
    rw [groupCommandKey] at hk
    refine mirror_single env rfl (length_relationKey hk) (by simp) ?_
    rw [(relationKey_eq_ok hk).2]
    exact notPlace_of_kind (by decide) _ _
  | groupCommandDelete commandID groupID =>
    refine voterOp (keeps_ofExcept_bind fun key hk => ?_) _
    rw [groupCommandKey] at hk
    refine mirror_single env rfl (length_relationKey hk) (by simp) ?_
    rw [(relationKey_eq_ok hk).2]
    exact notPlace_of_kind (by decide) _ _
  | peerGroupPut peerID groupID =>
    refine voterOp (keeps_ite (fun _ => keeps_throw _) fun hg =>
      keeps_ofExcept_bind fun key hk => ?_) _
    exact mirror_single env rfl (length_relationKey hk) (by simp)
      (notPlace_of_group (Bool.not_eq_true _ ▸ hg) hk)
  | peerGroupDelete peerID groupID =>
    refine voterOp (keeps_ite (fun _ => keeps_throw _) fun hg =>
      keeps_ofExcept_bind fun key hk => ?_) _
    exact mirror_single env rfl (length_relationKey hk) (by simp)
      (notPlace_of_group (Bool.not_eq_true _ ▸ hg) hk)
  | _ => cases hm

theorem mirror_handleShmEvent (env : Env) (caller : CallerIdentity) {r : Request}
    (hr : isCatalogOp r.msg.body = true) : mirrorFrame.Keeps (handleShmEvent env r caller) := by
  intro n
  rcases final_handleShmEvent env caller r n with h | h <;> rw [h]
  · exact mirrorFrame.refl n
  · exact mirror_dispatch env caller r.msg.id hr n

/-! ## Sequences of operations -/

inductive Operation
  | admission (q : Data) (addr : Bytes) (sf : Suffrage)
  | removal (q : Data)
  | catalog (r : Request) (caller : CallerIdentity) (h : isCatalogOp r.msg.body = true)

structure MemberStep where
  env : Env
  calm : Calm env
  op : Operation

def MemberStep.program (e : MemberStep) : M Unit :=
  match e.op with
  | .admission q addr sf => addServerLine e.env q.1 addr sf
  | .removal q => removeServerLine e.env q.1
  | .catalog r caller _ => do
    let _ ← handleShmEvent e.env r caller
    return ()

def MemberStep.serve (e : MemberStep) (n : Node) : Node := e.program.final n

def serveMemberSteps (n : Node) (steps : List MemberStep) : Node :=
  steps.foldl (fun n e => e.serve n) n

/-- The condition on a step: an admission must keep the mirror, the others do so by themselves. -/
def MemberStep.Mirrored (e : MemberStep) (n : Node) : Prop :=
  match e.op with
  | .admission q _ sf => KeepsMirror n q.1 sf
  | _ => True

theorem lockstep_of_mirror {n n' : Node} (hraft : n'.raft = n.raft)
    (hplaces : ∀ q, standing n'.store q = standing n.store q) (hlock : Lockstep n) :
    Lockstep n' := by
  refine ⟨fun srv hmem => ?_, fun q hq => ?_⟩
  · rw [Node.servers, hraft] at hmem
    rw [hplaces]
    exact hlock.servers srv hmem
  · rw [hplaces]
    exact hlock.others q fun h => hq ((hasServer_of_raft hraft q).mpr h)

section Step

variable {n : Node} (hlead : n.isLeader = true) (hdistinct : n.DistinctServers) (e : MemberStep)
include hlead hdistinct

theorem step_distinct (hlock : Lockstep n) : (e.serve n).DistinctServers := by
  obtain ⟨env, hcalm, op⟩ := e
  cases op with
  | admission q addr sf => exact distinct_addServerLine hcalm q.2 hlead hdistinct addr sf
  | removal q => exact (removal_lockstep hcalm q.2 hlead hdistinct hlock).2
  | catalog r caller h =>
    have hfinal : MemberStep.serve ⟨env, hcalm, .catalog r caller h⟩ n =
        (handleShmEvent env r caller).final n := EStateM.final_bind_of_pure (fun _ _ => rfl) n
    rw [hfinal, Node.DistinctServers, Node.servers, (mirror_handleShmEvent env caller h n hlead).1]
    exact hdistinct

theorem step_lockstep_iff (hlock : Lockstep n) : Lockstep (e.serve n) ↔ e.Mirrored n := by
  obtain ⟨env, hcalm, op⟩ := e
  cases op with
  | admission q addr sf => exact admission_lockstep_iff hcalm q.2 hlead hdistinct hlock addr sf
  | removal q => exact iff_of_true (removal_lockstep hcalm q.2 hlead hdistinct hlock).1 trivial
  | catalog r caller h =>
    have hfinal : MemberStep.serve ⟨env, hcalm, .catalog r caller h⟩ n =
        (handleShmEvent env r caller).final n := EStateM.final_bind_of_pure (fun _ _ => rfl) n
    obtain ⟨hraft, hplaces⟩ := mirror_handleShmEvent env caller h n hlead
    rw [hfinal]
    exact iff_of_true (lockstep_of_mirror hraft hplaces hlock) trivial

end Step

theorem step_reported {e : MemberStep} {n : Node} (h : ¬e.Mirrored n) :
    e.program.outcome n = .ok () := by
  obtain ⟨env, hcalm, op⟩ := e
  cases op with
  | admission q addr sf =>
    change (addServerLine env q.1 addr sf).outcome n = .ok ()
    rw [addServerLine, EStateM.outcome_bind, outcome_changeConfig, hcalm.config]
    dsimp only
    split_ifs <;> rfl
  | removal q => exact absurd trivial h
  | catalog r caller _ => exact absurd trivial h

theorem serveMemberSteps_take {steps : List MemberStep} {i : Nat} (hi : i < steps.length)
    (n : Node) :
    serveMemberSteps n (steps.take (i + 1)) = steps[i].serve (serveMemberSteps n (steps.take i)) :=
  List.foldl_take_succ _ _ hi

section Run

variable {n : Node} (hdistinct : n.DistinctServers) (hlock : Lockstep n) {steps : List MemberStep}
  (hlead : ∀ i < steps.length, (serveMemberSteps n (steps.take i)).isLeader = true)
include hdistinct hlock hlead

/-- Along every sequence of admissions, removals and catalog operations on a leader, the reserved
groups mirror the configuration after each operation that reported success, exactly if every
admission finds room for its records and takes no voter for a learner. -/
theorem lockstep_iff :
    (∀ i (hi : i < steps.length),
      steps[i].program.outcome (serveMemberSteps n (steps.take i)) = .ok () →
        Lockstep (serveMemberSteps n (steps.take (i + 1)))) ↔
    ∀ i (hi : i < steps.length), steps[i].Mirrored (serveMemberSteps n (steps.take i)) := by
  refine Nat.forall_lt_iff (I := fun i => (serveMemberSteps n (steps.take i)).DistinctServers ∧
    Lockstep (serveMemberSteps n (steps.take i))) ⟨hdistinct, hlock⟩ ?_ ?_
  · rintro i hi ⟨hd, hl⟩
    have hiff := step_lockstep_iff (hlead i hi) hd steps[i] hl
    rw [serveMemberSteps_take hi]
    refine ⟨fun h => ?_, fun h _ => hiff.mpr h⟩
    -- a step that breaks the mirror reports success, so it would have to keep it
    by_contra hno
    exact hno (hiff.mp (h (step_reported hno)))
  · rintro i hi ⟨hd, hl⟩ hmirrored
    rw [serveMemberSteps_take hi]
    exact ⟨step_distinct (hlead i hi) hd _ hl,
      (step_lockstep_iff (hlead i hi) hd _ hl).mpr hmirrored⟩

end Run

theorem lockstep_of_entries {n : Node}
    (hservers : ∀ srv ∈ n.servers, standing n.store srv.id = placesOf (some srv.suffrage))
    (hplaces : ∀ e ∈ n.store.entries, ∀ p ∈ (parsePeerGroupKey e.1).toOption, n.HasServer p.1) :
    Lockstep n := by
  refine ⟨hservers, fun q hq => ?_⟩
  have absent : ∀ g, isInGroup n.store q g = false := by
    intro g
    unfold isInGroup
    rcases hkey : peerGroupKey q g with e | key
    · rfl
    · rcases hget : n.store.get key with _ | v
      · simp [hget]
      · refine absurd (hplaces _ (OrdMap.get_eq_some.mp hget) (q, g) ?_) hq
        simp [parsePeerGroupKey, parseRelationKey_relationKey hkey, Except.toOption]
  rw [standing, absent, absent, absent]
  rfl

/-- The leader `l` with the voters of its cluster, whose places it has recorded. -/
def recordedNode (voters : List Bytes) (store : Store) : Node :=
  { Node.alone (ascii "l") (voters.foldl (fun s q =>
      (s.set (memberKey q reservedGroupCluster) []).set (memberKey q reservedGroupVoter) [])
        store) with
    raft := some ⟨voters.map fun q => ⟨.voter, q, ascii "/ip4/1.2.3.4"⟩, .leader, true, [], nofun⟩ }

theorem calm_default : Calm {} := ⟨fun _ => rfl, fun _ => rfl⟩

theorem length_newcomer_lt : (ascii "q").length < 2 ^ 29 := by decide

def admissionStep (sf : Suffrage) : MemberStep :=
  ⟨{}, calm_default, .admission ⟨ascii "q", length_newcomer_lt⟩ (ascii "/ip4/1.2.3.5") sf⟩

theorem lockstep_learner_admitted :
    Lockstep
      (serveMemberSteps (recordedNode [ascii "l"] OrdMap.empty) [admissionStep .nonvoter]) := by
  have hdistinct : (recordedNode [ascii "l"] OrdMap.empty).DistinctServers := by
    unfold Node.DistinctServers
    decide
  have hlock : Lockstep (recordedNode [ascii "l"] OrdMap.empty) :=
    lockstep_of_entries (by decide) (by decide)
  have hlead : ∀ i < [admissionStep .nonvoter].length, (serveMemberSteps (recordedNode [ascii "l"]
      OrdMap.empty) ([admissionStep .nonvoter].take i)).isLeader = true := by
    intro i hi
    obtain rfl : i = 0 := by simpa using hi
    decide
  refine (lockstep_iff hdistinct hlock hlead).mpr (fun i hi => ?_) 0 (by decide) (by decide)
  obtain rfl : i = 0 := by simpa using hi
  exact ⟨by decide, by decide, by decide, by decide, by decide⟩

/-- Both ways out. A voter that is added as a learner keeps its vote and gets a learner's place. A
new voter for whose id a group is already named gets no place at all. Both
admissions report success. -/
theorem lockstep_lost :
    (Lockstep (recordedNode [ascii "l", ascii "q"] OrdMap.empty) ∧
      (admissionStep .nonvoter).program.outcome (recordedNode [ascii "l", ascii "q"] OrdMap.empty) =
        .ok () ∧
      ¬Lockstep
        ((admissionStep .nonvoter).serve (recordedNode [ascii "l", ascii "q"] OrdMap.empty))) ∧
    (Lockstep (recordedNode [ascii "l"] (OrdMap.empty.insert (groupKey (ascii "g"))
        (encodeGroupPayload (ascii "q") false))) ∧
      (admissionStep .voter).program.outcome (recordedNode [ascii "l"] (OrdMap.empty.insert
        (groupKey (ascii "g")) (encodeGroupPayload (ascii "q") false))) = .ok () ∧
      ¬Lockstep ((admissionStep .voter).serve (recordedNode [ascii "l"] (OrdMap.empty.insert
        (groupKey (ascii "g")) (encodeGroupPayload (ascii "q") false))))) := by
  refine ⟨⟨lockstep_of_entries (by decide) (by decide), by decide, fun h => ?_⟩,
    lockstep_of_entries (by decide) (by decide), by decide, fun h => ?_⟩
  · exact absurd h.servers (by decide)
  · exact absurd h.servers (by decide)

end KvRaft.Daemon
