import KvRaft.Kvfsm.Requests

/-! # How a peer gets into a group

A `PeerGroup` record is a privilege: of a peer to act as a member of the cluster, or to run the
commands of the group. The entries that can create one are those that name its key, and the requests
for the default public command, whose author gets the two groups of its own. -/

namespace KvRaft.Kvfsm

open Bytes Shmevent

/-- The entry may make `q` a member of `g`, whose record lies under `key`. -/
inductive Grants (s : Store) (l : Log) (q g key : Bytes) : Prop
  | set {value : Bytes} (h : decodeCommand l.data = .ok ⟨.set, key, value⟩)
  | confirm {pending : Bytes} (h : decodeCommand l.data = .ok ⟨.confirm, pending, key⟩)
  | txn {k payload : Bytes} {ops : List TxnOpSpec} {o : TxnOpSpec}
      (h : decodeCommand l.data = .ok ⟨.txn, k, payload⟩)
      (hops : decodeTxnPayload payload = .ok ops)
      (ho : o ∈ ops) (hop : o.op = txnOpSet) (hkey : o.key = key)
  | request {logKey payload record : Bytes} {k : Logrecord.ParsedKey}
      (h : decodeCommand l.data = .ok ⟨.appendCommandRequest, logKey, payload⟩)
      (haccepted : (apply s l).1.err = none)
      (hauthor : decodeCommandRequestApplyPayload payload = .ok (q, record))
      (hparse : Logrecord.parseKey logKey = .ok k)
      (hcommand : parseCommandRequestLogKind k.kind = some defaultPublicCommandID)
      (hpermitted : isPermittedForCommand s defaultPublicCommandID q = .ok true)
      (hgroup : g = reservedGroupChannel ∨ g = reservedGroupRelay)

section Plans

variable {s : Store} {key value x v : Bytes}

theorem mem_planConfirm (h : .set x v ∈ planConfirm s key value) : x = value := by
  unfold planConfirm at h
  split at h
  · simp only [List.mem_cons, List.not_mem_nil, or_false, reduceCtorEq, Write.set.injEq] at h
    exact h.1
  · cases h

theorem not_mem_planCascadeDelete : .set x v ∉ planCascadeDelete s key := by
  unfold planCascadeDelete
  split <;> simp

theorem not_mem_planConsumeInvite : .set x v ∉ planConsumeInvite s key := by
  unfold planConsumeInvite
  split_ifs <;> simp

theorem not_mem_planConsumeExecInvite {t : Int} :
    .set x v ∉ planConsumeExecInvite s t key value := by
  unfold planConsumeExecInvite
  split
  · simp
  · split
    · simp
    · split_ifs
      · simp
      · split <;> simp

theorem mem_planTxn (h : .set x v ∈ planTxn s value) :
    ∃ ops o, decodeTxnPayload value = .ok ops ∧ o ∈ ops ∧ o.op = txnOpSet ∧ o.key = x := by
  unfold planTxn at h
  split at h
  · cases h
  · rename_i ops hops
    split at h
    · obtain ⟨o, ho, hw⟩ := List.mem_flatMap.mp h
      unfold planTxnOp at hw
      split_ifs at hw with hc hset
      · cases hw
      · cases List.mem_singleton.mp hw
        exact ⟨ops, o, hops, ho, hset, rfl⟩
      · cases List.mem_singleton.mp hw
    · cases h

theorem mem_planGrant {author : Bytes} {ws : List (Write Bytes Bytes)}
    (h : planGrant author = .ok ws)
    {w : Write Bytes Bytes} (hw : w ∈ ws) : allPeerGroupsPrefix <+: w.key := by
  unfold planGrant at h
  rcases hc : peerGroupKey author reservedGroupChannel with e | channel
  · rw [hc] at h
    cases h
  rcases hr : peerGroupKey author reservedGroupRelay with e | relay
  · rw [hc, hr] at h
    cases h
  rw [hc, hr] at h
  cases h
  rcases List.mem_cons.mp hw with rfl | hw
  · exact relationKey_mem_list hc
  · cases List.mem_singleton.mp hw
    exact relationKey_mem_list hr

theorem mem_planAppendCommandRequest {w : Write Bytes Bytes}
    (h : w ∈ planAppendCommandRequest s key value) :
    (w.key = key ∧ ∃ k, Logrecord.parseKey key = .ok k) ∨ allPeerGroupsPrefix <+: w.key := by
  unfold planAppendCommandRequest at h
  split at h
  · rename_i author record k hdec hk
    split at h
    · cases h
    · split at h
      · split_ifs at h
        · split at h
          · rename_i ws hws
            rcases List.mem_cons.mp h with rfl | h
            · exact .inl ⟨rfl, k, hk⟩
            · exact .inr (mem_planGrant hws h)
          · cases h
        · cases List.mem_singleton.mp h
          exact .inl ⟨rfl, k, hk⟩
      · cases h
  · cases h

end Plans

theorem get_apply_request {s : Store} {l : Log} {key payload x : Bytes}
    (h : decodeCommand l.data = .ok ⟨.appendCommandRequest, key, payload⟩) (hx : x ≠ key)
    (hgrant : ∀ author record, decodeCommandRequestApplyPayload payload = .ok (author, record) →
      ∀ g ∈ [reservedGroupChannel, reservedGroupRelay], peerGroupKey author g ≠ .ok x) :
    (apply s l).2.get x = s.get x := by
  simp only [apply, h]
  rcases applyAppendCommandRequest_inv s key payload with
    ⟨-, hs⟩ | ⟨-, author, record, commandID, hdec, happ⟩
  · rw [hs]
  · rw [happ.get_of_not_grant fun _ => hgrant author record hdec, if_neg hx]

theorem peerGroupKey_ne_logKey {q g key : Bytes} {k : Logrecord.ParsedKey}
    (hkey : peerGroupKey q g = .ok key) : Logrecord.parseKey key ≠ .ok k := by
  intro hparse
  obtain ⟨-, -, rest, -, rfl⟩ := Logrecord.parseKey_ok hparse
  have hhead := congrArg List.head? (relationKey_eq_ok hkey).2
  exact absurd hhead (by simp [Logrecord.kindUnitPrefix, systemKey, Logrecord.logKeyPrefix,
    systemKeyPrefix])

theorem grants_of_request {s : Store} {l : Log} {q g key logKey payload : Bytes}
    (hkey : peerGroupKey q g = .ok key) (habsent : s.get key = none)
    (hpresent : (apply s l).2.get key ≠ none)
    (h : decodeCommand l.data = .ok ⟨.appendCommandRequest, logKey, payload⟩) :
    Grants s l q g key := by
  have happly : apply s l = applyAppendCommandRequest s logKey payload := by simp only [apply, h]
  rw [happly] at hpresent
  rcases applyAppendCommandRequest_inv s logKey payload with
    ⟨-, hs⟩ | ⟨hok, author, record, commandID, hdec, happ⟩
  · rw [hs] at hpresent
    exact absurd habsent hpresent
  obtain ⟨k, hparse, hkind⟩ := happ.parsed
  have hne : key ≠ logKey := by
    rintro rfl
    exact peerGroupKey_ne_logKey hkey hparse
  -- outside the two grants nothing was written here
  have hgrant : commandID = defaultPublicCommandID ∧
      ∃ g' ∈ [reservedGroupChannel, reservedGroupRelay], peerGroupKey author g' = .ok key := by
    by_contra hno
    refine hpresent ?_
    rw [happ.get_of_not_grant fun hc g' hg' hk => hno ⟨hc, g', hg', hk⟩, if_neg hne]
    exact habsent
  obtain ⟨rfl, g', hg', hk⟩ := hgrant
  obtain ⟨rfl, rfl⟩ := relationKey_inj hk hkey
  exact .request h (happly ▸ hok) hdec hparse hkind happ.permitted (by simpa using hg')

/-- **Who gets into a group.** An entry that makes `q` a member of `g` names the record's key, as a
`Set`, as what a confirmation promotes onto or in a transaction; or it is an accepted request of `q`
for the default public command, and `g` is one of the two groups that come with it. A command
request leaves everything else alone. -/
theorem peerGroup_granted :
    (∀ (s : Store) (l : Log) (q g key : Bytes), peerGroupKey q g = .ok key → s.get key = none →
      (apply s l).2.get key ≠ none → Grants s l q g key) ∧
    (∀ (s : Store) (l : Log) (key payload x : Bytes),
      decodeCommand l.data = .ok ⟨.appendCommandRequest, key, payload⟩ → x ≠ key →
      (∀ author record, decodeCommandRequestApplyPayload payload = .ok (author, record) →
        ∀ g ∈ [reservedGroupChannel, reservedGroupRelay], peerGroupKey author g ≠ .ok x) →
      (apply s l).2.get x = s.get x) := by
  refine ⟨fun s l q g key hkey habsent hpresent => ?_, fun s l key payload x => get_apply_request⟩
  obtain ⟨v, hv⟩ := Option.ne_none_iff_exists'.mp hpresent
  have hmem : .set key v ∈ plan s l := by
    rw [apply_store] at hv
    exact Write.set_mem_of_get_perform habsent hv
  unfold plan at hmem
  rcases hdec : decodeCommand l.data with e | ⟨op, k, value⟩
  · simp [hdec] at hmem
  simp only [hdec] at hmem
  cases op with
  | set =>
    obtain ⟨rfl, -⟩ := mem_planSet hmem
    exact .set hdec
  | del => simp at hmem
  | confirm =>
    cases mem_planConfirm hmem
    exact .confirm hdec
  | cascadeDelete => exact absurd hmem not_mem_planCascadeDelete
  | consumeInvite => exact absurd hmem not_mem_planConsumeInvite
  | consumeExecInvite => exact absurd hmem not_mem_planConsumeExecInvite
  | appendCommandRequest => exact grants_of_request hkey habsent hpresent hdec
  | txn =>
    obtain ⟨ops, o, hops, ho, hop, rfl⟩ := mem_planTxn hmem
    exact .txn hdec hops ho hop rfl
  | unknown b h => simp at hmem

def clusterRecord : Bytes :=
  systemKey kindPeerGroup catalogStatusPlaceholder ([0, 1] ++ (ascii "p" ++ reservedGroupCluster))

theorem peerGroup_granted_set :
    Grants OrdMap.empty ⟨encodeCommand .set clusterRecord [], 0⟩ (ascii "p") reservedGroupCluster
      clusterRecord :=
  peerGroup_granted.1 _ _ _ _ _ (by decide) rfl (by decide)

end KvRaft.Kvfsm
