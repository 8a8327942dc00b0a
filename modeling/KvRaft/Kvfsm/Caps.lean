import KvRaft.Kvfsm.Grants
import KvRaft.Kvfsm.Permission
import KvRaft.Lib.Reach

/-! # The caps of the system lists

The keys of one kind and status form a list, and `checkSystemListCap` refuses a new key where the
list is full. A `Set` and a confirmation ask it. A request for the default public command does not
ask it for the two memberships it gives its author, so the list of memberships can pass its cap, by
one or two records at each such request. -/

namespace KvRaft.Kvfsm

open Bytes Shmevent

/-- No system list is longer than its cap. -/
def WithinCaps (s : Store) : Prop :=
  ∀ kind status, s.countPrefix (systemKey kind status []) ≤ systemListLimit kind

/-- The entry is no transaction that sets a system key. -/
def NoSystemTxn (l : Log) : Prop :=
  ∀ key value ops, decodeCommand l.data = .ok ⟨.txn, key, value⟩ →
    decodeTxnPayload value = .ok ops →
    ∀ o ∈ ops, o.op = txnOpSet → o.key.head? ≠ some systemKeyPrefix

/-- How many of the two memberships that come with a request for the default public
command are new. -/
def freshGrants (s : Store) (author : Bytes) : Nat :=
  [reservedGroupChannel, reservedGroupRelay].countP fun g =>
    match peerGroupKey author g with
    | .ok key => (s.get key).isNone
    | .error _ => false

/-- If the entry is a permitted request for the default public command, the list of memberships has
room for those that come with it. -/
def GrantFits (s : Store) (l : Log) : Prop :=
  ∀ key payload author record k, decodeCommand l.data = .ok ⟨.appendCommandRequest, key, payload⟩ →
    decodeCommandRequestApplyPayload payload = .ok (author, record) →
      Logrecord.parseKey key = .ok k →
    parseCommandRequestLogKind k.kind = some defaultPublicCommandID →
    isPermittedForCommand s defaultPublicCommandID author = .ok true →
    s.countPrefix allPeerGroupsPrefix + freshGrants s author ≤ maxSystemListEntries

section Writes

variable {s : Store} {key value : Bytes}

theorem withinCaps_empty : WithinCaps OrdMap.empty := fun _ _ => Nat.zero_le _

theorem checkSystemListCap_iff {kind status : UInt8} {id : Bytes} :
    checkSystemListCap s (systemKey kind status id) = .ok () ↔
      s.get (systemKey kind status id) ≠ none ∨
        s.countPrefix (systemKey kind status []) < systemListLimit kind := by
  simp only [checkSystemListCap, systemKind, systemKey, if_true, systemKeyPrefixLen,
    List.take_succ_cons, List.take_zero, ← Option.isSome_iff_ne_none]
  by_cases hget : (s.get (systemKeyPrefix :: kind :: status :: id)).isSome = true
  · simp [hget]
  · by_cases hfull : systemListLimit kind ≤ s.countPrefix [systemKeyPrefix, kind, status]
    · simp [hget, hfull]
    · simp [hfull, not_le.mp hfull]

theorem withinCaps_set (h : WithinCaps s) (hcap : checkSystemListCap s key = .ok ()) :
    WithinCaps (s.set key value) := by
  intro kind status
  rw [Store.countPrefix_set]
  split_ifs with hnew
  · obtain ⟨⟨id, rfl⟩, habsent⟩ := hnew
    rcases checkSystemListCap_iff.mp hcap with hget | hroom
    · exact absurd habsent hget
    · exact hroom
  · exact h kind status

theorem withinCaps_delete (h : WithinCaps s) : WithinCaps (s.delete key) := fun kind status =>
  (Store.countPrefix_delete s _ key).trans (h kind status)

theorem withinCaps_perform {ws : List (Write Bytes Bytes)} (h : WithinCaps s)
    (hws : ∀ k v, .set k v ∈ ws → k.head? ≠ some systemKeyPrefix) :
    WithinCaps (Write.perform s ws) := by
  intro kind status
  refine (Write.length_scan_perform s fun k v hm => ?_).trans (h kind status)
  rw [Bool.eq_false_iff, Ne, Store.hasPrefix_iff]
  rintro ⟨id, rfl⟩
  exact hws _ v hm rfl

end Writes

/-! ## One entry -/

section Request

variable {s : Store} {author key record : Bytes} {k : Logrecord.ParsedKey}

theorem get_set_logKey (hk : Logrecord.parseKey key = .ok k) (kind status : UInt8) (id : Bytes) :
    (s.set key record).get (systemKey kind status id) = s.get (systemKey kind status id) := by
  obtain ⟨-, -, rest, -, rfl⟩ := Logrecord.parseKey_ok hk
  rw [Store.set, OrdMap.get_insert, if_neg]
  exact fun h => absurd (List.cons.inj h).1 (by decide)

theorem countPrefix_set_logKey (hk : Logrecord.parseKey key = .ok k) (kind status : UInt8) :
    (s.set key record).countPrefix (systemKey kind status []) =
      s.countPrefix (systemKey kind status []) := by
  obtain ⟨-, -, rest, -, rfl⟩ := Logrecord.parseKey_ok hk
  rw [Store.countPrefix_set, if_neg, Nat.add_zero]
  rintro ⟨⟨r, hr⟩, -⟩
  exact absurd (List.cons.inj hr).1 (by decide)

theorem freshGrants_of_le (hauthor : author.length ≤ 0xFFFF) (s : Store) :
    freshGrants s author =
      (if s.get (systemKey kindPeerGroup catalogStatusPlaceholder
        (beBytes 2 author.length ++ (author ++ reservedGroupChannel))) = none then 1 else 0) +
      (if s.get (systemKey kindPeerGroup catalogStatusPlaceholder
        (beBytes 2 author.length ++ (author ++ reservedGroupRelay))) = none then 1 else 0) := by
  simp only [freshGrants, peerGroupKey, relationKey_of_le hauthor, List.countP_cons,
    List.countP_nil, Option.isNone_iff_eq_none]
  omega

variable {s' : Store}

theorem countPrefix_grant (h : grantChannelRelayAccess s author = .ok s')
    (kind status : UInt8) :
    s'.countPrefix (systemKey kind status []) = s.countPrefix (systemKey kind status []) +
      if kind = kindPeerGroup ∧ status = catalogStatusPlaceholder then freshGrants s author
      else 0 := by
  obtain ⟨channel, relay, hc, hr, rfl⟩ := grantChannelRelayAccess_ok h
  obtain ⟨hauthor, rfl⟩ := relationKey_eq_ok hc
  obtain ⟨-, rfl⟩ := relationKey_eq_ok hr
  rw [Store.countPrefix_set, Store.countPrefix_set, freshGrants_of_le hauthor]
  have hlist (id : Bytes) : systemKey kind status [] <+:
      systemKey kindPeerGroup catalogStatusPlaceholder id ↔
        kind = kindPeerGroup ∧ status = catalogStatusPlaceholder := by
    simp [systemKey]
  have hne : systemKey kindPeerGroup catalogStatusPlaceholder
      (beBytes 2 author.length ++ (author ++ reservedGroupRelay)) ≠
        systemKey kindPeerGroup catalogStatusPlaceholder
          (beBytes 2 author.length ++ (author ++ reservedGroupChannel)) := by
    simp only [ne_eq, systemKey_inj, List.append_cancel_left_eq, true_and]
    decide
  have hget := OrdMap.get_insert s (systemKey kindPeerGroup catalogStatusPlaceholder
    (beBytes 2 author.length ++ (author ++ reservedGroupChannel))) (systemKey kindPeerGroup
      catalogStatusPlaceholder (beBytes 2 author.length ++ (author ++ reservedGroupRelay))) []
  rw [if_neg hne] at hget
  simp only [hlist, Store.set, hget]
  by_cases hk : kind = kindPeerGroup ∧ status = catalogStatusPlaceholder
  · simp only [hk, and_self, true_and, if_true, Nat.add_assoc]
  · simp only [hk, false_and, if_false]

theorem freshGrants_logKey (hk : Logrecord.parseKey key = .ok k) :
    freshGrants (s.set key record) author = freshGrants s author := by
  unfold freshGrants
  refine List.countP_congr fun g _ => ?_
  rcases hg : peerGroupKey author g with e | x
  · rfl
  · obtain ⟨-, rfl⟩ := relationKey_eq_ok hg
    simp only [get_set_logKey hk]

theorem Appended.countPrefix
    (happ : Appended author defaultPublicCommandID s key record s') (kind status : UInt8) :
    s'.countPrefix (systemKey kind status []) = s.countPrefix (systemKey kind status []) +
      if kind = kindPeerGroup ∧ status = catalogStatusPlaceholder then freshGrants s author
      else 0 := by
  obtain ⟨k, hk, -⟩ := happ.parsed
  have hgrant := happ.written
  rw [if_pos rfl] at hgrant
  rw [countPrefix_grant hgrant, countPrefix_set_logKey hk, freshGrants_logKey hk]

theorem withinCaps_request_iff (h : WithinCaps s)
    (happ : Appended author defaultPublicCommandID s key record s') :
    WithinCaps s' ↔
      s.countPrefix allPeerGroupsPrefix + freshGrants s author ≤ maxSystemListEntries := by
  constructor
  · intro h'
    have hlimit := h' kindPeerGroup catalogStatusPlaceholder
    rw [happ.countPrefix, if_pos ⟨rfl, rfl⟩] at hlimit
    exact hlimit
  · intro hfits kind status
    rw [happ.countPrefix]
    split_ifs with hlist
    · obtain ⟨rfl, rfl⟩ := hlist
      exact hfits
    · exact h kind status

end Request

theorem freshGrants_of_error {author : Bytes} (h : ¬author.length ≤ 0xFFFF) (s : Store) :
    freshGrants s author = 0 := by
  simp [freshGrants, peerGroupKey, relationKey, not_le.mp h]

variable {l : Log} {payload : Bytes} {n : Nat}

theorem withinCaps_apply {s : Store} (h : WithinCaps s) (htxn : NoSystemTxn l)
    (hop : ∀ key value, decodeCommand l.data ≠ .ok ⟨.appendCommandRequest, key, value⟩) :
    WithinCaps (apply s l).2 := by
  rw [apply_store]
  unfold plan
  rcases hdec : decodeCommand l.data with e | ⟨op, key, value⟩
  · exact h
  cases op with
  | set =>
    simp only [planSet]
    split
    · exact withinCaps_set h ‹_›
    · exact h
  | del => exact withinCaps_delete h
  | confirm =>
    simp only [planConfirm]
    split
    · exact withinCaps_delete (withinCaps_set h ‹_›)
    · exact h
  | cascadeDelete => exact withinCaps_perform h fun k v hm => absurd hm not_mem_planCascadeDelete
  | consumeInvite => exact withinCaps_perform h fun k v hm => absurd hm not_mem_planConsumeInvite
  | consumeExecInvite =>
    exact withinCaps_perform h fun k v hm => absurd hm not_mem_planConsumeExecInvite
  | appendCommandRequest => exact absurd hdec (hop key value)
  | txn =>
    refine withinCaps_perform h fun k v hm => ?_
    obtain ⟨ops, o, hops, ho, hset, rfl⟩ := mem_planTxn hm
    exact htxn key value ops hdec hops o ho hset
  | unknown b hb => exact h

theorem accepted_of_permitted {s : Store} {key author record : Bytes} {k : Logrecord.ParsedKey}
    (hdec : decodeCommandRequestApplyPayload payload = .ok (author, record))
    (hk : Logrecord.parseKey key = .ok k)
    (hkind : parseCommandRequestLogKind k.kind = some defaultPublicCommandID)
    (hperm : isPermittedForCommand s defaultPublicCommandID author = .ok true)
    (hauthor : author.length ≤ 0xFFFF) :
    (applyAppendCommandRequest s key payload).1.err = none := by
  have hgrant (tx : Store) : ∃ s', grantChannelRelayAccess tx author = .ok s' := by
    simp only [grantChannelRelayAccess, peerGroupKey, relationKey_of_le hauthor]
    exact ⟨_, rfl⟩
  obtain ⟨s', hs'⟩ := hgrant (s.set key record)
  simp only [applyAppendCommandRequest, hdec, hk, hkind, hperm,
    checkSystemListCap_logKey hk, committed, Store.withTx, if_true, hs', Except.mapError]

/-- What a permitted request for the default public command needs, where the store is
within its caps. -/
theorem withinCaps_permitted_iff {s : Store} {key author record : Bytes} {k : Logrecord.ParsedKey}
    (h : WithinCaps s) (hdec : decodeCommandRequestApplyPayload payload = .ok (author, record))
    (hk : Logrecord.parseKey key = .ok k)
    (hkind : parseCommandRequestLogKind k.kind = some defaultPublicCommandID)
    (hperm : isPermittedForCommand s defaultPublicCommandID author = .ok true) :
    WithinCaps (applyAppendCommandRequest s key payload).2 ↔
      s.countPrefix allPeerGroupsPrefix + freshGrants s author ≤ maxSystemListEntries := by
  rcases applyAppendCommandRequest_inv s key payload with
    ⟨herr, hs⟩ | ⟨-, author', record', c, hdec', happ⟩
  · -- refused after the permission was found: no key can hold the author
    have hauthor : ¬author.length ≤ 0xFFFF := fun hle =>
      herr (accepted_of_permitted hdec hk hkind hperm hle)
    rw [hs, freshGrants_of_error hauthor]
    exact iff_of_true h (h kindPeerGroup catalogStatusPlaceholder)
  · cases hdec.symm.trans hdec'
    obtain ⟨k', hk', hkind'⟩ := happ.parsed
    cases hk.symm.trans hk'
    cases hkind.symm.trans hkind'
    exact withinCaps_request_iff h happ

theorem withinCaps_other_request {s : Store} {key : Bytes} (h : WithinCaps s)
    (hother : ∀ author record k, decodeCommandRequestApplyPayload payload = .ok (author, record) →
      Logrecord.parseKey key = .ok k →
        parseCommandRequestLogKind k.kind = some defaultPublicCommandID →
      isPermittedForCommand s defaultPublicCommandID author ≠ .ok true) :
    WithinCaps (applyAppendCommandRequest s key payload).2 := by
  rcases applyAppendCommandRequest_inv s key payload with
    ⟨-, hs⟩ | ⟨-, author, record, c, hdec, happ⟩
  · rw [hs]
    exact h
  · obtain ⟨k, hk, hkind⟩ := happ.parsed
    have hc : c ≠ defaultPublicCommandID := by
      rintro rfl
      exact hother author record k hdec hk hkind happ.permitted
    have hset := happ.written
    rw [if_neg hc] at hset
    rw [hset]
    exact withinCaps_set h (checkSystemListCap_logKey hk s)

/-- **One entry.** From a store within its caps, an entry keeps them exactly if the memberships that
come with it still fit. -/
theorem withinCaps_apply_iff {s : Store} (h : WithinCaps s) (htxn : NoSystemTxn l) :
    WithinCaps (apply s l).2 ↔ GrantFits s l := by
  by_cases hop : ∃ key payload, decodeCommand l.data = .ok ⟨.appendCommandRequest, key, payload⟩
  · obtain ⟨key, payload, hcmd⟩ := hop
    have happly : apply s l = applyAppendCommandRequest s key payload := by simp only [apply, hcmd]
    rw [happly]
    constructor
    · intro h' key' payload' author record k hcmd' hdec hk hkind hperm
      cases hcmd.symm.trans hcmd'
      exact (withinCaps_permitted_iff h hdec hk hkind hperm).mp h'
    · intro hfits
      by_cases hperm :
        ∃ author record k, decodeCommandRequestApplyPayload payload = .ok (author, record) ∧
          Logrecord.parseKey key = .ok k ∧
          parseCommandRequestLogKind k.kind = some defaultPublicCommandID ∧
          isPermittedForCommand s defaultPublicCommandID author = .ok true
      · obtain ⟨author, record, k, hdec, hk, hkind, hperm⟩ := hperm
        exact (withinCaps_permitted_iff h hdec hk hkind hperm).mpr
          (hfits key payload author record k hcmd hdec hk hkind hperm)
      · exact withinCaps_other_request h fun author record k hdec hk hkind hp =>
          hperm ⟨author, record, k, hdec, hk, hkind, hp⟩
  · refine iff_of_true (withinCaps_apply h htxn fun key value hd => hop ⟨key, value, hd⟩) ?_
    intro key payload author record k hdec
    exact absurd ⟨key, payload, hdec⟩ hop

/-! ## A list that passes its cap -/

def crowdKey (i : Nat) : Bytes :=
  systemKey kindPeerGroup catalogStatusPlaceholder (beBytes 2 4 ++ beBytes 4 i)

def publicLink : Bytes :=
  systemKey kindGroupCommand catalogStatusPlaceholder
    (beBytes 2 13 ++ (defaultPublicCommandID ++ ascii "g"))

def openLog : List Log :=
  [⟨encodeCommand .set (groupKey (ascii "g")) (encodeGroupPayload (ascii "g") true), 0⟩,
    ⟨encodeCommand .set publicLink [], 0⟩]

def crowdEntry (i : Nat) : Log := ⟨encodeCommand .set (crowdKey i) [], 0⟩

def strangerRequest : Log :=
  ⟨encodeCommand .appendCommandRequest
    (Logrecord.kindUnitPrefix (commandRequestLogKind defaultPublicCommandID) [] ++ beBytes 8 0)
    (beBytes 2 1 ++ ascii "p"), 0⟩

/-- The list of memberships is filled to its cap, then the stranger asks. -/
def crowdedLog : List Log :=
  openLog ++ (List.range maxSystemListEntries).map crowdEntry ++ [strangerRequest]

structure Crowd (n : Nat) (s : Store) : Prop where
  group : s.get (groupKey (ascii "g")) = some (encodeGroupPayload (ascii "g") true)
  link : s.get publicLink = some []
  count : s.countPrefix allPeerGroupsPrefix = n
  members : ∀ key, allPeerGroupsPrefix <+: key → s.get key ≠ none → ∃ i < n, key = crowdKey i

theorem crowdKey_inj {i j : Nat} (hi : i < 256 ^ 4) (hj : j < 256 ^ 4)
    (h : crowdKey i = crowdKey j) :
    i = j := by
  have hbytes : beBytes 4 i = beBytes 4 j := by simpa [crowdKey, systemKey_inj] using h
  rw [← beNat_beBytes hi, ← beNat_beBytes hj, hbytes]

theorem crowd_openLog : Crowd 0 (applyAll OrdMap.empty openLog) where
  group := by decide +kernel
  link := by decide +kernel
  count := by decide +kernel
  members key hkey hget := by
    have hstore : applyAll OrdMap.empty openLog = (Store.set OrdMap.empty (groupKey (ascii "g"))
        (encodeGroupPayload (ascii "g") true)).set publicLink [] := by decide +kernel
    refine absurd ?_ hget
    obtain ⟨id, rfl⟩ := hkey
    rw [hstore, Store.set, OrdMap.get_insert, if_neg, Store.set, OrdMap.get_insert, if_neg]
    · rfl
    · exact fun h => absurd (systemKey_inj.mp h).1 (by decide)
    · exact fun h => absurd (systemKey_inj.mp h).1 (by decide)

theorem decode_crowdEntry (i : Nat) :
    decodeCommand (crowdEntry i).data = .ok ⟨.set, crowdKey i, []⟩ :=
  decodeCommand_encodeCommand (by simp [crowdKey, systemKey, length_beBytes])

theorem Crowd.step {s : Store} (h : Crowd n s) (hn : n < maxSystemListEntries) :
    Crowd (n + 1) (apply s (crowdEntry n)).2 := by
  have hcap : checkSystemListCap s (crowdKey n) = .ok () :=
    checkSystemListCap_iff.mpr (.inr (h.count.trans_lt hn))
  have hstore : (apply s (crowdEntry n)).2 = s.set (crowdKey n) [] := by
    simp only [apply, decode_crowdEntry, applySet, hcap]
    rfl
  have habsent : s.get (crowdKey n) = none := by
    by_contra hget
    obtain ⟨i, hi, hkey⟩ := h.members _ ⟨_, rfl⟩ hget
    unfold maxSystemListEntries at hn
    exact hi.ne (crowdKey_inj (by omega) (by omega) hkey.symm)
  have hother {key : Bytes} (hne : key ≠ crowdKey n) :
      (s.set (crowdKey n) []).get key = s.get key := by
    rw [Store.set, OrdMap.get_insert, if_neg hne]
  rw [hstore]
  refine ⟨?_, ?_, ?_, fun key hlist hkey => ?_⟩
  · exact (hother (systemKey_ne_of_kind (by decide) _ _ _ _)).trans h.group
  · exact (hother (systemKey_ne_of_kind (by decide) _ _ _ _)).trans h.link
  · rw [Store.countPrefix_set, if_pos ⟨⟨_, rfl⟩, habsent⟩, h.count]
  · by_cases he : key = crowdKey n
    · exact ⟨n, Nat.lt_succ_self n, he⟩
    · rw [hother he] at hkey
      obtain ⟨i, hi, hi'⟩ := h.members key hlist hkey
      exact ⟨i, by omega, hi'⟩

theorem crowd_range (hn : n ≤ maxSystemListEntries) :
    Crowd n (applyAll OrdMap.empty (openLog ++ (List.range n).map crowdEntry)) := by
  induction n with
  | zero => exact crowd_openLog
  | succ n ih =>
    rw [List.range_succ, List.map_append, ← List.append_assoc, List.map_singleton, applyAll_snoc]
    exact (ih (by omega)).step (by omega)

theorem Crowd.permitted {s : Store} (h : Crowd n s) :
    isPermittedForCommand s defaultPublicCommandID (ascii "p") = .ok true := by
  refine (permitted_iff (by decide) (by decide)).mpr ⟨ascii "g", ?_, .inl ?_⟩
  · exact ⟨publicLink, [], by decide, h.link⟩
  · exact ⟨_, ascii "g", h.group, rfl⟩

theorem Crowd.freshGrants {s : Store} (h : Crowd n s) : freshGrants s (ascii "p") = 2 := by
  have habsent (g : Bytes) : s.get (systemKey kindPeerGroup catalogStatusPlaceholder
      (beBytes 2 (ascii "p").length ++ (ascii "p" ++ g))) = none := by
    by_contra hget
    obtain ⟨i, -, hi⟩ := h.members (systemKey kindPeerGroup catalogStatusPlaceholder
      (beBytes 2 (ascii "p").length ++ (ascii "p" ++ g))) ⟨_, rfl⟩ hget
    -- the lengths in front of the identifiers differ
    have hlen := (List.append_inj (systemKey_inj.mp hi).2.2 (by simp only [length_beBytes])).1
    exact absurd hlen (by decide)
  rw [freshGrants_of_le (by decide), habsent, habsent]
  rfl

theorem noSystemTxn_of_op {c : Command} (h : decodeCommand l.data = .ok c) (hop : c.op ≠ .txn) :
    NoSystemTxn l := by
  intro key value ops hdec
  cases h.symm.trans hdec
  exact absurd rfl hop

theorem decode_strangerRequest :
    decodeCommand strangerRequest.data = .ok ⟨.appendCommandRequest,
      Logrecord.kindUnitPrefix (commandRequestLogKind defaultPublicCommandID) [] ++ beBytes 8 0,
      beBytes 2 1 ++ ascii "p"⟩ := by decide

theorem noSystemTxn_crowdedLog : ∀ l ∈ crowdedLog, NoSystemTxn l := by
  intro l hl
  simp only [crowdedLog, openLog, List.mem_append, List.mem_cons, List.not_mem_nil, or_false,
    List.mem_map] at hl
  rcases hl with ((rfl | rfl) | ⟨i, -, rfl⟩) | rfl
  · exact noSystemTxn_of_op (decodeCommand_encodeCommand (by decide)) nofun
  · exact noSystemTxn_of_op (decodeCommand_encodeCommand (by decide)) nofun
  · exact noSystemTxn_of_op (decode_crowdEntry i) nofun
  · exact noSystemTxn_of_op decode_strangerRequest nofun

theorem Crowd.request {s : Store} (h : Crowd n s) :
    (apply s strangerRequest).2.countPrefix (systemKey kindPeerGroup catalogStatusPlaceholder []) =
      n + 2 := by
  have hdec :
      decodeCommandRequestApplyPayload (beBytes 2 1 ++ ascii "p") = .ok (ascii "p", []) := by decide
  have hkey :
      Logrecord.parseKey
        (Logrecord.kindUnitPrefix (commandRequestLogKind defaultPublicCommandID) [] ++
    beBytes 8 0) = .ok ⟨commandRequestLogKind defaultPublicCommandID, [], 0⟩ := by decide
  have hkind : parseCommandRequestLogKind (commandRequestLogKind defaultPublicCommandID) =
    some defaultPublicCommandID := by decide
  simp only [apply, decode_strangerRequest]
  rcases applyAppendCommandRequest_inv s (Logrecord.kindUnitPrefix (commandRequestLogKind
    defaultPublicCommandID) [] ++ beBytes 8 0) (beBytes 2 1 ++ ascii "p") with
    ⟨herr, -⟩ | ⟨-, author, record, c, hdec', happ⟩
  · exact absurd (accepted_of_permitted hdec hkey hkind h.permitted (by decide)) herr
  · cases hdec.symm.trans hdec'
    obtain ⟨k, hk, hc⟩ := happ.parsed
    cases hkey.symm.trans hk
    cases hkind.symm.trans hc
    have hcount : s.countPrefix (systemKey kindPeerGroup catalogStatusPlaceholder []) = n := h.count
    rw [happ.countPrefix, if_pos ⟨rfl, rfl⟩, h.freshGrants, hcount]

theorem grantFits_of_op {c : Command} (h : decodeCommand l.data = .ok c)
    (hop : c.op ≠ .appendCommandRequest) (s : Store) : GrantFits s l := by
  intro key payload author record k hdec
  cases h.symm.trans hdec
  exact absurd rfl hop

theorem Crowd.grantFits {s : Store} (h : Crowd n s) (hn : n + 2 ≤ maxSystemListEntries) :
    GrantFits s strangerRequest := by
  intro key payload author record k hcmd hdec
  cases decode_strangerRequest.symm.trans hcmd
  have hauthor :
      decodeCommandRequestApplyPayload (beBytes 2 1 ++ ascii "p") = .ok (ascii "p", []) := by decide
  cases hauthor.symm.trans hdec
  rw [h.count, h.freshGrants]
  exact fun _ _ _ => hn

theorem systemListLimit_kindPeerGroup : systemListLimit kindPeerGroup = maxSystemListEntries := by
  decide +kernel

/-! ## Logs -/

theorem applyAll_take_succ (s : Store) {log : List Log} {i : Nat} (hi : i < log.length) :
    applyAll s (log.take (i + 1)) = (apply (applyAll s (log.take i)) log[i]).2 :=
  List.foldl_take_succ _ _ hi

/-- **The caps along a log.** From the empty store on, no system list ever exceeds its cap, exactly
if the memberships of every permitted request for the default public command fit when
it is applied. -/
theorem systemLists_capped_iff (log : List Log) (hlog : ∀ l ∈ log, NoSystemTxn l) :
    (∀ i, i < log.length → WithinCaps (applyAll OrdMap.empty (log.take (i + 1)))) ↔
      ∀ i (hi : i < log.length), GrantFits (applyAll OrdMap.empty (log.take i)) log[i] := by
  have hstep (i : Nat) (hi : i < log.length) (h : WithinCaps (applyAll OrdMap.empty (log.take i))) :
      WithinCaps (applyAll OrdMap.empty (log.take (i + 1))) ↔
        GrantFits (applyAll OrdMap.empty (log.take i)) log[i] := by
    rw [applyAll_take_succ _ hi]
    exact withinCaps_apply_iff h (hlog _ (List.getElem_mem hi))
  exact Nat.forall_lt_iff (I := fun i => WithinCaps (applyAll OrdMap.empty (log.take i)))
    withinCaps_empty hstep fun i hi h hfits => (hstep i hi h).mpr hfits

theorem systemLists_capped_open :
    (∀ l ∈ openLog ++ [strangerRequest], NoSystemTxn l) ∧
      ∀ i, i < 3 →
        WithinCaps (applyAll OrdMap.empty ((openLog ++ [strangerRequest]).take (i + 1))) := by
  have hlog : ∀ l ∈ openLog ++ [strangerRequest], NoSystemTxn l := fun l hl =>
    noSystemTxn_crowdedLog l (by
      rcases List.mem_append.mp hl with hl | hl
      · exact List.mem_append_left _ (List.mem_append_left _ hl)
      · exact List.mem_append_right _ hl)
  refine ⟨hlog, (systemLists_capped_iff _ hlog).mpr fun i hi => ?_⟩
  match i, hi with
  | 0, _ => exact grantFits_of_op (decodeCommand_encodeCommand (by decide)) (by decide) _
  | 1, _ => exact grantFits_of_op (decodeCommand_encodeCommand (by decide)) (by decide) _
  | 2, _ => exact crowd_openLog.grantFits (by decide)

/-- A full list of memberships has two records more than its cap after the request. -/
theorem crowded_count :
    (∀ l ∈ crowdedLog, NoSystemTxn l) ∧
      (applyAll OrdMap.empty crowdedLog).countPrefix
        (systemKey kindPeerGroup catalogStatusPlaceholder []) =
        systemListLimit kindPeerGroup + 2 := by
  refine ⟨noSystemTxn_crowdedLog, ?_⟩
  rw [crowdedLog, applyAll_snoc, systemListLimit_kindPeerGroup]
  exact (crowd_range le_rfl).request

end KvRaft.Kvfsm
