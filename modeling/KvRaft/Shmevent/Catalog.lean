import KvRaft.Err

/-! # System keys and catalog records (`pkg/shmevent`: `system.go`, `catalog.go`)

The keys under `SystemKeyPrefix` and the values stored there: groups, commands and the two relations
between them, group to command and peer to group. -/

namespace KvRaft.Shmevent

open Bytes

/-! ## System keys -/

def systemKeyPrefix : UInt8 := 0x00

def kindBootstrapNode : UInt8 := 0x02
def kindClusterMember : UInt8 := 0x03
def kindClusterJoin : UInt8 := 0x05
def kindGroup : UInt8 := 0x06
def kindCommand : UInt8 := 0x07
def kindGroupCommand : UInt8 := 0x08
def kindPeerGroup : UInt8 := 0x09
def kindJoinInvite : UInt8 := 0x0A
def kindExecInvite : UInt8 := 0x0B
def kindStation : UInt8 := 0x0C

def roleVoter : UInt8 := 0x01
def roleLearner : UInt8 := 0x02

def statusPending : UInt8 := 0x01
def statusConfirmed : UInt8 := 0x02

def suffrageVoter : UInt8 := 0x01
def suffrageLearner : UInt8 := 0x02

/-- The status byte of the kinds that have no pending state. -/
def catalogStatusPlaceholder : UInt8 := 0x00

def systemKey (kind status : UInt8) (peerID : Bytes) : Bytes :=
  systemKeyPrefix :: kind :: status :: peerID

def clusterMemberKey (peerID : Bytes) : Bytes :=
  systemKey kindClusterMember catalogStatusPlaceholder peerID
def groupKey (id : Bytes) : Bytes := systemKey kindGroup catalogStatusPlaceholder id
def commandKey (id : Bytes) : Bytes := systemKey kindCommand catalogStatusPlaceholder id
def stationKey (peerID : Bytes) : Bytes := systemKey kindStation catalogStatusPlaceholder peerID
def joinInviteKey (token : Bytes) : Bytes := systemKey kindJoinInvite catalogStatusPlaceholder token
def execInviteKey (token : Bytes) : Bytes := systemKey kindExecInvite catalogStatusPlaceholder token

/-- The range a listing of one kind scans: identifiers of up to 64 bytes. -/
def keyListBounds (kind : UInt8) : Bytes × Bytes :=
  let p := systemKey kind catalogStatusPlaceholder []
  (p, p ++ List.replicate 64 0xFF)

def groupKeyBounds : Bytes × Bytes := keyListBounds kindGroup

/-! ## Relations -/

/-- `GroupCommandKey` and `PeerGroupKey`: the first identifier with its length, then the group's. -/
def relationKey (kind : UInt8) (id groupID : Bytes) : Except Err Bytes :=
  if id.length > 0xFFFF then .error (.relationIDTooLong kind id.length)
  else .ok (systemKey kind catalogStatusPlaceholder (beBytes 2 id.length ++ (id ++ groupID)))

def groupCommandKey (commandID groupID : Bytes) : Except Err Bytes :=
  relationKey kindGroupCommand commandID groupID
def peerGroupKey (peerID groupID : Bytes) : Except Err Bytes :=
  relationKey kindPeerGroup peerID groupID

/-- The two identifiers of a relation key. The status byte is not looked at. -/
def parseRelationKey (kind : UInt8) : Bytes → Except Err (Bytes × Bytes)
  | p :: k :: _ :: hi :: lo :: rest =>
    if p ≠ systemKeyPrefix ∨ k ≠ kind then .error (.notRelationKey kind)
    else
      match readBytes (beNat [hi, lo]) rest with
      | none => .error (.relationKeyTruncated kind)
      | some r => .ok r
  | _ => .error (.notRelationKey kind)

def parseGroupCommandKey : Bytes → Except Err (Bytes × Bytes) := parseRelationKey kindGroupCommand
def parsePeerGroupKey : Bytes → Except Err (Bytes × Bytes) := parseRelationKey kindPeerGroup

def allGroupCommandsPrefix : Bytes := systemKey kindGroupCommand catalogStatusPlaceholder []
def allPeerGroupsPrefix : Bytes := systemKey kindPeerGroup catalogStatusPlaceholder []

/-- `GroupCommandBounds` and `PeerGroupBounds`: the range of an identifier's relations, with groups
of up to 64 bytes. -/
def relationBounds (kind : UInt8) (id : Bytes) : Except Err (Bytes × Bytes) := do
  let p ← relationKey kind id []
  return (p, p ++ List.replicate 64 0xFF)

def groupCommandBounds (commandID : Bytes) : Except Err (Bytes × Bytes) :=
  relationBounds kindGroupCommand commandID

/-! ## Group and command payloads -/

def groupPrivateByte : UInt8 := 0x00
def groupPublicByte : UInt8 := 0x01

def encodeGroupPayload (name : Bytes) (isPublic : Bool) : Bytes :=
  (if isPublic then groupPublicByte else groupPrivateByte) :: name

def decodeGroupPayload : Bytes → Except Err (Bytes × Bool)
  | [] => .error .groupPayloadEmpty
  | b :: name => .ok (name, b == groupPublicByte)

/-- The name length that marks a payload with a spec. -/
def commandPayloadV2Sentinel : Nat := 0xFFFF

def checkCommandNameLen (name : Bytes) : Except Err Unit :=
  if name.length ≥ commandPayloadV2Sentinel then .error (.commandNameTooLong name.length)
  else .ok ()

def encodeCommandPayload (name peerID : Bytes) : Except Err Bytes := do
  checkCommandNameLen name
  return beBytes 2 name.length ++ (name ++ peerID)

def encodeCommandPayloadWithSpec (name peerID spec : Bytes) : Except Err Bytes :=
  if spec = [] then encodeCommandPayload name peerID
  else do
    checkCommandNameLen name
    if peerID.length > 0xFFFF then throw (.commandPeerIDTooLong peerID.length)
    return beBytes 2 commandPayloadV2Sentinel ++
      (beBytes 2 name.length ++ (name ++ (beBytes 2 peerID.length ++ (peerID ++ spec))))

/-- A payload with a place for a spec and nothing in it. -/
def encodeCommandPayloadClearingSpec (name peerID : Bytes) : Except Err Bytes := do
  let payload ← encodeCommandPayloadWithSpec name peerID [0]
  return payload.dropLast

/-- Name, peer and spec. A payload without a spec has the empty one. -/
def decodeCommandPayloadFull (payload : Bytes) : Except Err (Bytes × Bytes × Bytes) :=
  match readNat 2 payload with
  | none => .error (.commandPayloadTooShort payload.length)
  | some (nameLen, rest) =>
    if nameLen ≠ commandPayloadV2Sentinel then
      match readBytes nameLen rest with
      | none => .error (.commandNameExceeds nameLen payload.length)
      | some (name, peerID) => .ok (name, peerID, [])
    else
      match readNat 2 rest with
      | none => .error .commandNameLengthTruncated
      | some (nameLen, rest) =>
        -- the name and the two bytes of the peer's length are checked for together
        match readBytes nameLen rest with
        | none => .error (.commandNameExceeds nameLen payload.length)
        | some (name, rest) =>
          match readNat 2 rest with
          | none => .error (.commandNameExceeds nameLen payload.length)
          | some (peerLen, rest) =>
            match readBytes peerLen rest with
            | none => .error (.commandPeerExceeds peerLen payload.length)
            | some (peerID, spec) => .ok (name, peerID, spec)

def decodeCommandPayload (payload : Bytes) : Except Err (Bytes × Bytes) := do
  let (name, peerID, _) ← decodeCommandPayloadFull payload
  return (name, peerID)

/-- The spec, and whether the payload has a place for one. -/
def decodeCommandPayloadSpec (payload : Bytes) : Except Err (Bytes × Bool) :=
  match readNat 2 payload with
  | none => .error (.commandPayloadTooShort payload.length)
  | some (nameLen, _) =>
    if nameLen ≠ commandPayloadV2Sentinel then .ok ([], false)
    else do
      let (_, _, spec) ← decodeCommandPayloadFull payload
      return (spec, true)

/-! ## Station and member payloads -/

def encodeStationPayload (name attrs : Bytes) : Except Err Bytes :=
  if name.length > 0xFFFF then .error (.stationNameTooLong name.length)
  else .ok (beBytes 2 name.length ++ (name ++ attrs))

def encodeClusterMemberPayload (pub : Bytes) (role : UInt8) : Bytes := pub ++ [role]

/-! ## Reserved identifiers -/

def reservedGroupCluster : Bytes := ascii "cluster"
def reservedGroupVoter : Bytes := ascii "voter"
def reservedGroupLearner : Bytes := ascii "learner"
def reservedGroupChannel : Bytes := ascii "channel"
def reservedGroupRelay : Bytes := ascii "relay"
def reservedGroupRemote : Bytes := ascii "remote"
def reservedGroupExecute : Bytes := ascii "execute"

def isReservedGroupID (id : Bytes) : Bool :=
  id ∈ [reservedGroupCluster, reservedGroupVoter, reservedGroupLearner, reservedGroupChannel,
    reservedGroupRelay, reservedGroupRemote, reservedGroupExecute]

/-- The groups whose membership follows the raft configuration. -/
def isAutoManagedGroupID (id : Bytes) : Bool :=
  id ∈ [reservedGroupCluster, reservedGroupVoter, reservedGroupLearner]

def defaultPublicGroupID : Bytes := ascii "public"
def defaultPublicCommandID : Bytes := ascii "public-access"

/-! ## Key facts -/

variable {id groupID key : Bytes} {kind : UInt8}

theorem systemKey_inj {k k' s s' : UInt8} {id' : Bytes} :
    systemKey k s id = systemKey k' s' id' ↔ k = k' ∧ s = s' ∧ id = id' := by
  simp [systemKey]

theorem systemKey_ne_of_kind {k k' : UInt8} (h : k ≠ k') (s s' : UInt8) (id id' : Bytes) :
    systemKey k s id ≠ systemKey k' s' id' := fun e => h (systemKey_inj.mp e).1

theorem relationKey_eq_ok
    (h : relationKey kind id groupID = .ok key) : id.length ≤ 0xFFFF ∧
      key = systemKey kind catalogStatusPlaceholder (beBytes 2 id.length ++ (id ++ groupID)) := by
  unfold relationKey at h
  split_ifs at h with hl
  cases h
  exact ⟨not_lt.mp hl, rfl⟩

theorem parseRelationKey_relationKey
    (h : relationKey kind id groupID = .ok key) :
    parseRelationKey kind key = .ok (id, groupID) := by
  obtain ⟨hl, rfl⟩ := relationKey_eq_ok h
  have hn : beNat (beBytes 2 id.length) = id.length := beNat_beBytes (by omega)
  simp only [systemKey, beBytes, List.cons_append, List.nil_append] at hn ⊢
  simp only [parseRelationKey, hn, ne_eq, not_true, or_self, if_false, readBytes_append]

theorem relationKey_inj {id' groupID' : Bytes}
    (h : relationKey kind id groupID = .ok key) (h' : relationKey kind id' groupID' = .ok key) :
    id = id' ∧ groupID = groupID' := by
  have := (parseRelationKey_relationKey h).symm.trans (parseRelationKey_relationKey h')
  simpa using this

theorem relationKey_of_le (h : id.length ≤ 0xFFFF) (kind : UInt8) (groupID : Bytes) :
    relationKey kind id groupID =
      .ok (systemKey kind catalogStatusPlaceholder (beBytes 2 id.length ++ (id ++ groupID))) :=
  if_neg (not_lt.mpr h)

theorem relationKey_of_parse
    (hlist : systemKey kind catalogStatusPlaceholder [] <+: key)
    (h : parseRelationKey kind key = .ok (id, groupID)) :
    relationKey kind id groupID = .ok key := by
  obtain ⟨rest, rfl⟩ := hlist
  rcases rest with _ | ⟨hi, _ | ⟨lo, rest⟩⟩
  · cases h
  · cases h
  simp only [systemKey, List.cons_append, List.nil_append, parseRelationKey, ne_eq,
    not_true, or_self, if_false] at h
  rcases hr : readBytes (beNat [hi, lo]) rest with _ | ⟨id', groupID'⟩ <;> rw [hr] at h
  · cases h
  cases h
  obtain ⟨hlen, rfl⟩ := readBytes_eq_some hr
  have hbytes : beBytes 2 id.length = [hi, lo] := by
    rw [hlen]
    exact beBytes_beNat [hi, lo]
  have hle : id.length ≤ 0xFFFF := by
    have := beNat_lt [hi, lo]
    simp only [List.length_cons, List.length_nil] at this
    omega
  rw [relationKey_of_le hle, hbytes]
  rfl

theorem relationKey_nil_isPrefix {p : Bytes} (h : relationKey kind id [] = .ok p)
    (key : Bytes) : p <+: key ↔ ∃ groupID, relationKey kind id groupID = .ok key := by
  obtain ⟨hle, rfl⟩ := relationKey_eq_ok h
  constructor
  · rintro ⟨groupID, rfl⟩
    refine ⟨groupID, ?_⟩
    rw [relationKey_of_le hle]
    simp [systemKey]
  · rintro ⟨groupID, hk⟩
    obtain ⟨-, rfl⟩ := relationKey_eq_ok hk
    exact ⟨groupID, by simp [systemKey]⟩

theorem relationKey_mem_list
    (h : relationKey kind id groupID = .ok key) :
    systemKey kind catalogStatusPlaceholder [] <+: key := by
  obtain ⟨-, rfl⟩ := relationKey_eq_ok h
  exact ⟨_, rfl⟩

/-! ## Command payloads -/

def commandPayloadV2 (name peerID spec : Bytes) : Bytes :=
  beBytes 2 commandPayloadV2Sentinel ++
    (beBytes 2 name.length ++ (name ++ (beBytes 2 peerID.length ++ (peerID ++ spec))))

section CommandPayloads

variable {name peerID spec payload : Bytes}

theorem checkCommandNameLen_ok (h : checkCommandNameLen name = .ok ()) :
    name.length < commandPayloadV2Sentinel := by
  unfold checkCommandNameLen at h
  split_ifs at h with hlen
  omega

theorem encodeCommandPayload_ok (h : encodeCommandPayload name peerID = .ok payload) :
    name.length < commandPayloadV2Sentinel ∧
      payload = beBytes 2 name.length ++ (name ++ peerID) := by
  unfold encodeCommandPayload at h
  rcases hname : checkCommandNameLen name with e | ⟨⟩ <;> rw [hname] at h
  · cases h
  · cases h
    exact ⟨checkCommandNameLen_ok hname, rfl⟩

theorem encodeCommandPayloadWithSpec_ok (hspec : spec ≠ [])
    (h : encodeCommandPayloadWithSpec name peerID spec = .ok payload) :
    name.length < commandPayloadV2Sentinel ∧ peerID.length ≤ 0xFFFF ∧
      payload = commandPayloadV2 name peerID spec := by
  unfold encodeCommandPayloadWithSpec at h
  rw [if_neg hspec] at h
  rcases hname : checkCommandNameLen name with e | ⟨⟩ <;> rw [hname] at h
  · cases h
  · simp only [bind, Except.bind] at h
    split_ifs at h with hpeer
    cases h
    exact ⟨checkCommandNameLen_ok hname, not_lt.mp hpeer, rfl⟩

theorem encodeCommandPayloadClearingSpec_ok
    (h : encodeCommandPayloadClearingSpec name peerID = .ok payload) :
    name.length < commandPayloadV2Sentinel ∧ peerID.length ≤ 0xFFFF ∧
      payload = commandPayloadV2 name peerID [] := by
  unfold encodeCommandPayloadClearingSpec at h
  rcases hv : encodeCommandPayloadWithSpec name peerID [0] with e | v <;> rw [hv] at h
  · cases h
  · cases h
    obtain ⟨hname, hpeer, rfl⟩ := encodeCommandPayloadWithSpec_ok (by simp) hv
    refine ⟨hname, hpeer, ?_⟩
    simp only [commandPayloadV2, ← List.append_assoc, List.append_nil, List.dropLast_concat]

theorem decodeCommandPayloadFull_encodeCommandPayload
    (h : encodeCommandPayload name peerID = .ok payload) :
    decodeCommandPayloadFull payload = .ok (name, peerID, []) ∧
      decodeCommandPayloadSpec payload = .ok ([], false) := by
  obtain ⟨hname, rfl⟩ := encodeCommandPayload_ok h
  have hread := readNat_beBytes_append (w := 2) (n := name.length) (by
    unfold commandPayloadV2Sentinel at hname
    omega) (name ++ peerID)
  simp only [decodeCommandPayloadFull, decodeCommandPayloadSpec, hread, if_pos hname.ne,
    readBytes_append, and_self]

theorem decodeCommandPayloadFull_commandPayloadV2 (hname : name.length < commandPayloadV2Sentinel)
    (hpeer : peerID.length ≤ 0xFFFF) (spec : Bytes) :
    decodeCommandPayloadFull (commandPayloadV2 name peerID spec) = .ok (name, peerID, spec) ∧
      decodeCommandPayloadSpec (commandPayloadV2 name peerID spec) = .ok (spec, true) := by
  unfold commandPayloadV2Sentinel at hname
  have hsentinel := readNat_beBytes_append (w := 2) (n := commandPayloadV2Sentinel) (by decide)
    (beBytes 2 name.length ++ (name ++ (beBytes 2 peerID.length ++ (peerID ++ spec))))
  have hfull :
      decodeCommandPayloadFull (commandPayloadV2 name peerID spec) = .ok (name, peerID, spec) := by
    simp only [decodeCommandPayloadFull, commandPayloadV2, hsentinel, ne_eq, not_true, if_false]
    rw [readNat_beBytes_append (by omega)]
    simp only [readBytes_append]
    rw [readNat_beBytes_append (by omega)]
    simp only [readBytes_append]
  refine ⟨hfull, ?_⟩
  simp only [decodeCommandPayloadSpec, hfull]
  simp only [commandPayloadV2, hsentinel, ne_eq, not_true, if_false]
  rfl

theorem decodeCommandPayloadSpec_of_full
    (h : decodeCommandPayloadFull payload = .ok (name, peerID, spec)) :
    ∃ present, decodeCommandPayloadSpec payload = .ok (spec, present) := by
  unfold decodeCommandPayloadSpec
  rcases hread : readNat 2 payload with _ | ⟨nameLen, rest⟩
  · simp [decodeCommandPayloadFull, hread] at h
  · dsimp only
    split_ifs with hv
    · refine ⟨false, ?_⟩
      simp only [decodeCommandPayloadFull, hread, if_pos hv] at h
      split at h
      · cases h
      · cases h
        rfl
    · rw [h]
      exact ⟨true, rfl⟩

end CommandPayloads

end KvRaft.Shmevent
