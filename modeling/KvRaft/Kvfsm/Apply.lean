import KvRaft.Shmevent.Payload
import KvRaft.Logrecord.Key
import KvRaft.Store

/-! # The replicated state machine (`pkg/kvfsm`)

`apply` runs one raft log entry on the store, as `FSM.Apply` does. The entry is decoded, the checks
of its operation are made against the committed store, and only then anything is written. -/

namespace KvRaft.Kvfsm

open Bytes Shmevent

/-! ## Commands (`fsm_encoding.go`) -/

inductive OpType
  | set
  | del
  | confirm
  | cascadeDelete
  | consumeInvite
  | consumeExecInvite
  | appendCommandRequest
  | txn
  | unknown (op : UInt8) (h : op = 0 ∨ 8 < op)
deriving DecidableEq, Repr

namespace OpType

def ofByte (b : UInt8) : OpType :=
  if h : b = 0 ∨ 8 < b then unknown b h
  else if b = 1 then set
  else if b = 2 then del
  else if b = 3 then confirm
  else if b = 4 then cascadeDelete
  else if b = 5 then consumeInvite
  else if b = 6 then consumeExecInvite
  else if b = 7 then appendCommandRequest
  else txn

def toByte : OpType → UInt8
  | set => 1
  | del => 2
  | confirm => 3
  | cascadeDelete => 4
  | consumeInvite => 5
  | consumeExecInvite => 6
  | appendCommandRequest => 7
  | txn => 8
  | unknown b _ => b

theorem ofByte_toByte (op : OpType) : ofByte op.toByte = op := by
  cases op with
  | unknown b h => simp [toByte, ofByte, h]
  | _ => rfl

end OpType

structure Command where
  op : OpType
  key : Bytes
  value : Bytes
deriving DecidableEq, Repr

def encodeCommand (op : OpType) (key value : Bytes) : Bytes :=
  op.toByte :: (beBytes 4 key.length ++ (key ++ (beBytes 4 value.length ++ value)))

/-- `n` bytes off the front, where the remaining length is compared as a `uint32`. -/
def readBytes32 (n : Nat) (b : Bytes) : Option (Bytes × Bytes) :=
  if b.length % 2 ^ 32 < n then none else some (b.take n, b.drop n)

/-- Bytes after the value are not looked at. -/
def decodeCommand : Bytes → Except Err Command
  | [] => .error .commandTooShort
  | op :: rest =>
    match readNat 4 rest with
    | none => .error .commandTooShort
    | some (klen, rest) =>
      match readBytes32 klen rest with
      | none => .error .truncatedKey
      | some (key, rest) =>
        match readNat 4 rest with
        | none => .error .missingValueLength
        | some (vlen, rest) =>
          match readBytes32 vlen rest with
          | none => .error .truncatedValue
          | some (value, _) => .ok ⟨.ofByte op, key, value⟩

theorem readBytes32_append {b rest : Bytes} (h : b.length ≤ (b ++ rest).length % 2 ^ 32) :
    readBytes32 b.length (b ++ rest) = some (b, rest) := by
  rw [readBytes32, if_neg (not_lt.mpr h), List.take_left, List.drop_left]

theorem decodeCommand_of_reads {op : UInt8} {rest r₁ r₂ r₃ r₄ key value : Bytes} {klen vlen : Nat}
    (h₁ : readNat 4 rest = some (klen, r₁)) (h₂ : readBytes32 klen r₁ = some (key, r₂))
    (h₃ : readNat 4 r₂ = some (vlen, r₃)) (h₄ : readBytes32 vlen r₃ = some (value, r₄)) :
    decodeCommand (op :: rest) = .ok ⟨.ofByte op, key, value⟩ := by
  rw [decodeCommand, h₁]
  simp only [h₂, h₃, h₄]

theorem decodeCommand_eq_ok_iff {data : Bytes} (hlen : data.length < 2 ^ 32) {c : Command} :
    decodeCommand data = .ok c ↔ ∃ b more, OpType.ofByte b = c.op ∧
      data = b :: (beBytes 4 c.key.length ++
        (c.key ++ (beBytes 4 c.value.length ++ (c.value ++ more)))) := by
  have h32 {n : Nat} {b : Bytes} (h : b.length < 2 ^ 32) : readBytes32 n b = readBytes n b := by
    rw [readBytes32, readBytes, Nat.mod_eq_of_lt h]
  constructor
  · intro h
    rcases data with _ | ⟨b, rest⟩
    · cases h
    rw [decodeCommand] at h
    rcases hk : readNat 4 rest with _ | ⟨klen, tail⟩ <;> simp only [hk] at h
    · cases h
    obtain ⟨-, rfl⟩ := readNat_eq_some hk
    simp only [List.length_cons, List.length_append, length_beBytes] at hlen
    rw [h32 (by omega)] at h
    rcases hkey : readBytes klen tail with _ | ⟨key, tail'⟩ <;> simp only [hkey] at h
    · cases h
    obtain ⟨rfl, rfl⟩ := readBytes_eq_some hkey
    rcases hv : readNat 4 tail' with _ | ⟨vlen, tail''⟩ <;> simp only [hv] at h
    · cases h
    obtain ⟨-, rfl⟩ := readNat_eq_some hv
    simp only [List.length_append, length_beBytes] at hlen
    rw [h32 (by omega)] at h
    rcases hvalue : readBytes vlen tail'' with _ | ⟨value, more⟩ <;> simp only [hvalue] at h
    · cases h
    obtain ⟨rfl, rfl⟩ := readBytes_eq_some hvalue
    cases h
    exact ⟨b, more, rfl, rfl⟩
  · rintro ⟨b, more, hop, rfl⟩
    simp only [List.length_cons, List.length_append, length_beBytes] at hlen
    have hk := readNat_beBytes_append (w := 4) (n := c.key.length) (by omega)
      (c.key ++ (beBytes 4 c.value.length ++ (c.value ++ more)))
    have hv := readNat_beBytes_append (w := 4) (n := c.value.length) (by omega) (c.value ++ more)
    have hkey :
        readBytes32 c.key.length (c.key ++ (beBytes 4 c.value.length ++ (c.value ++ more))) =
        some (c.key, beBytes 4 c.value.length ++ (c.value ++ more)) := by
      rw [h32 (by simp only [List.length_append, length_beBytes]; omega), readBytes_append]
    have hvalue : readBytes32 c.value.length (c.value ++ more) = some (c.value, more) := by
      rw [h32 (by rw [List.length_append]; omega), readBytes_append]
    rw [decodeCommand_of_reads hk hkey hv hvalue, hop]

theorem decodeCommand_encodeCommand {op : OpType} {key value : Bytes}
    (h : key.length + value.length + 4 < 2 ^ 32) :
    decodeCommand (encodeCommand op key value) = .ok ⟨op, key, value⟩ := by
  have hk : key.length < 256 ^ 4 := by omega
  have hv : value.length < 256 ^ 4 := by omega
  have hkl : key.length ≤ (key ++ (beBytes 4 value.length ++ value)).length % 2 ^ 32 := by
    rw [List.length_append, List.length_append, length_beBytes, Nat.mod_eq_of_lt (by omega)]
    omega
  have hvl : value.length ≤ (value ++ []).length % 2 ^ 32 := by
    rw [List.append_nil, Nat.mod_eq_of_lt (by omega)]
  have hval := readBytes32_append hvl
  rw [List.append_nil] at hval
  have hd : decodeCommand (encodeCommand op key value) = .ok ⟨.ofByte op.toByte, key, value⟩ :=
    decodeCommand_of_reads (readNat_beBytes_append hk _) (readBytes32_append hkl)
      (readNat_beBytes_append hv _) hval
  rwa [OpType.ofByte_toByte] at hd

/-! ## Checks (`fsm_acl.go`) -/

def maxSystemListEntries : Nat := 65000

/-- The lists with a cap of their own. -/
def systemListLimit (kind : UInt8) : Nat :=
  if kind = kindGroup then 200
  else if kind = kindCommand then 2000
  else if kind = kindBootstrapNode then 50
  else maxSystemListEntries

def systemKind : Bytes → Option UInt8
  | p :: kind :: _ :: _ => if p = systemKeyPrefix then some kind else none
  | _ => none

def systemKeyPrefixLen : Nat := 3

def checkSystemListCap (s : Store) (key : Bytes) : Except Err Unit :=
  match systemKind key with
  | none => .ok ()
  | some kind =>
    if (s.get key).isSome then .ok ()
    else
      let list := key.take systemKeyPrefixLen
      if s.countPrefix list ≥ systemListLimit kind then
        .error (.listAtCapacity list (systemListLimit kind))
      else .ok ()

/-- Whether a group other than the one under `key` has the name. An undecodable group
is an error. -/
def findGroupName (key name : Bytes) : List (Bytes × Bytes) → Except Err Unit
  | [] => .ok ()
  | m :: ms =>
    if m.1 = key then findGroupName key name ms
    else
      match decodeGroupPayload m.2 with
      | .error e => .error e
      | .ok (existing, _) =>
        if existing = name then .error (.groupNameUsed name) else findGroupName key name ms

def checkGroupNameUnique (s : Store) (key value : Bytes) : Except Err Unit :=
  if systemKind key ≠ some kindGroup then .ok ()
  else
    match decodeGroupPayload value with
    | .error e => .error e
    | .ok (name, _) => findGroupName key name (s.scanRange groupKeyBounds.1 groupKeyBounds.2 0)

/-- The value a `Set` of a command record stores: the record's spec survives a
payload without one. -/
def preserveCommandSpec (s : Store) (key value : Bytes) : Except Err Bytes :=
  if systemKind key ≠ some kindCommand then .ok value
  else
    match decodeCommandPayloadSpec value with
    | .error e => .error (.wrap .commandSpec e)
    | .ok (_, true) => .ok value
    | .ok (_, false) =>
      match s.get key with
      | none => .ok value
      | some existing =>
        match decodeCommandPayloadSpec existing with
        | .error _ => .ok value
        | .ok (oldSpec, _) =>
          if oldSpec = [] then .ok value
          else
            match decodeCommandPayload value with
            | .error e => .error (.wrap .commandSpecDecodeIncoming e)
            | .ok (name, peerID) =>
              (encodeCommandPayloadWithSpec name peerID oldSpec).mapError
                (.wrap .commandSpecReencode)

/-- Whether the group record under `groupID` exists, decodes and is public. -/
def isPublicGroup (s : Store) (groupID : Bytes) : Bool :=
  match s.get (groupKey groupID) with
  | none => false
  | some value =>
    match decodeGroupPayload value with
    | .error _ => false
    | .ok (_, isPublic) => isPublic

/-- The loop of `IsPermittedForCommand` over the command's group relations. -/
def anyGroupPermits (s : Store) (peerID : Bytes) : List (Bytes × Bytes) → Except Err Bool
  | [] => .ok false
  | m :: ms =>
    match parseGroupCommandKey m.1 with
    | .error e => .error e
    | .ok (_, groupID) =>
      if isPublicGroup s groupID then .ok true
      else
        match peerGroupKey peerID groupID with
        | .error e => .error e
        | .ok k => if (s.get k).isSome then .ok true else anyGroupPermits s peerID ms

def isPermittedForCommand (s : Store) (commandID peerID : Bytes) : Except Err Bool :=
  match groupCommandKey commandID [] with
  | .error e => .error e
  | .ok p => anyGroupPermits s peerID (s.scanPrefix p 0)

def grantChannelRelayAccess (s : Store) (peerID : Bytes) : Except Err Store := do
  let channel ← peerGroupKey peerID reservedGroupChannel
  let relay ← peerGroupKey peerID reservedGroupRelay
  return (s.set channel []).set relay []

/-! ## Cascades (`fsm_cascade.go`) -/

def deleteMatching (parse : Bytes → Except Err (Bytes × Bytes)) (groupID : Bytes) (s : Store) :
    List (Bytes × Bytes) → Except Err Store
  | [] => .ok s
  | m :: ms =>
    match parse m.1 with
    | .error e => .error e
    | .ok (_, g) => deleteMatching parse groupID (if g = groupID then s.delete m.1 else s) ms

def deleteRelationsByGroupID (s : Store) (p groupID : Bytes)
    (parse : Bytes → Except Err (Bytes × Bytes)) : Except Err Store :=
  deleteMatching parse groupID s (s.scanPrefix p 0)

def applyCascadeDelete (s : Store) (key : Bytes) : Except Err Store :=
  match systemKind key with
  | none => .error .cascadeNotSystemKey
  | some kind =>
    let id := key.drop systemKeyPrefixLen
    if kind = kindCommand then do
      let p ← groupCommandKey id []
      return ((s.scanPrefix p 0).foldl (fun t m => t.delete m.1) s).delete key
    else if kind = kindGroup then do
      let s ← deleteRelationsByGroupID s allGroupCommandsPrefix id parseGroupCommandKey
      let s ← deleteRelationsByGroupID s allPeerGroupsPrefix id parsePeerGroupKey
      return s.delete key
    else .error (.cascadeUnsupportedKind kind)

/-! ## Transactions -/

def checkTxnKinds : Nat → List TxnOpSpec → Except Err Unit
  | _, [] => .ok ()
  | i, o :: ops =>
    if !validTxnOp o.op then .error (.txnOpUnknownKind i o.op) else checkTxnKinds (i + 1) ops

/-- One precondition, the `i`-th operation of its transaction. -/
def checkCompare (s : Store) (i : Nat) (o : TxnOpSpec) : Except Err Unit :=
  if o.op = txnOpCompareAbsent then
    match s.get o.key with
    | some _ => .error (.compareFailed i o.key .keyExists)
    | none => .ok ()
  else if o.op = txnOpCompare then
    match s.get o.key with
    | none => .error (.compareFailed i o.key .keyMissing)
    | some current =>
      if current ≠ o.value then .error (.compareFailed i o.key .differentValue) else .ok ()
  else .ok ()

/-- The second pass: every precondition holds in the committed store. -/
def checkTxnCompares (s : Store) : Nat → List TxnOpSpec → Except Err Unit
  | _, [] => .ok ()
  | i, o :: ops =>
    if !o.isCompare then checkTxnCompares s (i + 1) ops
    else
      match checkCompare s i o with
      | .error e => .error e
      | .ok () => checkTxnCompares s (i + 1) ops

def runTxnOp (s : Store) (o : TxnOpSpec) : Store :=
  if o.isCompare then s
  else if o.op = txnOpSet then s.set o.key o.value
  else s.delete o.key

/-! ## Apply (`fsm.go`) -/

/-- A raft log entry: its data and the leader's clock when it was appended, in Unix seconds. -/
structure Log where
  data : Bytes
  appendedAt : Int
deriving DecidableEq, Repr

/-- `Value` is what a consumed invite held. -/
structure ApplyResult where
  err : Option Err := none
  value : Bytes := []
deriving DecidableEq, Repr

def fail (s : Store) (e : Err) : ApplyResult × Store := ({ err := some e }, s)

def committed (s : Store) (fn : Store → Except Err Store) : ApplyResult × Store :=
  let (err, s') := s.withTx fn
  ({ err }, s')

def applySet (s : Store) (key value : Bytes) : ApplyResult × Store :=
  match checkSystemListCap s key with
  | .error e => fail s e
  | .ok () =>
    match checkGroupNameUnique s key value with
    | .error e => fail s e
    | .ok () =>
      match preserveCommandSpec s key value with
      | .error e => fail s e
      | .ok value => ({}, s.set key value)

def applyDel (s : Store) (key : Bytes) : ApplyResult × Store := ({}, s.delete key)

/-- `value` is the key of the confirmed record. -/
def applyConfirm (s : Store) (key value : Bytes) : ApplyResult × Store :=
  match s.get! key with
  | .error e => fail s (.wrap .confirmNoPending e)
  | .ok v =>
    match checkSystemListCap s value with
    | .error e => fail s e
    | .ok () => committed s fun tx => .ok ((tx.set value v).delete key)

def applyConsumeInvite (s : Store) (key : Bytes) : ApplyResult × Store :=
  match s.get! key with
  | .error e => fail s (.wrap .consumeInviteNoSuch e)
  | .ok v => ({ value := v }, s.delete key)

/-- `expiresAtUnix != 0 && uint64(l.AppendedAt.Unix()) >= expiresAtUnix`. -/
def expired (r : ExecInviteRecord) (appendedAt : Int) : Bool :=
  r.expiresAtUnix ≠ 0 && r.expiresAtUnix ≤ Logrecord.uint64 appendedAt

/-- `value` is the redeeming peer. An expired invite is deleted, an unpermitted one stays. -/
def applyConsumeExecInvite (s : Store) (appendedAt : Int) (key value : Bytes) :
    ApplyResult × Store :=
  match s.get! key with
  | .error e => fail s (.wrap .consumeExecInviteNoSuch e)
  | .ok v =>
    match decodeExecInviteRecord v with
    | .error e => fail s (.wrap .consumeExecInviteDecode e)
    | .ok r =>
      if expired r appendedAt then ({ err := some .execInviteExpired }, s.delete key)
      else
        match isPermittedForCommand s r.commandID value with
        | .error e => fail s (.wrap .consumeExecInviteAcl e)
        | .ok false => fail s (.execInviteNotPermitted value r.commandID)
        | .ok true => ({ value := v }, s.delete key)

def applyAppendCommandRequest (s : Store) (key value : Bytes) : ApplyResult × Store :=
  match decodeCommandRequestApplyPayload value with
  | .error e => fail s (.wrap .appendRequestDecode e)
  | .ok (authorPeerID, recordValue) =>
    match Logrecord.parseKey key with
    | .error e => fail s (.wrap .appendRequestParseKey e)
    | .ok k =>
      match parseCommandRequestLogKind k.kind with
      | none => fail s (.notCommandRequestKind k.kind)
      | some commandID =>
        match isPermittedForCommand s commandID authorPeerID with
        | .error e => fail s (.wrap .appendRequestAcl e)
        | .ok false => fail s (.requestNotPermitted authorPeerID commandID)
        | .ok true =>
          match checkSystemListCap s key with
          | .error e => fail s e
          | .ok () =>
            committed s fun tx =>
              let tx := tx.set key recordValue
              if commandID = defaultPublicCommandID then
                (grantChannelRelayAccess tx authorPeerID).mapError
                  (.wrap (.grantChannelRelay authorPeerID))
              else .ok tx

def applyTxn (s : Store) (value : Bytes) : ApplyResult × Store :=
  match decodeTxnPayload value with
  | .error e => fail s (.wrap .txnDecode e)
  | .ok ops =>
    match checkTxnKinds 0 ops with
    | .error e => fail s e
    | .ok () =>
      match checkTxnCompares s 0 ops with
      | .error e => fail s e
      | .ok () => committed s fun tx => .ok (ops.foldl runTxnOp tx)

/-- `FSM.Apply`. -/
def apply (s : Store) (l : Log) : ApplyResult × Store :=
  match decodeCommand l.data with
  | .error e => fail s e
  | .ok ⟨op, key, value⟩ =>
    match op with
    | .set => applySet s key value
    | .del => applyDel s key
    | .confirm => applyConfirm s key value
    | .cascadeDelete => committed s fun tx => applyCascadeDelete tx key
    | .consumeInvite => applyConsumeInvite s key
    | .consumeExecInvite => applyConsumeExecInvite s l.appendedAt key value
    | .appendCommandRequest => applyAppendCommandRequest s key value
    | .txn => applyTxn s value
    | .unknown op _ => fail s (.unknownOp op)

def applyAll (s : Store) (log : List Log) : Store := log.foldl (fun s l => (apply s l).2) s

/-! ## Snapshots -/

/-- `Persist` writes the rows of the live store, in the order the table gives them. -/
def persist (rows : List (Bytes × Bytes)) : Bytes := Store.dumpRows rows

/-- `Restore` replaces the store's contents; a dump that does not load leaves them. -/
def restore (b : Bytes) : Except Err Store := Store.loadAll b

end KvRaft.Kvfsm
