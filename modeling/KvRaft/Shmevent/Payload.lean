import KvRaft.Encoding.Json
import KvRaft.Lib.Traverse
import KvRaft.Shmevent.Catalog

/-! # Raft entry payloads (`pkg/shmevent`: `txn.go`, `commandrequest.go`, `execinvite.go`,
`joininvite.go`)

The values that raft log entries carry for the state machine's composite operations, and the
metadata of a cluster join request. -/

namespace KvRaft.Shmevent

open Bytes

/-! ## Transactions -/

def txnOpSet : UInt8 := 1
def txnOpDelete : UInt8 := 2
def txnOpCompare : UInt8 := 3
def txnOpCompareAbsent : UInt8 := 4

structure TxnOpSpec where
  op : UInt8
  key : Bytes
  value : Bytes
deriving DecidableEq, Repr

def TxnOpSpec.isCompare (o : TxnOpSpec) : Bool := o.op == txnOpCompare || o.op == txnOpCompareAbsent

def validTxnOp (op : UInt8) : Bool :=
  op == txnOpSet || op == txnOpDelete || op == txnOpCompare || op == txnOpCompareAbsent

/-- The checks `EncodeTxnPayload` makes on one operation, in its order. -/
def checkTxnOp (o : TxnOpSpec) : Except Err Unit :=
  if o.key.length = 0 then .error .txnEmptyKey
  else if o.key.length > 0xFFFF then .error (.txnKeyTooLong o.key.length)
  else if o.value.length > 0xFFFF then .error (.txnValueTooLong o.value.length)
  else if !validTxnOp o.op then .error (.txnUnknownKind o.op)
  else .ok ()

def encodeTxnOp (o : TxnOpSpec) : Bytes :=
  o.op :: (beBytes 2 o.key.length ++ (o.key ++ (beBytes 2 o.value.length ++ o.value)))

def encodeTxnPayload (ops : List TxnOpSpec) : Except Err Bytes :=
  if ops.length > 0xFFFF then .error (.txnTooManyOps ops.length)
  else do
    ops.forM checkTxnOp
    return beBytes 2 ops.length ++ ops.flatMap encodeTxnOp

def decodeTxnOp (i : Nat) : Bytes → Except Err (TxnOpSpec × Bytes)
  | op :: hi :: lo :: rest =>
    match readBytes (beNat [hi, lo]) rest with
    | none => .error (.txnTruncatedKey i)
    | some (key, rest) =>
      match readNat 2 rest with
      | none => .error (.txnTruncatedKey i)
      | some (valueLen, rest) =>
        match readBytes valueLen rest with
        | none => .error (.txnTruncatedValue i)
        | some (value, rest) => .ok (⟨op, key, value⟩, rest)
  | _ => .error (.txnTruncated i)

/-- `n` operations, the first being number `i`, and the bytes after them. -/
def decodeTxnOps : Nat → Nat → Bytes → Except Err (List TxnOpSpec × Bytes)
  | 0, _, rest => .ok ([], rest)
  | n + 1, i, rest =>
    match decodeTxnOp i rest with
    | .error e => .error e
    | .ok (o, rest) =>
      match decodeTxnOps n (i + 1) rest with
      | .error e => .error e
      | .ok (ops, rest) => .ok (o :: ops, rest)

def decodeTxnPayload (payload : Bytes) : Except Err (List TxnOpSpec) :=
  match readNat 2 payload with
  | none => .error (.txnTooShort payload.length)
  | some (count, rest) =>
    match decodeTxnOps count 0 rest with
    | .error e => .error e
    | .ok (ops, rest) => if rest ≠ [] then .error (.txnTrailing rest.length) else .ok ops

/-! ## Command requests -/

def commandRequestLogKindPrefix : Bytes := ascii "cmdreq:"

def commandRequestLogKind (commandID : Bytes) : Bytes := commandRequestLogKindPrefix ++ commandID

/-- `HasPrefix` and `TrimPrefix` in one. -/
def cutPrefix (p b : Bytes) : Option Bytes :=
  if p.isPrefixOf b then some (b.drop p.length) else none

def parseCommandRequestLogKind (kind : Bytes) : Option Bytes :=
  cutPrefix commandRequestLogKindPrefix kind

def commandExecIndexKindPrefix : Bytes := ascii "cmdexec:"

def commandExecIndexKind (peerID : Bytes) : Bytes := commandExecIndexKindPrefix ++ peerID

def parseCommandExecIndexKind (kind : Bytes) : Option Bytes :=
  cutPrefix commandExecIndexKindPrefix kind

def commandExecLogKind : Bytes := ascii "cmdlog"

def encodeCommandRequestApplyPayload (authorPeerID recordValue : Bytes) : Except Err Bytes :=
  if authorPeerID.length > 0xFFFF then .error (.requestAuthorTooLong authorPeerID.length)
  else .ok (beBytes 2 authorPeerID.length ++ (authorPeerID ++ recordValue))

def decodeCommandRequestApplyPayload (payload : Bytes) : Except Err (Bytes × Bytes) :=
  match readNat 2 payload with
  | none => .error (.requestPayloadTooShort payload.length)
  | some (idLen, rest) =>
    match readBytes idLen rest with
    | none => .error (.requestAuthorExceeds idLen payload.length)
    | some r => .ok r

/-! ## Invites -/

def execInviteRecordV2Marker : Nat := 0xFFFF

structure ExecInviteRecord where
  commandID : Bytes
  inputsJSON : Bytes
  /-- Unix seconds; zero is no expiry. -/
  expiresAtUnix : Nat
deriving DecidableEq, Repr

def encodeExecInviteRecord (commandID inputsJSON : Bytes) (expiresAtUnix : Nat) : Bytes :=
  if expiresAtUnix = 0 then beBytes 2 commandID.length ++ (commandID ++ inputsJSON)
  else
    beBytes 2 execInviteRecordV2Marker ++
      (beBytes 8 expiresAtUnix ++ (beBytes 2 commandID.length ++ (commandID ++ inputsJSON)))

def decodeExecInviteRecord (payload : Bytes) : Except Err ExecInviteRecord :=
  match readNat 2 payload with
  | none => .error (.execInviteTooShort payload.length)
  | some (cmdLen, rest) =>
    if cmdLen = execInviteRecordV2Marker then
      -- the expiry and the command's length are checked for together
      match readNat 8 rest with
      | none => .error (.execInviteV2TooShort payload.length)
      | some (expiresAtUnix, rest) =>
        match readNat 2 rest with
        | none => .error (.execInviteV2TooShort payload.length)
        | some (cmdLen, rest) =>
          match readBytes cmdLen rest with
          | none => .error (.execInviteCommandExceeds cmdLen payload.length)
          | some (commandID, inputsJSON) => .ok ⟨commandID, inputsJSON, expiresAtUnix⟩
    else
      match readBytes cmdLen rest with
      | none => .error (.execInviteCommandExceeds cmdLen payload.length)
      | some (commandID, inputsJSON) => .ok ⟨commandID, inputsJSON, 0⟩

def encodeJoinInviteRecord (suffrage : UInt8) : Bytes := [suffrage]

def decodeJoinInviteRecord : Bytes → Except Err UInt8
  | [suffrage] => .ok suffrage
  | payload => .error (.joinInviteSize payload.length)

/-! ## Cluster join requests (`system.go`) -/

open Encoding in
def encodeClusterJoinMetadata (addr : Bytes) (suffrage : UInt8) : Bytes :=
  ascii "\x7b\"addr\":" ++ (Json.quote addr ++ (ascii ",\"suffrage\":" ++
    (Json.decimal suffrage.toNat ++ ascii "\x7d")))

open Encoding in
/-- The members of the object, over the address and suffrage read so far. -/
def decodeClusterJoinMembers (addr : Bytes) (suffrage : UInt8) :
    List (Bytes × Json) → Option (Bytes × UInt8)
  | [] => some (addr, suffrage)
  | (k, v) :: kvs =>
    match Json.matchField [ascii "addr", ascii "suffrage"] (Json.unquote k) with
    | none => decodeClusterJoinMembers addr suffrage kvs
    | some name =>
      if name = ascii "addr" then
        match Json.decodeString addr v with
        | none => none
        | some addr => decodeClusterJoinMembers addr suffrage kvs
      else
        match Json.decodeUint8 suffrage v with
        | none => none
        | some suffrage => decodeClusterJoinMembers addr suffrage kvs

open Encoding in
def decodeClusterJoinMetadata (metadata : Bytes) : Except Err (Bytes × UInt8) :=
  match Json.parse metadata with
  | some .null => .ok ([], 0)
  | some (.obj kvs) =>
    match decodeClusterJoinMembers [] 0 kvs with
    | some r => .ok r
    | none => .error .clusterJoinMetadata
  | _ => .error .clusterJoinMetadata

/-! ## Round trips -/

variable {o : TxnOpSpec} {ops : List TxnOpSpec} {payload rest : Bytes}

theorem checkTxnOp_ok_iff : checkTxnOp o = .ok () ↔
    o.key ≠ [] ∧ o.key.length ≤ 0xFFFF ∧ o.value.length ≤ 0xFFFF ∧ validTxnOp o.op = true := by
  unfold checkTxnOp
  split_ifs with hempty hkey hvalue hop
  · simp [List.length_eq_zero_iff.mp hempty]
  · simp only [false_iff]
    omega
  · simp only [false_iff]
    omega
  · rw [Bool.not_eq_true'] at hop
    simp [hop]
  · rw [Bool.not_eq_true', Bool.not_eq_false] at hop
    exact iff_of_true rfl ⟨fun h => hempty (h ▸ rfl), not_lt.mp hkey, not_lt.mp hvalue, hop⟩

theorem decodeTxnOp_encodeTxnOp (hk : o.key.length ≤ 0xFFFF)
    (hv : o.value.length ≤ 0xFFFF) (i : Nat) (rest : Bytes) :
    decodeTxnOp i (encodeTxnOp o ++ rest) = .ok (o, rest) := by
  have hn : beNat (beBytes 2 o.key.length) = o.key.length := beNat_beBytes (by omega)
  have hvl : o.value.length < 256 ^ 2 := by omega
  simp only [encodeTxnOp, beBytes, List.cons_append, List.nil_append, List.append_assoc] at hn ⊢
  simp only [decodeTxnOp, hn, readBytes_append]
  have hr := readNat_beBytes_append hvl (o.value ++ rest)
  simp only [beBytes, List.cons_append, List.nil_append] at hr
  simp only [hr, readBytes_append]

theorem decodeTxnOps_flatMap
    (h : ∀ o ∈ ops, o.key.length ≤ 0xFFFF ∧ o.value.length ≤ 0xFFFF) (i : Nat) (rest : Bytes) :
    decodeTxnOps ops.length i (ops.flatMap encodeTxnOp ++ rest) = .ok (ops, rest) := by
  induction ops generalizing i with
  | nil => rfl
  | cons o ops ih =>
    obtain ⟨hk, hv⟩ := h o List.mem_cons_self
    rw [List.flatMap_cons, List.append_assoc, List.length_cons, decodeTxnOps,
      decodeTxnOp_encodeTxnOp hk hv]
    simp only [ih fun o' ho' => h o' (List.mem_cons_of_mem _ ho')]

theorem encodeTxnPayload_ok_iff :
    encodeTxnPayload ops = .ok payload ↔ ops.length ≤ 0xFFFF ∧
      (∀ o ∈ ops, checkTxnOp o = .ok ()) ∧
      payload = beBytes 2 ops.length ++ ops.flatMap encodeTxnOp := by
  unfold encodeTxnPayload
  split_ifs with hl
  · simp only [false_iff]
    omega
  rw [← List.forM_eq_ok]
  cases hc : ops.forM checkTxnOp with
  | error e => simp [bind, Except.bind]
  | ok u =>
    simp only [bind, Except.bind, pure, Except.pure, Except.ok.injEq, not_lt.mp hl, true_and]
    exact eq_comm

theorem decodeTxnPayload_encodeTxnPayload
    (h : encodeTxnPayload ops = .ok payload) : decodeTxnPayload payload = .ok ops := by
  obtain ⟨hl, hc, rfl⟩ := encodeTxnPayload_ok_iff.mp h
  have hb : ∀ o ∈ ops, o.key.length ≤ 0xFFFF ∧ o.value.length ≤ 0xFFFF := fun o ho => by
    obtain ⟨-, hk, hv, -⟩ := checkTxnOp_ok_iff.mp (hc o ho)
    exact ⟨hk, hv⟩
  have hd := decodeTxnOps_flatMap hb 0 []
  rw [List.append_nil] at hd
  rw [decodeTxnPayload, readNat_beBytes_append (by omega)]
  simp only [hd, ne_eq, not_true, if_false]

/-- What is read off the front is the encoding of what was read: two lengths of two bytes each leave
no choice. -/
theorem decodeTxnOp_eq_ok {i : Nat} {b : Bytes} (h : decodeTxnOp i b = .ok (o, rest)) :
    b = encodeTxnOp o ++ rest ∧ o.key.length ≤ 0xFFFF ∧ o.value.length ≤ 0xFFFF := by
  unfold decodeTxnOp at h
  split at h
  · next op hi lo tail =>
    rcases hk : readBytes (beNat [hi, lo]) tail with _ | ⟨key, tail'⟩ <;> simp only [hk] at h
    · cases h
    rcases hn : readNat 2 tail' with _ | ⟨valueLen, tail''⟩ <;> simp only [hn] at h
    · cases h
    rcases hv : readBytes valueLen tail'' with _ | ⟨value, last⟩ <;> simp only [hv] at h
    · cases h
    cases h
    obtain ⟨hkey, rfl⟩ := readBytes_eq_some hk
    obtain ⟨hlt, rfl⟩ := readNat_eq_some hn
    obtain ⟨rfl, rfl⟩ := readBytes_eq_some hv
    have hlen : beNat [hi, lo] < 256 ^ 2 := beNat_lt [hi, lo]
    have hbytes : beBytes 2 key.length = [hi, lo] := by
      rw [hkey]
      exact beBytes_beNat [hi, lo]
    refine ⟨?_, by dsimp only; omega, by dsimp only; omega⟩
    simp only [encodeTxnOp, hbytes, List.cons_append, List.nil_append, List.append_assoc]
  · cases h

theorem decodeTxnOps_eq_ok {n i : Nat} {b : Bytes}
    (h : decodeTxnOps n i b = .ok (ops, rest)) :
    ops.length = n ∧ b = ops.flatMap encodeTxnOp ++ rest ∧
      ∀ o ∈ ops, o.key.length ≤ 0xFFFF ∧ o.value.length ≤ 0xFFFF := by
  induction n generalizing i b ops with
  | zero =>
    cases h
    exact ⟨rfl, rfl, fun _ ho => absurd ho List.not_mem_nil⟩
  | succ n ih =>
    rw [decodeTxnOps] at h
    rcases ho : decodeTxnOp i b with e | ⟨o, b'⟩ <;> simp only [ho] at h
    · cases h
    rcases hops : decodeTxnOps n (i + 1) b' with e | ⟨ops', b''⟩ <;> simp only [hops] at h
    · cases h
    cases h
    obtain ⟨rfl, rfl, hfits⟩ := ih hops
    obtain ⟨rfl, hfit⟩ := decodeTxnOp_eq_ok ho
    exact ⟨rfl, by
      rw [List.flatMap_cons, List.append_assoc], List.forall_mem_cons.mpr ⟨hfit, hfits⟩⟩

/-- A payload that is accepted has no choice but to be what `encodeTxnPayload` would have written.
What it may hold all the same are kinds and empty keys that `encodeTxnPayload` refuses. -/
theorem decodeTxnPayload_eq_ok (h : decodeTxnPayload payload = .ok ops) :
    ops.length ≤ 0xFFFF ∧ payload = beBytes 2 ops.length ++ ops.flatMap encodeTxnOp ∧
      ∀ o ∈ ops, o.key.length ≤ 0xFFFF ∧ o.value.length ≤ 0xFFFF := by
  unfold decodeTxnPayload at h
  rcases hn : readNat 2 payload with _ | ⟨count, b⟩ <;> simp only [hn] at h
  · cases h
  rcases hops : decodeTxnOps count 0 b with e | ⟨ops', rest⟩ <;> simp only [hops] at h
  · cases h
  split_ifs at h with hrest
  cases h
  obtain ⟨hlt, rfl⟩ := readNat_eq_some hn
  obtain ⟨rfl, rfl, hfits⟩ := decodeTxnOps_eq_ok hops
  rw [not_not.mp hrest, List.append_nil]
  exact ⟨by omega, rfl, hfits⟩

/-- **Transaction payloads.** Encoding and decoding are inverse to each other, on the lists of
operations that can be encoded and on the payloads of such lists. -/
theorem txnPayload_bijective :
    (∀ (ops : List TxnOpSpec) (payload : Bytes), encodeTxnPayload ops = .ok payload →
      decodeTxnPayload payload = .ok ops) ∧
    (∀ (payload : Bytes) (ops : List TxnOpSpec), decodeTxnPayload payload = .ok ops →
      (∀ o ∈ ops, validTxnOp o.op = true ∧ o.key ≠ []) → encodeTxnPayload ops = .ok payload) := by
  refine ⟨fun ops payload h => decodeTxnPayload_encodeTxnPayload h, fun payload ops h hops => ?_⟩
  obtain ⟨hlen, hpayload, hfits⟩ := decodeTxnPayload_eq_ok h
  refine encodeTxnPayload_ok_iff.mpr ⟨hlen, fun o ho => ?_, hpayload⟩
  obtain ⟨hop, hkey⟩ := hops o ho
  exact checkTxnOp_ok_iff.mpr ⟨hkey, (hfits o ho).1, (hfits o ho).2, hop⟩

theorem txnPayload_bijective_set :
    decodeTxnPayload [0, 1, 1, 0, 1, 7, 0, 0] = .ok [⟨txnOpSet, [7], []⟩] ∧
      encodeTxnPayload [⟨txnOpSet, [7], []⟩] = .ok [0, 1, 1, 0, 1, 7, 0, 0] :=
  ⟨txnPayload_bijective.1 _ _ (by decide), txnPayload_bijective.2 _ _ (by decide) (by decide)⟩

theorem decodeCommandRequestApplyPayload_encode {authorPeerID recordValue : Bytes}
    (h : encodeCommandRequestApplyPayload authorPeerID recordValue = .ok payload) :
    decodeCommandRequestApplyPayload payload = .ok (authorPeerID, recordValue) := by
  unfold encodeCommandRequestApplyPayload at h
  split_ifs at h with hl
  cases h
  rw [decodeCommandRequestApplyPayload, readNat_beBytes_append (by omega)]
  simp only [readBytes_append]

/-- The first format has no expiry, and a command id of the marker's length would pass for the
marker. -/
theorem decodeExecInviteRecord_encode {commandID : Bytes} (hlen : commandID.length ≤ 0xFFFF)
    (inputsJSON : Bytes) {expiresAtUnix : Nat} (hlt : expiresAtUnix < 2 ^ 64)
    (hmarker : expiresAtUnix = 0 → commandID.length ≠ execInviteRecordV2Marker) :
    decodeExecInviteRecord (encodeExecInviteRecord commandID inputsJSON expiresAtUnix) =
      .ok ⟨commandID, inputsJSON, expiresAtUnix⟩ := by
  unfold encodeExecInviteRecord decodeExecInviteRecord
  split_ifs with hzero
  · rw [readNat_beBytes_append (by omega)]
    simp only [hmarker hzero, if_false, readBytes_append, hzero]
  · rw [readNat_beBytes_append (by decide)]
    simp only [if_true, readNat_beBytes_append (w := 8) hlt,
      readNat_beBytes_append (w := 2) (n := commandID.length) (by omega), readBytes_append]

theorem decodeExecInviteRecord_eq_ok {r : ExecInviteRecord}
    (h : decodeExecInviteRecord payload = .ok r) : r.commandID.length ≤ 0xFFFF ∧
      (payload = beBytes 2 r.commandID.length ++ (r.commandID ++ r.inputsJSON) ∧
          r.commandID.length ≠ execInviteRecordV2Marker ∨
        payload = beBytes 2 execInviteRecordV2Marker ++ (beBytes 8 r.expiresAtUnix ++
          (beBytes 2 r.commandID.length ++ (r.commandID ++ r.inputsJSON)))) := by
  unfold decodeExecInviteRecord at h
  rcases hn : readNat 2 payload with _ | ⟨cmdLen, rest⟩ <;> simp only [hn] at h
  · cases h
  obtain ⟨hlt, rfl⟩ := readNat_eq_some hn
  split_ifs at h with hmarker
  · rcases h8 : readNat 8 rest with _ | ⟨e, rest'⟩ <;> simp only [h8] at h
    · cases h
    rcases h2 : readNat 2 rest' with _ | ⟨cmdLen', rest''⟩ <;> simp only [h2] at h
    · cases h
    rcases hb : readBytes cmdLen' rest'' with _ | ⟨cmd, inputs⟩ <;> simp only [hb] at h
    · cases h
    cases h
    obtain ⟨-, rfl⟩ := readNat_eq_some h8
    obtain ⟨hlt', rfl⟩ := readNat_eq_some h2
    obtain ⟨rfl, rfl⟩ := readBytes_eq_some hb
    rw [hmarker]
    exact ⟨by dsimp only; omega, .inr rfl⟩
  · rcases hb : readBytes cmdLen rest with _ | ⟨cmd, inputs⟩ <;> simp only [hb] at h
    · cases h
    cases h
    obtain ⟨rfl, rfl⟩ := readBytes_eq_some hb
    exact ⟨by dsimp only; omega, .inl ⟨rfl, hmarker⟩⟩

/-- Nothing else is read back as written: a length of more than two bytes is cut off, and what
passes for the marker is read in the other format, which takes ten bytes more. -/
theorem decodeExecInviteRecord_encode_iff (commandID inputsJSON : Bytes) {expiresAtUnix : Nat}
    (hlt : expiresAtUnix < 2 ^ 64) :
    decodeExecInviteRecord (encodeExecInviteRecord commandID inputsJSON expiresAtUnix) =
        .ok ⟨commandID, inputsJSON, expiresAtUnix⟩ ↔
      commandID.length ≤ 0xFFFF ∧
        (expiresAtUnix = 0 → commandID.length ≠ execInviteRecordV2Marker) := by
  refine ⟨fun h => ?_, fun h => decodeExecInviteRecord_encode h.1 inputsJSON hlt h.2⟩
  obtain ⟨hlen, ⟨-, hmarker⟩ | hpayload⟩ := decodeExecInviteRecord_eq_ok h
  · exact ⟨hlen, fun _ => hmarker⟩
  · refine ⟨hlen, fun hzero => absurd (congrArg List.length hpayload) ?_⟩
    rw [encodeExecInviteRecord, if_pos hzero]
    simp only [List.length_append, length_beBytes]
    omega

/-- A length that is cut off names a beginning of the command id, and the rest of it is
taken for inputs. -/
theorem decodeExecInviteRecord_encode_append {c : Bytes} (hc : c.length < execInviteRecordV2Marker)
    (hrest : rest.length % 2 ^ 16 = 0) (inputsJSON : Bytes) :
    decodeExecInviteRecord (encodeExecInviteRecord (c ++ rest) inputsJSON 0) =
      .ok ⟨c, rest ++ inputsJSON, 0⟩ := by
  have hbytes : beBytes 2 (c ++ rest).length = beBytes 2 c.length := by
    refine beNat_inj (by simp) ?_
    rw [beNat_beBytes_mod, beNat_beBytes_mod, List.length_append]
    omega
  have hle : c.length ≤ 0xFFFF := hc.le
  have hshort :=
    @decodeExecInviteRecord_encode c hle (rest ++ inputsJSON) 0 (by decide) fun _ => hc.ne
  rw [encodeExecInviteRecord, if_pos rfl] at hshort ⊢
  rwa [hbytes, List.append_assoc]

end KvRaft.Shmevent
