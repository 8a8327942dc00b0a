import KvRaft.Kvfsm.Plan
import KvRaft.Lib.Effect

/-! # Failing statements

`FSM.Apply` again, one SQL statement at a time, over a database on which any statement may fail. A
statement that fails has done nothing, and a transaction that is not committed leaves the store as
it was; nothing else is assumed of SQLite. Where `Apply` of the other modules decides and then
writes, here every read and every write is an exit of its own. -/

namespace KvRaft.Kvfsm

open Bytes Shmevent

/-- The database, and for each of the statements to come the text of its failure, if it fails. Past
the end of the list nothing fails. -/
structure Sqlite where
  store : Store
  faults : List (Option Bytes)

abbrev Sql := EStateM Err Sqlite

namespace Sql

/-! ## Statements (`pkg/store`) -/

/-- One statement: it fails, or runs as a whole. -/
def statement {α : Type} (f : Store → α × Store) : Sql α := fun db =>
  match db.faults with
  | some text :: faults => .error (.lib text) { db with faults }
  | _ => .ok (f db.store).1 ⟨(f db.store).2, db.faults.tail⟩

/-- A record that is not there is no failure here; the callers tell the two apart. -/
def get (key : Bytes) : Sql (Option Bytes) := statement fun s => (s.get key, s)

def set (key value : Bytes) : Sql Unit := statement fun s => ((), s.set key value)

def delete (key : Bytes) : Sql Unit := statement fun s => ((), s.delete key)

def countPrefix (p : Bytes) : Sql Nat := statement fun s => (s.countPrefix p, s)

def scanRange (start stop : Bytes) (limit : Nat) : Sql (List (Bytes × Bytes)) :=
  statement fun s => (s.scanRange start stop limit, s)

def scanPrefix (p : Bytes) (limit : Nat) : Sql (List (Bytes × Bytes)) :=
  statement fun s => (s.scanPrefix p limit, s)

/-- `BEGIN` and `COMMIT`, which do not change what the connection sees. -/
def mark : Sql Unit := statement fun s => ((), s)

/-- `WithTx`. An error of `fn` or of the commit rolls everything back. -/
def withTx (fn : Sql Unit) : Sql Unit := fun db =>
  match (do mark; fn; mark : Sql Unit) db with
  | .ok _ db' => .ok () db'
  | .error e db' => .error e { db' with store := db.store }

def get! (key : Bytes) : Sql Bytes := do
  match ← get key with
  | some v => return v
  | none => throw .notFound

/-! ## Checks (`fsm_acl.go`) -/

def checkSystemListCap (key : Bytes) : Sql Unit :=
  match systemKind key with
  | none => pure ()
  | some kind => do
    match ← get key with
    | some _ => pure ()
    | none => do
      let list := key.take systemKeyPrefixLen
      if (← countPrefix list) ≥ systemListLimit kind then
        throw (.listAtCapacity list (systemListLimit kind))
      else pure ()

def checkGroupNameUnique (key value : Bytes) : Sql Unit :=
  if systemKind key ≠ some kindGroup then pure ()
  else do
    let (name, _) ← ofExcept (decodeGroupPayload value)
    let ms ← scanRange groupKeyBounds.1 groupKeyBounds.2 0
    ofExcept (findGroupName key name ms)

/-- The value to store, given the record that is there. -/
def mergeCommandSpec (value existing : Bytes) : Except Err Bytes :=
  match decodeCommandPayloadSpec existing with
  | .error _ => .ok value
  | .ok (oldSpec, _) =>
    if oldSpec = [] then .ok value
    else
      match decodeCommandPayload value with
      | .error e => .error (.wrap .commandSpecDecodeIncoming e)
      | .ok (name, peerID) =>
        (encodeCommandPayloadWithSpec name peerID oldSpec).mapError (.wrap .commandSpecReencode)

def preserveCommandSpec (key value : Bytes) : Sql Bytes :=
  if systemKind key ≠ some kindCommand then pure value
  else do
    let (_, isPresent) ← ofExcept ((decodeCommandPayloadSpec value).mapError (.wrap .commandSpec))
    if isPresent then return value
    else
      match ← (get key).adaptExcept (.wrap .commandSpecReadExisting) with
      | none => return value
      | some existing => ofExcept (mergeCommandSpec value existing)

def isPublicRecord : Option Bytes → Bool
  | none => false
  | some value =>
    match decodeGroupPayload value with
    | .error _ => false
    | .ok (_, isPublic) => isPublic

/-- The two lookups of the loop take a failure for a record that is not there. -/
def anyGroupPermits (peerID : Bytes) : List (Bytes × Bytes) → Sql Bool
  | [] => return false
  | m :: ms => do
    let (_, groupID) ← ofExcept (parseGroupCommandKey m.1)
    if isPublicRecord (← (get (groupKey groupID)).attempt).join then return true
    else do
      let k ← ofExcept (peerGroupKey peerID groupID)
      if (← (get k).attempt).join.isSome then return true else anyGroupPermits peerID ms

def isPermittedForCommand (commandID peerID : Bytes) : Sql Bool := do
  let p ← ofExcept (groupCommandKey commandID [])
  anyGroupPermits peerID (← scanPrefix p 0)

def grantChannelRelayAccess (peerID : Bytes) : Sql Unit := do
  let channel ← ofExcept (peerGroupKey peerID reservedGroupChannel)
  set channel []
  let relay ← ofExcept (peerGroupKey peerID reservedGroupRelay)
  set relay []

/-! ## Cascades (`fsm_cascade.go`) -/

def deleteMatching (parse : Bytes → Except Err (Bytes × Bytes)) (groupID : Bytes) :
    List (Bytes × Bytes) → Sql Unit
  | [] => pure ()
  | m :: ms => do
    let (_, g) ← ofExcept (parse m.1)
    if g = groupID then do
      delete m.1
      deleteMatching parse groupID ms
    else deleteMatching parse groupID ms

def deleteRelationsByGroupID (p groupID : Bytes) (parse : Bytes → Except Err (Bytes × Bytes)) :
    Sql Unit := do
  deleteMatching parse groupID (← scanPrefix p 0)

def applyCascadeDelete (key : Bytes) : Sql Unit :=
  match systemKind key with
  | none => throw .cascadeNotSystemKey
  | some kind =>
    let id := key.drop systemKeyPrefixLen
    if kind = kindCommand then do
      let p ← ofExcept (groupCommandKey id [])
      let ms ← scanPrefix p 0
      ms.forM fun m => delete m.1
      delete key
    else if kind = kindGroup then do
      deleteRelationsByGroupID allGroupCommandsPrefix id parseGroupCommandKey
      deleteRelationsByGroupID allPeerGroupsPrefix id parsePeerGroupKey
      delete key
    else throw (.cascadeUnsupportedKind kind)

/-! ## Transactions -/

def compareWith (i : Nat) (o : TxnOpSpec) (current : Option Bytes) : Except Err Unit :=
  if o.op = txnOpCompareAbsent then
    match current with
    | some _ => .error (.compareFailed i o.key .keyExists)
    | none => .ok ()
  else if o.op = txnOpCompare then
    match current with
    | none => .error (.compareFailed i o.key .keyMissing)
    | some current =>
      if current ≠ o.value then .error (.compareFailed i o.key .differentValue) else .ok ()
  else .ok ()

def checkTxnCompares : Nat → List TxnOpSpec → Sql Unit
  | _, [] => pure ()
  | i, o :: ops =>
    if !o.isCompare then checkTxnCompares (i + 1) ops
    else do
      let current ← (get o.key).adaptExcept (.wrap (.txnRead i o.key))
      ofExcept (compareWith i o current)
      checkTxnCompares (i + 1) ops

def runTxnOp (o : TxnOpSpec) : Sql PUnit :=
  if o.isCompare then pure ⟨⟩
  else if o.op = txnOpSet then (set o.key o.value).adaptExcept (.wrap (.txnOp o.key))
  else (delete o.key).adaptExcept (.wrap (.txnOp o.key))

/-! ## Apply (`fsm.go`)

What an entry returns is the `Value` of its result; its `Err` is a failure. -/

def applySet (key value : Bytes) : Sql Unit := do
  checkSystemListCap key
  checkGroupNameUnique key value
  let value ← preserveCommandSpec key value
  set key value

def applyConfirm (key value : Bytes) : Sql Unit := do
  let v ← (get! key).adaptExcept (.wrap .confirmNoPending)
  checkSystemListCap value
  withTx do
    set value v
    delete key

def applyConsumeInvite (key : Bytes) : Sql Bytes := do
  let v ← (get! key).adaptExcept (.wrap .consumeInviteNoSuch)
  delete key
  return v

def redeemExecInvite (key value v : Bytes) (r : ExecInviteRecord) : Sql Bytes := do
  if ← (isPermittedForCommand r.commandID value).adaptExcept (.wrap .consumeExecInviteAcl) then do
    delete key
    return v
  else throw (.execInviteNotPermitted value r.commandID)

def applyConsumeExecInvite (appendedAt : Int) (key value : Bytes) : Sql Bytes := do
  let v ← (get! key).adaptExcept (.wrap .consumeExecInviteNoSuch)
  let r ← ofExcept ((decodeExecInviteRecord v).mapError (.wrap .consumeExecInviteDecode))
  if expired r appendedAt then do
    delete key
    throw .execInviteExpired
  else redeemExecInvite key value v r

def applyAppendCommandRequest (key value : Bytes) : Sql Unit := do
  let (authorPeerID, recordValue) ←
    ofExcept ((decodeCommandRequestApplyPayload value).mapError (.wrap .appendRequestDecode))
  let k ← ofExcept ((Logrecord.parseKey key).mapError (.wrap .appendRequestParseKey))
  match parseCommandRequestLogKind k.kind with
  | none => throw (.notCommandRequestKind k.kind)
  | some commandID => do
    if ← (isPermittedForCommand commandID authorPeerID).adaptExcept
        (.wrap .appendRequestAcl) then do
      checkSystemListCap key
      withTx do
        set key recordValue
        if commandID = defaultPublicCommandID then
          (grantChannelRelayAccess authorPeerID).adaptExcept
            (.wrap (.grantChannelRelay authorPeerID))
        else pure ()
    else throw (.requestNotPermitted authorPeerID commandID)

def applyTxn (value : Bytes) : Sql Unit := do
  let ops ← ofExcept ((decodeTxnPayload value).mapError (.wrap .txnDecode))
  ofExcept (checkTxnKinds 0 ops)
  checkTxnCompares 0 ops
  withTx (ops.forM runTxnOp)

def applyCommand (appendedAt : Int) : Command → Sql Bytes
  | ⟨.set, key, value⟩ => do applySet key value; return []
  | ⟨.del, key, _⟩ => do delete key; return []
  | ⟨.confirm, key, value⟩ => do applyConfirm key value; return []
  | ⟨.cascadeDelete, key, _⟩ => do withTx (applyCascadeDelete key); return []
  | ⟨.consumeInvite, key, _⟩ => applyConsumeInvite key
  | ⟨.consumeExecInvite, key, value⟩ => applyConsumeExecInvite appendedAt key value
  | ⟨.appendCommandRequest, key, value⟩ => do applyAppendCommandRequest key value; return []
  | ⟨.txn, _, value⟩ => do applyTxn value; return []
  | ⟨.unknown op _, _, _⟩ => throw (.unknownOp op)

def apply (l : Log) : Sql Bytes := do
  let c ← ofExcept (decodeCommand l.data)
  applyCommand l.appendedAt c

end Sql

/-- The result that an entry's program leaves, and the database afterwards. -/
def applyResult : EStateM.Result Err Sqlite Bytes → ApplyResult × Sqlite
  | .ok value db => ({ value }, db)
  | .error e db => ({ err := some e }, db)

/-- `FSM.Apply` over a database that may fail. -/
def applyOn (db : Sqlite) (l : Log) : ApplyResult × Sqlite := applyResult (Sql.apply l db)

/-! ## Without failing statements -/

namespace Sql

/-- How a program ends that returns `r` and leaves the store as it is. -/
def answer {α : Type} (r : Except Err α) (s : Store) : EStateM.Result Err Sqlite α :=
  match r with
  | .ok a => .ok a ⟨s, []⟩
  | .error e => .error e ⟨s, []⟩

theorem run_ofExcept {α : Type} (r : Except Err α) (s : Store) :
    (ofExcept r : Sql α) ⟨s, []⟩ = answer r s := by
  cases r <;> rfl

theorem run_adaptExcept {α : Type} {f : Sql α} {r : Except Err α} {s : Store}
    (h : f ⟨s, []⟩ = answer r s) (g : Err → Err) :
    f.adaptExcept g ⟨s, []⟩ = answer (r.mapError g) s := by
  simp only [EStateM.adaptExcept, h]
  cases r <;> rfl

/-- How a program ends whose first step returns `r`. -/
def proceed {α β : Type} (s : Store) (g : α → Sql β) : Except Err α → EStateM.Result Err Sqlite β
  | .ok a => g a ⟨s, []⟩
  | .error e => .error e ⟨s, []⟩

theorem run_bind {α β : Type} {f : Sql α} {r : Except Err α} {s : Store}
    (h : f ⟨s, []⟩ = answer r s) (g : α → Sql β) : (f >>= g) ⟨s, []⟩ = proceed s g r := by
  cases r with
  | ok a => exact EStateM.run_bind_of_ok h g
  | error e => exact EStateM.run_bind_of_error h g

theorem run_checkSystemListCap (s : Store) (key : Bytes) :
    checkSystemListCap key ⟨s, []⟩ = answer (Kvfsm.checkSystemListCap s key) s := by
  unfold checkSystemListCap Kvfsm.checkSystemListCap
  rcases systemKind key with _ | kind
  · rfl
  dsimp only
  have hget : get key ⟨s, []⟩ = answer (.ok (s.get key)) s := rfl
  rw [run_bind hget]
  rcases s.get key with _ | v
  · have hcount : countPrefix (key.take systemKeyPrefixLen) ⟨s, []⟩ =
        answer (.ok (s.countPrefix (key.take systemKeyPrefixLen))) s := rfl
    dsimp only [proceed]
    rw [run_bind hcount]
    simp only [proceed, Option.isSome_none, Bool.false_eq_true, if_false]
    split_ifs <;> rfl
  · rfl

theorem run_checkGroupNameUnique (s : Store) (key value : Bytes) :
    checkGroupNameUnique key value ⟨s, []⟩ = answer (Kvfsm.checkGroupNameUnique s key value) s := by
  unfold checkGroupNameUnique Kvfsm.checkGroupNameUnique
  split_ifs with hkind
  · rfl
  rw [run_bind (run_ofExcept _ s)]
  rcases decodeGroupPayload value with e | ⟨name, isPublic⟩
  · rfl
  have hscan : scanRange groupKeyBounds.1 groupKeyBounds.2 0 ⟨s, []⟩ =
      answer (.ok (s.scanRange groupKeyBounds.1 groupKeyBounds.2 0)) s := rfl
  dsimp only [proceed]
  rw [run_bind hscan]
  exact run_ofExcept _ s

theorem run_preserveCommandSpec (s : Store) (key value : Bytes) :
    preserveCommandSpec key value ⟨s, []⟩ = answer (Kvfsm.preserveCommandSpec s key value) s := by
  unfold preserveCommandSpec Kvfsm.preserveCommandSpec
  split_ifs with hkind
  · rfl
  rw [run_bind (run_ofExcept _ s)]
  rcases decodeCommandPayloadSpec value with e | ⟨spec, isPresent⟩
  · rfl
  cases isPresent with
  | true => rfl
  | false =>
    have hget : (get key).adaptExcept (.wrap .commandSpecReadExisting) ⟨s, []⟩ =
        answer (.ok (s.get key)) s := rfl
    simp only [proceed, Except.mapError, Bool.false_eq_true, if_false]
    rw [run_bind hget]
    rcases s.get key with _ | existing
    · rfl
    · exact run_ofExcept _ s

theorem run_anyGroupPermits (s : Store) (peerID : Bytes) (ms : List (Bytes × Bytes)) :
    anyGroupPermits peerID ms ⟨s, []⟩ = answer (Kvfsm.anyGroupPermits s peerID ms) s := by
  induction ms with
  | nil => rfl
  | cons m ms ih =>
    rw [anyGroupPermits, Kvfsm.anyGroupPermits, run_bind (run_ofExcept _ s)]
    rcases parseGroupCommandKey m.1 with e | ⟨i, groupID⟩
    · rfl
    have hgroup : (get (groupKey groupID)).attempt ⟨s, []⟩ =
        answer (.ok (some (s.get (groupKey groupID)))) s := rfl
    have hpublic :
        isPublicRecord (some (s.get (groupKey groupID))).join = isPublicGroup s groupID := by
      unfold isPublicGroup
      cases s.get (groupKey groupID) <;> rfl
    dsimp only [proceed]
    rw [run_bind hgroup]
    dsimp only [proceed]
    rw [hpublic]
    split_ifs with hp
    · rfl
    rw [run_bind (run_ofExcept _ s)]
    rcases peerGroupKey peerID groupID with e | k
    · rfl
    have hmember : (get k).attempt ⟨s, []⟩ = answer (.ok (some (s.get k))) s := rfl
    dsimp only [proceed]
    rw [run_bind hmember]
    simp only [proceed, Option.join_some]
    split_ifs with hm
    · rfl
    · exact ih

theorem run_isPermittedForCommand (s : Store) (commandID peerID : Bytes) :
    isPermittedForCommand commandID peerID ⟨s, []⟩ =
      answer (Kvfsm.isPermittedForCommand s commandID peerID) s := by
  unfold isPermittedForCommand Kvfsm.isPermittedForCommand
  rw [run_bind (run_ofExcept _ s)]
  rcases groupCommandKey commandID [] with e | p
  · rfl
  have hscan : scanPrefix p 0 ⟨s, []⟩ = answer (.ok (s.scanPrefix p 0)) s := rfl
  dsimp only [proceed]
  rw [run_bind hscan]
  exact run_anyGroupPermits s peerID _

theorem run_get! (s : Store) (key : Bytes) : get! key ⟨s, []⟩ = answer (s.get! key) s := by
  have hget : get key ⟨s, []⟩ = answer (.ok (s.get key)) s := rfl
  unfold get! Store.get!
  rw [run_bind hget]
  cases s.get key <;> rfl

/-- The program turns the store `s` into the result, or fails with its error. -/
def Does (fn : Sql Unit) (s : Store) : Except Err Store → Prop
  | .ok s' => fn ⟨s, []⟩ = .ok () ⟨s', []⟩
  | .error e => ∃ s', fn ⟨s, []⟩ = .error e ⟨s', []⟩

theorem Does.bind {f g : Sql Unit} {s : Store} {r : Except Err Store} {k : Store → Except Err Store}
    (hf : Does f s r) (hg : ∀ s', Does g s' (k s')) : Does (do f; g) s (r >>= k) := by
  rcases r with e | s'
  · obtain ⟨s', hs'⟩ := hf
    exact ⟨s', EStateM.run_bind_of_error hs' _⟩
  · have hrun : (do f; g : Sql Unit) ⟨s, []⟩ = g ⟨s', []⟩ := EStateM.run_bind_of_ok hf _
    have hnext := hg s'
    change Does (do f; g) s (k s')
    rcases hk : k s' with e | s'' <;> rw [hk] at hnext
    · obtain ⟨t, ht⟩ := hnext
      exact ⟨t, hrun.trans ht⟩
    · exact hrun.trans hnext

theorem does_ofExcept_bind {α : Type} {x : Except Err α} {g : α → Sql Unit} {s : Store}
    {k : α → Except Err Store} (hg : ∀ a, Does (g a) s (k a)) :
    Does (do let a ← ofExcept x; g a) s (x >>= k) := by
  rcases x with e | a
  · exact ⟨s, rfl⟩
  · exact hg a

theorem does_delete (s : Store) (key : Bytes) : Does (delete key) s (.ok (s.delete key)) := rfl

theorem does_set (s : Store) (key value : Bytes) :
    Does (set key value) s (.ok (s.set key value)) := rfl

theorem Does.adaptExcept {f : Sql Unit} {s : Store} {r : Except Err Store} (hf : Does f s r)
    (g : Err → Err) : Does (f.adaptExcept g) s (r.mapError g) := by
  rcases r with e | s'
  · obtain ⟨s', hs'⟩ := hf
    refine ⟨s', ?_⟩
    simp only [EStateM.adaptExcept, hs']
  · have hf : f ⟨s, []⟩ = .ok () ⟨s', []⟩ := hf
    change f.adaptExcept g ⟨s, []⟩ = .ok () ⟨s', []⟩
    simp only [EStateM.adaptExcept, hf]

/-- A transaction is committed, or leaves nothing. -/
theorem applyResult_withTx {fn : Sql Unit} {s : Store} {f : Store → Except Err Store}
    (h : Does fn s (f s)) :
    applyResult ((do withTx fn; return [] : Sql Bytes) ⟨s, []⟩) =
      ((committed s f).1, ⟨(committed s f).2, []⟩) := by
  have hbegin : (do mark; fn; mark : Sql Unit) ⟨s, []⟩ = (do fn; mark : Sql Unit) ⟨s, []⟩ := rfl
  unfold committed Store.withTx
  rcases hf : f s with e | s'
  · rw [hf] at h
    obtain ⟨t, ht⟩ := h
    have htx : withTx fn ⟨s, []⟩ = .error e ⟨s, []⟩ := by
      simp only [withTx, hbegin, EStateM.run_bind_of_error ht]
    rw [EStateM.run_bind_of_error htx]
    rfl
  · rw [hf] at h
    have hcommit : (do fn; mark : Sql Unit) ⟨s, []⟩ = mark ⟨s', []⟩ := EStateM.run_bind_of_ok h _
    have htx : withTx fn ⟨s, []⟩ = .ok () ⟨s', []⟩ := by
      simp only [withTx, hbegin, hcommit]
      rfl
    rw [EStateM.run_bind_of_ok htx]
    rfl

theorem does_deleteMatching (parse : Bytes → Except Err (Bytes × Bytes)) (groupID : Bytes)
    (ms : List (Bytes × Bytes)) (s : Store) :
    Does (deleteMatching parse groupID ms) s (Kvfsm.deleteMatching parse groupID s ms) := by
  induction ms generalizing s with
  | nil => rfl
  | cons m ms ih =>
    rw [deleteMatching, Kvfsm.deleteMatching]
    rcases parse m.1 with e | ⟨i, g⟩
    · exact ⟨s, rfl⟩
    change Does (if g = groupID then _ else _) s _
    dsimp only
    split_ifs with hg
    · exact (does_delete s m.1).bind fun s' => ih s'
    · exact ih s

theorem does_deleteRelationsByGroupID (p groupID : Bytes)
    (parse : Bytes → Except Err (Bytes × Bytes)) (s : Store) :
    Does (deleteRelationsByGroupID p groupID parse) s
      (Kvfsm.deleteRelationsByGroupID s p groupID parse) := by
  have h := does_deleteMatching parse groupID (s.scanPrefix p 0) s
  exact h

theorem does_forM_delete (ms : List (Bytes × Bytes)) (s : Store) :
    Does (ms.forM fun m => delete m.1) s (.ok (ms.foldl (fun t m => t.delete m.1) s)) := by
  induction ms generalizing s with
  | nil => rfl
  | cons m ms ih => exact (does_delete s m.1).bind fun s' => ih s'

theorem does_applyCascadeDelete (s : Store) (key : Bytes) :
    Does (applyCascadeDelete key) s (Kvfsm.applyCascadeDelete s key) := by
  unfold applyCascadeDelete Kvfsm.applyCascadeDelete
  rcases systemKind key with _ | kind
  · exact ⟨s, rfl⟩
  dsimp only
  split_ifs with hcommand hgroup
  · refine does_ofExcept_bind fun p => ?_
    have hdel := (does_forM_delete (s.scanPrefix p 0) s).bind fun s' => does_delete s' key
    exact hdel
  · refine (does_deleteRelationsByGroupID _ _ _ s).bind fun s₁ => ?_
    refine (does_deleteRelationsByGroupID _ _ _ s₁).bind fun s₂ => ?_
    exact does_delete s₂ key
  · exact ⟨s, rfl⟩

theorem does_grantChannelRelayAccess (s : Store) (peerID : Bytes) :
    Does (grantChannelRelayAccess peerID) s (Kvfsm.grantChannelRelayAccess s peerID) := by
  unfold grantChannelRelayAccess Kvfsm.grantChannelRelayAccess
  refine does_ofExcept_bind fun channel => ?_
  -- the source writes the first record before it builds the second key
  rcases peerGroupKey peerID reservedGroupRelay with e | relay
  · exact ⟨s.set channel [], rfl⟩
  · exact (does_set s channel []).bind fun s' => does_set s' relay []

theorem does_forM_runTxnOp (ops : List TxnOpSpec) (s : Store) :
    Does (ops.forM runTxnOp) s (.ok (ops.foldl Kvfsm.runTxnOp s)) := by
  induction ops generalizing s with
  | nil => rfl
  | cons o ops ih =>
    have hop : Does (runTxnOp o) s (.ok (Kvfsm.runTxnOp s o)) := by
      unfold runTxnOp Kvfsm.runTxnOp
      split_ifs
      · rfl
      · exact (does_set s o.key o.value).adaptExcept _
      · exact (does_delete s o.key).adaptExcept _
    exact hop.bind fun s' => ih s'

theorem run_checkTxnCompares (s : Store) (i : Nat) (ops : List TxnOpSpec) :
    checkTxnCompares i ops ⟨s, []⟩ = answer (Kvfsm.checkTxnCompares s i ops) s := by
  induction ops generalizing i with
  | nil => rfl
  | cons o ops ih =>
    rw [checkTxnCompares, Kvfsm.checkTxnCompares]
    split_ifs with hcmp
    · exact ih (i + 1)
    have hget : (get o.key).adaptExcept (.wrap (.txnRead i o.key)) ⟨s, []⟩ =
        answer (.ok (s.get o.key)) s := rfl
    have hcheck : compareWith i o (s.get o.key) = checkCompare s i o := by
      unfold compareWith checkCompare
      rfl
    rw [run_bind hget]
    dsimp only [proceed]
    rw [hcheck, run_bind (run_ofExcept _ s)]
    rcases checkCompare s i o with e | _
    · rfl
    · exact ih (i + 1)

/-! ### Entries -/

section Entries

variable (s : Store) (key value : Bytes)

theorem applyResult_applySet :
    applyResult ((do applySet key value; return [] : Sql Bytes) ⟨s, []⟩) =
      ((Kvfsm.applySet s key value).1, ⟨(Kvfsm.applySet s key value).2, []⟩) := by
  unfold applySet Kvfsm.applySet
  simp only [bind_assoc]
  rw [run_bind (run_checkSystemListCap s key)]
  rcases Kvfsm.checkSystemListCap s key with e | _
  · rfl
  dsimp only [proceed]
  rw [run_bind (run_checkGroupNameUnique s key value)]
  rcases Kvfsm.checkGroupNameUnique s key value with e | _
  · rfl
  dsimp only [proceed]
  rw [run_bind (run_preserveCommandSpec s key value)]
  rcases Kvfsm.preserveCommandSpec s key value with e | v <;> rfl

theorem applyResult_applyConfirm :
    applyResult ((do applyConfirm key value; return [] : Sql Bytes) ⟨s, []⟩) =
      ((Kvfsm.applyConfirm s key value).1, ⟨(Kvfsm.applyConfirm s key value).2, []⟩) := by
  unfold applyConfirm Kvfsm.applyConfirm
  simp only [bind_assoc]
  rw [run_bind (run_adaptExcept (run_get! s key) _)]
  rcases s.get! key with e | v
  · rfl
  dsimp only [proceed, Except.mapError]
  rw [run_bind (run_checkSystemListCap s value)]
  rcases Kvfsm.checkSystemListCap s value with e | _
  · rfl
  have hdoes : Does (do set value v; delete key) s (.ok ((s.set value v).delete key)) :=
    (does_set s value v).bind fun s' => does_delete s' key
  exact applyResult_withTx (f := fun tx => .ok ((tx.set value v).delete key)) hdoes

theorem applyResult_applyConsumeInvite :
    applyResult (applyConsumeInvite key ⟨s, []⟩) =
      ((Kvfsm.applyConsumeInvite s key).1, ⟨(Kvfsm.applyConsumeInvite s key).2, []⟩) := by
  unfold applyConsumeInvite Kvfsm.applyConsumeInvite
  rw [run_bind (run_adaptExcept (run_get! s key) _)]
  rcases s.get! key with e | v <;> rfl

theorem applyResult_applyConsumeExecInvite (appendedAt : Int) :
    applyResult (applyConsumeExecInvite appendedAt key value ⟨s, []⟩) =
      ((Kvfsm.applyConsumeExecInvite s appendedAt key value).1,
        ⟨(Kvfsm.applyConsumeExecInvite s appendedAt key value).2, []⟩) := by
  unfold applyConsumeExecInvite Kvfsm.applyConsumeExecInvite
  rw [run_bind (run_adaptExcept (run_get! s key) _)]
  rcases s.get! key with e | v
  · rfl
  dsimp only [proceed, Except.mapError]
  rw [run_bind (run_ofExcept _ s)]
  rcases decodeExecInviteRecord v with e | r
  · rfl
  dsimp only [proceed]
  split_ifs with hexp
  · rfl
  unfold redeemExecInvite
  rw [run_bind (run_adaptExcept (run_isPermittedForCommand s r.commandID value) _)]
  rcases Kvfsm.isPermittedForCommand s r.commandID value with e | b
  · rfl
  · cases b <;> rfl

theorem applyResult_applyAppendCommandRequest :
    applyResult ((do applyAppendCommandRequest key value; return [] : Sql Bytes) ⟨s, []⟩) =
      ((Kvfsm.applyAppendCommandRequest s key value).1,
        ⟨(Kvfsm.applyAppendCommandRequest s key value).2, []⟩) := by
  unfold applyAppendCommandRequest Kvfsm.applyAppendCommandRequest
  simp only [bind_assoc]
  rw [run_bind (run_ofExcept _ s)]
  rcases decodeCommandRequestApplyPayload value with e | ⟨author, record⟩
  · rfl
  dsimp only [proceed, Except.mapError]
  rw [run_bind (run_ofExcept _ s)]
  rcases Logrecord.parseKey key with e | k
  · rfl
  dsimp only [proceed]
  rcases parseCommandRequestLogKind k.kind with _ | commandID
  · rfl
  simp only [bind_assoc]
  rw [run_bind (run_adaptExcept (run_isPermittedForCommand s commandID author) _)]
  rcases Kvfsm.isPermittedForCommand s commandID author with e | b
  · rfl
  cases b with
  | false => rfl
  | true =>
    simp only [proceed, Except.mapError, if_true, bind_assoc]
    rw [run_bind (run_checkSystemListCap s key)]
    rcases Kvfsm.checkSystemListCap s key with e | _
    · rfl
    refine applyResult_withTx ?_
    split_ifs with hdef
    · exact (does_set s key record).bind fun s' =>
        (does_grantChannelRelayAccess s' author).adaptExcept _
    · exact does_set s key record

theorem applyResult_applyTxn :
    applyResult ((do applyTxn value; return [] : Sql Bytes) ⟨s, []⟩) =
      ((Kvfsm.applyTxn s value).1, ⟨(Kvfsm.applyTxn s value).2, []⟩) := by
  unfold applyTxn Kvfsm.applyTxn
  simp only [bind_assoc]
  rw [run_bind (run_ofExcept _ s)]
  rcases decodeTxnPayload value with e | ops
  · rfl
  dsimp only [proceed, Except.mapError]
  rw [run_bind (run_ofExcept _ s)]
  rcases checkTxnKinds 0 ops with e | _
  · rfl
  dsimp only [proceed]
  rw [run_bind (run_checkTxnCompares s 0 ops)]
  rcases Kvfsm.checkTxnCompares s 0 ops with e | _
  · rfl
  exact applyResult_withTx (f := fun tx => .ok (ops.foldl Kvfsm.runTxnOp tx))
    (does_forM_runTxnOp ops s)

end Entries

end Sql

/-- **Without faults** this is the state machine. -/
theorem applyOn_of_no_faults (s : Store) (l : Log) :
    applyOn ⟨s, []⟩ l = ((apply s l).1, ⟨(apply s l).2, []⟩) := by
  unfold applyOn Sql.apply apply
  rw [Sql.run_bind (Sql.run_ofExcept _ s)]
  rcases decodeCommand l.data with e | ⟨op, key, value⟩
  · rfl
  dsimp only [Sql.proceed]
  cases op with
  | set => exact Sql.applyResult_applySet s key value
  | del => rfl
  | confirm => exact Sql.applyResult_applyConfirm s key value
  | cascadeDelete => exact Sql.applyResult_withTx (Sql.does_applyCascadeDelete s key)
  | consumeInvite => exact Sql.applyResult_applyConsumeInvite s key
  | consumeExecInvite => exact Sql.applyResult_applyConsumeExecInvite s key value l.appendedAt
  | appendCommandRequest => exact Sql.applyResult_applyAppendCommandRequest s key value
  | txn => exact Sql.applyResult_applyTxn s value
  | unknown b h => rfl

/-! ## Failed entries -/

namespace Sql

open Frame

def sameStore : Frame Sqlite where
  rel a b := b.store = a.store
  refl _ := rfl
  trans h h' := h'.trans h

theorem statement_cases {α : Type} (f : Store → α × Store) (db : Sqlite) :
    (∃ text, (statement f).outcome db = .error (.lib text) ∧
      ((statement f).final db).store = db.store) ∨
    ((statement f).outcome db = .ok (f db.store).1 ∧
      ((statement f).final db).store = (f db.store).2) := by
  unfold EStateM.final EStateM.outcome statement
  rcases db.faults with _ | ⟨_ | text, faults⟩
  · exact .inr ⟨rfl, rfl⟩
  · exact .inr ⟨rfl, rfl⟩
  · exact .inl ⟨text, rfl, rfl⟩

theorem keeps_statement {α : Type} {f : Store → α × Store} (h : ∀ s, (f s).2 = s) :
    sameStore.Keeps (statement f) := by
  intro db
  rcases statement_cases f db with ⟨text, -, hs⟩ | ⟨-, hs⟩
  · exact hs
  · exact hs.trans (h db.store)

theorem keepsOnFailure_statement {α : Type} (f : Store → α × Store) :
    sameStore.KeepsOnFailure (statement f) := by
  intro db e herr
  rcases statement_cases f db with ⟨text, -, hs⟩ | ⟨hok, -⟩
  · exact hs
  · rw [hok] at herr
    cases herr

/-- A transaction that fails has changed nothing, whatever its statements were. -/
theorem keepsOnFailure_withTx (fn : Sql Unit) : sameStore.KeepsOnFailure (withTx fn) := by
  intro db e herr
  unfold EStateM.outcome withTx at herr
  unfold EStateM.final withTx
  rcases hrun : (do mark; fn; mark : Sql Unit) db with ⟨a, db'⟩ | ⟨e', db'⟩
  · rw [hrun] at herr
    cases herr
  · rfl

theorem keeps_get (key : Bytes) : sameStore.Keeps (get key) := keeps_statement fun _ => rfl

theorem keeps_get! (key : Bytes) : sameStore.Keeps (get! key) := by
  refine (keeps_get key).bind fun v => ?_
  cases v with
  | none => exact keeps_throw _
  | some v => exact keeps_pure v

theorem keepsOnFailure_set (key value : Bytes) : sameStore.KeepsOnFailure (set key value) :=
  keepsOnFailure_statement _

theorem keepsOnFailure_delete (key : Bytes) : sameStore.KeepsOnFailure (delete key) :=
  keepsOnFailure_statement _

theorem keeps_checkSystemListCap (key : Bytes) : sameStore.Keeps (checkSystemListCap key) := by
  unfold checkSystemListCap
  cases systemKind key with
  | none => exact keeps_pure _
  | some kind =>
    refine (keeps_get key).bind fun v => ?_
    cases v with
    | some v => exact keeps_pure _
    | none =>
      refine Keeps.bind (keeps_statement fun _ => rfl) fun count => ?_
      exact keeps_ite (fun _ => keeps_throw _) fun _ => keeps_pure _

theorem keeps_checkGroupNameUnique (key value : Bytes) :
    sameStore.Keeps (checkGroupNameUnique key value) := by
  refine keeps_ite (fun _ => keeps_pure _) fun _ => ?_
  refine (keeps_ofExcept _).bind fun r => ?_
  refine Keeps.bind (keeps_statement fun _ => rfl) fun ms => ?_
  exact keeps_ofExcept _

theorem keeps_preserveCommandSpec (key value : Bytes) :
    sameStore.Keeps (preserveCommandSpec key value) := by
  refine keeps_ite (fun _ => keeps_pure _) fun _ => ?_
  refine (keeps_ofExcept _).bind fun r => ?_
  refine keeps_ite (fun _ => keeps_pure _) fun _ => ?_
  refine ((keeps_get key).adaptExcept _).bind fun existing => ?_
  cases existing with
  | none => exact keeps_pure _
  | some existing => exact keeps_ofExcept _

theorem keeps_anyGroupPermits (peerID : Bytes) (ms : List (Bytes × Bytes)) :
    sameStore.Keeps (anyGroupPermits peerID ms) := by
  induction ms with
  | nil => exact keeps_pure _
  | cons m ms ih =>
    refine (keeps_ofExcept _).bind fun r => ?_
    refine (keeps_get _).attempt.bind fun groupValue => ?_
    refine keeps_ite (fun _ => keeps_pure _) fun _ => ?_
    refine (keeps_ofExcept _).bind fun k => ?_
    refine (keeps_get k).attempt.bind fun member => ?_
    exact keeps_ite (fun _ => keeps_pure _) fun _ => ih

theorem keeps_isPermittedForCommand (commandID peerID : Bytes) :
    sameStore.Keeps (isPermittedForCommand commandID peerID) := by
  refine (keeps_ofExcept _).bind fun p => ?_
  refine Keeps.bind (keeps_statement fun _ => rfl) fun ms => ?_
  exact keeps_anyGroupPermits peerID ms

theorem keeps_checkTxnCompares (i : Nat) (ops : List TxnOpSpec) :
    sameStore.Keeps (checkTxnCompares i ops) := by
  induction ops generalizing i with
  | nil => exact keeps_pure _
  | cons o ops ih =>
    refine keeps_ite (fun _ => ih (i + 1)) fun _ => ?_
    refine ((keeps_get _).adaptExcept _).bind fun current => ?_
    exact (keeps_ofExcept _).bind fun _ => ih (i + 1)

theorem keepsOnFailure_applySet (key value : Bytes) :
    sameStore.KeepsOnFailure (applySet key value) :=
  (keeps_checkSystemListCap key).bindOnFailure fun _ =>
    (keeps_checkGroupNameUnique key value).bindOnFailure fun _ =>
      (keeps_preserveCommandSpec key value).bindOnFailure fun v => keepsOnFailure_set key v

theorem keepsOnFailure_applyConfirm (key value : Bytes) :
    sameStore.KeepsOnFailure (applyConfirm key value) :=
  ((keeps_get! key).adaptExcept _).bindOnFailure fun _ =>
    (keeps_checkSystemListCap value).bindOnFailure fun _ => keepsOnFailure_withTx _

theorem keepsOnFailure_applyConsumeInvite (key : Bytes) :
    sameStore.KeepsOnFailure (applyConsumeInvite key) :=
  ((keeps_get! key).adaptExcept _).bindOnFailure fun v =>
    (keepsOnFailure_delete key).bind_pure fun _ => v

theorem keepsOnFailure_redeemExecInvite (key value v : Bytes) (r : ExecInviteRecord) :
    sameStore.KeepsOnFailure (redeemExecInvite key value v r) := by
  refine ((keeps_isPermittedForCommand r.commandID value).adaptExcept _).bindOnFailure fun b => ?_
  cases b with
  | true => exact (keepsOnFailure_delete key).bind_pure fun _ => v
  | false => exact (keeps_throw _).onFailure

theorem keepsOnFailure_applyAppendCommandRequest (key value : Bytes) :
    sameStore.KeepsOnFailure (applyAppendCommandRequest key value) := by
  refine (keeps_ofExcept _).bindOnFailure fun r => ?_
  refine (keeps_ofExcept _).bindOnFailure fun k => ?_
  cases parseCommandRequestLogKind k.kind with
  | none => exact (keeps_throw _).onFailure
  | some commandID =>
    refine ((keeps_isPermittedForCommand commandID r.1).adaptExcept _).bindOnFailure fun b => ?_
    cases b with
    | true =>
      exact (keeps_checkSystemListCap key).bindOnFailure fun _ => keepsOnFailure_withTx _
    | false => exact (keeps_throw _).onFailure

theorem keepsOnFailure_applyTxn (value : Bytes) : sameStore.KeepsOnFailure (applyTxn value) :=
  (keeps_ofExcept _).bindOnFailure fun ops => (keeps_ofExcept _).bindOnFailure fun _ =>
    (keeps_checkTxnCompares 0 ops).bindOnFailure fun _ => keepsOnFailure_withTx _

theorem get_of_outcome_get! {key v : Bytes} {db : Sqlite} {g : Err → Err}
    (h : ((get! key).adaptExcept g).outcome db = .ok v) : db.store.get key = some v := by
  rw [EStateM.outcome_adaptExcept] at h
  have hok : (get! key).outcome db = .ok v := by
    rcases ho : (get! key).outcome db with e | v' <;> rw [ho] at h
    · cases h
    · exact h
  obtain ⟨a, hget, hrest, -⟩ := EStateM.bind_of_ok hok
  have ha : db.store.get key = a := by
    rcases statement_cases (fun s => (s.get key, s)) db with ⟨text, ho, -⟩ | ⟨ho, -⟩
    · cases ho.symm.trans hget
    · exact Except.ok.inj (ho.symm.trans hget)
  rw [ha]
  rcases a with _ | v'
  · cases hrest
  · exact congrArg some (Except.ok.inj hrest)

theorem failed_applyConsumeExecInvite {appendedAt : Int} {key value : Bytes} {db : Sqlite} {e : Err}
    (h : (applyConsumeExecInvite appendedAt key value).outcome db = .error e) :
    ((applyConsumeExecInvite appendedAt key value).final db).store = db.store ∨
      ∃ v r, db.store.get key = some v ∧ decodeExecInviteRecord v = .ok r ∧
        expired r appendedAt = true ∧
        ((applyConsumeExecInvite appendedAt key value).final db).store = db.store.delete key := by
  have hkeep := (keeps_get! key).adaptExcept (Err.wrap .consumeExecInviteNoSuch) db
  unfold applyConsumeExecInvite at h ⊢
  rcases hget : ((get! key).adaptExcept (Err.wrap .consumeExecInviteNoSuch)).outcome db with e' | v
  · rw [EStateM.final_bind_of_error hget]
    exact .inl hkeep
  rw [EStateM.outcome_bind, hget] at h
  rw [EStateM.final_bind_of_ok hget]
  generalize ((get! key).adaptExcept (Err.wrap .consumeExecInviteNoSuch)).final db =
    db₁ at h hkeep ⊢
  have hstore : db₁.store = db.store := hkeep
  dsimp only at h
  rcases hdec : decodeExecInviteRecord v with e' | r
  · exact .inl hstore
  rw [hdec] at h
  change (if expired r appendedAt then _ else _ : Sql Bytes).outcome db₁ = _ at h
  change ((if expired r appendedAt then _ else _ : Sql Bytes).final db₁).store = _ ∨
    ∃ v' r', _ ∧ _ ∧ _ ∧ ((if expired r appendedAt then _ else _ : Sql Bytes).final db₁).store = _
  split_ifs at h ⊢ with hexp
  · -- the delete may fail itself
    rw [EStateM.final_bind_of_pure fun _ _ => rfl]
    rcases statement_cases (fun s => ((), s.delete key)) db₁ with ⟨text, -, hs⟩ | ⟨-, hs⟩
    · exact .inl (hs.trans hstore)
    · refine .inr ⟨v, r, get_of_outcome_get! hget, hdec, hexp, ?_⟩
      rw [← hstore]
      exact hs
  · exact .inl ((keepsOnFailure_redeemExecInvite key value v r db₁ e h).trans hstore)

theorem keepsOnFailure_applyCommand (appendedAt : Int) {c : Command}
    (h : c.op ≠ .consumeExecInvite) :
    sameStore.KeepsOnFailure (applyCommand appendedAt c) := by
  obtain ⟨op, key, value⟩ := c
  cases op with
  | set => exact (keepsOnFailure_applySet key value).bind_pure _
  | del => exact (keepsOnFailure_delete key).bind_pure _
  | confirm => exact (keepsOnFailure_applyConfirm key value).bind_pure _
  | cascadeDelete => exact (keepsOnFailure_withTx _).bind_pure _
  | consumeInvite => exact keepsOnFailure_applyConsumeInvite key
  | consumeExecInvite => exact absurd rfl h
  | appendCommandRequest => exact (keepsOnFailure_applyAppendCommandRequest key value).bind_pure _
  | txn => exact (keepsOnFailure_applyTxn value).bind_pure _
  | unknown b hb => exact (keeps_throw _).onFailure

end Sql

theorem applyOn_store (db : Sqlite) (l : Log) : (applyOn db l).2 = (Sql.apply l).final db := by
  unfold applyOn EStateM.final applyResult
  cases Sql.apply l db <;> rfl

theorem outcome_of_applyOn_err {db : Sqlite} {l : Log} (h : (applyOn db l).1.err ≠ none) :
    ∃ e, (Sql.apply l).outcome db = .error e := by
  unfold applyOn at h
  unfold EStateM.outcome
  rcases hrun : Sql.apply l db with ⟨v, db'⟩ | ⟨e, db'⟩
  · rw [hrun] at h
    exact absurd rfl h
  · exact ⟨e, rfl⟩

structure RedeemsExpired (s : Store) (l : Log) (key : Bytes) : Prop where
  decoded : ∃ peerID, decodeCommand l.data = .ok ⟨.consumeExecInvite, key, peerID⟩
  expired : ∃ v r, s.get key = some v ∧ decodeExecInviteRecord v = .ok r ∧
    Kvfsm.expired r l.appendedAt = true

/-- **A failed entry changes nothing**, on whatever store and whichever statements fail, except that
an expired invite is deleted, and nothing else then. -/
theorem applyOn_failed (db : Sqlite) (l : Log) (h : (applyOn db l).1.err ≠ none) :
    (applyOn db l).2.store = db.store ∨
      ∃ key, RedeemsExpired db.store l key ∧ (applyOn db l).2.store = db.store.delete key := by
  obtain ⟨e, herr⟩ := outcome_of_applyOn_err h
  rw [applyOn_store]
  unfold Sql.apply at herr ⊢
  rcases hdec : decodeCommand l.data with e' | c
  · exact .inl rfl
  rw [hdec] at herr
  have herr : (Sql.applyCommand l.appendedAt c).outcome db = .error e := herr
  change ((Sql.applyCommand l.appendedAt c).final db).store = _ ∨
    ∃ key, _ ∧ ((Sql.applyCommand l.appendedAt c).final db).store = _
  by_cases hop : c.op = .consumeExecInvite
  · obtain ⟨op, key, value⟩ := c
    cases hop
    rcases Sql.failed_applyConsumeExecInvite herr with hs | ⟨v, r, hget, hr, hexp, hs⟩
    · exact .inl hs
    · exact .inr ⟨key, ⟨⟨value, hdec⟩, ⟨v, r, hget, hr, hexp⟩⟩, hs⟩
  · exact .inl (Sql.keepsOnFailure_applyCommand l.appendedAt hop db e herr)

/-- An invite for the command `c` that ran out at second one, under a token of one byte. -/
def expiredInvite : Store :=
  OrdMap.empty.insert (execInviteKey [0x07]) (encodeExecInviteRecord (ascii "c") [] 1)

/-- Redeemed too late, with the read, the delete and every later statement working. -/
theorem applyOn_failed_expired :
    (applyOn ⟨expiredInvite, [none, none]⟩
        ⟨encodeCommand .consumeExecInvite (execInviteKey [0x07]) (ascii "p"), 5⟩).1.err ≠ none ∧
      ∃ key, RedeemsExpired expiredInvite
          ⟨encodeCommand .consumeExecInvite (execInviteKey [0x07]) (ascii "p"), 5⟩ key ∧
        (applyOn ⟨expiredInvite, [none, none]⟩
          ⟨encodeCommand .consumeExecInvite (execInviteKey [0x07]) (ascii "p"), 5⟩).2.store =
            expiredInvite.delete key := by
  refine ⟨by decide, ?_⟩
  rcases applyOn_failed ⟨expiredInvite, [none, none]⟩
      ⟨encodeCommand .consumeExecInvite (execInviteKey [0x07]) (ascii "p"),
        5⟩ (by decide) with h | h
  · exact absurd h (by decide)
  · exact h

end KvRaft.Kvfsm
