import KvRaft.Daemon.Members
import KvRaft.Logrecord.Key

/-! # Who may do what (`pkg/daemon/acl.go`)

The standing of a remote caller, and the reads and writes that need none. -/

namespace KvRaft.Daemon

open Bytes Shmevent Kvfsm

/-- Whose key a request's signature is checked with, and the peer a remote request comes from. -/
structure CallerIdentity where
  verifyPub : Bytes
  remotePeer : Option Bytes

def isInGroup (s : Store) (id groupID : Bytes) : Bool :=
  match peerGroupKey id groupID with
  | .error _ => false
  | .ok key => (s.get key).isSome

/-- `isAuthorizedForGatedAccessSt`: a member of the cluster, of the group asked for, or of the
node's own group. -/
def isAuthorizedForGatedAccess (s : Store) (self id groupID : Bytes) : Bool :=
  isInGroup s id reservedGroupCluster || isInGroup s id groupID || isInGroup s id self

def rejectReservedKey : Bytes → Except Err Unit
  | [] => .ok ()
  | b :: _ =>
    if b = systemKeyPrefix then .error .reservedForSystem
    else if b = Logrecord.logKeyPrefix then .error .reservedForLogrecord
    else .ok ()

/-- The kind at the beginning of a log record key, or of a bound that ends after it. -/
def logKindOfBound : Bytes → Option Bytes
  | p :: hi :: lo :: rest =>
    if p ≠ Logrecord.logKeyPrefix then none else (readBytes (beNat [hi, lo]) rest).map (·.1)
  | _ => none

def isCommandLogReadableKind (s : Store) (kind callerID : Bytes) : Bool :=
  if kind = commandExecLogKind then true
  else
    match parseCommandRequestLogKind kind with
    | some commandID =>
      match isPermittedForCommand s commandID callerID with
      | .ok permitted => permitted
      | .error _ => false
    | none =>
      match parseCommandExecIndexKind kind with
      | some peerID => peerID = callerID
      | none => false

/-- What a peer without standing may ask for: to submit a command request, whose permission the
state machine checks, and to read records of the kinds above. A range has to begin and end
in one kind. -/
def isCommandLogCarveOut (s : Store) (m : Event) (callerID : Bytes) : Bool :=
  match m with
  | .logAppend key _ =>
    match logKindOfBound key with
    | none => false
    | some kind => (parseCommandRequestLogKind kind).isSome
  | .getFieldByKey key _ =>
    match logKindOfBound key with
    | none => false
    | some kind => isCommandLogReadableKind s kind callerID
  | .listRange start stop _ _ =>
    match logKindOfBound start, logKindOfBound stop with
    | some startKind, some stopKind =>
      startKind = stopKind && isCommandLogReadableKind s startKind callerID
    | _, _ => false
  | _ => false

/-- A local caller needs no vote. -/
def requireVoter (caller : CallerIdentity) : M Unit := do
  match caller.remotePeer with
  | none => pure ()
  | some p => if isVoter (← get) p then pure () else throw (.notVoter p)

end KvRaft.Daemon
