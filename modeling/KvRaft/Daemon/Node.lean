import KvRaft.Encoding.Text
import KvRaft.Kvfsm.Plan
import KvRaft.Lib.Effect
import KvRaft.Shmevent.Event

/-! # A node, its raft and the way a write takes (`pkg/daemon`: `forward.go`, `raft_lifecycle.go`)

The state of one daemon and the programs that change it. What the daemon asks of the libraries below
it (a raft commit, a stream to another node, a key's decoding) is answered by an `Env`, which may
answer in any way. A write is applied by the leader; another node hands it to the leader it knows
and records the request in `forwarded`. -/

namespace KvRaft.Daemon

open Bytes Shmevent Kvfsm

/-! ## State -/

inductive Suffrage
  | voter
  | nonvoter
deriving DecidableEq, Repr

structure Server where
  suffrage : Suffrage
  id : Bytes
  address : Bytes
deriving DecidableEq, Repr

inductive Role
  | leader
  /-- The leader it knows of, empty if none. -/
  | follower (leaderID : Bytes)
deriving DecidableEq, Repr

structure Raft where
  servers : List Server
  role : Role
  /-- Whether a log, a vote or a snapshot exists. -/
  hasState : Bool
  /-- The leaders that this node wrote a join request to. A leader adds the node
  before it answers. -/
  joinsSent : List Bytes
  /-- A configuration is part of that state. -/
  fresh : hasState = false → servers = []
deriving DecidableEq

theorem Raft.fresh_nil : false = false → ([] : List Server) = [] := fun _ => rfl

inductive Proto
  | set
  | confirm
  | join
  | leave
  | kick
deriving DecidableEq, Repr

structure Forwarded where
  leaderID : Bytes
  proto : Proto
  request : Bytes
deriving DecidableEq, Repr

structure Node where
  peerID : Bytes
  requireConfirmForJoin : Bool
  ed25519Pub : Data
  ed25519Priv : Data
  store : Store
  /-- By message id. -/
  registry : OrdMap Nat Data
  raft : Option Raft
  /-- Sender and payload, the oldest first. -/
  executeInbox : List (Data × Data)
  joinRequestToken : Bytes
  forwarded : List Forwarded

def Node.alone (peerID : Bytes) (store : Store) : Node where
  peerID := peerID
  requireConfirmForJoin := false
  ed25519Pub := ⟨[], Data.length_nil_lt⟩
  ed25519Priv := ⟨[], Data.length_nil_lt⟩
  store := store
  registry := OrdMap.empty
  raft := some ⟨[⟨.voter, peerID, ascii "/ip4/127.0.0.1"⟩], .leader, true, [], nofun⟩
  executeInbox := []
  joinRequestToken := []
  forwarded := []

abbrev M := EStateM Err Node

/-! ## The libraries below -/

inductive ConfigChange
  | addVoter (id addr : Bytes)
  | addNonvoter (id addr : Bytes)
  | removeServer (id : Bytes)
deriving DecidableEq, Repr

/-- A raft call that returned an error. The entry may have been committed all the same, when the
leader lost its office before it could tell. -/
structure Fault where
  err : Err
  committed : Bool

inductive Delivery
  | unsent (e : Err)
  | sent (reply : Except Err Bytes)

/-- The answers of the libraries: raft, libp2p, the clock, the random source. The defaults are those
of a machine on which nothing fails and nobody can be reached. -/
structure Env where
  /-- Unix seconds. -/
  now : Int := 0
  applyFault : Bytes → Option Fault := fun _ => none
  configFault : ConfigChange → Option Fault := fun _ => none
  transferErr : Bytes → Option Err := fun _ => none
  /-- What `raft.NewRaft` finds on disk, and the store after its restore. -/
  newRaft : Store → Except Err (Raft × Store) :=
    fun s => .ok (⟨[], .follower [], false, [], Raft.fresh_nil⟩, s)
  elected : Except Err Unit := .ok ()
  deliver : Bytes → Proto → Bytes → Delivery := fun _ _ _ => .unsent (.lib [])
  /-- What became of this node's own join request line. -/
  join : Bytes → Bytes → Delivery := fun _ _ => .unsent (.lib [])
  resolveAddress : Bytes → Except Err Bytes := .ok
  advertisedAddr : Bytes := []
  /-- The key inside a peer id. -/
  publicKey : Bytes → Except Err Data := fun _ => .ok ⟨[], Data.length_nil_lt⟩
  isPeerID : Bytes → Bool := fun _ => false
  verify : Bytes → Msg → UInt32 → Bytes → Except Err Unit := fun _ _ _ _ => .ok ()
  randomToken : Except Err Data := .ok ⟨[], Data.length_nil_lt⟩
  /-- A device's answer to a recruit line. -/
  recruit : Bytes → Bytes → Except Err Bytes := fun _ _ => .error (.lib [])
  sendExecute : Bytes → Bytes → Except Err Unit := fun _ _ => .ok ()
  /-- The operations that only talk to another node, and the channel sessions. -/
  dial : Event → Except Err Event := .ok

/-! ## Raft -/

/-- The first server of that id is replaced, or a new one is put at the end. -/
def upsert (id : Bytes) (f : Option Server → Server) : List Server → List Server
  | [] => [f none]
  | srv :: servers => if srv.id = id then f (some srv) :: servers else srv :: upsert id f servers

/-- `nextConfiguration`. `AddNonvoter` leaves a voter its vote. -/
def nextConfiguration (servers : List Server) : ConfigChange → List Server
  | .addVoter id addr => upsert id (fun _ => ⟨.voter, id, addr⟩) servers
  | .addNonvoter id addr =>
    upsert id
      (fun old => match old with
        | some ⟨.voter, _, _⟩ => ⟨.voter, id, addr⟩
        | _ => ⟨.nonvoter, id, addr⟩) servers
  | .removeServer id => servers.eraseP (·.id = id)

def Raft.withServers (rf : Raft) (servers : List Server) : Raft :=
  { rf with servers, hasState := true, fresh := fun h => nomatch h }

def Node.servers (n : Node) : List Server :=
  match n.raft with
  | none => []
  | some rf => rf.servers

def Node.isLeader (n : Node) : Bool :=
  match n.raft with
  | some rf => rf.role == .leader
  | none => false

def Node.modifyRaft (n : Node) (f : Raft → Raft) : Node := { n with raft := n.raft.map f }

def commitEntry (env : Env) (cmd : Bytes) : M ApplyResult :=
  modifyGet fun n =>
    let r := apply n.store ⟨cmd, env.now⟩
    (r.1, { n with store := r.2 })

def raftApply (env : Env) (cmd : Bytes) : M ApplyResult :=
  match env.applyFault cmd with
  | none => commitEntry env cmd
  | some f =>
    if f.committed then do EStateM.ignore (commitEntry env cmd); throw f.err else throw f.err

def commitConfig (c : ConfigChange) : M Unit :=
  modify fun n => n.modifyRaft fun rf => rf.withServers (nextConfiguration rf.servers c)

def changeConfig (env : Env) (c : ConfigChange) : M Unit :=
  match env.configFault c with
  | none => commitConfig c
  | some f => if f.committed then do commitConfig c; throw f.err else throw f.err

inductive Target
  | leader
  | forward (leaderID : Bytes)

def Node.writeTarget (n : Node) : Except Err Target :=
  match n.raft with
  | none => .error .notAddedToCluster
  | some rf =>
    match rf.role with
    | .leader => .ok .leader
    | .follower id => if id = [] then .error .notLeaderNoLeader else .ok (.forward id)

def resolveWriteTarget : M Target := do ofExcept (← get).writeTarget

def isVoter (n : Node) (id : Bytes) : Bool :=
  n.servers.any fun srv => srv.id = id ∧ srv.suffrage = .voter

/-! ## Requests to the leader -/

def send (env : Env) (leaderID : Bytes) (proto : Proto) (request : Bytes) : M Bytes :=
  match env.deliver leaderID proto request with
  | .unsent e => throw e
  | .sent reply => do
    modify fun n => { n with forwarded := n.forwarded ++ [⟨leaderID, proto, request⟩] }
    ofExcept reply

def forwardStatusOK : UInt8 := 0x00
def forwardStatusErr : UInt8 := 0x01

/-- The index at which the leader applied the write. -/
def decodeForwardResponse : Bytes → Except Err Nat
  | [] => .error .forwardEmpty
  | b :: rest =>
    if b = forwardStatusOK then
      if rest.length ≠ 8 then .error (.forwardMalformed (rest.length + 1)) else .ok (beNat rest)
    else if b = forwardStatusErr then .error (.forwardRejected rest)
    else .error (.forwardStatus b)

def forwardOp (env : Env) (op : OpType) (leaderID key value : Bytes) : M Unit := do
  let resp ← send env leaderID .set (encodeCommand op key value)
  let _ ← ofExcept (decodeForwardResponse resp)

/-- An empty answer is success. -/
def forwardConfirm (env : Env) (leaderID : Bytes) (op : OpType) (key1 key2 : Bytes) : M Unit := do
  let resp ← send env leaderID .confirm (encodeCommand op key1 key2)
  if resp ≠ [] then throw (.forwardConfirmRejected resp) else pure ()

/-! ## Writes -/

/-- `applyOp`. The index of the entry, which a follower waits for, is left out. -/
def applyOp (env : Env) (op : OpType) (key value : Bytes) : M Unit := do
  let res ← raftApply env (encodeCommand op key value)
  match res.err with
  | some e => throw e
  | none => pure ()

def handleOpForward (env : Env) (op : OpType) (key value : Bytes) (allowForward : Bool) :
    M Unit := do
  match ← resolveWriteTarget with
  | .leader => applyOp env op key value
  | .forward leaderID =>
    if allowForward then forwardOp env op leaderID key value else throw (.alreadyForwarded leaderID)

def handleSetForward (env : Env) (key value : Bytes) (allowForward : Bool) : M Unit :=
  handleOpForward env .set key value allowForward

/-- `applyConfirm`, given what a confirmed record leads to. -/
def applyConfirmWith (env : Env) (onConfirmed : Bytes → M Unit) (op : OpType) (key1 key2 : Bytes) :
    M Unit := do
  applyOp env op key1 key2
  if op = .confirm then onConfirmed key2 else pure ()

def handleConfirmForwardWith (env : Env) (onConfirmed : Bytes → M Unit) (op : OpType)
    (key1 key2 : Bytes) (allowForward : Bool) : M Unit := do
  match ← resolveWriteTarget with
  | .leader => applyConfirmWith env onConfirmed op key1 key2
  | .forward leaderID =>
    if allowForward then forwardConfirm env leaderID op key1 key2
    else throw (.alreadyForwarded leaderID)

/-- The bookkeeping's own path to a record: it sets and deletes, and never confirms. -/
def putRecord (env : Env) (key value : Bytes) : M Unit :=
  handleConfirmForwardWith env (fun _ => pure ()) .set key value true

def deleteRecord (env : Env) (key : Bytes) : M Unit :=
  handleConfirmForwardWith env (fun _ => pure ()) .del key [] true

/-! ## What a write does -/

def Node.applied (n : Node) (env : Env) (cmd : Bytes) : Node :=
  { n with store := (apply n.store ⟨cmd, env.now⟩).2 }

def Env.commits (env : Env) (cmd : Bytes) : Bool :=
  match env.applyFault cmd with
  | none => true
  | some f => f.committed

theorem final_raftApply (env : Env) (cmd : Bytes) (n : Node) :
    (raftApply env cmd).final n = if env.commits cmd then n.applied env cmd else n := by
  unfold raftApply Env.commits
  cases env.applyFault cmd with
  | none => rfl
  | some f =>
    cases h : f.committed
    · simp [h]
    · simp only [h, if_true]
      rfl

theorem outcome_raftApply (env : Env) (cmd : Bytes) (n : Node) :
    (raftApply env cmd).outcome n =
      match env.applyFault cmd with
      | none => .ok (apply n.store ⟨cmd, env.now⟩).1
      | some f => .error f.err := by
  unfold raftApply
  cases env.applyFault cmd with
  | none => rfl
  | some f => cases h : f.committed <;> simp only [h, if_true] <;> rfl

theorem final_applyOp (env : Env) (op : OpType) (key value : Bytes) (n : Node) :
    (applyOp env op key value).final n =
      if env.commits (encodeCommand op key value) then n.applied env (encodeCommand op key value)
      else n := by
  rw [← final_raftApply]
  unfold applyOp
  rw [EStateM.final_bind]
  cases h : (raftApply env (encodeCommand op key value)).outcome n with
  | error e => rfl
  | ok res =>
    dsimp only
    cases res.err <;> rfl

def Env.commitsConfig (env : Env) (c : ConfigChange) : Bool :=
  match env.configFault c with
  | none => true
  | some f => f.committed

theorem final_changeConfig (env : Env) (c : ConfigChange) (n : Node) :
    (changeConfig env c).final n =
      if env.commitsConfig c then
        n.modifyRaft fun rf => rf.withServers (nextConfiguration rf.servers c)
      else n := by
  unfold changeConfig Env.commitsConfig
  cases env.configFault c with
  | none => rfl
  | some f =>
    cases h : f.committed
    · simp [h]
    · simp only [h, if_true]
      rfl

theorem outcome_changeConfig (env : Env) (c : ConfigChange) (n : Node) :
    (changeConfig env c).outcome n =
      match env.configFault c with
      | none => .ok ()
      | some f => .error f.err := by
  unfold changeConfig
  cases env.configFault c with
  | none => rfl
  | some f => cases h : f.committed <;> simp only [h, if_true] <;> rfl

theorem writeTarget_eq_leader {n : Node} : n.writeTarget = .ok .leader ↔ n.isLeader = true := by
  unfold Node.writeTarget Node.isLeader
  cases n.raft with
  | none => simp
  | some rf =>
    cases hrole : rf.role with
    | leader => simp [hrole]
    | follower id => by_cases h : id = [] <;> simp [hrole, h]

theorem run_resolveWriteTarget {α : Type} (g : Target → M α) (n : Node) :
    (resolveWriteTarget >>= g) n =
      match n.writeTarget with
      | .ok t => g t n
      | .error e => .error e n := by
  change ((ofExcept n.writeTarget : M Target) >>= g) n = _
  cases n.writeTarget <;> rfl

theorem handleOpForward_of_leader {n : Node} (hlead : n.isLeader = true) (env : Env) (op : OpType)
    (key value : Bytes) (allow : Bool) :
    handleOpForward env op key value allow n = applyOp env op key value n := by
  rw [handleOpForward, run_resolveWriteTarget, writeTarget_eq_leader.mpr hlead]

theorem handleConfirmForwardWith_of_leader {n : Node} (hlead : n.isLeader = true) (env : Env)
    (onConfirmed : Bytes → M Unit) (op : OpType) (key1 key2 : Bytes) (allow : Bool) :
    handleConfirmForwardWith env onConfirmed op key1 key2 allow n =
      applyConfirmWith env onConfirmed op key1 key2 n := by
  rw [handleConfirmForwardWith, run_resolveWriteTarget, writeTarget_eq_leader.mpr hlead]

theorem applyConfirmWith_of_ne {op : OpType} (h : op ≠ .confirm) (env : Env)
    (onConfirmed : Bytes → M Unit) (key1 key2 : Bytes) :
    applyConfirmWith env onConfirmed op key1 key2 = applyOp env op key1 key2 := by
  unfold applyConfirmWith
  simp only [h, if_false, bind_pure_unit]

/-- A request handed to the leader is all that a node on the way remembers of it. -/
def Node.forward (n : Node) (f : Forwarded) : Node := { n with forwarded := n.forwarded ++ [f] }

theorem final_send (env : Env) (leaderID : Bytes) (proto : Proto) (request : Bytes) (n : Node) :
    (send env leaderID proto request).final n =
      match env.deliver leaderID proto request with
      | .unsent _ => n
      | .sent _ => n.forward ⟨leaderID, proto, request⟩ := by
  unfold send
  cases env.deliver leaderID proto request with
  | unsent e => rfl
  | sent reply => cases reply <;> rfl

theorem final_forwardOp (env : Env) (op : OpType) (leaderID key value : Bytes) (n : Node) :
    (forwardOp env op leaderID key value).final n =
      (send env leaderID .set (encodeCommand op key value)).final n := by
  unfold forwardOp
  refine EStateM.final_bind_of_pure (fun resp n => ?_) n
  rw [EStateM.final_bind_of_pure fun _ _ => rfl, EStateM.final_ofExcept]

theorem final_handleOpForward (env : Env) (op : OpType) (key value : Bytes) (n : Node) :
    (handleOpForward env op key value true).final n = n ∨
      (handleOpForward env op key value true).final n = n.applied env (encodeCommand op key value) ∨
      ∃ id, (handleOpForward env op key value true).final n =
        n.forward ⟨id, .set, encodeCommand op key value⟩ := by
  have hrun : (handleOpForward env op key value true).final n =
      match n.writeTarget with
      | .ok .leader => (applyOp env op key value).final n
      | .ok (.forward id) => (forwardOp env op id key value).final n
      | .error _ => n := by
    unfold EStateM.final
    rw [handleOpForward, run_resolveWriteTarget]
    rcases n.writeTarget with e | _ | id <;> rfl
  rw [hrun]
  rcases n.writeTarget with e | _ | id
  · exact .inl rfl
  · dsimp only
    rw [final_applyOp]
    split_ifs
    · exact .inr (.inl rfl)
    · exact .inl rfl
  · dsimp only
    rw [final_forwardOp, final_send]
    split
    · exact .inl rfl
    · exact .inr (.inr ⟨id, rfl⟩)

theorem final_handleOpForward_of_not_leader {n : Node} (hlead : n.isLeader = false) (env : Env)
    (op : OpType) (key value : Bytes) : (handleOpForward env op key value false).final n = n := by
  unfold EStateM.final
  rw [handleOpForward, run_resolveWriteTarget]
  cases h : n.writeTarget with
  | error e => rfl
  | ok t =>
    cases t with
    | leader =>
      rw [writeTarget_eq_leader.mp h] at hlead
      cases hlead
    | forward id => rfl

end KvRaft.Daemon
