import KvRaft.Web.Learner

/-! # Serving a stream of requests (`serve_raft_stream` and `decode_one` in `web-app/src/p2p.rs`)

One inbound stream: the learner takes requests off it, one after the other, until it ends. How many
bytes a `read` finds is up to the network. Replies go out on the same stream and are
not followed further. -/

namespace KvRaft.Web

open EStateM

structure Stream where
  /-- What is still to be read; the stream is closed behind it. -/
  incoming : Bytes
  /-- How many bytes there are for each of the next calls of `read`, one at least. -/
  sizes : List Nat

/-- `read` into a buffer of `room` bytes; nothing comes only at the end. -/
def Stream.read (room : Nat) (st : Stream) : Bytes × Stream :=
  let n := min room (max 1 (st.sizes.headD room))
  (st.incoming.take n, ⟨st.incoming.drop n, st.sizes.tail⟩)

/-- `read_exact`, with nothing for an error. -/
def Stream.readExact (n : Nat) (st : Stream) : Option Bytes × Stream :=
  if st.incoming.length < n then (none, { st with incoming := [] })
  else (some (st.incoming.take n), { st with incoming := st.incoming.drop n })

inductive ServeError
  | unknownRpcType (b : UInt8)
  | streamClosedMidMessage
  | malformed (e : MsgpackError)
  /-- The stream ends within a snapshot. -/
  | unexpectedEndOfFile
  | learner (e : StoreError)
deriving DecidableEq, Repr

abbrev Incoming := EStateM (Fault ServeError) Stream

def read (room : Nat) : Incoming Bytes := modifyGet (Stream.read room)

def readExact (n : Nat) : Incoming (Option Bytes) := modifyGet (Stream.readExact n)

/-! ## One request -/

section

variable {α : Type}

/-- The loop in `decode_one`, of so many rounds at most. -/
def decodeRounds (decode : Reader α) : Nat → Bytes → Incoming (α × Bytes)
  | 0, _ => throw (.err .streamClosedMidMessage)
  | rounds + 1, buf =>
    match decode buf 0 with
    | .ok (v, consumed) => return (v, buf.drop consumed)
    | .error (.err .unexpectedEof) => do
      let chunk ← read 4096
      if chunk = [] then throw (.err .streamClosedMidMessage)
      else decodeRounds decode rounds (buf ++ chunk)
    | .error (.err (.badTag b)) => throw (.err (.malformed (.badTag b)))
    | .error .panic => throw .panic

/-- The value, and what was read beyond it. Every round but the last takes a byte. -/
def decodeOne (decode : Reader α) : Incoming (α × Bytes) := do
  decodeRounds decode ((← get).incoming.length + 1) []

end

/-- The body of a snapshot, of which `leftover` has been read already. -/
def readBody (size : Int64) (leftover : Bytes) : Incoming Bytes := do
  let want := size.toInt.toNat % 2 ^ 32
  let body := leftover.take want
  if body.length < want then do
    match ← readExact (want - body.length) with
    | none => throw (.err .unexpectedEndOfFile)
    | some rest => return body ++ rest
  else return body

/-- The request of this type, with a snapshot's body. Only a snapshot keeps what was
read beyond it. -/
def receive : RpcType → Incoming Request
  | .appendEntries => do return .appendEntries (← decodeOne decodeAppendEntriesRequest).1
  | .requestVote => do return .requestVote (← decodeOne decodeRequestVoteRequest).1
  | .requestPreVote => do return .requestPreVote (← decodeOne decodeRequestPreVoteRequest).1
  | .installSnapshot => do
    let r ← decodeOne decodeInstallSnapshotRequest
    return .installSnapshot r.1 (← readBody r.1.size r.2)
  | .timeoutNow => do return .timeoutNow (← decodeOne decodeTimeoutNowRequest).1

def nextRequest : Incoming (Option Request) := do
  match ← readExact 1 with
  | none => return none
  | some b =>
    match RpcType.fromByte (b.headD 0) with
    | none => throw (.err (.unknownRpcType (b.headD 0)))
    | some rpcType => return some (← receive rpcType)

/-! ## The stream -/

structure Session where
  /-- The requests that were passed to the learner. -/
  passed : List Request
  replies : List Response
  store : SqliteStore
  outcome : Except (Fault ServeError) Unit

def Session.after (req : Request) (resp : Response) (t : Session) : Session :=
  { t with passed := req :: t.passed, replies := resp :: t.replies }

def learnerFault : Fault StoreError → Fault ServeError
  | .err e => .err (.learner e)
  | .panic => .panic

variable (self : Learner)

def serveRounds : Nat → Stream → SqliteStore → Session
  | 0, _, store => ⟨[], [], store, .ok ()⟩
  | rounds + 1, st, store =>
    match nextRequest st with
    | .error e _ => ⟨[], [], store, .error e⟩
    | .ok none _ => ⟨[], [], store, .ok ()⟩
    | .ok (some req) st =>
      match handle self req store with
      | .error e store => ⟨[req], [], store, .error (learnerFault e)⟩
      | .ok resp store => (serveRounds rounds st store).after req resp

/-- Every round takes a byte at least. -/
def serveRaftStream (st : Stream) (store : SqliteStore) : Session :=
  serveRounds self (st.incoming.length + 1) st store

end KvRaft.Web
