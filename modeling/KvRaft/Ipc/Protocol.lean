import KvRaft.Lib.Reach
import KvRaft.Shmevent.Event

/-! # Calls over shared memory (`pkg/ipc/ipc.go`)

One client makes its calls one after the other against one `Serve` loop. Both sides meet in segments
of shared memory that are found by name: the request's name is fixed, the response's name contains
the id of the message. A segment can be opened as soon as it is created; reading one waits until its
writer has closed it and always starts at its beginning. A segment that was opened can be read also
after its name is gone.

A request segment is known by the number of the call that created it, a response segment by the
number of the handler's run that it answers. Calls that fail and times that run out are not part of
the model. -/

namespace KvRaft.Ipc

open Shmevent

inductive Client
  /-- Between two calls. -/
  | ready
  /-- The request segment is there, the message is not yet complete. -/
  | created
  /-- In `openRespWithRetry`. -/
  | waiting
  /-- In `readAll` on a response segment. -/
  | reading (response : Nat)
  /-- The response is read, the request segment not yet removed. -/
  | received (resp : Msg)

inductive Server
  /-- In `openReqWithRetry`. -/
  | polling
  /-- In `readAll` on the request segment of a call. -/
  | opened (call : Nat)
  /-- The previous response is removed, the handler not yet called. -/
  | accepted (call : Nat)
  /-- The handler has returned. -/
  | responding (call : Nat)
  /-- The response segment is there, the message is not yet complete. -/
  | writing (call : Nat)

structure State where
  client : Client
  server : Server
  /-- The segment under the request's name. -/
  req : Option Nat
  /-- The number of request segments that are closed. -/
  written : Nat
  /-- The segment under each response's name. -/
  resp : UInt16 → Option Nat
  /-- The number of response segments that are closed. -/
  answered : Nat
  /-- `lastID`, if `haveLastID`. -/
  lastID : Option UInt16
  /-- The name of `pendingResp`. -/
  pendingResp : Option UInt16
  /-- The handler's runs: the call and the response. -/
  handled : List (Nat × Event)
  /-- What the calls that are over returned. -/
  returned : List Msg

def State.init : State where
  client := .ready
  server := .polling
  req := none
  written := 0
  resp _ := none
  answered := 0
  lastID := none
  pendingResp := none
  handled := []
  returned := []

/-- The segment under a response's name after `cleanupPending`. -/
def State.cleanupPending (s : State) (id : UInt16) : Option Nat :=
  if s.pendingResp = some id then none else s.resp id

/-- One step of either side. A segment is created only under a name that is free. -/
inductive Step (calls : List Msg) : State → State → Prop
  | create {s : State} (hclient : s.client = .ready) (hmore : s.returned.length < calls.length)
      (hfree : s.req = none) :
      Step calls s { s with client := .created, req := some s.returned.length }
  | close {s : State} (hclient : s.client = .created) :
      Step calls s { s with client := .waiting, written := s.returned.length + 1 }
  | openResp {s : State} {m : Msg} {h : Nat} (hclient : s.client = .waiting)
      (hm : calls[s.returned.length]? = some m) (hresp : s.resp m.id = some h) :
      Step calls s { s with client := .reading h }
  | readResp {s : State} {h k : Nat} {x : Event} {m : Msg} (hclient : s.client = .reading h)
      (hclosed : h < s.answered) (hrun : s.handled[h]? = some (k, x)) (hm : calls[k]? = some m) :
      Step calls s { s with client := .received ⟨m.id, x⟩ }
  | ret {s : State} {resp : Msg} (hclient : s.client = .received resp) :
      Step calls s { s with client := .ready, req := none, returned := s.returned ++ [resp] }
  | openReq {s : State} {k : Nat} (hserver : s.server = .polling) (hreq : s.req = some k) :
      Step calls s { s with server := .opened k }
  /-- The request that was answered last, read once more. -/
  | skip {s : State} {k : Nat} {m : Msg} (hserver : s.server = .opened k) (hclosed : k < s.written)
      (hm : calls[k]? = some m) (hlast : s.lastID = some m.id) :
      Step calls s { s with server := .polling }
  | accept {s : State} {k : Nat} {m : Msg} (hserver : s.server = .opened k)
      (hclosed : k < s.written)
      (hm : calls[k]? = some m) (hlast : s.lastID ≠ some m.id) :
      Step calls s { s with server := .accepted k, resp := s.cleanupPending, pendingResp := none }
  /-- The handler may return anything. -/
  | handle {s : State} {k : Nat} (x : Event) (hserver : s.server = .accepted k) :
      Step calls s { s with server := .responding k, handled := s.handled ++ [(k, x)] }
  | createResp {s : State} {k : Nat} {m : Msg} (hserver : s.server = .responding k)
      (hm : calls[k]? = some m) (hfree : s.resp m.id = none) :
      Step calls s { s with
        server := .writing k
        resp := fun id => if id = m.id then some (s.handled.length - 1) else s.resp id }
  | closeResp {s : State} {k : Nat} {m : Msg} (hserver : s.server = .writing k)
      (hm : calls[k]? = some m) :
      Step calls s { s with
        server := .polling
        answered := s.handled.length
        lastID := some m.id
        pendingResp := some m.id }

/-- A run from the start, in any interleaving. -/
def Reachable (calls : List Msg) (s : State) : Prop :=
  Relation.ReflTransGen (Step calls) .init s

/-- No call is handled twice, and a call that is over was handled once and has returned the response
of that run. -/
structure Served (calls : List Msg) (s : State) : Prop where
  once : ∀ j, (s.handled.filter (·.1 = j)).length ≤ 1
  own : ∀ j resp, s.returned[j]? = some resp →
    ∃ m x, calls[j]? = some m ∧ s.handled.filter (·.1 = j) = [(j, x)] ∧ resp = ⟨m.id, x⟩

/-- All calls are served so in every state, and from every state they can all come to their end. -/
def ExactlyOnce (calls : List Msg) : Prop :=
  ∀ s, Reachable calls s → Served calls s ∧
    ∃ s', Relation.ReflTransGen (Step calls) s s' ∧ s'.returned.length = calls.length

/-- No call has the id of the call before it. -/
def FreshIDs (calls : List Msg) : Prop :=
  ∀ i a b, calls[i]? = some a → calls[i + 1]? = some b → a.id ≠ b.id

end KvRaft.Ipc
