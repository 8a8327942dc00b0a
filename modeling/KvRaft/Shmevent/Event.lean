import KvRaft.Shmevent.Payload

/-! # Messages (`api/shmevent.capnp`)

The one message of the local and the client protocol: an id and a body, one variant for each
operation. A variant's answer is the same variant with its result fields filled in. -/

namespace KvRaft.Shmevent

open Bytes

/-- A `Data` or `Text` field. The length of a list of bytes has 29 bits on the wire. -/
abbrev Data := { b : Bytes // b.length < 2 ^ 29 }

theorem Data.length_nil_lt : ([] : Bytes).length < 2 ^ 29 := by decide

theorem Data.length_single_lt (b : UInt8) : [b].length < 2 ^ 29 := show 1 < 2 ^ 29 by decide

/-- `SetData` and `SetText`: what does not fit is refused. -/
def Data.ofBytes (b : Bytes) : Option Data := if h : b.length < 2 ^ 29 then some ⟨b, h⟩ else none

structure TxnOp where
  op : UInt8
  key : Data
  value : Data

def TxnOp.spec (o : TxnOp) : TxnOpSpec := ⟨o.op, o.key, o.value⟩

inductive Event
  | setKey (value : Data)
  | setField (sourceId : UInt16) (value : Data)
  | getKey (sourceId : UInt16) (key : Data)
  | getFieldByRegistry (sourceId : UInt16) (value : Data)
  | getFieldByKey (key value : Data)
  | getPublicKey (pubKey : Data)
  | getPrivateKey (privKey : Data)
  | bootstrapOrJoinCluster (leaderAddr : Data)
  | addLearner (claimedPeerId : UInt16) (addr : Data)
  | set (key value : Data)
  | execute (sourceId destinationId : UInt16) (senderPeerId value : Data)
  | pollExecute (senderPeerId value : Data)
  | listRange (start stop key value : Data)
  | logAppend (key value : Data)
  | leave
  | execInviteRedeem (sourceAddr token instanceId redeemerPeerId : Data)
  | joinRequestCreate (token : Data)
  | joinRequestCancel (token : Data)
  | recruit (ticket : Data) (suffrage : UInt8)
  | getOwnAddr (addr : Data)
  | channelOpen (peerId senderPeerId : Data)
  | channelSend (channelId : Data) (purpose : UInt8) (chunk : Data)
  | channelPoll (channelId : Data) (status purpose : UInt8) (chunk : Data)
  | channelListen (channelId remotePeerId : Data)
  | channelClose (channelId : Data)
  | channelCloseWrite (channelId : Data)
  | channelDataReady (channelId : Data)
  | kick (peerId : Data)
  | txn (ops : List TxnOp)
  | getVersion (commit : Data) (dirty : Bool) (buildTime goVersion libp2pVersion : Data)
  | publicAccess (targetPeer note instanceId : Data)
  | execTicket (sourceAddr token : Data)
  | joinTicket (sourceAddr token : Data)
  | joinRequestTicket (sourceAddr token : Data)
  | dialSubmitCommand (targetPeer commandId inputsJson note instanceId : Data)
  | dialQueryCommandLog (targetPeer instanceId : Data) (since until' : Int) (limit : Int)
      (records : List Data)
  | error (message : Data)
  | groupPut (id name : Data) (isPublic : Bool)
  | groupDelete (id : Data)
  | commandPut (id name peerId : Data) (spec : Option Data)
  | commandDelete (id : Data)
  | stationPut (peerId name attrs : Data)
  | stationDelete (peerId : Data)
  | groupCommandPut (commandId groupId : Data)
  | groupCommandDelete (commandId groupId : Data)
  | peerGroupPut (peerId groupId : Data)
  | peerGroupDelete (peerId groupId : Data)
  | permitRequest (kind : UInt8) (peerId metadata : Data)
  | permitConfirm (kind : UInt8) (peerId : Data)
  | permitRevoke (kind : UInt8) (peerId : Data)
  | joinInviteCreate (token : Data) (suffrage : UInt8)
  | joinInviteRevoke (token : Data)
  | execInviteCreate (token commandId inputsJson : Data) (ttlSeconds : UInt64)
  | execInviteRevoke (token : Data)

structure Msg where
  id : UInt16
  body : Event

/-- The two variants that are accepted unsigned. -/
def requiresSignature : Event → Bool
  | .getPublicKey _ => false
  | .getPrivateKey _ => false
  | _ => true

/-! ## Building a transaction (`event.go`, `txn.go`) -/

end KvRaft.Shmevent
