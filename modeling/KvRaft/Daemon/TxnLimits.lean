import KvRaft.Daemon.Handle
import KvRaft.Daemon.Sync

/-! # The sizes a transaction may have

Three functions look at the operations of a transaction on their way to the state machine: the
client's `NewTxn`, the daemon's check for reserved keys, and `EncodeTxnPayload`. The first lets a
value have the size that a plain write may have, and the last has two bytes for its length. -/

namespace KvRaft.Daemon

open Bytes Shmevent Kvfsm EStateM

section Handler

variable {env : Env} {msg : List TxnOp} {payload : Bytes} {n : Node}

end Handler

end KvRaft.Daemon
