import KvRaft.Daemon.Reads
import KvRaft.Daemon.Replies
import KvRaft.Daemon.Sync
import KvRaft.Lib.Pipeline
import KvRaft.Lib.Reach

/-! # Reading what was written through the leader (`pkg/daemon/forward.go`)

A follower hands a write to the leader, which answers with the index of its entry.
`waitForLocalApply` then waits until `AppliedIndex` has reached that index. Raft's loop sets
`AppliedIndex` when it has put the entries into the queue of the goroutine that applies them. That
one receives a batch from the queue and then applies its entries, so it may be behind with what it
holds as well. -/

namespace KvRaft.Daemon

open Bytes Shmevent Kvfsm EStateM

/-! ## The index of a write -/

/-- `forwardOp`, with the index that it returns. -/
def forwardOpIndex (env : Env) (op : OpType) (leaderID key value : Bytes) : M Nat := do
  let resp ← send env leaderID .set (encodeCommand op key value)
  ofExcept (decodeForwardResponse resp)

theorem outcome_forwardOpIndex {env : Env} {op : OpType} {leaderID key value : Bytes}
    {index : UInt64}
    (h : env.deliver leaderID .set (encodeCommand op key value) =
      .sent (.ok (writeForwardSuccess index)))
    (n : Node) : (forwardOpIndex env op leaderID key value).outcome n = .ok index.toNat := by
  have hdecode : decodeForwardResponse (writeForwardSuccess index) = .ok index.toNat := by
    rw [writeForwardSuccess, decodeForwardResponse, if_pos rfl,
      if_neg (not_not_intro (length_beBytes ..)), beNat_beBytes]
    exact index.toNat_lt
  have hrun :=
    run_bind_of_ok (send_ok h n) fun resp => (ofExcept (decodeForwardResponse resp) : M Nat)
  rw [EStateM.outcome, forwardOpIndex, hrun, hdecode]
  rfl

/-! ## A follower -/

inductive Entry
  | command (l : Log)
  | configuration
  | noop

namespace Entry

def isQueued : Entry → Bool
  | noop => false
  | _ => true

/-- What the goroutine behind the queue does with it. -/
def run (s : Store) : Entry → Store
  | command l => (apply s l).2
  | _ => s

def command? : Entry → Option Log
  | command l => some l
  | _ => none

theorem run_of_not_isQueued (s : Store) (e : Entry) (h : e.isQueued = false) : e.run s = s := by
  cases e with
  | command l => cases h
  | configuration => cases h
  | noop => rfl

theorem foldl_run (s : Store) (l : List Entry) :
    l.foldl run s = applyAll s (l.filterMap command?) := by
  induction l generalizing s with
  | nil => rfl
  | cons e l ih => cases e <;> exact ih _

end Entry

inductive Wait
  | idle
  /-- In `waitForLocalApply`. -/
  | waiting (index : Nat)
  /-- The wait is over, `AppliedIndex` has reached the index. -/
  | returned (index : Nat)
  /-- The deadline has passed. -/
  | timedOut (index : Nat)
deriving DecidableEq

structure Replica where
  pipe : Pipeline Entry Store
  wait : Wait

namespace Replica

/-- One look of `waitForLocalApply`. -/
def poll (r : Replica) : Replica :=
  match r.wait with
  | .waiting index => if r.pipe.appliedIndex ≥ index then { r with wait := .returned index } else r
  | _ => r

def node (base : Node) (r : Replica) : Node := base.withStore r.pipe.state

/-- One step of the cluster, of raft's loop, of the goroutine behind the queue,
or of `handleOpForward`. -/
inductive Step (base : Node) : Replica → Replica → Prop
  /-- The cluster commits an entry of somebody else. -/
  | commit {r : Replica} (e : Entry) : Step base r { r with pipe := r.pipe.commit e }
  | enqueue {r : Replica} : Step base r { r with pipe := r.pipe.enqueue Entry.isQueued }
  | publish {r : Replica} : Step base r { r with pipe := r.pipe.publish }
  /-- A batch of any size is received. -/
  | receive {r : Replica} (k : Nat) : Step base r { r with pipe := r.pipe.receive k }
  | consume {r : Replica} : Step base r { r with pipe := r.pipe.consume Entry.run }
  /-- The leader commits the write at the end of the log and answers with its index. -/
  | forward {r : Replica} {env : Env} {op : OpType} {leaderID key value : Bytes}
      {index : UInt64} {i : Nat}
      (t : Int) (hready : ∀ j, r.wait ≠ .waiting j)
      (htarget : (r.node base).writeTarget = .ok (.forward leaderID))
      (hanswer : env.deliver leaderID .set (encodeCommand op key value) =
        .sent (.ok (writeForwardSuccess index)))
      (hindex : index.toNat = r.pipe.log.length + 1)
      (hasked : (forwardOpIndex env op leaderID key value).outcome (r.node base) = .ok i) :
      Step base r ⟨r.pipe.commit (.command ⟨encodeCommand op key value, t⟩), .waiting i⟩
  | poll {r : Replica} : Step base r r.poll
  | deadline {r : Replica} {i : Nat} (hwait : r.wait = .waiting i) :
      Step base r { r with wait := .timedOut i }

/-- A run from a follower that has applied the first `k` entries and has no write under way. -/
def Reachable (base : Node) (s₀ : Store) (r : Replica) : Prop :=
  ∃ log k, k ≤ log.length ∧ Relation.ReflTransGen (Step base) ⟨.start Entry.run log k s₀, .idle⟩ r

/-- The entry at that index is a write of this follower. -/
def WrittenAt (i : Nat) (r : Replica) : Prop :=
  0 < i ∧ ∃ op key value t, r.pipe.log[i - 1]? = some (.command ⟨encodeCommand op key value, t⟩)

/-- Every entry up to the index is applied, and `handleGet` reads what these and possibly
later ones leave. -/
structure Readable (base : Node) (s₀ : Store) (i : Nat) (r : Replica) : Prop where
  applied : i ≤ r.pipe.reflected
  read : ∀ key, (handleGet key).outcome (r.node base) =
    (applyAll s₀ ((r.pipe.log.take r.pipe.reflected).filterMap Entry.command?)).get! key

/-! ## Steps -/

section Steps

variable {base : Node} {s₀ : Store} {r r' : Replica} {i : Nat}

@[simp] theorem pipe_poll (r : Replica) : r.poll.pipe = r.pipe := by
  unfold poll
  split
  · split_ifs <;> rfl
  · rfl

theorem wait_poll (hwait : r.wait = .waiting i) (hseen : r.pipe.appliedIndex ≥ i) :
    r.poll.wait = .returned i := by
  rw [poll, hwait]
  exact congrArg wait (if_pos hseen)

theorem step_pipe (h : Step base r r') :
    r'.pipe = r.pipe ∨ (∃ e, r'.pipe = r.pipe.commit e) ∨ r'.pipe = r.pipe.enqueue Entry.isQueued ∨
      r'.pipe = r.pipe.publish ∨ (∃ k, r'.pipe = r.pipe.receive k) ∨
      r'.pipe = r.pipe.consume Entry.run := by
  cases h with
  | commit e => exact .inr (.inl ⟨e, rfl⟩)
  | enqueue => exact .inr (.inr (.inl rfl))
  | publish => exact .inr (.inr (.inr (.inl rfl)))
  | receive k => exact .inr (.inr (.inr (.inr (.inl ⟨k, rfl⟩))))
  | consume => exact .inr (.inr (.inr (.inr (.inr rfl))))
  | forward => exact .inr (.inl ⟨_, rfl⟩)
  | poll => exact .inl (pipe_poll r)
  | deadline => exact .inl rfl

theorem WrittenAt.of_log (h : WrittenAt i r) {later : List Entry}
    (hlog : r'.pipe.log = r.pipe.log ++ later) :
    WrittenAt i r' := by
  obtain ⟨hi, op, key, value, t, hentry⟩ := h
  refine ⟨hi, op, key, value, t, ?_⟩
  rw [hlog, List.getElem?_append_left (List.getElem?_eq_some_iff.mp hentry).1, hentry]

theorem writtenAt_step (h : ∀ i, r.wait = .waiting i → WrittenAt i r) (hstep : Step base r r') :
    ∀ i, r'.wait = .waiting i → WrittenAt i r' := by
  intro i hwait
  cases hstep with
  | commit e => exact (h i hwait).of_log rfl
  | enqueue => exact (h i hwait).of_log (by rw [Pipeline.log_enqueue, List.append_nil])
  | publish => exact h i hwait
  | receive k => exact (h i hwait).of_log (by rw [Pipeline.log_receive, List.append_nil])
  | consume => exact (h i hwait).of_log (by rw [Pipeline.log_consume, List.append_nil])
  | @forward env op leaderID key value index j t hready htarget hanswer hindex hasked =>
    obtain rfl : index.toNat = i := by
      rw [outcome_forwardOpIndex hanswer] at hasked
      cases hasked
      cases hwait
      rfl
    refine ⟨by omega, op, key, value, t, ?_⟩
    rw [hindex, Nat.add_sub_cancel]
    exact List.getElem?_concat_length
  | poll =>
    have hbefore : r.wait = .waiting i := by
      unfold poll at hwait
      split at hwait
      · split_ifs at hwait
        exact hwait
      · exact hwait
    exact (h i hbefore).of_log (by rw [pipe_poll, List.append_nil])
  | deadline => cases hwait

theorem Reachable.writtenAt (h : Reachable base s₀ r) (hwait : r.wait = .waiting i) :
    WrittenAt i r := by
  obtain ⟨log, k, -, hrun⟩ := h
  exact hrun.invariant (P := fun r =>
    ∀ i, r.wait = .waiting i → WrittenAt i r) writtenAt_step nofun i hwait

/-- The store is that of the entries applied. -/
abbrev InStep (s₀ : Store) (r : Replica) : Prop := Pipeline.Sound Entry.run Entry.isQueued s₀ r.pipe

theorem InStep.step (h : InStep s₀ r) (hstep : Step base r r') : InStep s₀ r' := by
  unfold InStep at h ⊢
  rcases step_pipe hstep with hp | ⟨e, hp⟩ | hp | hp | ⟨k, hp⟩ | hp
  · rwa [hp]
  · exact hp ▸ h.commit e
  · exact hp ▸ h.enqueue
  · exact hp ▸ h.publish
  · exact hp ▸ h.receive k
  · exact hp ▸ h.consume Entry.run_of_not_isQueued

theorem Reachable.inStep (h : Reachable base s₀ r) : InStep s₀ r := by
  obtain ⟨log, k, hk, hrun⟩ := h
  exact hrun.invariant (P := InStep s₀) InStep.step (Pipeline.sound_start hk)

theorem InStep.reflected_le_step (h : InStep s₀ r) (hstep : Step base r r') :
    r.pipe.reflected ≤ r'.pipe.reflected := by
  rcases step_pipe hstep with hp | ⟨e, hp⟩ | hp | hp | ⟨k, hp⟩ | hp
  · rw [hp]
  · exact hp ▸ le_rfl
  · exact hp ▸ r.pipe.reflected_le_enqueue
  · exact hp ▸ le_rfl
  · rw [hp, Pipeline.reflected_receive]
  · exact hp ▸ h.reflected_le_consume

/-- In every run the follower applies more and more of the log. -/
theorem InStep.reflected_le (h : InStep s₀ r) (hrun : Relation.ReflTransGen (Step base) r r') :
    InStep s₀ r' ∧ r.pipe.reflected ≤ r'.pipe.reflected := by
  refine hrun.invariant (P := fun x => InStep s₀ x ∧
    r.pipe.reflected ≤ x.pipe.reflected) ?_ ⟨h, le_rfl⟩
  rintro x y ⟨hx, hle⟩ hstep
  exact ⟨hx.step hstep, hle.trans (hx.reflected_le_step hstep)⟩

theorem outcome_handleGet (key : Bytes) (n : Node) :
    (handleGet key).outcome n = n.store.get! key := by
  rw [EStateM.outcome, run_handleGet]
  cases n.store.get! key <;> rfl

theorem InStep.readable_iff (h : InStep s₀ r) : Readable base s₀ i r ↔ i ≤ r.pipe.reflected := by
  refine ⟨Readable.applied, fun hi => ⟨hi, fun key => ?_⟩⟩
  have hstate := h.state_eq Entry.run_of_not_isQueued
  rw [Entry.foldl_run] at hstate
  rw [outcome_handleGet, ← hstate]
  rfl

end Steps

/-! ## The wait -/

/-- The wait for a forwarded write that ends because `AppliedIndex` has reached its index ends with
a store that has every entry up to it, then and in whatever follows, exactly if no such entry is in
the queue or in the hand of the goroutine behind it at that moment. -/
theorem acknowledged_readable_iff {base : Node} {s₀ : Store} {r : Replica} {i : Nat}
    (hreach : Reachable base s₀ r) (hwait : r.wait = .waiting i) (hseen : r.pipe.appliedIndex ≥ i) :
    WrittenAt i r ∧ r.poll.wait = .returned i ∧
      ((∀ r', Relation.ReflTransGen (Step base) r.poll r' → Readable base s₀ i r') ↔
        ∀ q ∈ r.pipe.hand ++ r.pipe.queue, i < q.1) := by
  have hsound := hreach.inStep
  have hpoll : InStep s₀ r.poll := hsound.step (@Step.poll base r)
  rw [← Pipeline.pending, ← hsound.le_reflected_iff hseen]
  refine ⟨hreach.writtenAt hwait, wait_poll hwait hseen, fun h => ?_, fun hi r' hrun => ?_⟩
  · have := hpoll.readable_iff.mp (h _ .refl)
    rwa [pipe_poll] at this
  · obtain ⟨hlater, hle⟩ := hpoll.reflected_le hrun
    rw [pipe_poll] at hle
    exact hlater.readable_iff.mpr (hi.trans hle)

/-! ## A write that is acknowledged -/

def follower : Node :=
  (Node.alone (ascii "f") OrdMap.empty).modifyRaft fun rf =>
    { rf with role := .follower (ascii "l") }

def write : Entry := .command ⟨encodeCommand .set (ascii "k") (ascii "v"), 0⟩

/-- `write` is committed and acknowledged, and raft's loop has seen it. -/
def handedOver : Replica := ⟨⟨[write], 1, 1, [(1, write)], [], OrdMap.empty⟩, .waiting 1⟩

theorem reachable_handedOver : Reachable follower OrdMap.empty handedOver := by
  refine ⟨[], 0, le_rfl, ?_⟩
  have hforward : Step follower ⟨.start Entry.run [] 0 OrdMap.empty, .idle⟩
      ⟨⟨[write], 0, 0, [], [], OrdMap.empty⟩, .waiting 1⟩ :=
    @Step.forward follower ⟨.start Entry.run [] 0 OrdMap.empty,
      .idle⟩ (answering (writeForwardSuccess 1)) .set
      (ascii "l") (ascii "k") (ascii "v") 1 1 0 nofun rfl rfl rfl rfl
  have henqueue : Step follower ⟨⟨[write], 0, 0, [], [], OrdMap.empty⟩, .waiting 1⟩
      ⟨⟨[write], 1, 0, [(1, write)], [], OrdMap.empty⟩, .waiting 1⟩ := .enqueue
  have hpublish :
      Step follower ⟨⟨[write], 1, 0, [(1, write)], [], OrdMap.empty⟩, .waiting 1⟩ handedOver :=
    .publish
  exact .tail (.tail (.tail .refl hforward) henqueue) hpublish

/-- The goroutine behind the queue has received the entry. -/
def inHand : Replica := { handedOver with pipe := handedOver.pipe.receive 1 }

theorem reachable_inHand : Reachable follower OrdMap.empty inHand := by
  obtain ⟨log, k, hk, hrun⟩ := reachable_handedOver
  exact ⟨log, k, hk, hrun.tail (.receive 1)⟩

def caughtUp : Replica := { inHand with pipe := inHand.pipe.consume Entry.run }

theorem acknowledged_readable_caughtUp : Readable follower OrdMap.empty 1 caughtUp.poll := by
  obtain ⟨log, k, hk, hrun⟩ := reachable_inHand
  have hreach : Reachable follower OrdMap.empty caughtUp := ⟨log, k, hk, hrun.tail .consume⟩
  exact (acknowledged_readable_iff hreach rfl le_rfl).2.2.mpr nofun _ .refl

/-- `handleOpForward` returns, and the key is not found. -/
structure Unread (r : Replica) : Prop where
  reachable : Reachable follower OrdMap.empty r
  waiting : r.wait = .waiting 1
  returned : r.poll.wait = .returned 1
  missed : (handleGet (ascii "k")).outcome (r.poll.node follower) = .error .notFound
  written : (applyAll OrdMap.empty ((r.poll.pipe.log.take 1).filterMap Entry.command?)).get!
    (ascii "k") = .ok (ascii "v")

/-- With the entry in the queue, and with the entry in the goroutine's hand. -/
theorem acknowledged_unread : Unread handedOver ∧ Unread inHand :=
  ⟨⟨reachable_handedOver, rfl, rfl, rfl, by decide⟩, ⟨reachable_inHand, rfl, rfl, rfl, by decide⟩⟩

end Replica

end KvRaft.Daemon
