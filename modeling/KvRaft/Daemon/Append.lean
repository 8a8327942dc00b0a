import KvRaft.Daemon.Dispatch
import KvRaft.Daemon.Forward

/-! # Accepted log records

A `logAppend` becomes one entry of the log, whether the leader is asked or another node that hands
the entry on. Once accepted, it has written its record and changed no other. -/

namespace KvRaft.Daemon

open Bytes Shmevent Kvfsm

/-! ## The entry -/

/-- The operation and its payload that `logAppend` submits. -/
def logAppendCommand (author key value : Bytes) : Except Err (OpType × Bytes) :=
  if key.head? ≠ some Logrecord.logKeyPrefix then .error .logAppendPrefix
  else
    match Logrecord.parseKey key with
    | .error e => .error e
    | .ok k =>
      if (parseCommandRequestLogKind k.kind).isSome then
        (encodeCommandRequestApplyPayload author value).map fun payload =>
          (.appendCommandRequest, payload)
      else .ok (.set, value)

theorem logAppend_eq (env : Env) (caller : CallerIdentity) (key value : Bytes) (n : Node) :
    logAppend env caller key value n =
      match logAppendCommand (caller.remotePeer.getD n.peerID) key value with
      | .error e => .error e n
      | .ok (op, payload) => handleOpForward env op key payload true n := by
  unfold logAppend logAppendCommand
  by_cases hhead : key.head? ≠ some Logrecord.logKeyPrefix
  · rw [if_pos hhead, if_pos hhead]
    rfl
  rw [if_neg hhead, if_neg hhead]
  rcases Logrecord.parseKey key with e | k
  · rfl
  dsimp only
  by_cases hkind : (parseCommandRequestLogKind k.kind).isSome = true
  · rw [if_pos hkind]
    change (if _ then _ else _ : M Unit) n = _
    rw [if_pos hkind]
    change (ofExcept (encodeCommandRequestApplyPayload (caller.remotePeer.getD n.peerID) value) >>=
      fun payload => handleOpForward env .appendCommandRequest key payload true) n = _
    rcases encodeCommandRequestApplyPayload (caller.remotePeer.getD n.peerID) value with e | payload
    · rfl
    · rfl
  · rw [if_neg hkind]
    change (if _ then _ else _ : M Unit) n = _
    rw [if_neg hkind]
    rfl

def RecordWritten (key value : Bytes) (s s' : Store) : Prop :=
  ∀ x, x.head? = some Logrecord.logKeyPrefix → s'.get x = if x = key then some value else s.get x

variable {key value : Bytes} {op : OpType}

theorem applySet_logKey {k : Logrecord.ParsedKey} (h : Logrecord.parseKey key = .ok k)
    (s : Store) (value : Bytes) : applySet s key value = ({}, s.set key value) := by
  obtain ⟨-, -, rest, -, rfl⟩ := Logrecord.parseKey_ok h
  rfl

theorem recordWritten_of_accepted {author payload : Bytes}
    (hcmd : logAppendCommand author key value = .ok (op, payload)) {c : Command}
    (hc : c = ⟨op, key, payload⟩) {l : Log} (hdec : decodeCommand l.data = .ok c) {s : Store}
    (hok : (apply s l).1.err = none) : RecordWritten key value s (apply s l).2 := by
  intro x hx
  subst hc
  unfold logAppendCommand at hcmd
  split_ifs at hcmd with hhead
  rcases hparse : Logrecord.parseKey key with e | k
  · rw [hparse] at hcmd
    cases hcmd
  rw [hparse] at hcmd
  dsimp only at hcmd
  split_ifs at hcmd with hkind
  · rcases henc : encodeCommandRequestApplyPayload author value with e | p
    · rw [henc] at hcmd
      cases hcmd
    rw [henc] at hcmd
    cases hcmd
    simp only [apply, hdec] at hok ⊢
    rcases applyAppendCommandRequest_inv s key payload with
      ⟨herr, -⟩ | ⟨-, author', record, commandID, hpay, happ⟩
    · exact absurd hok herr
    · rw [decodeCommandRequestApplyPayload_encode henc] at hpay
      cases hpay
      exact happ.get_logKey hx
  · cases hcmd
    simp only [apply, hdec, applySet_logKey hparse]
    rw [Store.set, OrdMap.get_insert]
    split_ifs <;> rfl

/-! ## Accepted messages -/

/-- How a `logAppend` comes to the leader: from a client, or as the entry of a node that a client
with the name `author` asked. -/
inductive Route
  | direct (id : UInt16) (crc : UInt32) (sig : Bytes) (caller : CallerIdentity)
  | relayed (author : Bytes)

/-- A `logAppend` message on its way, and how the libraries answer while it is served. -/
structure Submission where
  env : Env
  route : Route
  key : Data
  value : Data

def Submission.serve (m : Submission) : M Unit :=
  match m.route with
  | .direct id crc sig caller => do
    let _ ← handleShmEvent m.env ⟨⟨id, .logAppend m.key m.value⟩, crc, sig⟩ caller
  | .relayed author => do
    let (op, payload) ← ofExcept (logAppendCommand author m.key.1 m.value.1)
    handleForwardSetStream m.env (encodeCommand op m.key.1 payload)

theorem applyOp_of_ok {env : Env} {n : Node}
    (hok : (applyOp env op key value).outcome n = .ok ()) :
    (apply n.store ⟨encodeCommand op key value, env.now⟩).1.err = none ∧
      (applyOp env op key value).final n = n.applied env (encodeCommand op key value) := by
  obtain ⟨res, hres, hok, -⟩ := EStateM.bind_of_ok hok
  rw [outcome_raftApply] at hres
  rcases hfault : env.applyFault (encodeCommand op key value) with _ | f
  · rw [hfault] at hres
    cases hres
    constructor
    · rcases herr : (apply n.store ⟨encodeCommand op key value, env.now⟩).1.err with _ | e
      · rfl
      · simp only [herr] at hok
        cases hok
    · rw [final_applyOp, Env.commits, hfault]
      rfl
  · rw [hfault] at hres
    cases hres

theorem length_logAppendCommand {author payload : Bytes}
    (h : logAppendCommand author key value = .ok (op, payload)) :
    payload.length ≤ 65537 + value.length := by
  unfold logAppendCommand at h
  split_ifs at h
  split at h
  · cases h
  · split_ifs at h
    · rcases henc : encodeCommandRequestApplyPayload author value with e | p
      · rw [henc] at h
        cases h
      · rw [henc] at h
        cases h
        exact length_applyPayload henc
    · cases h
      omega

/-- What a leader does with an accepted `logAppend`, from wherever it came: the record is written,
no other log record changes, and nothing outside the store does. -/
theorem accepted_effect {n : Node} (hlead : n.isLeader = true) {m : Submission}
    (hok : m.serve.outcome n = .ok ()) :
    ∃ s', m.serve.final n = { n with store := s' } ∧
      RecordWritten m.key.1 m.value.1 n.store s' := by
  obtain ⟨env, route, key, value⟩ := m
  have hk : key.1.length < 256 ^ 4 := by
    have := key.2
    omega
  have hv {author payload : Bytes} {op : OpType}
      (hcmd : logAppendCommand author key.1 value.1 = .ok (op, payload)) : payload.length <
        256 ^ 4 := by
    have := length_logAppendCommand hcmd
    have := value.2
    omega
  -- both ways end in `applyOp` on the entry of the message
  have applied {author payload : Bytes} {op : OpType}
      (hcmd : logAppendCommand author key.1 value.1 = .ok (op, payload))
      (hok : (applyOp env op key.1 payload).outcome n = .ok ()) :
      ∃ s', (applyOp env op key.1 payload).final n = { n with store := s' } ∧
        RecordWritten key.1 value.1 n.store s' := by
    obtain ⟨herr, hfinal⟩ := applyOp_of_ok hok
    refine ⟨_, hfinal, ?_⟩
    rcases @decodeCommand_reencode op key.1 payload hk (hv hcmd) with ⟨e, hd⟩ | hd
    · simp only [apply, hd] at herr
      cases herr
    · exact recordWritten_of_accepted hcmd rfl hd herr
  cases route with
  | direct id crc sig caller =>
    obtain ⟨e, hevent, -, hfinal⟩ := EStateM.bind_of_ok hok
    rw [show (Submission.serve ⟨env, .direct id crc sig caller, key, value⟩).final n =
      _ from hfinal]
    obtain ⟨hdispatch, hfinal⟩ := dispatch_of_ok hevent
    rw [hfinal]
    obtain ⟨_, happend, -, hfinal⟩ := EStateM.bind_of_ok hdispatch
    rw [EStateM.final_pure,
      show (dispatch env caller id (.logAppend key value)).final n = _ from hfinal,
      EStateM.final_pure]
    unfold EStateM.outcome EStateM.final at *
    rw [logAppend_eq] at happend ⊢
    rcases hcmd : logAppendCommand (caller.remotePeer.getD n.peerID) key.1 value.1 with
      e | ⟨op, payload⟩
    · rw [hcmd] at happend
      cases happend
    rw [hcmd] at happend
    dsimp only at happend ⊢
    rw [handleOpForward_of_leader hlead] at happend ⊢
    exact applied hcmd happend
  | relayed author =>
    obtain ⟨⟨op, payload⟩, hcmd, hstream, hfinal⟩ := EStateM.bind_of_ok hok
    rw [EStateM.outcome_ofExcept] at hcmd
    rw [EStateM.final_ofExcept] at hstream hfinal
    rw [show (Submission.serve ⟨env, .relayed author, key, value⟩).final n = _ from hfinal]
    dsimp only at hstream ⊢
    obtain ⟨c, hdec, hforward, hfinal⟩ := EStateM.bind_of_ok hstream
    rw [show (handleForwardSetStream env (encodeCommand op key.1 payload)).final n = _ from hfinal]
    rw [outcome_wrapping, EStateM.outcome_ofExcept] at hdec
    rw [final_wrapping, EStateM.final_ofExcept] at hforward ⊢
    have hc : c = ⟨op, key.1, payload⟩ := by
      rcases @decodeCommand_reencode op key.1 payload hk (hv hcmd) with ⟨e, hd⟩ | hd
      · rw [hd] at hdec
        cases hdec
      · rw [hd] at hdec
        cases hdec
        rfl
    subst hc
    split_ifs at hforward ⊢
    · unfold EStateM.outcome EStateM.final at *
      rw [handleOpForward_of_leader hlead] at hforward ⊢
      exact applied hcmd hforward
    · cases hforward

end KvRaft.Daemon
