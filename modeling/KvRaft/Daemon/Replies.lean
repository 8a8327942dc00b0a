import KvRaft.Daemon.Append

/-! # What a node hears of its forwarded requests (`pkg/daemon/forward.go`)

A node that does not lead hands a write, a confirmation, a leave or a kick to the leader, and takes
what it can read of the answer for the outcome. On the set protocol every answer begins with a
status byte and the answer to a success has nine bytes. On the other three the answer to a success
is empty, and so is what a handler leaves behind that is gone before its first byte. -/

namespace KvRaft.Daemon

open Bytes Shmevent Kvfsm EStateM

/-! ## The asking side -/

def forwardLeave (env : Env) (leaderID : Bytes) : M Unit := do
  let resp ← send env leaderID .leave []
  if resp ≠ [] then throw (.forwardLeaveRejected resp) else pure ()

def forwardKick (env : Env) (leaderID target : Bytes) : M Unit := do
  let resp ← send env leaderID .kick target
  if resp ≠ [] then throw (.forwardKickRejected resp) else pure ()

inductive Forwarding
  | write (op : OpType) (key value : Bytes)
  | confirm (op : OpType) (key1 key2 : Bytes)
  | leave
  | kick (target : Bytes)
deriving DecidableEq

namespace Forwarding

def proto : Forwarding → Proto
  | write .. => .set
  | confirm .. => .confirm
  | leave => .leave
  | kick _ => .kick

def request : Forwarding → Bytes
  | write op key value => encodeCommand op key value
  | confirm op key1 key2 => encodeCommand op key1 key2
  | leave => []
  | kick target => target

def ask (env : Env) (leaderID : Bytes) : Forwarding → M Unit
  | write op key value => forwardOp env op leaderID key value
  | confirm op key1 key2 => forwardConfirm env leaderID op key1 key2
  | leave => forwardLeave env leaderID
  | kick target => forwardKick env leaderID target

/-- The leader's handler, with what its read of the stream gives. Whether the peer at the other end
may ask is looked at before that. -/
def handler (env : Env) (remote : Bytes) (received : Except Err Bytes) : Forwarding → M Unit
  | write .. =>
    match received with
    | .ok buf => handleForwardSetStream env buf
    | .error e => throw e
  | confirm .. =>
    match received with
    | .ok buf => handleForwardConfirmStream env remote buf
    | .error e => do
      if isVoter (← get) remote then throw e else throw (.notVoter remote)
  | leave => handleForwardLeaveStream env remote
  | kick _ =>
    match received with
    | .ok buf => handleForwardKickStream env remote buf
    | .error e => do
      if isVoter (← get) remote then
        if (← get).isLeader then throw e else throw (.alreadyForwarded (← get).leaderID)
      else throw (.notVoter remote)

end Forwarding

/-! ## The answering side -/

def writeForwardSuccess (index : UInt64) : Bytes := forwardStatusOK :: beBytes 8 index.toNat

def writeForwardError (text : Bytes) : Bytes := forwardStatusErr :: text

def Forwarding.reply (text : Proto → Err → Bytes) (index : UInt64) (f : Forwarding) :
    Except Err Unit → Bytes
  | .ok () =>
    match f with
    | write .. => writeForwardSuccess index
    | _ => []
  | .error e =>
    match f with
    | write .. => writeForwardError (text .set e)
    | f => text f.proto e

inductive Stop
  /-- It is gone before its operation is over. -/
  | died
  /-- The operation is over, and the stream is closed after that many bytes of the answer. -/
  | replied (size : Nat)
deriving DecidableEq

/-- The answer's first byte gets through, if it has one. -/
def Stop.Speaks (stop : Stop) : Prop := ∃ size, stop = .replied size ∧ 0 < size

/-- The leader's side of one stream. -/
structure Exchange where
  leader : Node
  env : Env
  /-- The authenticated peer at the other end. -/
  remote : Bytes
  /-- Why the read of the request failed, if it did. -/
  readErr : Option Err
  /-- The index of the entry, if one is applied. -/
  index : UInt64
  stop : Stop

namespace Exchange

def outcome (x : Exchange) (f : Forwarding) : Except Err Unit :=
  (f.handler x.env x.remote (x.readErr.elim (.ok f.request) .error)).outcome x.leader

def heard (text : Proto → Err → Bytes) (x : Exchange) (f : Forwarding) : Bytes :=
  match x.stop with
  | .died => []
  | .replied size => (f.reply text x.index (x.outcome f)).take size

def Completed (x : Exchange) (f : Forwarding) : Prop :=
  x.stop ≠ .died ∧ x.outcome f = .ok ()

end Exchange

variable {key value buf remote : Bytes} {op : OpType} {text : Proto → Err → Bytes} {f : Forwarding}
  {n : Node} {x : Exchange}

theorem decodeForwardResponse_take {index : UInt64} {r : Except Err Unit} {size i : Nat}
    (h : decodeForwardResponse (((Forwarding.write op key value).reply text index r).take size) =
      .ok i) :
    r = .ok () ∧ i = index.toNat := by
  cases size with
  | zero => cases h
  | succ size =>
    cases r with
    | error e => cases h
    | ok u =>
      refine ⟨rfl, ?_⟩
      change (if (List.take size (beBytes 8 index.toNat)).length ≠ 8 then _ else _) = _ at h
      split_ifs at h with hlen
      cases h
      rw [List.take_of_length_le (by simpa using hlen), beNat_beBytes]
      exact index.toNat_lt

/-! ## One exchange -/

/-- What the asking side takes for a success. -/
def Forwarding.Accepts (resp : Bytes) : Forwarding → Prop
  | write .. => ∃ i, decodeForwardResponse resp = .ok i
  | _ => resp = []

section Ask

variable {env : Env} {leaderID resp : Bytes} {proto : Proto} {request : Bytes}

theorem send_ok (h : env.deliver leaderID proto request = .sent (.ok resp)) (n : Node) :
    send env leaderID proto request n = .ok resp (n.forward ⟨leaderID, proto, request⟩) := by
  rw [send, h]
  rfl

theorem outcome_send_empty (h : env.deliver leaderID proto request = .sent (.ok resp))
    (rejected : Bytes → Err) (n : Node) :
    (do let resp ← send env leaderID proto request
        if resp ≠ [] then throw (rejected resp) else pure () : M Unit).outcome n = .ok () ↔
          resp = [] := by
  have hrun := run_bind_of_ok (send_ok h n) fun resp =>
    (if resp ≠ [] then throw (rejected resp) else pure () : M Unit)
  rw [EStateM.outcome, hrun]
  by_cases hresp : resp = []
  · rw [if_neg (not_not_intro hresp)]
    exact iff_of_true rfl hresp
  · rw [if_pos hresp]
    refine iff_of_false (fun h => ?_) hresp
    cases h

theorem outcome_forwardOp {op : OpType} {key value : Bytes}
    (h : env.deliver leaderID .set (encodeCommand op key value) = .sent (.ok resp)) (n : Node) :
    (forwardOp env op leaderID key value).outcome n = .ok () ↔
      ∃ i, decodeForwardResponse resp = .ok i := by
  have hrun := run_bind_of_ok (send_ok h n) fun resp =>
    (do let _ ← ofExcept (decodeForwardResponse resp) : M Unit)
  rw [EStateM.outcome, forwardOp, hrun]
  cases decodeForwardResponse resp with
  | error e =>
    refine iff_of_false (fun h => ?_) ?_
    · cases h
    · rintro ⟨i, h⟩
      cases h
  | ok i => exact iff_of_true rfl ⟨i, rfl⟩

end Ask

theorem ask_ok_iff {env : Env} {leaderID resp : Bytes}
    (h : env.deliver leaderID f.proto f.request = .sent (.ok resp)) (n : Node) :
    (f.ask env leaderID).outcome n = .ok () ↔ f.Accepts resp := by
  cases f with
  | write op key value => exact outcome_forwardOp h n
  | confirm op key1 key2 => exact outcome_send_empty h .forwardConfirmRejected n
  | leave => exact outcome_send_empty h .forwardLeaveRejected n
  | kick target => exact outcome_send_empty h .forwardKickRejected n

namespace Exchange

/-- The leader's raft took the operation, and its state machine the entry. -/
def RaftDone (x : Exchange) (f : Forwarding) : Prop :=
  match f with
  | .leave => (changeConfig x.env (.removeServer x.remote)).outcome x.leader = .ok ()
  | .kick target => (changeConfig x.env (.removeServer target)).outcome x.leader = .ok ()
  | f => ∃ c res, decodeCommand f.request = .ok c ∧
    (raftApply x.env (encodeCommand c.op c.key c.value)).outcome x.leader = .ok res ∧ res.err = none

end Exchange

theorem raftApply_of_applyOp {env : Env}
    (h : (applyOp env op key value).outcome n = .ok ()) :
    ∃ res, (raftApply env (encodeCommand op key value)).outcome n = .ok res ∧ res.err = none := by
  obtain ⟨res, hres, hok, -⟩ := bind_of_ok h
  refine ⟨res, hres, ?_⟩
  cases herr : res.err with
  | none => rfl
  | some e =>
    rw [herr] at hok
    cases hok

theorem applyOp_of_handleOpForward {env : Env}
    (h : (handleOpForward env op key value false).outcome n = .ok ()) :
    (applyOp env op key value).outcome n = .ok () := by
  rw [EStateM.outcome, handleOpForward, run_resolveWriteTarget] at h
  rcases htarget : n.writeTarget with e | _ | leaderID <;> rw [htarget] at h
  · cases h
  · exact h
  · cases h

theorem applyOp_of_handleConfirmForward {env : Env} {key1 key2 : Bytes}
    (h : (handleConfirmForward env op key1 key2 false).outcome n = .ok ()) :
    (applyOp env op key1 key2).outcome n = .ok () := by
  rw [EStateM.outcome, handleConfirmForward, handleConfirmForwardWith, run_resolveWriteTarget] at h
  rcases htarget : n.writeTarget with e | _ | leaderID <;> rw [htarget] at h
  · cases h
  · obtain ⟨u, hu, -⟩ :=
      bind_of_ok (show (applyConfirmWith env _ op key1 key2).outcome n = .ok () from h)
    exact hu
  · cases h

theorem changeConfig_of_removeServerLine {env : Env} {peerID : Bytes}
    (h : (removeServerLine env peerID).outcome n = .ok ()) :
    (changeConfig env (.removeServer peerID)).outcome n = .ok () := by
  obtain ⟨u, hu, -⟩ := bind_of_ok h
  exact hu

theorem decodeCommand_of_wrapping {ctx : Ctx} {g : Command → M Unit}
    (h : (wrapping ctx (ofExcept (decodeCommand buf)) >>= g).outcome n = .ok ()) :
    ∃ c, decodeCommand buf = .ok c ∧ (g c).outcome n = .ok () := by
  rcases hdec : decodeCommand buf with e | c <;> rw [hdec] at h
  · cases h
  · exact ⟨c, rfl, h⟩

theorem raftApply_of_handleForwardSetStream {env : Env}
    (h : (handleForwardSetStream env buf).outcome n = .ok ()) :
    ∃ c res, decodeCommand buf = .ok c ∧
      (raftApply env (encodeCommand c.op c.key c.value)).outcome n = .ok res ∧ res.err = none := by
  obtain ⟨c, hdec, hc⟩ := decodeCommand_of_wrapping h
  split_ifs at hc
  · obtain ⟨res, hres⟩ := raftApply_of_applyOp (applyOp_of_handleOpForward hc)
    exact ⟨c, res, hdec, hres⟩
  · cases hc

theorem raftApply_of_handleForwardConfirmStream {env : Env}
    (h : (handleForwardConfirmStream env remote buf).outcome n = .ok ()) :
    ∃ c res, decodeCommand buf = .ok c ∧
      (raftApply env (encodeCommand c.op c.key c.value)).outcome n = .ok res ∧ res.err = none := by
  rw [handleForwardConfirmStream, outcome_get_bind] at h
  split_ifs at h
  · obtain ⟨c, hdec, hc⟩ := decodeCommand_of_wrapping h
    split_ifs at hc
    · obtain ⟨res, hres⟩ := raftApply_of_applyOp (applyOp_of_handleConfirmForward hc)
      exact ⟨c, res, hdec, hres⟩
    · cases hc
  · cases h

theorem changeConfig_of_handleForwardLeaveStream {env : Env}
    (h : (handleForwardLeaveStream env remote).outcome n = .ok ()) :
    (changeConfig env (.removeServer remote)).outcome n = .ok () := by
  rw [handleForwardLeaveStream, outcome_get_bind] at h
  split_ifs at h
  · exact changeConfig_of_removeServerLine h
  · cases h

theorem changeConfig_of_handleForwardKickStream {env : Env} {target : Bytes}
    (h : (handleForwardKickStream env remote target).outcome n = .ok ()) :
    (changeConfig env (.removeServer target)).outcome n = .ok () := by
  rw [handleForwardKickStream, outcome_get_bind] at h
  by_cases hvoter : isVoter n remote = true
  · rw [if_pos hvoter, outcome_get_bind] at h
    split_ifs at h
    · cases h
    · exact changeConfig_of_removeServerLine h
    · cases h
  · rw [if_neg hvoter] at h
    cases h

theorem Exchange.outcome_of_readErr (h : x.outcome f = .ok ())
    (hf : f ≠ .leave) : (f.handler x.env x.remote (.ok f.request)).outcome x.leader = .ok () := by
  unfold Exchange.outcome at h
  cases hread : x.readErr with
  | none => rwa [hread] at h
  | some e =>
    rw [hread] at h
    cases f with
    | write op key value => cases h
    | leave => exact absurd rfl hf
    | confirm op key1 key2 =>
      rw [Option.elim, Forwarding.handler, outcome_get_bind] at h
      split_ifs at h <;> cases h
    | kick target =>
      rw [Option.elim, Forwarding.handler, outcome_get_bind] at h
      split_ifs at h
      · rw [outcome_get_bind] at h
        split_ifs at h <;> cases h
      · cases h

theorem Exchange.raftDone (h : x.outcome f = .ok ()) : x.RaftDone f := by
  cases f with
  | write op key value =>
    exact raftApply_of_handleForwardSetStream (Exchange.outcome_of_readErr h nofun)
  | confirm op key1 key2 =>
    exact raftApply_of_handleForwardConfirmStream (Exchange.outcome_of_readErr h nofun)
  | leave => exact changeConfig_of_handleForwardLeaveStream h
  | kick target =>
    exact changeConfig_of_handleForwardKickStream (Exchange.outcome_of_readErr h nofun)

/-! ## Every leader -/

/-- A leader whose read of the request, or else its raft, fails with `e`. -/
def Exchange.failing (e : Err) (stop : Stop) : Exchange where
  leader := Node.alone (ascii "l") OrdMap.empty
  env := { configFault := fun _ => some ⟨e, false⟩ }
  remote := ascii "l"
  readErr := some e
  index := 0
  stop := stop

theorem Exchange.outcome_failing (e : Err) (stop : Stop) (f : Forwarding) :
    (Exchange.failing e stop).outcome f = .error e := by
  cases f <;> rfl

theorem Forwarding.reply_error (hf : f.proto ≠ .set) (text : Proto → Err → Bytes)
    (index : UInt64) (e : Err) : f.reply text index (.error e) = text f.proto e := by
  cases f with
  | write op key value => exact absurd rfl hf
  | confirm op key1 key2 => rfl
  | leave => rfl
  | kick target => rfl

theorem Forwarding.accepts_nil (hf : f.proto ≠ .set) {resp : Bytes} :
    f.Accepts resp ↔ resp = [] := by
  cases f with
  | write op key value => exact absurd rfl hf
  | confirm op key1 key2 => rfl
  | leave => rfl
  | kick target => rfl

/-- On the set protocol a part of an answer never passes for a success. -/
theorem Exchange.completed_of_accepts_set
    (hf : f.proto = .set) (h : f.Accepts (x.heard text f)) : x.Completed f := by
  obtain ⟨op, key, value, rfl⟩ : ∃ op key value, f = .write op key value := by
    cases f with
    | write op key value => exact ⟨op, key, value, rfl⟩
    | confirm op key1 key2 => cases hf
    | leave => cases hf
    | kick target => cases hf
  obtain ⟨i, hi⟩ := h
  unfold Exchange.heard at hi
  cases hstop : x.stop with
  | died =>
    rw [hstop] at hi
    cases hi
  | replied size =>
    rw [hstop] at hi
    exact ⟨hstop ▸ nofun, (decodeForwardResponse_take hi).1⟩

theorem Exchange.completed_of_speaks
    (hf : f.proto ≠ .set) (hspeaks : x.stop.Speaks) (htext : ∀ e, text f.proto e ≠ [])
    (h : x.heard text f = []) : x.Completed f := by
  obtain ⟨size, hstop, hpos⟩ := hspeaks
  refine ⟨hstop ▸ nofun, ?_⟩
  unfold Exchange.heard at h
  rw [hstop] at h
  cases hout : x.outcome f with
  | ok u => rfl
  | error e =>
    rw [hout, Forwarding.reply_error hf] at h
    rcases List.take_eq_nil_iff.mp h with h | h
    · omega
    · exact absurd h (htext e)

/-- **What a forwarding node reports.** Whatever the leader is and does, a reported success means
that its handler completed the operation without error, and then its raft took the operation and its
state machine the entry: on the set protocol always, on the others exactly if the handler lives to
write the first byte of its answer and no error has an empty text. -/
theorem forward_reports_iff (text : Proto → Err → Bytes) (f : Forwarding) (stop : Stop) :
    (∀ (x : Exchange) (env : Env) (leaderID : Bytes) (n : Node), x.stop = stop →
        env.deliver leaderID f.proto f.request = .sent (.ok (x.heard text f)) →
        (f.ask env leaderID).outcome n = .ok () → x.Completed f ∧ x.RaftDone f) ↔
      f.proto = .set ∨ stop.Speaks ∧ ∀ e, text f.proto e ≠ [] := by
  constructor
  · intro h
    by_cases hf : f.proto = .set
    · exact .inl hf
    -- a leader that fails is not heard
    have hunheard (e : Err) : (Exchange.failing e stop).heard text f ≠ [] := by
      intro hheard
      have hask := (@ask_ok_iff f { deliver := fun _ _ _ => .sent (.ok []) } [] [] rfl
        (Node.alone [] OrdMap.empty)).mpr ((Forwarding.accepts_nil hf).mpr rfl)
      have hdone := h (.failing e stop) _ _ _ rfl (by rw [hheard]) hask
      cases (Exchange.outcome_failing e stop f).symm.trans hdone.1.2
    refine .inr ⟨?_, fun e htext => hunheard e ?_⟩
    · rcases stop with _ | size
      · exact absurd rfl (hunheard .jsonType)
      · refine ⟨size, rfl, Nat.pos_of_ne_zero fun hzero => hunheard .jsonType ?_⟩
        rw [hzero]
        rfl
    · unfold Exchange.heard
      rw [Exchange.outcome_failing, Forwarding.reply_error hf, htext]
      cases stop <;> simp [Exchange.failing]
  · rintro hcond x env leaderID n rfl hdeliver hask
    have haccepts := (ask_ok_iff hdeliver n).mp hask
    have hcompleted : x.Completed f := by
      by_cases hf : f.proto = .set
      · exact Exchange.completed_of_accepts_set hf haccepts
      · obtain ⟨hspeaks, htext⟩ := hcond.resolve_left hf
        exact Exchange.completed_of_speaks hf hspeaks htext
          ((Forwarding.accepts_nil hf).mp haccepts)
    exact ⟨hcompleted, Exchange.raftDone hcompleted.2⟩

def askedAlone (stop : Stop) : Exchange where
  leader := Node.alone (ascii "l") OrdMap.empty
  env := {}
  remote := ascii "q"
  readErr := none
  index := 7
  stop := stop

/-- The asking node's libraries, when these bytes come back. -/
def answering (resp : Bytes) : Env := { deliver := fun _ _ _ => .sent (.ok resp) }

/-- The whole answer to a write, and the silence of a handler that would have spoken. -/
theorem forward_reports_done :
    (((Forwarding.write .set (ascii "k") (ascii "v")).ask (answering (writeForwardSuccess 7))
        (ascii "l")).outcome (Node.alone (ascii "q") OrdMap.empty) = .ok () ∧
      (askedAlone (.replied 9)).RaftDone (.write .set (ascii "k") (ascii "v"))) ∧
    (Forwarding.leave.ask (answering []) (ascii "l")).outcome
      (Node.alone (ascii "q") OrdMap.empty) = .ok () ∧
      (askedAlone (.replied 1)).RaftDone .leave := by
  refine ⟨⟨rfl, ?_⟩, rfl, ?_⟩
  · exact ((forward_reports_iff (fun _ _ => []) (.write .set (ascii "k") (ascii "v"))
      (.replied 9)).mpr (.inl rfl) (askedAlone (.replied 9)) (answering (writeForwardSuccess 7))
        (ascii "l") (Node.alone (ascii "q") OrdMap.empty) rfl rfl rfl).2
  · exact ((forward_reports_iff (fun _ _ => ascii "refused") .leave (.replied 1)).mpr
      (.inr ⟨⟨1, rfl, Nat.one_pos⟩, fun _ => by decide⟩) (askedAlone (.replied 1)) (answering [])
        (ascii "l") (Node.alone (ascii "q") OrdMap.empty) rfl rfl rfl).2

/-- A confirmation, a leave and a kick whose handlers are gone before a word, and a kick that is
refused (`q` is no voter) with the answer lost, are all reported as done. -/
theorem unheard_success :
    (∀ f ∈ [Forwarding.confirm .set (ascii "k") (ascii "v"), .leave, .kick (ascii "l")],
      (askedAlone .died).heard (fun _ _ => ascii "refused") f = [] ∧
        (f.ask (answering []) (ascii "l")).outcome (Node.alone (ascii "q") OrdMap.empty) = .ok () ∧
        ¬(askedAlone .died).Completed f) ∧
    (askedAlone (.replied 0)).heard (fun _ _ => ascii "refused") (.kick (ascii "l")) = [] ∧
      (askedAlone (.replied 0)).outcome (.kick (ascii "l")) = .error (.notVoter (ascii "q")) := by
  refine ⟨fun f hf => ⟨rfl, ?_, fun hcompleted => hcompleted.1 rfl⟩, rfl, rfl⟩
  simp only [List.mem_cons, List.not_mem_nil, or_false] at hf
  rcases hf with rfl | rfl | rfl <;> rfl

end KvRaft.Daemon
