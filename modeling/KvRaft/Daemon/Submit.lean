import KvRaft.Daemon.Append
import KvRaft.Daemon.Reads

/-! # A stranger's log records

The key of a `logAppend` is parsed three times: by the gate (`logKindOfBound`), by the handler and
by the state machine (`parseKey`). A remote caller without standing passes the gate only with a key
whose kind reads as a command request there, so what it submits is a command request everywhere,
under its own name. -/

namespace KvRaft.Daemon

open Bytes Shmevent Kvfsm

/-! ## Passing the checks -/

section Message

variable {p : Bytes} {n : Node} {r : Request} {caller : CallerIdentity} {env : Env}
  (hcaller : caller.remotePeer = some p)
include hcaller

theorem final_checkStanding_bind
    (hstanding : isAuthorizedForGatedAccess n.store n.peerID p reservedGroupRemote = false)
    (id : UInt16) (m : Event) :
    (checkStanding caller m >>= fun _ => dispatch env caller id m).final n =
      if needsNoStanding m = true ∨ isCommandLogCarveOut n.store m p = true then
        (dispatch env caller id m).final n
      else n := by
  rw [EStateM.final_bind, outcome_checkStanding hcaller, final_checkStanding, hstanding]
  simp only [Bool.or_false, Bool.or_eq_true]
  split_ifs <;> rfl

theorem final_handleShmEvent_refused (h : refusedToRemote r.msg.body ≠ none) :
    (handleShmEvent env r caller).final n = n := by
  obtain ⟨e, he⟩ := Option.ne_none_iff_exists'.mp h
  have hcheck : checkRefused caller r.msg.body = throw (.notAvailableToRemote e) := by
    simp only [checkRefused, hcaller, he]
  rw [handleShmEvent, EStateM.final_bind, hcheck]
  rfl

/-- Signed or not, a stranger's message does nothing, or is of an open variant or in the carve-out
and is answered. -/
theorem final_handleShmEvent_cases
    (hstanding : isAuthorizedForGatedAccess n.store n.peerID p reservedGroupRemote = false) :
    (handleShmEvent env r caller).final n = n ∨
      (needsNoStanding r.msg.body = true ∨ isCommandLogCarveOut n.store r.msg.body p = true) ∧
        (handleShmEvent env r caller).final n =
          (dispatch env caller r.msg.id r.msg.body).final n := by
  by_cases hrefused : refusedToRemote r.msg.body = none
  · have hcheck : checkRefused caller r.msg.body = pure () := by
      simp only [checkRefused, hcaller, hrefused]
    have hgate := @final_checkStanding_bind p n caller env hcaller hstanding r.msg.id r.msg.body
    have answered (hfinal : (handleShmEvent env r caller).final n =
        (checkStanding caller r.msg.body >>= fun _ =>
          dispatch env caller r.msg.id r.msg.body).final n) :
        (handleShmEvent env r caller).final n = n ∨
          (needsNoStanding r.msg.body = true ∨ isCommandLogCarveOut n.store r.msg.body p = true) ∧
            (handleShmEvent env r caller).final n =
              (dispatch env caller r.msg.id r.msg.body).final n := by
      rw [hfinal, hgate]
      split_ifs with hopen
      · exact .inr ⟨hopen, rfl⟩
      · exact .inl rfl
    by_cases hsign : requiresSignature r.msg.body = true
    · rcases hverify : env.verify caller.verifyPub r.msg r.crc r.sig with e | ⟨⟩
      · left
        simp only [handleShmEvent, hcheck, pure_bind, hsign, if_true, hverify]
        rfl
      · refine answered ?_
        simp only [handleShmEvent, hcheck, pure_bind, hsign, if_true, hverify]
        rfl
    · refine answered ?_
      simp only [handleShmEvent, hcheck, pure_bind, hsign]
      rfl
  · exact .inl (final_handleShmEvent_refused hcaller hrefused)

theorem final_handleShmEvent_stranger
    (hstanding : isAuthorizedForGatedAccess n.store n.peerID p reservedGroupRemote = false)
    (hsigned : env.verify caller.verifyPub r.msg r.crc r.sig = .ok ()) :
    (handleShmEvent env r caller).final n =
      if refusedToRemote r.msg.body = none ∧
          (needsNoStanding r.msg.body = true ∨
            isCommandLogCarveOut n.store r.msg.body p = true) then
        (dispatch env caller r.msg.id r.msg.body).final n
      else n := by
  by_cases hrefused : refusedToRemote r.msg.body = none
  · have hcheck : checkRefused caller r.msg.body = pure () := by
      simp only [checkRefused, hcaller, hrefused]
    have hgate := @final_checkStanding_bind p n caller env hcaller hstanding r.msg.id r.msg.body
    simp only [handleShmEvent, hcheck, hsigned, pure_bind, hrefused, true_and]
    by_cases hreq : requiresSignature r.msg.body = true
    · rw [if_pos hreq]
      exact hgate
    · rw [if_neg hreq]
      exact hgate
  · rw [if_neg fun h => hrefused h.1]
    exact final_handleShmEvent_refused hcaller hrefused

end Message

/-! ## Behind the gate -/

theorem logAppendCommand_of_carveOut {s : Store} {key value : Data} {p author payload : Bytes}
    {op : OpType} (hcarve : isCommandLogCarveOut s (.logAppend key value) p = true)
    (hcmd : logAppendCommand author key.1 value.1 = .ok (op, payload)) :
    op = .appendCommandRequest ∧ encodeCommandRequestApplyPayload author value.1 = .ok payload := by
  unfold logAppendCommand at hcmd
  split_ifs at hcmd
  rcases hparse : Logrecord.parseKey key.1 with e | k
  · rw [hparse] at hcmd
    cases hcmd
  have hkind : (parseCommandRequestLogKind k.kind).isSome = true := by
    unfold isCommandLogCarveOut at hcarve
    simpa only [logKindOfBound_of_parseKey hparse] using hcarve
  rcases henc : encodeCommandRequestApplyPayload author value.1 with e | payload'
  · simp only [hparse, hkind, henc, if_true] at hcmd
    cases hcmd
  · simp only [hparse, hkind, henc, if_true] at hcmd
    cases hcmd
    exact ⟨rfl, rfl⟩

theorem final_logAppend_carveOut {p : Bytes} {caller : CallerIdentity} {n : Node} {key value : Data}
    (hcaller : caller.remotePeer = some p)
    (hcarve : isCommandLogCarveOut n.store (.logAppend key value) p = true) (env : Env)
    (id : UInt16) :
    (dispatch env caller id (.logAppend key value)).final n = n ∨
      ∃ payload, encodeCommandRequestApplyPayload p value.1 = .ok payload ∧
        ((dispatch env caller id (.logAppend key value)).final n =
            n.applied env (encodeCommand .appendCommandRequest key.1 payload) ∨
          ∃ leader, (dispatch env caller id (.logAppend key value)).final n =
            n.forward ⟨leader, .set, encodeCommand .appendCommandRequest key.1 payload⟩) := by
  have hf : (dispatch env caller id (.logAppend key value)).final n =
      (logAppend env caller key.1 value.1).final n := EStateM.final_bind_of_pure (fun _ _ => rfl) n
  rw [hf, EStateM.final, logAppend_eq, hcaller, Option.getD_some]
  rcases hcmd : logAppendCommand p key.1 value.1 with e | ⟨op, payload⟩
  · exact .inl rfl
  obtain ⟨rfl, hpay⟩ := logAppendCommand_of_carveOut hcarve hcmd
  rcases final_handleOpForward env .appendCommandRequest key.1 payload n with h | h
  · exact .inl h
  · exact .inr ⟨payload, hpay, h⟩

/-- The submitted request is accepted for its author and with the value of the
message, or refused. -/
theorem submission_applied {p payload : Bytes} {key value : Data}
    (hpay : encodeCommandRequestApplyPayload p value.1 = .ok payload) (env : Env) (n : Node) :
    (n.applied env (encodeCommand .appendCommandRequest key.1 payload)).store = n.store ∨
      ∃ commandID, Appended p commandID n.store key.1 value.1
        (n.applied env (encodeCommand .appendCommandRequest key.1 payload)).store := by
  have hk := key.2
  have hv := value.2
  have hlen := length_applyPayload hpay
  rcases @appendCommandRequest_applied key.1 payload (by omega) (by omega) env n with
    hs | ⟨author, record, commandID, hdec, happ⟩
  · exact .inl hs
  · rw [decodeCommandRequestApplyPayload_encode hpay] at hdec
    cases hdec
    exact .inr ⟨commandID, happ⟩

/-- **A stranger's log append is an authorised command submission.** It leaves the store as it is,
or its key parses as that of a request for a command that the stranger may run, and exactly that
record is written with the value given, with the two grants that come with the default public
command. Whatever the key, the gate, the handler and the state machine agree on its kind, and the
handler never submits a plain `Set` for what the gate let through. -/
theorem logAppend_stranger :
    (∀ (n : Node) (env : Env) (r : Request) (caller : CallerIdentity) (p : Bytes) (key
      value : Data), caller.remotePeer = some p →
      isAuthorizedForGatedAccess n.store n.peerID p reservedGroupRemote = false →
      r.msg.body = .logAppend key value →
      ((handleShmEvent env r caller).final n).store = n.store ∨
        ∃ commandID, Appended p commandID n.store key.1 value.1
          ((handleShmEvent env r caller).final n).store) ∧
    (∀ (key : Bytes) (k : Logrecord.ParsedKey), Logrecord.parseKey key = .ok k →
      logKindOfBound key = some k.kind) ∧
    (∀ (s : Store) (key value : Data) (p author payload : Bytes) (op : OpType),
      isCommandLogCarveOut s (.logAppend key value) p = true →
      logAppendCommand author key.1 value.1 = .ok (op, payload) → op = .appendCommandRequest) := by
  refine ⟨?_, fun key k => logKindOfBound_of_parseKey,
    fun s key value p author payload op hcarve hcmd =>
    (logAppendCommand_of_carveOut hcarve hcmd).1⟩
  intro n env r caller p key value hcaller hstanding hbody
  rcases @final_handleShmEvent_cases p n r caller env hcaller hstanding with h | ⟨hgate, h⟩
  · rw [h]
    exact .inl rfl
  rw [h, hbody]
  rw [hbody] at hgate
  have hcarve := hgate.resolve_left Bool.false_ne_true
  rcases final_logAppend_carveOut hcaller hcarve env r.msg.id with
    h | ⟨payload, hpay, h | ⟨leader, h⟩⟩ <;>
    rw [h]
  · exact .inl rfl
  · exact submission_applied hpay env n
  · exact .inl rfl

/-- The stranger `p` submits a request for the command `c`, which everybody may run. -/
def strangerSubmission : Request where
  msg := ⟨7, .logAppend
    ⟨Logrecord.kindUnitPrefix (commandRequestLogKind (ascii "c")) (ascii "i") ++ beBytes 8 1,
      by decide⟩
    ⟨ascii "x", by decide⟩⟩
  crc := 0
  sig := []

theorem logAppend_stranger_accepted :
    ∃ commandID, Appended (ascii "p") commandID publicCommand
      (Logrecord.kindUnitPrefix (commandRequestLogKind (ascii "c")) (ascii "i") ++ beBytes 8 1)
      (ascii "x")
      ((handleShmEvent {} strangerSubmission ⟨[], some (ascii "p")⟩).final
        (Node.alone (ascii "l") publicCommand)).store :=
  (logAppend_stranger.1 (Node.alone (ascii "l") publicCommand) {} strangerSubmission
    ⟨[], some (ascii "p")⟩ (ascii "p") _ _ rfl (by decide) rfl).resolve_left (by decide)

end KvRaft.Daemon
