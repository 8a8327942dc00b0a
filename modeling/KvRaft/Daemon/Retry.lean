import KvRaft.Daemon.Confirmed
import KvRaft.Daemon.Sync

/-! # Confirming a cluster join again

A confirmation of a pending join is one raft entry that moves the record, and after it a change of
the configuration from what the record says. The second step can fail when the first is done. -/

namespace KvRaft.Daemon

open Bytes Shmevent Kvfsm EStateM

def applyConfirm (env : Env) (op : OpType) (key1 key2 : Bytes) : M Unit :=
  applyConfirmWith env (admitClusterJoinIfConfirmed env) op key1 key2

def confirmedJoinKey (peerID : Bytes) : Bytes := systemKey kindClusterJoin statusConfirmed peerID

def confirmEntry (peerID : Bytes) : Bytes :=
  encodeCommand .confirm (pendingJoinKey peerID) (confirmedJoinKey peerID)

def confirmJoin (env : Env) (peerID : Bytes) : M Unit :=
  applyConfirm env .confirm (pendingJoinKey peerID) (confirmedJoinKey peerID)

def promoted (s : Store) (peerID v : Bytes) : Store :=
  (s.set (confirmedJoinKey peerID) v).delete (pendingJoinKey peerID)

theorem pendingJoinKey_ne (peerID : Bytes) : pendingJoinKey peerID ≠ confirmedJoinKey peerID := by
  intro h
  exact absurd (systemKey_inj.mp h).2.1 (by decide)

theorem get_promoted_pending (s : Store) (peerID v : Bytes) :
    (promoted s peerID v).get (pendingJoinKey peerID) = none := by
  rw [promoted, Store.delete, OrdMap.get_erase, if_pos rfl]

theorem get_promoted_confirmed (s : Store) (peerID v : Bytes) :
    (promoted s peerID v).get (confirmedJoinKey peerID) = some v := by
  rw [promoted, Store.delete, OrdMap.get_erase, if_neg (pendingJoinKey_ne peerID).symm, Store.set,
    OrdMap.get_insert, if_pos rfl]

/-! ## The second step -/

theorem outcome_addServerLine (env : Env) (peerID addr : Bytes) (sf : Suffrage) (n : Node) :
    (addServerLine env peerID addr sf).outcome n =
      match env.configFault (addServer peerID addr sf) with
      | none => .ok ()
      | some f => .error f.err := by
  unfold addServerLine
  rw [outcome_bind, outcome_changeConfig]
  cases env.configFault (addServer peerID addr sf) with
  | none =>
    dsimp only
    split_ifs <;> rfl
  | some f => rfl

theorem store_addServerLine_of_fault {env : Env} {peerID addr : Bytes} {sf : Suffrage} {f : Fault}
    (hfault : env.configFault (addServer peerID addr sf) = some f) (n : Node) :
    ((addServerLine env peerID addr sf).final n).store = n.store := by
  unfold addServerLine
  rw [final_bind, outcome_changeConfig, hfault]
  dsimp only
  rw [final_changeConfig]
  split_ifs <;> rfl

section Admit

variable {env : Env} {peerID v : Bytes} {n : Node}
  (hv : n.store.get (confirmedJoinKey peerID) = some v)
include hv

theorem run_admitConfirmed :
    admitClusterJoinIfConfirmed env (confirmedJoinKey peerID) n =
      match decodeClusterJoinMetadata v with
      | .error e => .error (.wrap (.clusterJoinDecode peerID) e) n
      | .ok (addr, sf) =>
        wrapping .clusterJoin (addServerLine env peerID addr (suffrageOf sf)) n := by
  have hkind : ¬systemKind (confirmedJoinKey peerID) ≠ some kindClusterJoin := not_not_intro rfl
  have hread :
      (wrapping (.clusterJoinRead peerID) (ofExcept (n.store.get! (confirmedJoinKey peerID))) :
        M Bytes) n =
      .ok v n := by
    rw [Store.get!, hv]
    rfl
  rw [admitClusterJoinIfConfirmed, if_neg hkind]
  have hnode : (get : M Node) n = .ok n n := rfl
  refine (run_bind_of_ok hnode _).trans ((run_bind_of_ok hread _).trans ?_)
  rcases hdecode : decodeClusterJoinMetadata v with e | ⟨addr, sf⟩ <;> rfl

end Admit

/-! ## The whole confirmation -/

section Confirm

variable {env : Env} {peerID : Data} {v : Bytes} {n : Node}

theorem encodeCommand_confirm (peerID : Bytes) :
    encodeCommand .confirm (pendingJoinKey peerID) (confirmedJoinKey peerID) =
      confirmEntry peerID := rfl

theorem decode_confirmEntry (peerID : Data) : decodeCommand (confirmEntry peerID.1) =
    .ok ⟨.confirm, pendingJoinKey peerID.1, confirmedJoinKey peerID.1⟩ := by
  have := peerID.2
  refine decodeCommand_encodeCommand ?_
  simp only [pendingJoinKey, confirmedJoinKey, systemKey, List.length_cons]
  omega

variable (hpending : n.store.get (pendingJoinKey peerID.1) = some v)
include hpending

theorem apply_confirmEntry (t : Int) : apply n.store ⟨confirmEntry peerID.1, t⟩ =
    match checkSystemListCap n.store (confirmedJoinKey peerID.1) with
    | .error e => fail n.store e
    | .ok () => ({}, promoted n.store peerID.1 v) := by
  simp only [apply, decode_confirmEntry, Kvfsm.applyConfirm, Store.get!, hpending]
  rcases checkSystemListCap n.store (confirmedJoinKey peerID.1) with e | ⟨⟩ <;> rfl

theorem confirmJoin_refused {e : Err}
    (hcap : checkSystemListCap n.store (confirmedJoinKey peerID.1) = .error e) :
    ((confirmJoin env peerID.1).final n).store = n.store := by
  have happly := apply_confirmEntry hpending env.now
  rw [hcap] at happly
  have hfinal :
      ((applyOp env .confirm (pendingJoinKey peerID.1) (confirmedJoinKey peerID.1)).final n).store =
      n.store := by
    rw [final_applyOp]
    split_ifs
    · exact congrArg Prod.snd happly
    · rfl
  rw [confirmJoin, applyConfirm, applyConfirmWith, final_bind]
  rcases hrun : (applyOp env .confirm (pendingJoinKey peerID.1) (confirmedJoinKey peerID.1)).outcome
    n with e' | u
  · exact hfinal
  · have herr := (applyOp_of_ok hrun).1
    rw [encodeCommand_confirm, happly] at herr
    cases herr

omit hpending in
theorem confirmJoin_fault {f : Fault} (hfault : env.applyFault (confirmEntry peerID.1) = some f) :
    (confirmJoin env peerID.1).outcome n = .error f.err ∧
      (confirmJoin env peerID.1).final n =
        if f.committed then n.applied env (confirmEntry peerID.1) else n := by
  have hrun :
      (applyOp env .confirm (pendingJoinKey peerID.1) (confirmedJoinKey peerID.1)).outcome n =
      .error f.err := by
    rw [applyOp, outcome_bind, outcome_raftApply, encodeCommand_confirm, hfault]
  constructor
  · rw [confirmJoin, applyConfirm, applyConfirmWith, outcome_bind, hrun]
  · rw [confirmJoin, applyConfirm, applyConfirmWith, final_bind, hrun]
    dsimp only
    rw [final_applyOp, encodeCommand_confirm, Env.commits, hfault]

theorem run_confirmJoin (hcap : checkSystemListCap n.store (confirmedJoinKey peerID.1) = .ok ())
    (hcalm : env.applyFault (confirmEntry peerID.1) = none) :
    confirmJoin env peerID.1 n =
      admitClusterJoinIfConfirmed env (confirmedJoinKey peerID.1)
        (n.withStore (promoted n.store peerID.1 v)) := by
  have happly := apply_confirmEntry hpending env.now
  rw [hcap] at happly
  have happlied : applyOp env .confirm (pendingJoinKey peerID.1) (confirmedJoinKey peerID.1) n =
      .ok () (n.withStore (promoted n.store peerID.1 v)) := by
    rw [run_applyOp hcalm, encodeCommand_confirm, happly]
  rw [confirmJoin, applyConfirm, applyConfirmWith, run_bind_of_ok happlied, if_pos rfl]

variable (hcap : checkSystemListCap n.store (confirmedJoinKey peerID.1) = .ok ())
  (hcalm : env.applyFault (confirmEntry peerID.1) = none)
include hcap hcalm

theorem confirmJoin_unreadable {e : Err} (hdecode : decodeClusterJoinMetadata v = .error e) :
    confirmJoin env peerID.1 n =
      .error (.wrap (.clusterJoinDecode peerID.1) e)
        (n.withStore (promoted n.store peerID.1 v)) := by
  rw [run_confirmJoin hpending hcap hcalm,
    run_admitConfirmed (get_promoted_confirmed n.store peerID.1 v), hdecode]

variable {addr : Bytes} {sf : UInt8}

theorem confirmJoin_readable (hdecode : decodeClusterJoinMetadata v = .ok (addr, sf)) :
    confirmJoin env peerID.1 n =
      wrapping .clusterJoin (addServerLine env peerID.1 addr (suffrageOf sf))
        (n.withStore (promoted n.store peerID.1 v)) := by
  rw [run_confirmJoin hpending hcap hcalm,
    run_admitConfirmed (get_promoted_confirmed n.store peerID.1 v), hdecode]

theorem outcome_confirmJoin (hdecode : decodeClusterJoinMetadata v = .ok (addr, sf)) :
    (confirmJoin env peerID.1).outcome n =
      match env.configFault (addServer peerID.1 addr (suffrageOf sf)) with
      | none => .ok ()
      | some f => .error (.wrap .clusterJoin f.err) := by
  have hout : (confirmJoin env peerID.1).outcome n =
      (wrapping .clusterJoin (addServerLine env peerID.1 addr (suffrageOf sf))).outcome
        (n.withStore (promoted n.store peerID.1 v)) := by
    rw [outcome, confirmJoin_readable hpending hcap hcalm hdecode, outcome]
  rw [hout, outcome_wrapping, outcome_addServerLine]
  cases env.configFault (addServer peerID.1 addr (suffrageOf sf)) <;> rfl

theorem final_confirmJoin (hdecode : decodeClusterJoinMetadata v = .ok (addr, sf)) :
    (confirmJoin env peerID.1).final n =
      (addServerLine env peerID.1 addr (suffrageOf sf)).final
        (n.withStore (promoted n.store peerID.1 v)) := by
  have hfinal := final_wrapping .clusterJoin (addServerLine env peerID.1 addr (suffrageOf sf))
    (n.withStore (promoted n.store peerID.1 v))
  rw [← hfinal, final, confirmJoin_readable hpending hcap hcalm hdecode, final]

end Confirm

/-! ## Trying again -/

/-- Nothing goes wrong once the record has moved: raft reports the entry that it commits, the
metadata can be read, and raft takes the server. -/
def CarriedThrough (env : Env) (n : Node) (peerID v : Bytes) : Prop :=
  checkSystemListCap n.store (confirmedJoinKey peerID) = .ok () →
    match env.applyFault (confirmEntry peerID) with
    | some f => f.committed = false
    | none => ∃ addr sf, decodeClusterJoinMetadata v = .ok (addr, sf) ∧
        env.configFault (addServer peerID addr (suffrageOf sf)) = none

/-- With room in the list, readable metadata and raft in order, the peer of a pending
record is admitted. -/
theorem confirmation_admits {env : Env} {n : Node} (hlead : n.isLeader = true) {peerID : Data}
    {v addr : Bytes} {sf : UInt8} (hpending : n.store.get (pendingJoinKey peerID.1) = some v)
    (hcap : checkSystemListCap n.store (confirmedJoinKey peerID.1) = .ok ()) (hcalm : Calm env)
    (hdecode : decodeClusterJoinMetadata v = .ok (addr, sf)) :
    (confirmJoin env peerID.1).outcome n = .ok () ∧
      ((confirmJoin env peerID.1).final n).HasServer peerID.1 := by
  have hlead' : (n.withStore (promoted n.store peerID.1 v)).isLeader = true := hlead
  constructor
  · rw [outcome_confirmJoin hpending hcap (hcalm.apply _) hdecode, hcalm.config]
  · rw [final_confirmJoin hpending hcap (hcalm.apply _) hdecode,
      hasServer_addServerLine hlead' env peerID.2]
    exact .inr ⟨rfl, by rw [Env.commitsConfig, hcalm.config]⟩

/-- A confirmation that fails leaves its record pending exactly when nothing can go wrong behind the
entry that moves it; a record that is pending is admitted once nothing is in the way. -/
theorem confirmation_retriable_iff (env : Env) {n : Node} {peerID : Data} {v : Bytes}
    (hpending : n.store.get (pendingJoinKey peerID.1) = some v) :
    ((∀ e, (confirmJoin env peerID.1).outcome n = .error e →
        ((confirmJoin env peerID.1).final n).store.get (pendingJoinKey peerID.1) = some v) ↔
      CarriedThrough env n peerID.1 v) ∧
      ∀ (env' : Env) (m : Node) (addr : Bytes) (sf : UInt8), m.isLeader = true →
        m.store.get (pendingJoinKey peerID.1) = some v →
        checkSystemListCap m.store (confirmedJoinKey peerID.1) = .ok () → Calm env' →
        decodeClusterJoinMetadata v = .ok (addr, sf) →
        (confirmJoin env' peerID.1).outcome m = .ok () ∧
          ((confirmJoin env' peerID.1).final m).HasServer peerID.1 := by
  refine ⟨?_, fun env' m addr sf hlead hpending hcap hcalm hdecode =>
    confirmation_admits hlead hpending hcap hcalm hdecode⟩
  rcases hcap : checkSystemListCap n.store (confirmedJoinKey peerID.1) with e | ⟨⟩
  · refine iff_of_true (fun _ _ => ?_) (fun h => ?_)
    · rw [confirmJoin_refused hpending hcap, hpending]
    · rw [hcap] at h
      cases h
  have hgone := get_promoted_pending n.store peerID.1 v
  rcases hfault : env.applyFault (confirmEntry peerID.1) with _ | f <;>
    simp only [CarriedThrough, hcap, hfault, true_implies]
  · rcases hdecode : decodeClusterJoinMetadata v with e | ⟨addr, sf⟩
    · refine iff_of_false (fun h => ?_) ?_
      · have hrun := confirmJoin_unreadable hpending hcap hfault hdecode
        have hstill := h _ (by rw [outcome, hrun])
        rw [final, hrun, Node.withStore, hgone] at hstill
        cases hstill
      · rintro ⟨_, _, h, _⟩
        cases h
    · have hout := outcome_confirmJoin hpending hcap hfault hdecode
      have hfinal := final_confirmJoin hpending hcap hfault hdecode
      rcases hconfig : env.configFault (addServer peerID.1 addr (suffrageOf sf)) with _ | f <;>
        rw [hconfig] at hout
      · refine iff_of_true (fun e h => ?_) ⟨addr, sf, rfl, hconfig⟩
        rw [hout] at h
        cases h
      · refine iff_of_false (fun h => ?_) ?_
        · have hstill := h _ hout
          rw [hfinal, store_addServerLine_of_fault hconfig, Node.withStore, hgone] at hstill
          cases hstill
        · rintro ⟨_, _, h, hnone⟩
          cases h
          rw [hconfig] at hnone
          cases hnone
  · obtain ⟨hout, hfinal⟩ := confirmJoin_fault (n := n) hfault
    have happly := apply_confirmEntry hpending env.now
    rw [hcap] at happly
    rw [hout, hfinal]
    rcases f.committed with _ | _
    · exact iff_of_true (fun _ _ => hpending) rfl
    · refine iff_of_false (fun h => ?_) Bool.noConfusion
      have hstill := h _ rfl
      rw [if_pos rfl, Node.applied, happly, hgone] at hstill
      cases hstill

def pendingNode : Node :=
  Node.alone (ascii "l") (OrdMap.empty.insert (pendingJoinKey (ascii "q"))
    (encodeClusterJoinMetadata (ascii "/ip4/1.2.3.4") suffrageVoter))

def peerQ : Data := ⟨ascii "q", Data.length_single_lt _⟩

def stuckEnv : Env := { configFault := fun _ => some ⟨.lib [], false⟩ }

/-- A leader that has lost its office before the entry was committed leaves the record. -/
theorem confirmation_retriable_uncommitted :
    ((confirmJoin { applyFault := fun _ => some ⟨.lib [], false⟩ } peerQ.1).final
      pendingNode).store.get (pendingJoinKey peerQ.1) =
      some (encodeClusterJoinMetadata (ascii "/ip4/1.2.3.4") suffrageVoter) :=
  (@confirmation_retriable_iff { applyFault := fun _ => some ⟨.lib [], false⟩ } pendingNode peerQ _
    (by decide)).1.mpr (fun _ => rfl) (.lib []) (by decide)

/-- Raft does not take the new voter: the confirmation fails, and so does every further one. -/
theorem confirmation_lost :
    (confirmJoin stuckEnv peerQ.1).outcome pendingNode = .error (.wrap .clusterJoin (.lib [])) ∧
      ((confirmJoin stuckEnv peerQ.1).final pendingNode).store.get (pendingJoinKey peerQ.1) = none ∧
      (confirmJoin {} peerQ.1).outcome ((confirmJoin stuckEnv peerQ.1).final pendingNode) =
        .error (.wrap .confirmNoPending .notFound) ∧
      ¬((confirmJoin {} peerQ.1).final ((confirmJoin stuckEnv peerQ.1).final pendingNode)).HasServer
        peerQ.1 := by
  refine ⟨?_, ?_, ?_, ?_⟩ <;> decide

end KvRaft.Daemon
