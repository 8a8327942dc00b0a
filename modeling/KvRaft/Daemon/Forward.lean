import KvRaft.Daemon.Acl
import KvRaft.Kvfsm.Requests
import KvRaft.Lib.Reach

/-! # The leader's side of the forwarding protocols (`pkg/daemon/forward.go`)

What a leader does with the requests that other nodes hand to it. The confirm, leave and kick
handlers look at the authenticated peer at the other end of the stream; the set handler does not. -/

namespace KvRaft.Daemon

open Bytes Shmevent Kvfsm

/-- `handleForwardSetStream`: `buf` is what the other node wrote. -/
def handleForwardSetStream (env : Env) (buf : Bytes) : M Unit := do
  let c ← wrapping .forwardSetDecode (ofExcept (decodeCommand buf))
  if c.op = .set ∨ c.op = .appendCommandRequest ∨ c.op = .txn then
    handleOpForward env c.op c.key c.value false
  else throw (.forwardSetOp c.op.toByte)

def handleForwardConfirmStream (env : Env) (remote buf : Bytes) : M Unit := do
  if isVoter (← get) remote then do
    let c ← wrapping .forwardConfirmDecode (ofExcept (decodeCommand buf))
    if c.op = .confirm ∨ c.op = .del ∨ c.op = .set ∨ c.op = .cascadeDelete then
      handleConfirmForward env c.op c.key c.value false
    else throw (.forwardConfirmOp c.op.toByte)
  else throw (.notVoter remote)

/-- `handleForwardLeaveStream`: whoever asks is removed. -/
def handleForwardLeaveStream (env : Env) (remote : Bytes) : M Unit := do
  if (← get).isLeader then removeServerLine env remote
  else throw (.alreadyForwarded (← get).leaderID)

def handleForwardKickStream (env : Env) (remote target : Bytes) : M Unit := do
  if isVoter (← get) remote then
    if (← get).isLeader then
      if target = [] then throw .kickMissingPeer else removeServerLine env target
    else throw (.alreadyForwarded (← get).leaderID)
  else throw (.notVoter remote)

/-! ## Frames on the set protocol -/

theorem final_handleForwardSetStream (env : Env) (buf : Bytes) (n : Node) :
    (handleForwardSetStream env buf).final n = n ∨
      ∃ c, decodeCommand buf = .ok c ∧ (c.op = .set ∨ c.op = .appendCommandRequest ∨ c.op = .txn) ∧
        (handleForwardSetStream env buf).final n =
          n.applied env (encodeCommand c.op c.key c.value) := by
  unfold handleForwardSetStream
  cases hc : decodeCommand buf with
  | error e => exact .inl rfl
  | ok c =>
    have hbind : ∀ g : Command → M Unit,
        (wrapping .forwardSetDecode (ofExcept (.ok c)) >>= g).final n = (g c).final n :=
          fun _ => rfl
    rw [hbind]
    split_ifs with hop
    · cases hlead : n.isLeader with
      | false => exact .inl (final_handleOpForward_of_not_leader hlead ..)
      | true =>
        have hf : (handleOpForward env c.op c.key c.value false).final n =
            (applyOp env c.op c.key c.value).final n := by
          unfold EStateM.final
          rw [handleOpForward_of_leader hlead]
        rw [hf, final_applyOp]
        split_ifs
        · exact .inr ⟨c, rfl, hop, rfl⟩
        · exact .inl rfl
    · exact .inl rfl

theorem length_applyPayload {author value payload : Bytes}
    (h : encodeCommandRequestApplyPayload author value = .ok payload) :
    payload.length ≤ 65537 + value.length := by
  unfold encodeCommandRequestApplyPayload at h
  split_ifs at h with hlen
  cases h
  simp only [List.length_append, length_beBytes]
  omega

/-- The store after one change that a peer's own requests may make. -/
def OwnChange (p : Bytes) (s s' : Store) : Prop :=
  s' = s ∨ ∃ key record commandID, Appended p commandID s key record s'

/-- Whether a frame is no write, or a command request in the name of `p`. -/
def ownRequest (p buf : Bytes) : Bool :=
  match decodeCommand buf with
  | .error _ => true
  | .ok c =>
    match c.op with
    | .set => false
    | .txn => false
    | .appendCommandRequest =>
      match decodeCommandRequestApplyPayload c.value with
      | .error _ => true
      | .ok (author, _) => author == p
    | _ => true

def serveForwardSet (n : Node) (frames : List (Env × Bytes)) : Node :=
  frames.foldl (fun n f => (handleForwardSetStream f.1 f.2).final n) n

theorem appendCommandRequest_applied {key payload : Bytes} (hk : key.length < 256 ^ 4)
    (hv : payload.length < 256 ^ 4) (env : Env) (n : Node) :
    (n.applied env (encodeCommand .appendCommandRequest key payload)).store = n.store ∨
      ∃ author record commandID, decodeCommandRequestApplyPayload payload = .ok (author, record) ∧
        Appended author commandID n.store key record
          (n.applied env (encodeCommand .appendCommandRequest key payload)).store := by
  simp only [Node.applied, apply]
  rcases @decodeCommand_reencode .appendCommandRequest key payload hk hv with ⟨e, hd⟩ | hd
  · rw [hd]
    exact .inl rfl
  simp only [hd]
  rcases applyAppendCommandRequest_inv n.store key payload with ⟨-, hs⟩ | ⟨-, happ⟩
  · exact .inl hs
  · exact .inr happ

theorem ownChange_applied {p key payload : Bytes} (hk : key.length < 256 ^ 4)
    (hv : payload.length < 256 ^ 4)
    (hauthor : ∀ author record,
      decodeCommandRequestApplyPayload payload = .ok (author, record) → author = p) (env : Env)
    (n : Node) :
    OwnChange p n.store
      (n.applied env (encodeCommand .appendCommandRequest key payload)).store := by
  rcases appendCommandRequest_applied hk hv env n with hs | ⟨author, record, commandID, hdec, happ⟩
  · exact .inl hs
  · obtain rfl := hauthor author record hdec
    exact .inr ⟨key, record, commandID, happ⟩

theorem ownChange_of_ownRequest {p buf : Bytes} (hown : ownRequest p buf = true) (env : Env)
    (n : Node) : OwnChange p n.store ((handleForwardSetStream env buf).final n).store := by
  rcases final_handleForwardSetStream env buf n with h | ⟨c, hc, hop, h⟩
  · rw [h]
    exact .inl rfl
  rw [h]
  obtain ⟨hk, hv⟩ := decodeCommand_length hc
  unfold ownRequest at hown
  rw [hc] at hown
  rcases hop with hop | hop | hop <;> simp only [hop] at hown ⊢
  · cases hown
  · refine ownChange_applied hk hv (fun author record hdec => ?_) env n
    simpa [hdec] using hown
  · cases hown

/-- A peer whose frames are all its own command requests, or no writes, changes the store only as
its own accepted requests do: at every frame, and whatever raft answers. -/
theorem forwardSet_own_requests {p : Bytes} {frames : List (Env × Bytes)}
    (hown : ∀ f ∈ frames, ownRequest p f.2 = true) (n : Node) {i : Nat} (hi : i < frames.length) :
    OwnChange p (serveForwardSet n (frames.take i)).store
      (serveForwardSet n (frames.take (i + 1))).store := by
  have hstep : serveForwardSet n (frames.take (i + 1)) =
      (handleForwardSetStream frames[i].1 frames[i].2).final (serveForwardSet n (frames.take i)) :=
    List.foldl_take_succ _ _ hi
  rw [hstep]
  exact ownChange_of_ownRequest (hown _ (List.getElem_mem hi)) _ _

/-- The record of a public group `g`, and its relation to a command `c`. -/
def publicCommand : Store :=
  (OrdMap.empty.insert (groupKey (ascii "g")) (encodeGroupPayload (ascii "g") true)).insert
    (systemKey kindGroupCommand catalogStatusPlaceholder ([0, 1] ++ ascii "cg")) []

def requestFrame (author : Bytes) : Bytes :=
  encodeCommand .appendCommandRequest
    (Logrecord.kindUnitPrefix (commandRequestLogKind (ascii "c")) (ascii "i") ++ beBytes 8 1)
    (beBytes 2 author.length ++ (author ++ ascii "x"))

theorem forwardSet_own_requests_once :
    (serveForwardSet (Node.alone (ascii "l") publicCommand)
      [({}, requestFrame (ascii "p"))]).store ≠ publicCommand ∧
      OwnChange (ascii "p") (serveForwardSet (Node.alone (ascii "l") publicCommand) []).store
        (serveForwardSet (Node.alone (ascii "l") publicCommand)
          [({}, requestFrame (ascii "p"))]).store := by
  refine ⟨by decide, ?_⟩
  have hown : ∀ f ∈ [(({} : Env), requestFrame (ascii "p"))],
      ownRequest (ascii "p") f.2 = true := by
    simp only [List.mem_singleton, forall_eq]
    decide
  exact forwardSet_own_requests hown _ (i := 0) (by decide)

/-! ## Strangers -/

/-- A peer with no place in the configuration and none in the groups that give standing. -/
def Stranger (n : Node) (p : Bytes) : Prop :=
  (∀ srv ∈ n.servers, srv.id ≠ p) ∧
    isAuthorizedForGatedAccess n.store n.peerID p reservedGroupRemote = false

instance (n : Node) (p : Bytes) : Decidable (Stranger n p) :=
  inferInstanceAs (Decidable (_ ∧ _))

theorem not_permitted_empty (commandID peerID : Bytes) :
    isPermittedForCommand OrdMap.empty commandID peerID ≠ .ok true := by
  unfold isPermittedForCommand
  cases groupCommandKey commandID [] with
  | error e => nofun
  | ok k =>
    have hscan : Store.scanPrefix OrdMap.empty k 0 = [] := rfl
    simp [hscan, anyGroupPermits]

/-- The frame with which the stranger `p` makes itself a member of the cluster group. -/
def membershipFrame : Bytes :=
  encodeCommand .set
    (systemKey kindPeerGroup catalogStatusPlaceholder
      ([0, 1] ++ (ascii "p" ++ reservedGroupCluster)))
    []

/-- A stranger's `OpSet` frame is applied: afterwards the stranger has standing. -/
theorem forwardSet_grants_membership :
    Stranger (Node.alone (ascii "l") OrdMap.empty) (ascii "p") ∧
      isInGroup
        (serveForwardSet (Node.alone (ascii "l") OrdMap.empty) [({}, membershipFrame)]).store
        (ascii "p") reservedGroupCluster = true ∧
      ¬OwnChange (ascii "p") OrdMap.empty
        (serveForwardSet (Node.alone (ascii "l") OrdMap.empty) [({}, membershipFrame)]).store := by
  refine ⟨by decide, by decide, ?_⟩
  rintro (h | ⟨key, record, commandID, happ⟩)
  · exact absurd h (by decide)
  · exact not_permitted_empty _ _ happ.permitted

end KvRaft.Daemon
