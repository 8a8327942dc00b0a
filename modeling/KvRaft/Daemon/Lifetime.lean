import KvRaft.Daemon.Append
import KvRaft.Daemon.Specs
import KvRaft.Kvfsm.Invites
import KvRaft.Kvfsm.Permission

/-! # How long an execution invite lives

`execInviteCreate` turns a relative lifetime into the second of the expiry, the record keeps that
second in 64 bits, and the state machine compares it with the leader's clock. Zero stands for no
expiry, in the request as in the record. -/

namespace KvRaft.Daemon

open Bytes Shmevent Kvfsm EStateM

def expiresAtUnix (now : Int) (ttlSeconds : UInt64) : Nat :=
  if ttlSeconds = 0 then 0 else (Logrecord.uint64 now + ttlSeconds.toNat) % 2 ^ 64

theorem expiresAtUnix_lt (now : Int) (ttlSeconds : UInt64) :
    expiresAtUnix now ttlSeconds < 2 ^ 64 := by
  unfold expiresAtUnix
  split_ifs
  · decide
  · exact Nat.mod_lt _ (by decide)

theorem execInviteCreate_eq (env : Env) (token commandID inputsJSON : Bytes) (ttlSeconds : UInt64) :
    execInviteCreate env token commandID inputsJSON ttlSeconds =
      handleConfirmForward env .set (execInviteKey token)
        (encodeExecInviteRecord commandID inputsJSON (expiresAtUnix env.now ttlSeconds)) true := rfl

/-- The creation that led from `n` to `n'` has stored `v`, or handed the leader the
entry that does. -/
def Minted (n n' : Node) (token v : Bytes) : Prop :=
  if n.isLeader then n'.store.get (execInviteKey token) = some v
  else ∃ leaderID, n'.forwarded =
    n.forwarded ++ [⟨leaderID, .confirm, encodeCommand .set (execInviteKey token) v⟩]

/-! ## The record -/

theorem encodeCommand_value_inj {op : OpType} {key v w : Bytes}
    (h : encodeCommand op key v = encodeCommand op key w) : v = w := by
  unfold encodeCommand at h
  have htail := List.append_cancel_left (List.append_cancel_left (List.cons.inj h).2)
  exact (List.append_inj htail (by simp)).2

theorem get_set_of_not_command {s : Store} {l : Log} {key value : Bytes}
    (hdec : decodeCommand l.data = .ok ⟨.set, key, value⟩)
    (hkind : systemKind key ≠ some kindCommand)
    (haccepted : (apply s l).1.err = none) : (apply s l).2.get key = some value := by
  obtain ⟨v, hv, hget⟩ := get_put hdec haccepted
  rw [preserveCommandSpec, if_pos hkind] at hv
  cases hv
  exact hget

theorem systemKind_execInviteKey (token : Bytes) :
    systemKind (execInviteKey token) ≠ some kindCommand := by
  change some kindExecInvite ≠ some kindCommand
  decide

theorem forwardConfirm_of_ok {env : Env} {leaderID key1 key2 : Bytes} {op : OpType} {n n' : Node}
    (h : forwardConfirm env leaderID op key1 key2 n = .ok () n') :
    n' = n.forward ⟨leaderID, .confirm, encodeCommand op key1 key2⟩ := by
  unfold forwardConfirm send at h
  rcases hdeliver : env.deliver leaderID .confirm (encodeCommand op key1 key2) with e | reply <;>
    rw [hdeliver] at h
  · cases h
  rcases reply with e | resp
  · cases h
  by_cases hresp : resp ≠ []
  · have hrun : (if resp ≠ [] then throw (.forwardConfirmRejected resp) else pure () : M Unit)
        (n.forward ⟨leaderID, .confirm, encodeCommand op key1 key2⟩) = .ok () n' := h
    rw [if_pos hresp] at hrun
    cases hrun
  · have hrun : (if resp ≠ [] then throw (.forwardConfirmRejected resp) else pure () : M Unit)
        (n.forward ⟨leaderID, .confirm, encodeCommand op key1 key2⟩) = .ok () n' := h
    rw [if_neg hresp] at hrun
    cases hrun
    rfl

section Create

variable {env : Env} {n n' : Node} {token commandID inputsJSON : Data} {ttl : UInt64}

theorem decode_createEntry (e : Nat) :
    decodeCommand (encodeCommand .set (execInviteKey token.1)
        (encodeExecInviteRecord commandID.1 inputsJSON.1 e)) =
      .ok ⟨.set, execInviteKey token.1, encodeExecInviteRecord commandID.1 inputsJSON.1 e⟩ := by
  have htoken := token.2
  have hcommand := commandID.2
  have hinputs := inputsJSON.2
  refine decodeCommand_encodeCommand ?_
  unfold encodeExecInviteRecord
  split_ifs <;>
    simp only [execInviteKey, systemKey, List.length_cons, List.length_append, length_beBytes] <;>
    omega

theorem minted_record {v : Bytes}
    (hrun : execInviteCreate env token.1 commandID.1 inputsJSON.1 ttl n = .ok () n')
    (hminted : Minted n n' token.1 v) :
    v = encodeExecInviteRecord commandID.1 inputsJSON.1 (expiresAtUnix env.now ttl) := by
  rw [execInviteCreate_eq, handleConfirmForward] at hrun
  rcases hlead : n.isLeader with _ | _
  · rw [Minted, hlead] at hminted
    obtain ⟨leaderID, hforwarded⟩ := hminted
    rw [handleConfirmForwardWith, run_resolveWriteTarget] at hrun
    rcases htarget : n.writeTarget with e | _ | id <;> rw [htarget] at hrun
    · cases hrun
    · rw [writeTarget_eq_leader.mp htarget] at hlead
      cases hlead
    · rw [forwardConfirm_of_ok hrun] at hforwarded
      have hrequest := List.append_cancel_left hforwarded
      simp only [List.cons.injEq, Forwarded.mk.injEq, and_true] at hrequest
      exact (encodeCommand_value_inj hrequest.2.2).symm
  · rw [Minted, if_pos hlead] at hminted
    rw [handleConfirmForwardWith_of_leader hlead, applyConfirmWith_of_ne (by decide)] at hrun
    obtain ⟨haccepted, hfinal⟩ := applyOp_of_ok (by rw [outcome, hrun])
    rw [final, hrun] at hfinal
    have hget := get_set_of_not_command (decode_createEntry (expiresAtUnix env.now ttl))
      (systemKind_execInviteKey token.1) haccepted
    subst hfinal
    exact Option.some.inj (hminted.symm.trans hget)

end Create

/-! ## Redemption -/

/-- The lifetime that the two clocks agree on: a redemption at or after the creation, by a peer that
may run the command, succeeds as long as the time asked for has not passed. -/
def LivesAsRequested (now : Int) (ttlSeconds : UInt64) (commandID : Data) : Prop :=
  ∀ (env : Env) (n n' : Node) (token inputsJSON : Data) (v : Bytes), env.now = now →
    execInviteCreate env token.1 commandID.1 inputsJSON.1 ttlSeconds n = .ok () n' →
    Minted n n' token.1 v →
    ∀ (s : Store) (l : Log) (redeemer : Bytes), s.get (execInviteKey token.1) = some v →
      decodeCommand l.data = .ok ⟨.consumeExecInvite, execInviteKey token.1, redeemer⟩ →
      now ≤ l.appendedAt → l.appendedAt < 2 ^ 63 →
      isPermittedForCommand s commandID.1 redeemer = .ok true →
      ((apply s l).1.err = none ↔ ttlSeconds = 0 ∨ l.appendedAt < now + ttlSeconds.toNat)

theorem redeemed_iff_fresh {s : Store} {l : Log} {key v redeemer : Bytes} {r : ExecInviteRecord}
    (hv : s.get key = some v) (hr : decodeExecInviteRecord v = .ok r)
    (hd : decodeCommand l.data = .ok ⟨.consumeExecInvite, key, redeemer⟩)
    (hpermitted : isPermittedForCommand s r.commandID redeemer = .ok true) :
    (apply s l).1.err = none ↔ expired r l.appendedAt = false := by
  rw [apply_consumeExecInvite hd, applyConsumeExecInvite_ok_iff]
  constructor
  · rintro ⟨v', r', hv', hr', hfresh, -⟩
    cases hv.symm.trans hv'
    cases hr.symm.trans hr'
    exact hfresh
  · intro hfresh
    exact ⟨v, r, hv, hr, hfresh, hpermitted⟩

section Clock

variable {now t : Int} {ttl : UInt64}

theorem uint64_now (h0 : 0 ≤ now) (h : now < 2 ^ 63) : (Logrecord.uint64 now : Int) = now := by
  unfold Logrecord.uint64
  omega

/-- Of the sums that do not pass the clock's range, the range itself is the one that wraps around,
to the zero that stands for no expiry. -/
theorem expiresAtUnix_eq_zero (h0 : 0 ≤ now) (h : now < 2 ^ 63) (hsum : now + ttl.toNat ≤ 2 ^ 64) :
    expiresAtUnix now ttl = 0 ↔ ttl = 0 ∨ now + ttl.toNat = 2 ^ 64 := by
  have hu := uint64_now h0 h
  unfold expiresAtUnix
  split_ifs with hzero
  · simp [hzero]
  · have hpos : ttl.toNat ≠ 0 := fun h => hzero (UInt64.toNat_inj.mp h)
    simp only [hzero, false_or]
    omega

theorem fresh_iff_of_le (h0 : 0 ≤ now) (h : now < 2 ^ 63) (hnow : now ≤ t) (ht : t < 2 ^ 63)
    (hsum : now + ttl.toNat ≤ 2 ^ 64) (c i : Bytes) :
    expired ⟨c, i, expiresAtUnix now ttl⟩ t = false ↔ ttl = 0 ∨ t < now + ttl.toNat := by
  have hu := uint64_now h0 h
  rw [← Bool.not_eq_true, expired_iff ⟨by omega, ht⟩]
  unfold expiresAtUnix
  split_ifs with hzero
  · simp [hzero]
  · simp only [hzero, false_or]
    rcases Nat.lt_or_ge (Logrecord.uint64 now + ttl.toNat) (2 ^ 64) with hlt | hge
    · rw [Nat.mod_eq_of_lt hlt]
      have hpos : ttl.toNat ≠ 0 := fun h => hzero (UInt64.toNat_inj.mp h)
      omega
    · rw [show Logrecord.uint64 now + ttl.toNat = 2 ^ 64 by omega]
      omega

theorem expired_of_wrapped (h0 : 0 ≤ now) (h : now < 2 ^ 63) (hsum : 2 ^ 64 < now + ttl.toNat)
    (c i : Bytes) :
    expired ⟨c, i, expiresAtUnix now ttl⟩ now = true := by
  have hu := uint64_now h0 h
  have hlt := ttl.toNat_lt
  have hzero : ttl ≠ 0 := by
    rintro rfl
    simp at hsum
    omega
  rw [expired_iff ⟨h0, h⟩, expiresAtUnix, if_neg hzero]
  dsimp only
  omega

end Clock

/-! ## A store with one link -/

def linkKey (commandID : Bytes) : Bytes :=
  systemKey kindGroupCommand catalogStatusPlaceholder
    (beBytes 2 commandID.length ++ (commandID ++ ascii "g"))

/-- An invite, and a public group that is linked to one command. -/
def linkedStore (token v commandID : Bytes) : Store :=
  ((Store.set OrdMap.empty (execInviteKey token) v).set (linkKey commandID) []).set
    (groupKey (ascii "g"))
    (encodeGroupPayload (ascii "g") true)

section Linked

variable {token v commandID c : Bytes}

theorem get_linkedStore (k : Bytes) : (linkedStore token v commandID).get k =
    if k = groupKey (ascii "g") then some (encodeGroupPayload (ascii "g") true)
    else if k = linkKey commandID then some []
    else if k = execInviteKey token then some v else none := by
  simp only [linkedStore, Store.set, OrdMap.get_insert, OrdMap.get_empty]
  split_ifs <;> rfl

theorem get_linkedStore_invite :
    (linkedStore token v commandID).get (execInviteKey token) = some v := by
  have hgroup : execInviteKey token ≠ groupKey (ascii "g") :=
    systemKey_ne_of_kind (by decide) _ _ _ _
  have hlink : execInviteKey token ≠ linkKey commandID := systemKey_ne_of_kind (by decide) _ _ _ _
  rw [get_linkedStore, if_neg hgroup, if_neg hlink, if_pos rfl]

theorem permitted_linkedStore (hlen : commandID.length ≤ 0xFFFF) (hc : c.length ≤ 0xFFFF) :
    isPermittedForCommand (linkedStore token v commandID) c [] = .ok true ↔ c = commandID := by
  have hlink : groupCommandKey commandID (ascii "g") = .ok (linkKey commandID) :=
    relationKey_of_le hlen _ _
  rw [permitted_iff hc (by decide)]
  constructor
  · rintro ⟨g, ⟨k, w, hk, hget⟩, -⟩
    obtain ⟨-, rfl⟩ := relationKey_eq_ok hk
    rw [get_linkedStore] at hget
    split_ifs at hget with hgroup heq hinvite
    · exact absurd hgroup (systemKey_ne_of_kind (by decide) _ _ _ _)
    · rw [heq] at hk
      exact (relationKey_inj hk hlink).1
    · exact absurd hinvite (systemKey_ne_of_kind (by decide) _ _ _ _)
  · rintro rfl
    have hne : linkKey c ≠ groupKey (ascii "g") := systemKey_ne_of_kind (by decide) _ _ _ _
    refine ⟨ascii "g", ⟨_, [], hlink, ?_⟩,
      .inl ⟨encodeGroupPayload (ascii "g") true, ascii "g", ?_, rfl⟩⟩
    · rw [get_linkedStore, if_neg hne, if_pos rfl]
    · rw [get_linkedStore, if_pos rfl]

end Linked

theorem create_alone (env : Env) (hcalm : Calm env) (commandID inputsJSON : Data) (ttl : UInt64) :
    ∃ n',
      execInviteCreate env [] commandID.1 inputsJSON.1 ttl (Node.alone [] OrdMap.empty) =
        .ok () n' ∧
      Minted (Node.alone [] OrdMap.empty) n' []
        (encodeExecInviteRecord commandID.1 inputsJSON.1 (expiresAtUnix env.now ttl)) := by
  have hset : ∀ v,
      decodeCommand (encodeCommand .set (execInviteKey []) v) = .ok ⟨.set, execInviteKey [], v⟩ →
      apply OrdMap.empty ⟨encodeCommand .set (execInviteKey []) v, env.now⟩ =
        ({}, Store.set OrdMap.empty (execInviteKey []) v) := by
    intro v hdec
    have hcap : checkSystemListCap OrdMap.empty (execInviteKey []) = .ok () := by decide
    simp only [apply, hdec, applySet, hcap]
    rfl
  have hrun := hset _ (@decode_createEntry ⟨[], Data.length_nil_lt⟩ commandID inputsJSON
    (expiresAtUnix env.now ttl))
  refine ⟨(Node.alone [] OrdMap.empty).withStore (Store.set OrdMap.empty (execInviteKey [])
    (encodeExecInviteRecord commandID.1 inputsJSON.1 (expiresAtUnix env.now ttl))), ?_, ?_⟩
  · rw [execInviteCreate_eq, handleConfirmForward, handleConfirmForwardWith_of_leader rfl,
      applyConfirmWith_of_ne (by decide), run_applyOp (hcalm.apply _),
      show (Node.alone [] OrdMap.empty).store = OrdMap.empty from rfl, hrun]
  · change OrdMap.get _ _ = _
    exact OrdMap.get_insert_self ..

/-! ## The lifetime -/

theorem length_of_marker {c : Bytes} (hc : c.length = execInviteRecordV2Marker)
    {r : ExecInviteRecord}
    (h : decodeExecInviteRecord (encodeExecInviteRecord c [] 0) = .ok r) :
    r.commandID.length < c.length := by
  obtain ⟨hlen, ⟨hpayload, hmarker⟩ | hpayload⟩ := decodeExecInviteRecord_eq_ok h <;>
    rw [encodeExecInviteRecord, if_pos rfl, hc] at hpayload
  · have hhead := congrArg beNat (List.append_inj hpayload (by simp)).1
    rw [beNat_beBytes (by decide), beNat_beBytes (by omega)] at hhead
    exact absurd hhead.symm hmarker
  · have hsize := congrArg List.length hpayload
    simp only [List.length_append, length_beBytes, List.length_nil] at hsize
    omega

/-- The lifetime is the one that was asked for, exactly when the second of the expiry has a name:
the sum does not exceed the clock's range by more than the second that stands for no expiry, and a
record without an expiry does not begin like one that has it. -/
theorem lives_as_requested_iff {now : Int} (h0 : 0 ≤ now) (h : now < 2 ^ 63) (ttl : UInt64)
    (commandID : Data) :
    LivesAsRequested now ttl commandID ↔
      (commandID.1.length ≤ 0xFFFF → now + ttl.toNat ≤ 2 ^ 64 ∧
        (ttl = 0 ∨ now + ttl.toNat = 2 ^ 64 → commandID.1.length ≠ execInviteRecordV2Marker)) := by
  constructor
  · intro hlives hlen
    have hcalm : Calm { now := now } := ⟨fun _ => rfl, fun _ => rfl⟩
    obtain ⟨n', hrun, hminted⟩ :=
      create_alone { now := now } hcalm commandID ⟨[], Data.length_nil_lt⟩ ttl
    -- everybody may redeem the invite in the second of its creation
    have hredeemed : ttl = 0 ∨ 0 < ttl.toNat → ∃ r,
        decodeExecInviteRecord
          (encodeExecInviteRecord commandID.1 [] (expiresAtUnix now ttl)) = .ok r ∧
        expired r now = false ∧ (r.commandID.length ≤ 0xFFFF → r.commandID = commandID.1) := by
      intro hfresh
      let l : Log := ⟨encodeCommand .consumeExecInvite (execInviteKey []) [], now⟩
      have hd : decodeCommand l.data = .ok ⟨.consumeExecInvite, execInviteKey [], []⟩ :=
        decodeCommand_encodeCommand (by decide)
      have hok :=
        (hlives { now := now } _ n' ⟨[], Data.length_nil_lt⟩ ⟨[], Data.length_nil_lt⟩ _ rfl hrun
        hminted (linkedStore [] _ commandID.1) l [] get_linkedStore_invite hd le_rfl h
        ((permitted_linkedStore hlen hlen).mpr rfl)).mpr (hfresh.imp_right fun hpos => by
          dsimp only [l]; omega)
      rw [apply_consumeExecInvite hd, applyConsumeExecInvite_ok_iff] at hok
      obtain ⟨v, r, hv, hr, hvalid, hpermitted⟩ := hok
      cases get_linkedStore_invite.symm.trans hv
      exact ⟨r, hr, hvalid, fun hr => (permitted_linkedStore hlen hr).mp hpermitted⟩
    have hsum : now + ttl.toNat ≤ 2 ^ 64 := by
      by_contra hwrapped
      have hexpired := fun c i => @expired_of_wrapped now ttl h0 h (by omega) c i
      have hne : expiresAtUnix now ttl ≠ 0 := fun hzero => by
        have := (expired_iff ⟨h0, h⟩).mp (hexpired [] [])
        exact this.1 hzero
      obtain ⟨r, hr, hfresh, -⟩ := hredeemed (by omega)
      rw [decodeExecInviteRecord_encode hlen [] (expiresAtUnix_lt now ttl) fun hzero =>
        absurd hzero hne] at hr
      cases hr
      rw [hexpired] at hfresh
      cases hfresh
    refine ⟨hsum, fun hnone hmarker => ?_⟩
    have hpos : ttl = 0 ∨ 0 < ttl.toNat := hnone.imp_right fun heq => by omega
    obtain ⟨r, hr, -, heq⟩ := hredeemed hpos
    rw [(expiresAtUnix_eq_zero h0 h hsum).mpr hnone] at hr
    have hshort := length_of_marker hmarker hr
    rw [heq (by omega)] at hshort
    omega
  · intro hcond env n n' token inputsJSON v hnow hrun hminted s l redeemer hv hd hle hlt hpermitted
    have hlen : commandID.1.length ≤ 0xFFFF := by
      by_contra hlong
      rw [isPermittedForCommand, groupCommandKey, relationKey, if_pos (by omega)] at hpermitted
      cases hpermitted
    obtain ⟨hsum, hmarker⟩ := hcond hlen
    subst hnow
    rw [minted_record hrun hminted] at hv
    have hr := decodeExecInviteRecord_encode hlen inputsJSON.1 (expiresAtUnix_lt env.now ttl)
      fun hzero => hmarker ((expiresAtUnix_eq_zero h0 h hsum).mp hzero)
    rw [redeemed_iff_fresh hv hr hd hpermitted, fresh_iff_of_le h0 h hle hlt hsum]

def shortCommand : Data := ⟨ascii "c", by decide⟩

/-- An invite for an hour lives for an hour. -/
theorem lives_as_requested_hour : LivesAsRequested 1700000000 3600 shortCommand :=
  (lives_as_requested_iff (by decide) (by decide) 3600 shortCommand).mpr fun _ =>
    ⟨by decide, by decide⟩

/-- Minted in the second 2 for the longest time there is, expired since the second 1. -/
theorem redemption_wrapped :
    ∃ n',
      execInviteCreate { now := 2 } [] (ascii "c") [] 0xFFFFFFFFFFFFFFFF
        (Node.alone [] OrdMap.empty) = .ok () n' ∧
      Minted (Node.alone [] OrdMap.empty) n' [] (encodeExecInviteRecord (ascii "c") [] 1) ∧
      isPermittedForCommand (linkedStore [] (encodeExecInviteRecord (ascii "c") [] 1) (ascii "c"))
        (ascii "c") [] = .ok true ∧
      (apply (linkedStore [] (encodeExecInviteRecord (ascii "c") [] 1) (ascii "c"))
        ⟨encodeCommand .consumeExecInvite (execInviteKey []) [], 2⟩).1.err =
          some .execInviteExpired := by
  obtain ⟨n', hrun, hminted⟩ := create_alone { now := 2 } ⟨fun _ => rfl, fun _ => rfl⟩ shortCommand
    ⟨[], Data.length_nil_lt⟩ 0xFFFFFFFFFFFFFFFF
  exact ⟨n', hrun, hminted, (permitted_linkedStore (by decide) (by decide)).mpr rfl, by decide⟩

end KvRaft.Daemon
