import KvRaft.Daemon.Redeem

/-! # What an execution invite authorises

The creator of an invite names a command and its inputs, and only the record in the store is left of
them when the invite is redeemed: the state machine checks the redeemer against the command that it
reads there, and the daemon records the request for it. The record has two bytes for the length of
the command id. -/

namespace KvRaft.Daemon

open Bytes Shmevent Kvfsm EStateM

/-- The record `v` stands for `r`: it is read back as `r`, nobody redeems it who may not run the
command of `r`, and what a redemption records is `r`. -/
structure Authorises (v : Bytes) (r : ExecInviteRecord) : Prop where
  readBack : decodeExecInviteRecord v = .ok r
  checked : ∀ (s : Store) (l : Log) (key redeemer : Bytes), s.get key = some v →
    decodeCommand l.data = .ok ⟨.consumeExecInvite, key, redeemer⟩ → (apply s l).1.err = none →
    isPermittedForCommand s r.commandID redeemer = .ok true
  executed : ∀ (env : Env) (x : Surroundings) (token redeemer : Data) (n : Node),
    (∀ cmd, env.applyFault cmd = none) → n.store.get (execInviteKey token.1) = some v →
    (apply n.store ⟨redeemEntry token.1 redeemer.1, env.now⟩).1.err = none →
    applyConsumeExecInvite env x token.1 redeemer.1 n =
      recordRedemption env x redeemer.1 r (n.withStore (n.store.delete (execInviteKey token.1)))

theorem authorises_iff {v : Bytes} {r : ExecInviteRecord} :
    Authorises v r ↔ decodeExecInviteRecord v = .ok r := by
  refine ⟨fun h => h.readBack, fun hr => ⟨hr, ?_, ?_⟩⟩
  · intro s l key redeemer hv hd hok
    rw [apply_consumeExecInvite hd, applyConsumeExecInvite_ok_iff] at hok
    obtain ⟨v', r', hv', hr', -, hpermitted⟩ := hok
    cases hv.symm.trans hv'
    cases hr.symm.trans hr'
    exact hpermitted
  · intro env x token redeemer n hcalm hv hok
    have happly : apply n.store ⟨redeemEntry token.1 redeemer.1, env.now⟩ =
        Kvfsm.applyConsumeExecInvite n.store env.now (execInviteKey token.1) redeemer.1 :=
      apply_consumeExecInvite (decode_redeemEntry token redeemer)
    rw [happly, applyConsumeExecInvite_ok_iff] at hok
    obtain ⟨v', r', hv', hr', hfresh, hpermitted⟩ := hok
    cases hv.symm.trans hv'
    cases hr.symm.trans hr'
    refine run_accepted hcalm ?_ hr
    rw [happly]
    exact applyConsumeExecInvite_permitted hv hr hfresh hpermitted

/-- Some daemon mints an invite for the command and the inputs. -/
def Mintable (commandID inputsJSON : Data) : Prop :=
  ∃ (env : Env) (caller : CallerIdentity) (id : UInt16) (token : Data) (ttl : UInt64) (n : Node)
    (answer : Event),
    (dispatch env caller id (.execInviteCreate token commandID inputsJSON ttl)).outcome n =
      .ok answer

theorem mintable (commandID inputsJSON : Data) : Mintable commandID inputsJSON := by
  obtain ⟨n', hrun, -⟩ := create_alone {} ⟨fun _ => rfl, fun _ => rfl⟩ commandID inputsJSON 0
  refine ⟨{}, ⟨[], none⟩, 0, ⟨[], Data.length_nil_lt⟩, 0, Node.alone [] OrdMap.empty,
    .execInviteCreate ⟨[], Data.length_nil_lt⟩ commandID inputsJSON 0, ?_⟩
  change (execInviteCreate {} [] commandID.1 inputsJSON.1 0 >>= fun _ =>
    pure _ : M Event).outcome _ = _
  rw [outcome, run_bind_of_ok hrun]
  rfl

/-- **Exec-invite records.** An invite that is minted for a command and its inputs authorises them,
unless the length of the command id takes more than two bytes, or it passes for the marker of a
record with an expiry and the invite has none. -/
theorem accepted_authorises_iff (commandID inputsJSON : Data) (expiresAtUnix : UInt64) :
    (Mintable commandID inputsJSON →
      Authorises (encodeExecInviteRecord commandID.1 inputsJSON.1 expiresAtUnix.toNat)
        ⟨commandID.1, inputsJSON.1, expiresAtUnix.toNat⟩) ↔
      commandID.1.length ≤ 0xFFFF ∧
        (expiresAtUnix = 0 → commandID.1.length ≠ execInviteRecordV2Marker) := by
  have hzero : expiresAtUnix = 0 ↔ expiresAtUnix.toNat = 0 := UInt64.toNat_inj.symm
  rw [hzero, ← decodeExecInviteRecord_encode_iff _ _ expiresAtUnix.toNat_lt, ← authorises_iff]
  exact ⟨fun h => h (mintable commandID inputsJSON), fun h _ => h⟩

/-- An invite for a command id of which the length is cut off is redeemed by whoever may run the
command that is left of it, and nobody is ever permitted to run the long one. -/
theorem redeemed_for_beginning {c rest : Bytes} (hc : c.length < execInviteRecordV2Marker)
    (hrest : rest.length % 2 ^ 16 = 0) (hne : rest ≠ []) :
    (apply (linkedStore [] (encodeExecInviteRecord (c ++ rest) [] 0) c)
        ⟨encodeCommand .consumeExecInvite (execInviteKey []) [], 0⟩).1.err = none ∧
      isPermittedForCommand (linkedStore [] (encodeExecInviteRecord (c ++ rest) [] 0) c)
        (c ++ rest) [] ≠ .ok true := by
  have hle : c.length ≤ 0xFFFF := hc.le
  constructor
  · have hd : decodeCommand (encodeCommand .consumeExecInvite (execInviteKey []) []) =
        .ok ⟨.consumeExecInvite, execInviteKey [], []⟩ := decodeCommand_encodeCommand (by decide)
    exact (redeemed_iff_fresh (l := ⟨_, 0⟩) get_linkedStore_invite
      (decodeExecInviteRecord_encode_append hc hrest []) hd
      ((permitted_linkedStore hle hle).mpr rfl)).mpr rfl
  · intro hpermitted
    have hpos := List.length_pos_of_ne_nil hne
    have hlong : (c ++ rest).length > 0xFFFF := by
      rw [List.length_append]
      omega
    rw [isPermittedForCommand, groupCommandKey, relationKey, if_pos hlong] at hpermitted
    cases hpermitted

def manyLetters : Bytes := List.replicate (2 ^ 16) 0x78

theorem length_manyLetters : manyLetters.length = 2 ^ 16 := List.length_replicate

theorem length_longCommand_lt : (ascii "c" ++ manyLetters).length < 2 ^ 29 := by
  rw [List.length_append, length_manyLetters]
  decide

/-- The invite is minted for the long command, and whoever may run `c` redeems it. -/
theorem authorises_another :
    Mintable ⟨ascii "c" ++ manyLetters, length_longCommand_lt⟩ ⟨[], Data.length_nil_lt⟩ ∧
      decodeExecInviteRecord (encodeExecInviteRecord (ascii "c" ++ manyLetters) [] 0) =
        .ok ⟨ascii "c", manyLetters ++ [], 0⟩ ∧
      (apply (linkedStore [] (encodeExecInviteRecord (ascii "c" ++ manyLetters) [] 0) (ascii "c"))
        ⟨encodeCommand .consumeExecInvite (execInviteKey []) [], 0⟩).1.err = none ∧
      isPermittedForCommand
        (linkedStore [] (encodeExecInviteRecord (ascii "c" ++ manyLetters) [] 0) (ascii "c"))
        (ascii "c" ++ manyLetters) [] ≠ .ok true := by
  have hc : (ascii "c").length < execInviteRecordV2Marker := by decide
  have hmod : manyLetters.length % 2 ^ 16 = 0 := by rw [length_manyLetters, Nat.mod_self]
  have hne : manyLetters ≠ [] := List.ne_nil_of_length_pos (by rw [length_manyLetters]; decide)
  exact ⟨mintable _ _, decodeExecInviteRecord_encode_append hc hmod [],
    redeemed_for_beginning hc hmod hne⟩

end KvRaft.Daemon
