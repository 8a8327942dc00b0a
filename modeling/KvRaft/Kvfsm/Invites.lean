import KvRaft.Kvfsm.Recovery
import KvRaft.Lib.Reach

/-! # Invites and pending records

A join invite, an execution invite and a pending record are each a key that one entry uses up: the
entry reads the record and deletes it. An execution invite is bound to a command and may expire. -/

namespace KvRaft.Kvfsm

open Bytes Shmevent

/-- The operations that use up the record under their key. -/
def OpType.redeems : OpType → Bool
  | .confirm => true
  | .consumeInvite => true
  | .consumeExecInvite => true
  | _ => false

/-- The leader's clock read at or after the Unix epoch, in the range of `Unix()`. -/
def Log.Dated (l : Log) : Prop := 0 ≤ l.appendedAt ∧ l.appendedAt < 2 ^ 63

theorem expired_iff {r : ExecInviteRecord} {t : Int} (h : 0 ≤ t ∧ t < 2 ^ 63) :
    expired r t = true ↔ r.expiresAtUnix ≠ 0 ∧ (r.expiresAtUnix : Int) ≤ t := by
  have hu : (Logrecord.uint64 t : Int) = t := by
    unfold Logrecord.uint64
    omega
  simp only [expired, Bool.and_eq_true, decide_eq_true_eq]
  constructor
  · rintro ⟨hne, hle⟩
    exact ⟨hne, by omega⟩
  · rintro ⟨hne, hle⟩
    exact ⟨hne, by omega⟩

section Outcomes

variable {s : Store} {key value : Bytes} {t : Int}

theorem applyConfirm_ok (h : (applyConfirm s key value).1.err = none) :
    s.get key ≠ none ∧ (applyConfirm s key value).2.get key = none := by
  unfold applyConfirm Store.get! at h ⊢
  rcases hv : s.get key with _ | v
  · simp [hv, fail] at h
  rcases hc : checkSystemListCap s value with e | _
  · simp [hv, hc, fail] at h
  · simp only [committed, Store.withTx, Store.delete, OrdMap.get_erase, if_true]
    simp

theorem applyConsumeInvite_ok (h : (applyConsumeInvite s key).1.err = none) :
    s.get key ≠ none ∧ (applyConsumeInvite s key).2.get key = none := by
  unfold applyConsumeInvite Store.get! at h ⊢
  rcases hv : s.get key with _ | v
  · simp [hv, fail] at h
  · simp [Store.delete, OrdMap.get_erase]

variable {v : Bytes} {r : ExecInviteRecord}

theorem applyConsumeExecInvite_expired (hv : s.get key = some v)
    (hr : decodeExecInviteRecord v = .ok r) (he : expired r t = true) :
    applyConsumeExecInvite s t key value = ({ err := some .execInviteExpired }, s.delete key) := by
  unfold applyConsumeExecInvite Store.get!
  simp only [hv, hr, he, if_true]

theorem applyConsumeExecInvite_permitted (hv : s.get key = some v)
    (hr : decodeExecInviteRecord v = .ok r) (he : expired r t = false)
    (hp : isPermittedForCommand s r.commandID value = .ok true) :
    applyConsumeExecInvite s t key value = ({ value := v }, s.delete key) := by
  unfold applyConsumeExecInvite Store.get!
  simp only [hv, hr, he, hp, Bool.false_eq_true, if_false]

theorem applyConsumeExecInvite_not_permitted (hv : s.get key = some v)
    (hr : decodeExecInviteRecord v = .ok r) (he : expired r t = false)
    (hp : isPermittedForCommand s r.commandID value ≠ .ok true) :
    (applyConsumeExecInvite s t key value).1.err ≠ none ∧
      (applyConsumeExecInvite s t key value).2 = s := by
  unfold applyConsumeExecInvite Store.get!
  simp only [hv, hr, he, Bool.false_eq_true, if_false]
  rcases hp' : isPermittedForCommand s r.commandID value with e | _ | _
  · simp [fail]
  · simp [fail]
  · exact absurd hp' hp

theorem applyConsumeExecInvite_ok_iff :
    (applyConsumeExecInvite s t key value).1.err = none ↔
      ∃ v r, s.get key = some v ∧ decodeExecInviteRecord v = .ok r ∧ expired r t = false ∧
        isPermittedForCommand s r.commandID value = .ok true := by
  constructor
  · intro hok
    rcases hv : s.get key with _ | v
    · simp [applyConsumeExecInvite, Store.get!, hv, fail] at hok
    rcases hr : decodeExecInviteRecord v with e | r
    · simp [applyConsumeExecInvite, Store.get!, hv, hr, fail] at hok
    rcases he : expired r t with _ | _
    · by_cases hp : isPermittedForCommand s r.commandID value = .ok true
      · exact ⟨v, r, rfl, hr, he, hp⟩
      · exact absurd hok (applyConsumeExecInvite_not_permitted hv hr he hp).1
    · rw [applyConsumeExecInvite_expired hv hr he] at hok
      cases hok
  · rintro ⟨v, r, hv, hr, he, hp⟩
    rw [applyConsumeExecInvite_permitted hv hr he hp]

end Outcomes

theorem redeemed {s : Store} {l : Log} {op : OpType} {key value : Bytes} (hop : op.redeems = true)
    (hd : decodeCommand l.data = .ok ⟨op, key, value⟩) (hok : (apply s l).1.err = none) :
    s.get key ≠ none ∧ (apply s l).2.get key = none := by
  unfold apply at hok ⊢
  simp only [hd] at hok ⊢
  cases op with
  | confirm => exact applyConfirm_ok hok
  | consumeInvite => exact applyConsumeInvite_ok hok
  | consumeExecInvite =>
    obtain ⟨v, r, hv, hr, he, hp⟩ := applyConsumeExecInvite_ok_iff.mp hok
    simp only [applyConsumeExecInvite_permitted hv hr he hp, hv, Store.delete, OrdMap.get_erase]
    simp
  | _ => cases hop

theorem apply_consumeExecInvite {s : Store} {l : Log} {key value : Bytes}
    (hd : decodeCommand l.data = .ok ⟨.consumeExecInvite, key, value⟩) :
    apply s l = applyConsumeExecInvite s l.appendedAt key value := by
  rw [apply, hd]

theorem recreated_between {log : List Log} {i j : Nat} {l l' : Log} {op op' : OpType}
    {key value value' : Bytes} (hij : i < j) (hi : log[i]? = some l)
    (hop : op.redeems = true) (hop' : op'.redeems = true)
    (hd : decodeCommand l.data = .ok ⟨op, key, value⟩)
    (hd' : decodeCommand l'.data = .ok ⟨op', key, value'⟩)
    (hok : (apply (stateAt log i) l).1.err = none)
    (hok' : (apply (stateAt log j) l').1.err = none) :
    ∃ t, i < t ∧ t < j ∧ (stateAt log t).get key = none ∧ (stateAt log (t + 1)).get key ≠ none := by
  have hafter : ¬(stateAt log (i + 1)).get key ≠ none := by
    rw [stateAt_succ hi, not_not]
    exact (redeemed hop hd hok).2
  have hbefore : (stateAt log j).get key ≠ none := (redeemed hop' hd' hok').1
  obtain ⟨t, hit, htj, hgone, hback⟩ := Nat.exists_turn
    (P := fun t => (stateAt log t).get key ≠ none) hij hafter hbefore
  exact ⟨t, hit, htj, not_not.mp hgone, hback⟩

theorem get_stateAt_of_untouched {log : List Log} {key : Bytes} {i j : Nat} (hij : i ≤ j)
    (h : ∀ t, i ≤ t → t < j → (stateAt log (t + 1)).get key = (stateAt log t).get key) :
    (stateAt log j).get key = (stateAt log i).get key := by
  induction j, hij using Nat.le_induction with
  | base => rfl
  | succ j hij ih =>
    rw [h j hij (Nat.lt_succ_self j)]
    exact ih fun t hit htj => h t hit (by omega)

/-- **Invites are redeemed at most once, by entitled peers.** Between two successful redemptions of
a key an entry re-creates it. An execution invite is redeemed exactly if its record is there and
decodes, has not expired and names a command that the redeemer may run. If the redeemer may not, the
attempt fails, leaves everything as it was, and the next redeemer who may succeeds; at or after the
expiry it fails and removes the record. -/
theorem invites_redeemed_once (log : List Log) (hlog : ∀ l ∈ log, l.Dated) :
    (∀ (i j : Nat) (l l' : Log) (op op' : OpType) (key value value' : Bytes),
      i < j → log[i]? = some l → log[j]? = some l' → op.redeems = true → op'.redeems = true →
      decodeCommand l.data = .ok ⟨op, key, value⟩ → decodeCommand l'.data = .ok ⟨op', key, value'⟩ →
      (apply (stateAt log i) l).1.err = none → (apply (stateAt log j) l').1.err = none →
      ∃ t, i < t ∧ t < j ∧
        (stateAt log t).get key = none ∧ (stateAt log (t + 1)).get key ≠ none) ∧
    (∀ (i : Nat) (l : Log) (key redeemer : Bytes), log[i]? = some l →
      decodeCommand l.data = .ok ⟨.consumeExecInvite, key, redeemer⟩ →
      ((apply (stateAt log i) l).1.err = none ↔
        ∃ v r, (stateAt log i).get key = some v ∧ decodeExecInviteRecord v = .ok r ∧
          (r.expiresAtUnix = 0 ∨ l.appendedAt < r.expiresAtUnix) ∧
          isPermittedForCommand (stateAt log i) r.commandID redeemer = .ok true) ∧
      ∀ v r, (stateAt log i).get key = some v → decodeExecInviteRecord v = .ok r →
        -- expired
        (r.expiresAtUnix ≠ 0 → (r.expiresAtUnix : Int) ≤ l.appendedAt →
          (apply (stateAt log i) l).1.err ≠ none ∧ (stateAt log (i + 1)).get key = none) ∧
        -- not permitted
        ((r.expiresAtUnix = 0 ∨ l.appendedAt < r.expiresAtUnix) →
          isPermittedForCommand (stateAt log i) r.commandID redeemer ≠ .ok true →
          (apply (stateAt log i) l).1.err ≠ none ∧ stateAt log (i + 1) = stateAt log i ∧
          ∀ (j : Nat) (l' : Log) (later : Bytes), i < j → log[j]? = some l' →
            decodeCommand l'.data = .ok ⟨.consumeExecInvite, key, later⟩ →
            (∀ t, i < t → t < j → (stateAt log (t + 1)).get key = (stateAt log t).get key) →
            (r.expiresAtUnix = 0 ∨ l'.appendedAt < r.expiresAtUnix) →
            isPermittedForCommand (stateAt log j) r.commandID later = .ok true →
            apply (stateAt log j) l' = ({ value := v }, (stateAt log j).delete key))) := by
  have fresh_iff {i : Nat} {l : Log} (hi : log[i]? = some l) (r : ExecInviteRecord) :
      expired r l.appendedAt = false ↔ r.expiresAtUnix = 0 ∨ l.appendedAt < r.expiresAtUnix := by
    rw [← Bool.not_eq_true, expired_iff (hlog l (List.mem_of_getElem? hi))]
    omega
  refine ⟨fun i j l l' op op' key value value' hij hi _ => recreated_between hij hi, ?_⟩
  intro i l key redeemer hi hd
  refine ⟨?_, fun v r hv hr => ⟨fun hne hle => ?_, fun hfresh hp => ?_⟩⟩
  · simp only [apply_consumeExecInvite hd, applyConsumeExecInvite_ok_iff, fresh_iff hi]
  · have he : expired r l.appendedAt = true :=
      (expired_iff (hlog l (List.mem_of_getElem? hi))).mpr ⟨hne, hle⟩
    rw [stateAt_succ hi, apply_consumeExecInvite hd, applyConsumeExecInvite_expired hv hr he]
    simp [Store.delete, OrdMap.get_erase]
  · have hrefused := applyConsumeExecInvite_not_permitted hv hr ((fresh_iff hi r).mpr hfresh) hp
    rw [← apply_consumeExecInvite hd, ← stateAt_succ hi] at hrefused
    refine ⟨hrefused.1, hrefused.2, ?_⟩
    intro j l' later hij hj hd' huntouched hfresh' hp'
    have hv' : (stateAt log j).get key = some v := by
      rw [get_stateAt_of_untouched hij huntouched, hrefused.2, hv]
    rw [apply_consumeExecInvite hd']
    exact applyConsumeExecInvite_permitted hv' hr ((fresh_iff hj r).mpr hfresh') hp'

def confirmTwice : List Log :=
  [setEntry [97] [49], ⟨encodeCommand .confirm [97] [98], 0⟩, ⟨encodeCommand .confirm [97] [98], 0⟩]

/-- An execution invite under `a` for the command `c`, and an attempt of `p`, who is in no group. -/
def refusedInvite : List Log :=
  [setEntry [97] (encodeExecInviteRecord [99] [] 0),
    ⟨encodeCommand .consumeExecInvite [97] [112], 0⟩]

theorem dated_of_zero {log : List Log} (h : ∀ l ∈ log, l.appendedAt = 0) : ∀ l ∈ log, l.Dated := by
  intro l hl
  rw [Log.Dated, h l hl]
  exact ⟨by decide, by decide⟩

/-- Nothing re-creates the pending record, so the second confirmation fails; the refused attempt
leaves the invite. -/
theorem invites_redeemed_once_confirm :
    (apply (stateAt confirmTwice 2) ⟨encodeCommand .confirm [97] [98], 0⟩).1.err ≠ none ∧
      stateAt refusedInvite 2 = stateAt refusedInvite 1 := by
  constructor
  · intro hok
    obtain ⟨t, hlt, hlt', -⟩ := (invites_redeemed_once confirmTwice (dated_of_zero (by decide))).1
      1 2 _ _ .confirm .confirm [97] [98] [98] (by decide) rfl rfl rfl rfl (by decide) (by decide)
      (by decide) hok
    omega
  · have hattempt := (invites_redeemed_once refusedInvite (dated_of_zero (by decide))).2 1 _ [97]
      [112] rfl (by decide)
    have hrecord :=
      hattempt.2 (encodeExecInviteRecord [99] [] 0) ⟨[99], [], 0⟩ (by decide) (by decide)
    exact (hrecord.2 (.inl rfl) (by decide)).2.1

end KvRaft.Kvfsm
