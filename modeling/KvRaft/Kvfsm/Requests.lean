import KvRaft.Kvfsm.Plan

/-! # Entries as they are applied

What an `OpAppendCommandRequest` entry does to the store, and which record an entry about one record
can touch. -/

namespace KvRaft.Kvfsm

open Bytes Shmevent

/-- The store after a request of `author` for the command `commandID` was accepted: the record, and
for the default public command the author's channel and relay access. -/
structure Appended (author commandID : Bytes) (s : Store) (key record : Bytes)
    (s' : Store) : Prop where
  parsed : ∃ k, Logrecord.parseKey key = .ok k ∧ parseCommandRequestLogKind k.kind = some commandID
  permitted : isPermittedForCommand s commandID author = .ok true
  written : if commandID = defaultPublicCommandID
    then grantChannelRelayAccess (s.set key record) author = .ok s'
    else s' = s.set key record

theorem applyAppendCommandRequest_inv (s : Store) (key value : Bytes) :
    ((applyAppendCommandRequest s key value).1.err ≠ none ∧
      (applyAppendCommandRequest s key value).2 = s) ∨
    ((applyAppendCommandRequest s key value).1.err = none ∧
      ∃ author record commandID, decodeCommandRequestApplyPayload value = .ok (author, record) ∧
        Appended author commandID s key record (applyAppendCommandRequest s key value).2) := by
  have refused (e : Err) : (fail s e).1.err ≠ none ∧ (fail s e).2 = s := ⟨nofun, rfl⟩
  unfold applyAppendCommandRequest
  rcases decodeCommandRequestApplyPayload value with e | ⟨author, record⟩
  · exact .inl (refused _)
  rcases hk : Logrecord.parseKey key with e | k
  · exact .inl (refused _)
  rcases hc : parseCommandRequestLogKind k.kind with _ | c
  · simp only [hc]
    exact .inl (refused _)
  rcases hp : isPermittedForCommand s c author with e | _ | _
  · simp only [hc, hp]
    exact .inl (refused _)
  · simp only [hc, hp]
    exact .inl (refused _)
  simp only [hc, hp, checkSystemListCap_logKey hk, committed, Store.withTx]
  by_cases hd : c = defaultPublicCommandID
  · rw [if_pos hd]
    rcases hg : grantChannelRelayAccess (s.set key record) author with e | s'
    · exact .inl (refused _)
    · exact .inr ⟨rfl, author, record, c, rfl, ⟨k, hk, hc⟩, hp, by rw [if_pos hd]; exact hg⟩
  · rw [if_neg hd]
    exact .inr ⟨rfl, author, record, c, rfl, ⟨k, hk, hc⟩, hp, by rw [if_neg hd]⟩

theorem grantChannelRelayAccess_ok {s s' : Store} {peerID : Bytes}
    (h : grantChannelRelayAccess s peerID = .ok s') :
    ∃ channel relay, peerGroupKey peerID reservedGroupChannel = .ok channel ∧
      peerGroupKey peerID reservedGroupRelay = .ok relay ∧
        s' = (s.set channel []).set relay [] := by
  unfold grantChannelRelayAccess at h
  rcases hc : peerGroupKey peerID reservedGroupChannel with e | channel
  · rw [hc] at h
    cases h
  rcases hr : peerGroupKey peerID reservedGroupRelay with e | relay
  · rw [hc, hr] at h
    cases h
  rw [hc, hr] at h
  cases h
  exact ⟨channel, relay, rfl, rfl, rfl⟩

section Appended

variable {author commandID key record x : Bytes} {s s' : Store}
  (h : Appended author commandID s key record s')
include h

theorem Appended.get_of_not_grant
    (hx : commandID = defaultPublicCommandID →
      ∀ g ∈ [reservedGroupChannel, reservedGroupRelay], peerGroupKey author g ≠ .ok x) :
    s'.get x = if x = key then some record else s.get x := by
  have hset : (s.set key record).get x = if x = key then some record else s.get x := by
    rw [Store.set, OrdMap.get_insert]
    split_ifs <;> rfl
  have hw := h.written
  split_ifs at hw with hd
  · obtain ⟨channel, relay, hc, hr, rfl⟩ := grantChannelRelayAccess_ok hw
    have hxc : x ≠ channel := by
      rintro rfl
      exact hx hd _ (by simp) hc
    have hxr : x ≠ relay := by
      rintro rfl
      exact hx hd _ (by simp) hr
    rw [Store.set, Store.set, OrdMap.get_insert, if_neg hxr, OrdMap.get_insert, if_neg hxc]
    exact hset
  · rw [hw]
    exact hset

theorem Appended.get_logKey (hx : x.head? = some Logrecord.logKeyPrefix) :
    s'.get x = if x = key then some record else s.get x := by
  refine h.get_of_not_grant fun _ g _ hk => ?_
  rw [(relationKey_eq_ok hk).2, systemKey, List.head?_cons] at hx
  exact absurd hx (by decide)

end Appended

/-! ## Commands on their way -/

theorem readBytes32_eq_some {n : Nat} {b x rest : Bytes} (h : readBytes32 n b = some (x, rest)) :
    x.length = n := by
  unfold readBytes32 at h
  split_ifs at h with hlt
  cases h
  have : b.length % 2 ^ 32 ≤ b.length := Nat.mod_le _ _
  rw [List.length_take]
  omega

theorem decodeCommand_length {b : Bytes} {c : Command} (h : decodeCommand b = .ok c) :
    c.key.length < 256 ^ 4 ∧ c.value.length < 256 ^ 4 := by
  cases b with
  | nil => cases h
  | cons op rest =>
    rw [decodeCommand] at h
    split at h
    · cases h
    · rename_i klen r₁ h₁
      split at h
      · cases h
      · rename_i key r₂ h₂
        split at h
        · cases h
        · rename_i vlen r₃ h₃
          split at h
          · cases h
          · rename_i value r₄ h₄
            cases h
            rw [readBytes32_eq_some h₂, readBytes32_eq_some h₄]
            exact ⟨(readNat_eq_some h₁).1, (readNat_eq_some h₃).1⟩

theorem readBytes32_append_cases (b rest : Bytes) :
    readBytes32 b.length (b ++ rest) = none ∨
      readBytes32 b.length (b ++ rest) = some (b, rest) := by
  unfold readBytes32
  split_ifs
  · exact .inl rfl
  · exact .inr (by rw [List.take_left, List.drop_left])

/-- A command whose fields are each shorter than 4 GiB: together with its lengths it may be longer,
and then it is refused, but it is never decoded to another command. -/
theorem decodeCommand_reencode {op : OpType} {key value : Bytes} (hk : key.length < 256 ^ 4)
    (hv : value.length < 256 ^ 4) :
    (∃ e, decodeCommand (encodeCommand op key value) = .error e) ∨
      decodeCommand (encodeCommand op key value) = .ok ⟨op, key, value⟩ := by
  have h₁ := readNat_beBytes_append hk (key ++ (beBytes 4 value.length ++ value))
  have h₃ := readNat_beBytes_append hv value
  rcases readBytes32_append_cases key (beBytes 4 value.length ++ value) with h₂ | h₂
  · left
    refine ⟨.truncatedKey, ?_⟩
    rw [encodeCommand, decodeCommand, h₁]
    simp only [h₂]
  have h₄ := readBytes32_append_cases value []
  rw [List.append_nil] at h₄
  rcases h₄ with h₄ | h₄
  · left
    refine ⟨.truncatedValue, ?_⟩
    rw [encodeCommand, decodeCommand, h₁]
    simp only [h₂, h₃, h₄]
  · right
    have h : decodeCommand (encodeCommand op key value) = .ok ⟨.ofByte op.toByte, key, value⟩ :=
      decodeCommand_of_reads h₁ h₂ h₃ h₄
    rwa [OpType.ofByte_toByte] at h

/-! ## Entries about one record -/

section Keys

variable {s : Store} {key value : Bytes} {w : Write Bytes Bytes}

theorem planSet_key (h : w ∈ planSet s key value) : w.key = key := by
  unfold planSet at h
  split at h
  · rw [List.mem_singleton.mp h]
    rfl
  · cases h

theorem planConfirm_key (h : w ∈ planConfirm s key value) : w.key = key ∨ w.key = value := by
  unfold planConfirm at h
  split at h
  · rcases List.mem_cons.mp h with rfl | h
    · exact .inr rfl
    · rw [List.mem_singleton.mp h]
      exact .inl rfl
  · cases h

theorem planConsumeInvite_key (h : w ∈ planConsumeInvite s key) : w.key = key := by
  unfold planConsumeInvite at h
  split_ifs at h
  · rw [List.mem_singleton.mp h]
    rfl
  · cases h

theorem planConsumeExecInvite_key {t : Int} (h : w ∈ planConsumeExecInvite s t key value) :
    w.key = key := by
  have hdel : w = .del key := by
    unfold planConsumeExecInvite at h
    split at h
    · cases h
    · split at h
      · cases h
      · split_ifs at h
        · exact List.mem_singleton.mp h
        · split at h
          · exact List.mem_singleton.mp h
          · cases h
  rw [hdel]
  rfl

end Keys

/-- The operations that write under their own key only. -/
def OpType.single : OpType → Bool
  | .set => true
  | .del => true
  | .consumeInvite => true
  | _ => false

theorem plan_key {s : Store} {op : OpType} {key value : Bytes} {t : Int} {w : Write Bytes Bytes}
    (hop : op.single = true) (hk : key.length < 256 ^ 4) (hv : value.length < 256 ^ 4)
    (hw : w ∈ plan s ⟨encodeCommand op key value, t⟩) : w.key = key := by
  unfold plan at hw
  rcases @decodeCommand_reencode op key value hk hv with ⟨e, hd⟩ | hd
  · simp [hd] at hw
  · simp only [hd] at hw
    cases op with
    | set => exact planSet_key hw
    | del =>
      rw [List.mem_singleton.mp hw]
      rfl
    | consumeInvite => exact planConsumeInvite_key hw
    | _ => cases hop

theorem get_apply_of_ne {op : OpType} {key value k : Bytes} (hop : op.single = true)
    (hk : key.length < 256 ^ 4) (hv : value.length < 256 ^ 4) (hne : k ≠ key)
    (s : Store) (t : Int) :
    (apply s ⟨encodeCommand op key value, t⟩).2.get k = s.get k := by
  rw [apply_store]
  refine Write.get_perform_of_not_written s fun w hw => ?_
  rw [plan_key hop hk hv hw]
  exact hne

end KvRaft.Kvfsm
