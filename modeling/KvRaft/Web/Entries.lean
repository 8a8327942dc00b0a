import KvRaft.Kvfsm.Apply
import KvRaft.Web.Learner

/-! # What a node writes and the learner reads

Log entries and snapshots are written by Go and read by the learner. -/

namespace KvRaft.Web

open Bytes

/-! ## Entries -/

theorem slice_append {ε : Type} (a b c : Bytes) :
    (slice (a ++ (b ++ c)) a.length (a.length + b.length) : Except (Fault ε) Bytes) = .ok b := by
  have hcut : ((a ++ (b ++ c)).take (a.length + b.length)).drop a.length = b := by
    rw [← List.append_assoc, ← List.length_append, List.take_left, List.drop_left]
  rw [slice, if_pos ⟨by omega, by simp⟩, hcut]

theorem usizeAdd_of_lt {a b : Nat} (h : a + b < 2 ^ 32) : usizeAdd a b = a + b := Nat.mod_eq_of_lt h

theorem usizeAdd_of_ge {m n : Nat} (h : 2 ^ 32 ≤ m + n) (hm : m < 2 ^ 32) (hn : n < 2 ^ 32) :
    usizeAdd m n < m ∧ usizeAdd m n < n := by
  show (m + n) % 2 ^ 32 < m ∧ (m + n) % 2 ^ 32 < n
  rw [Nat.mod_eq_sub_mod h, Nat.mod_eq_of_lt (by omega)]
  omega

theorem slice_panics {ε : Type} (data : Bytes) {start stop : Nat} (h : stop < start) :
    (slice data start stop : Except (Fault ε) Bytes) = .error .panic := by
  rw [slice, if_neg fun hs => absurd hs.1 (not_le.mpr h)]

def decodeValue (op : Op) (key tail : Bytes) : Except (Fault FsmError) Command :=
  match readNat 4 tail with
  | none => .error (.err .missingValueLength)
  | some (vlen, tail) =>
    if 2 ^ 32 ≤ 9 + key.length + vlen then .error .panic
    else
      match readBytes vlen tail with
      | none => .error (.err .truncatedValue)
      | some (value, _) => .ok ⟨op, key, value⟩

variable {b : UInt8} {key value : Bytes} {s : SqliteStore} {rows : List (Bytes × Bytes)}

theorem decodeCommand_value {op : Op} (hop : Op.fromByte b = some op) {tail : Bytes}
    (hkey : 9 + key.length < 2 ^ 32)
    (hlen : (b :: (beBytes 4 key.length ++ (key ++ tail))).length < 2 ^ 32) :
    decodeCommand (b :: (beBytes 4 key.length ++ (key ++ tail))) = decodeValue op key tail := by
  have hsize :
      (b :: (beBytes 4 key.length ++ (key ++ tail))).length = 5 + key.length + tail.length := by
    simp only [List.length_cons, List.length_append, length_beBytes]
    omega
  rw [hsize] at hlen
  have hklen :
      (slice (b :: (beBytes 4 key.length ++ (key ++ tail))) 1 5 : Except (Fault FsmError) Bytes) =
      .ok (beBytes 4 key.length) := slice_append [b] (beBytes 4 key.length) _
  have hcut : (slice (b :: (beBytes 4 key.length ++ (key ++ tail))) 5 (5 + key.length) :
      Except (Fault FsmError) Bytes) = .ok key := by
    simpa using slice_append (ε := FsmError) (b :: beBytes 4 key.length) key tail
  rw [decodeCommand, if_neg (by omega),
    show (b :: (beBytes 4 key.length ++ (key ++ tail))).head?.bind Op.fromByte = some op from hop]
  simp only [bind, Except.bind, hklen, beNat_beBytes (show key.length < 256 ^ 4 by omega),
    usizeAdd_of_lt (show 5 + key.length < 2 ^ 32 by omega), hcut,
    usizeAdd_of_lt (show 5 + key.length + 4 < 2 ^ 32 by omega), hsize]
  rw [if_neg (by omega), decodeValue]
  rcases Nat.lt_or_ge tail.length 4 with hshort | hvlen
  · rw [if_pos (by omega), readNat_eq_none hshort]
    rfl
  obtain ⟨vlen, tail, hv⟩ := readNat_of_le hvlen
  obtain ⟨hvlt, rfl⟩ := readNat_eq_some hv
  have hslice :
      (slice (b :: (beBytes 4 key.length ++ (key ++ (beBytes 4 vlen ++ tail)))) (5 + key.length)
      (5 + key.length + 4) : Except (Fault FsmError) Bytes) = .ok (beBytes 4 vlen) := by
    simpa [Nat.add_comm, Nat.add_left_comm] using
      slice_append (ε := FsmError) (b :: (beBytes 4 key.length ++ key)) (beBytes 4 vlen) tail
  rw [List.length_append, length_beBytes] at hlen ⊢
  rw [if_neg (by omega), hv]
  simp only [hslice, beNat_beBytes hvlt]
  rcases Nat.lt_or_ge (9 + key.length + vlen) (2 ^ 32) with hfit | hwrap
  · rw [usizeAdd_of_lt (show 5 + key.length + 4 + vlen < 2 ^ 32 by omega), if_neg (not_le.mpr hfit)]
    rcases Nat.lt_or_ge tail.length vlen with hshort | hvalue
    · rw [if_pos (by omega), readBytes_eq_none hshort]
      rfl
    obtain ⟨value, tail, hread⟩ := readBytes_of_le hvalue
    obtain ⟨rfl, rfl⟩ := readBytes_eq_some hread
    have hcut' :
        (slice (b :: (beBytes 4 key.length ++ (key ++ (beBytes 4 value.length ++ (value ++ tail)))))
          (5 + key.length + 4) (5 + key.length + 4 + value.length) :
            Except (Fault FsmError) Bytes) = .ok value := by
      simpa [Nat.add_comm, Nat.add_left_comm] using
        slice_append (ε := FsmError)
          (b :: (beBytes 4 key.length ++ (key ++ beBytes 4 value.length))) value tail
    rw [List.length_append] at hlen ⊢
    rw [if_neg (by omega), hread, hcut']
    rfl
  · -- the end comes before the value, and is not beyond the buffer
    have hend :=
      (usizeAdd_of_ge (m := 5 + key.length + 4) (n := vlen) (by omega) (by omega) (by omega)).1
    rw [if_neg (by omega), slice_panics _ hend, if_pos hwrap]

theorem decodeCommand_of_op {op : Op} (hop : Op.fromByte b = some op)
    (h : key.length + value.length + 9 < 2 ^ 32) :
    decodeCommand (b :: (beBytes 4 key.length ++ (key ++ (beBytes 4 value.length ++ value)))) =
      .ok ⟨op, key, value⟩ := by
  have hread := readBytes_append value []
  rw [List.append_nil] at hread
  have hlen :
      (b :: (beBytes 4 key.length ++ (key ++ (beBytes 4 value.length ++ value)))).length <
        2 ^ 32 := by
    simp only [List.length_cons, List.length_append, length_beBytes]
    omega
  rw [decodeCommand_value hop (by omega) hlen, decodeValue, readNat_beBytes_append (by omega)]
  dsimp only
  rw [if_neg (by omega), hread]

theorem decodeCommand_unknown {rest : Bytes} (hop : Op.fromByte b = none)
    (hrest : 4 ≤ rest.length) :
    decodeCommand (b :: rest) = .error (.err .unknownOp) := by
  rw [decodeCommand, if_neg (by simp; omega),
    show (b :: rest).head?.bind Op.fromByte = none from hop]

theorem decodeCommand_encodeCommand {op : Kvfsm.OpType}
    (h : key.length + value.length + 9 < 2 ^ 32) :
    decodeCommand (Kvfsm.encodeCommand op key value) =
      match op with
      | .set => .ok ⟨.set, key, value⟩
      | .del => .ok ⟨.del, key, value⟩
      | _ => .error (.err .unknownOp) := by
  cases op with
  | set => exact decodeCommand_of_op rfl h
  | del => exact decodeCommand_of_op rfl h
  | unknown b hb =>
    refine decodeCommand_unknown ?_ (by simp)
    unfold Op.fromByte
    rw [if_neg, if_neg]
    · rintro rfl
      revert hb
      decide
    · rintro rfl
      revert hb
      decide
  | _ => exact decodeCommand_unknown rfl (by simp)

/-! ## Applying -/

def applyData (kv : OrdMap Bytes Bytes) (data : Bytes) : OrdMap Bytes Bytes :=
  match decodeCommand data with
  | .ok ⟨.set, key, value⟩ => kv.insert key value
  | .ok ⟨.del, key, _⟩ => kv.erase key
  | .error _ => kv

theorem applyData_encodeCommand {op : Kvfsm.OpType}
    (h : key.length + value.length + 9 < 2 ^ 32) (kv : OrdMap Bytes Bytes) :
    applyData kv (Kvfsm.encodeCommand op key value) =
      match op with
      | .set => kv.insert key value
      | .del => kv.erase key
      | _ => kv := by
  rw [applyData, decodeCommand_encodeCommand h]
  cases op <;> rfl

theorem run_applyEntry {term : UInt64} {data : Bytes}
    (hrow : s.logGet (s.lastApplied + 1) = some (term, data))
    (hsafe : decodeCommand data ≠ .error .panic) :
    applyEntry (s.lastApplied + 1) s =
      .ok () { s with kv := applyData s.kv data, lastApplied := s.lastApplied + 1 } := by
  have happly :
      applyLogged (some (term, data)) s = .ok () { s with kv := applyData s.kv data } := by
    unfold applyLogged applyData
    dsimp only
    rcases hdecode : decodeCommand data with e | ⟨op, key, value⟩
    · cases e with
      | err e => rfl
      | panic => exact absurd hdecode hsafe
    · cases op <;> rfl
  show (applyLogged (s.logGet (s.lastApplied + 1)) >>= fun _ =>
    (modify fun s' => s'.setLastApplied (s.lastApplied + 1) : Db PUnit)) s = _
  rw [hrow, EStateM.run_bind_of_ok happly]
  rfl

theorem final_applyEntries : ∀ {datas : List Bytes} {s : SqliteStore},
    s.lastApplied.toNat + datas.length < 2 ^ 64 →
    (∀ k (hk : k < datas.length), ∃ term,
      s.logGet (UInt64.ofNat (s.lastApplied.toNat + 1 + k)) = some (term, datas[k])) →
    (∀ data ∈ datas, decodeCommand data ≠ .error .panic) →
    (applyEntries datas.length s.lastApplied).final s =
      { s with kv := datas.foldl applyData s.kv,
               lastApplied := UInt64.ofNat (s.lastApplied.toNat + datas.length) }
  | [], s, _, _, _ => by
    rw [List.length_nil, Nat.add_zero, UInt64.ofNat_toNat]
    rfl
  | data :: datas, s, hbound, hrows, hsafe => by
    rw [List.length_cons] at hbound
    have hnext : (s.lastApplied + 1).toNat = s.lastApplied.toNat + 1 :=
      UInt64.toNat_add_one (by omega)
    obtain ⟨term, hrow⟩ := hrows 0 (by simp)
    rw [Nat.add_zero, ← hnext, UInt64.ofNat_toNat, List.getElem_cons_zero] at hrow
    have hrun := run_applyEntry hrow (hsafe data List.mem_cons_self)
    have hrows' : ∀ k (hk : k < datas.length), ∃ term,
        s.logGet (UInt64.ofNat ((s.lastApplied + 1).toNat + 1 + k)) = some (term, datas[k]) := by
      intro k hk
      obtain ⟨term, hrow⟩ := hrows (k + 1) (by simpa using hk)
      refine ⟨term, ?_⟩
      rw [hnext, show s.lastApplied.toNat + 1 + 1 + k = s.lastApplied.toNat + 1 + (k + 1) by
        omega, hrow]
      rfl
    have ih := final_applyEntries
      (s := { s with kv := applyData s.kv data, lastApplied := s.lastApplied + 1 })
      (by dsimp only; omega) hrows' fun data' hmem => hsafe data' (List.mem_cons_of_mem _ hmem)
    rw [List.length_cons, applyEntries, EStateM.final, EStateM.run_bind_of_ok hrun, ← EStateM.final]
    rw [ih, hnext,
      show s.lastApplied.toNat + 1 + datas.length = s.lastApplied.toNat + (datas.length + 1) by
      omega]
    rfl

/-! ## Snapshots -/

theorem snapshotEntries_dumpRows
    (hfits : ∀ kv ∈ rows, kv.1.length < 2 ^ 32 ∧ kv.2.length < 2 ^ 32) {fuel : Nat}
    (hfuel : (Store.dumpRows rows).length < fuel) :
    snapshotEntries fuel (Store.dumpRows rows) = .ok rows := by
  induction rows generalizing fuel with
  | nil =>
    cases fuel with
    | zero => rfl
    | succ fuel => rfl
  | cons kv rows ih =>
    obtain ⟨hk, hv⟩ := hfits kv List.mem_cons_self
    rw [Store.dumpRows_cons] at hfuel ⊢
    cases fuel with
    | zero => omega
    | succ fuel =>
      have hne :
          beBytes 4 kv.1.length ++
            (kv.1 ++ (beBytes 4 kv.2.length ++ (kv.2 ++ Store.dumpRows rows))) ≠
          [] := List.ne_nil_of_length_pos (by simp)
      have hrest : (Store.dumpRows rows).length < fuel := by
        simp only [List.length_append, length_beBytes] at hfuel
        omega
      rw [snapshotEntries, if_neg hne, readNat_beBytes_append (by omega)]
      dsimp only
      rw [readBytes_append]
      dsimp only
      rw [readNat_beBytes_append (by omega)]
      dsimp only
      rw [readBytes_append]
      dsimp only
      rw [ih (fun kv' hmem => hfits kv' (List.mem_cons_of_mem _ hmem)) hrest]
      rfl

theorem run_insertRow (kv : Bytes × Bytes) (s : SqliteStore) : SqliteStore.insertRow kv s =
    if (s.kv.get kv.1).isSome then .error (.err (.step 19)) s else .ok ⟨⟩ (s.kvSet kv.1 kv.2) := by
  change (if (s.kv.get kv.1).isSome then throw (.err (.step 19))
    else modify fun s => s.kvSet kv.1 kv.2 : Db PUnit) s = _
  split_ifs <;> rfl

theorem run_insertRows (hnodup : (rows.map Prod.fst).Nodup)
    (s : SqliteStore) (hfree : ∀ kv ∈ rows, s.kv.get kv.1 = none) :
    (rows.forM SqliteStore.insertRow : Db PUnit) s =
      .ok ⟨⟩ { s with kv := rows.foldl (fun t kv => t.insert kv.1 kv.2) s.kv } := by
  induction rows generalizing s with
  | nil => rfl
  | cons kv rows ih =>
    obtain ⟨hkv, hnodup⟩ := List.nodup_cons.mp hnodup
    have hinsert : SqliteStore.insertRow kv s = .ok ⟨⟩ (s.kvSet kv.1 kv.2) := by
      rw [run_insertRow, hfree kv List.mem_cons_self]
      rfl
    have hfree' : ∀ kv' ∈ rows, (s.kvSet kv.1 kv.2).kv.get kv'.1 = none := by
      intro kv' hmem
      have hne : kv'.1 ≠ kv.1 := fun he => hkv (he ▸ List.mem_map_of_mem hmem)
      rw [SqliteStore.kvSet, OrdMap.get_insert, if_neg hne]
      exact hfree kv' (List.mem_cons_of_mem _ hmem)
    show (SqliteStore.insertRow kv >>= fun _ => rows.forM SqliteStore.insertRow) s = _
    rw [EStateM.run_bind_of_ok hinsert, ih hnodup _ hfree']
    rfl

theorem run_begin (s : SqliteStore) : SqliteStore.begin s =
    if s.inTransaction then .error (.err .nestedTransaction) s else .ok ⟨⟩
    { s with inTransaction := true } := by
  change (if s.inTransaction then throw (.err .nestedTransaction)
    else modify fun s => { s with inTransaction := true } : Db Unit) s = _
  split_ifs <;> rfl

/-- Where the rows find the database. -/
def emptied (s : SqliteStore) : SqliteStore := { s with kv := .empty, inTransaction := true }

theorem run_kvReplaceAll_idle (h : s.inTransaction = false) :
    SqliteStore.kvReplaceAll rows s = (do
      rows.forM SqliteStore.insertRow
      modify fun s => { s with inTransaction := false } : Db Unit) (emptied s) := by
  have hbegin := run_begin s
  rw [h, if_neg Bool.false_ne_true] at hbegin
  rw [SqliteStore.kvReplaceAll, EStateM.run_bind_of_ok hbegin]
  rfl

theorem replaced_of_nodup (h : s.inTransaction = false)
    (hnodup : (rows.map Prod.fst).Nodup) :
    SqliteStore.kvReplaceAll rows s =
      .ok ⟨⟩ { s with kv := rows.foldl (fun t kv => t.insert kv.1 kv.2) .empty } := by
  rw [run_kvReplaceAll_idle h, EStateM.run_bind_of_ok (run_insertRows hnodup _ fun _ _ => rfl), ← h]
  rfl

theorem run_kvReplaceAll {t : OrdMap Bytes Bytes} (hperm : rows.Perm t.entries)
    (hs : s.inTransaction = false) :
    SqliteStore.kvReplaceAll rows s = .ok ⟨⟩ { s with kv := t } := by
  have hnodup : (rows.map Prod.fst).Nodup :=
    ((hperm.map Prod.fst).nodup_iff).mpr (List.pairwise_map.mpr (t.sorted.imp ne_of_lt))
  have htable : rows.foldl (fun t kv => t.insert kv.1 kv.2) OrdMap.empty = t := by
    refine OrdMap.ext_get fun k => Option.ext fun v => ?_
    rw [show (rows.foldl (fun t kv => t.insert kv.1 kv.2) OrdMap.empty).get k = some v ↔ _ from
      Store.get_foldl_set hnodup (fun _ _ => rfl) k v, OrdMap.get_eq_some (m := t), ← hperm.mem_iff]
    simp
  rw [replaced_of_nodup hs hnodup, htable]

end KvRaft.Web
