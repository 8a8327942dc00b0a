import KvRaft.Kvfsm.Recovery
import KvRaft.Lib.Reach

/-! # Transactions

An `OpTxn` entry is a compare-and-write: all its preconditions are read in the store it meets, and
its writes land together or not at all. -/

namespace KvRaft.Kvfsm

open Bytes Shmevent

/-! ## Preconditions -/

/-- What a precondition asks of the store. A write asks nothing. -/
def Holds (s : Store) (o : TxnOpSpec) : Prop :=
  (o.op = txnOpCompare → s.get o.key = some o.value) ∧
    (o.op = txnOpCompareAbsent → s.get o.key = none)

variable {i : Nat} {ops : List TxnOpSpec} {s : Store} {value key : Bytes}
  {expected : Option Bytes} {l : Log}

theorem checkTxnKinds_ok_iff :
    checkTxnKinds i ops = .ok () ↔ ∀ o ∈ ops, validTxnOp o.op = true := by
  induction ops generalizing i with
  | nil => simp [checkTxnKinds]
  | cons o ops ih =>
    rw [checkTxnKinds]
    cases ho : validTxnOp o.op with
    | false => simp [ho]
    | true => simp [ho, ih]

theorem checkCompare_ok_iff {o : TxnOpSpec} :
    checkCompare s i o = .ok () ↔ Holds s o := by
  unfold checkCompare Holds
  by_cases ha : o.op = txnOpCompareAbsent
  · cases s.get o.key <;> simp [ha, show txnOpCompareAbsent ≠ txnOpCompare by decide]
  · by_cases hc : o.op = txnOpCompare
    · cases s.get o.key <;> simp [hc, show txnOpCompare ≠ txnOpCompareAbsent by decide]
    · simp [ha, hc]

theorem checkTxnCompares_ok_iff :
    checkTxnCompares s i ops = .ok () ↔ ∀ o ∈ ops, Holds s o := by
  induction ops generalizing i with
  | nil => simp [checkTxnCompares]
  | cons o ops ih =>
    rw [checkTxnCompares, List.forall_mem_cons]
    cases ho : o.isCompare with
    | false =>
      have hh : Holds s o := by
        simp only [TxnOpSpec.isCompare, Bool.or_eq_false_iff, beq_eq_false_iff_ne] at ho
        exact ⟨fun h => absurd h ho.1, fun h => absurd h ho.2⟩
      simp [ih, hh]
    | true =>
      rw [← checkCompare_ok_iff (i := i)]
      cases checkCompare s i o <;> simp [ih]

/-! ## The two outcomes -/

theorem applyTxn_of_holds
    (hd : decodeTxnPayload value = .ok ops) (hk : ∀ o ∈ ops, validTxnOp o.op = true)
    (hc : ∀ o ∈ ops, Holds s o) :
    applyTxn s value = ({}, Write.perform s (ops.flatMap planTxnOp)) := by
  unfold applyTxn
  simp only [hd, checkTxnKinds_ok_iff.mpr hk, checkTxnCompares_ok_iff.mpr hc]
  rw [← foldl_runTxnOp]
  rfl

theorem applyTxn_of_not_holds
    (h : ¬∃ ops, decodeTxnPayload value = .ok ops ∧ (∀ o ∈ ops, validTxnOp o.op = true) ∧
      ∀ o ∈ ops, Holds s o) :
    (applyTxn s value).1.err ≠ none ∧ (applyTxn s value).2 = s := by
  unfold applyTxn
  rcases hd : decodeTxnPayload value with e | ops
  · simp [fail]
  simp only
  rcases hk : checkTxnKinds 0 ops with e | _
  · simp [fail]
  simp only
  rcases hc : checkTxnCompares s 0 ops with e | _
  · simp [fail]
  exact absurd ⟨ops, hd, checkTxnKinds_ok_iff.mp hk, checkTxnCompares_ok_iff.mp hc⟩ h

/-! ## Compare-and-swap -/

/-- The operations of `CompareAndSwap`; expecting nothing is expecting the key to be absent. -/
def casOps (key : Bytes) (expected : Option Bytes) (value : Bytes) : List TxnOpSpec :=
  match expected with
  | some e => [⟨txnOpCompare, key, e⟩, ⟨txnOpSet, key, value⟩]
  | none => [⟨txnOpCompareAbsent, key, []⟩, ⟨txnOpSet, key, value⟩]

def IsCas (l : Log) (key : Bytes) (expected : Option Bytes) (value : Bytes) : Prop :=
  ∃ k payload, decodeCommand l.data = .ok ⟨.txn, k, payload⟩ ∧
    decodeTxnPayload payload = .ok (casOps key expected value)

theorem isCas_of_encode {payload : Bytes} {at' : Int}
    (h : encodeTxnPayload (casOps key expected value) = .ok payload) :
    IsCas ⟨encodeCommand .txn [] payload, at'⟩ key expected value := by
  refine ⟨[], payload, decodeCommand_encodeCommand ?_, decodeTxnPayload_encodeTxnPayload h⟩
  obtain ⟨-, hc, rfl⟩ := encodeTxnPayload_ok_iff.mp h
  have hlen : ∀ o ∈ casOps key expected value, (encodeTxnOp o).length ≤ 5 + 0xFFFF + 0xFFFF := by
    intro o ho
    obtain ⟨-, hk, hv, -⟩ := checkTxnOp_ok_iff.mp (hc o ho)
    simp only [encodeTxnOp, List.length_cons, List.length_append, length_beBytes]
    omega
  rcases expected with _ | e
  all_goals
    simp only [casOps, List.mem_cons, forall_eq_or_imp, List.not_mem_nil, false_imp_iff,
      implies_true, and_true] at hlen
    simp only [casOps, List.flatMap_cons, List.flatMap_nil, List.length_append, length_beBytes,
      List.length_nil]
    omega

theorem holds_casOps :
    (∀ o ∈ casOps key expected value, Holds s o) ↔ s.get key = expected := by
  cases expected <;>
    simp [casOps, Holds, txnOpCompare, txnOpCompareAbsent, txnOpSet]

theorem valid_casOps (key value : Bytes) (expected : Option Bytes) :
    ∀ o ∈ casOps key expected value, validTxnOp o.op = true := by
  cases expected <;> simp [casOps, validTxnOp]

theorem apply_txn {k payload : Bytes}
    (h : decodeCommand l.data = .ok ⟨.txn, k, payload⟩) : apply s l = applyTxn s payload := by
  rw [apply, h]

theorem apply_cas_iff
    (h : IsCas l key expected value) : (apply s l).1.err = none ↔ s.get key = expected := by
  obtain ⟨k, payload, hd, hp⟩ := h
  rw [apply_txn hd]
  constructor
  · intro hok
    by_contra hne
    refine (applyTxn_of_not_holds ?_).1 hok
    rintro ⟨ops, hp', -, hh⟩
    cases hp.symm.trans hp'
    exact hne (holds_casOps.mp hh)
  · intro hg
    rw [applyTxn_of_holds hp (valid_casOps _ _ _) (holds_casOps.mpr hg)]

theorem get_apply_cas
    (h : IsCas l key expected value) (hok : (apply s l).1.err = none) :
    (apply s l).2.get key = some value := by
  have hg := (apply_cas_iff h).mp hok
  obtain ⟨k, payload, hd, hp⟩ := h
  rw [apply_txn hd, applyTxn_of_holds hp (valid_casOps _ _ _) (holds_casOps.mpr hg)]
  cases expected <;>
    simp [casOps, planTxnOp, TxnOpSpec.isCompare, txnOpCompare, txnOpCompareAbsent, txnOpSet,
      Write.run]

/-! ## Atomicity -/

/-- **Transactions are atomic compare-and-write.** An entry whose operations are known and whose
preconditions hold performs its writes, left to right, and any other leaves the store alone. Over a
log, a compare-and-swap that succeeds found what it expected, and of two with the same expectation
one fails, unless something in between restored the expected value. -/
theorem txn_compare_and_write :
    (∀ (s : Store) (l : Log) (key value : Bytes),
      decodeCommand l.data = .ok ⟨.txn, key, value⟩ →
      (∀ ops, decodeTxnPayload value = .ok ops → (∀ o ∈ ops, validTxnOp o.op = true) →
        (∀ o ∈ ops, Holds s o) → apply s l = ({}, Write.perform s (ops.flatMap planTxnOp))) ∧
      ((¬∃ ops, decodeTxnPayload value = .ok ops ∧ (∀ o ∈ ops, validTxnOp o.op = true) ∧
        ∀ o ∈ ops, Holds s o) → (apply s l).1.err ≠ none ∧ (apply s l).2 = s)) ∧
    (∀ (log : List Log) (j : Nat) (l : Log) (key value : Bytes) (expected : Option Bytes),
      log[j]? = some l → IsCas l key expected value → (apply (stateAt log j) l).1.err = none →
      (stateAt log j).get key = expected ∧ (stateAt log (j + 1)).get key = some value) ∧
    (∀ (log : List Log) (i j : Nat) (l l' : Log) (key value value' : Bytes)
      (expected : Option Bytes), i < j → log[i]? = some l → log[j]? = some l' →
      IsCas l key expected value → IsCas l' key expected value' → some value ≠ expected →
      (∀ t, i < t → t < j → ¬((stateAt log t).get key ≠ expected ∧
        (stateAt log (t + 1)).get key = expected)) →
      ¬((apply (stateAt log i) l).1.err = none ∧ (apply (stateAt log j) l').1.err = none)) := by
  refine ⟨fun s l key value hd => ?_, ?_, ?_⟩
  · rw [apply_txn hd]
    exact ⟨fun ops => applyTxn_of_holds, applyTxn_of_not_holds⟩
  · intro log j l key value expected hj hcas hok
    rw [stateAt_succ hj]
    exact ⟨(apply_cas_iff hcas).mp hok, get_apply_cas hcas hok⟩
  · intro log i j l l' key value value' expected hij hi hj hcas hcas' hne hrest ⟨hok, hok'⟩
    have hafter : (stateAt log (i + 1)).get key ≠ expected := by
      rw [stateAt_succ hi, get_apply_cas hcas hok]
      exact hne
    -- the second one found the expected value, so something restored it in between
    obtain ⟨t, hit, htj, hturn⟩ := Nat.exists_turn
      (P := fun t => (stateAt log t).get key = expected) hij hafter ((apply_cas_iff hcas').mp hok')
    exact hrest t hit htj hturn

/-- The payload that creates `a` with a one-byte value, unless it exists. -/
def createTxn (x : UInt8) : Bytes := [0, 2] ++ [4, 0, 1, 97, 0, 0] ++ [1, 0, 1, 97, 0, 1, x]

/-- Two attempts to create the same key: the second is refused. -/
theorem txn_compare_and_write_create :
    (apply (stateAt [txnEntry (createTxn 49), txnEntry (createTxn 50)] 1)
      (txnEntry (createTxn 50))).1.err ≠ none := by
  have h49 : IsCas (txnEntry (createTxn 49)) [97] none [49] := isCas_of_encode (by decide)
  have h50 : IsCas (txnEntry (createTxn 50)) [97] none [50] := isCas_of_encode (by decide)
  intro hok
  exact txn_compare_and_write.2.2 [txnEntry (createTxn 49), txnEntry (createTxn 50)] 0 1 _ _ [97]
    [49] [50] none (by decide) rfl rfl h49 h50 (by decide) (fun t h h' => by omega)
    ⟨by decide, hok⟩

end KvRaft.Kvfsm
