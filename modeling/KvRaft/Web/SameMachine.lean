import KvRaft.Kvfsm.Recovery
import KvRaft.Lib.Reach
import KvRaft.Web.Entries

/-! # The learner and the state machine of the nodes

The learner knows two of the eight operations and none of the checks. Its table is that of a node as
long as every set is written by the nodes as it is, and every entry of the other operations has no
effect there. -/

namespace KvRaft.Web

open Bytes

/-! ## A replicated log -/

/-- An entry as `EncodeCommand` makes it, that fits a `Vec<u8>` of the browser. -/
def Encoded (l : Kvfsm.Log) : Prop :=
  ∃ op key value, l.data = Kvfsm.encodeCommand op key value ∧ key.length + value.length + 9 < 2 ^ 31

def replicate (s : SqliteStore) (l : Kvfsm.Log) : SqliteStore :=
  (s.logAppend (s.commitIndex + 1) 1 l.data).setCommitIndex (s.commitIndex + 1)

/-- The learner with a whole log committed and nothing applied. -/
def replicated (log : List Kvfsm.Log) : SqliteStore := log.foldl replicate {}

theorem replicated_effect {log : List Kvfsm.Log} (hlen : log.length < 2 ^ 64) :
    (∃ table, replicated log = { raftLog := table, commitIndex := UInt64.ofNat log.length }) ∧
      ∀ k (hk : k < log.length),
        (replicated log).logGet (UInt64.ofNat (k + 1)) = some (1, (log[k]).data) := by
  induction log using List.reverseRecOn with
  | nil => exact ⟨⟨.empty, rfl⟩, fun k hk => absurd hk (by simp)⟩
  | append_singleton log l ih =>
    rw [List.length_append, List.length_singleton] at hlen
    obtain ⟨⟨table, htable⟩, hrows⟩ := ih (by omega)
    have hstep : replicated (log ++ [l]) = replicate (replicated log) l := by
      rw [replicated, List.foldl_append]
      rfl
    have hcommit : (replicated log).commitIndex + 1 = UInt64.ofNat (log.length + 1) := by
      rw [htable, UInt64.ofNat_add]
      rfl
    rw [hstep, replicate, hcommit]
    refine ⟨⟨_, by rw [htable, List.length_append]; rfl⟩, fun k hk => ?_⟩
    show OrdMap.get _ _ = _
    dsimp only [SqliteStore.logAppend, SqliteStore.setCommitIndex]
    rw [OrdMap.get_insert]
    by_cases hlast : k = log.length
    · subst hlast
      simp
    · have hk' : k < log.length := by
        rw [List.length_append, List.length_singleton] at hk
        omega
      have hne : (UInt64.ofNat (k + 1)).signed ≠ (UInt64.ofNat (log.length + 1)).signed := by
        rw [Ne, UInt64.signed_inj, ← UInt64.toNat_inj, UInt64.toNat_ofNat_lt (by omega),
          UInt64.toNat_ofNat_lt hlen]
        omega
      rw [if_neg hne, List.getElem_append_left hk']
      exact hrows k hk'

theorem decodeCommand_safe {l : Kvfsm.Log} (h : Encoded l) :
    decodeCommand l.data ≠ .error .panic := by
  obtain ⟨op, key, value, hdata, hlen⟩ := h
  rw [hdata, decodeCommand_encodeCommand (by omega)]
  cases op <;> exact fun h => nomatch h

theorem kv_replicated {log : List Kvfsm.Log} (hlog : ∀ l ∈ log, Encoded l)
    (hlen : log.length < 2 ^ 64) :
    (applyCommitted.final (replicated log)).kv = (log.map (·.data)).foldl applyData .empty := by
  obtain ⟨⟨table, htable⟩, hrows⟩ := replicated_effect hlen
  have happlied : (replicated log).lastApplied = 0 := by rw [htable]
  have hrounds : (replicated log).commitIndex.toNat - (max (replicated log).lastApplied
      (replicated log).lastIncludedIndex).toNat = (log.map (·.data)).length := by
    rw [List.length_map, htable]
    exact UInt64.toNat_ofNat_lt hlen
  have hmax : max (replicated log).lastApplied (replicated log).lastIncludedIndex =
      (replicated log).lastApplied := by
    rw [htable]
    rfl
  rw [applyCommitted, EStateM.final_get_bind]
  dsimp only
  rw [hrounds, hmax, final_applyEntries]
  · rw [htable]
  · rw [happlied, List.length_map]
    simpa using hlen
  · intro k hk
    rw [List.length_map] at hk
    refine ⟨1, ?_⟩
    rw [happlied, List.getElem_map, ← hrows k hk]
    exact congrArg (fun i => (replicated log).logGet (UInt64.ofNat i)) (by simp; omega)
  · intro data hdata
    obtain ⟨l, hl, rfl⟩ := List.mem_map.mp hdata
    exact decodeCommand_safe (hlog l hl)

/-! ## Agreement -/

/-- On this store the learner does with the entry what a node does: a set is written as it is, or
refused and already there; the writes that a node plans for an operation unknown to the learner
change nothing. -/
def Agrees (s : Store) (l : Kvfsm.Log) : Prop :=
  match Kvfsm.decodeCommand l.data with
  | .error _ => True
  | .ok ⟨op, key, value⟩ =>
    match op with
    | .set => Kvfsm.planSet s key value = [.set key value] ∨
        Kvfsm.planSet s key value = [] ∧ s.get key = some value
    | .del => True
    | _ => Write.perform s (Kvfsm.plan s l) = s

theorem planSet_cases (s : Store) (key value : Bytes) :
    Kvfsm.planSet s key value = [] ∨ ∃ v, Kvfsm.planSet s key value = [.set key v] := by
  unfold Kvfsm.planSet
  split
  · exact .inr ⟨_, rfl⟩
  · exact .inl rfl

theorem applyData_eq_iff {s : Store} {l : Kvfsm.Log} (h : Encoded l) :
    applyData s l.data = (Kvfsm.apply s l).2 ↔ Agrees s l := by
  obtain ⟨op, key, value, hdata, hlen⟩ := h
  have hnode : Kvfsm.decodeCommand l.data = .ok ⟨op, key, value⟩ := by
    rw [hdata, Kvfsm.decodeCommand_encodeCommand (by omega)]
  rw [Agrees, hnode, hdata, applyData_encodeCommand (by omega)]
  cases op with
  | set =>
    dsimp only
    rw [Kvfsm.apply_store, Kvfsm.plan, hnode]
    dsimp only
    rcases planSet_cases s key value with hplan | ⟨v, hplan⟩ <;> rw [hplan]
    · -- refused by the node
      simp only [Write.perform_nil, OrdMap.insert_eq_self]
      simp
    · show s.insert key value = s.insert key v ↔ _
      constructor
      · intro heq
        have hget := congrArg (OrdMap.get · key) heq
        simp only [OrdMap.get_insert_self, Option.some.injEq] at hget
        exact .inl (by rw [hget])
      · rintro (heq | ⟨hnil, -⟩)
        · cases heq
          rfl
        · cases hnil
  | del =>
    refine iff_of_true ?_ trivial
    rw [Kvfsm.apply_store, Kvfsm.plan, hnode]
    rfl
  | _ =>
    rw [Kvfsm.apply_store]
    exact eq_comm

/-- The learner's table is that of a node after every entry of the log, exactly if on the node's
store every entry agrees. -/
theorem same_machine_iff {log : List Kvfsm.Log} (hlog : ∀ l ∈ log, Encoded l)
    (hlen : log.length < 2 ^ 64) :
    (∀ i (_ : i < log.length),
      (applyCommitted.final (replicated (log.take (i + 1)))).kv = Kvfsm.stateAt log (i + 1)) ↔
    ∀ i (hi : i < log.length), Agrees (Kvfsm.stateAt log i) log[i] := by
  have hkv (i : Nat) : (applyCommitted.final (replicated (log.take i))).kv =
      ((log.take i).map (·.data)).foldl applyData .empty := by
    refine kv_replicated (fun l hl => hlog l (List.mem_of_mem_take hl)) ?_
    rw [List.length_take]
    omega
  have hnext (i : Nat) (hi : i < log.length) (hbefore : (applyCommitted.final
      (replicated (log.take i))).kv = Kvfsm.stateAt log i) :
      (applyCommitted.final (replicated (log.take (i + 1)))).kv = Kvfsm.stateAt log (i + 1) ↔
        Agrees (Kvfsm.stateAt log i) log[i] := by
    rw [hkv, List.foldl_map] at hbefore
    rw [hkv, List.foldl_map, List.foldl_take_succ _ _ hi, hbefore,
      Kvfsm.stateAt_succ (List.getElem?_eq_getElem hi)]
    exact applyData_eq_iff (hlog _ (List.getElem_mem hi))
  exact Nat.forall_lt_iff (I := fun i => (applyCommitted.final (replicated (log.take i))).kv =
    Kvfsm.stateAt log i) rfl hnext fun i hi hbefore hagrees => (hnext i hi hbefore).mpr hagrees

def plainSet : Kvfsm.Log := ⟨Kvfsm.encodeCommand .set (ascii "a") [1], 0⟩

theorem same_machine_set :
    (applyCommitted.final (replicated [plainSet])).kv = Kvfsm.stateAt [plainSet] 1 := by
  have hlog : ∀ l ∈ [plainSet], Encoded l := by
    intro l hl
    rw [List.mem_singleton.mp hl]
    exact ⟨.set, ascii "a", [1], rfl, by decide⟩
  refine (same_machine_iff hlog (by decide)).mpr (fun i hi => ?_) 0 (by decide)
  obtain rfl : i = 0 := by simpa using hi
  exact .inl (by decide)

def transaction : Kvfsm.Log :=
  ⟨Kvfsm.encodeCommand .txn []
    ((Shmevent.encodeTxnPayload [⟨1, ascii "a", [1]⟩]).toOption.getD []), 0⟩

theorem transaction_ignored :
    Encoded transaction ∧ (Kvfsm.stateAt [transaction] 1).get (ascii "a") = some [1] ∧
      (applyCommitted.final (replicated [transaction])).kv.get (ascii "a") = none := by
  exact ⟨⟨.txn, [], _, rfl, by decide⟩, by decide +kernel, by decide +kernel⟩

end KvRaft.Web
