import KvRaft.Kvfsm.Plan

/-! # Restarts and snapshots

The store is a file that outlives the process, and `Snapshot` keeps a pointer to the live store, so
raft hands the state machine entries that its store already reflects: all of them after a restart
without a snapshot, those between the snapshot's index and its dump after a restore. Re-delivered
entries are harmless exactly as far as their checks come out as they first did: a transaction
that deletes what an earlier entry wrote, under a precondition its own write falsifies, is undone.
-/

namespace KvRaft.Kvfsm

open Bytes Shmevent

/-! ## Replays -/

/-- Along the runs of `log` from `s` and from `s'`, the checks of every entry come out alike. -/
def ReplayAgrees : Store → Store → List Log → Prop
  | _, _, [] => True
  | s, s', l :: log => SameChecks s s' l ∧ ReplayAgrees (apply s l).2 (apply s' l).2 log

theorem ReplayAgrees.agree : ∀ {log : List Log} {s s' : Store},
    ReplayAgrees s s' log → fsm.Agree s s' log
  | [], _, _, _ => trivial
  | l :: log, s, s', ⟨hl, h⟩ => by
    refine ⟨plan_congr hl, ?_⟩
    rw [apply_store, apply_store] at h
    exact h.agree

theorem replayAgrees_of_plain : ∀ {log : List Log} (s s' : Store),
    (∀ l ∈ log, Plain l) → ReplayAgrees s s' log
  | [], _, _, _ => trivial
  | l :: _, s, s', h =>
    ⟨sameChecks_of_plain (h l List.mem_cons_self) s s',
      replayAgrees_of_plain _ _ fun l' hl' => h l' (List.mem_cons_of_mem _ hl')⟩

theorem applyAll_replay {s : Store} {log : List Log} (h : ReplayAgrees s (applyAll s log) log) :
    applyAll (applyAll s log) log = applyAll s log := by
  have ha := h.agree
  simp only [applyAll_eq_run] at ha ⊢
  exact fsm.run_replay ha

def stateAt (log : List Log) (n : Nat) : Store := applyAll OrdMap.empty (log.take n)

theorem stateAt_succ {log : List Log} {n : Nat} {l : Log} (h : log[n]? = some l) :
    stateAt log (n + 1) = (apply (stateAt log n) l).2 := by
  rw [stateAt, stateAt, List.take_add_one, h, applyAll_append]
  rfl

theorem applyAll_stateAt (log : List Log) (n : Nat) :
    applyAll (stateAt log n) (log.drop n) = applyAll OrdMap.empty log := by
  rw [stateAt, ← applyAll_append, List.take_append_drop]

theorem applyAll_redelivered {log : List Log} {i j : Nat} (hij : i ≤ j)
    (h : ReplayAgrees (stateAt log i) (stateAt log j) ((log.take j).drop i)) :
    applyAll (stateAt log j) (log.drop i) = applyAll OrdMap.empty log := by
  have hj : stateAt log j = applyAll (stateAt log i) ((log.take j).drop i) := by
    have ht : log.take i = (log.take j).take i := by rw [List.take_take, Nat.min_eq_left hij]
    rw [stateAt, stateAt, ht, ← applyAll_append, List.take_append_drop]
  have hd : log.drop i = (log.take j).drop i ++ log.drop j := by
    by_cases hl : i ≤ (log.take j).length
    · rw [← List.drop_append_of_le_length hl, List.take_append_drop]
    · rw [List.length_take] at hl
      rw [List.drop_eq_nil_of_le (by omega), List.drop_eq_nil_of_le (by simp; omega),
        List.drop_eq_nil_of_le (by omega), List.append_nil]
  rw [hj] at h
  rw [hd, applyAll_append, hj, applyAll_replay h, ← hj, applyAll_stateAt]

/-! ## Restart -/

/-- What raft does with the reopened store on start: it restores the latest snapshot, if there is
one, and applies every committed entry after it. The store is not cleared first. -/
def restart (surviving : Store) (snapshot : Option (Nat × Bytes)) (log : List Log) :
    Except Err Store :=
  match snapshot with
  | some (i, content) => (restore content).map fun s => applyAll s (log.drop i)
  | none => .ok (applyAll surviving log)

/-- **Restart.** The store survived with the first `m` entries applied. If a snapshot exists, or the
checks of those entries come out on their replay as they did at first, the restarted node ends in
the state of one run over the log. -/
theorem restart_recovers {log : List Log} {m : Nat} {snapshot : Option (Nat × Bytes)}
    (hsnap : ∀ i content, snapshot = some (i, content) → restore content = .ok (stateAt log i))
    (hreplay : snapshot = none → ReplayAgrees OrdMap.empty (stateAt log m) (log.take m)) :
    restart (stateAt log m) snapshot log = .ok (applyAll OrdMap.empty log) := by
  rcases snapshot with _ | ⟨i, content⟩
  · have h : applyAll (stateAt log m) (log.drop 0) = applyAll OrdMap.empty log :=
      applyAll_redelivered (Nat.zero_le m) (hreplay rfl)
    rw [restart, ← h, List.drop_zero]
  · rw [restart, hsnap i content rfl, Except.map, applyAll_stateAt]

def setEntry (key value : Bytes) : Log := ⟨encodeCommand .set key value, 0⟩

def txnEntry (payload : Bytes) : Log := ⟨encodeCommand .txn [] payload, 0⟩

theorem plain_setEntry {key value : Bytes} (hl : key.length + value.length + 4 < 2 ^ 32)
    (hk : systemKind key = none) : Plain (setEntry key value) := by
  rw [Plain, setEntry, decodeCommand_encodeCommand hl]
  exact hk

theorem restart_recovers_two_sets :
    restart (stateAt [setEntry [97] [49], setEntry [98] [50]] 1) none
        [setEntry [97] [49], setEntry [98] [50]] =
      .ok (applyAll OrdMap.empty [setEntry [97] [49], setEntry [98] [50]]) :=
  restart_recovers (fun _ _ h => nomatch h) fun _ =>
    replayAgrees_of_plain _ _ fun l hl => by
      rw [List.mem_singleton.mp hl]
      exact plain_setEntry (by decide) rfl

/-- Create `b` unless it exists, and delete `a`. -/
def moveTxn : Bytes :=
  [0, 3] ++ [4, 0, 1, 98, 0, 0] ++ [2, 0, 1, 97, 0, 0] ++ [1, 0, 1, 98, 0, 1, 49]

/-- After a restart the deleted key is back: its write is replayed, the transaction is refused. -/
theorem restart_repeats_transaction :
    restart (stateAt [setEntry [97] [49], txnEntry moveTxn] 2) none
        [setEntry [97] [49], txnEntry moveTxn] ≠
      .ok (applyAll OrdMap.empty [setEntry [97] [49], txnEntry moveTxn]) := by
  decide

/-! ## Snapshots -/

/-- Restore a dump recorded under index `i`, then apply the entries after `i`. -/
def restoreThenApply (dump : Bytes) (log : List Log) (i : Nat) : Except Err Store :=
  (restore dump).map fun s => applyAll s (log.drop i)

/-- **Snapshot and replay.** The dump was taken after entry `j`, its index is `i`. -/
theorem snapshot_replay {log : List Log} {i j : Nat} {rows : List (Bytes × Bytes)} (hij : i ≤ j)
    (hrows : rows.Perm (stateAt log j).entries) (hfits : (stateAt log j).Fits)
    (hreplay : ReplayAgrees (stateAt log i) (stateAt log j) ((log.take j).drop i)) :
    restoreThenApply (persist rows) log i = .ok (applyAll OrdMap.empty log) := by
  have hload : restore (persist rows) = .ok (stateAt log j) := Store.loadAll_dumpRows hrows hfits
  rw [restoreThenApply, hload, Except.map, applyAll_redelivered hij hreplay]

theorem snapshot_replay_set :
    restoreThenApply (persist (stateAt [setEntry [97] [49], setEntry [98] [50]] 2).entries)
        [setEntry [97] [49], setEntry [98] [50]] 1 =
      .ok (applyAll OrdMap.empty [setEntry [97] [49], setEntry [98] [50]]) :=
  snapshot_replay (j := 2) (by decide) (.refl _)
    (fun k v h => by
      have hm := OrdMap.get_eq_some.mp h
      have he : (stateAt [setEntry [97] [49], setEntry [98] [50]] 2).entries =
        [([97], [49]), ([98], [50])] := by decide
      rw [he] at hm
      simp at hm
      rcases hm with ⟨rfl, rfl⟩ | ⟨rfl, rfl⟩ <;> decide)
    (replayAgrees_of_plain _ _ fun l hl => by
      rw [List.mem_singleton.mp hl]
      exact plain_setEntry (by decide) rfl)

/-- A dump taken two entries after its index brings back the key that the last of them deleted. -/
theorem late_dump_repeats_transaction :
    restoreThenApply
        (persist (stateAt [setEntry [99] [49], setEntry [97] [49], txnEntry moveTxn] 3).entries)
        [setEntry [99] [49], setEntry [97] [49], txnEntry moveTxn] 1 ≠
      .ok (applyAll OrdMap.empty [setEntry [99] [49], setEntry [97] [49], txnEntry moveTxn]) := by
  decide

end KvRaft.Kvfsm
