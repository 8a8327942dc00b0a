import KvRaft.Web.Commit
import KvRaft.Web.Entries

/-! # Snapshots that fail to install

`kv_replace_all` begins a transaction, empties the table, inserts the rows and commits, each by a
statement of its own, and returns from the middle of them if a row cannot be inserted.
Nothing rolls back. -/

namespace KvRaft.Web

open Bytes EStateM

/-! ## Inserting rows -/

section Rows

variable {s : SqliteStore} {entries : List (Bytes × Bytes)}

/-- Statements that leave a transaction as it is. -/
def transactionFrame : Frame SqliteStore where
  rel s s' := s'.inTransaction = s.inTransaction
  refl _ := rfl
  trans h h' := h'.trans h

theorem keeps_insertRow (row : Bytes × Bytes) :
    transactionFrame.Keeps (SqliteStore.insertRow row) :=
  Frame.keeps_get_bind fun _ => Frame.keeps_ite (fun _ => Frame.keeps_throw _) fun _ =>
    Frame.keeps_modify fun _ => rfl

theorem outcome_insertRows : (entries.forM SqliteStore.insertRow : Db PUnit).outcome s = .ok ⟨⟩ ↔
    (entries.map Prod.fst).Nodup ∧ ∀ kv ∈ entries, s.kv.get kv.1 = none := by
  refine ⟨fun h => ?_, fun h => by rw [outcome, run_insertRows h.1 s h.2]⟩
  induction entries generalizing s with
  | nil => exact ⟨List.nodup_nil, by simp⟩
  | cons kv entries ih =>
    change (SqliteStore.insertRow kv >>= fun _ =>
      entries.forM SqliteStore.insertRow : Db PUnit).outcome s = _ at h
    by_cases hdup : (s.kv.get kv.1).isSome
    · have hrun := run_insertRow kv s
      rw [if_pos hdup] at hrun
      rw [outcome_bind, outcome, hrun] at h
      cases h
    · have hrun := run_insertRow kv s
      rw [if_neg hdup] at hrun
      rw [outcome, run_bind_of_ok hrun, ← outcome] at h
      obtain ⟨hnodup, hfree⟩ := ih h
      have hnew : ∀ kv' ∈ entries, kv'.1 ≠ kv.1 ∧ s.kv.get kv'.1 = none := by
        intro kv' hmem
        have hnone := hfree kv' hmem
        rw [SqliteStore.kvSet, OrdMap.get_insert] at hnone
        split_ifs at hnone with hne
        exact ⟨hne, hnone⟩
      refine ⟨List.nodup_cons.mpr ⟨fun hmem => ?_, hnodup⟩, List.forall_mem_cons.mpr
        ⟨Option.not_isSome_iff_eq_none.mp hdup, fun kv' hmem => (hnew kv' hmem).2⟩⟩
      obtain ⟨kv', hmem', heq⟩ := List.mem_map.mp hmem
      exact (hnew kv' hmem').1 heq

theorem run_kvReplaceAll_nested (h : s.inTransaction = true) :
    SqliteStore.kvReplaceAll entries s = .error (.err .nestedTransaction) s := by
  have hbegin := run_begin s
  rw [if_pos h] at hbegin
  exact run_bind_of_error hbegin _

theorem stuck_of_not_nodup (h : s.inTransaction = false) (hdup : ¬(entries.map Prod.fst).Nodup) :
    ∃ e s', SqliteStore.kvReplaceAll entries s = .error e s' ∧ s'.inTransaction = true := by
  rw [run_kvReplaceAll_idle h]
  have hkeeps := Frame.keeps_forM (l := entries) keeps_insertRow (emptied s)
  rcases hrun : (entries.forM SqliteStore.insertRow : Db PUnit) (emptied s) with ⟨u, s'⟩ | ⟨e, s'⟩
  · have hok : (entries.forM SqliteStore.insertRow : Db PUnit).outcome (emptied s) = .ok ⟨⟩ := by
      rw [outcome, hrun]
    exact absurd (outcome_insertRows.mp hok).1 hdup
  · rw [final, hrun] at hkeeps
    exact ⟨e, s', run_bind_of_error hrun _, hkeeps⟩

end Rows

/-! ## Failed installations -/

section Install

variable (self : Learner) (s : SqliteStore) (req : InstallSnapshotRequest) (body : Bytes)

/-- An error, or an answer without success. -/
def InstallFails : Prop :=
  ∀ resp, (handleInstallSnapshot self req body).outcome s = .ok resp → resp.success = false

/-- The database is as it was, no transaction is open, and every request is handled as before. -/
structure Unharmed (l : Learner) (s s' : SqliteStore) : Prop where
  kv : s'.kv = s.kv
  raftLog : s'.raftLog = s.raftLog
  marker : s'.lastIncludedIndex = s.lastIncludedIndex ∧ s'.lastIncludedTerm = s.lastIncludedTerm
  commitIndex : s'.commitIndex = s.commitIndex
  lastApplied : s'.lastApplied = s.lastApplied
  idle : s'.inTransaction = false
  next : ∀ r, handle l r s' = handle l r s

variable {s body}

theorem unharmed_self (h : s.inTransaction = false) : Unharmed self s s :=
  ⟨rfl, rfl, ⟨rfl, rfl⟩, rfl, rfl, h, fun _ => rfl⟩

theorem run_install_refused {e : FsmError} (h : decodeSnapshotEntries body = .error e) :
    handleInstallSnapshot self req body s = .ok ⟨myHeader self, s.currentTerm, false⟩ s := by
  rw [handleInstallSnapshot, h]
  rfl

theorem run_install_error {entries : List (Bytes × Bytes)}
    (h : decodeSnapshotEntries body = .ok entries)
    {e : Fault StoreError} {s' : SqliteStore}
    (hrun : SqliteStore.kvReplaceAll entries s = .error e s') :
    handleInstallSnapshot self req body s = .error e s' := by
  rw [handleInstallSnapshot, h]
  exact run_bind_of_error hrun _

theorem run_install_ok {entries : List (Bytes × Bytes)}
    (h : decodeSnapshotEntries body = .ok entries)
    {s' : SqliteStore} (hrun : SqliteStore.kvReplaceAll entries s = .ok ⟨⟩ s') :
    handleInstallSnapshot self req body s =
      .ok ⟨myHeader self, (installMarker s' req).currentTerm, true⟩ (installMarker s' req) := by
  rw [handleInstallSnapshot, h]
  exact run_bind_of_ok hrun _

end Install

/-- The rows of the snapshot have distinct keys. -/
def DistinctKeys (body : Bytes) : Prop :=
  ∀ entries, decodeSnapshotEntries body = .ok entries → (entries.map Prod.fst).Nodup

/-- **Failed installations.** An installation that fails leaves the learner as it was, exactly if no
transaction was open and the snapshot does not repeat a key. -/
theorem failed_install_clean_iff (self : Learner) (s : SqliteStore) (req : InstallSnapshotRequest)
    (body : Bytes) :
    (InstallFails self s req body →
      Unharmed self s ((handleInstallSnapshot self req body).final s)) ↔
      s.inTransaction = false ∧ DistinctKeys body := by
  rcases hdecode : decodeSnapshotEntries body with e | entries
  · have hrun := run_install_refused (s := s) self req hdecode
    have hfails : InstallFails self s req body := by
      intro resp hresp
      rw [outcome, hrun] at hresp
      cases hresp
      rfl
    have hdistinct : DistinctKeys body := fun entries h => by
      rw [hdecode] at h
      cases h
    rw [final, hrun]
    exact ⟨fun h => ⟨(h hfails).idle, hdistinct⟩, fun h _ => unharmed_self self h.1⟩
  have hkeys : DistinctKeys body ↔ (entries.map Prod.fst).Nodup :=
    ⟨fun h => h entries hdecode, fun h entries' h' => by cases hdecode.symm.trans h'; exact h⟩
  -- an error leaves the transaction open that it came from
  have herror : ∀ e s', SqliteStore.kvReplaceAll entries s = .error e s' → s'.inTransaction = true →
      ¬(InstallFails self s req body →
        Unharmed self s ((handleInstallSnapshot self req body).final s)) := by
    intro e s' hreplace hopen hclean
    have hrun := run_install_error self req hdecode hreplace
    have hfails : InstallFails self s req body := by
      intro resp hresp
      rw [outcome, hrun] at hresp
      cases hresp
    have hidle := (hclean hfails).idle
    rw [final, hrun, hopen] at hidle
    cases hidle
  rw [hkeys]
  rcases hopen : s.inTransaction with _ | _
  · by_cases hnodup : (entries.map Prod.fst).Nodup
    · refine iff_of_true (fun hfails => ?_) ⟨rfl, hnodup⟩
      have hrun := run_install_ok self req hdecode (replaced_of_nodup hopen hnodup)
      have hsuccess := hfails _ (by rw [outcome, hrun])
      cases hsuccess
    · obtain ⟨e, s', hreplace, hstuck⟩ := stuck_of_not_nodup hopen hnodup
      exact iff_of_false (herror e s' hreplace hstuck) fun h => hnodup h.2
  · exact iff_of_false (herror _ s (run_kvReplaceAll_nested hopen) hopen) fun h => by cases h.1

def twice : Bytes := Store.dumpRows [(ascii "a", []), (ascii "a", [])]

/-- A learner that stores `b` is sent the row `a` twice. It is left with `a` alone and with a
transaction open, and refuses every snapshot from then on, the empty one as well. -/
theorem install_stuck :
    let self : Learner := ⟨[], []⟩
    let before : SqliteStore := { kv := OrdMap.empty.insert (ascii "b") [] }
    let after := (handleInstallSnapshot self {} twice).final before
    (handleInstallSnapshot self {} twice).outcome before = .error (.err (.step 19)) ∧
      after.kv.entries = [(ascii "a", [])] ∧ after.inTransaction = true ∧
      (handleInstallSnapshot self {} []).outcome after = .error (.err .nestedTransaction) ∧
      (handleInstallSnapshot self {} []).outcome before = .ok ⟨myHeader self, 0, true⟩ := by
  refine ⟨?_, ?_, ?_, ?_, ?_⟩ <;> decide

end KvRaft.Web
