import KvRaft.Web.Commit
import KvRaft.Web.Entries

/-! # The learner holds a prefix of the committed log

`L` is the committed log, of sets and deletes. Whatever requests arrive that agree with it, in
whatever order, the learner's table is the result of the first `last_applied` commands. The
exception is a snapshot that arrives late: nothing checks its index, so it takes table and applied
index back. -/

namespace KvRaft.Web

open Bytes

/-! ## Committed commands -/

def Command.encoded (c : Command) : Bytes :=
  Kvfsm.encodeCommand (match c.op with | .set => .set | .del => .del) c.key c.value

/-- A committed log whose entries fit a `Vec<u8>` of the browser. -/
structure Committed where
  log : List Command
  fits : ∀ c ∈ log, c.key.length + c.value.length + 9 < 2 ^ 31

def applyCommand (kv : OrdMap Bytes Bytes) (c : Command) : OrdMap Bytes Bytes :=
  match c.op with
  | .set => kv.insert c.key c.value
  | .del => kv.erase c.key

namespace Committed

def stateAfter (L : Committed) (i : Nat) : OrdMap Bytes Bytes :=
  (L.log.take i).foldl applyCommand .empty

variable (L : Committed)

theorem decode {c : Command} (h : c ∈ L.log) : decodeCommand c.encoded = .ok c := by
  have hfits := L.fits c h
  have hlen : c.key.length + c.value.length + 9 < 2 ^ 32 := by omega
  obtain ⟨op, key, value⟩ := c
  cases op <;> exact decodeCommand_encodeCommand hlen

theorem applyData_encoded {c : Command} (h : c ∈ L.log) (kv : OrdMap Bytes Bytes) :
    applyData kv c.encoded = applyCommand kv c := by
  have hfits := L.fits c h
  rw [Command.encoded, applyData_encodeCommand (by omega), applyCommand]
  cases c.op <;> rfl

theorem stateAfter_add (i n : Nat) :
    L.stateAfter (i + n) =
      (((L.log.drop i).take n).map Command.encoded).foldl applyData (L.stateAfter i) := by
  have hmem : ∀ c ∈ (L.log.drop i).take n, c ∈ L.log := fun c hc =>
    List.mem_of_mem_drop (List.mem_of_mem_take hc)
  rw [stateAfter, List.take_add, List.foldl_append, ← stateAfter]
  generalize (L.log.drop i).take n = cs at hmem
  generalize L.stateAfter i = kv
  induction cs generalizing kv with
  | nil => rfl
  | cons c cs ih =>
    rw [List.map_cons, List.foldl_cons, List.foldl_cons,
      L.applyData_encoded (hmem c List.mem_cons_self)]
    exact ih (fun c' hc' => hmem c' (List.mem_cons_of_mem _ hc')) _

theorem stateAfter_fits (i : Nat) : Store.Fits (L.stateAfter i) := by
  unfold stateAfter
  have hmem : ∀ c ∈ L.log.take i, c.key.length + c.value.length + 9 < 2 ^ 31 := fun c hc =>
    L.fits c (List.mem_of_mem_take hc)
  generalize L.log.take i = cs at hmem
  suffices ∀ kv : OrdMap Bytes Bytes, Store.Fits kv → Store.Fits (cs.foldl applyCommand kv) from
    this .empty fun k v h => nomatch h
  induction cs with
  | nil => exact fun kv h => h
  | cons c cs ih =>
    intro kv hkv
    refine ih (fun c' hc' => hmem c' (List.mem_cons_of_mem _ hc')) _ fun k v hget => ?_
    have hc := hmem c List.mem_cons_self
    unfold applyCommand at hget
    cases hop : c.op with
    | set =>
      simp only [hop, OrdMap.get_insert] at hget
      split_ifs at hget with hk
      · cases hget
        rw [hk]
        omega
      · exact hkv k v hget
    | del =>
      simp only [hop, OrdMap.get_erase] at hget
      split_ifs at hget
      exact hkv k v hget

end Committed

/-! ## Requests -/

/-- What a leader with the committed log may send: consecutive entries, which are those of `L` as
far as `L` goes, and a commit index within `L`; or a dump of the table after some commands of `L`.
Indexes are below `2 ^ 63`. Terms do not matter, and entries beyond `L` may be any. -/
def Consistent (L : Committed) : Request → Prop
  | .appendEntries req =>
    (∀ k (hk : k < req.entries.length),
      (req.entries[k]).index.toNat = req.prevLogEntry.toNat + 1 + k) ∧
      req.prevLogEntry.toNat + req.entries.length < 2 ^ 63 ∧
      (∀ e ∈ req.entries, ∀ c, L.log[e.index.toNat - 1]? = some c → e.data = some c.encoded) ∧
      req.leaderCommitIndex.toNat ≤ L.log.length
  | .installSnapshot req body =>
    req.lastLogIndex.toNat ≤ L.log.length ∧ req.lastLogIndex.toNat < 2 ^ 63 ∧
      ∃ rows, rows.Perm (L.stateAfter req.lastLogIndex.toNat).entries ∧ body = Store.dumpRows rows
  | _ => True

/-- The snapshot is older than what was applied. -/
def Stale (s : SqliteStore) : Request → Prop
  | .installSnapshot req _ => req.lastLogIndex < s.lastApplied
  | _ => False

/-! ## The log table -/

abbrev LogTable := OrdMap Int (UInt64 × Bytes)

/-- Every row is above the snapshot and agrees with `L`, and none is missing below it. -/
structure LogOk (L : Committed) (included : Nat) (log : LogTable) : Prop where
  agrees : ∀ idx v, log.get idx = some v →
    ∃ j : Nat, idx = j ∧ included < j ∧ ∀ c, L.log[j - 1]? = some c → v.2 = c.encoded
  closed : ∀ j k : Nat, included < j → j ≤ k → (log.get k).isSome → (log.get j).isSome

/-- The log has every row above the snapshot up to `last`. -/
def Reaches (included : Nat) (log : LogTable) (last : Nat) : Prop :=
  ∀ j : Nat, included < j → j ≤ last → (log.get j).isSome

section LogTable

variable {L : Committed} {included : Nat} {log : LogTable}

theorem LogOk.empty : LogOk L included .empty :=
  ⟨fun _ _ h => (nomatch h), fun _ _ _ _ h => (nomatch h)⟩

theorem LogOk.truncateFrom (h : LogOk L included log) (start : Int) :
    LogOk L included (log.filter fun idx => idx < start) := by
  refine ⟨fun idx v hget => ?_, fun j k hj hjk hget => ?_⟩
  · rw [OrdMap.get_filter] at hget
    split_ifs at hget
    exact h.agrees idx v hget
  · rw [OrdMap.get_filter] at hget ⊢
    split_ifs at hget with hk
    · have hlt : (j : Int) < start := by
        have : (k : Int) < start := by simpa using hk
        omega
      rw [if_pos (by simpa using hlt)]
      exact h.closed j k hj hjk hget
    · cases hget

theorem LogOk.truncateThrough (h : LogOk L included log) {through : Nat}
    (hle : included ≤ through) :
    LogOk L through (log.filter fun idx => (through : Int) < idx) := by
  refine ⟨fun idx v hget => ?_, fun j k hj hjk hget => ?_⟩
  · rw [OrdMap.get_filter] at hget
    split_ifs at hget with hidx
    obtain ⟨j, rfl, -, hagrees⟩ := h.agrees idx v hget
    exact ⟨j, rfl, by simpa using hidx, hagrees⟩
  · rw [OrdMap.get_filter] at hget ⊢
    split_ifs at hget
    · rw [if_pos (by simpa using hj)]
      exact h.closed j k (by omega) hjk hget
    · cases hget

theorem Reaches.truncateFrom {last : Nat} (h : Reaches included log last) {start : Int}
    (hstart : (last : Int) < start) :
    Reaches included (log.filter fun idx => idx < start) last := by
  intro j hj hle
  rw [OrdMap.get_filter, if_pos (by simp; omega)]
  exact h j hj hle

theorem LogOk.insert (h : LogOk L included log) {next : Nat} (hreach : Reaches included log next)
    (hnext : included < next + 1) {v : UInt64 × Bytes}
    (hv : ∀ c, L.log[next]? = some c → v.2 = c.encoded) :
    LogOk L included (log.insert ((next + 1 : Nat) : Int) v) ∧
      Reaches included (log.insert ((next + 1 : Nat) : Int) v) (next + 1) := by
  have hrows : Reaches included (log.insert ((next + 1 : Nat) : Int) v) (next + 1) := by
    intro j hj hle
    rw [OrdMap.get_insert]
    split_ifs with hjn
    · rfl
    · exact hreach j hj (by omega)
  refine ⟨⟨fun idx w hget => ?_, fun j k hj hjk hget => ?_⟩, hrows⟩
  · rw [OrdMap.get_insert] at hget
    split_ifs at hget with hidx
    · cases hget
      exact ⟨next + 1, hidx, hnext, hv⟩
    · exact h.agrees idx w hget
  · rw [OrdMap.get_insert] at hget
    split_ifs at hget with hk
    · exact hrows j hj (by omega)
    · rw [OrdMap.get_insert]
      split_ifs
      · rfl
      · exact h.closed j k hj hjk hget

end LogTable

/-! ## Storing entries -/

section Store

variable {L : Committed} {included : UInt64}

theorem storeEntry_ok {s : SqliteStore} {last : UInt64} {p : Nat}
    (hok : LogOk L included.toNat s.raftLog)
    (hreach : Reaches included.toNat s.raftLog p)
    (hlast : last.toNat = max p included.toNat) {e : Log}
    (hindex : e.index.toNat = p + 1) (hbound : p + 1 < 2 ^ 63)
    (hdata : ∀ c, L.log[p]? = some c → e.data = some c.encoded) :
    LogOk L included.toNat (storeEntry included (s, last) e).1.raftLog ∧
      Reaches included.toNat (storeEntry included (s, last) e).1.raftLog (p + 1) ∧
      (storeEntry included (s, last) e).2.toNat = max (p + 1) included.toNat := by
  have hsigned : e.index.signed = ((p + 1 : Nat) : Int) := by
    rw [UInt64.signed_of_lt (by omega), hindex]
  have hv : ∀ c, L.log[p]? = some c → e.data.getD [] = c.encoded :=
    fun c hc => by rw [hdata c hc]; rfl
  unfold storeEntry
  dsimp only
  by_cases hle : e.index ≤ included
  · -- the snapshot already covers it
    rw [if_pos hle]
    rw [UInt64.le_iff_toNat_le] at hle
    dsimp only
    rw [UInt64.toNat_max]
    exact ⟨hok, fun j hj hj' => by omega, by omega⟩
  · rw [if_neg hle]
    rw [UInt64.le_iff_toNat_le] at hle
    have hnext : included.toNat < p + 1 := by omega
    refine and_assoc.mp ⟨?_, by dsimp only; omega⟩
    rcases hterm : s.logGetTerm e.index with _ | existing
    · dsimp only [SqliteStore.logAppend]
      rw [hsigned]
      exact hok.insert hreach hnext hv
    · dsimp only
      split_ifs
      · refine ⟨hok, fun j hj hle => ?_⟩
        rcases Nat.lt_or_ge p j with hlt | hge
        · -- the row itself, which the log has
          obtain ⟨v, hrow, -⟩ := Option.map_eq_some_iff.mp hterm
          rw [SqliteStore.logGet, hsigned] at hrow
          rw [show j = p + 1 by omega, hrow]
          rfl
        · exact hreach j hj hge
      · dsimp only [SqliteStore.logAppend, SqliteStore.logTruncateFrom]
        rw [hsigned]
        exact (hok.truncateFrom _).insert (hreach.truncateFrom (by omega)) hnext hv

theorem foldl_storeEntry_ok {entries : List Log} {s : SqliteStore} {last : UInt64} {p : Nat}
    (hok : LogOk L included.toNat s.raftLog) (hreach : Reaches included.toNat s.raftLog p)
    (hlast : last.toNat = max p included.toNat)
    (hindex : ∀ k (hk : k < entries.length), (entries[k]).index.toNat = p + 1 + k)
    (hbound : p + entries.length < 2 ^ 63)
    (hdata : ∀ e ∈ entries, ∀ c, L.log[e.index.toNat - 1]? = some c → e.data = some c.encoded) :
    LogOk L included.toNat (entries.foldl (storeEntry included) (s, last)).1.raftLog ∧
      Reaches included.toNat (entries.foldl (storeEntry included) (s, last)).1.raftLog
        (p + entries.length) ∧
      (entries.foldl (storeEntry included) (s, last)).2.toNat =
        max (p + entries.length) included.toNat := by
  induction entries generalizing s last p with
  | nil => exact ⟨hok, hreach, hlast⟩
  | cons e entries ih =>
    have hfirst : e.index.toNat = p + 1 := hindex 0 (by simp)
    rw [List.length_cons] at hbound
    obtain ⟨hok', hreach', hlast'⟩ := storeEntry_ok hok hreach hlast hfirst (by omega) fun c hc =>
      hdata e List.mem_cons_self c (by rwa [hfirst])
    have hindex' : ∀ k (hk : k < entries.length), (entries[k]).index.toNat = p + 1 + 1 + k := by
      intro k hk
      have hk' := hindex (k + 1) (by simpa using hk)
      rw [List.getElem_cons_succ] at hk'
      omega
    rw [List.length_cons, show p + (entries.length + 1) = p + 1 + entries.length by omega]
    exact ih hok' hreach' hlast' hindex' (by omega) fun e' he' =>
      hdata e' (List.mem_cons_of_mem _ he')

end Store

theorem final_applyEntries_committed {L : Committed} {included rounds : Nat} {s : SqliteStore}
    (hok : LogOk L included s.raftLog) (hmarker : included ≤ s.lastApplied.toNat)
    (hreach : Reaches included s.raftLog (s.lastApplied.toNat + rounds))
    (hwithin : s.lastApplied.toNat + rounds ≤ L.log.length)
    (hsmall : s.lastApplied.toNat + rounds < 2 ^ 63)
    (hkv : s.kv = L.stateAfter s.lastApplied.toNat) :
    (applyEntries rounds s.lastApplied).final s =
      { s with kv := L.stateAfter (s.lastApplied.toNat + rounds),
               lastApplied := UInt64.ofNat (s.lastApplied.toNat + rounds) } := by
  set datas := ((L.log.drop s.lastApplied.toNat).take rounds).map Command.encoded with hdatas
  have hlen : datas.length = rounds := by
    simp only [hdatas, List.length_map, List.length_take, List.length_drop]
    omega
  have hrows : ∀ k (hk : k < datas.length), ∃ term,
      s.logGet (UInt64.ofNat (s.lastApplied.toNat + 1 + k)) = some (term, datas[k]) := by
    intro k hk
    have hindex :
        (UInt64.ofNat (s.lastApplied.toNat + 1 + k)).toNat = s.lastApplied.toNat + 1 + k :=
      UInt64.toNat_ofNat_lt (by omega)
    obtain ⟨⟨term, data⟩, hrow⟩ := Option.isSome_iff_exists.mp
      (hreach (s.lastApplied.toNat + 1 + k) (by omega) (by omega))
    obtain ⟨j, hj, -, hagrees⟩ := hok.agrees _ _ hrow
    obtain rfl : s.lastApplied.toNat + 1 + k = j := by omega
    refine ⟨term, ?_⟩
    rw [SqliteStore.logGet, UInt64.signed_of_lt (by omega), hindex, hrow]
    have hcommand :
        L.log[s.lastApplied.toNat + 1 + k - 1]? = some L.log[s.lastApplied.toNat + k] := by
      rw [show s.lastApplied.toNat + 1 + k - 1 = s.lastApplied.toNat + k by omega]
      exact List.getElem?_eq_getElem (by omega)
    rw [show data = _ from hagrees _ hcommand]
    simp [hdatas]
  have hsafe : ∀ data ∈ datas, decodeCommand data ≠ .error .panic := by
    intro data hmem
    obtain ⟨c, hc, rfl⟩ := List.mem_map.mp hmem
    rw [L.decode (List.mem_of_mem_drop (List.mem_of_mem_take hc))]
    exact fun h => nomatch h
  have hfinal := final_applyEntries (s := s) (by omega) hrows hsafe
  rw [hlen] at hfinal
  rw [hfinal, L.stateAfter_add, hkv]

/-! ## The invariant -/

/-- After every request: no transaction is open, nothing committed is left to apply, the table is
that of the commands applied, and the log agrees with `L`. -/
structure PrefixInv (L : Committed) (s : SqliteStore) : Prop where
  idle : s.inTransaction = false
  marker : s.lastIncludedIndex.toNat ≤ s.lastApplied.toNat
  commit : s.commitIndex.toNat ≤ s.lastApplied.toNat
  within : s.lastApplied.toNat ≤ L.log.length
  table : s.kv = L.stateAfter s.lastApplied.toNat
  log : LogOk L s.lastIncludedIndex.toNat s.raftLog

namespace PrefixInv

variable {L : Committed} {s : SqliteStore}

theorem empty : PrefixInv L {} := ⟨rfl, le_rfl, le_rfl, Nat.zero_le _, rfl, .empty⟩

theorem of_vote (h : PrefixInv L s) (term : UInt64) (vote : Option Bytes) :
    PrefixInv L { s with currentTerm := term, votedFor := vote } :=
  ⟨h.idle, h.marker, h.commit, h.within, h.table, h.log⟩

theorem truncateFrom (h : PrefixInv L s) (start : UInt64) : PrefixInv L (s.logTruncateFrom start) :=
  ⟨h.idle, h.marker, h.commit, h.within, h.table, h.log.truncateFrom _⟩

end PrefixInv

theorem reaches_of_checkPrev {L : Committed} {s : SqliteStore} (h : PrefixInv L s)
    {prev term : UInt64}
    (hprev : checkPrev s prev term = .consistent) (hsmall : prev.toNat < 2 ^ 63) :
    Reaches s.lastIncludedIndex.toNat s.raftLog prev.toNat := by
  intro j hj hle
  have hpos : 0 < prev := UInt64.lt_iff_toNat_lt.mpr (by simp; omega)
  have hne : prev ≠ s.lastIncludedIndex := by
    rintro rfl
    omega
  unfold checkPrev at hprev
  rw [if_pos hpos, if_neg hne] at hprev
  rcases hrow : s.logGetTerm prev with _ | t
  · rw [hrow] at hprev
    cases hprev
  · obtain ⟨v, hget, -⟩ := Option.map_eq_some_iff.mp hrow
    rw [SqliteStore.logGet, UInt64.signed_of_lt hsmall] at hget
    exact h.log.closed j prev.toNat hj hle (by rw [hget]; rfl)

theorem advanceCommit_effect (s : SqliteStore) (leaderCommit last : UInt64) :
    ∃ commit, advanceCommit s leaderCommit last = { s with commitIndex := commit } ∧
      (commit = s.commitIndex ∨ commit.toNat ≤ leaderCommit.toNat ∧ commit.toNat ≤ last.toNat) := by
  unfold advanceCommit
  split_ifs
  · have hmin : (min leaderCommit last).toNat = min leaderCommit.toNat last.toNat :=
      UInt64.toNat_min _ _
    exact ⟨_, rfl, .inr ⟨by omega, by omega⟩⟩
  · exact ⟨_, rfl, .inl rfl⟩

section Step

variable {L : Committed} {s : SqliteStore} (h : PrefixInv L s)
include h

theorem inv_applyCommitted {log : LogTable} (hok : LogOk L s.lastIncludedIndex.toNat log)
    {commit : UInt64}
    (hcommit : s.lastApplied.toNat < commit.toNat → commit.toNat ≤ L.log.length ∧
      commit.toNat < 2 ^ 63 ∧ Reaches s.lastIncludedIndex.toNat log commit.toNat) :
    PrefixInv L (applyCommitted.final { s with raftLog := log, commitIndex := commit }) ∧
      s.lastApplied.toNat ≤
        (applyCommitted.final
          { s with raftLog := log, commitIndex := commit }).lastApplied.toNat := by
  have hmarker := h.marker
  have hmax : max s.lastApplied s.lastIncludedIndex = s.lastApplied :=
    max_eq_left (UInt64.le_iff_toNat_le.mpr h.marker)
  rw [applyCommitted, EStateM.final_get_bind]
  dsimp only
  rw [hmax]
  rcases Nat.lt_or_ge s.lastApplied.toNat commit.toNat with hlt | hge
  · obtain ⟨hwithin, hsmall, hreach⟩ := hcommit hlt
    have hrounds :
        s.lastApplied.toNat + (commit.toNat - s.lastApplied.toNat) = commit.toNat := by omega
    have hfinal := final_applyEntries_committed
      (s := { s with raftLog := log, commitIndex := commit }) hok
      h.marker (by rwa [hrounds]) (by rwa [hrounds]) (by rwa [hrounds]) h.table
    dsimp only at hfinal
    rw [hrounds, UInt64.ofNat_toNat] at hfinal
    rw [hfinal]
    exact ⟨⟨h.idle, by dsimp only; omega, le_rfl, hwithin, rfl, hok⟩, hlt.le⟩
  · rw [Nat.sub_eq_zero_of_le hge]
    exact ⟨⟨h.idle, h.marker, hge, h.within, h.table, hok⟩, le_rfl⟩

theorem inv_accepted {req : AppendEntriesRequest} (hreq : Consistent L (.appendEntries req))
    (hprev : checkPrev s req.prevLogEntry req.prevLogTerm = .consistent) :
    PrefixInv L (applyCommitted.final (advanceCommit (storeEntries s req).1 req.leaderCommitIndex
      (storeEntries s req).2)) ∧
    s.lastApplied.toNat ≤ (applyCommitted.final (advanceCommit (storeEntries s req).1
      req.leaderCommitIndex (storeEntries s req).2)).lastApplied.toNat := by
  obtain ⟨hindex, hbound, hdata, hleader⟩ := hreq
  have hmarker := h.marker
  have hbefore := h.commit
  have hlast : (max req.prevLogEntry s.lastIncludedIndex).toNat =
      max req.prevLogEntry.toNat s.lastIncludedIndex.toNat := UInt64.toNat_max _ _
  obtain ⟨hok, hreach, hlast'⟩ := foldl_storeEntry_ok h.log
    (reaches_of_checkPrev h hprev (by omega)) hlast hindex hbound hdata
  obtain ⟨⟨log, hlog⟩, -⟩ := storeEntries_effect s req
  rw [← storeEntries] at hok hreach hlast'
  obtain ⟨commit, hadvance, hcommit⟩ :=
    advanceCommit_effect (storeEntries s req).1 req.leaderCommitIndex (storeEntries s req).2
  rw [hadvance, hlog]
  rw [hlog] at hok hreach hcommit
  refine inv_applyCommitted h hok fun hlt => ?_
  dsimp only at hcommit
  rcases hcommit with rfl | ⟨hle, hle'⟩
  · omega
  · -- the new commit index lies among the rows that the request has reached
    exact ⟨by omega, by omega, fun j hj hjc => hreach j hj (by omega)⟩

theorem inv_appendEntries (self : Learner) {req : AppendEntriesRequest}
    (hreq : Consistent L (.appendEntries req)) :
    PrefixInv L ((handleAppendEntries self req).final s) ∧
      s.lastApplied.toNat ≤ ((handleAppendEntries self req).final s).lastApplied.toNat := by
  rw [final_handleAppendEntries]
  split_ifs
  · exact ⟨h, le_rfl⟩
  obtain ⟨term, vote, hadopt⟩ := adoptTerm_effect s req.term
  have h₁ : PrefixInv L (adoptTerm s req.term) := hadopt ▸ h.of_vote term vote
  have happlied : (adoptTerm s req.term).lastApplied = s.lastApplied := by rw [hadopt]
  rw [← happlied]
  rcases hprev : checkPrev (adoptTerm s req.term) req.prevLogEntry req.prevLogTerm with _ | _ | _
  · exact inv_accepted h₁ hreq hprev
  · exact ⟨h₁, le_rfl⟩
  · exact ⟨h₁.truncateFrom _, le_rfl⟩

theorem final_consistentSnapshot (self : Learner) {req : InstallSnapshotRequest} {body : Bytes}
    (hreq : Consistent L (.installSnapshot req body)) :
    (handleInstallSnapshot self req body).final s =
      installMarker { s with kv := L.stateAfter req.lastLogIndex.toNat } req := by
  obtain ⟨-, -, rows, hperm, rfl⟩ := hreq
  have hfits : ∀ kv ∈ rows, kv.1.length < 2 ^ 32 ∧ kv.2.length < 2 ^ 32 := fun kv hmem =>
    L.stateAfter_fits _ kv.1 kv.2 (OrdMap.get_eq_some.mpr (hperm.mem_iff.mp hmem))
  have hrun := run_kvReplaceAll hperm h.idle
  rw [final_handleInstallSnapshot, decodeSnapshotEntries,
    snapshotEntries_dumpRows hfits (Nat.lt_succ_self _)]
  dsimp only
  rw [EStateM.final, EStateM.outcome, hrun]

theorem inv_snapshot (self : Learner) {req : InstallSnapshotRequest} {body : Bytes}
    (hreq : Consistent L (.installSnapshot req body)) (hfresh : s.lastApplied ≤ req.lastLogIndex) :
    PrefixInv L ((handleInstallSnapshot self req body).final s) := by
  rw [UInt64.le_iff_toNat_le] at hfresh
  have hmarker := h.marker
  have hcommit := h.commit
  have hmax : max s.commitIndex req.lastLogIndex = req.lastLogIndex :=
    max_eq_right (UInt64.le_iff_toNat_le.mpr (by omega))
  obtain ⟨term, hfinal⟩ :=
    installMarker_effect { s with kv := L.stateAfter req.lastLogIndex.toNat } req
  rw [final_consistentSnapshot h self hreq, hfinal]
  dsimp only
  rw [hmax, UInt64.signed_of_lt hreq.2.1]
  exact ⟨h.idle, le_rfl, le_rfl, hreq.1, rfl, h.log.truncateThrough (hmarker.trans hfresh)⟩

/-- One request leaves a prefix that is no shorter, exactly if it is no stale snapshot. -/
theorem prefix_handle_iff (self : Learner) {r : Request} (hr : Consistent L r) :
    ((((handle self r).final s).kv = L.stateAfter ((handle self r).final s).lastApplied.toNat ∧
      s.lastApplied ≤ ((handle self r).final s).lastApplied) ↔ ¬Stale s r) ∧
    (¬Stale s r → PrefixInv L ((handle self r).final s)) := by
  have kept {s' : SqliteStore} (h' : PrefixInv L s')
      (hle : s.lastApplied.toNat ≤ s'.lastApplied.toNat)
      (hr : ¬Stale s r) :
        ((s'.kv = L.stateAfter s'.lastApplied.toNat ∧ s.lastApplied ≤ s'.lastApplied) ↔
        ¬Stale s r) ∧ (¬Stale s r → PrefixInv L s') :=
    ⟨iff_of_true ⟨h'.table, UInt64.le_iff_toNat_le.mpr hle⟩ hr, fun _ => h'⟩
  unfold handle
  cases r with
  | appendEntries req =>
    rw [EStateM.final_bind_of_pure fun _ _ => rfl]
    obtain ⟨h', hle⟩ := inv_appendEntries h self hr
    exact kept h' hle id
  | installSnapshot req body =>
    rw [EStateM.final_bind_of_pure fun _ _ => rfl]
    refine ⟨?_, fun hfresh => inv_snapshot h self hr (not_lt.mp hfresh)⟩
    obtain ⟨term, hfinal⟩ :=
      installMarker_effect { s with kv := L.stateAfter req.lastLogIndex.toNat } req
    rw [final_consistentSnapshot h self hr, hfinal]
    exact ⟨fun hprefix => not_lt.mpr hprefix.2, fun hfresh => ⟨rfl, not_lt.mp hfresh⟩⟩
  | requestVote req =>
    rw [EStateM.final_bind_of_pure fun _ _ => rfl]
    obtain ⟨t, v, hfinal⟩ := keeps_handleRequestVote self req s
    rw [hfinal]
    exact kept (h.of_vote t v) le_rfl id
  | requestPreVote req =>
    rw [EStateM.final_bind_of_pure fun _ _ => rfl]
    obtain ⟨t, v, hfinal⟩ := keeps_handleRequestPreVote self req s
    rw [hfinal]
    exact kept (h.of_vote t v) le_rfl id
  | timeoutNow req => exact kept h le_rfl id

end Step

/-! ## Runs -/

/-- Along every sequence of requests that agree with the committed log, the table is the result of
the commands applied and the applied index never decreases, exactly if no snapshot is stale. -/
theorem prefix_iff (self : Learner) (L : Committed) {requests : List Request}
    (hrequests : ∀ r ∈ requests, Consistent L r) :
    (∀ i (_ : i < requests.length),
      (served self (requests.take (i + 1))).kv =
        L.stateAfter (served self (requests.take (i + 1))).lastApplied.toNat ∧
      (served self (requests.take i)).lastApplied ≤
        (served self (requests.take (i + 1))).lastApplied) ↔
    ∀ i (hi : i < requests.length), ¬Stale (served self (requests.take i)) requests[i] := by
  refine Nat.forall_lt_iff (I := fun i => PrefixInv L (served self (requests.take i))) .empty
    (fun i hi hinv => ?_) fun i hi hinv hfresh => ?_
  · rw [served_take_succ self hi]
    exact (prefix_handle_iff hinv self (hrequests _ (List.getElem_mem hi))).1
  · rw [served_take_succ self hi]
    exact (prefix_handle_iff hinv self (hrequests _ (List.getElem_mem hi))).2 hfresh

def twoSets : Committed := ⟨[⟨.set, ascii "a", [1]⟩, ⟨.set, ascii "a", [2]⟩], by decide⟩

def bothSets : Request :=
  .appendEntries
    { term := 1
      entries := [{ index := 1, term := 1, data := some (Command.encoded ⟨.set, ascii "a", [1]⟩) },
        { index := 2, term := 1, data := some (Command.encoded ⟨.set, ascii "a", [2]⟩) }]
      leaderCommitIndex := 2 }

def lateSnapshot : Request :=
  .installSnapshot { term := 1, lastLogIndex := 1, lastLogTerm := 1 }
    (Store.dumpRows [(ascii "a", [1])])

theorem consistent_bothSets : Consistent twoSets bothSets := by
  refine ⟨by decide, by decide, fun e he c hc => ?_, by decide⟩
  simp only [List.mem_cons, List.not_mem_nil, or_false] at he
  rcases he with rfl | rfl <;> cases hc <;> rfl

theorem prefix_bothSets :
    (served browser [bothSets]).kv = twoSets.stateAfter
      (served browser [bothSets]).lastApplied.toNat := by
  have hconsistent : ∀ r ∈ [bothSets], Consistent twoSets r := by
    intro r hr
    rw [List.mem_singleton.mp hr]
    exact consistent_bothSets
  refine ((prefix_iff browser twoSets hconsistent).mpr (fun i hi => ?_) 0 (by decide)).1
  obtain rfl : i = 0 := by simpa using hi
  exact id

/-- A late snapshot takes the learner back. -/
theorem stale_snapshot :
    Consistent twoSets bothSets ∧ Consistent twoSets lateSnapshot ∧
      (served browser [bothSets]).lastApplied = 2 ∧
      (served browser [bothSets]).kv.get (ascii "a") = some [2] ∧
      (served browser [bothSets, lateSnapshot]).lastApplied = 1 ∧
      (served browser [bothSets, lateSnapshot]).kv.get (ascii "a") = some [1] := by
  refine ⟨consistent_bothSets, ⟨by decide, by decide, _, .refl _, rfl⟩, ?_⟩
  decide +kernel

end KvRaft.Web
