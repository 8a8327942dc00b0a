import KvRaft.Lib.LeaderLog
import KvRaft.Raft.System

/-! # Logs with consecutive indices

What the loops over the log find when every entry stands at the place of its index (`Indexed`): the
configuration in force (`ConfsOk`), the entries for the state machine (`collectLogs_eq`), the
entries of a request that are new (`newEntries_spec`) and the entries for
a request (`logsFrom_eq`). -/

namespace KvRaft.Raft

def Indexed (l : List Log) : Prop := ∀ i x, l[i]? = some x → x.index = i + 1

variable {l : List Log} {x : Log} {c : Configurations} {i : Nat} {s : Stable}

theorem Indexed.of_isPrefix {l' : List Log} (h : Indexed l') (hp : l <+: l') : Indexed l := by
  intro i x hx
  exact h i x (hp.getElem?_of_some hx)

theorem Indexed.getElem?_of_mem (h : Indexed l) (hx : x ∈ l) :
    l[x.index - 1]? = some x ∧ 0 < x.index ∧ x.index ≤ l.length := by
  obtain ⟨i, hi⟩ := List.mem_iff_getElem?.mp hx
  have hidx := h i x hi
  have hlt := (List.getElem?_eq_some_iff.mp hi).1
  rw [hidx, Nat.add_sub_cancel]
  exact ⟨hi, by omega, by omega⟩

theorem Indexed.concat (h : Indexed l) (hx : x.index = l.length + 1) :
    Indexed (l ++ [x]) := by
  intro i y hy
  rcases List.getElem?_concat_cases hy with hold | ⟨rfl, rfl⟩
  · exact h i y hold
  · exact hx

theorem getLog_succ (s : Stable) (i : Nat) : s.getLog (i + 1) = s.logs[i]? := rfl

/-! ## The configurations of a log -/

/-- What a server finds in a log: the last configuration, and the one before it as
the committed one. -/
def confsOf (l : List Log) : Configurations := l.foldl processConfigurationLogEntry .empty

theorem processConfigurationLogEntry_of_none {e : Log} (he : e.config = none) :
    processConfigurationLogEntry c e = c := by
  unfold processConfigurationLogEntry
  unfold Log.config at he
  split
  · next hc =>
    rw [hc] at he
    cases he
  · rfl

theorem processConfigurationLogEntry_of_some {e : Log} {conf : Configuration}
    (he : e.config = some conf) :
    processConfigurationLogEntry c e =
      { c.setCommitted with latest := conf, latestIndex := e.index } := by
  unfold processConfigurationLogEntry
  unfold Log.config at he
  split at he
  · cases he
    rfl
  · cases he

theorem foldl_processConfigurationLogEntry_of_none {es : List Log} (h : ∀ x ∈ es, x.config = none)
    (c : Configurations) :
    es.foldl processConfigurationLogEntry c = c := by
  induction es with
  | nil => rfl
  | cons x es ih =>
    rw [List.foldl_cons, processConfigurationLogEntry_of_none (h x List.mem_cons_self)]
    exact ih fun y hy => h y (List.mem_cons_of_mem _ hy)

theorem confsOf_append (l es : List Log) :
    confsOf (l ++ es) = es.foldl processConfigurationLogEntry (confsOf l) :=
  List.foldl_append

theorem confsOf_cases (h : Indexed l) :
    confsOf l = .empty ∧ (∀ x ∈ l, x.config = none) ∨
      ∃ l₁ e l₂ c, l = l₁ ++ e :: l₂ ∧ e.config = some c ∧ (∀ x ∈ l₂, x.config = none) ∧
        confsOf l =
          { (confsOf l₁).setCommitted with latest := c, latestIndex := l₁.length + 1 } := by
  induction l using List.reverseRecOn with
  | nil => exact .inl ⟨rfl, List.forall_mem_nil _⟩
  | append_singleton l x ih =>
    rw [confsOf_append, List.foldl_cons, List.foldl_nil]
    cases hx : x.config with
    | none =>
      rw [processConfigurationLogEntry_of_none hx]
      rcases ih (h.of_isPrefix (List.prefix_append _ _)) with
        ⟨heq, hnone⟩ | ⟨l₁, e, l₂, c, rfl, he, hnone, heq⟩
      · exact .inl ⟨heq, by simpa [or_imp, forall_and] using ⟨hnone, hx⟩⟩
      · exact .inr ⟨l₁, e, l₂ ++ [x], c, by
          simp, he, by simpa [or_imp, forall_and] using ⟨hnone, hx⟩, heq⟩
    | some c =>
      rw [processConfigurationLogEntry_of_some hx, h l.length x (by simp)]
      exact .inr ⟨l, x, [], c, rfl, hx, List.forall_mem_nil _, rfl⟩

theorem confsOf_le (h : Indexed l) : (confsOf l).latestIndex ≤ l.length := by
  rcases confsOf_cases h with ⟨heq, -⟩ | ⟨l₁, e, l₂, c, rfl, -, -, heq⟩ <;> rw [heq]
  · exact Nat.zero_le _
  · simp

theorem config_eq_none_of_drop (h : Indexed l) {k : Nat} (hk : (confsOf l).latestIndex ≤ k)
    (hx : x ∈ l.drop k) : x.config = none := by
  rcases confsOf_cases h with ⟨-, hnone⟩ | ⟨l₁, e, l₂, c, rfl, -, hnone, heq⟩
  · exact hnone x (List.mem_of_mem_drop hx)
  · rw [heq] at hk
    rw [List.append_cons, List.drop_append, List.drop_of_length_le (by simpa using hk),
      List.nil_append] at hx
    exact hnone x (List.mem_of_mem_drop hx)

theorem confsOf_take (h : Indexed l) {k : Nat} (hk : (confsOf l).latestIndex ≤ k) :
    confsOf (l.take k) = confsOf l := by
  conv_rhs => rw [← List.take_append_drop k l, confsOf_append]
  exact (foldl_processConfigurationLogEntry_of_none (fun x => config_eq_none_of_drop h hk) _).symm

/-- The configurations in memory follow from the log, up to whether the last one is known
to be committed. -/
def ConfsOk (l : List Log) (c : Configurations) : Prop :=
  c = confsOf l ∨ c = (confsOf l).setCommitted

theorem ConfsOk.latest (h : ConfsOk l c) :
    c.latest = (confsOf l).latest ∧ c.latestIndex = (confsOf l).latestIndex := by
  rcases h with rfl | rfl <;> exact ⟨rfl, rfl⟩

theorem ConfsOk.setCommitted_eq (h : ConfsOk l c) :
    c.setCommitted = (confsOf l).setCommitted := by
  rcases h with rfl | rfl <;> rfl

theorem ConfsOk.foldl (h : ConfsOk l c) (es : List Log) :
    es.foldl processConfigurationLogEntry c = confsOf (l ++ es) ∨
      es.foldl processConfigurationLogEntry c = c ∧ confsOf (l ++ es) = confsOf l := by
  induction es using List.reverseRecOn with
  | nil => exact .inr ⟨rfl, by rw [List.append_nil]⟩
  | append_singleton es e ih =>
    rw [← List.append_assoc, confsOf_append, List.foldl_append]
    simp only [List.foldl_cons, List.foldl_nil]
    cases he : e.config with
    | none =>
      rw [processConfigurationLogEntry_of_none he, processConfigurationLogEntry_of_none he]
      exact ih
    | some conf =>
      left
      rw [processConfigurationLogEntry_of_some he, processConfigurationLogEntry_of_some he]
      rcases ih with heq | ⟨heq, hsame⟩
      · rw [heq]
      · rw [heq, hsame, h.setCommitted_eq]

theorem ConfsOk.take (h : ConfsOk l c) (hl : Indexed l)
    (hc : c.committedIndex < i) :
    ConfsOk (l.take (i - 1)) (if i ≤ c.latestIndex then
      { c with latest := c.committed, latestIndex := c.committedIndex } else c) := by
  split
  · next hle =>
    -- the last configuration goes, and the committed one is the one before it
    obtain rfl : c = confsOf l := by
      refine h.resolve_right ?_
      rintro rfl
      exact absurd hle (not_le.mpr hc)
    rcases confsOf_cases hl with ⟨heq, -⟩ | ⟨l₁, e, l₂, c, rfl, -, -, heq⟩
    · rw [heq] at hle
      exact absurd (hc.trans_le hle) (Nat.not_lt_zero _)
    · rw [heq] at hc hle ⊢
      right
      rw [List.take_append_of_le_length (Nat.sub_le_of_le_add hle),
        confsOf_take (hl.of_isPrefix (List.prefix_append _ _)) (Nat.le_sub_one_of_lt hc)]
      rfl
  · next hgt =>
    rw [ConfsOk, confsOf_take hl]
    · exact h
    · have := h.latest.2
      omega

/-! ## The entries for the state machine -/

theorem committedLog_eq (h : Indexed s.logs) {futures : List Log} (hf : ∀ x ∈ futures, x ∈ s.logs)
    (i : Nat) : committedLog s futures (i + 1) = s.logs[i]? := by
  unfold committedLog
  split
  · next l hfind =>
    obtain ⟨hget, -⟩ := h.getElem?_of_mem (hf l (List.mem_of_find?_eq_some hfind))
    have hidx : l.index = i + 1 := by simpa using List.find?_some hfind
    rw [hidx, Nat.add_sub_cancel] at hget
    exact hget.symm
  · exact getLog_succ s i

theorem collectLogs_eq (h : Indexed s.logs) {futures : List Log} (hf : ∀ x ∈ futures, x ∈ s.logs)
    {count : Nat} (hlen : i + count ≤ s.logs.length) :
    collectLogs s futures (i + 1) count =
      some (((s.logs.drop i).take count).filter prepareLog) := by
  induction count generalizing i with
  | zero => simp [collectLogs]
  | succ count ih =>
    have hi : i < s.logs.length := by omega
    rw [collectLogs, committedLog_eq h hf i, ih (by omega), List.getElem?_eq_getElem hi,
      List.drop_eq_getElem_cons hi, List.take_succ_cons, List.filter_cons]
    rfl

/-! ## The entries for a request -/

theorem logsFrom_eq {count : Nat} {entries : List Log}
    (h : logsFrom s (i + 1) count = some entries) :
    entries = (s.logs.drop i).take count ∧ entries.length = count := by
  induction count generalizing i entries with
  | zero =>
    cases h
    simp
  | succ count ih =>
    rw [logsFrom, getLog_succ] at h
    cases hx : s.logs[i]? with
    | none =>
      rw [hx] at h
      cases h
    | some x =>
      cases hrest : logsFrom s (i + 1 + 1) count with
      | none =>
        rw [hx, hrest] at h
        cases h
      | some rest =>
        rw [hx, hrest] at h
        cases h
        obtain ⟨hi, rfl⟩ := List.getElem?_eq_some_iff.mp hx
        obtain ⟨heq, hlen⟩ := ih hrest
        rw [List.drop_eq_getElem_cons hi, List.take_succ_cons, ← heq, List.length_cons, hlen]
        exact ⟨rfl, rfl⟩

/-! ## The new entries of a request -/

/-- What the loop over the entries of a request finds out: `done` are the ones that the log has, and
where it ends there is nothing to compare, or a conflict. -/
structure Split (l : List Log) (p : Nat) (es done : List Log) (clearFrom : Option Nat)
    (new : List Log) : Prop where
  append : es = done ++ new
  same : ∀ i x, done[i]? = some x → ∃ y, l[p + i]? = some y ∧ y.term = x.term
  ending : clearFrom = none ∧ (new = [] ∨ l.length = p + done.length) ∨
    clearFrom = some (p + done.length + 1) ∧
      ∃ x rest y, new = x :: rest ∧ l[p + done.length]? = some y ∧ y.term ≠ x.term

theorem newEntries_spec {p : Nat} (hp : p ≤ s.logs.length) {es : List Log}
    (hes : ∀ i x, es[i]? = some x → x.index = p + i + 1) :
    ∃ clearFrom new done, newEntries s es = some (clearFrom, new) ∧
      Split s.logs p es done clearFrom new := by
  induction es generalizing p with
  | nil => exact ⟨none, [], [], rfl, rfl, (fun i x hx => by cases hx), .inl ⟨rfl, .inl rfl⟩⟩
  | cons e es ih =>
    have hidx : e.index = p + 1 := hes 0 e rfl
    unfold newEntries
    split_ifs with hlast
    · -- behind the end of the log
      refine ⟨none, e :: es, [], rfl, rfl, (fun i x hx => by cases hx), .inl ⟨rfl, .inr ?_⟩⟩
      rw [Stable.lastIndex] at hlast
      rw [List.length_nil]
      omega
    · have hlt : p < s.logs.length := by
        rw [Stable.lastIndex] at hlast
        omega
      rw [hidx, getLog_succ, List.getElem?_eq_getElem hlt]
      by_cases hterm : e.term = s.logs[p].term
      · obtain ⟨clearFrom, new, done, hnew, hsplit⟩ := ih (p := p + 1) hlt fun i x hx => by
          have := hes (i + 1) x hx
          omega
        refine ⟨clearFrom, new, e :: done, by simpa [hterm] using hnew, ?_, ?_, ?_⟩
        · rw [hsplit.append, List.cons_append]
        · intro i x hx
          cases i with
          | zero =>
            cases hx
            exact ⟨_, List.getElem?_eq_getElem hlt, hterm.symm⟩
          | succ i =>
            obtain ⟨y, hy, hsame⟩ := hsplit.same i x hx
            exact ⟨y, by rwa [show p + (i + 1) = p + 1 + i by omega], hsame⟩
        · rw [List.length_cons, show p + (done.length + 1) = p + 1 + done.length by omega]
          exact hsplit.ending
      · refine ⟨some (p + 1), e :: es, [], by
          simp [hterm], rfl, (fun i x hx => by cases hx), .inr ⟨rfl, ?_⟩⟩
        exact ⟨e, es, s.logs[p], rfl, List.getElem?_eq_getElem hlt, Ne.symm hterm⟩

end KvRaft.Raft
