import Mathlib.Data.List.Basic
import Mathlib.Tactic

/-! # A state machine behind a queue

A log grows at its end. One party reads it in order, puts the entries that concern the state machine
into a queue, each with its index, and from time to time publishes how far it has read. Another
party receives the entries from the queue, a batch at a time, and applies one after the other. What
is published therefore says what was put into the queue, and not what was applied. -/

/-- Indices count from 1. -/
structure Pipeline (α σ : Type*) where
  log : List α
  /-- How many entries were read. -/
  sent : Nat
  /-- What the reader has published of that. -/
  appliedIndex : Nat
  queue : List (Nat × α)
  /-- What was received from the queue and is not yet applied. -/
  hand : List (Nat × α)
  state : σ

namespace Pipeline

variable {α σ : Type*} (f : σ → α → σ) (enters : α → Bool)

/-- The entries of a stretch of the log that go into the queue, where the first one has
the index `k`. -/
def numbered (k : Nat) : List α → List (Nat × α)
  | [] => []
  | a :: l => if enters a then (k, a) :: numbered (k + 1) l else numbered (k + 1) l

/-- The first `k` entries of the log are applied, the others not yet read. -/
def start (log : List α) (k : Nat) (s : σ) : Pipeline α σ where
  log := log
  sent := k
  appliedIndex := k
  queue := []
  hand := []
  state := (log.take k).foldl f s

def commit (a : α) (p : Pipeline α σ) : Pipeline α σ := { p with log := p.log ++ [a] }

def enqueue (p : Pipeline α σ) : Pipeline α σ :=
  match p.log[p.sent]? with
  | none => p
  | some a => { p with sent := p.sent + 1, queue := p.queue ++ numbered enters (p.sent + 1) [a] }

def publish (p : Pipeline α σ) : Pipeline α σ := { p with appliedIndex := p.sent }

/-- The next `k` entries of the queue are received, once those received before are applied. -/
def receive (k : Nat) (p : Pipeline α σ) : Pipeline α σ :=
  match p.hand with
  | [] => { p with hand := p.queue.take k, queue := p.queue.drop k }
  | _ :: _ => p

/-- The first entry that was received is applied, if there is one. -/
def consume (p : Pipeline α σ) : Pipeline α σ :=
  match p.hand with
  | [] => p
  | q :: rest => { p with hand := rest, state := f p.state q.2 }

/-- The entries that were read and enter, but are not yet applied. -/
def pending (p : Pipeline α σ) : List (Nat × α) := p.hand ++ p.queue

/-- The index up to which every entry of the log is applied. -/
def reflected (p : Pipeline α σ) : Nat :=
  match p.pending with
  | [] => p.sent
  | q :: _ => q.1 - 1

theorem reflected_of_nil {p : Pipeline α σ} (h : p.pending = []) : p.reflected = p.sent := by
  rw [reflected, h]

theorem reflected_of_cons {p : Pipeline α σ} {q : Nat × α} {rest : List (Nat × α)}
    (h : p.pending = q :: rest) : p.reflected = q.1 - 1 := by rw [reflected, h]

@[simp] theorem pending_receive (k : Nat) (p : Pipeline α σ) :
    (p.receive k).pending = p.pending := by
  unfold receive pending
  split
  next h => simp [h]
  · rfl

@[simp] theorem log_receive (k : Nat) (p : Pipeline α σ) : (p.receive k).log = p.log := by
  unfold receive
  split <;> rfl

@[simp] theorem sent_receive (k : Nat) (p : Pipeline α σ) : (p.receive k).sent = p.sent := by
  unfold receive
  split <;> rfl

@[simp] theorem reflected_receive (k : Nat) (p : Pipeline α σ) :
    (p.receive k).reflected = p.reflected := by
  rw [reflected, reflected, pending_receive, sent_receive]

@[simp] theorem log_enqueue (p : Pipeline α σ) : (p.enqueue enters).log = p.log := by
  unfold enqueue
  split <;> rfl

@[simp] theorem log_consume (p : Pipeline α σ) : (p.consume f).log = p.log := by
  unfold consume
  split <;> rfl

/-! ## Numbered entries -/

section Numbered

variable {enters} {k : Nat} {l : List α} {q : Nat × α} {rest : List (Nat × α)}

theorem numbered_append (k : Nat) (l l' : List α) :
    numbered enters k (l ++ l') = numbered enters k l ++ numbered enters (k + l.length) l' := by
  induction l generalizing k with
  | nil => rfl
  | cons a l ih =>
    have hk : k + 1 + l.length = k + (a :: l).length := by
      rw [List.length_cons]
      omega
    rw [List.cons_append, numbered, numbered, ih, hk]
    split_ifs <;> rfl

theorem bounds_of_mem_numbered (h : q ∈ numbered enters k l) : k ≤ q.1 ∧ q.1 < k + l.length := by
  induction l generalizing k with
  | nil => cases h
  | cons a l ih =>
    rw [List.length_cons]
    rw [numbered] at h
    split_ifs at h
    · rcases List.mem_cons.mp h with rfl | h
      · exact ⟨le_rfl, by simp⟩
      · have := ih h
        omega
    · have := ih h
      omega

/-- The first numbered entry divides the stretch: nothing before it enters, and the rest is what
enters after it. -/
theorem numbered_eq_cons (h : numbered enters k l = q :: rest) :
    ∃ skipped after, l = skipped ++ q.2 :: after ∧ (∀ a ∈ skipped, enters a = false) ∧
      q.1 = k + skipped.length ∧ rest = numbered enters (q.1 + 1) after := by
  induction l generalizing k with
  | nil => cases h
  | cons a l ih =>
    rw [numbered] at h
    split_ifs at h with ha
    · obtain ⟨rfl, rfl⟩ := List.cons.inj h
      exact ⟨[], l, rfl, nofun, rfl, rfl⟩
    · obtain ⟨skipped, after, rfl, hskipped, hq, hrest⟩ := ih h
      refine ⟨a :: skipped, after, rfl, ?_, ?_, hrest⟩
      · rintro b (_ | ⟨_, hb⟩)
        · exact Bool.eq_false_of_not_eq_true ha
        · exact hskipped b hb
      · rw [hq, List.length_cons]
        omega

theorem not_enters_of_numbered_eq_nil (h : numbered enters k l = []) :
    ∀ a ∈ l, enters a = false := by
  induction l generalizing k with
  | nil => exact nofun
  | cons a l ih =>
    rw [numbered] at h
    split_ifs at h with ha
    rintro b (_ | ⟨_, hb⟩)
    · exact Bool.eq_false_of_not_eq_true ha
    · exact ih h b hb

end Numbered

/-! ## The invariant -/

/-- The entries that were read are those applied, followed by those whose part that
enters is pending. -/
structure Sound (s₀ : σ) (p : Pipeline α σ) : Prop where
  published : p.appliedIndex ≤ p.sent
  read : p.sent ≤ p.log.length
  split : ∃ done ahead, p.log.take p.sent = done ++ ahead ∧ p.state = done.foldl f s₀ ∧
    p.pending = numbered enters (done.length + 1) ahead

variable {f enters} {s₀ : σ} {p : Pipeline α σ}

theorem sound_start {log : List α} {k : Nat} (hk : k ≤ log.length) :
    Sound f enters s₀ (start f log k s₀) where
  published := le_rfl
  read := hk
  split := ⟨log.take k, [], (List.append_nil _).symm, rfl, rfl⟩

theorem Sound.commit (h : Sound f enters s₀ p) (a : α) : Sound f enters s₀ (p.commit a) where
  published := h.published
  read := by
    rw [Pipeline.commit, List.length_append]
    exact h.read.trans (Nat.le_add_right ..)
  split := by
    obtain ⟨done, ahead, hlog, hrest⟩ := h.split
    refine ⟨done, ahead, ?_, hrest⟩
    rw [Pipeline.commit, List.take_append_of_le_length h.read, hlog]

theorem Sound.publish (h : Sound f enters s₀ p) : Sound f enters s₀ p.publish where
  published := le_rfl
  read := h.read
  split := h.split

theorem Sound.receive (h : Sound f enters s₀ p) (k : Nat) : Sound f enters s₀ (p.receive k) := by
  have hsame : (p.receive k).appliedIndex = p.appliedIndex ∧ (p.receive k).state = p.state := by
    unfold Pipeline.receive
    split <;> exact ⟨rfl, rfl⟩
  refine ⟨?_, ?_, ?_⟩
  · rw [hsame.1, sent_receive]
    exact h.published
  · rw [sent_receive, log_receive]
    exact h.read
  · rw [sent_receive, log_receive, pending_receive, hsame.2]
    exact h.split

theorem Sound.enqueue (h : Sound f enters s₀ p) : Sound f enters s₀ (p.enqueue enters) := by
  unfold Pipeline.enqueue
  cases hnext : p.log[p.sent]? with
  | none => exact h
  | some a =>
    obtain ⟨hlt, ha⟩ := List.getElem?_eq_some_iff.mp hnext
    obtain ⟨done, ahead, hlog, hstate, hpending⟩ := h.split
    have hsent : p.sent = done.length + ahead.length := by
      rw [← List.length_append, ← hlog, List.length_take, min_eq_left h.read]
    refine ⟨h.published.trans (Nat.le_succ _), hlt, done, ahead ++ [a], ?_, hstate, ?_⟩
    · dsimp only
      rw [List.take_succ_eq_append_getElem hlt, ha, hlog, List.append_assoc]
    · have hindex : done.length + 1 + ahead.length = p.sent + 1 := by omega
      rw [numbered_append, ← hpending, hindex, pending, pending, List.append_assoc]

section Skip

variable (hskip : ∀ s a, enters a = false → f s a = s)
include hskip

theorem foldl_skipped {l : List α} (hl : ∀ a ∈ l, enters a = false) (s : σ) : l.foldl f s = s := by
  induction l with
  | nil => rfl
  | cons a l ih =>
    rw [List.foldl_cons, hskip s a (hl a List.mem_cons_self)]
    exact ih fun b hb => hl b (List.mem_cons_of_mem _ hb)

theorem Sound.consume (h : Sound f enters s₀ p) : Sound f enters s₀ (p.consume f) := by
  unfold Pipeline.consume
  cases hhand : p.hand with
  | nil => exact h
  | cons q rest =>
    have hq : p.pending = q :: (rest ++ p.queue) := by rw [pending, hhand, List.cons_append]
    obtain ⟨done, ahead, hlog, hstate, hpending⟩ := h.split
    obtain ⟨skipped, after, rfl, hskipped, hindex, hrest⟩ :=
      numbered_eq_cons (hpending.symm.trans hq)
    refine ⟨h.published, h.read, done ++ skipped ++ [q.2], after, ?_, ?_, ?_⟩
    · simp only [hlog, List.append_assoc, List.singleton_append]
    · rw [List.foldl_append, List.foldl_append, foldl_skipped hskip hskipped, ← hstate]
      rfl
    · have hlen : q.1 + 1 = (done ++ skipped ++ [q.2]).length + 1 := by
        simp only [List.length_append, List.length_singleton]
        omega
      rw [← hlen, ← hrest, pending]

theorem Sound.state_eq (h : Sound f enters s₀ p) :
    p.state = (p.log.take p.reflected).foldl f s₀ := by
  obtain ⟨done, ahead, hlog, hstate, hpending⟩ := h.split
  cases hq : p.pending with
  | nil =>
    have hnone := not_enters_of_numbered_eq_nil (hpending.symm.trans hq)
    rw [reflected_of_nil hq, hlog, List.foldl_append, foldl_skipped hskip hnone, hstate]
  | cons q rest =>
    obtain ⟨skipped, after, rfl, hskipped, hindex, -⟩ := numbered_eq_cons (hpending.symm.trans hq)
    have hlen : q.1 - 1 = (done ++ skipped).length := by
      rw [List.length_append]
      omega
    have htake : p.log.take (q.1 - 1) = done ++ skipped := by
      have hsent : q.1 - 1 ≤ p.sent := by
        have := congrArg List.length hlog
        simp only [List.length_take, List.length_append, List.length_cons] at this hlen
        omega
      rw [← min_eq_left hsent, ← List.take_take, hlog, ← List.append_assoc, hlen]
      exact List.take_left
    rw [reflected_of_cons hq, htake, List.foldl_append, foldl_skipped hskip hskipped, hstate]

end Skip

/-! ## What is reflected -/

theorem Sound.mem_pending (h : Sound f enters s₀ p) {q : Nat × α} (hq : q ∈ p.pending) :
    0 < q.1 ∧ q.1 ≤ p.sent := by
  obtain ⟨done, ahead, hlog, -, hpending⟩ := h.split
  have hlen := congrArg List.length hlog
  rw [List.length_append, List.length_take, min_eq_left h.read] at hlen
  have := bounds_of_mem_numbered (hpending ▸ hq)
  omega

theorem Sound.head_lt (h : Sound f enters s₀ p) {q q' : Nat × α} {rest : List (Nat × α)}
    (hq : p.pending = q :: rest) (hq' : q' ∈ rest) : q.1 < q'.1 := by
  obtain ⟨done, ahead, -, -, hpending⟩ := h.split
  obtain ⟨-, after, -, -, -, rfl⟩ := numbered_eq_cons (hpending.symm.trans hq)
  exact (bounds_of_mem_numbered hq').1

theorem Sound.le_reflected_iff (h : Sound f enters s₀ p) {i : Nat} (hi : i ≤ p.appliedIndex) :
    i ≤ p.reflected ↔ ∀ q ∈ p.pending, i < q.1 := by
  cases hq : p.pending with
  | nil =>
    rw [reflected_of_nil hq]
    exact iff_of_true (hi.trans h.published) nofun
  | cons q rest =>
    rw [reflected_of_cons hq]
    have hpos := (h.mem_pending (hq ▸ List.mem_cons_self)).1
    constructor
    · rintro hle q' (_ | ⟨_, hq'⟩)
      · omega
      · have := h.head_lt hq hq'
        omega
    · intro hall
      have := hall q List.mem_cons_self
      omega

theorem Sound.reflected_le_sent (h : Sound f enters s₀ p) : p.reflected ≤ p.sent := by
  cases hq : p.pending with
  | nil => exact (reflected_of_nil hq).le
  | cons q rest =>
    rw [reflected_of_cons hq]
    exact (Nat.sub_le ..).trans (h.mem_pending (hq ▸ List.mem_cons_self)).2

theorem reflected_le_enqueue (p : Pipeline α σ) : p.reflected ≤ (p.enqueue enters).reflected := by
  unfold Pipeline.enqueue
  cases p.log[p.sent]? with
  | none => exact le_rfl
  | some a =>
    cases hq : p.pending with
    | nil =>
      rw [reflected_of_nil hq]
      obtain ⟨hhand, hqueue⟩ := List.append_eq_nil_iff.mp hq
      cases ha : enters a <;> simp [reflected, pending, hhand, hqueue, numbered, ha]
    | cons q rest =>
      have hq' : p.hand ++ p.queue = q :: rest := hq
      rw [reflected_of_cons hq, reflected, pending, ← List.append_assoc, hq', List.cons_append]

theorem Sound.reflected_le_consume (h : Sound f enters s₀ p) :
    p.reflected ≤ (p.consume f).reflected := by
  have hsent := h.reflected_le_sent
  unfold Pipeline.consume
  cases hhand : p.hand with
  | nil => exact le_rfl
  | cons q rest =>
    have hq : p.pending = q :: (rest ++ p.queue) := by rw [pending, hhand, List.cons_append]
    rw [reflected_of_cons hq] at hsent ⊢
    rw [reflected, pending]
    cases hrest : rest ++ p.queue with
    | nil => exact hsent
    | cons q' rest' =>
      have := h.head_lt hq (hrest ▸ List.mem_cons_self)
      dsimp only
      omega

end Pipeline
