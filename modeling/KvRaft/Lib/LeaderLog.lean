import Mathlib.Data.List.Basic
import Mathlib.Data.Set.Basic
import Mathlib.Logic.Function.Basic
import Mathlib.Logic.Relation
import Mathlib.Tactic

/-! # Logs under the leaders of numbered terms

The abstract side of a replicated log: nodes hold logs, a node that collects the votes of a quorum
leads a term, the entries of a term come from its leader, and a prefix of a leader's log is
committed once a quorum holds it. Entries may carry a configuration, which says what a quorum is
from then on; a leader appends a configuration only behind a commit of its own term that covers the
one before it.

A `History` keeps what happened and not only what is: the log of every campaign and of every leader,
all votes, all acknowledgements and all commits. Every fact about the past is then a fact about the
state, and each step only adds to it. -/

variable {α : Type*}

theorem List.IsPrefix.getElem?_of_some {l l' : List α} (h : l <+: l') {i : Nat} {x : α}
    (hx : l[i]? = some x) : l'[i]? = some x := by
  obtain ⟨hi, rfl⟩ := List.getElem?_eq_some_iff.mp hx
  exact List.prefix_iff_getElem?.mp h i hi

theorem List.getElem?_concat_cases {l : List α} {x y : α} {i : Nat} (h : (l ++ [x])[i]? = some y) :
    l[i]? = some y ∨ i = l.length ∧ x = y := by
  rcases Nat.lt_or_ge i l.length with hi | hi
  · exact .inl (List.getElem?_append_left hi ▸ h)
  · rw [List.getElem?_append_right hi, List.getElem?_singleton] at h
    split at h
    · exact .inr ⟨by omega, Option.some.inj h⟩
    · cases h

theorem update_update_cases {β γ : Type*} [DecidableEq α] [DecidableEq β] (f : α → β → γ) (a : α)
    (b : β) (c : γ) (x : α) (y : β) :
    Function.update f a (Function.update (f a) b c) x y = f x y ∨
      x = a ∧ y = b ∧ Function.update f a (Function.update (f a) b c) x y = c := by
  by_cases hx : x = a
  · subst hx
    by_cases hy : y = b
    · subst hy
      exact .inr ⟨rfl, rfl, by simp⟩
    · exact .inl (by simp [hy])
  · exact .inl (by simp [hx])

namespace LeaderLog

variable {N E C : Type*}

/-- Entries with their terms and the configurations they carry, and what a quorum is
in a configuration. -/
structure Scheme (N E C : Type*) where
  term : E → Nat
  /-- Which entries may stand at a place of a log. -/
  Fits : Nat → E → Prop
  config : E → Option C
  Quorum : C → Set N → Prop
  /-- The configurations that may follow a configuration. -/
  Next : C → C → Prop
  meet : ∀ {c Q Q'}, Quorum c Q → Quorum c Q' → (Q ∩ Q').Nonempty
  meet_next : ∀ {c c' Q Q'}, Next c c' → Quorum c Q → Quorum c' Q' → (Q ∩ Q').Nonempty
  /-- The entry every log starts with. -/
  genesis : E
  term_genesis : term genesis = 1
  fits_genesis : Fits 0 genesis

namespace Scheme

variable (S : Scheme N E C)

def configs (l : List E) : List C := l.filterMap S.config

/-- The configuration in force at the end of a log. -/
def conf (l : List E) : Option C := (S.configs l).getLast?

def lastTerm (l : List E) : Nat := (l.getLast?.map S.term).getD 0

/-- The order by which a voter judges a candidate's log `l` against its own. -/
def UpToDate (l own : List E) : Prop :=
  S.lastTerm own < S.lastTerm l ∨ S.lastTerm own = S.lastTerm l ∧ own.length ≤ l.length

theorem ne_nil_of_conf {l : List E} {c : C} (h : S.conf l = some c) : l ≠ [] := by
  rintro rfl
  simp [conf, configs] at h

theorem lastTerm_of_getElem? {l : List E} {x : E} (h : l[l.length - 1]? = some x) :
    S.lastTerm l = S.term x := by
  rw [lastTerm, List.getLast?_eq_getElem?, h]
  rfl

theorem lastTerm_eq {l : List E} (hne : l ≠ []) : S.lastTerm l = S.term (l.getLast hne) := by
  rw [lastTerm, List.getLast?_eq_getLast_of_ne_nil hne]
  rfl

theorem upToDate_refl (l : List E) : S.UpToDate l l := .inr ⟨rfl, le_rfl⟩

end Scheme

/-- What happened so far. The term of a leader is told by its log: a term without a leader has the
empty one. -/
structure History (N E : Type*) where
  /-- The current term of a node. -/
  cur : N → Nat
  log : N → List E
  /-- Whom a node voted for in a term. -/
  vote : N → Nat → Option N
  /-- The log with which a node stood for election in a term. -/
  camp : N → Nat → Option (List E)
  /-- The node that leads a term. -/
  boss : Nat → Option N
  /-- The log of a term's leader. -/
  lead : Nat → List E
  /-- The length of the leader's log at its election. -/
  base : Nat → Nat
  /-- How much of a leader's log a node has acknowledged. -/
  ack : N → Nat → Nat
  /-- `commits t k m`: the leader of `t` found the first `k` entries held by a quorum of the
  configuration in its first `m`. -/
  commits : Nat → Nat → Nat → Prop

namespace History

variable (a : History N E)

def upTo (t k : Nat) : List E := (a.lead t).take k

/-- A leader between the terms `t` and `b` lacks the first `k` entries of the leader of `t`. -/
def Broken (t k b : Nat) : Prop := ∃ τ, t < τ ∧ τ < b ∧ a.lead τ ≠ [] ∧ ¬a.upTo t k <+: a.lead τ

/-- What the voter `v` acknowledged before the term `t'` is in the log `l`, unless it was lost
before `b`. -/
def Backed (v : N) (t' b : Nat) (l : List E) : Prop :=
  ∀ t k, t < t' → a.base t < k → k ≤ a.ack v t → a.upTo t k <+: l ∨ a.Broken t k b

theorem Broken.mono {a : History N E} {t k b b' : Nat} (h : a.Broken t k b) (hb : b ≤ b') :
    a.Broken t k b' := by
  obtain ⟨τ, ht, hτ, hrest⟩ := h
  exact ⟨τ, ht, hτ.trans_le hb, hrest⟩

theorem Backed.of_lead_nil {a : History N E} {v : N} {t' b : Nat} {l : List E}
    (h : a.Backed v t' (b + 1) l) (hb : a.lead b = []) : a.Backed v t' b l := by
  intro t k ht hbase hk
  refine (h t k ht hbase hk).imp_right ?_
  rintro ⟨τ, hlt, hτ, hne, hnot⟩
  refine ⟨τ, hlt, lt_of_le_of_ne (Nat.lt_succ_iff.mp hτ) ?_, hne, hnot⟩
  rintro rfl
  exact hne hb

section
variable [DecidableEq N]

def tick (n : N) (t : Nat) : History N E := { a with cur := Function.update a.cur n t }

def campaign (n : N) : History N E :=
  { a with
    camp := Function.update a.camp n (Function.update (a.camp n) (a.cur n) (some (a.log n))) }

def grant (n c : N) : History N E :=
  { a with vote := Function.update a.vote n (Function.update (a.vote n) (a.cur n) (some c)) }

def elect (n : N) (l : List E) : History N E :=
  { a with
    boss := Function.update a.boss (a.cur n) (some n)
    lead := Function.update a.lead (a.cur n) l
    base := Function.update a.base (a.cur n) l.length }

def append (n : N) (x : E) : History N E :=
  { a with lead := Function.update a.lead (a.cur n) (a.lead (a.cur n) ++ [x]) }

def write (n : N) (j : Nat) : History N E :=
  { a with log := Function.update a.log n (a.upTo (a.cur n) j) }

def acknowledge (n : N) (k : Nat) : History N E :=
  { a with
    ack := Function.update a.ack n
      (Function.update (a.ack n) (a.cur n) (max (a.ack n (a.cur n)) k)) }

def commit (n : N) (k m : Nat) : History N E :=
  { a with commits := fun t k' m' => a.commits t k' m' ∨ t = a.cur n ∧ k' = k ∧ m' = m }

end

end History

open History

/-- Every entry of a log sits there as in the log of its term's leader. -/
def Rooted (S : Scheme N E C) (a : History N E) (l : List E) : Prop :=
  ∀ i x, l[i]? = some x → l.take (i + 1) <+: a.lead (S.term x)

/-- When the leader of `t` may append the configuration `c'` as its entry `i`: behind a commit of
its own term that covers the configuration before it. -/
def Admits (S : Scheme N E C) (a : History N E) (t i : Nat) (c' : C) : Prop :=
  ∃ c k m, S.conf (a.upTo t i) = some c ∧ S.Next c c' ∧ a.commits t k m ∧ k ≤ i ∧ m ≤ i ∧
    S.configs (a.upTo t k) = S.configs (a.upTo t i)

/-- What a commit stands on. -/
def Held (S : Scheme N E C) (a : History N E) (t k m : Nat) : Prop :=
  a.base t < k ∧ k ≤ m + 1 ∧ k ≤ (a.lead t).length ∧ m ≤ (a.lead t).length ∧
    ∃ c Q, S.conf (a.upTo t m) = some c ∧ S.Quorum c Q ∧ ∀ v ∈ Q, k ≤ a.ack v t

/-- What a node can do. -/
inductive Step [DecidableEq N] (S : Scheme N E C) (n : N) : History N E → History N E → Prop
  | tick {a t} (hlt : a.cur n < t) : Step S n a (a.tick n t)
  | campaign {a} (hnew : a.camp n (a.cur n) = none) (hterm : ∀ x ∈ a.log n, S.term x < a.cur n) :
    Step S n a (a.campaign n)
  | grant {a c l} (hnew : a.vote n (a.cur n) = none) (hcamp : a.camp c (a.cur n) = some l)
    (hlog : S.UpToDate l (a.log n)) : Step S n a (a.grant n c)
  | elect {a l c Q} (hcamp : a.camp n (a.cur n) = some l) (hlead : a.lead (a.cur n) = [])
    (hconf : S.conf l = some c) (hquorum : S.Quorum c Q)
    (hvotes : ∀ v ∈ Q, a.vote v (a.cur n) = some n) : Step S n a (a.elect n l)
  | append {a x} (hboss : a.boss (a.cur n) = some n) (hterm : S.term x = a.cur n)
    (hfits : S.Fits (a.lead (a.cur n)).length x)
    (hconf : ∀ c', S.config x = some c' → Admits S a (a.cur n) (a.lead (a.cur n)).length c') :
    Step S n a (a.append n x)
  | write {a j} (hlead : a.lead (a.cur n) ≠ [])
    (hkeep : ∀ k ≤ (a.log n).length, (a.log n).take k <+: a.lead (a.cur n) → k ≤ j) :
    Step S n a (a.write n j)
  | acknowledge {a k} (hk : k ≤ (a.lead (a.cur n)).length) (hlog : a.upTo (a.cur n) k <+: a.log n) :
    Step S n a (a.acknowledge n k)
  | commit {a k m} (hboss : a.boss (a.cur n) = some n) (hheld : Held S a (a.cur n) k m) :
    Step S n a (a.commit n k m)

/-- How the leader of a term came to lead it: with the log of its campaign, and the votes
of a quorum. -/
def Elected (S : Scheme N E C) (a : History N E) (t : Nat) : Prop :=
  ∃ n l c Q, a.boss t = some n ∧ a.camp n t = some l ∧ a.base t = l.length ∧ l <+: a.lead t ∧
    S.conf l = some c ∧ S.Quorum c Q ∧ ∀ v ∈ Q, a.vote v t = some n ∧ a.Backed v t t l

structure Inv (S : Scheme N E C) (a : History N E) : Prop where
  /-- Every log starts with the same entry. -/
  head : ∀ t x, (a.lead t)[0]? = some x → x = S.genesis
  base_le : ∀ t, a.base t ≤ (a.lead t).length
  /-- The entries a leader was elected with are older than its term, the others are of its term. -/
  terms : ∀ t i x, (a.lead t)[i]? = some x → (i < a.base t → S.term x < t) ∧
    (a.base t ≤ i → S.term x = t)
  fits : ∀ t i x, (a.lead t)[i]? = some x → S.Fits i x
  log_term : ∀ n, ∀ x ∈ a.log n, S.term x ≤ a.cur n
  log_rooted : ∀ n, Rooted S a (a.log n)
  lead_rooted : ∀ t, Rooted S a (a.lead t)
  camp : ∀ n t l, a.camp n t = some l → t ≤ a.cur n ∧ (∀ x ∈ l, S.term x < t) ∧ Rooted S a l
  vote : ∀ n t c, a.vote n t = some c → t ≤ a.cur n ∧ (a.camp c t).isSome
  boss : ∀ t n, a.boss t = some n → a.lead t ≠ [] ∧ t ≤ a.cur n
  elected : ∀ t, a.lead t ≠ [] → t = 1 ∨ Elected S a t
  /-- A vote binds the candidate to what the voter acknowledged. -/
  pledged : ∀ v t c l, a.vote v t = some c → a.camp c t = some l → a.Backed v t (t + 1) l
  ack : ∀ n t, a.ack n t ≤ (a.lead t).length ∧ (0 < a.ack n t → t ≤ a.cur n)
  kept : ∀ n t k, k ≤ a.ack n t → a.upTo t k <+: a.log n ∨ a.Broken t k (a.cur n + 1)
  commits : ∀ t k m, a.commits t k m → Held S a t k m
  admitted : ∀ t i x c', (a.lead t)[i]? = some x → 0 < i → a.base t ≤ i → S.config x = some c' →
    Admits S a t i c'

/-! ## Rooted logs -/

section
variable {S : Scheme N E C} {a a' : History N E} {l l' : List E}

/-- The leaders' logs only grow. -/
def Grows (a a' : History N E) : Prop := ∀ t, a.lead t <+: a'.lead t

variable {k t : Nat}

theorem Grows.upTo (hg : Grows a a') (hk : k ≤ (a.lead t).length) : a'.upTo t k = a.upTo t k := by
  obtain ⟨rest, hrest⟩ := hg t
  rw [History.upTo, History.upTo, ← hrest, List.take_append_of_le_length hk]

theorem upTo_getElem? (a : History N E) {i : Nat} (hi : i < k) :
    (a.upTo t k)[i]? = (a.lead t)[i]? :=
  List.getElem?_take_of_lt hi

theorem length_upTo (hk : k ≤ (a.lead t).length) : (a.upTo t k).length = k := by
  rw [History.upTo, List.length_take, min_eq_left hk]

theorem Rooted.grows (h : Rooted S a l) (hg : Grows a a') : Rooted S a' l :=
  fun i x hx => (h i x hx).trans (hg _)

theorem Rooted.getElem? (h : Rooted S a l) {i : Nat} {x : E} (hx : l[i]? = some x) :
    (a.lead (S.term x))[i]? = some x :=
  (h i x hx).getElem?_of_some (by rw [List.getElem?_take_of_lt (Nat.lt_succ_self i), hx])

theorem Rooted.take (h : Rooted S a l) (k : Nat) : Rooted S a (l.take k) := by
  intro i x hx
  rw [List.getElem?_take] at hx
  split at hx
  · rw [List.take_take, min_eq_left (by omega)]
    exact h i x hx
  · cases hx

theorem Rooted.prefix_lead (h : Rooted S a l) (hne : l ≠ []) : l <+: a.lead (S.lastTerm l) := by
  have hlen : l.length - 1 < l.length := Nat.sub_lt (List.length_pos_of_ne_nil hne) one_pos
  have hlast := List.getElem?_eq_getElem hlen
  have hp := h _ _ hlast
  rw [show l.length - 1 + 1 = l.length by omega, List.take_length] at hp
  rwa [S.lastTerm_of_getElem? hlast]

end

namespace Inv

variable {S : Scheme N E C} {a : History N E} (h : Inv S a) {l : List E}
include h

variable {i t k : Nat} {x : E}

theorem term_le (hx : (a.lead t)[i]? = some x) : S.term x ≤ t := by
  obtain ⟨hold, hnew⟩ := h.terms t i x hx
  by_cases hi : i < a.base t
  · exact (hold hi).le
  · exact (hnew (by omega)).le

theorem upTo_term_le (hx : x ∈ a.upTo t k) : S.term x ≤ t := by
  obtain ⟨i, hi⟩ := List.mem_iff_getElem?.mp (List.mem_of_mem_take hx)
  exact h.term_le hi

theorem rooted_mono (hl : Rooted S a l) {j : Nat} (hij : i ≤ j) {y : E} (hx : l[i]? = some x)
    (hy : l[j]? = some y) : S.term x ≤ S.term y := by
  have hx' : (l.take (j + 1))[i]? = some x := by rw [List.getElem?_take_of_lt (by omega), hx]
  exact h.term_le ((hl j y hy).getElem?_of_some hx')

theorem rooted_fits (hl : Rooted S a l) (hx : l[i]? = some x) : S.Fits i x :=
  h.fits _ i x (hl.getElem? hx)

theorem term_le_lastTerm (hl : Rooted S a l) (hx : x ∈ l) : S.term x ≤ S.lastTerm l := by
  obtain ⟨i, hi, rfl⟩ := List.getElem_of_mem hx
  have hlast := List.getElem?_eq_getElem (show l.length - 1 < l.length by omega)
  rw [S.lastTerm_of_getElem? hlast]
  exact h.rooted_mono hl (by omega) (List.getElem?_eq_getElem hi) hlast

theorem own_entry (hk : a.base t < k) (hlen : k ≤ (a.lead t).length) :
    ∃ x, (a.lead t)[k - 1]? = some x ∧ S.term x = t := by
  have hx := List.getElem?_eq_getElem (show k - 1 < (a.lead t).length by omega)
  exact ⟨_, hx, (h.terms t _ _ hx).2 (by omega)⟩

/-- A log that has the first `k` entries of a leader, the last of them of its own term, is at least
as new. -/
theorem lastTerm_ge (hl : Rooted S a l) (hk : a.base t < k) (hlen : k ≤ (a.lead t).length)
    (hp : a.upTo t k <+: l) : t ≤ S.lastTerm l ∧ k ≤ l.length := by
  obtain ⟨x, hx, hterm⟩ := h.own_entry hk hlen
  have hx' : (a.upTo t k)[k - 1]? = some x := by rw [upTo_getElem? a (by omega), hx]
  refine ⟨hterm ▸ h.term_le_lastTerm hl (List.mem_of_getElem? (hp.getElem?_of_some hx')), ?_⟩
  have := hp.length_le
  rwa [length_upTo hlen] at this

theorem upTo_prefix_of_later (hl : Rooted S a l) (hlt : t < S.lastTerm l)
    (hp : a.upTo t k <+: a.lead (S.lastTerm l)) : a.upTo t k <+: l := by
  have hne : l ≠ [] := by
    rintro rfl
    simp [Scheme.lastTerm] at hlt
  rcases List.prefix_or_prefix_of_prefix hp (hl.prefix_lead hne) with hq | hq
  · exact hq
  · -- otherwise the last entry of `l` would be one of the leader of `t`
    have hle := h.upTo_term_le (hq.subset (List.getLast_mem hne))
    rw [S.lastTerm_eq hne] at hlt
    omega

/-- The judgement of a vote: a log that is up to date has what the voter's log has, unless it was
lost in between. -/
theorem upToDate_backed (hl : Rooted S a l) {own : List E} (hown : Rooted S a own)
    (hup : S.UpToDate l own)
    {t' : Nat} (hterm : ∀ x ∈ l, S.term x < t') (hk : a.base t < k) (hlen : k ≤ (a.lead t).length)
    (hp : a.upTo t k <+: own) : a.upTo t k <+: l ∨ a.Broken t k t' := by
  obtain ⟨hle, hklen⟩ := h.lastTerm_ge hown hk hlen hp
  have hle' : t ≤ S.lastTerm l := by rcases hup with hlt | ⟨heq, -⟩ <;> omega
  have hne : l ≠ [] := by
    rintro rfl
    rcases hup with hlt | ⟨-, hlong⟩
    · simp [Scheme.lastTerm] at hlt
    · simp only [List.length_nil] at hlong
      omega
  have hpl := hl.prefix_lead hne
  rcases hle'.eq_or_lt with heq | hlt
  · -- both logs end in the term `t`, and the candidate's is the longer one
    left
    rw [← heq] at hpl
    refine List.prefix_of_prefix_length_le (List.take_prefix k _) hpl ?_
    have hlong : own.length ≤ l.length := by
      rcases hup with hlt | ⟨-, hlong⟩
      · omega
      · exact hlong
    exact (length_upTo hlen).le.trans (hklen.trans hlong)
  · by_cases hq : a.upTo t k <+: a.lead (S.lastTerm l)
    · exact .inl (h.upTo_prefix_of_later hl hlt hq)
    · right
      refine ⟨S.lastTerm l, hlt, S.lastTerm_eq hne ▸ hterm _ (List.getLast_mem hne), ?_, hq⟩
      intro hnil
      rw [hnil] at hpl
      exact hne (List.prefix_nil.mp hpl)

end Inv

/-! ## What a step changes -/

section
variable {a a' : History N E}

/-- What no step takes back. -/
structure Extends (a a' : History N E) : Prop where
  cur : ∀ n, a.cur n ≤ a'.cur n
  grows : Grows a a'
  vote : ∀ n t c, a.vote n t = some c → a'.vote n t = some c
  camp : ∀ n t l, a.camp n t = some l → a'.camp n t = some l
  boss : ∀ t n, a.boss t = some n → a'.boss t = some n
  base : ∀ t, a.lead t ≠ [] → a'.base t = a.base t
  ack : ∀ n t, a.ack n t ≤ a'.ack n t
  /-- What a node did not acknowledge in a term it never will, once it is past the term. -/
  ack_past : ∀ n t, t < a.cur n → a'.ack n t = a.ack n t
  commits : ∀ t k m, a.commits t k m → a'.commits t k m

theorem Extends.refl (a : History N E) : Extends a a :=
  ⟨fun _ => le_rfl, fun _ => List.prefix_rfl, fun _ _ _ => id, fun _ _ _ => id, fun _ _ => id,
    fun _ _ => rfl, fun _ _ => le_rfl, fun _ _ _ => rfl, fun _ _ _ => id⟩

theorem Extends.trans {a'' : History N E} (h : Extends a a') (h' : Extends a' a'') :
    Extends a a'' where
  cur n := (h.cur n).trans (h'.cur n)
  grows t := (h.grows t).trans (h'.grows t)
  vote n t c hv := h'.vote n t c (h.vote n t c hv)
  camp n t l hc := h'.camp n t l (h.camp n t l hc)
  boss t n hb := h'.boss t n (h.boss t n hb)
  base t ht := by
    have hne : a'.lead t ≠ [] := fun hnil => ht (List.prefix_nil.mp (hnil ▸ h.grows t))
    rw [h'.base t hne, h.base t ht]
  ack n t := (h.ack n t).trans (h'.ack n t)
  ack_past n t ht := by rw [h'.ack_past n t (ht.trans_le (h.cur n)), h.ack_past n t ht]
  commits t k m hc := h'.commits t k m (h.commits t k m hc)

end

section
variable [DecidableEq N] {S : Scheme N E C} {a a' : History N E} {n : N}

theorem Step.lead_cases (hs : Step S n a a') (t : Nat) :
    (a'.lead t = a.lead t ∧ a'.base t = a.base t ∧ a'.boss t = a.boss t) ∨
      (t = a.cur n ∧ a.lead t = [] ∧
        ∃ l c Q, a.camp n t = some l ∧ S.conf l = some c ∧ S.Quorum c Q ∧
        (∀ v ∈ Q, a.vote v t = some n) ∧ a'.lead t = l ∧ a'.base t = l.length ∧
          a'.boss t = some n) ∨
      (a.boss t = some n ∧ a'.base t = a.base t ∧ a'.boss t = a.boss t ∧
        ∃ x, S.term x = t ∧ S.Fits (a.lead t).length x ∧ a'.lead t = a.lead t ++ [x] ∧
          ∀ c', S.config x = some c' → Admits S a t (a.lead t).length c') := by
  cases hs with
  | @elect l c Q hcamp hlead hconf hquorum hvotes =>
    by_cases ht : t = a.cur n
    · subst ht
      exact .inr
        (.inl ⟨rfl, hlead, l, c, Q, hcamp, hconf, hquorum, hvotes, by simp [History.elect]⟩)
    · exact .inl (by simp [History.elect, ht])
  | @append x hboss hterm hfits hconf =>
    by_cases ht : t = a.cur n
    · subst ht
      exact .inr (.inr ⟨hboss, rfl, rfl, x, hterm, hfits, by simp [History.append], hconf⟩)
    · exact .inl (by simp [History.append, ht])
  | _ => exact .inl ⟨rfl, rfl, rfl⟩

theorem Step.log_cases (hs : Step S n a a') (m : N) :
    a'.log m = a.log m ∨
      m = n ∧ a'.cur n = a.cur n ∧ a.lead (a.cur n) ≠ [] ∧ ∃ j, a'.log n = a.upTo (a.cur n) j ∧
        ∀ k ≤ (a.log n).length, (a.log n).take k <+: a.lead (a.cur n) → k ≤ j := by
  cases hs with
  | @write j hlead hkeep =>
    by_cases hm : m = n
    · subst hm
      exact .inr ⟨rfl, rfl, hlead, j, by simp [History.write], hkeep⟩
    · exact .inl (by simp [History.write, hm])
  | _ => exact .inl rfl

theorem Step.vote_cases (hs : Step S n a a') (v : N) (t : Nat) :
    a'.vote v t = a.vote v t ∨
      v = n ∧ t = a.cur n ∧ a.vote v t = none ∧
        ∃ c l, a'.vote v t = some c ∧ a.camp c t = some l ∧ S.UpToDate l (a.log v) := by
  cases hs with
  | @grant c l hnew hcamp hlog =>
    rcases update_update_cases a.vote n (a.cur n) (some c) v t with heq | ⟨rfl, rfl, heq⟩
    · exact .inl heq
    · exact .inr ⟨rfl, rfl, hnew, c, l, heq, hcamp, hlog⟩
  | _ => exact .inl rfl

theorem Step.camp_cases (hs : Step S n a a') (c : N) (t : Nat) :
    a'.camp c t = a.camp c t ∨
      c = n ∧ t = a.cur n ∧ a.camp c t = none ∧ a'.camp c t = some (a.log c) ∧
        ∀ x ∈ a.log c, S.term x < t := by
  cases hs with
  | campaign hnew hterm =>
    rcases update_update_cases a.camp n (a.cur n) (some (a.log n)) c t with heq | ⟨rfl, rfl, heq⟩
    · exact .inl heq
    · exact .inr ⟨rfl, rfl, hnew, heq, hterm⟩
  | _ => exact .inl rfl

theorem Step.ack_cases (hs : Step S n a a') (v : N) (t : Nat) :
    a'.ack v t = a.ack v t ∨
      v = n ∧ t = a.cur n ∧ ∃ k, a'.ack v t = max (a.ack v t) k ∧ k ≤ (a.lead t).length ∧
        a.upTo t k <+: a.log v ∧ a'.log v = a.log v := by
  cases hs with
  | @acknowledge k hk hlog =>
    rcases update_update_cases a.ack n (a.cur n) (max (a.ack n (a.cur n)) k) v t with
      heq | ⟨rfl, rfl, heq⟩
    · exact .inl heq
    · exact .inr ⟨rfl, rfl, k, heq, hk, hlog, rfl⟩
  | _ => exact .inl rfl

theorem Step.cur_le (hs : Step S n a a') (m : N) : a.cur m ≤ a'.cur m := by
  cases hs with
  | @tick t hlt =>
    by_cases hm : m = n
    · subst hm
      simpa [History.tick] using hlt.le
    · simp [History.tick, hm]
  | _ => exact le_rfl

variable (h : Inv S a)
include h

theorem Step.extends (hs : Step S n a a') : Extends a a' where
  cur := hs.cur_le
  grows t := by
    rcases hs.lead_cases t with ⟨heq, -⟩ | ⟨-, hnil, -⟩ | ⟨-, -, -, x, -, -, heq, -⟩
    · exact heq ▸ List.prefix_rfl
    · exact hnil ▸ List.nil_prefix
    · exact heq ▸ List.prefix_append _ _
  vote v t c hv := by
    rcases hs.vote_cases v t with heq | ⟨-, -, hnone, -⟩
    · exact heq.trans hv
    · cases hnone.symm.trans hv
  camp c t l hc := by
    rcases hs.camp_cases c t with heq | ⟨-, -, hnone, -⟩
    · exact heq.trans hc
    · cases hnone.symm.trans hc
  boss t m hb := by
    rcases hs.lead_cases t with ⟨-, -, heq⟩ | ⟨-, hnil, -⟩ | ⟨-, -, heq, -⟩
    · exact heq.trans hb
    · exact absurd hnil (h.boss _ _ hb).1
    · exact heq.trans hb
  base t ht := by
    rcases hs.lead_cases t with ⟨-, heq, -⟩ | ⟨-, hnil, -⟩ | ⟨-, heq, -⟩
    · exact heq
    · exact absurd hnil ht
    · exact heq
  ack v t := by
    rcases hs.ack_cases v t with heq | ⟨-, -, k, heq, -⟩
    · exact heq.ge
    · exact heq ▸ le_max_left _ _
  ack_past v t ht := by
    rcases hs.ack_cases v t with heq | ⟨rfl, rfl, -⟩
    · exact heq
    · omega
  commits t k m hc := by
    cases hs with
    | commit => exact .inl hc
    | _ => exact hc

variable {t k i : Nat} {v c : N}

theorem Step.lead_ne_nil (hs : Step S n a a') (ht : a.lead t ≠ []) : a'.lead t ≠ [] :=
  fun hnil => ht (List.prefix_nil.mp (hnil ▸ (hs.extends h).grows t))

/-- What a leader lacks it does not get later: its new entries are of its own term. -/
theorem Broken.step (hs : Step S n a a') {b : Nat} (hk : k ≤ (a.lead t).length)
    (hb : a.Broken t k b) :
    a'.Broken t k b := by
  obtain ⟨τ, hlt, hτ, hne, hnot⟩ := hb
  refine ⟨τ, hlt, hτ, hs.lead_ne_nil h hne, ?_⟩
  rw [(hs.extends h).grows.upTo hk]
  rcases hs.lead_cases τ with ⟨heq, -⟩ | ⟨-, hnil, -⟩ | ⟨-, -, -, x, hx, -, heq, -⟩
  · rwa [heq]
  · exact absurd hnil hne
  · rw [heq, List.prefix_concat_iff]
    rintro (hall | hp)
    · have := h.upTo_term_le (hall ▸ List.mem_append_right _ (List.mem_singleton_self x))
      omega
    · exact hnot hp

omit [DecidableEq N] h in
theorem lead_ne_nil_of_lt (hi : i < k) (hk : k ≤ (a.lead t).length) : a.lead t ≠ [] :=
  List.ne_nil_of_length_pos (by omega)

theorem Backed.step (hs : Step S n a a') {t' b : Nat} {l : List E} (ht' : t' ≤ a.cur v)
    (hb : a.Backed v t' b l) : a'.Backed v t' b l := by
  intro t k ht hbase hk
  rw [(hs.extends h).ack_past v t (ht.trans_le ht')] at hk
  have hlen := hk.trans (h.ack v t).1
  have hk₀ : 0 < k := Nat.zero_lt_of_lt hbase
  rw [(hs.extends h).base t (lead_ne_nil_of_lt hk₀ hlen)] at hbase
  rw [(hs.extends h).grows.upTo hlen]
  exact (hb t k ht hbase hk).imp_right (Broken.step h hs hlen)

theorem Held.step (hs : Step S n a a') {m : Nat} (hh : Held S a t k m) : Held S a' t k m := by
  obtain ⟨hbase, hkm, hk, hm, c, Q, hconf, hquorum, hack⟩ := hh
  have hext := hs.extends h
  have hlen := (hext.grows t).length_le
  refine ⟨by rwa [hext.base t (lead_ne_nil_of_lt hbase hk)], hkm, hk.trans hlen,
    hm.trans hlen, c, Q, ?_, hquorum, ?_⟩
  · rwa [hext.grows.upTo hm]
  · exact fun v hv => (hack v hv).trans (hext.ack v t)

theorem Admits.step (hs : Step S n a a') {c' : C} (hi : i ≤ (a.lead t).length)
    (ha : Admits S a t i c') : Admits S a' t i c' := by
  obtain ⟨c, k, m, hconf, hnext, hcommit, hki, hmi, hsame⟩ := ha
  have hext := hs.extends h
  refine ⟨c, k, m, ?_, hnext, hext.commits t k m hcommit, hki, hmi, ?_⟩
  · rwa [hext.grows.upTo hi]
  · rwa [hext.grows.upTo hi, hext.grows.upTo (hki.trans hi)]

theorem Elected.step (hs : Step S n a a') (ht : a.lead t ≠ []) (he : Elected S a t) :
    Elected S a' t := by
  obtain ⟨m, l, c, Q, hboss, hcamp, hbase, hlead, hconf, hquorum, hvotes⟩ := he
  have hext := hs.extends h
  refine ⟨m, l, c, Q, hext.boss t m hboss, hext.camp m t l hcamp, ?_, hlead.trans (hext.grows t),
    hconf, hquorum, ?_⟩
  · rw [hext.base t ht, hbase]
  · intro v hv
    obtain ⟨hvote, hback⟩ := hvotes v hv
    exact ⟨hext.vote v t m hvote, Backed.step h hs (h.vote v t m hvote).1 hback⟩

/-! ## The invariant is kept -/

theorem Inv.lead_step (hs : Step S n a a') (t : Nat) :
    (∀ x, (a'.lead t)[0]? = some x → x = S.genesis) ∧ a'.base t ≤ (a'.lead t).length ∧
      (∀ i x, (a'.lead t)[i]? = some x → (i < a'.base t → S.term x < t) ∧
        (a'.base t ≤ i → S.term x = t)) ∧
      (∀ i x, (a'.lead t)[i]? = some x → S.Fits i x) ∧ Rooted S a' (a'.lead t) := by
  have hgrows := (hs.extends h).grows
  rcases hs.lead_cases t with ⟨heq, hbase, -⟩ | ⟨-, -, l, -, -, hcamp, -, -, -, heq, hbase, -⟩ |
    ⟨hboss, hbase, -, x, hx, hfits, heq, -⟩
  · rw [heq, hbase]
    exact ⟨h.head t, h.base_le t, h.terms t, h.fits t, (h.lead_rooted t).grows hgrows⟩
  · obtain ⟨-, hterm, hroot⟩ := h.camp _ _ _ hcamp
    rw [heq, hbase]
    refine ⟨fun x hx => h.head _ x (hroot.getElem? hx), le_rfl,
      fun i x hx => ⟨fun _ => ?_, fun hi => ?_⟩,
      fun i x hx => h.fits _ i x (hroot.getElem? hx), hroot.grows hgrows⟩
    · exact hterm x (List.mem_of_getElem? hx)
    · rw [List.getElem?_eq_none hi] at hx
      cases hx
  · have hpos := List.length_pos_of_ne_nil (h.boss _ _ hboss).1
    rw [heq, hbase]
    refine ⟨fun y hy => ?_, ?_, fun i y hy => ?_, fun i y hy => ?_, fun i y hy => ?_⟩
    · rw [List.getElem?_append_left hpos] at hy
      exact h.head t y hy
    · rw [List.length_append]
      exact (h.base_le t).trans (Nat.le_add_right _ _)
    · rcases List.getElem?_concat_cases hy with hold | ⟨rfl, rfl⟩
      · exact h.terms t i y hold
      · exact ⟨fun hlt => absurd hlt (h.base_le t).not_gt, fun _ => hx⟩
    · rcases List.getElem?_concat_cases hy with hold | ⟨rfl, rfl⟩
      · exact h.fits t i y hold
      · exact hfits
    · rcases List.getElem?_concat_cases hy with hold | ⟨rfl, rfl⟩
      · rw [List.take_append_of_le_length (List.getElem?_eq_some_iff.mp hold).1]
        exact (h.lead_rooted t i y hold).trans (hgrows _)
      · rw [hx, heq]
        exact List.take_prefix _ _

theorem Inv.log_step (hs : Step S n a a') (m : N) :
    (∀ x ∈ a'.log m, S.term x ≤ a'.cur m) ∧ Rooted S a' (a'.log m) := by
  have hext := hs.extends h
  rcases hs.log_cases m with heq | ⟨rfl, hcur, -, j, heq, -⟩
  · rw [heq]
    exact ⟨fun x hx => (h.log_term m x hx).trans (hext.cur m), (h.log_rooted m).grows hext.grows⟩
  · rw [heq, hcur]
    exact ⟨fun x hx => h.upTo_term_le hx, ((h.lead_rooted _).take j).grows hext.grows⟩

theorem Inv.camp_step (hs : Step S n a a') {l : List E} (hc : a'.camp c t = some l) :
    t ≤ a'.cur c ∧ (∀ x ∈ l, S.term x < t) ∧ Rooted S a' l := by
  have hext := hs.extends h
  rcases hs.camp_cases c t with heq | ⟨rfl, rfl, -, heq, hterm⟩
  · obtain ⟨hle, hterm, hroot⟩ := h.camp c t l (heq.symm.trans hc)
    exact ⟨hle.trans (hext.cur c), hterm, hroot.grows hext.grows⟩
  · cases heq.symm.trans hc
    exact ⟨hext.cur c, hterm, (h.log_rooted c).grows hext.grows⟩

theorem Inv.vote_step (hs : Step S n a a') (hv : a'.vote v t = some c) :
    t ≤ a'.cur v ∧ (a'.camp c t).isSome := by
  have hext := hs.extends h
  have hsome : ∀ {l}, a.camp c t = some l → (a'.camp c t).isSome := fun hl => by
    rw [hext.camp c t _ hl]
    rfl
  rcases hs.vote_cases v t with heq | ⟨rfl, rfl, -, c', l, heq, hcamp, -⟩
  · obtain ⟨hle, hcamp⟩ := h.vote v t c (heq.symm.trans hv)
    obtain ⟨l, hl⟩ := Option.isSome_iff_exists.mp hcamp
    exact ⟨hle.trans (hext.cur v), hsome hl⟩
  · cases heq.symm.trans hv
    exact ⟨hext.cur v, hsome hcamp⟩

theorem Inv.boss_step (hs : Step S n a a') {m : N} (hb : a'.boss t = some m) :
    a'.lead t ≠ [] ∧ t ≤ a'.cur m := by
  have hold : a.boss t = some m → a'.lead t ≠ [] ∧ t ≤ a'.cur m := fun hb =>
    ⟨hs.lead_ne_nil h (h.boss t m hb).1, (h.boss t m hb).2.trans (hs.cur_le m)⟩
  rcases hs.lead_cases t with
    ⟨-, -, heq⟩ | ⟨rfl, -, l, c, Q, -, hconf, -, -, hlead, -, heq⟩ | ⟨-, -, heq, -⟩
  · exact hold (heq.symm.trans hb)
  · cases heq.symm.trans hb
    exact ⟨hlead ▸ S.ne_nil_of_conf hconf, hs.cur_le n⟩
  · exact hold (heq.symm.trans hb)

theorem Inv.elected_step (hs : Step S n a a') (ht : a'.lead t ≠ []) : t = 1 ∨ Elected S a' t := by
  by_cases hnil : a.lead t = []
  · right
    rcases hs.lead_cases t with
      ⟨heq, -⟩ | ⟨rfl, -, l, c, Q, hcamp, hconf, hquorum, hvotes, hlead, hbase, hboss⟩ | ⟨hboss, -⟩
    · exact absurd (heq.trans hnil) ht
    · have hext := hs.extends h
      refine ⟨n, l, c, Q, hboss, hext.camp _ _ _ hcamp, hbase, hlead ▸ List.prefix_rfl, hconf,
        hquorum, fun v hv => ?_⟩
      have hback := (h.pledged v _ n l (hvotes v hv) hcamp).of_lead_nil hnil
      exact ⟨hext.vote _ _ _ (hvotes v hv), Backed.step h hs (h.vote v _ n (hvotes v hv)).1 hback⟩
    · exact absurd hnil (h.boss _ _ hboss).1
  · exact (h.elected t hnil).imp_right (Elected.step h hs hnil)

theorem Inv.pledged_step (hs : Step S n a a') {l : List E}
    (hv : a'.vote v t = some c) (hc : a'.camp c t = some l) : a'.Backed v t (t + 1) l := by
  rcases hs.vote_cases v t with heq | ⟨rfl, rfl, -, c', l', heq, hcamp, hup⟩
  · have hvold := heq.symm.trans hv
    rcases hs.camp_cases c t with heq | ⟨-, -, hnone, -⟩
    · exact Backed.step h hs (h.vote v t c hvold).1 (h.pledged v t c l hvold (heq.symm.trans hc))
    · -- nobody votes for a campaign that has not begun
      have := (h.vote v _ c hvold).2
      rw [hnone] at this
      cases this
  · cases heq.symm.trans hv
    cases ((hs.extends h).camp c _ l' hcamp).symm.trans hc
    refine Backed.step h hs le_rfl fun t k hlt hbase hk => ?_
    obtain ⟨-, hterm, hroot⟩ := h.camp c _ l hcamp
    rcases h.kept v t k hk with hp | hlost
    · exact (h.upToDate_backed hroot (h.log_rooted v) hup hterm hbase (hk.trans (h.ack v t).1)
        hp).imp_right
        fun hb => hb.mono (Nat.le_succ _)
    · exact .inr hlost

theorem Inv.ack_step (hs : Step S n a a') (v : N) (t : Nat) :
    a'.ack v t ≤ (a'.lead t).length ∧ (0 < a'.ack v t → t ≤ a'.cur v) := by
  have hext := hs.extends h
  have hlen := (hext.grows t).length_le
  rcases hs.ack_cases v t with heq | ⟨rfl, rfl, k, heq, hk, -⟩
  · rw [heq]
    exact ⟨(h.ack v t).1.trans hlen, fun hpos => ((h.ack v t).2 hpos).trans (hext.cur v)⟩
  · rw [heq]
    exact ⟨(max_le (h.ack v _).1 hk).trans hlen, fun _ => hext.cur v⟩

/-- What a node acknowledged survives the overwriting of its log: a leader that has it too leaves it
where it is. -/
theorem Inv.kept_step (hs : Step S n a a') (hk : k ≤ a'.ack v t) :
    a'.upTo t k <+: a'.log v ∨ a'.Broken t k (a'.cur v + 1) := by
  have hext := hs.extends h
  have hkeep : k ≤ a.ack v t → a'.log v = a.log v →
      a'.upTo t k <+: a'.log v ∨ a'.Broken t k (a'.cur v + 1) := by
    intro hk hlog
    have hlen := hk.trans (h.ack v t).1
    rw [hext.grows.upTo hlen, hlog]
    refine (h.kept v t k hk).imp_right fun hb => ?_
    exact (Broken.step h hs hlen hb).mono (Nat.succ_le_succ (hext.cur v))
  rcases hs.ack_cases v t with heq | ⟨rfl, rfl, k', heq, hk', hp, hlog⟩
  · rw [heq] at hk
    rcases hs.log_cases v with hlog | ⟨rfl, hcur, hne, j, hlog, hj⟩
    · exact hkeep hk hlog
    · have hlen := hk.trans (h.ack v t).1
      rw [hext.grows.upTo hlen, hlog, hcur]
      rcases h.kept v t k hk with hp | hb
      · by_cases hq : a.upTo t k <+: a.lead (a.cur v)
        · left
          have hkl : k ≤ (a.log v).length := by
            have := hp.length_le
            rwa [length_upTo hlen] at this
          have htake : (a.log v).take k = a.upTo t k := by
            have := List.prefix_iff_eq_take.mp hp
            rw [length_upTo hlen] at this
            exact this.symm
          refine List.prefix_take_iff.mpr ⟨hq, ?_⟩
          rw [length_upTo hlen]
          exact hj k hkl (htake ▸ hq)
        · -- the leader of the present term lacks it
          right
          have hlt : t < a.cur v := by
            rcases Nat.lt_or_ge 0 (a.ack v t) with hpos | hzero
            · refine lt_of_le_of_ne ((h.ack v t).2 hpos) ?_
              rintro rfl
              exact hq (List.take_prefix _ _)
            · rw [show k = 0 by omega] at hq
              simp [History.upTo] at hq
          have hb : a.Broken t k (a.cur v + 1) := ⟨a.cur v, hlt, Nat.lt_succ_self _, hne, hq⟩
          exact Broken.step h hs hlen hb
      · exact .inr (Broken.step h hs hlen hb)
  · rw [heq] at hk
    rcases le_max_iff.mp hk with hold | hnew
    · exact hkeep hold hlog
    · left
      rw [hext.grows.upTo (hnew.trans hk'), hlog]
      exact (List.take_prefix_take_left hnew).trans hp

theorem Inv.commits_step (hs : Step S n a a') {m : Nat} (hc : a'.commits t k m) :
    Held S a' t k m := by
  suffices Held S a t k m from Held.step h hs this
  cases hs with
  | commit _ hheld =>
    rcases hc with hold | ⟨rfl, rfl, rfl⟩
    · exact h.commits t k m hold
    · exact hheld
  | _ => exact h.commits t k m hc

theorem Inv.admitted_step (hs : Step S n a a') {x : E} {c' : C} (hx : (a'.lead t)[i]? = some x)
    (hi : 0 < i) (hbase : a'.base t ≤ i) (hc : S.config x = some c') : Admits S a' t i c' := by
  have hold : (a.lead t)[i]? = some x → a.base t ≤ i → Admits S a' t i c' := fun hx hbase =>
    Admits.step h hs (List.getElem?_eq_some_iff.mp hx).1.le (h.admitted t i x c' hx hi hbase hc)
  rcases hs.lead_cases t with
    ⟨heq, hb, -⟩ | ⟨-, -, l, -, -, -, -, -, -, heq, hb, -⟩ | ⟨-, hb, -, y, -, -, heq, hadm⟩ <;>
    rw [heq] at hx <;> rw [hb] at hbase
  · exact hold hx hbase
  · rw [List.getElem?_eq_none hbase] at hx
    cases hx
  · rcases List.getElem?_concat_cases hx with hx | ⟨rfl, rfl⟩
    · exact hold hx hbase
    · exact Admits.step h hs le_rfl (hadm c' hc)

theorem Inv.step (hs : Step S n a a') : Inv S a' where
  head t := (h.lead_step hs t).1
  base_le t := (h.lead_step hs t).2.1
  terms t := (h.lead_step hs t).2.2.1
  fits t := (h.lead_step hs t).2.2.2.1
  lead_rooted t := (h.lead_step hs t).2.2.2.2
  log_term m := (h.log_step hs m).1
  log_rooted m := (h.log_step hs m).2
  camp _ _ _ := h.camp_step hs
  vote _ _ _ := h.vote_step hs
  boss _ _ := h.boss_step hs
  elected _ := h.elected_step hs
  pledged _ _ _ _ := h.pledged_step hs
  ack := h.ack_step hs
  kept _ _ _ := h.kept_step hs
  commits _ _ _ := h.commits_step hs
  admitted _ _ _ _ := h.admitted_step hs

theorem Inv.run (hrun : Relation.ReflTransGen (Step S n) a a') : Inv S a' := by
  induction hrun with
  | refl => exact h
  | tail _ hs ih => exact ih.step hs

theorem Extends.run (hrun : Relation.ReflTransGen (Step S n) a a') : Extends a a' := by
  induction hrun with
  | refl => exact .refl a
  | tail hrun hs ih => exact ih.trans (hs.extends (h.run hrun))

end

/-! ## The beginning -/

/-- Nothing happened but that the first term has a log, with the entry that all logs start with. -/
def History.init (S : Scheme N E C) : History N E where
  cur _ := 0
  log _ := []
  vote _ _ := none
  camp _ _ := none
  boss _ := none
  lead t := if t = 1 then [S.genesis] else []
  base _ := 0
  ack _ _ := 0
  commits _ _ _ := False

theorem Inv.init (S : Scheme N E C) : Inv S (History.init S) := by
  have hlead : ∀ {t i x}, ((History.init S).lead t)[i]? = some x → t = 1 ∧ i = 0 ∧
      x = S.genesis := by
    intro t i x hx
    simp only [History.init] at hx
    split at hx
    · rw [List.getElem?_singleton] at hx
      split at hx
      · cases hx
        exact ⟨‹_›, ‹_›, rfl⟩
      · cases hx
    · cases hx
  refine
    { head := fun t x hx => (hlead hx).2.2
      base_le := fun t => Nat.zero_le _
      terms := fun t i x hx => ⟨fun hi => absurd hi (Nat.not_lt_zero i), fun _ => ?_⟩
      fits := fun t i x hx => ?_
      log_term := fun n x hx => by cases hx
      log_rooted := fun n i x hx => by cases hx
      lead_rooted := fun t i x hx => ?_
      camp := fun n t l hc => by cases hc
      vote := fun n t c hv => by cases hv
      boss := fun t n hb => by cases hb
      elected := fun t ht => ?_
      pledged := fun v t c l hv => by cases hv
      ack := fun n t => ⟨Nat.zero_le _, fun hpos => absurd hpos (lt_irrefl 0)⟩
      kept := fun n t k hk => .inl ?_
      commits := fun t k m hc => hc.elim
      admitted := fun t i x c' hx hi => absurd (hlead hx).2.1 hi.ne' }
  · obtain ⟨rfl, -, rfl⟩ := hlead hx
    exact S.term_genesis
  · obtain ⟨-, rfl, rfl⟩ := hlead hx
    exact S.fits_genesis
  · obtain ⟨rfl, rfl, rfl⟩ := hlead hx
    rw [S.term_genesis]
    exact List.take_prefix _ _
  · by_contra hne
    simp only [not_or] at hne
    exact ht (if_neg hne.1)
  · rw [Nat.le_zero.mp hk]
    simp [History.upTo]

end LeaderLog
