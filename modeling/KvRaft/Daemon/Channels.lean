import KvRaft.Lib.Bytes
import KvRaft.Lib.OrdMap
import KvRaft.Lib.Reach

/-! # Channel sessions

The table of live channels and the queue of those that were accepted and not claimed yet. A session
is let go by whoever deletes it from the table: `reap` and `dispatchChannelClose` close its stream
and cancel its context, `pushPending` closes the stream of the session that has to make room, and
`remove` leaves both to its caller. -/

namespace KvRaft.Daemon

open Bytes

/-! ## The table -/

def maxPendingChannels : Nat := 64

/-- In nanoseconds, as all times here. -/
def channelIdleTimeout : Int := 5 * 60 * 10 ^ 9
def channelPendingTimeout : Int := 2 * 60 * 10 ^ 9

/-- `channelSession`, as far as the table deals with it. -/
structure ChannelSession where
  lastActivity : Int
  streamClosed : Bool
  cancelled : Bool
deriving DecidableEq

namespace ChannelSession

def new (now : Int) : ChannelSession := ⟨now, false, false⟩

def close (s : ChannelSession) : ChannelSession := { s with streamClosed := true }

def closeCancel (s : ChannelSession) : ChannelSession := { s with cancelled := true }

def touch (s : ChannelSession) (now : Int) : ChannelSession := { s with lastActivity := now }

def idleFor (s : ChannelSession) (now : Int) : Int := now - s.lastActivity

end ChannelSession

structure PendingChannel where
  channelID : Bytes
  addedAt : Int
deriving DecidableEq

/-- `channelTable`, together with the sessions that have left it, in the state they were left in. -/
structure ChannelTable where
  sessions : OrdMap Bytes ChannelSession
  pending : List PendingChannel
  left : List ChannelSession

namespace ChannelTable

def new : ChannelTable := ⟨OrdMap.empty, [], []⟩

def delete (f : ChannelSession → ChannelSession) (t : ChannelTable) (channelID : Bytes) :
    ChannelTable :=
  match t.sessions.get channelID with
  | none => t
  | some s => { t with sessions := t.sessions.erase channelID, left := t.left ++ [f s] }

/-- A session that was there under the same id is dropped as it is. -/
def register (t : ChannelTable) (channelID : Bytes) (s : ChannelSession) : ChannelTable :=
  let t := t.delete (fun s => s) channelID
  { t with sessions := t.sessions.insert channelID s }

def remove (t : ChannelTable) (channelID : Bytes) : ChannelTable :=
  let t := t.delete (fun s => s) channelID
  { t with pending := t.pending.eraseP fun p => p.channelID = channelID }

def pushPending (t : ChannelTable) (channelID : Bytes) (now : Int) : ChannelTable :=
  let t :=
    if t.pending.length ≥ maxPendingChannels then
      match t.pending with
      | [] => t
      | stale :: rest => { t with pending := rest }.delete .close stale.channelID
    else t
  { t with pending := t.pending ++ [⟨channelID, now⟩] }

def popPending (t : ChannelTable) : Option Bytes × ChannelTable :=
  match t.pending with
  | [] => (none, t)
  | p :: rest => (some p.channelID, { t with pending := rest })

def evict (t : ChannelTable) (channelID : Bytes) : ChannelTable :=
  t.delete (·.close.closeCancel) channelID

def isStale (now : Int) (p : PendingChannel) : Bool := now - p.addedAt > channelPendingTimeout

def isIdle (now : Int) (s : ChannelSession) : Bool := s.idleFor now > channelIdleTimeout

/-- First the entries that nobody claimed in time, then the sessions that nobody used. -/
def reap (t : ChannelTable) (now : Int) : ChannelTable :=
  let claimed := (t.pending.filter (isStale now)).foldl (fun t p => t.evict p.channelID) t
  let t := { claimed with pending := t.pending.filter fun p => !isStale now p }
  (t.sessions.entries.filter fun e => isIdle now e.2).foldl (fun t e => t.evict e.1) t

def dispatchChannelClose (t : ChannelTable) (channelID : Bytes) : ChannelTable :=
  match t.sessions.get channelID with
  | none => t
  | some s =>
    { t with sessions := t.sessions.insert channelID s.close.closeCancel }.remove channelID

def touch (t : ChannelTable) (channelID : Bytes) (now : Int) : ChannelTable :=
  match t.sessions.get channelID with
  | none => t
  | some s => { t with sessions := t.sessions.insert channelID (s.touch now) }

end ChannelTable

inductive ChannelOp
  | register (channelID : Bytes) (now : Int)
  | pushPending (channelID : Bytes) (now : Int)
  | popPending
  | remove (channelID : Bytes)
  | reap (now : Int)
  | close (channelID : Bytes)
  | touch (channelID : Bytes) (now : Int)

def ChannelTable.step (t : ChannelTable) : ChannelOp → ChannelTable
  | .register channelID now => t.register channelID (.new now)
  | .pushPending channelID now => t.pushPending channelID now
  | .popPending => t.popPending.2
  | .remove channelID => t.remove channelID
  | .reap now => t.reap now
  | .close channelID => t.dispatchChannelClose channelID
  | .touch channelID now => t.touch channelID now

def channelsAfter (ops : List ChannelOp) : ChannelTable := ops.foldl .step .new

/-! ## What may not happen -/

inductive Pump
  | reads
  | upload

/-- `pumpChannelReads` waits for the stream, `pumpChannelUpload` for its ring and the context. -/
def Pump.ends : Pump → ChannelSession → Bool
  | .reads, s => s.streamClosed
  | .upload, s => s.cancelled

/-- Every entry of the queue has its session, and every session that is gone was let go. -/
structure NoLeak (t : ChannelTable) : Prop where
  pending : ∀ p ∈ t.pending, t.sessions.get p.channelID ≠ none
  left : ∀ s ∈ t.left, ∀ pump : Pump, pump.ends s = true

/-- The operations that leak nothing: a channel is announced while its session is there and the
queue has room, no session is removed that is still there, and no session is given up as idle whose
entry in the queue is kept. -/
def Clean (t : ChannelTable) : ChannelOp → Prop
  | .pushPending channelID _ =>
    t.sessions.get channelID ≠ none ∧ t.pending.length < maxPendingChannels
  | .remove channelID => t.sessions.get channelID = none
  | .reap now => ∀ p ∈ t.pending, ChannelTable.isStale now p = false →
      ∀ s, t.sessions.get p.channelID = some s → ChannelTable.isIdle now s = false
  | _ => True

def ChannelOp.registered : ChannelOp → Option Bytes
  | .register channelID _ => some channelID
  | _ => none

def ChannelOp.pushed : ChannelOp → Option Bytes
  | .pushPending channelID _ => some channelID
  | _ => none

/-- Every id is registered once at most, and announced once at most. -/
structure FreshIDs (ops : List ChannelOp) : Prop where
  registered : (ops.filterMap ChannelOp.registered).Nodup
  pushed : (ops.filterMap ChannelOp.pushed).Nodup

/-! ## Deleting -/

namespace ChannelTable

variable {t : ChannelTable} {f : ChannelSession → ChannelSession}

theorem pending_delete (t : ChannelTable) (id : Bytes) : (t.delete f id).pending = t.pending := by
  unfold delete
  split <;> rfl

theorem get_delete (t : ChannelTable) (id k : Bytes) :
    (t.delete f id).sessions.get k = if k = id then none else t.sessions.get k := by
  unfold delete
  split
  · rename_i hnone
    split_ifs with hk
    · rw [hk, hnone]
    · rfl
  · dsimp only
    rw [OrdMap.get_erase]
    split_ifs <;> rfl

theorem left_delete (t : ChannelTable) (id : Bytes) :
    (t.delete f id).left = t.left ++ ((t.sessions.get id).map f).toList := by
  unfold delete
  split <;> rename_i h <;> simp [h]

theorem delete_of_none {id : Bytes} (h : t.sessions.get id = none) : t.delete f id = t := by
  simp only [delete, h]

section EvictAll

variable {α : Type} (id : α → Bytes)

theorem pending_evictAll (l : List α) (t : ChannelTable) :
    (l.foldl (fun t a => t.evict (id a)) t).pending = t.pending := by
  induction l generalizing t with
  | nil => rfl
  | cons a l ih => rw [List.foldl_cons, ih, evict, pending_delete]

theorem get_evictAll (l : List α) (t : ChannelTable) (k : Bytes) :
    (l.foldl (fun t a => t.evict (id a)) t).sessions.get k =
      if k ∈ l.map id then none else t.sessions.get k := by
  induction l generalizing t with
  | nil => simp
  | cons a l ih =>
    rw [List.foldl_cons, ih, evict, get_delete, List.map_cons]
    by_cases hmem : k ∈ l.map id <;> by_cases ha : k = id a <;> simp [hmem, ha]

theorem left_evictAll (l : List α) (t : ChannelTable) {s : ChannelSession}
    (h : s ∈ (l.foldl (fun t a => t.evict (id a)) t).left) :
    s ∈ t.left ∨ ∀ pump : Pump, pump.ends s = true := by
  induction l generalizing t with
  | nil => exact .inl h
  | cons a l ih =>
    rcases ih _ h with hleft | hends
    · simp only [evict, left_delete, List.mem_append, Option.mem_toList,
        Option.map_eq_some_iff] at hleft
      rcases hleft with hleft | ⟨s₀, -, rfl⟩
      · exact .inl hleft
      · exact .inr fun pump => by cases pump <;> rfl
    · exact .inr hends

end EvictAll

/-! ## Reaping -/

theorem pending_reap (t : ChannelTable) (now : Int) :
    (t.reap now).pending = t.pending.filter fun p => !isStale now p := pending_evictAll _ _ _

theorem get_reap (t : ChannelTable) (now : Int) (k : Bytes) :
    (t.reap now).sessions.get k =
      if k ∈ (t.pending.filter (isStale now)).map (·.channelID) then none
      else (t.sessions.get k).filter fun s => !isIdle now s := by
  unfold reap
  dsimp only
  generalize hclaimed : (t.pending.filter (isStale now)).foldl
    (fun t p => t.evict p.channelID) t = claimed
  have hget := get_evictAll PendingChannel.channelID (t.pending.filter (isStale now)) t k
  rw [hclaimed] at hget
  have hidle : k ∈ (claimed.sessions.entries.filter fun e => isIdle now e.2).map Prod.fst ↔
      ∃ s, claimed.sessions.get k = some s ∧ isIdle now s = true := by
    simp only [List.mem_map, List.mem_filter, Prod.exists, exists_and_right, exists_eq_right,
      OrdMap.get_eq_some]
  rw [get_evictAll Prod.fst]
  simp only [hidle, hget]
  by_cases hstale : k ∈ (t.pending.filter (isStale now)).map (·.channelID)
  · simp only [if_pos hstale, ite_self]
  · simp only [if_neg hstale]
    rcases t.sessions.get k with _ | s
    · simp
    · cases h : isIdle now s <;> simp [h, Option.filter]

theorem left_reap {now : Int} {s : ChannelSession} (h : s ∈ (t.reap now).left) :
    s ∈ t.left ∨ ∀ pump : Pump, pump.ends s = true := by
  rcases left_evictAll _ _ _ h with hleft | hends
  · exact left_evictAll PendingChannel.channelID _ t hleft
  · exact .inr hends

/-! ## One operation -/

theorem pushPending_of_full (hfull : t.pending.length ≥ maxPendingChannels) {stale : PendingChannel}
    {rest : List PendingChannel} (hp : t.pending = stale :: rest) (id : Bytes) (now : Int) :
    t.pushPending id now =
      delete .close { t with pending := rest ++ [⟨id, now⟩] } stale.channelID := by
  simp only [pushPending, if_pos hfull]
  simp only [hp, delete]
  split <;> rfl

/-- A session in the table was registered just now, or was there before and neither closed nor
cancelled since. -/
theorem step_sessions {op : ChannelOp} {k : Bytes} {s : ChannelSession}
    (h : (t.step op).sessions.get k = some s) :
    op = .register k s.lastActivity ∧ s.streamClosed = false ∧ s.cancelled = false ∨
      ∃ s₀, t.sessions.get k = some s₀ ∧ s.streamClosed = s₀.streamClosed ∧
        s.cancelled = s₀.cancelled ∧
        (s.lastActivity = s₀.lastActivity ∨ op = .touch k s.lastActivity) := by
  have hkept : t.sessions.get k = some s → ∃ s₀, t.sessions.get k = some s₀ ∧
      s.streamClosed = s₀.streamClosed ∧ s.cancelled = s₀.cancelled ∧
        (s.lastActivity = s₀.lastActivity ∨ op = .touch k s.lastActivity) :=
    fun h => ⟨s, h, rfl, rfl, .inl rfl⟩
  cases op with
  | register id now =>
    simp only [step, register, OrdMap.get_insert, get_delete] at h
    split_ifs at h with hk
    · cases h
      exact .inl ⟨hk ▸ rfl, rfl, rfl⟩
    · exact .inr (hkept h)
  | pushPending id now =>
    refine .inr (hkept ?_)
    simp only [step, pushPending] at h
    split_ifs at h
    · split at h
      · exact h
      · rw [get_delete] at h
        split_ifs at h
        exact h
    · exact h
  | popPending =>
    refine .inr (hkept ?_)
    simp only [step, popPending] at h
    split at h <;> exact h
  | remove id =>
    simp only [step, remove, get_delete] at h
    split_ifs at h
    exact .inr (hkept h)
  | reap now =>
    rw [step, get_reap] at h
    split_ifs at h
    exact .inr (hkept (Option.filter_eq_some_iff.mp h).1)
  | close id =>
    simp only [step, dispatchChannelClose] at h
    split at h
    · exact .inr (hkept h)
    · simp only [remove, get_delete, OrdMap.get_insert] at h
      split_ifs at h
      exact .inr (hkept h)
  | touch id now =>
    simp only [step, touch] at h
    split at h
    · exact .inr (hkept h)
    · rename_i s₀ hget
      simp only [OrdMap.get_insert] at h
      split_ifs at h with hk
      · cases h
        exact .inr ⟨s₀, hk ▸ hget, rfl, rfl, .inr (hk ▸ rfl)⟩
      · exact .inr (hkept h)

theorem step_pending_sublist {op : ChannelOp} (hop : op.pushed = none) :
    (t.step op).pending.Sublist t.pending := by
  cases op with
  | register id now => exact (pending_delete t id).symm ▸ .refl _
  | pushPending id now => cases hop
  | popPending =>
    simp only [step, popPending]
    split
    · exact .refl _
    · rename_i hp
      rw [hp]
      exact List.sublist_cons_self ..
  | remove id =>
    simp only [step, remove, pending_delete]
    exact List.eraseP_sublist
  | reap now =>
    rw [step, pending_reap]
    exact List.filter_sublist
  | close id =>
    simp only [step, dispatchChannelClose]
    split
    · exact .refl _
    · simp only [remove, pending_delete]
      exact List.eraseP_sublist
  | touch id now =>
    simp only [step, touch]
    split <;> exact .refl _

theorem pending_pushPending (t : ChannelTable) (id : Bytes) (now : Int) :
    ∃ l, l.Sublist t.pending ∧ (t.pushPending id now).pending = l ++ [⟨id, now⟩] := by
  unfold pushPending
  dsimp only
  split_ifs
  · split
    · exact ⟨_, .refl _, rfl⟩
    · rename_i hp
      refine ⟨_, ?_, rfl⟩
      rw [pending_delete, hp]
      exact List.sublist_cons_self ..
  · exact ⟨_, .refl _, rfl⟩

theorem step_pending (t : ChannelTable) (op : ChannelOp) :
    ((t.step op).pending.map (·.channelID)).Sublist
      (t.pending.map (·.channelID) ++ op.pushed.toList) := by
  by_cases hop : op.pushed = none
  · rw [hop, Option.toList_none, List.append_nil]
    exact (step_pending_sublist hop).map _
  · cases op with
    | pushPending id now =>
      obtain ⟨l, hl, hpending⟩ := t.pending_pushPending id now
      rw [step, hpending, List.map_append]
      exact (hl.map _).append (.refl _)
    | _ => exact absurd rfl hop

theorem length_pushPending_le (h : t.pending.length ≤ maxPendingChannels) (id : Bytes) (now : Int) :
    (t.pushPending id now).pending.length ≤ maxPendingChannels := by
  have hmax : 0 < maxPendingChannels := by decide
  simp only [pushPending, List.length_append, List.length_singleton]
  split_ifs with hfull
  · split
    · rename_i hp
      rw [hp, List.length_nil] at hfull ⊢
      omega
    · rename_i hp
      rw [hp, List.length_cons] at h
      rw [pending_delete]
      exact h
  · omega

theorem length_pending_step_le (h : t.pending.length ≤ maxPendingChannels) (op : ChannelOp) :
    (t.step op).pending.length ≤ maxPendingChannels := by
  by_cases hop : op.pushed = none
  · exact (step_pending_sublist hop).length_le.trans h
  · cases op with
    | pushPending id now => exact length_pushPending_le h id now
    | _ => exact absurd rfl hop

end ChannelTable

/-! ## Leaks -/

/-- What holds in every run with fresh ids, of the operations `ops` so far. -/
structure TableInv (ops : List ChannelOp) (t : ChannelTable) : Prop where
  known : ∀ k, t.sessions.get k ≠ none → k ∈ ops.filterMap ChannelOp.registered
  alive : ∀ k s, t.sessions.get k = some s → s.streamClosed = false ∧ s.cancelled = false
  announced : (t.pending.map (·.channelID)).Sublist (ops.filterMap ChannelOp.pushed)
  bounded : t.pending.length ≤ maxPendingChannels

theorem TableInv.step {ops : List ChannelOp} {t : ChannelTable} (h : TableInv ops t)
    (op : ChannelOp) :
    TableInv (ops ++ [op]) (t.step op) where
  known k hk := by
    obtain ⟨s, hs⟩ := Option.ne_none_iff_exists'.mp hk
    rw [List.filterMap_append, List.mem_append]
    rcases ChannelTable.step_sessions hs with ⟨hnew, -⟩ | ⟨s₀, hs₀, -⟩
    · exact .inr (List.mem_filterMap.mpr ⟨op, List.mem_singleton_self op, hnew ▸ rfl⟩)
    · exact .inl (h.known k (by rw [hs₀]; exact Option.some_ne_none s₀))
  alive k s hs := by
    rcases ChannelTable.step_sessions hs with ⟨-, hnew⟩ | ⟨s₀, hs₀, hclosed, hcancelled, -⟩
    · exact hnew
    · rw [hclosed, hcancelled]
      exact h.alive k s₀ hs₀
  announced := by
    refine (ChannelTable.step_pending t op).trans ?_
    rw [List.filterMap_append]
    refine h.announced.append ?_
    cases hop : op.pushed <;> simp [hop]
  bounded := ChannelTable.length_pending_step_le h.bounded op

section Leaks

variable {t : ChannelTable}

theorem noLeak_pushPending_iff (hleak : NoLeak t)
    (halive : ∀ k s, t.sessions.get k = some s → s.streamClosed = false ∧ s.cancelled = false)
    (id : Bytes) (now : Int) :
    NoLeak (t.pushPending id now) ↔
      t.sessions.get id ≠ none ∧ t.pending.length < maxPendingChannels := by
  by_cases hroom : t.pending.length < maxPendingChannels
  · have hpush : t.pushPending id now = { t with pending := t.pending ++ [⟨id, now⟩] } := by
      simp only [ChannelTable.pushPending, if_neg hroom.not_ge]
    rw [hpush, and_iff_left hroom]
    constructor
    · intro h
      exact h.pending ⟨id, now⟩ (List.mem_append_right _ (List.mem_singleton_self _))
    · intro hid
      refine ⟨fun p hp => ?_, hleak.left⟩
      rcases List.mem_append.mp hp with hp | hp
      · exact hleak.pending p hp
      · rw [List.mem_singleton.mp hp]
        exact hid
  · -- the oldest entry goes, and its session with an open context
    refine iff_of_false (fun h => ?_) fun h => hroom h.2
    rcases hp : t.pending with _ | ⟨stale, rest⟩
    · rw [hp] at hroom
      exact hroom (by decide)
    obtain ⟨s, hs⟩ :=
      Option.ne_none_iff_exists'.mp (hleak.pending stale (by rw [hp]; exact List.mem_cons_self))
    have hleft : s.close ∈ (t.pushPending id now).left := by
      rw [ChannelTable.pushPending_of_full (not_lt.mp hroom) hp, ChannelTable.left_delete, hs]
      simp
    have hends := h.left s.close hleft .upload
    have halive := (halive _ s hs).2
    exact Bool.false_ne_true (halive.symm.trans hends)

theorem noLeak_remove_iff (hleak : NoLeak t)
    (halive : ∀ k s, t.sessions.get k = some s → s.streamClosed = false ∧ s.cancelled = false)
    (id : Bytes) :
    NoLeak (t.remove id) ↔ t.sessions.get id = none := by
  constructor
  · intro h
    by_contra hid
    obtain ⟨s, hs⟩ := Option.ne_none_iff_exists'.mp hid
    have hleft : s ∈ (t.remove id).left := by
      simp [ChannelTable.remove, ChannelTable.left_delete, hs]
    exact Bool.false_ne_true ((halive id s hs).1.symm.trans (h.left s hleft .reads))
  · intro hid
    rw [ChannelTable.remove, ChannelTable.delete_of_none hid]
    exact ⟨fun p hp => hleak.pending p (List.mem_of_mem_eraseP hp), hleak.left⟩

theorem noLeak_reap_iff (hleak : NoLeak t) (hnodup : (t.pending.map (·.channelID)).Nodup)
    (now : Int) :
    NoLeak (t.reap now) ↔ Clean t (.reap now) := by
  -- an entry that stays is not one of those that go
  have hkept : ∀ p ∈ t.pending, ChannelTable.isStale now p = false →
      (t.reap now).sessions.get p.channelID =
        (t.sessions.get p.channelID).filter fun s => !ChannelTable.isIdle now s := by
    intro p hp hfresh
    rw [ChannelTable.get_reap, if_neg]
    intro hstale
    obtain ⟨p', hp', hid⟩ := List.mem_map.mp hstale
    obtain ⟨hmem, hold⟩ := List.mem_filter.mp hp'
    rw [List.inj_on_of_nodup_map hnodup hmem hp hid, hfresh] at hold
    exact Bool.false_ne_true hold
  constructor
  · intro h p hp hfresh s hs
    have hmem : p ∈ (t.reap now).pending := by
      rw [ChannelTable.pending_reap]
      exact List.mem_filter.mpr ⟨hp, by rw [hfresh]; rfl⟩
    have hget := h.pending p hmem
    rw [hkept p hp hfresh, hs] at hget
    by_contra hidle
    rw [Bool.not_eq_false] at hidle
    exact hget (by simp [Option.filter, hidle])
  · intro h
    refine ⟨fun p hp => ?_, fun s hs => ?_⟩
    · rw [ChannelTable.pending_reap] at hp
      obtain ⟨hp, hfresh⟩ := List.mem_filter.mp hp
      rw [Bool.not_eq_true'] at hfresh
      obtain ⟨s, hs⟩ := Option.ne_none_iff_exists'.mp (hleak.pending p hp)
      rw [hkept p hp hfresh, hs]
      simp [Option.filter, h p hp hfresh s hs]
    · rcases ChannelTable.left_reap hs with hleft | hends
      · exact hleak.left s hleft
      · exact hends

theorem noLeak_close (hleak : NoLeak t) (hnodup : (t.pending.map (·.channelID)).Nodup)
    (id : Bytes) :
    NoLeak (t.dispatchChannelClose id) := by
  unfold ChannelTable.dispatchChannelClose
  split
  · exact hleak
  rename_i s hs
  refine ⟨fun p hp => ?_, fun s' hs' => ?_⟩
  · simp only [ChannelTable.remove, ChannelTable.pending_delete] at hp
    have hne : p.channelID ≠ id := by
      have hmem := List.mem_map_of_mem (f := PendingChannel.channelID) hp
      have herase : (t.pending.eraseP fun p => p.channelID = id).map (·.channelID) =
          (t.pending.map (·.channelID)).erase id := by
        rw [List.erase_eq_eraseP, List.eraseP_map]
        congr 2
        funext p
        rw [Bool.eq_iff_iff, Function.comp_apply, beq_iff_eq, decide_eq_true_iff]
        exact eq_comm
      rw [herase] at hmem
      exact (hnodup.mem_erase_iff.mp hmem).1
    simp only [ChannelTable.remove, ChannelTable.get_delete, if_neg hne, OrdMap.get_insert]
    exact hleak.pending p (List.mem_of_mem_eraseP hp)
  · simp only [ChannelTable.remove, ChannelTable.left_delete, OrdMap.get_insert_self,
      Option.map_some, Option.toList_some, List.mem_append, List.mem_singleton] at hs'
    rcases hs' with hleft | rfl
    · exact hleak.left s' hleft
    · intro pump
      cases pump <;> rfl

theorem noLeak_step_iff {ops : List ChannelOp} {op : ChannelOp} (hinv : TableInv ops t)
    (hfresh : FreshIDs (ops ++ [op])) (hleak : NoLeak t) : NoLeak (t.step op) ↔ Clean t op := by
  have hnodup : (t.pending.map (·.channelID)).Nodup := by
    refine hinv.announced.nodup ?_
    have h := hfresh.pushed
    rw [List.filterMap_append] at h
    exact h.of_append_left
  cases op with
  | register id now =>
    have hid : t.sessions.get id = none := by
      by_contra hid
      have h := hfresh.registered
      rw [List.filterMap_append, List.nodup_append] at h
      exact h.2.2 id (hinv.known id hid) id (by simp [ChannelOp.registered]) rfl
    refine iff_of_true ?_ trivial
    rw [ChannelTable.step, ChannelTable.register, ChannelTable.delete_of_none hid]
    refine ⟨fun p hp => ?_, hleak.left⟩
    dsimp only
    rw [OrdMap.get_insert]
    split_ifs
    · exact Option.some_ne_none _
    · exact hleak.pending p hp
  | pushPending id now => exact noLeak_pushPending_iff hleak hinv.alive id now
  | popPending =>
    refine iff_of_true ?_ trivial
    simp only [ChannelTable.step, ChannelTable.popPending]
    split
    · exact hleak
    · rename_i hp
      exact ⟨fun p hmem => hleak.pending p (by rw [hp]; exact List.mem_cons_of_mem _ hmem),
        hleak.left⟩
  | remove id => exact noLeak_remove_iff hleak hinv.alive id
  | reap now => exact noLeak_reap_iff hleak hnodup now
  | close id => exact iff_of_true (noLeak_close hleak hnodup id) trivial
  | touch id now =>
    refine iff_of_true ?_ trivial
    simp only [ChannelTable.step, ChannelTable.touch]
    split
    · exact hleak
    · refine ⟨fun p hp => ?_, hleak.left⟩
      dsimp only
      rw [OrdMap.get_insert]
      split_ifs
      · exact Option.some_ne_none _
      · exact hleak.pending p hp

end Leaks

/-! ## Runs -/

theorem FreshIDs.take {ops : List ChannelOp} (h : FreshIDs ops) (i : Nat) : FreshIDs (ops.take i) :=
  ⟨h.registered.sublist ((List.take_sublist i ops).filterMap _),
    h.pushed.sublist ((List.take_sublist i ops).filterMap _)⟩

theorem channelsAfter_take_succ {ops : List ChannelOp} {i : Nat} (hi : i < ops.length) :
    channelsAfter (ops.take (i + 1)) = (channelsAfter (ops.take i)).step ops[i] :=
  List.foldl_take_succ _ _ hi

theorem tableInv_channelsAfter (ops : List ChannelOp) : TableInv ops (channelsAfter ops) := by
  induction ops using List.reverseRecOn with
  | nil => exact ⟨nofun, nofun, .refl _, Nat.zero_le _⟩
  | append_singleton ops op ih =>
    rw [channelsAfter, List.foldl_concat]
    exact ih.step op

/-- **Channel sessions.** In every run in which each id is registered and announced once at most,
the queue has no repetitions and does not exceed its maximum. Its entries have their sessions, and
the sessions that are gone have been let go, at every moment exactly if every operation is clean. -/
theorem leak_free_iff (ops : List ChannelOp) (h : FreshIDs ops) :
    (∀ i ≤ ops.length, ((channelsAfter (ops.take i)).pending.map (·.channelID)).Nodup ∧
      (channelsAfter (ops.take i)).pending.length ≤ maxPendingChannels) ∧
    ((∀ i, i < ops.length → NoLeak (channelsAfter (ops.take (i + 1)))) ↔
      ∀ i (hi : i < ops.length), Clean (channelsAfter (ops.take i)) ops[i]) := by
  have hinv := fun i => tableInv_channelsAfter (ops.take i)
  refine ⟨fun i _ => ⟨(hinv i).announced.nodup (h.take i).pushed, (hinv i).bounded⟩, ?_⟩
  have hstep : ∀ i (hi : i < ops.length), NoLeak (channelsAfter (ops.take i)) →
      (NoLeak (channelsAfter (ops.take (i + 1))) ↔ Clean (channelsAfter (ops.take i)) ops[i]) := by
    intro i hi hleak
    rw [channelsAfter_take_succ hi]
    refine noLeak_step_iff (hinv i) ?_ hleak
    rw [← List.take_succ_eq_append_getElem hi]
    exact h.take (i + 1)
  exact Nat.forall_lt_iff (I := fun i => NoLeak (channelsAfter (ops.take i))) ⟨nofun, nofun⟩ hstep
    fun i hi hleak hclean => (hstep i hi hleak).mpr hclean

def claimedRun : List ChannelOp :=
  [.register (ascii "a") 0, .pushPending (ascii "a") 0, .popPending, .touch (ascii "a") 1, .reap 2,
   .close (ascii "a")]

theorem leak_free_claimed :
    FreshIDs claimedRun ∧ ∀ i, i < 6 → NoLeak (channelsAfter (claimedRun.take (i + 1))) := by
  have hfresh : FreshIDs claimedRun := ⟨by decide, by decide⟩
  refine ⟨hfresh, (leak_free_iff claimedRun hfresh).2.mpr fun i hi => ?_⟩
  match i, hi with
  | 0, _ | 2, _ | 3, _ | 5, _ => exact trivial
  | 1, _ => exact ⟨by decide, by decide⟩
  | 4, _ =>
    intro p hp
    have hclaimed : (channelsAfter (claimedRun.take 4)).pending = [] := by decide
    exact absurd (hclaimed ▸ hp) List.not_mem_nil

def crowdedRun : List ChannelOp :=
  (List.range 65).flatMap fun i => [.register [UInt8.ofNat i] 0, .pushPending [UInt8.ofNat i] 0]

/-- A session that was idle for long when it was announced. -/
def idleRun : List ChannelOp :=
  [.register (ascii "a") 0, .pushPending (ascii "a") (4 * 60 * 10 ^ 9), .reap (5 * 60 * 10 ^ 9 + 1)]

/-- The first of 65 channels makes room with its context still open. Besides, `reap` leaves an entry
in the queue without its session, and `remove` a session as it is. -/
theorem eviction_leaks_context :
    FreshIDs crowdedRun ∧ (channelsAfter crowdedRun).left = [⟨0, true, false⟩] ∧
      ((channelsAfter idleRun).pending = [⟨ascii "a", 4 * 60 * 10 ^ 9⟩] ∧
        (channelsAfter idleRun).sessions.get (ascii "a") = none) ∧
      (channelsAfter [.register (ascii "a") 0, .remove (ascii "a")]).left = [⟨0, false, false⟩] :=
  ⟨⟨by decide +kernel, by decide +kernel⟩, by decide +kernel⟩

end KvRaft.Daemon
