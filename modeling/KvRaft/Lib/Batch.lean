import KvRaft.Lib.OrdMap

/-! # Write batches and their replay

A deterministic machine over an ordered map, each of whose commands decides on a batch of writes
from the state it meets and then performs it. Replaying a log over a state the log has already
produced is harmless as long as every decision comes
out as before. -/

inductive Write (κ : Type*) (ν : Type*)
  | set (k : κ) (v : ν)
  | del (k : κ)
deriving DecidableEq, Repr

namespace Write

variable {κ : Type*} {ν : Type*} [LinearOrder κ]

def run (m : OrdMap κ ν) : Write κ ν → OrdMap κ ν
  | set k v => m.insert k v
  | del k => m.erase k

def key : Write κ ν → κ
  | set k _ => k
  | del k => k

def value : Write κ ν → Option ν
  | set _ v => some v
  | del _ => none

theorem get_run (m : OrdMap κ ν) (w : Write κ ν) (k : κ) :
    (w.run m).get k = if k = w.key then w.value else m.get k := by
  cases w with
  | set k' v => exact OrdMap.get_insert m k' k v
  | del k' => exact OrdMap.get_erase m k' k

/-- A batch, left to right. -/
def perform (m : OrdMap κ ν) (ws : List (Write κ ν)) : OrdMap κ ν :=
  ws.foldl run m

@[simp] theorem perform_nil (m : OrdMap κ ν) : perform m [] = m := rfl

@[simp] theorem perform_cons (m : OrdMap κ ν) (w : Write κ ν) (ws : List (Write κ ν)) :
    perform m (w :: ws) = perform (w.run m) ws := rfl

theorem perform_append (m : OrdMap κ ν) (ws ws' : List (Write κ ν)) :
    perform m (ws ++ ws') = perform (perform m ws) ws' := List.foldl_append ..

def lastAt : List (Write κ ν) → κ → Option (Write κ ν)
  | [], _ => none
  | w :: ws, k => (lastAt ws k).or (if k = w.key then some w else none)

theorem get_perform (ws : List (Write κ ν)) (m : OrdMap κ ν) (k : κ) :
    (perform m ws).get k = (lastAt ws k).elim (m.get k) value := by
  induction ws generalizing m with
  | nil => rfl
  | cons w ws ih =>
    rw [perform_cons, ih, get_run, lastAt]
    cases lastAt ws k with
    | some w' => rfl
    | none => split_ifs <;> rfl

variable {k : κ} {ws : List (Write κ ν)}

theorem mem_of_lastAt {w : Write κ ν} (h : lastAt ws k = some w) :
    w ∈ ws ∧ w.key = k := by
  induction ws with
  | nil => cases h
  | cons w' ws ih =>
    rw [lastAt] at h
    cases hl : lastAt ws k with
    | some w'' =>
      rw [hl] at h ih
      exact ⟨List.mem_cons_of_mem _ (ih h).1, (ih h).2⟩
    | none =>
      rw [hl, Option.none_or] at h
      split_ifs at h with hk
      cases h
      exact ⟨List.mem_cons_self, hk.symm⟩

theorem not_mem_of_lastAt (h : lastAt ws k = none) (w : Write κ ν)
    (hw : w.key = k) : w ∉ ws := by
  induction ws with
  | nil => simp
  | cons w' ws ih =>
    rw [lastAt, Option.or_eq_none_iff] at h
    obtain ⟨hrest, hhead⟩ := h
    rw [List.mem_cons, not_or]
    refine ⟨?_, ih hrest⟩
    rintro rfl
    simp [hw] at hhead

theorem get_perform_of_not_set {m : OrdMap κ ν} {v : ν}
    (h : (perform m ws).get k = some v) (hnot : .set k v ∉ ws) : m.get k = some v := by
  rw [get_perform] at h
  rcases hl : lastAt ws k with _ | w
  · rwa [hl, Option.elim_none] at h
  · obtain ⟨hmem, rfl⟩ := mem_of_lastAt hl
    rw [hl, Option.elim_some] at h
    cases w with
    | set k v' =>
      cases h
      exact absurd hmem hnot
    | del k => cases h

theorem set_mem_of_get_perform {m : OrdMap κ ν} {v : ν}
    (hm : m.get k = none) (h : (perform m ws).get k = some v) : .set k v ∈ ws := by
  by_contra hnot
  rw [get_perform_of_not_set h hnot] at hm
  cases hm

theorem perform_perform (m : OrdMap κ ν) (ws : List (Write κ ν)) :
    perform (perform m ws) ws = perform m ws :=
  OrdMap.ext_get fun k => by
    rw [get_perform ws (perform m ws), get_perform]
    cases lastAt ws k <;> rfl

theorem get_perform_of_not_written (m : OrdMap κ ν)
    (h : ∀ w ∈ ws, k ≠ w.key) : (perform m ws).get k = m.get k := by
  induction ws generalizing m with
  | nil => rfl
  | cons w ws ih =>
    rw [perform_cons, ih _ fun w' hw' => h w' (List.mem_cons_of_mem _ hw'), get_run,
      if_neg (h w List.mem_cons_self)]

theorem get_perform_del (m : OrdMap κ ν) (ks : List κ) (k : κ) [Decidable (k ∈ ks)] :
    (perform m (ks.map del)).get k = if k ∈ ks then none else m.get k := by
  split_ifs with hk
  · rw [get_perform]
    rcases hl : lastAt (ks.map (del : κ → Write κ ν)) k with _ | w
    · exact absurd (List.mem_map_of_mem hk) (not_mem_of_lastAt hl _ rfl)
    · obtain ⟨hw, -⟩ := mem_of_lastAt hl
      obtain ⟨k', -, rfl⟩ := List.mem_map.mp hw
      rfl
  · refine get_perform_of_not_written m fun w hw => ?_
    obtain ⟨k', hk', rfl⟩ := List.mem_map.mp hw
    exact fun h => hk (h ▸ hk')

theorem length_scan_perform {p : κ → Bool} (m : OrdMap κ ν)
    (h : ∀ k v, set k v ∈ ws → p k = false) :
    ((perform m ws).scan p).length ≤ (m.scan p).length := by
  induction ws generalizing m with
  | nil => exact le_rfl
  | cons w ws ih =>
    have hrest := ih (w.run m) fun k v hm => h k v (List.mem_cons_of_mem _ hm)
    refine hrest.trans ?_
    cases w with
    | set k v =>
      have hk := h k v List.mem_cons_self
      rw [run, OrdMap.length_scan_insert, if_neg (by simp [hk]), Nat.add_zero]
    | del k => exact OrdMap.length_scan_erase m k p

end Write

/-! ## Machines that decide, then write -/

/-- `decide` reads the state and names the writes that a command performs on it. -/
structure Machine (κ : Type*) (ν : Type*) (ε : Type*) [LinearOrder κ] where
  plan : OrdMap κ ν → ε → List (Write κ ν)

namespace Machine

variable {κ : Type*} {ν : Type*} {ε : Type*} [LinearOrder κ] (M : Machine κ ν ε)

def step (m : OrdMap κ ν) (e : ε) : OrdMap κ ν := Write.perform m (M.plan m e)

def run (m : OrdMap κ ν) (es : List ε) : OrdMap κ ν := es.foldl M.step m

/-- The two runs over `es`, from `m` and from `m'`, decide alike at every command. -/
def Agree : OrdMap κ ν → OrdMap κ ν → List ε → Prop
  | _, _, [] => True
  | m, m', e :: es => M.plan m e = M.plan m' e ∧ Agree (M.step m e) (M.step m' e) es

def writes : OrdMap κ ν → List ε → List (Write κ ν)
  | _, [] => []
  | m, e :: es => M.plan m e ++ writes (M.step m e) es

theorem run_eq_perform (es : List ε) (m : OrdMap κ ν) :
    M.run m es = Write.perform m (M.writes m es) := by
  induction es generalizing m with
  | nil => rfl
  | cons e es ih => rw [writes, Write.perform_append]; exact ih (M.step m e)

theorem writes_eq_of_agree {es : List ε} {m m' : OrdMap κ ν} (h : M.Agree m m' es) :
    M.writes m es = M.writes m' es := by
  induction es generalizing m m' with
  | nil => rfl
  | cons e es ih => rw [writes, writes, h.1, ih h.2]

/-- **Replay.** Running `es` again over its own result changes nothing, if every command decides as
it did the first time. -/
theorem run_replay {es : List ε} {m : OrdMap κ ν} (h : M.Agree m (M.run m es) es) :
    M.run (M.run m es) es = M.run m es := by
  rw [M.run_eq_perform es (M.run m es), ← M.writes_eq_of_agree h, M.run_eq_perform es m,
    Write.perform_perform]

end Machine
