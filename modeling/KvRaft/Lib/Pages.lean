import KvRaft.Lib.OrdMap

/-! # Reading an ordered map one entry at a time

A reader asks for the first entry from some key on, looks at it, and asks again from right behind
it. It may stop at any entry. Whatever a range is and however the key behind a key is written, the
reader sees the entries of the
range in order. -/

/-- A fold whose step says whether it was the last one. -/
def List.foldUntil {α β : Type*} (f : β → α → β × Bool) : β → List α → β
  | b, [] => b
  | b, a :: l => if (f b a).2 then (f b a).1 else foldUntil f (f b a).1 l

theorem List.foldUntil_append {α : Type*} (l acc : List α) :
    l.foldUntil (fun acc a => (acc ++ [a], false)) acc = acc ++ l := by
  induction l generalizing acc with
  | nil => exact (append_nil acc).symm
  | cons a l ih =>
    rw [foldUntil, if_neg Bool.false_ne_true, ih, append_assoc, singleton_append]

theorem List.foldUntil_collect {α : Type*} {n : Nat} (l : List α) {acc : List α}
    (hacc : acc.length < n) :
    l.foldUntil (fun acc a => (acc ++ [a], decide (n ≤ (acc ++ [a]).length))) acc =
      acc ++ l.take (n - acc.length) := by
  induction l generalizing acc with
  | nil => rw [take_nil, append_nil, foldUntil]
  | cons a l ih =>
    obtain ⟨m, hm⟩ := Nat.exists_eq_add_of_lt hacc
    have htake : (a :: l).take (n - acc.length) = a :: l.take m := by
      rw [show n - acc.length = m + 1 by omega, take_succ_cons]
    have hlen : (acc ++ [a]).length = acc.length + 1 := by simp
    rw [foldUntil, htake]
    simp only [decide_eq_true_eq]
    split_ifs with hstop
    · rw [show m = 0 by omega, take_zero]
    · rw [ih (not_le.mp hstop), append_assoc, singleton_append,
        show n - (acc ++ [a]).length = m by omega]

/-- One step of a fold that ends with the first error. -/
def Except.stepUntil {ε α β : Type*} (f : β → α → Except ε β) (acc : Except ε β) (a : α) :
    Except ε β × Bool :=
  let acc := acc.bind fun b => f b a
  (acc, !acc.isOk)

theorem List.foldUntil_except {ε α β : Type*} (f : β → α → Except ε β) (l : List α) (b : β) :
    l.foldUntil (Except.stepUntil f) (.ok b) = l.foldlM f b := by
  induction l generalizing b with
  | nil => rfl
  | cons a l ih =>
    rw [foldUntil, foldlM_cons]
    change (if (!(f b a).isOk) = true then f b a else l.foldUntil (Except.stepUntil f) (f b a)) = _
    cases f b a with
    | error e => rfl
    | ok b' => exact ih b'

namespace OrdMap

variable {κ ν β : Type*}

/-- The loop of the reader: `next lo` is the first entry from `lo` on, `succ k` the key behind `k`.
Every round sees another entry, so `fuel` only has to exceed their number. -/
def pages (next : κ → Option (κ × ν)) (succ : κ → κ) (f : β → κ × ν → β × Bool) : Nat → κ → β → β
  | 0, _, b => b
  | fuel + 1, lo, b =>
    match next lo with
    | none => b
    | some e => if (f b e).2 then (f b e).1 else pages next succ f fuel (succ e.1) (f b e).1

variable [LinearOrder κ]

/-- `inRange lo` selects the keys from `lo` on; `Asks` is what holds of every key the
reader asks from. -/
theorem pages_eq {m : OrdMap κ ν} {inRange : κ → κ → Bool} {next : κ → Option (κ × ν)}
    {succ : κ → κ} {Asks : κ → Prop} (hnext : ∀ lo, Asks lo → next lo = (m.scan (inRange lo)).head?)
    (hasks : ∀ k, Asks (succ k))
    (hsucc : ∀ lo k, inRange lo k = true →
      ∀ x, inRange (succ k) x = true ↔ inRange lo x = true ∧ k < x)
    (f : β → κ × ν → β × Bool) {fuel : Nat} {lo : κ} (b : β) (hlo : Asks lo)
    (hfuel : (m.scan (inRange lo)).length < fuel) :
    pages next succ f fuel lo b = (m.scan (inRange lo)).foldUntil f b := by
  induction fuel generalizing lo b with
  | zero => exact absurd hfuel (Nat.not_lt_zero _)
  | succ fuel ih =>
    rw [pages, hnext lo hlo]
    rcases hscan : m.scan (inRange lo) with _ | ⟨⟨k, v⟩, rest⟩
    · rfl
    have hk : inRange lo k = true := (mem_scan.mp (hscan ▸ List.mem_cons_self ..)).1
    have hrest : m.scan (inRange (succ k)) = rest := scan_tail hscan (hsucc lo k hk)
    rw [List.head?_cons, List.foldUntil]
    dsimp only
    split_ifs with hstop
    · rfl
    · rw [← hrest]
      refine ih _ (hasks k) ?_
      rw [hrest]
      rw [hscan, List.length_cons] at hfuel
      omega

end OrdMap
