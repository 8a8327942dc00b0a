import Mathlib.Data.Finset.Card
import Mathlib.Data.List.GetD
import Mathlib.Data.List.Sort
import Mathlib.Tactic

/-! # Majorities

Two majorities of one finite set have a common member, and so do majorities of two sets that differ
in at most one element (`Majority.meet`, `Majority.meet_adjacent`). The lower middle of a list of
numbers is the largest number that a majority of the list reaches (`le_lowerMiddle_iff`). -/

variable {α : Type*}

/-- More than half of the elements of `s` are in `Q`. -/
def Majority (s : Finset α) (Q : Set α) : Prop := ∃ q ⊆ s, s.card < 2 * q.card ∧ ↑q ⊆ Q

/-- Apart from one element at most, the two sets are the same. -/
def Adjacent (s s' : Finset α) : Prop := ∃ a, ∀ b, b ≠ a → (b ∈ s ↔ b ∈ s')

section
variable [DecidableEq α]

theorem Adjacent.card_union_le {s s' : Finset α} (h : Adjacent s s') :
    2 * (s ∪ s').card ≤ s.card + s'.card + 1 := by
  obtain ⟨a, ha⟩ := h
  have hle : (s ∪ s').card ≤ (s ∩ s').card + 1 := by
    calc (s ∪ s').card ≤ (insert a (s ∩ s')).card := by
          refine Finset.card_le_card fun b hb => ?_
          by_cases hba : b = a
          · exact Finset.mem_insert.mpr (.inl hba)
          · refine Finset.mem_insert_of_mem (Finset.mem_inter.mpr ?_)
            rcases Finset.mem_union.mp hb with hs | hs
            · exact ⟨hs, (ha b hba).mp hs⟩
            · exact ⟨(ha b hba).mpr hs, hs⟩
      _ ≤ (s ∩ s').card + 1 := Finset.card_insert_le _ _
  have := Finset.card_union_add_card_inter s s'
  omega

theorem Majority.meet_adjacent {s s' : Finset α} {Q Q' : Set α} (h : Adjacent s s')
    (hQ : Majority s Q) (hQ' : Majority s' Q') : (Q ∩ Q').Nonempty := by
  obtain ⟨q, hq, hcard, hqQ⟩ := hQ
  obtain ⟨q', hq', hcard', hqQ'⟩ := hQ'
  have hunion := h.card_union_le
  obtain ⟨b, hb⟩ :=
    Finset.inter_nonempty_of_card_lt_card_add_card (hq.trans Finset.subset_union_left)
    (hq'.trans Finset.subset_union_right) (show (s ∪ s').card < q.card + q'.card by omega)
  obtain ⟨hb, hb'⟩ := Finset.mem_inter.mp hb
  exact ⟨b, hqQ hb, hqQ' hb'⟩

theorem Majority.meet {s : Finset α} {Q Q' : Set α} (hQ : Majority s Q) (hQ' : Majority s Q') :
    (Q ∩ Q').Nonempty := by
  obtain ⟨q, -, hcard, -⟩ := id hQ
  obtain ⟨a, -⟩ := Finset.card_pos.mp (show 0 < q.card by omega)
  exact hQ.meet_adjacent ⟨a, fun _ _ => Iff.rfl⟩ hQ'

end

theorem Majority.mono {s : Finset α} {Q Q' : Set α} (hQ : Majority s Q) (h : Q ⊆ Q') :
    Majority s Q' := by
  obtain ⟨q, hq, hcard, hqQ⟩ := hQ
  exact ⟨q, hq, hcard, hqQ.trans h⟩

theorem majority_iff_card {s G : Finset α} {Q : Set α} (hG : ∀ a, a ∈ G ↔ a ∈ s ∧ a ∈ Q) :
    Majority s Q ↔ s.card < 2 * G.card := by
  constructor
  · rintro ⟨q, hq, hcard, hqQ⟩
    have : q.card ≤ G.card := Finset.card_le_card fun a ha => (hG a).mpr ⟨hq ha, hqQ ha⟩
    omega
  · intro hcard
    exact ⟨G, fun a ha => ((hG a).mp ha).1, hcard, fun a ha => ((hG a).mp ha).2⟩

/-! ## The middle of a list -/

theorem le_getD_iff_countP {l : List Nat} (hl : l.Pairwise (· ≤ ·)) {j k : Nat}
    (hj : j < l.length) :
    k ≤ l.getD j 0 ↔ l.length - j ≤ l.countP (k ≤ ·) := by
  induction l generalizing j with
  | nil => cases hj
  | cons x l ih =>
    obtain ⟨hx, hl⟩ := List.pairwise_cons.mp hl
    by_cases hk : k ≤ x
    · have hall : ∀ y ∈ x :: l, k ≤ y :=
        List.forall_mem_cons.mpr ⟨hk, fun y hy => hk.trans (hx y hy)⟩
      rw [List.countP_eq_length.mpr fun y hy => by
        simpa using hall y hy, List.getD_eq_getElem _ _ hj]
      exact iff_of_true (hall _ (List.getElem_mem hj)) (Nat.sub_le _ _)
    · rw [List.countP_cons_of_neg (by simpa using hk)]
      cases j with
      | zero =>
        have := List.countP_le_length (p := (k ≤ ·)) (l := l)
        simp only [List.getD_cons_zero, List.length_cons]
        omega
      | succ j => simpa using ih hl (by simpa using hj)

/-- The entry in the middle of the sorted list, the lower one of two. -/
def lowerMiddle (l : List Nat) : Nat :=
  (l.insertionSort (· ≤ ·)).getD (((l.insertionSort (· ≤ ·)).length - 1) / 2) 0

theorem le_lowerMiddle_iff {l : List Nat} (hne : l ≠ []) (k : Nat) :
    k ≤ lowerMiddle l ↔ l.length < 2 * l.countP (k ≤ ·) := by
  have hpos := List.length_pos_of_ne_nil hne
  have hsorted : (l.insertionSort (· ≤ ·)).Pairwise (· ≤ ·) := List.pairwise_insertionSort _ _
  rw [lowerMiddle, ← (List.perm_insertionSort (· ≤ ·) l).countP_eq,
    ← List.length_insertionSort (· ≤ ·) l] at *
  generalize l.insertionSort (· ≤ ·) = s at *
  rw [le_getD_iff_countP hsorted (by omega)]
  omega
