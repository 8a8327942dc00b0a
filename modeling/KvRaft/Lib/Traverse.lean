import Mathlib.Data.List.Forall2

/-! # Traversals that stop at the first failure

A fold over `Except` whose steps fail by their element alone is a traversal of the elements, and
then a fold that cannot fail. -/

theorem Except.exists_map_eq_ok {α β ε : Type} {x : Except ε α} {f : α → β} :
    (∃ b, x.map f = .ok b) ↔ ∃ a, x = .ok a := by
  cases x <;> simp [Except.map]

namespace List

variable {α β γ ε : Type}

theorem foldlM_map_eq (g : α → Except ε γ) (f : β → γ → β) :
    ∀ (l : List α) (b : β), l.foldlM (fun b a => (g a).map (f b)) b = (l.mapM g).map (foldl f b)
  | [], _ => rfl
  | a :: l, b => by
    rw [foldlM_cons, mapM_cons]
    rcases g a with e | c
    · rfl
    · refine (foldlM_map_eq g f l (f b c)).trans ?_
      change _ = Except.map _ (l.mapM g >>= fun xs => pure (c :: xs))
      rcases l.mapM g with e | xs <;> rfl

variable {l : List α} {g : α → Except ε γ} {R : α → β → Prop} {xs : List β}

theorem forM_eq_ok {g : α → Except ε PUnit} :
    l.forM g = .ok ⟨⟩ ↔ ∀ a ∈ l, g a = .ok ⟨⟩ := by
  induction l with
  | nil => simp [pure, Except.pure]
  | cons a l ih =>
    change (g a >>= fun _ => l.forM g) = .ok ⟨⟩ ↔ _
    rw [forall_mem_cons, ← ih]
    rcases g a with e | u
    · simp [bind, Except.bind]
    · simp [bind, Except.bind]

theorem mapM_eq_ok :
    ∀ {l : List α} {xs : List γ}, l.mapM g = .ok xs ↔ Forall₂ (fun a x => g a = .ok x) l xs
  | [], xs => by
    rw [mapM_nil, forall₂_nil_left_iff]
    constructor
    · intro h
      cases h
      rfl
    · rintro rfl
      rfl
  | a :: l, xs => by
    rw [mapM_cons, forall₂_cons_left_iff]
    rcases ha : g a with e | c
    · constructor
      · intro h
        cases h
      · rintro ⟨x, -, hx, -⟩
        cases hx
    · change (l.mapM g >>= fun xs => pure (c :: xs)) = _ ↔ _
      rcases hl : l.mapM g with e | ys
      · constructor
        · intro h
          cases h
        · rintro ⟨x, ys, -, hall, -⟩
          rw [mapM_eq_ok.mpr hall] at hl
          cases hl
      · constructor
        · intro h
          cases h
          exact ⟨c, ys, rfl, mapM_eq_ok.mp hl, rfl⟩
        · rintro ⟨x, ys', hx, hall, rfl⟩
          rw [mapM_eq_ok.mpr hall] at hl
          cases hx
          cases hl
          rfl

theorem Forall₂.exists_left (h : Forall₂ R l xs) {x : β}
    (hx : x ∈ xs) : ∃ a ∈ l, R a x := by
  induction h with
  | nil => cases hx
  | @cons a b l xs hab _ ih =>
    rcases mem_cons.mp hx with rfl | hx
    · exact ⟨a, mem_cons_self .., hab⟩
    · obtain ⟨a', ha, hr⟩ := ih hx
      exact ⟨a', mem_cons_of_mem _ ha, hr⟩

theorem Forall₂.exists_right (h : Forall₂ R l xs) {a : α}
    (ha : a ∈ l) : ∃ x ∈ xs, R a x := h.flip.exists_left ha

theorem exists_mapM_eq_ok :
    (∃ xs, l.mapM g = .ok xs) ↔ ∀ a ∈ l, ∃ x, g a = .ok x := by
  simp only [mapM_eq_ok]
  constructor
  · rintro ⟨xs, hall⟩ a ha
    obtain ⟨x, -, hx⟩ := hall.exists_right ha
    exact ⟨x, hx⟩
  · intro hall
    induction l with
    | nil => exact ⟨[], .nil⟩
    | cons a l ih =>
      obtain ⟨⟨x, hx⟩, hall⟩ := forall_mem_cons.mp hall
      obtain ⟨xs, hxs⟩ := ih hall
      exact ⟨x :: xs, .cons hx hxs⟩

theorem forall₂_filterMap {R : α → γ → Prop}
    (h : ∀ a ∈ l, ∃ x, g a = .ok x ∧ R a x) :
    Forall₂ R l (l.filterMap fun a => (g a).toOption) := by
  induction l with
  | nil => exact .nil
  | cons a l ih =>
    obtain ⟨⟨x, hx, hr⟩, hall⟩ := forall_mem_cons.mp h
    rw [filterMap_cons_some (by rw [hx]; rfl)]
    exact .cons hr (ih hall)

theorem mapM_eq_filterMap (h : ∀ a ∈ l, ∃ x, g a = .ok x) :
    l.mapM g = .ok (l.filterMap fun a => (g a).toOption) := by
  refine mapM_eq_ok.mpr (forall₂_filterMap fun a ha => ?_)
  obtain ⟨x, hx⟩ := h a ha
  exact ⟨x, hx, hx⟩

theorem Forall₂.eq_of_nodup (h : Forall₂ R l xs)
    (hfun : ∀ a x y, R a x → R a y → x = y) (hxs : xs.Nodup) {a b : α} {x : β} (ha : a ∈ l)
    (hb : b ∈ l) (hax : R a x) (hbx : R b x) : a = b := by
  induction h with
  | nil => cases ha
  | @cons c y l xs hcy hall ih =>
    obtain ⟨hy, hxs⟩ := nodup_cons.mp hxs
    have hnot : ∀ d ∈ l, R d x → c ≠ d → ¬R c x := by
      intro d hd hdx _ hcx
      obtain ⟨z, hz, hdz⟩ := hall.exists_right hd
      rw [hfun d z x hdz hdx, ← hfun c y x hcy hcx] at hz
      exact hy hz
    rcases mem_cons.mp ha with hac | hal <;> rcases mem_cons.mp hb with hbc | hbl
    · rw [hac, hbc]
    · by_contra hne
      exact hnot b hbl hbx (hac ▸ hne) (hac ▸ hax)
    · by_contra hne
      exact hnot a hal hax (hbc ▸ Ne.symm hne) (hbc ▸ hbx)
    · exact ih hxs hal hbl

theorem Forall₂.getLast? (h : Forall₂ R l xs) :
    Option.Rel R l.getLast? xs.getLast? := by
  induction h with
  | nil => exact .none
  | @cons a b l xs hab _ ih =>
    rw [getLast?_cons, getLast?_cons]
    generalize l.getLast? = x at ih ⊢
    generalize xs.getLast? = y at ih ⊢
    cases ih with
    | none => exact .some hab
    | some hlast => exact .some hlast

end List
