import Mathlib.Tactic

/-! # What a program may change

Programs that read and write a state and may fail, with the state they reached kept on failure. A
`Frame` is a reflexive and transitive relation between states: what a program is allowed to do. The
rules below push "`f` stays within the frame" through the program's structure, so that a function's
effect is established once and its callers use that. -/

universe u v

namespace EStateM

variable {ε σ α β : Type u}

/-- The state a program ends in, whether it succeeds or fails. -/
def final (f : EStateM ε σ α) (s : σ) : σ :=
  match f s with
  | .ok _ s' => s'
  | .error _ s' => s'

/-- What a program returns or fails with. -/
def outcome (f : EStateM ε σ α) (s : σ) : Except ε α :=
  match f s with
  | .ok a _ => .ok a
  | .error e _ => .error e

def ignore (f : EStateM ε σ α) : EStateM ε σ PUnit := fun s => .ok ⟨⟩ (f.final s)

def attempt (f : EStateM ε σ α) : EStateM ε σ (Option α) := fun s =>
  match f s with
  | .ok a s' => .ok (some a) s'
  | .error _ s' => .ok none s'

@[simp] theorem final_pure (a : α) (s : σ) : (pure a : EStateM ε σ α).final s = s := rfl
@[simp] theorem final_throw (e : ε) (s : σ) : (throw e : EStateM ε σ α).final s = s := rfl
@[simp] theorem outcome_pure (a : α) (s : σ) : (pure a : EStateM ε σ α).outcome s = .ok a := rfl
@[simp] theorem outcome_throw (e : ε) (s : σ) :
    (throw e : EStateM ε σ α).outcome s = .error e := rfl
@[simp] theorem final_ignore (f : EStateM ε σ α) (s : σ) : (ignore f).final s = f.final s := rfl
@[simp] theorem final_ignore_bind (f : EStateM ε σ α) (g : PUnit → EStateM ε σ β) (s : σ) :
    (ignore f >>= g).final s = (g ⟨⟩).final (f.final s) := rfl

theorem final_bind (f : EStateM ε σ α) (g : α → EStateM ε σ β) (s : σ) :
    (f >>= g).final s =
      match f.outcome s with
      | .ok a => (g a).final (f.final s)
      | .error _ => f.final s := by
  simp only [final, outcome, bind, EStateM.bind]
  cases f s <;> rfl

theorem outcome_bind (f : EStateM ε σ α) (g : α → EStateM ε σ β) (s : σ) :
    (f >>= g).outcome s =
      match f.outcome s with
      | .ok a => (g a).outcome (f.final s)
      | .error e => .error e := by
  simp only [final, outcome, bind, EStateM.bind]
  cases f s <;> rfl

@[simp] theorem final_get_bind (g : σ → EStateM ε σ β) (s : σ) :
    (get >>= g).final s = (g s).final s := rfl

@[simp] theorem outcome_get_bind (g : σ → EStateM ε σ β) (s : σ) :
    (get >>= g).outcome s = (g s).outcome s := rfl

@[simp] theorem final_pure_bind (a : α) (g : α → EStateM ε σ β) (s : σ) :
    (pure a >>= g).final s = (g a).final s := rfl

@[simp] theorem outcome_pure_bind (a : α) (g : α → EStateM ε σ β) (s : σ) :
    (pure a >>= g).outcome s = (g a).outcome s := rfl

@[simp] theorem final_modify (g : σ → σ) (s : σ) :
    (modify g : EStateM ε σ PUnit).final s = g s := rfl

@[simp] theorem outcome_modify (g : σ → σ) (s : σ) :
    (modify g : EStateM ε σ PUnit).outcome s = .ok ⟨⟩ := rfl

@[simp] theorem final_ofExcept (x : Except ε α) (s : σ) :
    (ofExcept x : EStateM ε σ α).final s = s := by cases x <;> rfl

@[simp] theorem outcome_ofExcept (x : Except ε α) (s : σ) :
    (ofExcept x : EStateM ε σ α).outcome s = x := by cases x <;> rfl

@[simp] theorem final_attempt (f : EStateM ε σ α) (s : σ) : (attempt f).final s = f.final s := by
  simp only [final, attempt]
  cases f s <;> rfl

variable {ε' : Type u} {f : EStateM ε σ α} {s s' : σ} {a : α}

@[simp] theorem final_adaptExcept (h : ε → ε') (f : EStateM ε σ α) (s : σ) :
    (f.adaptExcept h).final s = f.final s := by
  simp only [final, adaptExcept]
  cases f s <;> rfl

theorem outcome_adaptExcept (h : ε → ε') (f : EStateM ε σ α) (s : σ) :
    (f.adaptExcept h).outcome s = (f.outcome s).mapError h := by
  simp only [outcome, adaptExcept]
  cases f s <;> rfl

theorem final_bind_of_pure {g : α → EStateM ε σ β}
    (h : ∀ a s, (g a).final s = s) (s : σ) : (f >>= g).final s = f.final s := by
  rw [final_bind]
  cases f.outcome s with
  | ok a => exact h a _
  | error e => rfl

theorem final_bind_of_error {e : ε} (h : f.outcome s = .error e)
    (g : α → EStateM ε σ β) : (f >>= g).final s = f.final s := by
  rw [final_bind, h]

theorem final_bind_of_ok (h : f.outcome s = .ok a)
    (g : α → EStateM ε σ β) : (f >>= g).final s = (g a).final (f.final s) := by
  rw [final_bind, h]

theorem run_get_bind (g : σ → EStateM ε σ β) (s : σ) : (get >>= g) s = g s s := rfl

theorem run_bind_of_ok (h : f s = .ok a s')
    (g : α → EStateM ε σ β) : (f >>= g) s = g a s' := by
  simp only [bind, EStateM.bind, h]

theorem run_bind_of_error {e : ε} (h : f s = .error e s')
    (g : α → EStateM ε σ β) : (f >>= g) s = .error e s' := by
  simp only [bind, EStateM.bind, h]

theorem ok_of_bind {g : α → EStateM ε σ β} {t : σ} {b : β}
    (h : (f >>= g) s = .ok b t) : ∃ a u, f s = .ok a u ∧ g a u = .ok b t := by
  rcases hf : f s with ⟨a, u⟩ | ⟨e, u⟩
  · rw [run_bind_of_ok hf] at h
    exact ⟨a, u, rfl, h⟩
  · rw [run_bind_of_error hf] at h
    cases h

theorem run_adaptExcept_of_ok (h : f s = .ok a s')
    (g : ε → ε') : (f.adaptExcept g) s = .ok a s' := by
  simp only [EStateM.adaptExcept, h]

theorem run_forM_append_of_ok {f : α → EStateM ε σ PUnit} {l : List α} (h : l.forM f s = .ok ⟨⟩ s')
    (l' : List α) : (l ++ l').forM f s = l'.forM f s' := by
  induction l generalizing s with
  | nil =>
    cases h
    rfl
  | cons a l ih =>
    obtain ⟨_, t, ha, hl⟩ := ok_of_bind h
    exact (run_bind_of_ok ha _).trans (ih hl)

theorem forM_ne_ok {f : α → EStateM ε σ PUnit} {l : List α} (ha : a ∈ l)
    (h : ∀ s t, f a s ≠ .ok ⟨⟩ t) (s t : σ) : l.forM f s ≠ .ok ⟨⟩ t := by
  induction l generalizing s with
  | nil => cases ha
  | cons b l ih =>
    intro hrun
    obtain ⟨_, u, hb, hl⟩ := ok_of_bind hrun
    obtain rfl | ha := List.mem_cons.mp ha
    · exact h s u hb
    · exact ih ha u hl

theorem bind_of_ok {g : α → EStateM ε σ β} {b : β}
    (h : (f >>= g).outcome s = .ok b) :
    ∃ a, f.outcome s = .ok a ∧ (g a).outcome (f.final s) = .ok b ∧
      (f >>= g).final s = (g a).final (f.final s) := by
  rw [outcome_bind] at h
  rcases hf : f.outcome s with e | a
  · rw [hf] at h
    cases h
  · rw [hf] at h
    exact ⟨a, rfl, h, final_bind_of_ok hf g⟩

end EStateM

/-- What programs are allowed to do to the state. -/
structure Frame (σ : Type u) where
  rel : σ → σ → Prop
  refl : ∀ s, rel s s
  trans : ∀ {a b c}, rel a b → rel b c → rel a c

namespace Frame

open EStateM

variable {ε σ α β : Type u} {F : Frame σ}

/-- Every run of the program stays within the frame. -/
def Keeps (F : Frame σ) (f : EStateM ε σ α) : Prop := ∀ s, F.rel s (f.final s)

variable {f : EStateM ε σ α}

theorem Keeps.rel_of_ok (hf : F.Keeps f) {s s' : σ} {a : α} (h : f s = .ok a s') :
    F.rel s s' := by
  have hrel := hf s
  rwa [EStateM.final, h] at hrel

theorem keeps_pure (a : α) : F.Keeps (pure a : EStateM ε σ α) := fun s => F.refl s

theorem keeps_throw (e : ε) : F.Keeps (throw e : EStateM ε σ α) := fun s => F.refl s

theorem keeps_get_bind {g : σ → EStateM ε σ β} (hg : ∀ s, F.Keeps (g s)) : F.Keeps (get >>= g) :=
  fun s => hg s s

theorem keeps_modify {g : σ → σ} (h : ∀ s, F.rel s (g s)) :
    F.Keeps (modify g : EStateM ε σ PUnit) := h

theorem Keeps.mono {G : Frame σ} (hrel : ∀ a b, F.rel a b → G.rel a b)
    (hf : F.Keeps f) : G.Keeps f := fun s => hrel _ _ (hf s)

theorem Keeps.bind {g : α → EStateM ε σ β} (hf : F.Keeps f)
    (hg : ∀ a, F.Keeps (g a)) : F.Keeps (f >>= g) := by
  intro s
  rw [final_bind]
  cases f.outcome s with
  | ok a => exact F.trans (hf s) (hg a _)
  | error e => exact hf s

theorem Keeps.ignore (hf : F.Keeps f) : F.Keeps (EStateM.ignore f) := hf

theorem Keeps.attempt (hf : F.Keeps f) : F.Keeps (EStateM.attempt f) := by
  intro s
  rw [final_attempt]
  exact hf s

theorem Keeps.adaptExcept {ε' : Type u} (hf : F.Keeps f) (h : ε → ε') :
    F.Keeps (f.adaptExcept h) := by
  intro s
  rw [final_adaptExcept]
  exact hf s

theorem keeps_forM {l : List α} {f : α → EStateM ε σ PUnit} (h : ∀ a, F.Keeps (f a)) :
    F.Keeps (l.forM f) := by
  induction l with
  | nil => exact keeps_pure _
  | cons a l ih => exact (h a).bind fun _ => ih

theorem keeps_ofExcept (x : Except ε α) : F.Keeps (ofExcept x : EStateM ε σ α) := by
  intro s
  rw [final_ofExcept]
  exact F.refl s

theorem keeps_ofExcept_bind {x : Except ε α} {g : α → EStateM ε σ β}
    (hg : ∀ a, x = .ok a → F.Keeps (g a)) : F.Keeps (ofExcept x >>= g) := by
  intro s
  rw [final_bind, outcome_ofExcept, final_ofExcept]
  cases x with
  | ok a => exact hg a rfl s
  | error e => exact F.refl s

theorem keeps_ite {p : Prop} [Decidable p] {g : EStateM ε σ α} (hf : p → F.Keeps f)
    (hg : ¬p → F.Keeps g) : F.Keeps (if p then f else g) := by
  split_ifs with h
  · exact hf h
  · exact hg h

/-! ## Programs that fail -/

/-- A run that fails stays within the frame. -/
def KeepsOnFailure (F : Frame σ) (f : EStateM ε σ α) : Prop :=
  ∀ s e, f.outcome s = .error e → F.rel s (f.final s)

theorem Keeps.onFailure (hf : F.Keeps f) : F.KeepsOnFailure f :=
  fun s _ _ => hf s

/-- Before its last step a program must stay within the frame, since any step may be the one that
fails. -/
theorem Keeps.bindOnFailure {g : α → EStateM ε σ β} (hf : F.Keeps f)
    (hg : ∀ a, F.KeepsOnFailure (g a)) : F.KeepsOnFailure (f >>= g) := by
  intro s e h
  rw [outcome_bind] at h
  rw [final_bind]
  rcases ho : f.outcome s with e' | a
  · exact hf s
  · rw [ho] at h
    exact F.trans (hf s) (hg a _ e h)

/-- What follows only shapes the result. -/
theorem KeepsOnFailure.bind_pure (hf : F.KeepsOnFailure f) (h : α → β) :
    F.KeepsOnFailure (f >>= fun a => pure (h a)) := by
  intro s e herr
  rw [outcome_bind] at herr
  rw [final_bind]
  rcases ho : f.outcome s with e' | a
  · exact hf s e' ho
  · rw [ho] at herr
    cases herr

end Frame

/-! ## Programs that do not look -/

namespace EStateM

variable {ε σ α β : Type u} {g : σ → σ}

/-- A result with its state changed. -/
def onState (g : σ → σ) : Result ε σ α → Result ε σ α
  | .ok a s => .ok a (g s)
  | .error e s => .error e (g s)

/-- Whether `g` changes the state before the program or after it makes no difference. -/
def Blind (g : σ → σ) (f : EStateM ε σ α) : Prop := ∀ s, f (g s) = onState g (f s)

variable {f : EStateM ε σ α}

theorem Blind.bind {k : α → EStateM ε σ β} (hf : Blind g f)
    (hk : ∀ a, Blind g (k a)) : Blind g (f >>= k) := by
  intro s
  have hs := hf s
  rcases hrun : f s with ⟨a, t⟩ | ⟨e, t⟩ <;> rw [hrun] at hs
  · rw [run_bind_of_ok hs, run_bind_of_ok hrun]
    exact hk a t
  · rw [run_bind_of_error hs, run_bind_of_error hrun]
    rfl

theorem Blind.ignore (hf : Blind g f) : Blind g (EStateM.ignore f) := by
  intro s
  unfold EStateM.ignore final
  rw [hf s]
  cases f s <;> rfl

end EStateM
