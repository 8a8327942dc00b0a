import Mathlib.Tactic

/-! # Reading off a buffer that may still grow

A scan takes tokens off a buffer from a position on and returns the position it has reached. -/

/-- A reader of the tokens of a buffer, from a position. -/
abbrev Scan (τ ε α : Type) := ReaderT (List τ) (StateT Nat (Except ε)) α

namespace Scan

variable {τ ε α β σ : Type}

theorem bind_of_ok {p : Scan τ ε α} {f : α → Scan τ ε β} {buf : List τ} {pos q : Nat} {a : α}
    (h : p buf pos = .ok (a, q)) : (p >>= f) buf pos = f a buf q := by
  show (p buf pos >>= fun r => f r.1 buf r.2) = _
  rw [h]
  rfl

theorem bind_of_error {p : Scan τ ε α} {f : α → Scan τ ε β} {buf : List τ} {pos : Nat} {e : ε}
    (h : p buf pos = .error e) : (p >>= f) buf pos = .error e := by
  show (p buf pos >>= fun r => f r.1 buf r.2) = _
  rw [h]
  rfl

theorem bind_eq_ok {p : Scan τ ε α} {f : α → Scan τ ε β} {buf : List τ} {pos r : Nat} {b : β}
    (h : (p >>= f) buf pos = .ok (b, r)) :
    ∃ a q, p buf pos = .ok (a, q) ∧ f a buf q = .ok (b, r) := by
  rcases hp : p buf pos with e | ⟨a, q⟩
  · rw [bind_of_error hp] at h
    cases h
  · exact ⟨a, q, rfl, (bind_of_ok hp).symm.trans h⟩

def iterate (f : σ → Scan τ ε σ) : Nat → σ → Scan τ ε σ
  | 0, s => pure s
  | n + 1, s => f s >>= iterate f n

/-! ## Settled results -/

/-- Every result but `eof` stays when the buffer grows. -/
structure Streaming (eof : ε) (p : Scan τ ε α) : Prop where
  ok : ∀ {buf : List τ} {pos q : Nat} {a : α}, pos ≤ buf.length → p buf pos = .ok (a, q) →
    q ≤ buf.length ∧ ∀ more, p (buf ++ more) pos = .ok (a, q)
  error : ∀ {buf : List τ} {pos : Nat} {e : ε}, pos ≤ buf.length → p buf pos = .error e → e ≠ eof →
    ∀ more, p (buf ++ more) pos = .error e

namespace Streaming

variable {eof : ε}

theorem pure (a : α) : Streaming eof (pure a : Scan τ ε α) where
  ok hpos h := by
    cases h
    exact ⟨hpos, fun _ => rfl⟩
  error _ h := by cases h

theorem throw (e : ε) : Streaming eof (throw e : Scan τ ε α) where
  ok _ h := by cases h
  error _ h _ _ := by
    cases h
    rfl

theorem bind {p : Scan τ ε α} {f : α → Scan τ ε β} (hp : Streaming eof p)
    (hf : ∀ a, Streaming eof (f a)) : Streaming eof (p >>= f) where
  ok {buf pos q b} hpos h := by
    rcases hr : p buf pos with e | ⟨a, r⟩
    · rw [bind_of_error hr] at h
      cases h
    · rw [bind_of_ok hr] at h
      obtain ⟨hle, hmore⟩ := hp.ok hpos hr
      obtain ⟨hq, hfmore⟩ := (hf a).ok hle h
      exact ⟨hq, fun more => (bind_of_ok (hmore more)).trans (hfmore more)⟩
  error {buf pos e} hpos h he more := by
    rcases hr : p buf pos with e' | ⟨a, r⟩
    · rw [bind_of_error hr] at h
      cases h
      exact bind_of_error (hp.error hpos hr he more)
    · rw [bind_of_ok hr] at h
      obtain ⟨hle, hmore⟩ := hp.ok hpos hr
      exact (bind_of_ok (hmore more)).trans ((hf a).error hle h he more)

end Streaming

/-! ## Bounds -/

/-- From any position of the buffer on, `p` ends at one of its positions or fails as expected. -/
def Within (expected : ε → Prop) (buf : List τ) (p : Scan τ ε α) : Prop :=
  ∀ pos ≤ buf.length,
    (∃ a q, p buf pos = .ok (a, q) ∧ q ≤ buf.length) ∨ ∃ e, p buf pos = .error e ∧ expected e

namespace Within

variable {expected : ε → Prop} {buf : List τ}

theorem pure (a : α) : Within expected buf (pure a : Scan τ ε α) :=
  fun pos hpos => .inl ⟨a, pos, rfl, hpos⟩

theorem throw {e : ε} (he : expected e) : Within expected buf (throw e : Scan τ ε α) :=
  fun _ _ => .inr ⟨e, rfl, he⟩

theorem bind {p : Scan τ ε α} {f : α → Scan τ ε β} (hp : Within expected buf p)
    (hf : ∀ a, Within expected buf (f a)) : Within expected buf (p >>= f) := by
  intro pos hpos
  obtain ⟨a, q, hok, hq⟩ | ⟨e, herr, he⟩ := hp pos hpos
  · rw [bind_of_ok hok]
    exact hf a q hq
  · exact .inr ⟨e, bind_of_error herr, he⟩

end Within

/-! ## Words -/

section Words

variable (limit : Nat) (full : ε)

/-- Wherever `w` stands, `p` returns `a` for it and stops behind it; a position beyond the limit is
the failure `full`. -/
def Reads (p : Scan τ ε α) (w : List τ) (a : α) : Prop :=
  ∀ pre more : List τ, pre.length < limit →
    p (pre ++ w ++ more) pre.length =
      if (pre ++ w).length < limit then .ok (a, (pre ++ w).length) else .error full

variable {limit full}

namespace Reads

theorem pure (a : α) : Reads limit full (pure a : Scan τ ε α) [] a := by
  intro pre more hpre
  rw [List.append_nil, if_pos hpre]
  rfl

theorem bind {p : Scan τ ε α} {f : α → Scan τ ε β} {w v : List τ} {a : α} {b : β}
    (hp : Reads limit full p w a) (hf : Reads limit full (f a) v b) :
    Reads limit full (p >>= f) (w ++ v) b := by
  intro pre more hpre
  have hw := hp pre (v ++ more) hpre
  rw [show pre ++ w ++ (v ++ more) = pre ++ (w ++ v) ++ more by simp] at hw
  rw [← List.append_assoc pre]
  split_ifs at hw with hl
  · have hv := hf (pre ++ w) more hl
    rw [show pre ++ w ++ v ++ more = pre ++ (w ++ v) ++ more by simp] at hv ⊢
    rw [bind_of_ok hw, hv]
  · have hl' : ¬ (pre ++ w ++ v).length < limit := by
      rw [List.length_append]
      omega
    rw [show pre ++ w ++ v ++ more = pre ++ (w ++ v) ++ more by simp, bind_of_error hw, if_neg hl']

theorem map {p : Scan τ ε α} {w : List τ} {a : α} (hp : Reads limit full p w a) (g : α → β) :
    Reads limit full (p >>= fun a => Pure.pure (g a)) w (g a) := by
  have h := hp.bind (f := fun a => Pure.pure (g a)) (Reads.pure (g a))
  rwa [List.append_nil] at h

theorem iterate {ι : Type} {f : σ → Scan τ ε σ} {word : ι → List τ} {step : σ → ι → σ}
    {P : σ → Prop} :
    ∀ {items : List ι} {s : σ},
      (∀ i ∈ items, ∀ s, P s → Reads limit full (f s) (word i) (step s i) ∧ P (step s i)) → P s →
      Reads limit full (Scan.iterate f items.length s) (items.flatMap word) (items.foldl step s)
  | [], s, _, _ => pure s
  | i :: items, s, h, hs => by
    obtain ⟨hi, hP⟩ := h i List.mem_cons_self s hs
    exact hi.bind (iterate (fun j hj => h j (List.mem_cons_of_mem i hj)) hP)

theorem start {p : Scan τ ε α} {w : List τ} {a : α} (hp : Reads limit full p w a) (hl : 0 < limit)
    (more : List τ) :
    p (w ++ more) 0 = if w.length < limit then .ok (a, w.length) else .error full := hp [] more hl

end Reads

/-- Wherever `w` stands, `p` fails on it. -/
def Refuses (limit : Nat) (p : Scan τ ε α) (w : List τ) : Prop :=
  ∀ pre more : List τ, pre.length < limit → ∃ e, p (pre ++ w ++ more) pre.length = .error e

namespace Refuses

theorem append {p : Scan τ ε α} {w : List τ} (hp : Refuses limit p w) (v : List τ) :
    Refuses limit p (w ++ v) := by
  intro pre more hpre
  obtain ⟨e, he⟩ := hp pre (v ++ more) hpre
  exact ⟨e, by rw [← he]; simp⟩

theorem bind_left {p : Scan τ ε α} {f : α → Scan τ ε β} {w : List τ} (hp : Refuses limit p w) :
    Refuses limit (p >>= f) w := by
  intro pre more hpre
  obtain ⟨e, he⟩ := hp pre more hpre
  exact ⟨e, bind_of_error he⟩

theorem bind_right {p : Scan τ ε α} {f : α → Scan τ ε β} {w v : List τ} {a : α}
    (hp : Reads limit full p w a) (hf : Refuses limit (f a) v) :
    Refuses limit (p >>= f) (w ++ v) := by
  intro pre more hpre
  have hw := hp pre (v ++ more) hpre
  rw [show pre ++ w ++ (v ++ more) = pre ++ (w ++ v) ++ more by simp] at hw
  split_ifs at hw with hl
  · obtain ⟨e, he⟩ := hf (pre ++ w) more hl
    rw [show pre ++ w ++ v ++ more = pre ++ (w ++ v) ++ more by simp] at he
    exact ⟨e, (bind_of_ok hw).trans he⟩
  · exact ⟨full, bind_of_error hw⟩

theorem iterate {ι : Type} {f : σ → Scan τ ε σ} {word : ι → List τ} {step : σ → ι → σ}
    {P : σ → Prop} {fine : ι → Prop} :
      ∀ {items : List ι} {s : σ}, (∀ i ∈ items, ∀ s,
        P s → (fine i → Reads limit full (f s) (word i) (step s i) ∧ P (step s i)) ∧
        (¬fine i → Refuses limit (f s) (word i))) → P s → (∃ i ∈ items, ¬fine i) →
      Refuses limit (Scan.iterate f items.length s) (items.flatMap word)
  | [], _, _, _, hbad => absurd hbad (by simp)
  | i :: items, s, h, hs, hbad => by
    obtain ⟨hfine, hrefuse⟩ := h i List.mem_cons_self s hs
    by_cases hi : fine i
    · obtain ⟨hread, hP⟩ := hfine hi
      obtain ⟨j, hj, hne⟩ := hbad
      have hj : j ∈ items := (List.mem_cons.mp hj).resolve_left fun h => hne (h ▸ hi)
      exact bind_right hread (iterate (fun k hk => h k (List.mem_cons_of_mem i hk)) hP ⟨j, hj, hne⟩)
    · exact ((hrefuse hi).bind_left).append _

end Refuses

variable {eof : ε} {p : Scan τ ε α} {w : List τ} {a : α}

theorem Streaming.eof_of_short (hs : Streaming eof p) (hr : Reads limit full p w a)
    (hw : w.length < limit) {buf more rest : List τ} (hbuf : buf ++ more = w ++ rest)
    (hshort : buf.length < w.length) : p buf 0 = .error eof := by
  have hall := hr.start (by omega) rest
  rw [if_pos hw, ← hbuf] at hall
  rcases hres : p buf 0 with e | ⟨b, q⟩
  · by_contra hne
    have he : e ≠ eof := fun h => hne (h ▸ rfl)
    rw [hs.error (Nat.zero_le _) hres he more] at hall
    cases hall
  · obtain ⟨hq, hmore⟩ := hs.ok (Nat.zero_le _) hres
    rw [hmore more] at hall
    cases hall
    omega

theorem Streaming.error_of_limit_le (hs : Streaming eof p) (hr : Reads limit full p w a)
    (hl : 0 < limit) (hw : limit ≤ w.length) {buf more rest : List τ}
    (hbuf : buf ++ more = w ++ rest) : p buf 0 = .error eof ∨ p buf 0 = .error full := by
  have hall := hr.start hl rest
  rw [if_neg (not_lt.mpr hw), ← hbuf] at hall
  rcases hres : p buf 0 with e | ⟨b, q⟩
  · by_cases he : e = eof
    · exact .inl (by rw [he])
    · rw [hs.error (Nat.zero_le _) hres he more] at hall
      cases hall
      exact .inr rfl
  · rw [(hs.ok (Nat.zero_le _) hres).2 more] at hall
    cases hall

end Words

end Scan
