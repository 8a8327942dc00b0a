import KvRaft.Lib.Bytes
import Mathlib.Data.List.TakeWhile

/-! # Paths as texts

Paths of a Unix system as Go's `path/filepath` treats them: by their text alone. -/

namespace Filepath

open Bytes

def sep : UInt8 := 0x2f

def dot : Bytes := [0x2e]

def dotdot : Bytes := [0x2e, 0x2e]

def isAbs (p : Bytes) : Bool := p.head? == some sep

/-- The elements of a path; there is nothing between two separators in a row. -/
def names (p : Bytes) : List Bytes := (p.splitOn sep).filter (· ≠ [])

/-- One more element, behind elements that are resolved. -/
def push (abs : Bool) (es : List Bytes) (e : Bytes) : List Bytes :=
  if e = dot then es
  else if e = dotdot then
    match es.getLast? with
    | none => if abs then [] else [dotdot]
    | some last => if last = dotdot then es ++ [dotdot] else es.dropLast
  else es ++ [e]

/-- The elements of a path with `.` and inner `..` resolved. -/
def comps (p : Bytes) : List Bytes := (names p).foldl (push (isAbs p)) []

def text (abs : Bool) (es : List Bytes) : Bytes :=
  if abs then sep :: [sep].intercalate es
  else if es = [] then dot
  else [sep].intercalate es

def clean (p : Bytes) : Bytes := text (isAbs p) (comps p)

def join (a b : Bytes) : Bytes :=
  if a ≠ [] then clean (a ++ sep :: b) else if b ≠ [] then clean b else []

/-- A path up to its last separator. -/
def upTo (p : Bytes) : Bytes := (p.reverse.dropWhile (· ≠ sep)).reverse

def dir (p : Bytes) : Bytes := clean (upTo p)

/-- A path without its last element, as `MkdirAll` takes it off. -/
def parent (p : Bytes) : Bytes := upTo (p.reverse.dropWhile (· = sep)).reverse

/-- Both lists without what they begin with in common. -/
def strip : List Bytes → List Bytes → List Bytes × List Bytes
  | b :: bs, t :: ts => if b = t then strip bs ts else (b :: bs, t :: ts)
  | bs, ts => (bs, ts)

/-- `Rel`: up from what is left of the base, then down. -/
def rel (base targ : Bytes) : Option Bytes :=
  if clean targ = clean base then some dot
  else if isAbs base ≠ isAbs targ then none
  else
    let (up, down) := strip (comps base) (comps targ)
    if up.head? = some dotdot then none
    else some ([sep].intercalate (List.replicate up.length dotdot ++ down))

/-! ## Elements -/

/-- The name of something in a directory. -/
structure Plain (e : Bytes) : Prop where
  ne_nil : e ≠ []
  sep_notMem : sep ∉ e
  ne_dot : e ≠ dot
  ne_dotdot : e ≠ dotdot

variable {e p : Bytes} {es fs : List Bytes} {abs : Bool}

theorem plain_iff : Plain e ↔ e ≠ [] ∧ sep ∉ e ∧ e ≠ dot ∧ e ≠ dotdot :=
  ⟨fun h => ⟨h.ne_nil, h.sep_notMem, h.ne_dot, h.ne_dotdot⟩,
    fun h => ⟨h.1, h.2.1, h.2.2.1, h.2.2.2⟩⟩

instance decidablePlain (e : Bytes) : Decidable (Plain e) := decidable_of_iff _ plain_iff.symm

theorem names_append (p q : Bytes) : names (p ++ sep :: q) = names p ++ names q := by
  rw [names, List.splitOn_append_cons_self, List.filter_append]
  rfl

@[simp] theorem names_nil : names [] = [] := rfl

theorem names_of_sep_notMem (hne : e ≠ []) (h : sep ∉ e) : names e = [e] := by
  have hsplit : ([sep].intercalate [e]).splitOn sep = [e] :=
    List.splitOn_intercalate sep (by simpa using h) (by simp)
  rw [List.intercalate_singleton] at hsplit
  rw [names, hsplit]
  simp [hne]

theorem names_sep_cons (p : Bytes) : names (sep :: p) = names p := names_append [] p

theorem names_append_sep (p : Bytes) : names (p ++ [sep]) = names p := by
  rw [names_append, names_nil, List.append_nil]

def IsElem (e : Bytes) : Prop := e ≠ [] ∧ sep ∉ e

theorem Plain.isElem (h : Plain e) : IsElem e := ⟨h.ne_nil, h.sep_notMem⟩

theorem isElem_dotdot : IsElem dotdot := ⟨by decide, by decide⟩

theorem sep_notMem_of_mem_splitOn (h : e ∈ p.splitOn sep) : sep ∉ e := by
  induction p generalizing e with
  | nil =>
    rw [List.splitOn_nil, List.mem_singleton] at h
    simp [h]
  | cons c p ih =>
    rw [List.splitOn, List.splitOnP_cons_eq_if_modifyHead] at h
    split_ifs at h with hc
    · obtain rfl | h := List.mem_cons.mp h
      · simp
      · exact ih h
    · rcases hsplit : p.splitOnP (· == sep) with _ | ⟨first, rest⟩
      · simp [hsplit] at h
      · rw [hsplit, List.modifyHead_cons] at h
        have hmem : first ∈ p.splitOn sep ∧ ∀ r ∈ rest, r ∈ p.splitOn sep := by
          rw [List.splitOn, hsplit]
          exact ⟨List.mem_cons_self, fun r hr => List.mem_cons_of_mem _ hr⟩
        obtain rfl | h := List.mem_cons.mp h
        · rw [List.mem_cons, not_or]
          exact ⟨fun heq => hc (by simp [heq]), ih hmem.1⟩
        · exact ih (hmem.2 e h)

theorem isElem_of_mem_names (h : e ∈ names p) : IsElem e := by
  rw [names, List.mem_filter] at h
  exact ⟨by simpa using h.2, sep_notMem_of_mem_splitOn h.1⟩

theorem intercalate_append (hes : es ≠ []) (hfs : fs ≠ []) :
    [sep].intercalate (es ++ fs) = [sep].intercalate es ++ sep :: [sep].intercalate fs := by
  induction es with
  | nil => exact absurd rfl hes
  | cons e es ih =>
    cases es with
    | nil =>
      obtain ⟨f, fs, rfl⟩ := List.exists_cons_of_ne_nil hfs
      simp [List.intercalate_cons_cons]
    | cons e' es =>
      rw [List.cons_append, List.cons_append, List.intercalate_cons_cons,
        List.intercalate_cons_cons, ← List.cons_append, ih (by simp)]
      simp

theorem names_intercalate (h : ∀ e ∈ es, IsElem e) : names ([sep].intercalate es) = es := by
  induction es with
  | nil => rfl
  | cons e es ih =>
    obtain ⟨he, hes⟩ := List.forall_mem_cons.mp h
    cases es with
    | nil =>
      rw [List.intercalate_singleton]
      exact names_of_sep_notMem he.1 he.2
    | cons e' es =>
      rw [List.intercalate_cons_cons, List.append_assoc, List.singleton_append,
        names_append, ih hes, names_of_sep_notMem he.1 he.2]
      rfl

theorem head?_intercalate (h : ∀ e ∈ es, IsElem e) : ([sep].intercalate es).head? ≠ some sep := by
  cases es with
  | nil => simp
  | cons e es =>
    obtain ⟨⟨hne, hsep⟩, -⟩ := List.forall_mem_cons.mp h
    obtain ⟨c, e, rfl⟩ := List.exists_cons_of_ne_nil hne
    have hc : c ≠ sep := fun hc => hsep (hc ▸ List.mem_cons_self)
    cases es <;> simpa [List.intercalate_cons_cons] using hc

/-! ## Resolved elements -/

/-- Elements in which nothing is left to resolve. -/
def Reduced (abs : Bool) (es : List Bytes) : Prop :=
  ∃ up down, es = List.replicate up dotdot ++ down ∧ (∀ e ∈ down, Plain e) ∧ (abs = true → up = 0)

theorem Reduced.isElem (h : Reduced abs es) (he : e ∈ es) : IsElem e := by
  obtain ⟨up, down, rfl, hdown, -⟩ := h
  obtain he | he := List.mem_append.mp he
  · rw [List.eq_of_mem_replicate he]
    exact isElem_dotdot
  · exact (hdown e he).isElem

theorem push_plain (he : Plain e) : push abs es e = es ++ [e] := by
  rw [push, if_neg he.ne_dot, if_neg he.ne_dotdot]

theorem foldl_push_plain (hfs : ∀ e ∈ fs, Plain e) (es : List Bytes) :
    fs.foldl (push abs) es = es ++ fs := by
  induction fs generalizing es with
  | nil => simp
  | cons f fs ih =>
    obtain ⟨hf, hfs⟩ := List.forall_mem_cons.mp hfs
    rw [List.foldl_cons, push_plain hf, ih hfs]
    simp

theorem push_dotdot_replicate (n : Nat) :
    push false (List.replicate n dotdot) dotdot = List.replicate (n + 1) dotdot := by
  cases n with
  | zero => rfl
  | succ n =>
    have hlast : (List.replicate (n + 1) dotdot).getLast? = some dotdot := by
      rw [List.replicate_succ', List.getLast?_concat]
    rw [push, if_neg (by decide), if_pos rfl, hlast]
    exact (if_pos rfl).trans List.replicate_succ'.symm

theorem push_cases {up : Nat} {down : List Bytes} (hdown : ∀ e ∈ down, Plain e)
    (hup : abs = true → up = 0) (he : IsElem e) :
    e = dot ∧ push abs (List.replicate up dotdot ++ down) e = List.replicate up dotdot ++ down ∨
    (e = dotdot ∧ down = [] ∧ abs = true ∧ up = 0 ∧
      push abs (List.replicate up dotdot ++ down) e = [] ∨
    e = dotdot ∧ down = [] ∧ abs = false ∧
      push abs (List.replicate up dotdot ++ down) e = List.replicate (up + 1) dotdot ∨
    ∃ front last, e = dotdot ∧ down = front ++ [last] ∧
      push abs (List.replicate up dotdot ++ down) e = List.replicate up dotdot ++ front) ∨
    Plain e ∧ push abs (List.replicate up dotdot ++ down) e =
      List.replicate up dotdot ++ (down ++ [e]) := by
  by_cases hdot : e = dot
  · exact .inl ⟨hdot, if_pos hdot⟩
  by_cases hdd : e = dotdot
  · subst hdd
    refine .inr (.inl ?_)
    rcases List.eq_nil_or_concat down with rfl | ⟨front, last, rfl⟩
    · cases abs with
      | true =>
        obtain rfl := hup rfl
        exact .inl ⟨rfl, rfl, rfl, rfl, rfl⟩
      | false =>
        rw [List.append_nil]
        exact .inr (.inl ⟨rfl, rfl, rfl, push_dotdot_replicate up⟩)
    · rw [List.concat_eq_append] at hdown ⊢
      have hlast : Plain last := hdown last (by simp)
      refine .inr (.inr ⟨front, last, rfl, rfl, ?_⟩)
      rw [push, if_neg hdot, if_pos rfl, ← List.append_assoc, List.getLast?_concat]
      simp [hlast.ne_dotdot]
  · have hplain : Plain e := ⟨he.1, he.2, hdot, hdd⟩
    exact .inr (.inr ⟨hplain, by rw [push_plain hplain, List.append_assoc]⟩)

theorem Reduced.push (h : Reduced abs es) (he : IsElem e) :
    Reduced abs (push abs es e) := by
  obtain ⟨up, down, rfl, hdown, hup⟩ := h
  obtain ⟨-,
    hpush⟩ | (⟨-, -, -, -, hpush⟩ | ⟨-, -, habs, hpush⟩ | ⟨front, last, -, rfl, hpush⟩) | ⟨hplain,
      hpush⟩ :=
    push_cases hdown hup he <;> rw [hpush]
  · exact ⟨up, down, rfl, hdown, hup⟩
  · exact ⟨0, [], rfl, by simp, fun _ => rfl⟩
  · exact ⟨up + 1, [], by simp, by simp, by simp [habs]⟩
  · exact ⟨up, front, rfl, (List.forall_mem_append.mp hdown).1, hup⟩
  · exact ⟨up, down ++ [e], rfl, List.forall_mem_append.mpr ⟨hdown, by simpa using hplain⟩, hup⟩

theorem reduced_foldl_push (hes : ∀ e ∈ es, IsElem e) :
    Reduced abs (es.foldl (push abs) []) := by
  induction es using List.reverseRecOn with
  | nil => exact ⟨0, [], rfl, by simp, fun _ => rfl⟩
  | append_singleton es e ih =>
    obtain ⟨hfront, he⟩ := List.forall_mem_append.mp hes
    rw [List.foldl_append]
    exact (ih hfront).push (he e List.mem_cons_self)

theorem reduced_comps (p : Bytes) : Reduced (isAbs p) (comps p) :=
  reduced_foldl_push fun _ he => isElem_of_mem_names he

theorem Reduced.foldl_push (h : Reduced abs es) : es.foldl (Filepath.push abs) [] = es := by
  obtain ⟨up, down, rfl, hdown, hup⟩ := h
  rw [List.foldl_append, foldl_push_plain hdown]
  congr 1
  cases abs with
  | true =>
    obtain rfl := hup rfl
    rfl
  | false =>
    clear hup
    induction up with
    | zero => rfl
    | succ n ih =>
      rw [List.replicate_succ', List.foldl_append, ih, List.foldl_cons, List.foldl_nil,
        push_dotdot_replicate, ← List.replicate_succ']

/-! ## Clean paths -/

theorem isAbs_text (h : Reduced abs es) : isAbs (text abs es) = abs := by
  cases abs with
  | true => rfl
  | false =>
    have hhead := head?_intercalate fun e he => h.isElem he
    rw [text, if_neg (by simp)]
    split_ifs with hes
    · rfl
    · simpa [isAbs] using hhead

theorem comps_text (h : Reduced abs es) : comps (text abs es) = es := by
  rw [comps, isAbs_text h]
  have hnames := names_intercalate fun e he => h.isElem he
  cases abs with
  | true =>
    rw [text, if_pos rfl, names_sep_cons, hnames]
    exact h.foldl_push
  | false =>
    rw [text, if_neg (by simp)]
    split_ifs with hes
    · subst hes
      rfl
    · rw [hnames]
      exact h.foldl_push

theorem isAbs_clean (p : Bytes) : isAbs (clean p) = isAbs p := isAbs_text (reduced_comps p)

theorem comps_clean (p : Bytes) : comps (clean p) = comps p := comps_text (reduced_comps p)

theorem clean_clean (p : Bytes) : clean (clean p) = clean p := by
  rw [clean, isAbs_clean, comps_clean]
  rfl

theorem clean_text (h : Reduced abs es) : clean (text abs es) = text abs es := by
  rw [clean, isAbs_text h, comps_text h]

theorem Reduced.append (h : Reduced abs es) (hfs : ∀ e ∈ fs, Plain e) :
    Reduced abs (es ++ fs) := by
  obtain ⟨up, down, rfl, hdown, hup⟩ := h
  refine ⟨up, down ++ fs, by simp, fun e he => ?_, hup⟩
  obtain he | he := List.mem_append.mp he
  · exact hdown e he
  · exact hfs e he

theorem comps_eq_nil : comps p = [] ↔ clean p = dot ∨ clean p = [sep] := by
  constructor
  · intro h
    rw [clean, h]
    cases isAbs p with
    | true => exact .inr rfl
    | false => exact .inl rfl
  · rintro (h | h)
    · rw [← comps_clean, h]
      rfl
    · rw [← comps_clean, h]
      rfl

theorem names_text (h : Reduced abs es) (hne : es ≠ []) : names (text abs es) = es := by
  have hnames := names_intercalate fun e he => h.isElem he
  cases abs with
  | true => rw [text, if_pos rfl, names_sep_cons, hnames]
  | false => rw [text, if_neg (by simp), if_neg hne, hnames]

theorem text_append (hes : es ≠ []) (hfs : fs ≠ []) :
    text abs (es ++ fs) = text abs es ++ sep :: [sep].intercalate fs := by
  cases abs <;> simp [text, hes, intercalate_append hes hfs]

/-! ## Plain names behind a path -/

theorem comps_of_names (hnames : names p = es) (hes : ∀ e ∈ es, Plain e) :
    comps p = es := by
  rw [comps, hnames, foldl_push_plain hes, List.nil_append]

theorem isAbs_append (hp : p ≠ []) (q : Bytes) : isAbs (p ++ q) = isAbs p := by
  obtain ⟨c, p, rfl⟩ := List.exists_cons_of_ne_nil hp
  rfl

theorem clean_append_sep (hp : p ≠ []) : clean (p ++ [sep]) = clean p := by
  rw [clean, clean, comps, comps, isAbs_append hp, names_append_sep]

theorem join_of_plain (p : Bytes) (hne : es ≠ []) (hes : ∀ e ∈ es, Plain e) :
    join p ([sep].intercalate es) = text (isAbs p) (comps p ++ es) := by
  have helem : ∀ e ∈ es, IsElem e := fun e he => (hes e he).isElem
  have hnames := names_intercalate helem
  by_cases hp : p = []
  · subst hp
    have hne' : [sep].intercalate es ≠ [] := fun h => hne (by rw [← hnames, h]; rfl)
    have habs : isAbs ([sep].intercalate es) = false := by
      simpa [isAbs] using head?_intercalate helem
    rw [join, if_neg (by simp), if_pos hne', clean, habs, comps_of_names hnames hes]
    rfl
  · rw [join, if_pos hp, clean, isAbs_append hp, comps, names_append, hnames, isAbs_append hp,
      List.foldl_append, foldl_push_plain hes]
    rfl

theorem strip_append (bs ts : List Bytes) : strip bs (bs ++ ts) = ([], ts) := by
  induction bs with
  | nil => cases ts <;> rfl
  | cons b bs ih => rw [List.cons_append, strip, if_pos rfl, ih]

theorem rel_join (p : Bytes) (hne : es ≠ []) (hes : ∀ e ∈ es, Plain e) :
    rel p (text (isAbs p) (comps p ++ es)) = some ([sep].intercalate es) := by
  have hred : Reduced (isAbs p) (comps p ++ es) := (reduced_comps p).append hes
  have hdiff : clean (text (isAbs p) (comps p ++ es)) ≠ clean p := by
    intro h
    have hcomps := congrArg comps h
    rw [comps_clean, comps_clean, comps_text hred] at hcomps
    exact hne (List.append_right_eq_self.mp hcomps)
  rw [rel, if_neg hdiff, isAbs_text hred, if_neg (by simp), comps_text hred, strip_append]
  simp

/-! ## Parents -/

theorem names_of_forall_sep {s : Bytes} (h : ∀ c ∈ s, c = sep) : names s = [] := by
  induction s with
  | nil => rfl
  | cons c s ih =>
    obtain ⟨rfl, hs⟩ := List.forall_mem_cons.mp h
    rw [names_sep_cons, ih hs]

theorem names_append_of_forall_sep (p : Bytes) {s : Bytes} (h : ∀ c ∈ s, c = sep) :
    names (p ++ s) = names p := by
  cases s with
  | nil => rw [List.append_nil]
  | cons c s =>
    obtain ⟨rfl, hs⟩ := List.forall_mem_cons.mp h
    rw [names_append, names_of_forall_sep hs, List.append_nil]

theorem dropWhile_cases (p : UInt8 → Bool) (l : Bytes) :
    l.dropWhile p = [] ∨ ∃ c t, l.dropWhile p = c :: t ∧ p c = false := by
  rcases h : l.dropWhile p with _ | ⟨c, t⟩
  · exact .inl rfl
  · have hhead := List.head_dropWhile_not p (l := l) (by simp [h])
    exact .inr ⟨c, t, rfl, by simpa [h] using hhead⟩

theorem exists_parent (p : Bytes) : ∃ e s, p = parent p ++ (e ++ s) ∧ sep ∉ e ∧ (∀ c ∈ s, c = sep) ∧
    (e = [] → parent p = []) ∧ (parent p = [] ∨ ∃ q, parent p = q ++ [sep]) := by
  set r := p.reverse.dropWhile (· = sep) with hr
  have hparent : parent p = (r.dropWhile (· ≠ sep)).reverse := by
    rw [parent, upTo, List.reverse_reverse]
  refine ⟨(r.takeWhile (· ≠ sep)).reverse, (p.reverse.takeWhile (· = sep)).reverse, ?_,
    ?_, ?_, ?_, ?_⟩
  · rw [hparent, ← List.append_assoc, ← List.reverse_append, List.takeWhile_append_dropWhile,
      ← List.reverse_append, hr, List.takeWhile_append_dropWhile, List.reverse_reverse]
  · intro h
    simpa using List.mem_takeWhile_imp (List.mem_reverse.mp h)
  · intro c h
    simpa using List.mem_takeWhile_imp (List.mem_reverse.mp h)
  · intro h
    obtain hnil | ⟨c, t, hcons, hc⟩ := dropWhile_cases (· = sep) p.reverse
    · rw [hparent, hr, hnil]
      rfl
    · rw [hr, hcons, List.takeWhile_cons_of_pos (by simpa using hc)] at h
      simp at h
  · rw [hparent]
    obtain hnil | ⟨c, t, hcons, hc⟩ := dropWhile_cases (· ≠ sep) r
    · exact .inl (by rw [hnil]; rfl)
    · have hc : c = sep := by simpa using hc
      exact .inr ⟨t.reverse, by rw [hcons, hc, List.reverse_cons]⟩

theorem isAbs_parent (h : parent p ≠ []) : isAbs (parent p) = isAbs p := by
  obtain ⟨e, s, hp, -⟩ := exists_parent p
  conv_rhs => rw [hp]
  exact (isAbs_append h _).symm

theorem names_parent (h : names p ≠ []) :
    ∃ e, names p = names (parent p) ++ [e] ∧ (parent p = [] → isAbs p = false) := by
  obtain ⟨e, s, hp, he, hs, hnil, hq⟩ := exists_parent p
  have hnames : names p = names (parent p) ++ names e := by
    obtain hq | ⟨q, hq⟩ := hq
    · rw [hq] at hp ⊢
      rw [hp, List.nil_append, names_append_of_forall_sep _ hs]
      rfl
    · rw [hq, names_append_sep]
      rw [hq, List.append_assoc, List.singleton_append] at hp
      rw [hp, names_append, names_append_of_forall_sep _ hs]
  have hne : e ≠ [] := by
    rintro rfl
    rw [hnames, hnil rfl] at h
    exact h rfl
  rw [names_of_sep_notMem hne he] at hnames
  refine ⟨e, hnames, fun hparent => ?_⟩
  obtain ⟨c, e, rfl⟩ := List.exists_cons_of_ne_nil hne
  have hc : c ≠ sep := fun hc => he (hc ▸ List.mem_cons_self)
  rw [hparent] at hp
  rw [hp]
  simpa [isAbs] using hc

theorem length_parent_lt (h : p ≠ []) : (parent p).length < p.length := by
  obtain ⟨e, s, hp, -, -, hnil, -⟩ := exists_parent p
  have hlen := congrArg List.length hp
  rw [List.length_append, List.length_append] at hlen
  cases e with
  | nil =>
    rw [hnil rfl]
    exact List.length_pos_iff.mpr h
  | cons c e =>
    rw [List.length_cons] at hlen
    omega

theorem upTo_append_elem (p : Bytes) (he : sep ∉ e) : upTo (p ++ sep :: e) = p ++ [sep] := by
  have hdrop : (e.reverse ++ sep :: p.reverse).dropWhile (· ≠ sep) = sep :: p.reverse := by
    rw [List.dropWhile_append_of_pos fun c hc => by
      simpa using fun heq : c = sep => he (heq ▸ List.mem_reverse.mp hc)]
    rfl
  rw [upTo, List.reverse_append, List.reverse_cons, List.append_assoc, List.singleton_append, hdrop]
  simp

theorem parent_append_elem (p : Bytes) (he : IsElem e) : parent (p ++ sep :: e) = p ++ [sep] := by
  obtain ⟨hne, hsep⟩ := he
  obtain ⟨c, t, hrev⟩ := List.exists_cons_of_ne_nil (List.reverse_ne_nil_iff.mpr hne)
  have hc : c ≠ sep :=
    fun hc => hsep (List.mem_reverse.mp (by rw [hrev, hc]; exact List.mem_cons_self))
  have hdrop : (p ++ sep :: e).reverse.dropWhile (· = sep) = (p ++ sep :: e).reverse := by
    rw [List.reverse_append, List.reverse_cons, hrev]
    simp [hc]
  rw [parent, hdrop, List.reverse_reverse, upTo_append_elem p hsep]

theorem parent_append_sep (p : Bytes) : parent (p ++ [sep]) = parent p := by
  simp [parent]

theorem parent_iterate_nil (n : Nat) : parent^[n] [] = [] := Function.iterate_fixed rfl n

theorem names_parent_isPrefix (p : Bytes) : names (parent p) <+: names p := by
  obtain ⟨e, s, hp, -, -, -, hnil | ⟨q, hq⟩⟩ := exists_parent p
  · rw [hnil]
    exact List.nil_prefix
  · rw [hq, List.append_assoc, List.singleton_append] at hp
    rw [hq, names_append_sep]
    conv_rhs => rw [hp, names_append]
    exact List.prefix_append ..

theorem names_parent_iterate {n : Nat} (h : parent^[n] p ≠ []) :
    isAbs (parent^[n] p) = isAbs p ∧ names (parent^[n] p) <+: names p := by
  induction n with
  | zero => exact ⟨rfl, List.prefix_refl _⟩
  | succ n ih =>
    rw [Function.iterate_succ_apply'] at h ⊢
    obtain ⟨habs, hnames⟩ := ih fun hnil => h (by rw [hnil]; rfl)
    exact ⟨(isAbs_parent h).trans habs, (names_parent_isPrefix _).trans hnames⟩

theorem Reduced.of_isPrefix (h : Reduced abs es) (hfs : fs <+: es) :
    Reduced abs fs := by
  obtain ⟨up, down, rfl, hdown, hup⟩ := h
  rw [List.prefix_iff_eq_take.mp hfs, List.take_append, List.take_replicate]
  refine ⟨_, _, rfl, fun e he => hdown e (List.mem_of_mem_take he), fun habs => ?_⟩
  rw [hup habs, Nat.min_zero]

theorem comps_parent_clean {n : Nat} (h : parent^[n + 1] (clean p) ≠ []) :
    isAbs (parent^[n + 1] (clean p)) = isAbs p ∧ comps (parent^[n + 1] (clean p)) <+: comps p := by
  obtain ⟨habs, hnames⟩ := names_parent_iterate h
  rw [isAbs_clean] at habs
  have hclean : names (clean p) = comps p := by
    have helem := names_intercalate fun e he => (reduced_comps p).isElem he
    rw [clean, text]
    split_ifs with hp hcomps
    · rw [names_sep_cons, helem]
    · -- the path `.` has no parent
      rw [clean, text, if_neg hp, if_pos hcomps, Function.iterate_succ_apply] at h
      exact absurd (parent_iterate_nil n) h
    · exact helem
  rw [hclean] at hnames
  have hred := (reduced_comps p).of_isPrefix hnames
  rw [comps, habs, hred.foldl_push]
  exact ⟨rfl, hnames⟩

end Filepath
