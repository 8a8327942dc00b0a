import KvRaft.Lib.FileSystem

/-! # Backup and restore (`pkg/kvctl/backup.go`)

An archive is modelled as the entries of the tar file, which `archive/tar` and `compress/gzip` carry
as they are. Restoring runs over any operating system (`Os`). -/

namespace KvRaft.Kvctl

open Bytes Filepath

/-! ## Archives -/

def typeReg : UInt8 := 0x30

def typeDir : UInt8 := 0x35

/-- A header, and the bytes that can be read behind it. -/
structure TarEntry where
  name : Bytes
  typeflag : UInt8
  body : Bytes := []
  /-- The body breaks off with an error. -/
  cut : Bool := false
deriving DecidableEq, Repr

structure Archive where
  entries : List TarEntry
  /-- Behind the entries comes an error and not the end. -/
  damaged : Bool := false
deriving DecidableEq, Repr

inductive BackupError
  /-- `… already exists and is not empty -- refusing to extract into it` -/
  | notEmpty (destDir : Bytes)
  /-- `archive entry … escapes destination` -/
  | escapes (name : Bytes)
  | os (e : Errno)
  /-- From `archive/tar` or `compress/gzip`. -/
  | archive
  | rel
deriving DecidableEq, Repr

/-! ## Backup -/

inductive Listing
  | nil
  | file (name body : Bytes) (rest : Listing)
  | dir (name : Bytes) (entries rest : Listing)
  /-- A link, a device or the like. -/
  | special (name : Bytes) (rest : Listing)
deriving DecidableEq, Repr

inductive FileInfo
  | file (body : Bytes)
  | dir
  | special
deriving DecidableEq, Repr

def walk (path : Bytes) : Listing → List (Bytes × FileInfo)
  | .nil => []
  | .file name body rest => (join path name, .file body) :: walk path rest
  | .dir name entries rest =>
    (join path name, .dir) :: (walk (join path name) entries ++ walk path rest)
  | .special name rest => (join path name, .special) :: walk path rest

/-- The function that `archiveDir` walks with; an entry if it writes one. -/
def archiveFile (srcDir path : Bytes) (fi : FileInfo) : Except BackupError (Option TarEntry) :=
  if path = srcDir then .ok none
  else match fi with
    | .special => .ok none
    | .dir =>
      match rel srcDir path with
      | none => .error .rel
      | some name => .ok (some { name := name ++ [sep], typeflag := typeDir })
    | .file body =>
      match rel srcDir path with
      | none => .error .rel
      | some name => .ok (some { name, typeflag := typeReg, body })

def archiveDir (srcDir : Bytes) (tree : Listing) : Except BackupError Archive :=
  -- nothing is under the empty path
  if srcDir = [] then .error (.os .noent)
  else do
    let entries ← ((srcDir, FileInfo.dir) :: walk srcDir tree).mapM fun file =>
        archiveFile srcDir file.1 file.2
    return { entries := entries.reduceOption }

/-! ## Restore -/

section

variable {σ : Type} (os : Os σ)

abbrev RestoreM (σ : Type) := EStateM BackupError σ

def mkdirAll (path : Bytes) : RestoreM σ Unit := (os.mkdirAll path).adaptExcept .os

def extractEntry (destDir : Bytes) (entry : TarEntry) : RestoreM σ Unit :=
  let cleanName := clean entry.name
  if cleanName = dot ∨ dotdot <+: cleanName ∨ isAbs cleanName then throw (.escapes entry.name)
  else
    let target := join destDir cleanName
    if ¬ clean destDir ++ [sep] <+: target then throw (.escapes entry.name)
    else if entry.typeflag = typeDir then mkdirAll os target
    else if entry.typeflag = typeReg then do
      mkdirAll os (dir target)
      (os.write target entry.body).adaptExcept .os
      if entry.cut then throw .archive
    else pure ()

/-- `none`: it cannot be opened, or gzip does not know it. -/
def extractArchive (archive : Option Archive) (destDir : Bytes) : RestoreM σ Unit :=
  match archive with
  | none => throw .archive
  | some archive => do
    mkdirAll os destDir
    archive.entries.forM (extractEntry os destDir)
    if archive.damaged then throw .archive

def restoreNode (archive : Option Archive) (destDir : Bytes) : RestoreM σ Unit := do
  let s ← get
  match os.readDir destDir s with
  | .ok entries =>
    if entries ≠ [] then throw (.notEmpty destDir) else extractArchive os archive destDir
  | .error e => if e ≠ .noent then throw (.os e) else extractArchive os archive destDir

end

/-! ## Names of entries -/

theorem dotdot_isPrefix_intercalate {e : Bytes} {es : List Bytes} (he : IsElem e) :
    dotdot <+: [sep].intercalate (e :: es) ↔ dotdot <+: e := by
  obtain ⟨hne, -⟩ := he
  obtain ⟨c, e, rfl⟩ := List.exists_cons_of_ne_nil hne
  cases es with
  | nil => rw [List.intercalate_singleton]
  | cons e' es =>
    cases e with
    | nil => simp [List.intercalate_cons_cons, dotdot, sep]
    | cons d e => simp [List.intercalate_cons_cons, dotdot]

theorem exists_names_of_local {name : Bytes}
    (h : ¬(clean name = dot ∨ dotdot <+: clean name ∨ isAbs (clean name))) :
    ∃ es, es ≠ [] ∧ (∀ e ∈ es, Plain e) ∧ clean name = [sep].intercalate es := by
  push Not at h
  obtain ⟨hdot, hup, habs⟩ := h
  rw [isAbs_clean, ne_eq, Bool.not_eq_true] at habs
  have hclean : clean name = text false (comps name) := by rw [clean, habs]
  have hred := reduced_comps name
  rw [habs] at hred
  have hne : comps name ≠ [] := fun hnil => hdot (by rw [hclean, hnil]; rfl)
  have htext : clean name = [sep].intercalate (comps name) := by
    rw [hclean, text, if_neg (by simp), if_neg hne]
  obtain ⟨up, down, hcomps, hdown, -⟩ := hred
  cases up with
  | zero =>
    rw [hcomps, List.replicate_zero, List.nil_append] at hne htext
    exact ⟨down, hne, hdown, htext⟩
  | succ up =>
    rw [htext, hcomps, List.replicate_succ, List.cons_append,
      dotdot_isPrefix_intercalate isElem_dotdot] at hup
    exact absurd (List.prefix_refl _) hup

/-- The second check is passed unless the destination is the root or the current directory. -/
theorem isPrefix_target_iff {destDir : Bytes} {es : List Bytes} (hne : es ≠ [])
    (hes : ∀ e ∈ es, Plain e) :
    clean destDir ++ [sep] <+: text (isAbs destDir) (comps destDir ++ es) ↔ comps destDir ≠ [] := by
  constructor
  · intro h hnil
    rw [clean, hnil, List.nil_append] at h
    have helem : ∀ e ∈ es, IsElem e := fun e he => (hes e he).isElem
    cases habs : isAbs destDir with
    | true =>
      -- `//` does not begin a clean path
      rw [habs] at h
      obtain ⟨r, hr⟩ := h
      simp only [text, if_true, List.cons_append, List.nil_append, List.intercalate_nil,
        List.cons.injEq, true_and] at hr
      exact head?_intercalate helem (by rw [← hr]; rfl)
    | false =>
      -- nor does `./`
      rw [habs] at h
      obtain ⟨r, hr⟩ := h
      simp only [text, Bool.false_eq_true, if_false, if_true, hne] at hr
      have hnames := names_intercalate helem
      rw [← hr, List.append_assoc, List.singleton_append, names_append] at hnames
      exact (hes dot (hnames ▸ List.mem_append_left _ (by decide))).ne_dot rfl
  · intro hdest
    rw [text_append hdest hne, clean]
    exact ⟨[sep].intercalate es, by simp⟩

/-! ## Paths below the destination -/

/-- Strictly below the destination, both cleaned. -/
def Below (destDir p : Bytes) : Prop :=
  ∃ es, es ≠ [] ∧ (∀ e ∈ es, Plain e) ∧ clean p = clean destDir ++ sep :: [sep].intercalate es

/-- A parent of the cleaned destination, or the destination. -/
def Ancestor (destDir p : Bytes) : Prop := isAbs p = isAbs destDir ∧ comps p <+: comps destDir

/-- A path that the destination leads through as it is written. -/
def OnTheWay (destDir p : Bytes) : Prop := p ≠ [] ∧ ∃ n, p = parent^[n + 1] destDir

/-- No name of the destination is taken back by a `..` behind it. -/
def Straight (destDir : Bytes) : Prop := ∀ p, OnTheWay destDir p → Ancestor destDir p

/-- A directory is made at the destination or below it, or at a path that is excused; a file is
written below it. -/
def Confined (excused : Bytes → Prop) (destDir : Bytes) : Os.Call → Prop
  | .mkdir p => (clean p = clean destDir ∨ Below destDir p) ∨ excused p
  | .write p _ => Below destDir p

theorem Confined.mono {excused excused' : Bytes → Prop} (h : ∀ p, excused p → excused' p)
    {destDir : Bytes} {c : Os.Call} (hc : Confined excused destDir c) :
    Confined excused' destDir c := by
  cases c with
  | mkdir p => exact hc.imp_right (h p)
  | write p body => exact hc

theorem ancestor_parent_clean {destDir : Bytes} {n : Nat}
    (h : parent^[n + 1] (clean destDir) ≠ []) :
    Ancestor destDir (parent^[n + 1] (clean destDir)) := comps_parent_clean h

theorem straight_clean (destDir : Bytes) : Straight (clean destDir) := by
  rintro p ⟨hp, n, rfl⟩
  rw [Ancestor, isAbs_clean, comps_clean]
  exact ancestor_parent_clean hp

def beneath (destDir : Bytes) (es : List Bytes) : Bytes :=
  text (isAbs destDir) (comps destDir ++ es)

section

variable {destDir : Bytes} {es : List Bytes}

theorem beneath_nil : beneath destDir [] = clean destDir := by
  rw [beneath, List.append_nil, clean]

theorem clean_beneath (hes : ∀ e ∈ es, Plain e) : clean (beneath destDir es) = beneath destDir es :=
  clean_text ((reduced_comps destDir).append hes)

theorem below_beneath (hdest : comps destDir ≠ []) (hne : es ≠ []) (hes : ∀ e ∈ es, Plain e) :
    Below destDir (beneath destDir es) := by
  refine ⟨es, hne, hes, ?_⟩
  rw [clean_beneath hes, beneath, text_append hdest hne]
  rfl

theorem beneath_concat (hdest : comps destDir ≠ []) (e : Bytes) :
    beneath destDir (es ++ [e]) = beneath destDir es ++ sep :: e := by
  rw [beneath, ← List.append_assoc,
    text_append (List.append_ne_nil_of_left_ne_nil hdest es) (by simp), List.intercalate_singleton]
  rfl

theorem beneath_ne_nil (hdest : comps destDir ≠ []) (hes : ∀ e ∈ es, Plain e) :
    beneath destDir es ≠ [] := by
  intro h
  have hcomps := comps_text ((reduced_comps destDir).append hes)
  rw [← beneath, h] at hcomps
  exact hdest (List.append_eq_nil_iff.mp hcomps.symm).1

theorem parent_iterate_append_sep (p : Bytes) (n : Nat) :
    parent^[n + 1] (p ++ [sep]) = parent^[n + 1] p := by
  rw [Function.iterate_succ_apply, Function.iterate_succ_apply, parent_append_sep]

theorem confined_parent (hdest : comps destDir ≠ []) (hes : ∀ e ∈ es, Plain e) {n : Nat}
    (h : parent^[n] (beneath destDir es) ≠ []) :
    Confined (Ancestor destDir) destDir (.mkdir (parent^[n] (beneath destDir es))) := by
  induction es using List.reverseRecOn generalizing n with
  | nil =>
    rw [beneath_nil] at h ⊢
    cases n with
    | zero => exact .inl (.inl (clean_clean destDir))
    | succ n => exact .inr (ancestor_parent_clean h)
  | append_singleton es e ih =>
    obtain ⟨hfront, he⟩ := List.forall_mem_append.mp hes
    have hparent : parent (beneath destDir (es ++ [e])) = beneath destDir es ++ [sep] := by
      rw [beneath_concat hdest, parent_append_elem _ (he e List.mem_cons_self).isElem]
    match n with
    | 0 => exact .inl (.inr (below_beneath hdest (by simp) hes))
    | 1 =>
      -- the parent itself, with a separator behind it
      have hclean := clean_append_sep (beneath_ne_nil hdest hfront)
      rw [Function.iterate_one, hparent]
      rcases eq_or_ne es [] with rfl | hne
      · exact .inl (.inl (by rw [hclean, beneath_nil, clean_clean]))
      · obtain ⟨fs, hfs, hplain, hbelow⟩ := below_beneath hdest hne hfront
        exact .inl (.inr ⟨fs, hfs, hplain, hclean.trans hbelow⟩)
    | n + 2 =>
      rw [Function.iterate_succ_apply, hparent, parent_iterate_append_sep] at h ⊢
      exact ih hfront h

theorem dir_beneath (hdest : comps destDir ≠ []) (hes : ∀ e ∈ es, Plain e) {e : Bytes}
    (he : Plain e) :
    dir (beneath destDir (es ++ [e])) = beneath destDir es := by
  rw [dir, beneath_concat hdest, upTo_append_elem _ he.sep_notMem,
    clean_append_sep (beneath_ne_nil hdest hes), clean_beneath hes]

/-! ## What restoring changes -/

variable {σ : Type} {os : Os σ}

theorem keeps_mkdirAll_beneath (hdest : comps destDir ≠ []) (hes : ∀ e ∈ es, Plain e) :
    (os.within (Confined (Ancestor destDir) destDir)).Keeps (mkdirAll os (beneath destDir es)) :=
  (Os.keeps_mkdirAll (@confined_parent _ _ hdest hes 0 (beneath_ne_nil hdest hes))
    fun _ => confined_parent hdest hes).adaptExcept _

theorem keeps_extractEntry (entry : TarEntry) :
    (os.within (Confined (Ancestor destDir) destDir)).Keeps (extractEntry os destDir entry) := by
  refine Frame.keeps_ite (fun _ => Frame.keeps_throw _) fun hlocal => ?_
  obtain ⟨es, hne, hes, hclean⟩ := exists_names_of_local hlocal
  have htarget : join destDir (clean entry.name) = beneath destDir es := by
    rw [hclean, join_of_plain destDir hne hes, beneath]
  rw [htarget]
  refine Frame.keeps_ite (fun _ => Frame.keeps_throw _) fun hguard => ?_
  have hdest : comps destDir ≠ [] := (isPrefix_target_iff hne hes).mp (not_not.mp hguard)
  refine Frame.keeps_ite (fun _ => keeps_mkdirAll_beneath hdest hes) fun _ =>
    Frame.keeps_ite (fun _ => ?_) fun _ => Frame.keeps_pure _
  rcases List.eq_nil_or_concat es with rfl | ⟨front, e, rfl⟩
  · exact absurd rfl hne
  rw [List.concat_eq_append] at hes hne ⊢
  obtain ⟨hfront, he⟩ := List.forall_mem_append.mp hes
  rw [dir_beneath hdest hfront (he e List.mem_cons_self)]
  refine (keeps_mkdirAll_beneath hdest hfront).bind fun _ => ?_
  refine ((Os.keeps_write (below_beneath hdest hne hes)).adaptExcept _).bind fun _ => ?_
  exact Frame.keeps_ite (fun _ => Frame.keeps_throw _) fun _ => Frame.keeps_pure _

theorem keeps_extractArchive {excused : Bytes → Prop} (archive : Option Archive) {destDir : Bytes}
    (hanc : ∀ p, Ancestor destDir p → excused p) (hway : ∀ p, OnTheWay destDir p → excused p) :
    (os.within (Confined excused destDir)).Keeps (extractArchive os archive destDir) := by
  cases archive with
  | none => exact Frame.keeps_throw _
  | some archive =>
    have hdest : (os.within (Confined excused destDir)).Keeps (mkdirAll os destDir) :=
      (Os.keeps_mkdirAll (.inl (.inl rfl)) fun n hn => .inr (hway _ ⟨hn, n, rfl⟩)).adaptExcept _
    refine hdest.bind fun _ => (Frame.keeps_forM fun entry => ?_).bind fun _ => ?_
    · exact (keeps_extractEntry entry).mono (Os.within_mono fun _ hc => hc.mono hanc)
    · exact Frame.keeps_ite (fun _ => Frame.keeps_throw _) fun _ => Frame.keeps_pure _

end

/-- Over any operating system and for any archive: the state changes by calls on the destination, on
paths below it, on its parents and on what it leads through as it is written, and no symbolic link
comes into being. Where all that it leads through is a parent of it, these are all. -/
theorem extract_confined {σ : Type} (os : Os σ) (archive : Option Archive)
    (destDir : Bytes) (s : σ) :
    (∃ calls : List Os.Call,
      (∀ c ∈ calls, Confined (fun p => Ancestor destDir p ∨ OnTheWay destDir p) destDir c) ∧
      (extractArchive os archive destDir).final s = calls.foldl (fun s c => os.run c s) s) ∧
    (Straight destDir → ∃ calls : List Os.Call,
      (∀ c ∈ calls, Confined (Ancestor destDir) destDir c) ∧
      (extractArchive os archive destDir).final s = calls.foldl (fun s c => os.run c s) s) ∧
    ∀ p, os.IsLink p ((extractArchive os archive destDir).final s) → os.IsLink p s := by
  have h :
      (os.within (Confined (fun p => Ancestor destDir p ∨ OnTheWay destDir p) destDir)).rel s _ :=
    keeps_extractArchive archive (fun _ => .inl) (fun _ => .inr) s
  exact ⟨h, fun hstraight => keeps_extractArchive archive (fun _ => id) hstraight s,
    fun p => Os.isLink_of_within h⟩

/-- An archive of one file, restored to `a/b`. -/
theorem extract_confined_file :
    ∃ calls : List Os.Call, (∀ c ∈ calls, Confined (Ancestor (ascii "a/b")) (ascii "a/b") c) ∧
      (extractArchive (Fs.os []) (some ⟨[⟨ascii "f", typeReg, [], false⟩], false⟩)
        (ascii "a/b")).final .empty = calls.foldl (fun fs c => (Fs.os []).run c fs) .empty := by
  have hclean : clean (ascii "a/b") = ascii "a/b" := by decide
  exact (extract_confined (Fs.os []) _ (ascii "a/b") .empty).2.1 (hclean ▸ straight_clean _)

/-- With the destination `x/y/../../d`, which is `d`, the directory `x` is made: it is not the
destination, not below it and no parent of it. -/
theorem extract_strays :
    clean (ascii "x/y/../../d") = ascii "d" ∧ Fs.empty.node [ascii "x"] = none ∧
      ((extractArchive (Fs.os []) (some ⟨[], false⟩) (ascii "x/y/../../d")).final .empty).node
        [ascii "x"] = some .dir ∧
      ¬Confined (Ancestor (ascii "x/y/../../d")) (ascii "x/y/../../d") (.mkdir (ascii "x")) := by
  have hfree : ∀ x ∈ Fs.passed [] (ascii "x/y/../../d"), ∀ body,
      Fs.empty.node x ≠ some (.file body) := by
    intro x _ body
    rw [Fs.node_empty]
    split_ifs <;> simp
  obtain ⟨fs, hrun, hnode⟩ := @Fs.run_mkdirAll .empty [] _ Fs.empty.root (by decide) hfree
  have hfinal :
      (extractArchive (Fs.os []) (some ⟨[], false⟩) (ascii "x/y/../../d")).final .empty = fs := by
    have hmade : mkdirAll (Fs.os []) (ascii "x/y/../../d") .empty = .ok () fs := by
      rw [mkdirAll, EStateM.adaptExcept, hrun]
    rw [EStateM.final, extractArchive, EStateM.run_bind_of_ok hmade]
    rfl
  rw [hfinal, hnode]
  refine ⟨by decide, by rw [Fs.node_empty]; rfl, if_pos (by decide), ?_⟩
  rintro ((h | ⟨es, -, -, h⟩) | ⟨-, h⟩)
  · exact absurd h (by decide)
  · have hx : clean (ascii "x") = ascii "x" := by decide
    have hd : clean (ascii "x/y/../../d") = ascii "d" := by decide
    rw [hx, hd] at h
    exact absurd (show some (0x78 : UInt8) = some 0x64 from congrArg List.head? h) (by decide)
  · exact absurd h (by decide)

end KvRaft.Kvctl
