import Mathlib.Data.List.ReduceOption
import KvRaft.Kvctl.Backup
import KvRaft.Lib.Traverse

/-! # Restored backups

The archive of a directory, extracted into a file system without links. -/

namespace KvRaft.Kvctl

open Bytes Filepath

/-! ## Trees -/

def header (es : List Bytes) : Fs.Node → TarEntry
  | .dir => { name := [sep].intercalate es ++ [sep], typeflag := typeDir }
  | .file body => { name := [sep].intercalate es, typeflag := typeReg, body }

namespace Listing

def names : Listing → List Bytes
  | nil => []
  | file name _ rest => name :: rest.names
  | dir name _ rest => name :: rest.names
  | special name rest => name :: rest.names

def top : Listing → List Bytes
  | nil => []
  | file name _ rest => name :: rest.top
  | dir name _ rest => name :: rest.top
  | special _ rest => rest.top

/-- Names are names, and no two of a directory are the same. -/
def Wf : Listing → Prop
  | nil => True
  | file name _ rest => Plain name ∧ name ∉ rest.names ∧ rest.Wf
  | dir name entries rest => Plain name ∧ name ∉ rest.names ∧ entries.Wf ∧ rest.Wf
  | special name rest => Plain name ∧ name ∉ rest.names ∧ rest.Wf

instance decidableWf : (t : Listing) → Decidable t.Wf
  | nil => .isTrue trivial
  | file name _ rest =>
    have := decidableWf rest
    inferInstanceAs (Decidable (Plain name ∧ name ∉ rest.names ∧ rest.Wf))
  | dir name entries rest =>
    have := decidableWf entries
    have := decidableWf rest
    inferInstanceAs (Decidable (Plain name ∧ name ∉ rest.names ∧ entries.Wf ∧ rest.Wf))
  | special name rest =>
    have := decidableWf rest
    inferInstanceAs (Decidable (Plain name ∧ name ∉ rest.names ∧ rest.Wf))

def find : Listing → List Bytes → Option Fs.Node
  | nil, _ => none
  | file name body rest, l => if l = [name] then some (.file body) else rest.find l
  | dir _ _ rest, [] => rest.find []
  | dir name entries rest, e :: l =>
    if e = name then if l = [] then some .dir else entries.find l
    else rest.find (e :: l)
  | special _ rest, l => rest.find l

/-- What is written for the entries of a directory that is at `pre`. -/
def written (pre : List Bytes) : Listing → List (Option TarEntry)
  | nil => []
  | file name body rest => some (header (pre ++ [name]) (.file body)) :: rest.written pre
  | dir name entries rest =>
    some (header (pre ++ [name]) .dir) :: (entries.written (pre ++ [name]) ++ rest.written pre)
  | special _ rest => none :: rest.written pre

theorem find_nil (t : Listing) : t.find [] = none := by
  induction t with
  | nil => rfl
  | file name body rest ih => simp [find, ih]
  | dir name entries rest _ ih => simp [find, ih]
  | special name rest ih => simp [find, ih]

theorem ne_nil_of_find {t : Listing} {r : List Bytes} {n : Fs.Node} (h : t.find r = some n) :
    r ≠ [] := by
  rintro rfl
  rw [find_nil] at h
  cases h

theorem find_eq_none {t : Listing} {e : Bytes} (h : e ∉ t.names) (l : List Bytes) :
    t.find (e :: l) = none := by
  induction t with
  | nil => rfl
  | file name body rest ih =>
    obtain ⟨hne, hrest⟩ := not_or.mp (mt List.mem_cons.mpr h)
    rw [find, if_neg fun heq => hne (List.cons.inj heq).1, ih hrest]
  | dir name entries rest _ ih =>
    obtain ⟨hne, hrest⟩ := not_or.mp (mt List.mem_cons.mpr h)
    rw [find, if_neg hne, ih hrest]
  | special name rest ih => exact ih (mt (List.mem_cons_of_mem _) h)

theorem exists_cons_of_find {t : Listing} {r : List Bytes} {n : Fs.Node} (h : t.find r = some n)
    {name : Bytes} (hname : name ∉ t.names) : ∃ e l, r = e :: l ∧ e ≠ name := by
  obtain ⟨e, l, rfl⟩ := List.exists_cons_of_ne_nil (ne_nil_of_find h)
  refine ⟨e, l, rfl, ?_⟩
  rintro rfl
  rw [find_eq_none hname] at h
  cases h

theorem of_top_eq_nil {t : Listing} (h : t.top = []) :
    (∀ l, t.find l = none) ∧ ∀ pre, (t.written pre).reduceOption = [] := by
  induction t with
  | nil => exact ⟨fun l => rfl, fun pre => rfl⟩
  | special name rest ih => exact ih h
  | file => cases h
  | dir => cases h

theorem plain_of_mem_top {t : Listing} (ht : t.Wf) {e : Bytes} (he : e ∈ t.top) : Plain e := by
  induction t with
  | nil => cases he
  | file name body rest ih =>
    obtain rfl | he := List.mem_cons.mp he
    · exact ht.1
    · exact ih ht.2.2 he
  | dir name entries rest _ ih =>
    obtain rfl | he := List.mem_cons.mp he
    · exact ht.1
    · exact ih ht.2.2.2 he
  | special name rest ih => exact ih ht.2.2 he

theorem exists_header {t : Listing} {e : Bytes} (he : e ∈ t.top) (pre : List Bytes) :
    ∃ n, header (pre ++ [e]) n ∈ (t.written pre).reduceOption := by
  simp only [List.reduceOption_mem_iff]
  induction t with
  | nil => cases he
  | file name body rest ih =>
    obtain rfl | he := List.mem_cons.mp he
    · exact ⟨_, List.mem_cons_self⟩
    · obtain ⟨n, hn⟩ := ih he
      exact ⟨n, List.mem_cons_of_mem _ hn⟩
  | dir name entries rest _ ih =>
    obtain rfl | he := List.mem_cons.mp he
    · exact ⟨_, List.mem_cons_self⟩
    · obtain ⟨n, hn⟩ := ih he
      exact ⟨n, List.mem_cons_of_mem _ (List.mem_append_right _ hn)⟩
  | special name rest ih =>
    obtain ⟨n, hn⟩ := ih he
    exact ⟨n, List.mem_cons_of_mem _ hn⟩

end Listing

/-! ## The archive of a tree -/

section

variable {srcDir path : Bytes} {pre : List Bytes}

theorem plain_concat (hpre : ∀ e ∈ pre, Plain e) {name : Bytes} (hname : Plain name) :
    ∀ x ∈ pre ++ [name], Plain x :=
  List.forall_mem_append.mpr ⟨hpre, by simpa using hname⟩

theorem join_of_comps (habs : isAbs path = isAbs srcDir) (hcomps : comps path = comps srcDir ++ pre)
    {name : Bytes}
    (hname : Plain name) :
    join path name = text (isAbs srcDir) (comps srcDir ++ (pre ++ [name])) := by
  have h := join_of_plain path (show [name] ≠ [] by simp) (by simpa using hname)
  rwa [List.intercalate_singleton, habs, hcomps, List.append_assoc] at h

theorem rel_below (srcDir : Bytes) (hne : pre ≠ []) (hpre : ∀ e ∈ pre, Plain e) :
    text (isAbs srcDir) (comps srcDir ++ pre) ≠ srcDir ∧
      rel srcDir (text (isAbs srcDir) (comps srcDir ++ pre)) = some ([sep].intercalate pre) := by
  refine ⟨fun h => ?_, rel_join srcDir hne hpre⟩
  have hcomps := comps_text ((reduced_comps srcDir).append hpre)
  rw [h] at hcomps
  exact hne (List.append_right_eq_self.mp hcomps.symm)

theorem forall₂_walk {t : Listing} (ht : t.Wf) (hpre : ∀ e ∈ pre, Plain e)
    (habs : isAbs path = isAbs srcDir) (hcomps : comps path = comps srcDir ++ pre) :
    List.Forall₂ (fun file entry => archiveFile srcDir file.1 file.2 = .ok entry) (walk path t)
      (t.written pre) := by
  induction t generalizing path pre with
  | nil => exact .nil
  | file name body rest ih =>
    obtain ⟨hname, -, hrest⟩ := ht
    have hpre' := plain_concat hpre hname
    obtain ⟨hdiff, hrel⟩ := rel_below srcDir (by simp) hpre'
    refine .cons ?_ (ih hrest hpre habs hcomps)
    rw [join_of_comps habs hcomps hname, archiveFile, if_neg hdiff]
    simp only [hrel, header]
  | dir name entries rest ihe ih =>
    obtain ⟨hname, -, hentries, hrest⟩ := ht
    have hpre' := plain_concat hpre hname
    obtain ⟨hdiff, hrel⟩ := rel_below srcDir (by simp) hpre'
    have hred := (reduced_comps srcDir).append hpre'
    refine .cons ?_ (List.rel_append ?_ (ih hrest hpre habs hcomps))
    · rw [join_of_comps habs hcomps hname, archiveFile, if_neg hdiff]
      simp only [hrel, header]
    · rw [join_of_comps habs hcomps hname]
      exact ihe hentries hpre' (isAbs_text hred) (comps_text hred)
  | special name rest ih =>
    obtain ⟨hname, -, hrest⟩ := ht
    refine .cons ?_ (ih hrest hpre habs hcomps)
    rw [archiveFile]
    split_ifs <;> rfl

theorem archiveDir_eq (hsrc : srcDir ≠ []) {t : Listing} (ht : t.Wf) :
    archiveDir srcDir t = .ok { entries := (t.written []).reduceOption } := by
  have hwalk :
      (walk srcDir t).mapM (fun file => archiveFile srcDir file.1 file.2) = .ok (t.written []) :=
    List.mapM_eq_ok.mpr (forall₂_walk ht (by simp) rfl (List.append_nil _).symm)
  have hroot : archiveFile srcDir srcDir .dir = .ok none := if_pos rfl
  rw [archiveDir, if_neg hsrc, List.mapM_cons, hroot]
  change (List.mapM _ (walk srcDir t) >>= fun es => pure (none :: es)) >>= _ = _
  rw [hwalk]
  rfl

end

/-! ## An entry -/

section

variable {es : List Bytes}

theorem isAbs_intercalate (hes : ∀ e ∈ es, Plain e) : isAbs ([sep].intercalate es) = false := by
  simpa [isAbs] using head?_intercalate fun e he => (hes e he).isElem

theorem clean_intercalate (hne : es ≠ []) (hes : ∀ e ∈ es, Plain e) :
    clean ([sep].intercalate es) = [sep].intercalate es := by
  have hnames := names_intercalate fun e he => (hes e he).isElem
  rw [clean, isAbs_intercalate hes, comps_of_names hnames hes, text, if_neg (by simp), if_neg hne]

theorem clean_header (hne : es ≠ []) (hes : ∀ e ∈ es, Plain e) (n : Fs.Node) :
    clean (header es n).name = [sep].intercalate es := by
  cases n with
  | file body => exact clean_intercalate hne hes
  | dir =>
    have hnames := names_intercalate fun e he => (hes e he).isElem
    have hne' : [sep].intercalate es ≠ [] := fun h => hne (by rw [← hnames, h]; rfl)
    rw [header, clean_append_sep hne', clean_intercalate hne hes]

theorem dotdot_isPrefix_append (hne : es ≠ []) (hes : ∀ e ∈ es, Plain e) (es' : List Bytes) :
    dotdot <+: [sep].intercalate (es ++ es') ↔ dotdot <+: [sep].intercalate es := by
  obtain ⟨e, es, rfl⟩ := List.exists_cons_of_ne_nil hne
  have he := (hes e List.mem_cons_self).isElem
  rw [List.cons_append, dotdot_isPrefix_intercalate he, dotdot_isPrefix_intercalate he]

theorem extractEntry_eq {σ : Type} (os : Os σ) (destDir : Bytes) {entry : TarEntry}
    (hclean : clean entry.name = [sep].intercalate es) (hne : es ≠ []) (hes : ∀ e ∈ es, Plain e) :
    extractEntry os destDir entry =
      if dotdot <+: [sep].intercalate es ∨ comps destDir = [] then throw (.escapes entry.name)
      else if entry.typeflag = typeDir then mkdirAll os (beneath destDir es)
      else if entry.typeflag = typeReg then do
        mkdirAll os (dir (beneath destDir es))
        (os.write (beneath destDir es) entry.body).adaptExcept .os
        if entry.cut then throw .archive
      else pure () := by
  have hdot : [sep].intercalate es ≠ dot := by
    intro h
    have hnames := names_intercalate fun e he => (hes e he).isElem
    rw [h] at hnames
    exact (hes dot (hnames ▸ List.mem_cons_self)).ne_dot rfl
  have hlocal : (clean entry.name = dot ∨ dotdot <+: clean entry.name ∨ isAbs (clean entry.name)) ↔
      dotdot <+: [sep].intercalate es := by
    rw [hclean, isAbs_intercalate hes]
    simp [hdot]
  have htarget : join destDir (clean entry.name) = beneath destDir es := by
    rw [hclean, join_of_plain destDir hne hes, beneath]
  have hguard : ¬ clean destDir ++ [sep] <+: beneath destDir es ↔ comps destDir = [] := by
    rw [beneath, isPrefix_target_iff hne hes, not_not]
  unfold extractEntry
  dsimp only
  rw [htarget]
  by_cases hup : dotdot <+: [sep].intercalate es
  · rw [if_pos (hlocal.mpr hup), if_pos (.inl hup)]
  · rw [if_neg (mt hlocal.mp hup)]
    by_cases hdest : comps destDir = []
    · rw [if_pos (hguard.mpr hdest), if_pos (.inr hdest)]
    · rw [if_neg (mt hguard.mp hdest), if_neg (not_or.mpr ⟨hup, hdest⟩)]

end

/-! ## Below the destination -/

section

open Fs

variable {fs : Fs} {cwd : List Bytes} {destDir : Bytes} {es : List Bytes} {e : Bytes}

theorem start_beneath (hes : ∀ e ∈ es, Plain e) :
    start cwd (beneath destDir es) = start cwd destDir := by
  rw [start, beneath, isAbs_text ((reduced_comps destDir).append hes), start]

theorem names_beneath (hdest : comps destDir ≠ []) (hes : ∀ e ∈ es, Plain e) :
    names (beneath destDir es) = comps destDir ++ es :=
  names_text ((reduced_comps destDir).append hes) (List.append_ne_nil_of_left_ne_nil hdest es)

theorem comps_route : (comps destDir).foldl enter (start cwd destDir) = place cwd destDir ∧
    ∀ x ∈ route (start cwd destDir) (comps destDir), x ∈ passed cwd destDir :=
  route_resolved (fun h => by rw [start, if_pos h]) fun _ he => isElem_of_mem_names he

theorem place_beneath (hdest : comps destDir ≠ []) (hes : ∀ e ∈ es, Plain e) :
    place cwd (beneath destDir es) = place cwd destDir ++ es := by
  rw [place, start_beneath hes, names_beneath hdest hes, List.foldl_append, comps_route.1,
    foldl_enter_plain hes]

theorem way_beneath_concat (hdest : comps destDir ≠ []) (hes : ∀ x ∈ es ++ [e], Plain x) :
    way (start cwd (beneath destDir (es ++ [e]))) (names (beneath destDir (es ++ [e]))) =
      passed cwd (beneath destDir es) := by
  have hfront := (List.forall_mem_append.mp hes).1
  rw [start_beneath hes, names_beneath hdest hes, ← List.append_assoc, way_append, passed,
    start_beneath hfront, names_beneath hdest hfront]
  rfl

theorem mem_passed_beneath (hdest : comps destDir ≠ []) (hes : ∀ x ∈ es ++ [e], Plain x)
    {x : List Bytes} :
    x ∈ passed cwd (beneath destDir (es ++ [e])) ↔
      x ∈ passed cwd (beneath destDir es) ∨ x = place cwd destDir ++ (es ++ [e]) := by
  rw [mem_passed, way_beneath_concat hdest hes, place_beneath hdest hes]

/-- All directories down to the names below the destination are there. -/
structure Ready (fs : Fs) (cwd : List Bytes) (destDir : Bytes) (es : List Bytes) : Prop where
  start : fs.node cwd = some .dir
  dirs : ∀ x ∈ passed cwd (beneath destDir es), fs.node x = some .dir

theorem Ready.of_within {fs' : Fs} {P : Os.Call → Prop} (h : Ready fs cwd destDir es)
    (hrel : ((os cwd).within P).rel fs fs') : Ready fs' cwd destDir es :=
  ⟨node_of_within hrel h.start, fun x hx => node_of_within hrel (h.dirs x hx)⟩

/-- The file system with `n` at a location, and otherwise as it was. -/
def Put (fs : Fs) (l : List Bytes) (n : Node) (fs' : Fs) : Prop :=
  ∀ x, fs'.node x = if x = l then some n else fs.node x

theorem Ready.put {fs' : Fs} (h : Ready fs cwd destDir es) (hdest : comps destDir ≠ [])
    (hes : ∀ x ∈ es ++ [e], Plain x)
    (hput : Put fs (place cwd destDir ++ (es ++ [e])) .dir fs') :
    Ready fs' cwd destDir (es ++ [e]) := by
  have hkeep {x : List Bytes} (hx : fs.node x = some .dir) : fs'.node x = some .dir := by
    rw [hput, hx, ite_self]
  refine ⟨hkeep h.start, fun x hx => ?_⟩
  obtain hx | rfl := (mem_passed_beneath hdest hes).mp hx
  · exact hkeep (h.dirs x hx)
  · rw [hput, if_pos rfl]

section

variable (h : Ready fs cwd destDir es) (hdest : comps destDir ≠ []) (hes : ∀ x ∈ es ++ [e], Plain x)

include h hdest

theorem run_mkdirAll_of_ready (hes : ∀ e ∈ es, Plain e) :
    mkdirAll (os cwd) (beneath destDir es) fs = .ok () fs := by
  have hfree : ∀ x ∈ passed cwd (beneath destDir es), ∀ body, fs.node x ≠ some (.file body) := by
    intro x hx body
    simp [h.dirs x hx]
  obtain ⟨fs', hrun, hnode⟩ := run_mkdirAll h.start (beneath_ne_nil hdest hes) hfree
  have hsame : fs' = fs := ext_node fun x => by
    rw [hnode]
    split_ifs with hx
    · exact (h.dirs x hx).symm
    · rfl
  exact EStateM.run_adaptExcept_of_ok (hsame ▸ hrun) _

include hes

theorem run_mkdirAll_beneath
    (hfree : ∀ body, fs.node (place cwd destDir ++ (es ++ [e])) ≠ some (.file body)) :
    ∃ fs', mkdirAll (os cwd) (beneath destDir (es ++ [e])) fs = .ok () fs' ∧
      Put fs (place cwd destDir ++ (es ++ [e])) .dir fs' := by
  have hfree' : ∀ x ∈ passed cwd (beneath destDir (es ++ [e])), ∀ body,
      fs.node x ≠ some (.file body) := by
    intro x hx body
    obtain hx | rfl := (mem_passed_beneath hdest hes).mp hx
    · simp [h.dirs x hx]
    · exact hfree body
  obtain ⟨fs', hrun, hnode⟩ := run_mkdirAll h.start (beneath_ne_nil hdest hes) hfree'
  refine ⟨fs', EStateM.run_adaptExcept_of_ok hrun _, fun x => ?_⟩
  rw [hnode]
  simp only [mem_passed_beneath hdest hes]
  split_ifs with hx hx' hx'
  · rfl
  · exact (h.dirs x (hx.resolve_right hx')).symm
  · exact absurd (.inr hx') hx
  · rfl

theorem run_write_beneath (hfree : fs.node (place cwd destDir ++ (es ++ [e])) ≠ some .dir)
    (body : Bytes) :
    ∃ fs', (os cwd).write (beneath destDir (es ++ [e])) body fs = .ok () fs' ∧
      Put fs (place cwd destDir ++ (es ++ [e])) (.file body) fs' := by
  have hfront := (List.forall_mem_append.mp hes).1
  have hloc :
      fs.locate cwd (beneath destDir (es ++ [e])) = .ok (place cwd destDir ++ (es ++ [e])) := by
    rw [← place_beneath hdest hes]
    refine locate_of_way (beneath_ne_nil hdest hes) fun x hx => ?_
    rw [way_beneath_concat hdest hes] at hx
    exact h.dirs x hx
  refine ⟨fs.add (place cwd destDir ++ (es ++ [e])) (.file body), by
    simp [os, hloc, hfree], node_add ?_ hfree _⟩
  rw [← List.append_assoc, List.dropLast_concat, ← place_beneath hdest hfront]
  exact h.dirs _ (mem_passed.mpr (.inr rfl))

theorem run_extractEntry (hup : ¬ dotdot <+: [sep].intercalate (es ++ [e])) {n : Node}
    (hkind : ∀ m, fs.node (place cwd destDir ++ (es ++ [e])) = some m → (m = .dir ↔ n = .dir)) :
    ∃ fs', extractEntry (os cwd) destDir (header (es ++ [e]) n) fs = .ok () fs' ∧
      Put fs (place cwd destDir ++ (es ++ [e])) n fs' := by
  have hne : es ++ [e] ≠ [] := by simp
  obtain ⟨hfront, he⟩ := List.forall_mem_append.mp hes
  rw [extractEntry_eq _ _ (clean_header hne hes n) hne hes, if_neg (not_or.mpr ⟨hup, hdest⟩)]
  cases n with
  | dir =>
    rw [if_pos (show (header (es ++ [e]) .dir).typeflag = typeDir from rfl)]
    refine run_mkdirAll_beneath h hdest hes fun body hbody => ?_
    simpa using hkind _ hbody
  | file body =>
    obtain ⟨fs', hrun, hput⟩ :=
      run_write_beneath h hdest hes (fun hdir => by simpa using hkind _ hdir) body
    refine ⟨fs', ?_, hput⟩
    have htype : (header (es ++ [e]) (.file body)).typeflag = typeReg := rfl
    rw [if_neg (by rw [htype]; decide), if_pos htype,
      dir_beneath hdest hfront (he e List.mem_cons_self),
      EStateM.run_bind_of_ok (run_mkdirAll_of_ready h hdest hfront)]
    exact EStateM.run_bind_of_ok (EStateM.run_adaptExcept_of_ok hrun _) _

end

/-! ## The entries of a tree -/

/-- The tree stands at a location, and all else is as before. -/
structure Unpacked (t : Listing) (l : List Bytes) (fs fs' : Fs) : Prop where
  find : ∀ {r : List Bytes} {n : Node}, t.find r = some n → fs'.node (l ++ r) = some n
  rest : ∀ {x : List Bytes}, (∀ r, x = l ++ r → t.find r = none) → fs'.node x = fs.node x

/-- What is there already is of the kind that the tree has there. -/
def Fits (t : Listing) (l : List Bytes) (fs : Fs) : Prop :=
  ∀ r n, t.find r = some n → ∀ m, fs.node (l ++ r) = some m → (m = .dir ↔ n = .dir)

theorem Fits.of_same {t t' : Listing} {l l' : List Bytes} {fs' : Fs} (h : Fits t l fs)
    (hsame : ∀ r n, t'.find r = some n →
      ∃ r', t.find r' = some n ∧ fs'.node (l' ++ r) = fs.node (l ++ r')) :
    Fits t' l' fs' := by
  intro r n hn m hm
  obtain ⟨r', hn', heq⟩ := hsame r n hn
  exact h r' n hn' m (heq ▸ hm)

section

variable {t entries rest : Listing} {name body : Bytes} {l r : List Bytes} {fs₁ fs₂ fs₃ : Fs}

theorem Unpacked.node_of_notMem (h : Unpacked t l fs₁ fs₂) (hname : name ∉ t.names)
    (r : List Bytes) :
    fs₂.node (l ++ name :: r) = fs₁.node (l ++ name :: r) := by
  refine h.rest fun r' hr' => ?_
  rw [← List.append_cancel_left hr']
  exact Listing.find_eq_none hname r

theorem Unpacked.file (hput : Put fs₁ (l ++ [name]) (.file body) fs₂)
    (hrest : Unpacked rest l fs₂ fs₃)
    (hname : name ∉ rest.names) : Unpacked (.file name body rest) l fs₁ fs₃ where
  find {r n} h := by
    rw [Listing.find] at h
    split_ifs at h with hr
    · subst hr
      rw [hrest.node_of_notMem hname, hput, if_pos rfl, h]
    · exact hrest.find h
  rest {x} h := by
    have hne : x ≠ l ++ [name] := fun hx => by simpa [Listing.find] using h _ hx
    rw [hrest.rest fun r hx => ?_, hput, if_neg hne]
    have hr : r ≠ [name] := fun hr => hne (by rw [hx, hr])
    simpa [Listing.find, hr] using h r hx

theorem Unpacked.dir (hput : Put fs (l ++ [name]) .dir fs₁)
    (hentries : Unpacked entries (l ++ [name]) fs₁ fs₂)
    (hrest : Unpacked rest l fs₂ fs₃) (hname : name ∉ rest.names) :
    Unpacked (.dir name entries rest) l fs fs₃ where
  find {r n} h := by
    obtain ⟨e, r, rfl⟩ := List.exists_cons_of_ne_nil (Listing.ne_nil_of_find h)
    rw [Listing.find] at h
    split_ifs at h with he hr
    · subst he hr
      rw [hrest.node_of_notMem hname, hentries.rest fun r hr => ?_, hput, if_pos rfl, h]
      rw [List.append_right_eq_self.mp hr.symm, Listing.find_nil]
    · subst he
      rw [hrest.node_of_notMem hname, ← hentries.find h, List.append_assoc]
      rfl
    · exact hrest.find h
  rest {x} h := by
    have hne : x ≠ l ++ [name] := fun hx => by simpa [Listing.find] using h _ hx
    rw [hrest.rest fun r hx => ?_, hentries.rest fun r hx => ?_, hput, if_neg hne]
    · rcases eq_or_ne r [] with rfl | hr
      · exact Listing.find_nil _
      · simpa [Listing.find, hr] using h (name :: r) (by rw [hx, List.append_assoc]; rfl)
    · cases r with
      | nil => exact Listing.find_nil _
      | cons e r =>
        by_cases he : e = name
        · exact he ▸ Listing.find_eq_none hname r
        · simpa [Listing.find, he] using h _ hx

end

/-! ### What is there already, as the entries come -/

section

variable {entries rest : Listing} {name body : Bytes} {l : List Bytes} {fs₁ fs₂ : Fs}

theorem Fits.rest_of_file (h : Fits (.file name body rest) l fs)
    (hput : Put fs (l ++ [name]) (.file body) fs₁)
    (hname : name ∉ rest.names) : Fits rest l fs₁ := by
  refine h.of_same fun r n hn => ⟨r, ?_⟩
  obtain ⟨e, r, rfl, he⟩ := Listing.exists_cons_of_find hn hname
  exact ⟨by simpa [Listing.find, he] using hn, by rw [hput, if_neg (by simp [he])]⟩

theorem Fits.entries_of_dir (h : Fits (.dir name entries rest) l fs)
    (hput : Put fs (l ++ [name]) .dir fs₁) :
    Fits entries (l ++ [name]) fs₁ := by
  refine h.of_same fun r n hn => ⟨name :: r, ?_⟩
  have hr : r ≠ [] := Listing.ne_nil_of_find hn
  refine ⟨by simpa [Listing.find, hr] using hn, ?_⟩
  rw [hput, if_neg (by simpa using hr), List.append_assoc]
  rfl

theorem Fits.rest_of_dir (h : Fits (.dir name entries rest) l fs)
    (hput : Put fs (l ++ [name]) .dir fs₁)
    (hentries : Unpacked entries (l ++ [name]) fs₁ fs₂) (hname : name ∉ rest.names) :
    Fits rest l fs₂ := by
  refine h.of_same fun r n hn => ⟨r, ?_⟩
  obtain ⟨e, r, rfl, he⟩ := Listing.exists_cons_of_find hn hname
  refine ⟨by simpa [Listing.find, he] using hn, ?_⟩
  rw [hentries.rest (fun r' hr' => absurd hr' (by simp [he])), hput, if_neg (by simp [he])]

end

theorem run_written (hdest : comps destDir ≠ []) {t : Listing} {pre : List Bytes}
    {fs : Fs} (ht : t.Wf)
    (hpre : ∀ e ∈ pre, Plain e) (hup : ∀ e ∈ t.top, ¬ dotdot <+: [sep].intercalate (pre ++ [e]))
    (hready : Ready fs cwd destDir pre) (hfits : Fits t (place cwd destDir ++ pre) fs) :
    ∃ fs', (t.written pre).reduceOption.forM (extractEntry (os cwd) destDir) fs = .ok () fs' ∧
      Unpacked t (place cwd destDir ++ pre) fs fs' := by
  induction t generalizing pre fs with
  | nil => exact ⟨fs, rfl, by simp [Listing.find], fun _ => rfl⟩
  | special name rest ih =>
    obtain ⟨fs', hrun, hrest⟩ := ih ht.2.2 hpre hup hready hfits
    exact ⟨fs', hrun, hrest.find, hrest.rest⟩
  | file name body rest ih =>
    obtain ⟨hname, hnew, hrest⟩ := ht
    obtain ⟨hup₀, hup⟩ := List.forall_mem_cons.mp hup
    have hkind := hfits [name] (.file body) (by simp [Listing.find])
    rw [List.append_assoc] at hkind
    obtain ⟨fs₁, hrun₁, hput⟩ := run_extractEntry hready hdest (plain_concat hpre hname) hup₀ hkind
    rw [← List.append_assoc] at hput
    have hready₁ := hready.of_within ((keeps_extractEntry _).rel_of_ok hrun₁)
    obtain ⟨fs₂, hrun₂, hun⟩ := ih hrest hpre hup hready₁ (hfits.rest_of_file hput hnew)
    exact ⟨fs₂, (EStateM.run_bind_of_ok hrun₁ _).trans hrun₂, .file hput hun hnew⟩
  | dir name entries rest ihe ih =>
    obtain ⟨hname, hnew, hentries, hrest⟩ := ht
    obtain ⟨hup₀, hup⟩ := List.forall_mem_cons.mp hup
    have hpre' := plain_concat hpre hname
    have hkind := hfits [name] .dir (by simp [Listing.find])
    rw [List.append_assoc] at hkind
    obtain ⟨fs₁, hrun₁, hput⟩ := run_extractEntry hready hdest hpre' hup₀ hkind
    have hready₁ : Ready fs₁ cwd destDir (pre ++ [name]) := hready.put hdest hpre' hput
    rw [← List.append_assoc] at hput
    -- the first name is that of the directory
    have hup₁ : ∀ e ∈ entries.top, ¬ dotdot <+: [sep].intercalate (pre ++ [name] ++ [e]) :=
      fun e _ =>
      mt (dotdot_isPrefix_append (by simp) hpre' [e]).mp hup₀
    obtain ⟨fs₂, hrun₂, hun₂⟩ := ihe hentries hpre' hup₁ hready₁ (by
      rw [← List.append_assoc]
      exact hfits.entries_of_dir hput)
    rw [← List.append_assoc] at hun₂
    have hready₂ : Ready fs₂ cwd destDir pre :=
      (hready.of_within ((keeps_extractEntry _).rel_of_ok hrun₁)).of_within
        ((Frame.keeps_forM keeps_extractEntry).rel_of_ok hrun₂)
    obtain ⟨fs₃, hrun₃, hun₃⟩ := ih hrest hpre hup hready₂ (hfits.rest_of_dir hput hun₂ hnew)
    refine ⟨fs₃, ?_, .dir hput hun₂ hun₃ hnew⟩
    rw [Listing.written, List.reduceOption_cons_of_some, List.reduceOption_append]
    exact (EStateM.run_bind_of_ok hrun₁ _).trans
      ((EStateM.run_forM_append_of_ok hrun₂ _).trans hrun₃)

/-! ## Restoring -/

/-- The path passes no file, and where it leads to there is a directory with nothing in
it, or none. -/
structure Vacant (fs : Fs) (cwd : List Bytes) (destDir : Bytes) : Prop where
  start : fs.node cwd = some .dir
  free : ∀ x ∈ passed cwd destDir, ∀ body, fs.node x ≠ some (.file body)
  empty : ∀ e, fs.node (place cwd destDir ++ [e]) = none

theorem vacant_empty (destDir : Bytes) : Vacant empty [] destDir where
  start := node_empty []
  free x _ body := by
    rw [node_empty]
    split_ifs <;> simp
  empty e := by rw [node_empty, if_neg (by simp)]

theorem Vacant.node_append (h : Vacant fs cwd destDir) {r : List Bytes} (hr : r ≠ []) :
    fs.node (place cwd destDir ++ r) = none := by
  obtain ⟨e, r, rfl⟩ := List.exists_cons_of_ne_nil hr
  rcases eq_or_ne r [] with rfl | hr
  · exact h.empty e
  · have hdir : fs.node (place cwd destDir ++ [e]) ≠ some .dir := by simp [h.empty e]
    have hnone := node_append_eq_none hdir hr
    rwa [List.append_assoc] at hnone

theorem Vacant.notMem_passed (h : Vacant fs cwd destDir) (hclean : clean destDir = destDir)
    {r : List Bytes} (hr : r ≠ []) : place cwd destDir ++ r ∉ passed cwd destDir := by
  intro hmem
  obtain ⟨up, down, hcomps, hdown, -⟩ := reduced_comps destDir
  by_cases hdest : comps destDir = []
  · obtain hdot | hroot := comps_eq_nil.mp hdest
    · obtain rfl : destDir = dot := hclean ▸ hdot
      change cwd ++ r ∈ [cwd, cwd] at hmem
      exact hr (by simpa using hmem)
    · obtain rfl : destDir = [sep] := hclean ▸ hroot
      change [] ++ r ∈ [[]] at hmem
      exact hr (by simpa using hmem)
  have hnames : names destDir = List.replicate up dotdot ++ down := by
    rw [← hcomps, ← List.append_nil (comps destDir), ← names_beneath hdest (by simp),
      beneath_nil, hclean]
  rw [passed, hnames, route_append] at hmem
  obtain hmem | hmem := List.mem_append.mp hmem
  · have hdir := node_of_mem_way_dotdot (node_start h.start destDir) hmem
    rw [h.node_append hr] at hdir
    cases hdir
  · have hpre := isPrefix_of_mem_route hdown hmem
    rw [place, hnames, List.foldl_append, foldl_enter_plain hdown] at hpre
    exact hr (by simpa using hpre.length_le)

theorem restoreNode_of_vacant (h : Vacant fs cwd destDir) (archive : Option Archive) :
    restoreNode (os cwd) archive destDir fs = extractArchive (os cwd) archive destDir fs := by
  rw [restoreNode, EStateM.run_get_bind]
  rcases readDir_of_free h.free h.empty with hdir | hdir <;> rw [hdir] <;> rfl

theorem ready_of_mkdirAll {fs₁ : Fs} (h : Vacant fs cwd destDir) (hdest : comps destDir ≠ [])
    (hnode : ∀ x, fs₁.node x = if x ∈ passed cwd destDir then some .dir else fs.node x) :
    Ready fs₁ cwd destDir [] := by
  refine ⟨by rw [hnode, h.start, ite_self], fun x hx => ?_⟩
  rw [passed, start_beneath (by simp), names_beneath hdest (by simp), List.append_nil] at hx
  rw [hnode, if_pos (comps_route.2 x hx)]

theorem run_entries {t : Listing} (ht : t.Wf) {fs₁ : Fs} (h : Vacant fs cwd destDir)
    (hnode : ∀ x, fs₁.node x = if x ∈ passed cwd destDir then some .dir else fs.node x)
    (hclear : ∀ r ≠ [], place cwd destDir ++ r ∈ passed cwd destDir → t.find r = some .dir)
    (hlocal : t.top = [] ∨ comps destDir ≠ [] ∧ ∀ e ∈ t.top, ¬ dotdot <+: e) :
    ∃ fs', (t.written []).reduceOption.forM (extractEntry (os cwd) destDir) fs₁ = .ok () fs' ∧
      Unpacked t (place cwd destDir) fs₁ fs' := by
  rcases hlocal with htop | ⟨hdest, hup⟩
  · obtain ⟨hfind, hwritten⟩ := Listing.of_top_eq_nil htop
    exact ⟨fs₁, by rw [hwritten]; rfl, by simp [hfind], fun _ => rfl⟩
  · have hfits : Fits t (place cwd destDir ++ []) fs₁ := by
      intro r n hn m hm
      have hr : r ≠ [] := Listing.ne_nil_of_find hn
      rw [List.append_nil, hnode] at hm
      split_ifs at hm with hpassed
      · rw [hclear r hr hpassed] at hn
        cases hm
        cases hn
        rfl
      · rw [h.node_append hr] at hm
        cases hm
    have hrun :=
      run_written hdest ht (by simp) (by simpa using hup) (ready_of_mkdirAll h hdest hnode) hfits
    rwa [List.append_nil] at hrun

theorem node_of_unpacked {t : Listing} {fs₁ fs' : Fs} (h : Vacant fs cwd destDir)
    (hnode : ∀ x, fs₁.node x = if x ∈ passed cwd destDir then some .dir else fs.node x)
    (hclear : ∀ r ≠ [], place cwd destDir ++ r ∈ passed cwd destDir → t.find r = some .dir)
    (hun : Unpacked t (place cwd destDir) fs₁ fs') (r : List Bytes) :
    fs'.node (place cwd destDir ++ r) = if r = [] then some .dir else t.find r := by
  have hsame (hfind : t.find r = none) :
      fs'.node (place cwd destDir ++ r) = fs₁.node (place cwd destDir ++ r) :=
    hun.rest fun r' hr' => by rwa [← List.append_cancel_left hr']
  split_ifs with hr
  · subst hr
    rw [hsame (Listing.find_nil t), List.append_nil, hnode, if_pos (mem_passed.mpr (.inr rfl))]
  · rcases hfind : t.find r with _ | n
    · rw [hsame hfind, hnode, if_neg fun hpassed => ?_, h.node_append hr]
      rw [hclear r hr hpassed] at hfind
      cases hfind
    · exact hun.find hfind

theorem run_entries_ne_ok {t : Listing} (ht : t.Wf) {e : Bytes} (he : e ∈ t.top)
    (hrefused : dotdot <+: e ∨ comps destDir = []) (fs fs' : Fs) :
    (t.written []).reduceOption.forM (extractEntry (os cwd) destDir) fs ≠ .ok () fs' := by
  obtain ⟨n, hn⟩ := Listing.exists_header he []
  have hplain : ∀ x ∈ [] ++ [e], Plain x := by simpa using Listing.plain_of_mem_top ht he
  refine EStateM.forM_ne_ok hn (fun s t hrun => ?_) fs fs'
  rw [extractEntry_eq _ _ (clean_header (by simp) hplain n) (by simp) hplain,
    if_pos (by simpa using hrefused)] at hrun
  cases hrun

end

open Fs in
/-- Restoring undoes a backup exactly if the destination is neither the root nor the current
directory (or there is nothing to restore), no name at the top of the tree begins with `..`, and the
path of the destination does not itself make directories below the destination that are not
of the tree. -/
theorem restore_recreates_iff {srcDir destDir : Bytes} {t : Listing} {fs : Fs} {cwd : List Bytes}
    (hsrc : srcDir ≠ []) (ht : t.Wf) (hvacant : Vacant fs cwd destDir) :
    ∃ archive, archiveDir srcDir t = .ok archive ∧
      ((∃ fs', restoreNode (os cwd) (some archive) destDir fs = .ok () fs' ∧
          ∀ r, fs'.node (place cwd destDir ++ r) = if r = [] then some .dir else t.find r) ↔
        destDir ≠ [] ∧
        (t.top = [] ∨ (clean destDir ≠ dot ∧ clean destDir ≠ [sep]) ∧ ∀ e ∈ t.top, ¬ dotdot <+: e) ∧
        ∀ r ≠ [], place cwd destDir ++ r ∈ passed cwd destDir → t.find r = some .dir) := by
  refine ⟨_, archiveDir_eq hsrc ht, ?_⟩
  rw [← not_or, ← comps_eq_nil, restoreNode_of_vacant hvacant]
  constructor
  · rintro ⟨fs', hrun, hfs'⟩
    obtain ⟨_, fs₁, hmkdir, hrun⟩ := EStateM.ok_of_bind hrun
    obtain ⟨_, fs₂, hentries, hend⟩ := EStateM.ok_of_bind hrun
    cases hend
    have hne : destDir ≠ [] := by
      rintro rfl
      cases hmkdir
    obtain ⟨fs₁', hrun₁, hnode⟩ := run_mkdirAll hvacant.start hne hvacant.free
    rw [mkdirAll, EStateM.run_adaptExcept_of_ok hrun₁] at hmkdir
    cases hmkdir
    refine ⟨hne, ?_, fun r hr hpassed => ?_⟩
    · by_contra hcon
      obtain ⟨htop, hcon⟩ := not_or.mp hcon
      have hrefused : ∃ e ∈ t.top, dotdot <+: e ∨ comps destDir = [] := by
        obtain ⟨e, he⟩ := List.exists_mem_of_ne_nil _ htop
        by_cases hdest : comps destDir = []
        · exact ⟨e, he, .inr hdest⟩
        · push Not at hcon
          obtain ⟨e, he, hup⟩ := hcon hdest
          exact ⟨e, he, .inl hup⟩
      obtain ⟨e, he, hrefused⟩ := hrefused
      exact run_entries_ne_ok ht he hrefused _ _ hentries
    · have hdir := node_of_within ((Frame.keeps_forM keeps_extractEntry).rel_of_ok hentries)
        (show fs₁.node (place cwd destDir ++ r) = some .dir by rw [hnode, if_pos hpassed])
      rw [← hdir, hfs', if_neg hr]
  · rintro ⟨hne, hlocal, hclear⟩
    obtain ⟨fs₁, hrun₁, hnode⟩ := run_mkdirAll hvacant.start hne hvacant.free
    obtain ⟨fs', hentries, hun⟩ := run_entries ht hvacant hnode hclear hlocal
    refine ⟨fs', ?_, node_of_unpacked hvacant hnode hclear hun⟩
    exact (EStateM.run_bind_of_ok (EStateM.run_adaptExcept_of_ok hrun₁ _) _).trans
      (EStateM.run_bind_of_ok hentries _)

def nodeDir : Listing :=
  .file (ascii "node.key") (ascii "k")
    (.dir (ascii "raft") (.file (ascii "log") (ascii "l") .nil) .nil)

theorem restore_recreates_node :
    nodeDir.Wf ∧ Vacant .empty [] (ascii "restored") ∧
    ∃ archive, archiveDir (ascii "/node") nodeDir = .ok archive ∧
      ∃ fs', restoreNode (Fs.os []) (some archive) (ascii "restored") .empty = .ok () fs' ∧
        fs'.node [ascii "restored", ascii "raft", ascii "log"] = some (.file (ascii "l")) := by
  have hwf : nodeDir.Wf := by decide +kernel
  have hvacant := vacant_empty (ascii "restored")
  obtain ⟨archive, harchive, hiff⟩ :=
    restore_recreates_iff (show ascii "/node" ≠ [] by decide) hwf hvacant
  obtain ⟨fs', hrun, hnode⟩ :=
    hiff.mpr ⟨by decide, .inr ⟨by decide +kernel, by decide +kernel⟩, fun r hr hpassed =>
    absurd hpassed (hvacant.notMem_passed (by decide +kernel) hr)⟩
  exact ⟨hwf, hvacant, archive, harchive, fs', hrun, hnode [ascii "raft", ascii "log"]⟩

def single (name : Bytes) : Listing := .file name (ascii "x") .nil

/-- Refused: the current directory, and a name that begins with `..`. And a destination that is
reached through a missing directory below it is left with that directory. -/
theorem restore_refused :
    (Vacant .empty [] dot ∧
      ∃ archive, archiveDir (ascii "/node") (single (ascii "node.key")) = .ok archive ∧
      (restoreNode (Fs.os []) (some archive) dot).outcome .empty =
        .error (.escapes (ascii "node.key"))) ∧
    (Vacant .empty [] (ascii "r") ∧
      ∃ archive, archiveDir (ascii "/node") (single (ascii "..data")) = .ok archive ∧
      (restoreNode (Fs.os []) (some archive) (ascii "r")).outcome .empty =
        .error (.escapes (ascii "..data"))) ∧
    Vacant .empty [] (ascii "r/s/..") ∧
      ∃ archive, archiveDir (ascii "/node") (single (ascii "node.key")) = .ok archive ∧
      (restoreNode (Fs.os []) (some archive) (ascii "r/s/..")).outcome .empty = .ok () ∧
      ((restoreNode (Fs.os []) (some archive) (ascii "r/s/..")).final .empty).node [ascii "r",
        ascii "s"] = some .dir := by
  refine ⟨⟨vacant_empty _, _, rfl, ?_⟩, ⟨vacant_empty _, _, rfl, ?_⟩, vacant_empty _, _, rfl, ?_,
    ?_⟩ <;> decide +kernel

end KvRaft.Kvctl
