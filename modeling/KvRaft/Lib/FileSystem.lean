import KvRaft.Lib.Effect
import KvRaft.Lib.Filepath
import KvRaft.Lib.OrdMap

/-! # Files and directories

The calls of an operating system on paths, over a state of any kind (`Os`), with Go's `MkdirAll`
over them; and a system of directories and files without links as one of these (`Fs`). -/

open Bytes Filepath

/-! ## Calls -/

inductive Errno
  | noent
  | exist
  | notdir
  | isdir
  | other (code : Nat)
deriving DecidableEq, Repr

/-- What an operating system does for a path. Only `mkdir` and `write` change the state, and neither
makes a symbolic link. -/
structure Os (σ : Type) where
  readDir : Bytes → σ → Except Errno (List Bytes)
  /-- Whether there is a directory, links being followed. -/
  stat : Bytes → σ → Except Errno Bool
  /-- The same of the link itself. -/
  lstat : Bytes → σ → Except Errno Bool
  mkdir : Bytes → EStateM Errno σ Unit
  /-- Opens a file, new or cut to nothing, and writes it. -/
  write : Bytes → Bytes → EStateM Errno σ Unit
  IsLink : Bytes → σ → Prop
  isLink_of_mkdir : ∀ {p q : Bytes} {s : σ}, IsLink q ((mkdir p).final s) → IsLink q s
  isLink_of_write : ∀ {p b q : Bytes} {s : σ}, IsLink q ((write p b).final s) → IsLink q s

namespace Os

variable {σ : Type} (os : Os σ)

/-- `Mkdir`, content with a directory that is there, as for `foo/.`. -/
def mkdirMissing (path : Bytes) : EStateM Errno σ Unit := fun s =>
  match os.mkdir path s with
  | .ok _ s' => .ok () s'
  | .error e s' =>
    match os.lstat path s' with
    | .ok true => .ok () s'
    | _ => .error e s'

/-- `MkdirAll` with calls nested at most so deep. -/
def mkdirAllWithin : Nat → Bytes → EStateM Errno σ Unit
  | 0, _ => throw .noent
  | depth + 1, path => do
    let s ← get
    match os.stat path s with
    | .ok isDir => if isDir then pure () else throw .notdir
    | .error _ => do
      if parent path ≠ [] then mkdirAllWithin depth (parent path)
      os.mkdirMissing path

/-- A parent is shorter. -/
def mkdirAll (path : Bytes) : EStateM Errno σ Unit := os.mkdirAllWithin (path.length + 1) path

section

variable {os} {path : Bytes} {s s' : σ} {e : Errno} {depth : Nat}

theorem mkdirAllWithin_of_dir (h : os.stat path s = .ok true) :
    os.mkdirAllWithin (depth + 1) path s = .ok () s := by
  change (match os.stat path s with | .ok isDir => _ | .error _ => _ : EStateM Errno σ Unit) s = _
  rw [h]
  rfl

theorem mkdirAllWithin_of_top (h : os.stat path s = .error e) (htop : parent path = []) :
    os.mkdirAllWithin (depth + 1) path s = os.mkdirMissing path s := by
  change (match os.stat path s with | .ok isDir => _ | .error _ => _ : EStateM Errno σ Unit) s = _
  rw [h]
  simp [htop]

theorem mkdirAllWithin_of_parent (h : os.stat path s = .error e) (hparent : parent path ≠ [])
    (hrun : os.mkdirAllWithin depth (parent path) s = .ok () s') :
    os.mkdirAllWithin (depth + 1) path s = os.mkdirMissing path s' := by
  change (match os.stat path s with | .ok isDir => _ | .error _ => _ : EStateM Errno σ Unit) s = _
  rw [h]
  simp only [ne_eq, hparent, not_false_eq_true, if_true]
  exact EStateM.run_bind_of_ok hrun _

end

inductive Call
  | mkdir (path : Bytes)
  | write (path body : Bytes)
deriving DecidableEq, Repr

def run : Call → σ → σ
  | .mkdir path, s => (os.mkdir path).final s
  | .write path body, s => (os.write path body).final s

/-- Changes by calls with `P`. -/
def within (P : Call → Prop) : Frame σ where
  rel s t := ∃ calls : List Call, (∀ c ∈ calls, P c) ∧ t = calls.foldl (fun s c => os.run c s) s
  refl s := ⟨[], by simp, rfl⟩
  trans := by
    rintro s _ _ ⟨cs, hcs, rfl⟩ ⟨ds, hds, rfl⟩
    refine ⟨cs ++ ds, fun c hc => ?_, by rw [List.foldl_append]⟩
    exact (List.mem_append.mp hc).elim (hcs c) (hds c)

variable {os} {P : Call → Prop}

theorem within_mono {Q : Call → Prop} (h : ∀ c, P c → Q c) (s t : σ) (hP : (os.within P).rel s t) :
    (os.within Q).rel s t := by
  obtain ⟨calls, hcalls, rfl⟩ := hP
  exact ⟨calls, fun c hc => h c (hcalls c hc), rfl⟩

theorem keeps_mkdir {path : Bytes} (h : P (.mkdir path)) : (os.within P).Keeps (os.mkdir path) :=
  fun _ => ⟨[.mkdir path], by simpa using h, rfl⟩

theorem keeps_write {path body : Bytes} (h : P (.write path body)) :
    (os.within P).Keeps (os.write path body) :=
  fun _ => ⟨[.write path body], by simpa using h, rfl⟩

theorem keeps_mkdirMissing {path : Bytes} (h : P (.mkdir path)) :
    (os.within P).Keeps (os.mkdirMissing path) := by
  intro s
  have hfinal : (os.mkdirMissing path).final s = (os.mkdir path).final s := by
    rw [EStateM.final, EStateM.final, mkdirMissing]
    rcases os.mkdir path s with ⟨_, s'⟩ | ⟨e, s'⟩
    · rfl
    · rcases hl : os.lstat path s' with e' | isDir
      · simp [hl]
      · cases isDir <;> simp [hl]
  rw [hfinal]
  exact keeps_mkdir h s

theorem keeps_mkdirAllWithin {depth : Nat} : ∀ {path : Bytes}, P (.mkdir path) →
    (∀ n, parent^[n + 1] path ≠ [] → P (.mkdir (parent^[n + 1] path))) →
    (os.within P).Keeps (os.mkdirAllWithin depth path) := by
  induction depth with
  | zero => exact fun _ _ => Frame.keeps_throw _
  | succ depth ih =>
    intro path h hparents
    refine Frame.keeps_get_bind fun s => ?_
    rcases os.stat path s with e | isDir
    · have hmkdir : (os.within P).Keeps (os.mkdirMissing path) := keeps_mkdirMissing h
      dsimp only
      split_ifs with hnil
      · exact (ih (hparents 0 hnil) fun n => hparents (n + 1)).bind fun _ => hmkdir
      · exact hmkdir
    · exact Frame.keeps_ite (fun _ => Frame.keeps_pure _) fun _ => Frame.keeps_throw _

theorem keeps_mkdirAll {path : Bytes} (h : P (.mkdir path))
    (hparents : ∀ n, parent^[n + 1] path ≠ [] → P (.mkdir (parent^[n + 1] path))) :
    (os.within P).Keeps (os.mkdirAll path) := keeps_mkdirAllWithin h hparents

theorem isLink_of_within {s t : σ} (h : (os.within P).rel s t) {q : Bytes} (hq : os.IsLink q t) :
    os.IsLink q s := by
  obtain ⟨calls, -, rfl⟩ := h
  induction calls generalizing s with
  | nil => exact hq
  | cons c calls ih =>
    have hq := ih hq
    cases c with
    | mkdir path => exact os.isLink_of_mkdir hq
    | write path body => exact os.isLink_of_write hq

end Os

/-! ## Directories and files -/

inductive Fs.Node
  | dir
  | file (body : Bytes)
deriving DecidableEq, Repr

/-- What there is at the locations, which are lists of names from the root. It
stands in directories. -/
structure Fs where
  map : OrdMap (List Bytes) Fs.Node
  root : map.get [] = some .dir
  closed : ∀ {l : List Bytes} {e : Bytes}, map.get (l ++ [e]) ≠ none → map.get l = some .dir

namespace Fs

def node (fs : Fs) (l : List Bytes) : Option Node := fs.map.get l

theorem closed_empty {l : List Bytes} {e : Bytes}
    (h : ((OrdMap.empty : OrdMap (List Bytes) Node).insert [] .dir).get (l ++ [e]) ≠ none) :
    ((OrdMap.empty : OrdMap (List Bytes) Node).insert [] .dir).get l = some .dir := by
  rw [OrdMap.get_insert, if_neg (by simp)] at h
  exact absurd (OrdMap.get_empty _) h

def empty : Fs := ⟨OrdMap.empty.insert [] .dir, OrdMap.get_insert_self _ _ _, closed_empty⟩

theorem node_empty (l : List Bytes) : empty.node l = if l = [] then some .dir else none := by
  rw [node, empty, OrdMap.get_insert, OrdMap.get_empty]
  split_ifs <;> rfl

theorem ext_node {fs fs' : Fs} (h : ∀ l, fs.node l = fs'.node l) : fs = fs' := by
  have hmap : fs.map = fs'.map := OrdMap.ext_get h
  cases fs
  cases fs'
  cases hmap
  rfl

theorem node_dropLast {fs : Fs} {l : List Bytes} (h : fs.node l ≠ none) :
    fs.node l.dropLast = some .dir := by
  rcases List.eq_nil_or_concat l with rfl | ⟨l, e, rfl⟩
  · exact fs.root
  · rw [List.concat_eq_append, List.dropLast_concat]
    exact fs.closed (by rwa [List.concat_eq_append] at h)

theorem node_append_eq_none {fs : Fs} {l : List Bytes} (h : fs.node l ≠ some .dir) {r : List Bytes}
    (hr : r ≠ []) :
    fs.node (l ++ r) = none := by
  induction r using List.reverseRecOn with
  | nil => exact absurd rfl hr
  | append_singleton r e ih =>
    by_contra hne
    have hdir := fs.closed (l := l ++ r) (e := e) (by rwa [List.append_assoc])
    rcases eq_or_ne r [] with rfl | hr
    · rw [List.append_nil] at hdir
      exact h hdir
    · rw [node] at ih
      rw [ih hr] at hdir
      cases hdir

section

variable {map : OrdMap (List Bytes) Node} {l : List Bytes} {n : Node}

theorem root_insert (h : map.get [] = some .dir) (hl : l ≠ []) :
    (map.insert l n).get [] = some .dir := by
  rw [OrdMap.get_insert]
  split_ifs with heq
  · exact absurd heq.symm hl
  · exact h

theorem closed_insert
    (hclosed : ∀ {l : List Bytes} {e : Bytes}, map.get (l ++ [e]) ≠ none → map.get l = some .dir)
    (hdir : map.get l.dropLast = some .dir) (hl : map.get l ≠ some .dir)
    {m : List Bytes} {e : Bytes}
    (h : (map.insert l n).get (m ++ [e]) ≠ none) : (map.insert l n).get m = some .dir := by
  have hm : map.get m = some .dir := by
    rw [OrdMap.get_insert] at h
    split_ifs at h with heq
    · rwa [← heq, List.dropLast_concat] at hdir
    · exact hclosed h
  rw [OrdMap.get_insert]
  split_ifs with heq
  · exact absurd (heq ▸ hm) hl
  · exact hm

end

/-- Something new in a directory, or another file in the place of one. -/
def add (fs : Fs) (l : List Bytes) (n : Node) : Fs :=
  if h : l ≠ [] ∧ fs.map.get l.dropLast = some .dir ∧ fs.map.get l ≠ some .dir then
    ⟨fs.map.insert l n, root_insert fs.root h.1, closed_insert fs.closed h.2.1 h.2.2⟩
  else fs

theorem node_add {fs : Fs} {l : List Bytes} (hdir : fs.node l.dropLast = some .dir)
    (hl : fs.node l ≠ some .dir)
    (n : Node) (x : List Bytes) : (fs.add l n).node x = if x = l then some n else fs.node x := by
  have hne : l ≠ [] := fun h => hl (h ▸ fs.root)
  rw [add, dif_pos ⟨hne, hdir, hl⟩, node, OrdMap.get_insert]
  split_ifs <;> rfl

theorem node_add_of_dir {fs : Fs} {x : List Bytes} (h : fs.node x = some .dir) (l : List Bytes)
    (n : Node) :
    (fs.add l n).node x = some .dir := by
  rw [add]
  split_ifs with hl
  · rw [node, OrdMap.get_insert]
    split_ifs with hx
    · exact absurd (hx ▸ h) hl.2.2
    · exact h
  · exact h

def children (fs : Fs) (l : List Bytes) : List Bytes :=
  (fs.map.scan fun k => k ≠ [] ∧ k.dropLast = l).map fun e => e.1.getLastD []

theorem children_eq_nil {fs : Fs} {l : List Bytes} (h : ∀ e, fs.node (l ++ [e]) = none) :
    fs.children l = [] := by
  rw [children, List.map_eq_nil_iff, List.eq_nil_iff_forall_not_mem]
  rintro ⟨k, n⟩ hk
  obtain ⟨hkey, hget⟩ := OrdMap.mem_scan.mp hk
  obtain ⟨hne, rfl⟩ := of_decide_eq_true hkey
  have hnone := h (k.getLast hne)
  rw [List.dropLast_append_getLast, node, hget] at hnone
  cases hnone

/-! ## Following a path -/

/-- Where an element leads to. -/
def enter (l : List Bytes) (e : Bytes) : List Bytes :=
  if e = dot then l else if e = dotdot then l.dropLast else l ++ [e]

def walk (fs : Fs) : List Bytes → List Bytes → Except Errno (List Bytes)
  | l, [] => .ok l
  | l, e :: es =>
    match fs.node l with
    | none => .error .noent
    | some (.file _) => .error .notdir
    | some .dir => walk fs (enter l e) es

def start (cwd : List Bytes) (p : Bytes) : List Bytes := if isAbs p then [] else cwd

/-- The location of a path. There may be nothing. -/
def locate (fs : Fs) (cwd : List Bytes) (p : Bytes) : Except Errno (List Bytes) :=
  if p = [] then .error .noent else fs.walk (start cwd p) (names p)

def os (cwd : List Bytes) : Os Fs where
  readDir p fs := do
    let l ← fs.locate cwd p
    match fs.node l with
    | none => .error .noent
    | some (.file _) => .error .notdir
    | some .dir => .ok (fs.children l)
  stat p fs := do
    let l ← fs.locate cwd p
    match fs.node l with
    | none => .error .noent
    | some n => .ok (n = .dir)
  lstat p fs := do
    let l ← fs.locate cwd p
    match fs.node l with
    | none => .error .noent
    | some n => .ok (n = .dir)
  mkdir p fs :=
    match fs.locate cwd p with
    | .error e => .error e fs
    | .ok l => if fs.node l = none then .ok () (fs.add l .dir) else .error .exist fs
  write p b fs :=
    match fs.locate cwd p with
    | .error e => .error e fs
    | .ok l => if fs.node l = some .dir then .error .isdir fs else .ok () (fs.add l (.file b))
  IsLink _ _ := False
  isLink_of_mkdir := id
  isLink_of_write := id

theorem node_run {fs : Fs} {x : List Bytes} (h : fs.node x = some .dir) (cwd : List Bytes)
    (c : Os.Call) :
    ((os cwd).run c fs).node x = some .dir := by
  cases c with
  | mkdir p =>
    rw [Os.run, EStateM.final, os]
    dsimp only
    rcases fs.locate cwd p with e | l
    · exact h
    · dsimp only
      split_ifs
      · exact node_add_of_dir h l _
      · exact h
  | write p b =>
    rw [Os.run, EStateM.final, os]
    dsimp only
    rcases fs.locate cwd p with e | l
    · exact h
    · dsimp only
      split_ifs
      · exact h
      · exact node_add_of_dir h l _

theorem node_of_within {cwd : List Bytes} {P : Os.Call → Prop} {fs fs' : Fs}
    (h : ((os cwd).within P).rel fs fs')
    {x : List Bytes} (hx : fs.node x = some .dir) : fs'.node x = some .dir := by
  obtain ⟨calls, -, rfl⟩ := h
  induction calls generalizing fs with
  | nil => exact hx
  | cons c calls ih => exact ih (node_run hx cwd c)

def way (l : List Bytes) : List Bytes → List (List Bytes)
  | [] => []
  | e :: es => l :: way (enter l e) es

theorem way_append (l es es' : List Bytes) :
    way l (es ++ es') = way l es ++ way (es.foldl enter l) es' := by
  induction es generalizing l with
  | nil => rfl
  | cons e es ih => simp [way, ih]

theorem walk_of_way {fs : Fs} {l es : List Bytes} (h : ∀ x ∈ way l es, fs.node x = some .dir) :
    fs.walk l es = .ok (es.foldl enter l) := by
  induction es generalizing l with
  | nil => rfl
  | cons e es ih =>
    obtain ⟨hl, hes⟩ := List.forall_mem_cons.mp h
    rw [walk, hl]
    exact ih hes

theorem walk_of_free {fs : Fs} {l es : List Bytes}
    (h : ∀ x ∈ way l es, ∀ body, fs.node x ≠ some (.file body)) :
    fs.walk l es = .ok (es.foldl enter l) ∨ fs.walk l es = .error .noent := by
  induction es generalizing l with
  | nil => exact .inl rfl
  | cons e es ih =>
    obtain ⟨hl, hes⟩ := List.forall_mem_cons.mp h
    rw [walk]
    rcases hn : fs.node l with _ | _ | body
    · exact .inr rfl
    · exact ih hes
    · exact absurd hn (hl body)

theorem way_of_walk {fs : Fs} {l es m : List Bytes} (h : fs.walk l es = .ok m) :
    m = es.foldl enter l ∧ ∀ x ∈ way l es, fs.node x = some .dir := by
  induction es generalizing l with
  | nil =>
    cases h
    exact ⟨rfl, by simp [way]⟩
  | cons e es ih =>
    rw [walk] at h
    rcases hl : fs.node l with _ | _ | body
    · simp [hl] at h
    · rw [hl] at h
      obtain ⟨hm, hes⟩ := ih h
      exact ⟨hm, List.forall_mem_cons.mpr ⟨hl, hes⟩⟩
    · simp [hl] at h

theorem node_start {fs : Fs} {cwd : List Bytes} (hcwd : fs.node cwd = some .dir) (p : Bytes) :
    fs.node (start cwd p) = some .dir := by
  rw [start]
  split_ifs
  · exact fs.root
  · exact hcwd

/-- Where a path leads to if nothing is in its way. -/
def place (cwd : List Bytes) (p : Bytes) : List Bytes := (names p).foldl enter (start cwd p)

section

variable {fs : Fs} {cwd : List Bytes} {p : Bytes}

theorem locate_of_way (hp : p ≠ []) (h : ∀ x ∈ way (start cwd p) (names p), fs.node x = some .dir) :
    fs.locate cwd p = .ok (place cwd p) := by
  rw [locate, if_neg hp, walk_of_way h]
  rfl

theorem node_enter {l : List Bytes} (hl : fs.node l = some .dir) {e : Bytes}
    (h : fs.node (enter l e) = none) :
    fs.node (enter l e).dropLast = some .dir := by
  have hex : fs.node l ≠ none := by simp [hl]
  rw [enter] at h ⊢
  split_ifs at h ⊢
  · simp [hl] at h
  · simp [node_dropLast hex] at h
  · rwa [List.dropLast_concat]

theorem node_place (hcwd : fs.node cwd = some .dir)
    (hway : ∀ x ∈ way (start cwd p) (names p), fs.node x = some .dir)
    (h : fs.node (place cwd p) = none) : fs.node (place cwd p).dropLast = some .dir := by
  rw [place] at h ⊢
  rcases List.eq_nil_or_concat (names p) with hnil | ⟨es, e, hes⟩
  · simp [hnil, node_start hcwd] at h
  · rw [List.concat_eq_append] at hes
    rw [hes, List.foldl_append] at h ⊢
    refine node_enter (hway _ ?_) h
    rw [hes, way_append]
    exact List.mem_append_right _ List.mem_cons_self

/-! ## Making directories -/

theorem run_mkdirMissing (hp : p ≠ []) (hcwd : fs.node cwd = some .dir)
    (hway : ∀ x ∈ way (start cwd p) (names p), fs.node x = some .dir)
    (hfree : ∀ body, fs.node (place cwd p) ≠ some (.file body)) :
    ∃ fs', (os cwd).mkdirMissing p fs = .ok () fs' ∧
      ∀ x, fs'.node x = if x = place cwd p then some .dir else fs.node x := by
  have hloc := locate_of_way hp hway
  rcases hn : fs.node (place cwd p) with _ | _ | body
  · refine ⟨fs.add (place cwd p) .dir, ?_, node_add (node_place hcwd hway hn) (by simp [hn]) _⟩
    simp [Os.mkdirMissing, os, hloc, hn]
  · refine ⟨fs, ?_, fun x => ?_⟩
    · simp [Os.mkdirMissing, os, hloc, hn, bind, Except.bind]
    · split_ifs with hx
      · rw [hx, hn]
      · rfl
  · exact absurd hn (hfree body)

/-- The locations that elements pass, the last one included. -/
def route (l es : List Bytes) : List (List Bytes) := way l es ++ [es.foldl enter l]

/-- The locations that a path passes, its own included. -/
def passed (cwd : List Bytes) (p : Bytes) : List (List Bytes) := route (start cwd p) (names p)

theorem mem_passed {x : List Bytes} : x ∈ passed cwd p ↔
    x ∈ way (start cwd p) (names p) ∨ x = place cwd p := by
  simp [passed, route, place]

theorem passed_parent (h : names p ≠ []) (hparent : parent p ≠ []) :
    passed cwd (parent p) = way (start cwd p) (names p) := by
  obtain ⟨e, hnames, -⟩ := names_parent h
  rw [passed, start, isAbs_parent hparent, ← start, hnames, way_append]
  rfl

theorem readDir_of_free (hfree : ∀ x ∈ passed cwd p, ∀ body, fs.node x ≠ some (.file body))
    (hempty : ∀ e, fs.node (place cwd p ++ [e]) = none) :
    (os cwd).readDir p fs = .ok [] ∨ (os cwd).readDir p fs = .error .noent := by
  by_cases hp : p = []
  · exact .inr (by simp [os, locate, hp, bind, Except.bind])
  have hwalk := walk_of_free fun x hx => hfree x (mem_passed.mpr (.inl hx))
  rcases hwalk with hok | hnone
  · change fs.walk _ _ = .ok (place cwd p) at hok
    rcases hn : fs.node (place cwd p) with _ | _ | body
    · exact .inr (by simp [os, locate, hp, hok, hn, bind, Except.bind])
    · exact .inl (by simp [os, locate, hp, hok, hn, children_eq_nil hempty, bind, Except.bind])
    · exact absurd hn (hfree _ (mem_passed.mpr (.inr rfl)) body)
  · exact .inr (by simp [os, locate, hp, hnone, bind, Except.bind])

theorem stat_of_way (hp : p ≠ []) (hway : ∀ x ∈ way (start cwd p) (names p), fs.node x = some .dir)
    {n : Node} (hn : fs.node (place cwd p) = some n) : (os cwd).stat p fs = .ok (n = .dir) := by
  simp [os, locate_of_way hp hway, hn, bind, Except.bind]

theorem way_of_stat {isDir : Bool} (h : (os cwd).stat p fs = .ok isDir) :
    (∀ x ∈ way (start cwd p) (names p), fs.node x = some .dir) ∧
      ∃ n, fs.node (place cwd p) = some n ∧ isDir = decide (n = .dir) := by
  have hp : p ≠ [] := by
    rintro rfl
    cases h
  rcases hw : fs.walk (start cwd p) (names p) with e | l
  · simp [os, locate, hp, hw, bind, Except.bind] at h
  · obtain ⟨rfl, hway⟩ := way_of_walk hw
    rcases hn : fs.node (place cwd p) with _ | n
    · simp [os, locate_of_way hp hway, hn, bind, Except.bind] at h
    · rw [stat_of_way hp hway hn] at h
      cases h
      exact ⟨hway, n, rfl, rfl⟩

theorem mkdirAllWithin_of_missing {depth : Nat} {e : Errno} (hcwd : fs.node cwd = some .dir)
    (hnames : names p ≠ []) (hstat : (os cwd).stat p fs = .error e)
    (hparent : parent p ≠ [] → ∃ fs₁, (os cwd).mkdirAllWithin depth (parent p) fs = .ok () fs₁ ∧
      ∀ x, fs₁.node x = if x ∈ passed cwd (parent p) then some .dir else fs.node x) :
    ∃ fs₁, (os cwd).mkdirAllWithin (depth + 1) p fs = (os cwd).mkdirMissing p fs₁ ∧
      ∀ x, fs₁.node x = if x ∈ way (start cwd p) (names p) then some .dir else fs.node x := by
  by_cases hnil : parent p = []
  · obtain ⟨e, he, habs⟩ := names_parent hnames
    have hway : way (start cwd p) (names p) = [cwd] := by
      rw [he, hnil, start, habs hnil]
      rfl
    refine ⟨fs, Os.mkdirAllWithin_of_top hstat hnil, fun x => ?_⟩
    rw [hway]
    split_ifs with hx
    · rw [List.mem_singleton.mp hx, hcwd]
    · rfl
  · obtain ⟨fs₁, hrun, hnode⟩ := hparent hnil
    rw [passed_parent hnames hnil] at hnode
    exact ⟨fs₁, Os.mkdirAllWithin_of_parent hstat hnil hrun, hnode⟩

theorem run_mkdirAllWithin (hcwd : fs.node cwd = some .dir) :
    ∀ {depth : Nat} {p : Bytes}, p.length < depth → p ≠ [] →
    (∀ x ∈ passed cwd p, ∀ body, fs.node x ≠ some (.file body)) →
    ∃ fs', (os cwd).mkdirAllWithin depth p fs = .ok () fs' ∧
      ∀ x, fs'.node x = if x ∈ passed cwd p then some .dir else fs.node x
  | 0, p, hlen, _, _ => absurd hlen (Nat.not_lt_zero _)
  | depth + 1, p, hlen, hp, hfree => by
    have hplace (body : Bytes) := hfree _ (mem_passed.mpr (.inr rfl)) body
    rcases hstat : (os cwd).stat p fs with e | isDir
    · have hnames : names p ≠ [] := by
        intro h
        have hdir : fs.node (place cwd p) = some .dir := by
          rw [place, h]
          exact node_start hcwd p
        rw [stat_of_way hp (by simp [h, way]) hdir] at hstat
        cases hstat
      obtain ⟨fs₁, hrun, hnode⟩ := mkdirAllWithin_of_missing hcwd hnames hstat fun hnil => by
        have hlt := length_parent_lt hp
        refine run_mkdirAllWithin hcwd (show (parent p).length < depth by omega) hnil fun x hx => ?_
        rw [passed_parent hnames hnil] at hx
        exact hfree x (mem_passed.mpr (.inl hx))
      have hcwd₁ : fs₁.node cwd = some .dir := by
        rw [hnode, hcwd, ite_self]
      have hfree₁ (body : Bytes) : fs₁.node (place cwd p) ≠ some (.file body) := by
        rw [hnode]
        split_ifs
        · simp
        · exact hplace body
      obtain ⟨fs', hmissing, hnode'⟩ :=
        run_mkdirMissing hp hcwd₁ (fun x hx => by rw [hnode, if_pos hx]) hfree₁
      refine ⟨fs', hrun.trans hmissing, fun x => ?_⟩
      rw [hnode', hnode]
      simp only [mem_passed]
      split_ifs <;> simp_all
    · obtain ⟨hway, n, hn, rfl⟩ := way_of_stat hstat
      cases n with
      | file body => exact absurd hn (hplace body)
      | dir =>
        refine ⟨fs, Os.mkdirAllWithin_of_dir hstat, fun x => ?_⟩
        split_ifs with hx
        · obtain hx | rfl := mem_passed.mp hx
          · exact hway x hx
          · exact hn
        · rfl

theorem run_mkdirAll (hcwd : fs.node cwd = some .dir) (hp : p ≠ [])
    (hfree : ∀ x ∈ passed cwd p, ∀ body, fs.node x ≠ some (.file body)) :
    ∃ fs', (os cwd).mkdirAll p fs = .ok () fs' ∧
      ∀ x, fs'.node x = if x ∈ passed cwd p then some .dir else fs.node x :=
  run_mkdirAllWithin hcwd (Nat.lt_succ_self _) hp hfree

/-! ## Cleaned paths -/

theorem enter_plain {l : List Bytes} {e : Bytes} (he : Plain e) : enter l e = l ++ [e] := by
  rw [enter, if_neg he.ne_dot, if_neg he.ne_dotdot]

theorem foldl_enter_plain {es : List Bytes} (hes : ∀ e ∈ es, Plain e) (l : List Bytes) :
    es.foldl enter l = l ++ es := by
  induction es generalizing l with
  | nil => simp
  | cons e es ih =>
    obtain ⟨he, hes⟩ := List.forall_mem_cons.mp hes
    rw [List.foldl_cons, enter_plain he, ih hes]
    simp

theorem node_of_mem_way_dotdot {l x : List Bytes} (hl : fs.node l = some .dir) {n : Nat}
    (hx : x ∈ way l (List.replicate n dotdot)) : fs.node x = some .dir := by
  induction n generalizing l with
  | zero => cases hx
  | succ n ih =>
    obtain rfl | hx := List.mem_cons.mp hx
    · exact hl
    · exact ih (node_dropLast (by simp [hl])) hx

theorem isPrefix_of_mem_route {l es x : List Bytes} (hes : ∀ e ∈ es, Plain e)
    (hx : x ∈ route l es) : x <+: l ++ es := by
  induction es generalizing l with
  | nil =>
    obtain rfl : x = l := by simpa [route, way] using hx
    exact List.prefix_append ..
  | cons e es ih =>
    obtain ⟨he, hes⟩ := List.forall_mem_cons.mp hes
    obtain rfl | hx := List.mem_cons.mp hx
    · exact List.prefix_append ..
    · have hpre := ih hes hx
      rwa [enter_plain he, List.append_assoc] at hpre

theorem route_append (l es es' : List Bytes) :
    route l (es ++ es') = way l es ++ route (es.foldl enter l) es' := by
  rw [route, way_append, List.foldl_append, List.append_assoc, route]

theorem mem_route_last (l es : List Bytes) : es.foldl enter l ∈ route l es := by simp [route]

theorem mem_route_concat {l es x : List Bytes} {e : Bytes} :
    x ∈ route l (es ++ [e]) ↔ x ∈ route l es ∨ x = enter (es.foldl enter l) e := by
  rw [route_append]
  simp [route, way, or_assoc]

theorem route_resolved {abs : Bool} {l es : List Bytes} (hl : abs = true → l = [])
    (hes : ∀ e ∈ es, IsElem e) :
    (es.foldl (push abs) []).foldl enter l = es.foldl enter l ∧
      ∀ x ∈ route l (es.foldl (push abs) []), x ∈ route l es := by
  induction es using List.reverseRecOn with
  | nil => exact ⟨rfl, fun x => id⟩
  | append_singleton es e ih =>
    obtain ⟨hfront, he⟩ := List.forall_mem_append.mp hes
    obtain ⟨hplace, hroute⟩ := ih hfront
    obtain ⟨up, down, hacc, hdown, hup⟩ : Reduced abs _ := reduced_foldl_push hfront
    rw [hacc] at hplace hroute
    -- the place of one element more, and what leads there
    have hlast :
        (es ++ [e]).foldl enter l = enter ((List.replicate up dotdot ++ down).foldl enter l) e := by
      rw [List.foldl_append, hplace]
      rfl
    have hmore : ∀ x, x ∈ route l (List.replicate up dotdot ++ down) → x ∈ route l (es ++ [e]) :=
      fun x hx => mem_route_concat.mpr (.inl (hroute x hx))
    have hnew : (es ++ [e]).foldl enter l ∈ route l (es ++ [e]) := mem_route_last ..
    rw [List.foldl_append, hacc, List.foldl_cons, List.foldl_nil]
    obtain ⟨rfl,
      hpush⟩ | (⟨rfl, rfl, habs, rfl, hpush⟩ | ⟨rfl, rfl, -, hpush⟩ | ⟨front, last, rfl,
        rfl, hpush⟩) |
      ⟨hplain, hpush⟩ := push_cases hdown hup (he e List.mem_cons_self) <;> rw [hpush]
    · exact ⟨hlast.symm, hmore⟩
    · obtain rfl := hl habs
      exact ⟨hlast.symm, hmore⟩
    · rw [List.append_nil] at hlast hmore
      rw [List.replicate_succ']
      refine ⟨by rw [hlast, List.foldl_append]; rfl, fun x hx => ?_⟩
      obtain hx | rfl := mem_route_concat.mp hx
      · exact hmore x hx
      · rwa [hlast] at hnew
    · have hplain : Plain last := hdown last (by simp)
      have hback : enter ((List.replicate up dotdot ++ (front ++ [last])).foldl enter l) dotdot =
          (List.replicate up dotdot ++ front).foldl enter l := by
        rw [← List.append_assoc, List.foldl_append, List.foldl_cons, List.foldl_nil,
          enter_plain hplain, enter, if_neg (by decide), if_pos rfl, List.dropLast_concat]
      refine ⟨by rw [hlast, hback], fun x hx => hmore x ?_⟩
      rw [← List.append_assoc]
      exact mem_route_concat.mpr (.inl hx)
    · rw [← List.append_assoc]
      refine ⟨by rw [hlast, List.foldl_append]; rfl, fun x hx => ?_⟩
      obtain hx | rfl := mem_route_concat.mp hx
      · exact hmore x hx
      · rwa [hlast] at hnew

end

end Fs
