/-
Directories and paths.

In a well-formed file system every block of a directory is there, so that
looking for an entry changes nothing.
-/
import Jos.Fs.FileOps
import Mathlib.Data.List.Find

namespace Jos

open Prog Bytes

namespace Fs

/-! ### Directories -/

/-- The number of block `i` of the file, or zero. -/
def blockAt (m : Mem) (f i : ℕ) : ℕ :=
  if i < ndirect then direct m f i
  else if i < ndirect + nindirect ∧ indirect m f ≠ 0 then blockWord m (indirect m f) (i - ndirect)
  else 0

def blockEntries (m : Mem) (d i : ℕ) : List ℕ :=
  (List.range blkfiles).map fun j => dirEntry (blockAt m d i * blksize) j

def entries (m : Mem) (d : ℕ) : List ℕ := (List.range (dirBlocks (fileSize m d))).flatMap (blockEntries m d)

/-- The first entry with the name. -/
def lookup (m : Mem) (d : ℕ) (name : List UInt8) : Option ℕ := (entries m d).find? (named name m)

/-- The entries of a directory that has only direct blocks. -/
def InDir (m : Mem) (d g : ℕ) : Prop := ∃ i j, i < dirBlocks (fileSize m d) ∧ i < ndirect ∧
  direct m d i ≠ 0 ∧ j < blkfiles ∧ g = dirEntry (direct m d i * blksize) j

section Lookup

variable {m : Mem} {d f g i : ℕ} {name : List UInt8}

theorem blockAt_direct (hi : i < ndirect) : blockAt m f i = direct m f i := if_pos hi

theorem InDir.entry (h : InDir m d g) (hd : IsFile m d) (hdir : IsDir m d) : Entry m g := by
  obtain ⟨i, j, hi, hi', hv, hj, rfl⟩ := h
  exact .entry hd.1 hd.2 hdir hi hi' hv hj

theorem mem_entries (h : FsInv m) (hd : IsFile m d) (hdir : IsDir m d) : g ∈ entries m d ↔ InDir m d g := by
  obtain ⟨-, hsmall, hblocks⟩ := h.dir d hd hdir
  simp only [entries, blockEntries, List.mem_flatMap, List.mem_map, List.mem_range]
  constructor
  · rintro ⟨i, hi, j, hj, rfl⟩
    have hlt : i < ndirect := by omega
    rw [blockAt_direct hlt]
    exact ⟨i, j, hi, hlt, (hblocks i hlt).mpr hi, hj, rfl⟩
  · rintro ⟨i, j, hi, hlt, -, hj, rfl⟩
    refine ⟨i, hi, j, hj, ?_⟩
    rw [blockAt_direct hlt]

/-- A directory that can be searched without a change. -/
structure DirGood (m : Mem) (d : ℕ) : Prop where
  node : Node m d
  ok : DirOk m d
  range : ∀ i < ndirect, direct m d i ≠ 0 → direct m d i < nblocks m

theorem FsInv.dirGood (h : FsInv m) (hd : IsFile m d) (hdir : IsDir m d) : DirGood m d where
  node := hd.1.node h.owned
  ok := h.dir d hd hdir
  range i hi hv := (h.owned.range (.direct d i) ⟨hd, hi⟩ hv).2

theorem dirScan_eq (hs : Sound m) (hg : DirGood m d) (test : Mem → ℕ → Bool) :
    ∀ n i, i + n = dirBlocks (fileSize m d) → dirScan d test n i m =
      .ret (.ok (((List.range' i n).flatMap (blockEntries m d)).find? (test m))) m := by
  obtain ⟨-, hsmall, hblocks⟩ := hg.ok
  intro n
  induction n with
  | zero =>
    intro i _
    rfl
  | succ n ih =>
    intro i hi
    have hlt : i < ndirect := by omega
    have hv : direct m d i ≠ 0 := (hblocks i hlt).mpr (by omega)
    have hget := fileGetBlock_has hs hg.node hlt hv (hg.range i hlt hv)
    rw [dirScan, ret_bind hget, List.range'_succ, List.flatMap_cons, List.find?_append, blockEntries,
      List.find?_map, blockAt_direct hlt]
    simp only [get_bind]
    have hcomp : (test m ∘ fun j => dirEntry (direct m d i * blksize) j) =
        fun j => test m (dirEntry (direct m d i * blksize) j) := rfl
    rw [hcomp]
    cases (List.range blkfiles).find? fun j => test m (dirEntry (direct m d i * blksize) j) with
    | some j => rfl
    | none => exact ih (i + 1) (by omega)

theorem dirScan_start (h : FsInv m) (hd : IsFile m d) (hdir : IsDir m d) (test : Mem → ℕ → Bool) :
    (∃ g, InDir m d g ∧ test m g = true ∧
      dirScan d test (dirBlocks (fileSize m d)) 0 m = .ret (.ok (some g)) m) ∨
    ((∀ g, InDir m d g → test m g = false) ∧
      dirScan d test (dirBlocks (fileSize m d)) 0 m = .ret (.ok none) m) := by
  have hscan := dirScan_eq h.sound (h.dirGood hd hdir) test _ 0 (Nat.zero_add _)
  rw [← List.range_eq_range', ← entries] at hscan
  cases hfind : (entries m d).find? (test m) with
  | some g =>
    rw [hfind] at hscan
    exact .inl ⟨g, (mem_entries h hd hdir).mp (List.mem_of_find?_eq_some hfind), List.find?_some hfind, hscan⟩
  | none =>
    rw [hfind] at hscan
    refine .inr ⟨fun g hg => ?_, hscan⟩
    simpa using List.find?_eq_none.mp hfind g ((mem_entries h hd hdir).mpr hg)

theorem DirGood.size_ok (hg : DirGood m d) :
    (when (rd32 m (fSize d) % blksize ≠ 0) (halt .dirSize) : FsM Unit) m = .ret () m := by
  have hal : ¬ rd32 m (fSize d) % blksize ≠ 0 := not_not.mpr hg.ok.aligned
  rw [when, if_neg hal]
  rfl

theorem dirLookup_eq (hs : Sound m) (hg : DirGood m d) (name : List UInt8) :
    dirLookup d name m = .ret ((lookup m d name).elim (.error (-eNotFound)) .ok) m := by
  have hscan : dirScan d (named name) (dirBlocks (rd32 m (fSize d))) 0 m = .ret (.ok (lookup m d name)) m := by
    rw [lookup, entries, List.range_eq_range']
    exact dirScan_eq hs hg (named name) _ 0 (Nat.zero_add _)
  rw [dirLookup, ret_bind (load32_eq (InDisk.fSize hg.node hs)), ret_bind hg.size_ok, ret_bind hscan]
  cases lookup m d name with
  | none => rfl
  | some g => rfl

end Lookup

/-! ### Names -/

/-- A name that a component of a path can be. -/
structure ProperName (name : List UInt8) : Prop where
  ne_nil : name ≠ []
  short : name.length < maxnamelen
  no_zero : 0 ∉ name
  no_slash : slash ∉ name

theorem named_live {m : Mem} {g : ℕ} {name : List UInt8} (hne : name ≠ []) (hz : 0 ∉ name)
    (h : named name m g = true) : m g ≠ 0 := by
  cases name with
  | nil => exact absurd rfl hne
  | cons c cs =>
    have hc : m g = c := by
      have := (Bool.and_eq_true _ _ ▸ h : (m g == c) = true ∧ _).1
      exact eq_of_beq this
    rw [hc]
    rintro rfl
    exact hz (List.mem_cons_self ..)

/-- The non-empty names between the slashes of a path. -/
def components (path : List UInt8) : List (List UInt8) :=
  (path.splitOnP (· == slash)).filter (· ≠ [])

section Components

variable {path name rest : List UInt8}

theorem components_slash (path : List UInt8) : components (slash :: path) = components path := by
  unfold components
  rw [List.splitOnP_cons_eq_if_modifyHead]
  rfl

theorem components_skipSlash (path : List UInt8) : components (skipSlash path) = components path := by
  induction path with
  | nil => rfl
  | cons c cs ih =>
    by_cases hc : c = slash
    · subst hc
      rw [components_slash, ← ih]
      rfl
    · have hskip : skipSlash (c :: cs) = c :: cs := List.dropWhile_cons_of_neg (by simpa using hc)
      rw [hskip]

theorem components_name (hne : name ≠ []) (hs : slash ∉ name) :
    components (name ++ slash :: rest) = name :: components rest := by
  have hno : ∀ c ∈ name, (c == slash) = false := by
    intro c hc
    rw [beq_eq_false_iff_ne]
    rintro rfl
    exact hs hc
  unfold components
  rw [List.splitOnP_append_cons_of_forall_mem hno slash (by decide), List.filter_cons_of_pos (by simpa)]

theorem components_single (hne : name ≠ []) (hs : slash ∉ name) : components name = [name] := by
  have hno : ∀ c ∈ name, (c == slash) = false := by
    intro c hc
    rw [beq_eq_false_iff_ne]
    rintro rfl
    exact hs hc
  unfold components
  rw [List.splitOnP_eq_singleton hno, List.filter_cons_of_pos (by simpa)]
  rfl

theorem skipSlash_head (path : List UInt8) : (skipSlash path).head? ≠ some slash := by
  intro hc
  have := List.head?_dropWhile_not (· == slash) path
  unfold skipSlash at hc
  rw [hc] at this
  simp at this

theorem components_cut (hne : path ≠ []) (hhead : path.head? ≠ some slash) :
    ∃ name rest, name = path.takeWhile (· != slash) ∧
      rest = skipSlash (path.dropWhile (· != slash)) ∧ name ≠ [] ∧ slash ∉ name ∧
      components path = name :: components rest ∧ rest.length < path.length ∧
      rest.head? ≠ some slash ∧ (∀ c ∈ name, c ∈ path) ∧ ∀ c ∈ rest, c ∈ path := by
  refine ⟨_, _, rfl, rfl, ?_⟩
  have hname : path.takeWhile (· != slash) ≠ [] := by
    cases path with
    | nil => exact absurd rfl hne
    | cons c cs =>
      have hc : (c != slash) = true := by simpa using hhead
      rw [List.takeWhile_cons_of_pos (p := (· != slash)) hc]
      exact List.cons_ne_nil _ _
  have hslash : slash ∉ path.takeWhile (· != slash) := by
    intro hc
    have hall := List.all_eq_true.mp (List.all_takeWhile (p := (· != slash)) (l := path)) slash hc
    simp at hall
  have hsplit : path.takeWhile (· != slash) ++ path.dropWhile (· != slash) = path :=
    List.takeWhile_append_dropWhile
  have hlen : (skipSlash (path.dropWhile (· != slash))).length < path.length := by
    have h1 : (skipSlash (path.dropWhile (· != slash))).length ≤
        (path.dropWhile (· != slash)).length := (List.dropWhile_sublist _).length_le
    have h2 := congrArg List.length hsplit
    have h3 := List.length_pos_iff.mpr hname
    rw [List.length_append] at h2
    omega
  refine ⟨hname, hslash, ?_, hlen, ?_, fun c hc => (List.takeWhile_sublist _).mem hc, fun c hc =>
    (List.dropWhile_sublist _).mem ((List.dropWhile_sublist _).mem hc)⟩
  · rw [components_skipSlash]
    generalize hn : path.takeWhile (· != slash) = name at *
    cases ht : path.dropWhile (· != slash) with
    | nil =>
      rw [ht, List.append_nil] at hsplit
      rw [← hsplit, components_single hname hslash]
      rfl
    | cons c cs =>
      have hc : c = slash := by
        have := List.head?_dropWhile_not (· != slash) path
        rw [ht] at this
        simpa using this
      subst hc
      rw [ht] at hsplit
      rw [← hsplit, components_name hname hslash, components_slash]
  · exact skipSlash_head _

theorem components_eq_nil (hhead : path.head? ≠ some slash) : components path = [] ↔ path = [] := by
  constructor
  · intro h
    by_contra hne
    obtain ⟨name, rest, -, -, -, -, heq, -⟩ := components_cut hne hhead
    rw [heq] at h
    exact List.cons_ne_nil _ _ h
  · rintro rfl
    rfl

theorem components_proper : ∀ n (path : List UInt8), path.length ≤ n → ∀ name ∈ components path,
    name ≠ [] ∧ slash ∉ name ∧ ∀ c ∈ name, c ∈ path := by
  intro n
  induction n with
  | zero =>
    intro path hlen name hname
    obtain rfl : path = [] := List.length_eq_zero_iff.mp (by omega)
    cases hname
  | succ n ih =>
    intro path hlen name hname
    cases path with
    | nil => cases hname
    | cons c cs =>
      by_cases hc : c = slash
      · subst hc
        rw [components_slash] at hname
        obtain ⟨h1, h2, h3⟩ := ih cs (by rw [List.length_cons] at hlen; omega) name hname
        exact ⟨h1, h2, fun c hc => List.mem_cons_of_mem _ (h3 c hc)⟩
      · obtain ⟨first, rest, -, -, hne, hs, heq, hlt, -, hsub, hsub'⟩ :=
          components_cut (List.cons_ne_nil c cs) (by simpa using hc)
        rw [heq] at hname
        rcases List.mem_cons.mp hname with rfl | hname
        · exact ⟨hne, hs, hsub⟩
        · obtain ⟨h1, h2, h3⟩ := ih rest (by omega) name hname
          exact ⟨h1, h2, fun c hc => hsub' c (h3 c hc)⟩

end Components

/-! ### Resolution -/

/-- The resolution of the names from file `f` on, which is in directory `dir`. -/
def resolve (m : Mem) : Option ℕ → ℕ → List (List UInt8) → Walk
  | dir, f, [] => { r := 0, dir, file := some f }
  | _, f, name :: names =>
    if maxnamelen ≤ name.length then { r := -eBadPath }
    else if ¬ IsDir m f then { r := -eNotFound }
    else
      match lookup m f name with
      | some g => resolve m (some f) g names
      | none => if names = [] then { r := -eNotFound, dir := some f, lastelem := name } else { r := -eNotFound }

/-- What a resolution has found on its way. -/
inductive Resolve (m : Mem) : Option ℕ → ℕ → List (List UInt8) → Walk → Prop where
  | done (dir f) : Resolve m dir f [] { r := 0, dir, file := some f }
  | long (dir f) {name names} : maxnamelen ≤ name.length → Resolve m dir f (name :: names) { r := -eBadPath }
  | notDir (dir) {f name names} : name.length < maxnamelen → ¬ IsDir m f →
      Resolve m dir f (name :: names) { r := -eNotFound }
  | step (dir) {f g name names w} : name.length < maxnamelen → IsDir m f → InDir m f g →
      named name m g = true → Resolve m (some f) g names w → Resolve m dir f (name :: names) w
  | last (dir) {f name} : name.length < maxnamelen → IsDir m f →
      (∀ g, InDir m f g → named name m g = false) →
      Resolve m dir f [name] { r := -eNotFound, dir := some f, lastelem := name }
  | absent (dir) {f name names} : name.length < maxnamelen → IsDir m f →
      (∀ g, InDir m f g → named name m g = false) → names ≠ [] →
      Resolve m dir f (name :: names) { r := -eNotFound }

section Walk

variable {m : Mem} {d f g : ℕ} {name : List UInt8}

/-- The directories on the way can be searched. -/
def WalkOk (m : Mem) : ℕ → List (List UInt8) → Prop
  | _, [] => True
  | f, name :: names => Node m f ∧
    (IsDir m f → DirGood m f ∧ ∀ g, lookup m f name = some g → WalkOk m g names)

theorem walkLoop_eq (hs : Sound m) : ∀ n dir f path, path.length ≤ n → path.head? ≠ some slash →
    WalkOk m f (components path) →
    walkLoop n dir f path m = .ret (resolve m dir f (components path)) m := by
  intro n
  induction n with
  | zero =>
    intro dir f path hlen _ _
    obtain rfl : path = [] := List.length_eq_zero_iff.mp (by omega)
    rfl
  | succ n ih =>
    intro dir f path hlen hhead hok
    rw [walkLoop]
    by_cases hpath : path = []
    · subst hpath
      rfl
    obtain ⟨name, rest, hname, hrest, hne, -, heq, hlt, hhead', -⟩ := components_cut hpath hhead
    rw [heq] at hok
    obtain ⟨hnode, hdirs⟩ := hok
    rw [if_neg hpath, ← hname, ← hrest, heq, resolve]
    show (if name.length ≥ maxnamelen then _ else _ : FsM Walk) m = _
    by_cases hlong : name.length ≥ maxnamelen
    · rw [if_pos hlong, if_pos hlong]
      rfl
    rw [if_neg hlong, if_neg hlong, ret_bind (load32_eq (hnode.inDisk hs (k := 132) (by omega)))]
    show (if fileType m f ≠ ftypeDir then _ else _ : FsM Walk) m = _
    by_cases hdir : IsDir m f
    · obtain ⟨hgood, hnext⟩ := hdirs hdir
      have hdir' : ¬ fileType m f ≠ ftypeDir := not_not.mpr hdir
      rw [if_neg hdir', if_neg (not_not.mpr hdir), ret_bind (dirLookup_eq hs hgood name)]
      cases hl : lookup m f name with
      | some g => exact ih (some f) g rest (by omega) hhead' (hnext g hl)
      | none =>
        show (if -eNotFound = -eNotFound ∧ rest = [] then _ else _ : FsM Walk) m = _
        by_cases hend : rest = []
        · rw [if_pos ⟨rfl, hend⟩, hend]
          rfl
        · have hnames : components rest ≠ [] := fun hc => hend ((components_eq_nil hhead').mp hc)
          rw [if_neg fun hc => hend hc.2]
          show _ = Outcome.ret (if components rest = [] then _ else _) m
          rw [if_neg hnames]
          rfl
    · have hdir' : fileType m f ≠ ftypeDir := hdir
      rw [if_pos hdir', if_pos hdir]
      rfl

theorem walkPath_eq (hs : Sound m) {path : List UInt8} (hok : WalkOk m sRoot (components path)) :
    walkPath path m = .ret (resolve m none sRoot (components path)) m := by
  rw [← components_skipSlash] at hok ⊢
  exact walkLoop_eq hs _ _ _ _ (List.dropWhile_sublist _).length_le (skipSlash_head path) hok

theorem InDir.isFile (hg : InDir m d g) (hd : IsFile m d)
    (hdir : IsDir m d) (hne : name ≠ []) (hz : 0 ∉ name) (hn : named name m g = true) : IsFile m g :=
  ⟨hg.entry hd hdir, .inr (named_live hne hz hn)⟩

theorem lookup_isFile (h : FsInv m) (hd : IsFile m d) (hdir : IsDir m d) (hne : name ≠ []) (hz : 0 ∉ name)
    (hl : lookup m d name = some g) : IsFile m g := by
  have hmem := List.mem_of_find?_eq_some hl
  exact ((mem_entries h hd hdir).mp hmem).isFile hd hdir hne hz (List.find?_some hl)

theorem FsInv.walkOk (h : FsInv m) : ∀ (names : List (List UInt8)) f, IsFile m f →
    (∀ name ∈ names, name ≠ [] ∧ 0 ∉ name) → WalkOk m f names := by
  intro names
  induction names with
  | nil => exact fun _ _ _ => trivial
  | cons name names ih =>
    intro f hf hnames
    refine ⟨hf.1.node h.owned, fun hdir => ⟨h.dirGood hf hdir, fun g hg => ?_⟩⟩
    obtain ⟨hne, hz⟩ := hnames name (List.mem_cons_self ..)
    exact ih g (lookup_isFile h hf hdir hne hz hg) fun n hn => hnames n (List.mem_cons_of_mem _ hn)

theorem resolve_spec (h : FsInv m) : ∀ (names : List (List UInt8)) dir f, IsFile m f →
    (∀ name ∈ names, name ≠ [] ∧ 0 ∉ name) → Resolve m dir f names (resolve m dir f names) := by
  intro names
  induction names with
  | nil => exact fun dir f _ _ => .done dir f
  | cons name names ih =>
    intro dir f hf hnames
    obtain ⟨hne, hz⟩ := hnames name (List.mem_cons_self ..)
    rw [resolve]
    by_cases hlong : maxnamelen ≤ name.length
    · rw [if_pos hlong]
      exact .long dir f hlong
    have hshort := Nat.not_le.mp hlong
    rw [if_neg hlong]
    by_cases hdir : IsDir m f
    · rw [if_neg (not_not.mpr hdir)]
      cases hl : lookup m f name with
      | some g =>
        have hin := (mem_entries h hf hdir).mp (List.mem_of_find?_eq_some hl)
        exact .step dir hshort hdir hin (List.find?_some hl)
          (ih (some f) g (lookup_isFile h hf hdir hne hz hl) fun n hn => hnames n (List.mem_cons_of_mem _ hn))
      | none =>
        have hno : ∀ g, InDir m f g → named name m g = false := by
          intro g hg
          simpa using List.find?_eq_none.mp hl g ((mem_entries h hf hdir).mpr hg)
        by_cases hend : names = []
        · subst hend
          exact .last dir hshort hdir hno
        · show Resolve m dir f _ (if names = [] then _ else _)
          rw [if_neg hend]
          exact .absent dir hshort hdir hno hend
    · rw [if_pos hdir]
      exact .notDir dir hshort hdir

theorem components_names {path : List UInt8} (hz : 0 ∉ path) :
    ∀ name ∈ components path, name ≠ [] ∧ 0 ∉ name := by
  intro name hname
  obtain ⟨hne, -, hsub⟩ := components_proper _ path (Nat.le_refl _) name hname
  exact ⟨hne, fun hc => hz (hsub 0 hc)⟩

theorem walkPath_resolve (h : FsInv m) {path : List UInt8} (hz : 0 ∉ path) :
    ∃ w, walkPath path m = .ret w m ∧ Resolve m none sRoot (components path) w :=
  ⟨_, walkPath_eq h.sound (h.walkOk _ sRoot (FsInv.root m) (components_names hz)),
    resolve_spec h _ none sRoot (FsInv.root m) (components_names hz)⟩

theorem Resolve.parent {dir : Option ℕ} {names : List (List UInt8)} {w : Walk}
    (h : Resolve m dir f names w) (hf : IsFile m f) (hnames : ∀ name ∈ names, name ≠ [] ∧ 0 ∉ name)
    (hr : w.r = -eNotFound) (hd : w.dir = some d) :
    IsFile m d ∧ IsDir m d ∧ w.lastelem ∈ names ∧ w.lastelem.length < maxnamelen ∧
      ∀ g, InDir m d g → named w.lastelem m g = false := by
  induction h with
  | done => exact absurd (show (0 : ℤ) = -eNotFound from hr) (by decide)
  | long => cases hd
  | notDir => cases hd
  | step dir hshort hdir hg hn _ ih =>
    obtain ⟨hne, hz⟩ := hnames _ (List.mem_cons_self ..)
    obtain ⟨h1, h2, h3, h4⟩ := ih (hg.isFile hf hdir hne hz hn)
      (fun name hname => hnames name (List.mem_cons_of_mem _ hname)) hr hd
    exact ⟨h1, h2, List.mem_cons_of_mem _ h3, h4⟩
  | last dir hshort hdir hno =>
    cases hd
    exact ⟨hf, hdir, List.mem_cons_self .., hshort, hno⟩
  | absent => cases hd

theorem Resolve.found {dir : Option ℕ} {names : List (List UInt8)} {w : Walk}
    (h : Resolve m dir f names w) (hf : IsFile m f) (hnames : ∀ name ∈ names, name ≠ [] ∧ 0 ∉ name)
    (hg : w.file = some g) : IsFile m g := by
  induction h with
  | done =>
    cases hg
    exact hf
  | step dir hshort hdir hin hn _ ih =>
    obtain ⟨hne, hz⟩ := hnames _ (List.mem_cons_self ..)
    exact ih (hin.isFile hf hdir hne hz hn)
      (fun name hname => hnames name (List.mem_cons_of_mem _ hname)) hg
  | _ => cases hg

theorem fileOpen_eq (h : FsInv m) {path : List UInt8} (hz : 0 ∉ path) :
    ∃ r, fileOpen path m = .ret r m ∧ ∀ g, r = .ok g → IsFile m g := by
  obtain ⟨w, hw, hres⟩ := walkPath_resolve h hz
  rw [fileOpen, ret_bind hw]
  cases hfile : w.file with
  | none => exact ⟨_, rfl, fun g hg => by cases hg⟩
  | some f =>
    refine ⟨_, rfl, ?_⟩
    rintro g ⟨⟩
    exact hres.found (FsInv.root m) (components_names hz) hfile

end Walk

end Fs

end Jos
