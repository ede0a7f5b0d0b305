/-
What `file_create` does to the resolution of paths.

* `path_resolution` — paths with the same names are the same, and what has been
  created is found under each of them;
* `failed_create_unchanged` — a `file_create` that fails changes nothing, unless
  the disk was full;
* `entry_missed`, `failed_create_breaks` — where they are not.
-/
import Jos.Fs.Unwritten

namespace Jos

open Prog Bytes

namespace Fs

open Fs.Demo

/-! ### A new entry -/

section Create

variable {m m' : Mem} {d f g b x : ℕ} {name n path : List UInt8}

/-- From `m` to `m'` the entry `g` with this name came into directory `d`; what was
found before is still found. -/
structure Added (m m' : Mem) (d g : ℕ) (name : List UInt8) : Prop where
  sound : Sound m'
  node : ∀ f, IsFile m f → Node m' f
  type : ∀ f, IsFile m f → (IsDir m' f ↔ IsDir m f)
  dirs : ∀ f, IsFile m f → IsDir m f → DirGood m' f
  old : ∀ f, IsFile m f → IsDir m f → ∀ n x, n ≠ [] → 0 ∉ n → n.length < maxnamelen →
    lookup m f n = some x → lookup m' f n = some x
  new : lookup m' d name = some g

theorem Added.resolve (ha : Added m m' d g name) (h : FsInv m) :
    ∀ (names : List (List UInt8)) dir f, IsFile m f → (∀ n ∈ names, n ≠ [] ∧ 0 ∉ n) →
      Fs.resolve m dir f names = { r := -eNotFound, dir := some d, lastelem := name } →
      Fs.resolve m' dir f names = { r := 0, dir := some d, file := some g } ∧ WalkOk m' f names := by
  intro names
  induction names with
  | nil =>
    intro dir f _ _ hres
    have hr : (0 : ℤ) = -eNotFound := congrArg Walk.r hres
    exact absurd hr (by decide)
  | cons n names ih =>
    intro dir f hf hnames hres
    obtain ⟨hne, hz⟩ := hnames n (List.mem_cons_self ..)
    rw [Fs.resolve] at hres ⊢
    by_cases hlong : maxnamelen ≤ n.length
    · rw [if_pos hlong] at hres
      cases congrArg Walk.dir hres
    rw [if_neg hlong] at hres ⊢
    by_cases hdir : IsDir m f
    · have hdir' := (ha.type f hf).mpr hdir
      rw [if_neg (not_not.mpr hdir)] at hres
      rw [if_neg (not_not.mpr hdir')]
      cases hl : lookup m f n with
      | some x =>
        rw [hl] at hres
        have hx := lookup_isFile h hf hdir hne hz hl
        have hl' := ha.old f hf hdir n x hne hz (Nat.not_le.mp hlong) hl
        obtain ⟨hgoal, hok⟩ := ih (some f) x hx (fun k hk => hnames k (List.mem_cons_of_mem _ hk)) hres
        rw [hl']
        refine ⟨hgoal, ha.node f hf, fun _ => ⟨ha.dirs f hf hdir, fun y hy => ?_⟩⟩
        cases hl'.symm.trans hy
        exact hok
      | none =>
        rw [hl] at hres
        change (if names = [] then _ else _) = _ at hres
        by_cases hend : names = []
        · rw [if_pos hend] at hres
          have hfd : f = d := Option.some.inj (congrArg Walk.dir hres)
          have hnn : n = name := congrArg Walk.lastelem hres
          subst hfd
          subst hnn
          rw [ha.new, hend]
          refine ⟨rfl, ha.node f hf, fun _ => ⟨ha.dirs f hf hdir, fun _ _ => trivial⟩⟩
        · rw [if_neg hend] at hres
          cases congrArg Walk.dir hres
    · rw [if_pos hdir] at hres
      cases congrArg Walk.dir hres

theorem lookup_append {extra : List ℕ} (hsub : entries m' f = entries m f ++ extra)
    (hsame : ∀ y ∈ entries m f, named n m' y = named n m y) (hl : lookup m f n = some x) :
    lookup m' f n = some x := by
  rw [lookup, hsub, List.find?_append, List.find?_congr hsame]
  rw [lookup] at hl
  rw [hl]
  rfl

theorem entries_congr (hsize : fileSize m' f = fileSize m f)
    (hblock : ∀ i < dirBlocks (fileSize m f), blockAt m' f i = blockAt m f i) :
    entries m' f = entries m f := by
  rw [entries, entries, hsize]
  refine List.flatMap_congr fun i hi => ?_
  rw [blockEntries, blockEntries, hblock i (List.mem_range.mp hi)]

theorem named_congr (hn : n.length < maxnamelen) (h : ∀ k < maxnamelen, m' (x + k) = m (x + k)) :
    named n m' x = named n m x := strEq_congr fun k hk => h k (Nat.lt_of_le_of_lt hk hn)

theorem NodeEq.entries (hnode : NodeEq m m' f) (hok : DirOk m f) : Fs.entries m' f = Fs.entries m f := by
  refine entries_congr hnode.size fun i hi => ?_
  have hlt : i < ndirect := Nat.lt_of_lt_of_le hi hok.small
  rw [blockAt_direct hlt, blockAt_direct hlt, hnode.direct hlt]

theorem added_putName (h : FsInv m) (hd : IsFile m d) (hdir : IsDir m d) (hg : InDir m d g) (hz : m g = 0)
    (hname : ProperName name) (hno : lookup m d name = none) : Added m (putStr m g name) d g name := by
  have hl := hg.not_live h hd hz
  obtain ⟨hinv, -, hnode, hentry, -⟩ := putName_inv h (hg.entry hd hdir) hl hname
  have hne : ∀ {f}, IsFile m f → f ≠ g := by
    rintro f hf rfl
    exact hl hf.2
  have hfile : ∀ {f}, IsFile m f → IsFile (putStr m g name) f := fun hf =>
    ⟨(hentry _).mpr hf.1, (hnode _ hf.1 (hne hf)).live.mpr hf.2⟩
  have htype : ∀ {f}, IsFile m f → (IsDir (putStr m g name) f ↔ IsDir m f) := by
    intro f hf
    unfold IsDir
    rw [(hnode f hf.1 (hne hf)).type]
  have hentries : ∀ {f}, IsFile m f → IsDir m f → entries (putStr m g name) f = entries m f := fun hf hdir =>
    (hnode _ hf.1 (hne hf)).entries (h.dir _ hf hdir)
  -- the entries that a name fits, but for the new one
  have hother : ∀ {f y n}, IsFile m f → IsDir m f → y ∈ entries m f → y ≠ g → n.length < maxnamelen →
      named n (putStr m g name) y = named n m y := by
    intro f y n hf hdir hy hyg hn
    refine named_congr hn fun k hk => hnode y (((mem_entries h hf hdir).mp hy).entry hf hdir) hyg k ?_
    unfold maxnamelen at hk
    omega
  have hself : named name (putStr m g name) g = true := putStr_named m g name
  have hnone := List.find?_eq_none.mp hno
  refine ⟨hinv.sound, fun f hf => (hfile hf).1.node hinv.owned, fun f hf => htype hf,
    fun f hf hdir => hinv.dirGood (hfile hf) ((htype hf).mpr hdir), ?_, ?_⟩
  · intro f hf hdir' n x hn hnz hlen hlook
    refine lookup_append ((hentries hf hdir').trans (List.append_nil _).symm) ?_ hlook
    intro y hy
    by_cases hyg : y = g
    · -- only the new name fits the new entry, and that was not found before
      subst hyg
      have hfd := InDir.unique h hf hd ((mem_entries h hf hdir').mp hy) hg
      subst hfd
      have hold : named n m y = false := by
        by_contra hc
        exact named_live hn hnz (Bool.not_eq_false _ ▸ hc) hz
      rw [hold]
      by_contra hc
      have heq := strEq_unique hnz hname.no_zero (Bool.not_eq_false _ ▸ hc) hself
      rw [heq, hno] at hlook
      cases hlook
    · exact hother hf hdir' hy hyg hlen
  · have hmem : g ∈ entries (putStr m g name) d := by
      rw [hentries hd hdir]
      exact (mem_entries h hd hdir).mpr hg
    rw [lookup]
    cases hfind : (entries (putStr m g name) d).find? (named name (putStr m g name)) with
    | none => exact absurd hself (List.find?_eq_none.mp hfind g hmem)
    | some y =>
      have hy := List.mem_of_find?_eq_some hfind
      rw [hentries hd hdir] at hy
      by_contra hyg
      have hyg : y ≠ g := fun hc => hyg (hc ▸ rfl)
      have hfits := List.find?_some hfind
      rw [hother hd hdir hy hyg hname.short] at hfits
      exact hnone y hy hfits

/-! A directory with a new block, whose first entry gets the name.  What else was
in the block stays there. -/

section GrowName

/-- The memory after that. -/
def growName (m : Mem) (d b : ℕ) (name : List UInt8) : Mem :=
  putStr (growDir m d b) (dirEntry (b * blksize) 0) name

variable (h : FsInv m) (hd : IsFile m d) (hroom : dirBlocks (fileSize m d) < ndirect) (hb : IsFree m b)
  (hname : name.length < maxnamelen)

include h hd hroom hb

theorem growDir_sound : Sound (growDir m d b) ∧ InRange (growDir m d b) b := by
  have hgr := growDir_grown h hd hroom hb
  refine ⟨h.sound.congr hgr.nblocks fun c hc hf => ?_, (inRange_congr hgr.nblocks b).mpr (h.free_unowned hb).1⟩
  exact h.sound.reserved c hc ((hgr.free c).mp hf).1

include hname

theorem growName_sound : nblocks (growName m d b name) = nblocks m ∧ Sound (growName m d b name) := by
  have hgr := growDir_grown h hd hroom hb
  obtain ⟨hs, hrange⟩ := growDir_sound h hd hroom hb
  have hlen : 0 + (name.length + 1) ≤ blksize := by
    unfold maxnamelen blksize at *
    omega
  have hn : nblocks (growName m d b name) = nblocks (growDir m d b) := fill_nblocks (o := 0) hrange hlen
  refine ⟨hn.trans hgr.nblocks, hs.congr hn fun c hc hf => ?_⟩
  exact hs.reserved c hc ((fill_isFree (o := 0) _ c hs hrange hlen).mp hf)

omit hd hroom in
theorem growName_nodeEq (hx : Entry m x) : NodeEq (growDir m d b) (growName m d b name) x := by
  intro k hk
  by_contra hne
  obtain ⟨hlo, hhi⟩ := putStr_changes hname hne
  have hblock := (hx.node h.owned).bounds h.sound
  refine h.node_block_free hx hb ?_
  rw [← hblock.2.1 k hk]
  unfold dirEntry maxnamelen blksize at *
  omega

theorem growName_other (hx : Entry m x) (hne : x ≠ d) : NodeEq m (growName m d b name) x := by
  have hgr := growDir_grown h hd hroom hb
  intro k hk
  rw [growName_nodeEq h hb hname hx k hk]
  exact hgr.node h hd hx hne k hk

theorem growName_name (hx : Entry m x) {k : ℕ} (hk : k < maxnamelen) :
    growName m d b name (x + k) = m (x + k) := by
  have hk' : k < 256 := by
    unfold maxnamelen at hk
    omega
  by_cases hne : x = d
  · subst hne
    rw [growName_nodeEq h hb hname hx k hk']
    exact (growDir_grown h hd hroom hb).name k hk
  · exact growName_other h hd hroom hb hname hx hne k hk'

theorem growName_dir : dirBlocks (fileSize (growName m d b name) d) = dirBlocks (fileSize m d) + 1 ∧
    fileSize (growName m d b name) d = fileSize m d + blksize ∧
    fileType (growName m d b name) d = fileType m d ∧
    ∀ i < ndirect, direct (growName m d b name) d i =
      if i = dirBlocks (fileSize m d) then b else direct m d i := by
  have hgr := growDir_grown h hd hroom hb
  have hnode := growName_nodeEq (d := d) h hb hname hd.1
  refine ⟨?_, hnode.size.trans hgr.size, hnode.type.trans hgr.type, fun i hi => ?_⟩
  · rw [hnode.size]
    exact hgr.dirBlocks_succ h hd
  · rw [hnode.direct hi]
    exact hgr.direct i hi

theorem growName_dirGood (hdir : IsDir m d) : DirGood (growName m d b name) d := by
  obtain ⟨hcount, hsize, -, hdirect⟩ := growName_dir h hd hroom hb hname
  obtain ⟨hn, -⟩ := growName_sound h hd hroom hb hname
  obtain ⟨hal, hsmall, hblocks⟩ := h.dir d hd hdir
  have hgood := h.dirGood hd hdir
  refine ⟨hgood.node.congr hn, ⟨?_, ?_, fun i hi => ?_⟩, fun i hi hv => ?_⟩
  · rw [hsize]
    unfold blksize at *
    omega
  · omega
  · rw [hdirect i hi, hcount]
    split
    case isTrue heq =>
      have hb0 : b ≠ 0 := by
        rintro rfl
        have := h.sound.free_ge hb
        have := h.sound.first_gt
        omega
      exact iff_of_true hb0 (by omega)
    case isFalse hne =>
      rw [hblocks i hi]
      omega
  · rw [hdirect i hi] at hv ⊢
    rw [hn]
    split
    case isTrue => exact hb.1
    case isFalse hne =>
      rw [if_neg hne] at hv
      exact hgood.range i hi hv

theorem growName_entries : entries (growName m d b name) d =
    entries m d ++ (List.range blkfiles).map fun j => dirEntry (b * blksize) j := by
  obtain ⟨hcount, -, -, hdirect⟩ := growName_dir h hd hroom hb hname
  rw [entries, hcount, List.range_succ, List.flatMap_append, entries]
  refine congrArg₂ _ ?_ ?_
  · refine List.flatMap_congr fun i hi => ?_
    have hlt := List.mem_range.mp hi
    have hi' : i < ndirect := Nat.lt_trans hlt hroom
    rw [blockEntries, blockEntries, blockAt_direct hi', blockAt_direct hi', hdirect i hi',
      if_neg (Nat.ne_of_lt hlt)]
  · rw [List.flatMap_singleton, blockEntries, blockAt_direct hroom, hdirect _ hroom, if_pos rfl]

theorem added_growName (hdir : IsDir m d) (hno : lookup m d name = none) :
    Added m (growName m d b name) d (dirEntry (b * blksize) 0) name := by
  obtain ⟨hn, hs⟩ := growName_sound h hd hroom hb hname
  obtain ⟨-, -, htype, -⟩ := growName_dir h hd hroom hb hname
  have hentries := growName_entries h hd hroom hb hname
  have hsame : ∀ {f y n}, IsFile m f → IsDir m f → y ∈ entries m f → n.length < maxnamelen →
      named n (growName m d b name) y = named n m y := by
    intro f y n hf hdir hy hlen
    exact named_congr hlen fun k hk =>
      growName_name h hd hroom hb hname (((mem_entries h hf hdir).mp hy).entry hf hdir) hk
  have hnode : ∀ f, IsFile m f → Node (growName m d b name) f := fun f hf =>
    (hf.1.node h.owned).congr hn
  refine ⟨hs, hnode, fun f hf => ?_, fun f hf hdir' => ?_, ?_, ?_⟩
  · unfold IsDir
    by_cases hfd : f = d
    · rw [hfd, htype]
    · rw [(growName_other h hd hroom hb hname hf.1 hfd).type]
  · by_cases hfd : f = d
    · subst hfd
      exact growName_dirGood h hd hroom hb hname hdir
    · have heq := growName_other h hd hroom hb hname hf.1 hfd
      obtain ⟨-, hok, hrange⟩ := h.dirGood hf hdir'
      refine ⟨hnode f hf, ⟨heq.size ▸ hok.aligned, heq.size ▸ hok.small, fun i hi => ?_⟩, fun i hi => ?_⟩
      · rw [heq.direct hi, heq.size]
        exact hok.blocks i hi
      · rw [heq.direct hi, hn]
        exact hrange i hi
  · intro f hf hdir' n x _ _ hlen hlook
    by_cases hfd : f = d
    · subst hfd
      exact lookup_append hentries (fun y hy => hsame hf hdir' hy hlen) hlook
    · have heq := (growName_other h hd hroom hb hname hf.1 hfd).entries (h.dir f hf hdir')
      exact lookup_append (heq.trans (List.append_nil _).symm)
        (fun y hy => hsame hf hdir' hy hlen) hlook
  · have hold : (entries m d).find? (named name (growName m d b name)) = none := by
      rw [List.find?_congr fun y hy => hsame hd hdir hy hname]
      exact hno
    have hself : named name (growName m d b name) (dirEntry (b * blksize) 0) = true := putStr_named _ _ _
    rw [lookup, hentries, List.find?_append, hold]
    show List.find? _ (dirEntry (b * blksize) 0 :: _) = _
    rw [List.find?_cons_of_pos hself]

end GrowName

/-! ### `file_create` -/

theorem fileBlockWalk_same (f i : ℕ) : Reads (fileBlockWalk f i false) :=
  .ite (.pure _) (.ite (.bind (load32_same _) fun _ => .ite (.pure _) (.pure _)) (.pure _))

theorem diskaddr_same (b : ℕ) : Reads (diskaddr b) :=
  .bind (load32_same _) fun _ => .ite (.halt trivial) (.pure _)

theorem fileFlush_same (f : ℕ) : Reads (fileFlush f) := by
  have hblock : ∀ b : ℕ, Reads (do
      let _ ← diskaddr b
      pure () : FsM Unit) := fun b => .bind (diskaddr_same b) fun _ => .pure _
  rw [fileFlush]
  refine .bind (load32_same _) fun size => ?_
  generalize (Bc.flushCount size).toNat = count
  refine .bind (.forFrom (fun i => ?_) count 0) fun _ =>
    .bind (load32_same _) fun b => .when (hblock b)
  refine .bind (fileBlockWalk_same f i) fun walk => ?_
  cases walk with
  | error r => exact .pure _
  | ok slot => exact .bind (load32_same slot) fun b => .when (hblock b)

theorem resolve_parent (h : FsInv m) : ∀ (names : List (List UInt8)) dir f w, IsFile m f →
    (∀ n ∈ names, n ≠ [] ∧ 0 ∉ n) → resolve m dir f names = w → w.r ≠ 0 → w.dir = some d →
    w = { r := -eNotFound, dir := some d, lastelem := w.lastelem } ∧ w.lastelem ∈ names ∧
      w.lastelem.length < maxnamelen ∧ IsFile m d ∧ IsDir m d ∧ lookup m d w.lastelem = none := by
  intro names
  induction names with
  | nil =>
    rintro dir f w _ _ rfl hr _
    exact absurd rfl hr
  | cons n names ih =>
    intro dir f w hf hnames hres hr hdir
    obtain ⟨hne, hz⟩ := hnames n (List.mem_cons_self ..)
    rw [resolve] at hres
    by_cases hlong : maxnamelen ≤ n.length
    · rw [if_pos hlong] at hres
      subst hres
      cases hdir
    rw [if_neg hlong] at hres
    by_cases hfd : IsDir m f
    · rw [if_neg (not_not.mpr hfd)] at hres
      cases hl : lookup m f n with
      | some x =>
        rw [hl] at hres
        obtain ⟨hw, hmem, hrest⟩ := ih (some f) x w (lookup_isFile h hf hfd hne hz hl)
          (fun k hk => hnames k (List.mem_cons_of_mem _ hk)) hres hr hdir
        exact ⟨hw, List.mem_cons_of_mem _ hmem, hrest⟩
      | none =>
        rw [hl] at hres
        change (if names = [] then _ else _) = _ at hres
        by_cases hend : names = []
        · rw [if_pos hend] at hres
          subst hres
          obtain rfl : f = d := Option.some.inj hdir
          exact ⟨rfl, List.mem_cons_self .., Nat.not_le.mp hlong, hf, hfd, hl⟩
        · rw [if_neg hend] at hres
          subst hres
          cases hdir
    · rw [if_pos hfd] at hres
      subst hres
      cases hdir

theorem fileCreate_cases (h : FsInv m) (hz : 0 ∉ path) :
    (∃ e, fileCreate path m = .ret (.error e) m ∧ parentOf path m = none) ∨
    ∃ d name, resolve m none sRoot (components path) = { r := -eNotFound, dir := some d, lastelem := name } ∧
      IsFile m d ∧ IsDir m d ∧ ProperName name ∧ lookup m d name = none ∧ parentOf path m = some d ∧
      fileCreate path m = (do
        let got ← dirAllocFile d
        match got with
        | .error r => pure (.error r)
        | .ok f => do
          modify fun m => putStr m f name
          fileFlush d
          pure (.ok f) : FsM (Except ℤ ℕ)) m := by
  have hnames := components_names hz
  have hwalk := walkPath_eq h.sound (h.walkOk (components path) sRoot (FsInv.root m) hnames)
  generalize hw : resolve m none sRoot (components path) = w at hwalk
  have hpar : parentOf path m = if w.r = -eNotFound then w.dir else none := by
    unfold parentOf
    rw [hwalk]
  rw [fileCreate, ret_bind hwalk, hpar]
  by_cases hr0 : w.r = 0
  · rw [if_pos hr0, hr0]
    exact .inl ⟨_, rfl, rfl⟩
  rw [if_neg hr0]
  cases hwd : w.dir with
  | none => exact .inl ⟨_, rfl, ite_self _⟩
  | some d =>
    obtain ⟨hform, hmem, hshort, hd, hdir, hno⟩ :=
      resolve_parent h (components path) none sRoot w (FsInv.root m) hnames hw hr0 hwd
    obtain ⟨hne, hslash, hsub⟩ := components_proper _ path (Nat.le_refl _) _ hmem
    have hr : w.r = -eNotFound := congrArg Walk.r hform
    refine .inr ⟨d, w.lastelem, hform, hd, hdir, ⟨hne, hshort, (hnames _ hmem).2, hslash⟩, hno, if_pos hr, ?_⟩
    exact congrFun (if_neg (not_not.mpr hr)) m

theorem createIn_eq {m₁ : Mem} (ha : dirAllocFile d m = .ret (.ok g) m₁) {r : Except ℤ ℕ}
    (hr : (do
      let got ← dirAllocFile d
      match got with
      | .error r => pure (.error r)
      | .ok f => do
        modify fun m => putStr m f name
        fileFlush d
        pure (.ok f) : FsM (Except ℤ ℕ)) m = .ret r m') : r = .ok g ∧ m' = putStr m₁ g name := by
  rw [ret_bind ha] at hr
  change (do
    fileFlush d
    pure (.ok g) : FsM (Except ℤ ℕ)) (putStr m₁ g name) = .ret r m' at hr
  cases hflush : fileFlush d (putStr m₁ g name) with
  | stop e t =>
    rw [stop_bind hflush] at hr
    cases hr
  | ret u t =>
    obtain rfl := (fileFlush_same d).ret hflush
    rw [ret_bind hflush] at hr
    cases hr
    exact ⟨rfl, rfl⟩

theorem fileCreate_added (h : FsInv m) (hz : 0 ∉ path)
    (hroom : ∀ d, parentOf path m = some d → (∀ g, InDir m d g → m g ≠ 0) →
      dirBlocks (fileSize m d) < ndirect)
    (hr : fileCreate path m = .ret (.ok g) m') :
    ∃ d name, resolve m none sRoot (components path) =
      { r := -eNotFound, dir := some d, lastelem := name } ∧ Added m m' d g name := by
  rcases fileCreate_cases h hz with ⟨e, he, -⟩ | ⟨d, name, hres, hd, hdir, hname, hno, hpar, heq⟩
  · cases he.symm.trans hr
  rw [heq] at hr
  refine ⟨d, name, hres, ?_⟩
  rcases dirAllocFile_cases h hd hdir with ⟨x, hx, hxz, ha⟩ | ⟨hfull, -⟩
  · obtain ⟨hg, hm'⟩ := createIn_eq ha hr
    cases hg
    rw [hm']
    exact added_putName h hd hdir hx hxz hname hno
  · have hlt := hroom d hpar hfull
    rcases dirAllocFile_grow h hd hdir hfull hlt with ⟨ha, -⟩ | ⟨b, hb, -, ha⟩
    · rw [ret_bind ha] at hr
      cases hr
    · obtain ⟨hg, hm'⟩ := createIn_eq ha hr
      cases hg
      rw [hm']
      exact added_growName h hd hlt hb hname.short hdir hno

theorem fileOpen_of_resolve (hs : Sound m) (hok : WalkOk m sRoot (components path)) :
    fileOpen path m = .ret (match (resolve m none sRoot (components path)).file with
      | some f => .ok f
      | none => .error (resolve m none sRoot (components path)).r) m := by
  rw [fileOpen, ret_bind (walkPath_eq hs hok)]
  cases (resolve m none sRoot (components path)).file with
  | some f => rfl
  | none => rfl

/-- The root directory has eleven blocks, the last by way of the indirect block 13;
there is one file, in that block. -/
def Demo.wide : Mem :=
  putWords (wr32 (wr32 (wr32 (wr32 (fun a => if a = 14 * blksize then 97 else 0) sMagic fsMagic) sNblocks 16)
    bitmapStart 0x8000) (13 * blksize) 14) sRoot
    ((128, 11 * blksize) :: (132, ftypeDir) :: (176, 13) :: (List.range 10).map fun i => (136 + 4 * i, 3 + i))

theorem wp_load32 {Q : ℕ → Mem → Prop} {a : ℕ} (hQ : Q (rd32 m a) m) :
    wp (load32 a) Q (fun _ _ => True) m := by
  rw [load32, wp_bind, touch, wp_bind, wp_get, wp_when]
  exact ⟨fun _ => trivial, fun _ => hQ⟩

theorem wp_store32 {Q : Unit → Mem → Prop} {a v : ℕ} (hQ : Q () (wr32 m a v)) :
    wp (store32 a v) Q (fun _ _ => True) m := by
  rw [store32, wp_bind, touch, wp_bind, wp_get, wp_when]
  exact ⟨fun _ => trivial, fun _ => hQ⟩

theorem wp_diskaddr {Q : ℕ → Mem → Prop} {a : ℕ} (hQ : Q (a * blksize) m) :
    wp (diskaddr a) Q (fun _ _ => True) m := by
  rw [diskaddr, wp_bind]
  refine wp_load32 ?_
  rw [wp_ite]
  exact ⟨fun _ => trivial, fun _ => hQ⟩

theorem wp_fileGetBlock_ndirect (hs : Sound m) (hb : (∃ b, IsFree m b) ∨ indirect m d ≠ 0) (hother : ∀ c, IsFree m c → d / blksize ≠ c)
    (hnode : Node m d) :
    wp (fileGetBlock d ndirect) (fun r _ => ∀ e, r ≠ .error e) (fun _ _ => True) m := by
  have hdone : ∀ {t : Mem}, rd32 t (fIndirect d) ≠ 0 → wp (do
      let blkno ← load32 (fIndirect d + 4 * (ndirect - ndirect))
      if blkno = 0 then do
        let r ← allocBlock
        if r < 0 then pure (.error r)
        else do
          store32 (fIndirect d + 4 * (ndirect - ndirect)) r.toNat
          let blk ← diskaddr r.toNat
          pure (.ok blk)
      else do
        let blk ← diskaddr blkno
        pure (.ok blk) : FsM (Except ℤ ℕ)) (fun r _ => ∀ e, r ≠ .error e) (fun _ _ => True) t := by
    intro t hv
    rw [wp_bind]
    refine wp_load32 ?_
    rw [Nat.sub_self, Nat.mul_zero, Nat.add_zero, if_neg hv, wp_bind]
    exact wp_diskaddr fun e hc => by cases hc
  rw [fileGetBlock, wp_bind, fileBlockWalk, if_neg (by decide), if_pos (by decide), wp_bind]
  refine wp_load32 ?_
  by_cases hv : rd32 m (fIndirect d) ≠ 0
  · rw [if_pos hv, wp_pure]
    exact hdone hv
  · rw [if_neg hv, if_pos rfl, wp_bind]
    rcases allocBlock_cases hs with ⟨-, hnone⟩ | ⟨c, hc, -, halloc⟩
    · obtain ⟨b, hb⟩ := hb.resolve_right hv
      exact absurd hb (hnone b)
    · have hc0 : c ≠ 0 := by
        rintro rfl
        have := hs.free_ge hc
        have := hs.first_gt
        omega
      -- the entry is not in the block that is cleared
      have hblock := (hnode.bounds hs).2.1
      have hword : rd32 (fill (wr32 (markUsed m c) (fIndirect d) c) (c * blksize) blksize fun _ => 0)
          (fIndirect d) = c := by
        refine Eq.trans (rd32_congr fun a ha ha' => if_neg ?_) ((rd32_wr32 _ _ _).trans ?_)
        · rintro ⟨hlo, hhi⟩
          refine hother c hc ?_
          rw [← hblock (a - d) (by unfold fIndirect at *; omega), show d + (a - d) = a by unfold fIndirect at *; omega]
          unfold blksize at *
          omega
        · exact Nat.mod_eq_of_lt (hs.lt_word hc.1)
      rw [wp_of_ret halloc, if_neg (by omega), wp_bind]
      refine wp_store32 ?_
      rw [Int.toNat_natCast, wp_bind]
      generalize wr32 (markUsed m c) (fIndirect d) c = t at hword ⊢
      refine wp_diskaddr ?_
      rw [wp_bind, wp_modify, wp_pure]
      exact hdone fun h0 => hc0 (hword.symm.trans h0)

theorem fileGetBlock_full (hs : Sound m) (hd : Node m d) (hno : ∀ b, ¬ IsFree m b)
    (hind : indirect m d = 0) : fileGetBlock d ndirect m = .ret (.error (-eNoDisk)) m := by
  have halloc : allocBlock m = .ret (-eNoDisk) m := by
    rcases allocBlock_cases hs with ⟨heq, -⟩ | ⟨b, hb, -⟩
    · exact heq
    · exact absurd hb (hno b)
  have hin : InDisk m (fIndirect d) := hd.inDisk hs (k := 176) (by omega)
  have hind' : ¬ rd32 m (fIndirect d) ≠ 0 := not_not.mpr hind
  have hwalk : fileBlockWalk d ndirect true m = .ret (.error (-eNoDisk)) m := by
    rw [fileBlockWalk, if_neg (by decide), if_pos (by decide), ret_bind (load32_eq hin), if_neg hind',
      if_pos rfl, ret_bind halloc, if_pos (by decide)]
    rfl
  rw [fileGetBlock, ret_bind hwalk]
  rfl

/-- Where the directory of the new file has no entry to spare, there is a free block,
or it has all its direct blocks and an indirect block, which is taken for the next one. -/
def Space (m : Mem) (path : List UInt8) : Prop := ∀ d, parentOf path m = some d →
  (∀ g, InDir m d g → m g ≠ 0) →
  (∃ b, IsFree m b) ∨ dirBlocks (fileSize m d) = ndirect ∧ indirect m d ≠ 0

theorem dirAllocFile_fails (h : FsInv m) (hd : IsFile m d) (hdir : IsDir m d)
    (hfull : ∀ g, InDir m d g → m g ≠ 0) (hno : ∀ b, ¬ IsFree m b)
    (hind : ¬ (dirBlocks (fileSize m d) = ndirect ∧ indirect m d ≠ 0)) :
    dirAllocFile d m = .ret (.error (-eNoDisk)) (wr32 m (fSize d) (fileSize m d + blksize)) := by
  rcases Nat.lt_or_ge (dirBlocks (fileSize m d)) ndirect with hlt | hge
  · rcases dirAllocFile_grow h hd hdir hfull hlt with ⟨ha, -⟩ | ⟨b, hb, -⟩
    · exact ha
    · exact absurd hb (hno b)
  · have hlast : dirBlocks (fileSize m d) = ndirect := Nat.le_antisymm (h.dir d hd hdir).small hge
    obtain ⟨-, hfree, hs, hnode⟩ :=
      wr32_size_sound h.sound (hd.1.node h.owned) (fileSize m d + blksize)
    rcases dirAllocFile_cases h hd hdir with ⟨g, hg, hz, -⟩ | ⟨-, ha⟩
    · exact absurd hz (hfull g hg)
    · have hz : indirect (wr32 m (fSize d) (fileSize m d + blksize)) d = 0 := by
        rw [indirect_setSize]
        exact not_not.mp fun hc => hind ⟨hlast, hc⟩
      rw [ha, hlast, ret_bind (fileGetBlock_full hs hnode (fun b hb => hno b ((hfree b).mp hb)) hz)]
      rfl

theorem wp_fileCreate_space (h : FsInv m) (hz : 0 ∉ path) (hspace : Space m path) :
    wp (fileCreate path) (fun r m' => ∀ e, r = .error e → m' = m) (fun _ _ => True) m := by
  rcases fileCreate_cases h hz with ⟨e, he, -⟩ | ⟨d, name, -, hd, hdir, -, -, hpar, heq⟩
  · exact (wp_of_ret he).mpr fun _ _ => rfl
  -- from here on it does not fail
  have hnever : wp (dirAllocFile d) (fun r _ => ∀ e, r ≠ .error e) (fun _ _ => True) m := by
    rcases dirAllocFile_cases h hd hdir with ⟨x, -, -, ha⟩ | ⟨hfull, ha⟩
    · exact (wp_of_ret ha).mpr fun e hc => by cases hc
    · have hroom := hspace d hpar hfull
      rcases Nat.lt_or_ge (dirBlocks (fileSize m d)) ndirect with hlt | hge
      · rcases dirAllocFile_grow h hd hdir hfull hlt with ⟨-, hnone⟩ | ⟨c, -, -, ha⟩
        · obtain ⟨b, hb⟩ := hroom.resolve_right fun hc => by omega
          exact absurd hb (hnone b)
        · exact (wp_of_ret ha).mpr fun e hc => by cases hc
      · have hlast : dirBlocks (fileSize m d) = ndirect := Nat.le_antisymm (h.dir d hd hdir).small hge
        obtain ⟨-, hfree, hs, hnode⟩ :=
          wr32_size_sound h.sound (hd.1.node h.owned) (fileSize m d + blksize)
        have hget := wp_fileGetBlock_ndirect hs
          (hroom.imp (fun ⟨b, hb⟩ => ⟨b, (hfree b).mpr hb⟩) fun hc => by rw [indirect_setSize]; exact hc.2)
          (fun c hc => h.node_block_free hd.1 ((hfree c).mp hc)) hnode
        rw [wp_congr_at ha, hlast, wp_bind]
        generalize wr32 m (fSize d) (fileSize m d + blksize) = m₁ at hget ⊢
        refine hget.imp fun r _ hr => ?_
        cases r with
        | error e => exact absurd rfl (hr e)
        | ok blk => exact fun e hc => by cases hc
  rw [wp_congr_at heq]
  refine hnever.bind ?_
  intro r m₁ hr
  cases r with
  | error e => exact absurd rfl (hr e)
  | ok f =>
    rw [wp_bind, wp_modify]
    refine (fileFlush_same d).wp_bind (fun _ _ _ => ?_) fun _ _ _ _ => trivial
    exact fun e hc => by cases hc

/-- The directories have their sizes and slots, and every path that was opened is
opened with the same result. -/
structure SameDirs (m m' : Mem) : Prop where
  size : ∀ d, IsFile m d → IsDir m d → fileSize m' d = fileSize m d
  direct : ∀ d, IsFile m d → IsDir m d → ∀ i < ndirect, direct m' d i = direct m d i
  indirect : ∀ d, IsFile m d → IsDir m d → indirect m' d = indirect m d
  «open» : ∀ q r t, fileOpen q m = .ret r t → ∃ t', fileOpen q m' = .ret r t'

/-- `file_create` that fails leaves the directories, and every later `file_open`, as they
were exactly if there is space for another entry; and then it has changed nothing at all. -/
theorem failed_create_unchanged (h : FsInv m) (hz : 0 ∉ path) :
    (Space m path ↔ wp (fileCreate path) (fun r m' => ∀ e, r = .error e → SameDirs m m')
      (fun _ _ => True) m) ∧
    (Space m path → wp (fileCreate path) (fun r m' => ∀ e, r = .error e → m' = m)
      (fun _ _ => True) m) := by
  refine ⟨⟨fun hspace => ?_, fun hsame d hpar hfull => ?_⟩, wp_fileCreate_space h hz⟩
  · refine (wp_fileCreate_space h hz hspace).imp fun r m' hr e he => ?_
    obtain rfl := hr e he
    exact ⟨fun _ _ _ => rfl, fun _ _ _ _ _ => rfl, fun _ _ _ => rfl, fun _ _ t ht => ⟨t, ht⟩⟩
  · by_contra hno
    obtain ⟨hnone, hind⟩ := not_or.mp hno
    rcases fileCreate_cases h hz with ⟨e, -, hpar'⟩ | ⟨d', name, -, hd, hdir, -, -, hpar', heq⟩
    · cases hpar.symm.trans hpar'
    obtain rfl : d = d' := Option.some.inj (hpar.symm.trans hpar')
    have hfail := dirAllocFile_fails h hd hdir hfull (not_exists.mp hnone) hind
    rw [ret_bind hfail] at heq
    have hsize := (hsame.ret heq _ rfl).size d hd hdir
    have hmax := h.size d hd
    rw [fileSize, rd32_wr32] at hsize
    change _ = fileSize m d at hsize
    unfold maxfilesize ndirect nindirect blksize at *
    omega

/-- The one block of the root directory is full of files, and no block is free. -/
def Demo.packed : Mem := fun a =>
  if a / blksize = 3 ∧ a % 256 = 0 then UInt8.ofNat (97 + (a - 3 * blksize) / 256)
  else wr32 image bitmapStart 0 a

theorem Demo.packed_inv : FsInv packed := by
  have hdata : Root packed ∧ Sound packed ∧
      InRange packed 3 ∧ ¬ IsFree packed 3 := by decide +kernel
  refine inv_of hdata.1 (fun j hj => ?_) hdata.2.1 hdata.2.2
  -- only the names differ from those of the other image
  have hfield : ∀ k, 0 < k → k + 4 ≤ 256 → rd32 packed (dirEntry (3 * blksize) j + k) =
      rd32 image (dirEntry (3 * blksize) j + k) := by
    intro k hk hk'
    refine rd32_congr fun a ha ha' => ?_
    unfold dirEntry at *
    rw [packed, if_neg (by unfold blksize at *; omega), wr32_of_ge]
    unfold bitmapStart blksize at *
    omega
  obtain ⟨h1, h2, h3, h4⟩ := vacant j hj
  refine ⟨(hfield 128 (by omega) (by omega)).trans h1, (hfield 132 (by omega) (by omega)).trans h2,
    fun i hi => ?_, (hfield 176 (by omega) (by omega)).trans h4⟩
  have := hfield (136 + 4 * i) (by omega) (by unfold ndirect at hi; omega)
  rw [← Nat.add_assoc] at this
  exact this.trans (h3 i hi)

/-- In a full directory on a full disk there is no space; beside the one file of the other
image there is, and the new file is made. -/
theorem failed_create_unchanged_full : FsInv packed ∧ ¬ Space packed [122] ∧ Space image [98] ∧
    wp (fileCreate [98]) (fun r m' => r = .ok second ∧ ∀ e, r = .error e → m' = image)
      (fun _ _ => True) image := by
  have hfail : IsDir packed sRoot ∧ wp (fileCreate [122]) (fun r m' => r = .error (-eNoDisk) ∧
      fileSize m' sRoot ≠ fileSize packed sRoot) (fun _ _ => False) packed := by decide +kernel
  have hmade : wp (fileCreate [98]) (fun r _ => r = .ok second) (fun _ _ => False) image := by
    decide +kernel
  have hspace : Space image [98] := fun _ _ _ => .inl ⟨4, by decide +kernel⟩
  refine ⟨packed_inv, fun hc => ?_, hspace, ?_⟩
  · obtain ⟨r, m', hret, rfl, hsize⟩ := hfail.2.exists_ret
    have hsame := (failed_create_unchanged packed_inv (by decide)).1.mp hc
    exact hsize ((hsame.ret hret _ rfl).size sRoot (FsInv.root packed) hfail.1)
  · refine (hmade.and ((failed_create_unchanged fsInv (by decide)).2 hspace)).mono ?_ fun _ _ _ => trivial
    exact fun _ _ hc => hc

/-- `file_create` fails because the disk is full, but the directory has another
block by its size: a name that is not there cannot be looked up any more. -/
theorem failed_create_breaks : FsInv packed ∧
    wp (fileOpen [121]) (fun r _ => r = .error (-eNotFound)) (fun _ _ => False) packed ∧
    wp (fileCreate [122]) (fun r m' => r = .error (-eNoDisk) ∧ fileSize packed sRoot = blksize ∧
      fileSize m' sRoot = 2 * blksize ∧
      wp (fileOpen [121]) (fun r _ => r = .error (-eNoDisk)) (fun _ _ => False) m')
      (fun _ _ => False) packed :=
  ⟨packed_inv, by decide +kernel, by decide +kernel⟩

end Create

end Fs

end Jos
