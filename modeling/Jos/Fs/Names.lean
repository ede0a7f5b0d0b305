/-
Where the entries of directories come from.

* `entries_created` — in every run the files are those of the image and those
  that were created under their path;
* `entries_appear` — a directory that grows by a block that was used before.
-/
import Jos.Fs.Unwritten

namespace Jos

open Prog Bytes

namespace Fs

open Fs.Demo

/-! ### Paths -/

/-- The names lead from entry `f` to the last argument. -/
inductive Leads (m : Mem) : ℕ → List (List UInt8) → ℕ → Prop where
  | nil (f : ℕ) : Leads m f [] f
  | cons {f g x : ℕ} {name : List UInt8} {names : List (List UInt8)} : IsFile m f → IsDir m f →
      InDir m f g → IsFile m g → name.length < maxnamelen → named name m g = true →
      Leads m g names x → Leads m f (name :: names) x

section Tree

variable {m m' : Mem} {d f g x : ℕ} {name : List UInt8} {names : List (List UInt8)}

theorem Leads.snoc (h : Leads m f names d) (hd : IsFile m d) (hdir : IsDir m d) (hg : InDir m d g)
    (hgf : IsFile m g) (hshort : name.length < maxnamelen) (hn : named name m g = true) :
    Leads m f (names ++ [name]) g := by
  induction h with
  | nil f => exact .cons hd hdir hg hgf hshort hn (.nil g)
  | cons hf hfd hin hgf' hs hnm _ ih => exact .cons hf hfd hin hgf' hs hnm (ih hd hdir hg)

theorem Resolve.leads {dir : Option ℕ} {w : Walk} (h : Resolve m dir f names w) (hf : IsFile m f)
    (hnames : ∀ name ∈ names, name ≠ [] ∧ 0 ∉ name) (hr : w.r = -eNotFound) (hd : w.dir = some d) :
    ∃ front, names = front ++ [w.lastelem] ∧ Leads m f front d := by
  induction h with
  | done => exact absurd (show (0 : ℤ) = -eNotFound from hr) (by decide)
  | long => cases hd
  | notDir => cases hd
  | @step dir f g name names w hshort hdir hg hn _ ih =>
    obtain ⟨hne, hz⟩ := hnames _ (List.mem_cons_self ..)
    have hgf := hg.isFile hf hdir hne hz hn
    obtain ⟨front, heq, hl⟩ := ih hgf (fun name hname => hnames name (List.mem_cons_of_mem _ hname)) hr hd
    exact ⟨name :: front, by rw [heq]; rfl, .cons hf hdir hg hgf hshort hn hl⟩
  | last dir hshort hdir hno =>
    cases hd
    exact ⟨[], rfl, .nil _⟩
  | absent => cases hd

/-- The files of `m` are where they were in `m'`, under the same names. -/
structure SameTree (m m' : Mem) : Prop where
  file : ∀ x, IsFile m x → IsFile m' x
  isDir : ∀ x, IsFile m x → (IsDir m' x ↔ IsDir m x)
  inDir : ∀ d x, IsFile m d → IsDir m d → IsFile m x → (InDir m' d x ↔ InDir m d x)
  name : ∀ x, IsFile m x → ∀ k < maxnamelen, m' (x + k) = m (x + k)

theorem SameTree.refl (m : Mem) : SameTree m m :=
  ⟨fun _ hx => hx, fun _ _ => Iff.rfl, fun _ _ _ _ _ => Iff.rfl, fun _ _ _ _ => rfl⟩

theorem Only.sameTree (ho : Only m m' f) (hreg : ¬ IsDir m f) : SameTree m m' := by
  refine ⟨fun x hx => (ho.isFile hreg x).mpr hx, fun x hx => ho.isDir hx.1, fun d x hd hdir _ => ?_,
    fun x hx k hk => ?_⟩
  · have hdf : d ≠ f := by
      rintro rfl
      exact hreg hdir
    have hnode := ho.node d hd.1 hdf
    exact InDir.congr hnode.size fun i hi => hnode.direct hi
  · by_cases hxf : x = f
    · subst hxf
      exact ho.name k hk
    · exact ho.node x hx.1 hxf k (by unfold maxnamelen at hk; omega)

theorem Created.sameTree (hc : Created m m' d g name) : SameTree m m' :=
  ⟨fun x hx => (hc.file x).mpr (.inl hx), hc.isDir, hc.old, hc.name⟩

theorem SameTree.named (h : SameTree m m') (hx : IsFile m x) (hshort : name.length < maxnamelen) :
    named name m' x = named name m x :=
  strEq_congr fun k hk => h.name x hx k (by omega)

theorem SameTree.leads (h : SameTree m m') (hl : Leads m f names x) : Leads m' f names x := by
  induction hl with
  | nil f => exact .nil f
  | cons hf hdir hin hg hshort hn _ ih =>
    exact .cons (h.file _ hf) ((h.isDir _ hf).mpr hdir) ((h.inDir _ _ hf hdir hg).mpr hin) (h.file _ hg)
      hshort ((h.named hg hshort).trans hn) ih

/-- No directory has two entries with the same name. -/
def OneName (m : Mem) : Prop := ∀ d, IsFile m d → IsDir m d → ∀ x y name, InDir m d x → InDir m d y →
  name ≠ [] → 0 ∉ name → name.length < maxnamelen → named name m x = true → named name m y = true → x = y

theorem SameTree.oneName (h : SameTree m m') (hback : ∀ x, IsFile m' x → IsFile m x)
    (hone : OneName m) : OneName m' := by
  intro d hd hdir x y name hx hy hne hz hshort hnx hny
  have hxf := hback x (hx.isFile hd hdir hne hz hnx)
  have hyf := hback y (hy.isFile hd hdir hne hz hny)
  have hd₀ := hback d hd
  have hdir₀ := (h.isDir d hd₀).mp hdir
  rw [h.named hxf hshort] at hnx
  rw [h.named hyf hshort] at hny
  exact hone d hd₀ hdir₀ x y name ((h.inDir d x hd₀ hdir₀ hxf).mp hx) ((h.inDir d y hd₀ hdir₀ hyf).mp hy)
    hne hz hshort hnx hny

theorem Created.oneName (hc : Created m m' d g name) (hn : ProperName name)
    (hd : IsFile m d) (habsent : ∀ x, InDir m d x → Fs.named name m x = false) (hone : OneName m) :
    OneName m' := by
  have htree := hc.sameTree
  have hreg : ¬ IsDir m' g := by
    unfold IsDir
    rw [hc.fresh.type]
    decide
  intro e he hedir x y nm hx hy hne hz hshort hnx hny
  have he₀ : IsFile m e := ((hc.file e).mp he).resolve_right fun heg => hreg (heg ▸ hedir)
  have hedir₀ := (hc.isDir e he₀).mp hedir
  -- an old entry beside the new one
  have hmix : ∀ {y}, IsFile m y → InDir m' e g → InDir m' e y → Fs.named nm m' g = true →
      Fs.named nm m' y = true → False := by
    intro y hyf hg hy hng hny
    obtain rfl := (hc.parent e he₀ hedir₀).mp hg
    obtain rfl : name = nm := strEq_unique hn.no_zero hz hc.named hng
    rw [htree.named hyf hshort, habsent y ((hc.old e y he₀ hedir₀ hyf).mp hy)] at hny
    cases hny
  rcases (hc.file x).mp (hx.isFile he hedir hne hz hnx) with hxf | rfl
  · rcases (hc.file y).mp (hy.isFile he hedir hne hz hny) with hyf | rfl
    · rw [htree.named hxf hshort] at hnx
      rw [htree.named hyf hshort] at hny
      exact hone e he₀ hedir₀ x y nm ((hc.old e x he₀ hedir₀ hxf).mp hx)
        ((hc.old e y he₀ hedir₀ hyf).mp hy) hne hz hshort hnx hny
    · exact (hmix hxf hy hx hny hnx).elim
  · rcases (hc.file y).mp (hy.isFile he hedir hne hz hny) with hyf | rfl
    · exact (hmix hyf hx hy hnx hny).elim
    · rfl

end Tree

/-! ### Runs -/

section Runs

variable {m₀ : Mem}

/-- Where the file comes from. -/
def FromImage (m₀ m : Mem) (x : ℕ) : Prop :=
  IsFile m₀ x ∧ ∀ k < maxnamelen, m (x + k) = m₀ (x + k)

structure NamesInv (m₀ : Mem) (s : FsRun) : Prop where
  inv : FsInv s.mem
  one : OneName s.mem
  source : ∀ x, IsFile s.mem x → FromImage m₀ s.mem x ∨
    ∃ path, (path, x) ∈ s.made ∧ Leads s.mem sRoot (components path.1) x

theorem SameTree.source {m m' : Mem} {made : List (Path × ℕ)} {x : ℕ} (h : SameTree m m')
    (hx : IsFile m x) (new : List (Path × ℕ)) (hs : FromImage m₀ m x ∨
      ∃ path, (path, x) ∈ made ∧ Leads m sRoot (components path.1) x) :
    FromImage m₀ m' x ∨
      ∃ path, (path, x) ∈ new ++ made ∧ Leads m' sRoot (components path.1) x := by
  rcases hs with ⟨hx₀, hname⟩ | ⟨path, hmem, hl⟩
  · exact .inl ⟨hx₀, fun k hk => (h.name x hx k hk).trans (hname k hk)⟩
  · exact .inr ⟨path, List.mem_append_right _ hmem, h.leads hl⟩

theorem NamesInv.step {s s' : FsRun} {op : FsOp} (h : NamesInv m₀ s) (hok : FsCond s op)
    (hs : s.step op = some s') : NamesInv m₀ s' := by
  obtain ⟨r, hex, hmade⟩ := FsRun.step_eq_some hs
  obtain ⟨m', made⟩ := s'
  obtain rfl : made = op.made r ++ s.made := hmade
  have he := (FsOp.wp_exec h.inv hok.1 hok.2).ret hex
  have hinv := he.inv h.inv
  -- calls that make no file
  have hquiet : SameTree s.mem m' → (∀ x, IsFile m' x → IsFile s.mem x) →
      NamesInv m₀ { mem := m', made := op.made r ++ s.made } := fun htree hback =>
    ⟨hinv, htree.oneName hback h.one, fun x hx =>
      htree.source (hback x hx) _ (h.source x (hback x hx))⟩
  have honly : ∀ {f}, Only s.mem m' f → ¬ IsDir s.mem f →
      NamesInv m₀ { mem := m', made := op.made r ++ s.made } := fun ho hreg =>
    hquiet (ho.sameTree hreg) fun x hx => (ho.isFile hreg x).mp hx
  cases he with
  | refused | opened | readDir => exact hquiet (SameTree.refl _) fun _ hx => hx
  | read _ hreg hw => exact honly hw.only hreg
  | wrote hf hreg hlast _ _ _ hw =>
    exact honly ((grown_resized h.inv hf hreg (maxfilesize_ge hlast).1).only.trans hw.only hreg) hreg
  | resized _ hreg hres _ => exact honly hres.only hreg
  | @created path w d g _ hw hr hd hc =>
    have hnames := components_names path.2
    obtain ⟨hdf, hdir, hlast, hshort, habsent⟩ := hw.parent (FsInv.root s.mem) hnames hr hd
    obtain ⟨hne, hslash, -⟩ := components_proper _ path.1 (Nat.le_refl _) _ hlast
    have hn : ProperName w.lastelem := ⟨hne, hshort, (hnames _ hlast).2, hslash⟩
    obtain ⟨front, heq, hl⟩ := hw.leads (FsInv.root s.mem) hnames hr hd
    have htree := hc.sameTree
    refine ⟨hinv, hc.oneName hn hdf habsent h.one, fun x hx => ?_⟩
    rcases (hc.file x).mp hx with hx₀ | rfl
    · exact htree.source hx₀ _ (h.source x hx₀)
    · refine .inr ⟨path, List.mem_append_left _ (List.mem_singleton.mpr rfl), ?_⟩
      rw [heq]
      exact (htree.leads hl).snoc (htree.file d hdf) ((htree.isDir d hdf).mpr hdir)
        ((hc.parent d hdf hdir).mpr rfl) hx hshort hc.named

/-- In every run whose calls keep to the direct blocks of files that are not
directories, and make directories larger by zero blocks: every file is one of
the image, with the name it had, or was created under the path that leads to it;
names are unique; and a file that was just created is empty. -/
theorem entries_created (h₀ : FsInv m₀) (hone : OneName m₀) {s : FsRun}
    (hr : Sys.Reach FsRun.step FsCond { mem := m₀ } s) :
    (∀ x, IsFile s.mem x → FromImage m₀ s.mem x ∨
      ∃ path, (path, x) ∈ s.made ∧ Leads s.mem sRoot (components path.1) x) ∧
    OneName s.mem ∧
    ∀ path s' g, FsCond s (.create path) → s.step (.create path) = some s' →
      s'.made = (path, g) :: s.made → fileSize s'.mem g = 0 ∧ fileType s'.mem g = ftypeReg ∧
        (∀ i < ndirect, direct s'.mem g i = 0) ∧ indirect s'.mem g = 0 := by
  have hinv : NamesInv m₀ s := by
    refine Sys.Reach.inv (I := NamesInv m₀)
      ⟨h₀, hone, fun x hx => .inl ⟨hx, fun _ _ => rfl⟩⟩ ?_ hr
    intro s op s' h hok hs
    exact h.step hok hs
  refine ⟨hinv.source, hinv.one, fun path s' g hok hs hmade => ?_⟩
  obtain ⟨r, hex, hmade'⟩ := FsRun.step_eq_some hs
  obtain ⟨m', made⟩ := s'
  obtain rfl : made = (path, g) :: s.made := hmade
  have he := (FsOp.wp_exec hinv.inv hok.1 hok.2).ret hex
  cases he with
  | refused => exact absurd (congrArg List.length hmade') (by simp [FsOp.made])
  | created _ _ _ hc =>
    cases hmade'
    obtain ⟨hsize, htype, hdirect, hind⟩ := hc.fresh
    exact ⟨hsize, htype, hdirect, hind⟩

theorem Demo.oneName : OneName image := by
  intro d hd hdir x y name hx hy hne hz _ hnx hny
  have hroot : d = sRoot := by
    rcases entry hd.1 with rfl | ⟨j, hj, rfl⟩
    · rfl
    · exact absurd (hdir.symm.trans (vacant j hj).type) (by decide)
  subst hroot
  -- the first entry is the only one with a name
  have hblank : ∀ j < blkfiles, j ≠ 0 → image (dirEntry (3 * blksize) j) = 0 := by decide +kernel
  have hfirst : ∀ {x}, InDir image sRoot x → named name image x = true → x = file := by
    intro x hx hnx
    obtain ⟨i, j, hi, -, -, hj, rfl⟩ := hx
    rw [root.size] at hi
    obtain rfl : i = 0 := Nat.lt_one_iff.mp hi
    rw [root.zero] at hnx ⊢
    have hl := named_live hne hz hnx
    by_cases hj0 : j = 0
    · rw [hj0]
      rfl
    · exact absurd (hblank j hj hj0) hl
  rw [hfirst hx hnx, hfirst hy hny]

/-- A second file in the root directory. -/
theorem entries_created_second : ∃ s, Sys.Reach FsRun.step FsCond { mem := image } s ∧
    s.made = [(⟨[98], by decide⟩, second)] ∧ OneName s.mem ∧
    (FromImage image s.mem second ∨
      ∃ path, (path, second) ∈ s.made ∧ Leads s.mem sRoot (components path.1) second) := by
  have hok : Sys.AllOk FsRun.step FsCond [.create ⟨[98], by decide⟩] { mem := image } := by
    refine ⟨⟨trivial, fun d hd hfull => ?_⟩, fun _ _ => trivial⟩
    have hparent : parentOf [98] image = some sRoot := by decide +kernel
    obtain rfl : sRoot = d := Option.some.inj (hparent.symm.trans hd)
    have hblank : image second = 0 := by decide +kernel
    refine absurd hblank (hfull second ⟨0, 1, ?_, by decide, ?_, by decide, ?_⟩)
    · show 0 < dirBlocks (fileSize image sRoot)
      rw [root.size]
      decide
    · show direct image sRoot 0 ≠ 0
      rw [root.zero]
      decide
    · rw [show direct image sRoot 0 = 3 from root.zero]
      rfl
  obtain ⟨s, hr, hmade, hroot, hl⟩ := Sys.exists_reach_of (P := fun s => s.made.map (fun pr => (pr.1.1,
      pr.2)) = [([98], second)] ∧ Root s.mem ∧ s.mem second ≠ 0) hok (by decide +kernel)
  have h := entries_created fsInv oneName hr
  refine ⟨s, hr, ?_, h.2.1, h.1 second (hroot.isFile (by decide) hl)⟩
  cases hm : s.made with
  | nil =>
    rw [hm] at hmade
    cases hmade
  | cons pr rest =>
    obtain ⟨⟨path, hz⟩, g⟩ := pr
    rw [hm] at hmade
    cases rest with
    | nil =>
      cases hmade
      rfl
    | cons _ _ => cases hmade

def Demo.path (j : ℕ) : Path := ⟨List.replicate (j + 1) 98, by simp⟩

/-- Two bytes of the first file, which is truncated again, and sixteen files. -/
def Demo.fill : List FsOp :=
  .write file (fun k => if k = 128 ∨ k = 256 then 7 else 0) 257 0 :: .setSize file 0 ::
    (List.range 16).map fun j => .create (path j)

/-- A file is written and truncated, and the root directory filled.  The next
file gets the first entry of the block that the first file had: an entry that
nobody created is in use, and the new file is not empty. -/
theorem entries_appear : FsInv image ∧ OneName image ∧ ∃ s,
    Sys.Reach FsRun.step (fun s op => op.Wf s.mem) { mem := image } s ∧
    IsFile s.mem (dirEntry (4 * blksize) 1) ∧ ¬ IsFile image (dirEntry (4 * blksize) 1) ∧
    (∀ path, (path, dirEntry (4 * blksize) 1) ∉ s.made) ∧
    s.made.map Prod.snd = dirEntry (4 * blksize) 0 ::
      (List.range 15).reverse.map (fun j => dirEntry (3 * blksize) (j + 1)) ∧
    fileSize s.mem (dirEntry (4 * blksize) 0) = 7 := by
  refine ⟨fsInv, oneName, ?_⟩
  have hok : Sys.AllOk FsRun.step (fun s op => Wf s.mem op) fill { mem := image } := by
    decide +kernel
  obtain ⟨s, hr, ht, hs, hd, hl, hnot, hmade, hsize⟩ := Sys.exists_reach_of (P := fun s => fileType s.mem
      sRoot = ftypeDir ∧ fileSize s.mem sRoot = 2 * blksize ∧ direct s.mem sRoot 1 = 4 ∧ s.mem (dirEntry
      (4 * blksize) 1) ≠ 0 ∧ (∀ g ∈ s.made.map Prod.snd, g ≠ dirEntry (4 * blksize) 1) ∧ s.made.map
      Prod.snd = dirEntry (4 * blksize) 0 :: (List.range 15).reverse.map (fun j => dirEntry (3 * blksize)
      (j + 1)) ∧ fileSize s.mem (dirEntry (4 * blksize) 0) = 7) (hok.mono fun _ _ h => h.wf)
      (by decide +kernel)
  refine ⟨s, hr, ⟨?_, .inr hl⟩, fun hc => ?_, fun path hmem => ?_, hmade, hsize⟩
  · have he : Entry s.mem (dirEntry (direct s.mem sRoot 1 * blksize) 1) :=
      .entry .root (.inl rfl) ht (by rw [hs]; decide) (by decide) (by rw [hd]; decide) (by decide)
    rwa [hd] at he
  · rcases Demo.entry hc.1 with hroot | ⟨j, hj, heq⟩
    · exact absurd hroot (by decide)
    · unfold dirEntry blkfiles blksize at *
      omega
  · exact hnot _ (List.mem_map_of_mem hmem) rfl

end Runs

end Fs

end Jos
