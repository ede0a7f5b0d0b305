/-
The bytes `load_icode` gives an environment.

`region_alloc` takes its pages from the free list as they are, and `load_icode`
stores the segments into them: what it does not store is what the pages held
before.
-/
import Jos.Kern.Region
import Jos.Kern.Env
import Jos.User.Places

namespace Jos

open Prog Function

/-! ### Bytes of pages -/

namespace Mm

def frameByte (m : Mm) (p o : ℕ) : ℕ := m.mem p (o / 4) / 256 ^ (o % 4) % 256

/-! ### An address space under construction -/

def regionPerm : ℕ := pteP ||| pteU ||| pteW

/-- Page `p` is neither directory `d` nor one of its tables. -/
structure Apart (m : Mm) (d p : ℕ) : Prop where
  dir : p ≠ d
  tab : ∀ i < 1024, present (m.mem d i) → frame (m.mem d i) ≠ p

/-- Below `UTOP` directory `d` maps the pages given by `pm`, each once, as
`region_alloc` maps them. -/
structure Built (m : Mm) (d : ℕ) (free : List ℕ) (pm : ℕ → Option ℕ) : Prop where
  tree : m.Tree d free
  low : ∀ i < userPdes, present (m.mem d i) → frame (m.mem d i) ≠ d ∧ m.mem d i &&& pteW ≠ 0
  entry : ∀ va < utop, (m.translate d va).map Prod.snd = (pm (va / pgsize)).map fun p => mkPte p regionPerm
  page_lt : ∀ {pn p}, pm pn = some p → p < m.npages
  page_free : ∀ {pn p}, pm pn = some p → p ∉ free
  page_apart : ∀ {pn p}, pm pn = some p → m.Apart d p
  inj : ∀ {a b p}, pm a = some p → pm b = some p → a = b

section Built

variable {m m' : Mm} {d p va : ℕ} {free : List ℕ} {pm : ℕ → Option ℕ}

theorem Tree.apart_of_free (h : m.Tree d free) (hp : p ∈ free) : m.Apart d p :=
  ⟨fun heq => h.free_dir (heq ▸ hp), fun i hi hpi heq => h.free_tab i hi hpi (heq ▸ hp)⟩

theorem Tree.pop (h : m.Tree d (p :: free)) : (m.popFree p).Tree d free := by
  have hnd := List.nodup_cons.mp h.linked.nodup
  have hother : ∀ q ∈ free, (m.popFree p).pages q = m.pages q := fun q hq =>
    updPage_other _ _ (ne_of_mem_of_not_mem hq hnd.1)
  refine ⟨h.npages_le, h.addr_lt, h.tab_inj, ?_, fun q hq => h.free_lt q (List.mem_cons_of_mem p hq),
    fun q hq => ?_, fun hd => h.free_dir (List.mem_cons_of_mem p hd),
    fun i hi hpi hq => h.free_tab i hi hpi (List.mem_cons_of_mem p hq)⟩
  · refine h.linked.tail.congr fun q hq => ?_
    show ((m.popFree p).pages q).ppLink = _
    rw [hother q hq]
  · rw [hother q hq]
    exact h.free_ref q (List.mem_cons_of_mem p hq)

theorem Tree.incRef (h : m.Tree d free) (hp : p ∉ free) : (m.incRef p).Tree d free := by
  have hother : ∀ q ∈ free, (m.incRef p).pages q = m.pages q := fun q hq =>
    incRef_other m (ne_of_mem_of_not_mem hq hp)
  refine ⟨h.npages_le, h.addr_lt, h.tab_inj, ?_, h.free_lt, fun q hq => ?_, h.free_dir, h.free_tab⟩
  · exact h.linked.congr fun q _ => incRef_link m p q
  · rw [hother q hq]
    exact h.free_ref q hq

theorem Built.pop (h : m.Built d (p :: free) pm) : (m.popFree p).Built d free pm where
  tree := h.tree.pop
  low := h.low
  entry := h.entry
  page_lt := h.page_lt
  page_free hq hmem := h.page_free hq (List.mem_cons_of_mem p hmem)
  page_apart hq := ⟨(h.page_apart hq).dir, (h.page_apart hq).tab⟩
  inj := h.inj

theorem Built.no_window (h : m.Built d free pm) {va' : ℕ} (hva : va' < utop) : ¬ m.Window d va va' :=
  fun hw => (h.low _ (pdx_lt_user hva) hw.table).1 hw.self

theorem Built.unmapped (h : m.Built d free pm) (hva : va < utop) (hnone : pm (va / pgsize) = none) :
    m.translate d va = none := by
  have := h.entry va hva
  rwa [hnone, Option.map_none, Option.map_eq_none_iff] at this

/-- Pages were taken from the free list, some of them for tables; what the others
hold is left. -/
structure Grew (m m' : Mm) (d : ℕ) (free free' : List ℕ) : Prop where
  sub : free' ⊆ free
  apart : ∀ q, m'.Apart d q → m.Apart d q
  mem : ∀ q, m'.Apart d q → m'.mem q = m.mem q
  npages : m'.npages = m.npages

theorem Grew.trans {m'' : Mm} {free' free'' : List ℕ} (h : m.Grew m' d free free')
    (h' : m'.Grew m'' d free' free'') : m.Grew m'' d free free'' where
  sub := fun _ hq => h.sub (h'.sub hq)
  apart q hq := h.apart q (h'.apart q hq)
  mem q hq := (h'.mem q hq).trans (h.mem q (h'.apart q hq))
  npages := h'.npages.trans h.npages

theorem Built.walk (h : m.Built d free pm) (hva : va < utop) (hfree : free ≠ []) :
    ∃ t m₁ free₁, pgdirWalk d va true m = .ret (some (t, ptx va)) m₁ ∧ m.Walked d va free t m₁ free₁ ∧
      m₁.Built d free₁ pm ∧ m.Grew m₁ d free free₁ ∧ free.length ≤ free₁.length + 1 ∧
      ∀ q ∉ free, m.Apart d q → m₁.Apart d q := by
  obtain ⟨t, m₁, free₁, hwalk, hw⟩ := h.tree.walk (fun hp => (h.low _ (pdx_lt_user hva) hp).1) (.inr hfree)
  refine ⟨t, m₁, free₁, hwalk, hw, ?_⟩
  rcases hw.pages with ⟨rfl, rfl⟩ | ⟨rfl, rfl, hmiss⟩
  · exact ⟨h, ⟨fun _ hq => hq, fun _ hq => hq, fun _ _ => rfl, rfl⟩, Nat.le_succ _, fun _ _ hq => hq⟩
  -- the new table was free, so that it is none of the pages
  have hold : ∀ i < 1024, i ≠ pdx va → (m.newTable d va t).mem d i = m.mem d i := fun i _ hi =>
    h.tree.newTable_entry hi
  have hnew : (m.newTable d va t).mem d (pdx va) = mkPte t (pteW ||| pteU) := h.tree.newTable_pde
  obtain ⟨hpres, hframe⟩ := h.tree.entry_new
  have hapart : ∀ q ∉ t :: free₁, m.Apart d q → (m.newTable d va t).Apart d q := by
    intro q hq ha
    refine ⟨ha.dir, fun i hi hpi => ?_⟩
    by_cases hne : i = pdx va
    · subst hne
      rw [hnew, hframe]
      rintro rfl
      exact hq List.mem_cons_self
    · rw [hold i hi hne] at hpi ⊢
      exact ha.tab i hi hpi
  refine ⟨⟨hw.tree, fun i hi hpi => ?_, fun va' hva' => ?_, fun hq => ?_, fun hq hmem => ?_,
    fun hq => hapart _ (h.page_free hq) (h.page_apart hq), h.inj⟩,
    ⟨List.subset_cons_self _ _, fun q hq => ⟨hq.dir, fun i hi hpi => ?_⟩, fun q hq => ?_, newTable_npages⟩,
    Nat.le_refl _, hapart⟩
  · by_cases hne : i = pdx va
    · subst hne
      rw [hnew, hframe]
      refine ⟨hw.table_dir, ?_⟩
      rw [and_eq_flags_and _ (by decide), flags_mkPte]
      decide
    · rw [hold i (by have := userPdes_eq; omega) hne] at hpi ⊢
      exact h.low i hi hpi
  · rw [(hw.others va').resolve_right (h.no_window hva')]
    exact h.entry va' hva'
  · rw [newTable_npages]
    exact h.page_lt hq
  · exact h.page_free hq (List.mem_cons_of_mem t hmem)
  · have hne : i ≠ pdx va := by
      rintro rfl
      exact hmiss hpi
    rw [← hold i hi hne] at hpi ⊢
    exact hq.tab i hi hpi
  · refine newTable_other hq.dir fun heq => ?_
    refine hq.tab (pdx va) (pdx_lt va) ?_ ?_
    · rw [hnew]
      exact hpres
    · rw [hnew, hframe, heq]

theorem Built.insert (cr3 : ℕ) (h : m.Built d free pm) (hlt : p < m.npages) (hp : p ∉ free) (ha : m.Apart d p)
    (hnew : ∀ pn, pm pn ≠ some p) (hva : va < utop) (hnone : pm (va / pgsize) = none) (hfree : free ≠ []) :
    ∃ m' free', pageInsert cr3 d p va regionPerm m = .ret 0 m' ∧
      m'.Built d free' (update pm (va / pgsize) (some p)) ∧ m.Grew m' d free free' ∧
      free.length ≤ free'.length + 1 := by
  obtain ⟨t, m₁, free₁, hwalk, hw, h₁, hg, hlen, hapart⟩ := h.walk hva hfree
  have hp₁ : p ∉ free₁ := fun hmem => hp (hg.sub hmem)
  have ha₁ := hapart p hp ha
  have hempty : ¬ present (m₁.mem t (ptx va)) := by
    intro hpres
    have htrans := h₁.unmapped hva hnone
    rw [translate_of_present hw.table (by rwa [pte, hw.table_eq])] at htrans
    cases htrans
  obtain ⟨m', hm'⟩ : ∃ m', m' = (m₁.incRef p).setWord t (ptx va) (mkPte p regionPerm) := ⟨_, rfl⟩
  have hdir : m'.mem d = m₁.mem d := by
    rw [hm', setWord_other _ _ _ _ hw.table_dir.symm]
    rfl
  have hmem : m'.mem = (m₁.setWord t (ptx va) (mkPte p regionPerm)).mem := by
    rw [hm']
    rfl
  have hapart' : ∀ {q}, m'.Apart d q ↔ m₁.Apart d q := by
    intro q
    constructor
    · exact fun hq => ⟨hq.dir, hdir ▸ hq.tab⟩
    · exact fun hq => ⟨hq.dir, hdir ▸ hq.tab⟩
  have hva32 : va < 2 ^ 32 := Nat.lt_trans hva (by decide)
  refine ⟨m', free₁, by rw [hm']; exact pageInsert_empty regionPerm hwalk hempty, ?_,
    ⟨hg.sub, fun q hq => hg.apart q (hapart'.mp hq), ?_, ?_⟩, hlen⟩
  · constructor
    case tree =>
      rw [hm']
      exact (h₁.tree.incRef hp₁).store hw.table_dir _ _
    case low =>
      rw [hdir]
      exact h₁.low
    case entry =>
      intro va' hva'
      by_cases hpage : va' / pgsize = va / pgsize
      · rw [m'.translate_page d hpage, hw.translate_self hmem, hpage, update_self]
        rfl
      · rw [update_of_ne hpage, ← h.entry va' hva']
        have hva32' : va' < 2 ^ 32 := Nat.lt_trans hva' (by decide)
        rw [(hw.translate_other hmem hva32 hva32' hpage).resolve_right (h.no_window hva')]
    case page_lt =>
      intro pn q hq
      rw [hm']
      show q < m₁.npages
      by_cases hpn : pn = va / pgsize
      · rw [hpn, update_self] at hq
        cases hq
        rwa [hg.npages]
      · rw [update_of_ne hpn] at hq
        exact h₁.page_lt hq
    case page_free =>
      intro pn q hq
      by_cases hpn : pn = va / pgsize
      · rw [hpn, update_self] at hq
        cases hq
        exact hp₁
      · rw [update_of_ne hpn] at hq
        exact h₁.page_free hq
    case page_apart =>
      intro pn q hq
      rw [hapart']
      by_cases hpn : pn = va / pgsize
      · rw [hpn, update_self] at hq
        cases hq
        exact ha₁
      · rw [update_of_ne hpn] at hq
        exact h₁.page_apart hq
    case inj =>
      intro a b q hqa hqb
      by_cases hpa : a = va / pgsize
      · by_cases hpb : b = va / pgsize
        · rw [hpa, hpb]
        · rw [hpa, update_self] at hqa
          rw [update_of_ne hpb] at hqb
          cases hqa
          exact absurd hqb (hnew b)
      · rw [update_of_ne hpa] at hqa
        by_cases hpb : b = va / pgsize
        · rw [hpb, update_self] at hqb
          cases hqb
          exact absurd hqa (hnew a)
        · rw [update_of_ne hpb] at hqb
          exact h.inj hqa hqb
  · intro q hq
    rw [hapart'] at hq
    have hqt : q ≠ t := fun heq => hq.tab (pdx va) (pdx_lt va) hw.table (hw.table_eq.trans heq.symm)
    rw [hm', setWord_other _ _ _ _ hqt]
    exact hg.mem q hq
  · rw [hm']
    exact hg.npages

end Built

/-! ### Stores -/

/-- The byte at `va`, in the page that `pm` gives. -/
def view (m : Mm) (pm : ℕ → Option ℕ) (va : ℕ) : ℕ := m.frameByte ((pm (va / pgsize)).getD 0) (va % pgsize)

section Store

variable {m m' : Mm} {d p va b : ℕ} {free : List ℕ} {pm pm' : ℕ → Option ℕ}

theorem view_of_some {va : ℕ} (h : pm (va / pgsize) = some p) : m.view pm va = m.frameByte p (va % pgsize) := by
  rw [view, h]
  rfl

theorem view_congr (h : pm' (va / pgsize) = pm (va / pgsize)) : m.view pm' va = m.view pm va := by
  rw [view, view, h]

theorem Built.mapped (h : m.Built d free pm) (hva : va < utop) (hpm : pm (va / pgsize) = some p) :
    m.kWrites d va ∧ m.pte d va = mkPte p regionPerm ∧ frame (m.pte d va) = p := by
  have hentry := h.entry va hva
  rw [hpm, Option.map_some, Option.map_eq_some_iff] at hentry
  obtain ⟨⟨pde, w⟩, htrans, rfl⟩ := hentry
  have hreads := kReads_of_translate htrans
  rw [translate_of_present hreads.1 hreads.2, Option.some.injEq, Prod.mk.injEq] at htrans
  have hlt : p < 2 ^ 20 := Nat.lt_of_lt_of_le (h.page_lt hpm) h.tree.npages_le
  have hw : m.pte d va &&& pteW ≠ 0 := by
    rw [htrans.2, and_eq_flags_and _ (by decide), flags_mkPte]
    decide
  refine ⟨⟨hreads, (h.low _ (pdx_lt_user hva) hreads.1).2, hw⟩, htrans.2, ?_⟩
  rw [htrans.2]
  exact frame_mkPte_of_lt hlt (by decide)

theorem Built.byteAt (h : m.Built d free pm) (hva : va < utop) (hpm : pm (va / pgsize) ≠ none) :
    m.byteAt d va = m.view pm va := by
  obtain ⟨p, hp⟩ := Option.ne_none_iff_exists'.mp hpm
  rw [Mm.byteAt, (h.mapped hva hp).2.2, view_of_some hp, frameByte, pgoff_eq,
    Nat.mod_mod_of_dvd va (by decide : 4 ∣ pgsize)]

theorem Built.setWord (h : m.Built d free pm) (hp : m.Apart d p) (i w : ℕ) : (m.setWord p i w).Built d free pm := by
  have hdir : (m.setWord p i w).mem d = m.mem d := setWord_other m p i w hp.dir.symm
  refine ⟨h.tree.store hp.dir i w, ?_, fun va hva => ?_, h.page_lt, h.page_free, fun hq => ?_, h.inj⟩
  · rw [hdir]
    exact h.low
  · rw [← h.entry va hva]
    have hpde : (m.setWord p i w).pde d va = m.pde d va := by rw [pde, hdir, pde]
    rw [translate_eq hpde fun hpres => ?_]
    have htab : frame (m.pde d va) ≠ p := hp.tab _ (pdx_lt va) hpres
    rw [pte, hpde, pte, setWord_other m p i w htab]
  · exact ⟨(h.page_apart hq).dir, by rw [hdir]; exact (h.page_apart hq).tab⟩

theorem Built.store (h : m.Built d free pm) (hva : va < utop) (hpm : pm (va / pgsize) = some p) :
    vstore d va b m = .ret () (m.setByte d va b) ∧ (m.setByte d va b).Built d free pm ∧
      (∀ va', pm (va' / pgsize) ≠ none →
        (m.setByte d va b).view pm va' = if va' = va then b % 256 else m.view pm va') ∧
      ∀ q, q ≠ p → (m.setByte d va b).mem q = m.mem q := by
  obtain ⟨hw, _, hframe⟩ := h.mapped hva hpm
  have hset : m.setByte d va b = m.setWord p (va % pgsize / 4)
      (putByte (m.mem p (va % pgsize / 4)) (va % 4) b) := by
    rw [setByte, hframe, pgoff_eq]
  refine ⟨?_, ?_, fun va' hva' => ?_, fun q hq => ?_⟩
  · rw [vstore, get_bind, if_pos hw]
    rfl
  · rw [hset]
    exact h.setWord (h.page_apart hpm) _ _
  · obtain ⟨q, hq⟩ := Option.ne_none_iff_exists'.mp hva'
    rw [view_of_some hq, view_of_some hq, hset, frameByte, frameByte]
    have hmod : va % 4 = va % pgsize % 4 := (Nat.mod_mod_of_dvd va (by decide : 4 ∣ pgsize)).symm
    by_cases hqp : q = p
    · subst hqp
      have hpage : va' / pgsize = va / pgsize := h.inj hq hpm
      have hne : va' ≠ va → va' % pgsize ≠ va % pgsize := by
        intro hne heq
        have h1 := Nat.div_add_mod va' pgsize
        have h2 := Nat.div_add_mod va pgsize
        rw [hpage, heq] at h1
        exact hne (h1.symm.trans h2)
      by_cases hword : va' % pgsize / 4 = va % pgsize / 4
      · rw [hword, setWord_self]
        by_cases heq : va' = va
        · subst heq
          rw [if_pos rfl, ← hmod]
          exact putByte_same _ _ (Nat.mod_lt _ (by decide))
        · rw [if_neg heq, putByte_other _ _ (Nat.mod_lt _ (by decide)) (Nat.mod_lt _ (by decide))]
          have := hne heq
          omega
      · rw [setWord_rest m q _ _ hword, if_neg]
        rintro rfl
        exact hword rfl
    · rw [setWord_other m p _ _ hqp, if_neg]
      rintro rfl
      rw [hq] at hpm
      cases hpm
      exact hqp rfl
  · rw [hset]
    exact setWord_other m p _ _ hq

end Store

/-! ### Regions -/

/-- From `m` to `m'` pages from the free list were mapped at the `n` pages from
`a` on. -/
structure Region (m m' : Mm) (d : ℕ) (free free' : List ℕ) (pm pm' : ℕ → Option ℕ) (a n : ℕ) : Prop where
  built : m'.Built d free' pm'
  grew : m.Grew m' d free free'
  len : free.length ≤ free'.length + 2 * n
  old : ∀ pn, pn < a ∨ a + n ≤ pn → pm' pn = pm pn
  new : ∀ pn, a ≤ pn → pn < a + n → ∃ q ∈ free, pm' pn = some q

end Mm

section Loops

variable {m m' : Mm} {d cr3 : ℕ} {free : List ℕ} {pm : ℕ → Option ℕ}

theorem regionRound (cr3 : ℕ) {a : ℕ} (h : m.Built d free pm) (ha : a < userPages) (hnone : pm a = none)
    (hlen : 2 ≤ free.length) : ∃ p m₁ m' free' pm', pageAlloc 0 m = .ret (some p) m₁ ∧
      pageInsert cr3 d p (a * pgsize) (pteP ||| pteU ||| pteW) m₁ = .ret 0 m' ∧
      m.Region m' d free free' pm pm' a 1 := by
  match free, hlen with
  | p :: free, hlen =>
    have hp : p < m.npages := h.tree.free_lt p List.mem_cons_self
    have hnd := (List.nodup_cons.mp h.tree.linked.nodup).1
    have hpage : a * pgsize / pgsize = a := Nat.mul_div_cancel _ (by decide)
    have hva : a * pgsize < utop := by
      have hu : utop = userPages * pgsize := rfl
      rw [hu]
      exact Nat.mul_lt_mul_of_pos_right ha (by decide)
    have hne : free ≠ [] := by
      rintro rfl
      exact absurd hlen (Nat.not_succ_le_self 1)
    have hapart := h.tree.apart_of_free (p := p) List.mem_cons_self
    obtain ⟨m', free', hins, hb, hg, hl⟩ := h.pop.insert cr3 hp hnd
      ⟨hapart.dir, hapart.tab⟩ (fun pn hq => h.page_free hq List.mem_cons_self) hva
      (by rwa [hpage]) hne
    rw [hpage] at hb
    refine ⟨p, m.popFree p, m', free', _, pageAlloc_eq h.tree.linked.head hp 0, hins, hb,
      ⟨fun q hq => List.mem_cons_of_mem p (hg.sub hq), fun q hq => ⟨hq.dir, (hg.apart q hq).tab⟩, hg.mem,
        hg.npages⟩, ?_, ?_, ?_⟩
    · rw [List.length_cons]
      omega
    · exact fun pn hpn => update_of_ne (by omega) _ _
    · intro pn h1 h2
      obtain rfl : pn = a := by omega
      exact ⟨p, List.mem_cons_self, update_self ..⟩

theorem regionLoop_built : ∀ (n a : ℕ) {m : Mm} {free : List ℕ} {pm : ℕ → Option ℕ}, m.Built d free pm →
    a + n ≤ userPages → (∀ pn, a ≤ pn → pn < a + n → pm pn = none) → 2 * n ≤ free.length →
    wp (regionLoop cr3 d (a * pgsize) n) (fun _ m' => ∃ free' pm', m.Region m' d free free' pm pm' a n)
      (fun _ _ => False) m := by
  intro n
  induction n with
  | zero =>
    intro a m free pm h _ _ _
    exact ⟨free, pm, h, ⟨fun _ hq => hq, fun _ hq => hq, fun _ _ => rfl, rfl⟩, Nat.le_refl _, fun _ _ => rfl,
      fun pn h1 h2 => by omega⟩
  | succ n ih =>
    intro a m free pm h ha hnone hlen
    obtain ⟨p, m₁, m₂, free₂, pm₂, halloc, hins, hr⟩ := regionRound cr3 (a := a) h (by omega)
      (hnone a (by omega) (by omega)) (by omega)
    rw [regionLoop, wp_bind_of_ret halloc]
    show wp (pageInsert cr3 d p (a * pgsize) (pteP ||| pteU ||| pteW) >>= _) _ _ m₁
    rw [wp_bind_of_ret hins, if_neg (by decide), ← Nat.succ_mul]
    have hold : ∀ pn, a + 1 ≤ pn → pn < a + 1 + n → pm₂ pn = none := by
      intro pn h1 h2
      rw [hr.old pn (by omega)]
      exact hnone pn (by omega) (by omega)
    have hlen₂ := hr.len
    refine (ih (a + 1) hr.built (by omega) hold (by omega)).imp ?_
    rintro _ m' ⟨free', pm', hr'⟩
    refine ⟨free', pm', hr'.built, hr.grew.trans hr'.grew, ?_, fun pn hpn => ?_, fun pn h1 h2 => ?_⟩
    · have := hr'.len
      omega
    · rw [hr'.old pn (by omega), hr.old pn (by omega)]
    · by_cases hpn : pn = a
      · rw [hr'.old pn (by omega)]
        exact hr.new pn h1 (by omega)
      · obtain ⟨q, hq, hpm⟩ := hr'.new pn (by omega) (by omega)
        exact ⟨q, hr.grew.sub hq, hpm⟩

end Loops

/-! ### Segments -/

/-- The pages of a segment: those of `ROUNDDOWN(va)` up to `ROUNDUP(va + memsz)`. -/
def Segment.Page (g : Segment) (pn : ℕ) : Prop :=
  g.va / pgsize ≤ pn ∧ pn < (g.va + g.memsz + (pgsize - 1)) / pgsize

def Segment.pages (g : Segment) : ℕ := (g.va + g.memsz + (pgsize - 1)) / pgsize - g.va / pgsize

def Segment.byteAt (g : Segment) (va : ℕ) : Option ℕ :=
  if g.va ≤ va ∧ va < g.va + g.filesz then some (g.bytes (va - g.va) % 256)
  else if g.va ≤ va ∧ va < g.va + g.memsz then some 0 else none

theorem Segment.page_of_byteAt {g : Segment} (hg : g.filesz ≤ g.memsz) {va : ℕ} (h : g.byteAt va ≠ none) :
    g.Page (va / pgsize) := by
  have hin : g.va ≤ va ∧ va < g.va + g.memsz := by
    by_contra hno
    unfold Segment.byteAt at h
    rw [if_neg (by omega), if_neg hno] at h
    exact h rfl
  unfold Segment.Page pgsize
  omega

namespace Mm

/-- From `m` to `m'` at most `2 * n` pages were taken from the free list and mapped
where `page` says; the bytes that were stored are `bytes`, and the others are as
they were in the pages of physical memory. -/
structure Loaded (m m' : Mm) (d : ℕ) (free free' : List ℕ) (pm pm' : ℕ → Option ℕ) (n : ℕ)
    (page : ℕ → Prop) (bytes : ℕ → Option ℕ) : Prop where
  built : m'.Built d free' pm'
  sub : free' ⊆ free
  len : free.length ≤ free'.length + 2 * n
  free_mem : ∀ q ∈ free', m'.mem q = m.mem q
  old : ∀ pn, ¬ page pn → pm' pn = pm pn
  new : ∀ pn, page pn → ∃ q ∈ free, pm' pn = some q
  view : ∀ va, pm' (va / pgsize) ≠ none → m'.view pm' va = (bytes va).getD (m.view pm' va)

section Loaded

variable {m m₁ m' : Mm} {d : ℕ} {free free₁ free' : List ℕ} {pm pm₁ pm' : ℕ → Option ℕ}

theorem Region.loaded {a n : ℕ} (h : m.Region m' d free free' pm pm' a n) :
    m.Loaded m' d free free' pm pm' n (fun pn => a ≤ pn ∧ pn < a + n) fun _ => none where
  built := h.built
  sub := h.grew.sub
  len := h.len
  free_mem q hq := h.grew.mem q (h.built.tree.apart_of_free hq)
  old pn hpn := h.old pn (by omega)
  new pn hpn := h.new pn hpn.1 hpn.2
  view va hva := by
    obtain ⟨q, hq⟩ := Option.ne_none_iff_exists'.mp hva
    rw [Option.getD_none, view_of_some hq, view_of_some hq, frameByte, frameByte,
      h.grew.mem q (h.built.page_apart hq)]

theorem Loaded.trans {n n' : ℕ} {page page' : ℕ → Prop} {bytes bytes' : ℕ → Option ℕ}
    (h : m.Loaded m₁ d free free₁ pm pm₁ n page bytes)
    (h' : m₁.Loaded m' d free₁ free' pm₁ pm' n' page' bytes') (hdis : ∀ pn, page pn → ¬ page' pn)
    (hbytes : ∀ va, bytes va ≠ none → page (va / pgsize))
    (hbytes' : ∀ va, bytes' va ≠ none → page' (va / pgsize)) :
    m.Loaded m' d free free' pm pm' (n + n') (fun pn => page pn ∨ page' pn)
      fun va => (bytes va).or (bytes' va) where
  built := h'.built
  sub := fun _ hq => h.sub (h'.sub hq)
  len := by
    have h1 := h.len
    have h2 := h'.len
    omega
  free_mem q hq := (h'.free_mem q hq).trans (h.free_mem q (h'.sub hq))
  old pn hpn := by
    rw [not_or] at hpn
    rw [h'.old pn hpn.2, h.old pn hpn.1]
  new pn hpn := by
    rcases hpn with hpn | hpn
    · rw [h'.old pn (hdis pn hpn)]
      exact h.new pn hpn
    · obtain ⟨q, hq, hpm⟩ := h'.new pn hpn
      exact ⟨q, h.sub hq, hpm⟩
  view va hva := by
    rw [h'.view va hva]
    by_cases hpage : page' (va / pgsize)
    · -- the page was free after the first part
      have hno : bytes va = none := by
        by_contra hb
        exact hdis _ (hbytes va hb) hpage
      obtain ⟨q, hq, hpm⟩ := h'.new _ hpage
      rw [hno, Option.none_or, view_of_some hpm, view_of_some hpm, frameByte, frameByte, h.free_mem q hq]
    · have hno : bytes' va = none := by
        by_contra hb
        exact hpage (hbytes' va hb)
      have hpm := h'.old _ hpage
      rw [hno, Option.or_none, Option.getD_none, view_congr hpm, view_congr hpm]
      exact h.view va (hpm ▸ hva)

end Loaded

end Mm

section Stores

variable {m : Mm} {d : ℕ} {free : List ℕ} {pm : ℕ → Option ℕ}

theorem storeLoop_built (f : ℕ → ℕ) (base n : ℕ) (h : m.Built d free pm) (hle : base + n ≤ utop)
    (hmap : ∀ va, base ≤ va → va < base + n → pm (va / pgsize) ≠ none) :
    wp (forFrom (fun k => vstore d ((base + k) % 2 ^ 32) (f k)) 0 n) (fun _ m' => m'.Built d free pm ∧
      (∀ va, pm (va / pgsize) ≠ none → m'.view pm va =
        if base ≤ va ∧ va < base + n then f (va - base) % 256 else m.view pm va) ∧
      ∀ q, (∀ pn, pm pn ≠ some q) → m'.mem q = m.mem q) (fun _ _ => False) m := by
  have hu : utop = 955 * 2 ^ 22 := rfl
  have hloop := wp_forFrom (f := fun k => vstore d ((base + k) % 2 ^ 32) (f k)) (i := 0) (n := n) (s := m)
    (R := fun _ _ => False) (fun k m' => m'.Built d free pm ∧
      (∀ va, pm (va / pgsize) ≠ none → m'.view pm va =
        if base ≤ va ∧ va < base + k then f (va - base) % 256 else m.view pm va) ∧
      ∀ q, (∀ pn, pm pn ≠ some q) → m'.mem q = m.mem q) ?_ ?_
  · rwa [Nat.zero_add] at hloop
  · exact ⟨h, fun va _ => (if_neg (by omega)).symm, fun _ _ => rfl⟩
  · rintro k m₁ _ hk ⟨h₁, hview, hmem⟩
    rw [Nat.mod_eq_of_lt (by omega)]
    obtain ⟨p, hp⟩ := Option.ne_none_iff_exists'.mp (hmap (base + k) (by omega) (by omega))
    obtain ⟨hrun, h₂, hview₂, hmem₂⟩ := h₁.store (b := f k) (by omega) hp
    rw [wp_of_ret hrun]
    refine ⟨h₂, fun va hva => ?_, fun q hq => ?_⟩
    · rw [hview₂ va hva]
      by_cases heq : va = base + k
      · rw [if_pos heq, if_pos (by omega), heq, Nat.add_sub_cancel_left]
      · rw [if_neg heq, hview va hva]
        exact if_congr (by omega) rfl rfl
    · rw [hmem₂ q fun heq => hq _ (heq ▸ hp), hmem q hq]

theorem regionAlloc_built (va len : ℕ) (h : m.Built d free pm) (hle : va + len ≤ utop)
    (hnone : ∀ pn, va / pgsize ≤ pn → pn < (va + len + (pgsize - 1)) / pgsize → pm pn = none)
    (hlen : 2 * ((va + len + (pgsize - 1)) / pgsize - va / pgsize) ≤ free.length) :
    wp (regionAlloc d d va len) (fun _ m' => ∃ free' pm', m.Loaded m' d free free' pm pm'
      ((va + len + (pgsize - 1)) / pgsize - va / pgsize)
      (fun pn => va / pgsize ≤ pn ∧ pn < (va + len + (pgsize - 1)) / pgsize) fun _ => none)
      (fun _ _ => False) m := by
  have hu : utop = 955 * 2 ^ 22 := rfl
  have hpages : userPages = 977920 := userPages_eq
  obtain ⟨a, ha⟩ : ∃ a, va / pgsize = a := ⟨_, rfl⟩
  obtain ⟨n, hend⟩ : ∃ n, (va + len + (pgsize - 1)) / pgsize = a + n := by
    refine ⟨(va + len + (pgsize - 1)) / pgsize - a, ?_⟩
    unfold pgsize at *
    omega
  rw [ha, hend] at hnone
  rw [ha, hend, Nat.add_sub_cancel_left] at hlen
  rw [ha, hend, Nat.add_sub_cancel_left]
  have hrun : regionAlloc d d va len = regionLoop d d (a * pgsize) n := by
    have hdown : rounddown va pgsize = a * pgsize := by
      unfold rounddown pgsize at *
      omega
    have hup : roundup ((va + len) % 2 ^ 32) pgsize = (a + n) * pgsize := by
      unfold roundup rounddown pgsize at *
      omega
    rw [regionAlloc, hdown, hup, ← Nat.sub_mul, Nat.add_sub_cancel_left, Nat.mul_div_cancel _ (by decide)]
  rw [hrun]
  refine (regionLoop_built n a h ?_ hnone hlen).imp ?_
  · unfold pgsize at *
    omega
  · rintro _ m' ⟨free', pm', hr⟩
    exact ⟨free', pm', hr.loaded⟩

theorem loadSegment_built {g : Segment} (h : m.Built d free pm) (hle : g.va + g.memsz ≤ utop)
    (hg : g.filesz ≤ g.memsz) (hnone : ∀ pn, g.Page pn → pm pn = none) (hlen : 2 * g.pages ≤ free.length) :
    wp (loadSegment d d g) (fun _ m' => ∃ free' pm', m.Loaded m' d free free' pm pm' g.pages g.Page g.byteAt)
      (fun _ _ => False) m := by
  have hu : utop = 955 * 2 ^ 22 := rfl
  rw [loadSegment]
  refine (regionAlloc_built g.va g.memsz h hle (fun pn h1 h2 => hnone pn ⟨h1, h2⟩) hlen).bind ?_
  rintro _ m₁ ⟨free', pm', h₁⟩
  have hmap : ∀ va, g.va ≤ va → va < g.va + g.memsz → pm' (va / pgsize) ≠ none := by
    intro va h1 h2
    obtain ⟨q, _, hq⟩ := h₁.new (va / pgsize) (by unfold pgsize; omega)
    rw [hq]
    exact Option.some_ne_none q
  have hclear : (g.memsz + 2 ^ 32 - g.filesz) % 2 ^ 32 = g.memsz - g.filesz := by omega
  rw [wp_bind, hclear]
  refine (storeLoop_built g.bytes g.va g.filesz h₁.built (by omega)
    fun va h1 h2 => hmap va h1 (by omega)).imp ?_
  rintro _ m₂ ⟨h₂, hview₂, hmem₂⟩
  refine (storeLoop_built (fun _ => 0) (g.va + g.filesz) (g.memsz - g.filesz) h₂ (by omega)
    fun va h1 h2 => hmap va (by omega) (by omega)).imp ?_
  rintro _ m₃ ⟨h₃, hview₃, hmem₃⟩
  refine ⟨free', pm', h₃, h₁.sub, h₁.len, fun q hq => ?_, h₁.old, h₁.new, fun va hva => ?_⟩
  · have hno : ∀ pn, pm' pn ≠ some q := fun pn hpn => h₁.built.page_free hpn hq
    rw [hmem₃ q hno, hmem₂ q hno, h₁.free_mem q hq]
  · have hold : m₁.view pm' va = m.view pm' va := h₁.view va hva
    rw [hview₃ va hva, hview₂ va hva, hold, Segment.byteAt]
    by_cases hfile : g.va ≤ va ∧ va < g.va + g.filesz
    · rw [if_neg (by omega), if_pos hfile, if_pos hfile]
      rfl
    · by_cases hin : g.va ≤ va ∧ va < g.va + g.memsz
      · rw [if_pos (by omega), if_neg hfile, if_pos hin]
        rfl
      · rw [if_neg (by omega), if_neg hfile, if_neg hfile, if_neg hin]
        rfl

end Stores

def imageByte : List Segment → ℕ → Option ℕ
  | [], _ => none
  | g :: gs, va => (g.byteAt va).or (imageByte gs va)

def imagePages : List Segment → ℕ
  | [] => 0
  | g :: gs => g.pages + imagePages gs

/-- The segments share no page. -/
def PagesApart (gs : List Segment) : Prop := gs.Pairwise fun g g' => ∀ pn, g.Page pn → ¬ g'.Page pn

section Image

variable {d : ℕ}

theorem page_of_imageByte {gs : List Segment} (hg : ∀ g ∈ gs, g.filesz ≤ g.memsz) {va : ℕ}
    (h : imageByte gs va ≠ none) : ∃ g ∈ gs, g.Page (va / pgsize) := by
  induction gs with
  | nil => exact absurd rfl h
  | cons g gs ih =>
    by_cases hb : g.byteAt va = none
    · rw [imageByte, hb, Option.none_or] at h
      obtain ⟨g', hg', hp⟩ := ih (fun g' hg' => hg g' (List.mem_cons_of_mem g hg')) h
      exact ⟨g', List.mem_cons_of_mem g hg', hp⟩
    · exact ⟨g, List.mem_cons_self, Segment.page_of_byteAt (hg g List.mem_cons_self) hb⟩

theorem loadSegments_built : ∀ (gs : List Segment) {m : Mm} {free : List ℕ} {pm : ℕ → Option ℕ},
    m.Built d free pm → (∀ g ∈ gs, g.va + g.memsz ≤ utop ∧ g.filesz ≤ g.memsz) → PagesApart gs →
    (∀ pn, (∃ g ∈ gs, g.Page pn) → pm pn = none) → 2 * imagePages gs ≤ free.length →
    wp (loadSegments d d gs) (fun _ m' => ∃ free' pm', m.Loaded m' d free free' pm pm' (imagePages gs)
      (fun pn => ∃ g ∈ gs, g.Page pn) (imageByte gs)) (fun _ _ => False) m := by
  intro gs
  induction gs with
  | nil =>
    intro m free pm h _ _ _ _
    refine ⟨free, pm, h, fun _ hq => hq, Nat.le_refl _, fun _ _ => rfl, fun _ _ => rfl, fun pn hpn => ?_,
      fun _ _ => rfl⟩
    obtain ⟨g, hg, _⟩ := hpn
    cases hg
  | cons g gs ih =>
    intro m free pm h hfit hapart hnone hlen
    obtain ⟨hfirst, hrest⟩ := List.pairwise_cons.mp hapart
    obtain ⟨hle, hsz⟩ := hfit g List.mem_cons_self
    have hfit' : ∀ g' ∈ gs, g'.va + g'.memsz ≤ utop ∧ g'.filesz ≤ g'.memsz := fun g' hg' =>
      hfit g' (List.mem_cons_of_mem g hg')
    rw [imagePages] at hlen
    rw [loadSegments]
    refine (loadSegment_built h hle hsz (fun pn hpn => hnone pn ⟨g, List.mem_cons_self, hpn⟩) (by omega)).bind
      ?_
    rintro _ m₁ ⟨free₁, pm₁, h₁⟩
    have hdis : ∀ pn, g.Page pn → ¬ ∃ g' ∈ gs, g'.Page pn := by
      rintro pn hpn ⟨g', hg', hpn'⟩
      exact hfirst g' hg' pn hpn hpn'
    have hnone₁ : ∀ pn, (∃ g' ∈ gs, g'.Page pn) → pm₁ pn = none := by
      intro pn hpn
      rw [h₁.old pn fun hp => hdis pn hp hpn]
      obtain ⟨g', hg', hpn'⟩ := hpn
      exact hnone pn ⟨g', List.mem_cons_of_mem g hg', hpn'⟩
    have hlen₁ := h₁.len
    refine (ih h₁.built hfit' hrest hnone₁ (by omega)).imp ?_
    rintro _ m' ⟨free', pm', h'⟩
    have hall := h₁.trans h' hdis (fun va hva => Segment.page_of_byteAt hsz hva)
      fun va hva => page_of_imageByte (fun g' hg' => (hfit' g' hg').2) hva
    refine ⟨free', pm', hall.built, hall.sub, hall.len, hall.free_mem, fun pn hpn => hall.old pn ?_,
      fun pn hpn => hall.new pn ?_, hall.view⟩
    · rintro (hp | ⟨g', hg', hp⟩)
      · exact hpn ⟨g, List.mem_cons_self, hp⟩
      · exact hpn ⟨g', List.mem_cons_of_mem g hg', hp⟩
    · obtain ⟨g', hg', hp⟩ := hpn
      rcases List.mem_cons.mp hg' with rfl | hg'
      · exact .inl hp
      · exact .inr ⟨g', hg', hp⟩

end Image

/-! ### `load_icode` -/

def stackPn : ℕ := (ustacktop - pgsize) / pgsize

theorem stackPn_page {pn : ℕ} : (ustacktop - pgsize) / pgsize ≤ pn ∧
    pn < (ustacktop - pgsize + pgsize + (pgsize - 1)) / pgsize ↔ pn = stackPn := by
  have h1 : (ustacktop - pgsize) / pgsize = stackPn := rfl
  have h2 : (ustacktop - pgsize + pgsize + (pgsize - 1)) / pgsize = stackPn + 1 := rfl
  rw [h1, h2]
  omega

theorem loadIcode_built {s : Kern} {e d : ℕ} {free : List ℕ} (binary : Image) (hmagic : binary.magic)
    (hd : (s.envs e).envPgdir = some d) (h : s.mm.Built d free fun _ => none)
    (hfit : ∀ g ∈ binary.segs, g.va + g.memsz ≤ ustacktop - pgsize ∧ g.filesz ≤ g.memsz)
    (hapart : PagesApart binary.segs) (hlen : 2 * (imagePages binary.segs + 1) ≤ free.length) :
    wp (loadIcode e binary) (fun _ s' => ∃ free' pm', s.mm.Loaded s'.mm d free free' (fun _ => none) pm'
      (imagePages binary.segs + 1) (fun pn => (∃ g ∈ binary.segs, g.Page pn) ∨ pn = stackPn)
      (imageByte binary.segs)) (fun _ _ => False) s := by
  have hstack : ustacktop - pgsize = stackPn * pgsize := rfl
  have htop : ustacktop - pgsize ≤ utop := by decide
  have hdis : ∀ pn, (∃ g ∈ binary.segs, g.Page pn) → ¬ pn = stackPn := by
    rintro pn ⟨g, hg, hpn⟩ rfl
    have := (hfit g hg).1
    unfold Segment.Page pgsize at hpn
    unfold pgsize at this hstack
    omega
  unfold loadIcode
  rw [if_neg (not_not.mpr hmagic), wp_bind_of_ret (envPgdirPtr_eq hd), wp_bind, lcr3, wp_modify, wp_bind,
    liftMm, wp_zoom]
  refine (loadSegments_built binary.segs h (fun g hg => ⟨(hfit g hg).1.trans htop, (hfit g hg).2⟩) hapart
    (fun _ _ => rfl) (by omega)).imp ?_
  rintro _ m₁ ⟨free₁, pm₁, h₁⟩
  have hlen₁ := h₁.len
  rw [wp_bind, liftMm, wp_zoom]
  refine (regionAlloc_built (ustacktop - pgsize) pgsize h₁.built (by decide) (fun pn hp hp' => ?_)
    ?_).imp ?_
  · obtain rfl := stackPn_page.mp ⟨hp, hp'⟩
    exact h₁.old stackPn fun hp => hdis _ hp rfl
  · show 2 * 1 ≤ free₁.length
    omega
  rintro _ m₂ ⟨free', pm', h₂⟩
  rw [wp_bind, wp_modify, wp_bind, wp_get, lcr3, wp_modify]
  have hall := h₁.trans h₂ (fun pn hp hp' => hdis pn hp (stackPn_page.mp hp'))
    (fun va hva => page_of_imageByte (fun g hg => (hfit g hg).2) hva) fun va hva => absurd rfl hva
  refine ⟨free', pm', hall.built, hall.sub, hall.len, hall.free_mem, fun pn hpn => hall.old pn fun hp => ?_,
    fun pn hpn => hall.new pn ?_, fun va hva => ?_⟩
  · exact hpn (hp.imp_right stackPn_page.mp)
  · exact hpn.imp_right stackPn_page.mpr
  · have := hall.view va hva
    rwa [Option.or_none] at this

end Jos
