/-
  Quack.Sys.Regions
  **THE PAGES BEHIND A REGION, AND THEIR FRAMES.**

  A page that exists and was allocated has a frame of its own, which the ledger
  has under the page's number; a page of a `map_to` region has whatever frame
  the caller named; every other page has none.  The loops over the pages of a
  region keep this.
-/
import Quack.Sys.Effects
import Quack.Mm.Tiling

namespace Quack.Sys

open Lib Mm Arch

/-! ## §1. Pages. -/

/-- What page `v` of the space with root `r` has behind it; `Q` is what is known
of the frames that `map_to` was given. -/
structure PageOk (Q : Nat → Prop) (G : Ledger Owner) (r v : Nat) (page : BackingPage) : Prop where
  backed : page.exists_ = true → page.allocated = true →
    ∃ f, page.ptr.toNat = 4096 * f ∧ G f = some (.data (.page r v))
  foreign : page.exists_ = true → page.allocated = false →
    page.ptr.toNat % 4096 = 0 ∧ page.ptr.toNat < 2 ^ 63 ∧ Q (page.ptr.toNat / 4096)
  empty : page.exists_ = false → page.ptr = 0

/-- The pages from `v` on. -/
def PagesOk (Q : Nat → Prop) (G : Ledger Owner) (r v : Nat) (pages : List BackingPage) : Prop :=
  ∀ (i : Nat) (page : BackingPage), pages[i]? = some page → PageOk Q G r (v + i) page

section Pages

variable {Q : Nat → Prop} {r v k : Nat} {m m' : Machine} {G G' : Ledger Owner}
  {page : BackingPage} {pages : List BackingPage}

theorem PageOk.mono (h : PageOk Q G r v page)
    (hext : ∀ f, G f = some (.data (.page r v)) → G' f = some (.data (.page r v))) :
    PageOk Q G' r v page where
  backed he ha := by
    obtain ⟨f, hptr, hf⟩ := h.backed he ha
    exact ⟨f, hptr, hext f hf⟩
  foreign := h.foreign
  empty := h.empty

theorem PageOk.zero (Q : Nat → Prop) (G : Ledger Owner) (r v : Nat) :
    PageOk Q G r v BackingPage.zero :=
  ⟨fun he => (Bool.false_ne_true he).elim, fun he => (Bool.false_ne_true he).elim, fun _ => rfl⟩

theorem PagesOk.mono (h : PagesOk Q G r v pages)
    (hext : ∀ f i, i < pages.length → G f = some (.data (.page r (v + i))) →
      G' f = some (.data (.page r (v + i)))) : PagesOk Q G' r v pages := by
  intro i page hi
  exact (h i page hi).mono (fun f hf => hext f i (List.getElem?_eq_some_iff.mp hi).1 hf)

theorem PagesOk.cons (h : PagesOk Q G r v (page :: pages)) :
    PageOk Q G r v page ∧ PagesOk Q G r (v + 1) pages := by
  refine ⟨h 0 page rfl, fun i p hi => ?_⟩
  rw [show v + 1 + i = v + (i + 1) by omega]
  exact h (i + 1) p hi

theorem frameOf_ptr {ptr : U64} (h : ptr.toNat % 4096 = 0) (hlt : ptr.toNat < 2 ^ 63) :
    4096 * frameOf ptr = ptr.toNat := by
  unfold frameOf
  rw [Nat.mod_eq_of_lt hlt]
  omega

theorem PageOk.frameOf_ptr_eq (h : PageOk Q G r v page) (hA : Accounted k m G)
    (he : page.exists_ = true) : 4096 * frameOf page.ptr = page.ptr.toNat := by
  by_cases ha : page.allocated = true
  · obtain ⟨f, hptr, hf⟩ := h.backed he ha
    have hwin := (hA.managed f _ hf).window
    exact frameOf_ptr (by omega) (by omega)
  · obtain ⟨h1, h2, -⟩ := h.foreign he (by simpa using ha)
    exact frameOf_ptr h1 h2

end Pages

/-! ## §2. Touching. -/

/-- The pages of `reg'` are those of `reg`, some of them with a frame now; `b`
says whether there are any such. -/
structure Grown (b : Bool) (reg reg' : MemoryMapping) : Prop where
  shape : reg'.shape = reg.shape
  mapped : reg'.mapped = reg.mapped
  same : b = false → reg' = reg
  absent : ∀ (i : Nat) (page : BackingPage), reg'.backing_pages[i]? = some page →
    page.exists_ = false → reg.backing_pages[i]? = some page
  foreign : ∀ (i : Nat) (page : BackingPage), reg'.backing_pages[i]? = some page →
    page.allocated = false → reg.backing_pages[i]? = some page

theorem Grown.refl (reg : MemoryMapping) : Grown false reg reg :=
  ⟨rfl, rfl, fun _ => rfl, fun _ _ h _ => h, fun _ _ h _ => h⟩

theorem Grown.trans {b c : Bool} {x y z : MemoryMapping} (h1 : Grown b x y) (h2 : Grown c y z) :
    Grown (b || c) x z where
  shape := h2.shape.trans h1.shape
  mapped := h2.mapped.trans h1.mapped
  same h := by
    rw [Bool.or_eq_false_iff] at h
    rw [h2.same h.2, h1.same h.1]
  absent i page hi he := h1.absent i page (h2.absent i page hi he) he
  foreign i page hi ha := h1.foreign i page (h2.foreign i page hi ha) ha

/-- Frames are handed out to pages of the region, and that is all. -/
structure Fills (Q : Nat → Prop) (r k : Nat) (b : Bool) (m : Machine) (G : Ledger Owner)
    (reg : MemoryMapping) (m' : Machine) (G' : Ledger Owner) (reg' : MemoryMapping) : Prop where
  effect : SpaceEffect r k m G m' G'
  ext : ∀ f u, G f = some u → G' f = some u
  entries : G r = some (.table r []) → ∀ v, v < 2 ^ 35 → m'.entry r v = m.entry r v
  ok : PagesOk Q G' r (pageOf reg'.base) reg'.backing_pages
  grown : Grown b reg reg'

section Touch

variable {Q : Nat → Prop} {r k : Nat} {ehdr : Option (List Elf64Phdr)}

variable {G : Ledger Owner} {m m' : Machine} {reg reg' : MemoryMapping}

theorem Fills.refl (hA : Accounted k m G)
    (hok : PagesOk Q G r (pageOf reg.base) reg.backing_pages) :
    Fills Q r k false m G reg m G reg :=
  ⟨SpaceEffect.refl hA, fun _ _ h => h, fun _ _ _ => rfl, hok, Grown.refl reg⟩

theorem Fills.trans {b c : Bool} {m'' : Machine} {G' G'' : Ledger Owner}
    {reg'' : MemoryMapping} (h1 : Fills Q r k b m G reg m' G' reg')
    (h2 : Fills Q r k c m' G' reg' m'' G'' reg'') :
    Fills Q r k (b || c) m G reg m'' G'' reg'' where
  effect := h1.effect.trans h2.effect
  ext f u hf := h2.ext f u (h1.ext f u hf)
  entries hr v hv := (h2.entries (h1.ext r _ hr) v hv).trans (h1.entries hr v hv)
  ok := h2.ok
  grown := h1.grown.trans h2.grown

theorem setPage_getElem? {idx i : Nat} {page page' : BackingPage}
    (h : (reg.setPage idx page).backing_pages[i]? = some page') :
    (i = idx ∧ page' = page) ∨ reg.backing_pages[i]? = some page' := by
  simp only [MemoryMapping.setPage, MemoryMapping.withPages, List.getElem?_set] at h
  split at h
  · next heq =>
      split at h
      · injection h with h
        exact Or.inl ⟨heq.symm, h.symm⟩
      · cases h
  · exact Or.inr h

theorem touch_spec {idx : U64} {b : Bool} (hA : Accounted k m G)
    (h : reg.touch (x86Mm ehdr) idx m = some ((b, reg'), m')) :
    ∃ page, reg.backing_pages[idx.toNat]? = some page
      ∧ ((page.exists_ = true ∨ page.exists_ = false ∧ pmm_alloc 1 m = some (0, m))
          ∧ b = false ∧ reg' = reg ∧ m' = m
        ∨ page.exists_ = false ∧ b = true ∧ ∃ f, 0x2000 ≤ f ∧ f < m.pmm_bitmap_len ∧ f < 2 ^ 20
          ∧ m.bit f = false ∧ m' = m.take f
          ∧ reg' = reg.setPage idx.toNat ⟨BitVec.ofNat 64 (4096 * f), true, true⟩) := by
  simp only [MemoryMapping.touch, Prog.bind_eq_some, Prog.ofOption_eq_some] at h
  obtain ⟨page, _, ⟨hpage, rfl⟩, h⟩ := h
  refine ⟨page, hpage, ?_⟩
  cases he : page.exists_ with
  | true =>
    rw [if_pos he, Prog.pure_eq_some, Prod.mk.injEq] at h
    obtain ⟨⟨rfl, rfl⟩, rfl⟩ := h
    exact Or.inl ⟨Or.inl rfl, rfl, rfl, rfl⟩
  | false =>
    rw [if_neg (by simp [he])] at h
    simp only [Prog.bind_eq_some, Prog.check_eq_some] at h
    obtain ⟨_, _, ⟨ha, rfl⟩, ptr, m1, hptr, h⟩ := h
    rcases pmm_alloc_cases hA.bitmap_len_le hptr with
      ⟨rfl, rfl, -⟩ | ⟨f, rfl, rfl, hlow, hlen, hwin, hbit, -⟩
    · rw [if_pos rfl, Prog.pure_eq_some, Prod.mk.injEq] at h
      obtain ⟨⟨rfl, rfl⟩, rfl⟩ := h
      exact Or.inl ⟨Or.inr ⟨rfl, hptr⟩, rfl, rfl, rfl⟩
    · rw [if_neg (frame_ne_null hlow hwin), Prog.pure_eq_some, Prod.mk.injEq, ha] at h
      obtain ⟨⟨rfl, rfl⟩, rfl⟩ := h
      exact Or.inr ⟨rfl, rfl, f, hlow, hlen, hwin, hbit, rfl, rfl⟩

theorem touch_fills {idx : U64}
    {b : Bool} (hA : Accounted k m G)
    (hok : PagesOk Q G r (pageOf reg.base) reg.backing_pages)
    (h : reg.touch (x86Mm ehdr) idx m = some ((b, reg'), m')) :
    ∃ G', Fills Q r k b m G reg m' G' reg' := by
  obtain ⟨page, hpage, ⟨-, rfl, rfl, rfl⟩ | ⟨-, rfl, f, hlow, hlen, hwin, hbit, rfl, rfl⟩⟩ :=
    touch_spec hA h
  · exact ⟨G, Fills.refl hA hok⟩
  · have hfree := hA.free_of_bit hbit
    have heff := SpaceEffect.take_page (r := r) hA (pageOf reg.base + idx.toNat) hlow hlen hwin hbit
    have hext : ∀ g u, G g = some u → Function.update G f
        (some (.data (.page r (pageOf reg.base + idx.toNat)))) g = some u :=
      fun g u hg => Ledger.update_keeps hfree _ hg
    refine ⟨_, heff, hext, ?_, ?_, rfl, rfl, by simp, ?_, ?_⟩
    · intro hr v hv
      apply hA.entry_congr hr hv
      intro g p j hg hj
      exact hA.take_slot_eq hlen hbit hg hj
    · intro i page' hi
      rcases setPage_getElem? hi with ⟨rfl, rfl⟩ | hold
      · refine ⟨fun _ _ => ⟨f, toNat_addr (by omega), Function.update_self ..⟩, fun _ hal => ?_,
          fun hex => ?_⟩
        · cases hal
        · cases hex
      · exact (hok i page' hold).mono (fun g hg => hext g _ hg)
    · intro i page' hi hex
      rcases setPage_getElem? hi with ⟨rfl, rfl⟩ | hold
      · cases hex
      · exact hold
    · intro i page' hi hal
      rcases setPage_getElem? hi with ⟨rfl, rfl⟩ | hold
      · cases hal
      · exact hold

theorem touchRange_fills (n : Nat) (start : U64) (touched b : Bool) (reg reg' : MemoryMapping)
    (m m' : Machine) (G : Ledger Owner) (hA : Accounted k m G)
    (hok : PagesOk Q G r (pageOf reg.base) reg.backing_pages)
    (h : reg.touchRange (x86Mm ehdr) n start touched m = some ((b, reg'), m')) :
    ∃ G' c, b = (touched || c) ∧ Fills Q r k c m G reg m' G' reg' := by
  induction n generalizing start touched b reg reg' m m' G with
  | zero =>
    simp only [MemoryMapping.touchRange, Prog.pure_eq_some, Prod.mk.injEq] at h
    obtain ⟨⟨rfl, rfl⟩, rfl⟩ := h
    exact ⟨G, false, by simp, Fills.refl hA hok⟩
  | succ n ih =>
    simp only [MemoryMapping.touchRange, Prog.bind_eq_some] at h
    obtain ⟨⟨touched_i, reg1⟩, m1, htouch, hrest⟩ := h
    obtain ⟨G1, h1⟩ := touch_fills hA hok htouch
    obtain ⟨G2, c, rfl, h2⟩ := ih _ _ _ reg1 reg' m1 m' G1 h1.effect.accounted h1.ok hrest
    exact ⟨G2, touched_i || c, by rw [Bool.or_assoc], h1.trans h2⟩

section

variable (hA : Accounted k m G) (hok : PagesOk Q G r (pageOf reg.base) reg.backing_pages)

include hA hok

theorem touch_all_fills {b : Bool}
    (h : reg.touch_all (x86Mm ehdr) m = some ((b, reg'), m')) :
    ∃ G', Fills Q r k b m G reg m' G' reg' := by
  obtain ⟨G', c, rfl, hf⟩ := touchRange_fills _ _ _ _ _ _ _ _ _ hA hok h
  exact ⟨G', hf⟩

theorem ensure_load_store_fills {offset size : U64} {b : Bool}
    (h : reg.ensure_load_store (x86Mm ehdr) offset size m = some ((b, reg'), m')) :
    ∃ G', Fills Q r k b m G reg m' G' reg' := by
  simp only [MemoryMapping.ensure_load_store, Prog.bind_eq_some, Prog.check_eq_some] at h
  obtain ⟨_, _, ⟨-, rfl⟩, h⟩ := h
  split at h
  · rw [Prog.pure_eq_some, Prod.mk.injEq] at h
    obtain ⟨⟨rfl, rfl⟩, rfl⟩ := h
    exact ⟨G, Fills.refl hA hok⟩
  · obtain ⟨G', c, rfl, hf⟩ := touchRange_fills _ _ _ _ _ _ _ _ _ hA hok h
    exact ⟨G', hf⟩

theorem fault_hit_fills {address : U64} {res : VmFaultResult}
    (h : reg.fault_hit (x86Mm ehdr) address m = some ((res, reg'), m')) :
    ∃ G', Fills Q r k (res == .remap_valid) m G reg m' G' reg' := by
  simp only [MemoryMapping.fault_hit, Prog.bind_eq_some, Prog.check_eq_some,
    Prog.ofOption_eq_some] at h
  obtain ⟨_, _, ⟨-, rfl⟩, page, _, ⟨-, rfl⟩, h⟩ := h
  split at h
  · simp only [Prog.bind_eq_some, Prog.pure_eq_some, Prod.mk.injEq] at h
    obtain ⟨⟨touched, reg1⟩, m1, htouch, ⟨rfl, rfl⟩, rfl⟩ := h
    obtain ⟨G', hf⟩ := touch_fills hA hok htouch
    refine ⟨G', ?_⟩
    cases touched with
    | true => exact hf
    | false => exact hf
  · -- the page is there, or was never promised: nothing happens
    repeat' split at h
    all_goals
      rw [Prog.pure_eq_some, Prod.mk.injEq] at h
      obtain ⟨⟨rfl, rfl⟩, rfl⟩ := h
      exact ⟨G, Fills.refl hA hok⟩

end

end Touch

/-! ## §3. Freeing. -/

/-- Frames of the pages from `lo` to `hi` are given back, and that is all. -/
structure Frees (r k lo hi : Nat) (m : Machine) (G : Ledger Owner) (m' : Machine)
    (G' : Ledger Owner) : Prop where
  effect : SpaceEffect r k m G m' G'
  ext : ∀ f u, G f = some u → (∀ v, lo ≤ v → v < hi → u ≠ .data (.page r v)) → G' f = some u
  entries : G r = some (.table r []) → ∀ v, v < 2 ^ 35 → m'.entry r v = m.entry r v

section Free

variable {Q : Nat → Prop} {r k lo mid hi : Nat} {ehdr : Option (List Elf64Phdr)}
  {m m' m'' : Machine} {G G' G'' : Ledger Owner}

theorem Frees.refl (hA : Accounted k m G) : Frees r k lo hi m G m G :=
  ⟨SpaceEffect.refl hA, fun _ _ h _ => h, fun _ _ _ => rfl⟩

theorem Frees.root (h : Frees r k lo hi m G m' G') (hr : G r = some (.table r [])) :
    G' r = some (.table r []) :=
  h.ext r _ hr (by simp)

theorem Frees.trans (h₁ : Frees r k lo mid m G m' G') (h₂ : Frees r k mid hi m' G' m'' G'')
    (hlo : lo ≤ mid) (hhi : mid ≤ hi) : Frees r k lo hi m G m'' G'' where
  effect := h₁.effect.trans h₂.effect
  ext f u hf hu :=
    h₂.ext f u (h₁.ext f u hf fun v h1 h2 => hu v h1 (by omega)) fun v h1 h2 => hu v (by omega) h2
  entries hr v hv := (h₂.entries (h₁.root hr) v hv).trans (h₁.entries hr v hv)

theorem Frees.give (hA : Accounted k m G) {f v : Nat} (hf : G f = some (.data (.page r v))) :
    Frees r k v (v + 1) m G (m.give f) (Function.update G f none) where
  effect := SpaceEffect.give_page hA hf
  ext g u hg hu := by
    rw [Function.update_of_ne]
    · exact hg
    · rintro rfl
      rw [hf] at hg
      injection hg with hg
      exact hu v (by omega) (by omega) hg.symm
  entries hr w hw := by
    apply hA.entry_congr hr hw
    intro g p j hg hj
    exact m.give_slot (hA.managed f _ hf).len hj (hA.managed g _ hg).bitmap

theorem freePages_spec {which : BackingPage → Bool}
    (hwhich : ∀ page, which page = true → page.exists_ = true ∧ page.allocated = true)
    (pages : List BackingPage) (v : Nat) (m m' : Machine) (G : Ledger Owner) (u : Unit)
    (hA : Accounted k m G) (hok : PagesOk Q G r v pages)
    (h : MemoryMapping.freePages (x86Mm ehdr) which pages m = some (u, m')) :
    ∃ G', Frees r k v (v + pages.length) m G m' G' := by
  induction pages generalizing v m m' G u with
  | nil =>
    simp only [MemoryMapping.freePages, Prog.pure_eq_some] at h
    obtain ⟨-, rfl⟩ := h
    exact ⟨G, Frees.refl hA⟩
  | cons page pages ih =>
    obtain ⟨hpage, hpages⟩ := hok.cons
    simp only [MemoryMapping.freePages] at h
    rw [List.length_cons, show v + (pages.length + 1) = v + 1 + pages.length by omega]
    by_cases hw : which page = true
    · obtain ⟨he, ha⟩ := hwhich page hw
      obtain ⟨f, hptr, hf⟩ := hpage.backed he ha
      simp only [if_pos hw, x86Mm, arch_mm_free_phys, Prog.bind_eq_some, Prog.pure_eq_some] at h
      obtain ⟨_, m1, ⟨_, _, hfree, -, rfl⟩, h⟩ := h
      have hgive := pmm_free_eq_some hfree
      rw [show page.ptr.toNat / 4096 = f by omega] at hgive
      subst hgive
      have hone := Frees.give hA hf
      -- the frames of the other pages are other frames
      have hrest : PagesOk Q (Function.update G f none) r (v + 1) pages := by
        apply hpages.mono
        intro g i _ hg
        apply hone.ext g _ hg
        intro w h1 h2 heq
        injection heq with heq
        injection heq with _ heq
        omega
      obtain ⟨G', hG'⟩ := ih (v + 1) _ m' _ u hone.effect.accounted hrest h
      exact ⟨G', hone.trans hG' (by omega) (by omega)⟩
    · simp only [if_neg hw] at h
      obtain ⟨G', hG'⟩ := ih (v + 1) m m' G u hA hpages h
      exact ⟨G', (Frees.refl hA).trans hG' (by omega) (by omega)⟩

theorem destruct_frees {reg : MemoryMapping} {u : Unit} (hA : Accounted k m G)
    (hok : PagesOk Q G r (pageOf reg.base) reg.backing_pages)
    (h : reg.destruct (x86Mm ehdr) m = some (u, m')) :
    ∃ G', Frees r k (pageOf reg.base) (pageOf reg.base + reg.backing_pages.length) m G m' G' := by
  refine freePages_spec ?_ _ _ _ _ _ _ hA hok h
  intro page hp
  simp only [Bool.and_eq_true] at hp
  exact hp.1

theorem deallocate_frees {reg reg' : MemoryMapping} (hA : Accounted k m G)
    (hok : PagesOk Q G r (pageOf reg.base) reg.backing_pages)
    (h : reg.deallocate (x86Mm ehdr) m = some (reg', m')) :
    reg.mapped = false ∧ reg'.shape = reg.shape ∧ reg'.mapped = false
    ∧ (∀ (i : Nat) page, reg'.backing_pages[i]? = some page → page = BackingPage.zero)
    ∧ ∃ G', Frees r k (pageOf reg.base) (pageOf reg.base + reg.backing_pages.length) m G m' G' := by
  simp only [MemoryMapping.deallocate, Prog.bind_eq_some, Prog.check_eq_some,
    Prog.pure_eq_some] at h
  obtain ⟨_, _, ⟨hmapped, rfl⟩, _, m1, hfree, rfl, rfl⟩ := h
  refine ⟨hmapped, rfl, hmapped, ?_, freePages_spec ?_ _ _ _ _ _ _ hA hok hfree⟩
  · intro i page hi
    simp only [MemoryMapping.withPages, List.getElem?_map, Option.map_eq_some_iff] at hi
    obtain ⟨_, -, rfl⟩ := hi
    rfl
  · intro page hp
    simpa only [Bool.and_eq_true] using hp

end Free

/-! ## §4. The entries of a region. -/

/-- For every page from `v` on that exists, its entry becomes `ent`. -/
structure Rewrites (r k v : Nat) (ent : BackingPage → U64) (pages : List BackingPage)
    (m : Machine) (G : Ledger Owner) (m' : Machine) (G' : Ledger Owner) : Prop where
  accounted : Accounted k m' G'
  touches : Touches r m G m' G'
  inside : ∀ (i : Nat) (page : BackingPage), pages[i]? = some page →
    m'.entry r (v + i) = if page.exists_ then ent page else m.entry r (v + i)
  outside : ∀ w, w < 2 ^ 35 → w < v ∨ v + pages.length ≤ w → m'.entry r w = m.entry r w

section Entries

variable {r k : Nat} {ehdr : Option (List Elf64Phdr)}

theorem existing_pages_loop (loop : Nat → List BackingPage → Prog Machine Unit) (first : Nat)
    {body : Nat → BackingPage → Prog Machine Int} {ent : BackingPage → U64}
    (hnil : ∀ i, loop i [] = pure ())
    (hcons : ∀ i page pages, loop i (page :: pages) = (do
      if page.exists_ then
        let _ ← body i page
      loop (i + 1) pages))
    (hbody : ∀ i page (m m' : Machine) (G : Ledger Owner) (j : Int), first + i < 2 ^ 35 →
      Accounted k m G → G r = some (.table r []) → body i page m = some (j, m') →
      ∃ G', Accounted k m' G' ∧ Touches r m G m' G' ∧ ∀ w, w < 2 ^ 35 →
        m'.entry r w = if w = first + i then ent page else m.entry r w) (pages : List BackingPage)
    (i : Nat) (m m' : Machine) (G : Ledger Owner) (u : Unit) (hA : Accounted k m G)
    (hr : G r = some (.table r [])) (hlen : first + i + pages.length ≤ 2 ^ 35)
    (h : loop i pages m = some (u, m')) : ∃ G', Rewrites r k (first + i) ent pages m G m' G' := by
  induction pages generalizing i m m' G u with
  | nil =>
    simp only [hnil, Prog.pure_eq_some] at h
    obtain ⟨-, rfl⟩ := h
    refine ⟨G, hA, Touches.refl r m G, ?_, fun _ _ _ => rfl⟩
    intro j page hj
    cases hj
  | cons page pages ih =>
    rw [List.length_cons] at hlen
    have hv : first + i < 2 ^ 35 := by omega
    have hassoc : ∀ j, first + i + (j + 1) = first + (i + 1) + j := by
      intro j
      omega
    rw [hcons] at h
    -- after this round: the entry of the page is right, the others are old
    have hround : ∃ m1, ∃ G1, Accounted k m1 G1 ∧ Touches r m G m1 G1
        ∧ (∀ w, w < 2 ^ 35 → m1.entry r w
            = if w = first + i ∧ page.exists_ = true then ent page else m.entry r w)
        ∧ loop (i + 1) pages m1 = some (u, m') := by
      by_cases he : page.exists_ = true
      · simp only [if_pos he, Prog.bind_eq_some] at h
        obtain ⟨j, m1, hb, h⟩ := h
        obtain ⟨G1, h1, t1, en1⟩ := hbody i page m m1 G j hv hA hr hb
        exact ⟨m1, G1, h1, t1, fun w hw => by simp [en1 w hw, he], h⟩
      · simp only [if_neg he] at h
        exact ⟨m, G, hA, Touches.refl r m G, fun w _ => by rw [if_neg (fun hc => he hc.2)], h⟩
    obtain ⟨m1, G1, h1, t1, en1, hrest⟩ := hround
    obtain ⟨G2, h2⟩ := ih (i + 1) m1 m' G1 u h1 (t1.ext r _ hr) (by omega) hrest
    refine ⟨G2, h2.accounted, t1.trans h2.touches, ?_, ?_⟩
    · intro j page' hj
      cases j with
      | zero =>
        injection hj with hj
        subst hj
        rw [Nat.add_zero, h2.outside _ hv (by omega), en1 _ hv]
        by_cases he : page.exists_ = true
        · rw [if_pos ⟨rfl, he⟩, if_pos he]
        · rw [if_neg (fun hc => he hc.2), if_neg he]
      | succ j =>
        have hj' : pages[j]? = some page' := hj
        have hjlt := (List.getElem?_eq_some_iff.mp hj').1
        rw [hassoc, h2.inside j page' hj', en1 _ (by omega),
          if_neg (show ¬ (first + (i + 1) + j = first + i ∧ page.exists_ = true) by omega)]
    · intro w hw hout
      rw [List.length_cons] at hout
      rw [h2.outside w hw (by omega), en1 w hw, if_neg (by omega)]

variable {base ctx : U64} {pages : List BackingPage}

theorem pageOf_add_pages {i : Nat} (h : pageOf base + i < 2 ^ 35) :
    pageOf (base + BitVec.ofNat 64 i * vm_page_size) = pageOf base + i := by
  have hi : (BitVec.ofNat 64 i).toNat = i := by
    rw [BitVec.toNat_ofNat, Nat.mod_eq_of_lt (by omega)]
  unfold pageOf at h ⊢
  rw [toNat_add_pages (by rw [hi]; omega), hi]
  omega

theorem vmm_arch_to_vmm_flags_bits (perms cache : BitVec 32) :
    (((vmm_arch_to_vmm_flags perms cache).signExtend 64 &&& VMM_FLAG_WRITE ≠ 0
        ↔ perms &&& vm_perm_write ≠ 0)
      ∧ ((vmm_arch_to_vmm_flags perms cache).signExtend 64 &&& VMM_FLAG_USER ≠ 0
        ↔ perms &&& vm_perm_user ≠ 0))
    ∧ (vmm_arch_to_vmm_flags perms cache).signExtend 64 &&& VMM_FLAG_NX = 0
    ∧ ((vmm_arch_to_vmm_flags perms cache).signExtend 64).toNat < 4096 := by
  rw [← bne_iff_ne (a := perms &&& vm_perm_write), ← bne_iff_ne (a := perms &&& vm_perm_user)]
  unfold vmm_arch_to_vmm_flags
  generalize (perms &&& vm_perm_write != 0) = b1
  generalize (perms &&& vm_perm_user != 0) = b2
  generalize (perms &&& vm_perm_execute == 0) = b3
  generalize (cache &&& 0x1 != 0) = b4
  generalize (cache &&& 0x2 != 0) = b5
  generalize (cache &&& 0x4 != 0) = b6
  revert b1 b2 b3 b4 b5 b6
  decide

theorem vmm_arch_to_vmm_flags_lt (flags cache : BitVec 32) :
    ((vmm_arch_to_vmm_flags flags cache).signExtend 64).toNat < 4096 :=
  (vmm_arch_to_vmm_flags_bits flags cache).2.2

theorem mapPages_spec {perms cache : BitVec 32} (hctx : ctx.toNat = 4096 * r)
    {m m' : Machine} {G : Ledger Owner} {u : Unit}
    (hA : Accounted k m G) (hr : G r = some (.table r []))
    (hlen : pageOf base + pages.length ≤ 2 ^ 35)
    (h : AddressSpace.mapPages (x86Mm ehdr) ctx base perms cache 0 pages m = some (u, m')) :
    ∃ G', Rewrites r k (pageOf base)
      (fun page => page.ptr ||| (vmm_arch_to_vmm_flags perms cache).signExtend 64
        ||| VMM_FLAG_PRESENT) pages m G m' G' := by
  refine existing_pages_loop (AddressSpace.mapPages (x86Mm ehdr) ctx base perms cache)
    (pageOf base) (fun i => rfl) (fun i page pages => rfl) ?_ pages 0 m m' G u hA hr hlen h
  intro i page m m' G j hv hA hr hb
  have hpage := pageOf_add_pages hv
  obtain ⟨G', hA', ht, -, hen⟩ := vmm_map_page_touches hA hr hctx (by rw [hpage]; exact hv)
    (vmm_map_pages_one hb)
  refine ⟨G', hA', ht, fun w hw => ?_⟩
  rw [hen r w hr hw, hpage]
  simp

theorem unmapPages_spec (hctx : ctx.toNat = 4096 * r)
    {m m' : Machine} {G : Ledger Owner} {u : Unit}
    (hA : Accounted k m G) (hr : G r = some (.table r []))
    (hlen : pageOf base + pages.length ≤ 2 ^ 35)
    (h : AddressSpace.unmapPages (x86Mm ehdr) ctx base 0 pages m = some (u, m')) :
    ∃ G', Rewrites r k (pageOf base) (fun _ => 0) pages m G m' G' := by
  refine existing_pages_loop (AddressSpace.unmapPages (x86Mm ehdr) ctx base)
    (pageOf base) (fun i => rfl) (fun i page pages => rfl) ?_ pages 0 m m' G u hA hr hlen h
  intro i page m m' G j hv hA hr hb
  have hpage := pageOf_add_pages hv
  obtain ⟨hA', ht, hen⟩ := vmm_unmap_page_touches hA hr hctx (by rw [hpage]; exact hv) hb
  refine ⟨G, hA', ht, fun w hw => ?_⟩
  rw [hen r w hr hw, hpage]
  simp

end Entries

end Quack.Sys
