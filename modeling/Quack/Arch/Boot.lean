/-
  Quack.Arch.Boot
  **`vmm_init` BUILDS THE KERNEL'S CONTEXT.**

  From a machine whose frame allocator is ready, `vmm_init` leaves a machine
  that is `Booted`: one root, nothing in its lower half, and in the upper half
  the physical window and the kernel image.

  The image's segments are mapped with small pages below slot 511 of the root;
  the window's huge pages are below slot 256, so that no walk to a small page
  meets a huge one (`Boots`).
-/
import Quack.Arch.Contexts

namespace Quack.Arch

open Lib

/-! ## §1. The invariant of the boot. -/

/-- The frame allocator as `pmm_init` leaves it. -/
structure PmmReady (m : Machine) : Prop where
  len : m.pmm_bitmap_len < 2 ^ 32
  bitmap : ∀ f, f < m.pmm_bitmap_len → m.BitmapFrame f → m.bit f = true
  total : m.pmm_total_pages ≠ 0

/-- One root `k`, an empty lower half, and huge pages only below the root's
slots in `L`. -/
structure Boots (L : Nat → Prop) (k : Nat) (m : Machine) (G : Ledger Empty) : Prop where
  accounted : Accounted k m G
  only : ∀ f r p, G f = some (.table r p) → r = k ∧ p = []
  large : ∀ f u i u', G f = some u → i < 512 → u.child i = some u' →
    m.slot f i &&& VMM_FLAG_LARGE ≠ 0 → ∃ a b, u = .upper [a, b] ∧ L a

/-- What the boot's steps leave alone: the static variables, the bits that are
set, and the frames that are taken; only free frames are enrolled. -/
structure Grown (m : Machine) (G : Ledger Empty) (m' : Machine) (G' : Ledger Empty) : Prop where
  vars : m.SameVars m'
  bits : ∀ f, f < m.pmm_bitmap_len → m.bit f = true → m'.bit f = true
  fresh : ∀ f u, G' f = some u → G f = some u ∨ (f < m.pmm_bitmap_len ∧ m.bit f = false)

namespace Grown

variable {m m' m'' : Machine} {G G' G'' : Ledger Empty}

theorem refl (m : Machine) (G : Ledger Empty) : Grown m G m G :=
  ⟨Machine.SameVars.refl m, fun _ _ h => h, fun _ _ h => Or.inl h⟩

theorem trans (h1 : Grown m G m' G') (h2 : Grown m' G' m'' G'') : Grown m G m'' G'' where
  vars := h1.vars.trans h2.vars
  bits f hf hset := h2.bits f (by rw [h1.vars.len]; exact hf) (h1.bits f hf hset)
  fresh f u hf := by
    rcases h2.fresh f u hf with hf' | ⟨hlen, hclear⟩
    · exact h1.fresh f u hf'
    · rw [h1.vars.len] at hlen
      refine Or.inr ⟨hlen, ?_⟩
      cases hbit : m.bit f with
      | false => rfl
      | true =>
        rw [h1.bits f hlen hbit] at hclear
        cases hclear

end Grown

/-- The tables that are there are kept, but for slot `i` of frame `f`; the frames
past 4 GiB are not touched. -/
structure OneSlot (f i : Nat) (m : Machine) (G : Ledger Empty) (m' : Machine) (G' : Ledger Empty) :
    Prop where
  keeps : ∀ g w, G g = some w → G' g = some w
  slots : ∀ g w j, G g = some w → j < 512 → ¬ (g = f ∧ j = i) → m'.slot g j = m.slot g j
  high : ∀ j, 2 ^ 20 ≤ j → j < m.pmm_bitmap_len → m'.bit j = m.bit j

/-- The tables that are there are kept, but for the root's slot `a` and what is below
it; the frames past 4 GiB are not touched. -/
structure Below (a k : Nat) (m : Machine) (G : Ledger Empty) (m' : Machine) (G' : Ledger Empty) :
    Prop where
  keeps : ∀ g w, G g = some w → G' g = some w
  slots : ∀ g w j, G g = some w → j < 512 → (∀ p, w ≠ .upper (a :: p)) → ¬ (g = k ∧ j = a) →
    m'.slot g j = m.slot g j
  len : m'.pmm_bitmap_len = m.pmm_bitmap_len
  high : ∀ j, 2 ^ 20 ≤ j → j < m.pmm_bitmap_len → m'.bit j = m.bit j

namespace Below

variable {a k f i : Nat} {m m' m'' : Machine} {G G' G'' : Ledger Empty}

theorem refl (a k : Nat) (m : Machine) (G : Ledger Empty) : Below a k m G m G :=
  ⟨fun _ _ h => h, fun _ _ _ _ _ _ _ => rfl, rfl, fun _ _ _ => rfl⟩

theorem trans (h1 : Below a k m G m' G') (h2 : Below a k m' G' m'' G'') : Below a k m G m'' G'' :=
  ⟨fun g w hg => h2.keeps g w (h1.keeps g w hg), fun g w j hg hj hw hno =>
    (h2.slots g w j (h1.keeps g w hg) hj hw hno).trans (h1.slots g w j hg hj hw hno),
    h2.len.trans h1.len,
    fun j hj hlt => (h2.high j hj (h1.len ▸ hlt)).trans (h1.high j hj hlt)⟩

theorem root (h : OneSlot k a m G m' G') (hv : Grown m G m' G') : Below a k m G m' G' :=
  ⟨h.keeps, fun g w j hg hj _ hno => h.slots g w j hg hj hno, hv.vars.len, h.high⟩

theorem table {p : List Nat} (h : OneSlot f i m G m' G') (hv : Grown m G m' G')
    (hf : G f = some (.upper (a :: p))) : Below a k m G m' G' := by
  refine ⟨h.keeps, fun g w j hg hj hw _ => h.slots g w j hg hj fun he => ?_, hv.vars.len, h.high⟩
  rw [he.1, hf] at hg
  injection hg with hg
  exact hw p hg.symm

end Below

namespace Boots

variable {L : Nat → Prop} {k : Nat} {m m' : Machine} {G : Ledger Empty}

theorem one_root (h : Boots L k m G) {r : Nat} (hr : G r = some (.table r [])) : r = k :=
  (h.only r r [] hr).1

theorem enter (h : Boots L k m G) {f i c : Nat} {u : Use Empty} {p : List Nat}
    (he : Enter m f i m' c) (hf : G f = some u) (hi : i < 512)
    (hu' : u.child i = some (.upper p)) (hL : ∀ a b, u = .upper [a, b] → ¬ L a) :
    ∃ G', Boots L k m' G' ∧ Grown m G m' G' ∧ OneSlot f i m G m' G'
      ∧ G' c = some (.upper p) := by
  have hA := h.accounted
  have hsmall : m.slot f i &&& VMM_FLAG_LARGE = 0 := by
    by_contra hlarge
    obtain ⟨a, b, hu, ha⟩ := h.large f u i _ hf hi hu' hlarge
    exact hL a b hu ha
  cases he with
  | present c hc =>
    refine ⟨G, h, Grown.refl m G, ⟨fun _ _ hg => hg, fun _ _ _ _ _ _ => rfl,
      fun _ _ _ => rfl⟩, ?_⟩
    rcases hA.slots f u i hf hi _ hu' with h0 | ⟨c', hent, hG⟩ | ⟨-, -, hlarge⟩
    · rw [h0, child_zero] at hc
      cases hc
    · have hwin := (hA.managed c' _ hG).window
      rw [hent, child_tableEnt (by omega)] at hc
      injection hc with hc
      subst hc
      exact hG
    · exact absurd hsmall hlarge
  | linked c hnone hlow hlen hwin hbit =>
    have hfree := hA.free_of_bit hbit
    have hnb := hA.not_bitmapFrame hlen hbit
    have hacc := hA.link hf hi hu' hlow hlen hwin hbit (fun _ _ r hr => h.one_root hr)
    have hkeep : ∀ g w, G g = some w →
        Function.update G c (some (Use.upper p)) g = some w :=
      fun g w hg => Ledger.update_keeps hfree _ hg
    have hslots : ∀ g w j, G g = some w → j < 512 → ¬ (g = f ∧ j = i) →
        (m.link f i c).slot g j = m.slot g j := by
      intro g w j hg hj hno
      have hgc : g ≠ c := by
        intro he
        rw [he, hfree] at hg
        cases hg
      rw [m.link_slot hlen hi hj (hA.managed g w hg).bitmap, if_neg hgc, if_neg hno]
    have hbits : ∀ g, g < m.pmm_bitmap_len →
        (m.link f i c).bit g = if g = c then true else m.bit g :=
      fun g hg => m.link_bit hi hg (hA.managed f u hf).bitmap hnb
    have hhigh : ∀ j, 2 ^ 20 ≤ j → j < m.pmm_bitmap_len → (m.link f i c).bit j = m.bit j :=
      fun j hj hlt => (hbits j hlt).trans (if_neg (by omega))
    refine ⟨_, ⟨hacc, ?_, ?_⟩, ⟨m.link_vars f i c, ?_, ?_⟩, ⟨hkeep, hslots, hhigh⟩,
      Function.update_self ..⟩
    · intro g r q hg
      by_cases hgc : g = c
      · subst hgc
        rw [Function.update_self] at hg
        injection hg with hg
        cases hg
      · rw [Function.update_of_ne hgc] at hg
        exact h.only g r q hg
    · -- the new table is empty, and its link is no large page
      intro g w j w' hg hj hw' hlarge
      by_cases hgc : g = c
      · subst hgc
        rw [m.link_slot hlen hi hj hnb, if_pos rfl] at hlarge
        exact absurd rfl hlarge
      · rw [Function.update_of_ne hgc] at hg
        rw [m.link_slot hlen hi hj (hA.managed g w hg).bitmap, if_neg hgc] at hlarge
        split at hlarge
        · exact absurd (large_tableEnt (by omega)) hlarge
        · exact h.large g w j w' hg hj hw' hlarge
    · intro g hg hset
      rw [hbits g hg, hset, ite_self]
    · intro g w hg
      by_cases hgc : g = c
      · subst hgc
        exact Or.inr ⟨hlen, hbit⟩
      · rw [Function.update_of_ne hgc] at hg
        exact Or.inl hg

theorem write (h : Boots L k m G) {f i : Nat} {p : List Nat} {ent : U64}
    (hf : G f = some (.upper p)) (hi : i < 512)
    (hok : p.length = 3 ∨ ∃ a b, p = [a, b] ∧ L a
      ∧ ent &&& VMM_FLAG_PRESENT ≠ 0 ∧ ent &&& VMM_FLAG_LARGE ≠ 0) :
    Boots L k (m.setWord (512 * f + i) ent) G ∧ Grown m G (m.setWord (512 * f + i) ent) G
      ∧ OneSlot f i m G (m.setWord (512 * f + i) ent) G := by
  have hA := h.accounted
  have hbits : ∀ g, g < m.pmm_bitmap_len → (m.setWord (512 * f + i) ent).bit g = m.bit g := by
    intro g hg
    apply m.setWord_bit _ hg
    rw [show (512 * f + i) / 512 = f by omega]
    exact (hA.managed f _ hf).bitmap
  refine ⟨⟨?_, h.only, ?_⟩, ⟨⟨rfl, rfl, rfl, rfl⟩, ?_, fun _ _ hg => Or.inl hg⟩,
    fun _ _ hg => hg, fun g w j _ hj hno => ?_, fun j _ hj => hbits j hj⟩
  · apply hA.write hf hi
    · intro u' hu'
      rcases hok with hp | ⟨a, b, rfl, -, hpresent, hlarge⟩
      · simp [Use.child, hp] at hu'
      · exact Or.inr (Or.inr ⟨⟨[a, b], rfl, rfl⟩, hpresent, hlarge⟩)
    · intro hu
      cases hu
  · intro g w j w' hg hj hw' hlarge
    rw [m.setWord_slot ent hi hj] at hlarge
    split at hlarge
    · next he =>
        obtain ⟨rfl, rfl⟩ := he
        rw [hf] at hg
        injection hg with hg
        subst hg
        rcases hok with hp | ⟨a, b, rfl, hL, -, -⟩
        · simp [Use.child, hp] at hw'
        · exact ⟨a, b, rfl, hL⟩
    · exact h.large g w j w' hg hj hw' hlarge
  · intro g hg hset
    rw [hbits g hg]
    exact hset
  · rw [m.setWord_slot ent hi hj, if_neg hno]

end Boots

/-! ## §2. Mapping the upper half. -/

section Upper

variable {L : Nat → Prop} {k : Nat} {m m' : Machine} {G : Ledger Empty}

variable {perms phys pml4 virt : U64}

theorem vmm_map_huge_page_spec {r : Nat} {u : Unit}
    (hlen : m.pmm_bitmap_len ≤ 2 ^ 63) (hr : pml4.toNat = 4096 * r)
    (h : vmm_map_huge_page pml4 virt phys perms m = some (u, m')) :
    ∃ m1 c1 m2 c2,
      Enter m r (pageOf virt / 2 ^ 27 % 512) m1 c1
      ∧ Enter m1 c1 (pageOf virt / 2 ^ 18 % 512) m2 c2
      ∧ m' = m2.setWord (512 * c2 + pageOf virt / 2 ^ 9 % 512)
          (phys ||| perms ||| VMM_FLAG_PRESENT ||| VMM_FLAG_LARGE) := by
  unfold vmm_map_huge_page ctxTable at h
  rw [vmm_virt_to_offs_eq, hr] at h
  simp only [Prog.bind_eq_some] at h
  obtain ⟨pdp, m1, h1, pd, m2, h2, hw⟩ := h
  obtain ⟨t1, rfl⟩ := vmm_get_or_alloc_ent_table h2
  obtain ⟨t2, rfl, -, rfl⟩ := writeEnt_eq_some hw
  obtain ⟨c1, rfl, e1⟩ := vmm_get_or_alloc_ent_spec hlen h1
  have hlen1 : m1.pmm_bitmap_len ≤ 2 ^ 63 := e1.pmm_bitmap_len ▸ hlen
  obtain ⟨c2, rfl, e2⟩ := vmm_get_or_alloc_ent_spec hlen1 h2
  refine ⟨m1, c1, m2, c2, e1, e2, ?_⟩
  rw [entry_word]

theorem or_flags_ne_zero (x : U64) :
    (x ||| VMM_FLAG_PRESENT ||| VMM_FLAG_LARGE) &&& VMM_FLAG_PRESENT ≠ 0
    ∧ (x ||| VMM_FLAG_PRESENT ||| VMM_FLAG_LARGE) &&& VMM_FLAG_LARGE ≠ 0 := by
  constructor
  · intro he
    have hbit := congrArg (fun w : U64 => w.getLsbD 0) he
    simp [VMM_FLAG_PRESENT, VMM_FLAG_LARGE] at hbit
  · intro he
    have hbit := congrArg (fun w : U64 => w.getLsbD 7) he
    simp [VMM_FLAG_PRESENT, VMM_FLAG_LARGE] at hbit

theorem Boots.enter_two (h : Boots L k m G) {a b c1 c2 : Nat} {m1 m2 : Machine}
    (ha : 256 ≤ a) (ha' : a < 512) (hb : b < 512) (e1 : Enter m k a m1 c1)
    (e2 : Enter m1 c1 b m2 c2) :
    ∃ G', Boots L k m2 G' ∧ Grown m G m2 G' ∧ Below a k m G m2 G'
      ∧ G' c2 = some (.upper [a, b]) := by
  have hroot : (Use.table k [] : Use Empty).child a = some (.upper [a]) := by
    simp [Use.child, ha]
  have hpdp : (Use.upper [a] : Use Empty).child b = some (.upper [a, b]) := by
    simp [Use.child]
  obtain ⟨G1, h1, v1, o1, hc1⟩ := h.enter e1 h.accounted.kernel ha' hroot (by simp)
  obtain ⟨G2, h2, v2, o2, hc2⟩ := h1.enter e2 hc1 hb hpdp (by simp)
  exact ⟨G2, h2, v1.trans v2, (Below.root o1 v1).trans (Below.table o2 v2 hc1), hc2⟩

section

variable (h : Boots L k m G) (hpml4 : pml4.toNat = 4096 * k)
  (ha : 256 ≤ pageOf virt / 2 ^ 27 % 512)

include h hpml4 ha

theorem vmm_map_huge_page_boots
    (hL : L (pageOf virt / 2 ^ 27 % 512))
    (hrun : vmm_map_huge_page pml4 virt phys perms m = some (u, m')) :
    ∃ G', Boots L k m' G' ∧ Grown m G m' G' ∧ Below (pageOf virt / 2 ^ 27 % 512) k m G m' G' := by
  obtain ⟨m1, c1, m2, c2, e1, e2, rfl⟩ :=
    vmm_map_huge_page_spec h.accounted.bitmap_len_le hpml4 hrun
  obtain ⟨G2, h2, v2, b2, hc2⟩ := h.enter_two ha (slot_lt _) (slot_lt _) e1 e2
  obtain ⟨hpresent, hlarge⟩ := or_flags_ne_zero (phys ||| perms)
  obtain ⟨h3, v3, o3⟩ := h2.write hc2 (slot_lt _) (Or.inr ⟨_, _, rfl, hL, hpresent, hlarge⟩)
  exact ⟨G2, h3, v2.trans v3, b2.trans (Below.table o3 v3 hc2)⟩

theorem vmm_map_page_boots
    (hL : ¬ L (pageOf virt / 2 ^ 27 % 512))
    (hrun : vmm_map_page pml4 virt phys perms m = some (u, m')) :
    ∃ G', Boots L k m' G' ∧ Grown m G m' G' ∧ Below (pageOf virt / 2 ^ 27 % 512) k m G m' G' := by
  obtain ⟨m1, c1, m2, c2, m3, c3, e1, e2, e3, rfl⟩ :=
    vmm_map_page_spec h.accounted.bitmap_len_le hpml4 hrun
  obtain ⟨G2, h2, v2, b2, hc2⟩ := h.enter_two ha (slot_lt _) (slot_lt _) e1 e2
  have hpd : (Use.upper [pageOf virt / 2 ^ 27 % 512, pageOf virt / 2 ^ 18 % 512] : Use Empty).child
      (pageOf virt / 2 ^ 9 % 512) = some (.upper (pagePath (pageOf virt))) := by
    simp [Use.child, pagePath]
  obtain ⟨G3, h3, v3, o3, hc3⟩ := h2.enter e3 hc2 (slot_lt _) hpd (by
    intro a b hu
    injection hu with hu
    injection hu with hu _
    rw [← hu]
    exact hL)
  obtain ⟨h4, v4, o4⟩ := h3.write hc3 (slot_lt _) (Or.inl rfl)
  exact ⟨G3, h4, (v2.trans v3).trans v4,
    (b2.trans (Below.table o3 v3 hc2)).trans (Below.table o4 v4 hc3)⟩

end

theorem pageOf_add {step : U64} {n : Nat} (hstep : step.toNat = 4096 * n)
    (h : pageOf virt + n < 2 ^ 52) : pageOf (virt + step) = pageOf virt + n := by
  unfold pageOf at h ⊢
  rw [BitVec.toNat_add, hstep, Nat.mod_eq_of_lt (by omega)]
  omega

theorem rows_boots {a d : Nat} {size : U64} {page : U64 → U64 → U64 → Prog Machine Unit}
    {pages : U64 → U64 → Nat → U64 → Prog Machine Int} (hsize : size.toNat = 4096 * d)
    (hnil : ∀ virt phys, pages virt phys 0 perms = pure 1)
    (hcons : ∀ virt phys count, pages virt phys (count + 1) perms
      = page virt phys perms >>= fun _ => pages (virt + size) (phys + size) count perms)
    (hpage : ∀ {virt phys m m' G u}, Boots L k m G → pageOf virt / 2 ^ 27 % 512 = a →
      page virt phys perms m = some (u, m') →
        ∃ G', Boots L k m' G' ∧ Grown m G m' G' ∧ Below a k m G m' G')
    (count : Nat) {i : Int} (h : Boots L k m G)
    (hslot : ∀ n, n < count →
      pageOf virt + d * n < 2 ^ 52 ∧ (pageOf virt + d * n) / 2 ^ 27 % 512 = a)
    (hrun : pages virt phys count perms m = some (i, m')) :
    ∃ G', Boots L k m' G' ∧ Grown m G m' G' ∧ Below a k m G m' G' := by
  induction count generalizing virt phys m G with
  | zero =>
    rw [hnil, Prog.pure_eq_some] at hrun
    obtain ⟨-, rfl⟩ := hrun
    exact ⟨G, h, Grown.refl m G, Below.refl a k m G⟩
  | succ count ih =>
    rw [hcons, Prog.bind_eq_some] at hrun
    obtain ⟨_, m1, hone, hrest⟩ := hrun
    obtain ⟨G1, h1, v1, b1⟩ := hpage h (hslot 0 (by omega)).2 hone
    have hslot' : ∀ n, n < count → pageOf (virt + size) + d * n < 2 ^ 52
        ∧ (pageOf (virt + size) + d * n) / 2 ^ 27 % 512 = a := by
      intro n hn
      have hfar := (hslot 1 (by omega)).1
      rw [Nat.mul_one] at hfar
      have hnext := hslot (n + 1) (by omega)
      rwa [Nat.mul_succ, Nat.add_comm (d * n), ← Nat.add_assoc, ← pageOf_add hsize hfar] at hnext
    obtain ⟨G2, h2, v2, b2⟩ := ih h1 hslot' hrest
    exact ⟨G2, h2, v1.trans v2, b1.trans b2⟩

variable {a : Nat} (hpml4 : pml4.toNat = 4096 * k) (ha : 256 ≤ a) (count : Nat) {i : Int}
  (h : Boots L k m G)

include hpml4 ha h

theorem vmm_map_huge_pages_boots (hL : L a) (hv : pageOf virt + 512 * count ≤ 2 ^ 52)
    (hslot : ∀ n, n < count → (pageOf virt + 512 * n) / 2 ^ 27 % 512 = a)
    (hrun : vmm_map_huge_pages pml4 virt phys count perms m = some (i, m')) :
    ∃ G', Boots L k m' G' ∧ Grown m G m' G' ∧ Below a k m G m' G' := by
  refine rows_boots (d := 512) (by decide) (fun _ _ => rfl) (fun _ _ _ => rfl) ?_ count h
    (fun n hn => ⟨by omega, hslot n hn⟩) hrun
  rintro virt phys m m' G u h rfl hrun
  exact vmm_map_huge_page_boots h hpml4 ha hL hrun

theorem vmm_map_pages_boots (hL : ¬ L a) (hv : pageOf virt + count ≤ 2 ^ 52)
    (hslot : ∀ n, n < count → (pageOf virt + n) / 2 ^ 27 % 512 = a)
    (hrun : vmm_map_pages pml4 virt phys count perms m = some (i, m')) :
    ∃ G', Boots L k m' G' ∧ Grown m G m' G' ∧ Below a k m G m' G' := by
  refine rows_boots (d := 1) (by decide) (fun _ _ => rfl) (fun _ _ _ => rfl) ?_ count h
    (fun n hn => ⟨by omega, by rw [Nat.one_mul]; exact hslot n hn⟩) hrun
  rintro virt phys m m' G u h rfl hrun
  exact vmm_map_page_boots h hpml4 ha hL hrun

end Upper

/-! ## §3. `vmm_init`. -/

section Init

variable {L : Nat → Prop} {k : Nat} {m m' : Machine}

theorem PmmReady.first_root (h : PmmReady m) (L : Nat → Prop) {c : Nat} (hlow : 0x2000 ≤ c)
    (hlen : c < m.pmm_bitmap_len) (hwin : c < 2 ^ 20) (hbit : m.bit c = false) :
    ∃ G, Boots L c ((m.take c).zeroWords (512 * c) 512) G
      ∧ Grown m (fun _ => none) ((m.take c).zeroWords (512 * c) 512) G := by
  have hnb : ¬ m.BitmapFrame c := by
    intro hb
    have := h.bitmap c hlen hb
    rw [hbit] at this
    cases this
  have hframe : ∀ g, ((m.take c).zeroWords (512 * c) 512).BitmapFrame g ↔ m.BitmapFrame g := by
    intro g
    show (0x2000 ≤ g ∧ 32768 * (g - 0x2000) < (m.take c).pmm_bitmap_len) ↔ _
    rw [m.take_pmm_bitmap_len]
    exact Iff.rfl
  have hlen' : ((m.take c).zeroWords (512 * c) 512).pmm_bitmap_len = m.pmm_bitmap_len :=
    m.take_pmm_bitmap_len c
  have hbits : ∀ f, f < m.pmm_bitmap_len → ((m.take c).zeroWords (512 * c) 512).bit f
      = if f = c then true else m.bit f := by
    intro f hf
    rw [(m.take c).zeroWords_bit (by rw [m.take_pmm_bitmap_len]; exact hf)
      (fun hb => hnb ((hframe c).mp hb)), m.take_bit hf hnb]
  have hzero : ∀ j, j < 512 → ((m.take c).zeroWords (512 * c) 512).slot c j = 0 :=
    fun j hj => (m.take c).zeroWords_slot_self hj
  -- the ledger knows one frame only
  have hG : ∀ f u, Function.update (fun _ => none) c (some (Use.table c [] : Use Empty)) f = some u →
      f = c ∧ u = .table c [] := by
    intro f u hf
    by_cases hfc : f = c
    · subst hfc
      rw [Function.update_self] at hf
      injection hf with hf
      exact ⟨rfl, hf.symm⟩
    · rw [Function.update_of_ne hfc] at hf
      cases hf
  refine ⟨Function.update (fun _ => none) c (some (.table c [])), ⟨?_, ?_, ?_⟩,
    ⟨(m.take_vars c).trans ⟨rfl, rfl, rfl, rfl⟩, ?_, ?_⟩⟩
  · constructor
    · rw [hlen']
      exact h.len
    · intro f hf hb
      rw [hlen'] at hf
      rw [hbits f hf]
      split
      · rfl
      · exact h.bitmap f hf ((hframe f).mp hb)
    · intro f u hf
      obtain ⟨rfl, -⟩ := hG f u hf
      exact ⟨hlow, by rw [hlen']; exact hlen, hwin, by rw [hbits f hlen, if_pos rfl],
        fun hb => hnb ((hframe f).mp hb)⟩
    · intro f r p hf
      obtain ⟨rfl, hu⟩ := hG f _ hf
      injection hu with h1 _
      subst h1
      exact Function.update_self ..
    · intro f r hf
      obtain ⟨rfl, hu⟩ := hG f _ hf
      injection hu with h1 _
      exact h1.symm
    · intro f u i hf hi u' _
      obtain ⟨rfl, -⟩ := hG f u hf
      exact Or.inl (hzero i hi)
    · exact Function.update_self ..
    · intro r i hr _ _
      obtain ⟨rfl, -⟩ := hG r _ hr
      rfl
  · intro f r p hf
    obtain ⟨-, hu⟩ := hG f _ hf
    injection hu with h1 h2
    exact ⟨h1, h2⟩
  · intro f u i u' hf hi _ hlarge
    obtain ⟨rfl, -⟩ := hG f u hf
    rw [hzero i hi] at hlarge
    exact absurd rfl hlarge
  · intro f hf hset
    rw [hbits f hf, hset, ite_self]
  · intro f u hf
    obtain ⟨rfl, -⟩ := hG f u hf
    exact Or.inr ⟨hlen, hbit⟩

theorem vmm_map_huge_pages_full (count : Nat) {virt phys perms : U64} {i : Int}
    (hlen : m.pmm_bitmap_len ≤ 2 ^ 63)
    (hfull : ∀ f, 0x2000 ≤ f → f < m.pmm_bitmap_len → m.bit f = true)
    (hzero : m.slot 0 (pageOf virt / 2 ^ 27 % 512) = 0) :
    vmm_map_huge_pages 0 virt phys (count + 1) perms m ≠ some (i, m') := by
  intro hrun
  simp only [vmm_map_huge_pages, Prog.bind_eq_some] at hrun
  obtain ⟨_, m1, hpage, -⟩ := hrun
  obtain ⟨_, c, _, _, e1, -⟩ := vmm_map_huge_page_spec hlen (r := 0) rfl hpage
  cases e1 with
  | present c hc =>
    rw [hzero, child_zero] at hc
    cases hc
  | linked c _ hlow hclen _ hbit =>
    have := hfull c hlow hclen
    rw [hbit] at this
    cases this

variable {pml4 : U64} {ehdr : Option (List Elf64Phdr)}

theorem vmm_map_segments_boots (hpml4 : pml4.toNat = 4096 * k) (hL : ¬ L 511)
    (phdrs : List Elf64Phdr) (m m' : Machine) (G : Ledger Empty) (u : Unit) (h : Boots L k m G)
    (hseg : ∀ phdr ∈ phdrs, phdr.loaded = true →
      pageOf phdr.p_vaddr + ((phdr.p_memsz + 0xFFF) / 0x1000).toNat ≤ 2 ^ 52)
    (hrun : vmm_map_segments pml4 phdrs m = some (u, m')) :
    ∃ G', Boots L k m' G' ∧ Grown m G m' G' ∧ Below 511 k m G m' G' := by
  induction phdrs generalizing m m' G u with
  | nil =>
    simp only [vmm_map_segments, Prog.pure_eq_some] at hrun
    obtain ⟨-, rfl⟩ := hrun
    exact ⟨G, h, Grown.refl m G, Below.refl 511 k m G⟩
  | cons phdr phdrs ih =>
    have hrest : ∀ p ∈ phdrs, p.loaded = true →
        pageOf p.p_vaddr + ((p.p_memsz + 0xFFF) / 0x1000).toNat ≤ 2 ^ 52 :=
      fun p hp => hseg p (List.mem_cons_of_mem _ hp)
    by_cases hload : phdr.loaded = true
    · simp only [vmm_map_segments, if_pos hload, Prog.bind_eq_some] at hrun
      obtain ⟨i, m1, hmap, hrun⟩ := hrun
      have hfit := hseg phdr List.mem_cons_self hload
      -- a loaded segment starts in the last two gigabytes
      have hbase : 2 ^ 52 - 2 ^ 19 ≤ pageOf phdr.p_vaddr := by
        simp only [Elf64Phdr.loaded, Bool.and_eq_true, decide_eq_true_eq] at hload
        have hle := BitVec.le_def.mp hload.2
        have hconst : (0xFFFFFFFF80000000 : U64).toNat = 0xFFFFFFFF80000000 := rfl
        unfold pageOf
        omega
      obtain ⟨G1, h1, v1, b1⟩ := vmm_map_pages_boots hpml4 (a := 511) (by omega) _ h hL hfit
        (by intro n hn; omega) hmap
      obtain ⟨G2, h2, v2, b2⟩ := ih m1 m' G1 u h1 hrest hrun
      exact ⟨G2, h2, v1.trans v2, b1.trans b2⟩
    · simp only [vmm_map_segments, if_neg hload] at hrun
      exact ih m m' G u h hrest hrun

theorem Boots.booted {G : Ledger Empty} (h : Boots L k m G)
    (hpml4 : pml4.toNat = 4096 * k) (htop : m.top = vm_heap_base) (htotal : m.pmm_total_pages ≠ 0) :
    Booted { m with kernel_pml4 := pml4 } := by
  refine ⟨k, G, ?_, hpml4, h.only, htop, htotal⟩
  exact h.accounted.congr rfl (fun _ _ _ _ _ _ => rfl) (fun _ _ hset _ => hset)

/-- What `vmm_new_address_space` maps after the window: the kernel image. -/
def vmm_map_image (pml4 : U64) : Option (List Elf64Phdr) → Prog Machine Unit
  | none => do
    let _ ← vmm_map_huge_pages pml4 0xFFFFFFFF80000000 0 64 3
    pure ()
  | some phdrs => vmm_map_segments pml4 phdrs

theorem vmm_new_address_space_stages
    (hlen : m.pmm_bitmap_len ≤ 2 ^ 63) (hkernel : m.kernel_pml4 = 0)
    (hrun : vmm_new_address_space ehdr m = some (pml4, m')) :
    ∃ c i m2, pml4.toNat = 4096 * c ∧ 0x2000 ≤ c ∧ c < m.pmm_bitmap_len ∧ c < 2 ^ 20
      ∧ m.bit c = false
      ∧ vmm_map_huge_pages pml4 0xFFFF800000000000 0 (512 * 4) 3
          ((m.take c).zeroWords (512 * c) 512) = some (i, m2)
      ∧ vmm_map_image pml4 ehdr m2 = some ((), m') := by
  unfold vmm_new_address_space at hrun
  simp only [Prog.bind_eq_some, Prog.read_eq_some, memset_page_eq_some] at hrun
  obtain ⟨p, m0, halloc, _, _, ⟨-, rfl⟩, _, _, ⟨rfl, rfl⟩, hrun⟩ := hrun
  rcases pmm_alloc_cases hlen halloc with ⟨rfl, rfl, hfull⟩ | ⟨c, rfl, rfl, hlow, hclen, hwin, hbit, -⟩
  · -- no frame for the root: the window cannot be mapped
    have hk : (m0.zeroWords ((0 : U64).toNat / 8) 512).kernel_pml4 = 0 := hkernel
    have hnb : ¬ m0.BitmapFrame 0 := by
      unfold Machine.BitmapFrame
      omega
    simp only [hk, ne_eq, not_true_eq_false, if_false, Prog.bind_eq_some] at hrun
    obtain ⟨i, m2, hmap, -⟩ := hrun
    refine absurd hmap (vmm_map_huge_pages_full 2047 hlen ?_ ?_)
    · intro f hf hflen
      exact (m0.zeroWords_bit (f := 0) hflen hnb).trans (hfull f hf hflen)
    · exact m0.zeroWords_slot_self (f := 0) (Nat.mod_lt _ (by omega))
  · have haddr := toNat_addr (f := c) (by omega)
    have hword : (BitVec.ofNat 64 (4096 * c)).toNat / 8 = 512 * c := by
      rw [haddr]
      omega
    rw [hword] at hrun
    have hv0 : m.SameVars ((m.take c).zeroWords (512 * c) 512) :=
      (m.take_vars c).trans ⟨rfl, rfl, rfl, rfl⟩
    simp only [hv0.kernel, hkernel, ne_eq, not_true_eq_false, if_false, Prog.bind_eq_some] at hrun
    obtain ⟨i, m2, hmap, hrun⟩ := hrun
    cases ehdr with
    | none =>
      simp only [Prog.bind_eq_some, Prog.pure_eq_some] at hrun
      obtain ⟨i', m3, hmap', rfl, rfl⟩ := hrun
      refine ⟨c, i, m2, haddr, hlow, hclen, hwin, hbit, hmap, ?_⟩
      exact Prog.bind_apply hmap'
    | some phdrs =>
      simp only [Prog.bind_eq_some, Prog.pure_eq_some] at hrun
      obtain ⟨_, m3, hmap', rfl, rfl⟩ := hrun
      exact ⟨c, i, m2, haddr, hlow, hclen, hwin, hbit, hmap, hmap'⟩

def SegmentsFit (ehdr : Option (List Elf64Phdr)) : Prop :=
  ∀ phdrs, ehdr = some phdrs → ∀ phdr ∈ phdrs, phdr.loaded = true →
    pageOf phdr.p_vaddr + ((phdr.p_memsz + 0xFFF) / 0x1000).toNat ≤ 2 ^ 52

/-- The root's slots below which there are huge pages. -/
def hugeSlots (ehdr : Option (List Elf64Phdr)) (a : Nat) : Prop :=
  a = 256 ∨ (a = 511 ∧ ehdr = none)

theorem vmm_map_image_boots {G : Ledger Empty}
    (hpml4 : pml4.toNat = 4096 * k) (hseg : SegmentsFit ehdr) (h : Boots (hugeSlots ehdr) k m G)
    (hrun : vmm_map_image pml4 ehdr m = some ((), m')) :
    ∃ G', Boots (hugeSlots ehdr) k m' G' ∧ Grown m G m' G' ∧ Below 511 k m G m' G' := by
  have himage : pageOf 0xFFFFFFFF80000000 = 2 ^ 52 - 2 ^ 19 := by decide
  cases ehdr with
  | none =>
    simp only [vmm_map_image, Prog.bind_eq_some, Prog.pure_eq_some] at hrun
    obtain ⟨i, m1, hmap, -, rfl⟩ := hrun
    refine vmm_map_huge_pages_boots hpml4 (by omega) _ h (Or.inr ⟨rfl, rfl⟩) ?_ ?_ hmap
    · rw [himage]
      decide
    · intro n hn
      rw [himage]
      omega
  | some phdrs =>
    refine vmm_map_segments_boots hpml4 ?_ phdrs _ _ _ _ h (hseg phdrs rfl) hrun
    rintro (h256 | ⟨-, hnone⟩)
    · omega
    · cases hnone

theorem window_slot {n : Nat} (hn : n < 512 * 4) :
    (pageOf 0xFFFF800000000000 + 512 * n) / 2 ^ 27 % 512 = 256 := by
  rw [show pageOf 0xFFFF800000000000 = 2 ^ 52 - 2 ^ 35 from by decide]
  omega

theorem vmm_new_address_space_first (hready : PmmReady m) (hkernel : m.kernel_pml4 = 0)
    (hseg : SegmentsFit ehdr)
    (hrun : vmm_new_address_space ehdr m = some (pml4, m')) :
    ∃ L k G, pml4.toNat = 4096 * k ∧ Boots L k m' G ∧ Grown m (fun _ => none) m' G := by
  have hlen := hready.len
  obtain ⟨c, i, m2, haddr, hlow, hclen, hwin, hbit, hmap, himage⟩ :=
    vmm_new_address_space_stages (by omega) hkernel hrun
  obtain ⟨G0, h0, v0⟩ := hready.first_root (hugeSlots ehdr) hlow hclen hwin hbit
  obtain ⟨G1, h1, v1, -⟩ := vmm_map_huge_pages_boots haddr (by omega) _ h0 (Or.inl rfl)
    (by decide) (fun n hn => window_slot hn) hmap
  obtain ⟨G2, h2, v2, -⟩ := vmm_map_image_boots haddr hseg h1 himage
  exact ⟨_, c, G2, haddr, h2, (v0.trans v1).trans v2⟩

theorem vmm_init_booted {u : Unit} (hready : PmmReady m)
    (hkernel : m.kernel_pml4 = 0) (htop : m.top = vm_heap_base) (hseg : SegmentsFit ehdr)
    (hrun : vmm_init ehdr m = some (u, m')) : Booted m' := by
  unfold vmm_init at hrun
  simp only [Prog.bind_eq_some, Prog.update_eq_some] at hrun
  obtain ⟨pml4, m1, hnew, rfl⟩ := hrun
  obtain ⟨L, k, G, haddr, h, hgrown⟩ := vmm_new_address_space_first hready hkernel hseg hnew
  exact h.booted haddr (hgrown.vars.top.trans htop)
    (by rw [hgrown.vars.total]; exact hready.total)

end Init

/-! ## §4. A booted machine, written down. -/

def bootSlot (f i : Nat) : U64 :=
  match f with
  | 0x2000 => if i < 128 then -1 else if i = 128 then 0x1FF else 0
  | 0x2001 => if i = 256 then tableEnt 0x2002 else if i = 511 then tableEnt 0x2007 else 0
  | 0x2002 => if i < 4 then tableEnt (0x2003 + i) else 0
  | 0x2003 => BitVec.ofNat 64 (0x200000 * i) ||| 0x83
  | 0x2004 => BitVec.ofNat 64 (0x200000 * (512 + i)) ||| 0x83
  | 0x2005 => BitVec.ofNat 64 (0x200000 * (1024 + i)) ||| 0x83
  | 0x2006 => BitVec.ofNat 64 (0x200000 * (1536 + i)) ||| 0x83
  | 0x2007 => if i = 510 then tableEnt 0x2008 else 0
  | 0x2008 => if i < 64 then BitVec.ofNat 64 (0x200000 * i) ||| 0x83 else 0
  | _ => 0

/-- That machine; its frames from `0x2009` on are free. -/
def bootMachine : Machine where
  mem w := bootSlot (w / 512) (w % 512)
  pmm_bitmap_len := 0x2020
  pmm_free_pages := 0x17
  pmm_total_pages := 0x1F
  kernel_pml4 := 0x2001000
  top := vm_heap_base

/-- Its ledger. -/
def bootLedger : Ledger Empty
  | 0x2001 => some (.table 0x2001 [])
  | 0x2002 => some (.upper [256])
  | 0x2003 => some (.upper [256, 0])
  | 0x2004 => some (.upper [256, 1])
  | 0x2005 => some (.upper [256, 2])
  | 0x2006 => some (.upper [256, 3])
  | 0x2007 => some (.upper [511])
  | 0x2008 => some (.upper [511, 510])
  | _ => none

variable {f i : Nat}

theorem bootMachine_slot (hi : i < 512) : bootMachine.slot f i = bootSlot f i := by
  show bootSlot ((512 * f + i) / 512) ((512 * f + i) % 512) = _
  rw [show (512 * f + i) / 512 = f by omega, show (512 * f + i) % 512 = i by omega]

theorem bootMachine_bit (hf : f < 0x2020) :
    bootMachine.bit f = decide (f < 0x2009) := by
  have hframe : (0x400000 + f / 64) / 512 = 0x2000 := by omega
  have hword : (0x400000 + f / 64) % 512 = f / 64 := by omega
  show (bootSlot ((0x400000 + f / 64) / 512) ((0x400000 + f / 64) % 512)).getLsbD (f % 64) = _
  rw [hframe, hword]
  show (if f / 64 < 128 then (-1 : U64) else if f / 64 = 128 then 0x1FF else 0).getLsbD _ = _
  by_cases h : f / 64 < 128
  · have hset : ∀ i : Fin 64, (-1 : U64).getLsbD i.val = true := by decide
    have := hset ⟨f % 64, Nat.mod_lt _ (by omega)⟩
    rw [if_pos h, this]
    exact (decide_eq_true (by omega)).symm
  · -- the last word: bits 0 to 8
    have hlast : ∀ i : Fin 64, (0x1FF : U64).getLsbD i.val = decide (i.val < 9) := by decide
    have := hlast ⟨f % 64, Nat.mod_lt _ (by omega)⟩
    rw [if_neg h, if_pos (by omega), this, decide_eq_decide]
    show f % 64 < 9 ↔ _
    omega

theorem bootLedger_low {u : Use Empty} (h : bootLedger f = some u) :
    0x2001 ≤ f ∧ f < 0x2009 := by
  unfold bootLedger at h
  split at h <;> first | omega | cases h

theorem bootLedger_root {r : Nat} {p : List Nat} (h : bootLedger f = some (.table r p)) :
    f = 0x2001 ∧ r = 0x2001 ∧ p = [] := by
  unfold bootLedger at h
  split at h <;> cases h
  exact ⟨rfl, rfl, rfl⟩

theorem huge_slot (x : U64) : (x ||| 0x83) &&& VMM_FLAG_PRESENT ≠ 0
    ∧ (x ||| 0x83) &&& VMM_FLAG_LARGE ≠ 0 := by
  have h83 : x ||| 0x83 = (x ||| 0x2) ||| VMM_FLAG_PRESENT ||| VMM_FLAG_LARGE := by
    rw [BitVec.or_assoc, BitVec.or_assoc]
    rfl
  rw [h83]
  exact or_flags_ne_zero _

theorem bootLedger_slots {u : Use Empty} (h : bootLedger f = some u) :
    SlotOk bootLedger u i (bootSlot f i) := by
  intro u' hu'
  unfold bootLedger at h
  split at h
  all_goals cases h
  · -- the root: slots 256 and 511
    by_cases h1 : i = 256
    · subst h1
      cases hu'
      exact Or.inr (Or.inl ⟨0x2002, rfl, rfl⟩)
    · by_cases h2 : i = 511
      · subst h2
        cases hu'
        exact Or.inr (Or.inl ⟨0x2007, rfl, rfl⟩)
      · left
        show (if i = 256 then tableEnt 0x2002 else if i = 511 then tableEnt 0x2007 else 0) = 0
        rw [if_neg h1, if_neg h2]
  · -- the window: four directories
    by_cases h4 : i < 4
    · cases hu'
      refine Or.inr (Or.inl ⟨0x2003 + i, if_pos h4, ?_⟩)
      interval_cases i <;> rfl
    · exact Or.inl (if_neg h4)
  · exact Or.inr (Or.inr ⟨⟨_, rfl, rfl⟩, huge_slot _⟩)
  · exact Or.inr (Or.inr ⟨⟨_, rfl, rfl⟩, huge_slot _⟩)
  · exact Or.inr (Or.inr ⟨⟨_, rfl, rfl⟩, huge_slot _⟩)
  · exact Or.inr (Or.inr ⟨⟨_, rfl, rfl⟩, huge_slot _⟩)
  · -- the image
    by_cases h1 : i = 510
    · subst h1
      cases hu'
      exact Or.inr (Or.inl ⟨0x2008, rfl, rfl⟩)
    · exact Or.inl (if_neg h1)
  · by_cases h1 : i < 64
    · refine Or.inr (Or.inr ⟨⟨_, rfl, rfl⟩, ?_⟩)
      show (if i < 64 then _ else _) &&& VMM_FLAG_PRESENT ≠ 0 ∧ (if i < 64 then _ else _) &&& _ ≠ 0
      rw [if_pos h1]
      exact huge_slot _
    · exact Or.inl (if_neg h1)

theorem bootMachine_accounted : Accounted 0x2001 bootMachine bootLedger := by
  constructor
  · decide
  · intro f hf hb
    have hlen : bootMachine.pmm_bitmap_len = 0x2020 := rfl
    unfold Machine.BitmapFrame at hb
    rw [hlen] at hf hb
    rw [bootMachine_bit hf]
    exact decide_eq_true (by omega)
  · intro f u hf
    obtain ⟨h1, h2⟩ := bootLedger_low hf
    have hlen : bootMachine.pmm_bitmap_len = 0x2020 := rfl
    refine ⟨by omega, by omega, by omega, ?_, ?_⟩
    · rw [bootMachine_bit (by omega)]
      exact decide_eq_true (by omega)
    · unfold Machine.BitmapFrame
      rw [hlen]
      omega
  · intro f r p hf
    obtain ⟨-, rfl, -⟩ := bootLedger_root hf
    rfl
  · intro f r hf
    obtain ⟨h1, h2, -⟩ := bootLedger_root hf
    rw [h1, h2]
  · intro f u i hf hi
    rw [bootMachine_slot hi]
    exact bootLedger_slots hf
  · rfl
  · intro r i hr _ _
    obtain ⟨rfl, -, -⟩ := bootLedger_root hr
    rfl

theorem bootMachine_booted : Booted bootMachine :=
  ⟨0x2001, bootLedger, bootMachine_accounted, rfl, fun _ _ _ hf => (bootLedger_root hf).2, rfl,
    by decide⟩

end Quack.Arch
