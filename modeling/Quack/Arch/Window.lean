/-
  Quack.Arch.Window
  **COPYING THROUGH THE KERNEL'S WINDOW.**

  `arch_mm_mapping_load` and `arch_mm_mapping_store` map every page of a region
  from 0x700000000000 on, copy byte by byte, and unmap the pages again.  The
  copy goes through the tables of `kernel_pml4` as the processor reads them; an
  address without a translation is a page fault.
-/
import Quack.Arch.Contexts

namespace Quack.Arch

open Lib Mm

variable {κ : Type}

/-! ## §1. Virtual addresses. -/

/-- The physical address behind a virtual one, for the page it lies in. -/
def Leaf.phys : Leaf → (virt : Nat) → Nat
  | .page ent, virt => 4096 * frameOf ent + virt % 4096
  | .huge ent, virt => 2 ^ 21 * (frameOf ent / 2 ^ 9) + virt % 2 ^ 21
  | .giant ent, virt => 2 ^ 30 * (frameOf ent / 2 ^ 18) + virt % 2 ^ 30

namespace Machine

def physOf (m : Machine) (virt : U64) : Option Nat :=
  if virt.toNat < 2 ^ 47 ∨ 2 ^ 64 - 2 ^ 47 ≤ virt.toNat then
    (m.translate (rootOf m.kernel_pml4) (pageOf virt)).map (·.phys virt.toNat)
  else none

def byte (m : Machine) (phys : Nat) : BitVec 8 :=
  (m.mem (phys / 8)).extractLsb' (8 * (phys % 8)) 8

def setByte (m : Machine) (phys : Nat) (b : BitVec 8) : Machine :=
  m.setWord (phys / 8) ((m.mem (phys / 8) &&& ~~~ (0xFF#64 <<< (8 * (phys % 8))))
    ||| (b.zeroExtend 64 <<< (8 * (phys % 8))))

end Machine

/-- What the processor does with an address before the access. -/
def virtToPhys (virt : U64) : Prog Machine Nat := do
  let phys ← Prog.read (fun m => m.physOf virt)
  Prog.ofOption phys

def loadVirt8 (virt : U64) : Prog Machine (BitVec 8) := do
  let phys ← virtToPhys virt
  Prog.read (fun m => m.byte phys)

def storeVirt8 (virt : U64) (b : BitVec 8) : Prog Machine Unit := do
  let phys ← virtToPhys virt
  Prog.update (fun m => m.setByte phys b)

/-- `memcpy` from the kernel's data. -/
def copyIn : (dst : U64) → List (BitVec 8) → Prog Machine Unit
  | _, [] => pure ()
  | dst, b :: data => do
    storeVirt8 dst b
    copyIn (dst + 1) data

/-- `memcpy` to the kernel's data. -/
def copyOut : (src : U64) → (size : Nat) → Prog Machine (List (BitVec 8))
  | _, 0 => pure []
  | src, size + 1 => do
    let b ← loadVirt8 src
    let data ← copyOut (src + 1) size
    pure (b :: data)

/-! ## §2. The window. -/

/-- The address both copies begin at. -/
def copy_base : U64 := 0x700000000000

/-- The first loop: map the pages of the region. -/
def windowMap : (virt : U64) → List BackingPage → Prog Machine Unit
  | _, [] => pure ()
  | virt, page :: pages => do
    let kernel_pml4 ← Prog.read Machine.kernel_pml4
    let _ ← vmm_map_pages kernel_pml4 virt page.ptr 1 VMM_FLAG_WRITE
    windowMap (virt + 0x1000) pages

/-- The last loop: unmap them. -/
def windowUnmap : (virt : U64) → Nat → Prog Machine Unit
  | _, 0 => pure ()
  | virt, size + 1 => do
    let kernel_pml4 ← Prog.read Machine.kernel_pml4
    let _ ← vmm_unmap_pages kernel_pml4 virt 1
    windowUnmap (virt + 0x1000) size

def arch_mm_mapping_load (mapping : MemoryMapping) (offset : U64) (data : List (BitVec 8)) :
    Prog Machine Unit := do
  windowMap copy_base mapping.backing_pages
  copyIn (copy_base + offset) data
  windowUnmap copy_base mapping.size.toNat

def arch_mm_mapping_store (mapping : MemoryMapping) (offset size : U64) :
    Prog Machine (List (BitVec 8)) := do
  windowMap copy_base mapping.backing_pages
  let data ← copyOut (copy_base + offset) size.toNat
  windowUnmap copy_base mapping.size.toNat
  pure data

/-- The x86_64 side of `arch/mm.h`. -/
def x86Mm (ehdr : Option (List Elf64Phdr)) : ArchMm Machine where
  arch_mm_create_context := arch_mm_create_context ehdr
  arch_mm_destroy_context := arch_mm_destroy_context
  arch_mm_map := arch_mm_map
  arch_mm_unmap := arch_mm_unmap
  arch_mm_alloc_phys := arch_mm_alloc_phys
  arch_mm_free_phys := arch_mm_free_phys
  arch_mm_mapping_load := arch_mm_mapping_load
  arch_mm_mapping_store := arch_mm_mapping_store

/-! ## §3. Entries with flags. -/

theorem frameOf_or (ent flags : U64) (h : flags.toNat < 4096) :
    frameOf (ent ||| flags) = frameOf ent := by
  have hsmall : flags.toNat % 2 ^ 63 / 2 ^ 12 = 0 := by omega
  unfold frameOf
  rw [show (4096 : Nat) = 2 ^ 12 from rfl, BitVec.toNat_or, Nat.or_mod_two_pow,
    Nat.or_div_two_pow, hsmall, Nat.or_zero]

theorem child_leaf (phys perms : U64) (h : perms.toNat < 4096) :
    child (phys ||| perms ||| VMM_FLAG_PRESENT) = some (frameOf phys) := by
  have hone : VMM_FLAG_PRESENT.toNat = 1 := rfl
  have hpresent : (phys ||| perms ||| VMM_FLAG_PRESENT) &&& VMM_FLAG_PRESENT ≠ 0 := by
    rw [Ne, and_present_eq_zero, BitVec.toNat_or, hone, show (2 : Nat) = 2 ^ 1 from rfl,
      Nat.or_mod_two_pow]
    rcases Nat.mod_two_eq_zero_or_one (phys ||| perms).toNat with h0 | h1
    · rw [show (2 : Nat) ^ 1 = 2 from rfl, h0]
      decide
    · rw [show (2 : Nat) ^ 1 = 2 from rfl, h1]
      decide
  unfold child
  rw [if_neg hpresent, frameOf_or _ _ (by rw [hone]; omega), frameOf_or _ _ h]

/-! ## §4. Writes that spare the tables. -/

/-- Only words of the frames in `P` are written. -/
structure Writes (P : Nat → Prop) (m m' : Machine) : Prop where
  vars : m.SameVars m'
  words : ∀ w, ¬ P (w / 512) → m'.mem w = m.mem w

def Plain (m : Machine) (G : Ledger κ) (f : Nat) : Prop :=
  f < 0x2000 ∨ m.pmm_bitmap_len ≤ f ∨ ∃ d, G f = some (.data d)

namespace Plain

variable {k r f : Nat} {m m' : Machine} {G G' : Ledger κ}

theorem is_data (h : Plain m G f) (hA : Accounted k m G) {u : Use κ} (hf : G f = some u) :
    ∃ d, u = .data d := by
  have hman := hA.managed f u hf
  rcases h with hlow | hlen | ⟨d, hd⟩
  · exact absurd hman.low (by omega)
  · exact absurd hman.len (by omega)
  · rw [hf] at hd
    injection hd with hd
    exact ⟨d, hd⟩

theorem not_bitmapFrame (h : Plain m G f) (hA : Accounted k m G) : ¬ m.BitmapFrame f := by
  have hk := hA.managed k _ hA.kernel
  have hlow := hk.low
  have hlen := hk.len
  rcases h with h | h | ⟨d, hd⟩
  · unfold Machine.BitmapFrame
    omega
  · unfold Machine.BitmapFrame
    omega
  · exact (hA.managed f _ hd).bitmap

theorem touches (h : Plain m G f) (ht : Touches r m G m' G') : Plain m' G' f := by
  rcases h with h | h | ⟨d, hd⟩
  · exact Or.inl h
  · exact Or.inr (Or.inl (by rw [ht.vars.len]; exact h))
  · exact Or.inr (Or.inr ⟨d, ht.ext f _ hd⟩)

end Plain

namespace Writes

variable {P : Nat → Prop} {k r v f : Nat} {m m' m'' : Machine} {G : Ledger κ}

theorem refl (P : Nat → Prop) (m : Machine) : Writes P m m :=
  ⟨Machine.SameVars.refl m, fun _ _ => rfl⟩

theorem trans (h1 : Writes P m m') (h2 : Writes P m' m'') : Writes P m m'' :=
  ⟨h1.vars.trans h2.vars, fun w hw => (h2.words w hw).trans (h1.words w hw)⟩

theorem slot (h : Writes P m m') (hf : ¬ P f) {j : Nat} (hj : j < 512) :
    m'.slot f j = m.slot f j := by
  have hdiv : (512 * f + j) / 512 = f := by omega
  exact h.words _ (by rw [hdiv]; exact hf)

section

variable (h : Writes P m m') (hA : Accounted k m G) (hP : ∀ f, P f → Plain m G f)

include h hA hP

theorem bit
    (hf : f < m.pmm_bitmap_len) : m'.bit f = m.bit f := by
  unfold Machine.bit
  rw [h.words]
  intro hp
  apply (hP _ hp).not_bitmapFrame hA
  unfold Machine.BitmapFrame
  omega

theorem table_slot
    {u : Use κ} (hf : G f = some u) (hu : ∀ d, u ≠ .data d) {j : Nat} (hj : j < 512) :
    m'.slot f j = m.slot f j := by
  apply h.slot _ hj
  intro hp
  obtain ⟨d, hd⟩ := (hP f hp).is_data hA hf
  exact hu d hd

theorem accounted :
    Accounted k m' G := by
  refine hA.congr h.vars.len ?_ ?_
  · intro f u j hf hu hj
    exact h.table_slot hA hP hf hu hj
  · intro f hf hset _
    rw [h.bit hA hP hf]
    exact hset

theorem table
    (hr : G r = some (.table r [])) (hv : v < 2 ^ 35) : m'.table r v = m.table r v := by
  apply hA.table_congr hr hv
  intro f p j hf hj
  exact h.table_slot hA hP hf (by simp) hj

theorem entry
    (hr : G r = some (.table r [])) (hv : v < 2 ^ 35) : m'.entry r v = m.entry r v := by
  apply hA.entry_congr hr hv
  intro f p j hf hj
  exact h.table_slot hA hP hf (by simp) hj

theorem walk
    (hr : G r = some (.table r [])) {path : List Nat} (hpath : Forest.Inner LowerSlot path) :
    Forest.walk child m'.slot r path = Forest.walk child m.slot r path := by
  refine hA.walk_congr hr (fun f p j hf hj => ?_) hpath
  exact h.table_slot hA hP hf (by simp) hj.2.1

end

end Writes

/-! ## §5. Accesses to the kernel's pages. -/

section Access

variable {k : Nat} {m m' : Machine} {G : Ledger κ}

variable {virt : U64}

theorem physOf_lower (h : Accounted k m G) (hk : m.kernel_pml4.toNat = 4096 * k)
    (hv : virt.toNat < 2 ^ 47) {phys : Nat} (hp : m.physOf virt = some phys) :
    ∃ f, child (m.entry k (pageOf virt)) = some f ∧ phys = 4096 * f + virt.toNat % 4096 := by
  have hpage : pageOf virt < 2 ^ 35 := by
    unfold pageOf
    omega
  unfold Machine.physOf at hp
  rw [if_pos (Or.inl hv), rootOf_eq hk, h.translate_lower h.kernel hpage] at hp
  cases hc : child (m.entry k (pageOf virt)) with
  | none =>
    rw [hc] at hp
    cases hp
  | some f =>
    rw [hc] at hp
    injection hp with hp
    refine ⟨f, rfl, ?_⟩
    rw [← hp, ← frameOf_eq_of_child hc]
    rfl

theorem virtToPhys_eq_some {phys : Nat} :
    virtToPhys virt m = some (phys, m') ↔ m.physOf virt = some phys ∧ m = m' := by
  unfold virtToPhys
  simp only [Prog.bind_eq_some, Prog.read_eq_some, Prog.ofOption_eq_some]
  constructor
  · rintro ⟨o, t, ⟨rfl, rfl⟩, h, rfl⟩
    exact ⟨h, rfl⟩
  · rintro ⟨h, rfl⟩
    exact ⟨_, m, ⟨rfl, rfl⟩, h, rfl⟩

theorem storeVirt8_eq_some {b : BitVec 8} {u : Unit}
    (h : storeVirt8 virt b m = some (u, m')) :
    ∃ phys, m.physOf virt = some phys ∧ m' = m.setByte phys b := by
  simp only [storeVirt8, Prog.bind_eq_some, virtToPhys_eq_some, Prog.update_eq_some] at h
  obtain ⟨phys, _, ⟨hp, rfl⟩, rfl⟩ := h
  exact ⟨phys, hp, rfl⟩

theorem copyIn_writes {P : Nat → Prop} (hP : ∀ f, P f → Plain m G f) :
    ∀ (data : List (BitVec 8)) (dst : U64) (t t' : Machine) (u : Unit), Writes P m t →
      Accounted k m G → m.kernel_pml4.toNat = 4096 * k →
      (∀ v f, pageOf copy_base ≤ v → v < 2 ^ 35 → child (m.entry k v) = some f → P f) →
      copy_base.toNat ≤ dst.toNat → dst.toNat ≤ 2 ^ 47 →
      copyIn dst data t = some (u, t') → Writes P m t' := by
  intro data
  induction data with
  | nil =>
    intro dst t t' u hw _ _ _ _ _ hrun
    simp only [copyIn, Prog.pure_eq_some] at hrun
    obtain ⟨-, rfl⟩ := hrun
    exact hw
  | cons b data ih =>
    intro dst t t' u hw hA hk hshown hlo hhi hrun
    simp only [copyIn, Prog.bind_eq_some] at hrun
    obtain ⟨_, t1, hstore, hrest⟩ := hrun
    obtain ⟨phys, hphys, rfl⟩ := storeVirt8_eq_some hstore
    -- the address is below the hole in the middle, or there is no translation
    have hdst : dst.toNat < 2 ^ 47 := by
      by_contra hge
      unfold Machine.physOf at hphys
      rw [if_neg (by omega)] at hphys
      cases hphys
    have hv : pageOf dst < 2 ^ 35 := by
      unfold pageOf
      omega
    have hlo' : pageOf copy_base ≤ pageOf dst := Nat.div_le_div_right hlo
    obtain ⟨f, hchild, rfl⟩ := physOf_lower (hw.accounted hA hP) (by rw [hw.vars.kernel]; exact hk)
      hdst hphys
    rw [hw.entry hA hP hA.kernel hv] at hchild
    have hPf := hshown _ f hlo' hv hchild
    have hframe : (4096 * f + dst.toNat % 4096) / 8 / 512 = f := by omega
    have hbyte : Writes P t (t.setByte (4096 * f + dst.toNat % 4096) b) := by
      refine ⟨⟨rfl, rfl, rfl, rfl⟩, ?_⟩
      intro w hnot
      apply t.setWord_mem_ne
      rintro rfl
      rw [hframe] at hnot
      exact hnot hPf
    have hstep : (dst + 1).toNat = dst.toNat + 1 := by
      rw [BitVec.toNat_add, show (1 : U64).toNat = 1 from rfl, Nat.mod_eq_of_lt (by omega)]
    exact ih (dst + 1) _ t' u (hw.trans hbyte) hA hk hshown (by omega) (by omega) hrest

theorem copyOut_eq_self (size : Nat) (src : U64) (m m' : Machine) (data : List (BitVec 8))
    (h : copyOut src size m = some (data, m')) : m = m' := by
  induction size generalizing src m m' data with
  | zero =>
    simp only [copyOut, Prog.pure_eq_some] at h
    exact h.2
  | succ size ih =>
    simp only [copyOut, loadVirt8, Prog.bind_eq_some, virtToPhys_eq_some, Prog.read_eq_some,
      Prog.pure_eq_some] at h
    obtain ⟨b, m1, ⟨phys, _, ⟨-, rfl⟩, -, rfl⟩, rest, m2, hrest, -, rfl⟩ := h
    exact ih _ _ _ _ hrest

end Access

/-! ## §6. Mapping and unmapping the window. -/

section Loops

variable {k : Nat}

theorem vmm_map_pages_one {pml4 virt phys perms : U64} {i : Int} {m m' : Machine}
    (h : vmm_map_pages pml4 virt phys 1 perms m = some (i, m')) :
    vmm_map_page pml4 virt phys perms m = some ((), m') := by
  simp only [vmm_map_pages, Prog.bind_eq_some, Prog.pure_eq_some] at h
  obtain ⟨_, m1, h, -, rfl⟩ := h
  exact h

theorem windowMap_spec :
    ∀ (pages : List BackingPage) (virt : U64) (m m' : Machine) (G : Ledger κ) (u : Unit),
      Accounted k m G → m.kernel_pml4.toNat = 4096 * k → pageOf copy_base ≤ pageOf virt →
      pageOf virt ≤ 2 ^ 35 →
      (∀ v, pageOf copy_base ≤ v → v < pageOf virt → m.table k v ≠ none) →
      windowMap virt pages m = some (u, m') →
      ∃ G', Accounted k m' G' ∧ Touches k m G m' G' ∧ pageOf virt + pages.length < 2 ^ 35
        ∧ (∀ i page, pages[i]? = some page → m'.entry k (pageOf virt + i)
            = page.ptr ||| VMM_FLAG_WRITE ||| VMM_FLAG_PRESENT)
        ∧ ∀ v, v < 2 ^ 35 → v < pageOf virt ∨ pageOf virt + pages.length ≤ v →
            m'.entry k v = m.entry k v := by
  have hbase : pageOf copy_base = 0x700000000 := rfl
  intro pages
  induction pages with
  | nil =>
    intro virt m m' G u h _ hlo hhi htab hrun
    simp only [windowMap, Prog.pure_eq_some] at hrun
    obtain ⟨-, rfl⟩ := hrun
    have hend := h.tables_end h.kernel _ _ (by rw [hbase]) hhi htab
    rw [hbase] at hend
    refine ⟨G, h, Touches.refl k m G, ?_, ?_, fun _ _ _ => rfl⟩
    · simp only [List.length_nil]
      omega
    · intro i page hi
      cases hi
  | cons page pages ih =>
    intro virt m m' G u h hk hlo hhi htab hrun
    simp only [windowMap, Prog.bind_eq_some, Prog.read_eq_some] at hrun
    obtain ⟨_, _, ⟨rfl, rfl⟩, _, m1, hmap, hrest⟩ := hrun
    -- the tables made so far bound the page reached
    have hend := h.tables_end h.kernel _ _ (by rw [hbase]) hhi htab
    rw [hbase] at hend
    have hv : pageOf virt < 2 ^ 35 := by omega
    obtain ⟨G1, h₁, t1, htab1, en1⟩ :=
      vmm_map_page_touches h h.kernel hk hv (vmm_map_pages_one hmap)
    have hnext := pageOf_succ hv
    have hfilled : ∀ v, pageOf copy_base ≤ v → v < pageOf (virt + 0x1000) →
        m1.table k v ≠ none := by
      intro v h1 h2
      rw [hnext] at h2
      by_cases he : v = pageOf virt
      · rw [he]
        exact htab1
      · obtain ⟨pt, hpt⟩ := Option.ne_none_iff_exists'.mp (htab v h1 (by omega))
        rw [t1.tables v pt (by omega) hpt]
        exact Option.some_ne_none pt
    obtain ⟨G2, h₂, t2, hlen, hshown, hkeep⟩ := ih (virt + 0x1000) m1 m' G1 u h₁
      (by rw [t1.vars.kernel]; exact hk) (by omega) (by omega) hfilled hrest
    rw [hnext] at hlen hshown hkeep
    refine ⟨G2, h₂, t1.trans t2, by simp only [List.length_cons]; omega, ?_, ?_⟩
    · intro i page' hi
      cases i with
      | zero =>
        injection hi with hi
        subst hi
        rw [Nat.add_zero, hkeep _ hv (by omega), en1 k _ h.kernel hv, if_pos ⟨rfl, rfl⟩]
      | succ i =>
        rw [show pageOf virt + (i + 1) = pageOf virt + 1 + i by omega]
        exact hshown i page' hi
    · intro v hv' hout
      simp only [List.length_cons] at hout
      rw [hkeep v hv' (by omega), en1 k v h.kernel hv', if_neg (by omega)]

theorem windowUnmap_spec {G : Ledger κ} (size : Nat) (virt : U64) (m m' : Machine) (u : Unit)
    (h : Accounted k m G) (hk : m.kernel_pml4.toNat = 4096 * k) (hhi : pageOf virt + size ≤ 2 ^ 35)
    (hrun : windowUnmap virt size m = some (u, m')) :
    Accounted k m' G ∧ Touches k m G m' G
      ∧ ∀ v, v < 2 ^ 35 → m'.entry k v
          = if pageOf virt ≤ v ∧ v < pageOf virt + size then 0 else m.entry k v := by
  induction size generalizing virt m m' u with
  | zero =>
    simp only [windowUnmap, Prog.pure_eq_some] at hrun
    obtain ⟨-, rfl⟩ := hrun
    refine ⟨h, Touches.refl k m G, ?_⟩
    intro v _
    rw [if_neg (by omega)]
  | succ size ih =>
    simp only [windowUnmap, Prog.bind_eq_some, Prog.read_eq_some] at hrun
    obtain ⟨_, _, ⟨rfl, rfl⟩, _, m1, hunmap, hrest⟩ := hrun
    have hv : pageOf virt < 2 ^ 35 := by omega
    obtain ⟨h1, t1, en1⟩ := vmm_unmap_page_touches h h.kernel hk hv hunmap
    have hnext := pageOf_succ hv
    obtain ⟨h2, t2, en2⟩ := ih (virt + 0x1000) m1 m' u h1
      (by rw [t1.vars.kernel]; exact hk) (by omega) hrest
    rw [hnext] at en2
    refine ⟨h2, t1.trans t2, ?_⟩
    intro v hv'
    rw [en2 v hv', en1 k v h.kernel hv']
    by_cases he : v = pageOf virt
    · rw [if_neg (by omega), if_pos ⟨rfl, he⟩, if_pos (by omega)]
    · rw [if_neg (show ¬ (k = k ∧ v = pageOf virt) from fun hc => he hc.2)]
      by_cases hin : pageOf virt + 1 ≤ v ∧ v < pageOf virt + 1 + size
      · rw [if_pos hin, if_pos (by omega)]
      · rw [if_neg hin, if_neg (by omega)]

end Loops

/-! ## §7. The two copies. -/

/-- What a copy through the window leaves: tables of the kernel may be new, the
kernel's entries are the old ones, and besides that only frames of `P` are
written. -/
structure Copied (P : Nat → Prop) (k : Nat) (m : Machine) (G : Ledger κ) (m' : Machine)
    (G' : Ledger κ) : Prop where
  accounted : Accounted k m' G'
  vars : m.SameVars m'
  ext : ∀ f u, G f = some u → G' f = some u
  slots : ∀ f u j, G f = some u → (∀ p, u ≠ .table k p) → ¬ P f → j < 512 →
    m'.slot f j = m.slot f j
  entries : ∀ v, v < 2 ^ 35 → m'.entry k v = m.entry k v
  tables : ∀ v f, v < 2 ^ 35 → m.table k v = some f → m'.table k v = some f

section Copies

variable {k : Nat} {m m' : Machine} {G : Ledger κ}

/-- The frames of a region. -/
def framesOf (pages : List BackingPage) (f : Nat) : Prop := ∃ page ∈ pages, frameOf page.ptr = f

variable {pages : List BackingPage} {data : List (BitVec 8)} {mapping : MemoryMapping}

section

variable (h : Accounted k m G) (hk : m.kernel_pml4.toNat = 4096 * k)
  (hzero : ∀ v, pageOf copy_base ≤ v → v < 2 ^ 35 → m.entry k v = 0)

include h hk hzero

theorem windowMap_shows {u : Unit}
    (hrun : windowMap copy_base pages m = some (u, m')) :
    ∃ G', Accounted k m' G' ∧ Touches k m G m' G' ∧ pageOf copy_base + pages.length < 2 ^ 35
      ∧ (∀ v f, pageOf copy_base ≤ v → v < 2 ^ 35 → child (m'.entry k v) = some f →
          framesOf pages f)
      ∧ ∀ v, v < 2 ^ 35 → ¬ (pageOf copy_base ≤ v ∧ v < pageOf copy_base + pages.length) →
          m'.entry k v = m.entry k v := by
  have hbase : pageOf copy_base = 0x700000000 := rfl
  obtain ⟨G', h', ht, hlen, hshown, hkeep⟩ := windowMap_spec pages copy_base m m' G u h hk
    (Nat.le_refl _) (by rw [hbase]; omega) (fun v h1 h2 => absurd h1 (by omega)) hrun
  refine ⟨G', h', ht, hlen, ?_, fun v hv hout => hkeep v hv (by omega)⟩
  intro v f hlo hv hchild
  by_cases hin : v < pageOf copy_base + pages.length
  · obtain ⟨i, rfl⟩ := Nat.exists_eq_add_of_le hlo
    have hi : i < pages.length := by omega
    rw [hshown i pages[i] (List.getElem?_eq_getElem hi), child_leaf _ _ (by decide)] at hchild
    injection hchild with hchild
    exact ⟨pages[i], List.getElem_mem hi, hchild⟩
  · rw [hkeep v hv (by omega), hzero v hlo hv, child_zero] at hchild
    cases hchild

theorem Copied.of_loops {P : Nat → Prop} {m1 m2 : Machine}
    {u u' : Unit}
    (hmap : windowMap copy_base pages m = some (u, m1))
    (hcopy : ∀ G1, Accounted k m1 G1 → Touches k m G m1 G1 →
      (∀ v f, pageOf copy_base ≤ v → v < 2 ^ 35 → child (m1.entry k v) = some f →
        framesOf pages f) →
      pageOf copy_base + pages.length < 2 ^ 35 →
      (∀ f, P f → Plain m1 G1 f) ∧ Writes P m1 m2)
    (hunmap : windowUnmap copy_base pages.length m2 = some (u', m')) :
    ∃ G', Copied P k m G m' G' := by
  obtain ⟨G1, h1, t1, hlen, hshown, hkeep⟩ := windowMap_shows h hk hzero hmap
  obtain ⟨hplain, hw⟩ := hcopy G1 h1 t1 hshown hlen
  have h2 := hw.accounted h1 hplain
  obtain ⟨h3, t3, en3⟩ := windowUnmap_spec pages.length copy_base m2 m' u' h2
    (by rw [hw.vars.kernel, t1.vars.kernel]; exact hk) (by omega) hunmap
  refine ⟨G1, h3, (t1.vars.trans hw.vars).trans t3.vars, t1.ext, ?_, ?_, ?_⟩
  · intro f u j hf hu hout hj
    rw [t3.slots f u j (t1.ext f u hf) hu hj, hw.slot hout hj,
      t1.slots f u j hf hu hj]
  · intro v hv
    rw [en3 v hv, hw.entry h1 hplain h1.kernel hv]
    split
    · next hin => rw [hzero v hin.1 hv]
    · next hout => exact hkeep v hv hout
  · intro v f hv htab
    apply t3.tables v f hv
    rw [hw.table h1 hplain h1.kernel hv]
    exact t1.tables v f hv htab

theorem arch_mm_mapping_load_spec {offset : U64}
    {u : Unit}
    (hoff : offset.toNat ≤ 4096 * mapping.size.toNat)
    (hplain : ∀ f, framesOf mapping.backing_pages f → Plain m G f)
    (hrun : arch_mm_mapping_load mapping offset data m = some (u, m')) :
    ∃ G', Copied (framesOf mapping.backing_pages) k m G m' G' := by
  simp only [arch_mm_mapping_load, Prog.bind_eq_some] at hrun
  obtain ⟨_, m1, hmap, _, m2, hcopy, hunmap⟩ := hrun
  rw [← mapping.backing_length] at hunmap hoff
  refine Copied.of_loops h hk hzero hmap ?_ hunmap
  intro G1 h1 t1 hshown hlen
  have hbase : copy_base.toNat = 4096 * pageOf copy_base := rfl
  have hpage : pageOf copy_base = 0x700000000 := rfl
  have hdst : (copy_base + offset).toNat = copy_base.toNat + offset.toNat := by
    rw [BitVec.toNat_add, Nat.mod_eq_of_lt]
    omega
  have hP : ∀ f, framesOf mapping.backing_pages f → Plain m1 G1 f :=
    fun f hf => (hplain f hf).touches t1
  refine ⟨hP, ?_⟩
  exact copyIn_writes hP data _ m1 m2 _ (Writes.refl _ m1) h1
    (by rw [t1.vars.kernel]; exact hk) hshown (by omega) (by omega) hcopy

theorem arch_mm_mapping_store_spec {offset size : U64}
    (hrun : arch_mm_mapping_store mapping offset size m = some (data, m')) :
    ∃ G', Copied (fun _ => False) k m G m' G' := by
  simp only [arch_mm_mapping_store, Prog.bind_eq_some, Prog.pure_eq_some] at hrun
  obtain ⟨_, m1, hmap, _, m2, hcopy, _, m3, hunmap, -, rfl⟩ := hrun
  rw [← mapping.backing_length] at hunmap
  obtain rfl := copyOut_eq_self _ _ _ _ _ hcopy
  refine Copied.of_loops h hk hzero hmap (fun G1 _ _ _ _ => ⟨?_, Writes.refl _ m1⟩) hunmap
  intro f hf
  exact absurd hf id

end

end Copies

end Quack.Arch
