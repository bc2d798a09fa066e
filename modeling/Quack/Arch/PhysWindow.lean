/-
  Quack.Arch.PhysWindow
  **THE WINDOW ON PHYSICAL MEMORY.**

  The first call of `vmm_new_address_space` maps `512 * 4` huge pages from
  0xFFFF800000000000 on.  They are all below slot 256 of the root, so that a walk
  goes through one table and one of its directories.
-/
import Quack.Arch.Boot
import Quack.Arch.Window

namespace Quack.Arch

open Lib

/-! ## §1. Directories. -/

def WindowSlot (p : List Nat) (i : Nat) : Prop := p.length < 2 ∧ i < 512 ∧ (p = [] → i = 256)

/-- The root and the tables below its slot 256. -/
def Ledger.windowTables (G : Ledger Empty) (k f : Nat) : Option (Nat × List Nat) :=
  match G f with
  | some (.table r p) => some (r, p)
  | some (.upper p) => if p.head? = some 256 then some (k, p) else none
  | _ => none

/-- The tables on the way to the directory over page `w`. -/
def dirPath (w : Nat) : List Nat := [256, w / 2 ^ 18 % 512]

namespace Machine

/-- The directory over page `w` of the window. -/
def windowDir (m : Machine) (k w : Nat) : Option Nat := Forest.walk child m.slot k (dirPath w)

/-- The directory entry over page `w` of the window. -/
def dirEnt (m : Machine) (k w : Nat) : U64 :=
  match m.windowDir k w with
  | none => 0
  | some d => m.slot d (w / 2 ^ 9 % 512)

end Machine

theorem inner_dirPath (w : Nat) : Forest.Inner WindowSlot (dirPath w) := by
  intro p i rest h
  have hb : w / 2 ^ 18 % 512 < 512 := Nat.mod_lt _ (by omega)
  match p with
  | [] =>
    injection h with h _
    exact ⟨by simp, by omega, fun _ => h.symm⟩
  | [a] =>
    injection h with _ h
    injection h with h _
    exact ⟨by simp, by omega, by simp⟩
  | _ :: _ :: p =>
    have hlen := congrArg List.length h
    simp [dirPath] at hlen

section Typing

variable {L : Nat → Prop} {k : Nat} {m m' : Machine} {G : Ledger Empty}

theorem Ledger.windowTables_root (hk : G k = some (.table k [])) :
    G.windowTables k k = some (k, []) := by
  unfold Ledger.windowTables
  rw [hk]

variable {f r i d c : Nat} {p : List Nat}

theorem Ledger.windowTables_upper (hf : G f = some (.upper (256 :: p))) :
    G.windowTables k f = some (k, 256 :: p) := by
  unfold Ledger.windowTables
  rw [hf]
  rfl

theorem Ledger.windowTables_use (h : G.windowTables k f = some (r, p)) :
    ∃ u, G f = some u ∧ ((u = .table r p) ∨ (u = .upper p ∧ r = k ∧ p.head? = some 256)) := by
  unfold Ledger.windowTables at h
  split at h
  · next r' p' hf =>
      injection h with h
      injection h with hr hp
      subst hr hp
      exact ⟨_, hf, Or.inl rfl⟩
  · next p' hf =>
      split at h
      · next hhead =>
          injection h with h
          injection h with hr hp
          subst hr hp
          exact ⟨_, hf, Or.inr ⟨rfl, rfl, hhead⟩⟩
      · cases h
  · cases h

section

variable (h : Boots L k m G)

include h

theorem Boots.window_child
    (hf : G.windowTables k f = some (r, p)) (hi : WindowSlot p i) :
    ∃ u, G f = some u ∧ r = k ∧ u.child i = some (.upper (p ++ [i]))
      ∧ (p ++ [i]).head? = some 256 ∧ ∀ q, u = .upper q → q.length < 2 := by
  obtain ⟨u, hu, rfl | ⟨rfl, rfl, hhead⟩⟩ := Ledger.windowTables_use hf
  · obtain ⟨rfl, rfl⟩ := h.only f r p hu
    have h256 := hi.2.2 rfl
    subst h256
    refine ⟨_, hu, rfl, ?_, rfl, fun q hq => by cases hq⟩
    simp [Use.child]
  · refine ⟨_, hu, rfl, ?_, ?_, fun q hq => ?_⟩
    · simp only [Use.child]
      rw [if_pos (Nat.lt_succ_of_lt hi.1)]
    · rw [List.head?_append, hhead]
      rfl
    · injection hq with hq
      rw [← hq]
      exact hi.1

theorem Boots.window_typing :
    Forest.Typing child m.slot (G.windowTables k) WindowSlot := by
  intro f r p i c hf hi hc
  obtain ⟨u, hu, rfl, hchild, hhead, hshort⟩ := h.window_child hf hi
  rcases h.accounted.slots f u i hu hi.2.1 _ hchild with h0 | ⟨c', hent, hG⟩ | ⟨⟨q, hq, hlen⟩, -⟩
  · rw [h0, child_zero] at hc
    cases hc
  · have hwin := (h.accounted.managed c' _ hG).window
    rw [hent, child_tableEnt (by omega)] at hc
    injection hc with hc
    subst hc
    unfold Ledger.windowTables
    rw [hG]
    exact if_pos hhead
  · have := hshort q hq
    omega

theorem Boots.windowDir_typed {w : Nat} (hd : m.windowDir k w = some d) :
    G d = some (.upper (dirPath w)) := by
  have htyped := Forest.walk_typed h.window_typing
    (Ledger.windowTables_root h.accounted.kernel) _ (inner_dirPath w) d hd
  obtain ⟨u, hu, rfl | ⟨rfl, -, -⟩⟩ := Ledger.windowTables_use htyped
  · have := (h.only d _ _ hu).2
    cases this
  · exact hu

/-! ## §2. Writes. -/

theorem Boots.enter_dirEnt
    (hf : G.windowTables k f = some (k, p)) (hi : WindowSlot p i) (he : Enter m f i m' c)
    (w : Nat) : m'.dirEnt k w = m.dirEnt k w := by
  have hA := h.accounted
  have hlast : w / 2 ^ 9 % 512 < 512 := Nat.mod_lt _ (by omega)
  obtain ⟨u, hu, -, -, -, hshort⟩ := h.window_child hf hi
  cases he with
  | present c hc => rfl
  | linked c hnone hlow hlen hwin hbit =>
    have hfree := hA.free_of_bit hbit
    have hnb := hA.not_bitmapFrame hlen hbit
    have hnc : ∀ g v, G g = some v → g ≠ c := by
      rintro g v hg rfl
      rw [hfree] at hg
      cases hg
    have hgrow : (m.link f i c).windowDir k w = m.windowDir k w
        ∨ (k = k ∧ dirPath w = p ++ [i] ∧ m.windowDir k w = none
          ∧ (m.link f i c).windowDir k w = some c) := by
      refine Forest.walk_grow h.window_typing hf hnone ?_ ?_ ?_
        (Ledger.windowTables_root hA.kernel) _ (inner_dirPath w)
      · rw [m.link_slot hlen hi.2.1 hi.2.1 (hA.managed f u hu).bitmap, if_neg (hnc f u hu),
          if_pos ⟨rfl, rfl⟩, child_tableEnt (by omega)]
      · intro j hj
        rw [m.link_slot hlen hi.2.1 hj.2.1 hnb, if_pos rfl, child_zero]
      · intro g r' q j hg hj hne
        obtain ⟨v, hv, -⟩ := h.window_child hg hj
        rw [m.link_slot hlen hi.2.1 hj.2.1 (hA.managed g v hv).bitmap, if_neg (hnc g v hv),
          if_neg hne]
    rcases hgrow with hsame | ⟨-, -, hbefore, hafter⟩
    · unfold Machine.dirEnt
      rw [hsame]
      cases hd : m.windowDir k w with
      | none => rfl
      | some d =>
        have hG := h.windowDir_typed hd
        show (m.link f i c).slot d _ = m.slot d _
        rw [m.link_slot hlen hi.2.1 hlast (hA.managed d _ hG).bitmap, if_neg (hnc d _ hG),
          if_neg]
        -- the changed slot is above the directories
        rintro ⟨rfl, -⟩
        rw [hu] at hG
        injection hG with hG
        have := hshort _ hG
        simp [dirPath] at this
    · unfold Machine.dirEnt
      rw [hbefore, hafter]
      show (m.link f i c).slot c _ = 0
      rw [m.link_slot hlen hi.2.1 hlast hnb, if_pos rfl]

theorem Boots.write_dirEnt {v : Nat} (hd : m.windowDir k v = some d)
    (ent : U64) (w : Nat) :
    (m.setWord (512 * d + v / 2 ^ 9 % 512) ent).dirEnt k w
      = if w / 2 ^ 9 % 2 ^ 18 = v / 2 ^ 9 % 2 ^ 18 then ent else m.dirEnt k w := by
  have hA := h.accounted
  have hG := h.windowDir_typed hd
  have hlast : ∀ x, x / 2 ^ 9 % 512 < 512 := fun x => Nat.mod_lt _ (by omega)
  -- the walks end above the directories
  have hwalk : ∀ x, (m.setWord (512 * d + v / 2 ^ 9 % 512) ent).windowDir k x
      = m.windowDir k x := by
    intro x
    refine Forest.walk_congr h.window_typing (Ledger.windowTables_root hA.kernel) ?_ _
      (inner_dirPath x)
    intro f p i hf hi
    obtain ⟨u, hu, -, -, -, hshort⟩ := h.window_child hf hi
    rw [m.setWord_slot ent (hlast v) hi.2.1, if_neg]
    rintro ⟨rfl, -⟩
    rw [hu] at hG
    injection hG with hG
    have := hshort _ hG
    simp [dirPath] at this
  unfold Machine.dirEnt
  rw [hwalk w]
  by_cases hpath : w / 2 ^ 18 % 512 = v / 2 ^ 18 % 512
  · have hsame : m.windowDir k w = some d := by
      rw [← hd]
      unfold Machine.windowDir dirPath
      rw [hpath]
    rw [hsame]
    show (m.setWord _ ent).slot d _ = _
    rw [m.setWord_slot ent (hlast v) (hlast w)]
    by_cases hidx : w / 2 ^ 9 % 512 = v / 2 ^ 9 % 512
    · rw [if_pos ⟨rfl, hidx⟩, if_pos (by omega)]
    · rw [if_neg (fun he => hidx he.2), if_neg (by omega)]
  · rw [if_neg (by omega)]
    cases hx : m.windowDir k w with
    | none => rfl
    | some x =>
      show (m.setWord _ ent).slot x _ = m.slot x _
      rw [m.setWord_slot ent (hlast v) (hlast w), if_neg]
      -- one directory, one path
      rintro ⟨rfl, -⟩
      have hx' := h.windowDir_typed hx
      rw [hG] at hx'
      injection hx' with hx'
      injection hx' with hx'
      simp only [dirPath, List.cons.injEq, and_true, true_and] at hx'
      exact hpath hx'.symm

end

theorem Enter.child_slot {u : Use Empty} (he : Enter m f i m' c)
    (h : Accounted k m G) (hf : G f = some u) (hi : i < 512) : child (m'.slot f i) = some c := by
  cases he with
  | present c hc => exact hc
  | linked c hnone hlow hlen hwin hbit =>
    have hne : f ≠ c := by
      rintro rfl
      rw [h.free_of_bit hbit] at hf
      cases hf
    rw [m.link_slot hlen hi hi (h.managed f u hf).bitmap, if_neg hne, if_pos ⟨rfl, rfl⟩,
      child_tableEnt (by omega)]

theorem vmm_map_huge_page_dirs (h : Boots L k m G) {pml4 virt phys perms : U64} {u : Unit}
    (hpml4 : pml4.toNat = 4096 * k) (ha : pageOf virt / 2 ^ 27 % 512 = 256) (hL : L 256)
    (hrun : vmm_map_huge_page pml4 virt phys perms m = some (u, m')) :
    ∃ G', Boots L k m' G' ∧ Below 256 k m G m' G'
      ∧ ∀ w, m'.dirEnt k w = if w / 2 ^ 9 % 2 ^ 18 = pageOf virt / 2 ^ 9 % 2 ^ 18 then
          phys ||| perms ||| VMM_FLAG_PRESENT ||| VMM_FLAG_LARGE else m.dirEnt k w := by
  obtain ⟨m1, c1, m2, c2, e1, e2, rfl⟩ :=
    vmm_map_huge_page_spec h.accounted.bitmap_len_le hpml4 hrun
  rw [ha] at e1
  have hslot1 : WindowSlot [] 256 := ⟨by simp, by omega, fun _ => rfl⟩
  have hslot2 : WindowSlot [256] (pageOf virt / 2 ^ 18 % 512) := ⟨by simp, slot_lt _, by simp⟩
  have hroot := Ledger.windowTables_root h.accounted.kernel
  obtain ⟨G1, h1, v1, o1, hc1⟩ := h.enter (p := [256]) e1 h.accounted.kernel (by omega)
    (by simp [Use.child]) (by simp)
  have hpdp : (Use.upper [256] : Use Empty).child (pageOf virt / 2 ^ 18 % 512)
      = some (.upper [256, pageOf virt / 2 ^ 18 % 512]) := rfl
  obtain ⟨G2, h2, v2, o2, hc2⟩ := h1.enter e2 hc1 (slot_lt _) hpdp (by simp)
  -- the entries are those of `m` still, and the walk ends in `c2`
  have hdirs : ∀ w, m2.dirEnt k w = m.dirEnt k w := fun w =>
    (h1.enter_dirEnt (Ledger.windowTables_upper hc1) hslot2 e2 w).trans
      (h.enter_dirEnt hroot hslot1 e1 w)
  have hchild1 : child (m1.slot k 256) = some c1 :=
    e1.child_slot h.accounted h.accounted.kernel (by omega)
  have hchild2 : child (m2.slot c1 (pageOf virt / 2 ^ 18 % 512)) = some c2 :=
    e2.child_slot h1.accounted hc1 (slot_lt _)
  have hne : k ≠ c1 := by
    intro he
    rw [← he, o1.keeps k _ h.accounted.kernel] at hc1
    cases hc1
  have hdir : m2.windowDir k (pageOf virt) = some c2 := by
    unfold Machine.windowDir dirPath
    rw [Forest.walk_cons, o2.slots k _ 256 (o1.keeps k _ h.accounted.kernel) (by omega)
      (fun he => hne he.1), hchild1]
    show Forest.walk child m2.slot c1 _ = _
    rw [Forest.walk_cons, hchild2]
    rfl
  obtain ⟨hpresent, hlarge⟩ := or_flags_ne_zero (phys ||| perms)
  obtain ⟨h3, v3, o3⟩ := h2.write hc2 (slot_lt _) (Or.inr ⟨_, _, rfl, hL, hpresent, hlarge⟩)
  refine ⟨G2, h3, ((Below.root o1 v1).trans (Below.table o2 v2 hc1)).trans
    (Below.table o3 v3 hc2), ?_⟩
  intro w
  rw [h2.write_dirEnt hdir, hdirs w]

/-- Huge page `n` of a row that begins with page `s` at `phys`. -/
def hugeEntry (s : Nat) (phys perms : U64) (n : Nat) : U64 :=
  (phys + BitVec.ofNat 64 (0x200000 * (n - s))) ||| perms ||| VMM_FLAG_PRESENT ||| VMM_FLAG_LARGE

theorem hugeEntry_succ {s n : Nat} (h : s < n) (phys perms : U64) :
    hugeEntry (s + 1) (phys + 0x200000) perms n = hugeEntry s phys perms n := by
  unfold hugeEntry
  have hsum : phys + 0x200000 + BitVec.ofNat 64 (0x200000 * (n - (s + 1)))
      = phys + BitVec.ofNat 64 (0x200000 * (n - s)) := by
    rw [show n - s = n - (s + 1) + 1 by omega, Nat.mul_add, BitVec.ofNat_add, BitVec.add_assoc,
      BitVec.add_comm (0x200000 : U64)]
    rfl
  rw [hsum]

/-- The first page of the window. -/
def windowPage : Nat := 2 ^ 52 - 2 ^ 35

theorem vmm_map_huge_pages_dirs {pml4 : U64} (hpml4 : pml4.toNat = 4096 * k) (hL : L 256)
    (count s : Nat) (virt phys perms : U64) (m m' : Machine) (G : Ledger Empty) (i : Int)
    (h : Boots L k m G) (hv : pageOf virt = windowPage + 512 * s) (hs : s + count ≤ 2 ^ 18)
    (hrun : vmm_map_huge_pages pml4 virt phys count perms m = some (i, m')) :
    ∃ G', Boots L k m' G' ∧ Below 256 k m G m' G'
      ∧ ∀ w, m'.dirEnt k w = if s ≤ w / 2 ^ 9 % 2 ^ 18 ∧ w / 2 ^ 9 % 2 ^ 18 < s + count then
          hugeEntry s phys perms (w / 2 ^ 9 % 2 ^ 18) else m.dirEnt k w := by
  induction count generalizing s virt phys perms m m' G i with
  | zero =>
    simp only [vmm_map_huge_pages, Prog.pure_eq_some] at hrun
    obtain ⟨-, rfl⟩ := hrun
    refine ⟨G, h, Below.refl 256 k m G, fun w => ?_⟩
    rw [if_neg (by omega)]
  | succ count ih =>
    simp only [vmm_map_huge_pages, Prog.bind_eq_some] at hrun
    obtain ⟨_, m1, hpage, hrest⟩ := hrun
    unfold windowPage at hv
    obtain ⟨G1, h1, b1, hdirs1⟩ := vmm_map_huge_page_dirs h hpml4 (by omega) hL hpage
    have hnext : pageOf (virt + 0x200000) = windowPage + 512 * (s + 1) := by
      rw [pageOf_add (n := 512) (by decide) (by omega), hv]
      unfold windowPage
      omega
    obtain ⟨G2, h2, b2, hdirs2⟩ := ih (s + 1) _ _ perms m1 m' G1 i h1 hnext (by omega) hrest
    refine ⟨G2, h2, b1.trans b2, fun w => ?_⟩
    rw [hdirs2 w, hdirs1 w, show pageOf virt / 2 ^ 9 % 2 ^ 18 = s by omega]
    generalize w / 2 ^ 9 % 2 ^ 18 = n
    by_cases hn : n = s
    · subst hn
      rw [if_neg (by omega), if_pos rfl, if_pos (by omega)]
      unfold hugeEntry
      rw [Nat.sub_self]
      simp
    · rw [if_neg hn]
      by_cases hin : s + 1 ≤ n ∧ n < s + 1 + count
      · rw [if_pos hin, if_pos (by omega), hugeEntry_succ (by omega)]
      · rw [if_neg hin, if_neg (by omega)]

end Typing

/-! ## §3. After `vmm_init`. -/

section Init

variable {k : Nat} {m m' : Machine} {G G' : Ledger Empty}

theorem Below.dirEnt {L : Nat → Prop} {a : Nat} (hb : Below a k m G m' G') (h : Boots L k m G)
    (ha : a ≠ 256) (w : Nat) : m'.dirEnt k w = m.dirEnt k w := by
  have hwalk : m'.windowDir k w = m.windowDir k w := by
    refine Forest.walk_congr h.window_typing (Ledger.windowTables_root h.accounted.kernel) ?_ _
      (inner_dirPath w)
    intro f p i hf hi
    obtain ⟨u, hu, hcase⟩ := Ledger.windowTables_use hf
    refine hb.slots f u i hu hi.2.1 ?_ ?_
    · rintro q rfl
      rcases hcase with hcase | ⟨hcase, -, hhead⟩
      · cases hcase
      · injection hcase with hcase
        rw [← hcase] at hhead
        injection hhead with hhead
        exact ha hhead
    · rintro ⟨rfl, rfl⟩
      rw [h.accounted.kernel] at hu
      injection hu with hu
      rcases hcase with hcase | ⟨hcase, -⟩
      · rw [← hu] at hcase
        injection hcase with _ hp
        exact ha (hi.2.2 hp.symm)
      · rw [← hu] at hcase
        cases hcase
  unfold Machine.dirEnt
  rw [hwalk]
  cases hd : m.windowDir k w with
  | none => rfl
  | some d =>
    have hG := h.windowDir_typed hd
    refine hb.slots d _ _ hG (Nat.mod_lt _ (by omega)) ?_ ?_
    · rintro q hq
      injection hq with hq
      injection hq with hq _
      exact ha hq.symm
    · rintro ⟨rfl, -⟩
      rw [h.accounted.kernel] at hG
      cases hG

variable {ehdr : Option (List Elf64Phdr)}

theorem window_dirs (hready : PmmReady m)
    (hkernel : m.kernel_pml4 = 0) (hseg : SegmentsFit ehdr) {pml4 : U64}
    (hrun : vmm_new_address_space ehdr m = some (pml4, m')) :
    ∃ L k G, pml4.toNat = 4096 * k ∧ Boots L k m' G
      ∧ (∀ w, m'.dirEnt k w = if w / 2 ^ 9 % 2 ^ 18 < 512 * 4 then
          hugeEntry 0 0 3 (w / 2 ^ 9 % 2 ^ 18) else 0)
      ∧ (∀ a, 256 < a → a < 511 → m'.slot k a = 0)
      ∧ m'.pmm_bitmap_len = m.pmm_bitmap_len
      ∧ ∀ j, 2 ^ 20 ≤ j → j < m.pmm_bitmap_len → m'.bit j = m.bit j := by
  have hlen := hready.len
  obtain ⟨c, i, m2, haddr, hlow, hclen, hwin, hbit, hmap, himage⟩ :=
    vmm_new_address_space_stages (by omega) hkernel hrun
  obtain ⟨G0, h0, -⟩ := hready.first_root (hugeSlots ehdr) hlow hclen hwin hbit
  obtain ⟨G1, h1, b1, hdirs⟩ := vmm_map_huge_pages_dirs haddr (Or.inl rfl) _ 0 _ _ _ _ _ _ _ h0
    (by decide) (by omega) hmap
  obtain ⟨G2, h2, -, b2⟩ := vmm_map_image_boots haddr hseg h1 himage
  have hroot : ∀ a, a < 512 → ((m.take c).zeroWords (512 * c) 512).slot c a = 0 :=
    fun a ha => Machine.zeroWords_slot_self _ ha
  have hv0 : m.SameVars ((m.take c).zeroWords (512 * c) 512) :=
    (m.take_vars c).trans ⟨rfl, rfl, rfl, rfl⟩
  have hnb : ¬ m.BitmapFrame c := fun hc => Bool.false_ne_true (hbit ▸ hready.bitmap c hclen hc)
  refine ⟨_, c, G2, haddr, h2, fun w => ?_, fun a hlo hhi => ?_,
    (b2.len.trans b1.len).trans hv0.len, fun j hj hlt => ?_⟩
  · rw [b2.dirEnt h1 (by omega) w, hdirs w]
    have hzero : ((m.take c).zeroWords (512 * c) 512).dirEnt c w = 0 := by
      unfold Machine.dirEnt Machine.windowDir dirPath
      rw [Forest.walk_cons, hroot 256 (by omega), child_zero]
      rfl
    rw [hzero]
    simp
  · have hk0 := h0.accounted.kernel
    have hk1 := h1.accounted.kernel
    rw [b2.slots c _ a hk1 (by omega) (fun p hp => by cases hp) (by omega),
      b1.slots c _ a hk0 (by omega) (fun p hp => by cases hp) (by omega), hroot a (by omega)]
  · have hlt0 : j < ((m.take c).zeroWords (512 * c) 512).pmm_bitmap_len := hv0.len ▸ hlt
    have hnb' : ¬ (m.take c).BitmapFrame c := by
      unfold Machine.BitmapFrame at hnb ⊢
      rwa [(m.take_vars c).len]
    rw [b2.high j hj (b1.len ▸ hlt0), b1.high j hj hlt0,
      (m.take c).zeroWords_bit (hv0.len ▸ hlt) hnb', m.take_bit hlt hnb, if_neg (by omega)]

theorem Boots.translate_window {L : Nat → Prop} (h : Boots L k m G) {w : Nat}
    (hw : w / 2 ^ 27 % 512 = 256) :
    (m.dirEnt k w = 0 → m.translate k w = none)
    ∧ (m.dirEnt k w &&& VMM_FLAG_PRESENT ≠ 0 → m.dirEnt k w &&& VMM_FLAG_LARGE ≠ 0 →
        m.translate k w = some (.huge (m.dirEnt k w))) := by
  have hslot : WindowSlot [] 256 := ⟨by simp, by omega, fun _ => rfl⟩
  have hb : w / 2 ^ 18 % 512 < 512 := Nat.mod_lt _ (by omega)
  have hroot := Ledger.windowTables_root h.accounted.kernel
  -- without a directory there is no entry, and no translation
  have hnone : m.windowDir k w = none → m.translate k w = none →
      (m.dirEnt k w = 0 → m.translate k w = none)
      ∧ (m.dirEnt k w &&& VMM_FLAG_PRESENT ≠ 0 → m.dirEnt k w &&& VMM_FLAG_LARGE ≠ 0 →
          m.translate k w = some (.huge (m.dirEnt k w))) := by
    intro hdir htr
    refine ⟨fun _ => htr, fun hp => absurd ?_ hp⟩
    unfold Machine.dirEnt
    rw [hdir]
    exact BitVec.zero_and
  cases h1 : child (m.slot k 256) with
  | none =>
    apply hnone
    · unfold Machine.windowDir dirPath
      rw [Forest.walk_cons, h1]
      rfl
    · unfold Machine.translate
      rw [hw, h1]
      rfl
  | some c1 =>
    have htyped := h.window_typing k k [] 256 c1 hroot hslot h1
    obtain ⟨u, hu, -, hchild, -, hshort⟩ :=
      h.window_child (i := w / 2 ^ 18 % 512) htyped ⟨by simp, hb, by simp⟩
    -- no giant pages
    have hsmall : m.slot c1 (w / 2 ^ 18 % 512) &&& VMM_FLAG_LARGE = 0 := by
      by_contra hlarge
      obtain ⟨a, b, rfl, -⟩ := h.large c1 u _ _ hu hb hchild hlarge
      have := hshort _ rfl
      simp at this
    cases h2 : child (m.slot c1 (w / 2 ^ 18 % 512)) with
    | none =>
      apply hnone
      · unfold Machine.windowDir dirPath
        rw [Forest.walk_cons, h1]
        show Forest.walk child m.slot c1 _ = none
        rw [Forest.walk_cons, h2]
        rfl
      · unfold Machine.translate
        rw [hw, h1]
        simp only [Option.bind_some, h2, Option.bind_none]
    | some d =>
      have hent : m.dirEnt k w = m.slot d (w / 2 ^ 9 % 512) := by
        unfold Machine.dirEnt Machine.windowDir dirPath
        rw [Forest.walk_cons, h1, Option.bind_some, Forest.walk_cons, h2]
        rfl
      rw [hent]
      unfold Machine.translate
      simp only [hw, h1, h2, Option.bind_some, hsmall, ne_eq, not_true_eq_false, if_false]
      constructor
      · intro h0
        rw [h0, child_zero]
        rfl
      · intro hp hl
        unfold child
        rw [if_neg hp, Option.bind_some, if_pos hl]

def Covered (phys : Nat) : Prop := ∃ i, i < 512 * 4 ∧ 0x200000 * i ≤ phys ∧ phys < 0x200000 * (i + 1)

theorem covered_iff {phys : Nat} : Covered phys ↔ phys < phys_window := by
  unfold Covered phys_window
  constructor
  · rintro ⟨i, hi, -, hphys⟩
    omega
  · intro h
    exact ⟨phys / 0x200000, by omega, by omega, by omega⟩

theorem hugeEntry_window {n : Nat} (hn : n < 512 * 4) :
    hugeEntry 0 0 3 n &&& VMM_FLAG_PRESENT ≠ 0 ∧ hugeEntry 0 0 3 n &&& VMM_FLAG_LARGE ≠ 0
      ∧ frameOf (hugeEntry 0 0 3 n) = 512 * n := by
  obtain ⟨hpresent, hlarge⟩ := or_flags_ne_zero
    ((0 : U64) + BitVec.ofNat 64 (0x200000 * (n - 0)) ||| 3)
  refine ⟨hpresent, hlarge, ?_⟩
  unfold hugeEntry
  rw [frameOf_or _ _ (by decide), frameOf_or _ _ (by decide), frameOf_or _ _ (by decide)]
  unfold frameOf
  rw [BitVec.toNat_add, BitVec.toNat_ofNat, show (0 : U64).toNat = 0 from rfl]
  omega

/-- `VIRT_PHYS_BASE`. -/
def VIRT_PHYS_BASE : U64 := 0xFFFF800000000000

theorem window_physOf (hready : PmmReady m)
    (hkernel : m.kernel_pml4 = 0) (hseg : SegmentsFit ehdr)
    (hrun : vmm_init ehdr m = some ((), m')) {phys : Nat} (hphys : phys < 2 ^ 44) :
    m'.physOf (VIRT_PHYS_BASE + BitVec.ofNat 64 phys) = some phys ↔ Covered phys := by
  unfold vmm_init at hrun
  simp only [Prog.bind_eq_some, Prog.update_eq_some] at hrun
  obtain ⟨pml4, m1, hspace, rfl⟩ := hrun
  obtain ⟨L, k, G, hpml4, hboots, hdirs, hzero, -⟩ := window_dirs hready hkernel hseg hspace
  have hvirt : (VIRT_PHYS_BASE + BitVec.ofNat 64 phys).toNat = 2 ^ 64 - 2 ^ 47 + phys := by
    rw [BitVec.toNat_add, BitVec.toNat_ofNat,
      show VIRT_PHYS_BASE.toNat = 2 ^ 64 - 2 ^ 47 from by decide]
    omega
  have hpage : pageOf (VIRT_PHYS_BASE + BitVec.ofNat 64 phys) = windowPage + phys / 4096 := by
    unfold pageOf windowPage
    rw [hvirt]
    omega
  unfold Machine.physOf
  rw [if_pos (Or.inr (by rw [hvirt]; omega)), rootOf_eq hpml4, hpage, hvirt, covered_iff]
  show Option.map _ (m1.translate k _) = _ ↔ _
  have hdir := hdirs (windowPage + phys / 4096)
  rw [show (windowPage + phys / 4096) / 2 ^ 9 % 2 ^ 18 = phys / 2 ^ 21 % 2 ^ 18 by
    unfold windowPage
    omega] at hdir
  rw [show phys_window = 2 ^ 32 from rfl]
  by_cases h256 : phys < 2 ^ 39
  · obtain ⟨hno, hyes⟩ := hboots.translate_window (w := windowPage + phys / 4096) (by
      unfold windowPage
      omega)
    rw [show phys / 2 ^ 21 % 2 ^ 18 = phys / 2 ^ 21 by omega] at hdir
    by_cases hcov : phys < 2 ^ 32
    · obtain ⟨hpresent, hlarge, hframe⟩ := hugeEntry_window (n := phys / 2 ^ 21) (by omega)
      rw [if_pos (by omega)] at hdir
      rw [hdir] at hyes
      rw [hyes hpresent hlarge]
      refine iff_of_true (congrArg some ?_) hcov
      show 2 ^ 21 * (frameOf _ / 2 ^ 9) + _ = phys
      rw [hframe]
      omega
    · rw [if_neg (by omega)] at hdir
      rw [hno hdir]
      exact iff_of_false (fun h => by cases h) hcov
  · -- the slots of the root behind the window are empty
    have hnone : m1.translate k (windowPage + phys / 4096) = none := by
      unfold Machine.translate
      rw [hzero _ (by unfold windowPage; omega) (by unfold windowPage; omega), child_zero]
      rfl
    rw [hnone]
    exact iff_of_false (fun h => by cases h) (by omega)

end Init

end Quack.Arch
