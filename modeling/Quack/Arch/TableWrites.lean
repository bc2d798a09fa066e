/-
  Quack.Arch.TableWrites
  **WHAT ONE ROUND OF A PAGE-TABLE OPERATION TOUCHES.**

  The tables of a context are frames of four levels (`Typed`): an entry that is
  present links a table of the next level, except that an entry of a directory
  may be a huge page.  The monitor `watch` accepts the log of an operation if
  every word touched lies in a frame taken for a table and no entry of a huge
  page is followed.
-/
import Quack.Arch.TableAccess

namespace Quack.Arch

open Lib Lib.Traced

/-! ## §1. The monitor. -/

/-- The pointer `tab` is a table in `T`, and `off` one of its slots. -/
def InTable (T : Set Nat) (tab : Table) (off : Nat) : Prop :=
  ∃ f ∈ T, tab = some (4096 * f) ∧ off < 512

def watch : Monitor TableEvent (Set Nat) where
  assumed
    | .alloc frame => frame ≠ none ∧ frame ≠ some 0
    | _ => True
  ok T
    | .read tab off => InTable T tab off
    | .write tab off => InTable T tab off
    | .clear phys => ∃ f ∈ T, phys.toNat = 4096 * f
    | .alloc _ => True
    | .follow ent => ent &&& VMM_FLAG_LARGE = 0
  next T
    | .alloc (some p) => insert (p.toNat / 4096) T
    | _ => T

theorem not_inTable_none (T : Set Nat) (off : Nat) : ¬ InTable T none off := by
  rintro ⟨f, -, hnone, -⟩
  cases hnone

section Accesses

variable {T : Set Nat} {m : Machine} {f i c : Nat}

theorem readEnt_keeps (hf : f ∈ T) (hwin : f < 2 ^ 20) (hi : i < 512) :
    Keeps watch (Logged.readEnt (some (4096 * f)) i) T m True
      (fun T' ent m' => T = T' ∧ m = m' ∧ ent = m.slot f i) :=
  Keeps.access (M := watch) ⟨f, hf, rfl, hi⟩ (readEnt_returns hwin hi) ⟨rfl, rfl, rfl⟩

theorem writeEnt_keeps (hf : f ∈ T) (hwin : f < 2 ^ 20) (hi : i < 512) (ent : U64) :
    Keeps watch (Logged.writeEnt (some (4096 * f)) i ent) T m True
      (fun T' _ m' => T = T' ∧ m' = m.setWord (512 * f + i) ent) :=
  Keeps.access (M := watch) ⟨f, hf, rfl, hi⟩ (writeEnt_returns hwin hi ent) ⟨rfl, rfl⟩

theorem readEnt_null (off : Nat) {R : Set Nat → U64 → Machine → Prop} :
    Keeps watch (Logged.readEnt none off) T m False R :=
  Keeps.never (M := watch) (e := .read none off) (not_inTable_none T off) _

theorem writeEnt_null (off : Nat) (ent : U64) {R : Set Nat → Unit → Machine → Prop} :
    Keeps watch (Logged.writeEnt none off ent) T m False R :=
  Keeps.never (M := watch) (e := .write none off) (not_inTable_none T off) _

theorem memset_page_keeps (hc : c ∈ T) (hwin : c < 2 ^ 20) :
    Keeps watch (Logged.memset_page (BitVec.ofNat 64 (4096 * c))) T m True
      (fun T' _ m' => T = T' ∧ m' = m.zeroWords (512 * c) 512) := by
  have haddr := toNat_addr (f := c) (by omega)
  have hclear : memset_page (BitVec.ofNat 64 (4096 * c)).toNat m
      = some ((), m.zeroWords (512 * c) 512) := by
    refine memset_page_eq_some.mpr ⟨?_, ?_⟩
    · rw [haddr, phys_window_eq]
      omega
    · rw [haddr, show 4096 * c / 8 = 512 * c by omega]
  exact Keeps.access (M := watch) ⟨c, hc, haddr⟩ hclear ⟨rfl, rfl⟩

theorem follow_keeps (ent : U64) :
    Keeps watch (Logged.follow ent) T m (ent &&& VMM_FLAG_LARGE = 0)
      (fun T' o m' => T = T' ∧ m = m' ∧ o = some (4096 * frameOf ent)) := by
  refine ((Keeps.log (P := fun T' _ m' => T = T' ∧ m = m') Iff.rfl ⟨rfl, rfl⟩).bind ?_).mono
    (and_iff_left trivial) (fun _ _ _ h => h)
  rintro _ _ _ ⟨rfl, rfl⟩
  exact Keeps.pure ⟨rfl, rfl, by rw [entTable, toNat_and_addr_mask]⟩

theorem pmm_alloc_keeps (hlen : m.pmm_bitmap_len ≤ 2 ^ 63) :
    Keeps watch Logged.pmm_alloc T m True
      (fun T' p m' => ∃ c, p = BitVec.ofNat 64 (4096 * c) ∧ m' = m.take c ∧ T' = insert c T
        ∧ 0x2000 ≤ c ∧ c < m.pmm_bitmap_len ∧ c < 2 ^ 20 ∧ m.bit c = false) where
  accepts _ := ⟨fun _ => trivial, fun _ => ⟨trivial, trivial⟩⟩
  returns hassume _ := by
    have hsupply : (pmm_alloc 1 m).map Prod.fst ≠ none ∧ (pmm_alloc 1 m).map Prod.fst ≠ some 0 :=
      hassume _ List.mem_cons_self
    show ∃ p m', pmm_alloc 1 m = some (p, m')
      ∧ ∃ c, p = _ ∧ m' = _ ∧ watch.next T (.alloc ((pmm_alloc 1 m).map Prod.fst)) = _ ∧ _
    cases hrun : pmm_alloc 1 m with
    | none => exact absurd (congrArg (Option.map Prod.fst) hrun) hsupply.1
    | some res =>
      obtain ⟨p, m'⟩ := res
      rw [hrun] at hsupply
      rcases pmm_alloc_cases hlen hrun with ⟨rfl, -, -⟩ | ⟨c, rfl, rfl, hlow, hclen, hwin, hbit, -⟩
      · exact absurd rfl hsupply.2
      · refine ⟨_, _, rfl, c, rfl, rfl, ?_, hlow, hclen, hwin, hbit⟩
        show insert ((BitVec.ofNat 64 (4096 * c)).toNat / 4096) T = insert c T
        rw [BitVec.toNat_ofNat, Nat.mod_eq_of_lt (by omega), Nat.mul_div_cancel_left _ (by decide)]

end Accesses

/-! ## §2. Tables of four levels. -/

/-- The entry is no huge page: it is absent, or links a table. -/
def Followable (ent : U64) : Prop := ent &&& VMM_FLAG_PRESENT = 0 ∨ ent &&& VMM_FLAG_LARGE = 0

instance (ent : U64) : Decidable (Followable ent) := inferInstanceAs (Decidable (_ ∨ _))

/-- `lvl` gives the level of every table: 4 for a root, 1 for a last table.  The
tables are in use, and an entry above the last level that is present links a
table of the next level, or is a huge page in a directory. -/
structure Typed (lvl : Nat → Option Nat) (m : Machine) : Prop where
  len : m.pmm_bitmap_len < 2 ^ 32
  bitmap : ∀ f, f < m.pmm_bitmap_len → m.BitmapFrame f → m.bit f = true
  managed : ∀ f l, lvl f = some l → Managed m f
  links : ∀ f l i c, lvl f = some (l + 1) → 0 < l → i < 512 → child (m.slot f i) = some c →
    (lvl c = some l ∧ m.slot f i &&& VMM_FLAG_LARGE = 0)
    ∨ (l = 1 ∧ m.slot f i &&& VMM_FLAG_LARGE ≠ 0)

theorem child_eq_none {ent : U64} : child ent = none ↔ ent &&& VMM_FLAG_PRESENT = 0 := by
  unfold child
  split
  · next h => exact ⟨fun _ => h, fun _ => rfl⟩
  · next h => exact ⟨fun hc => (by cases hc), fun hp => absurd hp h⟩

namespace Typed

variable {lvl : Nat → Option Nat} {m : Machine} {f i c l : Nat}

section

variable (h : Typed lvl m)

include h

theorem bitmap_len_le : m.pmm_bitmap_len ≤ 2 ^ 63 := by
  have := h.len
  omega

theorem free_of_bit (hbit : m.bit c = false) : lvl c = none := by
  cases hc : lvl c with
  | none => rfl
  | some l =>
    rw [(h.managed c l hc).bit] at hbit
    cases hbit

theorem not_bitmapFrame (hlen : c < m.pmm_bitmap_len) (hbit : m.bit c = false) :
    ¬ m.BitmapFrame c := by
  intro hb
  rw [h.bitmap c hlen hb] at hbit
  cases hbit

theorem followable (hf : lvl f = some (l + 1)) (hl : 1 < l) (hi : i < 512) :
    Followable (m.slot f i) := by
  cases hc : child (m.slot f i) with
  | none => exact Or.inl (child_eq_none.mp hc)
  | some c =>
    rcases h.links f l i c hf (by omega) hi hc with ⟨-, hsmall⟩ | ⟨rfl, -⟩
    · exact Or.inr hsmall
    · omega

theorem child_level (hf : lvl f = some (l + 1)) (hl : 0 < l) (hi : i < 512)
    (hc : child (m.slot f i) = some c) (hok : Followable (m.slot f i)) : lvl c = some l := by
  rcases h.links f l i c hf hl hi hc with ⟨hlvl, -⟩ | ⟨-, hlarge⟩
  · exact hlvl
  · rcases hok with habsent | hsmall
    · rw [child_eq_none.mpr habsent] at hc
      cases hc
    · exact absurd hsmall hlarge

theorem link (hf : lvl f = some (l + 1)) (hi : i < 512)
    (hlow : 0x2000 ≤ c) (hlen : c < m.pmm_bitmap_len) (hwin : c < 2 ^ 20)
    (hbit : m.bit c = false) : Typed (Function.update lvl c (some l)) (m.link f i c) := by
  have hvars := m.link_vars f i c
  have hnbc := h.not_bitmapFrame hlen hbit
  have hnbf := (h.managed f _ hf).bitmap
  have hfree := h.free_of_bit hbit
  have hframe : ∀ g, (m.link f i c).BitmapFrame g ↔ m.BitmapFrame g := by
    intro g
    unfold Machine.BitmapFrame
    rw [hvars.len]
  have hset : ∀ g, g < m.pmm_bitmap_len → m.bit g = true → (m.link f i c).bit g = true := by
    intro g hg hset
    rw [m.link_bit hi hg hnbf hnbc, hset, ite_self]
  have hfc : f ≠ c := by
    rintro rfl
    rw [hfree] at hf
    cases hf
  constructor
  · rw [hvars.len]
    exact h.len
  · intro g hg hb
    rw [hvars.len] at hg
    exact hset g hg (h.bitmap g hg ((hframe g).mp hb))
  · intro g l' hg
    by_cases hgc : g = c
    · subst hgc
      exact ⟨hlow, by rw [hvars.len]; exact hlen, hwin,
        by rw [m.link_bit hi hlen hnbf hnbc, if_pos rfl], fun hb => hnbc ((hframe _).mp hb)⟩
    · rw [Function.update_of_ne hgc] at hg
      have hman := h.managed g l' hg
      exact ⟨hman.low, by rw [hvars.len]; exact hman.len, hman.window, hset g hman.len hman.bit,
        fun hb => hman.bitmap ((hframe g).mp hb)⟩
  · intro g l' j d hg hl' hj hd
    by_cases hgc : g = c
    · -- the new table is empty
      subst hgc
      rw [m.link_slot hlen hi hj hnbc, if_pos rfl, child_zero] at hd
      cases hd
    · rw [Function.update_of_ne hgc] at hg
      rw [m.link_slot hlen hi hj (h.managed g _ hg).bitmap, if_neg hgc] at hd ⊢
      split at hd
      · next he =>
          obtain ⟨rfl, rfl⟩ := he
          rw [hf] at hg
          injection hg with hg
          obtain rfl : l' = l := by omega
          rw [child_tableEnt (by omega)] at hd
          injection hd with hd
          subst hd
          rw [if_pos ⟨rfl, rfl⟩, Function.update_self]
          exact Or.inl ⟨rfl, large_tableEnt (by omega)⟩
      · next he =>
          rw [if_neg he]
          rcases h.links g l' j d hg hl' hj hd with ⟨hlvl, hsmall⟩ | hhuge
          · have hdc : d ≠ c := by
              rintro rfl
              rw [hfree] at hlvl
              cases hlvl
            rw [Function.update_of_ne hdc]
            exact Or.inl ⟨hlvl, hsmall⟩
          · exact Or.inr hhuge

theorem write (hf : lvl f = some l) (hi : i < 512) {ent : U64}
    (hent : l = 1 ∨ l = 2 ∧ (child ent = none ∨ ent &&& VMM_FLAG_LARGE ≠ 0)) :
    Typed lvl (m.setWord (512 * f + i) ent) := by
  have hdiv : (512 * f + i) / 512 = f := by omega
  have hbit : ∀ g, g < m.pmm_bitmap_len → (m.setWord (512 * f + i) ent).bit g = m.bit g :=
    fun g hg => m.setWord_bit ent hg (by rw [hdiv]; exact (h.managed f l hf).bitmap)
  constructor
  · exact h.len
  · intro g hg hb
    rw [hbit g hg]
    exact h.bitmap g hg hb
  · intro g l' hg
    have hman := h.managed g l' hg
    exact ⟨hman.low, hman.len, hman.window, by rw [hbit g hman.len]; exact hman.bit, hman.bitmap⟩
  · intro g l' j d hg hl' hj hd
    rw [m.setWord_slot ent hi hj] at hd ⊢
    split at hd
    · next he =>
        obtain ⟨rfl, rfl⟩ := he
        rw [hf] at hg
        injection hg with hg
        rw [if_pos ⟨rfl, rfl⟩]
        rcases hent with rfl | ⟨rfl, habsent | hlarge⟩
        · omega
        · rw [habsent] at hd
          cases hd
        · exact Or.inr ⟨by omega, hlarge⟩
    · next he =>
        rw [if_neg he]
        exact h.links g l' j d hg hl' hj hd

end

end Typed

/-- The tables of the context at `r`, all in `T`. -/
structure TablesIn (r : Nat) (lvl : Nat → Option Nat) (T : Set Nat) (m : Machine) : Prop where
  typed : Typed lvl m
  mem : ∀ f l, lvl f = some l → f ∈ T
  root : lvl r = some 4

/-! ## §3. One level of a walk. -/

theorem frame_entry {c : Nat} (hlow : 0x2000 ≤ c) (hwin : c < 2 ^ 20) :
    (BitVec.ofNat 64 (4096 * c)).toNat = 4096 * c ∧ ¬ BitVec.ofNat 64 (4096 * c) = 0
      ∧ BitVec.ofNat 64 (4096 * c) &&& VMM_FLAG_LARGE = 0 := by
  have haddr := toNat_addr (f := c) (by omega)
  refine ⟨haddr, frame_ne_null hlow hwin, ?_⟩
  rw [and_large_eq_zero, BitVec.getLsbD, haddr, Nat.testBit, Nat.shiftRight_eq_div_pow]
  simp
  omega

section Walk

variable {r : Nat} {lvl : Nat → Option Nat} {T : Set Nat} {m : Machine} {f i l : Nat}

section

variable (h : TablesIn r lvl T m) (hf : lvl f = some (l + 1))

include h hf

theorem TablesIn.link {c : Nat}
    (hi : i < 512) (hlow : 0x2000 ≤ c) (hlen : c < m.pmm_bitmap_len) (hwin : c < 2 ^ 20)
    (hbit : m.bit c = false) :
    TablesIn r (Function.update lvl c (some l)) (insert c T) (m.link f i c) := by
  have hroot : r ≠ c := by
    rintro rfl
    have := h.root
    rw [h.typed.free_of_bit hbit] at this
    cases this
  refine ⟨h.typed.link hf hi hlow hlen hwin hbit, ?_, ?_⟩
  · intro g l' hg
    by_cases hgc : g = c
    · exact hgc ▸ Set.mem_insert c T
    · rw [Function.update_of_ne hgc] at hg
      exact Set.mem_insert_of_mem c (h.mem g l' hg)
  · rw [Function.update_of_ne hroot]
    exact h.root

theorem vmm_get_or_alloc_ent_keeps
    (hl : 0 < l) (hi : i < 512) :
    Keeps watch (Logged.vmm_get_or_alloc_ent (some (4096 * f)) i higher_perms) T m
      (Followable (m.slot f i))
      (fun T' o m' => ∃ c lvl', o = some (4096 * c) ∧ Enter m f i m' c ∧ TablesIn r lvl' T' m'
        ∧ lvl' c = some l) := by
  have hT := h.mem f _ hf
  have hwin := (h.typed.managed f _ hf).window
  unfold Logged.vmm_get_or_alloc_ent
  refine (readEnt_keeps hT hwin hi).andThen ?_
  rintro _ _ _ ⟨rfl, rfl, rfl⟩
  by_cases hp : m.slot f i &&& VMM_FLAG_PRESENT = 0
  · -- a new table is linked
    rw [if_pos hp]
    refine Keeps.mono (c := True) ?_ (iff_of_true trivial (Or.inl hp)) (fun _ _ _ h => h)
    refine (pmm_alloc_keeps h.typed.bitmap_len_le).andThen ?_
    rintro _ _ _ ⟨c, rfl, rfl, rfl, hlow, hclen, hcwin, hbit⟩
    have hT' : f ∈ insert c T := Set.mem_insert_of_mem c hT
    obtain ⟨haddr, hne, hsmall⟩ := frame_entry hlow hcwin
    refine (writeEnt_keeps hT' hwin hi _).andThen ?_
    rintro _ _ _ ⟨rfl, rfl⟩
    rw [if_neg hne]
    refine (readEnt_keeps hT' hwin hi).andThen ?_
    rintro _ _ _ ⟨rfl, rfl, rfl⟩
    refine (writeEnt_keeps hT' hwin hi _).andThen ?_
    rintro _ _ _ ⟨rfl, rfl⟩
    refine (memset_page_keeps (Set.mem_insert c T) hcwin).andThen ?_
    rintro _ _ _ ⟨rfl, rfl⟩
    refine (follow_keeps _).mono (iff_true_intro hsmall) ?_
    rintro _ _ _ ⟨rfl, rfl, rfl⟩
    have hlink : (((m.take c).setWord (512 * f + i) (BitVec.ofNat 64 (4096 * c))).setWord
        (512 * f + i) (((m.take c).setWord (512 * f + i) (BitVec.ofNat 64 (4096 * c))).slot f i
          ||| (higher_perms ||| VMM_FLAG_PRESENT))).zeroWords (512 * c) 512 = m.link f i c := by
      rw [Machine.setWord_slot _ _ hi hi, if_pos ⟨rfl, rfl⟩, Machine.setWord_setWord]
      rfl
    refine ⟨c, Function.update lvl c (some l), ?_, ?_, ?_, Function.update_self ..⟩
    · rw [frameOf, haddr]
      congr 1
      omega
    · rw [hlink]
      exact Enter.linked c (child_eq_none.mpr hp) hlow hclen hcwin hbit
    · rw [hlink]
      exact h.link hf hi hlow hclen hcwin hbit
  · -- the entry is followed
    rw [if_neg hp]
    have hchild : child (m.slot f i) = some (frameOf (m.slot f i)) := if_neg hp
    refine (follow_keeps _).result.mono (or_iff_right hp).symm ?_
    rintro _ _ _ ⟨⟨rfl, rfl, rfl⟩, hsmall, -⟩
    exact ⟨_, lvl, rfl, Enter.present _ hchild, h,
      h.typed.child_level hf hl hi hchild (Or.inr hsmall)⟩

theorem vmm_get_or_null_ent_keeps
    (hl : 0 < l) (hi : i < 512) :
    Keeps watch (Logged.vmm_get_or_null_ent (some (4096 * f)) i) T m (Followable (m.slot f i))
      (fun T' o m' => T = T' ∧ m = m' ∧ o = (child (m.slot f i)).map (4096 * ·)
        ∧ ∀ c, child (m.slot f i) = some c → lvl c = some l) := by
  unfold Logged.vmm_get_or_null_ent
  refine (readEnt_keeps (h.mem f _ hf) (h.typed.managed f _ hf).window hi).andThen ?_
  rintro _ _ _ ⟨rfl, rfl, rfl⟩
  by_cases hp : m.slot f i &&& VMM_FLAG_PRESENT = 0
  · rw [if_pos hp]
    have hchild : child (m.slot f i) = none := child_eq_none.mpr hp
    refine Keeps.mono (Keeps.pure ⟨rfl, rfl, ?_, ?_⟩) (iff_of_true trivial (Or.inl hp))
      (fun _ _ _ h => h)
    · rw [hchild]
      rfl
    · intro c hc
      rw [hchild] at hc
      cases hc
  · rw [if_neg hp]
    have hchild : child (m.slot f i) = some (frameOf (m.slot f i)) := if_neg hp
    refine (follow_keeps _).result.mono (or_iff_right hp).symm ?_
    rintro _ _ _ ⟨⟨rfl, rfl, rfl⟩, hsmall, -⟩
    refine ⟨rfl, rfl, ?_, ?_⟩
    · rw [hchild]
      rfl
    · intro c hc
      exact h.typed.child_level hf hl hi hc (Or.inr hsmall)

end

end Walk

/-! ## §4. One page. -/

/-- The directory on the way to page `v`. -/
def Machine.directory (m : Machine) (r v : Nat) : Option Nat :=
  Forest.walk child m.slot r [v / 2 ^ 27 % 512, v / 2 ^ 18 % 512]

/-- Page `v` does not lie in a huge page. -/
def PageClear (m : Machine) (r v : Nat) : Prop :=
  ∀ pd ∈ m.directory r v, Followable (m.slot pd (v / 2 ^ 9 % 512))

instance (m : Machine) (r v : Nat) : Decidable (PageClear m r v) :=
  inferInstanceAs (Decidable (∀ pd ∈ m.directory r v, Followable (m.slot pd (v / 2 ^ 9 % 512))))

/-- If the first table on the way to page `v` is there, so is the directory. -/
def HasDirectory (m : Machine) (r v : Nat) : Prop :=
  child (m.slot r (v / 2 ^ 27 % 512)) ≠ none → m.directory r v ≠ none

instance (m : Machine) (r v : Nat) : Decidable (HasDirectory m r v) :=
  inferInstanceAs (Decidable (_ → _))

section Page

variable {r v : Nat} {lvl : Nat → Option Nat} {T : Set Nat} {m : Machine}

theorem directory_eq (m : Machine) (r v : Nat) :
    m.directory r v = (child (m.slot r (v / 2 ^ 27 % 512))).bind fun pdp =>
      child (m.slot pdp (v / 2 ^ 18 % 512)) := by
  unfold Machine.directory
  rw [Forest.walk_cons]
  refine congrArg _ (funext fun pdp => ?_)
  rw [Forest.walk_cons]
  cases child (m.slot pdp (v / 2 ^ 18 % 512)) <;> rfl

theorem pageClear_of_none (h : m.directory r v = none) : PageClear m r v := by
  intro pd hpd
  rw [h] at hpd
  cases hpd

theorem pageClear_iff {pd : Nat} (h : m.directory r v = some pd) :
    PageClear m r v ↔ Followable (m.slot pd (v / 2 ^ 9 % 512)) := by
  unfold PageClear
  rw [h]
  exact ⟨fun hclear => hclear pd rfl, fun hok pd' hpd' => by cases hpd'; exact hok⟩

theorem followable_entered {m1 m2 : Machine} {c1 c2 : Nat}
    (e1 : Enter m r (v / 2 ^ 27 % 512) m1 c1) (e2 : Enter m1 c1 (v / 2 ^ 18 % 512) m2 c2)
    (hnb1 : ∀ c, m.bit c = false → c < m.pmm_bitmap_len → ¬ m.BitmapFrame c)
    (hnb2 : ∀ c, m1.bit c = false → c < m1.pmm_bitmap_len → ¬ m1.BitmapFrame c) :
    Followable (m2.slot c2 (v / 2 ^ 9 % 512)) ↔ PageClear m r v := by
  have hnew : Followable 0 := Or.inl rfl
  cases e1 with
  | present c1 hc1 =>
    cases e2 with
    | present c2 hc2 =>
      refine (pageClear_iff ?_).symm
      rw [directory_eq, hc1, Option.bind_some, hc2]
    | linked c2 hnone _ hlen _ hbit =>
      rw [m.link_slot hlen (slot_lt _) (slot_lt _) (hnb1 c2 hbit hlen), if_pos rfl]
      refine iff_of_true hnew (pageClear_of_none ?_)
      rw [directory_eq, hc1, Option.bind_some, hnone]
  | linked c1 hnone _ hlen _ hbit =>
    have habsent : PageClear m r v := by
      refine pageClear_of_none ?_
      rw [directory_eq, hnone, Option.bind_none]
    have hzero : (m.link r (v / 2 ^ 27 % 512) c1).slot c1 (v / 2 ^ 18 % 512) = 0 := by
      rw [m.link_slot hlen (slot_lt _) (slot_lt _) (hnb1 c1 hbit hlen), if_pos rfl]
    cases e2 with
    | present c2 hc2 =>
      rw [hzero, child_zero] at hc2
      cases hc2
    | linked c2 _ _ hlen2 _ hbit2 =>
      rw [Machine.link_slot _ hlen2 (slot_lt _) (slot_lt _) (hnb2 c2 hbit2 hlen2), if_pos rfl]
      exact iff_of_true hnew habsent

variable {pml4 virt : U64}

theorem enter_directory_keeps (hpml4 : pml4.toNat = 4096 * r)
    (h : TablesIn r lvl T m) {β : Type} {c : Prop} {R : Set Nat → β → Machine → Prop}
    {k : Table → TableProg β}
    (hk : ∀ T2 m2 lvl2 pd, TablesIn r lvl2 T2 m2 → lvl2 pd = some 2 →
      (Followable (m2.slot pd (pageOf virt / 2 ^ 9 % 512)) ↔ PageClear m r (pageOf virt)) →
      Keeps watch (k (some (4096 * pd))) T2 m2 c R) :
    Keeps watch (do
      let pdp_virt ← Logged.vmm_get_or_alloc_ent (ctxTable pml4) (vmm_virt_to_offs virt).pml4_off
        higher_perms
      let pd_virt ← Logged.vmm_get_or_alloc_ent pdp_virt (vmm_virt_to_offs virt).pdp_off
        higher_perms
      k pd_virt) T m c R := by
  rw [vmm_virt_to_offs_eq, ctxTable, hpml4]
  refine Keeps.andThen ((vmm_get_or_alloc_ent_keeps (l := 3) h h.root (by omega) (slot_lt _)).mono
    (iff_true_intro (h.typed.followable h.root (by omega) (slot_lt _))) (fun _ _ _ hq => hq)) ?_
  rintro T1 _ m1 ⟨c1, lvl1, rfl, e1, h1, hc1⟩
  refine Keeps.andThen ((vmm_get_or_alloc_ent_keeps (l := 2) h1 hc1 (by omega) (slot_lt _)).mono
    (iff_true_intro (h1.typed.followable hc1 (by omega) (slot_lt _))) (fun _ _ _ hq => hq)) ?_
  rintro T2 _ m2 ⟨c2, lvl2, rfl, e2, h2, hc2⟩
  exact hk T2 m2 lvl2 c2 h2 hc2 (followable_entered e1 e2
    (fun _ hbit hlen => h.typed.not_bitmapFrame hlen hbit)
    (fun _ hbit hlen => h1.typed.not_bitmapFrame hlen hbit))

theorem TablesIn.writeEnt_keeps (h : TablesIn r lvl T m) {f i l : Nat} (hf : lvl f = some l)
    (hi : i < 512) {ent : U64}
    (hent : l = 1 ∨ l = 2 ∧ (child ent = none ∨ ent &&& VMM_FLAG_LARGE ≠ 0)) :
    Keeps watch (Logged.writeEnt (some (4096 * f)) i ent) T m True
      (fun T' _ m' => TablesIn r lvl T' m') := by
  refine (Arch.writeEnt_keeps (h.mem f l hf) (h.typed.managed f l hf).window hi ent).mono Iff.rfl ?_
  rintro _ _ _ ⟨rfl, rfl⟩
  exact ⟨h.typed.write hf hi hent, h.mem, h.root⟩

section

variable (hpml4 : pml4.toNat = 4096 * r)

include hpml4

theorem vmm_map_page_keeps (perms virt phys : U64)
    (h : TablesIn r lvl T m) :
    Keeps watch (Logged.vmm_map_page pml4 perms virt phys) T m (PageClear m r (pageOf virt))
      (fun T' _ m' => ∃ lvl', TablesIn r lvl' T' m') := by
  refine enter_directory_keeps hpml4 h ?_
  intro T2 m2 lvl2 pd h2 hpd hclear
  rw [vmm_virt_to_offs_eq]
  refine Keeps.seq ((vmm_get_or_alloc_ent_keeps (l := 1) h2 hpd (by omega) (slot_lt _)).mono hclear
    (fun _ _ _ hq => hq)) ?_
  rintro T3 _ m3 ⟨pt, lvl3, rfl, -, h3, hpt⟩
  refine (h3.writeEnt_keeps hpt (slot_lt _) (Or.inl rfl)).andThen ?_
  intro T4 _ m4 h4
  exact Keeps.pure ⟨lvl3, h4⟩

theorem vmm_map_huge_page_keeps
    (perms virt phys : U64) (h : TablesIn r lvl T m) :
    Keeps watch (Logged.vmm_map_huge_page pml4 perms virt phys) T m True
      (fun T' _ m' => ∃ lvl', TablesIn r lvl' T' m') := by
  refine enter_directory_keeps hpml4 h ?_
  intro T2 m2 lvl2 pd h2 hpd _
  rw [vmm_virt_to_offs_eq]
  refine (h2.writeEnt_keeps hpd (Nat.mod_lt _ (by omega))
    (Or.inr ⟨rfl, Or.inr (or_flags_ne_zero (phys ||| perms)).2⟩)).andThen ?_
  intro T3 _ m3 h3
  exact Keeps.pure ⟨lvl2, h3⟩

theorem vmm_find_pt_keeps (virt : U64)
    (h : TablesIn r lvl T m) :
    Keeps watch (Logged.vmm_find_pt pml4 virt) T m (PageClear m r (pageOf virt))
      (fun T' o m' => T = T' ∧ m = m' ∧ ∀ t, o = some t → ∃ pt, t = 4096 * pt ∧ lvl pt = some 1) := by
  have hgiveup : m.directory r (pageOf virt) = none →
      Keeps watch (pure none : TableProg Table) T m (PageClear m r (pageOf virt))
        (fun T' o m' => T = T' ∧ m = m' ∧ ∀ t, o = some t → ∃ pt, t = 4096 * pt ∧ lvl pt = some 1) := by
    intro hnone
    exact (Keeps.pure ⟨rfl, rfl, fun t ht => by cases ht⟩).mono
      (iff_of_true trivial (pageClear_of_none hnone)) (fun _ _ _ hq => hq)
  unfold Logged.vmm_find_pt
  rw [vmm_virt_to_offs_eq, ctxTable, hpml4]
  refine Keeps.andThen ((vmm_get_or_null_ent_keeps (l := 3) h h.root (by omega) (slot_lt _)).mono
    (iff_true_intro (h.typed.followable h.root (by omega) (slot_lt _))) (fun _ _ _ hq => hq)) ?_
  rintro _ _ _ ⟨rfl, rfl, rfl, hlvl1⟩
  have hdir := directory_eq m r (pageOf virt)
  cases hc1 : child (m.slot r (pageOf virt / 2 ^ 27 % 512)) with
  | none =>
    rw [hc1, Option.bind_none] at hdir
    exact hgiveup hdir
  | some pdp =>
    have hpdp := hlvl1 pdp hc1
    rw [hc1, Option.bind_some] at hdir
    refine Keeps.andThen ((vmm_get_or_null_ent_keeps (l := 2) h hpdp (by omega) (slot_lt _)).mono
      (iff_true_intro (h.typed.followable hpdp (by omega) (slot_lt _))) (fun _ _ _ hq => hq)) ?_
    rintro _ _ _ ⟨rfl, rfl, rfl, hlvl2⟩
    cases hc2 : child (m.slot pdp (pageOf virt / 2 ^ 18 % 512)) with
    | none =>
      rw [hc2] at hdir
      exact hgiveup hdir
    | some pd =>
      rw [hc2] at hdir
      refine (vmm_get_or_null_ent_keeps (l := 1) h (hlvl2 pd hc2) (by omega) (slot_lt _)).mono
        (pageClear_iff hdir).symm ?_
      rintro _ _ _ ⟨rfl, rfl, rfl, hlvl3⟩
      refine ⟨rfl, rfl, ?_⟩
      intro t ht
      obtain ⟨pt, hpt, rfl⟩ := Option.map_eq_some_iff.mp ht
      exact ⟨pt, rfl, hlvl3 pt hpt⟩

theorem find_pt_round_keeps
    (h : TablesIn r lvl T m) {k : Nat → TableProg Bool}
    (hk : ∀ pt, lvl pt = some 1 →
      Keeps watch (k (4096 * pt)) T m True (fun T' _ m' => TablesIn r lvl T' m')) :
    Keeps watch (do
      match ← Logged.vmm_find_pt pml4 virt with
      | none => pure false
      | some pt_virt => k pt_virt) T m (PageClear m r (pageOf virt))
      (fun T' _ m' => ∃ lvl', TablesIn r lvl' T' m') := by
  refine (vmm_find_pt_keeps hpml4 virt h).seq ?_
  rintro _ o _ ⟨rfl, rfl, hpt⟩
  cases o with
  | none => exact Keeps.pure ⟨lvl, h⟩
  | some t =>
    obtain ⟨pt, rfl, hlvl⟩ := hpt t rfl
    exact (hk pt hlvl).mono Iff.rfl (fun _ _ _ hq => ⟨lvl, hq⟩)

theorem vmm_unmap_page_keeps (virt : U64)
    (h : TablesIn r lvl T m) :
    Keeps watch (Logged.vmm_unmap_page pml4 virt) T m (PageClear m r (pageOf virt))
      (fun T' _ m' => ∃ lvl', TablesIn r lvl' T' m') := by
  refine find_pt_round_keeps hpml4 h ?_
  intro pt hpt
  rw [vmm_virt_to_offs_eq]
  refine (h.writeEnt_keeps hpt (Nat.mod_lt _ (by omega)) (Or.inl rfl)).andThen ?_
  intro T' _ m' h'
  exact Keeps.pure h'

theorem vmm_update_perm_keeps (perms virt : U64)
    (h : TablesIn r lvl T m) :
    Keeps watch (Logged.vmm_update_perm pml4 perms virt) T m (PageClear m r (pageOf virt))
      (fun T' _ m' => ∃ lvl', TablesIn r lvl' T' m') := by
  refine find_pt_round_keeps hpml4 h ?_
  intro pt hpt
  rw [vmm_virt_to_offs_eq]
  refine (readEnt_keeps (h.mem pt 1 hpt) (h.typed.managed pt 1 hpt).window
    (Nat.mod_lt _ (by omega))).andThen ?_
  rintro _ _ _ ⟨rfl, rfl, rfl⟩
  refine (h.writeEnt_keeps hpt (Nat.mod_lt _ (by omega)) (Or.inl rfl)).andThen ?_
  intro T' _ m' h'
  exact Keeps.pure h'

theorem directory_round_keeps
    (h : TablesIn r lvl T m) {k : Table → TableProg Bool}
    (hnull : Keeps watch (k none) T m False (fun T' _ m' => TablesIn r lvl T' m'))
    (hk : ∀ pd, lvl pd = some 2 →
      Keeps watch (k (some (4096 * pd))) T m True (fun T' _ m' => TablesIn r lvl T' m')) :
    Keeps watch (do
      match ← Logged.vmm_get_or_null_ent (ctxTable pml4) (vmm_virt_to_offs virt).pml4_off with
      | none => pure false
      | some pdp_virt => do
        let pd_virt ← Logged.vmm_get_or_null_ent (some pdp_virt) (vmm_virt_to_offs virt).pdp_off
        k pd_virt) T m (HasDirectory m r (pageOf virt))
      (fun T' _ m' => ∃ lvl', TablesIn r lvl' T' m') := by
  rw [vmm_virt_to_offs_eq, ctxTable, hpml4]
  refine Keeps.andThen ((vmm_get_or_null_ent_keeps (l := 3) h h.root (by omega) (slot_lt _)).mono
    (iff_true_intro (h.typed.followable h.root (by omega) (slot_lt _))) (fun _ _ _ hq => hq)) ?_
  rintro _ _ _ ⟨rfl, rfl, rfl, hlvl1⟩
  unfold HasDirectory
  rw [directory_eq]
  cases hc1 : child (m.slot r (pageOf virt / 2 ^ 27 % 512)) with
  | none =>
    exact (Keeps.pure ⟨lvl, h⟩).mono (iff_of_true trivial (fun hne => absurd rfl hne))
      (fun _ _ _ hq => hq)
  | some pdp =>
    have hpdp := hlvl1 pdp hc1
    refine Keeps.andThen ((vmm_get_or_null_ent_keeps (l := 2) h hpdp (by omega) (slot_lt _)).mono
      (iff_true_intro (h.typed.followable hpdp (by omega) (slot_lt _))) (fun _ _ _ hq => hq)) ?_
    rintro _ _ _ ⟨rfl, rfl, rfl, hlvl2⟩
    rw [Option.bind_some]
    cases hc2 : child (m.slot pdp (pageOf virt / 2 ^ 18 % 512)) with
    | none =>
      refine hnull.mono ⟨False.elim, fun hdir => ?_⟩ (fun _ _ _ hq => ⟨lvl, hq⟩)
      exact hdir (by simp) rfl
    | some pd =>
      exact (hk pd (hlvl2 pd hc2)).mono (iff_of_true trivial (by simp))
        (fun _ _ _ hq => ⟨lvl, hq⟩)

theorem vmm_unmap_huge_page_keeps (virt : U64)
    (h : TablesIn r lvl T m) :
    Keeps watch (Logged.vmm_unmap_huge_page pml4 virt) T m (HasDirectory m r (pageOf virt))
      (fun T' _ m' => ∃ lvl', TablesIn r lvl' T' m') := by
  refine directory_round_keeps hpml4 h ?_ ?_
  · exact (writeEnt_null _ _ (R := fun _ _ _ => False)).seq (fun _ _ _ hno => hno.elim)
  · intro pd hpd
    rw [vmm_virt_to_offs_eq]
    refine (h.writeEnt_keeps hpd (Nat.mod_lt _ (by omega))
      (Or.inr ⟨rfl, Or.inl child_zero⟩)).andThen ?_
    intro T' _ m' h'
    exact Keeps.pure h'

theorem vmm_update_huge_perm_keeps
    (perms virt : U64) (h : TablesIn r lvl T m) :
    Keeps watch (Logged.vmm_update_huge_perm pml4 perms virt) T m
      (HasDirectory m r (pageOf virt)) (fun T' _ m' => ∃ lvl', TablesIn r lvl' T' m') := by
  refine directory_round_keeps hpml4 h ?_ ?_
  · exact (readEnt_null _ (R := fun _ _ _ => False)).seq (fun _ _ _ hno => hno.elim)
  · intro pd hpd
    rw [vmm_virt_to_offs_eq]
    refine (readEnt_keeps (h.mem pd 2 hpd) (h.typed.managed pd 2 hpd).window
      (Nat.mod_lt _ (by omega))).andThen ?_
    rintro _ _ _ ⟨rfl, rfl, rfl⟩
    refine (h.writeEnt_keeps hpd (Nat.mod_lt _ (by omega))
      (Or.inr ⟨rfl, Or.inr (or_flags_ne_zero _).2⟩)).andThen ?_
    intro T' _ m' h'
    exact Keeps.pure h'

end

end Page

end Quack.Arch
