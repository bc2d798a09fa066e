/-
  Quack.Genfb.Screen
  **WHAT THE CONSOLE'S LOOPS DO TO THE PICTURE.**

  A picture gives the colour of every pixel, by scanline and column; `Holds`
  says that a buffer holds it, byte by byte, padding columns included.  Both
  buffers always hold one picture (`Screen`), and each loop of `genfb.cpp` is an
  operation on it.
-/
import Quack.Genfb.Console

namespace Quack.Genfb

open Lib Util

/-! ## §1. Bytes. -/

variable {n H W c s o : Nat} {bytes : Nat → Byte}

theorem int_apply {z : Int} (hz : z = n) (hn : n ≤ 0x7FFFFFFF) (g : Console) :
    int z g = some ((n : Int), g) := by
  have hcheck : -INT_MAX - 1 ≤ z ∧ z ≤ INT_MAX := by
    unfold INT_MAX
    omega
  unfold int
  rw [Prog.bind_apply (Prog.check_apply hcheck g), hz]
  rfl

theorem size_t_ofNat (hn : n ≤ 0x7FFFFFFF) : size_t (n : Int) = n := by
  unfold size_t
  omega

/-- The state with the bytes of block `p` replaced. -/
def Console.setBytes (g : Console) (p : Block) (bytes : Nat → Byte) : Console :=
  { g with mem := Function.update g.mem p { g.mem p with bytes } }

section Bytes

variable {g : Console} {p q : Block}

@[simp] theorem setBytes_bytes_self (bytes : Nat → Byte) :
    ((g.setBytes p bytes).mem p).bytes = bytes := by
  simp [Console.setBytes]

@[simp] theorem setBytes_size (bytes : Nat → Byte) :
    ((g.setBytes p bytes).mem q).size = (g.mem q).size := by
  by_cases h : q = p
  · subst h
    simp [Console.setBytes]
  · simp [Console.setBytes, h]

theorem setBytes_mem_ne (bytes : Nat → Byte) (h : q ≠ p) :
    (g.setBytes p bytes).mem q = g.mem q := by
  simp [Console.setBytes, h]

@[simp] theorem setBytes_setBytes (bytes bytes' : Nat → Byte) :
    (g.setBytes p bytes).setBytes p bytes' = g.setBytes p bytes' := by
  simp [Console.setBytes]

theorem setBytes_self : g.setBytes p (g.mem p).bytes = g := by
  simp [Console.setBytes]

theorem store_eq {off : Nat} (h : off < (g.mem p).size) (v : Byte) :
    store p off v g = some ((), g.setBytes p (Function.update (g.mem p).bytes off v)) := by
  unfold store
  rw [Prog.bind_apply (a := g) (t := g) rfl, Prog.bind_apply (Prog.check_apply h g)]
  rfl

theorem load_eq {off : Nat} (h : off < (g.mem p).size) :
    load p off g = some ((g.mem p).bytes off, g) := by
  unfold load
  rw [Prog.bind_apply (a := g) (t := g) rfl, Prog.bind_apply (Prog.check_apply h g)]
  rfl

theorem memset_eq (p : Block) (val : Byte) (len : Nat) (off : Nat) (g : Console)
    (h : off + len ≤ (g.mem p).size) :
    memset p off val len g = some ((), g.setBytes p fun o =>
      if off ≤ o ∧ o < off + len then val else (g.mem p).bytes o) := by
  induction len generalizing off g with
  | zero =>
    have hnone : ∀ o, ¬ (off ≤ o ∧ o < off + 0) := fun o h => by omega
    simp only [memset, hnone, if_false]
    rw [setBytes_self]
    rfl
  | succ len ih =>
    unfold memset
    rw [Prog.bind_apply (store_eq (by omega) val), ih (off + 1) _ (by rw [setBytes_size]; omega),
      setBytes_setBytes, setBytes_bytes_self]
    refine congrArg (fun b => some ((), g.setBytes p b)) (funext fun o => ?_)
    by_cases ho : o = off
    · subst ho
      rw [if_neg (by omega), Function.update_self, if_pos (by omega)]
    · rw [Function.update_of_ne ho]
      by_cases hin : off ≤ o ∧ o < off + (len + 1)
      · rw [if_pos hin, if_pos (by omega)]
      · rw [if_neg hin, if_neg (by omega)]

theorem memcpy_eq (dest src : Block) (len : Nat) (d s : Nat) (g : Console)
    (hdown : (dest = src → d ≤ s)) (hd : d + len ≤ (g.mem dest).size)
    (hs : s + len ≤ (g.mem src).size) :
    memcpy dest d src s len g = some ((), g.setBytes dest fun o =>
      if d ≤ o ∧ o < d + len then (g.mem src).bytes (s + (o - d)) else (g.mem dest).bytes o) := by
  induction len generalizing d s g with
  | zero =>
    have hnone : ∀ o, ¬ (d ≤ o ∧ o < d + 0) := fun o h => by omega
    simp only [memcpy, hnone, if_false]
    rw [setBytes_self]
    rfl
  | succ len ih =>
    unfold memcpy
    rw [Prog.bind_apply (load_eq (by omega)), Prog.bind_apply (store_eq (by omega) _),
      ih (d + 1) (s + 1) _ (fun he => by have := hdown he; omega)
        (by rw [setBytes_size]; omega) (by rw [setBytes_size]; omega),
      setBytes_setBytes, setBytes_bytes_self]
    refine congrArg (fun b => some ((), g.setBytes dest b)) (funext fun o => ?_)
    by_cases ho : o = d
    · subst ho
      rw [if_neg (by omega), Function.update_self, if_pos (by omega), Nat.sub_self, Nat.add_zero]
    · by_cases hin : d ≤ o ∧ o < d + (len + 1)
      · rw [if_pos (by omega), if_pos hin, show s + 1 + (o - (d + 1)) = s + (o - d) by omega]
        by_cases hsame : src = dest
        · subst hsame
          have := hdown rfl
          rw [setBytes_bytes_self, Function.update_of_ne (by omega)]
        · rw [setBytes_mem_ne _ hsame]
      · rw [if_neg (by omega), if_neg hin, Function.update_of_ne ho]

end Bytes

/-! ## §2. Pictures. -/

/-- The colour of every pixel, by scanline and column. -/
abbrev Picture := Nat → Nat → BitVec 32

/-- The bytes hold the picture, `W` pixels to each of `H` scanlines. -/
def Holds (W H : Nat) (bytes : Nat → Byte) (pic : Picture) : Prop :=
  ∀ s < H, ∀ c < W, ∀ k < 4, bytes (4 * (s * W + c) + k) = byteOf (pic s c) k

/-- Both buffers hold the picture. -/
structure Screen (W H : Nat) (mem : Block → Buffer) (pic : Picture) : Prop where
  size : ∀ p, (mem p).size = 4 * (H * W)
  holds : ∀ p, Holds W H (mem p).bytes pic

theorem pixel_lt (hs : s < H) (hc : c < W) : s * W + c < H * W := by
  have h : (s + 1) * W ≤ H * W := Nat.mul_le_mul_right W hs
  rw [Nat.succ_mul] at h
  omega

variable {pic : Picture}

theorem Holds.congr {bytes' : Nat → Byte}
    (h : Holds W H bytes pic) (he : ∀ o < 4 * (H * W), bytes' o = bytes o) :
    Holds W H bytes' pic := by
  intro s hs c hc k hk
  have hlt := pixel_lt hs hc
  rw [he _ (by omega), h s hs c hc k hk]

theorem exists_pixel (ho : o < 4 * (H * W)) :
    ∃ s < H, ∃ c < W, ∃ k < 4, o = 4 * (s * W + c) + k := by
  have hW : 0 < W := by
    rcases Nat.eq_zero_or_pos W with rfl | h
    · omega
    · exact h
  have hlt : o / 4 < H * W := by omega
  refine ⟨o / 4 / W, Nat.div_lt_of_lt_mul (by rwa [Nat.mul_comm W H]), o / 4 % W,
    Nat.mod_lt _ hW, o % 4, Nat.mod_lt _ (by omega), ?_⟩
  rw [Nat.div_add_mod']
  omega

theorem Screen.equal {mem : Block → Buffer} (h : Screen W H mem pic)
    (ho : o < 4 * (H * W)) : (mem .front).bytes o = (mem .back).bytes o := by
  obtain ⟨s, hs, c, hc, k, hk, rfl⟩ := exists_pixel ho
  rw [h.holds .front s hs c hc k hk, h.holds .back s hs c hc k hk]

theorem byteOf_background {k : Nat} (hk : k < 4) : byteOf BG_COLOR k = BG_BYTE_COLOR := by
  have h : ∀ k < 4, byteOf BG_COLOR k = BG_BYTE_COLOR := by decide
  exact h k hk

theorem pixel_inj {s' c' : Nat} (hc : c < W) (hc' : c' < W)
    (h : s' * W + c' = s * W + c) : s' = s ∧ c' = c := by
  have hs : s' = s := by
    have h1 : (s' * W + c') / W = (s * W + c) / W := by rw [h]
    rwa [Nat.add_comm, Nat.add_mul_div_right _ _ (by omega), Nat.div_eq_of_lt hc', Nat.zero_add,
      Nat.add_comm (s * W), Nat.add_mul_div_right _ _ (by omega), Nat.div_eq_of_lt hc,
      Nat.zero_add] at h1
  subst hs
  exact ⟨rfl, by omega⟩

/-- What `store32` leaves. -/
def paintBytes (bytes : Nat → Byte) (off : Nat) (col : BitVec 32) : Nat → Byte :=
  fun o => if o / 4 = off then byteOf col (o % 4) else bytes o

theorem store32_eq {g : Console} {p : Block} {off : Nat} (h : 4 * off + 3 < (g.mem p).size)
    (col : BitVec 32) :
    store32 p off col g = some ((), g.setBytes p (paintBytes (g.mem p).bytes off col)) := by
  unfold store32
  rw [Prog.bind_apply (store_eq (by omega) _),
    Prog.bind_apply (store_eq (by rw [setBytes_size]; omega) _), setBytes_setBytes,
    Prog.bind_apply (store_eq (by rw [setBytes_size]; omega) _), setBytes_setBytes,
    store_eq (by rw [setBytes_size]; omega), setBytes_setBytes]
  simp only [setBytes_bytes_self]
  refine congrArg (fun b => some ((), g.setBytes p b)) (funext fun o => ?_)
  unfold paintBytes
  simp only [Function.update_apply]
  by_cases h3 : o = 4 * off + 3
  · subst h3
    rw [if_pos rfl, if_pos (by omega), show (4 * off + 3) % 4 = 3 by omega]
  · rw [if_neg h3]
    by_cases h2 : o = 4 * off + 2
    · subst h2
      rw [if_pos rfl, if_pos (by omega), show (4 * off + 2) % 4 = 2 by omega]
    · rw [if_neg h2]
      by_cases h1 : o = 4 * off + 1
      · subst h1
        rw [if_pos rfl, if_pos (by omega), show (4 * off + 1) % 4 = 1 by omega]
      · rw [if_neg h1]
        by_cases h0 : o = 4 * off
        · subst h0
          rw [if_pos rfl, if_pos (by omega), show 4 * off % 4 = 0 by omega]
        · rw [if_neg h0, if_neg (by omega)]

theorem Holds.paint (h : Holds W H bytes pic)
    (hc : c < W) (col : BitVec 32) :
    Holds W H (paintBytes bytes (s * W + c) col)
      (fun s' c' => if s' = s ∧ c' = c then col else pic s' c') := by
  intro s' hs' c' hc' k hk
  unfold paintBytes
  rw [show (4 * (s' * W + c') + k) / 4 = s' * W + c' by omega,
    show (4 * (s' * W + c') + k) % 4 = k by omega]
  by_cases he : s' * W + c' = s * W + c
  · rw [if_pos he]
    simp only [if_pos (pixel_inj hc hc' he)]
  · rw [if_neg he, h s' hs' c' hc' k hk]
    have hne : ¬ (s' = s ∧ c' = c) := by
      rintro ⟨rfl, rfl⟩
      exact he rfl
    simp only [if_neg hne]

/-! ## §3. Drawing. -/

def Draws (mode : VideoMode) (W H : Nat) (x : Prog Console Unit) (pic pic' : Picture) : Prop :=
  ∀ g : Console, g.mode_info = some mode → Screen W H g.mem pic →
    ∃ mem', x g = some ((), { g with mem := mem' }) ∧ Screen W H mem' pic'

section Draw

variable {mode : VideoMode} {W H : Nat} {pic pic' pic'' : Picture}

theorem Draws.nop (pic : Picture) : Draws mode W H (pure ()) pic pic :=
  fun g _ h => ⟨g.mem, rfl, h⟩

theorem Draws.seq {x y : Prog Console Unit} (hx : Draws mode W H x pic pic')
    (hy : Draws mode W H y pic' pic'') : Draws mode W H (do x; y) pic pic'' := by
  intro g hmode h
  obtain ⟨mem', hrun, h'⟩ := hx g hmode h
  obtain ⟨mem'', hrun', h''⟩ := hy { g with mem := mem' } hmode h'
  exact ⟨mem'', by rw [Prog.bind_apply hrun, hrun'], h''⟩

theorem Draws.congr {x : Prog Console Unit} (hx : Draws mode W H x pic pic')
    (h : ∀ s < H, ∀ c < W, pic' s c = pic'' s c) : Draws mode W H x pic pic'' := by
  intro g hmode hg
  obtain ⟨mem', hrun, h'⟩ := hx g hmode hg
  refine ⟨mem', hrun, h'.size, fun p s hs c hc k hk => ?_⟩
  rw [h'.holds p s hs c hc k hk, h s hs c hc]

theorem pixel_draws {s c : Nat} (hs : s < H) (hc : c < W) (col : BitVec 32) (pic : Picture) :
    Draws mode W H (do store32 .front (s * W + c) col; store32 .back (s * W + c) col) pic
      (fun s' c' => if s' = s ∧ c' = c then col else pic s' c') := by
  intro g _ h
  have hlt := pixel_lt hs hc
  have hsize : ∀ p, 4 * (s * W + c) + 3 < (g.mem p).size := by
    intro p
    rw [h.size p]
    omega
  rw [Prog.bind_apply (store32_eq (hsize .front) col),
    store32_eq (by rw [setBytes_size]; exact hsize .back) col]
  refine ⟨(Console.setBytes _ _ _).mem, rfl, ?_, ?_⟩
  · intro p
    rw [setBytes_size, setBytes_size, h.size p]
  · intro p
    cases p with
    | back =>
      rw [setBytes_bytes_self, setBytes_mem_ne _ (by decide)]
      exact (h.holds .back).paint hc col
    | front =>
      rw [setBytes_mem_ne _ (by decide), setBytes_bytes_self]
      exact (h.holds .front).paint hc col

theorem putch_cols_draws (byte : Byte) (fg bg : BitVec 32) {s : Nat} (hs : s < H) (n : Nat)
    (x c : Nat) (pic : Picture) (hfit : c + n ≤ W) :
    Draws mode W H (putch_cols byte fg bg x n (s * W + c)) pic
      (fun s' c' => if s' = s ∧ c ≤ c' ∧ c' < c + n then pixel byte fg bg (x + (c' - c))
        else pic s' c') := by
  induction n generalizing x c pic with
  | zero =>
    refine (Draws.nop pic).congr fun s' _ c' _ => ?_
    rw [if_neg (by omega)]
  | succ n ih =>
    have hrest := ih (x + 1) (c + 1) (fun s' c' => if s' = s ∧ c' = c then pixel byte fg bg x
      else pic s' c') (by omega)
    have hdraw : Draws mode W H _ pic _ :=
      (pixel_draws hs (show c < W by omega) (pixel byte fg bg x) pic).seq hrest
    rw [bind_assoc] at hdraw
    refine Draws.congr hdraw fun s' _ c' _ => ?_
    by_cases hfirst : s' = s ∧ c' = c
    · obtain ⟨rfl, rfl⟩ := hfirst
      rw [if_neg (by omega), if_pos ⟨rfl, rfl⟩, if_pos (by omega), Nat.sub_self, Nat.add_zero]
    · by_cases hin : s' = s ∧ c ≤ c' ∧ c' < c + (n + 1)
      · rw [if_pos (by omega), if_pos hin, show x + 1 + (c' - (c + 1)) = x + (c' - c) by omega]
      · rw [if_neg (by omega), if_neg hfirst, if_neg hin]

theorem font_byte_bind {font : Nat → Byte} {i : Nat} (h : i < 4096) (k : Byte → Prog Console Unit) :
    (do let byte ← font_byte font i; k byte) = k (font i) := by
  funext g
  refine Prog.bind_apply (f := k) (t := g) (a := font i) ?_
  unfold font_byte
  rw [Prog.bind_apply (Prog.check_apply h g)]
  rfl

theorem putch_rows_draws (font : Nat → Byte) (fg bg : BitVec 32) {c font_off : Nat} {pitch : Int}
    (hpitch : size_t (pitch.tdiv 4) = W) (hc : c + 8 ≤ W) (n : Nat) (y s : Nat) (pic : Picture)
    (hfit : s + n ≤ H) (hfont : font_off + y + n ≤ 4096) :
    Draws mode W H (putch_rows font font_off pitch fg bg y n (s * W + c)) pic
      (fun s' c' => if s ≤ s' ∧ s' < s + n ∧ c ≤ c' ∧ c' < c + 8
        then pixel (font (font_off + y + (s' - s))) fg bg (c' - c) else pic s' c') := by
  induction n generalizing y s pic with
  | zero =>
    refine (Draws.nop pic).congr fun s' _ c' _ => ?_
    rw [if_neg (by omega)]
  | succ n ih =>
    have hunfold : putch_rows font font_off pitch fg bg y (n + 1) (s * W + c)
        = (do putch_cols (font (font_off + y)) fg bg 0 8 (s * W + c)
              putch_rows font font_off pitch fg bg (y + 1) n ((s + 1) * W + c)) := by
      rw [putch_rows, font_byte_bind (by omega), hpitch,
        show s * W + c + W = (s + 1) * W + c by rw [Nat.succ_mul]; omega]
      rfl
    rw [hunfold]
    refine Draws.congr ((putch_cols_draws (font (font_off + y)) fg bg (by omega) 8 0 c pic hc).seq
      (ih (y + 1) (s + 1) _ (by omega) (by omega))) fun s' _ c' _ => ?_
    by_cases hfirst : s' = s ∧ c ≤ c' ∧ c' < c + 8
    · obtain ⟨rfl, hlo, hhi⟩ := hfirst
      rw [if_neg (by omega), if_pos ⟨rfl, hlo, hhi⟩, if_pos (by omega), Nat.sub_self, Nat.add_zero,
        Nat.zero_add]
    · by_cases hin : s ≤ s' ∧ s' < s + (n + 1) ∧ c ≤ c' ∧ c' < c + 8
      · rw [if_pos (by omega), if_pos hin,
          show font_off + (y + 1) + (s' - (s + 1)) = font_off + y + (s' - s) by omega]
      · rw [if_neg (by omega), if_neg hfirst, if_neg hin]

end Draw

theorem mode_info_apply {g : Console} {mode : VideoMode} (h : g.mode_info = some mode) :
    mode_info g = some (mode, g) := by
  unfold mode_info
  rw [Prog.bind_apply (a := g) (t := g) rfl]
  exact Prog.ofOption_eq_some.mpr ⟨h, rfl⟩

/-! ## §4. Glyphs and scrolling. -/

theorem Holds.scroll (h : Holds W H bytes pic)
    (hH : 16 ≤ H) :
    Holds W H (fun o =>
      if 4 * ((H - 16) * W) ≤ o ∧ o < 4 * ((H - 16) * W) + 4 * (16 * W) then BG_BYTE_COLOR
      else if 0 ≤ o ∧ o < 0 + 4 * ((H - 16) * W) then bytes (4 * (16 * W) + (o - 0)) else bytes o)
      (fun s c => if s + 16 < H then pic (s + 16) c else BG_COLOR) := by
  have hsplit : (H - 16) * W + 16 * W = H * W := by
    rw [← Nat.add_mul, Nat.sub_add_cancel hH]
  intro s hs c hc k hk
  have hlt := pixel_lt hs hc
  by_cases hup : s + 16 < H
  · have hin : s * W + c < (H - 16) * W := pixel_lt (by omega) hc
    have hmove : 4 * (16 * W) + (4 * (s * W + c) + k) = 4 * ((s + 16) * W + c) + k := by
      rw [Nat.add_mul]
      omega
    simp only [if_pos hup]
    rw [if_neg (by omega), if_pos (by omega), Nat.sub_zero, hmove, h (s + 16) hup c hc k hk]
  · have hout : (H - 16) * W ≤ s * W := Nat.mul_le_mul_right W (by omega)
    simp only [if_neg hup]
    rw [if_pos (by omega), byteOf_background hk]

section Mode

variable {mode : VideoMode} {W H : Nat} (hpitch : mode.pitch = ((4 * W : Nat) : Int))
  (hheight : mode.height = (H : Int)) (hfit : H * (4 * W) ≤ 0x7FFFFFFF)
include hpitch hfit

theorem stride_eq (hH : 0 < H) : size_t (mode.pitch.tdiv 4) = W := by
  have hle : 1 * (4 * W) ≤ H * (4 * W) := Nat.mul_le_mul_right _ hH
  rw [hpitch, show ((4 * W : Nat) : Int) = (W : Int) * 4 by push_cast; omega,
    Int.mul_tdiv_cancel _ (by decide)]
  exact size_t_ofNat (by omega)

theorem genfb_putch_internal_draws (font : Nat → Byte) {ch : Byte} (hch : ch.toNat < 128)
    (fg bg : BitVec 32) {X Y : Nat} (hX : 8 * X + 8 ≤ W) (hY : 16 * Y + 16 ≤ H) (pic : Picture) :
    Draws mode W H
      (genfb_putch_internal font ch ((8 * X : Nat) : Int) ((16 * Y : Nat) : Int) fg bg) pic
      (fun s c => if 16 * Y ≤ s ∧ s < 16 * Y + 16 ∧ 8 * X ≤ c ∧ c < 8 * X + 8
        then pixel (font (16 * ch.toNat + (s - 16 * Y))) fg bg (c - 8 * X) else pic s c) := by
  have hoff : size_t (ch.toInt * char_height * char_width) / 8 = 16 * ch.toNat := by
    have hz : ch.toInt * char_height * char_width = ((128 * ch.toNat : Nat) : Int) := by
      rw [BitVec.toInt_eq_toNat_of_lt (by omega)]
      unfold char_height char_width
      push_cast
      omega
    rw [hz, size_t_ofNat (by omega)]
    omega
  have hpix : 16 * Y * W + 8 * X < H * W := pixel_lt (by omega) (by omega)
  have hdy : 16 * Y * (4 * W) = 4 * (16 * Y * W) := Nat.mul_left_comm _ _ _
  have hHW : H * (4 * W) = 4 * (H * W) := Nat.mul_left_comm _ _ _
  intro g hmode h
  have hdxz : ((8 * X : Nat) : Int) * 4 = ((32 * X : Nat) : Int) := by
    push_cast
    omega
  have hdyz : ((16 * Y : Nat) : Int) * mode.pitch = ((4 * (16 * Y * W) : Nat) : Int) := by
    rw [hpitch, ← hdy]
    push_cast
    rfl
  have hsum : ((32 * X : Nat) : Int) + ((4 * (16 * Y * W) : Nat) : Int)
      = ((4 * (16 * Y * W + 8 * X) : Nat) : Int) := by
    push_cast
    omega
  have hquot : size_t (((4 * (16 * Y * W + 8 * X) : Nat) : Int).tdiv 4) = 16 * Y * W + 8 * X := by
    rw [show ((4 * (16 * Y * W + 8 * X) : Nat) : Int) = ((16 * Y * W + 8 * X : Nat) : Int) * 4 by
      push_cast; omega, Int.mul_tdiv_cancel _ (by decide)]
    exact size_t_ofNat (by omega)
  simp only [genfb_putch_internal, hoff]
  rw [Prog.bind_apply (mode_info_apply hmode), Prog.bind_apply (int_apply hdxz (by omega) g),
    Prog.bind_apply (int_apply hdyz (by omega) g), Prog.bind_apply (int_apply hsum (by omega) g),
    hquot]
  obtain ⟨mem', hrun, h'⟩ := putch_rows_draws font fg bg (stride_eq hpitch hfit (by omega)) hX 16 0
    (16 * Y) pic hY (show 16 * ch.toNat + 0 + 16 ≤ 4096 by omega) g hmode h
  exact ⟨mem', hrun, h'⟩

include hheight

theorem genfb_scroll_up_draws (hH : 16 ≤ H) (hW : 0 < W) (pic : Picture) :
    Draws mode W H genfb_scroll_up pic
      (fun s c => if s + 16 < H then pic (s + 16) c else BG_COLOR) := by
  have hHW : H * (4 * W) = 4 * (H * W) := Nat.mul_left_comm _ _ _
  have hsplit : (H - 16) * W + 16 * W = H * W := by
    rw [← Nat.add_mul, Nat.sub_add_cancel hH]
  have hle : H ≤ H * W := Nat.le_mul_of_pos_right H hW
  have hskip : mode.pitch * char_height = ((4 * (16 * W) : Nat) : Int) := by
    rw [hpitch]
    unfold char_height
    push_cast
    omega
  have hrows : mode.height - char_height = ((H - 16 : Nat) : Int) := by
    rw [hheight]
    unfold char_height
    omega
  have hlen : mode.pitch * ((H - 16 : Nat) : Int) = ((4 * ((H - 16) * W) : Nat) : Int) := by
    rw [hpitch, ← Int.natCast_mul]
    congr 1
    rw [Nat.mul_assoc, Nat.mul_comm W]
  have hlast : ((H - 16 : Nat) : Int) * mode.pitch = ((4 * ((H - 16) * W) : Nat) : Int) := by
    rw [Int.mul_comm, hlen]
  have hrow : char_height * mode.pitch = ((4 * (16 * W) : Nat) : Int) := by
    rw [Int.mul_comm, hskip]
  have hbytes : mode.height * mode.pitch = ((4 * (H * W) : Nat) : Int) := by
    rw [hheight, hpitch, ← Int.natCast_mul, hHW]
  intro g hmode h
  have hsize := h.size
  unfold genfb_scroll_up
  rw [Prog.bind_apply (mode_info_apply hmode), Prog.bind_apply (int_apply hskip (by omega) g),
    Prog.bind_apply (int_apply hrows (by omega) g), Prog.bind_apply (int_apply hlen (by omega) g),
    size_t_ofNat (by omega), size_t_ofNat (by omega),
    Prog.bind_apply (memcpy_eq .back .back _ _ _ g (fun _ => by omega) (by rw [hsize]; omega)
      (by rw [hsize]; omega)),
    Prog.bind_apply (int_apply hlast (by omega) _), Prog.bind_apply (int_apply hrow (by omega) _),
    size_t_ofNat (by omega), size_t_ofNat (by omega),
    Prog.bind_apply (memset_eq .back _ _ _ _ (by rw [setBytes_size, hsize]; omega)),
    setBytes_setBytes, setBytes_bytes_self,
    Prog.bind_apply (int_apply hbytes (by omega) _), size_t_ofNat (by omega),
    memcpy_eq .front .back _ _ _ _ (fun hne => by cases hne)
      (by rw [setBytes_size, hsize]; omega) (by rw [setBytes_size, hsize]; omega)]
  refine ⟨(Console.setBytes _ _ _).mem, rfl, ?_, ?_⟩
  · intro p
    rw [setBytes_size, setBytes_size, hsize p]
  · -- both buffers end with the bytes of `vid_back`
    have hback := (h.holds .back).scroll hH
    intro p
    cases p with
    | back =>
      rw [setBytes_mem_ne _ (by decide), setBytes_bytes_self]
      exact hback
    | front =>
      rw [setBytes_bytes_self, setBytes_bytes_self]
      refine hback.congr fun o ho => ?_
      simp only [Nat.zero_add, Nat.sub_zero, Nat.zero_le, true_and, if_pos ho]

end Mode

end Quack.Genfb
