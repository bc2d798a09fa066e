/-
  Quack.Genfb.Terminal
  **THE CONSOLE IS A SCROLLING TERMINAL.**

  `Terminal` is what the console is for: a grid of characters and a cursor.  Its
  picture (`Terminal.picture`) is background wherever there is no cell: in the
  scanlines below the last row, right of the last column and in the padding of
  a scanline.

    • `console_shows_iff` — from `genfb_init` on, for the modes whose size in
      bytes an `int` can hold, and for no others.
    • `console_inside_iff` — accesses in bounds: for these modes, and for bytes
      that are not negative as a `char`.
-/
import Quack.Genfb.Screen

namespace Quack.Genfb

open Lib Util

/-! ## §1. The terminal. -/

/-- A grid of characters, by row and column, and the cursor. -/
structure Terminal where
  cells : Nat → Nat → Option Byte
  x : Nat
  y : Nat

namespace Terminal

def blank : Terminal := ⟨fun _ _ => none, 0, 0⟩

def lineFeed (h : Nat) (t : Terminal) : Terminal :=
  if t.y + 1 < h then { t with x := 0, y := t.y + 1 }
  else ⟨fun row col => if row + 1 < h then t.cells (row + 1) col else none, 0, h - 1⟩

def advance (w h n : Nat) (t : Terminal) : Terminal :=
  if t.x + n < w then { t with x := t.x + n } else t.lineFeed h

/-- A character under the cursor. -/
def setCell (c : Byte) (t : Terminal) : Terminal :=
  { t with cells := fun row col => if row = t.y ∧ col = t.x then some c else t.cells row col }

/-- One character. -/
def putch (w h : Nat) (t : Terminal) (c : Byte) : Terminal :=
  if c = 10 then t.lineFeed h
  else if c = 9 then t.advance w h 8
  else (t.setCell c).advance w h 1

/-- What a terminal looks like. -/
def picture (font : Nat → Byte) (w h : Nat) (t : Terminal) : Picture := fun s c =>
  if s < 16 * h ∧ c < 8 * w then
    match t.cells (s / 16) (c / 8) with
    | none => BG_COLOR
    | some ch => Genfb.pixel (font (16 * ch.toNat + s % 16)) FG_COLOR BG_COLOR (c % 8)
  else BG_COLOR

end Terminal

/-- Printable ASCII, newline and tab. -/
def Text (c : Byte) : Prop := (0x20 ≤ c.toNat ∧ c.toNat ≤ 0x7E) ∨ c = 10 ∨ c = 9

theorem Text.lt {c : Byte} (h : Text c) : c.toNat < 128 := by
  rcases h with ⟨-, h⟩ | rfl | rfl
  · omega
  · decide
  · decide

/-- The console shows the terminal: the cursors agree, the buffers are equal,
and each holds the terminal's picture. -/
structure Displays (font : Nat → Byte) (mode : VideoMode) (g : Console) (t : Terminal) : Prop where
  cursor : g.disp_x = t.x ∧ g.disp_y = t.y
  equal : ∀ o < mode.height.toNat * mode.pitch.toNat,
    (g.mem .front).bytes o = (g.mem .back).bytes o
  shows : ∀ p, Holds (mode.pitch.toNat / 4) mode.height.toNat (g.mem p).bytes
    (t.picture font (mode.width.toNat / 8) (mode.height.toNat / 16))

/-! ## §2. Pictures of terminals. -/

section Pictures

variable (font : Nat → Byte) {w h H : Nat}

theorem picture_lineFeed (hH : h = H / 16) (t : Terminal) (hy : h ≤ t.y + 1)
    {s : Nat} (hs : s < H) (c : Nat) :
    (if s + 16 < H then t.picture font w h (s + 16) c else BG_COLOR)
      = (t.lineFeed h).picture font w h s c := by
  have hfeed : t.lineFeed h
      = ⟨fun row col => if row + 1 < h then t.cells (row + 1) col else none, 0, h - 1⟩ :=
    if_neg (by omega)
  rw [hfeed]
  unfold Terminal.picture
  by_cases hc : c < 8 * w
  · by_cases hrow : s / 16 + 1 < h
    · -- a row that comes from the one below it
      have hup : s + 16 < H := by omega
      have hin : s + 16 < 16 * h ∧ c < 8 * w := ⟨by omega, hc⟩
      have hin' : s < 16 * h ∧ c < 8 * w := ⟨by omega, hc⟩
      simp only [if_pos hup, if_pos hin, if_pos hin', if_pos hrow]
      rw [show (s + 16) / 16 = s / 16 + 1 by omega, show (s + 16) % 16 = s % 16 by omega]
    · -- the last row, or below it
      have hin : ¬ (s + 16 < 16 * h ∧ c < 8 * w) := fun h' => by omega
      simp only [if_neg hin, if_neg hrow, ite_self]
  · have hin : ¬ (s + 16 < 16 * h ∧ c < 8 * w) := fun h' => hc h'.2
    have hin' : ¬ (s < 16 * h ∧ c < 8 * w) := fun h' => hc h'.2
    simp only [if_neg hin, if_neg hin', ite_self]

theorem picture_setCell (t : Terminal) (ch : Byte) (hx : t.x < w) (hy : t.y < h) (s c : Nat) :
    (if 16 * t.y ≤ s ∧ s < 16 * t.y + 16 ∧ 8 * t.x ≤ c ∧ c < 8 * t.x + 8
      then pixel (font (16 * ch.toNat + (s - 16 * t.y))) FG_COLOR BG_COLOR (c - 8 * t.x)
      else t.picture font w h s c) = (t.setCell ch).picture font w h s c := by
  unfold Terminal.picture Terminal.setCell
  by_cases hcell : 16 * t.y ≤ s ∧ s < 16 * t.y + 16 ∧ 8 * t.x ≤ c ∧ c < 8 * t.x + 8
  · have hin : s < 16 * h ∧ c < 8 * w := by omega
    have hhere : s / 16 = t.y ∧ c / 8 = t.x := by omega
    simp only [if_pos hcell, if_pos hin, if_pos hhere]
    rw [show s % 16 = s - 16 * t.y by omega, show c % 8 = c - 8 * t.x by omega]
  · have hnot : ¬ (s / 16 = t.y ∧ c / 8 = t.x) := by omega
    simp only [if_neg hcell, if_neg hnot]

theorem picture_blank (s c : Nat) : Terminal.blank.picture font w h s c = BG_COLOR := by
  unfold Terminal.picture Terminal.blank
  simp only [ite_self]

end Pictures

/-! ## §3. One character. -/

/-- A screen of `H` scanlines of `W` pixels, with `w` by `h` cells, whose size
in bytes is an `int`. -/
structure Geometry (mode : VideoMode) (w h W H : Nat) : Prop where
  pitch : mode.pitch = ((4 * W : Nat) : Int)
  height : mode.height = (H : Int)
  size_le : H * (4 * W) ≤ 0x7FFFFFFF
  cols_pos : 0 < w
  cols_le : 8 * w ≤ W
  rows : h = H / 16
  tall : 16 ≤ H

/-- The console is set up for the screen, and its row and its picture are those
of `t`; nothing is said about the column. -/
structure Running (font : Nat → Byte) (mode : VideoMode) (w h W H : Nat) (g : Console)
    (t : Terminal) : Prop where
  working : g.is_working = true
  mode : g.mode_info = some mode
  width : g.disp_w = w
  height : g.disp_h = h
  row : g.disp_y = t.y
  row_lt : t.y < h
  screen : Screen W H g.mem (t.picture font w h)

/-- The column too is that of `t`. -/
structure Refines (font : Nat → Byte) (mode : VideoMode) (w h W H : Nat) (g : Console)
    (t : Terminal) : Prop extends Running font mode w h W H g t where
  col : g.disp_x = t.x
  col_lt : t.x < w

theorem genfb_putch_outside (font : Nat → Byte) {c : Byte} (hc : 128 ≤ c.toNat) {g g' : Console}
    (hwork : g.is_working = true) : genfb_putch font c g ≠ some ((), g') := by
  have hnl : c ≠ ascii '\n' := fun h => by
    rw [h] at hc
    exact absurd hc (by decide)
  have htab : c ≠ ascii '\t' := fun h => by
    rw [h] at hc
    exact absurd hc (by decide)
  have hoff : 4096 ≤ size_t (c.toInt * char_height * char_width) / 8 := by
    rw [BitVec.toInt_eq_toNat_cond]
    unfold size_t char_height char_width
    split <;> omega
  intro h
  unfold genfb_putch at h
  rw [Prog.bind_apply (a := g) (t := g) rfl, if_neg (by rw [hwork]; decide), if_neg hnl,
    if_neg htab] at h
  simp only [genfb_putch_internal, Prog.bind_eq_some] at h
  obtain ⟨_, _, -, _, _, -, _, _, ⟨mode, _, -, _, _, -, _, _, -, off, _, -, h⟩, -⟩ := h
  rw [show char_height.toNat = 15 + 1 from rfl, putch_rows] at h
  simp only [font_byte, Prog.bind_eq_some, Prog.check_eq_some] at h
  omega

section Steps

variable {font : Nat → Byte} {mode : VideoMode} {w h W H : Nat} {g : Console} {t : Terminal}

section

variable (hm : Geometry mode w h W H)

include hm

theorem Geometry.rows_le : h ≤ 0x7FFFFFF := by
  have hle : H * 1 ≤ H * (4 * W) := by
    refine Nat.mul_le_mul_left H ?_
    have := hm.cols_pos
    have := hm.cols_le
    omega
  have := hm.size_le
  have := hm.rows
  omega

theorem Geometry.cols_lt : w < 0x7FFFFFF := by
  have hle : 16 * (4 * W) ≤ H * (4 * W) := Nat.mul_le_mul_right _ hm.tall
  have := hm.size_le
  have := hm.cols_le
  omega

theorem new_line_refines (hg : Running font mode w h W H g t) :
    ∃ g', new_line g = some ((), g') ∧ Refines font mode w h W H g' (t.lineFeed h) := by
  have hrows := hm.rows_le
  have hlt := hg.row_lt
  have hnext : g.disp_y + 1 = ((t.y + 1 : Nat) : Int) := by
    rw [hg.row]
    rfl
  unfold new_line
  rw [Prog.bind_apply (a := g) (t := g) rfl, Prog.bind_apply (int_apply hnext (by omega) g),
    Prog.bind_apply (a := ()) rfl]
  by_cases hlast : t.y + 1 < h
  · -- the next row is on the screen
    have hfeed : t.lineFeed h = { t with x := 0, y := t.y + 1 } := if_pos hlast
    rw [if_neg (by rw [hg.height]; omega), hfeed]
    exact ⟨_, rfl, ⟨hg.working, hg.mode, hg.width, hg.height, rfl, hlast, hg.screen⟩, rfl,
      hm.cols_pos⟩
  · -- the screen scrolls
    have hfeed : t.lineFeed h
        = ⟨fun row col => if row + 1 < h then t.cells (row + 1) col else none, 0, h - 1⟩ :=
      if_neg hlast
    have hwide : 0 < W := by
      have := hm.cols_pos
      have := hm.cols_le
      omega
    obtain ⟨mem', hrun, hscreen⟩ := (genfb_scroll_up_draws hm.pitch hm.height hm.size_le hm.tall
      hwide (t.picture font w h)).congr
      (fun s hs c _ => picture_lineFeed font hm.rows t (by omega) hs c)
      { g with disp_x := 0, disp_y := ((t.y + 1 : Nat) : Int) } hg.mode hg.screen
    have hbottom : g.disp_h - 1 = ((h - 1 : Nat) : Int) := by
      rw [hg.height]
      omega
    rw [if_pos (by rw [hg.height]; omega), Prog.bind_apply hrun,
      Prog.bind_apply (int_apply hbottom (by omega) _)]
    refine ⟨_, rfl, ⟨hg.working, hg.mode, hg.width, hg.height, ?_, ?_, hscreen⟩, ?_, ?_⟩
    · rw [hfeed]
    · rw [hfeed]
      show h - 1 < h
      omega
    · rw [hfeed]
      rfl
    · rw [hfeed]
      exact hm.cols_pos

theorem scroll_screen_refines (hg : Running font mode w h W H g t)
    {n : Nat} (hn : t.x + n ≤ 0x7FFFFFFF) :
    ∃ g', scroll_screen ((t.x + n : Nat) : Int) g = some ((), g')
      ∧ Refines font mode w h W H g' (t.advance w h n) := by
  unfold scroll_screen
  rw [Prog.bind_apply (int_apply rfl hn g), Prog.bind_apply (a := ()) rfl,
    Prog.bind_apply (a := { g with disp_x := ((t.x + n : Nat) : Int) }) rfl]
  by_cases hline : t.x + n < w
  · have hadv : t.advance w h n = { t with x := t.x + n } := if_pos hline
    rw [if_neg (by show ¬ _ ≥ g.disp_w; rw [hg.width]; omega), hadv]
    exact ⟨_, rfl, ⟨hg.working, hg.mode, hg.width, hg.height, hg.row, hg.row_lt, hg.screen⟩, rfl,
      hline⟩
  · have hadv : t.advance w h n = t.lineFeed h := if_neg hline
    rw [if_pos (by show _ ≥ g.disp_w; rw [hg.width]; omega), hadv]
    exact new_line_refines hm
      ⟨hg.working, hg.mode, hg.width, hg.height, hg.row, hg.row_lt, hg.screen⟩

theorem genfb_putch_refines (hg : Refines font mode w h W H g t)
    {c : Byte} (hch : c.toNat < 128) :
    ∃ g', genfb_putch font c g = some ((), g')
      ∧ Refines font mode w h W H g' (t.putch w h c) := by
  have hcols := hm.cols_lt
  have hrows := hm.rows_le
  have hx := hg.col_lt
  have hy := hg.row_lt
  unfold genfb_putch Terminal.putch
  rw [Prog.bind_apply (a := g) (t := g) rfl, if_neg (by rw [hg.working]; decide),
    show ascii '\n' = 10 from rfl, show ascii '\t' = 9 from rfl]
  by_cases hnl : c = 10
  · rw [if_pos hnl, if_pos hnl]
    exact new_line_refines hm hg.toRunning
  rw [if_neg hnl, if_neg hnl]
  by_cases htab : c = 9
  · rw [if_pos htab, if_pos htab, hg.col]
    exact scroll_screen_refines hm hg.toRunning (n := 8) (by omega)
  rw [if_neg htab, if_neg htab]
  -- any other character: its glyph is painted, then the cursor moves on
  have hcellx : g.disp_x * char_width = ((8 * t.x : Nat) : Int) := by
    rw [hg.col]
    unfold char_width
    push_cast
    omega
  have hcelly : g.disp_y * char_height = ((16 * t.y : Nat) : Int) := by
    rw [hg.row]
    unfold char_height
    push_cast
    omega
  have hfitx : 8 * t.x + 8 ≤ W := by
    have := hm.cols_le
    omega
  have hfity : 16 * t.y + 16 ≤ H := by
    have := hm.rows
    omega
  obtain ⟨mem', hrun, hscreen⟩ := (genfb_putch_internal_draws hm.pitch hm.size_le font hch FG_COLOR
    BG_COLOR hfitx hfity (t.picture font w h)).congr
    (fun s _ c' _ => picture_setCell font t c hx hy s c') g hg.mode hg.screen
  rw [Prog.bind_apply (int_apply hcellx (by omega) g),
    Prog.bind_apply (int_apply hcelly (by omega) g), Prog.bind_apply hrun]
  have hg' : Running font mode w h W H { g with mem := mem' } (t.setCell c) :=
    ⟨hg.working, hg.mode, hg.width, hg.height, hg.row, hy, hscreen⟩
  have hcol : (t.setCell c).x + 1 ≤ 0x7FFFFFFF := by
    show t.x + 1 ≤ 0x7FFFFFFF
    omega
  have hnext : g.disp_x + 1 = (((t.setCell c).x + 1 : Nat) : Int) := by
    rw [hg.col]
    rfl
  rw [hnext]
  exact scroll_screen_refines hm hg' hcol

theorem genfb_write_refines (cs : List Byte) :
    ∀ (g : Console) (t : Terminal), Refines font mode w h W H g t → (∀ c ∈ cs, c.toNat < 128) →
      ∃ g', genfb_write font cs g = some ((), g')
        ∧ Refines font mode w h W H g' (cs.foldl (Terminal.putch w h) t) := by
  induction cs with
  | nil =>
    intro g t hg _
    exact ⟨g, rfl, hg⟩
  | cons c cs ih =>
    intro g t hg htext
    obtain ⟨g1, hrun, hg1⟩ := genfb_putch_refines hm hg (htext c List.mem_cons_self)
    obtain ⟨g2, hrest, hg2⟩ := ih g1 _ hg1 fun c' hc' => htext c' (List.mem_cons_of_mem c hc')
    refine ⟨g2, ?_, hg2⟩
    unfold genfb_write
    rw [Prog.bind_apply hrun, hrest]

theorem genfb_write_ascii (cs : List Byte) : ∀ (g g' : Console) (t : Terminal),
    Refines font mode w h W H g t → genfb_write font cs g = some ((), g') →
      ∀ c ∈ cs, c.toNat < 128 := by
  induction cs with
  | nil => exact fun g g' t _ _ c hc => absurd hc List.not_mem_nil
  | cons c cs ih =>
    intro g g' t hg hrun
    by_cases hc : c.toNat < 128
    · obtain ⟨g1, hstep, hg1⟩ := genfb_putch_refines hm hg hc
      unfold genfb_write at hrun
      rw [Prog.bind_apply hstep] at hrun
      exact List.forall_mem_cons.mpr ⟨hc, ih g1 g' _ hg1 hrun⟩
    · exfalso
      obtain ⟨_, g1, hstep, -⟩ := Prog.bind_eq_some.mp hrun
      exact genfb_putch_outside font (Nat.le_of_not_lt hc) hg.working hstep

end

/-! ## §4. From `genfb_init` on. -/

theorem holds_blank (font : Nat → Byte) {w h W H : Nat} {bytes : Nat → Byte}
    (hb : ∀ o < 4 * (H * W), bytes o = BG_BYTE_COLOR) :
    Holds W H bytes (Terminal.blank.picture font w h) := by
  intro s hs c hc k hk
  have hlt := pixel_lt hs hc
  rw [hb _ (by omega), picture_blank, byteOf_background hk]

theorem genfb_init_refines (font : Nat → Byte) (hm : Geometry mode w h W H)
    (hbpp : mode.bpp = 32) (hwidth : mode.width.tdiv char_width = w) (heap video : Nat → Byte) :
    ∃ g, genfb_init heap video (some mode) Console.reset = some ((), g)
      ∧ Refines font mode w h W H g Terminal.blank := by
  have hbytes : mode.height * mode.pitch = ((H * (4 * W) : Nat) : Int) := by
    rw [hm.height, hm.pitch]
    rfl
  have hheight : mode.height.tdiv char_height = h := by
    rw [hm.height, hm.rows]
    rfl
  have hrows : 0 < h := by
    have := hm.rows
    have := hm.tall
    omega
  have hsize : H * (4 * W) = 4 * (H * W) := Nat.mul_left_comm _ _ _
  unfold genfb_init
  simp only [hbpp, ne_eq, not_true_eq_false, if_false]
  rw [Prog.bind_apply (a := ()) rfl, Prog.bind_apply (int_apply hbytes hm.size_le _),
    Prog.bind_apply (a := ()) rfl, size_t_ofNat hm.size_le,
    Prog.bind_apply (memset_eq .back _ _ 0 _ (by simp)), Prog.bind_apply (a := ()) rfl,
    Prog.bind_apply (memset_eq .front _ _ 0 _ (by simp [Console.setBytes]))]
  refine ⟨_, rfl, ⟨rfl, rfl, hwidth, hheight, rfl, hrows, ?_, ?_⟩, rfl, hm.cols_pos⟩
  · intro p
    cases p <;> simp [Console.setBytes, hsize]
  · intro p
    refine holds_blank font fun o ho => ?_
    have hin : o < H * (4 * W) := by omega
    cases p <;> simp [Console.setBytes, hin]

end Steps

theorem genfb_init_overflow {mode : VideoMode} (hbpp : mode.bpp = 32)
    (h : INT_MAX < mode.height * mode.pitch) (heap video : Nat → Byte) (g : Console) :
    genfb_init heap video (some mode) g = none := by
  unfold genfb_init
  simp only [hbpp, ne_eq, not_true_eq_false, if_false]
  have hint : ∀ g', int (mode.height * mode.pitch) g' = none := by
    intro g'
    refine Prog.bind_none ?_
    unfold Prog.check
    rw [if_neg (by omega)]
    rfl
  rw [Prog.bind_apply (a := ()) rfl]
  exact Prog.bind_none (hint _)

theorem exists_geometry {mode : VideoMode} (hw : 8 ≤ mode.width) (hh : 16 ≤ mode.height)
    (hdvd : 4 ∣ mode.pitch) (hpitch : 4 * mode.width ≤ mode.pitch)
    (hsize : mode.height * mode.pitch ≤ INT_MAX) :
    Geometry mode (mode.width.toNat / 8) (mode.height.toNat / 16) (mode.pitch.toNat / 4)
      mode.height.toNat := by
  have hp : mode.pitch = ((4 * (mode.pitch.toNat / 4) : Nat) : Int) := by omega
  have hH : mode.height = (mode.height.toNat : Int) := by omega
  refine ⟨hp, hH, ?_, by omega, by omega, rfl, by omega⟩
  rw [hp, hH, ← Int.natCast_mul] at hsize
  exact Int.ofNat_le.mp hsize

section Modes

variable (font : Nat → Byte) (mode : VideoMode) (hw : 8 ≤ mode.width)
  (hh : 16 ≤ mode.height) (hbpp : mode.bpp = 32) (hdvd : 4 ∣ mode.pitch)
  (hpitch : 4 * mode.width ≤ mode.pitch) (heap video : Nat → Byte)

include hw hh hbpp hdvd hpitch

theorem console_blank (hsize : mode.height * mode.pitch ≤ INT_MAX) :
    ∃ g, genfb_init heap video (some mode) Console.reset = some ((), g)
      ∧ Refines font mode (mode.width.toNat / 8) (mode.height.toNat / 16) (mode.pitch.toNat / 4)
        mode.height.toNat g Terminal.blank := by
  have hcols : mode.width.tdiv char_width = ((mode.width.toNat / 8 : Nat) : Int) := by
    have he : mode.width = (mode.width.toNat : Int) := by omega
    rw [he]
    rfl
  exact genfb_init_refines font (exists_geometry hw hh hdvd hpitch hsize) hbpp hcols heap video

/-- **The console refines the scrolling terminal**, from `genfb_init` on and for
every text, on exactly the modes whose size in bytes is an `int`.  `w` columns
and `h` rows are as many as fit; nothing is asked of what is left over. -/
theorem console_shows_iff :
    (∀ cs : List Byte, (∀ c ∈ cs, Text c) →
      ∃ g, (do genfb_init heap video (some mode); genfb_write font cs) Console.reset = some ((), g)
        ∧ Displays font mode g (cs.foldl
            (Terminal.putch (mode.width.toNat / 8) (mode.height.toNat / 16)) Terminal.blank))
      ↔ mode.height * mode.pitch ≤ INT_MAX := by
  constructor
  · intro h
    by_contra hbig
    obtain ⟨g, hrun, -⟩ := h [] (fun c hc => absurd hc List.not_mem_nil)
    obtain ⟨u, g', hinit, -⟩ := Prog.bind_eq_some.mp hrun
    rw [genfb_init_overflow hbpp (by omega)] at hinit
    exact absurd hinit (by simp)
  · intro hsize cs htext
    have hm := exists_geometry hw hh hdvd hpitch hsize
    obtain ⟨g, hinit, hg⟩ := console_blank font mode hw hh hbpp hdvd hpitch heap video hsize
    obtain ⟨g', hrun, hg'⟩ := genfb_write_refines hm cs g _ hg fun c hc => (htext c hc).lt
    refine ⟨g', by rw [Prog.bind_apply hinit, hrun], ⟨hg'.col, hg'.row⟩, ?_, hg'.screen.holds⟩
    intro o ho
    refine hg'.screen.equal ?_
    have : mode.pitch.toNat = 4 * (mode.pitch.toNat / 4) := by omega
    rwa [Nat.mul_left_comm, ← this]

/-- **All accesses are in bounds**, and the cursor is on the screen before each character,
for exactly the modes whose size is an `int` and the bytes below `0x80`. -/
theorem console_inside_iff (cs : List Byte) :
    (∀ pre, pre <+: cs →
      ∃ g, (do genfb_init heap video (some mode); genfb_write font pre) Console.reset = some ((), g)
        ∧ (0 ≤ g.disp_x ∧ g.disp_x < g.disp_w) ∧ 0 ≤ g.disp_y ∧ g.disp_y < g.disp_h)
      ↔ mode.height * mode.pitch ≤ INT_MAX ∧ ∀ c ∈ cs, c.toNat < 128 := by
  constructor
  · intro h
    obtain ⟨g', hrun, -⟩ := h cs (List.prefix_refl cs)
    obtain ⟨_, g, hinit, hwrite⟩ := Prog.bind_eq_some.mp hrun
    have hsize : mode.height * mode.pitch ≤ INT_MAX := by
      by_contra hbig
      rw [genfb_init_overflow hbpp (by omega)] at hinit
      cases hinit
    obtain ⟨g1, hblank, hg⟩ := console_blank font mode hw hh hbpp hdvd hpitch heap video hsize
    obtain rfl : g = g1 := congrArg Prod.snd (Option.some.inj (hinit.symm.trans hblank))
    exact ⟨hsize, genfb_write_ascii (exists_geometry hw hh hdvd hpitch hsize) cs g g' _ hg hwrite⟩
  · rintro ⟨hsize, hascii⟩ pre hpre
    have hm := exists_geometry hw hh hdvd hpitch hsize
    obtain ⟨g, hinit, hg⟩ := console_blank font mode hw hh hbpp hdvd hpitch heap video hsize
    obtain ⟨g', hrun, hg'⟩ := genfb_write_refines hm pre g _ hg fun c hc => hascii c (hpre.subset hc)
    refine ⟨g', by rw [Prog.bind_apply hinit, hrun], ?_⟩
    rw [hg'.col, hg'.row, hg'.width, hg'.height]
    exact ⟨⟨Int.natCast_nonneg _, Int.ofNat_lt.mpr hg'.col_lt⟩, Int.natCast_nonneg _,
      Int.ofNat_lt.mpr hg'.row_lt⟩

end Modes

/-- A screen of three columns and two rows, with four scanlines below them, and two
letters, a tab and two newlines. -/
theorem console_shows_six_cells :
    ∃ g, (do genfb_init (fun _ => 0) (fun _ => 0) (some ⟨96, 24, 36, 32⟩)
             genfb_write (fun i => BitVec.ofNat 8 i) [0x41, 9, 10, 0x42, 10]) Console.reset
        = some ((), g)
      ∧ Displays (fun i => BitVec.ofNat 8 i) ⟨96, 24, 36, 32⟩ g
          ([0x41, 9, 10, 0x42, 10].foldl (Terminal.putch 3 2) Terminal.blank) :=
  (console_shows_iff (fun i => BitVec.ofNat 8 i) ⟨96, 24, 36, 32⟩ (by decide) (by decide) rfl
    (by decide) (by decide) (fun _ => 0) (fun _ => 0)).mpr (by decide) [0x41, 9, 10, 0x42, 10] (by
      unfold Text
      decide)

theorem console_inside_del :
    ∃ g, (do genfb_init (fun _ => 0) (fun _ => 0) (some ⟨32, 8, 20, 32⟩)
             genfb_write (fun _ => 0) [0, 0x7F]) Console.reset = some ((), g)
      ∧ (0 ≤ g.disp_x ∧ g.disp_x < g.disp_w) ∧ 0 ≤ g.disp_y ∧ g.disp_y < g.disp_h :=
  (console_inside_iff (fun _ => 0) ⟨32, 8, 20, 32⟩ (by decide) (by decide) rfl
    (by decide) (by decide) (fun _ => 0) (fun _ => 0) [0, 0x7F]).mpr (by decide) _
    (List.prefix_refl _)

/-- The byte `0xC3`, of UTF-8: its glyph is looked for far behind the font. -/
theorem console_font_outside :
    ∃ g, genfb_init (fun _ => 0) (fun _ => 0) (some ⟨32, 8, 20, 32⟩) Console.reset = some ((), g)
      ∧ ∀ g', genfb_putch (fun _ => 0) 0xC3 g ≠ some ((), g') := by
  obtain ⟨g, hinit, hg⟩ := console_blank (fun _ => 0) ⟨32, 8, 20, 32⟩ (by decide) (by decide) rfl
    (by decide) (by decide) (fun _ => 0) (fun _ => 0) (by decide)
  exact ⟨g, hinit, fun g' => genfb_putch_outside _ (by decide) hg.working⟩

/-- 32768 scanlines of 65536 bytes are `2^31` bytes: `genfb_init` computes the
product in `int`, where it overflows. -/
theorem console_init_overflows :
    let mode : VideoMode := ⟨65536, 8, 32768, 32⟩
    (8 ≤ mode.width ∧ 16 ≤ mode.height ∧ mode.bpp = 32 ∧ 4 ∣ mode.pitch
        ∧ 4 * mode.width ≤ mode.pitch)
      ∧ mode.height * mode.pitch = INT_MAX + 1
      ∧ ∀ heap video : Nat → Byte, genfb_init heap video (some mode) Console.reset = none :=
  ⟨by decide, by decide, fun heap video => genfb_init_overflow rfl (by decide) heap video _⟩

end Quack.Genfb
