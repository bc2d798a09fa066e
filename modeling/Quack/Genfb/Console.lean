/-
  Quack.Genfb.Console
  **THE FRAMEBUFFER CONSOLE (`genfb.cpp`).**

  The two pixel buffers are blocks of bytes: the one from `kmalloc` behind
  `vid_back`, and the video memory behind `vid_front`.  A pointer is a block and
  an offset; an access outside the block stops the program.

  Arithmetic on `int` stops the program when it overflows: there the language
  gives the code no meaning.  The font is a parameter, a table of 4096 bytes.
  The lock, the log and the mapping of the video memory are left out.
-/
import Quack.Lib.Prog
import Quack.Util.Strings

namespace Quack.Genfb

open Lib Util

/-! ## §1. State. -/

/-- `arch_video_mode_t`, the fields that are read; its `addr` is `Block.front`. -/
structure VideoMode where
  pitch : Int
  width : Int
  height : Int
  bpp : Int
  deriving Repr, DecidableEq

/-- The block behind `vid_back`, and the one behind `vid_front`. -/
inductive Block where
  | back
  | front
  deriving Repr, DecidableEq

/-- A block of bytes. -/
structure Buffer where
  size : Nat
  bytes : Nat → Byte

/-- The static variables of `genfb.cpp`, with the two blocks.  A block has size
0 as long as its pointer is `NULL`. -/
structure Console where
  mode_info : Option VideoMode
  mem : Block → Buffer
  disp_w : Int
  disp_h : Int
  disp_x : Int
  disp_y : Int
  is_working : Bool

/-- The variables at the start of the kernel. -/
def Console.reset : Console where
  mode_info := none
  mem _ := ⟨0, fun _ => 0⟩
  disp_w := 0
  disp_h := 0
  disp_x := 0
  disp_y := 0
  is_working := false

def char_width : Int := 8
def char_height : Int := 16

def BG_BYTE_COLOR : Byte := 0xF8
def BG_COLOR : BitVec 32 := 0xF8F8F8F8
def FG_COLOR : BitVec 32 := 0x38383838

/-! ## §2. Integers and memory. -/

def INT_MAX : Int := 0x7FFFFFFF

/-- The result of an operation on `int`. -/
def int (z : Int) : Prog Console Int := do
  Prog.check (-INT_MAX - 1 ≤ z ∧ z ≤ INT_MAX)
  pure z

/-- An `int` as a `size_t`. -/
def size_t (z : Int) : Nat := (z % 0x10000000000000000).toNat

/-- Write the byte at `off`. -/
def store (p : Block) (off : Nat) (v : Byte) : Prog Console Unit := do
  let g ← Prog.read id
  Prog.check (off < (g.mem p).size)
  Prog.update fun g => { g with
    mem := Function.update g.mem p { g.mem p with bytes := Function.update (g.mem p).bytes off v } }

/-- Read the byte at `off`. -/
def load (p : Block) (off : Nat) : Prog Console Byte := do
  let g ← Prog.read id
  Prog.check (off < (g.mem p).size)
  pure ((g.mem p).bytes off)

/-- `memset`; `arch_mem_fast_memset` (`rep stosb`) does the same. -/
def memset (p : Block) (off : Nat) (val : Byte) : (len : Nat) → Prog Console Unit
  | 0 => pure ()
  | len + 1 => do
    store p off val
    memset p (off + 1) val len

def memcpy (dest : Block) (d : Nat) (src : Block) (s : Nat) : (len : Nat) → Prog Console Unit
  | 0 => pure ()
  | len + 1 => do
    let v ← load src s
    store dest d v
    memcpy dest (d + 1) src (s + 1) len

/-- Byte `k` of a 32-bit word. -/
def byteOf (col : BitVec 32) (k : Nat) : Byte := (col >>> (8 * k)).truncate 8

/-- `vid[off] = col`, four bytes. -/
def store32 (p : Block) (off : Nat) (col : BitVec 32) : Prog Console Unit := do
  store p (4 * off) (byteOf col 0)
  store p (4 * off + 1) (byteOf col 1)
  store p (4 * off + 2) (byteOf col 2)
  store p (4 * off + 3) (byteOf col 3)

/-! ## §3. `genfb.cpp`. -/

def genfb_init (heap video : Nat → Byte) (mode : Option VideoMode) : Prog Console Unit :=
  match mode with
  | none => pure ()
  | some mode =>
    if mode.bpp ≠ 32 then pure ()
    else do
      -- the variables are set before the size is computed
      Prog.update fun g => { g with
        mode_info := some mode
        disp_w := mode.width.tdiv char_width
        disp_h := mode.height.tdiv char_height }
      let bytes ← int (mode.height * mode.pitch)
      Prog.update fun g => { g with
        mem := Function.update g.mem .back ⟨size_t bytes, heap⟩ }
      memset .back 0 BG_BYTE_COLOR (size_t bytes)
      Prog.update fun g => { g with
        mem := Function.update g.mem .front ⟨size_t bytes, video⟩ }
      memset .front 0 BG_BYTE_COLOR (size_t bytes)
      Prog.update fun g => { g with is_working := true }

/-- `mode_info->`. -/
def mode_info : Prog Console VideoMode := do
  let g ← Prog.read id
  Prog.ofOption g.mode_info

section Font

variable (font : Nat → Byte)

/-- `font[i]`. -/
def font_byte (i : Nat) : Prog Console Byte := do
  Prog.check (i < 4096)
  pure (font i)

/-- The colour of column `x` of a row of a glyph. -/
def pixel (byte : Byte) (fg bg : BitVec 32) (x : Nat) : BitVec 32 :=
  if byte &&& 1#8 <<< (7 - x) = 0 then bg else fg

/-- The inner loop of `genfb_putch_internal`, from column `x` on for `n`. -/
def putch_cols (byte : Byte) (fg bg : BitVec 32) : (x n tmp_fb_off : Nat) → Prog Console Unit
  | _, 0, _ => pure ()
  | x, n + 1, tmp_fb_off => do
    store32 .front tmp_fb_off (pixel byte fg bg x)
    store32 .back tmp_fb_off (pixel byte fg bg x)
    putch_cols byte fg bg (x + 1) n (tmp_fb_off + 1)

/-- The outer loop, from row `y` on for `n`. -/
def putch_rows (font_off : Nat) (pitch : Int) (fg bg : BitVec 32) :
    (y n fb_off : Nat) → Prog Console Unit
  | _, 0, _ => pure ()
  | y, n + 1, fb_off => do
    let byte ← font_byte font (font_off + y)
    putch_cols byte fg bg 0 char_width.toNat fb_off
    putch_rows font_off pitch fg bg (y + 1) n (fb_off + size_t (pitch.tdiv 4))

def genfb_putch_internal (c : Byte) (x y : Int) (fg bg : BitVec 32) : Prog Console Unit := do
  -- `char` is signed, and `size_t` is not
  let font_off := size_t (c.toInt * char_height * char_width) / 8
  let mode ← mode_info
  let dx ← int (x * 4)
  let dy ← int (y * mode.pitch)
  let off ← int (dx + dy)
  putch_rows font font_off mode.pitch fg bg 0 char_height.toNat (size_t (off.tdiv 4))

end Font

def genfb_scroll_up : Prog Console Unit := do
  let mode ← mode_info
  let skip ← int (mode.pitch * char_height)
  let rows ← int (mode.height - char_height)
  let len ← int (mode.pitch * rows)
  -- the two ranges overlap
  memcpy .back 0 .back (size_t skip) (size_t len)
  let last ← int (rows * mode.pitch)
  let row ← int (char_height * mode.pitch)
  memset .back (size_t last) BG_BYTE_COLOR (size_t row)
  let bytes ← int (mode.height * mode.pitch)
  memcpy .front 0 .back 0 (size_t bytes)

/-- The cursor goes to the start of the next line. -/
def new_line : Prog Console Unit := do
  let g ← Prog.read id
  let disp_y ← int (g.disp_y + 1)
  Prog.update fun g => { g with disp_x := 0, disp_y }
  if disp_y ≥ g.disp_h then
    genfb_scroll_up
    let last ← int (g.disp_h - 1)
    Prog.update fun g => { g with disp_y := last }

/-- `scroll_screen:`, after the cursor has moved to column `x`. -/
def scroll_screen (x : Int) : Prog Console Unit := do
  let disp_x ← int x
  Prog.update fun g => { g with disp_x }
  let g ← Prog.read id
  if disp_x ≥ g.disp_w then new_line

def genfb_putch (font : Nat → Byte) (c : Byte) : Prog Console Unit := do
  let g ← Prog.read id
  if !g.is_working then pure ()
  else if c = ascii '\n' then new_line
  else if c = ascii '\t' then scroll_screen (g.disp_x + 8)
  else do
    let x ← int (g.disp_x * char_width)
    let y ← int (g.disp_y * char_height)
    genfb_putch_internal font c x y FG_COLOR BG_COLOR
    scroll_screen (g.disp_x + 1)

/-- A sequence of characters. -/
def genfb_write (font : Nat → Byte) : List Byte → Prog Console Unit
  | [] => pure ()
  | c :: cs => do
    genfb_putch font c
    genfb_write font cs

end Quack.Genfb
