/-
  Quack.Util.Symtab
  **THE SYMBOL TABLE: `arch_symtab_parse`, AND THE SEARCH FOR AN ADDRESS.**

  The parser takes the first symbol table and the first string table, and leaves
  a zero entry for every symbol that is no function.  The search takes the first
  symbol with the address in its range, the end included.
-/
import Quack.Util.Strings
import Mathlib.Data.Finset.Max

namespace Quack.Symtab

open Util

/-! ## §1. The code. -/

def STT_FUNC : BitVec 8 := 2

/-- The fields of `Elf64_Sym` that are read. -/
structure Sym where
  st_name : BitVec 32
  st_info : BitVec 8
  st_value : BitVec 64
  st_size : BitVec 64
  deriving Repr, DecidableEq

def Sym.isFunc (sym : Sym) : Prop := sym.st_info &&& 0xF = STT_FUNC

instance (sym : Sym) : Decidable sym.isFunc := inferInstanceAs (Decidable (_ = _))

/-- The address is in the range of the symbol. -/
def Sym.Covers (sym : Sym) (addr : BitVec 64) : Prop :=
  sym.isFunc ∧ sym.st_value.toNat ≤ addr.toNat
    ∧ addr.toNat < sym.st_value.toNat + sym.st_size.toNat

end Quack.Symtab
