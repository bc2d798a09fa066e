/-
  Quack.Loader.Elf64
  **THE LOADER OF ELF64 FILES.**

  `elf64_load` checks the header and then, for each `PT_LOAD` segment in the order
  of the program headers, asks for the pages (`allocate_at`) and copies the bytes
  of the file to them (`load`).  It looks at the result of neither.

  A file is the memory from `file` on: nothing in the loader knows where it ends.
-/
import Quack.Sys.System

namespace Quack.Loader

open Lib Mm Arch

/-! ## §1. Reading the file. -/

/-- The bytes from `file` on. -/
abbrev ElfFile := U64 → BitVec 8

def ElfFile.u16 (file : ElfFile) (off : U64) : BitVec 16 := file (off + 1) ++ file off

def ElfFile.u32 (file : ElfFile) (off : U64) : BitVec 32 := file.u16 (off + 2) ++ file.u16 off

def ElfFile.u64 (file : ElfFile) (off : U64) : U64 := file.u32 (off + 4) ++ file.u32 off

/-- The `size` bytes at `off`. -/
def ElfFile.bytes (file : ElfFile) (off size : U64) : List (BitVec 8) :=
  (List.range size.toNat).map fun i => file (off + BitVec.ofNat 64 i)

/-! ## §2. The header. -/

def ELF_IDENT_CLASS : U64 := 4
def ELF_IDENT_DATA : U64 := 5
def ELF_MAGIC : List (BitVec 8) := [0x7F, 0x45, 0x4C, 0x46]
def ELF_CLASS_64 : BitVec 8 := 2
def ELF_DATA_LSB : BitVec 8 := 1
def ELF_TYPE_EXEC : BitVec 16 := 2
def ELF_VER_CURRENT : BitVec 32 := 1
def ELF_PHDR_FLAG_R : BitVec 32 := 4
def vm_perm_read : BitVec 32 := 1
def vm_cache_wb : BitVec 32 := 0

/-- `elf64_ehdr`, as far as it is read. -/
structure Elf64Ehdr where
  e_ident : U64 → BitVec 8
  e_type : BitVec 16
  e_version : BitVec 32
  e_entry : U64
  e_phoff : U64
  e_phnum : BitVec 16

def ElfFile.ehdr (file : ElfFile) : Elf64Ehdr where
  e_ident := file
  e_type := file.u16 16
  e_version := file.u32 20
  e_entry := file.u64 24
  e_phoff := file.u64 32
  e_phnum := file.u16 56

/-- The loop of `strncmp`, which has `n` more characters to skip. -/
def strncmpFrom (str1 : U64 → BitVec 8) (str2 : List (BitVec 8)) : Nat → U64 → Int
  | 0, i => (str1 i).toInt - (str2.getD i.toNat 0).toInt
  | n + 1, i =>
    if str1 i = str2.getD i.toNat 0 then strncmpFrom str1 str2 n (i + 1)
    else (str1 i).toInt - (str2.getD i.toNat 0).toInt

def strncmp (str1 : U64 → BitVec 8) (str2 : List (BitVec 8)) (len : U64) : Int :=
  strncmpFrom str1 str2 (len - 1).toNat 0

def elf64_check (ehdr : Elf64Ehdr) : Bool :=
  if strncmp ehdr.e_ident ELF_MAGIC 4 ≠ 0 then false
  else if ehdr.e_ident ELF_IDENT_CLASS ≠ ELF_CLASS_64 then false
  else if ehdr.e_ident ELF_IDENT_DATA ≠ ELF_DATA_LSB then false
  else if ehdr.e_version ≠ ELF_VER_CURRENT then false
  else if ehdr.e_type ≠ ELF_TYPE_EXEC then false
  else true

/-! ## §3. The segments. -/

/-- `elf64_phdr`, as far as the loader reads it. -/
structure Phdr extends Elf64Phdr where
  p_offset : U64
  p_filesz : U64
  deriving Repr, DecidableEq

def ElfFile.phdr (file : ElfFile) (off : U64) : Phdr where
  p_type := file.u32 off
  p_flags := file.u32 (off + 4)
  p_offset := file.u64 (off + 8)
  p_vaddr := file.u64 (off + 16)
  p_paddr := file.u64 (off + 24)
  p_filesz := file.u64 (off + 32)
  p_memsz := file.u64 (off + 40)

/-- `phdrs[0]`, …, `phdrs[e_phnum - 1]`; an entry has 56 bytes. -/
def ElfFile.phdrs (file : ElfFile) : List Phdr :=
  (List.range file.ehdr.e_phnum.toNat).map fun i =>
    file.phdr (file.ehdr.e_phoff + BitVec.ofNat 64 (56 * i))

/-- The permissions asked for. -/
def Phdr.perms (phdr : Phdr) : BitVec 32 :=
  let flags := vm_perm_user
  let flags := if phdr.p_flags &&& ELF_PHDR_FLAG_X ≠ 0 then flags ||| vm_perm_execute else flags
  let flags := if phdr.p_flags &&& ELF_PHDR_FLAG_R ≠ 0 then flags ||| vm_perm_read else flags
  if phdr.p_flags &&& ELF_PHDR_FLAG_W ≠ 0 then flags ||| vm_perm_write else flags

def Phdr.n_pages (phdr : Phdr) : U64 := (phdr.p_memsz + vm_page_size - 1) / vm_page_size

/-- The body of the loop. -/
def load_segment (kernel : Option (List Elf64Phdr)) (file : ElfFile) (phdr : Phdr)
    (as : AddressSpace) : Prog Machine AddressSpace :=
  if phdr.p_type ≠ ELF_PHDR_TYPE_LOAD then pure as
  else do
    let (_, as) ← as.allocate_at (x86Mm kernel) phdr.p_vaddr phdr.n_pages phdr.perms vm_cache_wb
    as.load (x86Mm kernel) phdr.p_vaddr (file.bytes phdr.p_offset phdr.p_filesz)

def load_segments (kernel : Option (List Elf64Phdr)) (file : ElfFile) :
    List Phdr → AddressSpace → Prog Machine AddressSpace
  | [], as => pure as
  | phdr :: phdrs, as => do
    let as ← load_segment kernel file phdr as
    load_segments kernel file phdrs as

/-- The fields of `thread` that the loader uses. -/
structure Thread where
  addr_space : AddressSpace
  ip : U64

def elf64_load (kernel : Option (List Elf64Phdr)) (file : ElfFile) (t : Thread) :
    Prog Machine (Bool × Thread) :=
  if elf64_check file.ehdr = false then pure (false, t)
  else do
    let as ← load_segments kernel file file.phdrs t.addr_space
    pure (true, { addr_space := as, ip := file.ehdr.e_entry })

/-- The `PT_LOAD` segments, in the order of the headers. -/
def ElfFile.segments (file : ElfFile) : List Phdr :=
  file.phdrs.filter fun phdr => phdr.p_type = ELF_PHDR_TYPE_LOAD

theorem load_segments_filter (kernel : Option (List Elf64Phdr)) (file : ElfFile) :
    ∀ phdrs as,
      load_segments kernel file phdrs as
        = load_segments kernel file
            (phdrs.filter fun phdr => phdr.p_type = ELF_PHDR_TYPE_LOAD) as := by
  intro phdrs
  induction phdrs with
  | nil => exact fun as => rfl
  | cons phdr phdrs ih =>
    intro as
    by_cases ht : phdr.p_type = ELF_PHDR_TYPE_LOAD
    · rw [List.filter_cons_of_pos (by simpa using ht)]
      unfold load_segments
      congr 1
      exact funext ih
    · rw [List.filter_cons_of_neg (by simpa using ht), ← ih]
      show load_segment kernel file phdr as >>= load_segments kernel file phdrs = _
      unfold load_segment
      rw [if_pos ht]
      rfl

theorem elf64_load_accepted (kernel : Option (List Elf64Phdr)) {file : ElfFile} (t : Thread)
    (h : elf64_check file.ehdr = true) :
    elf64_load kernel file t = load_segments kernel file file.segments t.addr_space >>= fun as =>
      pure (true, { addr_space := as, ip := file.ehdr.e_entry }) := by
  unfold elf64_load
  rw [if_neg (by simp [h]), load_segments_filter]
  rfl

end Quack.Loader
