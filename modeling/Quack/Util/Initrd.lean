/-
  Quack.Util.Initrd
  **`initrd_read_file`: LOOKUP IN A USTAR ARCHIVE.**

  The archive is a row of 512-byte blocks in memory: a header per entry, then
  its data rounded up to whole blocks.  The lookup walks the headers; where the
  next one stands follows from the octal size field of the last.
-/
import Quack.Util.Strings
import Quack.Lib.Fueled
import Mathlib.Data.Nat.ModEq
import Mathlib.Data.List.Induction

namespace Quack.Initrd

open Util Lib Lib.Traced

/-- Memory, by address. -/
abbrev Memory := BitVec 64 → Byte

/-! ## §1. The library functions it calls. -/

/-- `strlen`. -/
def strlen (mem : Memory) : (fuel : Nat) → BitVec 64 → Traced (BitVec 64) Unit Nat
  | 0, _ => stop
  | fuel + 1, s => do
    let c ← fetch mem s
    if c = 0 then pure 0
    else do
      let len ← strlen mem fuel (s + 1)
      pure (len + 1)

/-- `strcmp` of the string at `str1` with a C string. -/
def strcmp (mem : Memory) : (str1 : BitVec 64) → (str2 : List Byte) → Int
  | str1, [] => (mem str1).toInt
  | str1, c :: str2 =>
    if mem str1 ≠ 0 ∧ mem str1 = c then strcmp mem (str1 + 1) str2
    else (mem str1).toInt - c.toInt

/-- `memcmp` of the bytes at `m1` with constant ones. -/
def memcmp (mem : Memory) : (m1 : BitVec 64) → (m2 : List Byte) → Int
  | _, [] => 0
  | m1, c :: m2 =>
    if c < mem m1 then 1 else if mem m1 < c then -1 else memcmp mem (m1 + 1) m2

/-- `memcpy`. -/
def memcpy (mem : Memory) (dest src : BitVec 64) (len : Nat) : Memory :=
  (List.range len).foldl
    (fun mem i => Function.update mem (dest + BitVec.ofNat 64 i) (mem (src + BitVec.ofNat 64 i))) mem

/-! ## §2. `initrd.cpp`. -/

def USTAR_BLOCK_SIZE : BitVec 64 := 512

/-- The loop of `oct_to_dec`, from index `i` down to 1. -/
def oct_digits (mem : Memory) (string : BitVec 64) :
    (i : Nat) → (integer multiplier : BitVec 64) → Traced (BitVec 64) Unit (BitVec 64)
  | 0, integer, _ => pure integer
  | i + 1, integer, multiplier => do
    let c ← fetch mem (string + BitVec.ofNat 64 (i + 1))
    if ascii '0' ≤ c ∧ c ≤ ascii '7' then
      oct_digits mem string i (integer + (c.setWidth 64 - 48) * multiplier) (multiplier * 8)
    else pure integer

/-- `oct_to_dec`, with the addresses it reads. -/
def oct_to_dec_traced (mem : Memory) (fuel : Nat) (string : BitVec 64) :
    Traced (BitVec 64) Unit (BitVec 64) := do
  let len ← strlen mem fuel string
  oct_digits mem string (BitVec.ofNat 64 len - 1).toNat 0 1

/-- `oct_to_dec`. -/
def oct_to_dec (mem : Memory) (fuel : Nat) (string : BitVec 64) : Option (BitVec 64) :=
  (oct_to_dec_traced mem fuel string ()).2.map Prod.fst

/-- The addresses that `oct_to_dec` reads, first those of `strlen`. -/
def oct_to_dec_reads (mem : Memory) (fuel : Nat) (string : BitVec 64) : Option (List (BitVec 64)) :=
  (oct_to_dec_traced mem fuel string ()).2.map fun _ => (oct_to_dec_traced mem fuel string ()).1

/-- The header fields that are read, by their offset in `ustar_entry_t`. -/
def NAME : BitVec 64 := 0
def SIZE : BitVec 64 := 124
def SIGNATURE : BitVec 64 := 257

def ustar : List Byte := bytes ['u', 's', 't', 'a', 'r']

def find_entry (mem : Memory) (initrd_buf initrd_size : BitVec 64) (path : List Byte) :
    (fuel : Nat) → (block : BitVec 64) → Option (Option (BitVec 64))
  | 0, _ => none
  | fuel + 1, block =>
    let entry := initrd_buf + block * USTAR_BLOCK_SIZE
    if initrd_buf + initrd_size < entry then some none
    else if memcmp mem (entry + SIGNATURE) ustar ≠ 0 then some none
    else if strcmp mem (entry + NAME) path = 0 then some (some block)
    else
      (oct_to_dec mem fuel (entry + SIZE)).bind fun file_size =>
        find_entry mem initrd_buf initrd_size path fuel
          (block + (file_size + USTAR_BLOCK_SIZE - 1) / USTAR_BLOCK_SIZE + 1)

/-- What `initrd_read_file` leaves behind: its return value, the pointer
stored in `*dst` (`none`: untouched) and the memory. -/
structure ReadResult where
  size : BitVec 64
  dst : Option (BitVec 64)
  mem : Memory

def initrd_read_file (kmalloc : BitVec 64 → BitVec 64) (initrd_buf initrd_size : BitVec 64)
    (fuel : Nat) (mem : Memory) (path : List Byte) : Option ReadResult :=
  (find_entry mem initrd_buf initrd_size path fuel 0).bind fun
    | none => some ⟨0, none, mem⟩
    | some off =>
      let entry := initrd_buf + off * USTAR_BLOCK_SIZE
      (oct_to_dec mem fuel (entry + SIZE)).map fun file_size =>
        let data := initrd_buf + (off + 1) * USTAR_BLOCK_SIZE
        ⟨file_size, some (kmalloc file_size),
          memcpy mem (kmalloc file_size) data file_size.toNat⟩

/-! ## §3. The format. -/

/-- The `n` bytes at `p`. -/
def readBytes (mem : Memory) : BitVec 64 → Nat → List Byte
  | _, 0 => []
  | p, n + 1 => mem p :: readBytes mem (p + 1) n

/-- An entry: name and data, within the limits of the header fields. -/
structure Entry where
  name : List Byte
  data : List Byte
  name_length : name.length ≤ 99
  name_nul : 0 ∉ name
  size_lt : data.length < 8 ^ 10

/-- The blocks the data takes. -/
def Entry.blocks (e : Entry) : Nat := (e.data.length + 511) / 512

/-- A size in eleven octal digits. -/
def octal11 (n : Nat) : List Byte :=
  (List.range 11).map fun i => BitVec.ofNat 8 (48 + n / 8 ^ (10 - i) % 8)

/-- A header at `p` for the entry, and its data in the blocks behind it. -/
structure EntryAt (mem : Memory) (p : BitVec 64) (e : Entry) : Prop where
  name : readBytes mem (p + NAME) (e.name.length + 1) = e.name ++ [0]
  size : readBytes mem (p + SIZE) 12 = octal11 e.data.length ++ [0]
  signature : readBytes mem (p + SIGNATURE) 5 = ustar
  data : readBytes mem (p + 512) e.data.length = e.data

/-- Entries one after the other, up to a block without the signature. -/
def ArchiveAt (mem : Memory) : BitVec 64 → List Entry → Prop
  | p, [] => readBytes mem (p + SIGNATURE) 5 ≠ ustar
  | p, e :: entries => EntryAt mem p e
      ∧ ArchiveAt mem (p + BitVec.ofNat 64 (512 * (e.blocks + 1))) entries

/-- The bytes of the archive, the last block included. -/
def archiveSize : List Entry → Nat
  | [] => 512
  | e :: entries => 512 * (e.blocks + 1) + archiveSize entries

/-- **A well-formed archive, wholly inside the `initrd_size` bytes at
`initrd_buf`.** -/
structure Archive (mem : Memory) (initrd_buf initrd_size : BitVec 64) (entries : List Entry) :
    Prop where
  layout : ArchiveAt mem initrd_buf entries
  inside : archiveSize entries ≤ initrd_size.toNat
  addressable : initrd_buf.toNat + initrd_size.toNat < 2 ^ 64

def HeapApart (kmalloc : BitVec 64 → BitVec 64) (initrd_buf initrd_size : BitVec 64)
    (entries : List Entry) : Prop :=
  ∀ e ∈ entries, ∀ i < e.data.length, ∀ j < initrd_size.toNat,
    kmalloc (BitVec.ofNat 64 e.data.length) + BitVec.ofNat 64 i
      ≠ initrd_buf + BitVec.ofNat 64 j

instance (mem : Memory) (p : BitVec 64) (e : Entry) : Decidable (EntryAt mem p e) :=
  decidable_of_iff
    (readBytes mem (p + NAME) (e.name.length + 1) = e.name ++ [0]
      ∧ readBytes mem (p + SIZE) 12 = octal11 e.data.length ++ [0]
      ∧ readBytes mem (p + SIGNATURE) 5 = ustar
      ∧ readBytes mem (p + 512) e.data.length = e.data)
    ⟨fun h => ⟨h.1, h.2.1, h.2.2.1, h.2.2.2⟩, fun h => ⟨h.name, h.size, h.signature, h.data⟩⟩

instance ArchiveAt.decidable (mem : Memory) :
    (p : BitVec 64) → (entries : List Entry) → Decidable (ArchiveAt mem p entries)
  | p, [] => inferInstanceAs (Decidable (readBytes mem (p + SIGNATURE) 5 ≠ ustar))
  | p, e :: entries =>
    have := ArchiveAt.decidable mem (p + BitVec.ofNat 64 (512 * (e.blocks + 1))) entries
    inferInstanceAs (Decidable (EntryAt mem p e ∧ _))

/-! ## §4. Bytes, strings and signatures. -/

theorem readBytes_length (mem : Memory) (n : Nat) :
    ∀ p, (readBytes mem p n).length = n := by
  induction n with
  | zero => intro p; rfl
  | succ n ih => intro p; rw [readBytes, List.length_cons, ih]

theorem readBytes_get (mem : Memory) (n : Nat) (p : BitVec 64) (i : Nat) (hi : i < n) :
    (readBytes mem p n)[i]? = some (mem (p + BitVec.ofNat 64 i)) := by
  induction n generalizing p i with
  | zero => exact absurd hi (Nat.not_lt_zero i)
  | succ n ih =>
    rw [readBytes]
    cases i with
    | zero => simp
    | succ i =>
      rw [List.getElem?_cons_succ, ih (p + 1) i (Nat.lt_of_succ_lt_succ hi),
        BitVec.add_assoc, BitVec.add_comm 1, BitVec.ofNat_add]
      rfl

variable {i n : Nat} {mem : Memory} {p initrd_buf : BitVec 64}

theorem readBytes_at {l : List Byte}
    (h : readBytes mem p n = l) {c : Byte} (hi : l[i]? = some c) :
    mem (p + BitVec.ofNat 64 i) = c := by
  have hlt : i < n := by
    have := (List.getElem?_eq_some_iff.mp hi).1
    rwa [← h, readBytes_length] at this
  have hget := readBytes_get mem n p i hlt
  rw [h, hi] at hget
  injection hget with hget
  exact hget.symm

theorem readBytes_eq {l : List Byte}
    (h : ∀ i c, l[i]? = some c → mem (p + BitVec.ofNat 64 i) = c) :
    readBytes mem p l.length = l := by
  refine List.ext_getElem? fun i => ?_
  by_cases hi : i < l.length
  · rw [readBytes_get mem l.length p i hi, h i l[i] (List.getElem?_eq_getElem hi),
      List.getElem?_eq_getElem hi]
  · rw [List.getElem?_eq_none (by rw [readBytes_length]; omega), List.getElem?_eq_none (by omega)]

theorem memcmp_eq_zero_iff (mem : Memory) (m2 : List Byte) :
    ∀ m1, memcmp mem m1 m2 = 0 ↔ readBytes mem m1 m2.length = m2 := by
  induction m2 with
  | nil => intro m1; exact ⟨fun _ => rfl, fun _ => rfl⟩
  | cons c m2 ih =>
    intro m1
    rw [memcmp, List.length_cons, readBytes, List.cons.injEq]
    by_cases hc : mem m1 = c
    · rw [if_neg (by rw [hc]; exact BitVec.lt_irrefl c),
        if_neg (by rw [hc]; exact BitVec.lt_irrefl c), ih]
      exact ⟨fun h => ⟨hc, h⟩, And.right⟩
    · refine ⟨fun h => ?_, fun h => absurd h.1 hc⟩
      split at h
      · cases h
      · split at h
        · cases h
        · next hlt hgt =>
            exact absurd (BitVec.le_antisymm (BitVec.not_lt.mp hlt) (BitVec.not_lt.mp hgt)) hc

theorem strcmp_eq (mem : Memory) (path : List Byte) (p : BitVec 64) (name : List Byte)
    (hname : 0 ∉ name) (hread : readBytes mem p (name.length + 1) = name ++ [0]) :
    strcmp mem p path = Util.strcmp name path := by
  induction path generalizing p name with
  | nil => cases name <;> simp [strcmp, Util.strcmp, (List.cons.inj hread).1]
  | cons c path ih =>
    cases name with
    | nil => simp [strcmp, Util.strcmp, (List.cons.inj hread).1]
    | cons a name =>
      obtain ⟨ha, hrest⟩ := List.cons.inj hread
      obtain ⟨hne, hname⟩ := List.ne_and_not_mem_of_not_mem_cons hname
      simp only [strcmp, Util.strcmp, ha, ne_eq, hne.symm, not_false_eq_true, true_and,
        ih (p + 1) name hname hrest]

/-! ## §5. The size field. -/

/-- The bytes at `p`, up to number `n`. -/
def UpTo (p : BitVec 64) (n : Nat) (a : BitVec 64) : Prop := ∃ i ≤ n, a = p + BitVec.ofNat 64 i

theorem UpTo.start (p : BitVec 64) (n : Nat) : UpTo p n p :=
  ⟨0, Nat.zero_le n, (BitVec.add_zero p).symm⟩

theorem UpTo.succ {a : BitVec 64} (h : UpTo (p + 1) n a) : UpTo p (n + 1) a := by
  obtain ⟨i, hi, rfl⟩ := h
  refine ⟨i + 1, Nat.succ_le_succ hi, ?_⟩
  rw [BitVec.ofNat_add, BitVec.add_comm (BitVec.ofNat 64 i), ← BitVec.add_assoc]
  rfl

theorem strlen_eq (mem : Memory) (l : List Byte) (fuel : Nat) (p : BitVec 64) (hnul : 0 ∉ l)
    (hread : readBytes mem p (l.length + 1) = l ++ [0]) (hfuel : l.length < fuel) :
    (strlen mem fuel p ()).2 = some (l.length, ())
      ∧ Within (UpTo p l.length) (strlen mem fuel p) () := by
  induction l generalizing fuel p with
  | nil =>
    cases fuel with
    | zero => exact absurd hfuel (Nat.not_lt_zero _)
    | succ fuel =>
      have hstep : strlen mem (fuel + 1) p () = ([p], some (0, ())) := by
        rw [strlen, fetch_bind, if_pos (List.cons.inj hread).1]
        rfl
      refine ⟨congrArg Prod.snd hstep, fun a ha => ?_⟩
      rw [hstep] at ha
      exact List.mem_singleton.mp ha ▸ UpTo.start p 0
  | cons c l ih =>
    obtain ⟨hc, hrest⟩ := List.cons.inj hread
    cases fuel with
    | zero => exact absurd hfuel (Nat.not_lt_zero _)
    | succ fuel =>
      have hne : mem p ≠ 0 := by
        rw [hc]
        exact fun h => hnul (h ▸ List.mem_cons_self)
      obtain ⟨hlen, hin⟩ := ih fuel (p + 1) (fun h => hnul (List.mem_cons_of_mem c h)) hrest
        (Nat.lt_of_succ_lt_succ hfuel)
      have hstep : strlen mem (fuel + 1) p ()
          = (p :: ((strlen mem fuel (p + 1) ()).1 ++ []), some (l.length + 1, ())) := by
        rw [strlen, fetch_bind, if_neg hne, bind_of_some hlen]
        rfl
      refine ⟨congrArg Prod.snd hstep, fun a ha => ?_⟩
      rw [hstep, List.append_nil] at ha
      rcases List.mem_cons.mp ha with rfl | ha
      · exact UpTo.start _ _
      · exact (hin a ha).succ

def OctalDigit (c : Byte) : Prop := ascii '0' ≤ c ∧ c ≤ ascii '7'

/-- The value of octal digits. -/
def octValue (s : List Byte) : Nat := s.foldl (fun v c => 8 * v + (c.toNat - 48)) 0

theorem octValue_concat (s : List Byte) (c : Byte) :
    octValue (s ++ [c]) = 8 * octValue s + (c.toNat - 48) := by
  simp [octValue]

theorem OctalDigit.toNat {c : Byte} (h : OctalDigit c) :
    48 ≤ c.toNat ∧ c.toNat ≤ 55 ∧ c.setWidth 64 - 48 = BitVec.ofNat 64 (c.toNat - 48) := by
  have hall : ∀ c : Byte, ascii '0' ≤ c ∧ c ≤ ascii '7' →
      48 ≤ c.toNat ∧ c.toNat ≤ 55 ∧ c.setWidth 64 - 48 = BitVec.ofNat 64 (c.toNat - 48) := by
    decide
  exact hall c h

variable {s : List Byte} {fuel : Nat}

theorem oct_digits_eq (h : readBytes mem p (s.length + 1) = s ++ [0])
    (hs : ∀ c ∈ s, OctalDigit c) (j : Nat) (hj : j < s.length) (integer multiplier : BitVec 64) :
    (oct_digits mem p j integer multiplier ()).2
      = some (integer + BitVec.ofNat 64 (octValue (s.take (j + 1)).tail) * multiplier, ()) := by
  induction j generalizing integer multiplier with
  | zero => cases s <;> simp [oct_digits, octValue, pure_apply]
  | succ j ih =>
    have hget : (s ++ [0])[j + 1]? = some s[j + 1] := by
      rw [List.getElem?_append_left hj, List.getElem?_eq_getElem hj]
    have hdigit := hs s[j + 1] (List.getElem_mem hj)
    have htail : (s.take (j + 1 + 1)).tail = (s.take (j + 1)).tail ++ [s[j + 1]] := by
      rw [List.take_succ_eq_append_getElem hj, List.tail_append_of_ne_nil]
      exact List.ne_nil_of_length_pos (by rw [List.length_take]; omega)
    rw [oct_digits, fetch_bind, readBytes_at h hget, if_pos (show _ ∧ _ from hdigit),
      ih (by omega), htail, octValue_concat, hdigit.toNat.2.2, BitVec.ofNat_add, BitVec.ofNat_mul]
    congr 2
    grind

theorem oct_to_dec_tail (h : readBytes mem p (s.length + 1) = s ++ [0])
    (hs : ∀ c ∈ s, OctalDigit c) (hpos : 0 < s.length) (hlen : s.length < 2 ^ 64)
    (hfuel : s.length < fuel) : oct_to_dec mem fuel p = some (BitVec.ofNat 64 (octValue s.tail)) := by
  have hnul : 0 ∉ s := fun h0 => absurd (hs 0 h0) (by unfold OctalDigit; decide)
  have hlast : (BitVec.ofNat 64 s.length - 1).toNat = s.length - 1 := by
    rw [BitVec.toNat_sub, BitVec.toNat_ofNat, show (1 : BitVec 64).toNat = 1 from rfl]
    omega
  rw [oct_to_dec, oct_to_dec_traced, bind_of_some (strlen_eq mem s fuel p hnul h hfuel).1, hlast,
    oct_digits_eq h hs _ (by omega), Nat.sub_add_cancel hpos, List.take_length]
  simp

theorem octal11_digits (n : Nat) : ∀ c ∈ octal11 n, OctalDigit c := by
  have hall : ∀ d : Fin 8, OctalDigit (BitVec.ofNat 8 (48 + d.val)) := by
    unfold OctalDigit
    decide
  intro c hc
  obtain ⟨i, -, rfl⟩ := List.mem_map.mp hc
  exact hall ⟨_, Nat.mod_lt _ (by decide)⟩

theorem oct_to_dec_eq (h : readBytes mem p 12 = octal11 n ++ [0]) (hn : n < 8 ^ 10)
    (hfuel : 11 < fuel) : oct_to_dec mem fuel p = some (BitVec.ofNat 64 n) := by
  have hdigit : ∀ x, (48 + x % 8) % 256 - 48 = x % 8 := fun x => by omega
  have hvalue : octValue (octal11 n).tail = n := by
    simp only [octValue, octal11, List.range_eq_range', List.map_cons, List.tail_cons, List.range'_succ,
      List.foldl_cons, BitVec.toNat_ofNat, Nat.reducePow, hdigit]
    simp
    omega
  have htail := oct_to_dec_tail (s := octal11 n) h (octal11_digits n) (by simp [octal11])
    (by simp [octal11]) (by simpa [octal11] using hfuel)
  rw [htail, hvalue]

theorem octValue_cons (c : Byte) (s : List Byte) :
    octValue (c :: s) = (c.toNat - 48) * 8 ^ s.length + octValue s := by
  induction s using List.reverseRecOn with
  | nil => simp [octValue]
  | append_singleton s d ih =>
    rw [← List.cons_append, octValue_concat, octValue_concat, ih, List.length_append,
      List.length_singleton, Nat.pow_succ]
    grind

theorem octValue_lt (hs : ∀ c ∈ s, OctalDigit c) : octValue s < 8 ^ s.length := by
  induction s with
  | nil => exact Nat.one_pos
  | cons c s ih =>
    obtain ⟨hc, hs⟩ := List.forall_mem_cons.mp hs
    have hdigit : (c.toNat - 48) * 8 ^ s.length ≤ 7 * 8 ^ s.length :=
      Nat.mul_le_mul_right _ (by have := hc.toNat; omega)
    have hrest := ih hs
    rw [octValue_cons, List.length_cons, Nat.pow_succ]
    omega

theorem oct_digits_reads (mem : Memory) (p : BitVec 64) (i : Nat) (integer multiplier : BitVec 64) :
    (∃ v, (oct_digits mem p i integer multiplier ()).2 = some (v, ()))
      ∧ Within (UpTo p i) (oct_digits mem p i integer multiplier) () := by
  induction i generalizing integer multiplier with
  | zero => exact ⟨⟨integer, rfl⟩, fun a ha => absurd ha List.not_mem_nil⟩
  | succ i ih =>
    unfold Within
    rw [oct_digits, fetch_bind, List.forall_mem_cons]
    split
    · obtain ⟨hret, hin⟩ := ih (integer + _) (multiplier * 8)
      refine ⟨hret, ⟨i + 1, Nat.le_refl _, rfl⟩, fun a ha => ?_⟩
      obtain ⟨j, hj, rfl⟩ := hin a ha
      exact ⟨j, Nat.le_succ_of_le hj, rfl⟩
    · exact ⟨⟨integer, rfl⟩, ⟨i + 1, Nat.le_refl _, rfl⟩, fun a ha => absurd ha List.not_mem_nil⟩

/-- **When `oct_to_dec` is right**: the value if the first digit is 0, and the reads if
there is one; for the empty string the byte in front of it is read. -/
theorem oct_to_dec_right_iff (mem : Memory) (p : BitVec 64) (s : List Byte) (hnul : 0 ∉ s)
    (h : readBytes mem p (s.length + 1) = s ++ [0]) :
    (s ≠ [] → s.length ≤ 21 → (∀ c ∈ s, OctalDigit c) →
        ((∀ fuel > s.length, oct_to_dec mem fuel p = some (BitVec.ofNat 64 (octValue s)))
          ↔ s.head? = some (ascii '0')))
      ∧ ((∀ fuel > s.length, ∃ reads, oct_to_dec_reads mem fuel p = some reads
          ∧ ∀ a ∈ reads, ∃ i ≤ s.length, a = p + BitVec.ofNat 64 i) ↔ s ≠ []) := by
  constructor
  · intro hne hlen hs
    obtain ⟨c, t, rfl⟩ := List.exists_cons_of_ne_nil hne
    have hpow : 8 ^ t.length ≤ 8 ^ 20 := Nat.pow_le_pow_right (by decide) (Nat.le_of_succ_le_succ hlen)
    have hlt := octValue_lt (List.forall_mem_cons.mp hs).2
    have hc := (List.forall_mem_cons.mp hs).1.toNat
    have hall : octValue (c :: t) = octValue t ↔ c = ascii '0' := by
      rw [octValue_cons, Nat.add_eq_right, Nat.mul_eq_zero, ← BitVec.toNat_inj,
        show (ascii '0').toNat = 48 from rfl]
      have := Nat.pow_pos (n := t.length) (show 0 < 8 by decide)
      omega
    have hrun : ∀ fuel > (c :: t).length,
        oct_to_dec mem fuel p = some (BitVec.ofNat 64 (octValue t)) :=
      fun fuel hfuel => oct_to_dec_tail h hs (by simp) (by omega) hfuel
    have hinj : BitVec.ofNat 64 (octValue t) = BitVec.ofNat 64 (octValue (c :: t))
        ↔ octValue (c :: t) = octValue t := by
      have hwhole := octValue_lt hs
      rw [List.length_cons, Nat.pow_succ] at hwhole
      rw [← BitVec.toNat_inj, BitVec.toNat_ofNat, BitVec.toNat_ofNat]
      omega
    rw [List.head?_cons, Option.some.injEq, ← hall, ← hinj]
    refine ⟨fun hright => ?_, fun heq fuel hfuel => by rw [hrun fuel hfuel, heq]⟩
    have hlast := Nat.lt_succ_self (c :: t).length
    exact Option.some.inj ((hrun _ hlast).symm.trans (hright _ hlast))
  · -- the call returns; what `strlen` reads is in the string, so the loop decides
    have hrun : ∀ fuel > s.length,
        (∃ reads, oct_to_dec_reads mem fuel p = some reads
          ∧ ∀ a ∈ reads, ∃ i ≤ s.length, a = p + BitVec.ofNat 64 i)
        ↔ Within (UpTo p s.length)
            (oct_digits mem p (BitVec.ofNat 64 s.length - 1).toNat 0 1) () := by
      intro fuel hfuel
      obtain ⟨hlen, hin⟩ := strlen_eq mem s fuel p hnul h hfuel
      obtain ⟨⟨v, hv⟩, -⟩ :=
        oct_digits_reads mem p (BitVec.ofNat 64 s.length - 1).toNat 0 1
      have hret : (oct_to_dec_traced mem fuel p ()).2 = some (v, ()) := by
        rw [oct_to_dec_traced, bind_of_some hlen]
        exact hv
      rw [oct_to_dec_reads, hret, Option.map_some]
      simp only [Option.some.injEq, exists_eq_left']
      exact (within_bind hlen).trans (and_iff_right hin)
    constructor
    · rintro hright rfl
      have hback : (BitVec.ofNat 64 ([] : List Byte).length - 1).toNat = 2 ^ 64 - 2 + 1 := by decide
      have hin := (hrun 1 Nat.one_pos).mp (hright 1 Nat.one_pos)
      rw [hback] at hin
      obtain ⟨i, hi, ha⟩ := hin _ List.mem_cons_self
      rw [Nat.le_zero.mp hi] at ha
      exact absurd ((BitVec.add_right_inj p).mp ha) (by decide)
    · intro hne fuel hfuel
      refine (hrun fuel hfuel).mpr fun a ha => ?_
      obtain ⟨j, hj, rfl⟩ := (oct_digits_reads mem p _ 0 1).2 a ha
      have hpos := List.length_pos_of_ne_nil hne
      rw [BitVec.toNat_sub, BitVec.toNat_ofNat, show (1 : BitVec 64).toNat = 1 from rfl] at hj
      exact ⟨j, by omega, rfl⟩

/-- The string `10` at address 0. -/
def octalTen : Memory := fun a => (bytes ['1', '0']).getD a.toNat 0

theorem oct_to_dec_right_ten : ¬ ∀ fuel > 2, oct_to_dec octalTen fuel 0 = some 8 :=
  fun h => absurd ((oct_to_dec_right_iff octalTen 0 (bytes ['1', '0']) (by decide) rfl).1
    (by decide) (by decide) (by unfold OctalDigit; decide) |>.mp h) (by decide)

theorem oct_to_dec_first_digit :
    oct_to_dec octalTen 3 0 = some 0 ∧ octValue (bytes ['1', '0']) = 8
      ∧ oct_to_dec_reads (fun _ => 0) 1 0x1000 = some [0x1000, 0xFFF] := by
  decide

/-! ## §6. The walk over the headers. -/

theorem buf_offset_toNat {k : Nat} (h : initrd_buf.toNat + k < 2 ^ 64) :
    (initrd_buf + BitVec.ofNat 64 k).toNat = initrd_buf.toNat + k := by
  rw [BitVec.toNat_add, BitVec.toNat_ofNat]
  omega

theorem block_mul (b : Nat) :
    BitVec.ofNat 64 b * USTAR_BLOCK_SIZE = BitVec.ofNat 64 (512 * b) := by
  rw [Nat.mul_comm, BitVec.ofNat_mul]
  rfl

theorem next_block (b : Nat) (hn : n < 8 ^ 10) :
    BitVec.ofNat 64 b + (BitVec.ofNat 64 n + USTAR_BLOCK_SIZE - 1) / USTAR_BLOCK_SIZE + 1
      = BitVec.ofNat 64 (b + ((n + 511) / 512 + 1)) := by
  have hround : (BitVec.ofNat 64 n + USTAR_BLOCK_SIZE - 1) / USTAR_BLOCK_SIZE
      = BitVec.ofNat 64 ((n + 511) / 512) := by
    refine BitVec.eq_of_toNat_eq ?_
    have h8 : (8 : Nat) ^ 10 = 1073741824 := by decide
    have hnum : (BitVec.ofNat 64 n + USTAR_BLOCK_SIZE - 1).toNat = n + 511 := by
      rw [USTAR_BLOCK_SIZE]
      bv_omega
    rw [BitVec.toNat_udiv, hnum, BitVec.toNat_ofNat, Nat.mod_eq_of_lt (by omega)]
    rfl
  rw [hround, ← Nat.add_assoc, BitVec.ofNat_add, BitVec.ofNat_add]
  rfl

theorem archiveSize_pos (entries : List Entry) : 512 ≤ archiveSize entries := by
  cases entries with
  | nil => exact Nat.le_refl _
  | cons e entries =>
    rw [archiveSize]
    omega

theorem find_entry_spec {initrd_size : BitVec 64} {path : List Byte}
    (hpath : 0 ∉ path) (hmem : initrd_buf.toNat + initrd_size.toNat < 2 ^ 64)
    (entries : List Entry) (fuel b : Nat) (hfuel : entries.length + 12 < fuel)
    (harch : ArchiveAt mem (initrd_buf + BitVec.ofNat 64 (512 * b)) entries)
    (hsize : 512 * b + archiveSize entries ≤ initrd_size.toNat) :
    match entries.find? (fun e => e.name = path) with
      | none => find_entry mem initrd_buf initrd_size path fuel (BitVec.ofNat 64 b) = some none
      | some e => ∃ b', find_entry mem initrd_buf initrd_size path fuel (BitVec.ofNat 64 b)
            = some (some (BitVec.ofNat 64 b'))
          ∧ EntryAt mem (initrd_buf + BitVec.ofNat 64 (512 * b')) e
          ∧ 512 * (b' + 1) + e.data.length ≤ initrd_size.toNat := by
  induction entries generalizing fuel b with
  | nil =>
    obtain ⟨fuel, rfl⟩ : ∃ f, fuel = f + 1 := ⟨fuel - 1, by omega⟩
    have hsig := mt (memcmp_eq_zero_iff mem ustar _).mp harch
    simp only [List.find?_nil]
    rw [find_entry, block_mul]
    by_cases hin : initrd_buf + initrd_size < initrd_buf + BitVec.ofNat 64 (512 * b)
    · rw [if_pos hin]
    · rw [if_neg hin, if_pos hsig]
  | cons e entries ih =>
    obtain ⟨fuel, rfl⟩ : ∃ f, fuel = f + 1 := ⟨fuel - 1, by omega⟩
    obtain ⟨hentry, hrest⟩ := harch
    simp only [archiveSize] at hsize
    have hpos := archiveSize_pos entries
    simp only [List.length_cons] at hfuel
    -- the header is inside the buffer and has the signature
    have hin : ¬ initrd_buf + initrd_size < initrd_buf + BitVec.ofNat 64 (512 * b) := by
      rw [BitVec.lt_def, buf_offset_toNat (by omega), BitVec.toNat_add,
        Nat.mod_eq_of_lt hmem]
      omega
    have hsig : ¬ memcmp mem (initrd_buf + BitVec.ofNat 64 (512 * b) + SIGNATURE) ustar ≠ 0 :=
      not_not.mpr ((memcmp_eq_zero_iff mem ustar _).mpr hentry.signature)
    have hcmp := strcmp_eq_zero_iff e.name path e.name_nul hpath
    rw [← strcmp_eq mem path _ e.name e.name_nul hentry.name] at hcmp
    by_cases hname : e.name = path
    · -- found
      simp only [List.find?_cons, hname, decide_true]
      refine ⟨b, ?_, hentry, ?_⟩
      · rw [find_entry, block_mul, if_neg hin, if_neg hsig, if_pos (hcmp.mpr hname)]
      · have hblocks : e.data.length ≤ 512 * e.blocks := by
          rw [Entry.blocks]
          omega
        omega
    · -- skip its blocks
      have hnext : find_entry mem initrd_buf initrd_size path (fuel + 1) (BitVec.ofNat 64 b)
          = find_entry mem initrd_buf initrd_size path fuel
              (BitVec.ofNat 64 (b + (e.blocks + 1))) := by
        rw [find_entry, block_mul, if_neg hin, if_neg hsig, if_neg (mt hcmp.mp hname),
          oct_to_dec_eq hentry.size e.size_lt (by omega), Option.bind_some,
          next_block b e.size_lt]
        rfl
      have hmul : 512 * (b + (e.blocks + 1)) = 512 * b + 512 * (e.blocks + 1) := Nat.mul_add ..
      rw [BitVec.add_assoc, ← BitVec.ofNat_add, ← hmul] at hrest
      have hspec := ih fuel (b + (e.blocks + 1)) (by omega) hrest (by omega)
      simp only [List.find?_cons, hname, decide_false]
      rw [hnext]
      exact hspec

/-! ## §7. The copy, and the whole call. -/

theorem memcpy_spec (mem : Memory) (dest src : BitVec 64) (len : Nat) :
    len < 2 ^ 64 →
    (∀ i < len, ∀ j < len, dest + BitVec.ofNat 64 i ≠ src + BitVec.ofNat 64 j) →
    (∀ i < len, memcpy mem dest src len (dest + BitVec.ofNat 64 i)
        = mem (src + BitVec.ofNat 64 i))
    ∧ ∀ a, (∀ i < len, a ≠ dest + BitVec.ofNat 64 i) → memcpy mem dest src len a = mem a := by
  induction len with
  | zero =>
    intro _ _
    exact ⟨fun i hi => absurd hi (Nat.not_lt_zero i), fun a _ => rfl⟩
  | succ len ih =>
    intro hlen hapart
    obtain ⟨hcopied, hframe⟩ := ih (by omega)
      fun i hi j hj => hapart i (Nat.lt_succ_of_lt hi) j (Nat.lt_succ_of_lt hj)
    have hstep : memcpy mem dest src (len + 1)
        = Function.update (memcpy mem dest src len) (dest + BitVec.ofNat 64 len)
            (memcpy mem dest src len (src + BitVec.ofNat 64 len)) := by
      simp only [memcpy, List.range_succ, List.foldl_append, List.foldl_cons, List.foldl_nil]
    have hsrc : memcpy mem dest src len (src + BitVec.ofNat 64 len)
        = mem (src + BitVec.ofNat 64 len) :=
      hframe _ fun i hi => (hapart i (Nat.lt_succ_of_lt hi) len (Nat.lt_succ_self len)).symm
    rw [hstep, hsrc]
    refine ⟨fun i hi => ?_, fun a ha => ?_⟩
    · by_cases hil : i = len
      · rw [hil, Function.update_self]
      · have hne : dest + BitVec.ofNat 64 i ≠ dest + BitVec.ofNat 64 len := by
          intro he
          have hnat := congrArg BitVec.toNat (BitVec.add_right_inj dest |>.mp he)
          rw [BitVec.toNat_ofNat, BitVec.toNat_ofNat, Nat.mod_eq_of_lt (by omega),
            Nat.mod_eq_of_lt (by omega)] at hnat
          exact hil hnat
        rw [Function.update_of_ne hne]
        exact hcopied i (by omega)
    · rw [Function.update_of_ne (ha len (Nat.lt_succ_self len))]
      exact hframe a fun i hi => ha i (Nat.lt_succ_of_lt hi)

/-- **Lookup is right.**  In a well-formed archive inside the buffer, for every
path: with enough fuel the call returns; if an entry has that name, the result
is the size of the first such entry and a fresh block with a copy of its data,
the rest of the memory unchanged; if none has, the result is 0 and `*dst` and
the memory are untouched. -/
theorem initrd_read_file_lookup (kmalloc : BitVec 64 → BitVec 64)
    (initrd_buf initrd_size : BitVec 64) (mem : Memory) (entries : List Entry) (path : List Byte)
    (harch : Archive mem initrd_buf initrd_size entries) (hpath : 0 ∉ path)
    (hheap : HeapApart kmalloc initrd_buf initrd_size entries) (fuel : Nat)
    (hfuel : entries.length + 12 < fuel) :
    match entries.find? (fun e => e.name = path) with
    | none => initrd_read_file kmalloc initrd_buf initrd_size fuel mem path = some ⟨0, none, mem⟩
    | some e => ∃ mem', initrd_read_file kmalloc initrd_buf initrd_size fuel mem path
          = some ⟨BitVec.ofNat 64 e.data.length,
              some (kmalloc (BitVec.ofNat 64 e.data.length)), mem'⟩
        ∧ readBytes mem' (kmalloc (BitVec.ofNat 64 e.data.length)) e.data.length = e.data
        ∧ ∀ a, (∀ i < e.data.length,
              a ≠ kmalloc (BitVec.ofNat 64 e.data.length) + BitVec.ofNat 64 i) →
            mem' a = mem a := by
  have hzero : initrd_buf + BitVec.ofNat 64 (512 * 0) = initrd_buf := by simp
  have hfind := find_entry_spec hpath harch.addressable entries fuel 0 hfuel
    (by rw [hzero]; exact harch.layout) (by have := harch.inside; omega)
  cases he : entries.find? (fun e => e.name = path) with
  | none =>
    simp only [he] at hfind ⊢
    rw [initrd_read_file]
    show (find_entry mem initrd_buf initrd_size path fuel (BitVec.ofNat 64 0)).bind _ = _
    rw [hfind]
    rfl
  | some e =>
    simp only [he] at hfind ⊢
    obtain ⟨b, hb, hentry, hinside⟩ := hfind
    have hlt : e.data.length < 2 ^ 64 := Nat.lt_trans e.size_lt (by decide)
    have hsize : (BitVec.ofNat 64 e.data.length).toNat = e.data.length := by
      rw [BitVec.toNat_ofNat, Nat.mod_eq_of_lt hlt]
    -- the data starts one block after the header
    have hdata : initrd_buf + (BitVec.ofNat 64 b + 1) * USTAR_BLOCK_SIZE
        = initrd_buf + BitVec.ofNat 64 (512 * (b + 1)) := by
      rw [← block_mul, BitVec.ofNat_add]
      rfl
    have hapart : ∀ i < e.data.length, ∀ j < e.data.length,
        kmalloc (BitVec.ofNat 64 e.data.length) + BitVec.ofNat 64 i
          ≠ initrd_buf + BitVec.ofNat 64 (512 * (b + 1)) + BitVec.ofNat 64 j := by
      intro i hi j hj
      rw [BitVec.add_assoc, ← BitVec.ofNat_add]
      exact hheap e (List.mem_of_find?_eq_some he) i hi _ (by omega)
    obtain ⟨hcopied, hframe⟩ := memcpy_spec mem _ _ e.data.length hlt hapart
    refine ⟨_, ?_, ?_, hframe⟩
    · rw [initrd_read_file]
      show (find_entry mem initrd_buf initrd_size path fuel (BitVec.ofNat 64 0)).bind _ = _
      rw [hb, Option.bind_some]
      simp only [block_mul, oct_to_dec_eq hentry.size e.size_lt (show 11 < fuel by omega),
        Option.map_some, hdata, hsize]
    · refine readBytes_eq fun i c hi => ?_
      rw [hcopied i (List.getElem?_eq_some_iff.mp hi).1]
      have hsrc : initrd_buf + BitVec.ofNat 64 (512 * (b + 1))
          = initrd_buf + BitVec.ofNat 64 (512 * b) + 512 := by
        rw [Nat.mul_add, BitVec.ofNat_add, ← BitVec.add_assoc]
        rfl
      rw [hsrc]
      exact readBytes_at hentry.data hi

/-- The byte of a header block at an offset. -/
def headerByte (e : Entry) (off : Nat) : Byte :=
  if off < 124 then e.name.getD off 0
  else if off < 136 then (octal11 e.data.length).getD (off - 124) 0
  else if 257 ≤ off then ustar.getD (off - 257) 0 else 0

/-- Two entries, `a` with an empty file and `b` with three bytes. -/
def twoFiles : List Entry :=
  [⟨bytes ['a'], [], by decide, by decide, by decide⟩,
    ⟨bytes ['b'], bytes ['x', 'y', 'z'], by decide, by decide, by decide⟩]

def twoFilesMemory : Memory := fun a =>
  if a < 0x1200 then headerByte ⟨bytes ['a'], [], by decide, by decide, by decide⟩ (a.toNat - 0x1000)
  else if a < 0x1400 then
    headerByte ⟨bytes ['b'], bytes ['x', 'y', 'z'], by decide, by decide, by decide⟩
      (a.toNat - 0x1200)
  else (bytes ['x', 'y', 'z']).getD (a.toNat - 0x1400) 0

theorem initrd_read_file_second :
    ∃ mem', initrd_read_file (fun _ => 0x8000) 0x1000 2048 20 twoFilesMemory (bytes ['b'])
        = some ⟨3, some 0x8000, mem'⟩
      ∧ readBytes mem' 0x8000 3 = bytes ['x', 'y', 'z'] := by
  have harch : Archive twoFilesMemory 0x1000 2048 twoFiles :=
    ⟨by decide +kernel, by decide, by decide⟩
  have hheap : HeapApart (fun _ => 0x8000) 0x1000 2048 twoFiles := by
    intro e he i hi j hj heq
    have hlen : ∀ e ∈ twoFiles, e.data.length ≤ 3 := by decide
    have hle := hlen e he
    have hj' : j < 2048 := hj
    have hnat : (0x8000 + i % 2 ^ 64) % 2 ^ 64 = (0x1000 + j % 2 ^ 64) % 2 ^ 64 :=
      congrArg BitVec.toNat heq
    omega
  obtain ⟨mem', hread, hcopy, -⟩ := initrd_read_file_lookup (fun _ => 0x8000) 0x1000 2048
    twoFilesMemory twoFiles (bytes ['b']) harch (by decide) hheap 20 (by decide)
  exact ⟨mem', hread, hcopy⟩

end Quack.Initrd
