/-
  Quack.Pci.Routing
  **`pci_dev::route_irq`: PINS THROUGH BRIDGES (`pci.cpp`).**

  The loop goes up the buses to the first one with a `_PRT` and changes the pin at
  every bridge.  The rule takes the slot of the device below the bridge; the code
  takes the slot of the bridge.  A bus is new memory of `kmalloc`, which is zero,
  so the flags that the constructor leaves alone are clear.

    • `route_irq_iff` — exactly when the device is looked up as the rule has it.
-/
import Quack.Arch.Ioapic

namespace Quack.Pci

open Ioapic

/-! ## §1. The source. -/

/-- The fields of a `pci_dev` that the routing reads, of type `uint8_t`. -/
structure PciDev where
  slot : Nat
  func : Nat
  irq_pin : Nat
  deriving Repr, DecidableEq

/-- An entry of a `_PRT`, as `lai_pci_parse_prt` gives it. -/
structure PrtEntry where
  slot : Int
  function : Int
  pin : Int
  gsi : BitVec 32
  deriving Repr, DecidableEq

/-- A `pci_bus` with what `fetch_prt` finds: a root bus has no `device()` and no
`parent()`, any other bus has the bridge it is behind. -/
inductive PciBus where
  | root (prt : Option (List PrtEntry))
  | behind (prt : Option (List PrtEntry)) (device : PciDev) (parent : PciBus)

def pci_bridge_pin (pin dev : Nat) : Nat := ((pin - 1) + dev % 4) % 4 + 1

/-- What the second loop of `route_irq` looks for, and where. -/
structure Lookup where
  slot : Nat
  func : Nat
  pin : Nat
  prt : List PrtEntry
  deriving Repr, DecidableEq

def route_up : PciBus → (bus_dev : PciDev) → (irq_pin : Nat) → Option Lookup
  | .root none, _, _ => none
  | .root (some prt), bus_dev, irq_pin => some ⟨bus_dev.slot, bus_dev.func, irq_pin, prt⟩
  | .behind (some prt) _ _, bus_dev, irq_pin => some ⟨bus_dev.slot, bus_dev.func, irq_pin, prt⟩
  | .behind none device parent, _, irq_pin =>
    route_up parent device (pci_bridge_pin irq_pin device.slot)

def Lookup.finds (l : Lookup) (e : PrtEntry) : Bool :=
  e.slot = l.slot && (e.function = l.func || e.function = -1) && e.pin = (l.pin : Int) - 1

/-- `route_irq`: `_irq` and `_gsi` afterwards. -/
def route_irq (ioapics : List MadtIoapic) (dev : PciDev) (bus : PciBus) :
    Option (BitVec 8 × BitVec 8) :=
  if dev.irq_pin = 0 then some (0, 0)
  else (route_up bus dev dev.irq_pin).map fun l =>
    match l.prt.find? l.finds with
    | none => (0, 0)
    | some e => (ioapic_get_vector_by_gsi ioapics e.gsi, e.gsi.setWidth 8)

/-! ## §2. The rule. -/

def swizzled : PciBus → (below : PciDev) → (pin : Nat) → Option Lookup
  | .root prt, below, pin => prt.map fun prt => ⟨below.slot, below.func, pin, prt⟩
  | .behind (some prt) _ _, below, pin => some ⟨below.slot, below.func, pin, prt⟩
  | .behind none bridge parent, below, pin =>
    swizzled parent bridge ((pin - 1 + below.slot) % 4 + 1)

def Routed (ioapics : List MadtIoapic) (dev : PciDev) (bus : PciBus) : Prop :=
  if dev.irq_pin = 0 then route_irq ioapics dev bus = some (0, 0)
  else match swizzled bus dev dev.irq_pin with
    | some l => route_up bus dev dev.irq_pin = some l
    | none => route_irq ioapics dev bus = some (0, 0)

/-- The device, or the bridge it is behind, on the first bus with a `_PRT`. -/
def PciBus.top : PciBus → PciDev → Option PciDev
  | .root none, _ => none
  | .root (some _), dev => some dev
  | .behind (some _) _ _, dev => some dev
  | .behind none bridge parent, _ => parent.top bridge

/-! ## §3. The difference. -/

theorem route_up_spec (bus : PciBus) :
    ∀ (dev : PciDev) (p q : Nat), 0 < p → 0 < q →
      match bus.top dev with
      | none => route_up bus dev p = none ∧ swizzled bus dev q = none
      | some last => ∃ p' q' prt, route_up bus dev p = some ⟨last.slot, last.func, p', prt⟩
          ∧ swizzled bus dev q = some ⟨last.slot, last.func, q', prt⟩
          ∧ (p' + q + dev.slot) % 4 = (q' + p + last.slot) % 4
          ∧ ((p' = p ∧ q' = q ∧ last = dev) ∨ (0 < p' ∧ p' ≤ 4 ∧ 0 < q' ∧ q' ≤ 4)) := by
  induction bus with
  | root prt =>
    intro dev p q _ _
    cases prt with
    | none => exact ⟨rfl, rfl⟩
    | some prt => exact ⟨p, q, prt, rfl, rfl, by omega, Or.inl ⟨rfl, rfl, rfl⟩⟩
  | behind prt bridge parent ih =>
    intro dev p q hp hq
    cases prt with
    | some prt => exact ⟨p, q, prt, rfl, rfl, by omega, Or.inl ⟨rfl, rfl, rfl⟩⟩
    | none =>
      have hup := ih bridge (pci_bridge_pin p bridge.slot) ((q - 1 + dev.slot) % 4 + 1)
        (Nat.succ_pos _) (Nat.succ_pos _)
      unfold PciBus.top route_up swizzled
      cases hlast : parent.top bridge with
      | none =>
        rw [hlast] at hup
        exact hup
      | some last =>
        rw [hlast] at hup
        obtain ⟨p', q', prt, hcode, hrule, hmod, hend⟩ := hup
        unfold pci_bridge_pin at hmod hend
        refine ⟨p', q', prt, hcode, hrule, by omega, Or.inr ?_⟩
        rcases hend with ⟨rfl, rfl, -⟩ | hend
        · omega
        · exact hend

/-- **When a device is routed as the rule has it.**  If no bus has a `_PRT`, a null bridge is
read.  Otherwise the slot and the function are right, and the pin is right exactly if the
device and the one it is found by on the bus with the `_PRT` have the same slot modulo 4. -/
theorem route_irq_iff (ioapics : List MadtIoapic) (dev : PciDev) (bus : PciBus) :
    Routed ioapics dev bus ↔ dev.irq_pin = 0
      ∨ ∃ last, bus.top dev = some last ∧ last.slot % 4 = dev.slot % 4 := by
  unfold Routed
  by_cases hpin : dev.irq_pin = 0
  · simp [hpin, route_irq]
  have hpos : 0 < dev.irq_pin := Nat.pos_of_ne_zero hpin
  have hup := route_up_spec bus dev dev.irq_pin dev.irq_pin hpos hpos
  rw [if_neg hpin]
  cases hlast : bus.top dev with
  | none =>
    rw [hlast] at hup
    obtain ⟨hcode, hrule⟩ := hup
    simp [hrule, route_irq, hpin, hcode]
  | some last =>
    rw [hlast] at hup
    obtain ⟨p', q', prt, hcode, hrule, hmod, hend⟩ := hup
    rw [hrule, hcode]
    simp only [Option.some.injEq, Lookup.mk.injEq, true_and, and_true, exists_eq_left', hpin,
      false_or]
    rcases hend with ⟨rfl, rfl, rfl⟩ | hend
    · simp
    · omega

/-- Pin 1 of slot 1 behind a bridge in slot 2 is pin 2 of the bridge; pin 3 is looked up. -/
theorem route_irq_wrong_pin :
    ¬ ∀ (ioapics : List MadtIoapic) (dev : PciDev) (bus : PciBus), Routed ioapics dev bus := by
  intro h
  have hdev := h [] ⟨1, 0, 1⟩ (.behind none ⟨2, 0, 0⟩ (.root (some [⟨2, -1, 1, 17⟩])))
  have hcode : some (Lookup.mk 2 0 3 [⟨2, -1, 1, 17⟩]) = some ⟨2, 0, 2, [⟨2, -1, 1, 17⟩]⟩ := hdev
  exact absurd hcode (by decide)

end Quack.Pci
